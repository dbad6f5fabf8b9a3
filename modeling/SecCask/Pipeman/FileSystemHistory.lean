import SecCask.Pipeman.FileSystemLookup

/-!
# SecCask.Pipeman.FileSystemHistory

The storage as a versioned key-branch store, for keys and branches that are single path
components: no put fails, no two puts meet in a file, and heads, values and parents are those
of the log of the puts, except that text mode does not keep carriage returns.
-/

namespace SecCask.Pipeman.FileSystemStorage

open PosixPath

variable {host : Host} {s s' : Store} {t t' : Tree}

/-! ### A put that meets no obstacle -/

theorem getHeadVersion_congr {key branch : String}
    (h : t.lookup (headFileName :: getPathFromBranch host key branch) =
      t'.lookup (headFileName :: getPathFromBranch host key branch)) :
    getHeadVersion host t key branch = getHeadVersion host t' key branch := by
  have hexists : t.pathExists (headFileName :: getPathFromBranch host key branch) =
      t'.pathExists (headFileName :: getPathFromBranch host key branch) := by
    rw [FileTree.pathExists, FileTree.pathExists, h]
  have hread : t.read (headFileName :: getPathFromBranch host key branch) =
      t'.read (headFileName :: getPathFromBranch host key branch) := by
    rw [FileTree.read, FileTree.read, h]
  simp only [getHeadVersion, hexists, hread]

/-- What is on the way of a put, and what it replaces. -/
structure Unobstructed (host : Host) (p : Put) (t : Tree) : Prop where
  way : ∀ q, q <:+ p.newDir host → ∀ content, t.lookup q ≠ some (.file content)
  legal : ∀ name q, name :: q <:+ p.newDir host → t.lookup (name :: q) = none →
    FileName.legal name = true
  value : t.lookup (genericFileName :: p.remoteDir host) ≠ some .folder
  place : t.lookup (p.valueFile host) ≠ some .folder
  parents : t.lookup (parentsFileName :: p.newDir host) ≠ some .folder
  head : t.lookup (p.headFile host) ≠ some .folder

theorem cons_remoteDir_not_suffix {p : Put} {name : Name} (h : p.hversion.name ≠ name) :
    ¬ name :: p.remoteDir host <:+ p.newDir host := by
  intro hsuffix
  have heq := hsuffix.eq_of_length (by simp [Put.newDir])
  exact h (List.cons.inj heq).1.symm

theorem cons_newDir_not_suffix (p : Put) (name : Name) :
    ¬ name :: p.newDir host <:+ p.newDir host := by
  intro hsuffix
  have hlength := hsuffix.length_le
  rw [List.length_cons] at hlength
  omega

theorem cons_newDir_ne_cons_remoteDir (p : Put) (name name' : Name) :
    name :: p.newDir host ≠ name' :: p.remoteDir host := by
  intro heq
  have hlength := congrArg List.length heq
  simp [Put.newDir] at hlength

/-- What is where when the value has been moved. -/
def movedLookup (host : Host) (p : Put) (t : Tree) (q : Path) : Option (Entry ByteArray) :=
  if q = genericFileName :: p.remoteDir host then none
  else if q = p.valueFile host then some (.file p.value.bytes)
  else if q <:+ p.newDir host then some .folder
  else t.lookup q

/-- What is where when the put has returned. -/
def putLookup (host : Host) (p : Put) (parent : String) (t : Tree) (q : Path) :
    Option (Entry ByteArray) :=
  if q = p.headFile host then some (.file p.hversion.text.toUTF8)
  else if q = parentsFileName :: p.newDir host then some (.file parent.toUTF8)
  else movedLookup host p t q

theorem move_ok (hkey : host.componentKey = "") {p : Put} {d : FileSystem}
    (h : Unobstructed host p d.tree) :
    ∃ d', Effect.runFrom ((moveSteps host p).forM id) d = (.ok ⟨⟩, d') ∧
      ∀ q, d'.tree.lookup q = movedLookup host p d.tree q := by
  have hgenericN : ¬ genericFileName :: p.remoteDir host <:+ p.newDir host :=
    cons_remoteDir_not_suffix p.hversion.name_ne_genericFileName
  have hbelow : ∀ {q}, q <:+ p.remoteDir host → q <:+ p.newDir host := fun hs =>
    hs.trans (remoteDir_suffix_newDir p)
  -- The folder of the branch.
  obtain ⟨d₁, hrun₁, hlookup₁⟩ := Disk.checkOrCreateDir_ok (p.remoteDir host) (d := d)
    (fun q hq => h.way q (hbelow hq))
    (fun name q hq => h.legal name q (hbelow hq))
  -- The value, beside the folders of the versions.
  obtain ⟨d₂, hrun₂, hlookup₂⟩ := Disk.write_ok genericFileName (p.remoteDir host)
    p.value.bytes (d := d₁) (by decide)
    (by rw [hlookup₁, if_pos List.suffix_rfl])
    (by rw [hlookup₁, if_neg fun hs => hgenericN (hbelow hs)]; exact h.value)
  have hwrite : Effect.runFrom (writeValue host p) d₁ = (.ok ⟨⟩, d₂) := by
    rw [writeValue, Effect.runFrom_bind, hrun₂, hkey]
    rfl
  -- The folder of the version.
  obtain ⟨d₃, hrun₃, hlookup₃⟩ := Disk.checkOrCreateDir_ok (p.newDir host) (d := d₂)
    (by
      intro q hq content
      have hne : q ≠ genericFileName :: p.remoteDir host := fun heq => hgenericN (heq ▸ hq)
      rw [hlookup₂, if_neg hne, hlookup₁]
      split
      · simp
      · exact h.way q hq content)
    (by
      intro name q hq hnone
      have hne : name :: q ≠ genericFileName :: p.remoteDir host := fun heq =>
        hgenericN (heq ▸ hq)
      rw [hlookup₂, if_neg hne, hlookup₁] at hnone
      split at hnone
      · cases hnone
      · exact h.legal name q hq hnone)
  have hall₃ : ∀ q, d₃.tree.lookup q =
      if q <:+ p.newDir host then some .folder
      else if q = genericFileName :: p.remoteDir host then some (.file p.value.bytes)
      else d.tree.lookup q := by
    intro q
    rw [hlookup₃, hlookup₂, hlookup₁]
    by_cases hq : q <:+ p.newDir host
    · rw [if_pos hq, if_pos hq]
    · rw [if_neg hq, if_neg hq, if_neg fun hs => hq (hbelow hs)]
  -- The value goes to its place.
  obtain ⟨d₄, hrun₄, hlookup₄⟩ := Disk.rename_ok
    (genericFileName :: p.remoteDir host) genericFileName (p.newDir host)
    (show d₃.tree.lookup _ = some (.file p.value.bytes) by
      rw [hall₃, if_neg hgenericN, if_pos rfl])
    (cons_newDir_ne_cons_remoteDir p _ _).symm (by decide)
    (by rw [hall₃, if_pos List.suffix_rfl])
    (by
      rw [hall₃, if_neg (cons_newDir_not_suffix p _),
        if_neg (cons_newDir_ne_cons_remoteDir p _ _)]
      exact h.place)
  refine ⟨d₄, ?_, ?_⟩
  · rw [moveSteps, Effect.runFrom_forM_cons, id, hrun₁]
    dsimp only
    rw [Effect.runFrom_forM_cons, id, hwrite]
    dsimp only
    rw [Effect.runFrom_forM_cons, id, hrun₃]
    dsimp only
    rw [Effect.runFrom_forM_cons, id, hrun₄]
    rfl
  · intro q
    rw [hlookup₄, hall₃, movedLookup]
    by_cases hq : q = genericFileName :: p.remoteDir host
    · rw [if_pos hq, if_pos hq]
    · rw [if_neg hq, if_neg hq, if_neg hq]
      rfl

theorem put_ok (hkey : host.componentKey = "") {p : Put} {d : FileSystem}
    (h : Unobstructed host p d.tree) {currentHead : Option String}
    (hcurrent : getHeadVersion host d.tree p.key p.branch = .ok currentHead) :
    ∃ d', Effect.runFrom (putUntil host p (putSteps host p).length) d = (.ok ⟨⟩, d') ∧
      ∀ q, d'.tree.lookup q = putLookup host p (currentHead.getD "<null>") d.tree q := by
  have hheadN : ¬ p.headFile host <:+ p.newDir host :=
    cons_remoteDir_not_suffix p.hversion.name_ne_headFileName
  have hheadB : p.headFile host ≠ genericFileName :: p.remoteDir host := fun heq =>
    absurd (List.cons.inj heq).1 (by decide)
  have hheadValue : p.headFile host ≠ p.valueFile host :=
    (cons_newDir_ne_cons_remoteDir p _ _).symm
  have hheadParents : p.headFile host ≠ parentsFileName :: p.newDir host :=
    (cons_newDir_ne_cons_remoteDir p _ _).symm
  have hparentsValue : parentsFileName :: p.newDir host ≠ p.valueFile host := fun heq =>
    absurd (List.cons.inj heq).1 (by decide)
  obtain ⟨d₄, hmove, hlookup₄⟩ := move_ok hkey h
  have hhead₄ : d₄.tree.lookup (p.headFile host) = d.tree.lookup (p.headFile host) := by
    rw [hlookup₄, movedLookup, if_neg hheadB, if_neg hheadValue, if_neg hheadN]
  have hfolder₄ : ∀ q, q <:+ p.newDir host → d₄.tree.lookup q = some .folder := by
    intro q hq
    have hne : q ≠ genericFileName :: p.remoteDir host := by
      intro heq
      exact @cons_remoteDir_not_suffix host _ _
        p.hversion.name_ne_genericFileName (heq ▸ hq)
    have hne' : q ≠ p.valueFile host := fun heq => cons_newDir_not_suffix p _ (heq ▸ hq)
    rw [hlookup₄, movedLookup, if_neg hne, if_neg hne', if_pos hq]
  -- The parents.
  obtain ⟨d₅, hrun₅, hlookup₅⟩ := Disk.write_ok parentsFileName (p.newDir host)
    (currentHead.getD "<null>").toUTF8 (d := d₄) (by decide)
    (hfolder₄ _ List.suffix_rfl)
    (by
      rw [hlookup₄, movedLookup, if_neg (cons_newDir_ne_cons_remoteDir p _ _),
        if_neg hparentsValue, if_neg (cons_newDir_not_suffix p _)]
      exact h.parents)
  have hparents : Effect.runFrom (writeParents host p) d₄ = (.ok ⟨⟩, d₅) := by
    rw [writeParents, Effect.runFrom_bind, Effect.runFrom_get]
    dsimp only
    rw [Effect.runFrom_bind, Effect.runFrom_ofExcept,
      (getHeadVersion_congr hhead₄).trans hcurrent]
    exact hrun₅
  have hbranch₅ : d₅.tree.lookup (p.remoteDir host) = some .folder := by
    have hne : p.remoteDir host ≠ parentsFileName :: p.newDir host := by
      intro heq
      have hlength := congrArg List.length heq
      simp only [Put.newDir, List.length_cons] at hlength
      omega
    rw [hlookup₅, if_neg hne, hfolder₄ _ (remoteDir_suffix_newDir p)]
  have hhead₅ : d₅.tree.lookup (p.headFile host) = d.tree.lookup (p.headFile host) := by
    rw [hlookup₅, if_neg hheadParents, hhead₄]
  -- The head, emptied and written.
  obtain ⟨d₆, hrun₆, hlookup₆⟩ := Disk.write_ok headFileName (p.remoteDir host)
    "".toUTF8 (d := d₅) (by decide) hbranch₅
    (fun hdir => h.head (hhead₅.symm.trans hdir))
  obtain ⟨d₇, hrun₇, hlookup₇⟩ := Disk.write_ok headFileName (p.remoteDir host)
    p.hversion.text.toUTF8 (d := d₆) (by decide)
    (by rw [hlookup₆, if_neg (List.cons_ne_self _ _).symm, hbranch₅])
    (by
      rw [hlookup₆, if_pos rfl]
      simp)
  refine ⟨d₇, ?_, ?_⟩
  · have hsteps : putSteps host p =
        moveSteps host p ++ writeParents host p :: setHeadSteps host p := by
      rw [putSteps, storeSteps, hkey]
      rfl
    rw [putUntil, List.take_length, hsteps, Effect.runFrom_forM_append, hmove]
    dsimp only
    rw [Effect.runFrom_forM_cons, id, hparents]
    dsimp only
    rw [setHeadSteps, Effect.runFrom_forM_cons, id, hrun₆]
    dsimp only
    rw [Effect.runFrom_forM_cons, id, hrun₇]
    rfl
  · intro q
    rw [hlookup₇, hlookup₆, hlookup₅, hlookup₄, putLookup]
    by_cases hq : q = p.headFile host
    · rw [if_pos hq, if_pos (show q = headFileName :: p.remoteDir host from hq)]
    · rw [if_neg hq, if_neg (show q ≠ headFileName :: p.remoteDir host from hq),
        if_neg (show q ≠ headFileName :: p.remoteDir host from hq)]

/-! ### Single path components -/

/-- The text is one component of a path. -/
structure IsComponent (text : String) : Prop where
  isName : IsName text.toList
  legal : FileName.legal text.toList = true

def Put.Plain (p : Put) : Prop := IsComponent p.key ∧ IsComponent p.branch

def rootDir (host : Host) : Path := abspath host.cwd host.basePath

theorem keyDir_of_isComponent {key : String} (hkey : IsComponent key) :
    keyDir host key = key.toList :: rootDir host := by
  rw [keyDir, abspath_join, hkey.isName.abspath, rootDir]

theorem getPathFromBranch_of_isComponent {key branch : String} (hkey : IsComponent key)
    (hbranch : IsComponent branch) :
    getPathFromBranch host key branch = branch.toList :: key.toList :: rootDir host := by
  rw [getPathFromBranch, abspath_join, abspath_join, hkey.isName.abspath,
    hbranch.isName.abspath, rootDir]

theorem Put.Plain.remoteDir {p : Put} (h : p.Plain) :
    p.remoteDir host = p.branch.toList :: p.key.toList :: rootDir host :=
  getPathFromBranch_of_isComponent h.1 h.2

theorem Put.Plain.child {p : Put} (h : p.Plain) :
    p.remoteDir host = p.branch.toList :: keyDir host p.key := by
  rw [h.remoteDir, keyDir_of_isComponent h.1]

/-- The folders of single components are too short to lead through the folder of a version. -/
theorem Put.Plain.keepsClear {s : Store} {c : PutCall} (hc : c.put.Plain)
    (hissued : ∀ p ∈ s.issued, p.Plain)
    (hfresh : ∀ name, s.disk.tree.lookup (c.put.dirUnder host name) = none) :
    KeepsClear host s c where
  outside := by
    intro p hp heq
    have hlength := congrArg List.length heq
    rw [Put.newDir, hc.remoteDir, (hissued p hp).remoteDir] at hlength
    simp at hlength
  shadowless := by
    intro p hp name hsuffix
    have hplain : p.Plain := by
      rcases List.mem_cons.mp hp with rfl | hp
      · exact hc
      · exact hissued p hp
    have hlength := hsuffix.length_le
    rw [Put.dirUnder, keyDir_of_isComponent hplain.1, hc.remoteDir] at hlength
    simp only [List.length_cons] at hlength
    omega
  fresh := hfresh

/-! ### The log of the puts -/

/-- The puts into a folder, newest first. -/
def putsIn (host : Host) (log : List Put) (folder : Path) : List Put :=
  log.filter fun p => p.remoteDir host = folder

/-- What `PARENTS` names: the newest of these puts. -/
def newest (puts : List Put) : Option String := puts.head?.map (·.hversion.text)

/-- Every `PARENTS` file names the put before. -/
def ParentsKept (host : Host) (t : Tree) : List Put → Prop
  | [] => True
  | p :: older =>
      t.lookup (parentsFileName :: p.newDir host) =
        some (.file ((newest (putsIn host older (p.remoteDir host))).getD "<null>").toUTF8) ∧
      ParentsKept host t older

/-- The tree of a storage whose puts have all returned. -/
structure History (host : Host) (s : Store) : Prop where
  inv : Inv host s
  all : s.issued = s.returned
  plain : ∀ p ∈ s.returned, p.Plain
  root : s.disk.tree.lookup (rootDir host) = some .folder
  keyFolder : ∀ k content, s.disk.tree.lookup (k :: rootDir host) ≠ some (.file content)
  branchFolder : ∀ b k content, s.disk.tree.lookup (b :: k :: rootDir host) ≠ some (.file content)
  /-- A branch folder has its head and the folders of its versions. -/
  inBranch : ∀ name b k, s.disk.tree.lookup (name :: b :: k :: rootDir host) ≠ none →
    (name = headFileName ∧
      s.disk.tree.lookup (name :: b :: k :: rootDir host) ≠ some .folder) ∨
    ∃ p ∈ s.returned, name = p.hversion.name
  inVersion : ∀ name v b k,
    s.disk.tree.lookup (name :: v :: b :: k :: rootDir host) ≠ some .folder
  heads : ∀ b k, s.disk.tree.lookup (headFileName :: b :: k :: rootDir host) =
    (newest (putsIn host s.returned (b :: k :: rootDir host))).map fun text => .file text.toUTF8
  parents : ParentsKept host s.disk.tree s.returned

theorem ParentsKept.congr {log : List Put} (h : ParentsKept host t log)
    (hsame : ∀ p ∈ log, t'.lookup (parentsFileName :: p.newDir host) =
      t.lookup (parentsFileName :: p.newDir host)) : ParentsKept host t' log := by
  induction log with
  | nil => trivial
  | cons p older ih =>
      refine ⟨(hsame p (by simp)).trans h.1, ih h.2 fun q hq => hsame q (by simp [hq])⟩

theorem getHeadVersion_of_heads {key branch : String} {puts : List Put}
    (h : t.lookup (headFileName :: getPathFromBranch host key branch) =
      (newest puts).map fun text => .file text.toUTF8) :
    getHeadVersion host t key branch = .ok (newest puts) := by
  cases puts with
  | nil => exact getHeadVersion_of_none h
  | cons p older => exact getHeadVersion_of_file h

theorem unobstructed_of_history {p : Put} (h : History host s) (hp : p.Plain)
    (hnew : p.hversion ∉ s.issued.map (·.hversion)) : Unobstructed host p s.disk.tree := by
  have hversion : ∀ q ∈ s.returned, p.hversion.name ≠ q.hversion.name := by
    intro q hq heq
    refine hnew ?_
    rw [HVersion.name_injective heq, h.all]
    exact List.mem_map_of_mem hq
  -- the ways to the new folder: itself, its branch, its key, and what leads to the base
  have hway : ∀ q, q <:+ p.newDir host → q = p.newDir host ∨ q = p.remoteDir host ∨
      q = p.key.toList :: rootDir host ∨ s.disk.tree.lookup q = some .folder := by
    intro q hq
    rw [Put.newDir, hp.remoteDir] at hq ⊢
    rcases List.suffix_cons_iff.mp hq with hq | hq
    · exact Or.inl hq
    rcases List.suffix_cons_iff.mp hq with hq | hq
    · exact Or.inr (Or.inl hq)
    rcases List.suffix_cons_iff.mp hq with hq | hq
    · exact Or.inr (Or.inr (Or.inl hq))
    · have hfolder := Disk.lookup_of_isFolder h.root q
      rw [if_pos hq] at hfolder
      exact Or.inr (Or.inr (Or.inr hfolder))
  -- nothing in the branch folder has the new name: a version has no `@`, and the versions differ
  have hnewDir : s.disk.tree.lookup (p.newDir host) = none := by
    by_contra hexists
    rw [Put.newDir, hp.remoteDir] at hexists
    rcases h.inBranch _ _ _ hexists with ⟨hhead, -⟩ | ⟨q, hq, heq⟩
    · exact p.hversion.name_ne_headFileName hhead
    · exact hversion q hq heq
  refine ⟨?_, ?_, ?_, ?_, ?_, ?_⟩
  · intro q hq content
    rcases hway q hq with rfl | rfl | rfl | hfolder
    · rw [hnewDir]
      simp
    · rw [hp.remoteDir]
      exact h.branchFolder _ _ _
    · exact h.keyFolder _ _
    · rw [hfolder]
      simp
  · intro name q hq hnone
    rcases hway _ hq with heq | heq | heq | hfolder
    · rw [(List.cons.inj heq).1]
      exact p.hversion.legal
    · rw [hp.remoteDir] at heq
      rw [(List.cons.inj heq).1]
      exact hp.2.legal
    · rw [(List.cons.inj heq).1]
      exact hp.1.legal
    · rw [hnone] at hfolder
      cases hfolder
  · intro hfolder
    rw [hp.remoteDir] at hfolder
    rcases h.inBranch _ _ _ (by rw [hfolder]; simp) with ⟨hhead, -⟩ | ⟨q, -, heq⟩
    · exact absurd hhead (by decide)
    · exact q.hversion.name_ne_genericFileName heq.symm
  · rw [Put.valueFile, Put.newDir, hp.remoteDir]
    exact h.inVersion _ _ _ _
  · rw [Put.newDir, hp.remoteDir]
    exact h.inVersion _ _ _ _
  · intro hfolder
    rw [Put.headFile, hp.remoteDir] at hfolder
    rcases h.inBranch _ _ _ (by rw [hfolder]; simp) with ⟨-, hnot⟩ | ⟨q, -, heq⟩
    · exact hnot hfolder
    · exact q.hversion.name_ne_headFileName heq.symm

/-! ### One more put -/

/-- A path that lies no deeper than the branch folders is a folder on the way, or as before. -/
theorem putLookup_of_length_le {p : Put} {parent : String} {q : Path}
    (hlength : q.length ≤ (p.remoteDir host).length) :
    putLookup host p parent t q =
      if q <:+ p.newDir host then some .folder else t.lookup q := by
  have hne : ∀ name, q ≠ name :: p.remoteDir host := by
    intro name heq
    rw [heq, List.length_cons] at hlength
    omega
  have hne' : ∀ name, q ≠ name :: p.newDir host := by
    intro name heq
    rw [heq, Put.newDir, List.length_cons, List.length_cons] at hlength
    omega
  rw [putLookup, Put.headFile, if_neg (hne _), if_neg (hne' _), movedLookup, if_neg (hne _),
    Put.valueFile, if_neg (hne' _)]

/-- In a branch folder. -/
theorem putLookup_cons_of_length_eq {p : Put} {parent : String} {name : Name} {folder : Path}
    (hlength : folder.length = (p.remoteDir host).length) :
    putLookup host p parent t (name :: folder) =
      if folder = p.remoteDir host then
        if name = headFileName then some (.file p.hversion.text.toUTF8)
        else if name = genericFileName then none
        else if name = p.hversion.name then some .folder
        else t.lookup (name :: folder)
      else t.lookup (name :: folder) := by
  have hne : ∀ name', name :: folder ≠ name' :: p.newDir host := by
    intro name' heq
    have heq' := congrArg List.length heq
    simp only [Put.newDir, List.length_cons] at heq'
    omega
  have hsuffix : name :: folder <:+ p.newDir host ↔
      name = p.hversion.name ∧ folder = p.remoteDir host := by
    constructor
    · intro h
      exact List.cons.inj (h.eq_of_length
        (by rw [Put.newDir, List.length_cons, List.length_cons, hlength]))
    · intro h
      rw [h.1, h.2]
      exact List.suffix_rfl
  rw [putLookup, Put.headFile, if_neg (hne _), movedLookup, Put.valueFile, if_neg (hne _)]
  simp only [List.cons.injEq, hsuffix]
  by_cases hfolder : folder = p.remoteDir host
  · simp only [hfolder, and_true, if_true]
  · simp only [hfolder, and_false, if_false]

/-- What a branch folder has after the put: its head, the new version, or what it had. -/
theorem putLookup_inBranch {p : Put} {parent : String} {name : Name} {folder : Path}
    (hlength : folder.length = (p.remoteDir host).length)
    (hexists : putLookup host p parent t (name :: folder) ≠ none) :
    (name = headFileName ∧ putLookup host p parent t (name :: folder) ≠ some .folder) ∨
      name = p.hversion.name ∨
      putLookup host p parent t (name :: folder) = t.lookup (name :: folder) := by
  rw [putLookup_cons_of_length_eq hlength] at hexists ⊢
  by_cases hfolder : folder = p.remoteDir host
  · rw [if_pos hfolder] at hexists ⊢
    by_cases hhead : name = headFileName
    · exact Or.inl ⟨hhead, by simp [hhead]⟩
    by_cases hgeneric : name = genericFileName
    · rw [if_neg hhead, if_pos hgeneric] at hexists
      exact absurd rfl hexists
    by_cases hname : name = p.hversion.name
    · exact Or.inr (Or.inl hname)
    · rw [if_neg hhead, if_neg hgeneric, if_neg hname]
      exact Or.inr (Or.inr rfl)
  · rw [if_neg hfolder]
    exact Or.inr (Or.inr rfl)

/-- In the folder of a version. -/
theorem putLookup_cons_cons {p : Put} {parent : String} {name v : Name} {folder : Path}
    (hlength : folder.length = (p.remoteDir host).length) :
    putLookup host p parent t (name :: v :: folder) =
      if v :: folder = p.newDir host then
        if name = parentsFileName then some (.file parent.toUTF8)
        else if name = genericFileName then some (.file p.value.bytes)
        else t.lookup (name :: v :: folder)
      else t.lookup (name :: v :: folder) := by
  have hne : ∀ name', name :: v :: folder ≠ name' :: p.remoteDir host := by
    intro name' heq
    have heq' := congrArg List.length heq
    simp only [List.length_cons] at heq'
    omega
  have hsuffix : ¬ name :: v :: folder <:+ p.newDir host := by
    intro h
    have hle := h.length_le
    simp only [Put.newDir, List.length_cons] at hle
    omega
  rw [putLookup, Put.headFile, if_neg (hne _), movedLookup, if_neg (hne _), if_neg hsuffix,
    Put.valueFile]
  simp only [List.cons.injEq]
  by_cases hfolder : v :: folder = p.newDir host
  · simp only [hfolder, and_true, if_true]
  · simp only [hfolder, and_false, if_false]

theorem putsIn_cons (host : Host) (p : Put) (log : List Put) (folder : Path) :
    putsIn host (p :: log) folder =
      if folder = p.remoteDir host then p :: putsIn host log folder
      else putsIn host log folder := by
  rw [putsIn, List.filter_cons]
  by_cases h : folder = p.remoteDir host
  · rw [if_pos (by simp [h]), if_pos h, putsIn]
  · rw [if_neg (by simpa using fun heq => h heq.symm), if_neg h, putsIn]

theorem fresh_of_history {p : Put} (h : History host s) (hp : p.Plain)
    (hnew : p.hversion ∉ s.issued.map (·.hversion)) (name : Name) :
    s.disk.tree.lookup (p.dirUnder host name) = none := by
  by_contra hexists
  rw [Put.dirUnder, keyDir_of_isComponent hp.1] at hexists
  rcases h.inBranch _ _ _ hexists with ⟨hhead, -⟩ | ⟨q, hq, heq⟩
  · exact p.hversion.name_ne_headFileName hhead
  · refine hnew ?_
    rw [HVersion.name_injective heq, h.all]
    exact List.mem_map_of_mem hq

section Put

variable {p : Put} {parent : String} (h : History host s) (hp : p.Plain)
  (hput : ∀ q, t.lookup q = putLookup host p parent s.disk.tree q)

include hp in
theorem length_branchFolder (b k : Name) :
    (b :: k :: rootDir host).length = (p.remoteDir host).length := by
  rw [hp.remoteDir, List.length_cons, List.length_cons, List.length_cons, List.length_cons]

include hput in
/-- Down to the branch folders a put only makes folders. -/
theorem lookup_put_ne_file {q : Path} (hlength : q.length ≤ (p.remoteDir host).length)
    (hold : ∀ content, s.disk.tree.lookup q ≠ some (.file content)) (content : ByteArray) :
    t.lookup q ≠ some (.file content) := by
  rw [hput, putLookup_of_length_le hlength]
  split
  · simp
  · exact hold content

include h hp hput

theorem root_put : t.lookup (rootDir host) = some .folder := by
  have hlength : (rootDir host).length ≤ (p.remoteDir host).length := by
    rw [hp.remoteDir, List.length_cons, List.length_cons]
    omega
  rw [hput, putLookup_of_length_le hlength]
  split
  · rfl
  · exact h.root

theorem inBranch_put (name b k : Name)
    (hexists : t.lookup (name :: b :: k :: rootDir host) ≠ none) :
    (name = headFileName ∧ t.lookup (name :: b :: k :: rootDir host) ≠ some .folder) ∨
      ∃ q ∈ p :: s.returned, name = q.hversion.name := by
  rw [hput] at hexists ⊢
  rcases putLookup_inBranch (length_branchFolder hp b k) hexists with hhead | hname | hold
  · exact Or.inl hhead
  · exact Or.inr ⟨p, by simp, hname⟩
  · rw [hold] at hexists ⊢
    rcases h.inBranch name b k hexists with hhead | ⟨q, hq, hname⟩
    · exact Or.inl hhead
    · exact Or.inr ⟨q, List.mem_cons_of_mem _ hq, hname⟩

theorem inVersion_put (name v b k : Name) :
    t.lookup (name :: v :: b :: k :: rootDir host) ≠ some .folder := by
  rw [hput, putLookup_cons_cons (length_branchFolder hp b k)]
  split
  · split
    · simp
    · split
      · simp
      · exact h.inVersion name v b k
  · exact h.inVersion name v b k

theorem heads_put (b k : Name) :
    t.lookup (headFileName :: b :: k :: rootDir host) =
      (newest (putsIn host (p :: s.returned) (b :: k :: rootDir host))).map
        fun text => .file text.toUTF8 := by
  rw [hput, putLookup_cons_of_length_eq (length_branchFolder hp b k), putsIn_cons]
  split
  · rfl
  · exact h.heads b k

omit h hp in
/-- The older `PARENTS` lie in the folders of other versions. -/
theorem parents_put (hparents : ParentsKept host s.disk.tree s.returned)
    (hlengths : ∀ q ∈ s.returned, (q.remoteDir host).length = (p.remoteDir host).length)
    (hversion : ∀ q ∈ s.returned, p.hversion ≠ q.hversion)
    (hparent : parent = (newest (putsIn host s.returned (p.remoteDir host))).getD "<null>") :
    ParentsKept host t (p :: s.returned) := by
  refine ⟨?_, hparents.congr fun q hq => ?_⟩
  · rw [hput, Put.newDir, putLookup_cons_cons rfl, ← Put.newDir, if_pos rfl, if_pos rfl, hparent]
  · have hne : q.hversion.name :: q.remoteDir host ≠ p.newDir host := fun heq =>
      hversion q hq (HVersion.name_injective (List.cons.inj heq).1).symm
    rw [hput, Put.newDir, putLookup_cons_cons (hlengths q hq), if_neg hne]

end Put

/-- A further put of single components returns, and its log is one longer. -/
theorem history_step (hkey : host.componentKey = "") {p : Put} (h : History host s)
    (hp : p.Plain) (hnew : p.hversion ∉ s.issued.map (·.hversion)) :
    ∃ s', step host s (p.call host) = some s' ∧ s'.returned = p :: s.returned ∧
      History host s' := by
  have hversion : ∀ q ∈ s.returned, p.hversion ≠ q.hversion := by
    intro q hq heq
    refine hnew ?_
    rw [heq, h.all]
    exact List.mem_map_of_mem hq
  have hheads := h.heads p.branch.toList p.key.toList
  rw [← hp.remoteDir] at hheads
  obtain ⟨d, hrun, hlookup⟩ := put_ok hkey (unobstructed_of_history h hp hnew)
    (getHeadVersion_of_heads hheads)
  have hstep : step host s (p.call host) = some ⟨d, p :: s.issued, p :: s.returned⟩ := by
    rw [Put.call, step]
    dsimp only
    rw [if_neg hnew, hrun]
    dsimp only
    rw [if_pos le_rfl]
  have hclear : KeepsClear host s (p.call host) :=
    Put.Plain.keepsClear hp (by rw [h.all]; exact h.plain) (fresh_of_history h hp hnew)
  refine ⟨_, hstep, rfl, ?_⟩
  exact
    { inv := inv_step h.inv hclear hstep
      all := by rw [h.all]
      plain := List.forall_mem_cons.mpr ⟨hp, h.plain⟩
      root := root_put h hp hlookup
      keyFolder := fun k => lookup_put_ne_file hlookup
        ((Nat.le_succ _).trans_eq (length_branchFolder hp k k)) (h.keyFolder k)
      branchFolder := fun b k => lookup_put_ne_file hlookup (length_branchFolder hp b k).le
        (h.branchFolder b k)
      inBranch := inBranch_put h hp hlookup
      inVersion := inVersion_put h hp hlookup
      heads := heads_put h hp hlookup
      parents := parents_put hlookup h.parents
        (fun q hq => ((h.plain q hq).remoteDir ▸ length_branchFolder hp _ _)) hversion rfl }

/-- The storage before its first put, with an empty base folder. -/
structure EmptyBase (host : Host) (d : FileSystem) : Prop where
  root : d.tree.lookup (rootDir host) = some .folder
  empty : ∀ q, q ≠ [] → d.tree.lookup (q ++ rootDir host) = none

theorem history_start {d : FileSystem} (h : EmptyBase host d) : History host (start d) where
  inv := inv_start d
  all := rfl
  plain := fun p hp => by cases hp
  root := h.root
  keyFolder := by
    intro k content hfile
    rw [show (start d).disk.tree.lookup (k :: rootDir host) = none from
      h.empty [k] (by simp)] at hfile
    cases hfile
  branchFolder := by
    intro b k content hfile
    rw [show (start d).disk.tree.lookup (b :: k :: rootDir host) = none from
      h.empty [b, k] (by simp)] at hfile
    cases hfile
  inBranch := fun name b k hexists => absurd (h.empty [name, b, k] (by simp)) hexists
  inVersion := by
    intro name v b k hfolder
    rw [show (start d).disk.tree.lookup (name :: v :: b :: k :: rootDir host) = none from
      h.empty [name, v, b, k] (by simp)] at hfolder
    cases hfolder
  heads := fun b k => h.empty [headFileName, b, k] (by simp)
  parents := trivial

/-- A run of puts of single components: every one returns. -/
theorem exists_run (hkey : host.componentKey = "") {puts : List Put} {s : Store}
    (h : History host s) (hplain : ∀ p ∈ puts, p.Plain)
    (hdistinct : (puts.map (·.hversion)).Nodup)
    (hnew : ∀ p ∈ puts, p.hversion ∉ s.issued.map (·.hversion)) :
    ∃ s', Exec (step host) s (puts.map (Put.call host)) s' ∧
      s'.returned = puts.reverse ++ s.returned ∧ History host s' := by
  induction puts generalizing s with
  | nil => exact ⟨s, Exec.nil, rfl, h⟩
  | cons p puts ih =>
      rw [List.map_cons, List.nodup_cons] at hdistinct
      obtain ⟨s₁, hstep, hreturned, h₁⟩ :=
        history_step hkey h (hplain p (by simp)) (hnew p (by simp))
      obtain ⟨s', hrun, hlog, h'⟩ := ih h₁ (fun q hq => hplain q (by simp [hq])) hdistinct.2
        (by
          intro q hq hmem
          rw [h₁.all, hreturned, ← h.all, List.map_cons] at hmem
          rcases List.mem_cons.mp hmem with heq | hmem
          · exact hdistinct.1 (heq ▸ List.mem_map_of_mem hq)
          · exact hnew q (by simp [hq]) hmem)
      refine ⟨s', Exec.cons hstep hrun, ?_, h'⟩
      rw [hlog, hreturned, List.reverse_cons, List.append_assoc, List.singleton_append]

/-! ### Reading the log back -/

/-- The puts on a branch of a key, newest first. -/
def putsOn (log : List Put) (key branch : String) : List Put :=
  log.filter fun p => p.key = key ∧ p.branch = branch

/-- From a text that names a version, the `PARENTS` files lead through these versions to
`<null>`. -/
def Follows (t : Tree) (folder : Path) : String → List HVersion → Prop
  | text, [] => text = "<null>"
  | text, hversion :: older =>
      text = hversion.text ∧ ∃ parent,
        (t.read (parentsFileName :: hversion.name :: folder) >>= readText) = .ok parent ∧
        Follows t folder parent older

/-- What a versioned key-branch store returns, by the log of its puts. -/
structure VersionedStore (host : Host) (s : Store) : Prop where
  head : ∀ key branch, IsComponent key → IsComponent branch →
    head host s.disk.tree key branch = .ok (newest (putsOn s.returned key branch))
  getBranch : ∀ now key branch, IsComponent key → IsComponent branch →
    match (putsOn s.returned key branch).head? with
    | none => ∀ dtype, get host s.disk.tree now key (some branch) none dtype = .ok none
    | some p =>
        get host s.disk.tree now key (some branch) none p.value.dtype = .ok (some p.value)
  getVersion : ∀ now, ∀ p ∈ s.returned,
    get host s.disk.tree now p.key none (some p.hversion.text) p.value.dtype =
      .ok (some p.value)
  parents : ∀ key branch, IsComponent key → IsComponent branch →
    Follows s.disk.tree (getPathFromBranch host key branch)
      ((newest (putsOn s.returned key branch)).getD "<null>")
      ((putsOn s.returned key branch).map (·.hversion))

theorem putsOn_eq_putsIn {log : List Put} (hplain : ∀ p ∈ log, p.Plain) {key branch : String}
    (hkey : IsComponent key) (hbranch : IsComponent branch) :
    putsOn log key branch = putsIn host log (getPathFromBranch host key branch) := by
  refine List.filter_congr fun p hp => ?_
  rw [(hplain p hp).remoteDir, getPathFromBranch_of_isComponent hkey hbranch, decide_eq_decide,
    List.cons.injEq, List.cons.injEq, String.toList_inj, String.toList_inj]
  tauto

/-- A value comes back as it is if it is no text with a carriage return. -/
theorem transfer_value_iff (hopens : ∀ name, host.opensTemp name = true) {now key : String}
    {branch : Option String} {value : Value ByteArray} :
    transfer host now key branch value.dtype value.bytes = .ok value ↔
      ∀ raw, value = .string raw → '\r' ∉ raw.toList := by
  cases value with
  | file content => simp [Value.dtype, Value.bytes, transfer, hopens]
  | string raw =>
      simp only [Value.dtype, Value.bytes, transfer, Value.string.injEq, forall_eq']
      rw [← readText_eq_self_iff]
      rcases readText raw.toUTF8 with e | text
      · simp [Except.map, Except.mapError]
      · simp [Except.map, Except.mapError]

theorem readText_newest (puts : List Put) :
    readText ((newest puts).getD "<null>").toUTF8 = .ok ((newest puts).getD "<null>") := by
  cases puts with
  | nil => exact readText_eq_self_iff.mpr (by decide)
  | cons p older => exact p.hversion.readText_text

theorem follows_of_parentsKept {log : List Put} (h : ParentsKept host t log) (folder : Path) :
    Follows t folder ((newest (putsIn host log folder)).getD "<null>")
      ((putsIn host log folder).map (·.hversion)) := by
  induction log with
  | nil => rfl
  | cons p older ih =>
      rw [putsIn_cons]
      split
      · rename_i hfolder
        subst hfolder
        have hparents := h.1
        refine ⟨rfl, _, ?_, ih h.2⟩
        rw [← Put.newDir, FileTree.read, hparents]
        exact readText_newest _
      · exact ih h.2

theorem mem_of_head?_putsIn {log : List Put} {folder : Path} {p : Put}
    (h : (putsIn host log folder).head? = some p) : p ∈ log ∧ p.remoteDir host = folder := by
  have hmem := List.mem_of_head? h
  rw [putsIn, List.mem_filter, decide_eq_true_iff] at hmem
  exact hmem

/-- In a tree that holds the log, everything is read back exactly if text mode keeps every
text. -/
theorem versionedStore_iff (hopens : ∀ name, host.opensTemp name = true) (h : History host s) :
    VersionedStore host s ↔
      ∀ p ∈ s.returned, ∀ raw, p.value = .string raw → '\r' ∉ raw.toList := by
  have hget : ∀ now, ∀ p ∈ s.returned,
      get host s.disk.tree now p.key none (some p.hversion.text) p.value.dtype =
        (transfer host now p.key none p.value.dtype p.value.bytes).map some := by
    intro now p hp
    exact get_version_of_child h.inv hp (h.plain p hp).child now p.value.dtype
  have hheads : ∀ key branch, IsComponent key → IsComponent branch →
      s.disk.tree.lookup (headFileName :: getPathFromBranch host key branch) =
        (newest (putsIn host s.returned (getPathFromBranch host key branch))).map
          fun text => .file text.toUTF8 := by
    intro key branch hkey hbranch
    rw [getPathFromBranch_of_isComponent hkey hbranch]
    exact h.heads _ _
  constructor
  · intro hstore p hp
    have hvalue := (hget "" p hp).symm.trans (hstore.getVersion "" p hp)
    refine (transfer_value_iff hopens : transfer host "" p.key none p.value.dtype
      p.value.bytes = .ok p.value ↔ _).mp ?_
    rcases htransfer : transfer host "" p.key none p.value.dtype p.value.bytes with e | value <;>
      rw [htransfer] at hvalue
    · cases hvalue
    · rw [Option.some.inj (Except.ok.inj hvalue)]
  · intro htexts
    refine ⟨?_, ?_, ?_, ?_⟩
    · intro key branch hkey hbranch
      rw [head, @putsOn_eq_putsIn host _ h.plain _ _ hkey hbranch]
      exact getHeadVersion_of_heads (hheads key branch hkey hbranch)
    · intro now key branch hkey hbranch
      have hhead := hheads key branch hkey hbranch
      rw [@putsOn_eq_putsIn host _ h.plain _ _ hkey hbranch]
      rcases hlast : (putsIn host s.returned (getPathFromBranch host key branch)).head? with
        _ | p
      · rw [newest, hlast] at hhead
        exact fun dtype => get_branch_of_none hhead
      · obtain ⟨hp, hfolder⟩ := mem_of_head?_putsIn hlast
        have hvalue := h.inv.stored p hp
        rw [Put.valueFile, Put.newDir, hfolder] at hvalue
        rw [newest, hlast] at hhead
        show get host s.disk.tree now key (some branch) none p.value.dtype = _
        rw [get_branch_of_file hhead hvalue, (transfer_value_iff hopens).mpr (htexts p hp)]
        rfl
    · intro now p hp
      rw [hget now p hp, (transfer_value_iff hopens).mpr (htexts p hp)]
      rfl
    · intro key branch hkey hbranch
      rw [@putsOn_eq_putsIn host _ h.plain _ _ hkey hbranch]
      exact follows_of_parentsKept h.parents _

/-- **The store is versioned.** After any sequence of puts of single components the heads, the
values and the parents are those of the log, exactly if no string that was put has a carriage
return. -/
theorem versionedStore_iff_noCarriageReturn (hkey : host.componentKey = "")
    (hopens : ∀ name, host.opensTemp name = true) {d : FileSystem} (hempty : EmptyBase host d)
    {puts : List Put} (hplain : ∀ p ∈ puts, p.Plain)
    (hdistinct : (puts.map (·.hversion)).Nodup) :
    ∃ s, Exec (step host) (start d) (puts.map (Put.call host)) s ∧
      s.returned = puts.reverse ∧
      (VersionedStore host s ↔ ∀ p ∈ puts, ∀ raw, p.value = .string raw → '\r' ∉ raw.toList) := by
  obtain ⟨s, hrun, hreturned, h⟩ :=
    exists_run hkey (history_start hempty) hplain hdistinct (fun p _ hmem => by cases hmem)
  have hlog : s.returned = puts.reverse := by
    rw [hreturned]
    exact List.append_nil _
  refine ⟨s, hrun, hlog, ?_⟩
  rw [versionedStore_iff hopens h, hlog]
  simp only [List.mem_reverse]

theorem emptyBase_rootHost : EmptyBase rootHost ⟨FileTree.empty, []⟩ where
  root := FileTree.lookup_nil _
  empty := by
    intro q hq
    refine FileTree.lookup_empty ?_
    rw [show rootDir rootHost = [] from by decide, List.append_nil]
    exact hq

theorem isComponent_k : IsComponent "k" :=
  ⟨⟨by decide, by decide, by decide, by decide⟩, by decide⟩

theorem isComponent_b : IsComponent "b" :=
  ⟨⟨by decide, by decide, by decide, by decide⟩, by decide⟩

/-- Two puts on one branch. -/
theorem twoPuts_versioned :
    ∃ s, Exec (step rootHost) emptyStore ([putOne, putTwo].map (Put.call rootHost)) s ∧
      s.returned = [putTwo, putOne] ∧ VersionedStore rootHost s := by
  have hplain : ∀ p ∈ [putOne, putTwo], p.Plain := by
    intro p hp
    simp only [List.mem_cons, List.not_mem_nil, or_false] at hp
    rcases hp with rfl | rfl
    · exact ⟨isComponent_k, isComponent_b⟩
    · exact ⟨isComponent_k, isComponent_b⟩
  obtain ⟨s, hrun, hreturned, hiff⟩ := versionedStore_iff_noCarriageReturn
    (show rootHost.componentKey = "" from rfl) (fun _ => rfl) emptyBase_rootHost hplain (by decide)
  refine ⟨s, hrun, hreturned, hiff.mpr ?_⟩
  intro p hp raw hraw
  simp only [List.mem_cons, List.not_mem_nil, or_false] at hp
  rcases hp with rfl | rfl
  · cases hraw
    decide
  · cases hraw
    decide

/-- A put of the string `"a\rb"`. -/
def putReturn : Put := ⟨"k", "b", .string "a\rb", putOne.hversion⟩

/-- It is read back with another line end. -/
theorem carriageReturn_lost :
    ∃ s, Exec (step rootHost) emptyStore [putReturn.call rootHost] s ∧
      s.returned = [putReturn] ∧ ¬ VersionedStore rootHost s := by
  have hplain : ∀ p ∈ [putReturn], p.Plain := by
    intro p hp
    rw [List.mem_singleton.mp hp]
    exact ⟨isComponent_k, isComponent_b⟩
  obtain ⟨s, hrun, hreturned, h⟩ := exists_run (show rootHost.componentKey = "" from rfl)
    (history_start emptyBase_rootHost) hplain (by simp) (by simp [start])
  have hlog : s.returned = [putReturn] := by
    rw [hreturned]
    rfl
  refine ⟨s, hrun, hlog, ?_⟩
  rw [versionedStore_iff (fun _ => rfl) h, hlog]
  intro hall
  exact hall putReturn (by simp) _ rfl (by decide)

end SecCask.Pipeman.FileSystemStorage
