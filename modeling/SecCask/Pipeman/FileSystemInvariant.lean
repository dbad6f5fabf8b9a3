import SecCask.Pipeman.FileSystemPut

/-!
# SecCask.Pipeman.FileSystemInvariant

What holds in the folder tree of the storage after any sequence of puts, complete or stopped,
whose folders keep clear of the folders of earlier versions: every value is in its place, a
version is found in one folder only, and a head names a version that is complete.
-/

namespace SecCask.Pipeman.FileSystemStorage

open PosixPath

variable {host : Host} {s s' : Store} {c : PutCall}

/-- The folder of a put's version, were it put on the branch folder `name` of its key. -/
def Put.dirUnder (host : Host) (p : Put) (name : Name) : Path :=
  p.hversion.name :: name :: keyDir host p.key

structure Inv (host : Host) (s : Store) : Prop where
  issued : ∀ p ∈ s.returned, p ∈ s.issued
  /-- The value of every put that returned is in its place. -/
  stored : ∀ p ∈ s.returned,
    s.disk.tree.lookup (p.valueFile host) = some (.file p.value.bytes)
  /-- A version is found in no branch folder but its own. -/
  unique : ∀ p ∈ s.issued, ∀ name, s.disk.tree.lookup (p.dirUnder host name) ≠ none →
    name :: keyDir host p.key = p.remoteDir host

/-- Every head names a version whose value is in its place. -/
def Headed (host : Host) (s : Store) : Prop :=
  ∀ folder content, s.disk.tree.lookup (headFileName :: folder) = some (.file content) →
    ∃ p ∈ s.issued, p.remoteDir host = folder ∧ content = p.hversion.text.toUTF8 ∧
      s.disk.tree.lookup (p.valueFile host) = some (.file p.value.bytes)

/-- The folder of a put keeps clear of the folders of versions. -/
structure KeepsClear (host : Host) (s : Store) (c : PutCall) : Prop where
  /-- It is not the folder of an earlier version. -/
  outside : ∀ p ∈ s.issued, c.put.remoteDir host ≠ p.newDir host
  /-- It does not lead through a folder that would be taken for the folder of a version. -/
  shadowless : ∀ p ∈ c.put :: s.issued, ∀ name,
    p.dirUnder host name <:+ c.put.remoteDir host → name :: keyDir host p.key = p.remoteDir host
  /-- No folder of the key has an entry called as the new version. -/
  fresh : ∀ name, s.disk.tree.lookup (c.put.dirUnder host name) = none

/-- The put leaves nothing called as a value in the current folder of the process. -/
def Put.Elsewhere (host : Host) (p : Put) : Prop :=
  p.remoteDir host ≠ host.cwd ∧ p.newDir host ≠ host.cwd ∧
    ¬ genericFileName :: host.cwd <:+ p.remoteDir host

/-- What a call does. -/
theorem step_cases (h : step host s c = some s') :
    c.put.hversion ∉ s.issued.map (·.hversion) ∧ s'.issued = c.put :: s.issued ∧
      PutOutcome host c.put c.steps s.disk (Effect.runFrom (putUntil host c.put c.steps) s.disk) ∧
      s'.disk = (Effect.runFrom (putUntil host c.put c.steps) s.disk).2 ∧
      (s'.returned = s.returned ∨ (s'.returned = c.put :: s.returned ∧
        (putSteps host c.put).length ≤ c.steps ∧
        (Effect.runFrom (putUntil host c.put c.steps) s.disk).1 = .ok ⟨⟩)) := by
  rw [step] at h
  split at h
  · cases h
  rename_i hnew
  refine ⟨hnew, ?_⟩
  have houtcome := @putOutcome host c.put c.steps s.disk
  rcases hrun : Effect.runFrom (putUntil host c.put c.steps) s.disk with ⟨e | _, d⟩ <;>
    rw [hrun] at h houtcome
  · obtain rfl := Option.some.inj h
    exact ⟨rfl, houtcome, rfl, Or.inl rfl⟩
  · dsimp only at h
    split at h
    · rename_i hfinished
      obtain rfl := Option.some.inj h
      exact ⟨rfl, houtcome, rfl, Or.inr ⟨rfl, hfinished, rfl⟩⟩
    · obtain rfl := Option.some.inj h
      exact ⟨rfl, houtcome, rfl, Or.inl rfl⟩

theorem step_changes (h : step host s c = some s') :
    Disk.Changes (c.put.newDir host) (c.put.files host) s.disk s'.disk := by
  obtain ⟨-, -, -, hdisk, -⟩ := step_cases h
  rw [hdisk]
  exact putUntil_changes c.put c.steps s.disk

/-! ### Values stay -/

/-- The files of a put lie in its branch folder and in the folder of its version. -/
theorem of_mem_files {p : Put} {name : Name} {folder : Path}
    (h : name :: folder ∈ p.files host) :
    (folder = p.remoteDir host ∧ name ∈ [headFileName, genericFileName, hashFileName]) ∨
      (folder = p.newDir host ∧ name ∈ [genericFileName, hashFileName, parentsFileName]) := by
  simp only [Put.files, Put.headFile, Put.storeFiles, Put.valueFile, List.mem_cons,
    List.cons.injEq, List.not_mem_nil, or_false] at h
  simp only [List.mem_cons, List.not_mem_nil, or_false]
  rcases h with ⟨hname, hfolder⟩ | ⟨hname, hfolder⟩ | ⟨hname, hfolder⟩ | ⟨hname, hfolder⟩ |
    ⟨hname, hfolder⟩ | ⟨hname, hfolder⟩
  · exact Or.inl ⟨hfolder, Or.inl hname⟩
  · exact Or.inl ⟨hfolder, Or.inr (Or.inl hname)⟩
  · exact Or.inl ⟨hfolder, Or.inr (Or.inr hname)⟩
  · exact Or.inr ⟨hfolder, Or.inl hname⟩
  · exact Or.inr ⟨hfolder, Or.inr (Or.inl hname)⟩
  · exact Or.inr ⟨hfolder, Or.inr (Or.inr hname)⟩

theorem valueFile_notMem_files {p q : Put} (hdistinct : p.hversion ≠ q.hversion)
    (houtside : q.remoteDir host ≠ p.newDir host) : p.valueFile host ∉ q.files host := by
  intro h
  rcases of_mem_files h with ⟨hfolder, -⟩ | ⟨hfolder, -⟩
  · exact houtside hfolder.symm
  · exact hdistinct (HVersion.name_injective (List.cons.inj hfolder).1)

/-- A value in its place stays there. -/
theorem valueFile_kept (hclear : KeepsClear host s c) (h : step host s c = some s') {p : Put}
    (hp : p ∈ s.issued)
    (hvalue : s.disk.tree.lookup (p.valueFile host) = some (.file p.value.bytes)) :
    s'.disk.tree.lookup (p.valueFile host) = some (.file p.value.bytes) := by
  have hdistinct : p.hversion ≠ c.put.hversion := fun heq =>
    (step_cases h).1 (heq ▸ List.mem_map_of_mem hp)
  rw [(step_changes h).lookup_of_ne_none
    (valueFile_notMem_files hdistinct (hclear.outside p hp)) (by simp [hvalue]), hvalue]

/-! ### One call -/

/-- A name of a version is none of the names of files. -/
theorem name_notMem_files (hversion : HVersion) (folder : Path) (p : Put) :
    hversion.name :: folder ∉ p.files host := by
  have hhead := hversion.name_ne_headFileName
  have hgeneric := hversion.name_ne_genericFileName
  have hhash := hversion.name_ne_hashFileName
  have hparents := hversion.name_ne_parentsFileName
  intro h
  rcases of_mem_files h with ⟨-, hname⟩ | ⟨-, hname⟩
  · simp only [List.mem_cons, hhead, hgeneric, hhash, List.not_mem_nil, or_self] at hname
  · simp only [List.mem_cons, hgeneric, hhash, hparents, List.not_mem_nil, or_self] at hname

theorem unique_step (hinv : Inv host s) (hclear : KeepsClear host s c)
    (h : step host s c = some s') {p : Put} (hp : p ∈ c.put :: s.issued) {name : Name}
    (hexists : s'.disk.tree.lookup (p.dirUnder host name) ≠ none) :
    name :: keyDir host p.key = p.remoteDir host := by
  rcases step_changes h (p.dirUnder host name) with heq | hfile | ⟨hsuffix, -, -⟩
  · rw [heq] at hexists
    rcases List.mem_cons.mp hp with rfl | hp
    · exact absurd (hclear.fresh name) hexists
    · exact hinv.unique p hp name hexists
  · exact absurd hfile (name_notMem_files _ _ _)
  · -- A folder that was created: on the way to the branch folder, or for the new version.
    rcases List.suffix_cons_iff.mp hsuffix with heq | hway
    · obtain ⟨hname, hfolder⟩ := List.cons.inj heq
      have hsame : p.hversion = c.put.hversion := HVersion.name_injective hname
      rcases List.mem_cons.mp hp with rfl | hp
      · exact hfolder
      · exact absurd (hsame ▸ List.mem_map_of_mem hp) (step_cases h).1
    · exact hclear.shadowless p hp name hway

/-- What a call that does not stop at the emptied head may do to a head. -/
theorem head_cases (hstop : c.steps ≠ (storeSteps host c.put).length + 1)
    (h : step host s c = some s') (folder : Path) :
    s'.disk.tree.lookup (headFileName :: folder) = s.disk.tree.lookup (headFileName :: folder) ∨
    (folder = c.put.remoteDir host ∧ (putSteps host c.put).length ≤ c.steps ∧
      s'.disk.tree.lookup (headFileName :: folder) = some (.file c.put.hversion.text.toUTF8) ∧
      s'.disk.tree.lookup (c.put.valueFile host) = some (.file c.put.value.bytes)) ∨
    (headFileName :: folder <:+ c.put.remoteDir host ∧
      s.disk.tree.lookup (headFileName :: folder) = none ∧
      s'.disk.tree.lookup (headFileName :: folder) = some .folder) := by
  obtain ⟨-, -, houtcome, hdisk, -⟩ := step_cases h
  by_cases hfolder : folder = c.put.remoteDir host
  · subst hfolder
    rcases hrun : Effect.runFrom (putUntil host c.put c.steps) s.disk with ⟨r, d⟩
    rw [hrun] at houtcome hdisk
    rw [hdisk]
    cases houtcome with
    | untouched _ changes =>
        exact Or.inl (changes.lookup_of_not_suffix (headFile_notMem_storeFiles c.put)
          (headFile_not_suffix_newDir c.put))
    | emptied stopped => exact absurd stopped hstop
    | shifted finished head value => exact Or.inr (Or.inl ⟨rfl, finished, head, value⟩)
  · rcases step_changes h (headFileName :: folder) with heq | hfile | ⟨hsuffix, hnone, hdir⟩
    · exact Or.inl heq
    · rcases of_mem_files hfile with ⟨hfile, -⟩ | ⟨-, hname⟩
      · exact absurd hfile hfolder
      · exact absurd hname (by decide)
    · refine Or.inr (Or.inr ⟨?_, hnone, hdir⟩)
      rcases List.suffix_cons_iff.mp hsuffix with heq | hway
      · exact absurd (List.cons.inj heq).1.symm
          c.put.hversion.name_ne_headFileName
      · exact hway

theorem headed_step (hheaded : Headed host s) (hclear : KeepsClear host s c)
    (hstop : c.steps ≠ (storeSteps host c.put).length + 1) (h : step host s c = some s') :
    Headed host s' := by
  intro folder content hhead
  have hissued := (step_cases h).2.1
  rcases head_cases hstop h folder with hsame | ⟨hfolder, -, hnew, hvalue⟩ | ⟨-, -, hdir⟩
  · -- A head that was there before names a version that stays complete.
    obtain ⟨p, hp, hfolder, hcontent, hvalue⟩ := hheaded folder content (hsame ▸ hhead)
    exact ⟨p, by rw [hissued]; exact List.mem_cons_of_mem _ hp, hfolder, hcontent,
      valueFile_kept hclear h hp hvalue⟩
  · rw [hhead] at hnew
    exact ⟨c.put, by rw [hissued]; simp, hfolder.symm,
      Entry.file.inj (Option.some.inj hnew), hvalue⟩
  · rw [hhead] at hdir
    cases hdir

theorem inv_step (hinv : Inv host s) (hclear : KeepsClear host s c)
    (h : step host s c = some s') : Inv host s' := by
  obtain ⟨-, hissued, houtcome, hdisk, hreturned⟩ := step_cases h
  refine ⟨?_, ?_, ?_⟩
  · intro p hp
    rw [hissued]
    rcases hreturned with hreturned | ⟨hreturned, -, -⟩ <;> rw [hreturned] at hp
    · exact List.mem_cons_of_mem _ (hinv.issued p hp)
    · rcases List.mem_cons.mp hp with rfl | hp
      · simp
      · exact List.mem_cons_of_mem _ (hinv.issued p hp)
  · intro p hp
    have hold : p ∈ s.returned →
        s'.disk.tree.lookup (p.valueFile host) = some (.file p.value.bytes) := fun hp =>
      valueFile_kept hclear h (hinv.issued p hp) (hinv.stored p hp)
    rcases hreturned with hreturned | ⟨hreturned, hfinished, hok⟩ <;> rw [hreturned] at hp
    · exact hold hp
    rcases List.mem_cons.mp hp with rfl | hp
    · -- A call that came to its end has shifted the head, and its value is in its place.
      rcases hrun : Effect.runFrom (putUntil host c.put c.steps) s.disk with ⟨r, d⟩
      rw [hrun] at houtcome hdisk hok
      rw [hdisk]
      cases houtcome with
      | untouched unfinished => exact absurd (unfinished hok) (by omega)
      | emptied stopped =>
          rw [length_putSteps] at hfinished
          omega
      | shifted _ _ value => exact value
    · exact hold hp
  · intro p hp name hexists
    rw [hissued] at hp
    exact unique_step hinv hclear h hp hexists

theorem cwd_step (hcwd : s.disk.tree.lookup (genericFileName :: host.cwd) = none)
    (helsewhere : c.put.Elsewhere host) (h : step host s c = some s') :
    s'.disk.tree.lookup (genericFileName :: host.cwd) = none := by
  obtain ⟨hremote, hnew, hway⟩ := helsewhere
  rcases step_changes h (genericFileName :: host.cwd) with heq | hfile | ⟨hsuffix, -, -⟩
  · rw [heq, hcwd]
  · rcases of_mem_files hfile with ⟨hfolder, -⟩ | ⟨hfolder, -⟩
    · exact absurd hfolder.symm hremote
    · exact absurd hfolder.symm hnew
  · rcases List.suffix_cons_iff.mp hsuffix with heq | hsuffix
    · exact absurd (List.cons.inj heq).1.symm
        c.put.hversion.name_ne_genericFileName
    · exact absurd hsuffix hway

/-- The versions that were returned are all different. -/
theorem nodup_step (hinv : Inv host s) (hnodup : (s.returned.map (·.hversion)).Nodup)
    (h : step host s c = some s') : (s'.returned.map (·.hversion)).Nodup := by
  obtain ⟨hnew, -, -, -, hreturned | ⟨hreturned, -, -⟩⟩ := step_cases h <;> rw [hreturned]
  · exact hnodup
  · rw [List.map_cons, List.nodup_cons]
    refine ⟨fun hmem => ?_, hnodup⟩
    obtain ⟨p, hp, heq⟩ := List.mem_map.mp hmem
    exact hnew (heq ▸ List.mem_map_of_mem (hinv.issued p hp))

theorem inv_start (d : FileSystem) : Inv host (start d) where
  issued := fun p hp => by cases hp
  stored := fun p hp => by cases hp
  unique := fun p hp => by cases hp

/-- On a disk without heads. -/
theorem headed_start {d : FileSystem}
    (hfresh : ∀ folder content, d.tree.lookup (headFileName :: folder) ≠ some (.file content)) :
    Headed host (start d) :=
  fun folder content h => absurd h (hfresh folder content)

end SecCask.Pipeman.FileSystemStorage
