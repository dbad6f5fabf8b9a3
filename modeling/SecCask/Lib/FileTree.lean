import SecCask.Lib.Effect
import SecCask.Lib.OrderedDict

/-!
# SecCask.Lib.FileTree

A file system without links: a tree of folders and files, and the system calls that read and
change it. A path is the list of its components, the innermost first, so that the folder of
`name :: path` is `path` and what lies under a folder are the paths that end in it.

Every entry of a tree lies in a folder of the tree: the structure carries this. A disk also
records which paths were created or overwritten.
-/

namespace SecCask

/-- What a path leads to. -/
inductive Entry (ν : Type)
  | folder
  | file (content : ν)
  deriving DecidableEq, Repr

instance Entry.decidableFolder {ν : Type} : (e : Option (Entry ν)) → Decidable (e = some .folder)
  | some .folder => isTrue rfl
  | some (.file _) => isFalse (by simp)
  | none => isFalse (by simp)

/-- The names that the operating system accepts for an entry. -/
class FileName (κ : Type) where
  legal : κ → Bool

structure FileTree (κ ν : Type) [DecidableEq κ] where
  entries : OrderedDict (List κ) (Entry ν)
  root : entries.lookup [] = some .folder
  parent : ∀ name path, entries.lookup (name :: path) ≠ none →
    entries.lookup path = some .folder

/-- Why a file operation fails. `missing` stands for a path that leads nowhere and for one that
leads through a file, `undecodable` for a text file that does not decode. -/
inductive FileError
  | missing
  | alreadyExists
  | isFolder
  | illegalName
  | undecodable
  deriving DecidableEq, Repr

namespace FileTree

variable {κ ν : Type} [DecidableEq κ]

def lookup (t : FileTree κ ν) (path : List κ) : Option (Entry ν) := t.entries.lookup path

/-- `os.path.exists` -/
def pathExists (t : FileTree κ ν) (path : List κ) : Bool := (t.lookup path).isSome

/-- `os.path.isdir` -/
def isDir (t : FileTree κ ν) (path : List κ) : Bool :=
  match t.lookup path with
  | some .folder => true
  | _ => false

/-- What `open(path, "rb").read()` returns. -/
def read (t : FileTree κ ν) (path : List κ) : Except FileError ν :=
  match t.lookup path with
  | some (.file content) => .ok content
  | some .folder => .error .isFolder
  | none => .error .missing

/-- The names in a folder, as `os.scandir` may list them. -/
def children (t : FileTree κ ν) (path : List κ) : List κ :=
  t.entries.keys.filterMap fun
    | name :: parent => if parent = path then some name else none
    | [] => none

/-- The tree with nothing but its root. -/
def empty : FileTree κ ν where
  entries := AList.singleton [] .folder
  root := OrderedDict.lookup_singleton [] Entry.folder
  parent := fun name path h =>
    absurd (OrderedDict.lookup_singleton_ne Entry.folder (List.cons_ne_nil name path)) h

/-- Puts an entry into a folder, or replaces a file. -/
def put (t : FileTree κ ν) (name : κ) (path : List κ) (entry : Entry ν)
    (hparent : t.lookup path = some .folder) (hfree : t.lookup (name :: path) ≠ some .folder) :
    FileTree κ ν where
  entries := t.entries.set (name :: path) entry
  root := by
    rw [OrderedDict.lookup_set, if_neg (List.cons_ne_nil _ _).symm]
    exact t.root
  parent := by
    intro name' path' hmem
    rw [OrderedDict.lookup_set] at hmem
    have hfolder : t.lookup path' = some .folder := by
      split at hmem
      · rename_i heq
        rw [(List.cons.inj heq).2]
        exact hparent
      · exact t.parent name' path' hmem
    have hne : path' ≠ name :: path := fun heq => hfree (heq ▸ hfolder)
    rw [OrderedDict.lookup_set, if_neg hne]
    exact hfolder

/-- Takes out a file. -/
def remove (t : FileTree κ ν) (path : List κ) (hfile : t.lookup path ≠ some .folder) :
    FileTree κ ν where
  entries := t.entries.erase path
  root := by
    have hne : [] ≠ path := fun heq => hfile (heq ▸ t.root)
    rw [AList.lookup_erase_ne hne]
    exact t.root
  parent := by
    intro name path' hmem
    have hfolder : t.lookup path' = some .folder := by
      by_cases heq : name :: path' = path
      · rw [heq] at hmem
        exact absurd (AList.lookup_erase _ _) hmem
      · rw [AList.lookup_erase_ne heq] at hmem
        exact t.parent name path' hmem
    have hne : path' ≠ path := fun heq => hfile (heq ▸ hfolder)
    rw [AList.lookup_erase_ne hne]
    exact hfolder

theorem lookup_put (t : FileTree κ ν) {name : κ} {path : List κ} {entry : Entry ν}
    (hparent : t.lookup path = some .folder) (hfree : t.lookup (name :: path) ≠ some .folder)
    (path' : List κ) :
    (t.put name path entry hparent hfree).lookup path' =
      if path' = name :: path then some entry else t.lookup path' :=
  OrderedDict.lookup_set _ _ _ _

theorem lookup_remove (t : FileTree κ ν) {path : List κ} (hfile : t.lookup path ≠ some .folder)
    (path' : List κ) :
    (t.remove path hfile).lookup path' = if path' = path then none else t.lookup path' := by
  split
  · rename_i heq
    rw [heq]
    exact AList.lookup_erase _ _
  · rename_i heq
    exact AList.lookup_erase_ne heq

theorem lookup_empty {path : List κ} (hne : path ≠ []) :
    (empty : FileTree κ ν).lookup path = none :=
  OrderedDict.lookup_singleton_ne Entry.folder hne

@[simp] theorem lookup_nil (t : FileTree κ ν) : t.lookup [] = some .folder := t.root

@[simp] theorem pathExists_iff {t : FileTree κ ν} {path : List κ} :
    t.pathExists path = true ↔ t.lookup path ≠ none :=
  Option.isSome_iff_ne_none

@[simp] theorem isDir_iff {t : FileTree κ ν} {path : List κ} :
    t.isDir path = true ↔ t.lookup path = some .folder := by
  unfold isDir
  split
  · simp [*]
  · simp_all

theorem mem_children {t : FileTree κ ν} {name : κ} {path : List κ} :
    name ∈ t.children path ↔ t.lookup (name :: path) ≠ none := by
  have hkeys : t.lookup (name :: path) ≠ none ↔ name :: path ∈ t.entries.keys := by
    rw [lookup, ← Option.isSome_iff_ne_none, AList.lookup_isSome]
    rfl
  rw [hkeys, children, List.mem_filterMap]
  constructor
  · intro h
    obtain ⟨p, hp, hname⟩ := h
    split at hname
    · split at hname
      · rename_i heq
        rw [← Option.some.inj hname, ← heq]
        exact hp
      · cases hname
    · cases hname
  · intro h
    exact ⟨name :: path, h, if_pos rfl⟩

/-- What contains an entry is a folder. -/
theorem lookup_of_suffix {t : FileTree κ ν} {path path' : List κ} (hsuffix : path <:+ path')
    (hne : path ≠ path') (hmem : t.lookup path' ≠ none) : t.lookup path = some .folder := by
  induction path' with
  | nil => exact absurd (List.suffix_nil.mp hsuffix) hne
  | cons name path' ih =>
      have hparent := t.parent name path' hmem
      rcases List.suffix_cons_iff.mp hsuffix with heq | hsuffix
      · exact absurd heq hne
      · by_cases heq : path = path'
        · exact heq ▸ hparent
        · exact ih hsuffix heq (by rw [lookup, hparent]; simp)

end FileTree

/-- A tree, and the paths that were created or overwritten, newest first. -/
structure Disk (κ ν : Type) [DecidableEq κ] where
  tree : FileTree κ ν
  touched : List (List κ) := []

namespace Disk

variable {κ ν : Type} [DecidableEq κ] [FileName κ]

/-! ### System calls -/

/-- `os.mkdir` -/
def mkdir (path : List κ) : Effect FileError (Disk κ ν) PUnit :=
  Effect.attempt fun d =>
    match path with
    | [] => .error .alreadyExists
    | name :: path =>
        if FileName.legal name = false then .error .illegalName
        else if hparent : d.tree.lookup path = some .folder then
          if hfree : d.tree.lookup (name :: path) = none then
            .ok ⟨d.tree.put name path .folder hparent (by simp [hfree]),
              (name :: path) :: d.touched⟩
          else .error .alreadyExists
        else .error .missing

/-- `open(path, "w")` and writing: the file has the content afterwards. -/
def write (path : List κ) (content : ν) : Effect FileError (Disk κ ν) PUnit :=
  Effect.attempt fun d =>
    match path with
    | [] => .error .isFolder
    | name :: path =>
        if FileName.legal name = false then .error .illegalName
        else if hparent : d.tree.lookup path = some .folder then
          if hfolder : d.tree.lookup (name :: path) = some .folder then .error .isFolder
          else
            .ok ⟨d.tree.put name path (.file content) hparent hfolder,
              (name :: path) :: d.touched⟩
        else .error .missing

/-- `os.rename` of a file. -/
def rename (source dest : List κ) : Effect FileError (Disk κ ν) PUnit :=
  Effect.attempt fun d =>
    match hsource : d.tree.lookup source with
    | none => .error .missing
    | some .folder => .error .isFolder
    | some (.file content) =>
        if source = dest then .ok d
        else match dest with
        | [] => .error .isFolder
        | name :: path =>
            if FileName.legal name = false then .error .illegalName
            else if hparent : d.tree.lookup path = some .folder then
              if hfolder : d.tree.lookup (name :: path) = some .folder then .error .isFolder
              else .ok ⟨(d.tree.put name path (.file content) hparent hfolder).remove source (by
                rw [FileTree.lookup_put, hsource]
                split <;> simp), (name :: path) :: d.touched⟩
            else .error .missing

/-- `if not os.path.exists(path): …` -/
def unlessExists (path : List κ) (x : Effect FileError (Disk κ ν) PUnit) :
    Effect FileError (Disk κ ν) PUnit := do
  if (← get).tree.pathExists path then pure ⟨⟩ else x

/-- `os.makedirs(path, exist_ok=True)` -/
def makedirs : List κ → Effect FileError (Disk κ ν) PUnit
  | [] => mkdirExistOk []
  | name :: path => do
      unlessExists path (tryCatch (makedirs path) fun e =>
        if e = .alreadyExists then pure ⟨⟩ else throw e)
      mkdirExistOk (name :: path)
where
  /-- The `mkdir` at its end, with the handler around it. -/
  mkdirExistOk (path : List κ) : Effect FileError (Disk κ ν) PUnit :=
    tryCatch (mkdir path) fun e => do
      if (← get).tree.isDir path then pure ⟨⟩ else throw e

/-- `if not os.path.exists(path): os.makedirs(path, exist_ok=True)` -/
def checkOrCreateDir (path : List κ) : Effect FileError (Disk κ ν) PUnit :=
  unlessExists path (makedirs path)

/-! ### What a call does -/

/-- One path was created or overwritten. -/
structure Writes (path : List κ) (entry : Entry ν) (d d' : Disk κ ν) : Prop where
  touched : d'.touched = path :: d.touched
  lookup : ∀ p, d'.tree.lookup p = if p = path then some entry else d.tree.lookup p

theorem mkdir_cases (name : κ) (path : List κ) (d : Disk κ ν) :
    (FileName.legal name = true ∧ d.tree.lookup path = some .folder ∧
      d.tree.lookup (name :: path) = none ∧ ∃ d', Effect.runFrom (mkdir (name :: path)) d =
        (.ok ⟨⟩, d') ∧ Writes (name :: path) .folder d d') ∨
    (¬ (FileName.legal name = true ∧ d.tree.lookup path = some .folder ∧
      d.tree.lookup (name :: path) = none) ∧
      ∃ e, Effect.runFrom (mkdir (name :: path)) d = (.error e, d)) := by
  unfold mkdir
  rw [Effect.runFrom_attempt]
  dsimp only
  by_cases hlegal : FileName.legal name = false
  · rw [if_pos hlegal]
    exact Or.inr ⟨by simp [hlegal], _, rfl⟩
  rw [if_neg hlegal]
  by_cases hparent : d.tree.lookup path = some .folder
  · rw [dif_pos hparent]
    by_cases hfree : d.tree.lookup (name :: path) = none
    · rw [dif_pos hfree]
      exact Or.inl ⟨by simpa using hlegal, hparent, hfree, _, rfl, rfl,
        d.tree.lookup_put hparent (by simp [hfree])⟩
    · rw [dif_neg hfree]
      exact Or.inr ⟨by simp [hfree], _, rfl⟩
  · rw [dif_neg hparent]
    exact Or.inr ⟨by simp [hparent], _, rfl⟩

theorem write_cases (name : κ) (path : List κ) (content : ν) (d : Disk κ ν) :
    (FileName.legal name = true ∧ d.tree.lookup path = some .folder ∧
      d.tree.lookup (name :: path) ≠ some .folder ∧
      ∃ d', Effect.runFrom (write (name :: path) content) d = (.ok ⟨⟩, d') ∧
        Writes (name :: path) (.file content) d d') ∨
    (¬ (FileName.legal name = true ∧ d.tree.lookup path = some .folder ∧
      d.tree.lookup (name :: path) ≠ some .folder) ∧
      ∃ e, Effect.runFrom (write (name :: path) content) d = (.error e, d)) := by
  unfold write
  rw [Effect.runFrom_attempt]
  dsimp only
  by_cases hlegal : FileName.legal name = false
  · rw [if_pos hlegal]
    exact Or.inr ⟨by simp [hlegal], _, rfl⟩
  rw [if_neg hlegal]
  by_cases hparent : d.tree.lookup path = some .folder
  · rw [dif_pos hparent]
    by_cases hfolder : d.tree.lookup (name :: path) = some .folder
    · rw [dif_pos hfolder]
      exact Or.inr ⟨by simp [hfolder], _, rfl⟩
    · rw [dif_neg hfolder]
      exact Or.inl ⟨by simpa using hlegal, hparent, hfolder, _, rfl, rfl,
        d.tree.lookup_put hparent hfolder⟩
  · rw [dif_neg hparent]
    exact Or.inr ⟨by simp [hparent], _, rfl⟩

theorem rename_cases (source : List κ) (name : κ) (path : List κ) (d : Disk κ ν) :
    (∃ content, d.tree.lookup source = some (.file content) ∧ source = name :: path ∧
      Effect.runFrom (rename source (name :: path)) d = (.ok ⟨⟩, d)) ∨
    (∃ content, d.tree.lookup source = some (.file content) ∧ source ≠ name :: path ∧
      FileName.legal name = true ∧ d.tree.lookup path = some .folder ∧
      d.tree.lookup (name :: path) ≠ some .folder ∧
      ∃ d', Effect.runFrom (rename source (name :: path)) d = (.ok ⟨⟩, d') ∧
        ∀ p, d'.tree.lookup p =
          if p = source then none
          else if p = name :: path then some (.file content) else d.tree.lookup p) ∨
    (¬ (FileName.legal name = true ∧ d.tree.lookup path = some .folder ∧
      d.tree.lookup (name :: path) ≠ some .folder ∧
      ∃ content, d.tree.lookup source = some (.file content)) ∧
      ∃ e, Effect.runFrom (rename source (name :: path)) d = (.error e, d)) := by
  unfold rename
  rw [Effect.runFrom_attempt]
  dsimp only
  split
  -- the renaming goes through: the checks have been passed one by one
  · rename_i t hattempt
    split at hattempt
    · cases hattempt
    · cases hattempt
    · rename_i content hsource
      split at hattempt
      · rename_i hsame
        cases hattempt
        exact Or.inl ⟨content, hsource, hsame, rfl⟩
      · rename_i hne
        split at hattempt
        · cases hattempt
        · rename_i hlegal
          split at hattempt
          · rename_i hparent
            split at hattempt
            · cases hattempt
            · rename_i hfolder
              cases hattempt
              refine Or.inr (Or.inl ⟨content, hsource, hne, by simpa using hlegal, hparent,
                hfolder, _, rfl, ?_⟩)
              intro p
              rw [FileTree.lookup_remove, FileTree.lookup_put]
          · cases hattempt
  -- it fails: at one of the checks
  · rename_i e hattempt
    refine Or.inr (Or.inr ⟨?_, e, rfl⟩)
    intro hcan
    obtain ⟨hlegal, hparent, hfolder, content, hsource⟩ := hcan
    split at hattempt
    · rename_i hnone
      rw [hsource] at hnone
      cases hnone
    · rename_i hdir
      rw [hsource] at hdir
      cases hdir
    · split at hattempt
      · cases hattempt
      · simp [hlegal] at hattempt

/-- Missing folders on the way to `path` were created. -/
structure Fills (path : List κ) (d d' : Disk κ ν) : Prop where
  exists_new : ∃ new : List (List κ), d'.touched = new ++ d.touched ∧
    (∀ p ∈ new, p <:+ path ∧ d.tree.lookup p = none) ∧
    ∀ p, d'.tree.lookup p = if p ∈ new then some .folder else d.tree.lookup p

namespace Fills

variable {path : List κ} {d d' d'' : Disk κ ν}

omit [FileName κ] in
theorem refl (path : List κ) (d : Disk κ ν) : Fills path d d :=
  ⟨[], rfl, by simp, by simp⟩

omit [FileName κ] in
theorem of_writes (hfree : d.tree.lookup path = none) (h : Writes path .folder d d') :
    Fills path d d' :=
  ⟨[path], h.touched, by simp [hfree], by simpa using h.lookup⟩

omit [FileName κ] in
/-- No file comes or goes. -/
theorem file_iff (h : Fills path d d') {p : List κ} {content : ν} :
    d'.tree.lookup p = some (.file content) ↔ d.tree.lookup p = some (.file content) := by
  obtain ⟨new, -, hnew, hlookup⟩ := h
  rw [hlookup]
  split
  · rename_i hp
    simp [(hnew p hp).2]
  · rfl

omit [FileName κ] in
theorem trans {name : κ} (h : Fills path d d') (h' : Fills (name :: path) d' d'') :
    Fills (name :: path) d d'' := by
  obtain ⟨new, htouched, hnew, hlookup⟩ := h
  obtain ⟨new', htouched', hnew', hlookup'⟩ := h'
  refine ⟨new' ++ new, by rw [htouched', htouched, List.append_assoc], ?_, ?_⟩
  · intro p hp
    rcases List.mem_append.mp hp with hp | hp
    · obtain ⟨hsuffix, hnone⟩ := hnew' p hp
      rw [hlookup] at hnone
      split at hnone
      · cases hnone
      · exact ⟨hsuffix, hnone⟩
    · exact ⟨(hnew p hp).1.trans (List.suffix_cons _ _), (hnew p hp).2⟩
  · intro p
    rw [hlookup', hlookup]
    by_cases hp : p ∈ new' <;> simp [hp]

end Fills

/-- What every call keeps: the folders stay, and only paths that were no folders were
created or overwritten. -/
structure Grows (d d' : Disk κ ν) : Prop where
  folder : ∀ p, d.tree.lookup p = some .folder → d'.tree.lookup p = some .folder
  touched : ∀ p ∈ d'.touched, p ∈ d.touched ∨ d.tree.lookup p ≠ some .folder
  recorded : ∀ p ∈ d.touched, p ∈ d'.touched

omit [FileName κ] in
theorem Grows.refl (d : Disk κ ν) : Grows d d :=
  ⟨fun _ => id, fun _ => Or.inl, fun _ => id⟩

omit [FileName κ] in
theorem Grows.trans {d d' d'' : Disk κ ν} (h : Grows d d') (h' : Grows d' d'') : Grows d d'' where
  folder := fun p hp => h'.folder p (h.folder p hp)
  touched := by
    intro p hp
    rcases h'.touched p hp with hp | hp
    · exact h.touched p hp
    · exact Or.inr fun hfolder => hp (h.folder p hfolder)
  recorded := fun p hp => h'.recorded p (h.recorded p hp)

instance : Std.Refl (Grows : Disk κ ν → Disk κ ν → Prop) := ⟨Grows.refl⟩

instance : IsTrans (Disk κ ν) Grows := ⟨fun _ _ _ => Grows.trans⟩

omit [FileName κ] in
theorem Writes.grows {path : List κ} {entry : Entry ν} {d d' : Disk κ ν}
    (h : Writes path entry d d') (hfree : d.tree.lookup path ≠ some .folder) : Grows d d' where
  folder := by
    intro p hp
    have hne : p ≠ path := fun heq => hfree (heq ▸ hp)
    rw [h.lookup, if_neg hne, hp]
  touched := by
    intro p hp
    rw [h.touched] at hp
    rcases List.mem_cons.mp hp with rfl | hp
    · exact Or.inr hfree
    · exact Or.inl hp
  recorded := fun p hp => by simp [h.touched, hp]

omit [FileName κ] in
theorem Fills.grows {path : List κ} {d d' : Disk κ ν} (h : Fills path d d') : Grows d d' := by
  obtain ⟨new, htouched, hnew, hlookup⟩ := h
  refine ⟨?_, ?_, ?_⟩
  · intro p hp
    rw [hlookup, hp]
    simp
  · intro p hp
    rw [htouched] at hp
    rcases List.mem_append.mp hp with hp | hp
    · exact Or.inr (by simp [(hnew p hp).2])
    · exact Or.inl hp
  · intro p hp
    rw [htouched]
    exact List.mem_append_right _ hp

/-! ### `makedirs` -/

omit [FileName κ] in
theorem runFrom_unlessExists (path : List κ) (x : Effect FileError (Disk κ ν) PUnit)
    (d : Disk κ ν) :
    Effect.runFrom (unlessExists path x) d =
      if d.tree.lookup path = none then Effect.runFrom x d else (.ok ⟨⟩, d) := by
  rw [unlessExists, Effect.runFrom_bind, Effect.runFrom_get]
  by_cases hmissing : d.tree.lookup path = none
  · have hnot : d.tree.pathExists path = false := by
      rw [FileTree.pathExists, hmissing]
      rfl
    simp only [hnot, hmissing, Bool.false_eq_true, if_false, if_true]
  · have hyes : d.tree.pathExists path = true := FileTree.pathExists_iff.mpr hmissing
    simp only [hyes, hmissing, if_true, if_false, Effect.runFrom_pure]

theorem mkdirExistOk_nil (d : Disk κ ν) :
    Effect.runFrom (makedirs.mkdirExistOk []) d = (.ok ⟨⟩, d) := by
  have hfails : Effect.runFrom (mkdir []) d = (.error .alreadyExists, d) := by
    rw [mkdir, Effect.runFrom_attempt]
  rw [makedirs.mkdirExistOk, Effect.runFrom_tryCatch, hfails]
  simp only [Effect.runFrom_bind, Effect.runFrom_get]
  rw [if_pos (FileTree.isDir_iff.mpr (FileTree.lookup_nil _)), Effect.runFrom_pure]

theorem mkdirExistOk_cases (name : κ) (path : List κ) (d : Disk κ ν) :
    (FileName.legal name = true ∧ d.tree.lookup path = some .folder ∧
      d.tree.lookup (name :: path) = none ∧
      ∃ d', Effect.runFrom (makedirs.mkdirExistOk (name :: path)) d = (.ok ⟨⟩, d') ∧
        Writes (name :: path) .folder d d') ∨
    (d.tree.lookup (name :: path) = some .folder ∧
      Effect.runFrom (makedirs.mkdirExistOk (name :: path)) d = (.ok ⟨⟩, d)) ∨
    (¬ (FileName.legal name = true ∧ d.tree.lookup path = some .folder ∧
      d.tree.lookup (name :: path) = none) ∧ d.tree.lookup (name :: path) ≠ some .folder ∧
      ∃ e, Effect.runFrom (makedirs.mkdirExistOk (name :: path)) d = (.error e, d)) := by
  rw [makedirs.mkdirExistOk, Effect.runFrom_tryCatch]
  rcases mkdir_cases name path d with ⟨hlegal, hparent, hfree, d', hrun, hwrites⟩ | ⟨hnot, e, hrun⟩
  · rw [hrun]
    exact Or.inl ⟨hlegal, hparent, hfree, d', rfl, hwrites⟩
  · rw [hrun]
    simp only [Effect.runFrom_bind, Effect.runFrom_get]
    by_cases hfolder : d.tree.lookup (name :: path) = some .folder
    · rw [if_pos (FileTree.isDir_iff.mpr hfolder)]
      exact Or.inr (Or.inl ⟨hfolder, rfl⟩)
    · rw [if_neg (mt FileTree.isDir_iff.mp hfolder)]
      exact Or.inr (Or.inr ⟨hnot, hfolder, e, rfl⟩)

theorem fills_mkdirExistOk (path : List κ) (d : Disk κ ν) :
    Fills path d (Effect.runFrom (makedirs.mkdirExistOk path) d).2 := by
  cases path with
  | nil =>
      rw [mkdirExistOk_nil]
      exact Fills.refl _ _
  | cons name path =>
      rcases mkdirExistOk_cases name path d with ⟨-, -, hfree, d', hrun, hwrites⟩ |
        ⟨-, hrun⟩ | ⟨-, -, e, hrun⟩ <;> rw [hrun]
      · exact Fills.of_writes hfree hwrites
      · exact Fills.refl _ _
      · exact Fills.refl _ _

/-- The first part of `makedirs`: the folder that the path lies in. -/
theorem runFrom_makedirs_cons (name : κ) (path : List κ) (d : Disk κ ν) :
    Effect.runFrom (makedirs (name :: path)) d =
      if d.tree.lookup path = none then
        match Effect.runFrom (makedirs path) d with
        | (.error e, d') =>
            if e = .alreadyExists then Effect.runFrom (makedirs.mkdirExistOk (name :: path)) d'
            else (.error e, d')
        | (.ok _, d') => Effect.runFrom (makedirs.mkdirExistOk (name :: path)) d'
      else Effect.runFrom (makedirs.mkdirExistOk (name :: path)) d := by
  rw [makedirs, Effect.runFrom_bind, runFrom_unlessExists]
  by_cases hmissing : d.tree.lookup path = none
  · rw [if_pos hmissing, if_pos hmissing, Effect.runFrom_tryCatch]
    rcases Effect.runFrom (makedirs path) d with ⟨e | _, d'⟩
    · by_cases he : e = .alreadyExists
      · simp only [he, if_true, Effect.runFrom_pure]
      · simp only [he, if_false, Effect.runFrom_throw]
    · rfl
  · rw [if_neg hmissing, if_neg hmissing]

theorem fills_makedirs (path : List κ) (d : Disk κ ν) :
    Fills path d (Effect.runFrom (makedirs path) d).2 := by
  induction path generalizing d with
  | nil => exact fills_mkdirExistOk [] d
  | cons name path ih =>
      rw [runFrom_makedirs_cons]
      split
      · have hfills := ih d
        rcases hrun : Effect.runFrom (makedirs path) d with ⟨e | _, d'⟩ <;> rw [hrun] at hfills
        · dsimp only
          split
          · exact hfills.trans (fills_mkdirExistOk _ _)
          · exact hfills.trans (Fills.refl _ _)
        · exact hfills.trans (fills_mkdirExistOk _ _)
      · exact fills_mkdirExistOk _ _

theorem fills_checkOrCreateDir (path : List κ) (d : Disk κ ν) :
    Fills path d (Effect.runFrom (checkOrCreateDir path) d).2 := by
  rw [checkOrCreateDir, runFrom_unlessExists]
  split
  · exact fills_makedirs path d
  · exact Fills.refl path d

theorem grows_write (path : List κ) (content : ν) :
    Effect.Within Grows (write path content : Effect FileError (Disk κ ν) PUnit) := by
  intro d
  cases path with
  | nil =>
      rw [write, Effect.runFrom_attempt]
      exact Grows.refl d
  | cons name path =>
      rcases write_cases name path content d with ⟨-, -, hfree, d', hrun, hwrites⟩ |
        ⟨-, e, hrun⟩ <;> rw [hrun]
      · exact hwrites.grows hfree
      · exact Grows.refl d

/-- Nothing can be created on the way to a missing path: the first missing component lies in
a file, or its name is not legal. -/
def blocked (t : FileTree κ ν) : List κ → Bool
  | [] => false
  | name :: path =>
      match t.lookup path with
      | some .folder => !FileName.legal name
      | some (.file _) => true
      | none => blocked t path

/-- `makedirs` on a missing path that is blocked fails without a trace. -/
theorem makedirs_of_blocked {path : List κ} {d : Disk κ ν} (hmissing : d.tree.lookup path = none)
    (hblocked : blocked d.tree path = true) :
    ∃ e, Effect.runFrom (makedirs path) d = (.error e, d) := by
  induction path with
  | nil => simp at hmissing
  | cons name path ih =>
      have hlast : d.tree.lookup path ≠ some .folder ∨ FileName.legal name = false →
          ∃ e, Effect.runFrom (makedirs.mkdirExistOk (name :: path)) d = (.error e, d) := by
        intro hcannot
        rcases mkdirExistOk_cases name path d with ⟨hlegal, hparent, -⟩ | ⟨hfolder, -⟩ | ⟨-, -, h⟩
        · rcases hcannot with hcannot | hcannot
          · exact absurd hparent hcannot
          · rw [hlegal] at hcannot
            cases hcannot
        · rw [hmissing] at hfolder
          cases hfolder
        · exact h
      rw [runFrom_makedirs_cons]
      rw [blocked] at hblocked
      split at hblocked
      · rename_i hparent
        rw [if_neg (by simp [hparent])]
        exact hlast (Or.inr (by simpa using hblocked))
      · rename_i hparent
        rw [if_neg (by simp [hparent])]
        exact hlast (Or.inl (by simp [hparent]))
      · rename_i hparent
        obtain ⟨e, hrun⟩ := ih hparent hblocked
        rw [if_pos hparent, hrun]
        dsimp only
        split
        · exact hlast (Or.inl (by simp [hparent]))
        · exact ⟨e, rfl⟩

/-- On one that is not blocked it creates something. -/
theorem makedirs_touches {path : List κ} {d : Disk κ ν} (hmissing : d.tree.lookup path = none)
    (hfree : blocked d.tree path = false) :
    ∃ p, p <:+ path ∧ p ∈ (Effect.runFrom (makedirs path) d).2.touched ∧
      d.tree.lookup p = none := by
  induction path with
  | nil => simp at hmissing
  | cons name path ih =>
      rw [runFrom_makedirs_cons]
      rw [blocked] at hfree
      split at hfree
      · rename_i hparent
        rw [if_neg (by simp [hparent])]
        rcases mkdirExistOk_cases name path d with ⟨-, -, -, d', hrun, hwrites⟩ |
          ⟨hfolder, -⟩ | ⟨hnot, -⟩
        · rw [hrun]
          exact ⟨name :: path, List.suffix_rfl, by simp [hwrites.touched], hmissing⟩
        · rw [hmissing] at hfolder
          cases hfolder
        · exact absurd ⟨by simpa using hfree, hparent, hmissing⟩ hnot
      · cases hfree
      · rename_i hparent
        obtain ⟨p, hsuffix, hp, hnone⟩ := ih hparent hfree
        refine ⟨p, hsuffix.trans (List.suffix_cons _ _), ?_, hnone⟩
        rw [if_pos hparent]
        -- What was created for the parent stays on record.
        have hlater : ∀ d' : Disk κ ν, p ∈ d'.touched →
            p ∈ (Effect.runFrom (makedirs.mkdirExistOk (name :: path)) d').2.touched := by
          intro d' hp
          obtain ⟨new, htouched, -⟩ := fills_mkdirExistOk (name :: path) d'
          rw [htouched]
          exact List.mem_append_right _ hp
        rcases hrun : Effect.runFrom (makedirs path) d with ⟨e | _, d'⟩ <;> rw [hrun] at hp
        · dsimp only
          split
          · exact hlater d' hp
          · exact hp
        · exact hlater d' hp

omit [FileName κ] in
/-- What lies above a folder is there. -/
theorem lookup_of_isFolder {t : FileTree κ ν} {path : List κ} (h : t.lookup path = some .folder)
    (p : List κ) : t.lookup p = if p <:+ path then some .folder else t.lookup p := by
  split
  · rename_i hsuffix
    by_cases heq : p = path
    · rw [heq, h]
    · exact FileTree.lookup_of_suffix hsuffix heq (by simp [h])
  · rfl

/-- The last `mkdir` of `makedirs`, when everything above is there. -/
theorem mkdirExistOk_ok {name : κ} {path : List κ} {d d₁ : Disk κ ν}
    (hlookup : ∀ p, d₁.tree.lookup p = if p <:+ path then some .folder else d.tree.lookup p)
    (hfree : ∀ content, d.tree.lookup (name :: path) ≠ some (.file content))
    (hlegal : d.tree.lookup (name :: path) = none → FileName.legal name = true) :
    ∃ d', Effect.runFrom (makedirs.mkdirExistOk (name :: path)) d₁ = (.ok ⟨⟩, d') ∧
      ∀ p, d'.tree.lookup p = if p <:+ name :: path then some .folder else d.tree.lookup p := by
  have hself : ¬ name :: path <:+ path := by
    intro hsuffix
    have hlength := hsuffix.length_le
    rw [List.length_cons] at hlength
    omega
  have hsame : d₁.tree.lookup (name :: path) = d.tree.lookup (name :: path) := by
    rw [hlookup, if_neg hself]
  rcases mkdirExistOk_cases name path d₁ with ⟨-, -, -, d', hrun, hwrites⟩ |
    ⟨hfolder, hrun⟩ | ⟨hnot, hfolder, -⟩
  · refine ⟨d', hrun, fun p => ?_⟩
    rw [hwrites.lookup, hlookup]
    by_cases hp : p = name :: path
    · rw [if_pos hp, if_pos (hp ▸ List.suffix_rfl)]
    · rw [if_neg hp]
      simp only [List.suffix_cons_iff, hp, false_or]
  · refine ⟨d₁, hrun, fun p => ?_⟩
    rw [hlookup]
    by_cases hp : p = name :: path
    · rw [hp, if_neg hself, if_pos List.suffix_rfl, ← hsame, hfolder]
    · simp only [List.suffix_cons_iff, hp, false_or]
  · rcases hentry : d₁.tree.lookup (name :: path) with _ | (_ | content)
    · exact absurd ⟨hlegal (hsame.symm.trans hentry), by rw [hlookup, if_pos List.suffix_rfl],
        hentry⟩ hnot
    · exact absurd hentry hfolder
    · exact absurd (hsame.symm.trans hentry) (hfree content)

/-- Where no file is on the way, `makedirs` creates what is missing. -/
theorem makedirs_ok {path : List κ} {d : Disk κ ν}
    (hfree : ∀ p, p <:+ path → ∀ content, d.tree.lookup p ≠ some (.file content))
    (hlegal : ∀ name p, name :: p <:+ path → d.tree.lookup (name :: p) = none →
      FileName.legal name = true) :
    ∃ d', Effect.runFrom (makedirs path) d = (.ok ⟨⟩, d') ∧
      ∀ p, d'.tree.lookup p = if p <:+ path then some .folder else d.tree.lookup p := by
  induction path with
  | nil => exact ⟨d, mkdirExistOk_nil d, lookup_of_isFolder (FileTree.lookup_nil _)⟩
  | cons name path ih =>
      have hself := hfree (name :: path) List.suffix_rfl
      have hname := hlegal name path List.suffix_rfl
      rw [runFrom_makedirs_cons]
      by_cases hmissing : d.tree.lookup path = none
      · obtain ⟨d₁, hrun, hlookup⟩ := ih
          (fun p hp => hfree p (hp.trans (List.suffix_cons _ _)))
          (fun name p hp => hlegal name p (hp.trans (List.suffix_cons _ _)))
        rw [if_pos hmissing, hrun]
        exact mkdirExistOk_ok hlookup hself hname
      · rw [if_neg hmissing]
        have hfolder : d.tree.lookup path = some .folder := by
          rcases hentry : d.tree.lookup path with _ | (_ | content)
          · exact absurd hentry hmissing
          · rfl
          · exact absurd hentry (hfree path (List.suffix_cons _ _) content)
        exact mkdirExistOk_ok (lookup_of_isFolder hfolder) hself hname

theorem checkOrCreateDir_ok (path : List κ) {d : Disk κ ν}
    (hfree : ∀ p, p <:+ path → ∀ content, d.tree.lookup p ≠ some (.file content))
    (hlegal : ∀ name p, name :: p <:+ path → d.tree.lookup (name :: p) = none →
      FileName.legal name = true) :
    ∃ d', Effect.runFrom (checkOrCreateDir path) d = (.ok ⟨⟩, d') ∧
      ∀ p, d'.tree.lookup p = if p <:+ path then some .folder else d.tree.lookup p := by
  rw [checkOrCreateDir, runFrom_unlessExists]
  split
  · exact makedirs_ok hfree hlegal
  · rename_i hexists
    have hfolder : d.tree.lookup path = some .folder := by
      rcases hentry : d.tree.lookup path with _ | (_ | content)
      · exact absurd hentry hexists
      · rfl
      · exact absurd hentry (hfree path List.suffix_rfl content)
    exact ⟨d, rfl, lookup_of_isFolder hfolder⟩

theorem write_ok (name : κ) (path : List κ) (content : ν) {d : Disk κ ν}
    (hlegal : FileName.legal name = true) (hparent : d.tree.lookup path = some .folder)
    (hfree : d.tree.lookup (name :: path) ≠ some .folder) :
    ∃ d', Effect.runFrom (write (name :: path) content) d = (.ok ⟨⟩, d') ∧
      ∀ p, d'.tree.lookup p =
        if p = name :: path then some (.file content) else d.tree.lookup p := by
  rcases write_cases name path content d with ⟨-, -, -, d', hrun, hwrites⟩ | ⟨hnot, -⟩
  · exact ⟨d', hrun, hwrites.lookup⟩
  · exact absurd ⟨hlegal, hparent, hfree⟩ hnot

theorem lookup_of_write {path : List κ} {content : ν} {d d' : Disk κ ν}
    (h : Effect.runFrom (write path content) d = (.ok ⟨⟩, d')) (p : List κ) :
    d'.tree.lookup p = if p = path then some (.file content) else d.tree.lookup p := by
  cases path with
  | nil =>
      rw [write, Effect.runFrom_attempt] at h
      cases (Prod.mk.inj h).1
  | cons name path =>
      rcases write_cases name path content d with ⟨-, -, -, d'', hrun, hwrites⟩ | ⟨-, e, hrun⟩ <;>
        rw [hrun] at h
      · rw [← (Prod.mk.inj h).2]
        exact hwrites.lookup p
      · cases (Prod.mk.inj h).1

theorem rename_ok (source : List κ) (name : κ) (path : List κ) {content : ν} {d : Disk κ ν}
    (hsource : d.tree.lookup source = some (.file content)) (hne : source ≠ name :: path)
    (hlegal : FileName.legal name = true) (hparent : d.tree.lookup path = some .folder)
    (hfree : d.tree.lookup (name :: path) ≠ some .folder) :
    ∃ d', Effect.runFrom (rename source (name :: path)) d = (.ok ⟨⟩, d') ∧
      ∀ p, d'.tree.lookup p =
        if p = source then none
        else if p = name :: path then some (.file content) else d.tree.lookup p := by
  rcases rename_cases source name path d with ⟨_, -, hsame, -⟩ |
    ⟨content', hsource', -, -, -, -, d', hrun, hlookup⟩ | ⟨hnot, -⟩
  · exact absurd hsame hne
  · rw [hsource] at hsource'
    obtain rfl := Entry.file.inj (Option.some.inj hsource')
    exact ⟨d', hrun, hlookup⟩
  · exact absurd ⟨hlegal, hparent, hfree, content, hsource⟩ hnot

/-! ### Which paths a call changes -/

/-- Only these files changed, and missing folders on the way to `limit` were created. -/
def Changes (limit : List κ) (files : List (List κ)) (d d' : Disk κ ν) : Prop :=
  ∀ p, d'.tree.lookup p = d.tree.lookup p ∨ p ∈ files ∨
    (p <:+ limit ∧ d.tree.lookup p = none ∧ d'.tree.lookup p = some .folder)

namespace Changes

variable {limit : List κ} {files : List (List κ)} {d d' d'' : Disk κ ν}

omit [FileName κ] in
theorem refl (limit : List κ) (files : List (List κ)) (d : Disk κ ν) : Changes limit files d d :=
  fun _ => Or.inl rfl

omit [FileName κ] in
theorem trans (h : Changes limit files d d') (h' : Changes limit files d' d'') :
    Changes limit files d d'' := by
  intro p
  rcases h' p with heq' | hfile | ⟨hsuffix, hnone, hfolder⟩
  · rw [heq']
    exact h p
  · exact Or.inr (Or.inl hfile)
  · rcases h p with heq | hfile | ⟨-, -, hfolder'⟩
    · exact Or.inr (Or.inr ⟨hsuffix, heq ▸ hnone, hfolder⟩)
    · exact Or.inr (Or.inl hfile)
    · rw [hnone] at hfolder'
      cases hfolder'

instance : Std.Refl (Changes limit files : Disk κ ν → Disk κ ν → Prop) := ⟨refl limit files⟩

instance : IsTrans (Disk κ ν) (Changes limit files) := ⟨fun _ _ _ => trans⟩

omit [FileName κ] in
theorem mono {files' : List (List κ)} (h : Changes limit files d d') (hfiles : files ⊆ files') :
    Changes limit files' d d' :=
  fun p => (h p).imp_right (Or.imp_left (@hfiles p))

omit [FileName κ] in
theorem of_fills {path : List κ} (h : Fills path d d') (hpath : path <:+ limit) :
    Changes limit files d d' := by
  obtain ⟨new, -, hnew, hlookup⟩ := h
  intro p
  by_cases hp : p ∈ new
  · obtain ⟨hsuffix, hnone⟩ := hnew p hp
    exact Or.inr (Or.inr ⟨hsuffix.trans hpath, hnone, by rw [hlookup, if_pos hp]⟩)
  · exact Or.inl (by rw [hlookup, if_neg hp])

theorem checkOrCreateDir {path : List κ} (hpath : path <:+ limit) :
    Effect.Within (Changes limit files)
      (Disk.checkOrCreateDir path : Effect FileError (Disk κ ν) PUnit) :=
  fun d => of_fills (fills_checkOrCreateDir path d) hpath

theorem write {path : List κ} (hpath : path ∈ files) (content : ν) :
    Effect.Within (Changes limit files)
      (Disk.write path content : Effect FileError (Disk κ ν) PUnit) := by
  intro d
  cases path with
  | nil =>
      rw [Disk.write, Effect.runFrom_attempt]
      exact refl limit files d
  | cons name path =>
      rcases write_cases name path content d with ⟨-, -, -, d', hrun, hwrites⟩ | ⟨-, e, hrun⟩ <;>
        rw [hrun]
      · intro p
        by_cases hp : p = name :: path
        · exact Or.inr (Or.inl (hp ▸ hpath))
        · exact Or.inl (by rw [hwrites.lookup, if_neg hp])
      · exact refl limit files d

theorem rename {source : List κ} {name : κ} {path : List κ} (hsource : source ∈ files)
    (hdest : name :: path ∈ files) :
    Effect.Within (Changes limit files)
      (Disk.rename source (name :: path) : Effect FileError (Disk κ ν) PUnit) := by
  intro d
  rcases rename_cases source name path d with ⟨-, -, -, hrun⟩ |
    ⟨content, -, -, -, -, -, d', hrun, hlookup⟩ | ⟨-, e, hrun⟩ <;> rw [hrun]
  · exact refl limit files d
  · intro p
    by_cases hp : p = source
    · exact Or.inr (Or.inl (hp ▸ hsource))
    · by_cases hp' : p = name :: path
      · exact Or.inr (Or.inl (hp' ▸ hdest))
      · exact Or.inl (by rw [hlookup, if_neg hp, if_neg hp'])
  · exact refl limit files d

omit [FileName κ] in
/-- What existed and is none of the files is as before. -/
theorem lookup_of_ne_none (h : Changes limit files d d') {p : List κ} (hfiles : p ∉ files)
    (hp : d.tree.lookup p ≠ none) : d'.tree.lookup p = d.tree.lookup p := by
  rcases h p with heq | hfile | ⟨-, hnone, -⟩
  · exact heq
  · exact absurd hfile hfiles
  · exact absurd hnone hp

omit [FileName κ] in
/-- What is neither one of the files nor on the way is as before. -/
theorem lookup_of_not_suffix (h : Changes limit files d d') {p : List κ} (hfiles : p ∉ files)
    (hp : ¬ p <:+ limit) : d'.tree.lookup p = d.tree.lookup p := by
  rcases h p with heq | hfile | ⟨hsuffix, -, -⟩
  · exact heq
  · exact absurd hfile hfiles
  · exact absurd hsuffix hp

end Changes

end Disk

end SecCask
