import SecCask.Pipeman.WorkspaceManager

/-!
# SecCask.Pipeman.ComponentStore

What `LibraryManager` and `DatasetManager` share: the options that `MetaConfig` of
`pipeman/meta.py` reads and writes, and the two semantic storages that a component is committed
to, one for its archived folder and one for its manifest.

A commit changes the head of its own line, which is its type, name and branch, and what is read
under its own key; everything else stays as it was.
-/

namespace SecCask.Pipeman

open SecCask.ConfigParser (ConfigFile)

/-! ### Manifests -/

namespace MetaConfig

open WorkspaceManager (pyError setOption)

/-- `MetaConfig.__init__` -/
def init (c : ConfigFile) : Except PyError ConfigFile :=
  if "identifier" ∈ c.sections then .ok c
  else (c.addSection "identifier").mapError pyError

def getOption (c : ConfigFile) (sec option : String) : Except PyError String :=
  (c.get sec option).mapError pyError

def name (c : ConfigFile) : Except PyError String := getOption c "identifier" "name"

def version (c : ConfigFile) : Except PyError SemanticVersion := WorkspaceManager.version c

def setVersion (c : ConfigFile) (v : SemanticVersion) : Except PyError ConfigFile :=
  setOption c "identifier" "version" v.versionStr

def setCreatedTimestamp (c : ConfigFile) (now : String) : Except PyError ConfigFile :=
  setOption c "identifier" "created-timestamp" now

theorem init_of_mem {c : ConfigFile} (h : "identifier" ∈ c.sections) : init c = .ok c :=
  if_pos h

theorem optionxform_of_init {c d : ConfigFile} (h : init c = .ok d) :
    d.optionxform = c.optionxform := by
  unfold init at h
  split at h
  · rw [Except.ok.inj h]
  · rename_i hsec
    have hadd := mapError_eq_ok_iff.mp h
    rw [ConfigFile.addSection, if_neg (by decide), if_neg hsec] at hadd
    obtain rfl := Except.ok.inj hadd
    rfl

/-- A value without percent signs is read back. -/
theorem getOption_of_setOption {c d : ConfigFile} {sec option value : String}
    (hsec : sec ≠ ConfigFile.defaultSection) (hempty : sec ≠ "") (hvalue : '%' ∉ value.toList)
    (h : setOption c sec option value = .ok d) : getOption d sec option = .ok value := by
  have hset : c.set sec option value = .ok d := mapError_eq_ok_iff.mp h
  have hraw : d.raw sec option = some value := by
    rw [ConfigFile.raw_of_set hsec hempty hset, if_pos ⟨rfl, rfl⟩]
  exact mapError_eq_ok_iff.mpr (ConfigFile.get_of_raw hraw hvalue)

/-- The two options that a creation writes last are different ones. -/
def KeepsVersion (c : ConfigFile) : Prop :=
  c.optionxform "version" ≠ c.optionxform "created-timestamp"

instance : DecidablePred KeepsVersion := fun _ => inferInstanceAs (Decidable (_ ≠ _))

/-- The text of the version is in the manifest when both have been set. -/
theorem raw_version {c d e : ConfigFile} {v : SemanticVersion} {now : String}
    (hversion : setVersion c v = .ok d) (hnow : setCreatedTimestamp d now = .ok e)
    (hkeeps : KeepsVersion c) : e.raw "identifier" "version" = some v.versionStr := by
  have hsetVersion := mapError_eq_ok_iff.mp hversion
  have hxform := ConfigFile.optionxform_of_set hsetVersion
  rw [ConfigFile.raw_of_set (by decide) (by decide) (mapError_eq_ok_iff.mp hnow),
    if_neg (by rw [hxform]; exact fun hboth => hkeeps hboth.2),
    ConfigFile.raw_of_set (by decide) (by decide) hsetVersion, if_pos ⟨rfl, rfl⟩]

theorem pyError_ne_keyError (e : ConfigParser.ParserError) : pyError e ≠ .keyError := by
  cases e with
  | config e => cases e <;> exact fun h => by cases h
  | noSection | duplicateSection => exact fun h => by cases h

/-- No reading of a manifest raises the error of a missing head. -/
theorem mapError_pyError_ne_keyError {α : Type} (x : Except ConfigParser.ParserError α) :
    x.mapError pyError ≠ .error .keyError := by
  cases x with
  | ok a => exact fun h => by cases h
  | error e => exact fun h => pyError_ne_keyError e (Except.error.inj h)

theorem init_ne_keyError (c : ConfigFile) : init c ≠ .error .keyError := by
  unfold init
  split
  · exact fun h => by cases h
  · exact mapError_pyError_ne_keyError _

theorem version_ne_keyError (c : ConfigFile) : version c ≠ .error .keyError := by
  intro h
  rw [version, WorkspaceManager.version] at h
  rcases bind_eq_error_iff.mp h with hget | ⟨text, -, htext⟩
  · exact mapError_pyError_ne_keyError _ hget
  · split at htext <;> cases htext

end MetaConfig

/-! ### Storing components -/

/-- A source folder: its `.manifest` and its other files. -/
structure SourceFolder (A : Type) where
  manifest : ConfigFile
  files : A

/-- What the files in the physical store contain: a config, or an archived folder. -/
inductive ComponentFile (A : Type)
  | config (c : ConfigFile)
  | archive (folder : SourceFolder A)

/-- What one successful `create` commits. -/
structure ComponentCommit (A : Type) where
  key : MetaKey
  folder : SourceFolder A

namespace ComponentStore

variable {σ A : Type} (S : PhysicalStore σ (ComponentFile A)) (storage : StorageName)

/-- `MetaStorage.get_branch_head`: the config in the file. -/
def metaBranchHead (s : σ) (key : MetaKey) : Except PyError ConfigFile := do
  match ← Storage.getBranchHead S .metaStorage s key with
  | .config c => .ok c
  | .archive _ => .error .typeError

/-- The two puts of `create`. -/
def commit (s : σ) (c : ComponentCommit A) : σ :=
  let s := Storage.put S storage s c.key (.archive c.folder)
  Storage.put S .metaStorage s c.key (.config c.folder.manifest)

/-- `get_meta` -/
def getMeta (s : σ) (key : MetaKey) : Except PyError ConfigFile := do
  match ← Storage.getSemanticVersion S .metaStorage s key with
  | .config c => .ok c
  | .archive _ => .error .typeError

/-- `get_archive`: the folder that is extracted. -/
def getArchive (s : σ) (key : MetaKey) : Except PyError (SourceFolder A) := do
  match ← Storage.getSemanticVersion S storage s key with
  | .archive folder => .ok folder
  | .config _ => .error .typeError

variable {S storage}

theorem metaBranchHead_congr {s : σ} {k l : MetaKey} (htype : k.componentType = l.componentType)
    (hname : k.componentName = l.componentName)
    (hbranch : k.componentVersion.branch = l.componentVersion.branch) :
    metaBranchHead S s k = metaBranchHead S s l := by
  simp only [metaBranchHead, Storage.getBranchHead, Storage.formEntityKey,
    MetaKey.toStringWithoutVersion, htype, hname, hbranch]

theorem metaBranchHead_commit (s : σ) (c : ComponentCommit A) :
    metaBranchHead S (commit S storage s c) c.key = .ok c.folder.manifest := by
  rw [metaBranchHead, commit, Storage.getBranchHead_put]
  rfl

theorem getMeta_commit (s : σ) (c : ComponentCommit A) :
    getMeta S (commit S storage s c) c.key = .ok c.folder.manifest := by
  rw [getMeta, commit, Storage.getSemanticVersion_put]
  rfl

theorem toStringWithoutVersion_inj {k l : MetaKey} (hk : k.componentType = l.componentType)
    (h : k.toStringWithoutVersion = l.toStringWithoutVersion) :
    k.componentName = l.componentName := by
  rw [MetaKey.toStringWithoutVersion, MetaKey.toStringWithoutVersion, hk] at h
  exact String.append_right_inj _ |>.mp h

section Kept

variable (hstorage : storage ≠ .metaStorage) {s : σ} {c : ComponentCommit A} {key : MetaKey}
include hstorage

theorem getArchive_commit (s : σ) (c : ComponentCommit A) :
    getArchive S storage (commit S storage s c) c.key = .ok c.folder := by
  refine bind_eq_ok_iff.mpr ⟨.archive c.folder, ?_, rfl⟩
  exact Storage.getSemanticVersion_put_of_ne (fun h => absurd h hstorage)
    (Storage.getSemanticVersion_put _ _ _ _)

/-- Different lines have different heads. -/
theorem metaBranchHead_commit_of_ne (htype : key.componentType = c.key.componentType)
    (hne : ¬(c.key.componentName = key.componentName ∧
      c.key.componentVersion.branch = key.componentVersion.branch)) (s : σ) :
    metaBranchHead S (commit S storage s c) key = metaBranchHead S s key := by
  have hline : key.toStringWithoutVersion = c.key.toStringWithoutVersion →
      key.componentVersion.branch ≠ c.key.componentVersion.branch :=
    fun hkey hbranch => hne ⟨(toStringWithoutVersion_inj htype hkey).symm, hbranch.symm⟩
  rw [metaBranchHead, commit, Storage.getBranchHead_put_of_ne fun _ => hline,
    Storage.getBranchHead_put_of_ne fun h => absurd h.symm hstorage]
  rfl

/-- What a commit of another key leaves readable. -/
theorem read_commit_of_ne
    (hne : key.toStringWithVersion = c.key.toStringWithVersion →
      key.componentVersion.branch ≠ c.key.componentVersion.branch)
    {folder : SourceFolder A} (harchive : getArchive S storage s key = .ok folder)
    (hmeta : getMeta S s key = .ok folder.manifest) :
    getArchive S storage (commit S storage s c) key = .ok folder ∧
      getMeta S (commit S storage s c) key = .ok folder.manifest := by
  obtain ⟨file, hfile, harchive⟩ := bind_eq_ok_iff.mp harchive
  obtain ⟨file', hfile', hmeta⟩ := bind_eq_ok_iff.mp hmeta
  refine ⟨bind_eq_ok_iff.mpr ⟨file, ?_, harchive⟩, bind_eq_ok_iff.mpr ⟨file', ?_, hmeta⟩⟩
  · exact Storage.getSemanticVersion_put_of_ne (fun h => absurd h hstorage)
      (Storage.getSemanticVersion_put_of_ne (fun _ => hne) hfile)
  · exact Storage.getSemanticVersion_put_of_ne (fun _ => hne)
      (Storage.getSemanticVersion_put_of_ne (fun h => absurd h.symm hstorage) hfile')

/-- Every commit is readable in the store, and stays so when a component is committed whose key
prints differently or has another branch. -/
theorem readable_commit {commits : List (ComponentCommit A)}
    (hread : ∀ d ∈ commits, getArchive S storage s d.key = .ok d.folder ∧
      getMeta S s d.key = .ok d.folder.manifest)
    (hne : ∀ d ∈ commits, d.key.toStringWithVersion = c.key.toStringWithVersion →
      d.key.componentVersion.branch ≠ c.key.componentVersion.branch) :
    ∀ d ∈ commits ++ [c], getArchive S storage (commit S storage s c) d.key = .ok d.folder ∧
      getMeta S (commit S storage s c) d.key = .ok d.folder.manifest := by
  intro d hd
  rcases List.mem_append.mp hd with hd | hd
  · exact read_commit_of_ne hstorage (hne d hd) (hread d hd).1 (hread d hd).2
  · rw [List.mem_singleton.mp hd]
    exact ⟨getArchive_commit hstorage s c, getMeta_commit s c⟩

end Kept

end ComponentStore

end SecCask.Pipeman
