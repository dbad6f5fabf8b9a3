import SecCask.Lib.BranchStore
import SecCask.Lib.Fallible
import SecCask.Lib.Separator
import SecCask.Pipeman.WorkspaceMeta

/-!
# SecCask.Pipeman.Storage

The storage layers of `pipeman/storage.py` over a physical store (a `BranchStore`). A value
is transferred as a string or as a file; `F` is what files contain.
-/

namespace SecCask.Pipeman

inductive Value (F : Type*)
  | string (raw : String)
  | file (content : F)
  deriving DecidableEq

abbrev PhysicalStore (σ F : Type*) := BranchStore σ String String String (Value F)

/-- The three `SemanticFileStorage` classes. -/
inductive StorageName
  | metaStorage
  | datasetStorage
  | libraryStorage
  deriving DecidableEq

def StorageName.keyPrefix : StorageName → String
  | .metaStorage => "MetaStorage"
  | .datasetStorage => "DatasetStorage"
  | .libraryStorage => "LibraryStorage"

namespace Storage

/-- The physical store that is the list of its puts. -/
def logStore (F : Type) : PhysicalStore (List (BranchStore.LogEntry String String (Value F))) F :=
  BranchStore.log ⟨Nat.repr, SemanticVersion.repr_injective⟩

variable {σ F : Type} (S : PhysicalStore σ F)

/-! ### String and file storages -/

/-- `StringStorage.get_branch_head` -/
def stringBranchHead (s : σ) (strKey strBranch : String) : Except PyError String :=
  match S.getBranch s strKey strBranch with
  | some (.string raw) => .ok raw
  | some (.file _) => .error .typeError
  | none => .error .keyError

/-- `FileStorage.get_branch_head` -/
def fileBranchHead (s : σ) (strKey strBranch : String) : Except PyError F :=
  match S.getBranch s strKey strBranch with
  | some (.file content) => .ok content
  | some (.string _) => .error .typeError
  | none => .error .keyError

/-- `FileStorage.get_version` -/
def fileVersion (s : σ) (strKey hashedVersion : String) : Except PyError F :=
  match S.getVersion s strKey hashedVersion with
  | some (.file content) => .ok content
  | some (.string _) => .error .typeError
  | none => .error .keyError

/-! ### Semantic storages -/

/-- `_form_version_key` -/
def formVersionKey (storage : StorageName) (key : MetaKey) : String :=
  storage.keyPrefix ++ "::" ++ ("VersionMapping" ++ "::" ++ key.toStringWithVersion)

/-- `_form_entity_key` -/
def formEntityKey (storage : StorageName) (key : MetaKey) : String :=
  storage.keyPrefix ++ "::" ++ ("Entity" ++ "::" ++ key.toStringWithoutVersion)

/-- `SemanticFileStorage.get_branch_head` -/
def getBranchHead (storage : StorageName) (s : σ) (key : MetaKey) : Except PyError F :=
  fileBranchHead S s (formEntityKey storage key) key.componentVersion.branch

/-- `SemanticFileStorage.get_semantic_version` -/
def getSemanticVersion (storage : StorageName) (s : σ) (key : MetaKey) : Except PyError F := do
  let hashedVersion ←
    stringBranchHead S s (formVersionKey storage key) key.componentVersion.branch
  fileVersion S s (formEntityKey storage key) hashedVersion

/-- The first half of `SemanticFileStorage.put`: the store, and the new hashed version. -/
def putEntity (storage : StorageName) (s : σ) (key : MetaKey) (content : F) : σ × String :=
  S.put s (formEntityKey storage key) key.componentVersion.branch (.file content)

/-- The second half of `SemanticFileStorage.put`: recording the new hashed version. -/
def putVersion (storage : StorageName) (s : σ) (key : MetaKey) (hashedVersion : String) : σ :=
  (S.put s (formVersionKey storage key) key.componentVersion.branch (.string hashedVersion)).1

/-- `SemanticFileStorage.put` -/
def put (storage : StorageName) (s : σ) (key : MetaKey) (content : F) : σ :=
  let entity := putEntity S storage s key content
  putVersion S storage entity.1 key entity.2

/-! ### Workspace runtime storages -/

/-- `WorkspaceRuntimeFileStorage._form_key`; the storage is named `params` or `output`. -/
def formKey (name : String) (wsKey cpnKey : MetaKey) : String :=
  "WorkspaceRuntime" ++ "::" ++ (name ++ "::" ++ wsKey.componentType ++ "::" ++
    wsKey.componentName ++ "::" ++ cpnKey.componentType ++ "::" ++ cpnKey.componentName)

/-- `WorkspaceRuntimeFileStorage.get` -/
def runtimeGet (name : String) (s : σ) (wsKey cpnKey : MetaKey) (hversion : String) :
    Except PyError F :=
  fileVersion S s (formKey name wsKey cpnKey) hversion

/-- `WorkspaceRuntimeFileStorage.put` -/
def runtimePut (name : String) (s : σ) (wsKey cpnKey : MetaKey) (content : F) : σ × String :=
  S.put s (formKey name wsKey cpnKey) wsKey.componentVersion.branch (.file content)

/-! ### Storage keys -/

/-- A first component without colons can be told apart from the rest. -/
theorem separated_inj {p q x y : String} (hp : ':' ∉ p.toList) (hq : ':' ∉ q.toList)
    (h : p ++ "::" ++ x = q ++ "::" ++ y) : p = q ∧ x = y := by
  have hlist : p.toList ++ ':' :: (':' :: x.toList) = q.toList ++ ':' :: (':' :: y.toList) := by
    simpa using congrArg String.toList h
  obtain ⟨hpq, hxy⟩ := append_cons_inj_of_notMem_left hp hq hlist
  exact ⟨String.toList_injective hpq, String.toList_injective (List.cons.inj hxy).2⟩

theorem notMem_colon_keyPrefix (storage : StorageName) : ':' ∉ storage.keyPrefix.toList := by
  cases storage <;> decide

theorem keyPrefix_injective : Function.Injective StorageName.keyPrefix := by
  intro a b h
  cases a <;> cases b <;> first | rfl | exact absurd h (by decide)

theorem formVersionKey_inj {a b : StorageName} {k l : MetaKey}
    (h : formVersionKey a k = formVersionKey b l) :
    a = b ∧ k.toStringWithVersion = l.toStringWithVersion := by
  obtain ⟨hpre, hrest⟩ :=
    separated_inj (notMem_colon_keyPrefix a) (notMem_colon_keyPrefix b) h
  obtain ⟨-, hkey⟩ := separated_inj (by decide) (by decide) hrest
  exact ⟨keyPrefix_injective hpre, hkey⟩

theorem formEntityKey_inj {a b : StorageName} {k l : MetaKey}
    (h : formEntityKey a k = formEntityKey b l) :
    a = b ∧ k.toStringWithoutVersion = l.toStringWithoutVersion := by
  obtain ⟨hpre, hrest⟩ :=
    separated_inj (notMem_colon_keyPrefix a) (notMem_colon_keyPrefix b) h
  obtain ⟨-, hkey⟩ := separated_inj (by decide) (by decide) hrest
  exact ⟨keyPrefix_injective hpre, hkey⟩

theorem formEntityKey_ne_formVersionKey (a b : StorageName) (k l : MetaKey) :
    formEntityKey a k ≠ formVersionKey b l := by
  intro h
  obtain ⟨-, hrest⟩ :=
    separated_inj (notMem_colon_keyPrefix a) (notMem_colon_keyPrefix b) h
  obtain ⟨hcol, -⟩ := separated_inj (by decide) (by decide) hrest
  exact absurd hcol (by decide)

theorem formKey_ne_formEntityKey (name : String) (wsKey cpnKey : MetaKey) (a : StorageName)
    (k : MetaKey) : formKey name wsKey cpnKey ≠ formEntityKey a k := by
  intro h
  obtain ⟨hpre, -⟩ := separated_inj (by decide) (notMem_colon_keyPrefix a) h
  cases a <;> exact absurd hpre (by decide)

/-! ### What a put changes -/

variable {S}

theorem getBranchHead_putEntity (storage : StorageName) (s : σ) (key : MetaKey) (content : F) :
    getBranchHead S storage (putEntity S storage s key content).1 key = .ok content := by
  rw [getBranchHead, fileBranchHead, putEntity, S.getBranch_put]

/-- Heads are per storage, type and name, and branch. -/
theorem getBranchHead_putEntity_of_ne {storage storage' : StorageName} {key key' : MetaKey}
    (hne : storage' = storage → key'.toStringWithoutVersion = key.toStringWithoutVersion →
      key'.componentVersion.branch ≠ key.componentVersion.branch) (s : σ) (content : F) :
    getBranchHead S storage' (putEntity S storage s key content).1 key' =
      getBranchHead S storage' s key' := by
  have hentity : (formEntityKey storage' key', key'.componentVersion.branch) ≠
      (formEntityKey storage key, key.componentVersion.branch) := by
    intro h
    obtain ⟨hstorage, hkey⟩ := formEntityKey_inj (congrArg Prod.fst h)
    exact hne hstorage hkey (congrArg Prod.snd h)
  rw [getBranchHead, fileBranchHead, putEntity, S.getBranch_put_of_ne _ _ _ _ _ _ hentity]
  rfl

/-- Recording a hashed version moves no head. -/
theorem getBranchHead_putVersion (storage storage' : StorageName) (s : σ) (key key' : MetaKey)
    (hashedVersion : String) :
    getBranchHead S storage' (putVersion S storage s key hashedVersion) key' =
      getBranchHead S storage' s key' := by
  have hversion : (formEntityKey storage' key', key'.componentVersion.branch) ≠
      (formVersionKey storage key, key.componentVersion.branch) := fun h =>
    formEntityKey_ne_formVersionKey storage' storage key' key (congrArg Prod.fst h)
  rw [getBranchHead, fileBranchHead, putVersion, S.getBranch_put_of_ne _ _ _ _ _ _ hversion]
  rfl

theorem fileVersion_put {s : σ} {strKey hashedVersion : String} {content : F}
    (h : fileVersion S s strKey hashedVersion = .ok content) (strKey' strBranch' : String)
    (value : Value F) :
    fileVersion S (S.put s strKey' strBranch' value).1 strKey hashedVersion = .ok content := by
  unfold fileVersion at h ⊢
  split at h
  · rename_i hget
    rw [S.getVersion_put_of_some _ _ _ _ _ _ _ hget]
    exact h
  · cases h
  · cases h

theorem runtimeGet_runtimePut (name : String) (s : σ) (wsKey cpnKey : MetaKey) (content : F) :
    runtimeGet S name (runtimePut S name s wsKey cpnKey content).1 wsKey cpnKey
      (runtimePut S name s wsKey cpnKey content).2 = .ok content := by
  rw [runtimeGet, fileVersion, runtimePut, S.getVersion_put]

/-- What a run leaves behind moves no head. -/
theorem getBranchHead_runtimePut (storage : StorageName) (s : σ) (name : String)
    (wsKey cpnKey key : MetaKey) (content : F) :
    getBranchHead S storage (runtimePut S name s wsKey cpnKey content).1 key =
      getBranchHead S storage s key := by
  have hruntime : (formEntityKey storage key, key.componentVersion.branch) ≠
      (formKey name wsKey cpnKey, wsKey.componentVersion.branch) := fun h =>
    formKey_ne_formEntityKey name wsKey cpnKey storage key (congrArg Prod.fst h).symm
  rw [getBranchHead, fileBranchHead, runtimePut, S.getBranch_put_of_ne _ _ _ _ _ _ hruntime]
  rfl

/-- A new entity leaves the recorded versions as they are. -/
theorem getSemanticVersion_putEntity {storage storage' : StorageName} {key key' : MetaKey} {s : σ}
    {content content' : F} (h : getSemanticVersion S storage' s key' = .ok content') :
    getSemanticVersion S storage' (putEntity S storage s key content).1 key' = .ok content' := by
  obtain ⟨hashedVersion, hversion, hcontent⟩ := bind_eq_ok_iff.mp h
  have hentity : (formVersionKey storage' key', key'.componentVersion.branch) ≠
      (formEntityKey storage key, key.componentVersion.branch) := fun h =>
    formEntityKey_ne_formVersionKey storage storage' key key' (congrArg Prod.fst h).symm
  refine bind_eq_ok_iff.mpr ⟨hashedVersion, ?_, ?_⟩
  · rw [stringBranchHead, putEntity, S.getBranch_put_of_ne _ _ _ _ _ _ hentity]
    exact hversion
  · exact fileVersion_put hcontent _ _ _

/-- Recording a version leaves those of all other keys as they are. -/
theorem getSemanticVersion_putVersion_of_ne {storage storage' : StorageName} {key key' : MetaKey}
    (hne : storage' = storage → key'.toStringWithVersion = key.toStringWithVersion →
      key'.componentVersion.branch ≠ key.componentVersion.branch) {s : σ} {hashedVersion : String}
    {content' : F} (h : getSemanticVersion S storage' s key' = .ok content') :
    getSemanticVersion S storage' (putVersion S storage s key hashedVersion) key' =
      .ok content' := by
  obtain ⟨hashedVersion', hversion, hcontent⟩ := bind_eq_ok_iff.mp h
  have hmapping : (formVersionKey storage' key', key'.componentVersion.branch) ≠
      (formVersionKey storage key, key.componentVersion.branch) := by
    intro h
    obtain ⟨hstorage, hkey⟩ := formVersionKey_inj (congrArg Prod.fst h)
    exact hne hstorage hkey (congrArg Prod.snd h)
  refine bind_eq_ok_iff.mpr ⟨hashedVersion', ?_, ?_⟩
  · rw [stringBranchHead, putVersion, S.getBranch_put_of_ne _ _ _ _ _ _ hmapping]
    exact hversion
  · exact fileVersion_put hcontent _ _ _

theorem getBranchHead_put (storage : StorageName) (s : σ) (key : MetaKey) (content : F) :
    getBranchHead S storage (put S storage s key content) key = .ok content := by
  rw [put, getBranchHead_putVersion, getBranchHead_putEntity]

theorem getBranchHead_put_of_ne {storage storage' : StorageName} {key key' : MetaKey}
    (hne : storage' = storage → key'.toStringWithoutVersion = key.toStringWithoutVersion →
      key'.componentVersion.branch ≠ key.componentVersion.branch) (s : σ) (content : F) :
    getBranchHead S storage' (put S storage s key content) key' =
      getBranchHead S storage' s key' := by
  rw [put, getBranchHead_putVersion, getBranchHead_putEntity_of_ne hne]

theorem getSemanticVersion_put (storage : StorageName) (s : σ) (key : MetaKey) (content : F) :
    getSemanticVersion S storage (put S storage s key content) key = .ok content := by
  have hcontent : S.getVersion (put S storage s key content) (formEntityKey storage key)
      (putEntity S storage s key content).2 = some (.file content) := by
    rw [put, putVersion]
    exact S.getVersion_put_of_some _ _ _ _ _ _ _ (S.getVersion_put _ _ _ _)
  refine bind_eq_ok_iff.mpr ⟨(putEntity S storage s key content).2, ?_, ?_⟩
  · rw [stringBranchHead, put, putVersion, S.getBranch_put]
  · rw [fileVersion, hcontent]

/-- A version that was recorded stays readable until its own key is put again. -/
theorem getSemanticVersion_put_of_ne {storage storage' : StorageName} {key key' : MetaKey}
    (hne : storage' = storage → key'.toStringWithVersion = key.toStringWithVersion →
      key'.componentVersion.branch ≠ key.componentVersion.branch) {s : σ} {content content' : F}
    (h : getSemanticVersion S storage' s key' = .ok content') :
    getSemanticVersion S storage' (put S storage s key content) key' = .ok content' :=
  getSemanticVersion_putVersion_of_ne hne (getSemanticVersion_putEntity h)

end Storage

end SecCask.Pipeman
