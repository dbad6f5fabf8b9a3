import SecCask.Lib.ConfigFile
import SecCask.Pipeman.PrintedKeys
import SecCask.Pipeman.Storage

/-!
# SecCask.Pipeman.WorkspaceManager

`WorkspaceManager.create` of `pipeman/workspace.py`. Whether there is an earlier version it
tells from `None` in place of a branch head. But `FileStorage.get_branch_head` raises `KeyError`
for a missing head, and nothing above it catches this. So the first version is never made, and
where a workspace has come into the store in another way, the numbers go on from its own.
-/

namespace SecCask.Pipeman

open SecCask.ConfigParser (ConfigFile ParserError)

/-- The arguments of `create` that it uses, and the time of the call. -/
structure WorkspaceCall where
  name : String
  branch : String
  datasetDict : OrderedDict String (Option MetaKey)
  pathDict : OrderedDict String (Option String)
  description : String
  pipeline : List MetaKey
  now : String

/-- What a `create` puts into the store. -/
structure WorkspaceCommit where
  key : MetaKey
  config : ConfigFile

namespace WorkspaceManager

/-- The sections are there, so that the first two do not come up. -/
def pyError : ParserError → PyError
  | .noSection => .external
  | .duplicateSection => .external
  | .config e => WorkspaceMeta.pyError e

def setOption (c : ConfigFile) (sec option value : String) : Except PyError ConfigFile :=
  (c.set sec option value).mapError pyError

/-- `WorkspaceMeta(configparser.ConfigParser())` and `init_sections` -/
def initSections (optionxform : String → String) : Except PyError ConfigFile :=
  (["identifier", "datasets", "solution", "paths", "configuration", "reference"].foldlM
    ConfigFile.addSection (ConfigFile.empty optionxform)).mapError pyError

/-- `META_DATASET_ENUM` -/
def metaDatasetEnum : List String := ["train", "validation", "inference"]

/-- `META_PATH_ENUM` -/
def metaPathEnum : List String := ["base", "output", "temp", "venv"]

/-- `meta.datasets = dataset_dict` -/
def setDatasets (c : ConfigFile) (ddict : OrderedDict String (Option MetaKey)) :
    Except PyError ConfigFile :=
  metaDatasetEnum.foldlM (fun c whichdataset =>
    match ddict.lookup whichdataset with
    | some (some dataset) => setOption c "datasets" whichdataset dataset.toStringWithoutVersion
    | _ => .ok c) c

/-- `meta.paths = path_dict`. A path that cannot be set is left out. -/
def setPaths (c : ConfigFile) (pdict : OrderedDict String (Option String)) :
    Except PyError ConfigFile :=
  metaPathEnum.foldlM (fun c whichpath =>
    match pdict.lookup whichpath with
    | none => .error .keyError
    | some none => .ok c
    | some (some path) =>
        match c.set "paths" whichpath path with
        | .ok c => .ok c
        | .error _ => .ok c) c

/-- The meta of the call, up to its version. -/
def buildMeta (optionxform : String → String) (call : WorkspaceCall) :
    Except PyError ConfigFile := do
  let c ← initSections optionxform
  let c ← setOption c "identifier" "type" MetaKey.genericWorkspaceKey
  let c ← setOption c "configuration" "workspace-type" "production-pipeline"
  let c ← setOption c "identifier" "name" call.name
  let c ← setDatasets c call.datasetDict
  let c ← setPaths c call.pathDict
  let c ← setOption c "configuration" "description" call.description
  let c ← setOption c "identifier" "created-timestamp" call.now
  setOption c "reference" WorkspaceMeta.metaRefPipeline
    (Json.dumpsList (call.pipeline.map (·.toStringWithVersion)))

/-- `WorkspaceMeta(config).version` -/
def version (c : ConfigFile) : Except PyError SemanticVersion := do
  let text ← (c.get "identifier" "version").mapError pyError
  match SemanticVersion.fromVersionStr text with
  | some v => .ok v
  | none => .error .runtimeError

/-- The two branches on `existing_meta_config`. -/
def nextVersion (v : SemanticVersion) : Option ConfigFile → Except PyError SemanticVersion
  | none => .ok v
  | some existing => do
      let existingVersion ← version existing
      return { v with incVersion := existingVersion.incVersion + 1 }

/-- `ws_key` as it is looked up. -/
def headKey (name branch : String) : MetaKey :=
  ⟨MetaKey.genericWorkspaceKey, name, ⟨branch, 0, 0⟩⟩

variable {σ : Type} (S : PhysicalStore σ ConfigFile) (optionxform : String → String)

/-- `create` -/
def create (s : σ) (call : WorkspaceCall) : Except PyError (σ × WorkspaceCommit) := do
  let c ← buildMeta optionxform call
  let wsKey := headKey call.name call.branch
  -- `MetaStorage.get_branch_head` answers with a config or raises, and never with `None`.
  let existing ← Storage.getBranchHead S .metaStorage s wsKey
  let v ← nextVersion wsKey.componentVersion (some existing)
  let c ← setOption c "identifier" "version" v.versionStr
  let wsKey := { wsKey with componentVersion := v }
  return (Storage.put S .metaStorage s wsKey c, ⟨wsKey, c⟩)

/-- The store after the call, which changes nothing if it raises. -/
def afterCreate (s : σ) (call : WorkspaceCall) : σ :=
  match create S optionxform s call with
  | .ok (t, _) => t
  | .error _ => s

/-- The store after the calls. -/
def createAll (s : σ) (calls : List WorkspaceCall) : σ :=
  calls.foldl (afterCreate S optionxform) s

/-- A call on the branch of the workspace. -/
def IsOn (name branch : String) (call : WorkspaceCall) : Prop :=
  call.name = name ∧ call.branch = branch

instance (name branch : String) : DecidablePred (IsOn name branch) :=
  fun _ => inferInstanceAs (Decidable (_ ∧ _))

/-- The calls on the branch make the versions `0.0`, `0.1`, … of the workspace, and none takes
a version of any key away. -/
def NumberedFromZero (s : σ) (calls : List WorkspaceCall) (name branch : String) : Prop :=
  ∀ before call after, calls = before ++ call :: after → IsOn name branch call →
    ∃ t c, create S optionxform (createAll S optionxform s before) call = .ok (t, c) ∧
      c.key = ⟨MetaKey.genericWorkspaceKey, name,
        ⟨branch, 0, before.countP fun call => IsOn name branch call⟩⟩ ∧
      Storage.getSemanticVersion S .metaStorage t c.key = .ok c.config ∧
      ∀ key config,
        Storage.getSemanticVersion S .metaStorage (createAll S optionxform s before) key =
          .ok config →
        Storage.getSemanticVersion S .metaStorage t key = .ok config

/-! ### One call -/

variable {S optionxform} {s t : σ} {call : WorkspaceCall} {c : WorkspaceCommit}
  {name branch : String}

/-- A call that succeeds has found a head, and goes on from its version. -/
theorem exists_head_of_create (h : create S optionxform s call = .ok (t, c)) :
    ∃ existing v, Storage.getBranchHead S .metaStorage s (headKey call.name call.branch) =
        .ok existing ∧ version existing = .ok v ∧
      c.key = ⟨MetaKey.genericWorkspaceKey, call.name, ⟨call.branch, 0, v.incVersion + 1⟩⟩ ∧
      t = Storage.put S .metaStorage s c.key c.config := by
  unfold create at h
  obtain ⟨c₀, -, h⟩ := bind_eq_ok_iff.mp h
  obtain ⟨existing, hexisting, h⟩ := bind_eq_ok_iff.mp h
  obtain ⟨v, hv, h⟩ := bind_eq_ok_iff.mp h
  obtain ⟨c₁, -, h⟩ := bind_eq_ok_iff.mp h
  obtain ⟨rfl, rfl⟩ := Prod.mk.inj (Except.ok.inj h)
  obtain ⟨existingVersion, hversion, hv⟩ := bind_eq_ok_iff.mp hv
  obtain rfl := Except.ok.inj hv
  exact ⟨existing, existingVersion, hexisting, hversion, rfl, rfl⟩

/-- No call takes a branch without a head as its own. -/
theorem create_of_noHead
    (h : Storage.getBranchHead S .metaStorage s (headKey call.name call.branch) =
      .error .keyError) : ∃ e, create S optionxform s call = .error e := by
  cases hcreate : create S optionxform s call with
  | error e => exact ⟨e, rfl⟩
  | ok result =>
      obtain ⟨existing, v, hexisting, -⟩ := exists_head_of_create hcreate
      rw [h] at hexisting
      cases hexisting

theorem headKey_ne {name' branch' : String} {v : SemanticVersion} (hv : v.branch = branch')
    (hne : ¬(name' = name ∧ branch' = branch)) :
    (headKey name branch).toStringWithoutVersion =
      MetaKey.toStringWithoutVersion ⟨MetaKey.genericWorkspaceKey, name', v⟩ →
    (headKey name branch).componentVersion.branch ≠ v.branch := by
  intro hkey hbranch
  have hcolon : ':' ∉ MetaKey.genericWorkspaceKey.toList := by decide
  obtain ⟨-, hname⟩ := Storage.separated_inj hcolon hcolon hkey
  exact hne ⟨hname.symm, hv.symm.trans hbranch.symm⟩

/-! ### Runs -/

theorem createAll_cons (s : σ) (call : WorkspaceCall) (calls : List WorkspaceCall) :
    createAll S optionxform s (call :: calls) =
      createAll S optionxform (afterCreate S optionxform s call) calls :=
  List.foldl_cons ..

/-- No call gives a branch its first head. -/
theorem noHead_createAll (h : Storage.getBranchHead S .metaStorage s (headKey name branch) =
      .error .keyError) (calls : List WorkspaceCall) :
    Storage.getBranchHead S .metaStorage (createAll S optionxform s calls)
      (headKey name branch) = .error .keyError := by
  induction calls generalizing s with
  | nil => exact h
  | cons call calls ih =>
      rw [createAll_cons]
      refine ih ?_
      unfold afterCreate
      cases hcreate : create S optionxform s call with
      | error e => exact h
      | ok result =>
          obtain ⟨existing, v, hexisting, -, hkey, ht⟩ :=
            exists_head_of_create (t := result.1) (c := result.2) hcreate
          have hne : ¬(call.name = name ∧ call.branch = branch) := by
            intro hex
            obtain ⟨rfl, rfl⟩ := hex
            rw [h] at hexisting
            cases hexisting
          show Storage.getBranchHead S .metaStorage result.1 (headKey name branch) = _
          rw [ht, Storage.getBranchHead_put_of_ne (fun _ => ?_), h]
          rw [hkey]
          exact headKey_ne rfl hne

/-- **No first version.** However the calls are ordered, those on a branch of a workspace do not
make its versions from `0.0` on. In a store that has no head for the branch, every one of them
raises. -/
theorem not_numberedFromZero (S : PhysicalStore σ ConfigFile) (optionxform : String → String)
    (s : σ) (calls : List WorkspaceCall) (name branch : String)
    (hcalls : ∃ call ∈ calls, IsOn name branch call) :
    ¬ NumberedFromZero S optionxform s calls name branch ∧
      (Storage.getBranchHead S .metaStorage s (headKey name branch) = .error .keyError →
        ∀ before call after, calls = before ++ call :: after → IsOn name branch call →
          ∃ e, create S optionxform (createAll S optionxform s before) call = .error e) := by
  refine ⟨?_, ?_⟩
  · intro h
    -- The first call on the branch would have to make the version 0.0.
    obtain ⟨before, call, after, hfirst, hon, hbefore⟩ :
        ∃ before call after, calls = before ++ call :: after ∧ IsOn name branch call ∧
          ∀ c ∈ before, ¬ IsOn name branch c := by
      obtain ⟨call, hcall, hon⟩ := hcalls
      obtain ⟨first, hfind⟩ := Option.isSome_iff_exists.mp
        (List.find?_isSome (p := fun c => decide (IsOn name branch c)) |>.mpr
          ⟨call, hcall, decide_eq_true hon⟩)
      obtain ⟨hfirst, before, after, heq, hbefore⟩ := List.find?_eq_some_iff_append.mp hfind
      refine ⟨before, first, after, heq, of_decide_eq_true hfirst, fun c hc hon => ?_⟩
      simpa [hon] using hbefore c hc
    obtain ⟨t, c, hcreate, hkey, -⟩ := h before call after hfirst hon
    obtain ⟨existing, v, -, -, hkey', -⟩ := exists_head_of_create hcreate
    have hzero : before.countP (fun call => IsOn name branch call) = 0 := by
      rw [List.countP_eq_zero]
      intro c hc
      simpa using hbefore c hc
    rw [hkey, hzero] at hkey'
    have hinc : 0 = v.incVersion + 1 :=
      congrArg (fun k : MetaKey => k.componentVersion.incVersion) hkey'
    omega
  · rintro hnone before call after - ⟨rfl, rfl⟩
    exact create_of_noHead (noHead_createAll hnone before)

section Example

/-- A call on the branch `master` of the workspace `ws`. -/
def exampleCall : WorkspaceCall where
  name := "ws"
  branch := "master"
  datasetDict := ∅
  pathDict := (∅ : OrderedDict String (Option String)).set "base" none
    |>.set "output" none |>.set "temp" none |>.set "venv" none
  description := ""
  pipeline := []
  now := "0.0"

theorem not_numberedFromZero_twice :
    ¬ NumberedFromZero (Storage.logStore ConfigFile) String.toLower []
      [exampleCall, exampleCall] "ws" "master" :=
  (not_numberedFromZero (Storage.logStore ConfigFile) String.toLower [] [exampleCall, exampleCall]
    "ws" "master" ⟨exampleCall, by simp, rfl, rfl⟩).1

/-- In an empty store, the first call raises already. -/
theorem not_numberedFromZero_once :
    ¬ NumberedFromZero (Storage.logStore ConfigFile) String.toLower [] [exampleCall] "ws"
      "master" := by
  intro h
  obtain ⟨t, c, hcreate, -⟩ := h [] exampleCall [] rfl ⟨rfl, rfl⟩
  obtain ⟨e, he⟩ := @create_of_noHead _ (Storage.logStore ConfigFile) String.toLower [] exampleCall
    rfl
  exact absurd (he.symm.trans hcreate) (by simp)

end Example

end WorkspaceManager

end SecCask.Pipeman
