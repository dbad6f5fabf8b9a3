import SecCask.Lib.Effect
import SecCask.Pipeman.Delivery
import SecCask.Pipeman.Storage
import SecCask.Pipeman.TrialTree

/-!
# SecCask.Pipeman.TrialManager

`TrialManager.commit_workspace` of `pipeman/trialmanager.py` with all that it calls. A call
may fail before any access to the store, the file system or the coordinator; what it has
written by then stays. Times, sizes and log lines are left out.

The folders are those that components write their outputs to. What else is extracted on the
way (the library archives in `venv_dir`) reaches a run through its library key.
-/

namespace SecCask.Pipeman

/-- What the files in the physical store contain. `C` is what a folder contains. -/
inductive StoredFile (C : Type)
  | config (w : WorkspaceMeta)
  | params (p : Params)
  | archive (content : C)

/-- The content of a dataset, and what `_build_venvs` reads from its meta. -/
structure DatasetInfo (C : Type) where
  branch : String
  files : List String
  content : C

/-- What `_build_venvs` reads from the meta of a library. -/
structure LibraryInfo where
  trainScript : String
  trainParams : OrderedDict String String

/-- A value of `input_path`: the empty string, the folder of an output, or the extracted
dataset with the path or paths that stand for it. -/
inductive InputPath
  | unset
  | folder (path : String)
  | dataset (key : MetaKey) (paths : String)
  deriving DecidableEq

def InputPath.toString : InputPath → String
  | .unset => ""
  | .folder path => path
  | .dataset _ paths => paths

/-- What the coordinator is told. -/
inductive CoordinatorCall
  | onNewPipeline (components candidateIds : List String)
  | onNewComponent (args : List String)
  deriving DecidableEq

/-- What is the same for all calls. -/
structure Machine (C : Type) where
  /-- `self.retrain` -/
  retrain : Bool
  dataset : MetaKey → Except PyError (DatasetInfo C)
  library : MetaKey → Except PyError LibraryInfo
  /-- What a component finds when it is given the listed files of a folder. -/
  listed : List String → C → C
  /-- What the train script of a library leaves in the output folder, from what is found at the
  input path. -/
  run : MetaKey → Option C → C
  /-- The same for any other script. -/
  runOther : List (List Char) → Option C → C
  emptyFolder : C
  /-- `final_results.txt` is there and starts with a number. -/
  hasResults : C → Bool
  /-- The paths that exist apart from the output folders of components. -/
  otherPath : String → Bool
  /-- What is found at a path that is none of these folders. -/
  elsewhere : String → Option C
  /-- `env.temp_path` -/
  tempPath : String
  /-- `cpp_coordinator.get_component_key()` -/
  componentKey : String
  /-- The current folder of a worker. -/
  workerCwd : List (List Char)

structure World (σ C : Type) where
  store : σ
  folders : String → Option C
  calls : List CoordinatorCall
  /-- The number of steps that the current call has taken. -/
  clock : ℕ

/-- How a step fails. It may have changed the folder that it was writing to. -/
structure Fault (C : Type) where
  error : PyError
  leftover : Option C

structure CommitCall (C : Type) where
  workspace : WorkspaceMeta
  order : SetOrder
  /-- The identifiers that `uuid4()` gives. -/
  candidateIds : ℕ → String
  faults : ℕ → Option (Fault C)

/-- The options of `_prepare_env`. -/
structure EnvOptions where
  baseDir : String
  venvDir : String
  tempDir : String
  outputDir : String

/-- An entry of the command queue: `cmd_list`, `wd_list` and `exec_nodes_indices` at one
position, and what the command is meant to do. -/
structure Command where
  index : ℕ
  wd : String
  cmd : String
  key : MetaKey
  script : String
  input : InputPath
  output : String

/-! ### Paths -/

/-- `os.path.join` -/
def pathJoin (a b : String) : String := String.ofList (PosixPath.join a.toList b.toList)

/-- A folder is the same with and without the slash at its end. -/
def folderName (path : String) : String :=
  if path.toList.getLast? = some '/' then path else path ++ "/"

/-- The component key of a call: an empty one is sent as `NULL`. -/
def sentKey {C : Type} (m : Machine C) : String :=
  if m.componentKey = "" then "NULL" else m.componentKey

namespace World

variable {σ C : Type}

def writeFolder (world : World σ C) (path : String) (content : C) : World σ C :=
  { world with
    folders := fun name => if name = folderName path then some content else world.folders name }

def folder (world : World σ C) (path : String) : Option C := world.folders (folderName path)

/-- `os.path.exists(path)` -/
def pathExists (m : Machine C) (world : World σ C) (path : String) : Bool :=
  path ≠ "" && ((world.folder path).isSome || m.otherPath path)

end World

namespace DatasetInfo

variable {C : Type}

/-- What the first component of a pipeline is given of the dataset. -/
def input (m : Machine C) (d : DatasetInfo C) : C :=
  if d.branch = "not-schema-hashable" then d.content else m.listed d.files d.content

end DatasetInfo

namespace TrialManager

variable {σ C : Type}

abbrev Commit (σ C α : Type) := Effect PyError (World σ C) α

/-- A step of the call, which may fail. `path` is the folder that it writes to, if any. -/
def step (call : CommitCall C) (path : Option String) : Commit σ C Unit := do
  let world ← get
  modify fun world => { world with clock := world.clock + 1 }
  match call.faults world.clock with
  | none => pure ()
  | some fault => do
      match path, fault.leftover with
      | some path, some content => modify (·.writeFolder path content)
      | _, _ => pure ()
      throw fault.error

variable (m : Machine C) (S : PhysicalStore σ (StoredFile C)) (call : CommitCall C)

/-- The folders of a workspace. -/
def envOptions (paths : WorkspacePaths) : EnvOptions :=
  ⟨paths.base, pathJoin paths.base paths.venv, pathJoin paths.base paths.temp,
    pathJoin paths.base paths.output⟩

/-! ### The proposed version -/

/-- `MetaStorage.get_branch_head` -/
def getBranchHead (key : MetaKey) : Commit σ C WorkspaceMeta := do
  step call none
  let file ← MonadExcept.ofExcept (Storage.getBranchHead S .metaStorage (← get).store key)
  match file with
  | .config w => return w
  | _ => throw .typeError

/-- The `try` block of `commit_workspace`: the version and the tree behind the branch's head,
or those of a first commit. The handler is for every `KeyError`. -/
def propose : Commit σ C (SemanticVersion × TrialTree) :=
  let workspace := call.workspace
  let branch := workspace.version.branch
  tryCatch (do
    let previous ← getBranchHead S call workspace.key
    let trialTree ← MonadExcept.ofExcept (TrialTree.init call.order [previous, workspace])
    return (⟨branch, previous.version.apiVersion, previous.version.incVersion + 1⟩, trialTree))
    fun error =>
      if error = .keyError then do
        let trialTree ← MonadExcept.ofExcept (TrialTree.init call.order [workspace])
        return (⟨branch, 0, 0⟩, trialTree)
      else throw error

/-- `_prepare_env` -/
def prepareEnv (paths : WorkspacePaths) : Commit σ C EnvOptions := do
  let options := envOptions paths
  [options.baseDir, options.venvDir, options.tempDir, options.outputDir].forM fun _ =>
    step call none
  return options

/-- `first(candidates, condition)` -/
def first {α : Type} (candidates : List α) (condition : α → Bool) : Except PyError α :=
  match candidates.find? condition with
  | some candidate => .ok candidate
  | none => .error .notFound

/-- `equal` of `commit_workspace`, for the positions that both lists have. -/
def equal (nodes : List TreeNode) (pipeline : List MetaKey) : Bool :=
  (nodes.zip pipeline).all fun pair => pair.1.key = pair.2

/-! ### Building the command queue -/

/-- `FileUtils.extract_archive_to` -/
def extractArchiveTo (file : StoredFile C) (path : String) : Commit σ C Unit := do
  step call (some path)
  match file with
  | .archive content => modify (·.writeFolder path content)
  | _ => throw .external

/-- What stands for a dataset that is extracted: its folder, or its files in it. -/
def datasetPaths (options : EnvOptions) (key : MetaKey) (info : DatasetInfo C) : String :=
  let baseDir := pathJoin options.venvDir key.toStringWithVersion
  if info.branch = "not-schema-hashable" then baseDir ++ "/"
  else ",".intercalate (info.files.map (pathJoin baseDir))

/-- The input of the first component that is executed, from the node before it. -/
def firstInput (options : EnvOptions) (prev : TreeNode) : Commit σ C InputPath := do
  let keyStr := prev.key.toStringWithVersion
  if prev.key.componentType = MetaKey.genericDatasetKey then
    step call none
    let dataset ← MonadExcept.ofExcept (m.dataset prev.key)
    return .dataset prev.key (datasetPaths options prev.key dataset)
  else if prev.key.componentType = MetaKey.genericLibraryKey then
    if (← get).pathExists m prev.output then return .folder prev.output
    else
      step call none
      match prev.wsKey with
      | none => throw .typeError
      | some wsKey => do
          let file ← MonadExcept.ofExcept
            (Storage.runtimeGet S "output" (← get).store wsKey prev.key prev.output)
          let inputPath := pathJoin options.outputDir keyStr ++ "/"
          extractArchiveTo call file inputPath
          return .folder inputPath
  else return .unset

/-- The command that `_build_venvs` appends for a library. -/
def commandOf (options : EnvOptions) (inputPath : InputPath) (i : ℕ) (key : MetaKey)
    (library : LibraryInfo) : Command :=
  let outputPath := pathJoin options.outputDir key.toStringWithVersion ++ "/"
  { index := i
    wd := pathJoin options.venvDir key.toStringWithVersion
    cmd := commandLine library.trainScript
      (completeParams library.trainParams inputPath.toString outputPath m.tempPath)
    key := key
    script := library.trainScript
    input := inputPath
    output := outputPath }

/-- Setting up one component: the node with its output folder and parameters, and the entry
of the command queue. -/
def buildVenv (options : EnvOptions) (inputPath : InputPath) (i : ℕ) (node : TreeNode) :
    Commit σ C (TreeNode × Command) := do
  step call none
  let library ← MonadExcept.ofExcept (m.library node.key)
  step call none
  let outputPath := pathJoin options.outputDir node.key.toStringWithVersion
  step call (some outputPath)
  if (← get).pathExists m outputPath then pure ()
  else modify (·.writeFolder outputPath m.emptyFolder)
  let outputPath := outputPath ++ "/"
  let params := completeParams library.trainParams inputPath.toString outputPath m.tempPath
  return ({ node with output := outputPath, params := .dict params },
    commandOf m options inputPath i node.key library)

/-- A component in front of the first executed one is left out when it is trained. -/
def skips (node : TreeNode) : Bool :=
  node.trained && (!m.retrain || node.key.componentType = MetaKey.genericDatasetKey)

/-- The loop of `_build_venvs` from position `i` on: the nodes as it leaves them, and the
command queue. `input` is `none` as long as `is_first_component` holds. -/
def buildVenvs (options : EnvOptions) (i : ℕ) (prev : Option TreeNode)
    (input : Option InputPath) : List TreeNode → Commit σ C (List TreeNode × List Command)
  | [] => return ([], [])
  | node :: rest =>
      match input with
      | some inputPath => do
          let (node, command) ← buildVenv m call options inputPath i node
          let (nodes, commands) ←
            buildVenvs options (i + 1) (some node) (some (.folder command.output)) rest
          return (node :: nodes, command :: commands)
      | none =>
          if skips m node then do
            let (nodes, commands) ← buildVenvs options (i + 1) (some node) none rest
            return (node :: nodes, commands)
          else do
            let inputPath ← firstInput m S call options (prev.getD node)
            let (node, command) ← buildVenv m call options inputPath i node
            let (nodes, commands) ←
              buildVenvs options (i + 1) (some node) (some (.folder command.output)) rest
            return (node :: nodes, command :: commands)

/-! ### Training -/

/-- What a component finds at its input path. -/
def readInput (world : World σ C) : InputPath → Option C
  | .unset => none
  | .folder path => world.folder path
  | .dataset key _ => (m.dataset key).toOption.map (DatasetInfo.input m)

/-- What is found at a path that stands in a command. -/
def readPath (world : World σ C) (input : InputPath) (path : String) : Option C :=
  if path = input.toString then readInput m world input
  else (world.folder path).or (m.elsewhere path)

/-- The path of the train script, as the worker makes it absolute. -/
def scriptPath (command : Command) : List (List Char) :=
  PosixPath.abspath (PosixPath.abspath m.workerCwd command.wd.toList) command.script.toList

/-- What a worker does with an execution: it runs the script that it has been sent in the working
folder, with the folders that it has read off the command. -/
def runExecution (command : Command) (execution : Worker.Execution) : Commit σ C Unit := do
  let start := execution.start
  let inputfolder := pathJoin execution.workingDirectory start.inputfolder
  let outputfolder := pathJoin execution.workingDirectory start.outputfolder
  step call (some outputfolder)
  let found := readPath m (← get) command.input inputfolder
  modify (·.writeFolder outputfolder
    (if start.scriptPath = scriptPath m command then m.run command.key found
      else m.runOther start.scriptPath found))

/-- The loop body of `_train_node_list`: `on_new_component` blocks until the component has
written its output folder. -/
def trainComponent (candidateIds : List String) (command : Command) : Commit σ C Unit := do
  let id ← MonadExcept.ofExcept
    (match candidateIds[command.index]? with
    | some id => .ok id
    | none => .error PyError.indexError)
  let info := componentInfo id command.wd (sentKey m) command.cmd
  modify fun world => { world with calls := world.calls ++ [.onNewComponent info] }
  match executed m.workerCwd info with
  | some execution => runExecution m call command execution
  -- Nothing has run. Whether the call comes back is left to the faults.
  | none => step call none

/-- `_train_node_list` -/
def trainNodeList (options : EnvOptions) (candidateIds : List String) (nodes : List TreeNode) :
    Commit σ C (List TreeNode) := do
  let (nodes, commands) ← buildVenvs m S call options 0 none none nodes
  commands.forM (trainComponent m call candidateIds)
  match commands.getLast? with
  | none => throw .indexError
  | some last => do
      step call none
      if ((← get).folder last.output).any m.hasResults then
        return nodes.map ({ · with trained := true })
      else throw .external

/-! ### Committing -/

/-- The dictionaries `executed` and `skipped` of `commit_workspace`. -/
structure NodeDicts where
  executedOutput : OrderedDict String String
  executedParams : OrderedDict String Params
  skippedOutput : OrderedDict String String
  skippedParams : OrderedDict String Params

/-- A node whose output is a path has been executed, one whose output is a hashed version
has not. -/
def addNode (world : World σ C) (dicts : NodeDicts) (node : TreeNode) : NodeDicts :=
  let keyStr := node.key.toStringWithVersion
  if world.pathExists m node.output then
    { dicts with
      executedOutput := dicts.executedOutput.set keyStr node.output
      executedParams := dicts.executedParams.set keyStr node.params }
  else
    { dicts with
      skippedOutput := dicts.skippedOutput.set keyStr node.output
      skippedParams := dicts.skippedParams.set keyStr node.params }

/-- `FileUtils.dump_params_to` -/
def dumpParamsTo (params : Params) : Commit σ C (StoredFile C) := do
  step call none
  return .params params

/-- `FileUtils.archive_local_folder` -/
def archiveLocalFolder (path : String) : Commit σ C (StoredFile C) := do
  step call none
  match (← get).folder path with
  | some content => return .archive content
  | none => throw .external

/-- The loop body of `_save_pipeline_state`: a value is dumped and put into the runtime storage of
the given name. -/
def saveEntry {V R : Type} (name : String) (wsKey : MetaKey)
    (action : V → Commit σ C (StoredFile C)) (result : String → R) (results : OrderedDict String R)
    (e : Sigma fun _ : String => V) : Commit σ C (OrderedDict String R) := do
  let key ← MonadExcept.ofExcept
    (match MetaKey.buildFromString e.1 with
    | some key => .ok key
    | none => .error PyError.valueError)
  let file ← action e.2
  step call none
  let (store, hversion) := Storage.runtimePut S name (← get).store wsKey key file
  modify fun world => { world with store := store }
  return results.set key.toStringWithVersion (result hversion)

/-- The loop of `_save_pipeline_state` for one of the two states. -/
def saveState {V R : Type} (name : String) (wsKey : MetaKey)
    (action : V → Commit σ C (StoredFile C)) (result : String → R) (value : OrderedDict String V) :
    Commit σ C (OrderedDict String R) :=
  value.entries.foldlM (saveEntry S call name wsKey action result) ∅

/-- `_save_pipeline_state` -/
def savePipelineState (wsKey : MetaKey) (libParamsDict : OrderedDict String Params)
    (outputPathDict : OrderedDict String String) :
    Commit σ C (OrderedDict String Params × OrderedDict String String) := do
  let hpMap ← saveState S call "params" wsKey (dumpParamsTo call) Params.hversion libParamsDict
  let outMap ← saveState S call "output" wsKey (archiveLocalFolder call) id outputPathDict
  return (hpMap, outMap)

/-- `MetaStorage.put` of the workspace's config. -/
def putMeta (w : WorkspaceMeta) : Commit σ C Unit := do
  step call none
  let (store, hversion) := Storage.putEntity S .metaStorage (← get).store w.key (.config w)
  modify fun world => { world with store := store }
  step call none
  modify fun world =>
    { world with store := Storage.putVersion S .metaStorage world.store w.key hversion }

/-- `candidate_ids` -/
def candidateIdsOf : List String :=
  (List.range call.workspace.pipeline.length).map call.candidateIds

/-- `commit_workspace` up to the training: the proposed version, the folders, and the nodes of the
pipeline. -/
def planCommit : Commit σ C (SemanticVersion × EnvOptions × List TreeNode) := do
  let workspace := call.workspace
  let (proposed, trialTree) ← propose S call
  let options ← prepareEnv call workspace.paths
  let nodes ← MonadExcept.ofExcept
    (first trialTree.candidateNodeLists fun nodes => equal nodes workspace.pipeline)
  modify fun world => { world with
    calls := world.calls ++
      [.onNewPipeline (workspace.pipeline.map (·.toStringWithVersion)) (candidateIdsOf call)] }
  step call none
  return (proposed, options, nodes)

/-- `commit_workspace` up to writing the workspace's config. -/
def prepareCommit : Commit σ C WorkspaceMeta := do
  let workspace := call.workspace
  let (proposed, options, nodes) ← planCommit S call
  let nodes ← trainNodeList m S call options (candidateIdsOf call) nodes
  let dicts := nodes.foldl (addNode m (← get)) ⟨∅, ∅, ∅, ∅⟩
  let (hpMap, outMap) ←
    savePipelineState S call workspace.key dicts.executedParams dicts.executedOutput
  return { workspace with
    outputs := some (outMap.update dicts.skippedOutput)
    params := some (hpMap.update dicts.skippedParams)
    version := proposed }

/-- `commit_workspace`: the workspace as it is committed. -/
def commitWorkspace : Commit σ C WorkspaceMeta := do
  let committed ← prepareCommit m S call
  step call none
  putMeta S call committed
  return committed

/-- One call, with the workspaces committed so far, oldest first. -/
def commitStep (h : World σ C × List WorkspaceMeta) (call : CommitCall C) :
    Option (World σ C × List WorkspaceMeta) :=
  match (commitWorkspace m S call).runFrom { h.1 with clock := 0 } with
  | (.ok committed, world) => some (world, h.2 ++ [committed])
  | (.error _, world) => some (world, h.2)

end TrialManager

end SecCask.Pipeman
