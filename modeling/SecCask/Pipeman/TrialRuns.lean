import SecCask.Pipeman.TrialManager
import SecCask.Pipeman.TrainedMarks

/-!
# SecCask.Pipeman.TrialRuns

What the parts of `commit_workspace` do to the store and to the folders: every run of them,
and those that succeed. Components write to folders with a colon in their name, and keep to
their own.

Three relations between the world before a run and the world after it carry the argument.
`FoldersOnly` allows changes in listed folders and none in the store; it is what a successful
part of the training is known by. `Keeps` allows new versions too, as long as none is lost and
no head moves. `Quiet` is `Keeps` for all folders that are no component's, and holds of every
run of the call up to the new head, also of those that fail. All three are transitive, so each
function has them from the functions that it calls.

A run that succeeds says more: `_build_venvs` leaves out a first part of the nodes and makes a
`Queue` of the others, in which each command takes its input from the output of the one before.
-/

namespace SecCask.Pipeman

/-! ### The folders of components

The name of a component's folder ends in its key and version, which are read off it again: two
components of one environment never share a folder. -/

/-- The folder that a component writes to. -/
def outputPath (options : EnvOptions) (key : MetaKey) : String :=
  pathJoin options.outputDir key.toStringWithVersion ++ "/"

theorem toList_pathJoin (a b : String) :
    (pathJoin a b).toList = b.toList ∨ ∃ s, (pathJoin a b).toList = s ++ b.toList := by
  rw [pathJoin, String.toList_ofList, PosixPath.join]
  split
  · exact Or.inl rfl
  · split
    · exact Or.inr ⟨a.toList, rfl⟩
    · exact Or.inr ⟨a.toList ++ ['/'], by simp [PathAlphabet.slash]⟩

/-- An absolute path does not depend on the folder that it is joined to. -/
theorem pathJoin_of_isAbs (a : String) {b : String} (hb : PosixPath.isAbs b.toList = true) :
    pathJoin a b = b := by
  rw [pathJoin, PosixPath.join, if_pos hb, String.ofList_toList]

/-- Every printed key holds a colon. -/
theorem colon_mem_pathJoin (a : String) (key : MetaKey) :
    ':' ∈ (pathJoin a key.toStringWithVersion).toList := by
  have hkey : ':' ∈ key.toStringWithVersion.toList := by
    rw [MetaKey.toList_toStringWithVersion]
    simp
  rcases toList_pathJoin a key.toStringWithVersion with h | ⟨s, h⟩
  · rw [h]
    exact hkey
  · rw [h]
    exact List.mem_append_right _ hkey

theorem colon_mem_outputPath (options : EnvOptions) (key : MetaKey) :
    ':' ∈ (outputPath options key).toList := by
  rw [outputPath, String.toList_append]
  exact List.mem_append_left _ (colon_mem_pathJoin _ _)

/-- A printed key ends in a digit. -/
theorem getLast?_toStringWithVersion (key : MetaKey) :
    key.toStringWithVersion.toList.getLast? ≠ some '/' := by
  obtain ⟨front, hfront⟩ : ∃ front, key.toStringWithVersion.toList =
      front ++ key.componentVersion.incVersion.repr.toList := by
    refine ⟨(key.componentType ++ "::" ++ key.componentName ++ "::").toList ++
      (key.componentVersion.branch.toList ++
        '.' :: (key.componentVersion.apiVersion.repr.toList ++ ['.'])), ?_⟩
    rw [MetaKey.toStringWithVersion, String.toList_append, SemanticVersion.toList_versionStr,
      SemanticVersion.numbers]
    simp only [List.append_assoc, List.cons_append, List.nil_append]
  intro hlast
  rw [hfront, List.getLast?_append_of_ne_nil _ (Regex.repr_toList_ne_nil _)] at hlast
  exact absurd (Regex.isDigit_of_mem_repr (List.mem_of_getLast? hlast)) (by decide)

theorem folderName_outputPath (options : EnvOptions) (key : MetaKey) :
    folderName (outputPath options key) = outputPath options key := by
  rw [folderName, if_pos]
  simp [outputPath]

theorem folderName_pathJoin (options : EnvOptions) (key : MetaKey) :
    folderName (pathJoin options.outputDir key.toStringWithVersion) = outputPath options key := by
  refine if_neg ?_
  have hne : key.toStringWithVersion.toList ≠ [] := by
    rw [MetaKey.toList_toStringWithVersion]
    simp
  rcases toList_pathJoin options.outputDir key.toStringWithVersion with h | ⟨s, h⟩
  · rw [h]
    exact getLast?_toStringWithVersion key
  · rw [h, List.getLast?_append_of_ne_nil _ hne]
    exact getLast?_toStringWithVersion key

/-- The folders of different libraries are different. -/
theorem outputPath_inj {options : EnvOptions} {k l : MetaKey}
    (hk : k.componentType = MetaKey.genericLibraryKey)
    (hl : l.componentType = MetaKey.genericLibraryKey)
    (h : outputPath options k = outputPath options l) :
    k.toStringWithVersion = l.toStringWithVersion := by
  have hrel : ∀ {key : MetaKey}, key.componentType = MetaKey.genericLibraryKey →
      ¬PosixPath.isAbs key.toStringWithVersion.toList = true := by
    intro key htype
    rw [MetaKey.toList_toStringWithVersion, htype]
    simp [PosixPath.isAbs, PathAlphabet.slash, MetaKey.genericLibraryKey]
  rw [outputPath, outputPath, String.append_left_inj, pathJoin, pathJoin, String.ofList_inj,
    PosixPath.join, PosixPath.join, if_neg (hrel hk), if_neg (hrel hl)] at h
  refine String.toList_inj.mp ?_
  split at h
  · exact List.append_cancel_left h
  · exact (List.cons.inj (List.append_cancel_left h)).2

theorem folderName_toList (path : String) :
    (folderName path).toList = path.toList ∨ (folderName path).toList = path.toList ++ ['/'] := by
  unfold folderName
  split
  · exact Or.inl rfl
  · exact Or.inr (by simp)

/-- A path to the folder of a component, with or without the slash at its end. -/
def IsOutput (path : String) : Prop := ∃ options key, folderName path = outputPath options key

theorem isOutput_outputPath (options : EnvOptions) (key : MetaKey) :
    IsOutput (outputPath options key) := ⟨options, key, folderName_outputPath options key⟩

theorem isOutput_pathJoin (options : EnvOptions) (key : MetaKey) :
    IsOutput (pathJoin options.outputDir key.toStringWithVersion) :=
  ⟨options, key, folderName_pathJoin options key⟩

namespace TrialManager

open Effect

variable {σ C : Type} {m : Machine C} {S : PhysicalStore σ (StoredFile C)} {call : CommitCall C}

/-! ### What a run leaves alone -/

/-- The store is the same, and so are all folders that are not listed. -/
structure FoldersOnly (outputs : List String) (world world' : World σ C) : Prop where
  store : world'.store = world.store
  folders : ∀ path, folderName path ∉ outputs → world'.folder path = world.folder path

theorem FoldersOnly.refl (outputs : List String) (world : World σ C) :
    FoldersOnly outputs world world := ⟨rfl, fun _ _ => rfl⟩

theorem FoldersOnly.trans {outputs : List String} {world world' world'' : World σ C}
    (h : FoldersOnly outputs world world') (h' : FoldersOnly outputs world' world'') :
    FoldersOnly outputs world world'' :=
  ⟨h'.store.trans h.store, fun path hpath => (h'.folders path hpath).trans (h.folders path hpath)⟩

instance {outputs : List String} : Std.Refl (FoldersOnly (σ := σ) (C := C) outputs) :=
  ⟨FoldersOnly.refl outputs⟩

instance {outputs : List String} : IsTrans (World σ C) (FoldersOnly outputs) :=
  ⟨fun _ _ _ => FoldersOnly.trans⟩

theorem FoldersOnly.mono {outputs outputs' : List String} {world world' : World σ C}
    (h : FoldersOnly outputs world world') (hsub : outputs ⊆ outputs') :
    FoldersOnly outputs' world world' :=
  ⟨h.store, fun path hpath => h.folders path fun hmem => hpath (hsub hmem)⟩

theorem foldersOnly_writeFolder {path : String} {outputs : List String}
    (hpath : folderName path ∈ outputs) (world : World σ C) (content : C) :
    FoldersOnly outputs world (world.writeFolder path content) := by
  refine ⟨rfl, fun other hother => if_neg ?_⟩
  intro heq
  exact hother (heq ▸ hpath)

theorem folder_writeFolder (world : World σ C) (path : String) (content : C) :
    (world.writeFolder path content).folder path = some content := if_pos rfl

/-! ### What every run leaves -/

/-- No version has been lost, no head of a workspace has moved, and the kept folders have not
changed. -/
structure Keeps (S : PhysicalStore σ (StoredFile C)) (kept : String → Prop)
    (world world' : World σ C) : Prop where
  versions : ∀ strKey hversion content,
    Storage.fileVersion S world.store strKey hversion = .ok content →
      Storage.fileVersion S world'.store strKey hversion = .ok content
  heads : ∀ key, Storage.getBranchHead S .metaStorage world'.store key =
    Storage.getBranchHead S .metaStorage world.store key
  folders : ∀ path, kept path → world'.folder path = world.folder path

variable {kept : String → Prop}

theorem Keeps.of_store {world world' : World σ C} (hstore : world'.store = world.store)
    (hfolders : ∀ path, kept path → world'.folder path = world.folder path) :
    Keeps S kept world world' := by
  refine ⟨?_, ?_, hfolders⟩ <;> rw [hstore] <;> simp

theorem Keeps.of_foldersOnly {world world' : World σ C} (h : FoldersOnly [] world world') :
    Keeps S kept world world' :=
  .of_store h.store fun path _ => h.folders path List.not_mem_nil

instance : Std.Refl (Keeps S kept) := ⟨fun _ => .of_store rfl fun _ _ => rfl⟩

instance : IsTrans (World σ C) (Keeps S kept) where
  trans _ _ _ h h' :=
    { versions := fun _ _ _ hold => h'.versions _ _ _ (h.versions _ _ _ hold)
      heads := fun key => (h'.heads key).trans (h.heads key)
      folders := fun path hpath => (h'.folders path hpath).trans (h.folders path hpath) }

/-- Only the folders of components may have changed. -/
abbrev Quiet (S : PhysicalStore σ (StoredFile C)) : World σ C → World σ C → Prop :=
  Keeps S fun path => ¬IsOutput path

theorem quiet_writeFolder {path : String} (hpath : IsOutput path) (world : World σ C)
    (content : C) : Quiet S world (world.writeFolder path content) := by
  refine .of_store rfl fun other hother => if_neg ?_
  intro heq
  obtain ⟨options, key, hname⟩ := hpath
  exact hother ⟨options, key, heq.trans hname⟩

theorem quiet_step {path : Option String} (hpath : ∀ p ∈ path, IsOutput p) :
    Within (Quiet S) (step (σ := σ) call path) := by
  unfold step
  refine Within.bind Within.get fun world => ?_
  refine Within.bind (Within.modify fun _ => .of_store rfl fun _ _ => rfl) fun _ => ?_
  split
  · exact Within.pure _
  · split
    · refine Within.bind (Within.modify fun world => ?_) fun _ => Within.throw _
      exact quiet_writeFolder (hpath _ rfl) world _
    · exact Within.throw _

theorem quiet_step_some {path : String} (hpath : IsOutput path) :
    Within (Quiet S) (step (σ := σ) call (some path)) := quiet_step (by simpa using hpath)

/-! ### Before the training -/

theorem within_step_none : Within (FoldersOnly []) (step (σ := σ) call none) := by
  refine Within.bind Within.get fun world => ?_
  refine Within.bind (Within.modify fun _ => ⟨rfl, fun _ _ => rfl⟩) fun _ => ?_
  split
  · exact Within.pure _
  · exact Within.throw _

theorem within_getBranchHead (key : MetaKey) :
    Within (FoldersOnly []) (getBranchHead S call key) := by
  refine Within.bind within_step_none fun _ => Within.bind Within.get fun _ => ?_
  refine Within.bind (Within.ofExcept _) fun _ => ?_
  split
  · exact Within.pure _
  · exact Within.throw _

theorem within_propose : Within (FoldersOnly []) (propose S call) := by
  refine Within.tryCatch ?_ fun error => ?_
  · refine Within.bind (within_getBranchHead _) fun _ => ?_
    exact Within.bind (Within.ofExcept _) fun _ => Within.pure _
  · split
    · exact Within.bind (Within.ofExcept _) fun _ => Within.pure _
    · exact Within.throw _

theorem within_prepareEnv (paths : WorkspacePaths) :
    Within (FoldersOnly []) (prepareEnv (σ := σ) call paths) :=
  Within.bind (Within.forM fun _ _ => within_step_none) fun _ => Within.pure _

theorem keeps_step_none : Within (Keeps S kept) (step (σ := σ) call none) :=
  within_step_none.mono fun _ _ => .of_foldersOnly

theorem quiet_extractArchiveTo {path : String} (hpath : IsOutput path)
    (file : StoredFile C) : Within (Quiet S) (extractArchiveTo (σ := σ) call file path) := by
  refine Within.bind (quiet_step_some hpath) fun _ => ?_
  split
  · exact Within.modify fun world => quiet_writeFolder hpath world _
  · exact Within.throw _

theorem quiet_firstInput (options : EnvOptions) (prev : TreeNode) :
    Within (Quiet S) (firstInput m S call options prev) := by
  unfold firstInput
  dsimp only
  split
  · refine Within.bind keeps_step_none fun _ => Within.bind (Within.ofExcept _) fun _ => ?_
    exact Within.pure _
  · split
    · refine Within.bind Within.get fun _ => ?_
      split
      · exact Within.pure _
      · refine Within.bind keeps_step_none fun _ => ?_
        split
        · exact Within.throw _
        · refine Within.bind Within.get fun _ => Within.bind (Within.ofExcept _) fun _ => ?_
          exact Within.bind (quiet_extractArchiveTo (isOutput_outputPath options prev.key) _)
            fun _ => Within.pure _
    · exact Within.pure _

theorem quiet_buildVenv (options : EnvOptions) (inputPath : InputPath) (i : ℕ) (node : TreeNode) :
    Within (Quiet S) (buildVenv (σ := σ) m call options inputPath i node) := by
  have houtput := isOutput_pathJoin options node.key
  refine Within.bind keeps_step_none fun _ => Within.bind (Within.ofExcept _) fun _ => ?_
  refine Within.bind keeps_step_none fun _ => ?_
  refine Within.bind (quiet_step_some houtput) fun _ => ?_
  refine Within.bind Within.get fun _ => ?_
  split
  · exact Within.pure _
  · exact Within.bind (Within.modify fun world => quiet_writeFolder houtput world _)
      fun _ => Within.pure _

theorem quiet_buildVenvs (options : EnvOptions) (nodes : List TreeNode) :
    ∀ i prev input, Within (Quiet S) (buildVenvs m S call options i prev input nodes) := by
  induction nodes with
  | nil => exact fun i prev input => Within.pure _
  | cons node rest ih =>
      intro i prev input
      cases input with
      | some inputPath =>
          exact Within.bind (quiet_buildVenv options inputPath i node) fun _ =>
            Within.bind (ih _ _ _) fun _ => Within.pure _
      | none =>
          rw [buildVenvs]
          split
          · exact Within.bind (ih _ _ _) fun _ => Within.pure _
          · exact Within.bind (quiet_firstInput options _) fun inputPath =>
              Within.bind (quiet_buildVenv options inputPath i node) fun _ =>
                Within.bind (ih _ _ _) fun _ => Within.pure _

/-! ### Commands that reach their component

What a component is run with is what the worker makes of the text that it is sent. Where this is
what was meant, running the component is the assignment of its result to its own folder. -/

/-- The worker executes the command as it is meant, and with paths that do not depend on the
folder it works in. -/
structure Reaches (m : Machine C) (candidateIds : List String) (command : Command) : Prop where
  executed : ∃ id, candidateIds[command.index]? = some id ∧
    executed m.workerCwd (componentInfo id command.wd (sentKey m) command.cmd) =
      some (intended m.workerCwd id command.wd (sentKey m) command.script
        command.input.toString command.output)
  input : PosixPath.isAbs command.input.toString.toList = true
  output : PosixPath.isAbs command.output.toList = true

/-- The component finds the input that is meant for it, and writes to its own folder. -/
theorem trainComponent_eq {candidateIds : List String} {command : Command}
    (h : Reaches m candidateIds command) : ∃ info,
      trainComponent (σ := σ) m call candidateIds command = (do
        modify fun world => { world with calls := world.calls ++ [.onNewComponent info] }
        step call (some command.output)
        let world ← get
        modify fun world' => world'.writeFolder command.output
          (m.run command.key (readInput m world command.input))) := by
  obtain ⟨⟨id, hid, hexecuted⟩, hinput, houtput⟩ := h
  refine ⟨componentInfo id command.wd (sentKey m) command.cmd, ?_⟩
  unfold trainComponent
  rw [hid]
  refine (pure_bind id _).trans ?_
  dsimp only
  rw [hexecuted]
  dsimp only [runExecution, intended]
  rw [pathJoin_of_isAbs _ hinput, pathJoin_of_isAbs _ houtput]
  simp only [readPath, if_true, scriptPath]

theorem quiet_trainComponent {candidateIds : List String} {command : Command}
    (hreach : Reaches m candidateIds command) (houtput : IsOutput command.output) :
    Within (Quiet S) (trainComponent (σ := σ) m call candidateIds command) := by
  obtain ⟨info, heq⟩ := @trainComponent_eq σ C m call _ _ hreach
  rw [heq]
  refine Within.bind (Within.modify fun _ => .of_store rfl fun _ _ => rfl) fun _ => ?_
  refine Within.bind (quiet_step_some houtput) fun _ => Within.bind Within.get fun _ => ?_
  exact Within.modify fun world => quiet_writeFolder houtput world _

/-! ### Runs that succeed -/

/-- A step that does not fail only takes time. -/
theorem step_ok {path : Option String} {world world' : World σ C}
    (h : (step call path).runFrom world = (.ok (), world')) (outputs : List String) :
    FoldersOnly outputs world world' := by
  unfold step at h
  obtain ⟨_, _, hget, h⟩ := runFrom_bind_eq_ok_iff.mp h
  obtain ⟨-, rfl⟩ := runFrom_get_eq_ok_iff.mp hget
  obtain ⟨_, _, hmodify, h⟩ := runFrom_bind_eq_ok_iff.mp h
  obtain rfl := runFrom_modify_eq_ok_iff.mp hmodify
  split at h
  · obtain ⟨-, rfl⟩ := runFrom_pure_eq_ok_iff.mp h
    exact ⟨rfl, fun _ _ => rfl⟩
  · split at h
    · obtain ⟨_, _, -, h⟩ := runFrom_bind_eq_ok_iff.mp h
      cases (Prod.mk.inj h).1
    · cases (Prod.mk.inj h).1

/-! ### Setting up the components

The loop has two phases. Up to the first node that is not skipped there is no input, and it only
moves on; from there on the input is set and every node is set up. -/

/-- How a component is set up. -/
structure Venv (m : Machine C) (options : EnvOptions) (inputPath : InputPath) (i : ℕ)
    (node node' : TreeNode) (command : Command) : Prop where
  command : ∃ library, m.library node.key = .ok library ∧
    command = commandOf m options inputPath i node.key library
  nodeKey : node'.key = node.key
  nodeOutput : node'.output = outputPath options node.key

theorem Venv.of_library {options : EnvOptions} {library : LibraryInfo} {node : TreeNode}
    (hlibrary : m.library node.key = .ok library) (inputPath : InputPath) (i : ℕ)
    (params : Params) :
    Venv m options inputPath i node
      { node with output := outputPath options node.key, params := params }
      (commandOf m options inputPath i node.key library) :=
  ⟨⟨library, hlibrary, rfl⟩, rfl, rfl⟩

section

variable {options : EnvOptions} {inputPath : InputPath} {i : ℕ} {node node' : TreeNode}
  {command : Command}

theorem Venv.index (h : Venv m options inputPath i node node' command) : command.index = i := by
  obtain ⟨_, _, rfl⟩ := h.command
  rfl

theorem Venv.key (h : Venv m options inputPath i node node' command) :
    command.key = node.key := by
  obtain ⟨_, _, rfl⟩ := h.command
  rfl

theorem Venv.input (h : Venv m options inputPath i node node' command) :
    command.input = inputPath := by
  obtain ⟨_, _, rfl⟩ := h.command
  rfl

theorem Venv.output (h : Venv m options inputPath i node node' command) :
    command.output = outputPath options node.key := by
  obtain ⟨_, _, rfl⟩ := h.command
  rfl

end

theorem buildVenv_ok {options : EnvOptions} {inputPath : InputPath} {i : ℕ}
    {node node' : TreeNode} {command : Command} {world world' : World σ C}
    (h : (buildVenv m call options inputPath i node).runFrom world =
      (.ok (node', command), world')) :
    Venv m options inputPath i node node' command ∧
      FoldersOnly [outputPath options node.key] world world' := by
  unfold buildVenv at h
  obtain ⟨_, w₁, hstep₁, h⟩ := runFrom_bind_eq_ok_iff.mp h
  obtain ⟨library, _, hread, h⟩ := runFrom_bind_eq_ok_iff.mp h
  obtain ⟨hlibrary, rfl⟩ := runFrom_ofExcept_eq_ok_iff.mp hread
  obtain ⟨_, w₂, hstep₂, h⟩ := runFrom_bind_eq_ok_iff.mp h
  obtain ⟨_, w₃, hstep₃, h⟩ := runFrom_bind_eq_ok_iff.mp h
  obtain ⟨_, _, hget, h⟩ := runFrom_bind_eq_ok_iff.mp h
  obtain ⟨-, rfl⟩ := runFrom_get_eq_ok_iff.mp hget
  have hsteps : FoldersOnly [outputPath options node.key] world w₃ :=
    ((step_ok hstep₁ _).trans (step_ok hstep₂ _)).trans (step_ok hstep₃ _)
  dsimp only at h
  split at h
  · obtain ⟨hpair, rfl⟩ := runFrom_pure_eq_ok_iff.mp h
    obtain ⟨rfl, rfl⟩ := Prod.mk.inj hpair
    exact ⟨.of_library hlibrary _ _ _, hsteps⟩
  · obtain ⟨_, _, hmodify, h⟩ := runFrom_bind_eq_ok_iff.mp h
    obtain rfl := runFrom_modify_eq_ok_iff.mp hmodify
    obtain ⟨hpair, rfl⟩ := runFrom_pure_eq_ok_iff.mp h
    obtain ⟨rfl, rfl⟩ := Prod.mk.inj hpair
    refine ⟨.of_library hlibrary _ _ _, hsteps.trans (foldersOnly_writeFolder ?_ _ _)⟩
    rw [folderName_pathJoin options node.key]
    exact List.mem_singleton_self _

/-- The queue for some components in a row: the input of each is the output of the one before. -/
inductive Queue (m : Machine C) (options : EnvOptions) :
    ℕ → InputPath → List TreeNode → List TreeNode → List Command → Prop
  | nil (i : ℕ) (input : InputPath) : Queue m options i input [] [] []
  | cons {i : ℕ} {input : InputPath} {node node' : TreeNode} {command : Command}
      {nodes nodes' : List TreeNode} {commands : List Command} :
      Venv m options input i node node' command →
      Queue m options (i + 1) (.folder command.output) nodes nodes' commands →
      Queue m options i input (node :: nodes) (node' :: nodes') (command :: commands)

def outputsOf (options : EnvOptions) (nodes : List TreeNode) : List String :=
  nodes.map fun node => outputPath options node.key

theorem buildVenvs_some_ok {options : EnvOptions} {nodes nodes' : List TreeNode}
    {commands : List Command} {world world' : World σ C} {i : ℕ} {prev : Option TreeNode}
    {input : InputPath}
    (h : (buildVenvs m S call options i prev (some input) nodes).runFrom world =
      (.ok (nodes', commands), world')) :
    Queue m options i input nodes nodes' commands ∧
      FoldersOnly (outputsOf options nodes) world world' := by
  induction nodes generalizing i prev input nodes' commands world with
  | nil =>
      obtain ⟨hpair, rfl⟩ := runFrom_pure_eq_ok_iff.mp h
      obtain ⟨rfl, rfl⟩ := Prod.mk.inj hpair
      exact ⟨.nil i input, .refl _ _⟩
  | cons node rest ih =>
      obtain ⟨⟨node', command⟩, w₁, hvenv, h⟩ := runFrom_bind_eq_ok_iff.mp h
      obtain ⟨⟨rest', commands'⟩, w₂, hrest, h⟩ := runFrom_bind_eq_ok_iff.mp h
      obtain ⟨hpair, rfl⟩ := runFrom_pure_eq_ok_iff.mp h
      obtain ⟨rfl, rfl⟩ := Prod.mk.inj hpair
      obtain ⟨hqueue, hrestFolders⟩ := ih hrest
      obtain ⟨hnode, hfolders⟩ := buildVenv_ok hvenv
      exact ⟨.cons hnode hqueue, (hfolders.mono (by simp [outputsOf])).trans
        (hrestFolders.mono (by simp [outputsOf]))⟩

/-- The nodes that are skipped only move the loop on. -/
theorem buildVenvs_append_of_skips {options : EnvOptions} {skipped rest : List TreeNode}
    (hskipped : ∀ n ∈ skipped, skips m n = true) (i : ℕ) (prev : Option TreeNode)
    (world : World σ C) :
    (buildVenvs m S call options i prev none (skipped ++ rest)).runFrom world =
      (do let built ← buildVenvs m S call options (i + skipped.length)
            (skipped.getLast?.or prev) none rest
          return (skipped ++ built.1, built.2) : Commit σ C _).runFrom world := by
  induction skipped generalizing i prev with
  | nil =>
      rw [List.nil_append, List.getLast?_nil, Option.none_or, List.length_nil, Nat.add_zero,
        runFrom_bind]
      rcases (buildVenvs m S call options i prev none rest).runFrom world with ⟨_ | _, w⟩ <;> rfl
  | cons first skipped ih =>
      have hindex : i + (first :: skipped).length = i + 1 + skipped.length := by
        rw [List.length_cons]
        omega
      have hprev : (first :: skipped).getLast?.or prev = skipped.getLast?.or (some first) := by
        rw [List.getLast?_cons]
        cases skipped.getLast? <;> rfl
      rw [List.cons_append, buildVenvs, if_pos (hskipped first (by simp)), runFrom_bind,
        ih (fun n hn => hskipped n (by simp [hn])), runFrom_bind, runFrom_bind, hindex, hprev]
      rcases (buildVenvs m S call options (i + 1 + skipped.length)
        (skipped.getLast?.or (some first)) none rest).runFrom world with ⟨_ | _, w⟩ <;> rfl

theorem skips_of_dropWhile {nodes rest : List TreeNode} {node : TreeNode}
    (h : nodes.dropWhile (skips m) = node :: rest) : skips m node = false := by
  have hhead := List.head?_dropWhile_not (skips m) nodes
  rw [h] at hhead
  exact hhead

/-- The loop leaves out a first part of the components, and finds the input of the next one at the
last of them. -/
theorem buildVenvs_none_ok {options : EnvOptions} {nodes nodes' : List TreeNode}
    {commands : List Command} {world world' : World σ C} {i : ℕ} {prev : Option TreeNode}
    (h : (buildVenvs m S call options i prev none nodes).runFrom world =
      (.ok (nodes', commands), world')) (hne : commands ≠ []) :
    ∃ skipped node rest executed input w₁, nodes = skipped ++ node :: rest ∧
      (∀ n ∈ skipped, skips m n = true) ∧ skips m node = false ∧ nodes' = skipped ++ executed ∧
      (firstInput m S call options ((skipped.getLast?.or prev).getD node)).runFrom world =
        (.ok input, w₁) ∧
      Queue m options (i + skipped.length) input (node :: rest) executed commands ∧
      FoldersOnly (outputsOf options (node :: rest)) w₁ world' := by
  have hskipped : ∀ n ∈ nodes.takeWhile (skips m), skips m n = true :=
    fun _ => List.mem_takeWhile_imp
  have hsplit := List.takeWhile_append_dropWhile (p := skips m) (l := nodes)
  rw [← hsplit, buildVenvs_append_of_skips hskipped] at h
  obtain ⟨⟨executed, commands'⟩, _, hbuild, h⟩ := runFrom_bind_eq_ok_iff.mp h
  obtain ⟨hpair, rfl⟩ := runFrom_pure_eq_ok_iff.mp h
  obtain ⟨rfl, rfl⟩ := Prod.mk.inj hpair
  cases hrest : nodes.dropWhile (skips m) with
  | nil =>
      rw [hrest] at hbuild
      obtain ⟨hpair, -⟩ := runFrom_pure_eq_ok_iff.mp hbuild
      exact absurd (Prod.mk.inj hpair).2.symm hne
  | cons node rest =>
      have hnode := skips_of_dropWhile hrest
      rw [hrest, buildVenvs, if_neg (by simp [hnode])] at hbuild
      obtain ⟨input, w₁, hinput, hbuild⟩ := runFrom_bind_eq_ok_iff.mp hbuild
      obtain ⟨⟨node', command⟩, w₂, hvenv, hbuild⟩ := runFrom_bind_eq_ok_iff.mp hbuild
      obtain ⟨⟨rest', commands'⟩, w₃, hqueue, hbuild⟩ := runFrom_bind_eq_ok_iff.mp hbuild
      obtain ⟨hpair, rfl⟩ := runFrom_pure_eq_ok_iff.mp hbuild
      obtain ⟨rfl, rfl⟩ := Prod.mk.inj hpair
      obtain ⟨hqueue, hrestFolders⟩ := buildVenvs_some_ok hqueue
      obtain ⟨hvenv, hfolders⟩ := buildVenv_ok hvenv
      refine ⟨nodes.takeWhile (skips m), node, rest, node' :: rest', input, w₁, ?_, hskipped, hnode,
        rfl, hinput, .cons hvenv hqueue, ?_⟩
      · rw [← hrest, hsplit]
      · exact (hfolders.mono (by simp [outputsOf])).trans
          (hrestFolders.mono (by simp [outputsOf]))

/-! ### The condition on the commands of a call

The condition speaks of the pipeline and of the paths of the call, not of the nodes of a tree.
It is asked of every library behind what stands before it, whether it is executed or not, and the
queue of any training meets it. -/

/-- The input path for a library, from the component before it. -/
def inputFrom (m : Machine C) (options : EnvOptions) (prev : MetaKey) : Option InputPath :=
  if prev.componentType = MetaKey.genericDatasetKey then
    (m.dataset prev).toOption.map fun info => .dataset prev (datasetPaths options prev info)
  else some (.folder (outputPath options prev))

/-- Every library of the pipeline gets its command whole, whatever it is set up for: its parts do
not disturb each other, and the two paths are absolute. -/
def CommandsReach (m : Machine C) (call : CommitCall C) : Prop :=
  let options := envOptions call.workspace.paths
  ∀ i prev key input library, call.workspace.pipeline[i]? = some prev →
    call.workspace.pipeline[i + 1]? = some key → inputFrom m options prev = some input →
    m.library key = .ok library →
      PosixPath.isAbs input.toString.toList = true ∧
      PosixPath.isAbs (outputPath options key).toList = true ∧
      Survives m.workerCwd (call.candidateIds (i + 1))
        (pathJoin options.venvDir key.toStringWithVersion) (sentKey m) library.trainScript
        (completeParams library.trainParams input.toString (outputPath options key) m.tempPath)
        input.toString (outputPath options key)

/-- The queue behind a component that is found where the condition looks for it. -/
theorem Queue.reaches {i : ℕ} {input : InputPath} {nodes executed : List TreeNode}
    {commands : List Command}
    (h : Queue m (envOptions call.workspace.paths) i input nodes executed commands)
    (hreach : CommandsReach m call) {path : List MetaKey} {prev : MetaKey}
    (hpipeline : call.workspace.pipeline = path ++ prev :: nodes.map (·.key))
    (hi : i = path.length + 1)
    (hinput : inputFrom m (envOptions call.workspace.paths) prev = some input)
    (hlibraries : ∀ node ∈ nodes, node.key.componentType = MetaKey.genericLibraryKey) :
    ∀ command ∈ commands, Reaches m (candidateIdsOf call) command := by
  induction h generalizing path prev with
  | nil => simp
  | @cons i input node node' command nodes executed commands hvenv _ ih =>
      obtain ⟨library, hlibrary, rfl⟩ := hvenv.command
      have hnext : call.workspace.pipeline =
          (path ++ [prev]) ++ node.key :: nodes.map (·.key) := by
        rw [hpipeline, List.map_cons, List.append_assoc, List.singleton_append]
      refine List.forall_mem_cons.mpr ⟨?_, ih hnext ?_ ?_
        fun n hn => hlibraries n (List.mem_cons_of_mem _ hn)⟩
      · subst hi
        have hprev : call.workspace.pipeline[path.length]? = some prev := by simp [hpipeline]
        have hkey : call.workspace.pipeline[path.length + 1]? = some node.key := by
          simp [hpipeline]
        obtain ⟨hinputAbs, houtputAbs, hsurvives⟩ :=
          hreach path.length prev node.key input library hprev hkey hinput hlibrary
        refine ⟨⟨call.candidateIds (path.length + 1), ?_, ?_⟩, hinputAbs, houtputAbs⟩
        · have hlt := (List.getElem?_eq_some_iff.mp hkey).1
          show (candidateIdsOf call)[path.length + 1]? = _
          simp [candidateIdsOf, List.getElem?_range hlt]
        · refine executed_eq_some_iff.mpr ((delivered_iff_survives ?_ ?_).mpr hsurvives)
          · exact input_mem_completeParams ..
          · exact output_mem_completeParams ..
      · rw [hi, List.length_append, List.length_singleton]
      · have htype : node.key.componentType ≠ MetaKey.genericDatasetKey := by
          rw [hlibraries node List.mem_cons_self]
          decide
        rw [inputFrom, if_neg htype]
        rfl

end TrialManager

end SecCask.Pipeman
