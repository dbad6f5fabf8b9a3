import SecCask.Lib.Run
import SecCask.Pipeman.TrialRuns

/-!
# SecCask.Pipeman.Training

What `_train_node_list` leaves behind, for a list of nodes of which a first part counts as
trained. That part is skipped: its last node stands for the content from which the first
executed component goes on, either because it is the dataset or because its recorded output is
extracted to the folder that it would have written to. From there on the folders are filled one
after the other, each from the one before it, and no folder is written to twice. So every folder
that is written holds what a run of the components up to it leaves (`train_ok`), and every node
says where the output of its component is (`trainedNode_of_executed`).
-/

namespace SecCask.Pipeman.TrialManager

open Effect

variable {σ C : Type} {m : Machine C} {S : PhysicalStore σ (StoredFile C)} {call : CommitCall C}

/-! ### Running from scratch -/

/-- What the last component of a pipeline leaves when all of it is run from the dataset. -/
def fromScratch (m : Machine C) : List MetaKey → Option C
  | [] => none
  | dataset :: libraries =>
      (m.dataset dataset).toOption.map fun info =>
        libraries.foldl (fun content key => m.run key (some content)) (info.input m)

theorem fromScratch_snoc {path : List MetaKey} {content : C}
    (h : fromScratch m path = some content) (key : MetaKey) :
    fromScratch m (path ++ [key]) = some (m.run key (some content)) := by
  cases path with
  | nil => cases h
  | cons dataset libraries =>
      obtain ⟨info, hinfo, rfl⟩ := Option.map_eq_some_iff.mp h
      rw [List.cons_append, fromScratch, hinfo, Option.map_some, List.foldl_append]
      rfl

/-- The hversion stands for what a component leaves behind the components of a path. -/
def Resolves (m : Machine C) (S : PhysicalStore σ (StoredFile C)) (store : σ) (wsKey : MetaKey)
    (path : List MetaKey) (key : MetaKey) (hversion : String) : Prop :=
  ∃ content, Storage.runtimeGet S "output" store wsKey key hversion = .ok (.archive content) ∧
    fromScratch m (path ++ [key]) = some content

/-- Every output that the workspace records is what a run from scratch leaves. -/
def EqualsFromScratch (m : Machine C) (S : PhysicalStore σ (StoredFile C)) (store : σ)
    (w : WorkspaceMeta) : Prop :=
  ∀ path key rest, w.pipeline = path ++ key :: rest →
    key.componentType = MetaKey.genericLibraryKey →
      ∃ hversion, w.outputOf key.toStringWithVersion = .ok hversion ∧
        Resolves m S store w.key path key hversion

/-! ### The input of the first component -/

theorem readInput_foldersOnly {world world' : World σ C} (h : FoldersOnly [] world world')
    (input : InputPath) : readInput m world' input = readInput m world input := by
  cases input with
  | unset => rfl
  | folder path => exact h.folders path (by simp)
  | dataset key paths => rfl

theorem extractArchiveTo_ok {file : StoredFile C} {path : String} {world world' : World σ C}
    (h : (extractArchiveTo call file path).runFrom world = (.ok (), world')) :
    ∃ content, file = .archive content ∧ world'.folder path = some content ∧
      FoldersOnly [folderName path] world world' := by
  obtain ⟨_, w₁, hstep, h⟩ := runFrom_bind_eq_ok_iff.mp h
  split at h
  · rename_i content _
    obtain ⟨-, rfl⟩ := Prod.mk.inj h
    refine ⟨content, rfl, folder_writeFolder _ _ _, (step_ok hstep _).trans ?_⟩
    exact foldersOnly_writeFolder (List.mem_singleton_self _) _ _
  · cases (Prod.mk.inj h).1

theorem firstInput_dataset {options : EnvOptions} {prev : TreeNode} {input : InputPath}
    {world world' : World σ C} (hprev : prev.key.componentType = MetaKey.genericDatasetKey)
    (h : (firstInput m S call options prev).runFrom world = (.ok input, world')) :
    inputFrom m options prev.key = some input ∧
      ∃ content, fromScratch m [prev.key] = some content ∧
        (∀ world : World σ C, readInput m world input = some content) ∧
          FoldersOnly [] world world' := by
  unfold firstInput at h
  rw [if_pos hprev] at h
  obtain ⟨_, w₁, hstep, h⟩ := runFrom_bind_eq_ok_iff.mp h
  obtain ⟨info, _, hdataset, h⟩ := runFrom_bind_eq_ok_iff.mp h
  obtain ⟨hinfo, rfl⟩ := runFrom_ofExcept_eq_ok_iff.mp hdataset
  obtain ⟨rfl, rfl⟩ := runFrom_pure_eq_ok_iff.mp h
  refine ⟨?_, info.input m, ?_, fun world => ?_, step_ok hstep _⟩
  · rw [inputFrom, if_pos hprev, hinfo]
    rfl
  · rw [fromScratch, hinfo]
    rfl
  · rw [readInput, hinfo]
    rfl

/-- What was trained earlier is extracted to where it would have been written. -/
theorem firstInput_library {options : EnvOptions} {prev : TreeNode} {input : InputPath}
    {world world' : World σ C} {wsKey : MetaKey} {path : List MetaKey}
    (hprev : prev.key.componentType = MetaKey.genericLibraryKey) (hkey : prev.wsKey = some wsKey)
    (hpath : world.pathExists m prev.output = false)
    (hresolves : Resolves m S world.store wsKey path prev.key prev.output)
    (h : (firstInput m S call options prev).runFrom world = (.ok input, world')) :
    input = .folder (outputPath options prev.key) ∧
      (∃ content, world'.folder (outputPath options prev.key) = some content ∧
        fromScratch m (path ++ [prev.key]) = some content) ∧
      FoldersOnly [outputPath options prev.key] world world' := by
  unfold firstInput at h
  have hne : ¬prev.key.componentType = MetaKey.genericDatasetKey := by
    rw [hprev]
    decide
  rw [if_neg hne, if_pos hprev] at h
  obtain ⟨_, _, hget, h⟩ := runFrom_bind_eq_ok_iff.mp h
  obtain ⟨rfl, rfl⟩ := runFrom_get_eq_ok_iff.mp hget
  rw [if_neg (by simp [hpath])] at h
  obtain ⟨_, w₁, hstep, h⟩ := runFrom_bind_eq_ok_iff.mp h
  simp only [hkey] at h
  obtain ⟨_, _, hget, h⟩ := runFrom_bind_eq_ok_iff.mp h
  obtain ⟨rfl, rfl⟩ := runFrom_get_eq_ok_iff.mp hget
  obtain ⟨file, _, hget, h⟩ := runFrom_bind_eq_ok_iff.mp h
  obtain ⟨hfile, rfl⟩ := runFrom_ofExcept_eq_ok_iff.mp hget
  obtain ⟨_, w₂, hextract, h⟩ := runFrom_bind_eq_ok_iff.mp h
  obtain ⟨rfl, rfl⟩ := runFrom_pure_eq_ok_iff.mp h
  have hwait := step_ok hstep [outputPath options prev.key]
  obtain ⟨content, hcontent, hscratch⟩ := hresolves
  obtain ⟨content', rfl, hfolder, hfolders⟩ := extractArchiveTo_ok hextract
  rw [hwait.store, hcontent] at hfile
  obtain rfl : content = content' := by simpa using hfile
  refine ⟨rfl, ⟨content, hfolder, hscratch⟩, hwait.trans (hfolders.mono ?_)⟩
  show [folderName (outputPath options prev.key)] ⊆ _
  rw [folderName_outputPath]
  exact List.Subset.refl _

/-! ### Training -/

/-- The folders of the components hold what they leave when run in a row behind a path. -/
def Written (m : Machine C) (options : EnvOptions) (world : World σ C) (path : List MetaKey)
    (nodes : List TreeNode) : Prop :=
  ∀ before node after, nodes = before ++ node :: after →
    ∃ content, world.folder (outputPath options node.key) = some content ∧
      fromScratch m (path ++ before.map (·.key) ++ [node.key]) = some content

theorem trainComponent_ok {candidateIds : List String} {command : Command}
    (hreach : Reaches m candidateIds command) {world world' : World σ C}
    (h : (trainComponent m call candidateIds command).runFrom world = (.ok (), world')) :
    world'.folder command.output =
        some (m.run command.key (readInput m world command.input)) ∧
      FoldersOnly [folderName command.output] world world' := by
  obtain ⟨info, heq⟩ := @trainComponent_eq σ C m call _ _ hreach
  rw [heq] at h
  obtain ⟨_, w₁, hmodify, h⟩ := runFrom_bind_eq_ok_iff.mp h
  obtain rfl := runFrom_modify_eq_ok_iff.mp hmodify
  obtain ⟨_, w₂, hstep, h⟩ := runFrom_bind_eq_ok_iff.mp h
  obtain ⟨_, _, hget, h⟩ := runFrom_bind_eq_ok_iff.mp h
  obtain ⟨rfl, rfl⟩ := runFrom_get_eq_ok_iff.mp hget
  obtain rfl := runFrom_modify_eq_ok_iff.mp h
  have hcalls : ∀ outputs, FoldersOnly outputs world w₂ := by
    intro outputs
    refine FoldersOnly.trans ?_ (step_ok hstep outputs)
    exact ⟨rfl, fun _ _ => rfl⟩
  refine ⟨?_, (hcalls _).trans (foldersOnly_writeFolder (List.mem_singleton_self _) _ _)⟩
  rw [folder_writeFolder, readInput_foldersOnly (hcalls [])]

/-- Every component of the queue finds what the one before it has left. -/
theorem train_ok {options : EnvOptions} {candidateIds : List String} {i : ℕ} {input : InputPath}
    {nodes executed : List TreeNode} {commands : List Command}
    (hqueue : Queue m options i input nodes executed commands)
    (hreach : ∀ command ∈ commands, Reaches m candidateIds command) {path : List MetaKey}
    {content : C} (hpath : fromScratch m path = some content)
    (hnodup : (outputsOf options nodes).Nodup)
    {world world' : World σ C} (hinput : readInput m world input = some content)
    (h : (commands.forM (trainComponent m call candidateIds)).runFrom world = (.ok (), world')) :
    Written m options world' path nodes ∧ FoldersOnly (outputsOf options nodes) world world' := by
  induction hqueue generalizing path content world with
  | nil =>
      obtain ⟨-, rfl⟩ := runFrom_pure_eq_ok_iff.mp h
      refine ⟨?_, .refl _ _⟩
      intro before node after hsplit
      simp at hsplit
  | @cons i input node node' command nodes executed commands hvenv _ ih =>
      obtain ⟨_, w₁, htrain, h⟩ := runFrom_bind_eq_ok_iff.mp h
      obtain ⟨hfirst, hreach⟩ := List.forall_mem_cons.mp hreach
      obtain ⟨hwritten, hfolders⟩ := trainComponent_ok hfirst htrain
      rw [hvenv.input, hinput, hvenv.key] at hwritten
      have hnext := fromScratch_snoc hpath node.key
      rw [outputsOf, List.map_cons, List.nodup_cons] at hnodup
      obtain ⟨hrest, hrestFolders⟩ := ih hreach hnext hnodup.2 hwritten h
      refine ⟨?_, FoldersOnly.trans (hfolders.mono ?_) (hrestFolders.mono ?_)⟩
      · intro before last after hsplit
        obtain ⟨rfl, hcons⟩ | ⟨before', rfl, hrestSplit⟩ := List.cons_eq_append_iff.mp hsplit
        · -- The folder of the first component is not written to again.
          obtain ⟨rfl, rfl⟩ := List.cons.inj hcons
          refine ⟨_, ?_, by simpa using hnext⟩
          rw [hrestFolders.folders _ (by rw [folderName_outputPath]; exact hnodup.1),
            ← hvenv.output]
          exact hwritten
        · obtain ⟨last', hlast, hscratch⟩ := hrest before' last after hrestSplit
          exact ⟨last', hlast, by simpa using hscratch⟩
      · rw [hvenv.output, folderName_outputPath]
        simp [outputsOf]
      · simp [outputsOf]

/-! ### A whole list of nodes -/

/-- A name that the store gives to a version. -/
def VersionName (S : PhysicalStore σ (StoredFile C)) (name : String) : Prop :=
  ∃ s strKey strBranch value, (S.put s strKey strBranch value).2 = name

theorem pathExists_keeps {kept : String → Prop} {world world' : World σ C}
    (h : Keeps S kept world world') {path : String} (hpath : kept path) :
    world'.pathExists m path = world.pathExists m path := by
  rw [World.pathExists, World.pathExists, h.folders path hpath]

/-- No version is named like the folder of a component or like a path that is there. -/
structure NamesNoPath (m : Machine C) (S : PhysicalStore σ (StoredFile C)) (world : World σ C) :
    Prop where
  output : ∀ name, VersionName S name → ¬IsOutput name
  path : ∀ name, VersionName S name → world.pathExists m name = false

theorem NamesNoPath.quiet {world world' : World σ C} (hnames : NamesNoPath m S world)
    (h : Quiet S world world') : NamesNoPath m S world' where
  output := hnames.output
  path name hname := (pathExists_keeps h (hnames.output name hname)).trans (hnames.path name hname)

/-- The first node is a dataset, the others are libraries, and all their keys are different. -/
structure Shape (nodes : List TreeNode) : Prop where
  head : ∃ dataset libraries, nodes = dataset :: libraries ∧
    dataset.key.componentType = MetaKey.genericDatasetKey ∧ dataset.trained = true ∧
    ∀ node ∈ libraries, node.key.componentType = MetaKey.genericLibraryKey
  nodup : (nodes.map fun node => node.key.toStringWithVersion).Nodup

/-- The libraries that count as trained have recorded outputs of the workspace, and these
equal runs from scratch. -/
def Known (m : Machine C) (S : PhysicalStore σ (StoredFile C)) (store : σ) (wsKey : MetaKey)
    (nodes : List TreeNode) : Prop :=
  ∀ before node after, nodes = before ++ node :: after → node.trained = true →
    node.key.componentType = MetaKey.genericLibraryKey →
      (∃ key, node.wsKey = some key ∧
        key.toStringWithoutVersion = wsKey.toStringWithoutVersion) ∧
      VersionName S node.output ∧
      Resolves m S store wsKey (before.map (·.key)) node.key node.output

/-- What a call trains: nodes for its own pipeline, of which the trained ones are known, with
commands that reach their components. -/
structure Ready (m : Machine C) (S : PhysicalStore σ (StoredFile C)) (call : CommitCall C)
    (options : EnvOptions) (world : World σ C) (nodes : List TreeNode) : Prop where
  options : options = envOptions call.workspace.paths
  shape : Shape nodes
  known : Known m S world.store call.workspace.key nodes
  keys : nodes.map (·.key) = call.workspace.pipeline
  names : NamesNoPath m S world
  reach : CommandsReach m call

theorem append_toStringWithoutVersion (s : String) (key : MetaKey) :
    s ++ key.componentType ++ "::" ++ key.componentName = s ++ key.toStringWithoutVersion := by
  rw [MetaKey.toStringWithoutVersion, String.append_assoc, String.append_assoc,
    String.append_assoc]

theorem formKey_congr {key key' : MetaKey}
    (h : key.toStringWithoutVersion = key'.toStringWithoutVersion) (name : String)
    (cpnKey : MetaKey) : Storage.formKey name key cpnKey = Storage.formKey name key' cpnKey := by
  unfold Storage.formKey
  rw [append_toStringWithoutVersion (name ++ "::") key,
    append_toStringWithoutVersion (name ++ "::") key', h]

theorem Resolves.congr {store : σ} {wsKey wsKey' key : MetaKey} {path : List MetaKey}
    {hversion : String} (h : Resolves m S store wsKey path key hversion)
    (hkey : wsKey.toStringWithoutVersion = wsKey'.toStringWithoutVersion) :
    Resolves m S store wsKey' path key hversion := by
  obtain ⟨content, hcontent, hscratch⟩ := h
  refine ⟨content, ?_, hscratch⟩
  rw [Storage.runtimeGet, ← formKey_congr hkey]
  exact hcontent

theorem Resolves.mono {wsKey key : MetaKey} {path : List MetaKey} {hversion : String}
    {store store' : σ} (hversions : ∀ strKey hversion content,
      Storage.fileVersion S store strKey hversion = .ok content →
        Storage.fileVersion S store' strKey hversion = .ok content)
    (h : Resolves m S store wsKey path key hversion) :
    Resolves m S store' wsKey path key hversion := by
  obtain ⟨content, hcontent, hscratch⟩ := h
  exact ⟨content, hversions _ _ _ hcontent, hscratch⟩

/-- All nodes behind another one are libraries. -/
theorem Shape.libraries_of_append {nodes before rest : List TreeNode} {prev : TreeNode}
    (h : Shape nodes) (hsplit : nodes = before ++ prev :: rest) :
    ∀ node ∈ rest, node.key.componentType = MetaKey.genericLibraryKey := by
  obtain ⟨dataset, libraries, rfl, -, -, hlibraries⟩ := h.head
  intro node hnode
  refine hlibraries node ?_
  cases before with
  | nil =>
      obtain ⟨-, rfl⟩ := List.cons.inj hsplit
      exact hnode
  | cons first before =>
      obtain ⟨-, rfl⟩ := List.cons.inj hsplit
      simp [hnode]

theorem Shape.nodup_outputsOf {options : EnvOptions} {nodes : List TreeNode} (h : Shape nodes) :
    (outputsOf options nodes.tail).Nodup := by
  obtain ⟨⟨dataset, libraries, rfl, -, -, hlibraries⟩, hnodup⟩ := h
  rw [List.map_cons, List.nodup_cons] at hnodup
  rw [List.tail_cons, outputsOf]
  refine List.Nodup.map_on ?_ hnodup.2.of_map
  intro node hnode node' hnode' heq
  exact List.inj_on_of_nodup_map hnodup.2 hnode hnode'
    (outputPath_inj (hlibraries node hnode) (hlibraries node' hnode') heq)

/-- Between the skipped components and the first one that is executed. -/
theorem firstInput_ok {options : EnvOptions} {skipped rest : List TreeNode} {prev : TreeNode}
    {input : InputPath} {wsKey : MetaKey} {world w₁ w₂ : World σ C}
    (hshape : Shape (skipped ++ prev :: rest))
    (htrained : prev.trained = true)
    (hknown : Known m S world.store wsKey (skipped ++ prev :: rest))
    (hpaths : ∀ name, VersionName S name → world.pathExists m name = false)
    (h : (firstInput m S call options prev).runFrom world = (.ok input, w₁))
    (hbuild : FoldersOnly (outputsOf options rest) w₁ w₂) :
    inputFrom m options prev.key = some input ∧
      ∃ content, fromScratch m (skipped.map (·.key) ++ [prev.key]) = some content ∧
        readInput m w₂ input = some content ∧ w₂.store = world.store := by
  obtain ⟨dataset, libraries, hsplit, hdataset, -, hlibraries⟩ := hshape.head
  cases skipped with
  | nil =>
      obtain ⟨rfl, rfl⟩ := List.cons.inj hsplit
      obtain ⟨hfrom, content, hscratch, hread, hfolders⟩ := firstInput_dataset hdataset h
      exact ⟨hfrom, content, hscratch, hread w₂, hbuild.store.trans hfolders.store⟩
  | cons first skipped =>
      obtain ⟨rfl, rfl⟩ := List.cons.inj hsplit
      have hprev := hlibraries prev (by simp)
      obtain ⟨⟨key, hkey, hname⟩, hversion, hresolves⟩ := hknown _ prev rest rfl htrained hprev
      obtain ⟨rfl, ⟨content, hfolder, hscratch⟩, hfolders⟩ := firstInput_library hprev hkey
        (hpaths _ hversion) (hresolves.congr hname.symm) h
      have htype : prev.key.componentType ≠ MetaKey.genericDatasetKey := by
        rw [hprev]
        decide
      refine ⟨if_neg htype, content, hscratch, ?_, hbuild.store.trans hfolders.store⟩
      -- Setting up the executed components leaves the folder of the skipped one alone.
      refine (hbuild.folders _ ?_).trans hfolder
      rw [folderName_outputPath]
      have hnodup : (outputsOf options _).Nodup := hshape.nodup_outputsOf
      rw [List.cons_append, List.tail_cons, outputsOf, List.map_append, List.map_cons] at hnodup
      exact (List.nodup_cons.mp (List.nodup_append.mp hnodup).2.1).1

/-- The nodes of the components that have been executed, and the folders they have left. -/
structure Executed (m : Machine C) (options : EnvOptions) (world : World σ C)
    (path : List MetaKey) (nodes executed : List TreeNode) : Prop where
  ran : List.Forall₂ (fun node node' => node'.key = node.key ∧
    node'.output = outputPath options node.key) nodes executed
  written : Written m options world path nodes

theorem Queue.forall₂ {options : EnvOptions} {i : ℕ} {input : InputPath}
    {nodes executed : List TreeNode} {commands : List Command}
    (h : Queue m options i input nodes executed commands) :
    List.Forall₂ (fun node node' => node'.key = node.key ∧
      node'.output = outputPath options node.key) nodes executed := by
  induction h with
  | nil => exact .nil
  | cons hvenv _ ih => exact .cons ⟨hvenv.nodeKey, hvenv.nodeOutput⟩ ih

theorem Shape.skips_head {nodes : List TreeNode} (h : Shape nodes) :
    ∃ dataset libraries, nodes = dataset :: libraries ∧ skips m dataset = true := by
  obtain ⟨dataset, libraries, hsplit, htype, htrained, -⟩ := h.head
  exact ⟨dataset, libraries, hsplit, by simp [skips, htrained, htype]⟩

theorem Queue.isOutput {options : EnvOptions} {i : ℕ} {input : InputPath}
    {nodes executed : List TreeNode} {commands : List Command}
    (h : Queue m options i input nodes executed commands) :
    ∀ command ∈ commands, IsOutput command.output := by
  induction h with
  | nil => simp
  | cons hvenv _ ih =>
      refine List.forall_mem_cons.mpr ⟨?_, ih⟩
      rw [hvenv.output]
      exact isOutput_outputPath _ _

/-- The queue of a list of nodes: it begins behind a dataset or a trained library, its first
component will find what that one leaves, and its commands reach their components. -/
theorem buildVenvs_ok {options : EnvOptions} {nodes built : List TreeNode}
    {commands : List Command} {world w₁ : World σ C} (hready : Ready m S call options world nodes)
    (h : (buildVenvs m S call options 0 none none nodes).runFrom world =
      (.ok (built, commands), w₁)) (hne : commands ≠ []) :
    ∃ skipped rest executed input content, nodes = skipped ++ rest ∧ skipped ≠ [] ∧
      built = skipped ++ executed ∧ (∀ node ∈ skipped, node.trained = true) ∧
      Queue m options skipped.length input rest executed commands ∧
      (∀ command ∈ commands, Reaches m (candidateIdsOf call) command) ∧
      fromScratch m (skipped.map (·.key)) = some content ∧
      readInput m w₁ input = some content ∧ (outputsOf options rest).Nodup ∧
      w₁.store = world.store := by
  obtain ⟨skipped, node, rest, executed, input, w₀, rfl, hskipped, hnode, rfl, hinput,
    hqueue, hfolders⟩ := buildVenvs_none_ok h hne
  have htrained : ∀ node ∈ skipped, node.trained = true := by
    intro node hnode
    have hskips := hskipped node hnode
    rw [skips, Bool.and_eq_true] at hskips
    exact hskips.1
  obtain ⟨hoptions, hshape, hknown, hkeys, hnames, hreach⟩ := hready
  -- The dataset is never the first to be executed.
  obtain ⟨before, prev, rfl⟩ : ∃ before prev, skipped = before ++ [prev] := by
    rcases List.eq_nil_or_concat skipped with rfl | ⟨before, prev, hsplit⟩
    · obtain ⟨dataset, libraries, hsplit, hskips⟩ := hshape.skips_head (m := m)
      obtain ⟨rfl, -⟩ := List.cons.inj hsplit
      rw [hskips] at hnode
      cases hnode
    · exact ⟨before, prev, by simpa using hsplit⟩
  rw [List.append_assoc, List.singleton_append] at hshape hknown hkeys
  have hprev : (((before ++ [prev]).getLast?.or none).getD node) = prev := by simp
  rw [hprev] at hinput
  obtain ⟨hfrom, content, hscratch, hread, hstore⟩ := firstInput_ok hshape
    (htrained prev (by simp)) hknown hnames.path hinput hfolders
  have hnodup : (outputsOf options (node :: rest)).Nodup := by
    have hall : (outputsOf options _).Nodup := hshape.nodup_outputsOf
    cases before with
    | nil => exact hall
    | cons first before =>
        rw [List.cons_append, List.tail_cons, outputsOf, List.map_append, List.map_cons] at hall
        exact (List.nodup_cons.mp (List.nodup_append.mp hall).2.1).2
  rw [Nat.zero_add] at hqueue
  have hcommands : ∀ command ∈ commands, Reaches m (candidateIdsOf call) command := by
    subst hoptions
    rw [List.map_append, List.map_cons] at hkeys
    exact hqueue.reaches hreach hkeys.symm (by simp) hfrom (hshape.libraries_of_append rfl)
  exact ⟨_, _, executed, input, content, rfl, by simp, rfl, htrained, hqueue, hcommands,
    by simpa using hscratch, hread, hnodup, hstore⟩

/-- Whatever happens, only the folders of components are written to. -/
theorem quiet_trainNodeList {options : EnvOptions} {nodes : List TreeNode} {world : World σ C}
    (hready : Ready m S call options world nodes) :
    WithinFrom (Quiet S) (trainNodeList m S call options (candidateIdsOf call) nodes) world := by
  refine WithinFrom.bind (quiet_buildVenvs options nodes 0 none none world) ?_
  intro built world' hbuild
  obtain ⟨built, commands⟩ := built
  have hcommands : ∀ command ∈ commands,
      Reaches m (candidateIdsOf call) command ∧ IsOutput command.output := by
    by_cases hne : commands = []
    · simp [hne]
    · obtain ⟨_, _, _, _, _, -, -, -, -, hqueue, hreaches, -⟩ := buildVenvs_ok hready hbuild hne
      exact fun command hcommand => ⟨hreaches command hcommand, hqueue.isOutput command hcommand⟩
  refine Within.bind (Within.forM fun command hcommand => quiet_trainComponent
    (hcommands command hcommand).1 (hcommands command hcommand).2) (fun _ => ?_) world'
  split
  · exact Within.throw _
  · refine Within.bind keeps_step_none fun _ => Within.bind Within.get fun _ => ?_
    split
    · exact Within.pure _
    · exact Within.throw _

/-- A first part of the nodes is skipped, and all others are executed. -/
theorem trainNodeList_ok {options : EnvOptions} {nodes nodes' : List TreeNode}
    {world world' : World σ C} (hready : Ready m S call options world nodes)
    (h : (trainNodeList m S call options (candidateIdsOf call) nodes).runFrom world =
      (.ok nodes', world')) :
    ∃ skipped rest executed, nodes = skipped ++ rest ∧
      nodes' = (skipped ++ executed).map ({ · with trained := true }) ∧
      (∀ node ∈ skipped, node.trained = true) ∧
      Executed m options world' (skipped.map (·.key)) rest executed ∧
      world'.store = world.store := by
  unfold trainNodeList at h
  obtain ⟨⟨built, commands⟩, w₁, hbuild, h⟩ := runFrom_bind_eq_ok_iff.mp h
  obtain ⟨_, w₂, htrain, h⟩ := runFrom_bind_eq_ok_iff.mp h
  split at h
  · cases (Prod.mk.inj h).1
  · rename_i last hlast
    obtain ⟨_, w₃, hstep, h⟩ := runFrom_bind_eq_ok_iff.mp h
    obtain ⟨_, _, hget, h⟩ := runFrom_bind_eq_ok_iff.mp h
    obtain ⟨rfl, rfl⟩ := runFrom_get_eq_ok_iff.mp hget
    split at h
    · obtain ⟨rfl, rfl⟩ := runFrom_pure_eq_ok_iff.mp h
      have hne : commands ≠ [] := by
        intro hnil
        rw [hnil] at hlast
        cases hlast
      obtain ⟨skipped, rest, executed, input, content, rfl, -, rfl, htrained, hqueue, hreaches,
        hscratch, hread, hnodup, hstore⟩ := buildVenvs_ok hready hbuild hne
      obtain ⟨hwritten, htrainFolders⟩ := train_ok hqueue hreaches hscratch hnodup hread htrain
      have hwait := step_ok hstep []
      refine ⟨_, _, executed, rfl, rfl, htrained, ⟨hqueue.forall₂, ?_⟩,
        hwait.store.trans (htrainFolders.store.trans hstore)⟩
      intro before' node' after' hsplit
      obtain ⟨content', hfolder, hscratch'⟩ := hwritten before' node' after' hsplit
      exact ⟨content', (hwait.folders _ (by simp)).trans hfolder, hscratch'⟩
    · cases (Prod.mk.inj h).1

/-! ### The nodes behind the training -/

theorem Executed.map_key {options : EnvOptions} {world : World σ C} {path : List MetaKey}
    {nodes executed : List TreeNode} (h : Executed m options world path nodes executed) :
    executed.map (·.key) = nodes.map (·.key) := by
  obtain ⟨hran, -⟩ := h
  induction hran with
  | nil => rfl
  | cons hnode _ ih => rw [List.map_cons, List.map_cons, hnode.1, ih]

theorem Executed.map_trained {options : EnvOptions} {world : World σ C} {path : List MetaKey}
    {nodes executed : List TreeNode} (h : Executed m options world path nodes executed)
    (skipped : List TreeNode) :
    ((skipped ++ executed).map ({ · with trained := true } : TreeNode → TreeNode)).map (·.key) =
      (skipped ++ nodes).map (·.key) := by
  rw [List.map_map, List.map_append, List.map_append, ← h.map_key]
  rfl

/-- The component of an executed node, and where its node says that its output is. -/
theorem Executed.split {options : EnvOptions} {world : World σ C} {path : List MetaKey}
    {nodes executed : List TreeNode} (h : Executed m options world path nodes executed)
    {before' after' : List TreeNode} {node' : TreeNode}
    (hsplit : executed = before' ++ node' :: after') :
    ∃ before node after, nodes = before ++ node :: after ∧
      before'.map (·.key) = before.map (·.key) ∧ node'.key = node.key ∧
      node'.output = outputPath options node.key := by
  obtain ⟨hran, -⟩ := h
  induction hran generalizing before' with
  | nil => simp at hsplit
  | @cons node _ nodes _ hnode _ ih =>
      obtain ⟨rfl, hcons⟩ | ⟨before', rfl, htail⟩ := List.cons_eq_append_iff.mp hsplit
      · obtain ⟨rfl, -⟩ := List.cons.inj hcons
        exact ⟨[], node, nodes, rfl, rfl, hnode⟩
      · obtain ⟨before, found, after, rfl, hbefore, hfound⟩ := ih htail
        refine ⟨node :: before, found, after, rfl, ?_, hfound⟩
        rw [List.map_cons, List.map_cons, hnode.1, hbefore]

theorem pathExists_outputPath {options : EnvOptions} {world : World σ C} {key : MetaKey}
    {content : C} (h : world.folder (outputPath options key) = some content) :
    world.pathExists m (outputPath options key) = true := by
  have hne : outputPath options key ≠ "" := by
    intro hempty
    have hcolon := colon_mem_outputPath options key
    rw [hempty] at hcolon
    simp at hcolon
  simp [World.pathExists, hne, h]

/-- An element of two lists in a row lies in the second, or in the first. -/
theorem append_eq_append_cons {α : Type} {front back before after : List α} {a : α}
    (h : front ++ back = before ++ a :: after) :
    (∃ more, before = front ++ more ∧ back = more ++ a :: after) ∨
      ∃ more, front = before ++ a :: more := by
  rcases List.append_eq_append_iff.mp h with ⟨more, hbefore, hback⟩ | ⟨more, hfront, hafter⟩
  · exact Or.inl ⟨more, hbefore, hback⟩
  · cases more with
    | nil => exact Or.inl ⟨[], by simpa using hfront.symm, by simpa using hafter.symm⟩
    | cons b more =>
        obtain ⟨rfl, -⟩ := List.cons.inj hafter
        exact Or.inr ⟨more, hfront⟩

/-- What a node says about its component after the training: its output is a path to what a run
from scratch leaves, or it is the name of a version that stands for this. -/
structure TrainedNode (m : Machine C) (S : PhysicalStore σ (StoredFile C)) (world : World σ C)
    (wsKey : MetaKey) (path : List MetaKey) (node : TreeNode) : Prop where
  executed : world.pathExists m node.output = true → ∃ content,
    world.folder node.output = some content ∧ fromScratch m (path ++ [node.key]) = some content
  skipped : world.pathExists m node.output = false →
    VersionName S node.output ∧ Resolves m S world.store wsKey path node.key node.output

theorem trainedNode_of_executed {options : EnvOptions} {skipped rest executed : List TreeNode}
    {world : World σ C} {wsKey : MetaKey} (hknown : Known m S world.store wsKey (skipped ++ rest))
    (htrained : ∀ node ∈ skipped, node.trained = true) (hnames : NamesNoPath m S world)
    (hran : Executed m options world (skipped.map (·.key)) rest executed)
    {before after : List TreeNode} {node : TreeNode}
    (hsplit : (skipped ++ executed).map ({ · with trained := true }) = before ++ node :: after)
    (hlibrary : node.key.componentType = MetaKey.genericLibraryKey) :
    TrainedNode m S world wsKey (before.map (·.key)) node := by
  obtain ⟨before, back, hlist, rfl, hback⟩ := List.map_eq_append_iff.mp hsplit
  obtain ⟨node, after, rfl, rfl, -⟩ := List.map_eq_cons_iff.mp hback
  have hbefore : (before.map ({ · with trained := true } : TreeNode → TreeNode)).map (·.key) =
      before.map (·.key) := by
    rw [List.map_map]
    rfl
  rw [hbefore]
  rcases append_eq_append_cons hlist with ⟨more, rfl, hexecuted⟩ | ⟨more, hskipped⟩
  · -- The component has been executed, and its folder is there.
    obtain ⟨restBefore, restNode, restAfter, hrest, hkeys, hkey, houtput⟩ := hran.split hexecuted
    obtain ⟨content, hfolder, hscratch⟩ := hran.written restBefore restNode restAfter hrest
    have hexists := pathExists_outputPath (m := m) hfolder
    rw [← houtput] at hfolder hexists
    refine ⟨fun _ => ⟨content, hfolder, ?_⟩, fun hmissing => ?_⟩
    · show fromScratch m ((skipped ++ more).map (·.key) ++ [node.key]) = some content
      rw [List.map_append, hkeys, hkey]
      exact hscratch
    · rw [show world.pathExists m node.output = false from hmissing] at hexists
      cases hexists
  · -- The component has been skipped, and its output was known before.
    have hnode : node ∈ skipped := by
      rw [hskipped]
      simp
    obtain ⟨-, hversion, hresolves⟩ := hknown before node (more ++ rest)
      (by rw [hskipped]; simp) (htrained node hnode) hlibrary
    refine ⟨fun hexists => ?_, fun _ => ⟨hversion, hresolves⟩⟩
    rw [show world.pathExists m node.output = false from hnames.path _ hversion] at hexists
    cases hexists

end SecCask.Pipeman.TrialManager
