import SecCask.Pipeman.SavedState

/-!
# SecCask.Pipeman.Incremental

Incremental commits equal runs from scratch. A call leaves out the components that the head
of its branch has trained behind the same components, takes their recorded outputs over, and
goes on from the last of them; what it records is what running everything would have left.

The invariant between the calls is `Sound`: every workspace that has been committed, and every
head with outputs, records hversions that stand for runs from scratch. A call starts from the
candidate of its own pipeline, in which a library is trained only behind the very components that
the head has gone (`candidate_ok`), so that what it skips is known by the invariant. What it
executes is followed through `Training` and `SavedState`. Until the config is written a call that
fails has only written to folders of components and put versions that no head leads to
(`quiet_prepareCommit`), and afterwards the one new head is the workspace that has been recorded
(`Moves`).
-/

namespace SecCask.Pipeman.TrialManager

open Effect

variable {σ C : Type} {m : Machine C} {S : PhysicalStore σ (StoredFile C)} {call : CommitCall C}

/-! ### The proposed nodes -/

/-- A call for a workspace: a dataset and different libraries, with keys that have been read
from a config. -/
structure WellFormedCall (wsName : String) (call : CommitCall C) : Prop where
  name : call.workspace.key.toStringWithoutVersion = wsName
  pipeline : ∃ dataset libraries, call.workspace.pipeline = dataset :: libraries ∧
    dataset.componentType = MetaKey.genericDatasetKey ∧
    ∀ key ∈ libraries, key.componentType = MetaKey.genericLibraryKey
  nodup : call.workspace.pipeline.Nodup
  parsed : ∀ key ∈ call.workspace.pipeline, ∃ s, MetaKey.buildFromString s = some key

/-- The workspace records what runs from scratch leave, under names of versions, and parameters
for all its components. -/
structure Recorded (m : Machine C) (S : PhysicalStore σ (StoredFile C)) (store : σ)
    (w : WorkspaceMeta) : Prop where
  outputs : ∀ path key rest, w.pipeline = path ++ key :: rest →
    key.componentType = MetaKey.genericLibraryKey →
      ∃ hversion, w.outputOf key.toStringWithVersion = .ok hversion ∧ VersionName S hversion ∧
        Resolves m S store w.key path key hversion
  params : ∀ key ∈ w.pipeline, ∃ params, w.paramsOf key.toStringWithVersion = .ok params

/-- The outputs that a workspace already has when it is handed in are those of runs from scratch. -/
def HandedIn (m : Machine C) (S : PhysicalStore σ (StoredFile C)) (store : σ)
    (w : WorkspaceMeta) : Prop :=
  TrialTree.hasOutputs w = true → ∀ path key rest hversion, w.pipeline = path ++ key :: rest →
    key.componentType = MetaKey.genericLibraryKey →
    w.outputOf key.toStringWithVersion = .ok hversion →
      VersionName S hversion ∧ Resolves m S store w.key path key hversion

/-- The condition on a call: its commands reach their components, and it hands in no outputs but
right ones. -/
structure Meets (m : Machine C) (S : PhysicalStore σ (StoredFile C)) (store : σ)
    (call : CommitCall C) : Prop where
  commands : CommandsReach m call
  handedIn : HandedIn m S store call.workspace

/-- Every head of the workspace that has outputs records what runs from scratch leave. -/
def HeadsRecorded (m : Machine C) (S : PhysicalStore σ (StoredFile C)) (wsName : String)
    (store : σ) : Prop :=
  ∀ key head, key.toStringWithoutVersion = wsName →
    Storage.getBranchHead S .metaStorage store key = .ok (.config head) →
    TrialTree.hasOutputs head = true →
      head.key.toStringWithoutVersion = wsName ∧ Recorded m S store head

theorem WellFormedCall.nodup_strings {wsName : String} (h : WellFormedCall wsName call) :
    (call.workspace.pipeline.map (·.toStringWithVersion)).Nodup := by
  refine h.nodup.map_on ?_
  intro key hkey key' hkey' heq
  obtain ⟨s, hs⟩ := h.parsed key hkey
  obtain ⟨s', hs'⟩ := h.parsed key' hkey'
  have hread := MetaKey.buildFromString_toStringWithVersion hs
  rw [heq, MetaKey.buildFromString_toStringWithVersion hs'] at hread
  exact (Option.some.inj hread).symm

section

variable {wsName : String} {nodes : List TreeNode}

theorem WellFormedCall.nodup_nodes (h : WellFormedCall wsName call)
    (hkeys : nodes.map (·.key) = call.workspace.pipeline) :
    (nodes.map fun node => node.key.toStringWithVersion).Nodup := by
  have hstrings := h.nodup_strings
  rw [← hkeys, List.map_map] at hstrings
  exact hstrings

theorem WellFormedCall.read_node (h : WellFormedCall wsName call)
    (hkeys : nodes.map (·.key) = call.workspace.pipeline) :
    ∀ node ∈ nodes, MetaKey.buildFromString node.key.toStringWithVersion = some node.key := by
  intro node hnode
  obtain ⟨s, hs⟩ := h.parsed node.key (hkeys ▸ List.mem_map_of_mem hnode)
  exact MetaKey.buildFromString_toStringWithVersion hs

end

theorem first_ok {α : Type} {candidates : List α} {condition : α → Bool} {a : α}
    (h : first candidates condition = .ok a) : a ∈ candidates ∧ condition a = true := by
  unfold first at h
  split at h
  · rename_i hfind
    obtain rfl := Except.ok.inj h
    exact ⟨List.mem_of_find?_eq_some hfind, List.find?_some hfind⟩
  · cases h

theorem map_key_of_equal {nodes : List TreeNode} {pipeline : List MetaKey}
    (h : equal nodes pipeline = true) (hlen : nodes.length = pipeline.length) :
    nodes.map (·.key) = pipeline := by
  induction nodes generalizing pipeline with
  | nil => exact (List.length_eq_zero_iff.mp hlen.symm).symm
  | cons node nodes ih =>
      obtain _ | ⟨key, pipeline⟩ := pipeline
      · cases hlen
      · simp only [equal, List.zip_cons_cons, List.all_cons, Bool.and_eq_true,
          decide_eq_true_eq] at h
        rw [List.map_cons, h.1, ih h.2 (by simpa using hlen)]

/-- The workspaces of the tree that is proposed for a call. -/
def Proposed (S : PhysicalStore σ (StoredFile C)) (store : σ) (w : WorkspaceMeta)
    (workspaces : List WorkspaceMeta) : Prop :=
  workspaces = [w] ∨ ∃ previous, workspaces = [previous, w] ∧
    Storage.getBranchHead S .metaStorage store w.key = .ok (.config previous)

theorem getBranchHead_ok {key : MetaKey} {previous : WorkspaceMeta} {world world' : World σ C}
    (h : (getBranchHead S call key).runFrom world = (.ok previous, world')) :
    Storage.getBranchHead S .metaStorage world.store key = .ok (.config previous) := by
  obtain ⟨_, w₁, hstep, h⟩ := runFrom_bind_eq_ok_iff.mp h
  obtain ⟨_, _, hget, h⟩ := runFrom_bind_eq_ok_iff.mp h
  obtain ⟨rfl, rfl⟩ := runFrom_get_eq_ok_iff.mp hget
  obtain ⟨file, _, hread, h⟩ := runFrom_bind_eq_ok_iff.mp h
  obtain ⟨hfile, rfl⟩ := runFrom_ofExcept_eq_ok_iff.mp hread
  rw [← (step_ok hstep []).store, hfile]
  split at h
  · obtain ⟨rfl, -⟩ := runFrom_pure_eq_ok_iff.mp h
    rfl
  · cases (Prod.mk.inj h).1

theorem propose_ok {version : SemanticVersion} {tree : TrialTree} {world world' : World σ C}
    (h : (propose S call).runFrom world = (.ok (version, tree), world')) :
    ∃ workspaces, TrialTree.init call.order workspaces = .ok tree ∧
      Proposed S world.store call.workspace workspaces := by
  rw [propose, runFrom_tryCatch] at h
  split at h
  · rename_i hrun
    rw [h] at hrun
    obtain ⟨previous, w₁, hhead, hrun⟩ := runFrom_bind_eq_ok_iff.mp hrun
    obtain ⟨tree', _, htree, hrun⟩ := runFrom_bind_eq_ok_iff.mp hrun
    obtain ⟨hinit, rfl⟩ := runFrom_ofExcept_eq_ok_iff.mp htree
    obtain ⟨hpair, -⟩ := runFrom_pure_eq_ok_iff.mp hrun
    obtain ⟨-, rfl⟩ := Prod.mk.inj hpair
    exact ⟨_, hinit, Or.inr ⟨previous, rfl, getBranchHead_ok hhead⟩⟩
  · split at h
    · obtain ⟨tree', _, htree, h⟩ := runFrom_bind_eq_ok_iff.mp h
      obtain ⟨hinit, rfl⟩ := runFrom_ofExcept_eq_ok_iff.mp htree
      obtain ⟨hpair, -⟩ := runFrom_pure_eq_ok_iff.mp h
      obtain ⟨-, rfl⟩ := Prod.mk.inj hpair
      exact ⟨_, hinit, Or.inl rfl⟩
    · cases (Prod.mk.inj h).1

/-- The candidates of the tree are as long as the pipeline of the call. -/
theorem length_candidate {wsName : String} (hcall : WellFormedCall wsName call) {store : σ}
    {workspaces : List WorkspaceMeta} {tree : TrialTree}
    (hinit : TrialTree.init call.order workspaces = .ok tree)
    (hproposed : Proposed S store call.workspace workspaces) {nodes : List TreeNode}
    (hnodes : nodes ∈ tree.candidateNodeLists) :
    nodes.length = call.workspace.pipeline.length := by
  obtain ⟨dataset, libraries, hpipeline, -, -⟩ := hcall.pipeline
  rw [TrialTree.length_of_mem_candidates hinit hnodes]
  rcases hproposed with rfl | ⟨previous, rfl, -⟩
  · simp [TrialTree.treeDepth, hpipeline]
  · obtain ⟨_, _, hcomp, -, -, -⟩ := TrialTree.exists_marked_of_init hinit
    have hle := TrialTree.length_le_of_initCompatibilityDict2 hcomp
      (w := call.workspace) (by simp)
    rw [hpipeline, List.length_cons] at hle ⊢
    simp only [TrialTree.treeDepth, List.foldl_cons, List.foldl_nil, hpipeline, List.length_cons]
    omega

/-- What is trained for the call is on a path of the branch's head, or of the workspace itself. -/
theorem lastAgreeing_proposed {store : σ} {workspaces : List WorkspaceMeta}
    (hproposed : Proposed S store call.workspace workspaces) {path : List MetaKey}
    {w : WorkspaceMeta}
    (h : TrialTree.lastAgreeing (workspaces.filter TrialTree.hasOutputs) path = some w) :
    TrialTree.hasOutputs w = true ∧ path <+: w.pipeline ∧ (w = call.workspace ∨
      Storage.getBranchHead S .metaStorage store call.workspace.key = .ok (.config w)) := by
  obtain ⟨hmem, hpath⟩ := TrialTree.mem_of_lastAgreeing h
  obtain ⟨hmem, houtputs⟩ := List.mem_filter.mp hmem
  refine ⟨houtputs, hpath, ?_⟩
  rcases hproposed with rfl | ⟨previous, rfl, hhead⟩
  · exact Or.inl (List.mem_singleton.mp hmem)
  · rcases List.mem_cons.mp hmem with rfl | hmem
    · exact Or.inr hhead
    · exact Or.inl (List.mem_singleton.mp hmem)

theorem marks_of_candidate {order : SetOrder} {workspaces : List WorkspaceMeta}
    {tree : TrialTree} (hinit : TrialTree.init order workspaces = .ok tree)
    {nodes : List TreeNode} (hnodes : nodes ∈ tree.candidateNodeLists)
    {before after : List TreeNode} {node : TreeNode} (hsplit : nodes = before ++ node :: after) :
    TrialTree.TrainedFrom (workspaces.filter TrialTree.hasOutputs)
      (before.map (·.key) ++ [node.key]) node := by
  have hmark := TrialTree.trainedFrom_of_mem_candidates hinit hnodes before.length
    (by rw [hsplit, List.length_append, List.length_cons]; omega)
  simpa [hsplit, List.take_length_add_append] using hmark

/-- The nodes that a call works on. -/
theorem candidate_ok {wsName : String} (hcall : WellFormedCall wsName call) {store : σ}
    (hhanded : HandedIn m S store call.workspace) (hheads : HeadsRecorded m S wsName store)
    {workspaces : List WorkspaceMeta} {tree : TrialTree}
    (hinit : TrialTree.init call.order workspaces = .ok tree)
    (hproposed : Proposed S store call.workspace workspaces) {nodes : List TreeNode}
    (hnodes : nodes ∈ tree.candidateNodeLists)
    (hkeys : nodes.map (·.key) = call.workspace.pipeline) :
    Shape nodes ∧ Known m S store call.workspace.key nodes := by
  refine ⟨⟨?_, ?_⟩, ?_⟩
  · obtain ⟨dataset, libraries, hpipeline, hdataset, hlibraries⟩ := hcall.pipeline
    rw [hpipeline] at hkeys
    obtain ⟨first, rest, rfl, rfl, rfl⟩ := List.map_eq_cons_iff.mp hkeys
    refine ⟨first, rest, rfl, hdataset, ?_, ?_⟩
    · have hmark := marks_of_candidate hinit hnodes (List.nil_append (first :: rest)).symm
      exact hmark.trained_iff.mpr (Or.inl hdataset)
    · intro node hnode
      exact hlibraries node.key (List.mem_map_of_mem hnode)
  · exact hcall.nodup_nodes hkeys
  · intro before node after hsplit htrained hlibrary
    have hmark := marks_of_candidate hinit hnodes hsplit
    -- A trained library is on a path that the head has gone, or the workspace as handed in.
    have hne : node.key.componentType ≠ MetaKey.genericDatasetKey := by
      rw [hlibrary]
      decide
    obtain ⟨w, hlast⟩ := Option.isSome_iff_exists.mp
      ((hmark.trained_iff.mp htrained).resolve_left hne)
    obtain ⟨houtputs, hprefix, hfrom⟩ := lastAgreeing_proposed hproposed hlast
    obtain ⟨rest, hpipeline⟩ := hprefix
    have hsplit' : w.pipeline = before.map (·.key) ++ node.key :: rest := by
      simpa using hpipeline.symm
    have houtput := (hmark.marked w hlibrary hlast).1
    obtain ⟨hsame, hversionName, hresolves⟩ :
        w.key.toStringWithoutVersion = call.workspace.key.toStringWithoutVersion ∧
          VersionName S node.output ∧
          Resolves m S store w.key (before.map (·.key)) node.key node.output := by
      rcases hfrom with rfl | hhead
      · exact ⟨rfl, hhanded houtputs _ _ rest _ hsplit' hlibrary houtput⟩
      · obtain ⟨hname, hrecorded⟩ := hheads _ w hcall.name hhead houtputs
        obtain ⟨hversion, hrecords, hversionName, hresolves⟩ :=
          hrecorded.outputs _ node.key rest hsplit' hlibrary
        obtain rfl := Except.ok.inj (hrecords.symm.trans houtput)
        exact ⟨hname.trans hcall.name.symm, hversionName, hresolves⟩
    refine ⟨⟨w.key, ?_, hsame⟩, hversionName, hresolves.congr hsame⟩
    rw [hmark.wsKey_eq, hlast]
    rfl

/-! ### One call -/

theorem within_planCommit : Within (FoldersOnly []) (planCommit S call) := by
  refine Within.bind within_propose fun _ => Within.bind (within_prepareEnv _) fun _ => ?_
  refine Within.bind (Within.ofExcept _) fun _ => ?_
  refine Within.bind (Within.modify fun _ => ⟨rfl, fun _ _ => rfl⟩) fun _ => ?_
  exact Within.bind within_step_none fun _ => Within.pure _

theorem prepareEnv_ok {paths : WorkspacePaths} {options : EnvOptions} {world world' : World σ C}
    (h : (prepareEnv call paths).runFrom world = (.ok options, world')) :
    options = envOptions paths := by
  obtain ⟨_, _, -, h⟩ := runFrom_bind_eq_ok_iff.mp h
  exact (runFrom_pure_eq_ok_iff.mp h).1.symm

/-- A call that meets the condition is ready to train when it gets there. -/
theorem planCommit_ok {wsName : String} (hcall : WellFormedCall wsName call)
    {world world' : World σ C} (hmeets : Meets m S world.store call)
    (hheads : HeadsRecorded m S wsName world.store) (hnames : NamesNoPath m S world)
    {proposed : SemanticVersion} {options : EnvOptions} {nodes : List TreeNode}
    (h : (planCommit S call).runFrom world = (.ok (proposed, options, nodes), world')) :
    Ready m S call options world' nodes := by
  have hidle : FoldersOnly [] world world' := within_planCommit.of_run h
  unfold planCommit at h
  obtain ⟨⟨proposed', tree⟩, w₁, hpropose, h⟩ := runFrom_bind_eq_ok_iff.mp h
  obtain ⟨options', w₂, henv, h⟩ := runFrom_bind_eq_ok_iff.mp h
  obtain ⟨nodes', _, hfirstRun, h⟩ := runFrom_bind_eq_ok_iff.mp h
  obtain ⟨hfirst, rfl⟩ := runFrom_ofExcept_eq_ok_iff.mp hfirstRun
  obtain ⟨_, w₃, -, h⟩ := runFrom_bind_eq_ok_iff.mp h
  obtain ⟨_, w₄, -, h⟩ := runFrom_bind_eq_ok_iff.mp h
  obtain ⟨hplan, rfl⟩ := runFrom_pure_eq_ok_iff.mp h
  obtain ⟨rfl, rfl, rfl⟩ : proposed' = proposed ∧ options' = options ∧ nodes' = nodes := by
    simpa using hplan
  obtain ⟨workspaces, hinit, hproposed⟩ := propose_ok hpropose
  obtain ⟨hcandidate, hequal⟩ := first_ok hfirst
  have hkeys := map_key_of_equal hequal (length_candidate hcall hinit hproposed hcandidate)
  obtain ⟨hshape, hknown⟩ :=
    candidate_ok hcall hmeets.handedIn hheads hinit hproposed hcandidate hkeys
  rw [← hidle.store] at hknown
  exact ⟨prepareEnv_ok henv, hshape, hknown, hkeys, hnames.quiet (.of_foldersOnly hidle),
    hmeets.commands⟩

/-- Until the config is written, only the folders of components are written to. -/
theorem quiet_prepareCommit {wsName : String} (hcall : WellFormedCall wsName call)
    {world : World σ C} (hmeets : Meets m S world.store call)
    (hheads : HeadsRecorded m S wsName world.store) (hnames : NamesNoPath m S world) :
    WithinFrom (Quiet S) (prepareCommit m S call) world := by
  refine WithinFrom.bind (within_planCommit.mono (fun _ _ => .of_foldersOnly) world) ?_
  intro plan w₁ hplan
  obtain ⟨proposed, options, nodes⟩ := plan
  refine WithinFrom.bind (quiet_trainNodeList (planCommit_ok hcall hmeets hheads hnames hplan)) ?_
  intro nodes' w₂ _
  exact Within.bind Within.get
    (fun _ => Within.bind (keeps_savePipelineState _ _ _) fun _ => Within.pure _) w₂

theorem Recorded.mono {w : WorkspaceMeta} {store store' : σ}
    (h : Recorded m S store w) (hversions : ∀ strKey hversion content,
      Storage.fileVersion S store strKey hversion = .ok content →
        Storage.fileVersion S store' strKey hversion = .ok content) :
    Recorded m S store' w where
  outputs path key rest hsplit hlibrary := by
    obtain ⟨hversion, houtput, hname, hresolves⟩ := h.outputs path key rest hsplit hlibrary
    exact ⟨hversion, houtput, hname, hresolves.mono hversions⟩
  params := h.params

/-- What is committed after the training records what runs from scratch leave: a new version of
what an executed component has left, and for a skipped one the version that was known before. -/
theorem recorded_of_trained {wsName : String} (hcall : WellFormedCall wsName call)
    {nodes : List TreeNode} {world world' : World σ C}
    (hkeys : nodes.map (·.key) = call.workspace.pipeline)
    (htrained : ∀ before node after, nodes = before ++ node :: after →
      node.key.componentType = MetaKey.genericLibraryKey →
        TrainedNode m S world call.workspace.key (before.map (·.key)) node)
    {hpMap : OrderedDict String Params} {outMap : OrderedDict String String}
    (hsave : (savePipelineState S call call.workspace.key
      (nodes.foldl (addNode m world) ⟨∅, ∅, ∅, ∅⟩).executedParams
      (nodes.foldl (addNode m world) ⟨∅, ∅, ∅, ∅⟩).executedOutput).runFrom world =
        (.ok (hpMap, outMap), world'))
    {committed : WorkspaceMeta} (hpipeline : committed.pipeline = call.workspace.pipeline)
    (hname : committed.key.toStringWithoutVersion = call.workspace.key.toStringWithoutVersion)
    (houtputs : committed.outputs = some
      (outMap.update (nodes.foldl (addNode m world) ⟨∅, ∅, ∅, ∅⟩).skippedOutput))
    (hparams : committed.params = some
      (hpMap.update (nodes.foldl (addNode m world) ⟨∅, ∅, ∅, ∅⟩).skippedParams)) :
    Recorded m S world'.store committed := by
  have hkeeps : Keeps S (fun _ => True) world world' :=
    (keeps_savePipelineState _ _ _).of_run hsave
  have hsaved := fun node (hnode : node ∈ nodes) =>
    savedNode_of_save (hcall.nodup_nodes hkeys) (hcall.read_node hkeys) hsave hnode
  refine ⟨?_, ?_⟩
  · intro path key after hsplit hlibrary
    rw [hpipeline, ← hkeys] at hsplit
    obtain ⟨before, nodesFrom, hbefore, rfl, hfrom⟩ := List.map_eq_append_iff.mp hsplit
    obtain ⟨node, after', rfl, rfl, -⟩ := List.map_eq_cons_iff.mp hfrom
    have hnode := htrained before node after' hbefore hlibrary
    have hentry := hsaved node (by rw [hbefore]; simp)
    by_cases hexists : world.pathExists m node.output = true
    · obtain ⟨hversion, content, hresult, hversionName, hfolder, hget⟩ := hentry.executed hexists
      obtain ⟨content', hfolder', hscratch⟩ := hnode.executed hexists
      obtain rfl := Option.some.inj (hfolder.symm.trans hfolder')
      refine ⟨hversion, WorkspaceMeta.outputOf_eq_ok_iff.mpr ⟨_, houtputs, hresult⟩,
        hversionName, content, ?_, hscratch⟩
      rw [Storage.runtimeGet, formKey_congr hname]
      exact hget
    · rw [Bool.not_eq_true] at hexists
      obtain ⟨hversionName, hresolves⟩ := hnode.skipped hexists
      exact ⟨node.output,
        WorkspaceMeta.outputOf_eq_ok_iff.mpr ⟨_, houtputs, hentry.skipped hexists⟩,
        hversionName, (hresolves.congr hname.symm).mono hkeeps.versions⟩
  · intro key hkey
    rw [hpipeline, ← hkeys] at hkey
    obtain ⟨node, hnode, rfl⟩ := List.mem_map.mp hkey
    exact WorkspaceMeta.exists_paramsOf hparams (hsaved node hnode).params

/-! ### Sequences of calls -/

theorem prepareCommit_ok {wsName : String} (hcall : WellFormedCall wsName call)
    {world world' : World σ C} (hmeets : Meets m S world.store call)
    (hheads : HeadsRecorded m S wsName world.store) (hnames : NamesNoPath m S world)
    {committed : WorkspaceMeta}
    (h : (prepareCommit m S call).runFrom world = (.ok committed, world')) :
    committed.key.toStringWithoutVersion = wsName ∧ Recorded m S world'.store committed := by
  unfold prepareCommit at h
  obtain ⟨⟨proposed, options, nodes⟩, w₁, hplan, h⟩ := runFrom_bind_eq_ok_iff.mp h
  obtain ⟨nodes', w₂, htrain, h⟩ := runFrom_bind_eq_ok_iff.mp h
  obtain ⟨_, _, hget, h⟩ := runFrom_bind_eq_ok_iff.mp h
  obtain ⟨rfl, rfl⟩ := runFrom_get_eq_ok_iff.mp hget
  obtain ⟨⟨hpMap, outMap⟩, w₃, hsave, h⟩ := runFrom_bind_eq_ok_iff.mp h
  obtain ⟨rfl, rfl⟩ := runFrom_pure_eq_ok_iff.mp h
  have hready := planCommit_ok hcall hmeets hheads hnames hplan
  have hnames' := hready.names.quiet ((quiet_trainNodeList hready).of_run htrain)
  obtain ⟨skipped, rest, executed, rfl, rfl, htrained, hran, hstore⟩ :=
    trainNodeList_ok hready htrain
  have hknown := hready.known
  rw [← hstore] at hknown
  exact ⟨hcall.name, recorded_of_trained hcall ((hran.map_trained skipped).trans hready.keys)
    (fun _ _ _ hsplit => trainedNode_of_executed hknown htrained hnames' hran hsplit) hsave
    rfl rfl rfl rfl⟩

/-- Beside what `Keeps` allows, heads of the workspace may have moved to it. -/
structure Moves (S : PhysicalStore σ (StoredFile C)) (w : WorkspaceMeta)
    (world world' : World σ C) : Prop where
  versions : ∀ strKey hversion content,
    Storage.fileVersion S world.store strKey hversion = .ok content →
      Storage.fileVersion S world'.store strKey hversion = .ok content
  heads : ∀ key file, Storage.getBranchHead S .metaStorage world'.store key = .ok file →
    file = .config w ∧ key.toStringWithoutVersion = w.key.toStringWithoutVersion ∨
      Storage.getBranchHead S .metaStorage world.store key = .ok file
  folders : ∀ path, world'.folder path = world.folder path

section

variable {w : WorkspaceMeta}

theorem Moves.of_keeps {world world' : World σ C} (h : Keeps S (fun _ => True) world world') :
    Moves S w world world' where
  versions := h.versions
  heads key _ hfile := Or.inr ((h.heads key).symm.trans hfile)
  folders path := h.folders path trivial

instance : Std.Refl (Moves S w) := ⟨fun _ => .of_keeps (Std.Refl.refl _)⟩

instance : IsTrans (World σ C) (Moves S w) where
  trans _ _ _ h h' :=
    { versions := fun _ _ _ hold => h'.versions _ _ _ (h.versions _ _ _ hold)
      heads := fun key file hfile => (h'.heads key file hfile).elim Or.inl (h.heads key file)
      folders := fun path => (h'.folders path).trans (h.folders path) }

theorem moves_putEntity (world : World σ C) :
    Moves S w world { world with
      store := (Storage.putEntity S .metaStorage world.store w.key (.config w)).1 } where
  versions := fun _ _ _ hold => Storage.fileVersion_put hold _ _ _
  heads := by
    intro key file hfile
    by_cases hkey : key.toStringWithoutVersion = w.key.toStringWithoutVersion ∧
        key.componentVersion.branch = w.key.componentVersion.branch
    · -- This is the head that the put moves.
      have hentity : Storage.formEntityKey .metaStorage key =
          Storage.formEntityKey .metaStorage w.key := by
        rw [Storage.formEntityKey, Storage.formEntityKey, hkey.1]
      rw [Storage.getBranchHead, hentity, hkey.2, ← Storage.getBranchHead,
        Storage.getBranchHead_putEntity] at hfile
      exact Or.inl ⟨(Except.ok.inj hfile).symm, hkey.1⟩
    · rw [Storage.getBranchHead_putEntity_of_ne] at hfile
      · exact Or.inr hfile
      · exact fun _ hname hbranch => hkey ⟨hname, hbranch⟩
  folders := fun _ => rfl

theorem moves_putVersion (world : World σ C) (hversion : String) :
    Moves S w world { world with
      store := Storage.putVersion S .metaStorage world.store w.key hversion } where
  versions := fun _ _ _ hold => Storage.fileVersion_put hold _ _ _
  heads := by
    intro key file hfile
    rw [Storage.getBranchHead_putVersion] at hfile
    exact Or.inr hfile
  folders := fun _ => rfl

theorem moves_step_none : Within (Moves S w) (step (σ := σ) call none) :=
  keeps_step_none.mono fun _ _ => .of_keeps

theorem moves_putMeta : Within (Moves S w) (putMeta S call w) := by
  refine Within.bind moves_step_none fun _ => ?_
  intro world
  refine IsTrans.trans _ _ _ (moves_putEntity world) ?_
  exact (Within.bind moves_step_none fun _ =>
    Within.modify fun world => moves_putVersion world _) _

end

/-- What holds between the calls. -/
structure Sound (m : Machine C) (S : PhysicalStore σ (StoredFile C)) (wsName : String)
    (h : World σ C × List WorkspaceMeta) : Prop where
  names : NamesNoPath m S h.1
  heads : HeadsRecorded m S wsName h.1.store
  log : ∀ w ∈ h.2, Recorded m S h.1.store w

theorem Sound.keeps {wsName : String} {world world' : World σ C} {log : List WorkspaceMeta}
    (hsound : Sound m S wsName (world, log)) (h : Quiet S world world') :
    Sound m S wsName (world', log) where
  names := hsound.names.quiet h
  heads := by
    intro key head hname hhead houtputs
    rw [h.heads] at hhead
    obtain ⟨hsame, hrecorded⟩ := hsound.heads key head hname hhead houtputs
    exact ⟨hsame, hrecorded.mono h.versions⟩
  log := fun w hw => (hsound.log w hw).mono h.versions

theorem Sound.moves {wsName : String} {world world' : World σ C} {log : List WorkspaceMeta}
    (hsound : Sound m S wsName (world, log)) {w : WorkspaceMeta}
    (hname : w.key.toStringWithoutVersion = wsName) (hrecorded : Recorded m S world.store w)
    (h : Moves S w world world') :
    Sound m S wsName (world', log) ∧ Recorded m S world'.store w := by
  refine ⟨⟨⟨hsound.names.output, ?_⟩, ?_, ?_⟩, hrecorded.mono h.versions⟩
  · intro name hversion
    rw [World.pathExists, h.folders, ← World.pathExists]
    exact hsound.names.path name hversion
  · intro key head hkey hhead houtputs
    rcases h.heads key _ hhead with ⟨heq, -⟩ | hold
    · obtain rfl := StoredFile.config.inj heq
      exact ⟨hname, hrecorded.mono h.versions⟩
    · obtain ⟨hsame, hold⟩ := hsound.heads key head hkey hold houtputs
      exact ⟨hsame, hold.mono h.versions⟩
  · exact fun w hw => (hsound.log w hw).mono h.versions

/-- A call keeps what holds between the calls, wherever it fails. -/
theorem sound_commitStep {wsName : String} (hcall : WellFormedCall wsName call)
    {h h' : World σ C × List WorkspaceMeta} (hmeets : Meets m S h.1.store call)
    (hsound : Sound m S wsName h) (hstep : commitStep m S h call = some h') :
    Sound m S wsName h' := by
  obtain ⟨world, log⟩ := h
  have hstart : Sound m S wsName ({ world with clock := 0 }, log) :=
    hsound.keeps (.of_store rfl fun _ _ => rfl)
  have hlast : ∀ committed, Within (Moves S committed)
      (do step (σ := σ) call none
          putMeta S call committed
          return committed : Commit σ C WorkspaceMeta) := fun committed =>
    Within.bind moves_step_none fun _ => Within.bind moves_putMeta fun _ => Within.pure _
  have hmeets' : Meets m S ({ world with clock := 0 } : World σ C).store call := hmeets
  have hprepared : WithinFrom (Quiet S) (prepareCommit m S call) { world with clock := 0 } :=
    quiet_prepareCommit hcall hmeets' hstart.heads hstart.names
  unfold commitStep at hstep
  rw [commitWorkspace, runFrom_bind] at hstep
  rcases hprepare : (prepareCommit m S call).runFrom { world with clock := 0 } with
    ⟨error | committed, w₁⟩
  · -- The call has failed before the config is written.
    rw [hprepare] at hstep
    obtain rfl := Option.some.inj hstep
    exact hstart.keeps (hprepared.of_run hprepare)
  · rw [hprepare] at hstep
    obtain ⟨hname, hrecorded⟩ :=
      prepareCommit_ok hcall hmeets' hstart.heads hstart.names hprepare
    have hquiet := hstart.keeps (hprepared.of_run hprepare)
    dsimp only at hstep
    split at hstep
    · rename_i hrun
      obtain ⟨hsound', hrecorded'⟩ :=
        hquiet.moves hname hrecorded ((hlast committed).of_run hrun)
      obtain ⟨_, _, -, hrun⟩ := runFrom_bind_eq_ok_iff.mp hrun
      obtain ⟨_, _, -, hrun⟩ := runFrom_bind_eq_ok_iff.mp hrun
      obtain ⟨rfl, -⟩ := runFrom_pure_eq_ok_iff.mp hrun
      obtain rfl := Option.some.inj hstep
      refine ⟨hsound'.names, hsound'.heads, ?_⟩
      intro w hw
      rcases List.mem_append.mp hw with hw | hw
      · exact hsound'.log w hw
      · rw [List.mem_singleton.mp hw]
        exact hrecorded'
    · rename_i hrun
      obtain rfl := Option.some.inj hstep
      exact (hquiet.moves hname hrecorded ((hlast committed).of_run hrun)).1

theorem Recorded.equalsFromScratch {store : σ} {w : WorkspaceMeta}
    (h : Recorded m S store w) : EqualsFromScratch m S store w := by
  intro path key rest hsplit hlibrary
  obtain ⟨hversion, houtput, -, hresolves⟩ := h.outputs path key rest hsplit hlibrary
  exact ⟨hversion, houtput, hresolves⟩

theorem sound_of_exec {wsName : String} {world world' : World σ C}
    {calls : List (CommitCall C)} {log : List WorkspaceMeta}
    (hcalls : Along (commitStep m S)
      (fun h call => WellFormedCall wsName call ∧ Meets m S h.1.store call) (world, []) calls)
    (hnames : NamesNoPath m S world)
    (hfresh : ∀ key head, key.toStringWithoutVersion = wsName →
      Storage.getBranchHead S .metaStorage world.store key = .ok (.config head) →
      TrialTree.hasOutputs head = false)
    (hexec : Exec (commitStep m S) (world, []) calls (world', log)) :
    Sound m S wsName (world', log) := by
  have hstart : Sound m S wsName (world, []) := by
    refine ⟨hnames, ?_, by simp⟩
    intro key head hname hhead houtputs
    rw [hfresh key head hname hhead] at houtputs
    cases houtputs
  exact hexec.invariant_along (I := Sound m S wsName)
    (fun _ _ _ hsound hcall hstep => sound_commitStep hcall.1 hcall.2 hsound hstep) hcalls hstart

/-- **Incremental commits equal runs from scratch.** Whichever calls fail, and wherever they
fail, as long as every call meets the condition and no version is named like a path: every
workspace that has been committed, and every head of its branches that has outputs, records what
running its pipeline from the dataset leaves. -/
theorem incremental_commits_equal_scratch {wsName : String} {world world' : World σ C}
    {calls : List (CommitCall C)} {log : List WorkspaceMeta}
    (hcalls : Along (commitStep m S)
      (fun h call => WellFormedCall wsName call ∧ Meets m S h.1.store call) (world, []) calls)
    (hnames : NamesNoPath m S world)
    (hfresh : ∀ key head, key.toStringWithoutVersion = wsName →
      Storage.getBranchHead S .metaStorage world.store key = .ok (.config head) →
      TrialTree.hasOutputs head = false)
    (hexec : Exec (commitStep m S) (world, []) calls (world', log)) :
    (∀ w ∈ log, EqualsFromScratch m S world'.store w) ∧
      ∀ key head, key.toStringWithoutVersion = wsName →
        Storage.getBranchHead S .metaStorage world'.store key = .ok (.config head) →
        TrialTree.hasOutputs head = true → EqualsFromScratch m S world'.store head := by
  have hsound := sound_of_exec hcalls hnames hfresh hexec
  refine ⟨fun w hw => (hsound.log w hw).equalsFromScratch, ?_⟩
  intro key head hname hhead houtputs
  exact (hsound.heads key head hname hhead houtputs).2.equalsFromScratch

/-! A commit that shares its first library with the head of the branch. -/

/-- What every component leaves says which components have run. -/
def traceMachine : Machine (List String) where
  retrain := false
  dataset := fun key =>
    if key.componentType = MetaKey.genericDatasetKey then
      .ok ⟨"not-schema-hashable", ["all"], [key.componentName]⟩
    else .error .keyError
  library := fun _ => .ok ⟨"train.py", ∅⟩
  listed := fun _ content => content
  run := fun key content => content.getD [] ++ [key.componentName]
  runOther := fun _ content => content.getD []
  emptyFolder := []
  hasResults := fun _ => true
  otherPath := fun path => path.toList.head? = some '/'
  elsewhere := fun _ => none
  tempPath := "/tmp"
  componentKey := ""
  workerCwd := []

def traceWorld : World (List (BranchStore.LogEntry String String
    (Value (StoredFile (List String))))) (List String) := ⟨[], fun _ => none, [], 0⟩

def traceLibrary (name : String) : MetaKey :=
  ⟨MetaKey.genericLibraryKey, name, ⟨"master", 0, 0⟩⟩

def traceCall (libraries : List MetaKey) : CommitCall (List String) where
  workspace := {
    metaType := "workspace", name := "w", version := ⟨"master", 0, 0⟩
    pipeline := ⟨MetaKey.genericDatasetKey, "d", ⟨"master", 0, 0⟩⟩ :: libraries
    outputs := some ∅, params := some ∅, paths := ⟨"/w", "venv", "temp", "output"⟩ }
  order := .insertion
  candidateIds := Nat.repr
  faults := fun _ => none

def traceCalls : List (CommitCall (List String)) :=
  [traceCall [traceLibrary "a", traceLibrary "b"],
    traceCall [traceLibrary "a", traceLibrary "c"]]

theorem wellFormed_traceCalls :
    ∀ call ∈ traceCalls, WellFormedCall "workspace::w" call := by
  intro call hcall
  obtain ⟨last, rfl, hlast⟩ : ∃ last, call = traceCall [traceLibrary "a", traceLibrary last] ∧
      (last = "b" ∨ last = "c") := by
    simp only [traceCalls, List.mem_cons, List.not_mem_nil, or_false] at hcall
    rcases hcall with rfl | rfl
    · exact ⟨_, rfl, Or.inl rfl⟩
    · exact ⟨_, rfl, Or.inr rfl⟩
  refine ⟨by rcases hlast with rfl | rfl <;> rfl,
    ⟨_, _, rfl, rfl, by simp [traceLibrary]⟩, ?_, ?_⟩
  · rcases hlast with rfl | rfl <;> simp [traceCall, traceLibrary, MetaKey.genericDatasetKey,
      MetaKey.genericLibraryKey]
  · intro key hkey
    refine ⟨key.toStringWithVersion, ?_⟩
    simp only [traceCall, List.mem_cons, List.not_mem_nil, or_false] at hkey
    rcases hkey with rfl | rfl | rfl
    · decide +kernel
    · decide +kernel
    · rcases hlast with rfl | rfl <;> decide +kernel

theorem survives_traceFirst :
    let options := envOptions (traceCall []).workspace.paths
    let dataset : MetaKey := ⟨MetaKey.genericDatasetKey, "d", ⟨"master", 0, 0⟩⟩
    let input := InputPath.dataset dataset
      (datasetPaths options dataset ⟨"not-schema-hashable", ["all"], ["d"]⟩)
    PosixPath.isAbs input.toString.toList = true ∧
      PosixPath.isAbs (outputPath options (traceLibrary "a")).toList = true ∧
      Survives traceMachine.workerCwd ((traceCall []).candidateIds 1)
        (pathJoin options.venvDir (traceLibrary "a").toStringWithVersion) (sentKey traceMachine)
        "train.py" (completeParams ∅ input.toString (outputPath options (traceLibrary "a"))
          traceMachine.tempPath) input.toString (outputPath options (traceLibrary "a")) :=
  ⟨by decide +kernel, by decide +kernel, by decide +kernel⟩

/-- Their commands are made of plain words. -/
theorem meets_traceCalls (store : List (BranchStore.LogEntry String String
    (Value (StoredFile (List String))))) :
    ∀ call ∈ traceCalls, Meets traceMachine (Storage.logStore (StoredFile (List String))) store
      call := by
  intro call hcall
  obtain ⟨last, rfl, hlast⟩ : ∃ last, call = traceCall [traceLibrary "a", traceLibrary last] ∧
      (last = "b" ∨ last = "c") := by
    simp only [traceCalls, List.mem_cons, List.not_mem_nil, or_false] at hcall
    rcases hcall with rfl | rfl
    · exact ⟨_, rfl, Or.inl rfl⟩
    · exact ⟨_, rfl, Or.inr rfl⟩
  refine ⟨?_, fun houtputs => absurd houtputs (by rcases hlast with rfl | rfl <;> decide)⟩
  intro i prev key input library hprev hkey hinput hlibrary
  obtain rfl := Except.ok.inj hlibrary
  rcases i with _ | _ | i
  · obtain rfl := Option.some.inj hprev
    obtain rfl := Option.some.inj hkey
    obtain rfl := Option.some.inj hinput
    exact survives_traceFirst
  · obtain rfl := Option.some.inj hprev
    obtain rfl := Option.some.inj hkey
    obtain rfl := Option.some.inj hinput
    rcases hlast with rfl | rfl
    · exact ⟨by decide +kernel, by decide +kernel, by decide +kernel⟩
    · exact ⟨by decide +kernel, by decide +kernel, by decide +kernel⟩
  · simp [traceCall] at hkey

theorem along_traceCalls {calls : List (CommitCall (List String))}
    (hcalls : ∀ call ∈ calls, call ∈ traceCalls) (s : World _ (List String) × List WorkspaceMeta) :
    Along (commitStep traceMachine (Storage.logStore (StoredFile (List String))))
      (fun h call => WellFormedCall "workspace::w" call ∧
        Meets traceMachine (Storage.logStore (StoredFile (List String))) h.1.store call) s calls :=
  along_of_forall_states (fun h call hcall => ⟨wellFormed_traceCalls call (hcalls call hcall),
    meets_traceCalls h.1.store call (hcalls call hcall)⟩) s

theorem namesNoPath_traceWorld :
    NamesNoPath traceMachine (Storage.logStore (StoredFile (List String))) traceWorld := by
  have hdigit : ∀ name, VersionName (Storage.logStore (StoredFile (List String))) name →
      ∀ c ∈ name.toList, c.isDigit = true := by
    rintro _ ⟨s, strKey, strBranch, value, rfl⟩ c hc
    exact Regex.isDigit_of_mem_repr hc
  refine ⟨?_, ?_⟩
  · intro name hname houtput
    obtain ⟨options, key, heq⟩ := houtput
    have hcolon := colon_mem_outputPath options key
    rw [← heq] at hcolon
    rcases folderName_toList name with h | h
    · rw [h] at hcolon
      exact absurd (hdigit name hname _ hcolon) (by decide)
    · rw [h, List.mem_append] at hcolon
      exact absurd (hdigit name hname _ (hcolon.resolve_right (by decide))) (by decide)
  · intro name hname
    have hslash : name.toList.head? ≠ some '/' := fun hhead =>
      absurd (hdigit name hname _ (List.mem_of_head? hhead)) (by decide)
    simp [World.pathExists, World.folder, traceWorld, traceMachine, hslash]

theorem fresh_traceWorld : ∀ key head, key.toStringWithoutVersion = "workspace::w" →
    Storage.getBranchHead (Storage.logStore (StoredFile (List String))) .metaStorage
      traceWorld.store key = .ok (.config head) → TrialTree.hasOutputs head = false := by
  intro key head _ hhead
  cases hhead

theorem traceCalls_equal_scratch : ∃ world' log, log.length = 2 ∧
    Exec (commitStep traceMachine (Storage.logStore (StoredFile (List String))))
      (traceWorld, []) traceCalls (world', log) ∧
    ∀ w ∈ log, EqualsFromScratch traceMachine (Storage.logStore (StoredFile (List String)))
      world'.store w := by
  have hrun : (exec (commitStep traceMachine (Storage.logStore (StoredFile (List String))))
      (traceWorld, []) traceCalls).map (fun h => h.2.length) = some 2 := by
    decide +kernel
  obtain ⟨⟨world', log⟩, hexec, hlen⟩ := Option.map_eq_some_iff.mp hrun
  have hexec' := exec_eq_some_iff.mp hexec
  refine ⟨world', log, hlen, hexec', ?_⟩
  exact (incremental_commits_equal_scratch (along_traceCalls (fun _ h => h) _)
    namesNoPath_traceWorld fresh_traceWorld hexec').1

/-- A commit with a blank in the folder that datasets are extracted to. -/
def spacedCall : CommitCall (List String) :=
  { traceCall [traceLibrary "a"] with
    workspace := { (traceCall [traceLibrary "a"]).workspace with
      paths := ⟨"/w", "my venv", "temp", "output"⟩ } }

/-- The pipeline of the only commit, and what is stored for its library. -/
def spacedOutput (h : World (List (BranchStore.LogEntry String String
    (Value (StoredFile (List String))))) (List String) × List WorkspaceMeta) :
    Option (List MetaKey × List String) :=
  match h.2 with
  | [w] => do
      let hversion ← (w.outputOf (traceLibrary "a").toStringWithVersion).toOption
      let file ← (Storage.runtimeGet (Storage.logStore (StoredFile (List String))) "output"
        h.1.store w.key (traceLibrary "a") hversion).toOption
      return (w.pipeline, match file with
        | .archive content => content
        | _ => [])
  | _ => none

/-- The library is given the path up to the blank, where it does not find the dataset, and what it
makes of that is committed. -/
theorem spacedVenv_differs : WellFormedCall "workspace::w" spacedCall ∧
    ∃ world' w,
      Exec (commitStep traceMachine (Storage.logStore (StoredFile (List String))))
        (traceWorld, []) [spacedCall] (world', [w]) ∧
      ¬EqualsFromScratch traceMachine (Storage.logStore (StoredFile (List String)))
        world'.store w := by
  refine ⟨⟨rfl, ⟨_, _, rfl, rfl, by simp [traceLibrary]⟩, by decide, ?_⟩, ?_⟩
  · intro key hkey
    refine ⟨key.toStringWithVersion, ?_⟩
    simp only [spacedCall, traceCall, List.mem_cons, List.not_mem_nil, or_false] at hkey
    rcases hkey with rfl | rfl
    · decide +kernel
    · decide +kernel
  have hrun : (exec (commitStep traceMachine (Storage.logStore (StoredFile (List String))))
      (traceWorld, []) [spacedCall]).bind spacedOutput =
        some (spacedCall.workspace.pipeline, ["a"]) := by
    decide +kernel
  obtain ⟨⟨world', log⟩, hexec, houtput⟩ := Option.bind_eq_some_iff.mp hrun
  unfold spacedOutput at houtput
  split at houtput
  · rename_i w hlog
    obtain rfl : log = [w] := hlog
    refine ⟨world', w, exec_eq_some_iff.mp hexec, fun hequal => ?_⟩
    obtain ⟨hversion, hrecorded, houtput⟩ := Option.bind_eq_some_iff.mp houtput
    obtain ⟨file, hfile, houtput⟩ := Option.bind_eq_some_iff.mp houtput
    obtain ⟨hpipeline, hcontent⟩ := Prod.mk.inj (Option.some.inj houtput)
    obtain ⟨hversion', hrecorded', content, hstored, hscratch⟩ :=
      hequal [⟨MetaKey.genericDatasetKey, "d", ⟨"master", 0, 0⟩⟩] (traceLibrary "a") []
        hpipeline rfl
    rw [toOption_eq_some_iff] at hrecorded hfile
    obtain rfl := Except.ok.inj (hrecorded.symm.trans hrecorded')
    obtain rfl := Except.ok.inj (hfile.symm.trans hstored)
    obtain rfl : content = ["a"] := hcontent
    exact absurd hscratch (by decide)
  · cases houtput

end SecCask.Pipeman.TrialManager
