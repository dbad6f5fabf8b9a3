import SecCask.Pipeman.Incremental
import SecCask.Pipeman.PipelineLookup

/-!
# SecCask.Pipeman.Recommit

Committing behind a head of the same length, when all that the call relies on works. Only a
pipeline of which nothing is left to execute makes the call fail: `_train_node_list` then
takes the last element of an empty list.

The call is followed part by part, and every part returns (`Returns`), up to the training. There
the nodes decide. Whether a node is skipped is known from its mark, and the mark from the last
workspace of the tree that agrees with the pipeline up to the node. The tree has two workspaces,
the head and the one handed in, so that all nodes are skipped exactly if one of these has
trained the whole pipeline (`forall_skips_iff`). If so, the training fails; if not, it returns,
because the first executed component finds the output that the invariant of all calls promises
it, and the rest of the call returns as well.
-/

namespace SecCask.Pipeman.TrialManager

open Effect

variable {σ C : Type} {m : Machine C} {S : PhysicalStore σ (StoredFile C)} {call : CommitCall C}

/-- Nothing fails during the call, its components can be found, and the last one leaves its
results. -/
structure RunsSucceed (m : Machine C) (call : CommitCall C) : Prop where
  faults : ∀ step, call.faults step = none
  dataset : ∀ key ∈ call.workspace.pipeline, key.componentType = MetaKey.genericDatasetKey →
    ∃ info, m.dataset key = .ok info
  library : ∀ key ∈ call.workspace.pipeline, key.componentType = MetaKey.genericLibraryKey →
    ∃ info, m.library key = .ok info
  results : ∀ key, call.workspace.pipeline.getLast? = some key →
    ∀ content, m.hasResults (m.run key (some content)) = true

/-! ### Parts that return

One lemma for each function that `commit_workspace` calls. Only the input of the first executed
component asks something of the store: the version that its node names must be there. -/

section

variable (hfaults : ∀ step, call.faults step = none)

include hfaults

theorem returns_step (path : Option String) (world : World σ C) :
    Returns (step call path) world := by
  refine (Returns.get world).bind fun _ _ _ => (Returns.modify _ _).bind fun _ _ _ => ?_
  split
  · exact Returns.pure _ _
  · rename_i fault hfault
    rw [hfaults] at hfault
    cases hfault

theorem returns_prepareEnv (paths : WorkspacePaths) (world : World σ C) :
    Returns (prepareEnv call paths) world := by
  refine Returns.bind ?_ fun _ _ _ => Returns.pure _ _
  exact Returns.forM (R := FoldersOnly []) (fun _ _ t _ => returns_step hfaults none t)
    fun _ _ => within_step_none

theorem returns_firstInput_dataset {options : EnvOptions} {prev : TreeNode} {world : World σ C}
    (hprev : prev.key.componentType = MetaKey.genericDatasetKey)
    (hdataset : ∃ info, m.dataset prev.key = .ok info) :
    Returns (firstInput m S call options prev) world := by
  unfold firstInput
  rw [if_pos hprev]
  refine (returns_step hfaults none world).bind fun _ _ _ => ?_
  exact (Returns.ofExcept hdataset _).bind fun _ _ _ => Returns.pure _ _

theorem returns_firstInput_library {options : EnvOptions} {prev : TreeNode} {world : World σ C}
    {wsKey : MetaKey} {path : List MetaKey}
    (hprev : prev.key.componentType = MetaKey.genericLibraryKey) (hkey : prev.wsKey = some wsKey)
    (hresolves : Resolves m S world.store wsKey path prev.key prev.output) :
    Returns (firstInput m S call options prev) world := by
  unfold firstInput
  have hne : ¬prev.key.componentType = MetaKey.genericDatasetKey := by
    rw [hprev]
    decide
  rw [if_neg hne, if_pos hprev]
  refine (Returns.get world).bind fun _ _ hget => ?_
  obtain ⟨rfl, rfl⟩ := runFrom_get_eq_ok_iff.mp hget
  split
  · exact Returns.pure _ _
  · refine (returns_step hfaults none world).bind fun _ w₁ hstep => ?_
    simp only [hkey]
    refine (Returns.get w₁).bind fun _ _ hget => ?_
    obtain ⟨rfl, rfl⟩ := runFrom_get_eq_ok_iff.mp hget
    obtain ⟨content, hcontent, -⟩ := hresolves
    rw [← (step_ok hstep []).store] at hcontent
    refine (Returns.ofExcept ⟨_, hcontent⟩ _).bind fun file _ hrun => ?_
    obtain ⟨hfile, rfl⟩ := runFrom_ofExcept_eq_ok_iff.mp hrun
    obtain rfl := Except.ok.inj (hcontent.symm.trans hfile)
    refine Returns.bind ?_ fun _ _ _ => Returns.pure _ _
    exact (returns_step hfaults _ _).bind fun _ _ _ => Returns.modify _ _

theorem returns_buildVenv {options : EnvOptions} {inputPath : InputPath} {i : ℕ} {node : TreeNode}
    {world : World σ C} (hlibrary : ∃ info, m.library node.key = .ok info) :
    Returns (buildVenv m call options inputPath i node) world := by
  refine (returns_step hfaults none world).bind fun _ _ _ => ?_
  refine (Returns.ofExcept hlibrary _).bind fun _ _ _ => ?_
  refine (returns_step hfaults none _).bind fun _ _ _ => ?_
  refine (returns_step hfaults _ _).bind fun _ _ _ => (Returns.get _).bind fun _ _ _ => ?_
  split
  · exact Returns.pure _ _
  · exact (Returns.modify _ _).bind fun _ _ _ => Returns.pure _ _

theorem returns_buildVenvs_some {options : EnvOptions} {nodes : List TreeNode}
    (hlibrary : ∀ node ∈ nodes, ∃ info, m.library node.key = .ok info) :
    ∀ i prev input (world : World σ C),
      Returns (buildVenvs m S call options i prev (some input) nodes) world := by
  induction nodes with
  | nil => exact fun _ _ _ _ => Returns.pure _ _
  | cons node rest ih =>
      intro i prev input world
      refine (returns_buildVenv hfaults (hlibrary node (by simp))).bind fun _ _ _ => ?_
      refine (ih (fun n hn => hlibrary n (by simp [hn])) _ _ _ _).bind fun _ _ _ => ?_
      exact Returns.pure _ _

/-- The loop of `_build_venvs` returns when the input of the first component that is not
skipped can be found. -/
theorem returns_buildVenvs_none {options : EnvOptions} {nodes : List TreeNode}
    (hlibrary : ∀ node ∈ nodes, ∃ info, m.library node.key = .ok info) {world : World σ C} :
    ∀ i prev, (∀ before node after, nodes = before ++ node :: after →
        (∀ n ∈ before, skips m n = true) → skips m node = false →
        Returns (firstInput m S call options ((before.getLast?.or prev).getD node)) world) →
      Returns (buildVenvs m S call options i prev none nodes) world := by
  intro i prev hfirst
  have hskipped : ∀ n ∈ nodes.takeWhile (skips m), skips m n = true :=
    fun _ => List.mem_takeWhile_imp
  have hsplit := List.takeWhile_append_dropWhile (p := skips m) (l := nodes)
  unfold Returns
  rw [← hsplit, buildVenvs_append_of_skips hskipped]
  refine Returns.bind ?_ fun _ _ _ => Returns.pure _ _
  cases hrest : nodes.dropWhile (skips m) with
  | nil => exact Returns.pure _ _
  | cons node rest =>
      rw [hrest] at hsplit
      have hnode := skips_of_dropWhile hrest
      have hknown : ∀ n ∈ node :: rest, ∃ info, m.library n.key = .ok info := by
        intro n hn
        refine hlibrary n ?_
        rw [← hsplit]
        exact List.mem_append_right _ hn
      rw [buildVenvs, if_neg (by simp [hnode])]
      refine (hfirst _ node rest hsplit.symm hskipped hnode).bind fun _ _ _ => ?_
      refine (returns_buildVenv hfaults (hknown node List.mem_cons_self)).bind fun _ _ _ => ?_
      have hrestKnown : ∀ n ∈ rest, ∃ info, m.library n.key = .ok info := fun n hn =>
        hknown n (List.mem_cons_of_mem _ hn)
      refine (returns_buildVenvs_some hfaults hrestKnown _ _ _ _).bind fun _ _ _ => ?_
      exact Returns.pure _ _

theorem returns_trainComponent {candidateIds : List String} {command : Command}
    {world : World σ C} (hindex : command.index < candidateIds.length) :
    Returns (trainComponent m call candidateIds command) world := by
  refine Returns.bind (Returns.ofExcept ?_ _) fun _ _ _ => (Returns.modify _ _).bind fun _ _ _ => ?_
  · rw [List.getElem?_eq_getElem hindex]
    exact ⟨_, rfl⟩
  · split
    · refine (returns_step hfaults _ _).bind fun _ _ _ => (Returns.get _).bind fun _ _ _ => ?_
      exact Returns.modify _ _
    · exact returns_step hfaults none _

/-- The loop of `_train_node_list` comes to its end. -/
theorem returns_train {options : EnvOptions} {candidateIds : List String} {i : ℕ}
    {input : InputPath} {nodes executed : List TreeNode} {commands : List Command}
    (hqueue : Queue m options i input nodes executed commands)
    (hlen : i + nodes.length ≤ candidateIds.length) {world : World σ C} :
    Returns (commands.forM (trainComponent m call candidateIds)) world := by
  induction hqueue generalizing world with
  | nil => exact Returns.pure _ _
  | @cons i input node node' command nodes executed commands hvenv _ ih =>
      rw [List.length_cons] at hlen
      refine Returns.bind (returns_trainComponent hfaults ?_) fun _ w₁ _ => ih (by omega)
      rw [hvenv.index]
      omega

theorem returns_savePipelineState {wsKey : MetaKey} {libParams : OrderedDict String Params}
    {outputPaths : OrderedDict String String} {world : World σ C}
    (hparams : ∀ s params, libParams.lookup s = some params →
      ∃ key, MetaKey.buildFromString s = some key)
    (hpaths : ∀ s path, outputPaths.lookup s = some path →
      (∃ key, MetaKey.buildFromString s = some key) ∧ (world.folder path).isSome = true) :
    Returns (savePipelineState S call wsKey libParams outputPaths) world := by
  have hentry : ∀ {V R : Type} {name : String} {action : V → Commit σ C (StoredFile C)}
      (result : String → R) (results : OrderedDict String R) (e : Sigma fun _ : String => V)
      {w : World σ C}, (∃ key, MetaKey.buildFromString e.1 = some key) → Returns (action e.2) w →
      Returns (saveEntry S call name wsKey action result results e) w := by
    intro V R name action result results e w hkey haction
    refine Returns.bind (Returns.ofExcept ?_ _) fun _ _ hid => ?_
    · obtain ⟨key, hkey⟩ := hkey
      rw [hkey]
      exact ⟨_, rfl⟩
    · obtain ⟨-, rfl⟩ := runFrom_ofExcept_eq_ok_iff.mp hid
      refine haction.bind fun _ _ _ => (returns_step hfaults none _).bind fun _ _ _ => ?_
      refine (Returns.get _).bind fun _ _ _ => (Returns.modify _ _).bind fun _ _ _ => ?_
      exact Returns.pure _ _
  refine Returns.bind ?_ fun _ w₁ hsave => Returns.bind ?_ fun _ _ _ => Returns.pure _ _
  · refine Returns.foldlM (R := Keeps S (fun _ => True))
      (f := saveEntry S call "params" wsKey (dumpParamsTo call) Params.hversion) ?_
      (fun e _ results => keeps_saveEntry keeps_dumpParamsTo _ results e) ∅
    intro e he results t _
    exact hentry _ _ _ (hparams e.1 e.2 (AList.mem_lookup_iff.mpr he))
      ((returns_step hfaults none t).bind fun _ _ _ => Returns.pure _ _)
  · have hkeeps : Keeps S (fun _ => True) world w₁ :=
      (keeps_saveState keeps_dumpParamsTo _ _).of_run hsave
    refine Returns.foldlM (R := Keeps S (fun _ => True))
      (f := saveEntry S call "output" wsKey (archiveLocalFolder call) id) ?_
      (fun e _ results => keeps_saveEntry keeps_archiveLocalFolder _ results e) ∅
    intro e he results t ht
    obtain ⟨hkey, hfolder⟩ := hpaths e.1 e.2 (AList.mem_lookup_iff.mpr he)
    refine hentry _ _ _ hkey ?_
    refine (returns_step hfaults none t).bind fun _ w₂ hstep =>
      (Returns.get w₂).bind fun _ _ hget => ?_
    obtain ⟨rfl, rfl⟩ := runFrom_get_eq_ok_iff.mp hget
    obtain ⟨content, hcontent⟩ := Option.isSome_iff_exists.mp hfolder
    rw [← hkeeps.folders _ trivial, ← ht.folders _ trivial,
      ← (step_ok hstep []).folders _ List.not_mem_nil] at hcontent
    rw [hcontent]
    exact Returns.pure _ _

theorem returns_putMeta (w : WorkspaceMeta) (world : World σ C) :
    Returns (putMeta S call w) world := by
  refine (returns_step hfaults none world).bind fun _ _ _ => (Returns.get _).bind fun _ _ _ => ?_
  refine (Returns.modify _ _).bind fun _ _ _ => (returns_step hfaults none _).bind fun _ _ _ => ?_
  exact Returns.modify _ _

/-- The head of the branch is read, and the tree behind it proposes the next version. -/
theorem propose_returns {head : WorkspaceMeta} {tree : TrialTree} {world : World σ C}
    (hhead : Storage.getBranchHead S .metaStorage world.store call.workspace.key =
      .ok (.config head))
    (hinit : TrialTree.init call.order [head, call.workspace] = .ok tree) :
    ∃ world', (propose S call).runFrom world =
      (.ok (⟨call.workspace.version.branch, head.version.apiVersion,
        head.version.incVersion + 1⟩, tree), world') := by
  have hread : Returns (getBranchHead S call call.workspace.key) world := by
    refine (returns_step hfaults none world).bind fun _ w₁ hstep => ?_
    refine (Returns.get w₁).bind fun _ _ hget => ?_
    obtain ⟨rfl, rfl⟩ := runFrom_get_eq_ok_iff.mp hget
    rw [← (step_ok hstep []).store] at hhead
    refine (Returns.ofExcept ⟨_, hhead⟩ _).bind fun file _ hrun => ?_
    obtain ⟨hfile, rfl⟩ := runFrom_ofExcept_eq_ok_iff.mp hrun
    obtain rfl := Except.ok.inj (hhead.symm.trans hfile)
    exact Returns.pure _ _
  obtain ⟨previous, w₁, hrun⟩ := hread
  obtain rfl := StoredFile.config.inj (Except.ok.inj (hhead.symm.trans (getBranchHead_ok hrun)))
  refine ⟨w₁, ?_⟩
  rw [propose, runFrom_tryCatch, runFrom_bind, hrun]
  dsimp only
  rw [runFrom_bind, runFrom_ofExcept, hinit]
  rfl

end

/-! ### What is left to execute

With nothing left the queue is empty and its last command is an `IndexError`. With something
left the last command is that of the last component, whose results are there. -/

theorem buildVenvs_of_skips {options : EnvOptions} {nodes : List TreeNode}
    (hskips : ∀ node ∈ nodes, skips m node = true) (world : World σ C) :
    ∀ i prev, (buildVenvs m S call options i prev none nodes).runFrom world =
      (.ok (nodes, []), world) := by
  intro i prev
  have hrun := @buildVenvs_append_of_skips σ C m S call options nodes [] hskips i prev world
  rw [List.append_nil] at hrun
  rw [hrun]
  show (Except.ok (nodes ++ [], _), world) = _
  rw [List.append_nil]

/-- Without a component to execute there is no last one. -/
theorem trainNodeList_of_skips {options : EnvOptions} {candidateIds : List String}
    {nodes : List TreeNode} (hskips : ∀ node ∈ nodes, skips m node = true) (world : World σ C) :
    (trainNodeList m S call options candidateIds nodes).runFrom world =
      (.error .indexError, world) := by
  unfold trainNodeList
  rw [runFrom_bind, buildVenvs_of_skips hskips]
  rfl

theorem Queue.getLast {options : EnvOptions} {i : ℕ} {input : InputPath}
    {nodes executed : List TreeNode} {commands : List Command}
    (h : Queue m options i input nodes executed commands) {last : Command}
    (hlast : commands.getLast? = some last) :
    ∃ before node, nodes = before ++ [node] ∧ last.output = outputPath options node.key := by
  induction h with
  | nil => cases hlast
  | @cons i input node node' command nodes executed commands hvenv hqueue ih =>
      rw [List.getLast?_cons] at hlast
      cases hrest : commands.getLast? with
      | none =>
          obtain rfl := List.getLast?_eq_none_iff.mp hrest
          cases hqueue
          obtain rfl : command = last := by simpa using hlast
          exact ⟨[], node, rfl, hvenv.output⟩
      | some last' =>
          rw [hrest] at hlast ih
          obtain rfl : last' = last := by simpa using hlast
          obtain ⟨before, next, rfl, houtput⟩ := ih rfl
          exact ⟨node :: before, next, rfl, houtput⟩

theorem exists_run_of_fromScratch {path : List MetaKey} {key : MetaKey} {content : C}
    (hne : path ≠ []) (h : fromScratch m (path ++ [key]) = some content) :
    ∃ content', content = m.run key (some content') := by
  obtain ⟨dataset, libraries, rfl⟩ := List.exists_cons_of_ne_nil hne
  rw [List.cons_append, fromScratch] at h
  obtain ⟨info, -, rfl⟩ := Option.map_eq_some_iff.mp h
  rw [List.foldl_append]
  exact ⟨_, rfl⟩

theorem skips_of_buildVenvs {options : EnvOptions} {nodes built : List TreeNode}
    {world world' : World σ C} {i : ℕ} {prev : Option TreeNode}
    (h : (buildVenvs m S call options i prev none nodes).runFrom world =
      (.ok (built, []), world')) : ∀ node ∈ nodes, skips m node = true := by
  induction nodes generalizing i prev built world with
  | nil => simp
  | cons node rest ih =>
      rw [buildVenvs] at h
      split at h
      · rename_i hskips
        obtain ⟨⟨built', commands⟩, w₁, hrest, h⟩ := runFrom_bind_eq_ok_iff.mp h
        obtain ⟨hpair, rfl⟩ := runFrom_pure_eq_ok_iff.mp h
        obtain ⟨rfl, rfl⟩ := Prod.mk.inj hpair
        exact List.forall_mem_cons.mpr ⟨hskips, ih hrest⟩
      · obtain ⟨input, w₁, -, h⟩ := runFrom_bind_eq_ok_iff.mp h
        obtain ⟨⟨node', command⟩, w₂, -, h⟩ := runFrom_bind_eq_ok_iff.mp h
        obtain ⟨⟨built', commands⟩, w₃, -, h⟩ := runFrom_bind_eq_ok_iff.mp h
        obtain ⟨hpair, -⟩ := runFrom_pure_eq_ok_iff.mp h
        cases (Prod.mk.inj hpair).2

section

variable (hruns : RunsSucceed m call)

include hruns

/-- `_build_venvs` finds all that it looks for. -/
theorem returns_buildVenvs {options : EnvOptions} {nodes : List TreeNode} {wsKey : MetaKey}
    {world : World σ C} (hshape : Shape nodes) (hknown : Known m S world.store wsKey nodes)
    (hkeys : nodes.map (·.key) = call.workspace.pipeline) :
    Returns (buildVenvs m S call options 0 none none nodes) world := by
  obtain ⟨dataset, libraries, rfl, hdataset, htrained, hlibraries⟩ := hshape.head
  have hmem : ∀ node ∈ dataset :: libraries, node.key ∈ call.workspace.pipeline := by
    intro node hnode
    rw [← hkeys]
    exact List.mem_map_of_mem hnode
  have hskips : skips m dataset = true := by simp [skips, htrained, hdataset]
  rw [buildVenvs, if_pos hskips]
  refine Returns.bind ?_ fun _ _ _ => Returns.pure _ _
  refine returns_buildVenvs_none hruns.faults (fun node hnode =>
    hruns.library node.key (hmem node (by simp [hnode])) (hlibraries node hnode)) 1 _ ?_
  intro before node after hsplit hbefore _
  rcases List.eq_nil_or_concat before with rfl | ⟨front, prev, hfront⟩
  · exact returns_firstInput_dataset hruns.faults hdataset
      (hruns.dataset dataset.key (hmem dataset (by simp)) hdataset)
  · obtain rfl : before = front ++ [prev] := by simpa using hfront
    have hprev : prev ∈ libraries := by
      rw [hsplit]
      simp
    have hprevTrained := hbefore prev (by simp)
    rw [skips, Bool.and_eq_true] at hprevTrained
    obtain ⟨⟨key, hkey, hname⟩, -, hresolves⟩ := hknown (dataset :: front) prev (node :: after)
      (by rw [hsplit]; simp) hprevTrained.1 (hlibraries prev hprev)
    have hlast : (((front ++ [prev]).getLast?.or (some dataset)).getD node) = prev := by simp
    rw [hlast]
    exact returns_firstInput_library hruns.faults (hlibraries prev hprev) hkey
      (hresolves.congr hname.symm)

theorem returns_trainNodeList {options : EnvOptions} {nodes : List TreeNode} {world : World σ C}
    (hready : Ready m S call options world nodes) (hleft : ∃ node ∈ nodes, skips m node = false) :
    Returns (trainNodeList m S call options (candidateIdsOf call) nodes) world := by
  refine (returns_buildVenvs hruns hready.shape hready.known hready.keys).bind
    fun built w₁ hbuild => ?_
  obtain ⟨built, commands⟩ := built
  have hne : commands ≠ [] := by
    intro heq
    subst heq
    obtain ⟨node, hnode, hskips⟩ := hleft
    rw [skips_of_buildVenvs hbuild node hnode] at hskips
    cases hskips
  obtain ⟨skipped, rest, executed, input, content, rfl, hskippedNe, rfl, -, hqueue, hreaches,
    hscratch, hread, hnodup, -⟩ := buildVenvs_ok hready hbuild hne
  have hids : skipped.length + rest.length ≤ (candidateIdsOf call).length := by
    rw [candidateIdsOf, List.length_map, List.length_range, ← hready.keys, List.length_map,
      List.length_append]
  refine (returns_train hruns.faults hqueue hids).bind fun _ w₂ htrain => ?_
  obtain ⟨hwritten, -⟩ := train_ok hqueue hreaches hscratch hnodup hread htrain
  split
  · rename_i hlast
    exact absurd (List.getLast?_eq_none_iff.mp hlast) hne
  · rename_i last hlast
    refine (returns_step hruns.faults none w₂).bind fun _ w₃ hstep => ?_
    refine (Returns.get w₃).bind fun _ _ hget => ?_
    obtain ⟨rfl, rfl⟩ := runFrom_get_eq_ok_iff.mp hget
    -- The last component of the pipeline has left its results.
    obtain ⟨before, node, rfl, houtput⟩ := hqueue.getLast hlast
    obtain ⟨content', hfolder, hlastScratch⟩ := hwritten before node [] rfl
    obtain ⟨given, rfl⟩ := exists_run_of_fromScratch (by simp [hskippedNe]) hlastScratch
    have hresults := hruns.results node.key (by rw [← hready.keys]; simp) given
    rw [if_pos]
    · exact Returns.pure _ _
    · rw [houtput, (step_ok hstep []).folders _ List.not_mem_nil, hfolder]
      exact hresults

end

/-! ### What is skipped

The last node decides: its pipeline is the whole one, so a workspace that agrees with it has
trained everything. -/

/-- The last node of a pipeline with a library is a library. -/
theorem exists_last_library {wsName : String} (hcall : WellFormedCall wsName call)
    (hlibrary : 2 ≤ call.workspace.pipeline.length) {nodes : List TreeNode}
    (hkeys : nodes.map (·.key) = call.workspace.pipeline) :
    ∃ before last, nodes = before ++ [last] ∧
      last.key.componentType = MetaKey.genericLibraryKey := by
  obtain ⟨dataset, libraries, hpipeline, -, hlibraries⟩ := hcall.pipeline
  rw [hpipeline] at hkeys hlibrary
  obtain ⟨first, rest, rfl, -, hrest⟩ := List.map_eq_cons_iff.mp hkeys
  rcases List.eq_nil_or_concat rest with rfl | ⟨before, last, hsplit⟩
  · rw [← hrest, List.map_nil, List.length_singleton] at hlibrary
    omega
  · obtain rfl : rest = before ++ [last] := by simpa using hsplit
    exact ⟨first :: before, last, rfl, hlibraries last.key (by rw [← hrest]; simp)⟩

/-- Behind a head, everything is skipped exactly when the head has trained all of it or the
workspace itself says so. -/
theorem forall_skips_iff {wsName : String} (hcall : WellFormedCall wsName call) {store : σ}
    (hlibrary : 2 ≤ call.workspace.pipeline.length) {head : WorkspaceMeta}
    (hhead : Storage.getBranchHead S .metaStorage store call.workspace.key = .ok (.config head))
    (houtputs : TrialTree.hasOutputs head = true)
    (hlen : head.pipeline.length = call.workspace.pipeline.length) {tree : TrialTree}
    (hinit : TrialTree.init call.order [head, call.workspace] = .ok tree) {nodes : List TreeNode}
    (hnodes : nodes ∈ tree.candidateNodeLists)
    (hkeys : nodes.map (·.key) = call.workspace.pipeline) :
    (∀ node ∈ nodes, skips m node = true) ↔ m.retrain = false ∧
      (TrialTree.hasOutputs call.workspace = true ∨
        call.workspace.pipeline = head.pipeline) := by
  constructor
  · intro hskips
    obtain ⟨before, last, rfl, hlast⟩ := exists_last_library hcall hlibrary hkeys
    have hne : last.key.componentType ≠ MetaKey.genericDatasetKey := by
      rw [hlast]
      decide
    have hskipsLast := hskips last (by simp)
    simp only [skips, hne, decide_false, Bool.or_false, Bool.and_eq_true,
      Bool.not_eq_true'] at hskipsLast
    obtain ⟨htrained, hretrain⟩ := hskipsLast
    have hmark := marks_of_candidate hinit hnodes rfl
    obtain ⟨v, hv⟩ := Option.isSome_iff_exists.mp
      ((hmark.trained_iff.mp htrained).resolve_left hne)
    obtain ⟨hvoutputs, hprefix, hfrom⟩ :=
      lastAgreeing_proposed (Or.inr ⟨head, rfl, hhead⟩) hv
    refine ⟨hretrain, ?_⟩
    rcases hfrom with rfl | hvhead
    · exact Or.inl hvoutputs
    · obtain rfl := StoredFile.config.inj (Except.ok.inj (hhead.symm.trans hvhead))
      rw [← List.map_singleton (f := fun node : TreeNode => node.key), ← List.map_append,
        hkeys] at hprefix
      exact Or.inr (List.IsPrefix.eq_of_length hprefix hlen.symm)
  · intro hsame node hnode
    obtain ⟨hretrain, hsame⟩ := hsame
    obtain ⟨before, after, hsplit⟩ := List.append_of_mem hnode
    have hmark := marks_of_candidate hinit hnodes hsplit
    have hprefix : before.map (·.key) ++ [node.key] <+: call.workspace.pipeline := by
      rw [← hkeys, hsplit]
      exact ⟨after.map (·.key), by simp⟩
    have hagrees : (TrialTree.lastAgreeing ([head, call.workspace].filter TrialTree.hasOutputs)
        (before.map (·.key) ++ [node.key])).isSome = true := by
      rcases hsame with hown | hsame
      · exact TrialTree.isSome_lastAgreeing (List.mem_filter.mpr ⟨by simp, hown⟩) hprefix
      · exact TrialTree.isSome_lastAgreeing (List.mem_filter.mpr ⟨by simp, houtputs⟩)
          (hsame ▸ hprefix)
    simp [skips, hmark.trained_iff.mpr (Or.inr hagrees), hretrain]

/-- So something is left to execute in the other cases. -/
theorem exists_left_iff {wsName : String} (hcall : WellFormedCall wsName call) {store : σ}
    (hlibrary : 2 ≤ call.workspace.pipeline.length) {head : WorkspaceMeta}
    (hhead : Storage.getBranchHead S .metaStorage store call.workspace.key = .ok (.config head))
    (houtputs : TrialTree.hasOutputs head = true)
    (hlen : head.pipeline.length = call.workspace.pipeline.length) {tree : TrialTree}
    (hinit : TrialTree.init call.order [head, call.workspace] = .ok tree) {nodes : List TreeNode}
    (hfirst : first tree.candidateNodeLists (fun nodes => equal nodes call.workspace.pipeline) =
      .ok nodes) :
    (∃ node ∈ nodes, skips m node = false) ↔ m.retrain = true ∨
      TrialTree.hasOutputs call.workspace = false ∧
        call.workspace.pipeline ≠ head.pipeline := by
  obtain ⟨hcandidate, hequal⟩ := first_ok hfirst
  have hkeys := map_key_of_equal hequal
    (length_candidate hcall hinit (Or.inr ⟨head, rfl, hhead⟩) hcandidate)
  have hall : (∀ node ∈ nodes, skips m node = true) ↔ m.retrain = false ∧
      (TrialTree.hasOutputs call.workspace = true ∨ call.workspace.pipeline = head.pipeline) :=
    forall_skips_iff hcall hlibrary hhead houtputs hlen hinit hcandidate hkeys
  have hnot := not_congr hall
  simp only [not_forall, Bool.not_eq_true, exists_prop, not_and_or, not_or,
    Bool.not_eq_false] at hnot
  exact hnot

/-! ### Whole calls

The two directions meet in the list of nodes that the tree gives for the pipeline: a call that
commits has trained them, so one of them was not skipped; and from one that is not skipped the
call goes through. -/

/-- The call commits the next version of its workspace behind the head. -/
def CommitsNext (m : Machine C) (S : PhysicalStore σ (StoredFile C)) (call : CommitCall C)
    (head : WorkspaceMeta) (world : World σ C) : Prop :=
  ∃ committed world', (commitWorkspace m S call).runFrom world = (.ok committed, world') ∧
    committed.pipeline = call.workspace.pipeline ∧
    committed.version = ⟨call.workspace.version.branch, head.version.apiVersion,
      head.version.incVersion + 1⟩ ∧
    Storage.getBranchHead S .metaStorage world'.store call.workspace.key =
      .ok (.config committed) ∧
    Storage.getSemanticVersion S .metaStorage world'.store committed.key =
      .ok (.config committed)

theorem putMeta_ok {w : WorkspaceMeta} {world world' : World σ C}
    (h : (putMeta S call w).runFrom world = (.ok (), world')) :
    world'.store = Storage.put S .metaStorage world.store w.key (.config w) := by
  obtain ⟨_, w₁, hstep, h⟩ := runFrom_bind_eq_ok_iff.mp h
  obtain ⟨_, _, hget, h⟩ := runFrom_bind_eq_ok_iff.mp h
  obtain ⟨rfl, rfl⟩ := runFrom_get_eq_ok_iff.mp hget
  obtain ⟨_, w₂, hmodify, h⟩ := runFrom_bind_eq_ok_iff.mp h
  obtain rfl := runFrom_modify_eq_ok_iff.mp hmodify
  obtain ⟨_, w₃, hstep', h⟩ := runFrom_bind_eq_ok_iff.mp h
  obtain ⟨-, rfl⟩ := Prod.mk.inj h
  show Storage.putVersion S .metaStorage w₃.store w.key _ = _
  rw [(step_ok hstep' []).store, (step_ok hstep []).store]
  rfl

/-- What is planned is what is proposed, and the first nodes of the tree for the pipeline. -/
theorem planCommit_of_propose {version : SemanticVersion} {tree : TrialTree}
    {world w₁ w₂ : World σ C}
    (hpropose : (propose S call).runFrom world = (.ok (version, tree), w₁))
    {proposed : SemanticVersion} {options : EnvOptions} {nodes : List TreeNode}
    (hplan : (planCommit S call).runFrom world = (.ok (proposed, options, nodes), w₂)) :
    proposed = version ∧
      first tree.candidateNodeLists (fun nodes => equal nodes call.workspace.pipeline) =
        .ok nodes := by
  obtain ⟨⟨proposed', tree'⟩, w₃, hpropose', hplan⟩ := runFrom_bind_eq_ok_iff.mp hplan
  rw [hpropose] at hpropose'
  obtain ⟨hpair, rfl⟩ := Prod.mk.inj hpropose'
  obtain ⟨rfl, rfl⟩ := Prod.mk.inj (Except.ok.inj hpair)
  obtain ⟨_, _, -, hplan⟩ := runFrom_bind_eq_ok_iff.mp hplan
  obtain ⟨nodes', _, hfirst, hplan⟩ := runFrom_bind_eq_ok_iff.mp hplan
  obtain ⟨hnodes, rfl⟩ := runFrom_ofExcept_eq_ok_iff.mp hfirst
  obtain ⟨_, _, -, hplan⟩ := runFrom_bind_eq_ok_iff.mp hplan
  obtain ⟨_, _, -, hplan⟩ := runFrom_bind_eq_ok_iff.mp hplan
  obtain ⟨hplan, -⟩ := runFrom_pure_eq_ok_iff.mp hplan
  obtain ⟨rfl, hrest⟩ := Prod.mk.inj hplan
  obtain ⟨-, rfl⟩ := Prod.mk.inj hrest
  exact ⟨rfl, hnodes⟩

theorem committed_stored {committed : WorkspaceMeta} {world world' : World σ C}
    {head : WorkspaceMeta} {tree : TrialTree} {w₁ : World σ C}
    (hpropose : (propose S call).runFrom world =
      (.ok (⟨call.workspace.version.branch, head.version.apiVersion,
        head.version.incVersion + 1⟩, tree), w₁))
    (h : (commitWorkspace m S call).runFrom world = (.ok committed, world')) :
    CommitsNext m S call head world := by
  have hrun := h
  unfold commitWorkspace at h
  obtain ⟨committed', w₂, hprepare, h⟩ := runFrom_bind_eq_ok_iff.mp h
  obtain ⟨_, w₃, hstep, h⟩ := runFrom_bind_eq_ok_iff.mp h
  obtain ⟨_, w₄, hput, h⟩ := runFrom_bind_eq_ok_iff.mp h
  obtain ⟨rfl, rfl⟩ := runFrom_pure_eq_ok_iff.mp h
  obtain ⟨⟨proposed, options, nodes⟩, w₅, hplan, hprepare⟩ := runFrom_bind_eq_ok_iff.mp hprepare
  obtain ⟨rfl, -⟩ := planCommit_of_propose hpropose hplan
  obtain ⟨_, _, -, hprepare⟩ := runFrom_bind_eq_ok_iff.mp hprepare
  obtain ⟨_, _, -, hprepare⟩ := runFrom_bind_eq_ok_iff.mp hprepare
  obtain ⟨_, _, -, hprepare⟩ := runFrom_bind_eq_ok_iff.mp hprepare
  obtain ⟨rfl, -⟩ := runFrom_pure_eq_ok_iff.mp hprepare
  refine ⟨_, _, hrun, rfl, rfl, ?_, ?_⟩
  · rw [putMeta_ok hput]
    exact Storage.getBranchHead_put _ _ _ _
  · rw [putMeta_ok hput]
    exact Storage.getSemanticVersion_put _ _ _ _

/-- What a call finds behind a head of the same length: the tree, and the nodes of its own
pipeline. -/
theorem exists_candidate {wsName : String} (hcall : WellFormedCall wsName call) {store : σ}
    (hown : TrialTree.Marks call.workspace) (hheads : HeadsRecorded m S wsName store)
    {head : WorkspaceMeta}
    (hhead : Storage.getBranchHead S .metaStorage store call.workspace.key = .ok (.config head))
    (hlen : head.pipeline.length = call.workspace.pipeline.length) :
    ∃ tree nodes, TrialTree.init call.order [head, call.workspace] = .ok tree ∧
      first tree.candidateNodeLists (fun nodes => equal nodes call.workspace.pipeline) =
        .ok nodes := by
  have hne : call.workspace.pipeline ≠ [] := by
    obtain ⟨dataset, libraries, hpipeline, -⟩ := hcall.pipeline
    rw [hpipeline]
    exact List.cons_ne_nil _ _
  have hmarks : TrialTree.Marks head := by
    intro houtputs key hkey hlibrary
    obtain ⟨-, hrecorded⟩ := hheads _ head hcall.name hhead houtputs
    obtain ⟨path, rest, hsplit⟩ := List.append_of_mem hkey
    obtain ⟨hversion, houtput, -⟩ := hrecorded.outputs path key rest hsplit hlibrary
    exact ⟨⟨hversion, houtput⟩, hrecorded.params key hkey⟩
  obtain ⟨tree, hinit⟩ : ∃ tree, TrialTree.init call.order [head, call.workspace] = .ok tree :=
    (@TrialTree.exists_init_iff _ _ _ call.workspace (by simp)
      (TrialTree.treeDepth_of_length_le hne hlen.le).le).mpr
      ⟨fun w hw => by
        rcases List.mem_cons.mp hw with rfl | hw
        · exact le_max_right _ _
        · rw [List.mem_singleton.mp hw, hlen]
          exact le_max_right _ _, by simp [hmarks, hown]⟩
  have hmem := (TrialTree.mem_candidateKeys_iff_linked hne hlen.le hinit).mpr
    fun i hi hle => absurd hi (by omega)
  obtain ⟨nodes, hnodes⟩ := TrialTree.exists_first hmem
  exact ⟨tree, nodes, hinit, hnodes⟩

/-- What is taken for the path of an executed node is its folder. -/
theorem isSome_folder_of_pathExists {options : EnvOptions} {skipped rest executed : List TreeNode}
    {path : List MetaKey} {world : World σ C}
    (hskipped : ∀ node ∈ skipped, world.pathExists m node.output = false)
    (hran : Executed m options world path rest executed) {node : TreeNode}
    (hnode : node ∈ (skipped ++ executed).map ({ · with trained := true }))
    (hexists : world.pathExists m node.output = true) :
    (world.folder node.output).isSome = true := by
  obtain ⟨node', hnode', rfl⟩ := List.mem_map.mp hnode
  rcases List.mem_append.mp hnode' with hnode' | hnode'
  · rw [hskipped node' hnode'] at hexists
    cases hexists
  · obtain ⟨before', after', hexecuted⟩ := List.append_of_mem hnode'
    obtain ⟨before, node, after, hrest, -, -, houtput⟩ := hran.split hexecuted
    obtain ⟨content, hfolder, -⟩ := hran.written before node after hrest
    show (world.folder node'.output).isSome = true
    rw [houtput, hfolder]
    rfl

/-- With something left to execute, the call gets as far as writing the config. -/
theorem returns_prepareCommit {wsName : String} (hcall : WellFormedCall wsName call)
    (hruns : RunsSucceed m call) {world : World σ C} (hmeets : Meets m S world.store call)
    (hheads : HeadsRecorded m S wsName world.store) (hnames : NamesNoPath m S world)
    {version : SemanticVersion} {workspaces : List WorkspaceMeta} {tree : TrialTree}
    (hinit : TrialTree.init call.order workspaces = .ok tree) {w₁ : World σ C}
    (hpropose : (propose S call).runFrom world = (.ok (version, tree), w₁))
    {nodes : List TreeNode}
    (hfirst : first tree.candidateNodeLists (fun nodes => equal nodes call.workspace.pipeline) =
      .ok nodes) (hleft : ∃ node ∈ nodes, skips m node = false) :
    Returns (prepareCommit m S call) world := by
  have hplanned : Returns (planCommit S call) world := by
    refine Returns.bind ⟨_, _, hpropose⟩ fun proposed w₂ hpropose' => ?_
    rw [hpropose] at hpropose'
    obtain ⟨hpair, rfl⟩ := Prod.mk.inj hpropose'
    obtain rfl := Except.ok.inj hpair
    refine (returns_prepareEnv hruns.faults _ _).bind fun _ _ _ => ?_
    refine (Returns.ofExcept ⟨nodes, hfirst⟩ _).bind fun _ _ _ => ?_
    refine (Returns.modify _ _).bind fun _ _ _ => ?_
    exact (returns_step hruns.faults none _).bind fun _ _ _ => Returns.pure _ _
  refine hplanned.bind fun plan w₂ hplan => ?_
  obtain ⟨proposed, options, nodes'⟩ := plan
  have hready := planCommit_ok hcall hmeets hheads hnames hplan
  obtain ⟨-, hnodes⟩ := planCommit_of_propose hpropose hplan
  obtain rfl := Except.ok.inj (hfirst.symm.trans hnodes)
  refine (returns_trainNodeList hruns hready hleft).bind fun trained w₃ htrain => ?_
  refine (Returns.get w₃).bind fun _ _ hget => ?_
  obtain ⟨rfl, rfl⟩ := runFrom_get_eq_ok_iff.mp hget
  refine Returns.bind ?_ fun _ _ _ => Returns.pure _ _
  have hnames' := hready.names.quiet ((quiet_trainNodeList hready).of_run htrain)
  obtain ⟨skipped, rest, executed, rfl, rfl, htrained, hran, -⟩ := trainNodeList_ok hready htrain
  -- What a skipped node says about its output is not a path.
  have hskipped : ∀ node ∈ skipped, w₃.pathExists m node.output = false := by
    intro node hnode
    obtain ⟨before, after, hsplit⟩ := List.append_of_mem (List.mem_append_left rest hnode)
    by_cases hlibrary : node.key.componentType = MetaKey.genericLibraryKey
    · exact hnames'.path _
        (hready.known before node after hsplit (htrained node hnode) hlibrary).2.1
    · obtain ⟨hcandidate, -⟩ := first_ok hfirst
      rw [((marks_of_candidate hinit hcandidate hsplit).unmarked (Or.inl hlibrary)).1]
      rfl
  have hkeys := (hran.map_trained skipped).trans hready.keys
  have hnodup := hcall.nodup_nodes hkeys
  have hread := hcall.read_node hkeys
  refine returns_savePipelineState hruns.faults ?_ ?_
  · intro s params hlookup
    obtain ⟨node, hnode, -, rfl, -⟩ := (lookup_executedParams hnodup).mp hlookup
    exact ⟨_, hread node hnode⟩
  · intro s path hlookup
    obtain ⟨node, hnode, hexists, rfl, rfl⟩ := (lookup_executedOutput hnodup).mp hlookup
    exact ⟨⟨_, hread node hnode⟩, isSome_folder_of_pathExists hskipped hran hnode hexists⟩

/-- A tree for the call is only built when the workspace handed in is complete. -/
theorem marks_of_propose {version : SemanticVersion} {tree : TrialTree} {world w₁ : World σ C}
    (hpropose : (propose S call).runFrom world = (.ok (version, tree), w₁)) :
    TrialTree.Marks call.workspace := by
  obtain ⟨workspaces, hinit, hproposed⟩ := propose_ok hpropose
  rcases hproposed with rfl | ⟨previous, rfl, -⟩
  · exact TrialTree.marks_of_init hinit _ (by simp)
  · exact TrialTree.marks_of_init hinit _ (by simp)

theorem commitsNext_iff {wsName : String} (hcall : WellFormedCall wsName call)
    (hruns : RunsSucceed m call) (hlibrary : 2 ≤ call.workspace.pipeline.length)
    {world : World σ C} {log : List WorkspaceMeta} (hmeets : Meets m S world.store call)
    (hsound : Sound m S wsName (world, log)) {head : WorkspaceMeta}
    (hhead : Storage.getBranchHead S .metaStorage world.store call.workspace.key =
      .ok (.config head))
    (houtputs : TrialTree.hasOutputs head = true)
    (hlen : head.pipeline.length = call.workspace.pipeline.length) :
    CommitsNext m S call head world ↔ TrialTree.Marks call.workspace ∧ (m.retrain = true ∨
      TrialTree.hasOutputs call.workspace = false ∧
        call.workspace.pipeline ≠ head.pipeline) := by
  constructor
  · intro hex
    obtain ⟨committed, world', hrun, -⟩ := hex
    obtain ⟨committed', w₂, hprepare, -⟩ := runFrom_bind_eq_ok_iff.mp hrun
    obtain ⟨⟨proposed, options, nodes⟩, w₃, hplan, hprepare⟩ := runFrom_bind_eq_ok_iff.mp hprepare
    obtain ⟨_, _, htrain, -⟩ := runFrom_bind_eq_ok_iff.mp hprepare
    obtain ⟨⟨version, tree'⟩, w₄, hpropose', -⟩ := runFrom_bind_eq_ok_iff.mp hplan
    have hown := marks_of_propose hpropose'
    refine ⟨hown, ?_⟩
    obtain ⟨tree, _, hinit, -⟩ := exists_candidate hcall hown hsound.heads hhead hlen
    obtain ⟨w₁, hpropose⟩ := propose_returns hruns.faults hhead hinit
    obtain ⟨-, hfirst⟩ := planCommit_of_propose hpropose hplan
    refine (exists_left_iff hcall hlibrary hhead houtputs hlen hinit hfirst).mp ?_
    by_contra hnone
    -- All nodes are skipped, so that the training fails.
    have hall : ∀ node ∈ nodes, skips m node = true := by
      intro node hnode
      by_contra hskip
      exact hnone ⟨node, hnode, by simpa using hskip⟩
    rw [trainNodeList_of_skips hall] at htrain
    cases (Prod.mk.inj htrain).1
  · intro hleft
    obtain ⟨hown, hleft⟩ := hleft
    obtain ⟨tree, nodes, hinit, hfirst⟩ := exists_candidate hcall hown hsound.heads hhead hlen
    obtain ⟨w₁, hpropose⟩ := propose_returns hruns.faults hhead hinit
    have hleft' := (exists_left_iff hcall hlibrary hhead houtputs hlen hinit hfirst).mpr hleft
    obtain ⟨committed, world', hrun⟩ : Returns (commitWorkspace m S call) world := by
      refine (returns_prepareCommit hcall hruns hmeets hsound.heads hsound.names hinit
        hpropose hfirst hleft').bind fun _ _ _ => ?_
      refine (returns_step hruns.faults none _).bind fun _ _ _ => ?_
      exact (returns_putMeta hruns.faults _ _).bind fun _ _ _ => Returns.pure _ _
    exact committed_stored hpropose hrun

/-- **Committing behind a head.** After any calls, a call for a pipeline as long as the head's, in
which all runs succeed, commits the next version exactly when the workspace handed in is complete
if it has outputs, and something is left to execute: everything is trained anew, or the workspace
has no outputs and its pipeline is not the head's own. -/
theorem recommit_succeeds_iff {wsName : String} {world world' : World σ C}
    {calls : List (CommitCall C)} {log : List WorkspaceMeta}
    (hcalls : Along (commitStep m S)
      (fun h call => WellFormedCall wsName call ∧ Meets m S h.1.store call) (world, []) calls)
    (hnames : NamesNoPath m S world)
    (hfresh : ∀ key head, key.toStringWithoutVersion = wsName →
      Storage.getBranchHead S .metaStorage world.store key = .ok (.config head) →
      TrialTree.hasOutputs head = false)
    (hexec : Exec (commitStep m S) (world, []) calls (world', log))
    (hcall : WellFormedCall wsName call) (hmeets : Meets m S world'.store call)
    (hruns : RunsSucceed m call) (hlibrary : 2 ≤ call.workspace.pipeline.length)
    {head : WorkspaceMeta}
    (hhead : Storage.getBranchHead S .metaStorage world'.store call.workspace.key =
      .ok (.config head))
    (houtputs : TrialTree.hasOutputs head = true)
    (hlen : head.pipeline.length = call.workspace.pipeline.length) :
    CommitsNext m S call head world' ↔ TrialTree.Marks call.workspace ∧ (m.retrain = true ∨
      TrialTree.hasOutputs call.workspace = false ∧
        call.workspace.pipeline ≠ head.pipeline) :=
  commitsNext_iff hcall hruns hlibrary hmeets (sound_of_exec hcalls hnames hfresh hexec) hhead
    houtputs hlen

/-! A pipeline that is committed once more, and one that shares its first library. -/

theorem runsSucceed_traceCall (libraries : List MetaKey) :
    RunsSucceed traceMachine (traceCall libraries) where
  faults := fun _ => rfl
  dataset := by
    intro key _ hdataset
    exact ⟨_, if_pos hdataset⟩
  library := fun _ _ _ => ⟨_, rfl⟩
  results := fun _ _ _ => rfl

def configOf : StoredFile C → Option WorkspaceMeta
  | .config w => some w
  | _ => none

theorem exists_config {x : Except PyError (StoredFile C)} {w : WorkspaceMeta}
    (h : x.toOption.bind configOf = some w) : x = .ok (.config w) := by
  obtain ⟨file, hfile, hconfig⟩ := Option.bind_eq_some_iff.mp h
  cases x with
  | error e => cases hfile
  | ok file' =>
      obtain rfl : file' = file := Option.some.inj hfile
      cases file' with
      | config w' => rw [Option.some.inj hconfig]
      | params p => cases hconfig
      | archive content => cases hconfig

/-- The head behind which the second calls are made. -/
theorem exists_traceHead : ∃ world' log head,
    Exec (commitStep traceMachine (Storage.logStore (StoredFile (List String))))
      (traceWorld, []) [traceCall [traceLibrary "a", traceLibrary "b"]] (world', log) ∧
    Storage.getBranchHead (Storage.logStore (StoredFile (List String))) .metaStorage
      world'.store (traceCall []).workspace.key = .ok (.config head) ∧
    TrialTree.hasOutputs head = true ∧
    head.pipeline = (traceCall [traceLibrary "a", traceLibrary "b"]).workspace.pipeline := by
  have hrun : ((exec (commitStep traceMachine (Storage.logStore (StoredFile (List String))))
      (traceWorld, []) [traceCall [traceLibrary "a", traceLibrary "b"]]).bind fun h =>
        (Storage.getBranchHead (Storage.logStore (StoredFile (List String))) .metaStorage
          h.1.store (traceCall []).workspace.key).toOption.bind configOf).map
            (fun head => (TrialTree.hasOutputs head, head.pipeline)) =
      some (true, (traceCall [traceLibrary "a", traceLibrary "b"]).workspace.pipeline) := by
    decide +kernel
  obtain ⟨head, hhead, hpair⟩ := Option.map_eq_some_iff.mp hrun
  obtain ⟨⟨world', log⟩, hexec, hhead⟩ := Option.bind_eq_some_iff.mp hhead
  obtain ⟨houtputs, hpipeline⟩ := Prod.mk.inj hpair
  exact ⟨world', log, head, exec_eq_some_iff.mp hexec, exists_config hhead, houtputs, hpipeline⟩

theorem otherLibrary_commits : ∃ world' log head,
    Exec (commitStep traceMachine (Storage.logStore (StoredFile (List String))))
      (traceWorld, []) [traceCall [traceLibrary "a", traceLibrary "b"]] (world', log) ∧
    CommitsNext traceMachine (Storage.logStore (StoredFile (List String)))
      (traceCall [traceLibrary "a", traceLibrary "c"]) head world' := by
  obtain ⟨world', log, head, hexec, hhead, houtputs, hpipeline⟩ := exists_traceHead
  refine ⟨world', log, head, hexec, ?_⟩
  have hmem : traceCall [traceLibrary "a", traceLibrary "c"] ∈ traceCalls :=
    List.mem_cons_of_mem _ List.mem_cons_self
  have hlen : head.pipeline.length =
      (traceCall [traceLibrary "a", traceLibrary "c"]).workspace.pipeline.length := by
    rw [hpipeline]
    rfl
  have hcommits := recommit_succeeds_iff (along_traceCalls (fun _ h => List.mem_cons.mpr
      (Or.inl (List.mem_singleton.mp h))) _) namesNoPath_traceWorld fresh_traceWorld hexec
    (wellFormed_traceCalls _ hmem) (meets_traceCalls _ _ hmem) (runsSucceed_traceCall _)
    (by decide) hhead houtputs hlen
  rw [hcommits, hpipeline]
  exact ⟨fun hown => absurd hown (by decide), Or.inr ⟨by decide, by decide⟩⟩

/-- The same pipeline once more: no component is left to execute. -/
theorem samePipeline_not_commits : ∃ world' log head,
    Exec (commitStep traceMachine (Storage.logStore (StoredFile (List String))))
      (traceWorld, []) [traceCall [traceLibrary "a", traceLibrary "b"]] (world', log) ∧
    Storage.getBranchHead (Storage.logStore (StoredFile (List String))) .metaStorage
      world'.store (traceCall []).workspace.key = .ok (.config head) ∧
    ¬ CommitsNext traceMachine (Storage.logStore (StoredFile (List String)))
      (traceCall [traceLibrary "a", traceLibrary "b"]) head world' := by
  obtain ⟨world', log, head, hexec, hhead, houtputs, hpipeline⟩ := exists_traceHead
  refine ⟨world', log, head, hexec, hhead, ?_⟩
  have hmem : traceCall [traceLibrary "a", traceLibrary "b"] ∈ traceCalls := List.mem_cons_self
  have hsound := sound_of_exec (along_traceCalls (fun _ h => List.mem_cons.mpr
    (Or.inl (List.mem_singleton.mp h))) _) namesNoPath_traceWorld fresh_traceWorld hexec
  have hcommits := commitsNext_iff (wellFormed_traceCalls _ hmem) (runsSucceed_traceCall _)
    (by decide) (meets_traceCalls _ _ hmem) hsound hhead houtputs (by rw [hpipeline])
  rw [hcommits, hpipeline]
  intro hnext
  obtain ⟨-, hretrain | ⟨-, hne⟩⟩ := hnext
  · exact absurd hretrain (by decide)
  · exact hne rfl

end SecCask.Pipeman.TrialManager
