import SecCask.Pipeman.Training

/-!
# SecCask.Pipeman.SavedState

The part of `commit_workspace` between the training and the config: the nodes are sorted by
whether their output is a path, the folders and parameters of the executed ones are put into
the runtime storages by `_save_pipeline_state`, and the maps that come back are merged with what
the skipped ones had. The keys of the nodes are printed and read back on the way, so that every
node finds its own entry again as long as they are all different; no put takes away what an
earlier one has stored (`Keeps`). Hence what is recorded of a single node (`savedNode_of_save`).
-/

namespace SecCask.Pipeman.TrialManager

open Effect

variable {σ C : Type} {m : Machine C} {S : PhysicalStore σ (StoredFile C)} {call : CommitCall C}

/-! ### Executed and skipped nodes -/

theorem foldl_addNode (world : World σ C) (nodes : List TreeNode) (dicts : NodeDicts) :
    nodes.foldl (addNode m world) dicts =
      let executed := nodes.filter fun node => world.pathExists m node.output
      let skipped := nodes.filter fun node => !world.pathExists m node.output
      { executedOutput := executed.foldl
          (fun d node => d.set node.key.toStringWithVersion node.output) dicts.executedOutput
        executedParams := executed.foldl
          (fun d node => d.set node.key.toStringWithVersion node.params) dicts.executedParams
        skippedOutput := skipped.foldl
          (fun d node => d.set node.key.toStringWithVersion node.output) dicts.skippedOutput
        skippedParams := skipped.foldl
          (fun d node => d.set node.key.toStringWithVersion node.params)
            dicts.skippedParams } := by
  induction nodes generalizing dicts with
  | nil => rfl
  | cons node rest ih =>
      rw [List.foldl_cons, ih]
      by_cases hpath : world.pathExists m node.output = true
      · simp [addNode, hpath]
      · simp [addNode, hpath]

section

variable {world : World σ C} {nodes : List TreeNode} {s : String}

theorem lookup_foldl_filter {V : Type} (value : TreeNode → V)
    (hnodup : (nodes.map fun node => node.key.toStringWithVersion).Nodup) (p : TreeNode → Bool)
    {v : V} : ((nodes.filter p).foldl (fun d node => d.set node.key.toStringWithVersion
      (value node)) (∅ : OrderedDict String V)).lookup s = some v ↔
        ∃ node ∈ nodes, p node = true ∧ node.key.toStringWithVersion = s ∧ value node = v := by
  rw [OrderedDict.lookup_foldl_set _ _ (hnodup.sublist (List.filter_sublist.map _))]
  simp [and_assoc]

variable (hnodup : (nodes.map fun node => node.key.toStringWithVersion).Nodup)

include hnodup

/-- The outputs of the executed nodes are paths, those of the skipped ones are not. -/
theorem lookup_executedOutput {output : String} :
    (nodes.foldl (addNode m world) ⟨∅, ∅, ∅, ∅⟩).executedOutput.lookup s = some output ↔
      ∃ node ∈ nodes, world.pathExists m node.output = true ∧
        node.key.toStringWithVersion = s ∧ node.output = output := by
  rw [foldl_addNode]
  exact lookup_foldl_filter _ hnodup _

theorem lookup_skippedOutput {output : String} :
    (nodes.foldl (addNode m world) ⟨∅, ∅, ∅, ∅⟩).skippedOutput.lookup s = some output ↔
      ∃ node ∈ nodes, (!world.pathExists m node.output) = true ∧
        node.key.toStringWithVersion = s ∧ node.output = output := by
  rw [foldl_addNode]
  exact lookup_foldl_filter _ hnodup _

theorem lookup_executedParams {params : Params} :
    (nodes.foldl (addNode m world) ⟨∅, ∅, ∅, ∅⟩).executedParams.lookup s = some params ↔
      ∃ node ∈ nodes, world.pathExists m node.output = true ∧
        node.key.toStringWithVersion = s ∧ node.params = params := by
  rw [foldl_addNode]
  exact lookup_foldl_filter _ hnodup _

theorem lookup_skippedParams {params : Params} :
    (nodes.foldl (addNode m world) ⟨∅, ∅, ∅, ∅⟩).skippedParams.lookup s = some params ↔
      ∃ node ∈ nodes, (!world.pathExists m node.output) = true ∧
        node.key.toStringWithVersion = s ∧ node.params = params := by
  rw [foldl_addNode]
  exact lookup_foldl_filter _ hnodup _

end

/-! ### Saving the pipeline's state -/

theorem keeps_runtimePut {kept : String → Prop} (world : World σ C) (name : String)
    (wsKey cpnKey : MetaKey) (file : StoredFile C) :
    Keeps S kept world { world with
      store := (Storage.runtimePut S name world.store wsKey cpnKey file).1 } where
  versions := fun _ _ _ hold => Storage.fileVersion_put hold _ _ _
  heads := fun key => Storage.getBranchHead_runtimePut _ _ _ _ _ key _
  folders := fun _ _ => rfl

section

variable {kept : String → Prop}

theorem keeps_saveEntry {V R : Type} {name : String} {wsKey : MetaKey}
    {action : V → Commit σ C (StoredFile C)} (haction : ∀ v, Within (Keeps S kept) (action v))
    (result : String → R) (results : OrderedDict String R) (e : Sigma fun _ : String => V) :
    Within (Keeps S kept) (saveEntry S call name wsKey action result results e) := by
  refine Within.bind (Within.ofExcept _) fun key => Within.bind (haction _) fun file => ?_
  refine Within.bind keeps_step_none fun _ => ?_
  intro world
  exact keeps_runtimePut world name wsKey key file

theorem keeps_saveState {V R : Type} {name : String} {wsKey : MetaKey}
    {action : V → Commit σ C (StoredFile C)} (haction : ∀ v, Within (Keeps S kept) (action v))
    (result : String → R) (value : OrderedDict String V) :
    Within (Keeps S kept) (saveState S call name wsKey action result value) :=
  Within.foldlM (f := saveEntry S call name wsKey action result)
    (fun e _ results => keeps_saveEntry haction result results e) ∅

theorem keeps_dumpParamsTo (params : Params) :
    Within (Keeps S kept) (dumpParamsTo (σ := σ) call params) :=
  Within.bind keeps_step_none fun _ => Within.pure _

theorem keeps_archiveLocalFolder (path : String) :
    Within (Keeps S kept) (archiveLocalFolder (σ := σ) call path) := by
  refine Within.bind keeps_step_none fun _ => Within.bind Within.get fun _ => ?_
  split
  · exact Within.pure _
  · exact Within.throw _

theorem keeps_savePipelineState (wsKey : MetaKey) (libParamsDict : OrderedDict String Params)
    (outputPathDict : OrderedDict String String) :
    Within (Keeps S kept) (savePipelineState S call wsKey libParamsDict outputPathDict) :=
  Within.bind (keeps_saveState keeps_dumpParamsTo _ _) fun _ =>
    Within.bind (keeps_saveState keeps_archiveLocalFolder _ _) fun _ => Within.pure _

end

/-- What has been saved for an entry: the file that its value was dumped to, under the key
that was read. -/
def Saved {V R : Type} (S : PhysicalStore σ (StoredFile C)) (name : String) (wsKey : MetaKey)
    (action : V → Commit σ C (StoredFile C)) (result : String → R) (world world' : World σ C)
    (results : OrderedDict String R) (e : Sigma fun _ : String => V) : Prop :=
  ∃ key hversion file w₁ w₂, MetaKey.buildFromString e.1 = some key ∧
    results.lookup e.1 = some (result hversion) ∧ VersionName S hversion ∧
    Keeps S (fun _ => True) world w₁ ∧ (action e.2).runFrom w₁ = (.ok file, w₂) ∧
    Storage.runtimeGet S name world'.store wsKey key hversion = .ok file

section

variable {V R : Type} {name : String} {wsKey : MetaKey} {action : V → Commit σ C (StoredFile C)}
  {result : String → R}

theorem saveEntry_ok {results results' : OrderedDict String R} {e : Sigma fun _ : String => V}
    {world world' : World σ C}
    (h : (saveEntry S call name wsKey action result results e).runFrom world =
      (.ok results', world')) :
    ∃ key hversion file w₂, MetaKey.buildFromString e.1 = some key ∧
      results' = results.set key.toStringWithVersion (result hversion) ∧
      VersionName S hversion ∧ (action e.2).runFrom world = (.ok file, w₂) ∧
      Storage.runtimeGet S name world'.store wsKey key hversion = .ok file := by
  unfold saveEntry at h
  obtain ⟨key, _, hread, h⟩ := runFrom_bind_eq_ok_iff.mp h
  obtain ⟨hkey, rfl⟩ := runFrom_ofExcept_eq_ok_iff.mp hread
  obtain ⟨file, w₁, haction, h⟩ := runFrom_bind_eq_ok_iff.mp h
  obtain ⟨_, w₂, hstep, h⟩ := runFrom_bind_eq_ok_iff.mp h
  obtain ⟨_, _, hget, h⟩ := runFrom_bind_eq_ok_iff.mp h
  obtain ⟨rfl, rfl⟩ := runFrom_get_eq_ok_iff.mp hget
  obtain ⟨_, w₃, hmodify, h⟩ := runFrom_bind_eq_ok_iff.mp h
  obtain rfl := runFrom_modify_eq_ok_iff.mp hmodify
  obtain ⟨rfl, rfl⟩ := runFrom_pure_eq_ok_iff.mp h
  split at hkey
  · rename_i hbuild
    obtain rfl := Except.ok.inj hkey
    exact ⟨_, _, file, w₁, hbuild, rfl, ⟨_, _, _, _, rfl⟩, haction,
      Storage.runtimeGet_runtimePut _ _ _ _ _⟩
  · cases hkey

theorem saveEntries_ok (haction : ∀ v, Within (Keeps S (fun _ => True)) (action v))
    {l : List (Sigma fun _ : String => V)} (hnodup : (l.map (·.1)).Nodup)
    (hparse : ∀ e ∈ l, ∀ key, MetaKey.buildFromString e.1 = some key →
      key.toStringWithVersion = e.1)
    {results results' : OrderedDict String R} {world world' : World σ C}
    (h : (l.foldlM (saveEntry S call name wsKey action result) results).runFrom world =
      (.ok results', world')) :
    (∀ s, s ∉ l.map (·.1) → results'.lookup s = results.lookup s) ∧
      ∀ e ∈ l, Saved S name wsKey action result world world' results' e := by
  induction l generalizing results world with
  | nil =>
      obtain ⟨rfl, rfl⟩ := runFrom_pure_eq_ok_iff.mp h
      exact ⟨fun _ _ => rfl, fun _ he => absurd he List.not_mem_nil⟩
  | cons e l ih =>
      rw [List.foldlM_cons] at h
      obtain ⟨results₁, w₁, hentry, h⟩ := runFrom_bind_eq_ok_iff.mp h
      have hfirst : Keeps S (fun _ => True) world w₁ :=
        (keeps_saveEntry haction result results e).of_run hentry
      have hothers : Keeps S (fun _ => True) w₁ world' :=
        (Within.foldlM (fun e _ results => keeps_saveEntry haction result results e)
          results₁).of_run h
      obtain ⟨key, hversion, file, w₂, hkey, rfl, hname, hfile, hget⟩ := saveEntry_ok hentry
      rw [List.map_cons, List.nodup_cons] at hnodup
      obtain ⟨hlookup, hsaved⟩ := ih hnodup.2 (fun e he => hparse e (by simp [he])) h
      rw [hparse e (by simp) key hkey] at hlookup
      refine ⟨?_, ?_⟩
      · intro s hs
        rw [List.map_cons, List.mem_cons, not_or] at hs
        rw [hlookup s hs.2, OrderedDict.lookup_set, if_neg hs.1]
      · intro e' he'
        rcases List.mem_cons.mp he' with rfl | he'
        · refine ⟨key, hversion, file, world, w₂, hkey, ?_, hname, Std.Refl.refl _, hfile,
            hothers.versions _ _ _ hget⟩
          rw [hlookup _ hnodup.1, OrderedDict.lookup_set, if_pos rfl]
        · obtain ⟨key', hversion', file', w₃, w₄, hkey', hlookup', hname', hkeeps', hfile',
            hget'⟩ := hsaved e' he'
          exact ⟨key', hversion', file', w₃, w₄, hkey', hlookup', hname',
            IsTrans.trans _ _ _ hfirst hkeeps', hfile', hget'⟩

theorem saveState_ok (haction : ∀ v, Within (Keeps S (fun _ => True)) (action v))
    {value : OrderedDict String V}
    (hparse : ∀ s v, value.lookup s = some v → ∀ key, MetaKey.buildFromString s = some key →
      key.toStringWithVersion = s)
    {results : OrderedDict String R} {world world' : World σ C}
    (h : (saveState S call name wsKey action result value).runFrom world =
      (.ok results, world')) :
    ∀ s v, value.lookup s = some v →
      Saved S name wsKey action result world world' results ⟨s, v⟩ := by
  obtain ⟨-, hsaved⟩ := saveEntries_ok haction value.nodupKeys
    (fun e he => hparse e.1 e.2 (AList.mem_lookup_iff.mpr he)) h
  exact fun s v hlookup => hsaved ⟨s, v⟩ (AList.mem_lookup_iff.mp hlookup)

end

theorem archiveLocalFolder_ok {path : String} {file : StoredFile C} {world world' : World σ C}
    (h : (archiveLocalFolder call path).runFrom world = (.ok file, world')) :
    ∃ content, file = .archive content ∧ world.folder path = some content := by
  obtain ⟨_, w₁, hstep, h⟩ := runFrom_bind_eq_ok_iff.mp h
  obtain ⟨_, _, hget, h⟩ := runFrom_bind_eq_ok_iff.mp h
  obtain ⟨rfl, rfl⟩ := runFrom_get_eq_ok_iff.mp hget
  split at h
  · rename_i content hfolder
    obtain ⟨rfl, rfl⟩ := runFrom_pure_eq_ok_iff.mp h
    refine ⟨content, rfl, ?_⟩
    rw [← (step_ok hstep []).folders _ List.not_mem_nil]
    exact hfolder
  · cases (Prod.mk.inj h).1

theorem savePipelineState_ok {wsKey : MetaKey} {libParams : OrderedDict String Params}
    {outputPaths : OrderedDict String String}
    (hparams : ∀ s params, libParams.lookup s = some params →
      ∀ key, MetaKey.buildFromString s = some key → key.toStringWithVersion = s)
    (hpaths : ∀ s path, outputPaths.lookup s = some path →
      ∀ key, MetaKey.buildFromString s = some key → key.toStringWithVersion = s)
    {hpMap : OrderedDict String Params} {outMap : OrderedDict String String}
    {world world' : World σ C}
    (h : (savePipelineState S call wsKey libParams outputPaths).runFrom world =
      (.ok (hpMap, outMap), world')) :
    (∀ s params, libParams.lookup s = some params →
      ∃ hversion, hpMap.lookup s = some (.hversion hversion)) ∧
    ∀ s path, outputPaths.lookup s = some path →
      ∃ key hversion content, MetaKey.buildFromString s = some key ∧
        outMap.lookup s = some hversion ∧ VersionName S hversion ∧
        world.folder path = some content ∧
        Storage.runtimeGet S "output" world'.store wsKey key hversion =
          .ok (.archive content) := by
  obtain ⟨hpMap', w₁, hsaveParams, h⟩ := runFrom_bind_eq_ok_iff.mp h
  obtain ⟨outMap', w₂, hsaveOutputs, h⟩ := runFrom_bind_eq_ok_iff.mp h
  obtain ⟨hpair, rfl⟩ := runFrom_pure_eq_ok_iff.mp h
  obtain ⟨rfl, rfl⟩ := Prod.mk.inj hpair
  have hkeeps : Keeps S (fun _ => True) world w₁ :=
    (keeps_saveState keeps_dumpParamsTo _ _).of_run hsaveParams
  refine ⟨?_, ?_⟩
  · intro s params hlookup
    obtain ⟨_, hversion, _, _, _, -, hresult, -⟩ :=
      saveState_ok keeps_dumpParamsTo hparams hsaveParams s params hlookup
    exact ⟨hversion, hresult⟩
  · intro s path hlookup
    obtain ⟨key, hversion, file, w₃, w₄, hkey, hresult, hname, hkeeps', hfile, hget⟩ :=
      saveState_ok keeps_archiveLocalFolder hpaths hsaveOutputs s path hlookup
    obtain ⟨content, rfl, hfolder⟩ := archiveLocalFolder_ok hfile
    rw [hkeeps'.folders _ trivial, hkeeps.folders _ trivial] at hfolder
    exact ⟨key, hversion, content, hkey, hresult, hname, hfolder, hget⟩

/-! ### What is recorded of a node -/

/-- What the two maps of a commit say about a node, and what has been stored for it: a new version
of the folder of an executed component, or the output that the node had before. -/
structure SavedNode (m : Machine C) (S : PhysicalStore σ (StoredFile C)) (world world' : World σ C)
    (wsKey : MetaKey) (outMap : OrderedDict String String) (hpMap : OrderedDict String Params)
    (node : TreeNode) : Prop where
  executed : world.pathExists m node.output = true → ∃ hversion content,
    outMap.lookup node.key.toStringWithVersion = some hversion ∧ VersionName S hversion ∧
    world.folder node.output = some content ∧
    Storage.runtimeGet S "output" world'.store wsKey node.key hversion = .ok (.archive content)
  skipped : world.pathExists m node.output = false →
    outMap.lookup node.key.toStringWithVersion = some node.output
  params : (hpMap.lookup node.key.toStringWithVersion).isSome = true

theorem savedNode_of_save {nodes : List TreeNode} {wsKey : MetaKey} {world world' : World σ C}
    (hnodup : (nodes.map fun node => node.key.toStringWithVersion).Nodup)
    (hread : ∀ node ∈ nodes,
      MetaKey.buildFromString node.key.toStringWithVersion = some node.key)
    {hpMap : OrderedDict String Params} {outMap : OrderedDict String String}
    (hsave : (savePipelineState S call wsKey
      (nodes.foldl (addNode m world) ⟨∅, ∅, ∅, ∅⟩).executedParams
      (nodes.foldl (addNode m world) ⟨∅, ∅, ∅, ∅⟩).executedOutput).runFrom world =
        (.ok (hpMap, outMap), world')) {node : TreeNode} (hnode : node ∈ nodes) :
    SavedNode m S world world' wsKey
      (outMap.update (nodes.foldl (addNode m world) ⟨∅, ∅, ∅, ∅⟩).skippedOutput)
      (hpMap.update (nodes.foldl (addNode m world) ⟨∅, ∅, ∅, ∅⟩).skippedParams) node := by
  have hprinted : ∀ node ∈ nodes, ∀ key,
      MetaKey.buildFromString node.key.toStringWithVersion = some key →
        key.toStringWithVersion = node.key.toStringWithVersion := by
    intro node hnode key hkey
    rw [hread node hnode] at hkey
    rw [Option.some.inj hkey]
  obtain ⟨hsavedParams, hsaved⟩ := savePipelineState_ok (by
    intro s params hlookup
    obtain ⟨node, hnode, -, rfl, -⟩ := (lookup_executedParams hnodup).mp hlookup
    exact hprinted node hnode) (by
    intro s path hlookup
    obtain ⟨node, hnode, -, rfl, -⟩ := (lookup_executedOutput hnodup).mp hlookup
    exact hprinted node hnode) hsave
  refine ⟨fun hexists => ?_, fun hmissing => ?_, ?_⟩
  · obtain ⟨key, hversion, content, hbuild, hresult, hname, hfolder, hget⟩ :=
      hsaved _ _ ((lookup_executedOutput hnodup).mpr ⟨node, hnode, hexists, rfl, rfl⟩)
    obtain rfl := Option.some.inj ((hread node hnode).symm.trans hbuild)
    refine ⟨hversion, content, ?_, hname, hfolder, hget⟩
    rw [OrderedDict.lookup_update]
    -- Its key is that of no skipped node.
    cases hskipped : ((nodes.foldl (addNode m world) ⟨∅, ∅, ∅, ∅⟩).skippedOutput.lookup
      node.key.toStringWithVersion) with
    | none => exact hresult
    | some output =>
        obtain ⟨other, hother, hnot, hsame, -⟩ := (lookup_skippedOutput hnodup).mp hskipped
        obtain rfl := List.inj_on_of_nodup_map hnodup hother hnode hsame
        rw [hexists] at hnot
        cases hnot
  · rw [OrderedDict.lookup_update, (lookup_skippedOutput hnodup).mpr
      ⟨node, hnode, by simp [hmissing], rfl, rfl⟩, Option.some_or]
  · rw [OrderedDict.lookup_update, Option.isSome_or, Bool.or_eq_true]
    by_cases hexists : world.pathExists m node.output = true
    · obtain ⟨hversion, hresult⟩ := hsavedParams _ _
        ((lookup_executedParams hnodup).mpr ⟨node, hnode, hexists, rfl, rfl⟩)
      rw [hresult]
      exact Or.inr rfl
    · rw [(lookup_skippedParams hnodup).mpr ⟨node, hnode, by simp [hexists], rfl, rfl⟩]
      exact Or.inl rfl

end SecCask.Pipeman.TrialManager
