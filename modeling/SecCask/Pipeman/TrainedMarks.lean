import SecCask.Pipeman.Candidates

/-!
# SecCask.Pipeman.TrainedMarks

What the nodes of a trial tree say about earlier training. A node is marked by exactly the
workspaces whose pipelines start with the components on the way to it, and it carries what
the last of them recorded.
-/

namespace SecCask.Pipeman.TrialTree

/-- The last of the workspaces whose pipeline starts with the components on the path. -/
def lastAgreeing (done : List WorkspaceMeta) (path : List MetaKey) : Option WorkspaceMeta :=
  done.reverse.find? fun v => path.isPrefixOf v.pipeline

theorem lastAgreeing_snoc (done : List WorkspaceMeta) (v : WorkspaceMeta) (path : List MetaKey) :
    lastAgreeing (done ++ [v]) path =
      if path <+: v.pipeline then some v else lastAgreeing done path := by
  rw [lastAgreeing, List.reverse_append]
  by_cases hv : path <+: v.pipeline
  · simp [hv]
  · simp [hv, lastAgreeing]

theorem mem_of_lastAgreeing {done : List WorkspaceMeta} {v : WorkspaceMeta} {path : List MetaKey}
    (h : lastAgreeing done path = some v) : v ∈ done ∧ path <+: v.pipeline := by
  refine ⟨?_, ?_⟩
  · simpa using List.mem_of_find?_eq_some h
  · simpa using List.find?_some h

theorem isSome_lastAgreeing {done : List WorkspaceMeta} {v : WorkspaceMeta} {path : List MetaKey}
    (hv : v ∈ done) (hpath : path <+: v.pipeline) : (lastAgreeing done path).isSome := by
  rw [lastAgreeing, List.find?_isSome]
  exact ⟨v, by simpa using hv, by simpa using hpath⟩

/-- The node at a path after marking what the workspaces in `done` have trained. -/
structure TrainedFrom (done : List WorkspaceMeta) (path : List MetaKey) (n : TreeNode) :
    Prop where
  trained_iff : n.trained = true ↔
    n.key.componentType = MetaKey.genericDatasetKey ∨ (lastAgreeing done path).isSome
  wsKey_eq : n.wsKey = (lastAgreeing done path).map (·.key)
  marked : ∀ v, n.key.componentType = MetaKey.genericLibraryKey →
    lastAgreeing done path = some v →
    v.outputOf n.key.toStringWithVersion = .ok n.output ∧
      v.paramsOf n.key.toStringWithVersion = .ok n.params
  unmarked : n.key.componentType ≠ MetaKey.genericLibraryKey ∨ lastAgreeing done path = none →
    n.output = "" ∧ n.params = .dict ∅

theorem TrainedFrom.congr {done done' : List WorkspaceMeta} {path path' : List MetaKey}
    {n : TreeNode} (hn : TrainedFrom done path n)
    (h : lastAgreeing done' path' = lastAgreeing done path) : TrainedFrom done' path' n := by
  obtain ⟨htrained, hkey, hmarked, hunmarked⟩ := hn
  constructor <;> rw [h] <;> assumption

theorem trainedFrom_new (path : List MetaKey) (key : MetaKey) :
    TrainedFrom [] path
      (TreeNode.new key (decide (key.componentType = MetaKey.genericDatasetKey))) where
  trained_iff := by simp [TreeNode.new, lastAgreeing]
  wsKey_eq := rfl
  marked := by
    intro v _ hv
    cases hv
  unmarked := fun _ => ⟨rfl, rfl⟩

theorem TrainedFrom.prune {done : List WorkspaceMeta} {path : List MetaKey} {n : TreeNode}
    (hn : TrainedFrom done path n) : TrainedFrom done path { n with pruned := true } :=
  ⟨hn.trained_iff, hn.wsKey_eq, hn.marked, hn.unmarked⟩

/-- A workspace leaves the marks beside its own pipeline as they are. -/
theorem TrainedFrom.snoc_of_not {done : List WorkspaceMeta} {path : List MetaKey} {n : TreeNode}
    {v : WorkspaceMeta} (hn : TrainedFrom done path n) (hpath : ¬ path <+: v.pipeline) :
    TrainedFrom (done ++ [v]) path n :=
  hn.congr (by rw [lastAgreeing_snoc, if_neg hpath])

theorem trainedFrom_markNode {done : List WorkspaceMeta} {path : List MetaKey} {n n' : TreeNode}
    {v : WorkspaceMeta} (hn : TrainedFrom done path n) (hpath : path <+: v.pipeline)
    (h : markNode v n = .ok n') : TrainedFrom (done ++ [v]) path n' := by
  have hlast : lastAgreeing (done ++ [v]) path = some v := by rw [lastAgreeing_snoc, if_pos hpath]
  unfold markNode at h
  split at h
  · -- A library takes over what the workspace recorded for it.
    rename_i hlibrary
    obtain ⟨output, houtput, h⟩ := bind_eq_ok_iff.mp h
    obtain ⟨params, hparams, h⟩ := bind_eq_ok_iff.mp h
    obtain rfl := Except.ok.inj h
    refine ⟨by simp [hlast], by simp [hlast], ?_, ?_⟩
    · intro u _ hu
      obtain rfl := Option.some.inj (hlast.symm.trans hu)
      exact ⟨houtput, hparams⟩
    · intro hor
      rcases hor with hne | hnone
      · exact absurd hlibrary hne
      · simp [hlast] at hnone
  · rename_i hlibrary
    obtain rfl := Except.ok.inj h
    refine ⟨by simp [hlast], by simp [hlast], ?_, ?_⟩
    · intro u hu
      exact absurd hu hlibrary
    · intro _
      exact hn.unmarked (Or.inl hlibrary)

/-! ### The whole tree -/

/-- `_mark_trained_routine` follows the workspace's pipeline, and marks the nodes on it. -/
theorem everywhere_markTrainedRoutine {v : WorkspaceMeta} {done : List WorkspaceMeta}
    {ks : List MetaKey} {stages rest : List (List MetaKey)} {path : List MetaKey} {t t' : Tree}
    (h : markTrainedRoutine v ks t = .ok t') (hpath : path ++ ks = v.pipeline)
    (hks : List.Forall₂ (· ∈ ·) ks stages) (hnodup : ∀ s ∈ stages, s.Nodup)
    (hgrid : t.Grid (·.key) (stages ++ rest))
    (ht : t.Everywhere (·.key) (TrainedFrom done) path) :
    t'.Everywhere (·.key) (TrainedFrom (done ++ [v])) path := by
  induction hks generalizing path t t' with
  | nil =>
      obtain rfl := Except.ok.inj h
      -- The pipeline ends here, and all further nodes are beyond it.
      refine ht.imp fun k tail n hn => hn.snoc_of_not ?_
      intro hlong
      have hle := hlong.length_le
      rw [← hpath] at hle
      simp only [List.length_append, List.length_cons, List.length_nil] at hle
      omega
  | @cons key stage ks stages hkey hks ih =>
      cases t with
      | node a cs =>
          obtain ⟨hperm, hchildren⟩ := hgrid
          rw [RoseTree.children_node] at hperm hchildren
          rw [markTrainedRoutine] at h
          split at h
          · -- Every key of the stage has a child.
            rename_i hdrop
            obtain ⟨c, hc, hckey⟩ := List.mem_map.mp (hperm.symm.subset hkey)
            exact absurd hckey.symm (by simpa using List.dropWhile_eq_nil_iff.mp hdrop c hc)
          · rename_i child after hdrop
            obtain ⟨marked, hmarked, h⟩ := bind_eq_ok_iff.mp h
            obtain ⟨child', hchild', h⟩ := bind_eq_ok_iff.mp h
            obtain rfl := Except.ok.inj h
            obtain ⟨hsplit, hchildKey⟩ := split_of_dropWhile hdrop
            generalize (cs.takeWhile fun c => decide (key ≠ c.label.key)) = before at hsplit ⊢
            subst hsplit
            have hmem : child ∈ before ++ child :: after := by simp
            obtain ⟨hlabel', -⟩ := grid_markTrainedRoutine hchild'
            have hlabelKey : child'.label.key = key := by
              rw [hlabel']
              exact (key_markNode hmarked).trans hchildKey
            have hkeys : ((before ++ child :: after).map fun c => c.label.key).Nodup :=
              hperm.nodup_iff.mpr (hnodup stage (by simp))
            rw [List.map_append, List.map_cons, List.nodup_middle, hchildKey, List.nodup_cons,
              ← List.map_append] at hkeys
            -- The siblings lie beside the pipeline, with all that is below them.
            have hother : ∀ e ∈ before ++ after,
                e ∈ before ++ child :: after ∧ e.label.key ≠ key := by
              intro e he
              refine ⟨?_, ?_⟩
              · rcases List.mem_append.mp he with he | he <;> simp [he]
              · intro heq
                exact hkeys.1 (heq ▸ List.mem_map_of_mem he)
            have hbeside : ∀ k, k ≠ key → ∀ tail : List MetaKey,
                ¬ path ++ k :: tail <+: v.pipeline := by
              intro k hk tail hlong
              rw [← hpath, List.prefix_append_right_inj, List.cons_prefix_cons] at hlong
              exact hk hlong.1
            have hon : path ++ [key] <+: v.pipeline := by
              rw [← hpath, List.prefix_append_right_inj]
              simp
            refine .replace_child ?_ ?_ ?_
            · intro e he
              obtain ⟨hmem, hne⟩ := hother e he
              refine ⟨(ht.label e hmem).snoc_of_not (hbeside _ hne []), ?_⟩
              refine (ht.child e hmem).imp fun k tail n hn => hn.snoc_of_not ?_
              rw [List.append_assoc]
              exact hbeside _ hne (k :: tail)
            · rw [hlabelKey, hlabel']
              have hnode := ht.label child hmem
              rw [hchildKey] at hnode
              exact trainedFrom_markNode hnode hon hmarked
            · rw [hlabelKey]
              have hbelow := ht.child child hmem
              rw [hchildKey] at hbelow
              refine ih hchild' (by rw [List.append_assoc]; exact hpath)
                (fun s hs => hnodup s (by simp [hs]))
                ((hchildren child hmem).relabel marked) (hbelow.relabel marked)

/-- The workspaces that have been committed with outputs. -/
def hasOutputs (w : WorkspaceMeta) : Bool := w.outputs.any fun outputs => outputs.len ≠ 0

theorem everywhere_markIfTrained {v : WorkspaceMeta} {done : List WorkspaceMeta}
    {stages rest : List (List MetaKey)} {t t' : Tree} (h : markIfTrained t v = .ok t')
    (hks : List.Forall₂ (· ∈ ·) v.pipeline stages) (hnodup : ∀ s ∈ stages, s.Nodup)
    (hgrid : t.Grid (·.key) (stages ++ rest))
    (ht : t.Everywhere (·.key) (TrainedFrom done) []) :
    t'.Everywhere (·.key) (TrainedFrom (done ++ [v].filter hasOutputs)) [] := by
  unfold markIfTrained at h
  split at h
  · rename_i hnone
    obtain rfl := Except.ok.inj h
    simpa [hasOutputs, hnone] using ht
  · rename_i outputs hsome
    split at h
    · rename_i hlen
      have hv : [v].filter hasOutputs = [v] := by simp [hasOutputs, hsome, hlen]
      rw [hv]
      exact everywhere_markTrainedRoutine h rfl hks hnodup hgrid ht
    · rename_i hlen
      obtain rfl := Except.ok.inj h
      have hv : [v].filter hasOutputs = [] := by simpa [hasOutputs, hsome] using hlen
      simpa [hv] using ht

/-- The pipeline has its components in the stages, one by one. -/
def Fits (stages : List (List MetaKey)) (w : WorkspaceMeta) : Prop :=
  List.Forall₂ (· ∈ ·) w.pipeline (stages.take w.pipeline.length)

theorem everywhere_markAll {workspaces done : List WorkspaceMeta} {stages : List (List MetaKey)}
    {t t' : Tree} (h : workspaces.foldlM markIfTrained t = .ok t')
    (hfits : ∀ w ∈ workspaces, Fits stages w) (hnodup : ∀ s ∈ stages, s.Nodup)
    (hgrid : t.Grid (·.key) stages) (ht : t.Everywhere (·.key) (TrainedFrom done) []) :
    t'.Everywhere (·.key) (TrainedFrom (done ++ workspaces.filter hasOutputs)) [] := by
  induction workspaces generalizing done t with
  | nil =>
      obtain rfl := Except.ok.inj h
      simpa using ht
  | cons w ws ih =>
      rw [List.foldlM_cons] at h
      obtain ⟨u, hu, h⟩ := bind_eq_ok_iff.mp h
      have hmarked := everywhere_markIfTrained hu (hfits w (by simp))
        (fun s hs => hnodup s (List.mem_of_mem_take hs))
        ((List.take_append_drop w.pipeline.length stages).symm ▸ hgrid) ht
      have hrest := ih h (fun v hv => hfits v (by simp [hv])) ((grid_markIfTrained hu).2 _ hgrid)
        hmarked
      rwa [List.append_assoc, ← List.filter_append] at hrest

theorem length_le_treeDepth {workspaces : List WorkspaceMeta} {w : WorkspaceMeta}
    (hw : w ∈ workspaces) : w.pipeline.length ≤ treeDepth workspaces := by
  have hfold : ∀ ws : List WorkspaceMeta, ∀ depth,
      depth ≤ ws.foldl (fun depth w => max depth (w.pipeline.length - 1)) depth ∧
      ∀ v ∈ ws, v.pipeline.length - 1 ≤
        ws.foldl (fun depth w => max depth (w.pipeline.length - 1)) depth := by
    intro ws
    induction ws with
    | nil => simp
    | cons v ws ih =>
        intro depth
        rw [List.foldl_cons]
        obtain ⟨hle, hall⟩ := ih (max depth (v.pipeline.length - 1))
        refine ⟨(le_max_left _ _).trans hle, ?_⟩
        intro u hu
        rcases List.mem_cons.mp hu with rfl | hu
        · exact (le_max_right _ _).trans hle
        · exact hall u hu
  have hlast := (hfold workspaces 0).2 w hw
  rw [treeDepth]
  omega

theorem fits_stageDict {workspaces : List WorkspaceMeta} {w : WorkspaceMeta}
    (hw : w ∈ workspaces) :
    Fits ((List.range (treeDepth workspaces)).map (stageDict workspaces)) w := by
  have hle := length_le_treeDepth hw
  rw [Fits, List.forall₂_iff_get]
  refine ⟨by simp [hle], ?_⟩
  intro i hi _
  simp only [List.get_eq_getElem, List.getElem_take, List.getElem_map, List.getElem_range,
    mem_stageDict]
  exact ⟨w, hw, List.getElem?_eq_getElem hi⟩

/-- Every node of every candidate is marked by the workspaces with outputs whose pipelines agree
with the candidate up to the node. -/
theorem trainedFrom_of_mem_candidates {order : SetOrder} {workspaces : List WorkspaceMeta}
    {t : TrialTree} (h : init order workspaces = .ok t) {nodes : List TreeNode}
    (hnodes : nodes ∈ t.candidateNodeLists) (i : ℕ) (hi : i < nodes.length) :
    TrainedFrom (workspaces.filter hasOutputs) ((nodes.take (i + 1)).map (·.key)) nodes[i] := by
  obtain ⟨built, marked, -, hbuilt, hmarked, hwalks, -⟩ := exists_marked_of_init h
  have hstages : ∀ s ∈ (List.range (treeDepth workspaces)).map (stageDict workspaces),
      s.Nodup := by
    intro s hs
    obtain ⟨i, -, rfl⟩ := List.mem_map.mp hs
    exact nodup_stageDict workspaces i
  have hbuiltFrom : built.Everywhere (·.key) (TrainedFrom []) [] :=
    everywhere_addNodes (fun path key => trainedFrom_new _ key) hbuilt
  have hpruned : (dfsPrune t.compDict [] built).1.Everywhere (·.key) (TrainedFrom []) [] :=
    everywhere_dfsPrune (fun _ _ _ _ _ hn => hn.prune) hbuiltFrom
      (by rw [(grid_addNodes hbuilt).2.1]; rfl) []
  have hall := everywhere_markAll hmarked (fun w hw => fits_stageDict hw) hstages
    (grid_dfsPrune t.compDict [] (grid_addNodes hbuilt).1)
    hpruned
  rw [hwalks] at hnodes
  exact hall.of_walk hnodes i hi

/-- A candidate has a component for every stage. -/
theorem length_of_mem_candidates {order : SetOrder} {workspaces : List WorkspaceMeta}
    {t : TrialTree} (h : init order workspaces = .ok t) {nodes : List TreeNode}
    (hnodes : nodes ∈ t.candidateNodeLists) : nodes.length = treeDepth workspaces := by
  have hkeys := ((mem_candidateKeys_iff h).mp (List.mem_map_of_mem hnodes)).1
  simpa using hkeys.length_eq

/-- The compatible pairs can only be collected when no pipeline is shorter than the first. -/
theorem length_le_of_initCompatibilityDict2 {first : WorkspaceMeta} {rest : List WorkspaceMeta}
    {compDict : List (MetaKey × MetaKey)}
    (h : initCompatibilityDict2 (first :: rest) = .ok compDict) {w : WorkspaceMeta}
    (hw : w ∈ first :: rest) : first.pipeline.length ≤ max 1 w.pipeline.length := by
  -- The round for the last pair of the first pipeline looks for both of its positions.
  have hrounds : ∀ n ≤ first.pipeline.length - 1, n ≤ w.pipeline.length - 1 := by
    refine foldlM_range_invariant (P := fun n _ => ∀ m ≤ n, m ≤ w.pipeline.length - 1) h
      (by omega) ?_
    intro i _ pairs pairs' hpairs hround m hm
    obtain ⟨rows, hrows, -⟩ := bind_eq_ok_iff.mp hround
    have hlt := lt_length_of_adjacentKeys hrows hw
    omega
  have hlast := hrounds (first.pipeline.length - 1) le_rfl
  omega

/-! ### When the tree can be built -/

theorem exists_initCompatibilityDict2_iff {first : WorkspaceMeta} {rest : List WorkspaceMeta} :
    (∃ compDict, initCompatibilityDict2 (first :: rest) = .ok compDict) ↔
      ∀ w ∈ first :: rest, first.pipeline.length ≤ max 1 w.pipeline.length := by
  constructor
  · intro ⟨compDict, h⟩ w hw
    exact length_le_of_initCompatibilityDict2 h hw
  · intro hlen
    obtain ⟨compDict, h, -⟩ := exists_foldlM_eq_ok (ε := PyError)
      (f := fun pairs i => do
        let rows ← adjacentKeys (first :: rest) i
        return pairs ++ stagePairs rows)
      (P := fun _ => True) (l := List.range (first.pipeline.length - 1)) (b := []) trivial (by
        intro i hi pairs _
        obtain ⟨rows, hrows⟩ : ∃ rows, adjacentKeys (first :: rest) i = .ok rows := by
          refine exists_mapM_eq_ok fun w hw => ?_
          have hlt : i + 1 < w.pipeline.length := by
            have := hlen w hw
            have := List.mem_range.mp hi
            omega
          rw [List.getElem?_eq_getElem (by omega), List.getElem?_eq_getElem hlt]
          exact ⟨_, rfl⟩
        exact ⟨_, bind_eq_ok_iff.mpr ⟨rows, hrows, rfl⟩, trivial⟩)
    exact ⟨compDict, h⟩

theorem exists_addNodes {order : SetOrder} {stages : ℕ → List MetaKey} {depth : ℕ}
    (h : ∀ i < depth, stages i ≠ []) (t : Tree) :
    ∃ t', Tree.addNodes order stages depth t = .ok t' := by
  obtain ⟨t', ht', -⟩ := exists_foldlM_eq_ok (ε := PyError)
    (f := fun t i => if stages i = [] then .error .keyError
      else .ok (RoseTree.atLevel (Tree.addChildren order (stages i)) i [] t))
    (P := fun _ => True) (l := List.range depth) (b := t) trivial (by
      intro i hi t _
      rw [if_neg (h i (List.mem_range.mp hi))]
      exact ⟨_, rfl, trivial⟩)
  exact ⟨t', ht'⟩

/-- The workspace has recorded an output and parameters for each library among the keys. -/
def RecordsAll (w : WorkspaceMeta) (keys : List MetaKey) : Prop :=
  ∀ key ∈ keys, key.componentType = MetaKey.genericLibraryKey →
    (∃ output, w.outputOf key.toStringWithVersion = .ok output) ∧
      ∃ params, w.paramsOf key.toStringWithVersion = .ok params

theorem exists_markNode_iff {w : WorkspaceMeta} {n : TreeNode} :
    (∃ n', markNode w n = .ok n') ↔ RecordsAll w [n.key] := by
  unfold markNode RecordsAll
  by_cases hlibrary : n.key.componentType = MetaKey.genericLibraryKey
  · rw [if_pos hlibrary]
    simp only [List.mem_singleton, forall_eq, hlibrary, true_imp_iff, bind_eq_ok_iff]
    constructor
    · intro hex
      obtain ⟨n', output, houtput, params, hparams, -⟩ := hex
      exact ⟨⟨output, houtput⟩, params, hparams⟩
    · intro hex
      obtain ⟨⟨output, houtput⟩, params, hparams⟩ := hex
      exact ⟨_, output, houtput, params, hparams, rfl⟩
  · simp [hlibrary]

/-- Marking along a pipeline that is in the tree fails only on a component that the
workspace has not recorded. -/
theorem exists_markTrainedRoutine_iff {w : WorkspaceMeta} {ks : List MetaKey}
    {stages rest : List (List MetaKey)} {t : Tree} (hks : List.Forall₂ (· ∈ ·) ks stages)
    (hgrid : t.Grid (·.key) (stages ++ rest)) :
    (∃ t', markTrainedRoutine w ks t = .ok t') ↔ RecordsAll w ks := by
  induction hks generalizing t with
  | nil => simp [markTrainedRoutine, RecordsAll]
  | @cons key stage ks stages hkey _ ih =>
      cases t with
      | node a cs =>
          obtain ⟨hperm, hchildren⟩ := hgrid
          rw [RoseTree.children_node] at hperm hchildren
          rw [markTrainedRoutine]
          split
          · rename_i hdrop
            obtain ⟨c, hc, hckey⟩ := List.mem_map.mp (hperm.symm.subset hkey)
            exact absurd hckey.symm (by simpa using List.dropWhile_eq_nil_iff.mp hdrop c hc)
          · rename_i child after hdrop
            obtain ⟨hsplit, hchildKey⟩ := split_of_dropWhile hdrop
            have hmem : child ∈ cs := by
              rw [hsplit]
              simp
            have hhead : (∃ n', markNode w child.label = .ok n') ↔ RecordsAll w [key] := by
              rw [exists_markNode_iff, hchildKey]
            have htail : ∀ n, (∃ t', markTrainedRoutine w ks (.node n child.children) = .ok t') ↔
                RecordsAll w ks := fun n => ih ((hchildren child hmem).relabel n)
            have hcons : RecordsAll w (key :: ks) ↔ RecordsAll w [key] ∧ RecordsAll w ks := by
              simp [RecordsAll]
            rw [hcons, ← hhead]
            simp only [bind_eq_ok_iff]
            constructor
            · intro hex
              obtain ⟨t', n, hn, child', hchild', -⟩ := hex
              exact ⟨⟨n, hn⟩, (htail n).mp ⟨child', hchild'⟩⟩
            · intro hex
              obtain ⟨⟨n, hn⟩, hks⟩ := hex
              obtain ⟨child', hchild'⟩ := (htail n).mpr hks
              exact ⟨_, n, hn, child', hchild', rfl⟩

/-- The workspace can be used to mark the tree. -/
def Marks (w : WorkspaceMeta) : Prop := hasOutputs w = true → RecordsAll w w.pipeline

theorem exists_markIfTrained_iff {w : WorkspaceMeta} {stages : List (List MetaKey)} {t : Tree}
    (hfits : Fits stages w) (hgrid : t.Grid (·.key) stages) :
    (∃ t', markIfTrained t w = .ok t') ↔ Marks w := by
  unfold markIfTrained Marks
  split
  · rename_i hnone
    simp [hasOutputs, hnone]
  · rename_i outputs hsome
    split
    · rename_i hlen
      have hw : hasOutputs w = true := by simp [hasOutputs, hsome, hlen]
      rw [exists_markTrainedRoutine_iff hfits
        ((List.take_append_drop w.pipeline.length stages).symm ▸ hgrid)]
      simp [hw]
    · rename_i hlen
      have hw : hasOutputs w = false := by simpa [hasOutputs, hsome] using hlen
      simp [hw]

theorem exists_markAll_iff {workspaces : List WorkspaceMeta} {stages : List (List MetaKey)}
    {t : Tree} (hfits : ∀ w ∈ workspaces, Fits stages w) (hgrid : t.Grid (·.key) stages) :
    (∃ t', workspaces.foldlM markIfTrained t = .ok t') ↔ ∀ w ∈ workspaces, Marks w := by
  induction workspaces generalizing t with
  | nil =>
      simp only [List.not_mem_nil, false_imp_iff, implies_true, iff_true]
      exact ⟨t, rfl⟩
  | cons w ws ih =>
      simp only [List.foldlM_cons, bind_eq_ok_iff, List.forall_mem_cons,
        ← exists_markIfTrained_iff (hfits w (by simp)) hgrid]
      have hrest : ∀ u, markIfTrained t w = .ok u →
          ((∃ t', ws.foldlM markIfTrained u = .ok t') ↔ ∀ v ∈ ws, Marks v) := fun u hu =>
        ih (fun v hv => hfits v (by simp [hv])) ((grid_markIfTrained hu).2 _ hgrid)
      constructor
      · intro hex
        obtain ⟨t', u, hu, ht'⟩ := hex
        exact ⟨⟨u, hu⟩, (hrest u hu).mp ⟨t', ht'⟩⟩
      · intro hex
        obtain ⟨⟨u, hu⟩, hws⟩ := hex
        obtain ⟨t', ht'⟩ := (hrest u hu).mpr hws
        exact ⟨t', u, hu, ht'⟩

/-- No stage of a tree is empty. -/
theorem stageDict_ne_nil {workspaces : List WorkspaceMeta} {w : WorkspaceMeta}
    (hw : w ∈ workspaces) (hlen : treeDepth workspaces ≤ w.pipeline.length) :
    ∀ i < treeDepth workspaces, stageDict workspaces i ≠ [] := by
  intro i hi
  exact List.ne_nil_of_mem
    (mem_stageDict.mpr ⟨w, hw, List.getElem?_eq_getElem (hi.trans_le hlen)⟩)

/-- A tree is only built of workspaces with all marks. -/
theorem marks_of_init {order : SetOrder} {workspaces : List WorkspaceMeta} {t : TrialTree}
    (h : init order workspaces = .ok t) : ∀ w ∈ workspaces, Marks w := by
  obtain ⟨built, marked, -, hbuilt, hmarked, -⟩ := exists_marked_of_init h
  exact (exists_markAll_iff (fun w hw => fits_stageDict hw)
    (grid_dfsPrune t.compDict [] (grid_addNodes hbuilt).1)).mp ⟨marked, hmarked⟩

/-- `TrialTree(workspaces)` raises nothing. -/
theorem exists_init_iff {order : SetOrder} {first : WorkspaceMeta} {rest : List WorkspaceMeta}
    {longest : WorkspaceMeta} (hlongest : longest ∈ first :: rest)
    (hdepth : treeDepth (first :: rest) ≤ longest.pipeline.length) :
    (∃ t, init order (first :: rest) = .ok t) ↔
      (∀ w ∈ first :: rest, first.pipeline.length ≤ max 1 w.pipeline.length) ∧
        ∀ w ∈ first :: rest, Marks w := by
  constructor
  · intro hex
    obtain ⟨t, ht⟩ := hex
    obtain ⟨_, _, hcomp, -⟩ := exists_marked_of_init ht
    exact ⟨exists_initCompatibilityDict2_iff.mp ⟨_, hcomp⟩, marks_of_init ht⟩
  · intro hex
    obtain ⟨hlen, hall⟩ := hex
    obtain ⟨compDict, hcomp⟩ := exists_initCompatibilityDict2_iff.mpr hlen
    obtain ⟨built, hbuilt⟩ : ∃ built, Tree.addNodes order _ _ Tree.empty = .ok built :=
      exists_addNodes (stageDict_ne_nil hlongest hdepth) Tree.empty
    obtain ⟨marked, hmarked⟩ := (exists_markAll_iff (fun w hw => fits_stageDict hw)
      (grid_dfsPrune compDict [] (grid_addNodes hbuilt).1)).mpr hall
    exact ⟨_, bind_eq_ok_iff.mpr ⟨compDict, hcomp, bind_eq_ok_iff.mpr ⟨built, hbuilt,
      bind_eq_ok_iff.mpr ⟨marked, hmarked, rfl⟩⟩⟩⟩

/-! ### Which marks there are -/

/-- The workspace's pipeline has the same components as the candidate up to position `i`. -/
def AgreesUpTo (w : WorkspaceMeta) (nodes : List TreeNode) (i : ℕ) : Prop :=
  ∀ j ≤ i, w.pipeline[j]? = nodes[j]?.map (·.key)

theorem agreesUpTo_iff_keys {w : WorkspaceMeta} {nodes : List TreeNode} {i : ℕ}
    (hi : i < nodes.length) :
    AgreesUpTo w nodes i ↔ (nodes.take (i + 1)).map (·.key) <+: w.pipeline := by
  have hlen : ((nodes.take (i + 1)).map (·.key)).length = i + 1 := by
    rw [List.length_map, List.length_take]
    omega
  rw [List.prefix_iff_getElem?]
  constructor
  · intro h j hj
    rw [hlen] at hj
    rw [h j (by omega), List.getElem_map, List.getElem_take,
      List.getElem?_eq_getElem (by omega), Option.map_some]
  · intro h j hj
    rw [h j (by omega), List.getElem_map, List.getElem_take,
      List.getElem?_eq_getElem (by omega), Option.map_some]

theorem lastAgreeing_of_split {done before after : List WorkspaceMeta} {v : WorkspaceMeta}
    {path : List MetaKey} (hsplit : done = before ++ v :: after) (hv : path <+: v.pipeline)
    (hafter : ∀ u ∈ after, ¬ path <+: u.pipeline) : lastAgreeing done path = some v := by
  rw [lastAgreeing, List.find?_eq_some_iff_append]
  refine ⟨by simpa using hv, after.reverse, before.reverse, ?_, ?_⟩
  · rw [hsplit, List.reverse_append, List.reverse_cons, List.append_assoc, List.singleton_append]
  · intro u hu
    rw [Bool.not_eq_true', ← Bool.not_eq_true, List.isPrefixOf_iff_prefix]
    exact hafter u (List.mem_reverse.mp hu)

/-- **Trained marks follow shared prefixes.** The tree of pipelines of one length can be
built; a node of a candidate is trained when it is a dataset or some workspace with outputs has
come the same way, and a library takes over what the last of these workspaces recorded. -/
theorem marks_follow_prefixes (order : SetOrder) {workspaces : List WorkspaceMeta} {n : ℕ}
    (hne : workspaces ≠ []) (hlen : ∀ w ∈ workspaces, w.pipeline.length = n)
    (hrecords : ∀ w ∈ workspaces, hasOutputs w = true → RecordsAll w w.pipeline) :
    (1 ≤ n → ∃ t, init order workspaces = .ok t) ∧
    ∀ t, init order workspaces = .ok t → ∀ nodes ∈ t.candidateNodeLists,
      ∀ i, ∀ hi : i < nodes.length,
        (nodes[i].trained = true ↔
          nodes[i].key.componentType = MetaKey.genericDatasetKey ∨
            ∃ w ∈ workspaces, hasOutputs w = true ∧ AgreesUpTo w nodes i) ∧
        ∀ before w after, workspaces = before ++ w :: after → hasOutputs w = true →
          AgreesUpTo w nodes i → (∀ v ∈ after, hasOutputs v = true → ¬ AgreesUpTo v nodes i) →
          nodes[i].key.componentType = MetaKey.genericLibraryKey →
            w.outputOf nodes[i].key.toStringWithVersion = .ok nodes[i].output ∧
            w.paramsOf nodes[i].key.toStringWithVersion = .ok nodes[i].params ∧
            nodes[i].wsKey = some w.key := by
  refine ⟨?_, ?_⟩
  · intro hn
    have hdepth := treeDepth_of_length hne hn hlen
    obtain ⟨first, rest, rfl⟩ := List.exists_cons_of_ne_nil hne
    have hfirst : first ∈ first :: rest := List.mem_cons_self
    refine (exists_init_iff hfirst (by rw [hdepth, hlen first hfirst])).mpr ⟨?_, hrecords⟩
    intro w hw
    rw [hlen first hfirst, hlen w hw]
    exact le_max_right 1 n
  -- a candidate's mark comes from the last workspace with outputs that agrees up to there
  intro t h nodes hnodes i hi
  have hmark := trainedFrom_of_mem_candidates h hnodes i hi
  refine ⟨?_, ?_⟩
  · rw [hmark.trained_iff]
    refine or_congr_right ?_
    constructor
    · intro hsome
      obtain ⟨w, hw⟩ := Option.isSome_iff_exists.mp hsome
      obtain ⟨hmem, hpath⟩ := mem_of_lastAgreeing hw
      obtain ⟨hmem, houtputs⟩ := List.mem_filter.mp hmem
      exact ⟨w, hmem, houtputs, (agreesUpTo_iff_keys hi).mpr hpath⟩
    · intro hex
      obtain ⟨w, hmem, houtputs, hagrees⟩ := hex
      exact isSome_lastAgreeing (List.mem_filter.mpr ⟨hmem, houtputs⟩)
        ((agreesUpTo_iff_keys hi).mp hagrees)
  · intro before w after hsplit houtputs hagrees hafter hlibrary
    have hfilter : workspaces.filter hasOutputs =
        before.filter hasOutputs ++ w :: after.filter hasOutputs := by
      rw [hsplit, List.filter_append, List.filter_cons_of_pos houtputs]
    have hlast := lastAgreeing_of_split hfilter ((agreesUpTo_iff_keys hi).mp hagrees) (by
      intro u hu hpath
      obtain ⟨hu, houtputs⟩ := List.mem_filter.mp hu
      exact hafter u hu houtputs ((agreesUpTo_iff_keys hi).mpr hpath))
    obtain ⟨houtput, hparams⟩ := hmark.marked w hlibrary hlast
    refine ⟨houtput, hparams, ?_⟩
    rw [hmark.wsKey_eq, hlast]
    rfl

/-- A committed workspace, and one that goes another way behind its first library. -/
def sharedFront : List WorkspaceMeta :=
  let library (name : String) : MetaKey := ⟨"library", name, ⟨"master", 0, 0⟩⟩
  let dataset : MetaKey := ⟨"dataset", "d", ⟨"h", 0, 0⟩⟩
  [{ uncommitted [dataset, library "a", library "b"] with
      outputs := some (((∅ : OrderedDict String String).set "library::a::master.0.0" "1").set
        "library::b::master.0.0" "2")
      params := some (((∅ : OrderedDict String Params).set "library::a::master.0.0"
        (.hversion "3")).set "library::b::master.0.0" (.hversion "4")) },
    uncommitted [dataset, library "a", library "c"]]

theorem sharedFront_marks : ∃ t, init .insertion sharedFront = .ok t ∧
    ∀ nodes ∈ t.candidateNodeLists, ∀ hi : 2 < nodes.length,
      (nodes[2].trained = true ↔
        nodes[2].key.componentType = MetaKey.genericDatasetKey ∨
          ∃ w ∈ sharedFront, hasOutputs w = true ∧ AgreesUpTo w nodes 2) := by
  have hrecords : ∀ w ∈ sharedFront, hasOutputs w = true → RecordsAll w w.pipeline := by
    intro w hw houtputs
    simp only [sharedFront, List.mem_cons, List.not_mem_nil, or_false] at hw
    rcases hw with rfl | rfl
    · intro key hkey hlibrary
      simp only [List.mem_cons, List.not_mem_nil, or_false, uncommitted] at hkey
      rcases hkey with rfl | rfl | rfl
      · exact absurd hlibrary (by decide)
      · exact ⟨⟨"1", by decide +kernel⟩, .hversion "3", by decide +kernel⟩
      · exact ⟨⟨"2", by decide +kernel⟩, .hversion "4", by decide +kernel⟩
    · exact absurd houtputs (by decide)
  have hne : sharedFront ≠ [] := by decide
  obtain ⟨hinit, hmarks⟩ := marks_follow_prefixes .insertion (n := 3) hne (by decide) hrecords
  obtain ⟨t, ht⟩ := hinit (by decide)
  exact ⟨t, ht, fun nodes hnodes hi => (hmarks t ht nodes hnodes 2 hi).1⟩

end SecCask.Pipeman.TrialTree
