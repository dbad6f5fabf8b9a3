import SecCask.Lib.Fallible
import SecCask.Pipeman.TrialTree

/-!
# SecCask.Pipeman.Candidates

Which pipelines a trial tree has as candidates. The tree is a grid over the stages, marking
and pruning leave it one, and `_dfs_prune` collects its walks along compatible pairs.
-/

namespace SecCask.Pipeman.TrialTree

/-! ### Pruning -/

/-- `walkable` in terms of the two keys. -/
def goesWith (compDict : List (MetaKey × MetaKey)) (a b : MetaKey) : Bool :=
  compDict.contains (a, b) || decide (a.componentType = "TrialTree")

/-- `_dfs_prune` at the children of a node, child by child. -/
theorem dfsPruneChildren_eq (compDict : List (MetaKey × MetaKey)) (walking : List TreeNode)
    (node : TreeNode) (children : List Tree) :
    dfsPruneChildren compDict walking node children =
      (children.map fun c =>
        if walkable compDict node c.label then
          (dfsPrune compDict (walking ++ [c.label]) c).1
        else .node { c.label with pruned := true } c.children,
      children.flatMap fun c =>
        if walkable compDict node c.label then
          (dfsPrune compDict (walking ++ [c.label]) c).2
        else []) := by
  induction children with
  | nil => rfl
  | cons c cs ih =>
      rw [dfsPruneChildren, ih]
      by_cases hc : walkable compDict node c.label = true <;> simp [hc]

@[simp] theorem label_dfsPrune (compDict : List (MetaKey × MetaKey)) (walking : List TreeNode)
    (t : Tree) : (dfsPrune compDict walking t).1.label = t.label := by
  cases t with
  | node a cs =>
      rw [dfsPrune]
      split <;> rfl

theorem grid_dfsPrune (compDict : List (MetaKey × MetaKey)) (walking : List TreeNode)
    {stages : List (List MetaKey)} {t : Tree} (ht : t.Grid (·.key) stages) :
    (dfsPrune compDict walking t).1.Grid (·.key) stages := by
  induction stages generalizing t walking with
  | nil =>
      cases t with
      | node a cs =>
          obtain rfl : cs = [] := ht
          rfl
  | cons ks stages ih =>
      cases t with
      | node a cs =>
          rw [dfsPrune]
          split
          · exact ht
          · rw [dfsPruneChildren_eq]
            refine RoseTree.Grid.map_children ?_ ?_ ht
            · intro c _
              split
              · rw [label_dfsPrune]
              · rfl
            · intro c _ hc
              split
              · exact ih _ hc
              · cases stages with
                | nil => exact hc
                | cons => exact hc

/-- Pruning keeps what may be said of a node that does not go with its parent. The parent of
the nodes at the first level is the root. -/
theorem everywhere_dfsPrune {P : List MetaKey → TreeNode → Prop}
    {compDict : List (MetaKey × MetaKey)}
    (hprune : ∀ path (a n : TreeNode), a.key = path.getLastD rootKey →
      walkable compDict a n = false → P (path ++ [n.key]) n →
      P (path ++ [n.key]) { n with pruned := true })
    {path : List MetaKey} {t : Tree} (ht : t.Everywhere (·.key) P path)
    (hparent : t.label.key = path.getLastD rootKey) (walking : List TreeNode) :
    (dfsPrune compDict walking t).1.Everywhere (·.key) P path := by
  induction ht generalizing walking with
  | @node path a cs hlabel hchild ih =>
      rw [dfsPrune]
      split
      · exact .node hlabel hchild
      · rw [dfsPruneChildren_eq]
        refine .node ?_ ?_
        · intro c hc
          obtain ⟨d, hd, rfl⟩ := List.mem_map.mp hc
          split
          · rw [label_dfsPrune]
            exact hlabel d hd
          · rename_i hwalk
            exact hprune path a d.label hparent (eq_false_of_ne_true hwalk) (hlabel d hd)
        · intro c hc
          obtain ⟨d, hd, rfl⟩ := List.mem_map.mp hc
          split
          · rw [label_dfsPrune]
            exact ih d hd (by simp) _
          · exact (hchild d hd).relabel _

mutual

theorem dfsPrune_snd (compDict : List (MetaKey × MetaKey)) (walking : List TreeNode) :
    ∀ t : Tree, (dfsPrune compDict walking t).2 =
      (t.walks fun a b => goesWith compDict a.key b.key).map (walking ++ ·)
  | .node a cs => by
      rw [dfsPrune, RoseTree.walks]
      split
      · simp
      · exact dfsPruneChildren_snd compDict walking a cs

theorem dfsPruneChildren_snd (compDict : List (MetaKey × MetaKey)) (walking : List TreeNode)
    (node : TreeNode) : ∀ children : List Tree,
    (dfsPruneChildren compDict walking node children).2 =
      (RoseTree.walksThrough (fun a b => goesWith compDict a.key b.key) node children).map
        (walking ++ ·)
  | [] => rfl
  | c :: cs => by
      have hchild := dfsPrune_snd compDict (walking ++ [c.label]) c
      have hrest := dfsPruneChildren_snd compDict walking node cs
      have hwalk : walkable compDict node c.label = goesWith compDict node.key c.label.key := rfl
      rw [dfsPruneChildren, RoseTree.walksThrough, List.map_append, ← hrest, hwalk]
      by_cases hc : goesWith compDict node.key c.label.key = true
      · simp [hc, hchild, Function.comp_def]
      · simp [hc]

end

/-! ### Building and marking -/

theorem grid_addNodes {order : SetOrder} {stages : ℕ → List MetaKey} {depth : ℕ} {t : Tree}
    (h : Tree.addNodes order stages depth Tree.empty = .ok t) :
    t.Grid (·.key) ((List.range depth).map stages) ∧ t.label = Tree.empty.label ∧
      ∀ i < depth, stages i ≠ [] := by
  refine foldlM_range_invariant (P := fun n t => t.Grid (·.key) ((List.range n).map stages) ∧
    t.label = Tree.empty.label ∧ ∀ i < n, stages i ≠ []) h ⟨rfl, rfl, by simp⟩ ?_
  rintro i - t t' ⟨hgrid, hlabel, hstages⟩ hround
  by_cases hne : stages i = []
  · simp [hne] at hround
  · rw [if_neg hne] at hround
    obtain rfl := Except.ok.inj hround
    have hadd : ∀ path (t : Tree), (Tree.addChildren order (stages i) path t).label = t.label :=
      fun _ _ => rfl
    refine ⟨?_, ?_, ?_⟩
    · have hgrow := hgrid.atLevel (stages i) hadd ?_ []
      · simpa [List.range_succ] using hgrow
      · intro path t ht
        refine ⟨?_, ?_⟩
        · simpa [Tree.addChildren, ht, Tree.newChild, Function.comp_def] using
            order.arrange_perm (path.map (·.key)) (stages i)
        · intro c hc
          rw [Tree.addChildren, RoseTree.children_node, ht, List.nil_append] at hc
          obtain ⟨key, -, rfl⟩ := List.mem_map.mp hc
          rfl
    · rw [RoseTree.label_atLevel hadd, hlabel]
    · intro j hj
      rcases Nat.lt_succ_iff_lt_or_eq.mp hj with hj | rfl
      · exact hstages j hj
      · exact hne

theorem everywhere_addNodes {P : List MetaKey → TreeNode → Prop}
    (hnew : ∀ path key, P (path ++ [key])
      (TreeNode.new key (decide (key.componentType = MetaKey.genericDatasetKey))))
    {order : SetOrder} {stages : ℕ → List MetaKey} {depth : ℕ} {t : Tree}
    (h : Tree.addNodes order stages depth Tree.empty = .ok t) :
    t.Everywhere (·.key) P [] := by
  refine foldlM_range_invariant (P := fun _ t => t.Everywhere (·.key) P []) h (.leaf rfl) ?_
  intro i _ t t' ht hround
  by_cases hne : stages i = []
  · simp [hne] at hround
  · rw [if_neg hne] at hround
    obtain rfl := Except.ok.inj hround
    refine RoseTree.Everywhere.atLevel (f := Tree.addChildren order (stages i))
      (fun _ _ => rfl) ?_ i [] ht
    intro path p t ht
    refine .node ?_ ?_
    · intro c hc
      rcases List.mem_append.mp hc with hc | hc
      · exact ht.label c hc
      · obtain ⟨key, -, rfl⟩ := List.mem_map.mp hc
        exact hnew path key
    · intro c hc
      rcases List.mem_append.mp hc with hc | hc
      · exact ht.child c hc
      · obtain ⟨key, -, rfl⟩ := List.mem_map.mp hc
        exact .leaf rfl

theorem key_markNode {w : WorkspaceMeta} {n n' : TreeNode} (h : markNode w n = .ok n') :
    n'.key = n.key := by
  unfold markNode at h
  split at h
  · obtain ⟨output, -, h⟩ := bind_eq_ok_iff.mp h
    obtain ⟨params, -, h⟩ := bind_eq_ok_iff.mp h
    obtain rfl := Except.ok.inj h
    rfl
  · obtain rfl := Except.ok.inj h
    rfl

/-- The inner loop of `_mark_trained_routine` stops at a child with the component's key. -/
theorem split_of_dropWhile {key : MetaKey} {cs after : List Tree} {child : Tree}
    (h : cs.dropWhile (fun c => decide (key ≠ c.label.key)) = child :: after) :
    cs = (cs.takeWhile fun c => decide (key ≠ c.label.key)) ++ child :: after ∧
      child.label.key = key := by
  refine ⟨?_, ?_⟩
  · rw [← h, List.takeWhile_append_dropWhile]
  · have hhead := List.head?_dropWhile_not (fun c : Tree => decide (key ≠ c.label.key)) cs
    rw [h] at hhead
    exact (not_not.mp (of_decide_eq_false hhead)).symm

theorem grid_markTrainedRoutine {w : WorkspaceMeta} {pipeline : List MetaKey} {t t' : Tree}
    (h : markTrainedRoutine w pipeline t = .ok t') :
    t'.label = t.label ∧ ∀ stages, t.Grid (·.key) stages → t'.Grid (·.key) stages := by
  induction pipeline generalizing t t' with
  | nil =>
      obtain rfl := Except.ok.inj h
      exact ⟨rfl, fun _ ht => ht⟩
  | cons key pipeline ih =>
      cases t with
      | node a cs =>
          rw [markTrainedRoutine] at h
          split at h
          · exact ih h
          · rename_i child after hdrop
            obtain ⟨marked, hmarked, h⟩ := bind_eq_ok_iff.mp h
            obtain ⟨child', hchild', h⟩ := bind_eq_ok_iff.mp h
            obtain rfl := Except.ok.inj h
            obtain ⟨hlabel, hgrid⟩ := ih hchild'
            refine ⟨rfl, fun stages ht => ?_⟩
            rw [(split_of_dropWhile hdrop).1] at ht
            refine RoseTree.Grid.replace_child ?_ ?_ ht
            · rw [hlabel]
              exact key_markNode hmarked
            · intro stages hc
              exact hgrid stages (hc.relabel marked)

theorem grid_markIfTrained {w : WorkspaceMeta} {t t' : Tree} (h : markIfTrained t w = .ok t') :
    t'.label = t.label ∧ ∀ stages, t.Grid (·.key) stages → t'.Grid (·.key) stages := by
  unfold markIfTrained at h
  split at h
  · obtain rfl := Except.ok.inj h
    exact ⟨rfl, fun _ ht => ht⟩
  · split at h
    · exact grid_markTrainedRoutine h
    · obtain rfl := Except.ok.inj h
      exact ⟨rfl, fun _ ht => ht⟩

/-! ### Compatible pairs -/

/-- Some workspace has `a` at position `j` and some workspace has `b` behind it, where the
API versions at position `j` agree. -/
def LinkedAt (workspaces : List WorkspaceMeta) (j : ℕ) (a b : MetaKey) : Prop :=
  ∃ w₁ ∈ workspaces, ∃ w₂ ∈ workspaces, w₁.pipeline[j]? = some a ∧
    w₂.pipeline[j + 1]? = some b ∧ ∃ c, w₂.pipeline[j]? = some c ∧
    a.componentVersion.apiVersion = c.componentVersion.apiVersion

def Linked (workspaces : List WorkspaceMeta) (a b : MetaKey) : Prop :=
  ∃ j, LinkedAt workspaces j a b

theorem mem_adjacentKeys {workspaces : List WorkspaceMeta} {i : ℕ}
    {rows : List (MetaKey × MetaKey)} (h : adjacentKeys workspaces i = .ok rows)
    {a b : MetaKey} : (a, b) ∈ rows ↔
      ∃ w ∈ workspaces, w.pipeline[i]? = some a ∧ w.pipeline[i + 1]? = some b := by
  rw [mem_of_mapM_eq_ok h]
  refine exists_congr fun w => and_congr_right fun _ => ?_
  split
  · rename_i hcurrent hnext
    simp [hcurrent, hnext]
  · rename_i hnone
    constructor
    · intro hpair
      cases hpair
    · intro hex
      obtain ⟨ha, hb⟩ := hex
      exact (hnone _ _ ha hb).elim

/-- A round of `_init_compatibility_dict2` needs both positions in every pipeline. -/
theorem lt_length_of_adjacentKeys {workspaces : List WorkspaceMeta} {i : ℕ}
    {rows : List (MetaKey × MetaKey)} (h : adjacentKeys workspaces i = .ok rows)
    {w : WorkspaceMeta} (hw : w ∈ workspaces) : i + 1 < w.pipeline.length := by
  obtain ⟨row, hrow⟩ := exists_of_mapM_eq_ok h hw
  split at hrow
  · rename_i hnext
    exact (List.getElem?_eq_some_iff.mp hnext).1
  · cases hrow

theorem mem_stagePairs_iff_linkedAt {workspaces : List WorkspaceMeta} {i : ℕ}
    {rows : List (MetaKey × MetaKey)} (hrows : adjacentKeys workspaces i = .ok rows)
    {a b : MetaKey} : (a, b) ∈ stagePairs rows ↔ LinkedAt workspaces i a b := by
  rw [mem_stagePairs]
  constructor
  · intro hex
    obtain ⟨⟨_, next⟩, hr, ⟨current, _⟩, hr', rfl, rfl, hapi⟩ := hex
    obtain ⟨w₁, hw₁, hcurrent, -⟩ := (mem_adjacentKeys hrows).mp hr
    obtain ⟨w₂, hw₂, hc, hnext⟩ := (mem_adjacentKeys hrows).mp hr'
    exact ⟨w₁, hw₁, w₂, hw₂, hcurrent, hnext, current, hc, hapi⟩
  · intro hex
    obtain ⟨w₁, hw₁, w₂, hw₂, ha, hb, c, hc, hapi⟩ := hex
    obtain ⟨next, hnext⟩ : ∃ next, w₁.pipeline[i + 1]? = some next :=
      ⟨_, List.getElem?_eq_getElem (lt_length_of_adjacentKeys hrows hw₁)⟩
    exact ⟨(a, next), (mem_adjacentKeys hrows).mpr ⟨w₁, hw₁, ha, hnext⟩,
      (c, b), (mem_adjacentKeys hrows).mpr ⟨w₂, hw₂, hc, hb⟩, rfl, rfl, hapi⟩

/-- `_init_compatibility_dict2` collects the pairs that are linked within the length of the
first pipeline. -/
theorem mem_initCompatibilityDict2_cons {first : WorkspaceMeta} {rest : List WorkspaceMeta}
    {compDict : List (MetaKey × MetaKey)}
    (h : initCompatibilityDict2 (first :: rest) = .ok compDict) {a b : MetaKey} :
    (a, b) ∈ compDict ↔
      ∃ j < first.pipeline.length - 1, LinkedAt (first :: rest) j a b := by
  refine foldlM_range_invariant (P := fun m pairs => (a, b) ∈ pairs ↔
    ∃ j < m, LinkedAt (first :: rest) j a b) h (by simp) ?_
  intro i hi pairs pairs' hpairs hround
  obtain ⟨rows, hrows, hround⟩ := bind_eq_ok_iff.mp hround
  obtain rfl := Except.ok.inj hround
  rw [List.mem_append, hpairs, mem_stagePairs_iff_linkedAt hrows, Nat.exists_lt_succ_right]

/-- With pipelines of one length these are all linked pairs. -/
theorem mem_initCompatibilityDict2 {workspaces : List WorkspaceMeta}
    {compDict : List (MetaKey × MetaKey)} (h : initCompatibilityDict2 workspaces = .ok compDict)
    {n : ℕ} (hlen : ∀ w ∈ workspaces, w.pipeline.length = n) {a b : MetaKey} :
    (a, b) ∈ compDict ↔ Linked workspaces a b := by
  cases workspaces with
  | nil => cases h
  | cons first rest =>
      rw [mem_initCompatibilityDict2_cons h, hlen first (by simp)]
      constructor
      · intro hex
        obtain ⟨j, -, hj⟩ := hex
        exact ⟨j, hj⟩
      · intro hex
        obtain ⟨j, hj⟩ := hex
        obtain ⟨-, -, w₂, hw₂, -, hb, -⟩ := id hj
        obtain ⟨hlt, -⟩ := List.getElem?_eq_some_iff.mp hb
        rw [hlen w₂ hw₂] at hlt
        exact ⟨j, by omega, hj⟩

/-! ### Candidates -/

theorem treeDepth_of_length {workspaces : List WorkspaceMeta} (hne : workspaces ≠ []) {n : ℕ}
    (hn : 1 ≤ n) (hlen : ∀ w ∈ workspaces, w.pipeline.length = n) :
    treeDepth workspaces = n := by
  have hfold : ∀ ws : List WorkspaceMeta, (∀ w ∈ ws, w.pipeline.length = n) → ∀ depth ≤ n - 1,
      ws.foldl (fun depth w => max depth (w.pipeline.length - 1)) depth =
        if ws = [] then depth else n - 1 := by
    intro ws
    induction ws with
    | nil => simp
    | cons w ws ih =>
        intro hws depth hdepth
        rw [List.foldl_cons, hws w (by simp), ih (fun v hv => hws v (by simp [hv])) _ (by omega)]
        simp [hdepth]
  rw [treeDepth, hfold workspaces hlen 0 (by omega), if_neg hne]
  omega

/-- The sequences of keys that a tree over pipelines of length `n` is meant to have as
candidates. A component of type `TrialTree` is taken for the root, and goes with every
component. -/
structure IsCandidate (workspaces : List WorkspaceMeta) (n : ℕ) (s : List MetaKey) : Prop where
  length_eq : s.length = n
  occurs : ∀ i (hi : i < s.length), ∃ w ∈ workspaces, w.pipeline[i]? = some s[i]
  linked : ∀ i (hi : i + 1 < s.length),
    Linked workspaces s[i] s[i + 1] ∨ s[i].componentType = "TrialTree"

theorem isCandidate_pipeline {workspaces : List WorkspaceMeta} {w : WorkspaceMeta}
    (hw : w ∈ workspaces) : IsCandidate workspaces w.pipeline.length w.pipeline := by
  refine ⟨rfl, ?_, ?_⟩
  · intro i hi
    exact ⟨w, hw, List.getElem?_eq_getElem hi⟩
  · intro i hi
    exact Or.inl ⟨i, w, hw, w, hw, List.getElem?_eq_getElem (by omega),
      List.getElem?_eq_getElem hi, _, List.getElem?_eq_getElem (by omega), rfl⟩

theorem goesWith_eq_true_iff {workspaces : List WorkspaceMeta}
    {compDict : List (MetaKey × MetaKey)} (h : initCompatibilityDict2 workspaces = .ok compDict)
    {n : ℕ} (hlen : ∀ w ∈ workspaces, w.pipeline.length = n) {a b : MetaKey} :
    goesWith compDict a b = true ↔ Linked workspaces a b ∨ a.componentType = "TrialTree" := by
  rw [goesWith, Bool.or_eq_true, List.contains_iff_mem, decide_eq_true_eq,
    mem_initCompatibilityDict2 h hlen]

/-- Every component may follow the root. -/
theorem isChain_rootKey_iff {compDict : List (MetaKey × MetaKey)} {s : List MetaKey} :
    List.IsChain (goesWith compDict · · = true) (rootKey :: s) ↔
      List.IsChain (goesWith compDict · · = true) s := by
  cases s with
  | nil => simp
  | cons a s => simp [goesWith, rootKey]

/-- What the walks of the tree spell, in terms of the workspaces. -/
theorem isCandidate_iff_walk {workspaces : List WorkspaceMeta}
    {compDict : List (MetaKey × MetaKey)} (h : initCompatibilityDict2 workspaces = .ok compDict)
    {n : ℕ} (hlen : ∀ w ∈ workspaces, w.pipeline.length = n) {s : List MetaKey} :
    IsCandidate workspaces n s ↔
      List.Forall₂ (· ∈ ·) s ((List.range n).map (stageDict workspaces)) ∧
        List.IsChain (goesWith compDict · · = true) (rootKey :: s) := by
  rw [isChain_rootKey_iff, List.forall₂_iff_get, List.isChain_iff_getElem]
  simp only [goesWith_eq_true_iff h hlen, List.get_eq_getElem, List.getElem_map,
    List.getElem_range, mem_stageDict, List.length_map, List.length_range]
  constructor
  · intro hex
    obtain ⟨hlength, hoccurs, hlinked⟩ := hex
    exact ⟨⟨hlength, fun i hi _ => hoccurs i hi⟩, hlinked⟩
  · intro hex
    obtain ⟨⟨hlength, hoccurs⟩, hlinked⟩ := hex
    exact ⟨hlength, fun i hi => hoccurs i hi (hlength ▸ hi), hlinked⟩

/-- The three passes of `TrialTree.__init__`. -/
theorem exists_marked_of_init {order : SetOrder} {workspaces : List WorkspaceMeta} {t : TrialTree}
    (h : init order workspaces = .ok t) :
    ∃ built marked : Tree, initCompatibilityDict2 workspaces = .ok t.compDict ∧
      Tree.addNodes order (stageDict workspaces) (treeDepth workspaces) Tree.empty = .ok built ∧
      workspaces.foldlM markIfTrained (dfsPrune t.compDict [] built).1 = .ok marked ∧
      t.candidateNodeLists = (marked.walks fun a b => goesWith t.compDict a.key b.key) ∧
      t.tree = (dfsPrune t.compDict [] marked).1 := by
  unfold init at h
  obtain ⟨compDict, hcomp, h⟩ := bind_eq_ok_iff.mp h
  obtain ⟨built, hbuilt, h⟩ := bind_eq_ok_iff.mp h
  obtain ⟨marked, hmarked, h⟩ := bind_eq_ok_iff.mp h
  obtain rfl := Except.ok.inj h
  exact ⟨built, marked, hcomp, hbuilt, hmarked, by simpa using dfsPrune_snd compDict [] marked,
    rfl⟩

/-- Marking keeps the tree a grid over the stages. -/
theorem grid_marked {workspaces : List WorkspaceMeta} {stages : List (List MetaKey)}
    {t marked : Tree} (h : workspaces.foldlM markIfTrained t = .ok marked)
    (ht : t.Grid (·.key) stages) : marked.Grid (·.key) stages ∧ marked.label = t.label := by
  refine foldlM_invariant (P := fun u => u.Grid (·.key) stages ∧ u.label = t.label) h
    ⟨ht, rfl⟩ ?_
  rintro w - u u' ⟨hgrid, hlabel⟩ hround
  obtain ⟨hlabel', hgrid'⟩ := grid_markIfTrained hround
  exact ⟨hgrid' _ hgrid, hlabel'.trans hlabel⟩

/-- After construction the tree is still a grid over the stages. -/
theorem exists_grid_of_init {order : SetOrder} {workspaces : List WorkspaceMeta} {t : TrialTree}
    (h : init order workspaces = .ok t) :
    ∃ tree : Tree, tree.Grid (·.key)
        ((List.range (treeDepth workspaces)).map (stageDict workspaces)) ∧
      tree.label.key = rootKey ∧ (∀ i < treeDepth workspaces, stageDict workspaces i ≠ []) ∧
      initCompatibilityDict2 workspaces = .ok t.compDict ∧
      t.candidateNodeLists = tree.walks fun a b => goesWith t.compDict a.key b.key := by
  obtain ⟨built, marked, hcomp, hbuilt, hmarked, hwalks, -⟩ := exists_marked_of_init h
  obtain ⟨hgrid, hlabel, hstages⟩ := grid_addNodes hbuilt
  obtain ⟨hmarkedGrid, hmarkedLabel⟩ := grid_marked hmarked (grid_dfsPrune t.compDict [] hgrid)
  refine ⟨marked, hmarkedGrid, ?_, hstages, hcomp, hwalks⟩
  rw [hmarkedLabel, label_dfsPrune, hlabel]
  rfl

/-- The candidates spell the sequences that take a key from each stage along pairs that go
with each other. -/
theorem mem_candidateKeys_iff {order : SetOrder} {workspaces : List WorkspaceMeta} {t : TrialTree}
    (h : init order workspaces = .ok t) {s : List MetaKey} :
    s ∈ t.candidateKeys ↔
      List.Forall₂ (· ∈ ·) s ((List.range (treeDepth workspaces)).map (stageDict workspaces)) ∧
        List.IsChain (goesWith t.compDict · · = true) (rootKey :: s) := by
  obtain ⟨tree, hgrid, hlabel, hstages, -, hwalks⟩ := exists_grid_of_init h
  have hnonempty : ∀ ks ∈ (List.range (treeDepth workspaces)).map (stageDict workspaces),
      ks ≠ [] := by
    intro ks hks
    obtain ⟨i, hi, rfl⟩ := List.mem_map.mp hks
    exact hstages i (List.mem_range.mp hi)
  rw [candidateKeys, hwalks, hgrid.mem_walks hnonempty, hlabel]

theorem nodup_candidateKeys {order : SetOrder} {workspaces : List WorkspaceMeta} {t : TrialTree}
    (h : init order workspaces = .ok t) : t.candidateKeys.Nodup := by
  obtain ⟨tree, hgrid, -, -, -, hwalks⟩ := exists_grid_of_init h
  rw [candidateKeys, hwalks]
  refine hgrid.nodup_walks ?_
  intro ks hks
  obtain ⟨i, -, rfl⟩ := List.mem_map.mp hks
  exact nodup_stageDict workspaces i

/-- **Candidates of a trial tree.** No sequence of keys is a candidate twice, the candidates
are exactly the sequences that take a key from each stage along linked pairs, and every
workspace finds its own pipeline among them. -/
theorem candidates_sound_complete_unique {order : SetOrder} {workspaces : List WorkspaceMeta}
    {n : ℕ} (hne : workspaces ≠ []) (hn : 1 ≤ n)
    (hlen : ∀ w ∈ workspaces, w.pipeline.length = n) {t : TrialTree}
    (h : init order workspaces = .ok t) :
    t.candidateKeys.Nodup ∧ (∀ s, s ∈ t.candidateKeys ↔ IsCandidate workspaces n s) ∧
      ∀ w ∈ workspaces, w.pipeline ∈ t.candidateKeys := by
  obtain ⟨-, -, -, -, hcomp, -⟩ := exists_grid_of_init h
  have hmem : ∀ s, s ∈ t.candidateKeys ↔ IsCandidate workspaces n s := by
    intro s
    rw [mem_candidateKeys_iff h, treeDepth_of_length hne hn hlen]
    exact (isCandidate_iff_walk hcomp hlen).symm
  refine ⟨nodup_candidateKeys h, hmem, ?_⟩
  · intro w hw
    rw [hmem, ← hlen w hw]
    exact isCandidate_pipeline hw

/-- A workspace that has not been committed yet. -/
def uncommitted (pipeline : List MetaKey) : WorkspaceMeta where
  metaType := MetaKey.genericWorkspaceKey
  name := "workspace"
  version := SemanticVersion.buildZeroVersion
  pipeline := pipeline
  outputs := some ∅
  params := some ∅
  paths := ⟨"", "venv/", "temp/", "output/"⟩

/-- Two workspaces whose first components are of the given type and differ by the given
number of API versions. -/
def twoVersions (componentType : String) (api : ℕ) : List WorkspaceMeta :=
  [uncommitted [⟨componentType, "d", ⟨"h", 0, 0⟩⟩, ⟨"library", "a", ⟨"master", 0, 0⟩⟩],
    uncommitted [⟨componentType, "d", ⟨"h", api, 1⟩⟩, ⟨"library", "a", ⟨"master", 0, 1⟩⟩]]

theorem sameApi_candidates : ∃ t, init SetOrder.insertion (twoVersions "dataset" 0) = .ok t ∧
    t.candidateKeys.Nodup ∧
    [⟨"dataset", "d", ⟨"h", 0, 0⟩⟩, ⟨"library", "a", ⟨"master", 0, 1⟩⟩] ∈ t.candidateKeys := by
  obtain ⟨t, ht⟩ : ∃ t, init SetOrder.insertion (twoVersions "dataset" 0) = .ok t := ⟨_, rfl⟩
  obtain ⟨hnodup, hmem, -⟩ := candidates_sound_complete_unique (n := 2) (by decide) (by decide)
    (by decide) ht
  refine ⟨t, ht, hnodup, (hmem _).mpr ⟨rfl, by decide, ?_⟩⟩
  intro i hi
  have hi : i + 1 < 2 := hi
  obtain rfl : i = 0 := by omega
  exact Or.inl ⟨0, _, List.mem_cons_self, _, List.mem_cons_of_mem _ List.mem_cons_self,
    rfl, rfl, _, rfl, rfl⟩

/-- A component of type `TrialTree` is followed by components that no two workspaces link to
it. -/
theorem rootType_candidate_not_linked : ∃ t,
    init SetOrder.insertion (twoVersions "TrialTree" 1) = .ok t ∧
    [⟨"TrialTree", "d", ⟨"h", 0, 0⟩⟩, ⟨"library", "a", ⟨"master", 0, 1⟩⟩] ∈ t.candidateKeys ∧
    ¬ Linked (twoVersions "TrialTree" 1) ⟨"TrialTree", "d", ⟨"h", 0, 0⟩⟩
      ⟨"library", "a", ⟨"master", 0, 1⟩⟩ := by
  obtain ⟨compDict, hcomp⟩ :
      ∃ compDict, initCompatibilityDict2 (twoVersions "TrialTree" 1) = .ok compDict := ⟨_, rfl⟩
  refine ⟨_, rfl, by decide, ?_⟩
  rw [← mem_initCompatibilityDict2 hcomp (n := 2) (by decide)]
  obtain rfl := Except.ok.inj hcomp
  decide

end SecCask.Pipeman.TrialTree
