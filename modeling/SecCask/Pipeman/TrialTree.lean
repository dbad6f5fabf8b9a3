import Mathlib.Data.List.ProdSigma
import Mathlib.Data.List.Dedup
import SecCask.Lib.RoseTree
import SecCask.Pipeman.WorkspaceMeta

/-!
# SecCask.Pipeman.TrialTree

`pipeman/TrialTree.py`. The tree of all candidate pipelines of a list of workspaces: one
level per stage, pruned by the pairs of components that are known to go together, and
marked with what the workspaces have already trained.
-/

namespace SecCask.Pipeman

/-- `ROOT_KEY` -/
def rootKey : MetaKey := ⟨"TrialTree", "root", SemanticVersion.buildZeroVersion⟩

/-- A node of the tree without its children. -/
structure TreeNode where
  key : MetaKey
  wsKey : Option MetaKey
  trained : Bool
  pruned : Bool
  output : String
  params : Params
  deriving DecidableEq

namespace TreeNode

/-- `TreeNode(node_key, trained)` -/
def new (key : MetaKey) (trained : Bool) : TreeNode where
  key := key
  wsKey := none
  trained := trained
  pruned := false
  output := ""
  params := .dict ∅

def isRoot (n : TreeNode) : Bool := decide (n.key.componentType = "TrialTree")

@[simp] theorem key_new (key : MetaKey) (trained : Bool) : (new key trained).key = key := rfl

end TreeNode

/-- The order in which iterating over the `children` of the node at a path visits them. A set
of nodes is ordered by object hashes: the order is arbitrary, and it is the same at every
iteration as long as the set is not changed. -/
structure SetOrder where
  arrange : List MetaKey → List MetaKey → List MetaKey
  arrange_perm : ∀ path keys, (arrange path keys).Perm keys

/-- Children in the order in which they were added. -/
def SetOrder.insertion : SetOrder where
  arrange := fun _ keys => keys
  arrange_perm := fun _ _ => List.Perm.refl _

abbrev Tree := RoseTree TreeNode

namespace Tree

/-- `Tree()` -/
def empty : Tree := .node (TreeNode.new rootKey true) []

def newChild (key : MetaKey) : Tree :=
  .node (TreeNode.new key (decide (key.componentType = MetaKey.genericDatasetKey))) []

/-- The inner loop of `add_nodes` at one parent node. -/
def addChildren (order : SetOrder) (keySet : List MetaKey) (path : List TreeNode)
    (t : Tree) : Tree :=
  .node t.label (t.children ++ (order.arrange (path.map (·.key)) keySet).map newChild)

/-- `tree.add_nodes(stage_dict, depth)`. A stage that no pipeline reaches is missing from
the dictionary. -/
def addNodes (order : SetOrder) (stageDict : ℕ → List MetaKey) (depth : ℕ) (t : Tree) :
    Except PyError Tree :=
  (List.range depth).foldlM (fun t i =>
    if stageDict i = [] then .error .keyError
    else .ok (RoseTree.atLevel (addChildren order (stageDict i)) i [] t)) t

end Tree

namespace TrialTree

/-- The keys at position `i` of the pipelines: `stage_dict[i]`. -/
def stageDict (workspaces : List WorkspaceMeta) (i : ℕ) : List MetaKey :=
  workspaces.foldl (fun keys w =>
    match w.pipeline[i]? with
    | some key => keys.insert key
    | none => keys) []

/-- One more than the largest position in a pipeline. -/
def treeDepth (workspaces : List WorkspaceMeta) : ℕ :=
  workspaces.foldl (fun depth w => max depth (w.pipeline.length - 1)) 0 + 1

/-- The keys that the pipelines have at positions `i` and `i + 1`. -/
def adjacentKeys (workspaces : List WorkspaceMeta) (i : ℕ) :
    Except PyError (List (MetaKey × MetaKey)) :=
  workspaces.mapM fun w =>
    match w.pipeline[i]?, w.pipeline[i + 1]? with
    | some current, some next => .ok (current, next)
    | _, _ => .error .indexError

/-- `current_stage[api] × next_stage[api]` for every API version of the current stage. -/
def stagePairs (rows : List (MetaKey × MetaKey)) : List (MetaKey × MetaKey) :=
  (rows.map fun row => row.1.componentVersion.apiVersion).dedup.flatMap fun api =>
    let group := rows.filter fun row => row.1.componentVersion.apiVersion = api
    group.map (·.1) ×ˢ group.map (·.2)

/-- `_init_compatibility_dict2` -/
def initCompatibilityDict2 (workspaces : List WorkspaceMeta) :
    Except PyError (List (MetaKey × MetaKey)) :=
  match workspaces with
  | [] => .error .indexError
  | first :: _ =>
      (List.range (first.pipeline.length - 1)).foldlM (fun pairs i => do
        let rows ← adjacentKeys workspaces i
        return pairs ++ stagePairs rows) []

/-- The condition under which `_dfs_prune` walks on into a child. -/
def walkable (compDict : List (MetaKey × MetaKey)) (node child : TreeNode) : Bool :=
  compDict.contains (node.key, child.key) || node.isRoot

mutual

/-- `_dfs_prune`: the tree with its pruned nodes marked, and the lists appended to
`_all_walked_node_list`. -/
def dfsPrune (compDict : List (MetaKey × MetaKey)) (walking : List TreeNode) :
    Tree → Tree × List (List TreeNode)
  | .node node children =>
      if children.isEmpty then (.node node children, [walking])
      else
        let (children, walked) := dfsPruneChildren compDict walking node children
        (.node node children, walked)

/-- The loop of `_dfs_prune` over the children of a node. -/
def dfsPruneChildren (compDict : List (MetaKey × MetaKey)) (walking : List TreeNode)
    (node : TreeNode) : List Tree → List Tree × List (List TreeNode)
  | [] => ([], [])
  | child :: rest =>
      let (child, walked) :=
        if walkable compDict node child.label then
          dfsPrune compDict (walking ++ [child.label]) child
        else (.node { child.label with pruned := true } child.children, [])
      let (rest, walkedRest) := dfsPruneChildren compDict walking node rest
      (child :: rest, walked ++ walkedRest)

end

/-- What `_mark_trained_routine` does to the node of one of the workspace's components. -/
def markNode (w : WorkspaceMeta) (n : TreeNode) : Except PyError TreeNode :=
  if n.key.componentType = MetaKey.genericLibraryKey then do
    let output ← w.outputOf n.key.toStringWithVersion
    let params ← w.paramsOf n.key.toStringWithVersion
    return { n with output := output, params := params, trained := true, wsKey := some w.key }
  else .ok { n with trained := true, wsKey := some w.key }

/-- `_mark_trained_routine` below a node, for the rest of the pipeline. A component without
a matching child leaves the walk where it is. -/
def markTrainedRoutine (w : WorkspaceMeta) : List MetaKey → Tree → Except PyError Tree
  | [], t => .ok t
  | key :: pipeline, .node node children =>
      match children.dropWhile fun c => decide (key ≠ c.label.key) with
      | [] => markTrainedRoutine w pipeline (.node node children)
      | child :: after => do
          let marked ← markNode w child.label
          let child ← markTrainedRoutine w pipeline (.node marked child.children)
          return .node node
            ((children.takeWhile fun c => decide (key ≠ c.label.key)) ++ child :: after)

/-- The marking loop of `TrialTree.__init__` for one workspace. -/
def markIfTrained (t : Tree) (w : WorkspaceMeta) : Except PyError Tree :=
  match w.outputs with
  | none => .ok t
  | some outputs => if outputs.len ≠ 0 then markTrainedRoutine w w.pipeline t else .ok t

end TrialTree

structure TrialTree where
  compDict : List (MetaKey × MetaKey)
  tree : Tree
  candidateNodeLists : List (List TreeNode)

namespace TrialTree

/-- `TrialTree(workspaces)` -/
def init (order : SetOrder) (workspaces : List WorkspaceMeta) : Except PyError TrialTree := do
  let compDict ← initCompatibilityDict2 workspaces
  let tree ← Tree.addNodes order (stageDict workspaces) (treeDepth workspaces) Tree.empty
  let tree ← workspaces.foldlM markIfTrained (dfsPrune compDict [] tree).1
  let (tree, candidates) := dfsPrune compDict [] tree
  return ⟨compDict, tree, candidates⟩

/-- The component keys along each candidate. -/
def candidateKeys (t : TrialTree) : List (List MetaKey) :=
  t.candidateNodeLists.map (List.map (·.key))

/-! ### Stages and pairs -/

theorem mem_stageDict {workspaces : List WorkspaceMeta} {i : ℕ} {key : MetaKey} :
    key ∈ stageDict workspaces i ↔ ∃ w ∈ workspaces, w.pipeline[i]? = some key := by
  have hfold : ∀ keys : List MetaKey,
      key ∈ workspaces.foldl (fun keys w =>
        match w.pipeline[i]? with
        | some key => keys.insert key
        | none => keys) keys ↔ key ∈ keys ∨ ∃ w ∈ workspaces, w.pipeline[i]? = some key := by
    induction workspaces with
    | nil => simp
    | cons w ws ih =>
        intro keys
        rw [List.foldl_cons, ih]
        cases hw : w.pipeline[i]? with
        | none => simp [hw]
        | some k =>
            simp only [List.mem_insert_iff, List.mem_cons, exists_eq_or_imp, hw,
              Option.some.injEq]
            rw [or_comm (a := key = k), or_assoc, eq_comm (a := key)]
  simpa [stageDict] using hfold []

theorem nodup_stageDict (workspaces : List WorkspaceMeta) (i : ℕ) :
    (stageDict workspaces i).Nodup := by
  have hfold : ∀ keys : List MetaKey, keys.Nodup →
      (workspaces.foldl (fun keys w =>
        match w.pipeline[i]? with
        | some key => keys.insert key
        | none => keys) keys).Nodup := by
    induction workspaces with
    | nil => exact fun _ hkeys => hkeys
    | cons w ws ih =>
        intro keys hkeys
        rw [List.foldl_cons]
        cases w.pipeline[i]? with
        | none => exact ih keys hkeys
        | some k => exact ih _ hkeys.insert
  exact hfold [] List.nodup_nil

theorem mem_stagePairs {rows : List (MetaKey × MetaKey)} {a b : MetaKey} :
    (a, b) ∈ stagePairs rows ↔ ∃ r ∈ rows, ∃ r' ∈ rows, r.1 = a ∧ r'.2 = b ∧
      r.1.componentVersion.apiVersion = r'.1.componentVersion.apiVersion := by
  simp only [stagePairs, List.mem_flatMap, List.mem_dedup, List.mem_map, List.mem_product,
    List.mem_filter, decide_eq_true_eq]
  constructor
  · intro hex
    obtain ⟨api, -, ⟨r, ⟨hr, hapi⟩, rfl⟩, r', ⟨hr', hapi'⟩, rfl⟩ := hex
    exact ⟨r, hr, r', hr', rfl, rfl, hapi.trans hapi'.symm⟩
  · intro hex
    obtain ⟨r, hr, r', hr', rfl, rfl, hapi⟩ := hex
    exact ⟨_, ⟨r, hr, rfl⟩, ⟨r, ⟨hr, rfl⟩, rfl⟩, r', ⟨hr', hapi.symm⟩, rfl⟩

end TrialTree

end SecCask.Pipeman
