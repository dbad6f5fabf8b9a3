import SecCask.Pipeman.Candidates

/-!
# SecCask.Pipeman.MergeTraining

`TrialTree.dfs_train` walks the pruned tree with a list of the nodes on the way and hands
that list to a training function at every leaf. It never asks which pairs of components go
together: it trusts the `pruned` flags that `_dfs_prune` has left. The nodes are objects, so
what one call of the function does to them is there in the next call.

The walk is a fold of the calls over the walks of the tree along unpruned children
(`dfsTrain_eq_foldl`), and the flags leave exactly the candidates (`walks_unpruned`).
-/

namespace SecCask.Pipeman.TrialTree

/-- Where `dfs_train` is: the objects with all else that the training function can change,
`_walking_node_list` and `_all_walked_node_list`. The calls of the function are recorded with
the nodes as they were received. -/
structure TrainState (Ref σ : Type*) where
  memory : σ
  walking : List Ref
  allWalked : List (List TreeNode)
  calls : List (List (Ref × TreeNode))

namespace TrainState

variable {Ref σ : Type*}

/-- `self._walking_node_list.append(child)` -/
def append (s : TrainState Ref σ) (child : Ref) : TrainState Ref σ :=
  { s with walking := s.walking ++ [child] }

/-- `self._walking_node_list.pop()` -/
def pop (s : TrainState Ref σ) : TrainState Ref σ := { s with walking := s.walking.dropLast }

@[simp] theorem memory_append (s : TrainState Ref σ) (child : Ref) :
    (s.append child).memory = s.memory := rfl

@[simp] theorem walking_append (s : TrainState Ref σ) (child : Ref) :
    (s.append child).walking = s.walking ++ [child] := rfl

@[simp] theorem pop_append (s : TrainState Ref σ) (child : Ref) : (s.append child).pop = s := by
  simp [append, pop]

end TrainState

section Walk

variable {Ref σ : Type*} (nodes : σ → Ref → TreeNode) (train : List Ref → σ → σ)

/-- The call of the training function at a leaf. -/
def callTrain (received : List Ref) (s : TrainState Ref σ) : TrainState Ref σ :=
  let memory := train received s.memory
  { memory := memory
    walking := s.walking
    allWalked := s.allWalked ++ [received.map (nodes memory)]
    calls := s.calls ++ [received.map fun r => (r, nodes s.memory r)] }

mutual

/-- `dfs_train` -/
def dfsTrain : RoseTree Ref → TrainState Ref σ → TrainState Ref σ
  | .node _ children, s =>
      if children.isEmpty then callTrain nodes train s.walking s
      else dfsTrainChildren children s

/-- The loop of `dfs_train` over the children of a node. -/
def dfsTrainChildren : List (RoseTree Ref) → TrainState Ref σ → TrainState Ref σ
  | [], s => s
  | child :: rest, s =>
      let s := s.append child.label
      let s := if (nodes s.memory child.label).pruned then s else dfsTrain child s
      dfsTrainChildren rest s.pop

end

/-! ### The walk as a sequence of calls -/

/-- The calls for some lists of nodes, one after the other. -/
def callAll (lists : List (List Ref)) (s : TrainState Ref σ) : TrainState Ref σ :=
  lists.foldl (fun s received => callTrain nodes train received s) s

variable {nodes train}

theorem callAll_append (front back : List (List Ref)) (s : TrainState Ref σ) :
    callAll nodes train (front ++ back) s =
      callAll nodes train back (callAll nodes train front s) :=
  List.foldl_append

theorem callAll_invariant {P : TrainState Ref σ → Prop} {lists : List (List Ref)}
    (hcall : ∀ received ∈ lists, ∀ s, P s → P (callTrain nodes train received s))
    {s : TrainState Ref σ} (hs : P s) : P (callAll nodes train lists s) := by
  induction lists generalizing s with
  | nil => exact hs
  | cons received lists ih =>
      exact ih (fun later hlater => hcall later (by simp [hlater])) (hcall _ (by simp) s hs)

/-- The calls do not look at the walking list. -/
theorem pop_callAll (lists : List (List Ref)) (s : TrainState Ref σ) :
    (callAll nodes train lists s).pop = callAll nodes train lists s.pop := by
  induction lists generalizing s with
  | nil => rfl
  | cons received lists ih => exact ih (callTrain nodes train received s)

@[simp] theorem walking_callAll (lists : List (List Ref)) (s : TrainState Ref σ) :
    (callAll nodes train lists s).walking = s.walking :=
  callAll_invariant (P := fun u => u.walking = s.walking) (fun _ _ _ hu => hu) rfl

/-- What every call keeps of each node is kept by all of them. -/
theorem field_callAll {α : Type*} {field : TreeNode → α}
    (hkeeps : ∀ received m r, field (nodes (train received m) r) = field (nodes m r))
    (lists : List (List Ref)) (s : TrainState Ref σ) (r : Ref) :
    field (nodes (callAll nodes train lists s).memory r) = field (nodes s.memory r) :=
  callAll_invariant (P := fun u => field (nodes u.memory r) = field (nodes s.memory r))
    (fun _ _ _ hu => (hkeeps _ _ _).trans hu) rfl

section Flags

variable {isPruned : Ref → Bool}

mutual

/-- As long as no call changes a `pruned` flag, `dfs_train` calls the function for the walks
of the tree along unpruned children. -/
theorem dfsTrain_eq_callAll
    (hkeeps : ∀ received m r, (nodes (train received m) r).pruned = (nodes m r).pruned) :
    ∀ (t : RoseTree Ref) (s : TrainState Ref σ), (∀ r, (nodes s.memory r).pruned = isPruned r) →
    dfsTrain nodes train t s =
      callAll nodes train ((t.walks fun _ r => !isPruned r).map (s.walking ++ ·)) s
  | .node r children, s, hs => by
      rw [dfsTrain, RoseTree.walks]
      split
      · simp [callAll]
      · exact dfsTrainChildren_eq_callAll hkeeps r children s hs

theorem dfsTrainChildren_eq_callAll
    (hkeeps : ∀ received m r, (nodes (train received m) r).pruned = (nodes m r).pruned) (r : Ref) :
    ∀ (children : List (RoseTree Ref)) (s : TrainState Ref σ),
    (∀ r, (nodes s.memory r).pruned = isPruned r) →
    dfsTrainChildren nodes train children s =
      callAll nodes train ((RoseTree.walksThrough (fun _ r => !isPruned r) r children).map
        (s.walking ++ ·)) s
  | [], s, _ => rfl
  | child :: rest, s, hs => by
      rw [dfsTrainChildren, RoseTree.walksThrough]
      by_cases hchild : isPruned child.label = true
      · have hrest := dfsTrainChildren_eq_callAll hkeeps r rest s hs
        simpa [hs, hchild] using hrest
      · -- The child is popped after its walks, and the flags are still the same.
        have hwalk := dfsTrain_eq_callAll hkeeps child (s.append child.label) hs
        have hflags : ∀ lists r,
            (nodes (callAll nodes train lists s).memory r).pruned = isPruned r :=
          fun lists r => (field_callAll hkeeps lists s r).trans (hs r)
        rw [if_neg (by simpa [hs] using hchild), hwalk, pop_callAll, TrainState.pop_append,
          dfsTrainChildren_eq_callAll hkeeps r rest _ (hflags _)]
        simp [hchild, callAll_append, Function.comp_def]

end

end Flags

/-! ### What the calls receive -/

/-- Nothing that every call keeps looks different in a call from what it was at the start. -/
theorem calls_callAll {α : Type*} {field : TreeNode → α}
    (hkeeps : ∀ received m r, field (nodes (train received m) r) = field (nodes m r))
    (lists : List (List Ref)) (s : TrainState Ref σ) :
    (callAll nodes train lists s).calls.map (List.map fun x => field x.2) =
      s.calls.map (List.map fun x => field x.2) ++
        lists.map (List.map fun r => field (nodes s.memory r)) := by
  induction lists generalizing s with
  | nil => simp [callAll]
  | cons received lists ih =>
      refine (ih (callTrain nodes train received s)).trans ?_
      have hlater : (fun r => field (nodes (callTrain nodes train received s).memory r)) =
          fun r => field (nodes s.memory r) := funext fun r => hkeeps received s.memory r
      rw [hlater]
      simp [callTrain, Function.comp_def]

/-- The call receives the node, and it is not trained. -/
def ReceivesUntrained (r : Ref) (call : List (Ref × TreeNode)) : Prop :=
  ∃ x ∈ call, x.1 = r ∧ x.2.trained = false

/-- The node is received untrained once at most. -/
def TrainedOnce (r : Ref) (s : TrainState Ref σ) : Prop :=
  s.calls.Pairwise fun earlier later => ¬ (ReceivesUntrained r earlier ∧ ReceivesUntrained r later)

theorem mem_of_receivesUntrained {r : Ref} {received : List Ref} {m : σ}
    (h : ReceivesUntrained r (received.map fun r => (r, nodes m r))) :
    r ∈ received ∧ (nodes m r).trained = false := by
  obtain ⟨x, hx, rfl, huntrained⟩ := h
  obtain ⟨r, hr, rfl⟩ := List.mem_map.mp hx
  exact ⟨hr, huntrained⟩

/-- A call adds no second one where it does not receive the node untrained, or no call before
it did. -/
theorem TrainedOnce.callTrain {r : Ref} {s : TrainState Ref σ} (hs : TrainedOnce r s)
    {received : List Ref} (h : (r ∈ received → (nodes s.memory r).trained = true) ∨
      ∀ call ∈ s.calls, ¬ ReceivesUntrained r call) :
    TrainedOnce r (callTrain nodes train received s) := by
  refine List.pairwise_append.mpr ⟨hs, List.pairwise_singleton _ _, ?_⟩
  intro earlier hearlier later hlater hboth
  obtain rfl := List.mem_singleton.mp hlater
  rcases h with htrained | hnone
  · obtain ⟨hr, huntrained⟩ := mem_of_receivesUntrained hboth.2
    rw [htrained hr] at huntrained
    cases huntrained
  · exact hnone earlier hearlier hboth.1

/-- Where the lists that have the node follow each other, the first of these calls marks it
for the next ones, and the calls behind them do not receive it. -/
theorem trainedOnce_callAll
    (hmarks : ∀ received m r, r ∈ received → (nodes (train received m) r).trained = true)
    {r : Ref} {lists : List (List Ref)} (htogether : RoseTree.Together r lists)
    {s : TrainState Ref σ} (hs : s.calls = []) : TrainedOnce r (callAll nodes train lists s) := by
  obtain ⟨front, block, back, rfl, hfront, hblock, hback⟩ := htogether
  rw [callAll_append, callAll_append]
  have hnone : ∀ call ∈ (callAll nodes train front s).calls, ¬ ReceivesUntrained r call := by
    refine callAll_invariant (P := fun u => ∀ call ∈ u.calls, ¬ ReceivesUntrained r call) ?_
      (by simp [hs])
    intro received hreceived u hu call hcall huntrained
    rcases List.mem_append.mp hcall with hcall | hcall
    · exact hu call hcall huntrained
    · obtain rfl := List.mem_singleton.mp hcall
      exact hfront received hreceived (mem_of_receivesUntrained huntrained).1
  generalize callAll nodes train front s = s' at hnone ⊢
  have hfresh : TrainedOnce r s' :=
    List.Pairwise.imp_of_mem (R := fun _ _ => True)
      (fun hearlier _ _ hboth => hnone _ hearlier hboth.1) (List.pairwise_of_forall (by simp))
  have hpassed : TrainedOnce r (callAll nodes train block s') := by
    cases block with
    | nil => exact hfresh
    | cons first rest =>
        have hfirst : r ∈ first := hblock first (by simp)
        have hrest : ∀ received ∈ rest, r ∈ received := fun received hreceived =>
          hblock received (List.mem_cons_of_mem _ hreceived)
        have hmarked : (nodes (SecCask.Pipeman.TrialTree.callTrain nodes train first s').memory
            r).trained = true := hmarks _ _ _ hfirst
        have hfrom : TrainedOnce r (SecCask.Pipeman.TrialTree.callTrain nodes train first s') ∧
            (nodes (SecCask.Pipeman.TrialTree.callTrain nodes train first s').memory
              r).trained = true := ⟨hfresh.callTrain (.inr hnone), hmarked⟩
        refine (callAll_invariant
          (P := fun u => TrainedOnce r u ∧ (nodes u.memory r).trained = true) (fun received hreceived u hu => ?_) hfrom).1
        exact ⟨hu.1.callTrain (.inl fun _ => hu.2), hmarks _ _ _ (hrest received hreceived)⟩
  exact callAll_invariant (P := TrainedOnce r)
    (fun received hreceived u hu => hu.callTrain (.inl fun hr => absurd hr (hback _ hreceived)))
    hpassed

end Walk

/-! ### The flags that pruning leaves -/

/-- A pruned node does not go with the node before it on the path. -/
def FlagFits (compDict : List (MetaKey × MetaKey)) (path : List MetaKey) (n : TreeNode) : Prop :=
  n.pruned = true → goesWith compDict (path.dropLast.getLastD rootKey) n.key = false

theorem flagFits_dfsPrune {compDict : List (MetaKey × MetaKey)} {t : Tree}
    (ht : t.Everywhere (·.key) (FlagFits compDict) []) (hroot : t.label.key = rootKey)
    (walking : List TreeNode) :
    (dfsPrune compDict walking t).1.Everywhere (·.key) (FlagFits compDict) [] := by
  refine everywhere_dfsPrune ?_ ht hroot walking
  intro path a n hparent hwalk _ _
  rw [List.dropLast_concat, ← hparent]
  exact hwalk

theorem flagFits_markNode {compDict : List (MetaKey × MetaKey)} {w : WorkspaceMeta}
    {path : List MetaKey} {n n' : TreeNode} (h : markNode w n = .ok n')
    (hn : FlagFits compDict path n) : FlagFits compDict path n' := by
  have hpruned : n'.pruned = n.pruned := by
    unfold markNode at h
    split at h
    · obtain ⟨output, -, h⟩ := bind_eq_ok_iff.mp h
      obtain ⟨params, -, h⟩ := bind_eq_ok_iff.mp h
      obtain rfl := Except.ok.inj h
      rfl
    · obtain rfl := Except.ok.inj h
      rfl
  rwa [FlagFits, hpruned, key_markNode h]

theorem flagFits_markTrainedRoutine {compDict : List (MetaKey × MetaKey)} {w : WorkspaceMeta}
    {pipeline path : List MetaKey} {t t' : Tree} (h : markTrainedRoutine w pipeline t = .ok t')
    (ht : t.Everywhere (·.key) (FlagFits compDict) path) :
    t'.Everywhere (·.key) (FlagFits compDict) path := by
  induction pipeline generalizing path t t' with
  | nil =>
      obtain rfl := Except.ok.inj h
      exact ht
  | cons key pipeline ih =>
      cases t with
      | node a cs =>
          rw [markTrainedRoutine] at h
          split at h
          · exact ih h ht
          · rename_i child after hdrop
            obtain ⟨marked, hmarked, h⟩ := bind_eq_ok_iff.mp h
            obtain ⟨child', hchild', h⟩ := bind_eq_ok_iff.mp h
            obtain rfl := Except.ok.inj h
            obtain ⟨hsplit, -⟩ := split_of_dropWhile hdrop
            generalize (cs.takeWhile fun c => decide (key ≠ c.label.key)) = before at hsplit ⊢
            subst hsplit
            have hlabel := (grid_markTrainedRoutine hchild').1
            have hkey : child'.label.key = child.label.key := by
              rw [hlabel]
              exact key_markNode hmarked
            refine .replace_child ?_ ?_ ?_
            · intro e he
              have hmem : e ∈ before ++ child :: after := by
                rcases List.mem_append.mp he with he | he <;> simp [he]
              exact ⟨ht.label e hmem, ht.child e hmem⟩
            · rw [hkey, hlabel]
              exact flagFits_markNode hmarked (ht.label child (by simp))
            · rw [hkey]
              exact ih hchild' ((ht.child child (by simp)).relabel marked)

/-- Where the flags fit beforehand, the walks along the children that pruning leaves unpruned
spell what the walks along compatible pairs do. -/
theorem walks_dfsPrune {compDict : List (MetaKey × MetaKey)} {path : List MetaKey} {t : Tree}
    (ht : t.Everywhere (·.key) (FlagFits compDict) path)
    (hparent : t.label.key = path.getLastD rootKey) (walking : List TreeNode) :
    ((dfsPrune compDict walking t).1.walks fun _ n => !n.pruned).map (List.map (·.key)) =
      (t.walks fun a b => goesWith compDict a.key b.key).map (List.map (·.key)) := by
  induction ht generalizing walking with
  | @node path a cs hlabel hchild ih =>
      rw [dfsPrune]
      split
      · rename_i hempty
        rw [RoseTree.walks_leaf _ (by simpa using hempty),
          RoseTree.walks_leaf _ (by simpa using hempty)]
      · rename_i hne
        rw [dfsPruneChildren_eq, RoseTree.walks_node _ (by simpa using hne),
          RoseTree.walks_node _ (by simpa using hne)]
        simp only [RoseTree.children_node, RoseTree.label_node, List.flatMap_map,
          List.map_flatMap]
        refine List.flatMap_congr ?_
        intro c hc
        have hwalk : walkable compDict a c.label = goesWith compDict a.key c.label.key := rfl
        rw [hwalk]
        by_cases hgoes : goesWith compDict a.key c.label.key = true
        · -- A flag that fits is not set at a child that goes with its parent.
          have hflag : c.label.pruned = false := by
            refine eq_false_of_ne_true fun hpruned => ?_
            have hnot := hlabel c hc hpruned
            rw [List.dropLast_concat, ← hparent, RoseTree.label_node, hgoes] at hnot
            cases hnot
          have hbelow := ih c hc (by simp) (walking ++ [c.label])
          have hcons := congrArg (List.map (c.label.key :: ·)) hbelow
          simp only [hgoes, if_true, label_dfsPrune, hflag, Bool.not_false]
          simpa [Function.comp_def] using hcons
        · simp [hgoes]

/-- In the tree of a `TrialTree` the walks along unpruned children spell the candidates. -/
theorem walks_unpruned {order : SetOrder} {workspaces : List WorkspaceMeta} {t : TrialTree}
    (h : init order workspaces = .ok t) :
    (t.tree.walks fun _ n => !n.pruned).map (List.map (·.key)) = t.candidateKeys := by
  obtain ⟨built, marked, -, hbuilt, hmarked, hwalks, htree⟩ := exists_marked_of_init h
  obtain ⟨hgrid, hlabel, -⟩ := grid_addNodes hbuilt
  have hroot : built.label.key = rootKey := by
    rw [hlabel]
    rfl
  have hbuiltFlags : built.Everywhere (·.key) (FlagFits t.compDict) [] :=
    everywhere_addNodes (fun _ _ hpruned => nomatch hpruned) hbuilt
  have hflags : marked.Everywhere (·.key) (FlagFits t.compDict) [] := by
    refine foldlM_invariant (P := fun u => u.Everywhere (·.key) (FlagFits t.compDict) []) hmarked
      (flagFits_dfsPrune hbuiltFlags hroot []) ?_
    intro w _ u u' hu hround
    unfold markIfTrained at hround
    split at hround
    · obtain rfl := Except.ok.inj hround
      exact hu
    · split at hround
      · exact flagFits_markTrainedRoutine hround hu
      · obtain rfl := Except.ok.inj hround
        exact hu
  have hmarkedRoot : marked.label.key = rootKey := by
    rw [(grid_marked hmarked (grid_dfsPrune t.compDict [] hgrid)).2, label_dfsPrune, hroot]
  rw [htree, candidateKeys, hwalks]
  exact walks_dfsPrune hflags hmarkedRoot []

/-! ### Merge training -/

/-- **Merge training visits exactly the candidates.** `root` is the tree of the nodes as
objects, whose children nothing changes. The calls spell the candidates one by one, no call
receives a pruned node, and the walking list is empty at the end. Where the nodes are objects
of their own and the function marks what it receives as trained, no node is received untrained
twice. -/
theorem dfsTrain_visits_candidates {Ref σ : Type*} {nodes : σ → Ref → TreeNode}
    {train : List Ref → σ → σ} {order : SetOrder} {workspaces : List WorkspaceMeta} {t : TrialTree}
    (h : init order workspaces = .ok t) {root : RoseTree Ref} {memory : σ}
    (hroot : root.map (nodes memory) = t.tree)
    (hkeeps : ∀ received m r, (nodes (train received m) r).key = (nodes m r).key ∧
      (nodes (train received m) r).pruned = (nodes m r).pruned) :
    let final := dfsTrain nodes train root ⟨memory, [], t.candidateNodeLists, []⟩
    final.walking = [] ∧ final.calls.map (List.map (·.2.key)) = t.candidateKeys ∧
      t.candidateKeys.Nodup ∧ (∀ call ∈ final.calls, ∀ x ∈ call, x.2.pruned = false) ∧
      (root.labels.Nodup →
        (∀ received m r, r ∈ received → (nodes (train received m) r).trained = true) →
        final.calls.Pairwise fun earlier later =>
          ∀ r, ¬ (ReceivesUntrained r earlier ∧ ReceivesUntrained r later)) := by
  intro final
  have hkey := fun received m r => (hkeeps received m r).1
  have hpruned := fun received m r => (hkeeps received m r).2
  let lists := root.walks fun _ r => !(nodes memory r).pruned
  have hfinal : final =
      callAll nodes train lists ⟨memory, [], t.candidateNodeLists, []⟩ := by
    have hfold := dfsTrain_eq_callAll hpruned root ⟨memory, [], t.candidateNodeLists, []⟩
      (fun _ => rfl)
    simpa using hfold
  have hlists : lists.map (List.map fun r => (nodes memory r).key) = t.candidateKeys := by
    rw [← walks_unpruned h, ← hroot, RoseTree.walks_map, List.map_map]
    simp [lists, Function.comp_def]
  refine ⟨?_, ?_, nodup_candidateKeys h, ?_, ?_⟩
  · rw [hfinal, walking_callAll]
  · rw [hfinal, calls_callAll hkey, ← hlists]
    rfl
  · intro call hcall x hx
    have hflags : call.map (·.2.pruned) ∈ final.calls.map (List.map (·.2.pruned)) :=
      List.mem_map_of_mem hcall
    rw [hfinal, calls_callAll hpruned] at hflags
    obtain ⟨walk, hwalk, heq⟩ := List.mem_map.mp hflags
    have hmem : x.2.pruned ∈ walk.map fun r => (nodes memory r).pruned := by
      rw [heq]
      exact List.mem_map_of_mem hx
    obtain ⟨r, hr, hrx⟩ := List.mem_map.mp hmem
    have hunpruned := RoseTree.allowed_of_mem_walks hwalk hr
    rw [← hrx]
    simpa using hunpruned
  · intro hobjects hmarks
    have honce : ∀ r, TrainedOnce r final := by
      intro r
      rw [hfinal]
      exact trainedOnce_callAll hmarks (RoseTree.together_walks r root hobjects) rfl
    exact List.pairwise_iff_getElem.mpr fun i j hi hj hij r =>
      List.pairwise_iff_getElem.mp (honce r) i j hi hj hij

/-- The end of `_train_node_list`: `node.trained = True` for the nodes of the list. -/
def markReceived {Ref : Type*} [DecidableEq Ref] (received : List Ref)
    (memory : Ref → TreeNode) (r : Ref) : TreeNode :=
  if r ∈ received then { memory r with trained := true } else memory r

/-- Two versions of two libraries with one API: the nodes of the first stage are numbered 1
and 4, and each of them has both nodes of the second stage as children. -/
def numberedRoot : RoseTree ℕ :=
  .node 0 [.node 1 [.node 2 [], .node 3 []], .node 4 [.node 5 [], .node 6 []]]

def numberedNodes (r : ℕ) : TreeNode :=
  let first (inc : ℕ) : TreeNode := TreeNode.new ⟨"library", "d", ⟨"h", 0, inc⟩⟩ false
  let second (inc : ℕ) : TreeNode := TreeNode.new ⟨"library", "a", ⟨"master", 0, inc⟩⟩ false
  [TreeNode.new rootKey true, first 1, second 1, second 0, first 0, second 1,
    second 0].getD r (first 0)

theorem sharedLibrary_trained_once : ∃ t,
    init SetOrder.insertion (twoVersions "library" 0) = .ok t ∧
    let final := dfsTrain (fun memory r => memory r) markReceived numberedRoot
      ⟨numberedNodes, [], t.candidateNodeLists, []⟩
    final.walking = [] ∧ final.calls.map (List.map (·.2.key)) = t.candidateKeys ∧
      final.calls.Pairwise fun earlier later =>
        ∀ r, ¬ (ReceivesUntrained r earlier ∧ ReceivesUntrained r later) := by
  obtain ⟨t, ht⟩ : ∃ t, init SetOrder.insertion (twoVersions "library" 0) = .ok t := ⟨_, rfl⟩
  have hroot : numberedRoot.map numberedNodes = t.tree := by
    obtain rfl := Except.ok.inj ht
    rfl
  have hkeeps : ∀ (received : List ℕ) (memory : ℕ → TreeNode) (r : ℕ),
      (markReceived received memory r).key = (memory r).key ∧
        (markReceived received memory r).pruned = (memory r).pruned := by
    intro received memory r
    unfold markReceived
    split <;> exact ⟨rfl, rfl⟩
  obtain ⟨hwalking, hkeys, -, -, honce⟩ :=
    @dfsTrain_visits_candidates ℕ (ℕ → TreeNode) (fun memory r => memory r) markReceived _ _ _ ht
      numberedRoot numberedNodes hroot hkeeps
  refine ⟨t, ht, hwalking, hkeys, honce (by decide) ?_⟩
  intro received memory r hr
  rw [markReceived, if_pos hr]

end SecCask.Pipeman.TrialTree
