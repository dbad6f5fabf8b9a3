import SecCask.Pipeman.TrainedMarks
import SecCask.Pipeman.TrialManager

/-!
# SecCask.Pipeman.PipelineLookup

When `commit_workspace` finds the proposed pipeline in the tree that it builds from the
branch's head and the proposed workspace. The stages follow the longer of the two
pipelines, while the compatible pairs are collected for the positions of the head alone.
-/

namespace SecCask.Pipeman.TrialTree

/-! ### When the proposed pipeline is found -/

/-- Building the tree raises nothing, the proposed pipeline is among its candidates, and
`commit_workspace` finds it there. -/
def Finds (order : SetOrder) (previous workspace : WorkspaceMeta) : Prop :=
  ∃ t, init order [previous, workspace] = .ok t ∧ workspace.pipeline ∈ t.candidateKeys ∧
    ∃ nodes, TrialManager.first t.candidateNodeLists
      (fun nodes => TrialManager.equal nodes workspace.pipeline) = .ok nodes

/-- The condition on the two workspaces. Behind the end of the head's pipeline, the proposed
one goes on with pairs that also occur, as linked pairs, at an earlier position. -/
structure Extends (previous workspace : WorkspaceMeta) : Prop where
  marks_previous : Marks previous
  marks_workspace : Marks workspace
  length_le : previous.pipeline.length ≤ workspace.pipeline.length
  linked : ∀ i (hi : i + 1 < workspace.pipeline.length), previous.pipeline.length ≤ i + 1 →
    (∃ j < previous.pipeline.length - 1,
      LinkedAt [previous, workspace] j workspace.pipeline[i] workspace.pipeline[i + 1]) ∨
    workspace.pipeline[i].componentType = "TrialTree"

theorem treeDepth_of_length_le {previous workspace : WorkspaceMeta}
    (hworkspace : workspace.pipeline ≠ [])
    (hlen : previous.pipeline.length ≤ workspace.pipeline.length) :
    treeDepth [previous, workspace] = workspace.pipeline.length := by
  have hpos := List.length_pos_iff.mpr hworkspace
  simp only [treeDepth, List.foldl_cons, List.foldl_nil]
  omega

theorem mem_candidateKeys_iff_linked {order : SetOrder} {previous workspace : WorkspaceMeta}
    (hworkspace : workspace.pipeline ≠ [])
    (hlen : previous.pipeline.length ≤ workspace.pipeline.length) {t : TrialTree}
    (h : init order [previous, workspace] = .ok t) :
    workspace.pipeline ∈ t.candidateKeys ↔
      ∀ i (hi : i + 1 < workspace.pipeline.length), previous.pipeline.length ≤ i + 1 →
        (∃ j < previous.pipeline.length - 1,
          LinkedAt [previous, workspace] j workspace.pipeline[i] workspace.pipeline[i + 1]) ∨
        workspace.pipeline[i].componentType = "TrialTree" := by
  obtain ⟨-, -, hcomp, -⟩ := exists_marked_of_init h
  have hfits : List.Forall₂ (· ∈ ·) workspace.pipeline
      ((List.range (treeDepth [previous, workspace])).map
        (stageDict [previous, workspace])) := by
    have hfits := fits_stageDict
      (show workspace ∈ [previous, workspace] from
        List.mem_cons_of_mem _ (List.mem_singleton_self _))
    rwa [Fits, List.take_of_length_le
      (by simp [treeDepth_of_length_le hworkspace hlen])] at hfits
  rw [mem_candidateKeys_iff h, isChain_rootKey_iff, List.isChain_iff_getElem]
  simp only [goesWith, Bool.or_eq_true, List.contains_iff_mem, decide_eq_true_eq,
    mem_initCompatibilityDict2_cons hcomp]
  constructor
  · intro hcandidate i hi _
    exact hcandidate.2 i hi
  · intro hbehind
    refine ⟨hfits, ?_⟩
    intro i hi
    by_cases hinside : i + 1 < previous.pipeline.length
    · -- Within the head's length the pipeline itself links the pair.
      refine Or.inl ⟨i, by omega, workspace, by simp, workspace, by simp, ?_⟩
      exact ⟨List.getElem?_eq_getElem _, List.getElem?_eq_getElem hi, _,
        List.getElem?_eq_getElem _, rfl⟩
    · exact hbehind i hi (by omega)

theorem equal_map_key (nodes : List TreeNode) :
    TrialManager.equal nodes (nodes.map (·.key)) = true := by
  induction nodes with
  | nil => rfl
  | cons n nodes ih => simpa [TrialManager.equal] using ih

theorem exists_first {candidates : List (List TreeNode)} {pipeline : List MetaKey}
    (h : pipeline ∈ candidates.map (List.map (·.key))) :
    ∃ nodes, TrialManager.first candidates (fun nodes => TrialManager.equal nodes pipeline) =
      .ok nodes := by
  obtain ⟨nodes, hnodes, rfl⟩ := List.mem_map.mp h
  have hsome : (candidates.find? fun candidate =>
      TrialManager.equal candidate (nodes.map (·.key))).isSome := by
    rw [List.find?_isSome]
    exact ⟨nodes, hnodes, equal_map_key nodes⟩
  obtain ⟨found, hfound⟩ := Option.isSome_iff_exists.mp hsome
  exact ⟨found, by rw [TrialManager.first, hfound]⟩

/-- **Finding the proposed pipeline.** The tree of the head and the proposed workspace can be
built and contains the proposed pipeline exactly when the pipeline is not shorter than the
head's and goes on behind its end along pairs that are linked within its length. -/
theorem finds_iff_extends (order : SetOrder) {previous workspace : WorkspaceMeta}
    (hworkspace : workspace.pipeline ≠ []) :
    Finds order previous workspace ↔ Extends previous workspace := by
  have hpos := List.length_pos_iff.mpr hworkspace
  constructor
  · intro ⟨t, ht, hmem, _⟩
    obtain ⟨-, -, hcomp, -⟩ := exists_marked_of_init ht
    have hlen := length_le_of_initCompatibilityDict2 hcomp (w := workspace) (by simp)
    rw [Nat.max_eq_right hpos] at hlen
    have hdepth := (treeDepth_of_length_le hworkspace hlen).le
    obtain ⟨-, hmarks⟩ := (exists_init_iff (by simp) hdepth).mp ⟨t, ht⟩
    exact ⟨hmarks previous (by simp), hmarks workspace (by simp), hlen,
      (mem_candidateKeys_iff_linked hworkspace hlen ht).mp hmem⟩
  · intro ⟨hprev, hwork, hlen, hlinked⟩
    have hdepth := (treeDepth_of_length_le hworkspace hlen).le
    obtain ⟨t, ht⟩ : ∃ t, init order [previous, workspace] = .ok t :=
      (exists_init_iff (by simp) hdepth).mpr ⟨by simp; omega, by simp [hprev, hwork]⟩
    have hmem := (mem_candidateKeys_iff_linked hworkspace hlen ht).mpr hlinked
    exact ⟨t, ht, hmem, exists_first hmem⟩

/-- A workspace as `commit_workspace` leaves it on a branch. -/
def committedHead (pipeline : List MetaKey) : WorkspaceMeta :=
  { uncommitted pipeline with
    outputs := some (pipeline.foldl (fun outputs key =>
      outputs.set key.toStringWithVersion "0") ∅)
    params := some (pipeline.foldl (fun params key =>
      params.set key.toStringWithVersion (.hversion "1")) ∅) }

/-- A dataset followed by libraries of the given names. -/
def pipelineOf (libraries : List String) : List MetaKey :=
  ⟨"dataset", "d", ⟨"h", 0, 0⟩⟩ ::
    libraries.map fun name => ⟨"library", name, ⟨"master", 0, 0⟩⟩

theorem sameLength_finds :
    Finds SetOrder.insertion (committedHead (pipelineOf ["a", "b"]))
      (uncommitted (pipelineOf ["a", "c"])) := by
  refine (finds_iff_extends _ (by decide)).mpr ⟨?_, ?_, by decide, ?_⟩
  · intro _ key hkey hlibrary
    have hkey : key ∈ pipelineOf ["a", "b"] := hkey
    simp only [pipelineOf, List.map_cons, List.map_nil, List.mem_cons, List.not_mem_nil,
      or_false] at hkey
    rcases hkey with rfl | rfl | rfl
    · exact absurd hlibrary (by decide)
    · exact ⟨⟨_, rfl⟩, _, rfl⟩
    · exact ⟨⟨_, rfl⟩, _, rfl⟩
  · intro houtputs
    cases houtputs
  · intro i hi hle
    have hi : i + 1 < 3 := hi
    have hle : 3 ≤ i + 1 := hle
    omega

/-- Neither a shorter nor a longer pipeline is found. -/
theorem otherLength_not_finds :
    ¬ Finds SetOrder.insertion (committedHead (pipelineOf ["a", "b"]))
        (uncommitted (pipelineOf ["a"])) ∧
    ¬ Finds SetOrder.insertion (committedHead (pipelineOf ["a"]))
        (uncommitted (pipelineOf ["a", "b"])) := by
  refine ⟨?_, ?_⟩
  · intro ⟨t, ht, _⟩
    cases ht
  · intro ⟨t, ht, hmem, _⟩
    obtain rfl := Except.ok.inj ht
    revert hmem
    decide

end SecCask.Pipeman.TrialTree
