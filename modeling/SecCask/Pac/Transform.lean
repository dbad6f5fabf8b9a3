import SecCask.Lib.Fallible
import SecCask.Lib.Run
import SecCask.Pac.History

/-!
# SecCask.Pac.Transform

The two updates of the score matrices in `pac/vsm.py`. Neither reads a score, so each is given
as the list of its calls of `scale_entry` and `scale_batch`, in the order of the source, and as
the loop that makes them.

All calls have their versions inside the matrices, and each call keeps a matrix a probability
distribution; so do the updates, in every order and between any submissions.
-/

namespace SecCask.Pac

/-- A matrix of the default sizes. -/
abbrev ScoreMatrix := VSM (maxMajorVersion + 1) (maxMinorVersion + 1)

/-- The list of the matrices of all components. -/
abbrev ScoreMatrices := Fin numPipelineLength → ScoreMatrix

/-- `_generate_score_matrices` -/
def generateScoreMatrices (alpha : ℚ) : ScoreMatrices :=
  fun i => VSM.new _ _ i alpha

/-- A call on the matrix of one component. -/
inductive ScaleCall
  | entry (f : Fin numPipelineLength) (v : Version)
  | batch (f : Fin numPipelineLength) (v : Finset Version)

/-- The matrix is changed in place. -/
def ScaleCall.run (vsms : ScoreMatrices) : ScaleCall → Except ArrayError ScoreMatrices
  | entry f v => do return Function.update vsms f (← (vsms f).scaleEntry v)
  | batch f v => do return Function.update vsms f (← (vsms f).scaleBatch v)

/-- `V_c`: the versions of component `f` before the last pipeline that differ from `v`. -/
def otherVersions (history : History) (f : Fin numPipelineLength) (v : Version) :
    Finset Version :=
  ((Finset.univ.filter fun i : Fin history.size => i.val < history.size - 1).image
    fun i => history.pipelineAt i f).filter fun w => v.1 ≠ w.1 ∨ v.2 ≠ w.2

/-- The calls of `vsm_transform_sl`. -/
def slCalls (history : History) : List ScaleCall :=
  if h : history.size ≤ 1 then []
  else
    let p := history.pipelineAt ⟨history.size - 1, by omega⟩
    (List.finRange numPipelineLength).map fun k =>
      .batch k (VSM.getAllVersionSet \ otherVersions history k (p k))

/-- Exactly one of major and minor differs. -/
def DiffersInOne (v w : Version) : Prop :=
  (v.1 = w.1 ∧ v.2 ≠ w.2) ∨ (v.1 ≠ w.1 ∧ v.2 = w.2)

instance (v w : Version) : Decidable (DiffersInOne v w) :=
  inferInstanceAs (Decidable (_ ∨ _))

/-- The two guarded calls of `scale_entry` in a round of `vsm_transform_ul`. -/
def ulEntries (k : Fin numPipelineLength) (m1 : Major) (n1 : Minor) (m2 : Major) (n2 : Minor) :
    List ScaleCall :=
  (if m1 ≠ m2 ∧ n1 = n2 then
    if 0 ≤ 2 * n2 - n1 ∧ 2 * n2 - n1 ≤ maxMinorVersion then [.entry k (m1, 2 * n2 - n1)]
    else []
  else []) ++
  (if m1 = m2 ∧ n1 ≠ n2 then
    if 0 ≤ 2 * m2 - m1 ∧ 2 * m2 - m1 ≤ maxMajorVersion then [.entry k (2 * m2 - m1, n1)]
    else []
  else [])

/-- The calls of one round of `vsm_transform_ul`. The batches are those of `range(0, k - 1)`. -/
def ulCallsAt (pT pTM1 : Pipeline) (k : Fin numPipelineLength) : List ScaleCall :=
  if DiffersInOne (pT k) (pTM1 k) then
    ((List.finRange numPipelineLength).filter fun i => i.val + 1 < k.val).map
      (fun i => .batch i (VSM.getAllVersionSet \ {pT i})) ++
    ulEntries k (pT k).1 (pT k).2 (pTM1 k).1 (pTM1 k).2
  else []

/-- The calls of `vsm_transform_ul`. -/
def ulCalls (history : History) : List ScaleCall :=
  if h : history.size ≤ 2 then []
  else
    let pT := history.pipelineAt ⟨history.size - 1, by omega⟩
    let pTM1 := history.pipelineAt ⟨history.size - 2, by omega⟩
    (List.finRange numPipelineLength).flatMap (ulCallsAt pT pTM1)

def vsmTransformSl (lastVsms : ScoreMatrices) (history : History) :
    Except ArrayError ScoreMatrices :=
  (slCalls history).foldlM ScaleCall.run lastVsms

def vsmTransformUl (lastVsms : ScoreMatrices) (history : History) :
    Except ArrayError ScoreMatrices :=
  (ulCalls history).foldlM ScaleCall.run lastVsms

/-! ### The calls stay inside the matrices -/

/-- The versions of the call lie inside the matrix. -/
def ScaleCall.InMatrix : ScaleCall → Prop
  | entry _ v => VSM.InMatrix (maxMajorVersion + 1) (maxMinorVersion + 1) v
  | batch _ v => ∀ w ∈ v, VSM.InMatrix (maxMajorVersion + 1) (maxMinorVersion + 1) w

/-- What is left of all versions lies inside the matrix, whatever the history holds. -/
theorem inMatrix_batch_sdiff (f : Fin numPipelineLength) (v : Finset Version) :
    (ScaleCall.batch f (VSM.getAllVersionSet \ v)).InMatrix := by
  intro w hw
  exact VSM.mem_getAllVersionSet.mp (Finset.mem_sdiff.mp hw).1

theorem inMatrix_slCalls {history : History} {call : ScaleCall} (h : call ∈ slCalls history) :
    call.InMatrix := by
  unfold slCalls at h
  split at h
  · cases h
  · obtain ⟨k, -, rfl⟩ := List.mem_map.mp h
    exact inMatrix_batch_sdiff k _

theorem mem_ulEntries {k : Fin numPipelineLength} {m1 : Major} {n1 : Minor} {m2 : Major}
    {n2 : Minor} {call : ScaleCall} :
    call ∈ ulEntries k m1 n1 m2 n2 ↔
      ((m1 ≠ m2 ∧ n1 = n2) ∧ (0 ≤ 2 * n2 - n1 ∧ 2 * n2 - n1 ≤ maxMinorVersion) ∧
        call = .entry k (m1, 2 * n2 - n1)) ∨
      ((m1 = m2 ∧ n1 ≠ n2) ∧ (0 ≤ 2 * m2 - m1 ∧ 2 * m2 - m1 ≤ maxMajorVersion) ∧
        call = .entry k (2 * m2 - m1, n1)) := by
  simp only [ulEntries, List.mem_append, List.mem_ite_nil_right, List.mem_singleton]

/-- The bounds that `vsm_transform_ul` tests are those of the coordinate that it changes. -/
theorem inMatrix_ulEntries {k : Fin numPipelineLength} {m1 : Major} {n1 : Minor} {m2 : Major}
    {n2 : Minor} (h1 : VSM.InMatrix (maxMajorVersion + 1) (maxMinorVersion + 1) (m1, n1))
    {call : ScaleCall} (h : call ∈ ulEntries k m1 n1 m2 n2) : call.InMatrix := by
  obtain ⟨hm0, hm, hn0, hn⟩ := h1
  rcases mem_ulEntries.mp h with ⟨-, hrange, rfl⟩ | ⟨-, hrange, rfl⟩
  · exact ⟨hm0, hm, hrange.1, Int.lt_add_one_of_le hrange.2⟩
  · exact ⟨hrange.1, Int.lt_add_one_of_le hrange.2, hn0, hn⟩

theorem inMatrix_ulCallsAt {pT pTM1 : Pipeline} (hp : pT.InRange) {k : Fin numPipelineLength}
    {call : ScaleCall} (h : call ∈ ulCallsAt pT pTM1 k) : call.InMatrix := by
  unfold ulCallsAt at h
  split at h
  · rcases List.mem_append.mp h with hbatch | hentry
    · obtain ⟨i, -, rfl⟩ := List.mem_map.mp hbatch
      exact inMatrix_batch_sdiff i _
    · exact inMatrix_ulEntries (hp k) hentry
  · cases h

theorem inMatrix_ulCalls {history : History} (hrange : history.InRange) {call : ScaleCall}
    (h : call ∈ ulCalls history) : call.InMatrix := by
  unfold ulCalls at h
  split at h
  · cases h
  · obtain ⟨k, -, hk⟩ := List.mem_flatMap.mp h
    exact inMatrix_ulCallsAt (hrange _ (history.pipelineAt_mem _)) hk

/-! ### The matrices stay distributions -/

/-- Every matrix is a distribution, and its weight for new points is one of a convex
combination. -/
def ScoreMatrices.Sound (vsms : ScoreMatrices) : Prop :=
  ∀ f, (vsms f).Distribution ∧ 0 ≤ (vsms f).alpha ∧ (vsms f).alpha ≤ 1

theorem sound_generateScoreMatrices {alpha : ℚ} (h0 : 0 ≤ alpha) (h1 : alpha ≤ 1) :
    ScoreMatrices.Sound (generateScoreMatrices alpha) :=
  fun f => ⟨VSM.distribution_new (by decide) (by decide) f alpha, h0, h1⟩

/-- Changing one matrix. -/
theorem ScoreMatrices.Sound.update {vsms : ScoreMatrices} (hs : vsms.Sound)
    {f : Fin numPipelineLength} {s : ScoreMatrix} (hd : s.Distribution)
    (ha : s.alpha = (vsms f).alpha) : ScoreMatrices.Sound (Function.update vsms f s) := by
  intro g
  by_cases hg : g = f
  · subst hg
    rw [Function.update_self, ha]
    exact ⟨hd, (hs g).2⟩
  · rw [Function.update_of_ne hg]
    exact hs g

/-- A call with its versions inside the matrix succeeds. -/
theorem ScaleCall.exists_run {vsms : ScoreMatrices} (hs : vsms.Sound) {call : ScaleCall}
    (hcall : call.InMatrix) : ∃ t, call.run vsms = .ok t ∧ ScoreMatrices.Sound t := by
  cases call with
  | entry f v =>
      obtain ⟨hd, h0, h1⟩ := hs f
      obtain ⟨t, ht, htd, hta⟩ := VSM.exists_scaleEntry hd h0 h1 hcall
      exact ⟨_, by rw [ScaleCall.run, ht]; rfl, hs.update htd hta⟩
  | batch f v =>
      obtain ⟨hd, h0, h1⟩ := hs f
      obtain ⟨t, ht, htd, hta⟩ := VSM.exists_scaleBatch hd h0 h1 hcall
      exact ⟨_, by rw [ScaleCall.run, ht]; rfl, hs.update htd hta⟩

theorem exists_vsmTransformSl {vsms : ScoreMatrices} (hs : vsms.Sound) (history : History) :
    ∃ t, vsmTransformSl vsms history = .ok t ∧ ScoreMatrices.Sound t :=
  exists_foldlM_eq_ok hs fun _ hcall _ ht => ScaleCall.exists_run ht (inMatrix_slCalls hcall)

theorem exists_vsmTransformUl {vsms : ScoreMatrices} (hs : vsms.Sound) {history : History}
    (hrange : history.InRange) :
    ∃ t, vsmTransformUl vsms history = .ok t ∧ ScoreMatrices.Sound t :=
  exists_foldlM_eq_ok hs fun _ hcall _ ht =>
    ScaleCall.exists_run ht (inMatrix_ulCalls hrange hcall)

/-! ### Runs -/

/-- The score matrices and the history of a `PACache`. -/
structure Scores where
  vsms : ScoreMatrices
  history : History

/-- What changes them: a submission, and the two updates. -/
inductive Update
  | append (pipeline : Pipeline)
  | sl
  | ul

namespace Scores

def new (historyCapacity : ℕ) (alpha : ℚ) : Scores where
  vsms := generateScoreMatrices alpha
  history := History.new historyCapacity

def update (s : Scores) : Update → Except ArrayError Scores
  | .append pipeline => .ok { s with history := s.history.append pipeline }
  | .sl => do return { s with vsms := ← vsmTransformSl s.vsms s.history }
  | .ul => do return { s with vsms := ← vsmTransformUl s.vsms s.history }

/-- The invariant of the runs. -/
def Sound (s : Scores) : Prop := s.vsms.Sound ∧ s.history.InRange

theorem Sound.exists_update {s : Scores} (hs : s.Sound) {u : Update}
    (hu : ∀ p, u = .append p → p.InRange) : ∃ t, s.update u = .ok t ∧ t.Sound := by
  cases u with
  | append pipeline => exact ⟨_, rfl, hs.1, hs.2.append (hu pipeline rfl)⟩
  | sl =>
      obtain ⟨vsms, hvsms, hsound⟩ := exists_vsmTransformSl hs.1 s.history
      exact ⟨{ s with vsms := vsms }, by rw [update, hvsms]; rfl, hsound, hs.2⟩
  | ul =>
      obtain ⟨vsms, hvsms, hsound⟩ := exists_vsmTransformUl hs.1 hs.2
      exact ⟨{ s with vsms := vsms }, by rw [update, hvsms]; rfl, hsound, hs.2⟩

/-- **Score matrices are distributions.** Every sequence of submissions and updates succeeds.
After it the scores of every component are nonnegative and sum up to 1, and every call that an
update makes next has its versions inside the matrix. -/
theorem updates_keep_distributions (historyCapacity : ℕ) {alpha : ℚ} (h0 : 0 ≤ alpha)
    (h1 : alpha ≤ 1) {updates : List Update}
    (hrange : ∀ p, Update.append p ∈ updates → p.InRange) :
    ∃ s, updates.foldlM update (new historyCapacity alpha) = .ok s ∧
      (∀ f, (∀ c, 0 ≤ (s.vsms f).data c) ∧ ∑ c, (s.vsms f).data c = 1) ∧
      ∀ call ∈ slCalls s.history ++ ulCalls s.history, call.InMatrix := by
  have hnew : (new historyCapacity alpha).Sound :=
    ⟨sound_generateScoreMatrices h0 h1, History.inRange_new historyCapacity⟩
  obtain ⟨s, hrun, hs⟩ := exists_foldlM_eq_ok hnew fun u hu t ht =>
    Sound.exists_update ht fun p hp => hrange p (hp ▸ hu)
  refine ⟨s, hrun, fun f => (hs.1 f).1, ?_⟩
  intro call hcall
  rcases List.mem_append.mp hcall with hsl | hul
  · exact inMatrix_slCalls hsl
  · exact inMatrix_ulCalls hs.2 hul

section Example

/-- The first pipelines of the test workspace. -/
def testWorkspace : List Pipeline :=
  [![(0, 0), (0, 0), (0, 0), (0, 0), (0, 0)],
    ![(0, 0), (1, 0), (1, 0), (0, 0), (0, 1)],
    ![(0, 1), (2, 0), (2, 0), (0, 1), (0, 0)]]

/-- Their submissions, and both updates. -/
def testUpdates : List Update := testWorkspace.map .append ++ [.sl, .ul]

theorem testUpdates_keep_distributions :
    ∃ s, testUpdates.foldlM update (new 8 (1 / 5)) = .ok s ∧
      (∀ f, (∀ c, 0 ≤ (s.vsms f).data c) ∧ ∑ c, (s.vsms f).data c = 1) ∧
      ∀ call ∈ slCalls s.history ++ ulCalls s.history, call.InMatrix := by
  refine updates_keep_distributions 8 (by norm_num) (by norm_num) ?_
  have hrange : ∀ p ∈ testWorkspace, p.InRange := by decide
  intro p hp
  simp only [testUpdates, List.mem_append, List.mem_map, List.mem_cons, List.not_mem_nil,
    reduceCtorEq, or_false] at hp
  obtain ⟨q, hq, heq⟩ := hp
  obtain rfl := Update.append.inj heq
  exact hrange q hq

end Example

end Scores

end SecCask.Pac
