import SecCask.Pac.Cache

/-!
# SecCask.Pac.Victim

The victim of `PACache`. `_least_possible_worker` merges the sorted versions of all components
through one pointer for each, and returns the first version that is resident. The invariant of
the loop is that no pointer has passed a resident version, so no pointer leaves its list, and
the scores at the pointers are lower bounds of the scores of the residents.
-/

namespace SecCask.Pac

/-! ### The sorted versions -/

section SortedCells

variable {majorSize minorSize : ℕ} (argsort : Argsort) (s : VSM majorSize minorSize)

theorem VSM.mem_sortedCells (c : Fin majorSize × Fin minorSize) : c ∈ s.sortedCells argsort := by
  obtain ⟨i, hi⟩ := finProdFinEquiv.symm.surjective c
  refine List.mem_map.mpr ⟨i, ?_, hi⟩
  rw [(argsort.perm _).mem_iff]
  exact List.mem_finRange i

theorem VSM.sortedCells_pairwise :
    (s.sortedCells argsort).Pairwise fun c d => s.data c ≤ s.data d := by
  rw [VSM.sortedCells, List.pairwise_map]
  exact List.pairwise_map.mp (argsort.sorted _)

end SortedCells

/-! ### The scores at the pointers -/

/-- What a round compares, one component at a time. -/
def PACache.score (vsms : ScoreMatrices) (ids : Fin numPipelineLength → List Cell)
    (numWorkers pointers : Fin numPipelineLength → ℕ)
    (h : ∀ f, pointers f < (ids f).length) (f : Fin numPipelineLength) : ℚ :=
  if numWorkers f = 0 then 9999 else (vsms f).data ((ids f).get ⟨pointers f, h f⟩)

/-- Reading the matrices at the cells of their own lists does not fail. -/
theorem PACache.values_eq (vsms : ScoreMatrices) (ids : Fin numPipelineLength → List Cell)
    (numWorkers pointers : Fin numPipelineLength → ℕ) (h : ∀ f, pointers f < (ids f).length) :
    PACache.values vsms ids numWorkers pointers h =
      .ok (Vector.ofFn (PACache.score vsms ids numWorkers pointers h)) := by
  have hread : (fun f => do
      let score ← (vsms f).getItem (VSM.version ((ids f).get ⟨pointers f, h f⟩))
      return if numWorkers f = 0 then 9999 else score : Fin numPipelineLength →
        Except ArrayError ℚ) = fun f => pure (PACache.score vsms ids numWorkers pointers h f) := by
    funext f
    rw [VSM.getItem_version]
    rfl
  rw [PACache.values, hread, Vector.ofFnM_pure]
  rfl

theorem PACache.argmin_values_eq {vsms : ScoreMatrices} {ids : Fin numPipelineLength → List Cell}
    {numWorkers pointers : Fin numPipelineLength → ℕ} {h : ∀ f, pointers f < (ids f).length}
    {values : Vector ℚ numPipelineLength}
    (hvalues : PACache.values vsms ids numWorkers pointers h = .ok values) :
    (List.finRange numPipelineLength).argmin values.get =
      (List.finRange numPipelineLength).argmin
        (PACache.score vsms ids numWorkers pointers h) := by
  rw [PACache.values_eq] at hvalues
  obtain rfl := Except.ok.inj hvalues
  congr 1
  funext f
  exact Vector.getElem_ofFn f.isLt

/-! ### The loop -/

section Loop

variable {vsms : ScoreMatrices} {ids : Fin numPipelineLength → List Cell}
  {workerSet : List Worker} {numWorkers pointers : Fin numPipelineLength → ℕ}

/-- The loop invariant: no pointer has passed a resident, and the pointers of components
without workers do not move. -/
structure Scanned (ids : Fin numPipelineLength → List Cell) (workerSet : List Worker)
    (numWorkers pointers : Fin numPipelineLength → ℕ) : Prop where
  passed : ∀ f i (hi : i < (ids f).length), i < pointers f →
    worker f ((ids f).get ⟨i, hi⟩) ∉ workerSet
  absent : ∀ f, numWorkers f = 0 → pointers f = 0

theorem scanned_zero : Scanned ids workerSet numWorkers fun _ => 0 :=
  ⟨fun _ _ _ h => absurd h (Nat.not_lt_zero _), fun _ _ => rfl⟩

/-- The pointer of a component stands at or before each of its residents. -/
theorem Scanned.exists_get_eq (hs : Scanned ids workerSet numWorkers pointers)
    (hids : ∀ f c, c ∈ ids f) {f : Fin numPipelineLength} {c : Cell}
    (hw : worker f c ∈ workerSet) :
    ∃ (i : ℕ) (hi : i < (ids f).length), (ids f).get ⟨i, hi⟩ = c ∧ pointers f ≤ i := by
  obtain ⟨⟨i, hi⟩, hget⟩ := List.mem_iff_get.mp (hids f c)
  refine ⟨i, hi, hget, ?_⟩
  by_contra hlt
  refine hs.passed f i hi (by omega) ?_
  rwa [hget]

/-- No pointer leaves its list: a component without residents stays at the start. -/
theorem Scanned.lt_length (hs : Scanned ids workerSet numWorkers pointers)
    (hids : ∀ f c, c ∈ ids f)
    (hcount : ∀ f, numWorkers f ≠ 0 → ∃ c, worker f c ∈ workerSet) (f : Fin numPipelineLength) :
    pointers f < (ids f).length := by
  by_cases hf : numWorkers f = 0
  · rw [hs.absent f hf]
    exact List.length_pos_of_mem (hids f (0, 0))
  · obtain ⟨c, hc⟩ := hcount f hf
    obtain ⟨i, hi, -, hle⟩ := hs.exists_get_eq hids hc
    omega

/-- The score at a pointer is a lower bound for the residents of its component. -/
theorem Scanned.data_get_le (hs : Scanned ids workerSet numWorkers pointers)
    (hids : ∀ f c, c ∈ ids f)
    (hsorted : ∀ f, (ids f).Pairwise fun c d => (vsms f).data c ≤ (vsms f).data d)
    {f : Fin numPipelineLength} {c : Cell} (hw : worker f c ∈ workerSet)
    (hlt : pointers f < (ids f).length) :
    (vsms f).data ((ids f).get ⟨pointers f, hlt⟩) ≤ (vsms f).data c := by
  obtain ⟨i, hi, rfl, hle⟩ := hs.exists_get_eq hids hw
  rcases Nat.lt_or_eq_of_le hle with hbefore | rfl
  · exact List.pairwise_iff_getElem.mp (hsorted f) _ _ hlt hi hbefore
  · exact le_refl _

/-- A round that finds no resident moves the pointer of a component that has some. -/
theorem Scanned.advance (hs : Scanned ids workerSet numWorkers pointers)
    {f : Fin numPipelineLength} (hf : numWorkers f ≠ 0) (hlt : pointers f < (ids f).length)
    (hmiss : worker f ((ids f).get ⟨pointers f, hlt⟩) ∉ workerSet) :
    Scanned ids workerSet numWorkers (Function.update pointers f (pointers f + 1)) := by
  refine ⟨fun g i hi hig => ?_, fun g hg => ?_⟩
  · by_cases hgf : g = f
    · subst hgf
      rw [Function.update_self] at hig
      rcases Nat.lt_succ_iff_lt_or_eq.mp hig with hold | rfl
      · exact hs.passed g i hi hold
      · exact hmiss
    · rw [Function.update_of_ne hgf] at hig
      exact hs.passed g i hi hig
  · have hgf : g ≠ f := by
      intro h
      exact hf (h ▸ hg)
    rw [Function.update_of_ne hgf]
    exact hs.absent g hg

/-- The component that a round compares as least has residents, and its score is a lower bound
for all residents: the value that stands for an absent component is above every score. -/
theorem Scanned.argmin_values (hs : Scanned ids workerSet numWorkers pointers)
    (hids : ∀ f c, c ∈ ids f)
    (hsorted : ∀ f, (ids f).Pairwise fun c d => (vsms f).data c ≤ (vsms f).data d)
    (hcount : ∀ f, numWorkers f ≠ 0 ↔ ∃ c, worker f c ∈ workerSet)
    (hne : ∃ f c, worker f c ∈ workerSet) (hscore : ∀ f c, (vsms f).data c ≤ 1)
    {h : ∀ f, pointers f < (ids f).length} {fMin : Fin numPipelineLength}
    (hmin : (List.finRange numPipelineLength).argmin
      (PACache.score vsms ids numWorkers pointers h) = some fMin) :
    numWorkers fMin ≠ 0 ∧ ∀ g d, worker g d ∈ workerSet →
      (vsms fMin).data ((ids fMin).get ⟨pointers fMin, h fMin⟩) ≤ (vsms g).data d := by
  have hle : ∀ g d, worker g d ∈ workerSet →
      PACache.score vsms ids numWorkers pointers h fMin ≤ (vsms g).data d := by
    intro g d hw
    have hcmp := List.le_of_mem_argmin (List.mem_finRange g) hmin
    refine hcmp.trans ?_
    rw [PACache.score, if_neg ((hcount g).mpr ⟨d, hw⟩)]
    exact hs.data_get_le hids hsorted hw (h g)
  have hpresent : numWorkers fMin ≠ 0 := by
    intro h0
    obtain ⟨g, d, hw⟩ := hne
    have hbound := (hle g d hw).trans (hscore g d)
    rw [PACache.score, if_pos h0] at hbound
    norm_num at hbound
  refine ⟨hpresent, ?_⟩
  intro g d hw
  have hbound := hle g d hw
  rwa [PACache.score, if_neg hpresent] at hbound

/-- The loop returns a resident of least score. -/
theorem Scanned.leastPossibleFrom_spec (hs : Scanned ids workerSet numWorkers pointers)
    (hids : ∀ f c, c ∈ ids f)
    (hsorted : ∀ f, (ids f).Pairwise fun c d => (vsms f).data c ≤ (vsms f).data d)
    (hcount : ∀ f, numWorkers f ≠ 0 ↔ ∃ c, worker f c ∈ workerSet)
    (hne : ∃ f c, worker f c ∈ workerSet) (hscore : ∀ f c, (vsms f).data c ≤ 1) :
    ∃ f c, PACache.leastPossibleFrom vsms ids workerSet numWorkers pointers =
        .ok (worker f c) ∧
      worker f c ∈ workerSet ∧
      ∀ g d, worker g d ∈ workerSet → (vsms f).data c ≤ (vsms g).data d := by
  fun_induction PACache.leastPossibleFrom vsms ids workerSet numWorkers pointers with
  | case1 pointers h e hvalues =>
      rw [PACache.values_eq] at hvalues
      cases hvalues
  | case2 pointers h values hvalues hnone =>
      -- The list of the components is not empty.
      rw [List.argmin_eq_none] at hnone
      cases hnone
  | case3 pointers h values hvalues fMin hmin w hw =>
      have hleast := hs.argmin_values hids hsorted hcount hne hscore
        ((PACache.argmin_values_eq hvalues).symm.trans hmin)
      exact ⟨fMin, _, rfl, hw, hleast.2⟩
  | case4 pointers h values hvalues fMin hmin w hw ih =>
      have hleast := hs.argmin_values hids hsorted hcount hne hscore
        ((PACache.argmin_values_eq hvalues).symm.trans hmin)
      exact ih (hs.advance hleast.1 (h fMin) hw)
  | case5 pointers h => exact absurd (hs.lt_length hids fun f => (hcount f).mp) h

end Loop

/-- The workers of one component are counted. -/
theorem numWorkers_ne_zero_iff {workerSet : List Worker} (hin : ∀ w ∈ workerSet,
    VSM.InMatrix (maxMajorVersion + 1) (maxMinorVersion + 1) w.2) (f : Fin numPipelineLength) :
    workerSet.countP (fun w => w.1 = f.val) ≠ 0 ↔ ∃ c, worker f c ∈ workerSet := by
  rw [← Nat.pos_iff_ne_zero, List.countP_pos_iff]
  constructor
  · intro h
    obtain ⟨⟨g, v⟩, hw, hg⟩ := h
    obtain ⟨c, rfl⟩ := VSM.inMatrix_iff.mp (hin _ hw)
    obtain rfl : g = f.val := of_decide_eq_true hg
    exact ⟨c, hw⟩
  · intro h
    obtain ⟨c, hw⟩ := h
    exact ⟨_, hw, decide_eq_true rfl⟩

/-- The victim among residents in range. -/
theorem exists_leastPossibleWorker (argsort : Argsort) {vsms : ScoreMatrices}
    {workerSet : List Worker} (hne : workerSet ≠ [])
    (hin : ∀ w ∈ workerSet, w.1 < numPipelineLength ∧
      VSM.InMatrix (maxMajorVersion + 1) (maxMinorVersion + 1) w.2)
    (hscore : ∀ f c, (vsms f).data c ≤ 1) :
    ∃ f c, PACache.leastPossibleWorker argsort vsms workerSet = .ok (worker f c) ∧
      worker f c ∈ workerSet ∧
      ∀ g d, worker g d ∈ workerSet → (vsms f).data c ≤ (vsms g).data d := by
  have hresident : ∃ f c, worker f c ∈ workerSet := by
    obtain ⟨⟨f, v⟩, hw⟩ := List.exists_mem_of_ne_nil _ hne
    obtain ⟨hf, hv⟩ := hin _ hw
    obtain ⟨c, rfl⟩ := VSM.inMatrix_iff.mp hv
    exact ⟨⟨f, hf⟩, c, hw⟩
  rw [PACache.leastPossibleWorker, PACache.numWorkers, if_pos fun w hw => (hin w hw).1]
  exact scanned_zero.leastPossibleFrom_spec (fun f => VSM.mem_sortedCells argsort (vsms f))
    (fun f => VSM.sortedCells_pairwise argsort (vsms f))
    (numWorkers_ne_zero_iff fun w hw => (hin w hw).2) hresident hscore

/-- **Victim selection.** On a nonempty worker set in range and scores from 0 to 1,
`_least_possible_worker` ends without an `IndexError`. It returns a resident, and no resident
has a smaller score. -/
theorem leastPossibleWorker_minimum (argsort : Argsort) {vsms : ScoreMatrices}
    {workerSet : List Worker} (hne : workerSet ≠ [])
    (hin : ∀ w ∈ workerSet, w.1 < numPipelineLength ∧
      VSM.InMatrix (maxMajorVersion + 1) (maxMinorVersion + 1) w.2)
    (hscore : ∀ f c, 0 ≤ (vsms f).data c ∧ (vsms f).data c ≤ 1) :
    ∃ f c, PACache.leastPossibleWorker argsort vsms workerSet = .ok (worker f c) ∧
      worker f c ∈ workerSet ∧
      ∀ g d, worker g d ∈ workerSet → (vsms f).data c ≤ (vsms g).data d :=
  exists_leastPossibleWorker argsort hne hin fun f c => (hscore f c).2

section Example

/-- Two residents, with no worker of the other components. -/
def twoResidents : List Worker := [(0, (0, 0)), (2, (1, 3))]

/-- The scores after version 0.0 of the first component has been seen once. Every other version
of it comes first in its list, and the resident of the third component is the eighth of its own. -/
def seenMatrices : ScoreMatrices := fun f =>
  if f.val = 0 then (generateScoreMatrices (1 / 5) f).mix fun c => if c = (0, 0) then 1 else 0
  else generateScoreMatrices (1 / 5) f

theorem data_seenMatrices (f : Fin numPipelineLength) (c : Cell) :
    (seenMatrices f).data c =
      if f.val = 0 then (if c = (0, 0) then 1 / 4 else 1 / 20) else 1 / 16 := by
  unfold seenMatrices
  by_cases hf : f.val = 0
  · by_cases hc : c = (0, 0) <;>
      norm_num [generateScoreMatrices, VSM.new, VSM.mix, maxMajorVersion, maxMinorVersion, hf, hc]
  · norm_num [generateScoreMatrices, VSM.new, maxMajorVersion, maxMinorVersion, hf]

theorem twoResidents_minimum :
    PACache.leastPossibleWorker .stable seenMatrices twoResidents = .ok (2, (1, 3)) := by
  obtain ⟨f, c, hvictim, hmem, hleast⟩ := @leastPossibleWorker_minimum .stable seenMatrices
    twoResidents (by decide) (by decide) fun f c => by
      rw [data_seenMatrices]
      split_ifs <;> norm_num
  rw [hvictim]
  rcases List.mem_cons.mp hmem with hfirst | hsecond
  · -- The score of the first resident is above that of the other.
    have hworker : ∀ (f : Fin numPipelineLength) (c : Cell), worker f c = (0, (0, 0)) →
        f.val = 0 ∧ c = (0, 0) := by decide
    obtain ⟨hf, hc⟩ := hworker f c hfirst
    have hle := hleast ⟨2, by decide⟩ (1, 3) (by decide)
    norm_num [data_seenMatrices, hf, hc] at hle
  · rw [List.mem_singleton.mp hsecond]

end Example

end SecCask.Pac
