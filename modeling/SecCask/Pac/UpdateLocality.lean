import SecCask.Pac.Transform

/-!
# SecCask.Pac.UpdateLocality

The version that `vsm_transform_ul` boosts for a component of which one coordinate has just
changed. It is meant to be the next one in the direction of the change. The two guards are
exchanged: the coordinate that is extrapolated is the one that has not changed, and so the
version boosted is the one just submitted.
-/

namespace SecCask.Pac

/-- The versions that the calls pass to `scale_entry` for component `k`. -/
def entryVersions (k : Fin numPipelineLength) (calls : List ScaleCall) : List Version :=
  calls.filterMap fun
    | .entry f v => if f = k then some v else none
    | .batch _ _ => none

theorem entryVersions_append (k : Fin numPipelineLength) (xs ys : List ScaleCall) :
    entryVersions k (xs ++ ys) = entryVersions k xs ++ entryVersions k ys :=
  List.filterMap_append

/-- The last two pipelines of a history of at least three. -/
def lastPipelines (history : History) (h : 2 < history.size) : Pipeline × Pipeline :=
  (history.pipelineAt ⟨history.size - 1, by omega⟩, history.pipelineAt ⟨history.size - 2, by omega⟩)

/-- Of the values `x` and `y` of a coordinate, one extrapolates linearly to the value of the
version boosted, or the value is out of range and none is boosted. -/
def BoostsExtrapolation (maxVersion : ℕ) (x y : ℤ) (withValue : ℤ → Version)
    (boosted : List Version) : Prop :=
  ∃ a b, (a = x ∧ b = y ∨ a = y ∧ b = x) ∧
    (0 ≤ 2 * a - b ∧ 2 * a - b ≤ maxVersion → boosted = [withValue (2 * a - b)]) ∧
    (¬(0 ≤ 2 * a - b ∧ 2 * a - b ≤ maxVersion) → boosted = [])

/-- What update locality asks of the versions boosted for a component that had version `w` and
has `v` now: the changed coordinate is extrapolated, the other one kept. -/
def UpdateLocality (v w : Version) (boosted : List Version) : Prop :=
  (v.1 ≠ w.1 → BoostsExtrapolation maxMajorVersion v.1 w.1 (fun m => (m, v.2)) boosted) ∧
  (v.2 ≠ w.2 → BoostsExtrapolation maxMinorVersion v.2 w.2 (fun n => (v.1, n)) boosted)

/-- An extrapolation never leads back to the value it starts from. -/
theorem not_boostsExtrapolation_self {maxVersion : ℕ} {x y : ℤ} (hne : x ≠ y)
    {withValue : ℤ → Version} (hinj : Function.Injective withValue) :
    ¬BoostsExtrapolation maxVersion x y withValue [withValue x] := by
  intro h
  obtain ⟨a, b, hab, hin, hout⟩ := h
  by_cases hrange : 0 ≤ 2 * a - b ∧ 2 * a - b ≤ maxVersion
  · have hvalue := hinj (List.singleton_inj.mp (hin hrange))
    omega
  · cases hout hrange

theorem not_updateLocality_self {v w : Version} (h : DiffersInOne v w) :
    ¬UpdateLocality v w [v] := by
  intro hlocal
  rcases h with ⟨-, hminor⟩ | ⟨hmajor, -⟩
  · exact not_boostsExtrapolation_self hminor (Prod.mk_right_injective v.1) (hlocal.2 hminor)
  · exact not_boostsExtrapolation_self hmajor (Prod.mk_left_injective v.2) (hlocal.1 hmajor)

/-! ### What a round boosts -/

theorem entryVersions_batches (j : Fin numPipelineLength) (fs : List (Fin numPipelineLength))
    (v : Fin numPipelineLength → Finset Version) :
    entryVersions j (fs.map fun f => .batch f (v f)) = [] := by
  simp [entryVersions]

/-- The bound that is tested is the one of the coordinate that has not changed, and its
extrapolation is its own value. -/
theorem ulEntries_eq {k : Fin numPipelineLength} {v w : Version}
    (hv : VSM.InMatrix (maxMajorVersion + 1) (maxMinorVersion + 1) v) (h : DiffersInOne v w) :
    ulEntries k v.1 v.2 w.1 w.2 = [.entry k v] := by
  obtain ⟨m, n⟩ := v
  obtain ⟨m', n'⟩ := w
  obtain ⟨hm0, hm, hn0, hn⟩ := hv
  rcases h with ⟨rfl, hminor⟩ | ⟨hmajor, rfl⟩
  · have hself : 2 * m - m = m := by ring
    have hrange : 0 ≤ m ∧ m ≤ maxMajorVersion := ⟨hm0, Int.le_of_lt_add_one hm⟩
    simp [ulEntries, hminor, hself, hrange]
  · have hself : 2 * n - n = n := by ring
    have hrange : 0 ≤ n ∧ n ≤ maxMinorVersion := ⟨hn0, Int.le_of_lt_add_one hn⟩
    simp [ulEntries, hmajor, hself, hrange]

/-- A round boosts no other component. -/
theorem entryVersions_ulCallsAt_of_ne (pT pTM1 : Pipeline) {j k : Fin numPipelineLength}
    (hjk : k ≠ j) : entryVersions j (ulCallsAt pT pTM1 k) = [] := by
  unfold ulCallsAt
  split
  · rw [entryVersions_append, entryVersions_batches, List.nil_append, entryVersions,
      List.filterMap_eq_nil_iff]
    intro call hcall
    rcases mem_ulEntries.mp hcall with ⟨-, -, rfl⟩ | ⟨-, -, rfl⟩
    · exact if_neg hjk
    · exact if_neg hjk
  · rfl

theorem entryVersions_ulCallsAt {pT : Pipeline} (hp : pT.InRange) {pTM1 : Pipeline}
    {k : Fin numPipelineLength} (h : DiffersInOne (pT k) (pTM1 k)) :
    entryVersions k (ulCallsAt pT pTM1 k) = [pT k] := by
  rw [ulCallsAt, if_pos h, entryVersions_append, entryVersions_batches, ulEntries_eq (hp k) h]
  simp [entryVersions]

/-- A sequence in which only the round of `a` contributes. -/
theorem flatMap_eq_of_nodup {α β : Type*} {l : List α} (hl : l.Nodup) {a : α} (ha : a ∈ l)
    {f : α → List β} (hf : ∀ b, b ≠ a → f b = []) : l.flatMap f = f a := by
  obtain ⟨xs, ys, rfl⟩ := List.append_of_mem ha
  -- `a` does not occur again on either side.
  obtain ⟨hxs, hys⟩ : a ∉ xs ∧ a ∉ ys := by
    rw [List.nodup_middle, List.nodup_cons, List.mem_append, not_or] at hl
    exact hl.1
  have hnil : ∀ zs : List α, a ∉ zs → zs.flatMap f = [] := by
    intro zs hzs
    rw [List.flatMap_eq_nil_iff]
    intro b hb
    exact hf b fun h => hzs (h ▸ hb)
  rw [List.flatMap_append, List.flatMap_cons, hnil xs hxs, hnil ys hys, List.nil_append,
    List.append_nil]

theorem entryVersions_ulCalls {history : History} (hsize : 2 < history.size)
    (hrange : history.InRange) {k : Fin numPipelineLength}
    (h : DiffersInOne ((lastPipelines history hsize).1 k) ((lastPipelines history hsize).2 k)) :
    entryVersions k (ulCalls history) = [(lastPipelines history hsize).1 k] := by
  have hp : (lastPipelines history hsize).1.InRange := hrange _ (history.pipelineAt_mem _)
  rw [ulCalls, dif_neg (by omega), entryVersions, List.filterMap_flatMap,
    flatMap_eq_of_nodup (List.nodup_finRange _) (List.mem_finRange k)]
  · exact entryVersions_ulCallsAt hp h
  · intro j hj
    exact entryVersions_ulCallsAt_of_ne _ _ hj

/-- **Update locality.** When one coordinate of a component differs between the last two
pipelines, `vsm_transform_ul` boosts the version just submitted, never the extrapolated one. -/
theorem vsmTransformUl_boosts_submitted {history : History} (hsize : 2 < history.size)
    (hrange : history.InRange) {k : Fin numPipelineLength}
    (h : DiffersInOne ((lastPipelines history hsize).1 k) ((lastPipelines history hsize).2 k)) :
    entryVersions k (ulCalls history) = [(lastPipelines history hsize).1 k] ∧
      ¬UpdateLocality ((lastPipelines history hsize).1 k) ((lastPipelines history hsize).2 k)
        (entryVersions k (ulCalls history)) := by
  have hboosted := entryVersions_ulCalls hsize hrange h
  refine ⟨hboosted, ?_⟩
  rw [hboosted]
  exact not_updateLocality_self h

section Example

/-- A component goes from major version 0 over 1 to 2. -/
def majorSteps : History where
  value := [fun _ => (0, 0), fun _ => (1, 0), fun _ => (2, 0)]
  capacity := 8

/-- One of its components. -/
def lastComponent : Fin numPipelineLength := ⟨4, by decide⟩

theorem majorSteps_boosts_submitted :
    entryVersions lastComponent (ulCalls majorSteps) = [(2, 0)] ∧
      ¬UpdateLocality (2, 0) (1, 0) (entryVersions lastComponent (ulCalls majorSteps)) :=
  vsmTransformUl_boosts_submitted (by decide) (by decide) (by decide)

theorem majorSteps_not_extrapolated :
    majorSteps.InRange ∧ DiffersInOne (2, 0) (1, 0) ∧
      ¬UpdateLocality (2, 0) (1, 0) (entryVersions lastComponent (ulCalls majorSteps)) := by
  have hboosted : entryVersions lastComponent (ulCalls majorSteps) = [(2, 0)] := by decide +kernel
  rw [hboosted]
  exact ⟨by decide, by decide, not_updateLocality_self (by decide)⟩

end Example

end SecCask.Pac
