import SecCask.Lib.Recent
import SecCask.Pac.History

/-!
# SecCask.Pac.Window

The history as a window of the submitted pipelines. `append` compares its capacity with the
length of the whole array, in which the first column is not a pipeline. So the history keeps
one pipeline less than its capacity. `__getitem__` shifts its index by that column and takes
indices below zero, two of which lead to it.
-/

namespace SecCask.Pac

namespace History

/-- The column of -1 that the array starts with. -/
def sentinel : Pipeline := fun _ => (-1, -1)

/-- `append` on the array alone. -/
def appendColumn (capacity : ℕ) (data : List Pipeline) (pipeline : Pipeline) : List Pipeline :=
  let data := data ++ [pipeline]
  if data.length > capacity then data.eraseIdx 1 else data

/-- The array after the pipelines have been appended to the one of a new history. -/
def columns (capacity : ℕ) (ps : List Pipeline) : List Pipeline :=
  ps.foldl (appendColumn capacity) [sentinel]

/-- The history after the pipelines have been appended. -/
def submitted (capacity : ℕ) (ps : List Pipeline) : History :=
  ps.foldl append (new capacity)

/-- What is removed is never the first column. -/
theorem data_append (history : History) (pipeline : Pipeline) :
    (history.append pipeline).data = appendColumn history.capacity history.data pipeline := by
  unfold append appendColumn
  by_cases hfull : (history.data ++ [pipeline]).length > history.capacity
  · simp only [if_pos hfull]
    rfl
  · simp only [if_neg hfull]
    rfl

theorem submitted_concat (capacity : ℕ) (ps : List Pipeline) (p : Pipeline) :
    submitted capacity (ps ++ [p]) = (submitted capacity ps).append p :=
  List.foldl_concat ..

theorem columns_concat (capacity : ℕ) (ps : List Pipeline) (p : Pipeline) :
    columns capacity (ps ++ [p]) = appendColumn capacity (columns capacity ps) p :=
  List.foldl_concat ..

theorem capacity_submitted (capacity : ℕ) (ps : List Pipeline) :
    (submitted capacity ps).capacity = capacity := by
  induction ps using List.reverseRecOn with
  | nil => rfl
  | append_singleton ps p ih =>
      rw [submitted_concat]
      exact ih

theorem data_submitted (capacity : ℕ) (ps : List Pipeline) :
    (submitted capacity ps).data = columns capacity ps := by
  induction ps using List.reverseRecOn with
  | nil => rfl
  | append_singleton ps p ih =>
      rw [submitted_concat, columns_concat, data_append, ih, capacity_submitted]

/-- A history of capacity `n + 1` shows the last `n` pipelines. -/
theorem value_submitted (n : ℕ) (ps : List Pipeline) :
    (submitted (n + 1) ps).value = ps.rtake n := by
  induction ps using List.reverseRecOn with
  | nil => simp [submitted, new]
  | append_singleton ps p ih =>
      rw [submitted_concat, append_value, ih, capacity_submitted, rtake_concat]
      refine if_congr ?_ rfl rfl
      omega

/-- The history of a capacity is a window of the last `n` of the pipelines: its value, its size
and its entries are theirs, its array has the sentinel in front of them and nothing else, and
the sentinel is not what any of the given indices reads. -/
structure IsWindow (capacity n : ℕ) (ps : List Pipeline) (keys : Set ℤ) : Prop where
  value : (submitted capacity ps).value = ps.rtake n
  size : (submitted capacity ps).size = min ps.length n
  getItem : ∀ (i : ℕ) (hi : i < (ps.rtake n).length),
    (submitted capacity ps).getItem i = .ok (ps.rtake n)[i]
  columns : columns capacity ps = sentinel :: ps.rtake n
  hidden : ∀ key ∈ keys, ∀ c, (submitted capacity ps).column key = some c → c.val ≠ 0

theorem length_data (history : History) : history.data.length = history.size + 1 := by
  simp [size, data]

/-- Two indices read the sentinel: the one in front of the pipelines, and that of the first
column as it counts from the end. -/
theorem column_eq_zero_iff {history : History} {key : ℤ} :
    (∃ c, history.column key = some c ∧ c.val = 0) ↔ key = -1 ∨ key = -(history.size + 2) := by
  have hlength := history.length_data
  unfold column axisIndex
  constructor
  · rintro ⟨c, hc, hzero⟩
    split at hc
    · obtain rfl := Option.some.inj hc
      left
      simp only at hzero
      omega
    · split at hc
      · obtain rfl := Option.some.inj hc
        right
        simp only at hzero
        omega
      · cases hc
  · rintro (rfl | rfl)
    · exact ⟨_, dif_pos (by omega), rfl⟩
    · refine ⟨⟨0, by omega⟩, ?_, rfl⟩
      rw [dif_neg (by omega), dif_pos (by omega), Option.some_inj, Fin.mk.injEq]
      omega

theorem isWindow_iff {capacity n : ℕ} {ps : List Pipeline} {keys : Set ℤ} :
    IsWindow capacity n ps keys ↔ (submitted capacity ps).value = ps.rtake n ∧
      -1 ∉ keys ∧ -((submitted capacity ps).size + 2 : ℤ) ∉ keys := by
  constructor
  · intro h
    have hnot : ∀ key, key = -1 ∨ key = -((submitted capacity ps).size + 2 : ℤ) → key ∉ keys := by
      intro key hkey hmem
      obtain ⟨c, hc, hzero⟩ := column_eq_zero_iff.mpr hkey
      exact h.hidden key hmem c hc hzero
    exact ⟨h.value, hnot _ (Or.inl rfl), hnot _ (Or.inr rfl)⟩
  · rintro ⟨hvalue, hfront, hend⟩
    constructor
    case value => exact hvalue
    case size =>
      rw [← length_rtake, ← hvalue]
      rfl
    case getItem =>
      intro i hi
      rw [getItem_natCast ⟨i, by rwa [← hvalue] at hi⟩]
      simp only [← hvalue]
      rfl
    case columns =>
      rw [← data_submitted, ← hvalue]
      rfl
    case hidden =>
      intro key hkey c hc hzero
      rcases column_eq_zero_iff.mp ⟨c, hc, hzero⟩ with rfl | rfl
      · exact hfront hkey
      · exact hend hkey

/-- The window is by one pipeline smaller than its capacity. -/
theorem value_submitted_pred {capacity : ℕ} (hcapacity : 1 ≤ capacity) (ps : List Pipeline) :
    (submitted capacity ps).value = ps.rtake (capacity - 1) := by
  obtain ⟨n, rfl⟩ := Nat.exists_eq_add_of_le' hcapacity
  exact value_submitted n ps

theorem size_submitted {capacity : ℕ} (hcapacity : 1 ≤ capacity) (ps : List Pipeline) :
    (submitted capacity ps).size = min ps.length (capacity - 1) := by
  rw [← length_rtake, ← value_submitted_pred hcapacity]
  rfl

/-- **Sliding window.** A history shows the last pipelines up to its capacity, and to the given
indices nothing but pipelines, exactly as long as fewer of them have been appended and none of
the indices is one of the two of the sentinel. -/
theorem isWindow_capacity_iff {capacity : ℕ} (hcapacity : 1 ≤ capacity) (ps : List Pipeline)
    (keys : Set ℤ) : IsWindow capacity capacity ps keys ↔
      ps.length < capacity ∧ -1 ∉ keys ∧ -(ps.length + 2 : ℤ) ∉ keys := by
  have hsize := size_submitted hcapacity ps
  constructor
  · intro hwindow
    obtain ⟨-, hfront, hend⟩ := isWindow_iff.mp hwindow
    have hlength : ps.length < capacity := by
      have hkept := hwindow.size
      omega
    rw [hsize, min_eq_left (by omega)] at hend
    exact ⟨hlength, hfront, hend⟩
  · rintro ⟨hlength, hfront, hend⟩
    refine isWindow_iff.mpr ⟨?_, hfront, ?_⟩
    · rw [value_submitted_pred hcapacity, rtake_of_length_le (by omega),
        rtake_of_length_le (by omega)]
    · rwa [hsize, min_eq_left (by omega)]

/-- A pipeline whose components are all of the version `(v, v)`. -/
def constantPipeline (v : ℕ) : Pipeline := fun _ => (v, v)

/-- The indices of `vsm_transform_sl` and `vsm_transform_ul` are not negative. -/
theorem isWindow_two : IsWindow 2 2 [constantPipeline 1] {key | 0 ≤ key} :=
  (isWindow_capacity_iff (by decide) _ _).mpr ⟨by decide, by simp, by simp⟩

/-- A history of capacity 2 forgets the first of two pipelines. -/
theorem not_isWindow_two :
    ¬ IsWindow 2 2 [constantPipeline 1, constantPipeline 2] Set.univ := by
  intro h
  have hsize : (1 : ℕ) = 2 := h.size
  omega

end History

end SecCask.Pac
