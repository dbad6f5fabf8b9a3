import Mathlib.Algebra.BigOperators.Field
import Mathlib.Analysis.Convex.StdSimplex

/-!
# SecCask.Pac.Vsm

The version score matrices of `pac/vsm.py`: one matrix for each component of a pipeline, with
the probability of each version `<m.n>` in the next pipeline.

A matrix is a point of the standard simplex over its cells, and the two scaling operations are
convex combinations with another point, so they stay in it. Arithmetic is exact here, where the
code has `float64`.
-/

namespace SecCask.Pac

/-- What the array operations raise. -/
inductive ArrayError
  | indexError
  | valueError
  | zeroDivisionError
  deriving DecidableEq, Repr

abbrev Component := ℕ

abbrev Major := ℤ

abbrev Minor := ℤ

abbrev Version := Major × Minor

def numPipelineLength : ℕ := 5

def maxMajorVersion : ℕ := 3

def maxMinorVersion : ℕ := 3

/-- An index along an axis of `n` entries. A negative one counts from the end. -/
def axisIndex (n : ℕ) (i : ℤ) : Option (Fin n) :=
  if h : 0 ≤ i ∧ i < n then some ⟨i.toNat, by omega⟩
  else if h : -n ≤ i ∧ i < 0 then some ⟨(i + n).toNat, by omega⟩
  else none

theorem axisIndex_natCast {n : ℕ} (i : Fin n) : axisIndex n i = some i := by
  simp [axisIndex]

/-- `VSM` with its `major_size` and `minor_size`. -/
structure VSM (majorSize minorSize : ℕ) where
  componentId : Component
  alpha : ℚ
  data : Fin majorSize × Fin minorSize → ℚ

namespace VSM

variable {majorSize minorSize : ℕ}

/-- The constructor: all versions have the same score. -/
def new (majorSize minorSize : ℕ) (componentId : Component) (alpha : ℚ) :
    VSM majorSize minorSize where
  componentId := componentId
  alpha := alpha
  data := fun _ => 1 / (majorSize * minorSize)

def getAllVersionSet : Finset Version :=
  (Finset.range (maxMajorVersion + 1) ×ˢ Finset.range (maxMinorVersion + 1)).image
    fun p => ((p.1 : ℤ), (p.2 : ℤ))

/-- The cell that a version indexes. -/
def cell (majorSize minorSize : ℕ) (v : Version) : Option (Fin majorSize × Fin minorSize) := do
  let m ← axisIndex majorSize v.1
  let n ← axisIndex minorSize v.2
  return (m, n)

/-- The version of a cell. -/
def version (c : Fin majorSize × Fin minorSize) : Version := (c.1.val, c.2.val)

/-- The version lies inside the matrix. -/
def InMatrix (majorSize minorSize : ℕ) (v : Version) : Prop :=
  0 ≤ v.1 ∧ v.1 < majorSize ∧ 0 ≤ v.2 ∧ v.2 < minorSize

instance (v : Version) : Decidable (InMatrix majorSize minorSize v) :=
  inferInstanceAs (Decidable (_ ∧ _))

/-- `__getitem__` -/
def getItem (s : VSM majorSize minorSize) (v : Version) : Except ArrayError ℚ :=
  match cell majorSize minorSize v with
  | some c => .ok (s.data c)
  | none => .error .indexError

/-- `(1 - alpha) * data + alpha * e` -/
def mix (s : VSM majorSize minorSize) (e : Fin majorSize × Fin minorSize → ℚ) :
    VSM majorSize minorSize :=
  { s with data := (1 - s.alpha) • s.data + s.alpha • e }

def scaleEntry (s : VSM majorSize minorSize) (v : Version) :
    Except ArrayError (VSM majorSize minorSize) :=
  match cell majorSize minorSize v with
  | some c => .ok (s.mix fun d => if d = c then 1 else 0)
  | none => .error .indexError

/-- The ones are written in the order of the set, which does not matter. -/
def scaleBatch (s : VSM majorSize minorSize) (v : Finset Version) :
    Except ArrayError (VSM majorSize minorSize) :=
  if v.card = 0 then .ok s
  else if ∀ w ∈ v, (cell majorSize minorSize w).isSome then
    .ok (s.mix fun d => (if ∃ w ∈ v, cell majorSize minorSize w = some d then 1 else 0) / v.card)
  else .error .indexError

/-! ### Versions and cells -/

theorem cell_version (c : Fin majorSize × Fin minorSize) :
    cell majorSize minorSize (version c) = some c := by
  simp [cell, version, axisIndex_natCast]

theorem getItem_version (s : VSM majorSize minorSize) (c : Fin majorSize × Fin minorSize) :
    s.getItem (version c) = .ok (s.data c) := by
  rw [getItem, cell_version]

theorem version_injective :
    Function.Injective (version : Fin majorSize × Fin minorSize → Version) := by
  intro c d h
  have hcell := congrArg (cell majorSize minorSize) h
  rw [cell_version, cell_version] at hcell
  exact Option.some.inj hcell

theorem inMatrix_iff {v : Version} :
    InMatrix majorSize minorSize v ↔ ∃ c : Fin majorSize × Fin minorSize, version c = v := by
  obtain ⟨m, n⟩ := v
  constructor
  · intro h
    obtain ⟨hm, hm', hn, hn'⟩ := h
    lift m to ℕ using hm
    lift n to ℕ using hn
    exact ⟨(⟨m, Int.ofNat_lt.mp hm'⟩, ⟨n, Int.ofNat_lt.mp hn'⟩), rfl⟩
  · intro h
    obtain ⟨c, hc⟩ := h
    rw [← hc]
    exact ⟨Int.natCast_nonneg _, Int.ofNat_lt.mpr c.1.isLt, Int.natCast_nonneg _,
      Int.ofNat_lt.mpr c.2.isLt⟩

theorem mem_getAllVersionSet {v : Version} :
    v ∈ getAllVersionSet ↔ InMatrix (maxMajorVersion + 1) (maxMinorVersion + 1) v := by
  obtain ⟨m, n⟩ := v
  simp only [getAllVersionSet, Finset.mem_image, Finset.mem_product, Finset.mem_range,
    Prod.mk.injEq, InMatrix]
  constructor
  · intro h
    obtain ⟨p, ⟨hm, hn⟩, rfl, rfl⟩ := h
    exact ⟨Int.natCast_nonneg _, Int.ofNat_lt.mpr hm, Int.natCast_nonneg _, Int.ofNat_lt.mpr hn⟩
  · intro h
    obtain ⟨hm, hm', hn, hn'⟩ := h
    lift m to ℕ using hm
    lift n to ℕ using hn
    exact ⟨(m, n), ⟨Int.ofNat_lt.mp hm', Int.ofNat_lt.mp hn'⟩, rfl, rfl⟩

/-! ### The matrices as distributions -/

/-- The scores are a probability distribution over the versions. -/
def Distribution (s : VSM majorSize minorSize) : Prop :=
  s.data ∈ stdSimplex ℚ (Fin majorSize × Fin minorSize)

theorem distribution_new (hmajor : 0 < majorSize) (hminor : 0 < minorSize)
    (componentId : Component) (alpha : ℚ) :
    (new majorSize minorSize componentId alpha).Distribution := by
  have hm : (majorSize : ℚ) ≠ 0 := by positivity
  have hn : (minorSize : ℚ) ≠ 0 := by positivity
  refine ⟨fun _ => by simp only [new]; positivity, ?_⟩
  simp only [new, Finset.sum_const, Finset.card_univ, Fintype.card_prod, Fintype.card_fin,
    nsmul_eq_mul, Nat.cast_mul]
  field_simp

/-- Mixing in another distribution with a weight of at most one. -/
theorem Distribution.mix {s : VSM majorSize minorSize} (hs : s.Distribution)
    (h0 : 0 ≤ s.alpha) (h1 : s.alpha ≤ 1) {e : Fin majorSize × Fin minorSize → ℚ}
    (he : e ∈ stdSimplex ℚ (Fin majorSize × Fin minorSize)) : (s.mix e).Distribution :=
  convex_stdSimplex ℚ _ hs he (by linarith) h0 (by ring)

/-- The uniform distribution on a nonempty set of points. -/
theorem uniform_mem_stdSimplex {ι : Type*} [Fintype ι] [DecidableEq ι] {s : Finset ι}
    (hs : s.Nonempty) :
    (fun i => (if i ∈ s then 1 else 0) / (s.card : ℚ)) ∈ stdSimplex ℚ ι := by
  have hcard : (s.card : ℚ) ≠ 0 := by exact_mod_cast hs.card_pos.ne'
  refine ⟨fun i => by positivity, ?_⟩
  rw [← Finset.sum_div, Finset.sum_ite_mem, Finset.univ_inter]
  simp [hcard]

theorem scaleEntry_version (s : VSM majorSize minorSize) (c : Fin majorSize × Fin minorSize) :
    s.scaleEntry (version c) = .ok (s.mix fun d => if d = c then 1 else 0) := by
  simp only [scaleEntry, cell_version]

/-- On a version in the matrix `scale_entry` succeeds. -/
theorem exists_scaleEntry {s : VSM majorSize minorSize} (hs : s.Distribution)
    (h0 : 0 ≤ s.alpha) (h1 : s.alpha ≤ 1) {v : Version} (hv : InMatrix majorSize minorSize v) :
    ∃ t, s.scaleEntry v = .ok t ∧ t.Distribution ∧ t.alpha = s.alpha := by
  obtain ⟨c, rfl⟩ := inMatrix_iff.mp hv
  refine ⟨_, s.scaleEntry_version c, ?_, rfl⟩
  refine hs.mix h0 h1 ?_
  simpa [eq_comm] using ite_eq_mem_stdSimplex ℚ c

/-- The cells that a set of versions indexes. -/
def cells (v : Finset Version) : Finset (Fin majorSize × Fin minorSize) :=
  Finset.univ.filter fun c => ∃ w ∈ v, cell majorSize minorSize w = some c

theorem mem_cells {v : Finset Version} {c : Fin majorSize × Fin minorSize} :
    c ∈ cells v ↔ ∃ w ∈ v, cell majorSize minorSize w = some c := by
  simp [cells]

/-- Versions in the matrix are as many cells: no two of them share one. -/
theorem card_cells {v : Finset Version} (hv : ∀ w ∈ v, InMatrix majorSize minorSize w) :
    (cells v : Finset (Fin majorSize × Fin minorSize)).card = v.card := by
  have himage : (cells v : Finset (Fin majorSize × Fin minorSize)).image version = v := by
    ext w
    rw [Finset.mem_image]
    constructor
    · intro h
      obtain ⟨c, hc, rfl⟩ := h
      obtain ⟨u, hu, huc⟩ := mem_cells.mp hc
      obtain ⟨d, rfl⟩ := inMatrix_iff.mp (hv u hu)
      rw [cell_version] at huc
      rwa [← Option.some.inj huc]
    · intro hw
      obtain ⟨c, rfl⟩ := inMatrix_iff.mp (hv w hw)
      exact ⟨c, mem_cells.mpr ⟨_, hw, cell_version c⟩, rfl⟩
  rw [← himage, Finset.card_image_of_injective _ version_injective, himage]

theorem scaleBatch_of_inMatrix (s : VSM majorSize minorSize) {v : Finset Version}
    (hne : v.Nonempty) (hv : ∀ w ∈ v, InMatrix majorSize minorSize w) :
    s.scaleBatch v =
      .ok (s.mix fun c => (if c ∈ (cells v : Finset (Fin majorSize × Fin minorSize)) then 1
        else 0) / (cells v : Finset (Fin majorSize × Fin minorSize)).card) := by
  have hcell : ∀ w ∈ v, (cell majorSize minorSize w).isSome := by
    intro w hw
    obtain ⟨c, rfl⟩ := inMatrix_iff.mp (hv w hw)
    rw [cell_version]
    rfl
  rw [scaleBatch, if_neg hne.card_pos.ne', if_pos hcell, card_cells hv]
  simp only [mem_cells]

/-- On versions in the matrix `scale_batch` succeeds. -/
theorem exists_scaleBatch {s : VSM majorSize minorSize} (hs : s.Distribution)
    (h0 : 0 ≤ s.alpha) (h1 : s.alpha ≤ 1) {v : Finset Version}
    (hv : ∀ w ∈ v, InMatrix majorSize minorSize w) :
    ∃ t, s.scaleBatch v = .ok t ∧ t.Distribution ∧ t.alpha = s.alpha := by
  rcases v.eq_empty_or_nonempty with rfl | hne
  · exact ⟨s, rfl, hs, rfl⟩
  · refine ⟨_, s.scaleBatch_of_inMatrix hne hv, ?_, rfl⟩
    have hcells : (cells v : Finset (Fin majorSize × Fin minorSize)).Nonempty := by
      rw [← Finset.card_pos, card_cells hv]
      exact hne.card_pos
    exact hs.mix h0 h1 (uniform_mem_stdSimplex hcells)

end VSM

end SecCask.Pac
