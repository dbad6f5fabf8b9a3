import Mathlib.Data.List.Forall2

/-!
# SecCask.Lib.Fallible

Computations in `Except`: what a successful run says about its parts, and the rules that
carry an invariant through a loop.
-/

namespace SecCask

universe u

variable {ε α : Type*} {β : Type u}

theorem bind_eq_ok_iff {α : Type u} {x : Except ε α} {f : α → Except ε β} {b : β} :
    (x >>= f) = .ok b ↔ ∃ a, x = .ok a ∧ f a = .ok b := by
  cases x <;> simp [bind, Except.bind]

theorem bind_eq_error_iff {α : Type u} {x : Except ε α} {f : α → Except ε β} {e : ε} :
    (x >>= f) = .error e ↔ x = .error e ∨ ∃ a, x = .ok a ∧ f a = .error e := by
  cases x <;> simp [bind, Except.bind]

theorem mapError_eq_ok_iff {δ : Type*} {f : ε → δ} {x : Except ε β} {b : β} :
    x.mapError f = .ok b ↔ x = .ok b := by
  cases x <;> simp [Except.mapError]

theorem toOption_eq_some_iff {x : Except ε α} {a : α} : x.toOption = some a ↔ x = .ok a := by
  cases x <;> simp [Except.toOption]

theorem map_eq_ok_iff {α β : Type*} {x : Except ε α} {f : α → β} {b : β} :
    x.map f = .ok b ↔ ∃ a, x = .ok a ∧ f a = b := by
  cases x <;> simp [Except.map]

/-- A loop that succeeds keeps what each of its rounds keeps. -/
theorem foldlM_invariant {f : β → α → Except ε β} {P : β → Prop} {l : List α} {b b' : β}
    (h : l.foldlM f b = .ok b') (hb : P b)
    (hstep : ∀ a ∈ l, ∀ b b', P b → f b a = .ok b' → P b') : P b' := by
  induction l generalizing b with
  | nil =>
      obtain rfl : b = b' := by simpa [pure, Except.pure] using h
      exact hb
  | cons a l ih =>
      rw [List.foldlM_cons] at h
      obtain ⟨c, hc, h⟩ := bind_eq_ok_iff.mp h
      exact ih h (hstep a (by simp) b c hb hc) fun a ha => hstep a (by simp [ha])

/-- `foldlM_invariant` for a counted loop, with an invariant about the rounds done. -/
theorem foldlM_range_invariant {f : β → ℕ → Except ε β} {P : ℕ → β → Prop} {n : ℕ} {b b' : β}
    (h : (List.range n).foldlM f b = .ok b') (hb : P 0 b)
    (hstep : ∀ i < n, ∀ b b', P i b → f b i = .ok b' → P (i + 1) b') : P n b' := by
  induction n generalizing b' with
  | zero =>
      obtain rfl : b = b' := by simpa [pure, Except.pure] using h
      exact hb
  | succ n ih =>
      rw [List.range_succ, List.foldlM_append] at h
      obtain ⟨c, hc, h⟩ := bind_eq_ok_iff.mp h
      rw [List.foldlM_cons] at h
      obtain ⟨d, hd, h⟩ := bind_eq_ok_iff.mp h
      obtain rfl : d = b' := by simpa [pure, Except.pure] using h
      exact hstep n (by omega) c d (ih hc fun i hi => hstep i (by omega)) hd

/-- A loop whose rounds succeed under an invariant succeeds. -/
theorem exists_foldlM_eq_ok {f : β → α → Except ε β} {P : β → Prop} {l : List α} {b : β}
    (hb : P b) (hstep : ∀ a ∈ l, ∀ b, P b → ∃ b', f b a = .ok b' ∧ P b') :
    ∃ b', l.foldlM f b = .ok b' ∧ P b' := by
  induction l generalizing b with
  | nil => exact ⟨b, rfl, hb⟩
  | cons a l ih =>
      obtain ⟨c, hc, hPc⟩ := hstep a (by simp) b hb
      obtain ⟨d, hd, hPd⟩ := ih hPc fun a ha => hstep a (by simp [ha])
      refine ⟨d, ?_, hPd⟩
      rw [List.foldlM_cons]
      exact bind_eq_ok_iff.mpr ⟨c, hc, hd⟩

/-- A loop whose rounds never fail. -/
theorem foldlM_eq_ok_foldl {f : β → α → Except ε β} {g : β → α → β} {l : List α}
    (h : ∀ a ∈ l, ∀ b, f b a = .ok (g b a)) (b : β) : l.foldlM f b = .ok (l.foldl g b) := by
  induction l generalizing b with
  | nil => rfl
  | cons a l ih =>
      rw [List.foldlM_cons, h a (by simp)]
      exact ih (fun a ha => h a (by simp [ha])) _

theorem mapM_eq_ok_iff {f : α → Except ε β} {l : List α} {bs : List β} :
    l.mapM f = .ok bs ↔ List.Forall₂ (fun a b => f a = .ok b) l bs := by
  induction l generalizing bs with
  | nil =>
      simp [pure, Except.pure, eq_comm]
  | cons a l ih =>
      rw [List.mapM_cons]
      constructor
      · intro h
        obtain ⟨b, hb, h⟩ := bind_eq_ok_iff.mp h
        obtain ⟨bs', hbs', h⟩ := bind_eq_ok_iff.mp h
        obtain rfl : b :: bs' = bs := by simpa [pure, Except.pure] using h
        exact List.Forall₂.cons hb (ih.mp hbs')
      · intro h
        cases h with
        | cons hb hbs =>
            exact bind_eq_ok_iff.mpr ⟨_, hb, bind_eq_ok_iff.mpr ⟨_, ih.mpr hbs, rfl⟩⟩

theorem exists_mapM_eq_ok {f : α → Except ε β} {l : List α} (h : ∀ a ∈ l, ∃ b, f a = .ok b) :
    ∃ bs, l.mapM f = .ok bs := by
  induction l with
  | nil => exact ⟨[], rfl⟩
  | cons a l ih =>
      obtain ⟨b, hb⟩ := h a (by simp)
      obtain ⟨bs, hbs⟩ := ih fun a ha => h a (by simp [ha])
      refine ⟨b :: bs, mapM_eq_ok_iff.mpr (.cons hb (mapM_eq_ok_iff.mp hbs))⟩

/-- The error of a loop over a list is the error of one of its entries. -/
theorem exists_of_mapM_eq_error {f : α → Except ε β} {l : List α} {e : ε}
    (h : l.mapM f = .error e) : ∃ a ∈ l, f a = .error e := by
  induction l with
  | nil => cases h
  | cons a l ih =>
      rw [List.mapM_cons] at h
      cases ha : f a with
      | error e' =>
          rw [ha] at h
          obtain rfl : e' = e := Except.error.inj h
          exact ⟨a, by simp, ha⟩
      | ok b =>
          cases hl : l.mapM f with
          | error e' =>
              rw [ha, hl] at h
              obtain rfl : e' = e := Except.error.inj h
              obtain ⟨c, hc, hfc⟩ := ih hl
              exact ⟨c, by simp [hc], hfc⟩
          | ok bs =>
              rw [ha, hl] at h
              cases h

theorem mem_of_mapM_eq_ok {f : α → Except ε β} {l : List α} {bs : List β}
    (h : l.mapM f = .ok bs) {b : β} : b ∈ bs ↔ ∃ a ∈ l, f a = .ok b := by
  rw [mapM_eq_ok_iff] at h
  induction h with
  | nil => simp
  | @cons a c l bs hac _ ih =>
      simp only [List.mem_cons, exists_eq_or_imp, ih, hac, Except.ok.injEq, eq_comm (a := b)]

theorem exists_of_mapM_eq_ok {f : α → Except ε β} {l : List α} {bs : List β}
    (h : l.mapM f = .ok bs) {a : α} (ha : a ∈ l) : ∃ b, f a = .ok b := by
  rw [mapM_eq_ok_iff] at h
  induction h with
  | nil => cases ha
  | @cons c b l bs hcb _ ih =>
      rcases List.mem_cons.mp ha with rfl | ha
      · exact ⟨b, hcb⟩
      · exact ih ha

end SecCask
