import Mathlib.Data.Nat.Notation
import Mathlib.Data.List.Basic

/-!
# SecCask.Lib.Streaming

Readers that take what they need off the front of their input and see nothing else of it.
What such a reader makes of an input is settled by a first part of it: with anything behind
that part it does the same, and on less than that part it runs out of data.
-/

namespace SecCask

variable {ε β α α' : Type} {out : ε}

/-- `front` is what a reader takes to come to `a`. -/
structure Takes (out : ε) (f : List β → Except ε (α × List β)) (front : List β) (a : α) : Prop where
  enough : ∀ other, f (front ++ other) = .ok (a, other)
  short : ∀ p q, front = p ++ q → q ≠ [] → f p = .error out

/-- Whatever a reader comes to, it has taken a first part of its input for it. -/
def Streaming (out : ε) (f : List β → Except ε (α × List β)) : Prop :=
  ∀ data a rest, f data = .ok (a, rest) → ∃ front, data = front ++ rest ∧ Takes out f front a

/-- A first part of two parts is less than the first one, or all of it and some of the
second one. -/
theorem less_or_more_of_append_eq {a b p q : List β} (h : a ++ b = p ++ q) :
    (∃ r, r ≠ [] ∧ a = p ++ r) ∨ ∃ p', p = a ++ p' ∧ b = p' ++ q := by
  rcases List.append_eq_append_iff.mp h with ⟨p', hp, hb⟩ | ⟨r, ha, hr⟩
  · exact Or.inr ⟨p', hp, hb⟩
  · by_cases hnil : r = []
    · subst hnil
      exact Or.inr ⟨[], by simpa using ha.symm, by simpa using hr.symm⟩
    · exact Or.inl ⟨r, hnil, ha⟩

theorem Streaming.bind {f : List β → Except ε (α × List β)}
    {g : α × List β → Except ε (α' × List β)} (hf : Streaming out f)
    (hg : ∀ a, Streaming out fun rest => g (a, rest)) : Streaming out fun data => f data >>= g := by
  intro data b rest h
  cases hfirst : f data with
  | error e => simp [hfirst, Bind.bind, Except.bind] at h
  | ok r =>
      obtain ⟨a, mid⟩ := r
      have hsecond : g (a, mid) = .ok (b, rest) := by
        simpa only [hfirst, Bind.bind, Except.bind] using h
      obtain ⟨front, rfl, henough, hshort⟩ := hf data a mid hfirst
      obtain ⟨front', rfl, henough', hshort'⟩ := hg a mid b rest hsecond
      refine ⟨front ++ front', (List.append_assoc _ _ _).symm, fun other => ?_,
        fun p q hpq hq => ?_⟩
      · rw [List.append_assoc, henough]
        exact henough' other
      · rcases less_or_more_of_append_eq hpq with ⟨r, hr, hp⟩ | ⟨p', rfl, hp'⟩
        · rw [hshort p r hp hr]
          rfl
        · rw [henough]
          exact hshort' p' q hp' hq

theorem streaming_ok (a : α) : Streaming out fun data : List β => .ok (a, data) := by
  intro data a' rest h
  obtain ⟨rfl, rfl⟩ := Prod.mk.inj (Except.ok.inj h)
  refine ⟨[], rfl, fun other => rfl, fun p q hpq hq => ?_⟩
  exact absurd (List.append_eq_nil_iff.mp hpq.symm).2 hq

theorem streaming_error (e : ε) :
    Streaming out fun _ : List β => (.error e : Except ε (α × List β)) := by
  intro data a rest h
  cases h

/-- Taking the next `n` elements. -/
theorem streaming_take (n : ℕ) : Streaming out fun data : List β =>
    if n ≤ data.length then .ok (data.take n, data.drop n) else .error out := by
  intro data a rest h
  dsimp only at h
  split at h
  · rename_i hle
    obtain ⟨rfl, rfl⟩ := Prod.mk.inj (Except.ok.inj h)
    have hlength : (data.take n).length = n := List.length_take_of_le hle
    refine ⟨data.take n, (List.take_append_drop n data).symm, fun other => ?_,
      fun p q hpq hq => ?_⟩
    · rw [if_pos (by rw [List.length_append]; omega), List.take_left' hlength,
        List.drop_left' hlength]
    · have hshorter := congrArg List.length hpq
      have hpositive := List.length_pos_iff.mpr hq
      rw [hlength, List.length_append] at hshorter
      rw [if_neg (by omega)]
  · cases h

end SecCask
