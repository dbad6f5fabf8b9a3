import SecCask.Lib.Regex

/-!
# SecCask.Lib.Perl

Patterns in Perl syntax over any alphabet, where `.` matches every character. A pattern is
built from the right: each part takes the matcher of what follows it. Matching starts at the
front of the subject and backtracks; `.+` takes the longest stretch behind which the rest
still matches.
-/

namespace SecCask.Perl

variable {α β : Type*}

/-- The literal `w`, then `rest`. -/
def literal [DecidableEq α] (w : List α) (rest : List α → Option β) (s : List α) : Option β :=
  if w <+: s then rest (s.drop w.length) else none

/-- `(.+)`, then `rest`: what was captured and what `rest` gives. -/
def dotPlus (rest : List α → Option β) (s : List α) : Option (List α × β) :=
  Regex.longestFirst (fun n => (rest (s.drop n)).map (s.take n, ·)) s.length

/-- `(.*)$` at the end of a pattern: the whole subject is the longest stretch, and `$` matches
behind it. -/
def dotStarEnd (s : List α) : Option (List α) := some s

section Literal

variable [DecidableEq α] {w s : List α} {rest : List α → Option β}

@[simp] theorem literal_append : literal w rest (w ++ s) = rest s := by
  simp [literal]

theorem exists_of_literal {b : β} (h : literal w rest s = some b) :
    ∃ t, s = w ++ t ∧ rest t = some b := by
  unfold literal at h
  split at h
  · rename_i hprefix
    obtain ⟨t, rfl⟩ := hprefix
    rw [List.drop_left] at h
    exact ⟨t, rfl, h⟩
  · cases h

theorem literal_eq_none (h : ¬ w <+: s) : literal w rest s = none := if_neg h

end Literal

/-- `(.+)` takes `g` when the rest matches behind `g` and behind no longer stretch. -/
theorem dotPlus_eq_some {rest : List α → Option β} {g r : List α} {b : β} (hne : g ≠ [])
    (hr : rest r = some b) (hlonger : ∀ k, 0 < k → rest (r.drop k) = none) :
    dotPlus rest (g ++ r) = some (g, b) := by
  refine Regex.longestFirst_eq_some (n := g.length) (List.length_pos_iff.mpr hne) ?_ ?_ ?_
  · rw [List.length_append]
    omega
  · simp [hr]
  · intro k hk _
    have hdrop : (g ++ r).drop k = r.drop (k - g.length) := by
      rw [List.drop_append, List.drop_eq_nil_of_le hk.le, List.nil_append]
    rw [hdrop, hlonger _ (by omega), Option.map_none]

theorem exists_of_dotPlus {rest : List α → Option β} {s g : List α} {b : β}
    (h : dotPlus rest s = some (g, b)) :
    ∃ r, s = g ++ r ∧ g ≠ [] ∧ rest r = some b ∧
      ∀ k, 0 < k → k ≤ r.length → rest (r.drop k) = none := by
  obtain ⟨n, hn, hnm, hfn, hlonger⟩ := Regex.exists_of_longestFirst h
  obtain ⟨b', hb', hpair⟩ := Option.map_eq_some_iff.mp hfn
  obtain ⟨rfl, rfl⟩ := Prod.mk.inj hpair
  refine ⟨s.drop n, (List.take_append_drop n s).symm, ?_, hb', ?_⟩
  · intro hnil
    have hlen := congrArg List.length hnil
    rw [List.length_take_of_le hnm, List.length_nil] at hlen
    omega
  · intro k hk hkm
    rw [List.length_drop] at hkm
    have hnone := hlonger (n + k) (by omega) (by omega)
    rw [Option.map_eq_none_iff] at hnone
    rw [List.drop_drop]
    exact hnone

theorem dotPlus_ne_none {rest : List α → Option β} {g r : List α} (hne : g ≠ [])
    (hr : rest r ≠ none) : dotPlus rest (g ++ r) ≠ none := by
  refine Regex.longestFirst_ne_none (n := g.length) (List.length_pos_iff.mpr hne) ?_ ?_
  · rw [List.length_append]
    omega
  · simpa using hr

end SecCask.Perl
