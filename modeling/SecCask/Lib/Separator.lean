import Mathlib.Data.List.Basic

/-!
# SecCask.Lib.Separator

Texts that are joined by a separator are told apart at its first or last occurrence.
-/

namespace SecCask

variable {α : Type*} {c : α} {a b x y : List α}

/-- The separator does not occur on its left: its first occurrence splits the text. -/
theorem append_cons_inj_of_notMem_left (ha : c ∉ a) (hb : c ∉ b)
    (h : a ++ c :: x = b ++ c :: y) : a = b ∧ x = y := by
  induction a generalizing b with
  | nil =>
      cases b with
      | nil => exact ⟨rfl, (List.cons.inj h).2⟩
      | cons d b =>
          obtain ⟨rfl, -⟩ := List.cons.inj h
          simp at hb
  | cons e a ih =>
      cases b with
      | nil =>
          obtain ⟨rfl, -⟩ := List.cons.inj h
          simp at ha
      | cons d b =>
          obtain ⟨rfl, htail⟩ := List.cons.inj h
          obtain ⟨rfl, rfl⟩ := ih (fun hc => ha (List.mem_cons_of_mem _ hc))
            (fun hc => hb (List.mem_cons_of_mem _ hc)) htail
          exact ⟨rfl, rfl⟩

/-- The separator does not occur on its right: its last occurrence splits the text. -/
theorem append_cons_inj_of_notMem_right (hx : c ∉ x) (hy : c ∉ y)
    (h : a ++ c :: x = b ++ c :: y) : a = b ∧ x = y := by
  have hrev : x.reverse ++ c :: a.reverse = y.reverse ++ c :: b.reverse := by
    simpa using congrArg List.reverse h
  obtain ⟨hxy, hab⟩ := append_cons_inj_of_notMem_left (by simpa using hx) (by simpa using hy) hrev
  exact ⟨List.reverse_injective hab, List.reverse_injective hxy⟩

/-- A separator of two different characters occurs in a text only where it was put, when
neither side contains it: it cannot straddle its own ends. -/
theorem eq_length_of_pair_prefix_drop {d : α} (hcd : c ≠ d) (ha : ¬ [c, d] <:+: a)
    (hx : ¬ [c, d] <:+: x) {n : ℕ} (h : [c, d] <+: (a ++ c :: d :: x).drop n) :
    n = a.length := by
  obtain ⟨t, ht⟩ := h
  by_contra hne
  rcases Nat.lt_or_gt_of_ne hne with hlt | hgt
  · -- It would start inside `a`: with both characters there, or with `d` where `c` was put.
    rw [List.drop_append_of_le_length (Nat.le_of_lt hlt)] at ht
    obtain ⟨e, u, hu⟩ := List.exists_cons_of_ne_nil
      (fun hnil => by simp at hnil; omega : a.drop n ≠ [])
    rw [hu] at ht
    cases u with
    | nil => exact hcd (List.cons.inj (List.cons.inj ht).2).1.symm
    | cons f u =>
        obtain ⟨rfl, hrest⟩ := List.cons.inj ht
        obtain ⟨rfl, -⟩ := List.cons.inj hrest
        exact ha ⟨a.take n, u, by rw [List.append_assoc, List.cons_append, List.cons_append,
          List.nil_append, ← hu, List.take_append_drop]⟩
  · -- It would start at the `d` that was put, or inside `x`.
    rw [List.drop_append, List.drop_eq_nil_of_le (Nat.le_of_lt hgt), List.nil_append] at ht
    obtain ⟨m, hm⟩ := Nat.exists_eq_add_of_lt hgt
    rw [show n - a.length = m + 1 by omega, List.drop_succ_cons] at ht
    cases m with
    | zero => exact hcd (List.cons.inj ht).1
    | succ m =>
        rw [List.drop_succ_cons] at ht
        exact hx ⟨x.take m, t, by rw [List.append_assoc, ht, List.take_append_drop]⟩

/-- A text without the separator lies on one side of it. -/
theorem infix_append_cons_iff {w : List α} (hc : c ∉ w) :
    w <:+: a ++ c :: b ↔ w <:+: a ∨ w <:+: b := by
  constructor
  · intro ⟨s, t, h⟩
    rcases List.append_eq_append_iff.mp h with ⟨u, rfl, -⟩ | ⟨u, hsw, hcb⟩
    · exact Or.inl ⟨s, u, rfl⟩
    · cases u with
      | nil => exact Or.inl ⟨s, [], by rw [hsw, List.append_nil, List.append_nil]⟩
      | cons e u =>
          obtain ⟨rfl, rfl⟩ := List.cons.inj hcb
          rcases List.append_eq_append_iff.mp hsw with ⟨v, -, rfl⟩ | ⟨v, -, hv⟩
          · simp at hc
          · cases v with
            | nil => simp [← show c :: u = w from hv] at hc
            | cons e v =>
                obtain ⟨-, rfl⟩ := List.cons.inj hv
                exact Or.inr ⟨v, t, rfl⟩
  · intro h
    rcases h with h | h
    · exact List.infix_append_of_infix_left h
    · exact List.infix_append_of_infix_right (List.infix_cons h)

/-- What occurs in none of the parts does not occur in them joined. -/
theorem infix_intercalate {w : List α} (hc : c ∉ w) (hw : w ≠ []) {parts : List (List α)}
    (h : w <:+: List.intercalate [c] parts) : ∃ a ∈ parts, w <:+: a := by
  induction parts with
  | nil => exact absurd (List.infix_nil.mp h) hw
  | cons a parts ih =>
      cases parts with
      | nil => exact ⟨a, by simp, by simpa using h⟩
      | cons b parts =>
          rw [List.intercalate_cons_cons, List.append_assoc, List.singleton_append,
            infix_append_cons_iff hc] at h
          rcases h with h | h
          · exact ⟨a, by simp, h⟩
          · obtain ⟨d, hd, hwd⟩ := ih h
            exact ⟨d, by simp [hd], hwd⟩

theorem infix_intercalate_of_mem {parts : List (List α)} (ha : a ∈ parts) :
    a <:+: List.intercalate [c] parts := by
  induction parts with
  | nil => cases ha
  | cons b parts ih =>
      cases parts with
      | nil => simpa using List.mem_singleton.mp ha ▸ List.infix_rfl
      | cons d parts =>
          rw [List.intercalate_cons_cons, List.append_assoc]
          rcases List.mem_cons.mp ha with rfl | ha
          · exact List.infix_append_left
          · exact List.infix_append_of_infix_right (List.infix_append_of_infix_right (ih ha))

theorem not_of_mem_splitOnP {p : α → Bool} {s : List α} (ha : a ∈ s.splitOnP p) :
    ∀ e ∈ a, p e = false := by
  induction s generalizing a with
  | nil =>
      obtain rfl : a = [] := by simpa using ha
      simp
  | cons e s ih =>
      rw [List.splitOnP_cons_eq_if_modifyHead] at ha
      split at ha
      · rcases List.mem_cons.mp ha with rfl | ha
        · simp
        · exact ih ha
      · rename_i he
        obtain ⟨first, rest, hsplit⟩ := List.exists_cons_of_ne_nil (List.splitOnP_ne_nil p s)
        rw [hsplit, List.modifyHead_cons] at ha
        rcases List.mem_cons.mp ha with rfl | ha
        · intro g hg
          rcases List.mem_cons.mp hg with rfl | hg
          · exact eq_false_of_ne_true he
          · exact ih (by rw [hsplit]; exact List.mem_cons_self) g hg
        · exact ih (by rw [hsplit]; exact List.mem_cons_of_mem _ ha)

theorem notMem_of_mem_splitOn [DecidableEq α] {s : List α} (ha : a ∈ s.splitOn c) : c ∉ a := by
  rw [List.splitOn_eq_splitOnP] at ha
  intro hc
  simpa using not_of_mem_splitOnP ha c hc

/-- Splitting what was joined splits the parts. -/
theorem splitOn_intercalate_eq_flatMap [DecidableEq α] {parts : List (List α)} (h : parts ≠ []) :
    (List.intercalate [c] parts).splitOn c = parts.flatMap (List.splitOn c) := by
  induction parts with
  | nil => exact absurd rfl h
  | cons a parts ih =>
      cases parts with
      | nil => simp
      | cons b parts =>
          rw [List.intercalate_cons_cons, List.append_assoc, List.singleton_append,
            List.splitOn_append_cons_self, ih (List.cons_ne_nil b parts)]
          exact List.flatMap_cons.symm

/-! ### Separators in an encoded text

`f` encodes each letter by a word. A separator is encoded by one letter, which no other word
holds. -/

variable {β : Type*} {d : α} {f : α → List β}

theorem splitOn_append_of_notMem [DecidableEq β] {e : β} {u : List β} (hu : e ∉ u) (v : List β) :
    (u ++ v).splitOn e = (v.splitOn e).modifyHead (u ++ ·) := by
  induction u with
  | nil => exact (List.modifyHead_id.symm ▸ rfl : v.splitOn e = (v.splitOn e).modifyHead id)
  | cons g u ih =>
      have hne : g ≠ e := (List.ne_of_not_mem_cons hu).symm
      have hrest : e ∉ u := List.not_mem_of_not_mem_cons hu
      rw [List.cons_append, List.splitOn_cons_eq_if_modifyHead, if_neg (by simpa using hne),
        ih hrest, List.modifyHead_modifyHead]
      rfl

theorem splitOn_flatMap [DecidableEq α] [DecidableEq β] {e : β} (hc : f c = [e])
    (hf : ∀ g, g ≠ c → e ∉ f g) (l : List α) :
    (l.flatMap f).splitOn e = (l.splitOn c).map (List.flatMap f) := by
  induction l with
  | nil => rfl
  | cons g l ih =>
      rw [List.flatMap_cons, List.splitOn_cons_eq_if_modifyHead]
      by_cases hg : g = c
      · subst hg
        rw [hc, List.singleton_append, List.splitOn_cons_eq_if_modifyHead, if_pos (by simp),
          if_pos (by simp), ih]
        rfl
      · rw [splitOn_append_of_notMem (hf g hg), ih, if_neg (by simpa using hg)]
        obtain ⟨first, rest, hsplit⟩ := List.exists_cons_of_ne_nil (List.splitOn_ne_nil c l)
        rw [hsplit]
        rfl

theorem pair_infix_append_iff {u v : List α} (hc : c ∉ u) :
    [c, d] <:+: u ++ v ↔ [c, d] <:+: v := by
  refine ⟨fun h => ?_, List.infix_append_of_infix_right⟩
  induction u with
  | nil => exact h
  | cons g u ih =>
      have hne : c ≠ g := List.ne_of_not_mem_cons hc
      have hrest : c ∉ u := List.not_mem_of_not_mem_cons hc
      rcases List.infix_cons_iff.mp h with hprefix | h
      · exact absurd (List.cons_prefix_cons.mp hprefix).1 hne
      · exact ih hrest h

/-- The code of a text starts with that of `d` when the text does. -/
theorem singleton_prefix_flatMap_iff {e : β} (hd : f d = [e]) (he : ∀ g, g ≠ d → e ∉ f g)
    (hne : ∀ g, f g ≠ []) {l : List α} : [e] <+: l.flatMap f ↔ [d] <+: l := by
  cases l with
  | nil => simp
  | cons g l =>
      rw [List.flatMap_cons]
      by_cases hg : g = d
      · subst hg
        simp [hd]
      · obtain ⟨first, rest, hfirst⟩ := List.exists_cons_of_ne_nil (hne g)
        have hnot : e ≠ first := by
          intro heq
          exact he g hg (by rw [hfirst, heq]; exact List.mem_cons_self)
        rw [hfirst, List.cons_append, List.cons_prefix_cons, List.cons_prefix_cons]
        simp [hnot, Ne.symm hg]

/-- A pair of separators occurs in the code of a text only where it occurs in the text. -/
theorem pair_infix_flatMap_iff {b e : β} (hc : f c = [b]) (hd : f d = [e])
    (hb : ∀ g, g ≠ c → b ∉ f g) (he : ∀ g, g ≠ d → e ∉ f g) (hne : ∀ g, f g ≠ [])
    {l : List α} : [b, e] <:+: l.flatMap f ↔ [c, d] <:+: l := by
  induction l with
  | nil => simp
  | cons g l ih =>
      rw [List.flatMap_cons, List.infix_cons_iff]
      by_cases hg : g = c
      · subst hg
        rw [hc, List.singleton_append, List.infix_cons_iff, ih, List.cons_prefix_cons,
          List.cons_prefix_cons, singleton_prefix_flatMap_iff hd he hne]
        simp
      · rw [pair_infix_append_iff (hb g hg), ih, List.cons_prefix_cons]
        simp [Ne.symm hg]

end SecCask
