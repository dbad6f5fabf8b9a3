import SecCask.Lib.Regex

/-!
# SecCask.Lib.Search

`re.search` for patterns that are a sequence of characters from a class and repetitions `[…]*`,
some of them in a named group. Matching backtracks: a repetition takes the longest stretch of its
class behind which the rest of the pattern matches. Below it, removing what some rule recognises
at the front of a text, as `re.sub` does with an empty replacement.
-/

namespace SecCask.Search

/-! ### Patterns -/

inductive Atom
  /-- One character of the class. -/
  | one (cls : Char → Bool)
  /-- `[…]*` -/
  | star (cls : Char → Bool)
  /-- `(?P<name>[…]*)` -/
  | group (name : String) (cls : Char → Bool)

/-- The named groups of a match, in their order. -/
abbrev Groups := List (String × List Char)

/-- Characters that stand for themselves. -/
def lit (w : String) : List Atom := w.toList.map fun c => .one (· == c)

/-- `.` -/
def dot (c : Char) : Bool := c != '\n'

/-- The first success of `f m`, `f (m - 1)`, …, `f 0`. -/
def greedy {β : Type*} (f : ℕ → Option β) (m : ℕ) : Option β :=
  (Regex.longestFirst f m).or (f 0)

/-- A match at the front of the text: its groups, and the text behind it. -/
def front : List Atom → List Char → Option (Groups × List Char)
  | [], s => some ([], s)
  | .one _ :: _, [] => none
  | .one cls :: pattern, c :: s => if cls c then front pattern s else none
  | .star cls :: pattern, s =>
      greedy (fun n => front pattern (s.drop n)) (s.takeWhile cls).length
  | .group name cls :: pattern, s =>
      greedy (fun n => (front pattern (s.drop n)).map fun m => ((name, s.take n) :: m.1, m.2))
        (s.takeWhile cls).length

/-- `re.search(pattern, s)`: the groups of the leftmost match. -/
def search (pattern : List Atom) : List Char → Option Groups
  | [] => (front pattern []).map Prod.fst
  | c :: s => ((front pattern (c :: s)).map Prod.fst).or (search pattern s)

/-! ### Greedy choice -/

section Greedy

variable {β : Type*} {f : ℕ → Option β} {n m : ℕ} {b : β}

theorem greedy_eq_some (hnm : n ≤ m) (hfn : f n = some b)
    (hlonger : ∀ k, n < k → k ≤ m → f k = none) : greedy f m = some b := by
  rcases Nat.eq_zero_or_pos n with rfl | hn
  · have hnone : Regex.longestFirst f m = none := by
      by_contra hsome
      obtain ⟨b', hb'⟩ := Option.ne_none_iff_exists'.mp hsome
      obtain ⟨k, hk, hkm, hfk, -⟩ := Regex.exists_of_longestFirst hb'
      rw [hlonger k hk hkm] at hfk
      cases hfk
    rw [greedy, hnone, Option.none_or, hfn]
  · rw [greedy, Regex.longestFirst_eq_some hn hnm hfn hlonger, Option.some_or]

theorem exists_of_greedy (h : greedy f m = some b) : ∃ n, n ≤ m ∧ f n = some b := by
  rw [greedy, Option.or_eq_some_iff] at h
  rcases h with h | ⟨-, h⟩
  · obtain ⟨n, -, hnm, hfn, -⟩ := Regex.exists_of_longestFirst h
    exact ⟨n, hnm, hfn⟩
  · exact ⟨0, Nat.zero_le m, h⟩

theorem greedy_eq_none (h : ∀ k, k ≤ m → f k = none) : greedy f m = none := by
  by_contra hsome
  obtain ⟨b, hb⟩ := Option.ne_none_iff_exists'.mp hsome
  obtain ⟨n, hnm, hfn⟩ := exists_of_greedy hb
  rw [h n hnm] at hfn
  cases hfn

end Greedy

/-! ### Matches at the front -/

variable {pattern : List Atom} {cls : Char → Bool} {name : String}

@[simp] theorem front_nil (s : List Char) : front [] s = some ([], s) := by
  rw [front]

theorem front_one_cons (c : Char) (s : List Char) :
    front (.one cls :: pattern) (c :: s) = if cls c then front pattern s else none := by
  rw [front]

theorem front_lit_append (w : String) (s : List Char) :
    front (lit w ++ pattern) (w.toList ++ s) = front pattern s := by
  unfold lit
  induction w.toList with
  | nil => rfl
  | cons c w ih =>
      rw [List.map_cons, List.cons_append, List.cons_append, front_one_cons, if_pos (by simp), ih]

theorem exists_of_front_lit {w : String} {s : List Char} {m : Groups × List Char}
    (h : front (lit w ++ pattern) s = some m) :
    ∃ t, s = w.toList ++ t ∧ front pattern t = some m := by
  unfold lit at h
  revert s
  induction w.toList with
  | nil => exact fun {s} h => ⟨s, rfl, h⟩
  | cons c w ih =>
      intro s h
      rw [List.map_cons, List.cons_append] at h
      cases s with
      | nil =>
          rw [front] at h
          cases h
      | cons d s =>
          rw [front_one_cons] at h
          split at h
          · rename_i hd
            obtain ⟨t, rfl, ht⟩ := ih h
            exact ⟨t, by rw [eq_of_beq hd, List.cons_append], ht⟩
          · cases h

theorem front_lit_eq_none {w : String} {s : List Char} (h : ¬ w.toList <+: s) :
    front (lit w ++ pattern) s = none := by
  by_contra hsome
  obtain ⟨m, hm⟩ := Option.ne_none_iff_exists'.mp hsome
  obtain ⟨t, rfl, -⟩ := exists_of_front_lit hm
  exact h ⟨t, rfl⟩

/-- What follows a stretch that is as long as possible. -/
theorem stop_of_dropWhile {s : List Char} :
    ∀ c t, s.dropWhile cls = c :: t → cls c = false := by
  intro c t hs
  have hhead := List.head?_dropWhile_not cls s
  rw [hs] at hhead
  exact hhead

/-- Nothing that a repetition takes can be given back when the rest of the pattern starts with no
character of its class. -/
theorem front_star_append (hexcl : ∀ c s, cls c = true → front pattern (c :: s) = none)
    {g r : List Char} (hall : ∀ c ∈ g, cls c = true)
    (hstop : ∀ c s, r = c :: s → cls c = false) :
    front (.star cls :: pattern) (g ++ r) = front pattern r := by
  rw [front, Regex.takeWhile_append_of_stop hall hstop]
  have hwhole : (g ++ r).drop g.length = r := List.drop_left
  cases hr : front pattern r with
  | some m =>
      refine greedy_eq_some le_rfl ?_ fun k hk hkm => absurd hkm (by omega)
      rw [hwhole, hr]
  | none =>
      refine greedy_eq_none fun k hk => ?_
      rcases hk.eq_or_lt with rfl | hlt
      · rw [hwhole, hr]
      · have hkr : k < (g ++ r).length := by
          rw [List.length_append]
          omega
        rw [List.drop_eq_getElem_cons hkr]
        refine hexcl _ _ (hall _ ?_)
        rw [List.getElem_append_left hlt]
        exact List.getElem_mem hlt

/-- A group takes `g` when the rest of the pattern matches behind `g` and behind no longer stretch
of the class. -/
theorem front_group_append {g r : List Char} {m : Groups × List Char}
    (hall : ∀ c ∈ g, cls c = true) (hr : front pattern r = some m)
    (hlonger : ∀ k, 0 < k → k ≤ (r.takeWhile cls).length → front pattern (r.drop k) = none) :
    front (.group name cls :: pattern) (g ++ r) = some ((name, g) :: m.1, m.2) := by
  rw [front, List.takeWhile_append_of_pos hall, List.length_append]
  refine greedy_eq_some (Nat.le_add_right _ _) ?_ fun k hk hkm => ?_
  · rw [List.drop_left, List.take_left, hr]
    rfl
  · have hdrop : (g ++ r).drop k = r.drop (k - g.length) := by
      rw [List.drop_append, List.drop_eq_nil_of_le hk.le, List.nil_append]
    rw [hdrop, hlonger _ (by omega) (by omega), Option.map_none]

/-- A group whose class does not take the first character is empty. -/
theorem front_group_empty {c : Char} {s : List Char} (hc : cls c = false) :
    front (.group name cls :: pattern) (c :: s) =
      (front pattern (c :: s)).map fun m => ((name, []) :: m.1, m.2) := by
  rw [front, List.takeWhile_cons, if_neg (by simp [hc]), List.length_nil]
  rfl

/-- A group at the end of the pattern takes the whole stretch. -/
theorem front_group_end {g r : List Char} (hall : ∀ c ∈ g, cls c = true)
    (hstop : ∀ c s, r = c :: s → cls c = false) :
    front [.group name cls] (g ++ r) = some ([(name, g)], r) := by
  refine front_group_append (m := ([], r)) hall (front_nil r) fun k hk hkm => ?_
  have hnone : r.takeWhile cls = [] := by
    simpa using Regex.takeWhile_append_of_stop (g := []) (by simp) hstop
  rw [hnone, List.length_nil] at hkm
  omega

/-- The names of the groups of a pattern. -/
def names : List Atom → List String
  | [] => []
  | .group name _ :: pattern => name :: names pattern
  | _ :: pattern => names pattern

theorem names_of_front {s : List Char} {m : Groups × List Char}
    (h : front pattern s = some m) : m.1.map Prod.fst = names pattern := by
  induction pattern generalizing s m with
  | nil =>
      rw [front_nil] at h
      obtain rfl := Option.some.inj h
      rfl
  | cons a pattern ih =>
      cases a with
      | one cls =>
          cases s with
          | nil =>
              rw [front] at h
              cases h
          | cons c s =>
              rw [front_one_cons] at h
              split at h
              · exact ih h
              · cases h
      | star cls =>
          rw [front] at h
          obtain ⟨n, -, hn⟩ := exists_of_greedy h
          exact ih hn
      | group name cls =>
          rw [front] at h
          obtain ⟨n, -, hn⟩ := exists_of_greedy h
          obtain ⟨m', hm', rfl⟩ := Option.map_eq_some_iff.mp hn
          rw [List.map_cons, ih hm']
          rfl

theorem names_of_search {s : List Char} {groups : Groups} (h : search pattern s = some groups) :
    groups.map Prod.fst = names pattern := by
  induction s with
  | nil =>
      obtain ⟨m, hm, rfl⟩ := Option.map_eq_some_iff.mp h
      exact names_of_front hm
  | cons c s ih =>
      rw [search, Option.or_eq_some_iff] at h
      rcases h with h | ⟨-, h⟩
      · obtain ⟨m, hm, rfl⟩ := Option.map_eq_some_iff.mp h
        exact names_of_front hm
      · exact ih h

/-- A match at the front is the leftmost one. -/
theorem search_of_front {s : List Char} {m : Groups × List Char} (h : front pattern s = some m) :
    search pattern s = some m.1 := by
  cases s with
  | nil => rw [search, h, Option.map_some]
  | cons c s => rw [search, h, Option.map_some, Option.some_or]

/-! ### Removing -/

/-- `re.sub` with an empty replacement, after the next `skip` characters, which are removed.
`behind` gives the text behind a match at the front, and matches no empty text. -/
def eraseFrom (behind : List Char → Option (List Char)) : ℕ → List Char → List Char
  | _, [] => []
  | skip + 1, _ :: s => eraseFrom behind skip s
  | 0, c :: s =>
      match behind (c :: s) with
      | some r => eraseFrom behind (s.length - r.length) s
      | none => c :: eraseFrom behind 0 s

def erase (behind : List Char → Option (List Char)) (s : List Char) : List Char :=
  eraseFrom behind 0 s

section Erase

variable {behind : List Char → Option (List Char)}

theorem eraseFrom_length (e r : List Char) :
    eraseFrom behind e.length (e ++ r) = erase behind r := by
  induction e with
  | nil => rfl
  | cons c e ih => rw [List.cons_append, List.length_cons, eraseFrom, ih]

theorem erase_of_match {e r : List Char} (hne : e ≠ []) (h : behind (e ++ r) = some r) :
    erase behind (e ++ r) = erase behind r := by
  cases e with
  | nil => exact absurd rfl hne
  | cons c e =>
      rw [List.cons_append] at h ⊢
      rw [erase, eraseFrom, h]
      dsimp only
      rw [List.length_append, Nat.add_sub_cancel, eraseFrom_length]

theorem erase_cons_of_none {c : Char} {s : List Char} (h : behind (c :: s) = none) :
    erase behind (c :: s) = c :: erase behind s := by
  rw [erase, eraseFrom, h]
  rfl

/-- A text in front of which nothing matches, however it goes on, is kept. -/
theorem erase_append_of_none {s : List Char} (h : ∀ c ∈ s, ∀ t, behind (c :: t) = none)
    (r : List Char) : erase behind (s ++ r) = s ++ erase behind r := by
  induction s with
  | nil => rfl
  | cons c s ih =>
      rw [List.cons_append, erase_cons_of_none (h c (by simp) _),
        ih fun d hd => h d (by simp [hd]), List.cons_append]

theorem eraseFrom_sublist (skip : ℕ) (s : List Char) : (eraseFrom behind skip s).Sublist s := by
  induction s generalizing skip with
  | nil => simp [eraseFrom]
  | cons c s ih =>
      cases skip with
      | succ skip => exact (ih skip).cons c
      | zero =>
          rw [eraseFrom]
          split
          · exact (ih _).cons c
          · exact (ih 0).cons_cons c

/-- Nothing is removed exactly when nothing matches anywhere. -/
theorem erase_eq_self_iff {s : List Char} :
    erase behind s = s ↔ ∀ c t, c :: t <:+ s → behind (c :: t) = none := by
  induction s with
  | nil =>
      refine ⟨fun _ c t h => ?_, fun _ => rfl⟩
      cases List.suffix_nil.mp h
  | cons d s ih =>
      refine ⟨?_, ?_⟩
      · intro h
        have hnone : behind (d :: s) = none := by
          cases hsome : behind (d :: s) with
          | none => rfl
          | some r =>
              rw [erase, eraseFrom, hsome] at h
              dsimp only at h
              have hlen := (@eraseFrom_sublist behind (s.length - r.length) s).length_le
              rw [h, List.length_cons] at hlen
              omega
        rw [erase_cons_of_none hnone] at h
        intro c t hsuffix
        rcases List.suffix_cons_iff.mp hsuffix with heq | hsuffix
        · rw [heq, hnone]
        · exact ih.mp (List.cons.inj h).2 c t hsuffix
      · intro h
        rw [erase_cons_of_none (h d s List.suffix_rfl),
          ih.mpr fun c t hsuffix => h c t (hsuffix.trans (List.suffix_cons d s))]

/-- A character at the end that is in no match is kept. -/
theorem erase_concat {c : Char} (hc : ∀ s, behind (s ++ [c]) = (behind s).map (· ++ [c]))
    (hnil : behind [] = none) (hmatch : ∀ s r, behind s = some r → ∃ e, e ≠ [] ∧ s = e ++ r)
    (s : List Char) : erase behind (s ++ [c]) = erase behind s ++ [c] := by
  induction hn : s.length using Nat.strong_induction_on generalizing s with
  | _ n ih =>
      subst hn
      cases s with
      | nil =>
          have hnone : behind [c] = none := by
            simpa [hnil] using hc []
          rw [List.nil_append, erase_cons_of_none hnone]
          rfl
      | cons d s =>
          cases hbehind : behind (d :: s) with
          | none =>
              have hnone : behind (d :: (s ++ [c])) = none := by
                simpa [hbehind] using hc (d :: s)
              rw [List.cons_append, erase_cons_of_none hnone, erase_cons_of_none hbehind,
                ih s.length (by simp) s rfl, List.cons_append]
          | some r =>
              obtain ⟨e, hne, hsplit⟩ := hmatch _ _ hbehind
              have hlen : r.length < (d :: s).length := by
                rw [hsplit, List.length_append]
                have := List.length_pos_iff.mpr hne
                omega
              have hmore : behind (e ++ (r ++ [c])) = some (r ++ [c]) := by
                rw [← List.append_assoc, ← hsplit, hc, hbehind, Option.map_some]
              rw [hsplit, List.append_assoc, erase_of_match hne hmore, ih r.length hlen r rfl,
                erase_of_match hne (hsplit ▸ hbehind)]

end Erase

end SecCask.Search
