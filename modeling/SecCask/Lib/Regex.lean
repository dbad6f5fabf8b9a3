import Mathlib.Data.List.TakeWhile
import Mathlib.Order.Nat
import Mathlib.Tactic.ByContra

/-!
# SecCask.Lib.Regex

`re.match` for patterns that are a sequence of literal characters and captured
character-class repetitions `([…]+)`. Matching starts at the front of the subject, need
not reach its end, and backtracks: a repetition takes the longest stretch of its class
for which the rest of the pattern still matches.

The classes `\S` and `\d` are those of `str` patterns, over all of Unicode.
-/

namespace SecCask.Regex

/-! ### Character classes -/

/-- The characters that `\s` matches. -/
def isSpace (c : Char) : Bool :=
  let n := c.toNat
  (0x09 ≤ n && n ≤ 0x0D) || (0x1C ≤ n && n ≤ 0x20) || n == 0x85 || n == 0xA0 || n == 0x1680 ||
    (0x2000 ≤ n && n ≤ 0x200A) || n == 0x2028 || n == 0x2029 || n == 0x202F || n == 0x205F ||
    n == 0x3000

/-- `\S` -/
def notSpace (c : Char) : Bool := !isSpace c

/-- All characters match `\S`. -/
def noSpace (s : String) : Bool := s.toList.all notSpace

theorem noSpace_iff {s : String} : noSpace s = true ↔ ∀ c ∈ s.toList, notSpace c = true :=
  List.all_eq_true

/-- The code points of the digits zero: each starts a block of ten decimal digits. -/
def decimalZeros : List ℕ :=
  [0x30, 0x660, 0x6F0, 0x7C0, 0x966, 0x9E6, 0xA66, 0xAE6, 0xB66, 0xBE6, 0xC66, 0xCE6, 0xD66,
   0xDE6, 0xE50, 0xED0, 0xF20, 0x1040, 0x1090, 0x17E0, 0x1810, 0x1946, 0x19D0, 0x1A80, 0x1A90,
   0x1B50, 0x1BB0, 0x1C40, 0x1C50, 0xA620, 0xA8D0, 0xA900, 0xA9D0, 0xA9F0, 0xAA50, 0xABF0,
   0xFF10, 0x104A0, 0x10D30, 0x11066, 0x110F0, 0x11136, 0x111D0, 0x112F0, 0x11450, 0x114D0,
   0x11650, 0x116C0, 0x11730, 0x118E0, 0x11950, 0x11C50, 0x11D50, 0x11DA0, 0x16A60, 0x16B50,
   0x1D7CE, 0x1D7D8, 0x1D7E2, 0x1D7EC, 0x1D7F6, 0x1E140, 0x1E2F0, 0x1E950, 0x1FBF0]

/-- The value of a decimal digit. -/
def decimalValue (c : Char) : Option ℕ :=
  (decimalZeros.find? fun z => z ≤ c.toNat && c.toNat < z + 10).map (c.toNat - ·)

/-- `\d` -/
def isDecimal (c : Char) : Bool := (decimalValue c).isSome

/-- `int(s)` for a string of decimal digits. -/
def toInt (s : List Char) : ℕ :=
  s.foldl (fun n c => 10 * n + (decimalValue c).getD 0) 0

theorem decimalValue_of_isDigit {c : Char} (hc : c.isDigit = true) :
    decimalValue c = some (c.toNat - '0'.toNat) := by
  have hrange : 48 ≤ c.toNat ∧ c.toNat ≤ 57 := by
    simpa [Char.isDigit, UInt32.le_iff_toNat_le] using hc
  have hfirst : (0x30 ≤ c.toNat && c.toNat < 0x30 + 10) = true := by
    simp
    omega
  simp only [decimalValue, decimalZeros, List.find?_cons, hfirst]
  rfl

theorem isDecimal_of_isDigit {c : Char} (hc : c.isDigit = true) : isDecimal c = true := by
  rw [isDecimal, decimalValue_of_isDigit hc]
  rfl

theorem toInt_eq_ofDigitChars {s : List Char} (hs : ∀ c ∈ s, c.isDigit = true) (n : ℕ) :
    s.foldl (fun n c => 10 * n + (decimalValue c).getD 0) n = Nat.ofDigitChars 10 s n := by
  induction s generalizing n with
  | nil => rfl
  | cons c s ih =>
      have hc := decimalValue_of_isDigit (hs c (by simp))
      rw [List.foldl_cons, Nat.ofDigitChars_cons, hc, Option.getD_some]
      exact ih (fun d hd => hs d (by simp [hd])) _

/-- `int(str(n)) = n` -/
theorem toInt_repr (n : ℕ) : toInt n.repr.toList = n := by
  rw [Nat.toList_repr, toInt, toInt_eq_ofDigitChars, Nat.ofDigitChars_ten_toDigits]
  intro c hc
  exact Nat.isDigit_of_mem_toDigits (by decide) (by decide) hc

theorem isDigit_of_mem_repr {n : ℕ} {c : Char} (hc : c ∈ n.repr.toList) : c.isDigit = true := by
  rw [Nat.toList_repr] at hc
  exact Nat.isDigit_of_mem_toDigits (by decide) (by decide) hc

theorem repr_toList_ne_nil (n : ℕ) : n.repr.toList ≠ [] := by
  rw [Nat.toList_repr]
  exact Nat.toDigits_ne_nil

/-! ### Patterns -/

inductive Atom
  /-- A character that stands for itself. -/
  | lit (c : Char)
  /-- `(cls+)` -/
  | group (cls : Char → Bool)

/-- The first success of `f n`, `f (n - 1)`, …, `f 1`. -/
def longestFirst {β : Type*} (f : ℕ → Option β) : ℕ → Option β
  | 0 => none
  | n + 1 => (f (n + 1)).or (longestFirst f n)

/-- `re.match(pattern, s)`: the captured groups in their order. -/
def captures : List Atom → List Char → Option (List (List Char))
  | [], _ => some []
  | .lit _ :: _, [] => none
  | .lit c :: pattern, x :: s => if x = c then captures pattern s else none
  | .group cls :: pattern, s =>
      longestFirst (fun n => (captures pattern (s.drop n)).map (s.take n :: ·))
        (s.takeWhile cls).length

theorem longestFirst_eq_some {β : Type*} {f : ℕ → Option β} {n m : ℕ} {b : β} (hn : 0 < n)
    (hnm : n ≤ m) (hfn : f n = some b) (hlonger : ∀ k, n < k → k ≤ m → f k = none) :
    longestFirst f m = some b := by
  induction m with
  | zero => omega
  | succ m ih =>
      rw [longestFirst]
      by_cases heq : n = m + 1
      · rw [← heq, hfn, Option.some_or]
      · rw [hlonger (m + 1) (by omega) (by omega), Option.none_or]
        exact ih (by omega) fun k hk hkm => hlonger k hk (by omega)

theorem exists_of_longestFirst {β : Type*} {f : ℕ → Option β} {m : ℕ} {b : β}
    (h : longestFirst f m = some b) :
    ∃ n, 0 < n ∧ n ≤ m ∧ f n = some b ∧ ∀ k, n < k → k ≤ m → f k = none := by
  induction m with
  | zero => simp [longestFirst] at h
  | succ m ih =>
      rw [longestFirst, Option.or_eq_some_iff] at h
      rcases h with hm | ⟨hnone, h⟩
      · exact ⟨m + 1, by omega, le_rfl, hm, fun k hk hkm => by omega⟩
      · obtain ⟨n, hn, hnm, hfn, hlonger⟩ := ih h
        refine ⟨n, hn, by omega, hfn, fun k hk hkm => ?_⟩
        by_cases hkm' : k = m + 1
        · exact hkm' ▸ hnone
        · exact hlonger k hk (by omega)

/-- A repetition takes `g` when the rest of the pattern matches behind `g` and behind no
longer stretch of the class. -/
theorem captures_group_of_longest {cls : Char → Bool} {pattern : List Atom} {g r : List Char}
    {gs : List (List Char)} (hne : g ≠ []) (hall : ∀ c ∈ g, cls c = true)
    (hr : captures pattern r = some gs)
    (hlonger : ∀ k, 0 < k → captures pattern (r.drop k) = none) :
    captures (.group cls :: pattern) (g ++ r) = some (g :: gs) := by
  refine longestFirst_eq_some (n := g.length) (List.length_pos_iff.mpr hne) ?_ ?_ ?_
  · rw [List.takeWhile_append_of_pos hall, List.length_append]
    omega
  · simp [hr]
  · intro k hk _
    have hdrop : (g ++ r).drop k = r.drop (k - g.length) := by
      rw [List.drop_append, List.drop_eq_nil_of_le hk.le, List.nil_append]
    rw [hdrop, hlonger _ (by omega), Option.map_none]

theorem takeWhile_append_of_stop {cls : Char → Bool} {g r : List Char}
    (hall : ∀ c ∈ g, cls c = true) (hstop : ∀ c s, r = c :: s → cls c = false) :
    (g ++ r).takeWhile cls = g := by
  rw [List.takeWhile_append_of_pos hall]
  cases r with
  | nil => simp
  | cons c s => simp [hstop c s rfl]

/-- A repetition takes the whole stretch of its class when what follows matches. -/
theorem captures_group_of_stop {cls : Char → Bool} {pattern : List Atom} {g r : List Char}
    {gs : List (List Char)} (hne : g ≠ []) (hall : ∀ c ∈ g, cls c = true)
    (hstop : ∀ c s, r = c :: s → cls c = false) (hr : captures pattern r = some gs) :
    captures (.group cls :: pattern) (g ++ r) = some (g :: gs) := by
  have hwhole := takeWhile_append_of_stop hall hstop
  refine longestFirst_eq_some (n := g.length) (List.length_pos_iff.mpr hne) ?_ ?_ ?_
  · rw [hwhole]
  · simp [hr]
  · intro k hk hkm
    rw [hwhole] at hkm
    omega

/-- Behind the group that was captured, the rest of the pattern matches, and it matches
behind no longer stretch of the class. -/
theorem captures_group_inv {cls : Char → Bool} {pattern : List Atom} {s : List Char}
    {gs : List (List Char)} (h : captures (.group cls :: pattern) s = some gs) :
    ∃ g r gs', s = g ++ r ∧ gs = g :: gs' ∧ g ≠ [] ∧ (∀ c ∈ g, cls c = true) ∧
      captures pattern r = some gs' ∧
      ∀ k, 0 < k → k ≤ (r.takeWhile cls).length → captures pattern (r.drop k) = none := by
  obtain ⟨n, hn, hnm, hfn, hlonger⟩ := exists_of_longestFirst h
  obtain ⟨gs', hgs', rfl⟩ := Option.map_eq_some_iff.mp hfn
  have hle : n ≤ s.length := hnm.trans (List.takeWhile_prefix cls).length_le
  have hpre : s.take n = (s.takeWhile cls).take n := by
    conv_lhs => rw [← List.takeWhile_append_dropWhile (p := cls) (l := s)]
    rw [List.take_append_of_le_length hnm]
  have hall : ∀ c ∈ s.take n, cls c = true := by
    intro c hc
    rw [hpre] at hc
    exact List.mem_takeWhile_imp (List.mem_of_mem_take hc)
  have hlen : (s.take n).length = n := List.length_take_of_le hle
  have hstretch : (s.takeWhile cls).length = n + ((s.drop n).takeWhile cls).length := by
    conv_lhs => rw [← List.take_append_drop n s]
    rw [List.takeWhile_append_of_pos hall, List.length_append, hlen]
  refine ⟨s.take n, s.drop n, gs', (List.take_append_drop n s).symm, rfl, ?_, hall, hgs', ?_⟩
  · intro hnil
    rw [hnil, List.length_nil] at hlen
    omega
  · intro k hk hkm
    have hnone := hlonger (n + k) (by omega) (by omega)
    rw [Option.map_eq_none_iff] at hnone
    rw [List.drop_drop]
    exact hnone

/-- What a pattern matched: its literals with the groups between them. -/
def render : List Atom → List (List Char) → List Char
  | [], _ => []
  | .lit c :: pattern, gs => c :: render pattern gs
  | .group _ :: pattern, g :: gs => g ++ render pattern gs
  | .group _ :: pattern, [] => render pattern []

/-- The captured groups are nonempty stretches of their classes. -/
def Fits : List Atom → List (List Char) → Prop
  | [], gs => gs = []
  | .lit _ :: pattern, gs => Fits pattern gs
  | .group cls :: pattern, g :: gs => g ≠ [] ∧ (∀ c ∈ g, cls c = true) ∧ Fits pattern gs
  | .group _ :: _, [] => False

/-- A match is a prefix of the subject that reads as the pattern says. -/
theorem captures_sound {pattern : List Atom} {s : List Char} {gs : List (List Char)}
    (h : captures pattern s = some gs) :
    Fits pattern gs ∧ ∃ rest, s = render pattern gs ++ rest := by
  induction pattern generalizing s gs with
  | nil =>
      obtain rfl : [] = gs := by simpa [captures] using h
      exact ⟨rfl, s, rfl⟩
  | cons a pattern ih =>
      cases a with
      | lit c =>
          cases s with
          | nil => simp [captures] at h
          | cons x s =>
              obtain ⟨rfl, hs⟩ : x = c ∧ captures pattern s = some gs := by
                simpa [captures] using h
              obtain ⟨hfits, rest, rfl⟩ := ih hs
              exact ⟨hfits, rest, rfl⟩
      | group cls =>
          obtain ⟨g, r, gs', rfl, rfl, hne, hall, hr, -⟩ := captures_group_inv h
          obtain ⟨hfits, rest, rfl⟩ := ih hr
          exact ⟨⟨hne, hall, hfits⟩, rest, by rw [render, List.append_assoc]⟩

theorem longestFirst_ne_none {β : Type*} {f : ℕ → Option β} {n m : ℕ} (hn : 0 < n) (hnm : n ≤ m)
    (hfn : f n ≠ none) : longestFirst f m ≠ none := by
  induction m with
  | zero => omega
  | succ m ih =>
      rw [longestFirst, ne_eq, Option.or_eq_none_iff, not_and_or]
      by_cases heq : n = m + 1
      · exact Or.inl (heq ▸ hfn)
      · exact Or.inr (ih (by omega))

/-- Backtracking finds a match whenever there is one. -/
theorem captures_complete {pattern : List Atom} {gs : List (List Char)} (hfits : Fits pattern gs)
    (rest : List Char) : captures pattern (render pattern gs ++ rest) ≠ none := by
  induction pattern generalizing gs with
  | nil => simp [captures]
  | cons a pattern ih =>
      cases a with
      | lit c => simpa [captures, render] using ih hfits
      | group cls =>
          cases gs with
          | nil => exact hfits.elim
          | cons g gs =>
              obtain ⟨hne, hall, hfits⟩ := hfits
              refine longestFirst_ne_none (n := g.length) (List.length_pos_iff.mpr hne) ?_ ?_
              · rw [render, List.append_assoc, List.takeWhile_append_of_pos hall,
                  List.length_append]
                exact Nat.le_add_right _ _
              · simpa [render] using ih hfits

/-- The literals of a pattern that are the character `c`. -/
def litCount (c : Char) : List Atom → ℕ
  | [] => 0
  | .lit x :: pattern => litCount c pattern + if x = c then 1 else 0
  | .group _ :: pattern => litCount c pattern

theorem litCount_le_count_render (c : Char) (pattern : List Atom) (gs : List (List Char)) :
    litCount c pattern ≤ (render pattern gs).count c := by
  induction pattern generalizing gs with
  | nil => simp [litCount]
  | cons a pattern ih =>
      cases a with
      | lit x =>
          have hrec := ih gs
          by_cases hx : x = c
          · simp [litCount, render, hx]
            omega
          · simp [litCount, render, hx]
            omega
      | group cls =>
          cases gs with
          | nil => exact ih []
          | cons g gs =>
              have hrec := ih gs
              simp [litCount, render]
              omega

/-- A subject with too few of a literal character does not match. -/
theorem captures_eq_none_of_count_lt {pattern : List Atom} {s : List Char} (c : Char)
    (h : s.count c < litCount c pattern) : captures pattern s = none := by
  by_contra hsome
  obtain ⟨gs, hgs⟩ := Option.ne_none_iff_exists'.mp hsome
  obtain ⟨-, rest, rfl⟩ := captures_sound hgs
  have hle := litCount_le_count_render c pattern gs
  rw [List.count_append] at h
  omega

end SecCask.Regex
