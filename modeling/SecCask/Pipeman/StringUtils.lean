import SecCask.Lib.Search

/-!
# SecCask.Pipeman.StringUtils

`StringUtils.remove_ansi_color_escape` of `utils.py`: the escape sequences that a terminal takes
for colours are cut out of a text.
-/

namespace SecCask.Pipeman.StringUtils

open Search

/-! ### Escape sequences -/

/-- `[0-?]` -/
def isParameter (c : Char) : Bool := '0' ≤ c && c ≤ '?'

/-- `[ -\/]` -/
def isIntermediate (c : Char) : Bool := ' ' ≤ c && c ≤ '/'

/-- `[@-~]` -/
def isFinal (c : Char) : Bool := '@' ≤ c && c ≤ '~'

/-- An escape sequence: an introducer, parameters, intermediates and one final character. -/
inductive IsEscape : List Char → Prop
  | mk {introducer : String} {parameters intermediates : List Char} {final : Char} :
      introducer = "\u009B" ∨ introducer = "\x1B[" → (∀ c ∈ parameters, isParameter c = true) →
      (∀ c ∈ intermediates, isIntermediate c = true) → isFinal final = true →
      IsEscape (introducer.toList ++ (parameters ++ (intermediates ++ [final])))

/-- Escape sequences in a row. -/
inductive Escapes : List Char → Prop
  | nil : Escapes []
  | cons {e s : List Char} : IsEscape e → Escapes s → Escapes (e ++ s)

/-! ### Removing them -/

/-- `[0-?]*[ -\/]*[@-~]` -/
def escapeTail : List Atom := [.star isParameter, .star isIntermediate, .one isFinal]

/-- `REGEX_REMOVE_COLOR_ANSI_ESCAPE`, one alternative after the other: the text behind a match. -/
def escape (s : List Char) : Option (List Char) :=
  ((front (lit "\u009B" ++ escapeTail) s).or (front (lit "\x1B[" ++ escapeTail) s)).map Prod.snd

/-- `StringUtils.remove_ansi_color_escape` -/
def removeAnsiColorEscape (text : String) : List Char := erase escape text.toList

theorem isFinal_of_isParameter {c : Char} (h : isParameter c = true) : isFinal c = false := by
  simp [isParameter, isFinal, Char.le_def, UInt32.le_iff_toNat_le] at *
  omega

theorem isFinal_of_isIntermediate {c : Char} (h : isIntermediate c = true) :
    isFinal c = false := by
  simp [isIntermediate, isFinal, Char.le_def, UInt32.le_iff_toNat_le] at *
  omega

theorem isIntermediate_of_isParameter {c : Char} (h : isParameter c = true) :
    isIntermediate c = false := by
  simp [isParameter, isIntermediate, Char.le_def, UInt32.le_iff_toNat_le] at *
  omega

/-- The three classes of an escape sequence exclude each other, so that it ends where it has to. -/
theorem front_escapeTail {parameters intermediates r : List Char}
    (hparameters : ∀ c ∈ parameters, isParameter c = true)
    (hintermediates : ∀ c ∈ intermediates, isIntermediate c = true)
    (hparam : ∀ c s, intermediates ++ r = c :: s → isParameter c = false)
    (hinter : ∀ c s, r = c :: s → isIntermediate c = false) :
    front escapeTail (parameters ++ (intermediates ++ r)) = front [.one isFinal] r := by
  have hfinal : ∀ {c : Char} (s : List Char), isFinal c = false →
      front [.one isFinal] (c :: s) = none := by
    intro c s hc
    rw [front_one_cons, hc]
    rfl
  have hexcl : ∀ c s, isParameter c = true →
      front [.star isIntermediate, .one isFinal] (c :: s) = none := by
    intro c s hc
    have hstar : front [.star isIntermediate, .one isFinal] ([] ++ c :: s) =
        front [.one isFinal] (c :: s) := by
      refine front_star_append (fun c s hc => hfinal s (isFinal_of_isIntermediate hc)) (by simp) ?_
      intro d t h
      rw [← (List.cons.inj h).1]
      exact isIntermediate_of_isParameter hc
    rw [List.nil_append] at hstar
    rw [hstar, hfinal s (isFinal_of_isParameter hc)]
  rw [escapeTail, front_star_append hexcl hparameters hparam,
    front_star_append (fun c s hc => hfinal s (isFinal_of_isIntermediate hc)) hintermediates hinter]

theorem front_escapeTail_eq_some_iff {s : List Char} {m : Groups × List Char} :
    front escapeTail s = some m ↔ m.1 = [] ∧ ∃ parameters intermediates final,
      (∀ c ∈ parameters, isParameter c = true) ∧
      (∀ c ∈ intermediates, isIntermediate c = true) ∧ isFinal final = true ∧
      s = parameters ++ (intermediates ++ final :: m.2) := by
  refine ⟨?_, ?_⟩
  -- the three classes follow each other, so what matches is cut where `takeWhile` stops
  · intro h
    have hs : s = s.takeWhile isParameter ++
        ((s.dropWhile isParameter).takeWhile isIntermediate ++
          (s.dropWhile isParameter).dropWhile isIntermediate) := by
      rw [List.takeWhile_append_dropWhile, List.takeWhile_append_dropWhile]
    have hparameters : ∀ c ∈ s.takeWhile isParameter, isParameter c = true :=
      fun _ => List.mem_takeWhile_imp
    have hintermediates : ∀ c ∈ (s.dropWhile isParameter).takeWhile isIntermediate,
        isIntermediate c = true := fun _ => List.mem_takeWhile_imp
    rw [hs, front_escapeTail hparameters hintermediates
      (by rw [List.takeWhile_append_dropWhile]; exact stop_of_dropWhile) stop_of_dropWhile] at h
    cases hrest : (s.dropWhile isParameter).dropWhile isIntermediate with
    | nil =>
        rw [hrest, front] at h
        cases h
    | cons final r =>
        rw [hrest, front_one_cons, front_nil] at h
        split at h
        · rename_i hfinal
          obtain rfl := Option.some.inj h
          exact ⟨rfl, _, _, final, hparameters, hintermediates, hfinal, hrest ▸ hs⟩
        · cases h
  · intro h
    obtain ⟨hgroups, parameters, intermediates, final, hparameters, hintermediates, hfinal,
      rfl⟩ := h
    -- the final character is of neither class before it, hence the cut is the one given
    have hinter : isIntermediate final = false := by
      by_contra hnot
      rw [isFinal_of_isIntermediate (by simpa using hnot)] at hfinal
      cases hfinal
    have hparam : isParameter final = false := by
      by_contra hnot
      rw [isFinal_of_isParameter (by simpa using hnot)] at hfinal
      cases hfinal
    rw [front_escapeTail hparameters hintermediates ?_ ?_, front_one_cons, if_pos hfinal,
      front_nil, ← hgroups]
    · intro c t h
      cases intermediates with
      | nil =>
          rw [← (List.cons.inj h).1]
          exact hparam
      | cons d intermediates =>
          rw [← (List.cons.inj h).1]
          by_contra hnot
          have hd := hintermediates d List.mem_cons_self
          rw [isIntermediate_of_isParameter (by simpa using hnot)] at hd
          cases hd
    · intro c t h
      rw [← (List.cons.inj h).1]
      exact hinter

/-- `REGEX_REMOVE_COLOR_ANSI_ESCAPE` matches the escape sequences. -/
theorem escape_eq_some_iff {s r : List Char} :
    escape s = some r ↔ ∃ e, IsEscape e ∧ s = e ++ r := by
  have htail : ∀ {introducer : String}, introducer = "\u009B" ∨ introducer = "\x1B[" →
      ∀ {m : Groups × List Char}, front (lit introducer ++ escapeTail) s = some m →
        ∃ e, IsEscape e ∧ s = e ++ m.2 := by
    intro introducer hintroducer m h
    obtain ⟨t, rfl, ht⟩ := exists_of_front_lit h
    obtain ⟨-, parameters, intermediates, final, hparameters, hintermediates, hfinal, rfl⟩ :=
      front_escapeTail_eq_some_iff.mp ht
    exact ⟨_, .mk hintroducer hparameters hintermediates hfinal, by simp⟩
  refine ⟨?_, ?_⟩
  · intro h
    obtain ⟨m, hm, rfl⟩ := Option.map_eq_some_iff.mp h
    rcases Option.or_eq_some_iff.mp hm with hm | ⟨-, hm⟩
    · exact htail (Or.inl rfl) hm
    · exact htail (Or.inr rfl) hm
  · intro hex
    obtain ⟨e, he, rfl⟩ := hex
    cases he with
    | @mk introducer parameters intermediates final hintroducer hparameters hintermediates
        hfinal =>
        have hmatch : front escapeTail (parameters ++ (intermediates ++ final :: r)) =
            some ([], r) :=
          front_escapeTail_eq_some_iff.mpr
            ⟨rfl, _, _, _, hparameters, hintermediates, hfinal, rfl⟩
        have happend : introducer.toList ++ (parameters ++ (intermediates ++ [final])) ++ r =
            introducer.toList ++ (parameters ++ (intermediates ++ final :: r)) := by
          simp
        rw [happend, escape]
        rcases hintroducer with rfl | rfl
        · rw [front_lit_append, hmatch]
          rfl
        -- the first alternative does not match, so `re` comes to the second
        · have hother : ¬ "\u009B".toList <+: "\x1B[".toList ++
              (parameters ++ (intermediates ++ final :: r)) := by
            intro hex
            obtain ⟨t, ht⟩ := hex
            exact absurd (List.cons.inj ht).1 (by decide)
          rw [front_lit_eq_none hother, Option.none_or, front_lit_append, hmatch]
          rfl

theorem IsEscape.ne_nil {e : List Char} (h : IsEscape e) : e ≠ [] := by
  cases h
  simp

/-- An escape sequence ends with its final character. -/
theorem IsEscape.getLast? {e : List Char} (h : IsEscape e) :
    ∃ before final, e = before ++ [final] ∧ isFinal final = true := by
  cases h with
  | @mk introducer parameters intermediates final _ _ _ hfinal =>
      exact ⟨introducer.toList ++ (parameters ++ intermediates), final, by simp, hfinal⟩

/-- The first character of an introducer. -/
theorem IsEscape.head {e : List Char} (h : IsEscape e) :
    ∃ c t, e = c :: t ∧ (c = '\u009B' ∨ c = '\x1B') := by
  cases h with
  | mk hintroducer _ _ _ =>
      rcases hintroducer with rfl | rfl
      · exact ⟨'\u009B', _, rfl, Or.inl rfl⟩
      · exact ⟨'\x1B', _, rfl, Or.inr rfl⟩

theorem escape_eq_none_of_head {c : Char} (h : c ≠ '\u009B') (h' : c ≠ '\x1B')
    (t : List Char) : escape (c :: t) = none := by
  by_contra hsome
  obtain ⟨r, hr⟩ := Option.ne_none_iff_exists'.mp hsome
  obtain ⟨e, he, hsplit⟩ := escape_eq_some_iff.mp hr
  obtain ⟨d, t', rfl, hd⟩ := he.head
  rw [List.cons_append] at hsplit
  obtain ⟨rfl, -⟩ := List.cons.inj hsplit
  exact hd.elim h h'

theorem erase_escapes {e : List Char} (h : Escapes e) (s : List Char) :
    erase escape (e ++ s) = erase escape s := by
  induction h with
  | nil => rfl
  | @cons e rest he _ ih =>
      rw [List.append_assoc, erase_of_match he.ne_nil
        (escape_eq_some_iff.mpr ⟨e, he, rfl⟩), ih]

/-- A quote at the end closes no escape sequence. -/
theorem escape_concat_quote (s : List Char) :
    escape (s ++ ['"']) = (escape s).map (· ++ ['"']) := by
  refine Option.ext fun r => ?_
  rw [Option.map_eq_some_iff, escape_eq_some_iff]
  refine ⟨?_, ?_⟩
  · intro hex
    obtain ⟨e, he, hsplit⟩ := hex
    rcases List.eq_nil_or_concat r with rfl | ⟨r', c, hr⟩
    · obtain ⟨before, final, rfl, hfinal⟩ := he.getLast?
      rw [List.append_nil] at hsplit
      obtain rfl := List.singleton_inj.mp (List.append_inj_right' hsplit rfl)
      cases hfinal
    · obtain rfl : r = r' ++ [c] := by simpa using hr
      rw [← List.append_assoc] at hsplit
      obtain rfl := List.singleton_inj.mp (List.append_inj_right' hsplit rfl)
      exact ⟨r', escape_eq_some_iff.mpr ⟨e, he, List.append_inj_left' hsplit rfl⟩, rfl⟩
  · intro hex
    obtain ⟨r', hr', rfl⟩ := hex
    obtain ⟨e, he, rfl⟩ := escape_eq_some_iff.mp hr'
    exact ⟨e, he, List.append_assoc ..⟩

theorem erase_escape_concat_quote (s : List Char) :
    erase escape (s ++ ['"']) = erase escape s ++ ['"'] := by
  refine erase_concat escape_concat_quote ?_ ?_ s
  · by_contra hsome
    obtain ⟨r, hr⟩ := Option.ne_none_iff_exists'.mp hsome
    obtain ⟨e, he, hsplit⟩ := escape_eq_some_iff.mp hr
    exact he.ne_nil (List.append_eq_nil_iff.mp hsplit.symm).1
  · intro s r h
    obtain ⟨e, he, rfl⟩ := escape_eq_some_iff.mp h
    exact ⟨e, he.ne_nil, rfl⟩

theorem erase_escape_eq_self_iff {s : List Char} :
    erase escape s = s ↔ ∀ e, IsEscape e → ¬ e <:+: s := by
  rw [erase_eq_self_iff]
  refine ⟨?_, ?_⟩
  · intro h e he hex
    obtain ⟨before, after, hsplit⟩ := hex
    obtain ⟨c, t, rfl, -⟩ := he.head
    have hsuffix : c :: (t ++ after) <:+ s := ⟨before, by rw [← hsplit]; simp⟩
    have hnone := h c (t ++ after) hsuffix
    rw [← List.cons_append, escape_eq_some_iff.mpr ⟨c :: t, he, rfl⟩] at hnone
    cases hnone
  · intro h c t hsuffix
    by_contra hsome
    obtain ⟨r, hr⟩ := Option.ne_none_iff_exists'.mp hsome
    obtain ⟨e, he, hsplit⟩ := escape_eq_some_iff.mp hr
    obtain ⟨before, rfl⟩ := hsuffix
    exact h e he ⟨before, r, by rw [hsplit, List.append_assoc]⟩

end SecCask.Pipeman.StringUtils
