import Mathlib.Data.List.DropRight
import SecCask.Lib.Regex

/-!
# SecCask.Lib.PyString

Text mode, and `str.replace`, `str.split` and `int(…)` of Python strings.
-/

namespace SecCask.PyString

/-! ### Text mode -/

/-- What reading a file in text mode makes of the line breaks in it. -/
def universalNewlines : List Char → List Char
  | '\r' :: '\n' :: rest => '\n' :: universalNewlines rest
  | '\r' :: rest => '\n' :: universalNewlines rest
  | c :: rest => c :: universalNewlines rest
  | [] => []

theorem universalNewlines_append {s : List Char} (hs : '\r' ∉ s) (t : List Char) :
    universalNewlines (s ++ t) = s ++ universalNewlines t := by
  induction s with
  | nil => rfl
  | cons c s ih =>
      obtain ⟨hc, hs⟩ := not_or.mp (List.mem_cons.not.mp hs)
      rw [List.cons_append, universalNewlines.eq_3, ih hs, List.cons_append]
      · intro _ heq
        exact absurd heq.symm hc
      · exact fun heq => absurd heq.symm hc

theorem cr_notMem_universalNewlines (cs : List Char) : '\r' ∉ universalNewlines cs := by
  induction cs using universalNewlines.induct with
  | case1 rest ih => simpa [universalNewlines] using ih
  | case2 rest hne ih => simpa [universalNewlines] using ih
  | case3 c rest hne hne' ih =>
      rw [universalNewlines]
      · simp only [List.mem_cons, not_or]
        refine ⟨?_, ih⟩
        intro heq
        subst heq
        exact hne' rfl
      · exact hne
      · exact hne'
  | case4 => simp [universalNewlines]

theorem universalNewlines_of_notMem {cs : List Char} (h : '\r' ∉ cs) :
    universalNewlines cs = cs := by
  have happend := universalNewlines_append h []
  simpa [universalNewlines] using happend

/-- Text mode reads a text back exactly if it has no carriage return. -/
theorem universalNewlines_eq_self_iff {cs : List Char} :
    universalNewlines cs = cs ↔ '\r' ∉ cs := by
  constructor
  · intro h hmem
    rw [← h] at hmem
    exact cr_notMem_universalNewlines cs hmem
  · exact universalNewlines_of_notMem

/-! ### Replacing -/

/-- `s.replace(old, new)` after the next `skip` characters, which belong to an occurrence that
has been replaced. -/
def replaceFrom (old new : List Char) : ℕ → List Char → List Char
  | _, [] => []
  | skip + 1, _ :: s => replaceFrom old new skip s
  | 0, c :: s =>
      if old <+: c :: s then new ++ replaceFrom old new (old.length - 1) s
      else c :: replaceFrom old new 0 s

/-- `s.replace(old, new)`, for an `old` that is not empty. -/
def replace (old new s : String) : String :=
  String.ofList (replaceFrom old.toList new.toList 0 s.toList)

/-- Nothing is replaced in a text without the first character of `old`. -/
theorem replaceFrom_of_notMem {c : Char} {old new s : List Char} (hc : c ∉ s) :
    replaceFrom (c :: old) new 0 s = s := by
  induction s with
  | nil => rfl
  | cons d s ih =>
      obtain ⟨hd, hs⟩ := not_or.mp (List.mem_cons.not.mp hc)
      have hno : ¬ c :: old <+: d :: s := by
        rw [List.cons_prefix_cons]
        exact fun h => hd h.1
      rw [replaceFrom, if_neg hno, ih hs]

/-- A character stays that does not occur in what is replaced: it is in no occurrence, and not
in the rest of one that is skipped. -/
theorem mem_replaceFrom {a c : Char} {old new : List Char} (hold : c ∉ a :: old) {s : List Char}
    {skip : ℕ} (hskip : c ∉ s.take skip) (hc : c ∈ s) :
    c ∈ replaceFrom (a :: old) new skip s := by
  induction s generalizing skip with
  | nil => cases hc
  | cons d s ih =>
      cases skip with
      | succ skip =>
          rw [List.take_succ_cons] at hskip
          obtain ⟨hd, hskip⟩ := not_or.mp (List.mem_cons.not.mp hskip)
          exact ih hskip ((List.mem_cons.mp hc).resolve_left hd)
      | zero =>
          rw [replaceFrom]
          split
          · rename_i hprefix
            obtain ⟨hd, rest, rfl⟩ := List.cons_prefix_cons.mp hprefix
            obtain ⟨hca, hcold⟩ := not_or.mp (List.mem_cons.not.mp hold)
            refine List.mem_append_right _ (ih ?_ ((List.mem_cons.mp hc).resolve_left (hd ▸ hca)))
            rw [List.length_cons, Nat.add_sub_cancel, List.take_left]
            exact hcold
          · rcases List.mem_cons.mp hc with rfl | hc
            · exact List.mem_cons_self
            · exact List.mem_cons_of_mem _ (ih (by simp) hc)

theorem replace_of_notMem {old new s : String} {a : Char} {rest : List Char}
    (hold : old.toList = a :: rest) (ha : a ∉ s.toList) : replace old new s = s := by
  rw [replace, hold, replaceFrom_of_notMem ha, String.ofList_toList]

theorem mem_replace {old new s : String} {a c : Char} {rest : List Char}
    (hold : old.toList = a :: rest) (hnot : c ∉ a :: rest) (hc : c ∈ s.toList) :
    c ∈ (replace old new s).toList := by
  rw [replace, hold, String.toList_ofList]
  exact mem_replaceFrom hnot (by simp) hc

/-! ### Splitting -/

/-- `s.split(sep)` after the next `skip` characters, which belong to a separator. -/
def splitFrom (sep : List Char) : ℕ → List Char → List (List Char)
  | _, [] => [[]]
  | skip + 1, _ :: s => splitFrom sep skip s
  | 0, c :: s =>
      if sep <+: c :: s then [] :: splitFrom sep (sep.length - 1) s
      else (splitFrom sep 0 s).modifyHead (c :: ·)

/-- `s.split(sep)`, for a `sep` that is not empty. -/
def split (sep : String) (s : List Char) : List (List Char) := splitFrom sep.toList 0 s

theorem splitFrom_length (sep e s : List Char) :
    splitFrom sep e.length (e ++ s) = splitFrom sep 0 s := by
  induction e with
  | nil => rfl
  | cons c e ih => rw [List.cons_append, List.length_cons, splitFrom, ih]

/-- Without the first character of the separator there is nothing to split. -/
theorem splitFrom_of_notMem {a : Char} {sep s : List Char} (ha : a ∉ s) :
    splitFrom (a :: sep) 0 s = [s] := by
  induction s with
  | nil => rfl
  | cons c s ih =>
      obtain ⟨hc, hs⟩ := not_or.mp (List.mem_cons.not.mp ha)
      have hno : ¬ a :: sep <+: c :: s := fun h => hc (List.cons_prefix_cons.mp h).1
      rw [splitFrom, if_neg hno, ih hs, List.modifyHead_cons]

theorem splitFrom_append {a : Char} {sep s : List Char} (ha : a ∉ s) (t : List Char) :
    splitFrom (a :: sep) 0 (s ++ (a :: sep ++ t)) = s :: splitFrom (a :: sep) 0 t := by
  induction s with
  | nil =>
      have hsep : a :: sep <+: a :: (sep ++ t) := ⟨t, rfl⟩
      rw [List.nil_append, List.cons_append, splitFrom, if_pos hsep, List.length_cons,
        Nat.add_sub_cancel, splitFrom_length]
  | cons c s ih =>
      obtain ⟨hc, hs⟩ := not_or.mp (List.mem_cons.not.mp ha)
      have hno : ¬ a :: sep <+: c :: (s ++ (a :: sep ++ t)) := fun h =>
        hc (List.cons_prefix_cons.mp h).1
      rw [List.cons_append, splitFrom, if_neg hno, ih hs, List.modifyHead_cons]

/-! ### Integers -/

/-- The digits of a literal. Underscores may stand between two digits. -/
def digits (s : List Char) : Option (List Char) :=
  if s.all (fun c => Regex.isDecimal c || c == '_') ∧ [] ∉ s.splitOn '_' then
    some (s.filter Regex.isDecimal)
  else none

/-- `s.strip()` -/
def strip (s : List Char) : List Char :=
  (s.dropWhile Regex.isSpace).rdropWhile Regex.isSpace

/-- `int(s)`; `none` is a `ValueError`. -/
def int (s : String) : Option ℤ :=
  match strip s.toList with
  | '-' :: s => (digits s).map fun ds => -(Regex.toInt ds : ℤ)
  | '+' :: s => (digits s).map fun ds => (Regex.toInt ds : ℤ)
  | s => (digits s).map fun ds => (Regex.toInt ds : ℤ)

/-- What may stand in a literal. -/
def InLiteral (c : Char) : Prop :=
  Regex.isSpace c = true ∨ c = '-' ∨ c = '+' ∨ Regex.isDecimal c = true ∨ c = '_'

theorem inLiteral_of_digits {s ds : List Char} (h : digits s = some ds) :
    ∀ c ∈ s, InLiteral c := by
  intro c hc
  unfold digits at h
  split at h
  · rename_i hdigits
    have hchar := List.all_eq_true.mp hdigits.1 c hc
    rw [Bool.or_eq_true, beq_iff_eq] at hchar
    exact .inr (.inr (.inr hchar))
  · cases h

/-- What is stripped is whitespace. -/
theorem inLiteral_of_strip {s : List Char} (h : ∀ c ∈ strip s, InLiteral c) :
    ∀ c ∈ s, InLiteral c := by
  intro c hc
  have hspace : ∀ {t : List Char}, c ∈ t.takeWhile Regex.isSpace → InLiteral c :=
    fun ht => .inl (List.mem_takeWhile_imp ht)
  rw [← List.takeWhile_append_dropWhile (p := Regex.isSpace) (l := s)] at hc
  rcases List.mem_append.mp hc with hc | hc
  · exact hspace hc
  · rw [← List.mem_reverse,
      ← List.takeWhile_append_dropWhile (p := Regex.isSpace) (l := (s.dropWhile _).reverse)] at hc
    rcases List.mem_append.mp hc with hc | hc
    · exact hspace hc
    · exact h c (List.mem_reverse.mpr hc)

/-- A string that can be read holds nothing else. -/
theorem inLiteral_of_int {s : String} {n : ℤ} (h : int s = some n) :
    ∀ c ∈ s.toList, InLiteral c := by
  refine inLiteral_of_strip ?_
  have hsign : ∀ {sign : Char} {t : List Char} {f : List Char → ℤ}, InLiteral sign →
      (digits t).map f = some n → ∀ c ∈ sign :: t, InLiteral c := by
    intro sign t f hsign hdigits c hc
    obtain ⟨ds, hds, -⟩ := Option.map_eq_some_iff.mp hdigits
    rcases List.mem_cons.mp hc with rfl | hc
    · exact hsign
    · exact inLiteral_of_digits hds c hc
  unfold int at h
  split at h
  · rename_i hstrip
    exact hstrip ▸ hsign (.inr (.inl rfl)) h
  · rename_i hstrip
    exact hstrip ▸ hsign (.inr (.inr (.inl rfl))) h
  · obtain ⟨ds, hds, -⟩ := Option.map_eq_some_iff.mp h
    exact inLiteral_of_digits hds

end SecCask.PyString
