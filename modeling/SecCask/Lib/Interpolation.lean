import SecCask.Lib.Fallible
import SecCask.Lib.OrderedDict

/-!
# SecCask.Lib.Interpolation

A section of a `configparser.ConfigParser` with its default `BasicInterpolation`: in a value
`%%` stands for `%` and `%(name)s` for the value of another option. Setting a value checks
what is left of it without these; getting it replaces them.

A value without `%` is read as it was set. A value with `%` is not: its `%%` are gone, or one
of its references has to be looked up (`plain_of_get_set`).
-/

namespace SecCask.ConfigParser

inductive ConfigError
  /-- `ValueError`: a stray `%` in a value that is set -/
  | invalidValue
  | noOption
  | interpolationSyntax
  | interpolationMissingOption
  | interpolationDepth
  deriving DecidableEq, Repr

/-! ### Setting and getting -/

/-- `%\(([^)]+)\)s` at the front of a text: the name, and the rest of the text. -/
def matchKey : List Char → Option (List Char × List Char)
  | '%' :: '(' :: s =>
      match s.takeWhile (· ≠ ')'), s.dropWhile (· ≠ ')') with
      | c :: name, ')' :: 's' :: rest => some (c :: name, rest)
      | _, _ => none
  | _ => none

/-- `value.replace('%%', '')` -/
def dropPairs : List Char → List Char
  | '%' :: '%' :: s => dropPairs s
  | c :: s => c :: dropPairs s
  | [] => []

/-- `_KEYCRE.sub('', value)`, for a value no longer than the bound. -/
def dropKeys : ℕ → List Char → List Char
  | n + 1, c :: s =>
      match matchKey (c :: s) with
      | some (_, rest) => dropKeys n rest
      | none => c :: dropKeys n s
  | _, s => s

/-- `BasicInterpolation.before_set` accepts the value. -/
def beforeSet (value : String) : Bool :=
  let rest := dropPairs value.toList
  !(dropKeys rest.length rest).contains '%'

inductive Token
  | text (c : Char)
  | percent
  | var (name : List Char)
  | bad
  deriving DecidableEq, Repr

/-- The parts into which `_interpolate_some` takes a value no longer than the bound. -/
def tokens : ℕ → List Char → List Token
  | n + 1, '%' :: s =>
      match s with
      | '%' :: s => .percent :: tokens n s
      | s =>
          match matchKey ('%' :: s) with
          | some (name, rest) => .var name :: tokens n rest
          | none => [.bad]
  | n + 1, c :: s => .text c :: tokens n s
  | _, _ => []

def tokensOf (value : String) : List Token := tokens value.toList.length value.toList

/-- One part, where `expand` interpolates the value of another option. -/
def expandToken (lookup : String → Option String)
    (expand : String → Except ConfigError (List Char)) : Token → Except ConfigError (List Char)
  | .text c => .ok [c]
  | .percent => .ok ['%']
  | .bad => .error .interpolationSyntax
  | .var name =>
      match lookup (String.ofList name) with
      | none => .error .interpolationMissingOption
      | some value => if '%' ∈ value.toList then expand value else .ok value.toList

/-- `_interpolate_some`, down to a depth. -/
def expand (lookup : String → Option String) : ℕ → String → Except ConfigError (List Char)
  | 0, _ => .error .interpolationDepth
  | depth + 1, value => do
      let parts ← (tokensOf value).mapM (expandToken lookup (expand lookup depth))
      return parts.flatten

/-- `MAX_INTERPOLATION_DEPTH` -/
def maxInterpolationDepth : ℕ := 10

/-- The options of a section as they are stored, those of the defaults, and `optionxform`,
which the names in references go through. -/
structure Section where
  options : OrderedDict String String
  defaults : OrderedDict String String
  optionxform : String → String

namespace Section

def lookup (sec : Section) (option : String) : Option String :=
  (sec.options.lookup option).or (sec.defaults.lookup option)

/-- `parser.set(section, option, value)` -/
def set (sec : Section) (option value : String) : Except ConfigError Section :=
  if beforeSet value then .ok { sec with options := sec.options.set option value }
  else .error .invalidValue

/-- `parser.get(section, option)` -/
def get (sec : Section) (option : String) : Except ConfigError String :=
  match sec.lookup option with
  | none => .error .noOption
  | some value =>
      (expand (fun name => sec.lookup (sec.optionxform name)) maxInterpolationDepth value).map
        String.ofList

end Section

/-! ### Values without percent signs -/

theorem dropPairs_of_notMem {s : List Char} (hs : '%' ∉ s) : dropPairs s = s := by
  induction s with
  | nil => rfl
  | cons c s ih =>
      obtain ⟨hc, hs⟩ := not_or.mp (List.mem_cons.not.mp hs)
      rw [dropPairs, ih hs]
      intro s' heq
      subst heq
      exact fun _ => hc rfl

theorem matchKey_of_ne {c : Char} (hc : c ≠ '%') (s : List Char) : matchKey (c :: s) = none := by
  unfold matchKey
  split
  · rename_i heq
    exact absurd (List.cons.inj heq).1 hc
  · rfl

theorem dropKeys_of_notMem {n : ℕ} {s : List Char} (hs : '%' ∉ s) : dropKeys n s = s := by
  induction s generalizing n with
  | nil => cases n <;> rfl
  | cons c s ih =>
      obtain ⟨hc, hs⟩ := not_or.mp (List.mem_cons.not.mp hs)
      cases n with
      | zero => rfl
      | succ n => rw [dropKeys, matchKey_of_ne (Ne.symm hc)]; simp [ih hs]

theorem beforeSet_of_notMem {value : String} (hvalue : '%' ∉ value.toList) :
    beforeSet value = true := by
  simp [beforeSet, dropPairs_of_notMem hvalue, dropKeys_of_notMem hvalue, hvalue]

theorem tokens_text {c : Char} (hc : c ≠ '%') (n : ℕ) (s : List Char) :
    tokens (n + 1) (c :: s) = .text c :: tokens n s := by
  rw [tokens]
  exact fun h => hc h

theorem tokens_pair (n : ℕ) (s : List Char) :
    tokens (n + 1) ('%' :: '%' :: s) = .percent :: tokens n s := by
  rw [tokens]

/-! ### Values with percent signs -/

/-- The part is not a reference, and not an error. -/
def Token.isPlain : Token → Bool
  | .text _ | .percent => true
  | .var _ | .bad => false

/-- What is read where a value has no references. -/
def collapse : List Char → List Char
  | '%' :: '%' :: s => '%' :: collapse s
  | c :: s => c :: collapse s
  | [] => []

theorem collapse_cons_of_not_pair {c : Char} {s : List Char} (h : c = '%' → ∀ r, s ≠ '%' :: r) :
    collapse (c :: s) = c :: collapse s := by
  rw [collapse]
  intro r hc hs
  exact h hc r hs

theorem collapse_cons {c : Char} (hc : c ≠ '%') (s : List Char) :
    collapse (c :: s) = c :: collapse s :=
  collapse_cons_of_not_pair fun h => absurd h hc

theorem collapse_append {front : List Char} (hfront : '%' ∉ front) (back : List Char) :
    collapse (front ++ back) = front ++ collapse back := by
  induction front with
  | nil => rfl
  | cons c front ih =>
      obtain ⟨hc, hfront⟩ := not_or.mp (List.mem_cons.not.mp hfront)
      rw [List.cons_append, collapse_cons (Ne.symm hc), ih hfront]
      rfl

theorem collapse_of_notMem {s : List Char} (hs : '%' ∉ s) : collapse s = s := by
  have happend := collapse_append hs []
  simpa [collapse] using happend

/-- What does not start a pair starts a reference, or is an error. -/
theorem tokens_reference {s : List Char} (hs : ∀ r, s ≠ '%' :: r) (n : ℕ) :
    ∃ t ∈ tokens (n + 1) ('%' :: s), t.isPlain = false := by
  rw [tokens]
  · split
    · exact ⟨_, List.mem_cons_self, rfl⟩
    · exact ⟨_, List.mem_cons_self, rfl⟩
  · exact hs

/-- Percent signs come in pairs. -/
inductive Paired : List Char → Prop
  | nil : Paired []
  | text {c : Char} {s : List Char} : c ≠ '%' → Paired s → Paired (c :: s)
  | pair {s : List Char} : Paired s → Paired ('%' :: '%' :: s)

theorem paired_of_plain {n : ℕ} {s : List Char} (hn : s.length ≤ n)
    (hplain : ∀ t ∈ tokens n s, t.isPlain = true) : Paired s := by
  induction n generalizing s with
  | zero =>
      obtain rfl : s = [] := List.length_eq_zero_iff.mp (by omega)
      exact .nil
  | succ n ih =>
      cases s with
      | nil => exact .nil
      | cons c s =>
          rw [List.length_cons] at hn
          by_cases hc : c = '%'
          · subst hc
            by_cases hpair : ∃ r, s = '%' :: r
            · obtain ⟨r, rfl⟩ := hpair
              rw [List.length_cons] at hn
              rw [tokens_pair] at hplain
              exact .pair (ih (by omega) fun t ht => hplain t (List.mem_cons_of_mem _ ht))
            · obtain ⟨t, ht, hnot⟩ := tokens_reference (fun r hr => hpair ⟨r, hr⟩) n
              rw [hplain t ht] at hnot
              cases hnot
          · rw [tokens_text hc] at hplain
            exact .text hc (ih (by omega) fun t ht => hplain t (List.mem_cons_of_mem _ ht))

theorem mapM_expandToken_of_paired {s : List Char} (hs : Paired s)
    (lookup : String → Option String) (next : String → Except ConfigError (List Char)) {n : ℕ}
    (hn : s.length ≤ n) : ∃ parts, (tokens n s).mapM (expandToken lookup next) = .ok parts ∧
      parts.flatten = collapse s := by
  induction hs generalizing n with
  | nil => exact ⟨[], by cases n <;> rfl, rfl⟩
  | @text c s hc _ ih =>
      rw [List.length_cons] at hn
      obtain ⟨n, rfl⟩ : ∃ m, n = m + 1 := ⟨n - 1, by omega⟩
      obtain ⟨parts, hparts, hflat⟩ := ih (show s.length ≤ n by omega)
      refine ⟨[c] :: parts, ?_, by rw [collapse_cons hc, List.flatten_cons, hflat]; rfl⟩
      rw [tokens_text hc, List.mapM_cons, hparts]
      rfl
  | @pair s _ ih =>
      rw [List.length_cons, List.length_cons] at hn
      obtain ⟨n, rfl⟩ : ∃ m, n = m + 1 := ⟨n - 1, by omega⟩
      obtain ⟨parts, hparts, hflat⟩ := ih (show s.length ≤ n by omega)
      refine ⟨['%'] :: parts, ?_, by rw [collapse, List.flatten_cons, hflat]; rfl⟩
      rw [tokens_pair, List.mapM_cons, hparts]
      rfl

theorem expand_of_paired {value : String} (hvalue : Paired value.toList)
    (lookup : String → Option String) (depth : ℕ) :
    expand lookup (depth + 1) value = .ok (collapse value.toList) := by
  obtain ⟨parts, hparts, hflat⟩ :=
    mapM_expandToken_of_paired hvalue lookup (expand lookup depth) le_rfl
  rw [expand, tokensOf, hparts, ← hflat]
  rfl

theorem paired_of_notMem {s : List Char} (hs : '%' ∉ s) : Paired s := by
  induction s with
  | nil => exact .nil
  | cons c s ih =>
      obtain ⟨hc, hs⟩ := not_or.mp (List.mem_cons.not.mp hs)
      exact .text (Ne.symm hc) (ih hs)

theorem Paired.append {s t : List Char} (hs : Paired s) (ht : Paired t) : Paired (s ++ t) := by
  induction hs with
  | nil => exact ht
  | text hc _ ih => exact .text hc ih
  | pair _ ih => exact .pair ih

theorem Paired.collapse_append {s : List Char} (hs : Paired s) (t : List Char) :
    collapse (s ++ t) = collapse s ++ collapse t := by
  induction hs with
  | nil => rfl
  | @text c s hc _ ih =>
      rw [List.cons_append, collapse_cons hc, collapse_cons hc, ih]
      rfl
  | pair _ ih =>
      rw [List.cons_append, List.cons_append, collapse, ih, collapse]
      rfl

theorem mem_of_mem_collapse {c : Char} {s : List Char} (h : c ∈ collapse s) : c ∈ s := by
  induction s using collapse.induct with
  | case1 s ih =>
      rw [collapse] at h
      rcases List.mem_cons.mp h with rfl | h
      · exact List.mem_cons_self
      · exact List.mem_cons_of_mem _ (List.mem_cons_of_mem _ (ih h))
  | case2 d s hne ih =>
      rw [collapse_cons_of_not_pair fun hd r hr => hne r hd hr] at h
      rcases List.mem_cons.mp h with rfl | h
      · exact List.mem_cons_self
      · exact List.mem_cons_of_mem _ (ih h)
  | case3 => exact h

/-- Half of the percent signs are left. -/
theorem count_collapse {s : List Char} (hs : Paired s) :
    2 * (collapse s).count '%' = s.count '%' := by
  induction hs with
  | nil => rfl
  | @text c s hc _ ih =>
      rw [collapse_cons hc, List.count_cons_of_ne hc, List.count_cons_of_ne hc, ih]
  | pair _ ih =>
      rw [collapse, List.count_cons_self, List.count_cons_self, List.count_cons_self]
      omega

/-- Where no other option has a value, a value with a reference is never read. -/
theorem paired_of_expand {lookup : String → Option String} {value : String}
    (hlookup : ∀ name v, lookup name = some v → v = value) {depth : ℕ} {read : List Char}
    (h : expand lookup depth value = .ok read) : Paired value.toList := by
  by_contra hodd
  obtain ⟨t, ht, hplain⟩ : ∃ t ∈ tokensOf value, t.isPlain = false := by
    by_contra hall
    refine hodd (paired_of_plain le_rfl fun t ht => ?_)
    exact eq_true_of_ne_false fun hplain => hall ⟨t, ht, hplain⟩
  -- Looking the reference up leads to the same value again, until the depth is used up.
  induction depth generalizing read with
  | zero => cases h
  | succ depth ih =>
      rw [expand] at h
      obtain ⟨parts, hparts, -⟩ := bind_eq_ok_iff.mp h
      obtain ⟨part, hpart⟩ := exists_of_mapM_eq_ok hparts ht
      cases t with
      | text c => cases hplain
      | percent => cases hplain
      | bad => cases hpart
      | var name =>
          rw [expandToken] at hpart
          split at hpart
          · cases hpart
          · rename_i v hv
            obtain rfl := hlookup _ v hv
            split at hpart
            · exact ih hpart
            · rename_i hnone
              exact hodd (paired_of_notMem hnone)

/-- Interpolation has errors of its own: none of them says that the option is missing. -/
theorem expand_ne_noOption (lookup : String → Option String) (depth : ℕ) (value : String) :
    expand lookup depth value ≠ .error .noOption := by
  induction depth generalizing value with
  | zero => exact fun h => by cases h
  | succ depth ih =>
      intro h
      have hparts : (tokensOf value).mapM (expandToken lookup (expand lookup depth)) =
          .error .noOption := by
        rw [expand] at h
        cases hmap : (tokensOf value).mapM (expandToken lookup (expand lookup depth)) with
        | error e =>
            rw [hmap] at h
            obtain rfl : e = .noOption := Except.error.inj h
            rfl
        | ok parts =>
            rw [hmap] at h
            cases h
      obtain ⟨t, -, ht⟩ := exists_of_mapM_eq_error hparts
      cases t with
      | text c => cases ht
      | percent => cases ht
      | bad => cases ht
      | var name =>
          rw [expandToken] at ht
          split at ht
          · cases ht
          · split at ht
            · exact ih _ ht
            · cases ht

/-! ### Reading what was set -/

theorem lookup_set (sec : Section) (option value : String) :
    Section.lookup { sec with options := sec.options.set option value } option = some value := by
  rw [Section.lookup, OrderedDict.lookup_set, if_pos rfl]
  rfl

theorem Section.get_of_paired {sec : Section} {option value : String}
    (h : sec.lookup option = some value) (hvalue : Paired value.toList) :
    sec.get option = .ok (String.ofList (collapse value.toList)) := by
  rw [Section.get, h]
  simp only [maxInterpolationDepth, expand_of_paired hvalue]
  rfl

theorem Section.get_of_notMem {sec : Section} {option value : String}
    (h : sec.lookup option = some value) (hvalue : '%' ∉ value.toList) :
    sec.get option = .ok value := by
  rw [Section.get_of_paired h (paired_of_notMem hvalue), collapse_of_notMem hvalue,
    String.ofList_toList]

/-- A value without percent signs is accepted, and read as it is. -/
theorem get_set_of_notMem (sec : Section) (option : String) {value : String}
    (hvalue : '%' ∉ value.toList) : ∃ sec', sec.set option value = .ok sec' ∧
      sec'.get option = .ok value := by
  refine ⟨{ sec with options := sec.options.set option value }, ?_, ?_⟩
  · rw [Section.set, beforeSet_of_notMem hvalue]
    rfl
  · exact Section.get_of_notMem (lookup_set sec option value) hvalue

/-- In a section without other options, what can be set and read has its percent signs in
pairs, and is read with half of them. -/
theorem paired_of_get_set {optionxform : String → String} {option value read : String}
    {sec : Section} (hset : Section.set ⟨∅, ∅, optionxform⟩ option value = .ok sec)
    (hget : sec.get option = .ok read) :
    Paired value.toList ∧ read.toList = collapse value.toList := by
  rw [Section.set] at hset
  split at hset
  · obtain rfl := Except.ok.inj hset
    rw [Section.get, lookup_set] at hget
    have hlookup : ∀ name v,
        Section.lookup ⟨OrderedDict.set ∅ option value, ∅, optionxform⟩
          (optionxform name) = some v →
          v = value := by
      intro name v hv
      rw [Section.lookup, OrderedDict.lookup_set] at hv
      split at hv
      · simpa using hv.symm
      · cases hv
    simp only at hget
    generalize hread : expand _ maxInterpolationDepth value = result at hget
    cases result with
    | error e => cases hget
    | ok chars =>
        obtain rfl := Except.ok.inj hget
        have hpaired := paired_of_expand hlookup hread
        rw [maxInterpolationDepth, expand_of_paired hpaired] at hread
        refine ⟨hpaired, ?_⟩
        rw [String.toList_ofList, Except.ok.inj hread]
  · cases hset

end SecCask.ConfigParser
