import SecCask.Lib.Interpolation

/-!
# SecCask.Lib.ConfigFile

A `configparser.ConfigParser` with all its sections, over the single sections of
`Lib/Interpolation`. A section that is there sees the options of the defaults too; one that is
not there sees nothing.
-/

namespace SecCask.ConfigParser

inductive ParserError
  | noSection
  | duplicateSection
  | config (e : ConfigError)
  deriving DecidableEq, Repr

/-- `_defaults`, `_sections` and `optionxform`. -/
structure ConfigFile where
  defaults : OrderedDict String String
  sections : OrderedDict String (OrderedDict String String)
  optionxform : String → String

namespace ConfigFile

/-- `ConfigParser()` -/
def empty (optionxform : String → String) : ConfigFile := ⟨∅, ∅, optionxform⟩

/-- `default_section` -/
def defaultSection : String := "DEFAULT"

/-- `add_section` -/
def addSection (c : ConfigFile) (sec : String) : Except ParserError ConfigFile :=
  if sec = defaultSection then .error (.config .invalidValue)
  else if sec ∈ c.sections then .error .duplicateSection
  else .ok { c with sections := c.sections.set sec ∅ }

/-- `_unify_values`: the section with the defaults behind it. `_sections` never has one of the
default section's name. -/
def unify (c : ConfigFile) (sec : String) : Except ParserError Section :=
  if sec = defaultSection then .ok ⟨∅, c.defaults, c.optionxform⟩
  else
    match c.sections.lookup sec with
    | some options => .ok ⟨options, c.defaults, c.optionxform⟩
    | none => .error .noSection

/-- The option of a section, as it is stored. -/
def raw (c : ConfigFile) (sec option : String) : Option String :=
  match c.unify sec with
  | .ok s => s.lookup (c.optionxform option)
  | .error _ => none

/-- `get(section, option)` -/
def get (c : ConfigFile) (sec option : String) : Except ParserError String := do
  let s ← c.unify sec
  (s.get (c.optionxform option)).mapError .config

/-- `get(section, option, fallback=fallback)` with a conversion of what is in the file, for all
getters. The fallback is for a missing section or option only. -/
def getConv {ε α : Type} (c : ConfigFile) (sec option : String) (fallback : α)
    (raise : ParserError → ε) (conv : String → Except ε α) : Except ε α :=
  match c.get sec option with
  | .error .noSection => .ok fallback
  | .error (.config .noOption) => .ok fallback
  | .error e => .error (raise e)
  | .ok value => conv value

/-- `set(section, option, value)` -/
def set (c : ConfigFile) (sec option value : String) : Except ParserError ConfigFile :=
  if beforeSet value = false then .error (.config .invalidValue)
  else if sec = "" ∨ sec = defaultSection then
    .ok { c with defaults := c.defaults.set (c.optionxform option) value }
  else
    match c.sections.lookup sec with
    | none => .error .noSection
    | some options =>
        .ok { c with sections := c.sections.set sec (options.set (c.optionxform option) value) }

/-- The file with one more option in a section. -/
def define (c : ConfigFile) (sec option value : String) : ConfigFile :=
  if sec = defaultSection then
    { c with defaults := c.defaults.set (c.optionxform option) value }
  else
    let options := ((c.sections.lookup sec).getD ∅).set (c.optionxform option) value
    { c with sections := c.sections.set sec options }

/-! ### Getting -/

variable {c d : ConfigFile} {sec option value : String}

theorem unify_of_lookup {options : OrderedDict String String} (hdefault : sec ≠ defaultSection)
    (h : c.sections.lookup sec = some options) :
    c.unify sec = .ok ⟨options, c.defaults, c.optionxform⟩ := by
  rw [unify, if_neg hdefault, h]

theorem eq_noSection_of_unify {e : ParserError} (h : c.unify sec = .error e) :
    e = .noSection := by
  unfold unify at h
  split at h
  · cases h
  · split at h
    · cases h
    · exact (Except.error.inj h).symm

theorem raw_of_unify {s : Section} (h : c.unify sec = .ok s) :
    c.raw sec option = s.lookup (c.optionxform option) := by
  rw [raw, h]

/-- A value whose percent signs come in pairs is read with half of them. -/
theorem get_of_raw_of_paired (h : c.raw sec option = some value) (hvalue : Paired value.toList) :
    c.get sec option = .ok (String.ofList (collapse value.toList)) := by
  unfold raw at h
  split at h
  · rename_i s hunify
    rw [get, hunify]
    simp only [bind, Except.bind, Section.get_of_paired h hvalue]
    rfl
  · cases h

/-- A value without percent signs is read as it is. -/
theorem get_of_raw (h : c.raw sec option = some value) (hvalue : '%' ∉ value.toList) :
    c.get sec option = .ok value := by
  rw [get_of_raw_of_paired h (paired_of_notMem hvalue), collapse_of_notMem hvalue,
    String.ofList_toList]

/-- A section with an option is there. -/
theorem mem_sections_of_get (hsec : sec ≠ defaultSection) (h : c.get sec option = .ok value) :
    sec ∈ c.sections := by
  obtain ⟨s, hunify, -⟩ := bind_eq_ok_iff.mp h
  rw [unify, if_neg hsec] at hunify
  cases hlookup : c.sections.lookup sec with
  | none =>
      rw [hlookup] at hunify
      cases hunify
  | some options => exact AList.lookup_isSome.mp (by rw [hlookup]; rfl)

/-- An option that is there is not missing. -/
theorem get_ne_missing (h : c.raw sec option = some value) :
    c.get sec option ≠ .error .noSection ∧ c.get sec option ≠ .error (.config .noOption) := by
  unfold raw at h
  split at h
  · rename_i s hunify
    have hget : c.get sec option = ((expand (fun name => s.lookup (s.optionxform name))
        maxInterpolationDepth value).map String.ofList).mapError .config := by
      rw [get, hunify]
      simp only [bind, Except.bind, Section.get, h]
    rw [hget]
    generalize hread : expand _ maxInterpolationDepth value = result
    cases result with
    | ok chars =>
        refine ⟨?_, ?_⟩
        · intro heq
          cases heq
        · intro heq
          cases heq
    | error e =>
        refine ⟨?_, ?_⟩
        · intro heq
          cases heq
        intro heq
        obtain rfl : e = .noOption := ParserError.config.inj (Except.error.inj heq)
        exact expand_ne_noOption _ _ _ hread
  · cases h

section Converted

variable {ε α : Type} (fallback : α) (raise : ParserError → ε) (conv : String → Except ε α)

/-- A missing option is one of the two errors that a fallback is for. -/
theorem getConv_of_raw_none (h : c.raw sec option = none) :
    c.getConv sec option fallback raise conv = .ok fallback := by
  unfold getConv get
  cases hunify : c.unify sec with
  | error e =>
      rw [eq_noSection_of_unify hunify]
      rfl
  | ok s =>
      rw [raw_of_unify hunify] at h
      simp only [bind, Except.bind, Section.get, h, Except.mapError]

theorem getConv_of_raw (h : c.raw sec option = some value) (hvalue : '%' ∉ value.toList) :
    c.getConv sec option fallback raise conv = conv value := by
  rw [getConv, get_of_raw h hvalue]

/-- A fallback leaves no error of its kind. -/
theorem error_of_getConv {err : ε} (h : c.getConv sec option fallback raise conv = .error err) :
    (∃ e, e ≠ .noSection ∧ err = raise e) ∨ ∃ value, conv value = .error err := by
  unfold getConv at h
  split at h
  · cases h
  · cases h
  · rename_i e hnoSection _ hget
    refine .inl ⟨e, ?_, (Except.error.inj h).symm⟩
    intro heq
    subst heq
    exact hnoSection rfl
  · exact .inr ⟨_, h⟩

/-- What is read of an option that is there goes through the conversion. -/
theorem exists_of_getConv {a : α} (hraw : c.raw sec option = some value)
    (h : c.getConv sec option fallback raise conv = .ok a) :
    ∃ read, c.get sec option = .ok read ∧ conv read = .ok a := by
  obtain ⟨hnoSection, hnoOption⟩ := get_ne_missing hraw
  unfold getConv at h
  split at h
  · contradiction
  · contradiction
  · cases h
  · rename_i read hget
    exact ⟨read, hget, h⟩

end Converted

/-! ### Writing -/

theorem raw_define (c : ConfigFile) (sec option value : String) :
    (c.define sec option value).raw sec option = some value := by
  unfold define
  by_cases hdefault : sec = defaultSection
  · rw [if_pos hdefault, raw_of_unify (by rw [unify, if_pos hdefault])]
    simp [Section.lookup, OrderedDict.lookup_set]
  · rw [if_neg hdefault, raw_of_unify
      (unify_of_lookup hdefault (by rw [OrderedDict.lookup_set, if_pos rfl]))]
    simp [Section.lookup, OrderedDict.lookup_set]

/-- The file with one more option in a section that is there. -/
def setIn (c : ConfigFile) (sec option value : String) (options : OrderedDict String String) :
    ConfigFile :=
  { c with sections := c.sections.set sec (options.set (c.optionxform option) value) }

section SetIn

variable {options : OrderedDict String String} (hsec : sec ≠ defaultSection)
  (h : c.sections.lookup sec = some options)
include hsec h

/-- A section that is there takes an option whose value is accepted. -/
theorem set_of_lookup (hempty : sec ≠ "") (hvalue : beforeSet value = true) :
    c.set sec option value = .ok (c.setIn sec option value options) := by
  rw [set, if_neg (by simp [hvalue]), if_neg (by simp [hsec, hempty]), h]
  rfl

theorem raw_setIn (sec' option' : String) :
    (c.setIn sec option value options).raw sec' option' =
      if sec' = sec ∧ c.optionxform option' = c.optionxform option then some value
      else c.raw sec' option' := by
  by_cases hsame : sec' = sec
  · subst hsame
    rw [raw_of_unify (unify_of_lookup hsec h), raw_of_unify (unify_of_lookup hsec
      (by rw [setIn, OrderedDict.lookup_set, if_pos rfl]))]
    simp only [Section.lookup, OrderedDict.lookup_set, setIn, true_and]
    split <;> rfl
  · have hunify : (c.setIn sec option value options).unify sec' = c.unify sec' := by
      simp only [unify, setIn, OrderedDict.lookup_set, if_neg hsame]
    rw [if_neg (fun hboth => hsame hboth.1), raw, raw, hunify]
    rfl

end SetIn

/-- An option that has been set. -/
theorem raw_of_set {d : ConfigFile} (hsec : sec ≠ defaultSection) (hempty : sec ≠ "")
    (h : c.set sec option value = .ok d) (sec' option' : String) :
    d.raw sec' option' = if sec' = sec ∧ c.optionxform option' = c.optionxform option then
      some value else c.raw sec' option' := by
  unfold set at h
  split at h
  · cases h
  · rw [if_neg (by simp [hsec, hempty])] at h
    split at h
    · cases h
    · rename_i options hlookup
      obtain rfl := Except.ok.inj h
      exact raw_setIn hsec hlookup sec' option'

theorem optionxform_of_set {d : ConfigFile} (h : c.set sec option value = .ok d) :
    d.optionxform = c.optionxform := by
  unfold set at h
  split at h
  · cases h
  · split at h
    · obtain rfl := Except.ok.inj h
      rfl
    · split at h
      · cases h
      · obtain rfl := Except.ok.inj h
        rfl

theorem set_of_lookup_none (hempty : sec ≠ "") (hsec : sec ≠ defaultSection)
    (h : c.sections.lookup sec = none) (hvalue : beforeSet value = true) :
    c.set sec option value = .error .noSection := by
  rw [set, if_neg (by simp [hvalue]), if_neg (by simp [hsec, hempty]), h]

theorem optionxform_define (c : ConfigFile) (sec option value : String) :
    (c.define sec option value).optionxform = c.optionxform := by
  unfold define
  split <;> rfl

/-- The sections of the file with one more option. -/
theorem lookup_sections_define {sec' : String} :
    ((c.define sec option value).sections.lookup sec').isSome = true ↔
      (c.sections.lookup sec').isSome = true ∨ sec' = sec ∧ sec ≠ defaultSection := by
  unfold define
  by_cases hdefault : sec = defaultSection
  · simp [hdefault]
  · rw [if_neg hdefault]
    simp only [OrderedDict.lookup_set]
    by_cases hsame : sec' = sec
    · simp [hsame, hdefault]
    · simp [hsame]

end ConfigFile

end SecCask.ConfigParser
