import SecCask.Lib.ConfigFile
import SecCask.Lib.PyString

/-!
# SecCask.Pipeman.Configuration

`Configuration` of `pipeman/config.py`: a config file with a table of defaults behind it. A key
that the file leaves out is looked up in the table, and the value from there takes a way of its
own. `get` takes it without interpolation, and `getboolean` takes any text for true that is not
empty.
-/

namespace SecCask.Pipeman

open SecCask.ConfigParser (ConfigFile ParserError)

/-- A table of defaults: the keys of each section. -/
abbrev Defaults := OrderedDict String (OrderedDict String String)

/-- What the constructor asks the system for. -/
structure Configuration.Host where
  home : String
  user : String
  cwd : String
  isSgxEnabled : Bool

inductive ConfigurationError
  | keyError (text : String)
  | valueError
  | parser (e : ParserError)
  deriving DecidableEq, Repr

structure Configuration where
  filename : String
  defaults : Defaults
  parser : ConfigFile
  host : Configuration.Host

namespace Configuration

def sgxValue (host : Host) : String := if host.isSgxEnabled then "true" else "false"

/-- `Configuration(filename, defaults)`, where the file has been parsed. -/
def new (host : Host) (filename : String) (defaults : Defaults) (file : ConfigFile) :
    Except ConfigurationError Configuration :=
  match file.set "env" "is_sgx_enabled" (sgxValue host) with
  | .ok parser => .ok ⟨filename, defaults, parser, host⟩
  | .error e => .error (.parser e)

/-- `_check_key_existence`, and the default of the key. -/
def defaultOf (c : Configuration) (sec key : String) : Except ConfigurationError String :=
  match (c.defaults.lookup sec).bind (·.lookup key) with
  | some value => .ok value
  | none => .error (.keyError (sec ++ "." ++ key ++ " not found in config file " ++ c.filename))

/-- The replacements of `_escape_dict`, one after the other. -/
def unescape (host : Host) (value : String) : String :=
  let value := PyString.replace "$HOME" host.home value
  let value := PyString.replace "$USER" host.user value
  PyString.replace "$SCWD" host.cwd value

def get (c : Configuration) (sec key : String) : Except ConfigurationError String := do
  let fallback ← c.defaultOf sec key
  let raw ← c.parser.getConv sec key fallback .parser .ok
  return unescape c.host raw

/-- `int(value)` -/
def int (value : String) : Except ConfigurationError ℤ :=
  match PyString.int value with
  | some n => .ok n
  | none => .error .valueError

/-- The texts that `BOOLEAN_STATES` takes for true. -/
def trueTexts : List String := ["1", "yes", "true", "on"]

def falseTexts : List String := ["0", "no", "false", "off"]

/-- `_convert_to_boolean` -/
def convertToBoolean (value : String) : Except ConfigurationError Bool :=
  if value.toLower ∈ trueTexts then .ok true
  else if value.toLower ∈ falseTexts then .ok false
  else .error .valueError

/-- The fallback is `bool(default)`: whether the default is not empty. -/
def getboolean (c : Configuration) (sec key : String) : Except ConfigurationError Bool := do
  let fallback ← c.defaultOf sec key
  c.parser.getConv sec key (decide (fallback ≠ "")) .parser convertToBoolean

/-- The fallback is converted in any case. -/
def getint (c : Configuration) (sec key : String) : Except ConfigurationError ℤ := do
  let fallback ← c.defaultOf sec key
  let fallback ← int fallback
  c.parser.getConv sec key fallback .parser int

/-! ### The constructor -/

variable {host : Host} {filename : String} {defaults : Defaults} {file : ConfigFile}
  {sec key default : String}

/-- The key that the constructor writes. -/
def IsSgxKey (file : ConfigFile) (sec key : String) : Prop :=
  sec = "env" ∧ file.optionxform key = file.optionxform "is_sgx_enabled"

instance : Decidable (IsSgxKey file sec key) := inferInstanceAs (Decidable (_ ∧ _))

theorem isSgxKey_define {sec' option value : String} :
    IsSgxKey (file.define sec' option value) sec key ↔ IsSgxKey file sec key := by
  rw [IsSgxKey, ConfigFile.optionxform_define, IsSgxKey]

theorem beforeSet_sgxValue (host : Host) : ConfigParser.beforeSet (sgxValue host) = true := by
  unfold sgxValue
  split <;> decide

/-- The constructor sets an option of a section that has to be there. -/
theorem new_of_none (h : file.sections.lookup "env" = none) :
    new host filename defaults file = .error (.parser .noSection) := by
  rw [new, ConfigFile.set_of_lookup_none (by decide) (by decide) h (beforeSet_sgxValue host)]

theorem exists_new (h : (file.sections.lookup "env").isSome = true) :
    ∃ parser, new host filename defaults file = .ok ⟨filename, defaults, parser, host⟩ ∧
      ∀ sec key, parser.raw sec key =
        if IsSgxKey file sec key then some (sgxValue host) else file.raw sec key := by
  obtain ⟨options, hoptions⟩ := Option.isSome_iff_exists.mp h
  refine ⟨file.setIn "env" "is_sgx_enabled" (sgxValue host) options, ?_, ?_⟩
  · rw [new, ConfigFile.set_of_lookup (by decide) hoptions (by decide) (beforeSet_sgxValue host)]
  · exact ConfigFile.raw_setIn (by decide) hoptions

/-! ### The accessors -/

section Accessors

variable {parser : ConfigFile}
  (hdefault : (defaults.lookup sec).bind (·.lookup key) = some default)
include hdefault

theorem get_eq : get ⟨filename, defaults, parser, host⟩ sec key =
    (parser.getConv sec key default ConfigurationError.parser .ok).map (unescape host) := by
  unfold get defaultOf
  rw [hdefault]
  show (parser.getConv sec key default ConfigurationError.parser .ok >>= _) = _
  cases parser.getConv sec key default ConfigurationError.parser .ok <;> rfl

theorem getboolean_eq : getboolean ⟨filename, defaults, parser, host⟩ sec key =
    parser.getConv sec key (decide (default ≠ "")) .parser convertToBoolean := by
  unfold getboolean defaultOf
  rw [hdefault]
  rfl

theorem getint_eq : getint ⟨filename, defaults, parser, host⟩ sec key =
    int default >>= fun n => parser.getConv sec key n .parser int := by
  unfold getint defaultOf
  rw [hdefault]
  rfl

end Accessors

/-- A text for true has neither a percent sign nor a dollar sign. -/
theorem notMem_of_trueTexts {value : String} (h : value.toLower ∈ trueTexts) :
    '%' ∉ value.toList ∧ '$' ∉ value.toList := by
  have hlower : ∀ c : Char, c.toLower = c → c ∉ value.toLower.toList → c ∉ value.toList := by
    intro c hc hnot hmem
    refine hnot ?_
    show c ∈ (value.map Char.toLower).toList
    rw [String.toList_map]
    exact List.mem_map.mpr ⟨c, hmem, hc⟩
  have hnot : ∀ text ∈ trueTexts, '%' ∉ text.toList ∧ '$' ∉ text.toList := by decide
  obtain ⟨hpercent, hdollar⟩ := hnot _ h
  exact ⟨hlower '%' (by decide) hpercent, hlower '$' (by decide) hdollar⟩

theorem unescape_of_notMem {value : String} (h : '$' ∉ value.toList) :
    unescape host value = value := by
  have hhome : PyString.replace "$HOME" host.home value = value :=
    PyString.replace_of_notMem rfl h
  have huser : PyString.replace "$USER" host.user value = value :=
    PyString.replace_of_notMem rfl h
  simp only [unescape, hhome, huser]
  exact PyString.replace_of_notMem rfl h

theorem percent_mem_unescape {value : String} (h : '%' ∈ value.toList) :
    '%' ∈ (unescape host value).toList := by
  refine PyString.mem_replace rfl (by decide) ?_
  refine PyString.mem_replace rfl (by decide) ?_
  exact PyString.mem_replace rfl (by decide) h

theorem notMem_percent_of_int {value : String} {n : ℤ} (h : int value = .ok n) :
    '%' ∉ value.toList := by
  unfold int at h
  split at h
  · rename_i hread
    intro hmem
    have hliteral := PyString.inLiteral_of_int hread _ hmem
    revert hliteral
    unfold PyString.InLiteral
    decide
  · cases h

/-! ### Leaving a key out -/

/-- The three accessors answer the same, errors included. A `Configuration` that cannot be
constructed answers with the error. -/
structure SameAnswers (x y : Except ConfigurationError Configuration) (sec key : String) :
    Prop where
  get : (x >>= fun c => c.get sec key) = (y >>= fun c => c.get sec key)
  getint : (x >>= fun c => c.getint sec key) = (y >>= fun c => c.getint sec key)
  getboolean : (x >>= fun c => c.getboolean sec key) = (y >>= fun c => c.getboolean sec key)

/-- Leaving a key out of the file is the same as writing its default into it. -/
def OmissionIsDefault (host : Host) (filename : String) (defaults : Defaults) (file : ConfigFile)
    (sec key default : String) : Prop :=
  SameAnswers (new host filename defaults file)
    (new host filename defaults (file.define sec key default)) sec key

section Answers

variable {omitted written : ConfigFile}
  (hdefault : (defaults.lookup sec).bind (·.lookup key) = some default)
  (homitted : omitted.raw sec key = none) (hwritten : written.raw sec key = some default)
include hdefault homitted hwritten

/-- What is an integer is read as it is, and anything else is an error without the file. -/
theorem getint_omitted : getint ⟨filename, defaults, omitted, host⟩ sec key =
    getint ⟨filename, defaults, written, host⟩ sec key := by
  rw [getint_eq hdefault, getint_eq hdefault]
  cases hread : int default with
  | error e => rfl
  | ok n =>
      show omitted.getConv sec key n _ int = written.getConv sec key n _ int
      rw [ConfigFile.getConv_of_raw_none _ _ _ homitted,
        ConfigFile.getConv_of_raw _ _ _ hwritten (notMem_percent_of_int hread), hread]

/-- With the two other accessors it is so for a default that stands for true, only. -/
theorem answers_iff : (get ⟨filename, defaults, omitted, host⟩ sec key =
      get ⟨filename, defaults, written, host⟩ sec key ∧
    getboolean ⟨filename, defaults, omitted, host⟩ sec key =
      getboolean ⟨filename, defaults, written, host⟩ sec key) ↔
    default.toLower ∈ trueTexts := by
  rw [get_eq hdefault, get_eq hdefault, getboolean_eq hdefault, getboolean_eq hdefault,
    ConfigFile.getConv_of_raw_none _ _ _ homitted, ConfigFile.getConv_of_raw_none _ _ _ homitted]
  refine ⟨?_, ?_⟩
  · intro h
    obtain ⟨hget, hboolean⟩ := h
    obtain ⟨text, hread, hconv⟩ := ConfigFile.exists_of_getConv _ _ _ hwritten hboolean.symm
    by_cases hpercent : '%' ∈ default.toList
    · -- A text for true would have been made of a value with a percent sign, which `get` shows.
      exfalso
      have hne : default ≠ "" := by
        intro hsame
        subst hsame
        cases hpercent
      rw [decide_eq_true hne] at hconv
      have htrue : text.toLower ∈ trueTexts := by
        by_contra hnot
        rw [convertToBoolean, if_neg hnot] at hconv
        split at hconv <;> cases hconv
      obtain ⟨htextPercent, htextDollar⟩ := notMem_of_trueTexts htrue
      have hshown : unescape host default = text := by
        rw [ConfigFile.getConv, hread] at hget
        have heq : unescape host default = unescape host text := Except.ok.inj hget
        rw [heq, unescape_of_notMem htextDollar]
      exact htextPercent (hshown ▸ percent_mem_unescape hpercent)
    · obtain rfl : text = default :=
        Except.ok.inj (hread.symm.trans (ConfigFile.get_of_raw hwritten hpercent))
      by_contra hnot
      rw [convertToBoolean, if_neg hnot] at hconv
      split at hconv
      · rename_i hfalse
        have hempty : text = "" := by simpa using (Except.ok.inj hconv).symm
        rw [hempty] at hfalse
        revert hfalse
        decide +kernel
      · cases hconv
  · intro htrue
    obtain ⟨hpercent, -⟩ := notMem_of_trueTexts htrue
    have hne : default ≠ "" := by
      intro hsame
      subst hsame
      revert htrue
      decide +kernel
    rw [ConfigFile.getConv_of_raw _ _ _ hwritten hpercent,
      ConfigFile.getConv_of_raw _ _ _ hwritten hpercent, convertToBoolean, if_pos htrue,
      decide_eq_true hne]
    exact ⟨rfl, rfl⟩

end Answers

/-- What is in the file for the key that the constructor writes is not looked at. -/
theorem sameAnswers_of_raw {c d : ConfigFile}
    (hdefault : (defaults.lookup sec).bind (·.lookup key) = some default) {value : String}
    (hvalue : '%' ∉ value.toList) (hc : c.raw sec key = some value)
    (hd : d.raw sec key = some value) :
    SameAnswers (.ok ⟨filename, defaults, c, host⟩) (.ok ⟨filename, defaults, d, host⟩)
      sec key where
  get := by
    show get _ sec key = get _ sec key
    rw [get_eq hdefault, get_eq hdefault, ConfigFile.getConv_of_raw _ _ _ hc hvalue,
      ConfigFile.getConv_of_raw _ _ _ hd hvalue]
  getint := by
    show getint _ sec key = getint _ sec key
    rw [getint_eq hdefault, getint_eq hdefault]
    refine congrArg (int default >>= ·) (funext fun n => ?_)
    rw [ConfigFile.getConv_of_raw _ _ _ hc hvalue, ConfigFile.getConv_of_raw _ _ _ hd hvalue]
  getboolean := by
    show getboolean _ sec key = getboolean _ sec key
    rw [getboolean_eq hdefault, getboolean_eq hdefault, ConfigFile.getConv_of_raw _ _ _ hc hvalue,
      ConfigFile.getConv_of_raw _ _ _ hd hvalue]

/-- A file without the section `env` cannot be used. The key makes the section, if it is its. -/
theorem omissionIsDefault_iff_of_none
    (hdefault : (defaults.lookup sec).bind (·.lookup key) = some default)
    (henv : file.sections.lookup "env" = none) :
    OmissionIsDefault host filename defaults file sec key default ↔ sec ≠ "env" := by
  have homitted : new host filename defaults file = .error (.parser .noSection) := new_of_none henv
  have hwritten := @ConfigFile.lookup_sections_define file sec key default "env"
  rw [henv] at hwritten
  unfold OmissionIsDefault
  refine ⟨?_, ?_⟩
  -- with the key written the constructor returns, and no accessor says `noSection`
  · intro h heq
    subst heq
    obtain ⟨parser, hparser, -⟩ := @exists_new host filename defaults
      (file.define "env" key default) (hwritten.mpr (.inr ⟨rfl, by decide⟩))
    have hget := h.get
    rw [homitted, hparser] at hget
    have herror : (parser.getConv "env" key default ConfigurationError.parser .ok).map
        (unescape host) = .error (.parser .noSection) := by
      rw [← get_eq hdefault]
      exact hget.symm
    cases hread : parser.getConv "env" key default ConfigurationError.parser .ok with
    | ok value =>
        rw [hread] at herror
        cases herror
    | error err =>
        rw [hread] at herror
        obtain rfl : err = .parser .noSection := Except.error.inj herror
        rcases ConfigFile.error_of_getConv _ _ _ hread with ⟨e, hne, he⟩ | ⟨value, hvalue⟩
        · exact hne (ConfigurationError.parser.inj he).symm
        · cases hvalue
  · intro hsec
    have hnone : (file.define sec key default).sections.lookup "env" = none := by
      rw [← Option.not_isSome_iff_eq_none, hwritten]
      rintro (h | h)
      · cases h
      · exact hsec h.1.symm
    rw [homitted, new_of_none hnone]
    exact ⟨rfl, rfl, rfl⟩

theorem omissionIsDefault_iff_of_isSome
    (hdefault : (defaults.lookup sec).bind (·.lookup key) = some default)
    (henv : (file.sections.lookup "env").isSome = true) (hundefined : file.raw sec key = none) :
    OmissionIsDefault host filename defaults file sec key default ↔
      IsSgxKey file sec key ∨ default.toLower ∈ trueTexts := by
  obtain ⟨omitted, homitted, hrawOmitted⟩ := @exists_new host filename defaults file henv
  obtain ⟨written, hwritten, hrawWritten⟩ := @exists_new host filename defaults
    (file.define sec key default) (ConfigFile.lookup_sections_define.mpr (.inl henv))
  specialize hrawOmitted sec key
  specialize hrawWritten sec key
  simp only [isSgxKey_define, ConfigFile.raw_define] at hrawWritten
  rw [hundefined] at hrawOmitted
  unfold OmissionIsDefault
  rw [homitted, hwritten]
  by_cases hsgx : IsSgxKey file sec key
  · rw [if_pos hsgx] at hrawOmitted hrawWritten
    have hplain : '%' ∉ (sgxValue host).toList := by
      unfold sgxValue
      split <;> decide
    exact iff_of_true (sameAnswers_of_raw hdefault hplain hrawOmitted hrawWritten) (.inl hsgx)
  · rw [if_neg hsgx] at hrawOmitted hrawWritten
    have hiff := @answers_iff host filename defaults sec key default _ _ hdefault hrawOmitted
      hrawWritten
    refine ⟨?_, ?_⟩
    · intro h
      exact .inr (hiff.mp ⟨h.get, h.getboolean⟩)
    · intro h
      obtain ⟨hget, hboolean⟩ := hiff.mpr (h.resolve_left hsgx)
      exact ⟨hget, getint_omitted hdefault hrawOmitted hrawWritten, hboolean⟩

/-- **Omitting a key.** In a file with a section `env`, it equals writing the default for the
key that the constructor writes itself and for defaults that stand for true. In one without, it
does for the keys of other sections, as there is no `Configuration` either way. -/
theorem omissionIsDefault_iff
    (hdefault : (defaults.lookup sec).bind (·.lookup key) = some default)
    (hundefined : file.raw sec key = none) :
    OmissionIsDefault host filename defaults file sec key default ↔
      if (file.sections.lookup "env").isSome then
        IsSgxKey file sec key ∨ default.toLower ∈ trueTexts
      else sec ≠ "env" := by
  split
  · rename_i henv
    exact omissionIsDefault_iff_of_isSome hdefault henv hundefined
  · rename_i henv
    exact omissionIsDefault_iff_of_none hdefault (Option.not_isSome_iff_eq_none.mp henv)

/-! ### The shipped table -/

/-- A dictionary display. -/
def dict {ν : Type} (entries : List (String × ν)) : OrderedDict String ν :=
  entries.foldl (fun d e => d.set e.1 e.2) ∅

/-- `DEFUALTS_CONFIG_INI` -/
def defualtsConfigIni : Defaults := dict
  [("env", dict
      [("temp_path", "$HOME/gemini-pipeline/gemini-pipeline/temp"),
       ("is_sgx_enabled", "false")]),
   ("coordinator", dict
      [("host", "127.0.0.1"),
       ("worker_manager_port", "50200"),
       ("webapi_port", "5020")]),
   ("storage", dict [("storage_engine", "forkbase")]),
   ("storage_ledgebase", dict
      [("base_path", "/nfs/host/sgx/seccask/framework/lib/ustore_release")]),
   ("storage_filesystem", dict
      [("chunk_size", "65536"),
       ("generic_file_name", "VALUE"),
       ("prefix", "$HOME/fsstore")]),
   ("storage_rdbms", dict
      [("user", "$USER"),
       ("ssl_cert_path", "$HOME/cert.pem"),
       ("ssl_key_path", "$HOME/key.pem")]),
   ("scheduler", dict
      [("default_num_slot", "4"),
       ("enable_compatibility_check_on_caching", "true"),
       ("enable_compatibility_check_on_new_worker", "false"),
       ("__debug_disable_level3_check", "false"),
       ("__debug_worker_creation_dry_run", "false"),
       ("__debug_singleton_worker", "false")]),
   ("worker", dict
      [("gramine_path", "/usr/local/bin/gramine-direct"),
       ("gramine_manifest_path", "$HOME/gramine-manifest/python")]),
   ("worker_sgx", dict
      [("gramine_path", "/usr/local/bin/gramine-sgx"),
       ("gramine_manifest_path", "$HOME/gramine-manifest/python")]),
   ("log", dict
      [("log_config", "true"),
       ("log_cffi", "false"),
       ("log_filesystem_storage", "false"),
       ("log_encfs", "false"),
       ("log_io", "false"),
       ("log_time", "false")]),
   ("ratls", dict [("enable", "false"), ("mrenclave", ""), ("mrsigner", "")]),
   ("profiler", dict
      [("enable_memory_profiler", "false"),
       ("memory_profiler_mode", "status")])]

theorem trueTexts_shipped : ∀ options ∈ defualtsConfigIni.values, ∀ value ∈ options.values,
    (value.toLower ∈ trueTexts ↔ value = "true") := by
  decide +kernel

theorem mem_values_of_lookup {κ ν : Type} [DecidableEq κ] {d : OrderedDict κ ν} {k : κ} {v : ν}
    (h : d.lookup k = some v) : v ∈ d.values :=
  List.mem_map_of_mem (AList.mem_lookup_iff.mp h)

/-- Of the shipped defaults it is the keys that are on whose omission changes nothing. -/
theorem omissionIsDefault_shipped_iff
    (hdefault : (defualtsConfigIni.lookup sec).bind (·.lookup key) = some default)
    (henv : (file.sections.lookup "env").isSome = true) (hundefined : file.raw sec key = none) :
    OmissionIsDefault host filename defualtsConfigIni file sec key default ↔
      IsSgxKey file sec key ∨ default = "true" := by
  obtain ⟨options, hoptions, hvalue⟩ := Option.bind_eq_some_iff.mp hdefault
  rw [omissionIsDefault_iff_of_isSome hdefault henv hundefined, trueTexts_shipped _
    (mem_values_of_lookup hoptions) _ (mem_values_of_lookup hvalue)]

section Example

def exampleHost : Host := ⟨"/root", "root", "/root", false⟩

/-- A file with an empty section `env`. -/
def bareFile : ConfigFile := { ConfigFile.empty String.toLower with sections := dict [("env", ∅)] }

theorem omission_log_config :
    OmissionIsDefault exampleHost "config.ini" defualtsConfigIni bareFile "log" "log_config"
      "true" :=
  (omissionIsDefault_iff (by decide +kernel) (by decide +kernel)).mpr (by decide +kernel)

/-- Without the file's word, what is off by default is on. -/
theorem not_omission_enable :
    ¬ OmissionIsDefault exampleHost "config.ini" defualtsConfigIni bareFile "ratls" "enable"
      "false" := by
  intro h
  have homitted : (new exampleHost "config.ini" defualtsConfigIni bareFile >>= fun c =>
      c.getboolean "ratls" "enable") = .ok true := by decide +kernel
  have hwritten : (new exampleHost "config.ini" defualtsConfigIni
      (bareFile.define "ratls" "enable" "false") >>= fun c => c.getboolean "ratls" "enable") =
      .ok false := by decide +kernel
  have hboolean := h.getboolean
  rw [homitted, hwritten] at hboolean
  cases hboolean

end Example

end Configuration

end SecCask.Pipeman
