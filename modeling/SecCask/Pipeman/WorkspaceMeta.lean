import SecCask.Lib.OrderedDict
import SecCask.Pipeman.Meta

/-!
# SecCask.Pipeman.WorkspaceMeta

`WorkspaceMeta` of `pipeman/meta.py`, and the Python exceptions that the code around it
tells apart. A config file is kept as the values that its getters return: configs are read
back as they were written.
-/

namespace SecCask.Pipeman

inductive PyError
  | keyError
  | indexError
  | valueError
  | runtimeError
  | notImplementedError
  /-- `configparser.NoOptionError`, which is not a `KeyError` -/
  | noOptionError
  /-- The subclasses of `configparser.InterpolationError` -/
  | interpolationError
  | typeError
  /-- `first(…)` found nothing -/
  | notFound
  /-- An I/O error, a failed component, a refused connection, … -/
  | external
  deriving DecidableEq, Repr

/-- The values in `workspace.params`: a dictionary of parameters, or the hversion it was
stored under. -/
inductive Params
  | dict (entries : OrderedDict String String)
  | hversion (h : String)
  deriving DecidableEq

/-- The paths that `_prepare_env` reads. -/
structure WorkspacePaths where
  base : String
  venv : String
  temp : String
  output : String
  deriving DecidableEq

structure WorkspaceMeta where
  metaType : String
  name : String
  version : SemanticVersion
  pipeline : List MetaKey
  /-- `none`: the option is not set, and its getter raises. -/
  outputs : Option (OrderedDict String String)
  params : Option (OrderedDict String Params)
  paths : WorkspacePaths
  deriving DecidableEq

namespace WorkspaceMeta

def key (w : WorkspaceMeta) : MetaKey := ⟨w.metaType, w.name, w.version⟩

/-- `workspace.outputs[s]` -/
def outputOf (w : WorkspaceMeta) (s : String) : Except PyError String :=
  match w.outputs with
  | none => .error .noOptionError
  | some outputs =>
      match outputs.lookup s with
      | some h => .ok h
      | none => .error .keyError

/-- `workspace.params[s]` -/
def paramsOf (w : WorkspaceMeta) (s : String) : Except PyError Params :=
  match w.params with
  | none => .error .noOptionError
  | some params =>
      match params.lookup s with
      | some p => .ok p
      | none => .error .keyError

theorem outputOf_eq_ok_iff {w : WorkspaceMeta} {s h : String} :
    w.outputOf s = .ok h ↔ ∃ outputs, w.outputs = some outputs ∧ outputs.lookup s = some h := by
  unfold outputOf
  cases w.outputs with
  | none => simp
  | some outputs => cases hlookup : outputs.lookup s <;> simp [hlookup]

theorem exists_paramsOf {w : WorkspaceMeta} {params : OrderedDict String Params} {s : String}
    (hparams : w.params = some params) (hlookup : (params.lookup s).isSome = true) :
    ∃ p, w.paramsOf s = .ok p := by
  obtain ⟨p, hp⟩ := Option.isSome_iff_exists.mp hlookup
  refine ⟨p, ?_⟩
  simp [paramsOf, hparams, hp]

end WorkspaceMeta

end SecCask.Pipeman
