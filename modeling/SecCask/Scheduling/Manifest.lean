import SecCask.Lib.Json
import SecCask.Pipeman.Version

/-!
# SecCask.Scheduling.Manifest

`manifest.py`, and what a worker connection does with the manifests its worker reports
(`workerconn.py`). Objects that the code compares by identity carry it: a version object
is its value together with a reference, and the reference `0` is the one object in
`Manifest.DEFAULT_VALUES` that all manifests without a version share.
-/

namespace SecCask.Scheduling

open Pipeman

/-- A `SemanticVersion` object. All of them come from `from_version_str` or
`build_zero_version`, so the branch reads back. -/
structure VersionObject where
  ref : ℕ
  value : SemanticVersion
  branchOk : SemanticVersion.BranchOk value.branch
  deriving DecidableEq

namespace VersionObject

/-- The object that `SemanticVersion.from_version_str(s)` builds. -/
def ofVersionStr (ref : ℕ) (s : String) : Option VersionObject :=
  match h : SemanticVersion.fromVersionStr s with
  | some v => some ⟨ref, v, SemanticVersion.branchOk_of_fromVersionStr h⟩
  | none => none

/-- `a == b` on version objects: they are one object, since the class defines no `__eq__`. -/
def same (a b : VersionObject) : Bool := decide (a = b)

theorem ofVersionStr_versionStr (ref : ℕ) (v : VersionObject) :
    ofVersionStr ref v.value.versionStr = some ⟨ref, v.value, v.branchOk⟩ := by
  have hread := SemanticVersion.fromVersionStr_versionStr v.branchOk
  unfold ofVersionStr
  split
  · rename_i w hw
    obtain rfl : w = v.value := Option.some.inj (hw.symm.trans hread)
    rfl
  · rename_i hnone
    rw [hread] at hnone
    cases hnone

theorem ref_of_ofVersionStr {ref : ℕ} {s : String} {v : VersionObject}
    (h : ofVersionStr ref s = some v) : v.ref = ref := by
  unfold ofVersionStr at h
  split at h
  · obtain rfl := Option.some.inj h
    rfl
  · cases h

end VersionObject

inductive ComponentType
  | dataset
  | library
  deriving DecidableEq, Repr

/-- `ComponentType(value)`; `none` where it raises `ValueError`. -/
def ComponentType.ofValue (value : String) : Option ComponentType :=
  if value = "dataset" then some .dataset
  else if value = "library" then some .library
  else none

/-- `Dict[str, str]` from package name to version. -/
abbrev Packages := OrderedDict String String

/-- The dictionary a manifest is built from; a field is `none` where the key is absent. -/
structure ManifestObj where
  name : Option String := none
  type : Option String := none
  version : Option String := none
  packagesSemver : Option Bool := none
  packages : Option Packages := none
  deriving DecidableEq

structure Manifest where
  name : String
  type : ComponentType
  version : VersionObject
  packagesSemver : Bool
  packages : Packages
  deriving DecidableEq

namespace Manifest

/-- `Manifest.DEFAULT_VALUES` -/
def defaultValues : Manifest where
  name := "DUMMY"
  type := .dataset
  version := ⟨0, SemanticVersion.buildZeroVersion, by decide⟩
  packagesSemver := false
  packages := ∅

/-- The type of `Manifest(obj)`. -/
def typeOf (obj : ManifestObj) : Option ComponentType :=
  match obj.type with
  | some value => ComponentType.ofValue value
  | none => some defaultValues.type

/-- The version of `Manifest(obj)`; `ref` identifies the object that may be built. -/
def versionOf (ref : ℕ) (obj : ManifestObj) : Option VersionObject :=
  match obj.version with
  | some s => VersionObject.ofVersionStr ref s
  | none => some defaultValues.version

/-- `Manifest(obj)`; `none` where the type or the version does not parse. -/
def ofObj (ref : ℕ) (obj : ManifestObj) : Option Manifest := do
  let type ← typeOf obj
  let version ← versionOf ref obj
  return {
    name := obj.name.getD defaultValues.name
    type := type
    version := version
    packagesSemver := obj.packagesSemver.getD defaultValues.packagesSemver
    packages := obj.packages.getD defaultValues.packages }

/-- `Manifest.packages_hash`: the hash runs over the canonical JSON of the packages and
then over the name. -/
def packagesHash (sha256 : ByteArray → String) (m : Manifest) : String :=
  sha256 ((Json.dumps m.packages).toUTF8 ++ m.name.toUTF8)

theorem packages_ofObj {ref : ℕ} {obj : ManifestObj} {m : Manifest} (h : ofObj ref obj = some m) :
    m.packages = obj.packages.getD ∅ := by
  simp only [ofObj, Option.pure_def, Option.bind_eq_bind, Option.bind_eq_some_iff,
    Option.some.injEq] at h
  obtain ⟨type, -, version, -, rfl⟩ := h
  rfl

/-- Without collisions, manifests with one hash list the same packages. -/
theorem lookup_eq_of_packagesHash {sha256 : ByteArray → String}
    (hinj : Function.Injective sha256) {m n : Manifest}
    (h : m.packagesHash sha256 = n.packagesHash sha256) (package : String) :
    m.packages.lookup package = n.packages.lookup package := by
  have hbytes := hinj h
  simp only [String.toUTF8_eq_toByteArray, ← String.toByteArray_append] at hbytes
  exact Json.lookup_eq_of_dumps_append (String.toByteArray_inj.mp hbytes) package

end Manifest

/-- `BaseWorkerConnection.on_msg` on a `response_manifest`: whether the worker is new, and
its manifest afterwards. A known worker keeps the name and the version recorded on it,
unless its name is empty. `none` where the reported manifest does not parse. -/
def onResponseManifest (ref : ℕ) (manifest : Option Manifest) (obj : ManifestObj) :
    Option (Bool × Manifest) := do
  let reported ← Manifest.ofObj ref obj
  match manifest with
  | none => return (true, reported)
  | some last =>
      if last.name ≠ "" ∧ last.version.value.versionStr ≠ "" then
        let version ← VersionObject.ofVersionStr (ref + 1) last.version.value.versionStr
        return (false, { reported with name := last.name, version := version })
      else return (false, reported)

theorem onResponseManifest_isNew {ref : ℕ} {manifest : Option Manifest} {obj : ManifestObj}
    {isNew : Bool} {m : Manifest} (h : onResponseManifest ref manifest obj = some (isNew, m)) :
    isNew = manifest.isNone := by
  simp only [onResponseManifest, Option.bind_eq_bind, Option.bind_eq_some_iff] at h
  obtain ⟨reported, -, h⟩ := h
  cases manifest with
  | none =>
      obtain ⟨rfl, -⟩ : true = isNew ∧ reported = m := by simpa using h
      rfl
  | some last =>
      simp only [VersionObject.ofVersionStr_versionStr] at h
      split at h <;> simp_all

end SecCask.Scheduling
