import SecCask.Scheduling.Scheduler
import SecCask.Lib.Run

/-!
# SecCask.Scheduling.Compatibility

What the three levels of `Scheduler.is_compatible` decide together, and what is left of a
recorded component after the worker has reported its manifest again.

The second level adds nothing to the third: one hash means the same packages. The first
level compares version *objects*, and the object recorded on a worker is always built for
it, so that it is the component's own only when both are the shared default.
-/

namespace SecCask.Scheduling

open Pipeman

/-- The component is the library version recorded on the worker. -/
def SameLibrary (m cm : Manifest) : Prop :=
  m.name = cm.name ∧ m.version.value = cm.version.value

/-- Every package is there with the same version. -/
def PackagesWithin (packages active : Packages) : Prop :=
  ∀ package version, packages.lookup package = some version →
    active.lookup package = some version

/-- What the check is for: the same library version, or all packages available. -/
def Compatible (m cm : Manifest) : Prop :=
  SameLibrary m cm ∨ PackagesWithin cm.packages m.packages

theorem all_lookup_iff (packages active : Packages) :
    (packages.entries.all fun e => active.lookup e.1 == some e.2) = true ↔
      PackagesWithin packages active := by
  simp only [List.all_eq_true, beq_iff_eq]
  constructor
  · intro hall package version hlookup
    exact hall ⟨package, version⟩ (AList.mem_lookup_iff.mp hlookup)
  · intro hwithin e he
    exact hwithin e.1 e.2 (AList.mem_lookup_iff.mpr he)

section

variable {sha256 : ByteArray → String} {config : Config}

/-- The three levels as one condition. -/
theorem isCompatible_iff (hsha : Function.Injective sha256)
    (hlevel3 : config.debugDisableLevel3Check = false) (m : Manifest) (component : Component) :
    isCompatible sha256 config (some m) component = true ↔
      (m.name = component.manifest.name ∧ m.version = component.manifest.version) ∨
      PackagesWithin component.manifest.packages m.packages := by
  have hhash : m.packagesHash sha256 = component.manifest.packagesHash sha256 →
      PackagesWithin component.manifest.packages m.packages := by
    intro hhash package version hlookup
    rw [Manifest.lookup_eq_of_packagesHash hsha hhash, hlookup]
  simp only [isCompatible, hlevel3, VersionObject.same, Bool.or_eq_true, Bool.and_eq_true,
    beq_iff_eq, decide_eq_true_eq, Bool.not_false, Bool.true_and, all_lookup_iff]
  constructor
  · rintro ((hsame | hhash') | hwithin)
    · exact Or.inl hsame
    · exact Or.inr (hhash hhash')
    · exact Or.inr hwithin
  · rintro (hsame | hwithin)
    · exact Or.inl (Or.inl hsame)
    · exact Or.inr hwithin

/-- The check decides compatibility unless it meets an equal version in another object
while the packages differ. -/
theorem isCompatible_iff_compatible (hsha : Function.Injective sha256)
    (hlevel3 : config.debugDisableLevel3Check = false) (m : Manifest) (component : Component) :
    (isCompatible sha256 config (some m) component = true ↔ Compatible m component.manifest) ↔
      (SameLibrary m component.manifest →
        m.version = component.manifest.version ∨
        PackagesWithin component.manifest.packages m.packages) := by
  rw [isCompatible_iff hsha hlevel3]
  constructor
  · intro hiff hsame
    rcases hiff.mpr (Or.inl hsame) with hobject | hwithin
    · exact Or.inl hobject.2
    · exact Or.inr hwithin
  · intro hcond
    constructor
    · rintro (⟨hname, hversion⟩ | hwithin)
      · exact Or.inl ⟨hname, congrArg VersionObject.value hversion⟩
      · exact Or.inr hwithin
    · rintro (hsame | hwithin)
      · exact (hcond hsame).imp_left fun hobject => ⟨hsame.1, hobject⟩
      · exact Or.inr hwithin

end

/-! ### Reports after a component was recorded -/

/-- A worker reports its manifest. -/
def report (w : Worker) (s : Scheduler) (obj : ManifestObj) : Option Scheduler :=
  (s.onManifest w obj).map Prod.snd

/-- The packages a worker reported last; `initial` before the first report. -/
def lastPackages (initial : Packages) (reports : List ManifestObj) : Packages :=
  match reports.getLast? with
  | some obj => obj.packages.getD ∅
  | none => initial

/-- Component and worker have the default version object and no name: the component has
neither, no report has a name, and the last one has no version. -/
def SharesDefaults (cm : Manifest) (reports : List ManifestObj) : Prop :=
  cm.name = "" ∧ cm.version = Manifest.defaultValues.version ∧
  (∀ obj ∈ reports, obj.name = some "") ∧
  reports.getLast?.any (·.version.isNone) = true

/-- One report. The recorded name survives unless it is empty, and then the version is an
object built for this report. -/
theorem report_spec {w : Worker} {s t : Scheduler} {obj : ManifestObj} {last : Manifest}
    (hlast : s.manifests.lookup w = some last) (h : report w s obj = some t) :
    s.nextRef ≤ t.nextRef ∧ ∃ m, t.manifests.lookup w = some m ∧
      m.packages = obj.packages.getD ∅ ∧
      ((last.name ≠ "" ∧ m.name = last.name ∧ m.version.value = last.version.value ∧
          s.nextRef ≤ m.version.ref) ∨
        (last.name = "" ∧ m.name = obj.name.getD "DUMMY" ∧
          ((obj.version = none ∧ m.version = Manifest.defaultValues.version) ∨
            (obj.version ≠ none ∧ s.nextRef ≤ m.version.ref)))) := by
  simp only [report, Scheduler.onManifest, Option.map_map, Option.map_eq_some_iff,
    Function.comp_apply, hlast] at h
  obtain ⟨⟨isNew, m⟩, hm, rfl⟩ := h
  refine ⟨by simp, m, by simp, ?_⟩
  simp only [onResponseManifest, Option.bind_eq_bind, Option.bind_eq_some_iff] at hm
  obtain ⟨reported, hreported, hm⟩ := hm
  have hpackages := Manifest.packages_ofObj hreported
  by_cases hname : last.name = ""
  · simp only [hname, ne_eq, not_true_eq_false, false_and, if_false] at hm
    obtain ⟨-, rfl⟩ : false = isNew ∧ reported = m := by simpa using hm
    refine ⟨hpackages, Or.inr ⟨hname, ?_⟩⟩
    simp only [Manifest.ofObj, Option.pure_def, Option.bind_eq_bind, Option.bind_eq_some_iff,
      Option.some.injEq] at hreported
    obtain ⟨type, -, version, hversion, rfl⟩ := hreported
    refine ⟨rfl, ?_⟩
    cases hobj : obj.version with
    | none =>
        simp only [Manifest.versionOf, hobj, Option.some.injEq] at hversion
        exact Or.inl ⟨rfl, hversion.symm⟩
    | some str =>
        simp only [Manifest.versionOf, hobj] at hversion
        refine Or.inr ⟨by simp, ?_⟩
        rw [VersionObject.ref_of_ofVersionStr hversion]
  · have hversionStr := SemanticVersion.versionStr_ne_empty last.version.value
    simp only [hname, hversionStr, ne_eq, not_false_eq_true, and_self, if_true,
      VersionObject.ofVersionStr_versionStr, Option.bind_some] at hm
    obtain ⟨-, rfl⟩ : false = isNew ∧ _ = m := by simpa using hm
    exact ⟨hpackages, Or.inl ⟨hname, rfl, rfl, by simp⟩⟩

/-- What the reports leave of a recorded component. -/
structure AfterReports (s : Scheduler) (initial : Packages) (cm : Manifest)
    (reports : List ManifestObj) (t : Scheduler) (m : Manifest) : Prop where
  nextRef : s.nextRef ≤ t.nextRef
  packages : m.packages = lastPackages initial reports
  nameless : m.name = "" ↔ cm.name = "" ∧ ∀ obj ∈ reports, obj.name = some ""
  named : cm.name ≠ "" → SameLibrary m cm ∧ s.nextRef ≤ m.version.ref
  version : s.nextRef ≤ m.version.ref ∨
    (m.version = Manifest.defaultValues.version ∧ reports.getLast?.any (·.version.isNone) = true)
  reported : m.name = "" → reports.getLast?.any (·.version.isNone) = true →
    m.version = Manifest.defaultValues.version

theorem AfterReports.report {s t u : Scheduler} {w : Worker} {initial : Packages}
    {cm last : Manifest}
    {reports : List ManifestObj} {obj : ManifestObj} (h : AfterReports s initial cm reports t last)
    (hlast : t.manifests.lookup w = some last) (hreport : report w t obj = some u) :
    ∃ m, u.manifests.lookup w = some m ∧ AfterReports s initial cm (reports ++ [obj]) u m := by
  obtain ⟨href, m, hm, hpackages, hcases⟩ := report_spec hlast hreport
  refine ⟨m, hm, ⟨h.nextRef.trans href, ?_, ?_, ?_, ?_, ?_⟩⟩
  · simp [lastPackages, hpackages]
  · rcases hcases with ⟨hne, hname, -⟩ | ⟨hempty, hname, -⟩
    · rw [hname, h.nameless]
      refine iff_of_false (fun hall => hne (h.nameless.mpr hall)) ?_
      intro hex
      obtain ⟨hcm, hall⟩ := hex
      exact hne (h.nameless.mpr ⟨hcm, fun o ho => hall o (by simp [ho])⟩)
    · obtain ⟨hcm, hall⟩ := h.nameless.mp hempty
      have hobj : obj.name.getD "DUMMY" = "" ↔ obj.name = some "" := by
        cases obj.name <;> simp
      rw [hname, hobj]
      constructor
      · intro ho
        refine ⟨hcm, fun o hmem => ?_⟩
        rcases List.mem_append.mp hmem with hmem | hmem
        · exact hall o hmem
        · rw [List.mem_singleton.mp hmem, ho]
      · intro hall'
        exact hall'.2 obj (by simp)
  · intro hcm
    obtain ⟨⟨hsame, hvalue⟩, -⟩ := h.named hcm
    rcases hcases with ⟨-, hname, hversion, hfresh⟩ | ⟨hempty, -, -⟩
    · exact ⟨⟨hname.trans hsame, hversion.trans hvalue⟩, h.nextRef.trans hfresh⟩
    · exact absurd (hsame.symm.trans hempty) hcm
  · rcases hcases with ⟨-, -, -, hfresh⟩ | ⟨-, -, ⟨hnone, hdefault⟩ | ⟨-, hfresh⟩⟩
    · exact Or.inl (h.nextRef.trans hfresh)
    · exact Or.inr ⟨hdefault, by simp [hnone]⟩
    · exact Or.inl (h.nextRef.trans hfresh)
  · intro hnoname hnone
    have hobj : obj.version = none := by simpa using hnone
    rcases hcases with ⟨hne, hname, -⟩ | ⟨-, -, ⟨-, hdefault⟩ | ⟨hsome, -⟩⟩
    · exact absurd (hname.symm.trans hnoname) hne
    · exact hdefault
    · exact absurd hobj hsome

/-- The reports of a worker from the moment a component is recorded on it. -/
theorem afterReports_of_exec {s t : Scheduler} {w : Worker} {m₀ : Manifest} {component : Component}
    {reports : List ManifestObj} (hm₀ : s.manifests.lookup w = some m₀)
    (hrun : Exec (report w) (s.recorded w component) reports t) :
    ∃ m, t.manifests.lookup w = some m ∧
      AfterReports s m₀.packages component.manifest reports t m := by
  induction reports using List.reverseRecOn generalizing t with
  | nil =>
      cases hrun
      refine ⟨{ m₀ with
        name := component.manifest.name
        version := ⟨s.nextRef, component.manifest.version.value,
          component.manifest.version.branchOk⟩ }, ?_, ?_⟩
      · simp [Scheduler.recorded, hm₀]
      · refine ⟨?_, rfl, by simp, fun _ => ⟨⟨rfl, rfl⟩, le_rfl⟩, Or.inl le_rfl, by simp⟩
        simp [Scheduler.recorded, hm₀]
  | append_singleton reports obj ih =>
      obtain ⟨u, hu, hlast⟩ := Exec.snoc_iff.mp hrun
      obtain ⟨last, hlookup, hinv⟩ := ih hu
      exact hinv.report hlookup hlast

/-- After any reports the worker is compatible with the recorded component exactly when it
last reported the component's packages, or both fell back to the shared defaults. -/
theorem isCompatible_after_reports {sha256 : ByteArray → String} {config : Config}
    (hsha : Function.Injective sha256) (hlevel3 : config.debugDisableLevel3Check = false)
    {s t : Scheduler} {w : Worker} {m₀ : Manifest} {component : Component}
    {reports : List ManifestObj} (hm₀ : s.manifests.lookup w = some m₀)
    (hallocated : component.manifest.version.ref < s.nextRef)
    (hrun : Exec (report w) (s.recorded w component) reports t) :
    isCompatible sha256 config (t.manifests.lookup w) component = true ↔
      PackagesWithin component.manifest.packages (lastPackages m₀.packages reports) ∨
      SharesDefaults component.manifest reports := by
  obtain ⟨m, hm, hinv⟩ := afterReports_of_exec hm₀ hrun
  rw [hm, isCompatible_iff hsha hlevel3, hinv.packages, or_comm]
  refine or_congr_right ?_
  constructor
  · intro hex
    obtain ⟨hname, hversion⟩ := hex
    have hold : m.version.ref < s.nextRef := hversion ▸ hallocated
    have hdefault : m.version = Manifest.defaultValues.version ∧
        reports.getLast?.any (·.version.isNone) = true :=
      hinv.version.resolve_left (by omega)
    have hnameless : component.manifest.name = "" := by
      by_contra hnamed
      have hfresh := (hinv.named hnamed).2
      omega
    obtain ⟨-, hreports⟩ := hinv.nameless.mp (hname.trans hnameless)
    exact ⟨hnameless, hversion.symm.trans hdefault.1, hreports, hdefault.2⟩
  · intro hex
    obtain ⟨hnameless, hdefault, hreports, hlast⟩ := hex
    have hname := hinv.nameless.mpr ⟨hnameless, hreports⟩
    exact ⟨hname.trans hnameless.symm, (hinv.reported hname hlast).trans hdefault.symm⟩

/-! ### The check as a whole -/

/-- **Worker-component compatibility.** The check returns what it is for exactly when an
equal name and version on the worker come with the component's own version object or with
its packages; and a worker on which a component was recorded is compatible with it again,
after any number of reports, exactly when its last report has the component's packages (or
when both fell back to the shared defaults). -/
theorem isCompatible_meets_purpose_iff {sha256 : ByteArray → String} {config : Config}
    (hsha : Function.Injective sha256) (hlevel3 : config.debugDisableLevel3Check = false) :
    (∀ (m : Manifest) (component : Component),
      (isCompatible sha256 config (some m) component = true ↔ Compatible m component.manifest) ↔
        (SameLibrary m component.manifest → m.version = component.manifest.version ∨
          PackagesWithin component.manifest.packages m.packages)) ∧
    (∀ (s t : Scheduler) (w : Worker) (m₀ : Manifest) (component : Component)
      (reports : List ManifestObj), s.manifests.lookup w = some m₀ →
      component.manifest.version.ref < s.nextRef →
      Exec (report w) (s.recorded w component) reports t →
      (isCompatible sha256 config (t.manifests.lookup w) component = true ↔
        PackagesWithin component.manifest.packages (lastPackages m₀.packages reports) ∨
        SharesDefaults component.manifest reports)) := by
  constructor
  · intro m component
    exact isCompatible_iff_compatible hsha hlevel3 m component
  · intro s t w m₀ component reports hm₀ hallocated hrun
    exact isCompatible_after_reports hsha hlevel3 hm₀ hallocated hrun

/-- A digest without collisions: the bytes themselves, as characters. -/
def plainDigest (bytes : ByteArray) : String :=
  String.ofList (bytes.data.toList.map Char.ofUInt8)

theorem plainDigest_injective : Function.Injective plainDigest := by
  have hchar : Function.Injective Char.ofUInt8 := by
    intro a b h
    have hnat : ∀ c : UInt8, (Char.ofUInt8 c).toNat = c.toNat := fun _ => rfl
    exact UInt8.toNat_inj.mp (hnat a ▸ hnat b ▸ congrArg Char.toNat h)
  intro a b h
  exact ByteArray.ext (Array.toList_inj.mp (hchar.list_map (String.ofList_injective h)))

/-- A library component that needs one package. -/
def numpyComponent : Component where
  ref := 0
  manifest := {
    name := "train", type := .library, packagesSemver := false
    version := ⟨1, ⟨"master", 0, 1⟩, by decide⟩
    packages := AList.singleton "numpy" "1.21" }

/-- A scheduler that knows one worker. -/
def oneWorker : Scheduler where
  numSlot := 1
  nextRef := 2
  manifests := AList.singleton ⟨0, "w0"⟩ Manifest.defaultValues

/-- The worker reports the package after it has executed the component. -/
theorem reported_compatible_again :
    ∃ t, Exec (report ⟨0, "w0"⟩) (oneWorker.recorded ⟨0, "w0"⟩ numpyComponent)
        [{ packages := some (AList.singleton "numpy" "1.21") }] t ∧
      isCompatible plainDigest {} (t.manifests.lookup ⟨0, "w0"⟩) numpyComponent = true := by
  obtain ⟨t, ht⟩ := Option.isSome_iff_exists.mp (by decide :
    (exec (report ⟨0, "w0"⟩) (oneWorker.recorded ⟨0, "w0"⟩ numpyComponent)
      [{ packages := some (AList.singleton "numpy" "1.21") }]).isSome = true)
  have hrun := exec_eq_some_iff.mp ht
  refine ⟨t, hrun, ((isCompatible_meets_purpose_iff plainDigest_injective rfl).2 oneWorker t
    ⟨0, "w0"⟩ _ numpyComponent _ rfl (by decide) hrun).mpr (Or.inl ?_)⟩
  intro package version hlookup
  exact hlookup

/-- The component is recorded and the worker then reports without its package: name and
version on the worker are the component's, and the check fails. -/
theorem recorded_version_not_recognized :
    ∃ t m, Exec (report ⟨0, "w0"⟩) (oneWorker.recorded ⟨0, "w0"⟩ numpyComponent) [{}] t ∧
      t.manifests.lookup ⟨0, "w0"⟩ = some m ∧ SameLibrary m numpyComponent.manifest ∧
      isCompatible plainDigest {} (t.manifests.lookup ⟨0, "w0"⟩) numpyComponent = false := by
  obtain ⟨t, ht⟩ := Option.isSome_iff_exists.mp (by decide :
    (exec (report ⟨0, "w0"⟩) (oneWorker.recorded ⟨0, "w0"⟩ numpyComponent) [{}]).isSome = true)
  have hrun := exec_eq_some_iff.mp ht
  obtain ⟨m, hm, hinv⟩ := afterReports_of_exec rfl hrun
  refine ⟨t, m, hrun, hm, (hinv.named (by decide)).1, Bool.eq_false_iff.mpr fun htrue => ?_⟩
  rcases (isCompatible_after_reports plainDigest_injective rfl rfl (by decide) hrun).mp htrue with
    hwithin | hdefaults
  · exact absurd (hwithin "numpy" "1.21" rfl) (by decide)
  · exact absurd hdefaults.1 (by decide)

end SecCask.Scheduling
