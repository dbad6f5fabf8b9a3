import Mathlib.Data.Prod.Lex
import SecCask.Lib.Run
import SecCask.Pipeman.ComponentStore

/-!
# SecCask.Pipeman.LibraryManager

`LibraryManager.create`, `get_meta` and `get_archive` of `pipeman/librarymanager.py`, and
the history of all creations. The next version is counted up from the one that is read from the
manifest at the head, and what is read there goes through `configparser`'s interpolation: with
a reference `%(option)s` in the branch, another option of the manifest takes part in it.

As long as every manifest gives the numbers of its version back, versions only grow, and what
was committed stays as it was. A branch whose percent signs come in pairs is enough for that.
-/

namespace SecCask.Pipeman

open SecCask.ConfigParser (ConfigFile Paired collapse)

namespace LibraryMeta

/-- `icp.getboolean(section, option)` -/
def getboolean (c : ConfigFile) (sec option : String) : Except PyError Bool := do
  let value ← MetaConfig.getOption c sec option
  if value.toLower ∈ ["1", "yes", "true", "on"] then return true
  else if value.toLower ∈ ["0", "no", "false", "off"] then return false
  else .error .valueError

def apiUpdated (c : ConfigFile) : Except PyError Bool :=
  getboolean c "configuration" "api-version-updated"

end LibraryMeta

/-- The arguments of `create` and the time of the call. -/
structure CreateCall (A : Type) where
  source : SourceFolder A
  workingBranch : String
  now : String

namespace LibraryManager

open ComponentStore (metaBranchHead)

variable {σ A : Type} (S : PhysicalStore σ (ComponentFile A))

/-! ### Creating libraries -/

/-- `LibraryMeta(head).version` -/
def readVersion (head : ConfigFile) : Except PyError SemanticVersion := do
  let libraryMeta ← MetaConfig.init head
  MetaConfig.version libraryMeta

/-- The version behind the branch's head. -/
def nextVersion (manifest head : ConfigFile) (workingBranch : String) :
    Except PyError SemanticVersion := do
  let currentLatest ← readVersion head
  if ← LibraryMeta.apiUpdated manifest then
    return ⟨workingBranch, currentLatest.apiVersion + 1, 0⟩
  else
    return ⟨workingBranch, currentLatest.apiVersion, currentLatest.incVersion + 1⟩

/-- The body of the `try` block of `create`. -/
def versionFromHead (s : σ) (manifest : ConfigFile) (key : MetaKey) (workingBranch : String) :
    Except PyError SemanticVersion := do
  let head ← metaBranchHead S s key
  nextVersion manifest head workingBranch

/-- The `try` block with its handler. -/
def proposedVersion (s : σ) (manifest : ConfigFile) (key : MetaKey) (workingBranch : String) :
    Except PyError SemanticVersion :=
  match versionFromHead S s manifest key workingBranch with
  | .error .keyError => .ok ⟨workingBranch, 0, 0⟩
  | result => result

/-- The manifest as it is committed: the version in it is ignored and overwritten. -/
def stamp (manifest : ConfigFile) (v : SemanticVersion) (now : String) :
    Except PyError ConfigFile := do
  let c ← MetaConfig.setVersion manifest v
  MetaConfig.setCreatedTimestamp c now

/-- The two puts of `create`. -/
def commit (s : σ) (c : ComponentCommit A) : σ := ComponentStore.commit S .libraryStorage s c

/-- `LibraryManager.create` -/
def create (s : σ) (call : CreateCall A) : Except PyError (σ × ComponentCommit A) := do
  let manifest ← MetaConfig.init call.source.manifest
  let name ← MetaConfig.name manifest
  let headKey : MetaKey := ⟨MetaKey.genericLibraryKey, name, ⟨call.workingBranch, 0, 0⟩⟩
  let proposed ← proposedVersion S s manifest headKey call.workingBranch
  let manifest ← stamp manifest proposed call.now
  let committed : ComponentCommit A :=
    ⟨{ headKey with componentVersion := proposed }, { call.source with manifest := manifest }⟩
  return (commit S s committed, committed)

/-- `get_meta` -/
def getMeta (s : σ) (key : MetaKey) : Except PyError ConfigFile := ComponentStore.getMeta S s key

/-- `get_archive`: the folder that is extracted. -/
def getArchive (s : σ) (key : MetaKey) : Except PyError (SourceFolder A) :=
  ComponentStore.getArchive S .libraryStorage s key

/-- A successful `create`, with the commits so far, oldest first. -/
def createStep (h : σ × List (ComponentCommit A)) (call : CreateCall A) :
    Option (σ × List (ComponentCommit A)) :=
  match create S h.1 call with
  | .ok (s, committed) => some (s, h.2 ++ [committed])
  | .error _ => none

/-! ### One creation -/

variable {S}

/-- The handler of `create` is for a missing head only: reading a manifest raises other
errors. -/
theorem nextVersion_ne_keyError (manifest head : ConfigFile) (workingBranch : String) :
    nextVersion manifest head workingBranch ≠ .error .keyError := by
  intro h
  rcases bind_eq_error_iff.mp h with hread | ⟨latest, -, h⟩
  · rcases bind_eq_error_iff.mp hread with hinit | ⟨c, -, hversion⟩
    · exact MetaConfig.init_ne_keyError _ hinit
    · exact MetaConfig.version_ne_keyError _ hversion
  · rcases bind_eq_error_iff.mp h with hupdated | ⟨updated, -, h⟩
    · rcases bind_eq_error_iff.mp hupdated with hget | ⟨value, -, hvalue⟩
      · exact MetaConfig.mapError_pyError_ne_keyError _ hget
      · split at hvalue
        · cases hvalue
        · split at hvalue <;> cases hvalue
    · cases updated <;> cases h

theorem branch_of_nextVersion {manifest head : ConfigFile} {workingBranch : String}
    {v : SemanticVersion} (h : nextVersion manifest head workingBranch = .ok v) :
    v.branch = workingBranch := by
  obtain ⟨latest, -, h⟩ := bind_eq_ok_iff.mp h
  obtain ⟨updated, -, h⟩ := bind_eq_ok_iff.mp h
  cases updated <;> exact congrArg SemanticVersion.branch (Except.ok.inj h).symm

theorem branch_of_proposedVersion {s : σ} {manifest : ConfigFile} {key : MetaKey}
    {workingBranch : String} {v : SemanticVersion}
    (h : proposedVersion S s manifest key workingBranch = .ok v) : v.branch = workingBranch := by
  unfold proposedVersion at h
  split at h
  · exact congrArg SemanticVersion.branch (Except.ok.inj h).symm
  · obtain ⟨head, -, h⟩ := bind_eq_ok_iff.mp h
    exact branch_of_nextVersion h

/-- The part of a version that `create` counts up, in lexicographic order. -/
def counted (v : SemanticVersion) : ℕ ×ₗ ℕ := toLex (v.apiVersion, v.incVersion)

/-- What is read from the manifest as its version, if anything, has the numbers of `v`. -/
def ReadsAs (manifest : ConfigFile) (v : SemanticVersion) : Prop :=
  ∀ read, readVersion manifest = .ok read → counted read = counted v

/-- A head is followed by a larger version than is read from it. -/
theorem counted_lt_of_nextVersion {manifest head : ConfigFile} {workingBranch : String}
    {v latest : SemanticVersion} (hlatest : ReadsAs head latest)
    (h : nextVersion manifest head workingBranch = .ok v) : counted latest < counted v := by
  obtain ⟨read, hread, h⟩ := bind_eq_ok_iff.mp h
  obtain ⟨updated, -, h⟩ := bind_eq_ok_iff.mp h
  rw [← hlatest read hread, counted, counted, Prod.Lex.toLex_lt_toLex]
  cases updated
  · obtain rfl := Except.ok.inj h
    exact Or.inr ⟨rfl, Nat.lt_succ_self _⟩
  · obtain rfl := Except.ok.inj h
    exact Or.inl (Nat.lt_succ_self _)

/-- What a call commits: its folder, under the manifest's name and the call's branch. -/
structure CommittedBy (call : CreateCall A) (c : ComponentCommit A) : Prop where
  componentType : c.key.componentType = MetaKey.genericLibraryKey
  branch : c.key.componentVersion.branch = call.workingBranch
  files : c.folder.files = call.source.files
  manifest : ∃ manifest, MetaConfig.init call.source.manifest = .ok manifest ∧
    MetaConfig.name manifest = .ok c.key.componentName ∧
    stamp manifest c.key.componentVersion call.now = .ok c.folder.manifest

/-- What a successful `create` does. -/
theorem create_spec {s s' : σ} {call : CreateCall A} {c : ComponentCommit A}
    (h : create S s call = .ok (s', c)) :
    s' = commit S s c ∧ CommittedBy call c ∧
      ∃ manifest, proposedVersion S s manifest c.key call.workingBranch =
        .ok c.key.componentVersion := by
  obtain ⟨manifest, hinit, h⟩ := bind_eq_ok_iff.mp h
  obtain ⟨name, hname, h⟩ := bind_eq_ok_iff.mp h
  obtain ⟨proposed, hproposed, h⟩ := bind_eq_ok_iff.mp h
  obtain ⟨stamped, hstamp, h⟩ := bind_eq_ok_iff.mp h
  obtain ⟨rfl, rfl⟩ := Prod.mk.inj (Except.ok.inj h)
  have hbranch := branch_of_proposedVersion hproposed
  refine ⟨rfl, ⟨rfl, hbranch, rfl, manifest, hinit, hname, hstamp⟩, manifest, ?_⟩
  have hhead : metaBranchHead S s ⟨MetaKey.genericLibraryKey, name, proposed⟩ =
      metaBranchHead S s ⟨MetaKey.genericLibraryKey, name, ⟨call.workingBranch, 0, 0⟩⟩ :=
    ComponentStore.metaBranchHead_congr rfl rfl hbranch
  rw [← hproposed, proposedVersion, proposedVersion, versionFromHead, versionFromHead, hhead]

/-! ### Which manifests give their version back -/

/-- Whatever version `create` writes into the call's manifest, its numbers are read back, if
anything is. -/
def ReadsBack (call : CreateCall A) : Prop :=
  ∀ manifest api inc stamped, MetaConfig.init call.source.manifest = .ok manifest →
    stamp manifest ⟨call.workingBranch, api, inc⟩ call.now = .ok stamped →
    ReadsAs stamped ⟨call.workingBranch, api, inc⟩

/-- Interpolation leaves a branch without references a branch. -/
theorem readsAs_of_paired {manifest stamped : ConfigFile} {v : SemanticVersion} {now : String}
    (hpaired : Paired v.branch.toList) (hspace : Regex.noSpace v.branch = true)
    (hkeeps : MetaConfig.KeepsVersion manifest) (h : stamp manifest v now = .ok stamped) :
    ReadsAs stamped v := by
  obtain ⟨c, hversion, hnow⟩ := bind_eq_ok_iff.mp h
  have hraw := MetaConfig.raw_version hversion hnow hkeeps
  have hnumbers : '%' ∉ SemanticVersion.numbers v.apiVersion v.incVersion :=
    MetaKey.notMem_numbers (by decide) (by decide) _ _
  -- The branch of what is read, with half of its percent signs.
  let read : SemanticVersion := { v with branch := String.ofList (collapse v.branch.toList) }
  have hget : stamped.get "identifier" "version" = .ok read.versionStr := by
    rw [ConfigFile.get_of_raw_of_paired hraw
      (by
        rw [SemanticVersion.toList_versionStr]
        exact hpaired.append (ConfigParser.paired_of_notMem hnumbers))]
    refine congrArg Except.ok (String.toList_injective ?_)
    rw [String.toList_ofList, SemanticVersion.toList_versionStr, SemanticVersion.toList_versionStr,
      hpaired.collapse_append, ConfigParser.collapse_of_notMem hnumbers, String.toList_ofList]
  intro found hfound
  obtain ⟨c', hinit, hfound⟩ := bind_eq_ok_iff.mp hfound
  obtain rfl := Except.ok.inj ((MetaConfig.init_of_mem
    (ConfigFile.mem_sections_of_get (by decide) hget)).symm.trans hinit)
  obtain ⟨text, htext, hfound⟩ := bind_eq_ok_iff.mp hfound
  obtain rfl := Except.ok.inj (hget.symm.trans (mapError_eq_ok_iff.mp htext))
  split at hfound
  · rename_i w hw
    obtain rfl := Except.ok.inj hfound
    have hread : Regex.noSpace read.branch = true := by
      rw [Regex.noSpace_iff]
      intro d hd
      rw [String.toList_ofList] at hd
      exact Regex.noSpace_iff.mp hspace d (ConfigParser.mem_of_mem_collapse hd)
    rw [SemanticVersion.eq_of_fromVersionStr_versionStr hread hw]
    rfl
  · cases hfound

theorem readsBack_of_paired {call : CreateCall A} (hpaired : Paired call.workingBranch.toList)
    (hspace : Regex.noSpace call.workingBranch = true)
    (hkeeps : MetaConfig.KeepsVersion call.source.manifest) : ReadsBack call := by
  intro manifest api inc stamped hinit hstamp
  refine readsAs_of_paired hpaired hspace ?_ hstamp
  rw [MetaConfig.KeepsVersion, MetaConfig.optionxform_of_init hinit]
  exact hkeeps

/-! ### The history -/

/-- Two commits for the same library and branch. -/
def SameLine (c d : ComponentCommit A) : Prop :=
  c.key.componentName = d.key.componentName ∧
    c.key.componentVersion.branch = d.key.componentVersion.branch

structure AppendOnly (S : PhysicalStore σ (ComponentFile A)) (h : σ × List (ComponentCommit A)) :
    Prop where
  isLibrary : ∀ c ∈ h.2, c.key.componentType = MetaKey.genericLibraryKey
  increasing : h.2.Pairwise fun c d =>
    SameLine c d → counted c.key.componentVersion < counted d.key.componentVersion
  readable : ∀ c ∈ h.2, getArchive S h.1 c.key = .ok c.folder ∧
    getMeta S h.1 c.key = .ok c.folder.manifest
  /-- The head of a branch reads as the largest version committed on it. -/
  head : ∀ c ∈ h.2, ∃ manifest latest, metaBranchHead S h.1 c.key = .ok manifest ∧
    ReadsAs manifest latest ∧ counted c.key.componentVersion ≤ counted latest

/-- A creation is assigned a larger version than all earlier ones on its line. -/
theorem counted_lt_of_create {h : σ × List (ComponentCommit A)} (hinv : AppendOnly S h)
    {call : CreateCall A} {s' : σ} {c d : ComponentCommit A} (hd : d ∈ h.2)
    (hcreate : create S h.1 call = .ok (s', c)) (hline : SameLine d c) :
    counted d.key.componentVersion < counted c.key.componentVersion := by
  obtain ⟨-, hcommitted, source, hproposed⟩ := create_spec hcreate
  have htype := hcommitted.componentType
  obtain ⟨manifest, latest, hhead, hreads, hle⟩ := hinv.head d hd
  have hhead' : metaBranchHead S h.1 c.key = .ok manifest := by
    rw [← hhead]
    exact ComponentStore.metaBranchHead_congr (htype.trans (hinv.isLibrary d hd).symm)
      hline.1.symm hline.2.symm
  unfold proposedVersion at hproposed
  have hnext : nextVersion source manifest call.workingBranch = .ok c.key.componentVersion := by
    have hfrom : versionFromHead S h.1 source c.key call.workingBranch =
        nextVersion source manifest call.workingBranch := by
      rw [versionFromHead, hhead']
      rfl
    rw [hfrom] at hproposed
    split at hproposed
    · rename_i hkey
      exact absurd hkey (nextVersion_ne_keyError _ _ _)
    · exact hproposed
  exact hle.trans_lt (counted_lt_of_nextVersion hreads hnext)

/-- **Creations append.** -/
theorem appendOnly_createStep {h h' : σ × List (ComponentCommit A)} {call : CreateCall A}
    (hcall : ReadsBack call) (hstep : createStep S h call = some h') (hinv : AppendOnly S h) :
    AppendOnly S h' := by
  unfold createStep at hstep
  split at hstep
  · rename_i s' c hcreate
    obtain rfl := Option.some.inj hstep
    obtain ⟨rfl, ⟨htype, hbranch, -, manifest, hinit, -, hstamp⟩, -⟩ := create_spec hcreate
    have hreads : ReadsAs c.folder.manifest c.key.componentVersion := by
      have hversion : c.key.componentVersion = ⟨call.workingBranch,
          c.key.componentVersion.apiVersion, c.key.componentVersion.incVersion⟩ := by
        rw [← hbranch]
      rw [hversion] at hstamp ⊢
      exact hcall manifest _ _ _ hinit hstamp
    have hlt : ∀ d ∈ h.2, SameLine d c →
        counted d.key.componentVersion < counted c.key.componentVersion :=
      fun d hd hline => counted_lt_of_create hinv hd hcreate hline
    -- A commit that wrote over an older one would have its branch and its version, hence be on
    -- its line, where versions increase.
    have hkey : ∀ d ∈ h.2, d.key.toStringWithVersion = c.key.toStringWithVersion →
        d.key.componentVersion.branch ≠ c.key.componentVersion.branch := by
      intro d hd hstring hsame
      obtain ⟨hversion, hname⟩ := MetaKey.toStringWithVersion_inj_of_branch hsame hstring
      have hline : SameLine d c :=
        ⟨ComponentStore.toStringWithoutVersion_inj ((hinv.isLibrary d hd).trans htype.symm) hname,
          hsame⟩
      exact absurd (hlt d hd hline) (by rw [hversion]; exact lt_irrefl _)
    constructor
    case isLibrary =>
      intro d hd
      rcases List.mem_append.mp hd with hd | hd
      · exact hinv.isLibrary d hd
      · rw [List.mem_singleton.mp hd]
        exact htype
    case increasing =>
      refine List.pairwise_append.mpr ⟨hinv.increasing, List.pairwise_singleton _ _, ?_⟩
      intro d hd e he
      rw [List.mem_singleton.mp he]
      exact hlt d hd
    case readable => exact ComponentStore.readable_commit (by decide) hinv.readable hkey
    case head =>
      intro d hd
      rcases List.mem_append.mp hd with hd | hd
      · have hdtype : d.key.componentType = c.key.componentType :=
          (hinv.isLibrary d hd).trans htype.symm
        by_cases hsame : SameLine d c
        · refine ⟨c.folder.manifest, c.key.componentVersion, ?_, hreads, (hlt d hd hsame).le⟩
          rw [ComponentStore.metaBranchHead_congr hdtype hsame.1 hsame.2]
          exact ComponentStore.metaBranchHead_commit h.1 c
        · have hline : ¬(c.key.componentName = d.key.componentName ∧
              c.key.componentVersion.branch = d.key.componentVersion.branch) :=
            fun hline => hsame ⟨hline.1.symm, hline.2.symm⟩
          have hstorage : StorageName.libraryStorage ≠ .metaStorage := by decide
          have hhead :=
            ComponentStore.metaBranchHead_commit_of_ne (S := S) hstorage hdtype hline h.1
          show ∃ manifest latest, metaBranchHead S (ComponentStore.commit S .libraryStorage h.1 c)
            d.key = .ok manifest ∧ _
          rw [hhead]
          exact hinv.head d hd
      · rw [List.mem_singleton.mp hd]
        exact ⟨c.folder.manifest, c.key.componentVersion,
          ComponentStore.metaBranchHead_commit h.1 c, hreads, le_rfl⟩
  · cases hstep

theorem committedBy_of_creates {h h' : σ × List (ComponentCommit A)} {calls : List (CreateCall A)}
    (hrun : Exec (createStep S) h calls h') :
    ∃ commits, h'.2 = h.2 ++ commits ∧ List.Forall₂ CommittedBy calls commits := by
  induction hrun with
  | nil => exact ⟨[], by simp, List.Forall₂.nil⟩
  | @cons h t h' call calls hstep _ ih =>
      obtain ⟨commits, hcommits, hall⟩ := ih
      unfold createStep at hstep
      split at hstep
      · rename_i s' c hcreate
        obtain rfl := Option.some.inj hstep
        obtain ⟨-, hcommitted, -⟩ := create_spec hcreate
        exact ⟨c :: commits, by rw [hcommits, List.append_assoc]; rfl,
          List.Forall₂.cons hcommitted hall⟩
      · cases hstep

/-- **Library version history is append-only.** From any store, over any sequence of
successful creations whose manifests give the numbers of their versions back, every call
commits its own folder, the versions assigned on one line increase, no key is assigned twice,
and what every call committed is still there at the end. -/
theorem appendOnly_of_creates {s s' : σ} {calls : List (CreateCall A)}
    {commits : List (ComponentCommit A)} (hrun : Exec (createStep S) (s, []) calls (s', commits))
    (hcalls : ∀ call ∈ calls, ReadsBack call) :
    List.Forall₂ CommittedBy calls commits ∧
    (commits.Pairwise fun c d =>
      SameLine c d → counted c.key.componentVersion < counted d.key.componentVersion) ∧
    (commits.map (·.key)).Nodup ∧
    ∀ c ∈ commits, getArchive S s' c.key = .ok c.folder ∧
      getMeta S s' c.key = .ok c.folder.manifest := by
  have hempty : AppendOnly S (s, []) := ⟨by simp, List.Pairwise.nil, by simp, by simp⟩
  have hinv : AppendOnly S (s', commits) := hrun.invariant_along
    (I := AppendOnly S) (fun _ _ _ hinv hcall hstep => appendOnly_createStep hcall hstep hinv)
    (along_of_forall hcalls _) hempty
  refine ⟨?_, hinv.increasing, ?_, hinv.readable⟩
  · obtain ⟨new, hnew, hall⟩ := committedBy_of_creates hrun
    obtain rfl : commits = new := by simpa using hnew
    exact hall
  · refine List.pairwise_map.mpr (hinv.increasing.imp ?_)
    intro c d hlt hkey
    have hline : SameLine c d := by
      rw [SameLine, hkey]
      exact ⟨rfl, rfl⟩
    exact absurd (hlt hline) (by rw [hkey]; exact lt_irrefl _)

/-- The manifest of the library `a`, with a description. -/
def libraryManifest (apiUpdated description : String) : ConfigFile :=
  ((ConfigFile.empty String.toLower).define "identifier" "name" "a"
    |>.define "identifier" "description" description).define
    "configuration" "api-version-updated" apiUpdated

def libraryCall (branch apiUpdated : String) : CreateCall Unit :=
  ⟨⟨libraryManifest apiUpdated "1.2.3 release", ()⟩, branch, "0"⟩

/-- An incremental creation and one with a new API version behind the first, on a branch with
an escaped percent sign. -/
def threeCreates : List (CreateCall Unit) :=
  [libraryCall "x%%" "no", libraryCall "x%%" "no", libraryCall "x%%" "yes"]

theorem threeCreates_readable : ∃ s commits,
    Exec (createStep (Storage.logStore (ComponentFile Unit))) ([], []) threeCreates (s, commits) ∧
    commits.map (fun c => c.key.componentVersion) =
      [⟨"x%%", 0, 0⟩, ⟨"x%%", 0, 1⟩, ⟨"x%%", 1, 0⟩] ∧
    ∀ c ∈ commits, getArchive (Storage.logStore (ComponentFile Unit)) s c.key = .ok c.folder := by
  obtain ⟨⟨s, commits⟩, hs⟩ := Option.isSome_iff_exists.mp (by decide +kernel :
    ((exec (createStep (Storage.logStore (ComponentFile Unit))) ([], []) threeCreates).filter
      fun h => h.2.map (fun c => c.key.componentVersion) =
        [⟨"x%%", 0, 0⟩, ⟨"x%%", 0, 1⟩, ⟨"x%%", 1, 0⟩]).isSome = true)
  obtain ⟨hrun, hversions⟩ := Option.filter_eq_some_iff.mp hs
  have hexec := exec_eq_some_iff.mp hrun
  have hreads : ∀ call ∈ threeCreates, ReadsBack call := by
    intro call hcall
    have hbranch : ∀ call ∈ threeCreates, call.workingBranch = "x%%" ∧
        MetaConfig.KeepsVersion call.source.manifest := by decide +kernel
    obtain ⟨hbranch, hkeeps⟩ := hbranch call hcall
    refine readsBack_of_paired ?_ (by rw [hbranch]; decide) hkeeps
    rw [hbranch]
    exact .text (by decide) (.pair .nil)
  obtain ⟨-, -, -, hreadable⟩ := appendOnly_of_creates hexec hreads
  exact ⟨s, commits, hexec, by simpa using hversions, fun c hc => (hreadable c hc).1⟩

/-- Three creations on a branch that refers to the description: the version at the head reads as
`2.3` whatever it is, and the second and the third creation are assigned the same key. -/
theorem threeCreates_reassign : ∃ s commits,
    Exec (createStep (Storage.logStore (ComponentFile Unit))) ([], [])
      (List.replicate 3 (libraryCall "x%(description)s" "no")) (s, commits) ∧
    commits.map (fun c => c.key.componentVersion) = [⟨"x%(description)s", 0, 0⟩,
      ⟨"x%(description)s", 2, 4⟩, ⟨"x%(description)s", 2, 4⟩] ∧
    ¬ (commits.Pairwise fun c d =>
      SameLine c d → counted c.key.componentVersion < counted d.key.componentVersion) ∧
    ¬ (commits.map (·.key)).Nodup := by
  let key (api inc : ℕ) : MetaKey :=
    ⟨MetaKey.genericLibraryKey, "a", ⟨"x%(description)s", api, inc⟩⟩
  obtain ⟨⟨s, commits⟩, hs⟩ := Option.isSome_iff_exists.mp (by decide +kernel :
    ((exec (createStep (Storage.logStore (ComponentFile Unit))) ([], [])
      (List.replicate 3 (libraryCall "x%(description)s" "no"))).filter
      fun h => h.2.map (·.key) = [key 0 0, key 2 4, key 2 4]).isSome = true)
  obtain ⟨hrun, hkeys⟩ := Option.filter_eq_some_iff.mp hs
  have hkeys : commits.map (·.key) = [key 0 0, key 2 4, key 2 4] := of_decide_eq_true hkeys
  refine ⟨s, commits, exec_eq_some_iff.mp hrun, ?_, ?_, ?_⟩
  · have hversions := congrArg (List.map (·.componentVersion)) hkeys
    simpa [Function.comp_def, key] using hversions
  · intro hincreasing
    have hpairs : (commits.map (·.key)).Pairwise fun k l =>
        k.componentName = l.componentName ∧
          k.componentVersion.branch = l.componentVersion.branch →
        counted k.componentVersion < counted l.componentVersion := List.pairwise_map.mpr hincreasing
    rw [hkeys] at hpairs
    simp [key, counted] at hpairs
  · rw [hkeys]
    simp

end LibraryManager

end SecCask.Pipeman
