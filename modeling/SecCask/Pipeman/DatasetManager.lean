import Mathlib.Data.List.Sort
import Mathlib.Data.String.Basic
import SecCask.Lib.Csv
import SecCask.Lib.PyString
import SecCask.Lib.Utf8
import SecCask.Pipeman.ComponentStore

/-!
# SecCask.Pipeman.DatasetManager

`DatasetManager.create`, `get_meta` and `get_archive` of `pipeman/datasetmanager.py`. The branch
of a dataset is not chosen: it is the MD5 of its column names, or a marker for datasets that
have none. Along a branch the versions are counted one by one.
-/

namespace SecCask.Pipeman

open SecCask.ConfigParser (ConfigFile)

/-- A dataset's folder: its `.manifest`, and the text in a file by the file's name in the
manifest. -/
abbrev DatasetFolder := SourceFolder (String → Except PyError String)

/-- The text in a file of the folder. -/
abbrev SourceFolder.text (folder : DatasetFolder) : String → Except PyError String := folder.files

abbrev DatasetFile := ComponentFile (String → Except PyError String)

abbrev DatasetCommit := ComponentCommit (String → Except PyError String)

/-- The argument of `create` and the time of the call. -/
structure DatasetCall where
  source : DatasetFolder
  now : String

namespace DatasetMeta

open WorkspaceManager (setOption)
open MetaConfig (getOption)

def files (c : ConfigFile) : Except PyError (List String) := do
  let text ← getOption c "configuration" "files"
  return (PyString.split "," text.toList).map String.ofList

def schemaHash (c : ConfigFile) : Except PyError String :=
  getOption c "configuration" "schema-hash"

def setSchemaHash (c : ConfigFile) (value : String) : Except PyError ConfigFile :=
  setOption c "configuration" "schema-hash" value

end DatasetMeta

namespace DatasetManager

open ComponentStore (metaBranchHead)

/-! ### The branch -/

def notSchemaHashable : String := "not-schema-hashable"

/-- `hexdigest()` -/
def hexdigest (digest : Vector UInt8 16) : String :=
  String.ofList (digest.toList.flatMap fun b =>
    [(b.toNat / 16).digitChar, (b.toNat % 16).digitChar])

section Branch

variable (md5 : List UInt8 → Vector UInt8 16) (upper : String → String)

/-- `item.upper().replace(" ", "")` -/
def normalize (item : String) : String := PyString.replace " " "" (upper item)

/-- The column names in all files. -/
def headers (folder : DatasetFolder) (csvFiles : List String) : Except PyError (List String) := do
  let headers ← csvFiles.mapM fun fileName => do
    let text ← folder.text fileName
    match Csv.first text with
    | .ok (some header) => return header
    -- `headers.extend(None)`
    | .ok none => .error .typeError
    | .error _ => .error .external
  return headers.flatten

/-- The text that is hashed. -/
def schema (headers : List String) : String :=
  ";".intercalate ((headers.map (normalize upper)).insertionSort (· ≤ ·))

/-- `_cal_dataset_schema_hash` -/
def calDatasetSchemaHash (folder : DatasetFolder) (csvFiles : List String) :
    Except PyError String := do
  let headers ← headers folder csvFiles
  return hexdigest (md5 (Utf8.encode (schema upper headers)))

/-- `manifest_meta.schema_hash = value` and `manifest_meta.version.branch = …`: the version is
read for this alone, and forgotten again. -/
def refreshSchemaHash (c : ConfigFile) (value : String) : Except PyError ConfigFile := do
  let c ← DatasetMeta.setSchemaHash c value
  let _ ← DatasetMeta.schemaHash c
  let _ ← MetaConfig.version c
  return c

/-- The loop over the files, with the `file_list` that it makes. -/
def checkFiles (c : ConfigFile) : List String → Except PyError (ConfigFile × List String)
  | [] => .ok (c, [])
  | fileName :: rest =>
      if fileName = "all" then do
        let c ← refreshSchemaHash c notSchemaHashable
        return (c, [])
      else do
        let (c, fileList) ← checkFiles c rest
        return (c, fileName :: fileList)

/-- The first half of `create`: the manifest with its schema hash. -/
def refresh (folder : DatasetFolder) : Except PyError ConfigFile := do
  let c ← MetaConfig.init folder.manifest
  let files ← DatasetMeta.files c
  let (c, fileList) ← checkFiles c files
  let hash ← DatasetMeta.schemaHash c
  if hash = notSchemaHashable then return c
  else
    let hash ← calDatasetSchemaHash md5 upper folder fileList
    refreshSchemaHash c hash

end Branch

/-! ### Creating datasets -/

variable {σ : Type} (S : PhysicalStore σ DatasetFile)

/-- The version behind the branch's head. -/
def nextVersion (branch : String) (head : ConfigFile) : Except PyError SemanticVersion := do
  let datasetMeta ← MetaConfig.init head
  let currentLatest ← MetaConfig.version datasetMeta
  return ⟨branch, currentLatest.apiVersion, currentLatest.incVersion + 1⟩

/-- The body of the `try` block of `create`. -/
def versionFromHead (s : σ) (key : MetaKey) : Except PyError SemanticVersion := do
  let head ← metaBranchHead S s key
  nextVersion key.componentVersion.branch head

/-- The `try` block with its handler. -/
def proposedVersion (s : σ) (key : MetaKey) : Except PyError SemanticVersion :=
  match versionFromHead S s key with
  | .error .keyError => .ok ⟨key.componentVersion.branch, 0, 0⟩
  | result => result

/-- The two puts of `create`. -/
def commit (s : σ) (c : DatasetCommit) : σ := ComponentStore.commit S .datasetStorage s c

/-- The key under which the head of a branch is looked up. -/
def headKey (name branch : String) : MetaKey :=
  ⟨MetaKey.genericDatasetKey, name, ⟨branch, 0, 0⟩⟩

/-- `DatasetManager.create` -/
def create (md5 : List UInt8 → Vector UInt8 16) (upper : String → String) (s : σ)
    (call : DatasetCall) : Except PyError (σ × DatasetCommit) := do
  let c ← refresh md5 upper call.source
  let name ← MetaConfig.name c
  let branch ← DatasetMeta.schemaHash c
  let datasetKey := headKey name branch
  let proposed ← proposedVersion S s datasetKey
  -- the version in the manifest file is overwritten
  let c ← MetaConfig.setVersion c proposed
  let c ← MetaConfig.setCreatedTimestamp c call.now
  let committed : DatasetCommit :=
    ⟨{ datasetKey with componentVersion := proposed }, { call.source with manifest := c }⟩
  return (commit S s committed, committed)

/-- `get_meta` -/
def getMeta (s : σ) (key : MetaKey) : Except PyError ConfigFile := ComponentStore.getMeta S s key

/-- `get_archive`: the folder that is extracted. -/
def getArchive (s : σ) (key : MetaKey) : Except PyError DatasetFolder :=
  ComponentStore.getArchive S .datasetStorage s key

/-- A call of `create`, which changes nothing if it raises, with the commits so far, oldest
first. -/
def createStep (md5 : List UInt8 → Vector UInt8 16) (upper : String → String)
    (h : σ × List DatasetCommit) (call : DatasetCall) : σ × List DatasetCommit :=
  match create S md5 upper h.1 call with
  | .ok (s, committed) => (s, h.2 ++ [committed])
  | .error _ => h

/-- All calls, one after another. -/
def createAll (md5 : List UInt8 → Vector UInt8 16) (upper : String → String) (s : σ)
    (calls : List DatasetCall) : σ × List DatasetCommit :=
  calls.foldl (createStep S md5 upper) (s, [])

/-! ### What the branch is -/

/-- A branch that a version can be printed with, and that a config file takes as it is. -/
structure PlainBranch (branch : String) : Prop where
  ok : SemanticVersion.BranchOk branch
  percent : '%' ∉ branch.toList

theorem plainBranch_notSchemaHashable : PlainBranch notSchemaHashable :=
  ⟨by decide, by decide⟩

theorem exists_of_mem_hexdigest {digest : Vector UInt8 16} {c : Char}
    (hc : c ∈ (hexdigest digest).toList) : ∃ n < 16, c = n.digitChar := by
  rw [hexdigest, String.toList_ofList] at hc
  obtain ⟨b, -, hc⟩ := List.mem_flatMap.mp hc
  have hb : b.toNat < 256 := b.toNat_lt
  rcases List.mem_cons.mp hc with rfl | hc
  · exact ⟨b.toNat / 16, by omega, rfl⟩
  · exact ⟨b.toNat % 16, by omega, List.mem_singleton.mp hc⟩

theorem length_hexdigest (digest : Vector UInt8 16) : (hexdigest digest).toList.length = 32 := by
  simp [hexdigest, List.length_flatMap]

theorem plainBranch_hexdigest (digest : Vector UInt8 16) : PlainBranch (hexdigest digest) := by
  have hspace : ∀ n < 16, Regex.notSpace n.digitChar = true := by decide
  have hpercent : ∀ n < 16, '%' ≠ n.digitChar := by decide
  refine ⟨⟨?_, Regex.noSpace_iff.mpr fun c hc => ?_⟩, fun hc => ?_⟩
  · intro hempty
    have hlength := length_hexdigest digest
    rw [hempty] at hlength
    exact absurd hlength (by decide)
  · obtain ⟨n, hn, rfl⟩ := exists_of_mem_hexdigest hc
    exact hspace n hn
  · obtain ⟨n, hn, heq⟩ := exists_of_mem_hexdigest hc
    exact hpercent n hn heq

theorem hexdigest_ne_notSchemaHashable (digest : Vector UInt8 16) :
    hexdigest digest ≠ notSchemaHashable := by
  intro h
  have hlength := length_hexdigest digest
  rw [h] at hlength
  exact absurd hlength (by decide)

theorem notMem_percent_versionStr {v : SemanticVersion} (h : '%' ∉ v.branch.toList) :
    '%' ∉ v.versionStr.toList := by
  rw [SemanticVersion.toList_versionStr, List.mem_append]
  rintro (hc | hc)
  · exact h hc
  · exact MetaKey.notMem_numbers (by decide) (by decide) _ _ hc

theorem schemaHash_of_refreshSchemaHash {c d : ConfigFile} {value : String}
    (hvalue : '%' ∉ value.toList) (h : refreshSchemaHash c value = .ok d) :
    DatasetMeta.schemaHash d = .ok value := by
  obtain ⟨c', hset, h⟩ := bind_eq_ok_iff.mp h
  obtain ⟨-, -, h⟩ := bind_eq_ok_iff.mp h
  obtain ⟨-, -, h⟩ := bind_eq_ok_iff.mp h
  obtain rfl := Except.ok.inj h
  exact MetaConfig.getOption_of_setOption (by decide) (by decide) hvalue hset

theorem checkFiles_spec {c d : ConfigFile} {files fileList : List String}
    (h : checkFiles c files = .ok (d, fileList)) :
    "all" ∈ files ∧ refreshSchemaHash c notSchemaHashable = .ok d ∨
      "all" ∉ files ∧ d = c ∧ fileList = files := by
  induction files generalizing fileList with
  | nil =>
      obtain ⟨rfl, rfl⟩ := Prod.mk.inj (Except.ok.inj h)
      exact .inr ⟨by simp, rfl, rfl⟩
  | cons fileName rest ih =>
      rw [checkFiles] at h
      split at h
      · rename_i hall
        obtain ⟨d', hrefresh, h⟩ := bind_eq_ok_iff.mp h
        obtain ⟨rfl, -⟩ := Prod.mk.inj (Except.ok.inj h)
        exact .inl ⟨by simp [hall], hrefresh⟩
      · rename_i hall
        obtain ⟨⟨d', fileList'⟩, hrest, h⟩ := bind_eq_ok_iff.mp h
        obtain ⟨rfl, rfl⟩ := Prod.mk.inj (Except.ok.inj h)
        rcases ih hrest with ⟨hmem, hrefresh⟩ | ⟨hmem, rfl, rfl⟩
        · exact .inl ⟨List.mem_cons_of_mem _ hmem, hrefresh⟩
        · exact .inr ⟨by simp [hmem, Ne.symm hall], rfl, rfl⟩

/-- A dataset without columns: one of its files is `all`, or its manifest has the marker, for
example from an earlier creation. -/
def NotHashable (folder : DatasetFolder) : Prop :=
  ∃ c files, MetaConfig.init folder.manifest = .ok c ∧ DatasetMeta.files c = .ok files ∧
    ("all" ∈ files ∨ DatasetMeta.schemaHash c = .ok notSchemaHashable)

theorem notHashable_iff {folder : DatasetFolder} {c : ConfigFile} {files : List String}
    (hinit : MetaConfig.init folder.manifest = .ok c) (hfiles : DatasetMeta.files c = .ok files) :
    NotHashable folder ↔ "all" ∈ files ∨ DatasetMeta.schemaHash c = .ok notSchemaHashable := by
  constructor
  · rintro ⟨c', files', hinit', hfiles', hmarked⟩
    obtain rfl := Except.ok.inj (hinit.symm.trans hinit')
    obtain rfl := Except.ok.inj (hfiles.symm.trans hfiles')
    exact hmarked
  · exact fun hmarked => ⟨c, files, hinit, hfiles, hmarked⟩

/-- The column names in the files that the manifest lists. -/
def columns (folder : DatasetFolder) : Except PyError (List String) := do
  let c ← MetaConfig.init folder.manifest
  let files ← DatasetMeta.files c
  headers folder files

variable {md5 : List UInt8 → Vector UInt8 16} {upper : String → String}

theorem refresh_spec {folder : DatasetFolder} {d : ConfigFile}
    (h : refresh md5 upper folder = .ok d) :
    NotHashable folder ∧ DatasetMeta.schemaHash d = .ok notSchemaHashable ∨
      ¬ NotHashable folder ∧ ∃ names, columns folder = .ok names ∧
        DatasetMeta.schemaHash d = .ok (hexdigest (md5 (Utf8.encode (schema upper names)))) := by
  obtain ⟨c, hinit, hrest⟩ := bind_eq_ok_iff.mp h
  obtain ⟨files, hfiles, hrest⟩ := bind_eq_ok_iff.mp hrest
  obtain ⟨⟨c', fileList⟩, hcheck, hrest⟩ := bind_eq_ok_iff.mp hrest
  obtain ⟨hash, hhash, hd⟩ := bind_eq_ok_iff.mp hrest
  clear h hrest
  have hnot := notHashable_iff hinit hfiles
  rcases checkFiles_spec hcheck with ⟨hall, hrefresh⟩ | ⟨hall, rfl, rfl⟩
  · have hmarker := schemaHash_of_refreshSchemaHash plainBranch_notSchemaHashable.percent hrefresh
    obtain rfl := Except.ok.inj (hmarker.symm.trans hhash)
    rw [if_pos rfl] at hd
    obtain rfl := Except.ok.inj hd
    exact .inl ⟨hnot.mpr (.inl hall), hmarker⟩
  · split at hd
    · rename_i hmarker
      subst hmarker
      obtain rfl := Except.ok.inj hd
      exact .inl ⟨hnot.mpr (.inr hhash), hhash⟩
    · rename_i hmarker
      obtain ⟨digest, hdigest, hd⟩ := bind_eq_ok_iff.mp hd
      obtain ⟨names, hnames, hdigest⟩ := bind_eq_ok_iff.mp hdigest
      obtain rfl := Except.ok.inj hdigest
      refine .inr ⟨?_, names, ?_, schemaHash_of_refreshSchemaHash
        (plainBranch_hexdigest _).percent hd⟩
      · rw [hnot]
        rintro (hmem | hmarked)
        · exact hall hmem
        · exact hmarker (Except.ok.inj (hhash.symm.trans hmarked))
      · exact bind_eq_ok_iff.mpr ⟨_, hinit, bind_eq_ok_iff.mpr ⟨_, hfiles, hnames⟩⟩

theorem plainBranch_of_refresh {folder : DatasetFolder} {d : ConfigFile} {branch : String}
    (h : refresh md5 upper folder = .ok d) (hbranch : DatasetMeta.schemaHash d = .ok branch) :
    PlainBranch branch := by
  rcases refresh_spec h with ⟨-, hhash⟩ | ⟨-, names, -, hhash⟩
  · rw [← Except.ok.inj (hhash.symm.trans hbranch)]
    exact plainBranch_notSchemaHashable
  · rw [← Except.ok.inj (hhash.symm.trans hbranch)]
    exact plainBranch_hexdigest _

theorem optionxform_of_refreshSchemaHash {c d : ConfigFile} {value : String}
    (h : refreshSchemaHash c value = .ok d) : d.optionxform = c.optionxform := by
  obtain ⟨c', hset, h⟩ := bind_eq_ok_iff.mp h
  obtain ⟨-, -, h⟩ := bind_eq_ok_iff.mp h
  obtain ⟨-, -, h⟩ := bind_eq_ok_iff.mp h
  obtain rfl := Except.ok.inj h
  exact ConfigFile.optionxform_of_set (mapError_eq_ok_iff.mp hset)

theorem optionxform_of_refresh {folder : DatasetFolder} {d : ConfigFile}
    (h : refresh md5 upper folder = .ok d) : d.optionxform = folder.manifest.optionxform := by
  obtain ⟨c, hinit, h⟩ := bind_eq_ok_iff.mp h
  obtain ⟨files, -, h⟩ := bind_eq_ok_iff.mp h
  obtain ⟨⟨c', fileList⟩, hcheck, h⟩ := bind_eq_ok_iff.mp h
  obtain ⟨hash, -, h⟩ := bind_eq_ok_iff.mp h
  have hc' : c'.optionxform = c.optionxform := by
    rcases checkFiles_spec hcheck with ⟨-, hrefresh⟩ | ⟨-, rfl, -⟩
    · exact optionxform_of_refreshSchemaHash hrefresh
    · rfl
  rw [← MetaConfig.optionxform_of_init hinit, ← hc']
  split at h
  · rw [Except.ok.inj h]
  · obtain ⟨digest, -, h⟩ := bind_eq_ok_iff.mp h
    exact optionxform_of_refreshSchemaHash h

/-! ### One creation -/

variable {S}

theorem branch_of_proposedVersion {s : σ} {key : MetaKey} {v : SemanticVersion}
    (h : proposedVersion S s key = .ok v) : v.branch = key.componentVersion.branch := by
  unfold proposedVersion at h
  split at h
  · rw [← Except.ok.inj h]
  · obtain ⟨head, -, h⟩ := bind_eq_ok_iff.mp h
    obtain ⟨c, -, h⟩ := bind_eq_ok_iff.mp h
    obtain ⟨latest, -, h⟩ := bind_eq_ok_iff.mp h
    rw [← Except.ok.inj h]

/-- The line of a commit: its dataset and its branch. -/
def lineKey (c : DatasetCommit) : MetaKey :=
  headKey c.key.componentName c.key.componentVersion.branch

/-- What a call commits. -/
structure CommittedBy (md5 : List UInt8 → Vector UInt8 16) (upper : String → String)
    (call : DatasetCall) (c : DatasetCommit) : Prop where
  componentType : c.key.componentType = MetaKey.genericDatasetKey
  branch : ∃ d, refresh md5 upper call.source = .ok d ∧
    MetaConfig.name d = .ok c.key.componentName ∧
    DatasetMeta.schemaHash d = .ok c.key.componentVersion.branch
  text : c.folder.text = call.source.text
  version : MetaConfig.KeepsVersion call.source.manifest →
    c.folder.manifest.get "identifier" "version" = .ok c.key.componentVersion.versionStr

/-- What a successful `create` does. -/
theorem create_spec {s s' : σ} {call : DatasetCall} {c : DatasetCommit}
    (h : create S md5 upper s call = .ok (s', c)) :
    s' = commit S s c ∧ CommittedBy md5 upper call c ∧
      proposedVersion S s (lineKey c) = .ok c.key.componentVersion := by
  obtain ⟨d, hrefresh, hrest⟩ := bind_eq_ok_iff.mp h
  obtain ⟨name, hname, hrest⟩ := bind_eq_ok_iff.mp hrest
  obtain ⟨branch, hbranch, hrest⟩ := bind_eq_ok_iff.mp hrest
  obtain ⟨proposed, hproposed, hrest⟩ := bind_eq_ok_iff.mp hrest
  obtain ⟨d₁, hversion, hrest⟩ := bind_eq_ok_iff.mp hrest
  obtain ⟨d₂, hnow, hrest⟩ := bind_eq_ok_iff.mp hrest
  obtain ⟨rfl, rfl⟩ := Prod.mk.inj (Except.ok.inj hrest)
  have hsame : proposed.branch = branch := branch_of_proposedVersion hproposed
  have hplain := plainBranch_of_refresh hrefresh hbranch
  refine ⟨rfl, ⟨rfl, ⟨d, hrefresh, hname, ?_⟩, rfl, fun hkeeps => ?_⟩, ?_⟩
  · rw [hbranch, ← hsame]
  · have hsource : MetaConfig.KeepsVersion d := by
      rw [MetaConfig.KeepsVersion, optionxform_of_refresh hrefresh]
      exact hkeeps
    exact ConfigFile.get_of_raw (MetaConfig.raw_version hversion hnow hsource)
      (notMem_percent_versionStr (by rw [hsame]; exact hplain.percent))
  · show proposedVersion S s (headKey name proposed.branch) = .ok proposed
    rw [hsame, hproposed]

/-- The version that is `n` behind another. -/
def later (v : SemanticVersion) (n : ℕ) : SemanticVersion :=
  { v with incVersion := v.incVersion + n }

/-- The commits for a dataset on a branch. -/
def OnLine (name branch : String) (c : DatasetCommit) : Prop :=
  c.key.componentName = name ∧ c.key.componentVersion.branch = branch

instance (name branch : String) : DecidablePred (OnLine name branch) :=
  fun _ => inferInstanceAs (Decidable (_ ∧ _))

/-- How many of the commits are on the line of `c`. -/
def behind (commits : List DatasetCommit) (c : DatasetCommit) : ℕ :=
  commits.countP fun d => OnLine c.key.componentName c.key.componentVersion.branch d

/-- A manifest of the dataset `users` with its files. -/
def exampleManifest (files : String) : ConfigFile :=
  (((ConfigFile.empty String.toLower).define "identifier" "name" "users").define
    "identifier" "version" "master.0.0").define "configuration" "files" files |>.define
    "configuration" "schema-hash" ""

/-- One file with two columns. -/
def oneFile : DatasetFolder where
  manifest := exampleManifest "users.csv"
  files := fun _ => .ok "Id,First Name\r\n1,a\r\n"

/-- The same columns in two files. -/
def twoFiles : DatasetFolder where
  manifest := exampleManifest "names.csv,ids.csv"
  files := fun fileName => .ok (if fileName = "ids.csv" then "ID" else "\"firstname\"\na\n")

/-- The digest of `FIRSTNAME;ID`. -/
def exampleMd5 (_ : List UInt8) : Vector UInt8 16 :=
  #v[131, 41, 168, 4, 69, 30, 1, 37, 120, 80, 34, 204, 19, 125, 215, 107]

/-- A dataset without columns. -/
def withoutColumns : DatasetFolder where
  manifest := exampleManifest "all"
  files := fun _ => .error .external

/-- Two creations on the branch of datasets without columns, with one on another branch between
them. -/
def threeCreates : List DatasetCall :=
  [⟨withoutColumns, "1.0"⟩, ⟨oneFile, "2.0"⟩, ⟨withoutColumns, "3.0"⟩]

theorem eq_of_digits {x y : UInt8} (hhigh : (x.toNat / 16).digitChar = (y.toNat / 16).digitChar)
    (hlow : (x.toNat % 16).digitChar = (y.toNat % 16).digitChar) : x = y := by
  have hdigit : ∀ m < 16, ∀ n < 16, m.digitChar = n.digitChar → m = n := by decide
  have hx : x.toNat < 256 := x.toNat_lt
  have hy : y.toNat < 256 := y.toNat_lt
  have hhigh := hdigit _ (by omega) _ (by omega) hhigh
  have hlow := hdigit _ (by omega) _ (by omega) hlow
  exact UInt8.toNat_inj.mp (by omega)

theorem eq_of_flatMap_digits {a b : List UInt8}
    (h : (a.flatMap fun b => [(b.toNat / 16).digitChar, (b.toNat % 16).digitChar]) =
      b.flatMap fun b => [(b.toNat / 16).digitChar, (b.toNat % 16).digitChar]) : a = b := by
  induction a generalizing b with
  | nil =>
      cases b with
      | nil => rfl
      | cons y b => simp at h
  | cons x a ih =>
      cases b with
      | nil => simp at h
      | cons y b =>
          rw [List.flatMap_cons, List.flatMap_cons] at h
          obtain ⟨hfirst, hrest⟩ := List.append_inj h rfl
          obtain ⟨hhigh, hlow⟩ : (x.toNat / 16).digitChar = (y.toNat / 16).digitChar ∧
              (x.toNat % 16).digitChar = (y.toNat % 16).digitChar := by simpa using hfirst
          rw [eq_of_digits hhigh hlow, ih hrest]

theorem hexdigest_injective : Function.Injective hexdigest := fun _ _ h =>
  Vector.toList_inj.mp (eq_of_flatMap_digits (String.ofList_injective h))

/-- The columns can be told apart in the text that is hashed. -/
def PlainColumns (upper : String → String) (folder : DatasetFolder) : Prop :=
  ∀ names, columns folder = .ok names →
    names ≠ [] ∧ ∀ name ∈ names, ';' ∉ (normalize upper name).toList

/-- The digests of the two datasets do not collide. -/
def NoCollision (md5 : List UInt8 → Vector UInt8 16) (upper : String → String)
    (folder folder' : DatasetFolder) : Prop :=
  ∀ names names', columns folder = .ok names → columns folder' = .ok names' →
    md5 (Utf8.encode (schema upper names)) = md5 (Utf8.encode (schema upper names')) →
      schema upper names = schema upper names'

/-- The same columns, in any order, in any files, and up to case and blanks. -/
def SameColumns (upper : String → String) (folder folder' : DatasetFolder) : Prop :=
  ∃ names names', columns folder = .ok names ∧ columns folder' = .ok names' ∧
    (names.map (normalize upper)).Perm (names'.map (normalize upper))

theorem plainColumns_of_columns {folder : DatasetFolder} {names : List String}
    (h : columns folder = .ok names) (hnil : names ≠ [])
    (hnames : ∀ name ∈ names, ';' ∉ (normalize upper name).toList) : PlainColumns upper folder := by
  intro names' hnames'
  rw [← Except.ok.inj (h.symm.trans hnames')]
  exact ⟨hnil, hnames⟩

theorem schema_eq_of_perm {names names' : List String}
    (h : (names.map (normalize upper)).Perm (names'.map (normalize upper))) :
    schema upper names = schema upper names' := by
  have hsorted : (names.map (normalize upper)).insertionSort (· ≤ ·) =
      (names'.map (normalize upper)).insertionSort (· ≤ ·) :=
    List.Perm.eq_of_sortedLE List.sortedLE_insertionSort List.sortedLE_insertionSort
      ((List.perm_insertionSort _ _).trans (h.trans (List.perm_insertionSort _ _).symm))
  rw [schema, schema, hsorted]

theorem perm_of_schema_eq {names names' : List String} (hnil : names ≠ []) (hnil' : names' ≠ [])
    (hnames : ∀ name ∈ names, ';' ∉ (normalize upper name).toList)
    (hnames' : ∀ name ∈ names', ';' ∉ (normalize upper name).toList)
    (h : schema upper names = schema upper names') :
    (names.map (normalize upper)).Perm (names'.map (normalize upper)) := by
  have hsplit : ∀ l : List String, l ≠ [] →
      (∀ name ∈ l, ';' ∉ (normalize upper name).toList) →
      (schema upper l).toList.splitOn ';' =
        ((l.map (normalize upper)).insertionSort (· ≤ ·)).map String.toList := by
    intro l hl hmem
    rw [schema, String.toList_intercalate]
    refine List.splitOn_intercalate ';' ?_ fun hnil => hl ?_
    case refine_2 => simpa using congrArg List.length hnil
    intro text htext
    obtain ⟨item, hitem, rfl⟩ := List.mem_map.mp htext
    obtain ⟨name, hname, rfl⟩ := List.mem_map.mp ((List.mem_insertionSort (· ≤ ·)).mp hitem)
    exact hmem name hname
  have htexts := hsplit names hnil hnames
  rw [h, hsplit names' hnil' hnames'] at htexts
  have hsorted := List.map_injective_iff.mpr (fun _ _ => String.toList_injective) htexts
  refine (List.perm_insertionSort (· ≤ ·) _).symm.trans ?_
  rw [← hsorted]
  exact List.perm_insertionSort _ _

/-- **Branches are schemas.** Two creations come to the same branch exactly if both datasets are
without columns, or both have the same ones, in any order, in any files, and up to case and
blanks. -/
theorem branch_eq_iff {s s' t t' : σ} {call call' : DatasetCall} {c c' : DatasetCommit}
    (h : create S md5 upper s call = .ok (s', c))
    (h' : create S md5 upper t call' = .ok (t', c'))
    (hplain : PlainColumns upper call.source) (hplain' : PlainColumns upper call'.source)
    (hmd5 : NoCollision md5 upper call.source call'.source) :
    c.key.componentVersion.branch = c'.key.componentVersion.branch ↔
      NotHashable call.source ∧ NotHashable call'.source ∨
        ¬ NotHashable call.source ∧ ¬ NotHashable call'.source ∧
          SameColumns upper call.source call'.source := by
  obtain ⟨-, hcommitted, -⟩ := create_spec h
  obtain ⟨-, hcommitted', -⟩ := create_spec h'
  obtain ⟨d, hrefresh, -, hbranch⟩ := hcommitted.branch
  obtain ⟨d', hrefresh', -, hbranch'⟩ := hcommitted'.branch
  rcases refresh_spec hrefresh with ⟨hnot, hhash⟩ | ⟨hnot, names, hnames, hhash⟩
  · obtain hb := Except.ok.inj (hbranch.symm.trans hhash)
    rcases refresh_spec hrefresh' with ⟨hnot', hhash'⟩ | ⟨hnot', names', hnames', hhash'⟩
    · obtain hb' := Except.ok.inj (hbranch'.symm.trans hhash')
      simp [hnot, hnot', hb, hb']
    · obtain hb' := Except.ok.inj (hbranch'.symm.trans hhash')
      simp [hnot, hnot', hb, hb', (hexdigest_ne_notSchemaHashable _).symm]
  · obtain hb := Except.ok.inj (hbranch.symm.trans hhash)
    rcases refresh_spec hrefresh' with ⟨hnot', hhash'⟩ | ⟨hnot', names', hnames', hhash'⟩
    · obtain hb' := Except.ok.inj (hbranch'.symm.trans hhash')
      simp [hnot, hnot', hb, hb', hexdigest_ne_notSchemaHashable]
    · obtain hb' := Except.ok.inj (hbranch'.symm.trans hhash')
      simp only [hnot, hnot', hb, hb', false_and, false_or, not_false_eq_true, true_and]
      constructor
      · intro heq
        have hschema := hmd5 names names' hnames hnames' (hexdigest_injective heq)
        exact ⟨names, names', hnames, hnames', perm_of_schema_eq (hplain names hnames).1
          (hplain' names' hnames').1 (hplain names hnames).2 (hplain' names' hnames').2 hschema⟩
      · rintro ⟨columns₁, columns₂, h₁, h₂, hperm⟩
        obtain rfl := Except.ok.inj (hnames.symm.trans h₁)
        obtain rfl := Except.ok.inj (hnames'.symm.trans h₂)
        rw [schema_eq_of_perm hperm]

theorem exists_of_isOk {ε α β : Type} {x : Except ε (α × β)} (h : x.isOk = true) :
    ∃ a b, x = .ok (a, b) := by
  cases x with
  | error e => cases h
  | ok r => exact ⟨r.1, r.2, rfl⟩

theorem oneFile_hashable : ¬ NotHashable oneFile := by
  rw [notHashable_iff (MetaConfig.init_of_mem (by decide +kernel)) (by decide +kernel :
    DatasetMeta.files oneFile.manifest = .ok ["users.csv"])]
  decide +kernel

theorem oneFile_branch_eq : ∃ s c s' c',
    create (Storage.logStore DatasetFile) exampleMd5 String.toUpper [] ⟨oneFile, "1.0"⟩ =
      .ok (s, c) ∧
    create (Storage.logStore DatasetFile) exampleMd5 String.toUpper [] ⟨twoFiles, "2.0"⟩ =
      .ok (s', c') ∧
    c.key.componentVersion.branch = c'.key.componentVersion.branch := by
  obtain ⟨s, c, h⟩ := exists_of_isOk (by decide +kernel : (create (Storage.logStore DatasetFile)
    exampleMd5 String.toUpper [] ⟨oneFile, "1.0"⟩).isOk = true)
  obtain ⟨s', c', h'⟩ := exists_of_isOk (by decide +kernel : (create (Storage.logStore DatasetFile)
    exampleMd5 String.toUpper [] ⟨twoFiles, "2.0"⟩).isOk = true)
  have hone : columns oneFile = .ok ["Id", "First Name"] := by decide +kernel
  have htwo : columns twoFiles = .ok ["firstname", "ID"] := by decide +kernel
  have hplain : PlainColumns String.toUpper oneFile :=
    plainColumns_of_columns hone (by simp) (by decide +kernel)
  have hplain' : PlainColumns String.toUpper twoFiles :=
    plainColumns_of_columns htwo (by simp) (by decide +kernel)
  have hperm : (["Id", "First Name"].map (normalize String.toUpper)).Perm
      (["firstname", "ID"].map (normalize String.toUpper)) := by
    have hnames : ["Id", "First Name"].map (normalize String.toUpper) = ["ID", "FIRSTNAME"] := by
      decide +kernel
    have hnames' : ["firstname", "ID"].map (normalize String.toUpper) = ["FIRSTNAME", "ID"] := by
      decide +kernel
    rw [hnames, hnames']
    exact List.Perm.swap _ _ _
  have hcollision : NoCollision exampleMd5 String.toUpper oneFile twoFiles := by
    intro names names' hnames hnames' _
    obtain rfl := Except.ok.inj (hone.symm.trans hnames)
    obtain rfl := Except.ok.inj (htwo.symm.trans hnames')
    exact schema_eq_of_perm hperm
  have hhashable' : ¬ NotHashable twoFiles := by
    rw [notHashable_iff (MetaConfig.init_of_mem (by decide +kernel)) (by decide +kernel :
      DatasetMeta.files twoFiles.manifest = .ok ["names.csv", "ids.csv"])]
    decide +kernel
  exact ⟨s, c, s', c', h, h', (branch_eq_iff h h' hplain hplain' hcollision).mpr
    (.inr ⟨oneFile_hashable, hhashable', _, _, hone, htwo, hperm⟩)⟩

/-! ### Headers and rows -/

/-- The files begin with lines of plain fields, with any rows behind them. -/
def PlainHeaders (folder : DatasetFolder) (fields : String → List String) (files : List String) :
    Prop :=
  ∀ file ∈ files, (∀ field ∈ fields file, Csv.Plain field) ∧ fields file ≠ [] ∧
    fields file ≠ [""] ∧ ∃ lineBreak rows, Csv.IsLineBreak lineBreak ∧
      folder.text file = .ok (String.ofList (Csv.joined (fields file) ++ (lineBreak ++ rows)))

theorem headers_of_plainHeaders {folder : DatasetFolder} {fields : String → List String}
    {files : List String} (h : PlainHeaders folder fields files) :
    headers folder files = .ok (files.flatMap fields) := by
  have hmap : (files.mapM fun fileName => do
      let text ← folder.text fileName
      match Csv.first text with
      | .ok (some header) => return header
      | .ok none => .error PyError.typeError
      | .error _ => .error PyError.external) = .ok (files.map fields) := by
    induction files with
    | nil => rfl
    | cons file files ih =>
        obtain ⟨⟨hplain, hnil, hempty, lineBreak, rows, hbreak, htext⟩, hrest⟩ :=
          List.forall_mem_cons.mp h
        rw [List.mapM_cons, ih hrest, htext]
        simp only [bind, Except.bind, Csv.first_joined hplain hnil hempty hbreak]
        rfl
  rw [headers, hmap]
  rfl

/-- **Rows do not matter.** Where the files begin with plain header lines, the branch is the
digest of their fields, whatever the rows are. -/
theorem branch_of_plainHeaders {s s' : σ} {call : DatasetCall} {c : DatasetCommit}
    (h : create S md5 upper s call = .ok (s', c)) (hhashable : ¬ NotHashable call.source)
    {d : ConfigFile} {files : List String} (hinit : MetaConfig.init call.source.manifest = .ok d)
    (hfiles : DatasetMeta.files d = .ok files) {fields : String → List String}
    (hplain : PlainHeaders call.source fields files) :
    c.key.componentVersion.branch =
      hexdigest (md5 (Utf8.encode (schema upper (files.flatMap fields)))) := by
  obtain ⟨-, hcommitted, -⟩ := create_spec h
  obtain ⟨d', hrefresh, -, hbranch⟩ := hcommitted.branch
  rcases refresh_spec hrefresh with ⟨hnot, -⟩ | ⟨-, names, hnames, hhash⟩
  · exact absurd hnot hhashable
  · have hcolumns : columns call.source = .ok (files.flatMap fields) :=
      bind_eq_ok_iff.mpr ⟨d, hinit, bind_eq_ok_iff.mpr ⟨files, hfiles,
        headers_of_plainHeaders hplain⟩⟩
    obtain rfl := Except.ok.inj (hnames.symm.trans hcolumns)
    exact Except.ok.inj (hbranch.symm.trans hhash)

theorem oneFile_branch : ∃ s c,
    create (Storage.logStore DatasetFile) exampleMd5 String.toUpper [] ⟨oneFile, "1.0"⟩ =
      .ok (s, c) ∧
    c.key.componentVersion.branch =
      hexdigest (exampleMd5 (Utf8.encode (schema String.toUpper ["Id", "First Name"]))) := by
  obtain ⟨s, c, h⟩ := exists_of_isOk (by decide +kernel : (create (Storage.logStore DatasetFile)
    exampleMd5 String.toUpper [] ⟨oneFile, "1.0"⟩).isOk = true)
  have hfields : ∀ field ∈ ["Id", "First Name"], Csv.Plain field := by decide +kernel
  have htext : oneFile.text "users.csv" = .ok (String.ofList
      (Csv.joined ["Id", "First Name"] ++ (['\r', '\n'] ++ ['1', ',', 'a', '\r', '\n']))) := by
    decide +kernel
  have hplain : PlainHeaders oneFile (fun _ => ["Id", "First Name"]) ["users.csv"] := by
    intro file hfile
    rw [List.mem_singleton.mp hfile]
    exact ⟨hfields, by simp, by simp, _, _, .inr rfl, htext⟩
  exact ⟨s, c, h, branch_of_plainHeaders h oneFile_hashable
    (MetaConfig.init_of_mem (by decide +kernel)) (by decide +kernel) hplain⟩

end DatasetManager

end SecCask.Pipeman
