import SecCask.Pipeman.FileSystemAtomic
import SecCask.Pipeman.Pep249Storage

/-!
# SecCask.Pipeman.MissingVersions

`StringStorage.get_version` and `FileStorage.get_version` over the two physical storages. Both
turn an absent value into a `KeyError`. The database reports a version that it does not have
as absent; the file system storage looks up an empty path instead, and fails to open it.
-/

namespace SecCask.Pipeman

/-- What a storage layer calls: `get` of its physical storage. -/
abbrev PhysicalGet := String → Option String → Option String → TransferDType →
  Except StorageError (Option (Value ByteArray))

/-- `get_version` of a storage layer that transfers values in one way. -/
def getVersionAs (dtype : TransferDType) (phyGet : PhysicalGet) (key hashedVersion : String) :
    Except StorageError (Value ByteArray) := do
  match ← phyGet key none (some hashedVersion) dtype with
  | none => throw .keyError
  | some value => return value

/-- `StringStorage.get_version` -/
def StringStorage.getVersion (phyGet : PhysicalGet) (key hashedVersion : String) :
    Except StorageError (Value ByteArray) :=
  getVersionAs .string phyGet key hashedVersion

/-- `FileStorage.get_version` -/
def FileStorage.getVersion (phyGet : PhysicalGet) (key hashedVersion : String) :
    Except StorageError (Value ByteArray) :=
  getVersionAs .file phyGet key hashedVersion

/-- `get_version` of the storage layer that transfers values in this way. -/
def getVersion (dtype : TransferDType) : PhysicalGet → String → String →
    Except StorageError (Value ByteArray) :=
  match dtype with
  | .string => StringStorage.getVersion
  | .file => FileStorage.getVersion

theorem getVersion_eq (dtype : TransferDType) : getVersion dtype = getVersionAs dtype := by
  cases dtype <;> rfl

open FileSystemStorage (Put Host Store)

/-- A version that no put on the key has returned is a `KeyError`, and for any other version
the value that was put is returned. -/
structure ReportsMissing (puts : List Put) (key hashedVersion : String) (dtype : TransferDType)
    (result : Except StorageError (Value ByteArray)) : Prop where
  missing : (∀ p ∈ puts, p.key = key → p.hversion.text ≠ hashedVersion) →
    result = .error .keyError
  found : ∀ p ∈ puts, p.key = key → p.hversion.text = hashedVersion →
    ∃ value, result = .ok value ∧ FileSystemStorage.Shows dtype p.value.bytes value

theorem HVersion.text_injective : Function.Injective HVersion.text := fun _ _ h =>
  HVersion.name_injective (congrArg String.toList h)

/-- Among puts with different versions the version tells the put. -/
theorem eq_of_hversion_text {puts : List Put} (hnodup : (puts.map (·.hversion)).Nodup)
    {p q : Put} (hp : p ∈ puts) (hq : q ∈ puts) (h : p.hversion.text = q.hversion.text) : p = q :=
  List.inj_on_of_nodup_map hnodup hp hq (HVersion.text_injective h)

/-- For a version that a put has returned, the report is about its value. -/
theorem reportsMissing_of_mem {puts : List Put} (hnodup : (puts.map (·.hversion)).Nodup)
    {p : Put} (hp : p ∈ puts) {dtype : TransferDType}
    {result : Except StorageError (Value ByteArray)} :
    ReportsMissing puts p.key p.hversion.text dtype result ↔
      ∃ value, result = .ok value ∧ FileSystemStorage.Shows dtype p.value.bytes value := by
  constructor
  · intro h
    exact h.found p hp rfl rfl
  · intro h
    refine ⟨fun habsent => absurd rfl (habsent p hp rfl), fun q hq _ hversion => ?_⟩
    obtain rfl := eq_of_hversion_text hnodup hq hp hversion
    exact h

/-! ### Over the file system -/

namespace FileSystemStorage

variable {host : Host} {s : Store}

/-- A get by version never reports an absent value. -/
theorem getVersionAs_ne_keyError (host : Host) (t : Tree) (now key hashedVersion : String)
    (dtype : TransferDType) :
    getVersionAs dtype (get host t now) key hashedVersion ≠ .error .keyError := by
  rw [getVersionAs, get, getFilePath]
  rcases getPathFromHashedVersion host t key hashedVersion with e | location
  · intro h
    cases h
  · show (do
      match ← (do
        let content ← (readGeneric t location).mapError StorageError.file
        return some (← transfer host now key none dtype content)) with
      | none => throw StorageError.keyError
      | some value => return value) ≠ _
    rcases readGeneric t location with e | content
    · intro h
      cases h
    · show (do
        match ← (do return some (← transfer host now key none dtype content)) with
        | none => throw StorageError.keyError
        | some value => return value) ≠ _
      rcases htransfer : transfer host now key none dtype content with e | value
      · intro h
        have he : e = .keyError := Except.error.inj h
        subst he
        unfold transfer at htransfer
        split at htransfer
        · split at htransfer
          · cases htransfer
          · cases htransfer
        · rcases hread : readText content with e | text <;> rw [hread] at htransfer
          · cases htransfer
          · cases htransfer
      · intro h
        cases h

theorem getVersionAs_of_get {phyGet : PhysicalGet} {key hashedVersion : String}
    {dtype : TransferDType} {x : Except StorageError (Value ByteArray)}
    (h : phyGet key none (some hashedVersion) dtype = x.map some) :
    getVersionAs dtype phyGet key hashedVersion = x := by
  rw [getVersionAs, h]
  rcases x with e | value <;> rfl

/-- After any puts that keep clear of each other, a version is reported as it should be exactly
if a put on the key has returned it, from a branch whose folder lies right in the folder of the
key, and its value can be transferred. -/
theorem reportsMissing_iff (hinv : Inv host s) (hnodup : (s.returned.map (·.hversion)).Nodup)
    (hcwd : s.disk.tree.lookup (genericFileName :: host.cwd) = none)
    {now key hashedVersion : String} {dtype : TransferDType} :
    ReportsMissing s.returned key hashedVersion dtype
        (getVersionAs dtype (get host s.disk.tree now) key hashedVersion) ↔
      ∃ p ∈ s.returned, p.key = key ∧ p.hversion.text = hashedVersion ∧
        (∃ name, p.remoteDir host = name :: keyDir host p.key) ∧
        Readable host now key none dtype p.value.bytes := by
  -- For a version that was returned, what is read is decided by where its branch folder lies.
  have hreturned : ∀ p ∈ s.returned, ((∃ value,
      getVersionAs dtype (get host s.disk.tree now) p.key p.hversion.text = .ok value ∧
        Shows dtype p.value.bytes value) ↔
      (∃ name, p.remoteDir host = name :: keyDir host p.key) ∧
        Readable host now p.key none dtype p.value.bytes) := by
    intro p hp
    by_cases hchild : ∃ name, p.remoteDir host = name :: keyDir host p.key
    · obtain ⟨name, hname⟩ := hchild
      rw [getVersionAs_of_get (get_version_of_child hinv hp hname now dtype), shows_transfer_iff]
      exact ⟨fun hread => ⟨⟨name, hname⟩, hread⟩, And.right⟩
    · have hnot := get_version_of_not_child hinv hcwd hp (not_exists.mp hchild) now dtype
      rw [getVersionAs_of_get (x := .error (.file .missing)) hnot]
      simp [hchild]
  constructor
  · intro h
    by_cases hpresent : ∃ p ∈ s.returned, p.key = key ∧ p.hversion.text = hashedVersion
    · obtain ⟨p, hp, rfl, rfl⟩ := hpresent
      exact ⟨p, hp, rfl, rfl, (hreturned p hp).mp (h.found p hp rfl rfl)⟩
    · refine absurd (h.missing fun p hp hkey hversion => hpresent ⟨p, hp, hkey, hversion⟩) ?_
      exact getVersionAs_ne_keyError host _ _ _ _ _
  · intro h
    obtain ⟨p, hp, rfl, rfl, hfound⟩ := h
    exact (reportsMissing_of_mem hnodup hp).mpr ((hreturned p hp).mpr hfound)

end FileSystemStorage

/-! ### Over the database -/

namespace Pep249Storage

open FileSystemStorage (Shows getVersionAs_of_get)

variable {server : Server}

/-- The tables after some puts. -/
def tablesOf (server : Server) (puts : List Put) : Tables := puts.foldl (put server) {}

theorem blobstore_put (t : Tables) (p : Put) :
    (put server t p).blobstore =
      t.blobstore ++ [⟨p.key, p.branch, p.hversion.text, p.value.bytes⟩] := by
  rw [put, setHeadVersion]
  split
  · rfl
  · rfl

theorem blobstore_tablesOf (puts : List Put) :
    (tablesOf server puts).blobstore =
      puts.map fun p => ⟨p.key, p.branch, p.hversion.text, p.value.bytes⟩ := by
  have hfold : ∀ t : Tables, (puts.foldl (put server) t).blobstore =
      t.blobstore ++ puts.map fun p => ⟨p.key, p.branch, p.hversion.text, p.value.bytes⟩ := by
    induction puts with
    | nil => simp
    | cons p puts ih =>
        intro t
        rw [List.foldl_cons, ih, blobstore_put, List.append_assoc, List.map_cons,
          List.singleton_append]
  rw [tablesOf, hfold]
  rfl

/-- The comparison in the `SELECT` of `get`. -/
def selects (server : Server) (key hashedVersion : String) (p : Put) : Bool :=
  server.collates p.key key && server.collates p.hversion.text hashedVersion

theorem getVersionAs_tablesOf (puts : List Put) (now key hashedVersion : String)
    (dtype : TransferDType) :
    getVersionAs dtype (get server (tablesOf server puts) now) key hashedVersion =
      (puts.find? (selects server key hashedVersion)).elim (.error .keyError) fun p =>
        transfer server now key none dtype p.value.bytes := by
  have hfind : (tablesOf server puts).blobstore.find? (fun row =>
        server.collates row.key key && server.collates row.hversion hashedVersion) =
      (puts.find? (selects server key hashedVersion)).map fun p =>
        ⟨p.key, p.branch, p.hversion.text, p.value.bytes⟩ := by
    rw [blobstore_tablesOf, List.find?_map]
    rfl
  rcases hrow : puts.find? (selects server key hashedVersion) with _ | p <;> rw [hrow] at hfind
  · have hget : get server (tablesOf server puts) now key none (some hashedVersion) dtype =
        .ok none := by
      unfold get
      dsimp only [getVersionToFind, bind, Except.bind]
      rw [hfind]
      rfl
    rw [getVersionAs, hget]
    rfl
  · refine getVersionAs_of_get ?_
    unfold get
    dsimp only [getVersionToFind, bind, Except.bind]
    rw [hfind]
    rfl

/-- The content can be transferred: the temporary file can be written, and for a string it is a
text that text mode keeps. -/
def Readable (server : Server) (now key : String) (dtype : TransferDType)
    (content : ByteArray) : Prop :=
  server.opensTemp (tempFile now key none) = true ∧
    (dtype = .string → FileSystemStorage.IsText content)

theorem shows_transfer_iff {now key : String} {dtype : TransferDType} {content : ByteArray} :
    (∃ value, transfer server now key none dtype content = .ok value ∧
      Shows dtype content value) ↔ Readable server now key dtype content := by
  unfold transfer Readable
  by_cases hopens : server.opensTemp (tempFile now key none) = true
  · simp only [hopens, if_true, true_and]
    cases dtype with
    | file => simp [Shows, Value.dtype, Value.bytes]
    | string =>
        rw [FileSystemStorage.shows_readText_iff]
        simp
  · simp [hopens]

theorem transfer_ne_keyError (server : Server) (now key : String) (dtype : TransferDType)
    (content : ByteArray) : transfer server now key none dtype content ≠ .error .keyError := by
  unfold transfer
  split
  · split
    · intro h
      cases h
    · rcases readText content with e | text
      · intro h
        cases h
      · intro h
        cases h
  · intro h
    cases h

theorem selects_self (server : Server) (p : Put) :
    selects server p.key p.hversion.text p = true := by
  rw [selects, server.collates_refl, server.collates_refl]
  rfl

/-- What a version selects, when a put on the key has returned it. -/
theorem find?_selects {puts : List Put} (hnodup : (puts.map (·.hversion)).Nodup) {p : Put}
    (hp : p ∈ puts) : puts.find? (selects server p.key p.hversion.text) = some p := by
  rcases hfind : puts.find? (selects server p.key p.hversion.text) with _ | q
  · exact absurd (selects_self server p) (List.find?_eq_none.mp hfind p hp)
  · have hselects := List.find?_some hfind
    rw [selects, Bool.and_eq_true] at hselects
    have hversion := server.collates_digest _ _ hselects.2
    rw [eq_of_hversion_text hnodup (List.mem_of_find?_eq_some hfind) hp
      (congrArg HVersion.text hversion)]

/-- A version is reported as it should be exactly if a put on the key has returned it and its
value can be transferred, or if no row compares as equal to it. -/
theorem reportsMissing_iff {puts : List Put} (hnodup : (puts.map (·.hversion)).Nodup)
    {now key hashedVersion : String} {dtype : TransferDType} :
    ReportsMissing puts key hashedVersion dtype
        (getVersionAs dtype (get server (tablesOf server puts) now) key hashedVersion) ↔
      (∃ p ∈ puts, p.key = key ∧ p.hversion.text = hashedVersion ∧
        Readable server now key dtype p.value.bytes) ∨
      ∀ p ∈ puts, selects server key hashedVersion p = false := by
  rw [getVersionAs_tablesOf]
  by_cases hpresent : ∃ p ∈ puts, p.key = key ∧ p.hversion.text = hashedVersion
  · obtain ⟨p, hp, rfl, rfl⟩ := hpresent
    rw [find?_selects hnodup hp, Option.elim_some, reportsMissing_of_mem hnodup hp,
      shows_transfer_iff]
    constructor
    · intro hread
      exact Or.inl ⟨p, hp, rfl, rfl, hread⟩
    · intro h
      rcases h with ⟨q, hq, -, hversion, hread⟩ | hnone
      · obtain rfl := eq_of_hversion_text hnodup hq hp hversion
        exact hread
      · have hself := hnone p hp
        rw [selects_self] at hself
        cases hself
  · have habsent : ∀ p ∈ puts, p.key = key → p.hversion.text ≠ hashedVersion :=
      fun p hp hkey hversion => hpresent ⟨p, hp, hkey, hversion⟩
    constructor
    · intro h
      have hmissing := h.missing habsent
      rcases hfind : puts.find? (selects server key hashedVersion) with _ | p <;>
        rw [hfind] at hmissing
      · exact Or.inr fun p hp => by simpa using List.find?_eq_none.mp hfind p hp
      · exact absurd hmissing (transfer_ne_keyError _ _ _ _ _)
    · intro h
      rcases h with ⟨p, hp, hkey, hversion, -⟩ | hnone
      · exact absurd hversion (habsent p hp hkey)
      · have hfind : puts.find? (selects server key hashedVersion) = none :=
          List.find?_eq_none.mpr fun p hp => by simp [hnone p hp]
        rw [hfind]
        exact ⟨fun _ => rfl, fun p hp hkey hversion => absurd hversion (habsent p hp hkey)⟩

end Pep249Storage

/-! ### Both -/

open FileSystemStorage (step start rootHost emptyStore putOne repeatedDigit keyDir KeepsClear)

/-- **Missing versions.** In a run whose puts keep clear of each other, both storages report a
version as they should exactly if both have it, the file system storage in a branch folder of
the key, and can transfer its value. -/
theorem bothReportMissing_iff {host : Host} (server : Pep249Storage.Server) {s : Store}
    {d : FileSystemStorage.FileSystem} {puts dbPuts : List Put}
    (hcwd : d.tree.lookup (FileSystemStorage.genericFileName :: host.cwd) = none)
    (hrun : Exec (step host) (start d) (puts.map (Put.call host)) s)
    (hclear : Along (step host) (fun s c => KeepsClear host s c ∧ c.put.Elsewhere host) (start d)
      (puts.map (Put.call host)))
    (hnodup : (dbPuts.map (·.hversion)).Nodup) {now key hashedVersion : String}
    {dtype : TransferDType} :
    ReportsMissing s.returned key hashedVersion dtype
        (getVersion dtype (FileSystemStorage.get host s.disk.tree now) key hashedVersion) ∧
      ReportsMissing dbPuts key hashedVersion dtype
        (getVersion dtype (Pep249Storage.get server (Pep249Storage.tablesOf server dbPuts) now)
          key hashedVersion) ↔
    (∃ p ∈ s.returned, p.key = key ∧ p.hversion.text = hashedVersion ∧
      (∃ name, p.remoteDir host = name :: keyDir host p.key) ∧
      FileSystemStorage.Readable host now key none dtype p.value.bytes) ∧
    ((∃ p ∈ dbPuts, p.key = key ∧ p.hversion.text = hashedVersion ∧
      Pep249Storage.Readable server now key dtype p.value.bytes) ∨
      ∀ p ∈ dbPuts, Pep249Storage.selects server key hashedVersion p = false) := by
  obtain ⟨hinv, hversions, hcwd'⟩ := hrun.invariant_along
    (I := fun s => FileSystemStorage.Inv host s ∧ (s.returned.map (·.hversion)).Nodup ∧
      s.disk.tree.lookup (FileSystemStorage.genericFileName :: host.cwd) = none)
    (fun _ _ _ hinv hclear h =>
      ⟨FileSystemStorage.inv_step hinv.1 hclear.1 h,
        FileSystemStorage.nodup_step hinv.1 hinv.2.1 h,
        FileSystemStorage.cwd_step hinv.2.2 hclear.2 h⟩)
    hclear ⟨FileSystemStorage.inv_start d, List.nodup_nil, hcwd⟩
  rw [getVersion_eq]
  exact and_congr (FileSystemStorage.reportsMissing_iff hinv hversions hcwd')
    (Pep249Storage.reportsMissing_iff hnodup)

/-- A database that compares texts as they are. -/
def exactServer : Pep249Storage.Server where
  collates := fun a b => a = b
  collates_refl := by simp
  collates_digest := fun a b h => HVersion.text_injective (by simpa using h)
  opensTemp := fun _ => true

/-- A string is found again on both. -/
theorem putOne_reported :
    ∃ s, Exec (step rootHost) emptyStore [putOne.call rootHost] s ∧
      ReportsMissing s.returned "k" putOne.hversion.text .string
        (getVersion .string (FileSystemStorage.get rootHost s.disk.tree "0") "k"
          putOne.hversion.text) ∧
      ReportsMissing [putOne] "k" putOne.hversion.text .string
        (getVersion .string (Pep249Storage.get exactServer
          (Pep249Storage.tablesOf exactServer [putOne]) "0") "k" putOne.hversion.text) := by
  have hstart := FileSystemStorage.history_start FileSystemStorage.emptyBase_rootHost
  obtain ⟨s, hrun, hreturned, -⟩ := FileSystemStorage.exists_run_putOne
  have hclean : FileSystemStorage.StopsCleanly rootHost emptyStore (putOne.call rootHost) :=
    FileSystemStorage.stopsCleanly_rootHost hstart (by simp [emptyStore, start]) (by decide)
  have htext : FileSystemStorage.IsText putOne.value.bytes := ⟨"one", rfl, by decide⟩
  refine ⟨s, hrun, ?_⟩
  refine (bothReportMissing_iff exactServer (FileTree.lookup_empty (by simp))
    (show Exec (step rootHost) emptyStore ([putOne].map (Put.call rootHost)) s from hrun)
    ⟨⟨hclean.toKeepsClear, hclean.elsewhere⟩, fun _ _ => trivial⟩ (by simp)).mpr ⟨?_, Or.inl ?_⟩
  · refine ⟨putOne, by rw [hreturned]; simp, rfl, rfl, ⟨"b".toList, ?_⟩, htext⟩
    exact FileSystemStorage.Put.Plain.child FileSystemStorage.plain_kb
  · exact ⟨putOne, by simp, rfl, rfl, rfl, fun _ => htext⟩

/-- A version that was never returned is no `KeyError` over the file system. -/
theorem unknownVersion_not_reported :
    ∃ s, Exec (step rootHost) emptyStore [putOne.call rootHost] s ∧ s.returned = [putOne] ∧
      ¬ ReportsMissing s.returned "k" (repeatedDigit 'b' (by decide)).text .string
        (StringStorage.getVersion (FileSystemStorage.get rootHost s.disk.tree "0") "k"
          (repeatedDigit 'b' (by decide)).text) := by
  obtain ⟨s, hrun, hlog, -⟩ := FileSystemStorage.exists_run_putOne
  refine ⟨s, hrun, hlog, fun h => ?_⟩
  refine FileSystemStorage.getVersionAs_ne_keyError _ _ _ _ _ _ (h.missing ?_)
  intro p hp _
  rw [hlog, List.mem_singleton] at hp
  subst hp
  decide

end SecCask.Pipeman
