import SecCask.Pipeman.FileSystemInvariant

/-!
# SecCask.Pipeman.FileSystemLookup

What `get` returns in a tree that meets the invariant: by branch, and by hashed version, where
all branch folders of the key are searched.
-/

namespace SecCask.Pipeman.FileSystemStorage

open PosixPath

variable {host : Host} {s s' : Store} {c : PutCall} {t : Tree}

/-! ### Transfer -/

/-- The content is a text without carriage returns. -/
def IsText (content : ByteArray) : Prop :=
  ∃ text : String, content = text.toUTF8 ∧ '\r' ∉ text.toList

/-- The content can be transferred: the temporary copy can be made, or it is a text that text
mode keeps. -/
def Readable (host : Host) (now key : String) (branch : Option String) (dtype : TransferDType)
    (content : ByteArray) : Prop :=
  match dtype with
  | .file => host.opensTemp (remoteFile key branch now) = true
  | .string => IsText content

/-- The value is what the content stands for. -/
def Shows (dtype : TransferDType) (content : ByteArray) (value : Value ByteArray) : Prop :=
  value.dtype = dtype ∧ value.bytes = content

theorem shows_readText_iff {content : ByteArray} :
    (∃ value, ((readText content).map Value.string).mapError StorageError.file = .ok value ∧
      Shows .string content value) ↔ IsText content := by
  constructor
  · intro h
    obtain ⟨value, hvalue, hdtype, hbytes⟩ := h
    cases value with
    | file content' => cases hdtype
    | string raw =>
        have hcontent : content = raw.toUTF8 := hbytes.symm
        subst hcontent
        refine ⟨raw, rfl, readText_eq_self_iff.mp ?_⟩
        rcases hread : readText raw.toUTF8 with e | raw' <;> rw [hread] at hvalue
        · cases hvalue
        · cases hvalue
          rfl
  · intro h
    obtain ⟨text, rfl, hcr⟩ := h
    rw [readText_eq_self_iff.mpr hcr]
    exact ⟨.string text, rfl, rfl, rfl⟩

theorem shows_transfer_iff {now key : String} {branch : Option String} {dtype : TransferDType}
    {content : ByteArray} :
    (∃ value, transfer host now key branch dtype content = .ok value ∧ Shows dtype content value) ↔
      Readable host now key branch dtype content := by
  cases dtype with
  | file =>
      unfold transfer Readable
      by_cases hopens : host.opensTemp (remoteFile key branch now) = true
      · simp only [hopens, if_true, iff_true]
        exact ⟨.file content, rfl, rfl, rfl⟩
      · simp [hopens]
  | string => exact shows_readText_iff

/-! ### By branch -/

theorem getHeadVersion_of_none {key branch : String}
    (h : t.lookup (headFileName :: getPathFromBranch host key branch) = none) :
    getHeadVersion host t key branch = .ok none := by
  have hexists : t.pathExists (headFileName :: getPathFromBranch host key branch) = false := by
    rw [FileTree.pathExists, h]
    rfl
  rw [getHeadVersion, hexists]
  rfl

theorem getHeadVersion_of_folder {key branch : String}
    (h : t.lookup (headFileName :: getPathFromBranch host key branch) = some .folder) :
    getHeadVersion host t key branch = .error .isFolder := by
  have hexists : t.pathExists (headFileName :: getPathFromBranch host key branch) = true := by
    rw [FileTree.pathExists, h]
    rfl
  rw [getHeadVersion, hexists, FileTree.read, h]
  rfl

theorem getHeadVersion_of_file {key branch : String} {hversion : HVersion}
    (h : t.lookup (headFileName :: getPathFromBranch host key branch) =
      some (.file hversion.text.toUTF8)) :
    getHeadVersion host t key branch = .ok (some hversion.text) := by
  have hexists : t.pathExists (headFileName :: getPathFromBranch host key branch) = true := by
    rw [FileTree.pathExists, h]
    rfl
  rw [getHeadVersion, hexists, FileTree.read, h]
  show (do return some (← readText hversion.text.toUTF8)) = _
  rw [hversion.readText_text]
  rfl

/-- The file that holds a value is found from the folder of its branch. -/
theorem readGeneric_of_lookup {folder : Path} {hversion : HVersion} {content : ByteArray}
    (h : t.lookup (genericFileName :: hversion.name :: folder) = some (.file content)) :
    readGeneric t ⟨folder, hversion.text.toList⟩ = .ok content := by
  have hnewDir := t.parent _ _ (by rw [FileTree.lookup] at h; rw [h]; simp)
  have hfolder := t.parent _ _ (by rw [hnewDir]; simp)
  have hgeneric : IsName genericFileName := ⟨by decide, by decide, by decide, by decide⟩
  rw [readGeneric]
  dsimp only
  rw [← HVersion.name, hversion.isName.follow_join hgeneric hfolder hnewDir]
  show t.read _ = _
  rw [FileTree.read, h]

theorem get_branch_of_none {now key branch : String} {dtype : TransferDType}
    (h : t.lookup (headFileName :: getPathFromBranch host key branch) = none) :
    get host t now key (some branch) none dtype = .ok none := by
  rw [get, getFilePath, getHeadPathFromBranch, getHeadVersion_of_none h]
  rfl

theorem get_branch_of_folder {now key branch : String} {dtype : TransferDType}
    (h : t.lookup (headFileName :: getPathFromBranch host key branch) = some .folder) :
    get host t now key (some branch) none dtype = .error (.file .isFolder) := by
  rw [get, getFilePath, getHeadPathFromBranch, getHeadVersion_of_folder h]
  rfl

theorem get_branch_of_file {now key branch : String} {dtype : TransferDType}
    {hversion : HVersion} {content : ByteArray}
    (hhead : t.lookup (headFileName :: getPathFromBranch host key branch) =
      some (.file hversion.text.toUTF8))
    (hvalue : t.lookup (genericFileName :: hversion.name :: getPathFromBranch host key branch) =
      some (.file content)) :
    get host t now key (some branch) none dtype =
      (transfer host now key (some branch) dtype content).map some := by
  rw [get, getFilePath, getHeadPathFromBranch, getHeadVersion_of_file hhead]
  show (do
    let content ← (readGeneric t ⟨getPathFromBranch host key branch, _⟩).mapError StorageError.file
    return some (← transfer host now key (some branch) dtype content)) = _
  rw [readGeneric_of_lookup hvalue]
  rfl

/-! ### By hashed version -/

theorem existsIn_hversion {folder : Path} (hfolder : t.lookup folder = some .folder)
    (hversion : HVersion) :
    existsIn t folder hversion.text.toList = t.pathExists (hversion.name :: folder) := by
  rw [existsIn, ← HVersion.name, hversion.isName.follow hfolder]

/-- The branch folders of a key, in whatever order they are listed. -/
theorem mem_listBranch {key : String} {branches : List Path}
    (h : listBranch host t key = .ok branches) {branch : Path} :
    branch ∈ branches ↔
      ∃ name, branch = name :: keyDir host key ∧ t.lookup branch = some .folder := by
  unfold listBranch at h
  dsimp only at h
  split at h
  · obtain rfl := Except.ok.inj h
    simp only [List.mem_filter, List.mem_map, FileTree.isDir_iff,
      (host.scandir_perm _).mem_iff, FileTree.mem_children]
    constructor
    · intro hmem
      obtain ⟨⟨name, -, rfl⟩, hfolder⟩ := hmem
      exact ⟨name, rfl, hfolder⟩
    · intro hmem
      obtain ⟨name, rfl, hfolder⟩ := hmem
      exact ⟨⟨name, by simp [hfolder], rfl⟩, hfolder⟩
  · cases h

/-- A version that one branch folder of the key has, and no other, is found there. -/
theorem getPathFromHashedVersion_of_unique {key : String} {hversion : HVersion} {name : Name}
    (hexists : t.lookup (hversion.name :: name :: keyDir host key) ≠ none)
    (hunique : ∀ name', t.lookup (hversion.name :: name' :: keyDir host key) ≠ none →
      name' = name) :
    getPathFromHashedVersion host t key hversion.text =
      .ok ⟨name :: keyDir host key, hversion.text.toList⟩ := by
  have hbranch := t.parent _ _ hexists
  have hkey := t.parent _ _ (by rw [hbranch]; simp)
  obtain ⟨branches, hlist⟩ : ∃ branches, listBranch host t key = .ok branches :=
    ⟨_, if_pos (FileTree.isDir_iff.mpr hkey)⟩
  have hmem : name :: keyDir host key ∈ branches :=
    (mem_listBranch hlist).mpr ⟨name, rfl, hbranch⟩
  have hfound : existsIn t (name :: keyDir host key) hversion.text.toList = true := by
    rw [existsIn_hversion hbranch]
    exact FileTree.pathExists_iff.mpr hexists
  unfold getPathFromHashedVersion
  rw [hlist]
  dsimp only [bind, Except.bind]
  rcases hfind : branches.find? (existsIn t · hversion.text.toList) with _ | branch
  · exact absurd hfound (List.find?_eq_none.mp hfind _ hmem)
  · obtain ⟨name', rfl, hfolder⟩ := (mem_listBranch hlist).mp (List.mem_of_find?_eq_some hfind)
    have hsome := List.find?_some hfind
    rw [existsIn_hversion hfolder, FileTree.pathExists_iff] at hsome
    rw [hunique name' hsome]
    rfl

/-- A version that no branch folder of the key has is looked up in the current folder. -/
theorem getPathFromHashedVersion_of_missing {key : String} {hversion : HVersion}
    (hmissing : ∀ name, t.lookup (hversion.name :: name :: keyDir host key) = none) :
    getPathFromHashedVersion host t key hversion.text = .ok ⟨host.cwd, []⟩ ∨
      getPathFromHashedVersion host t key hversion.text = .error .missing := by
  unfold getPathFromHashedVersion
  rcases hlist : listBranch host t key with e | branches
  · have he : e = .missing := by
      unfold listBranch at hlist
      dsimp only at hlist
      split at hlist
      · cases hlist
      · exact (Except.error.inj hlist).symm
    subst he
    exact Or.inr rfl
  · have hnone : branches.find? (existsIn t · hversion.text.toList) = none := by
      rw [List.find?_eq_none]
      intro branch hbranch
      obtain ⟨name, rfl, hfolder⟩ := (mem_listBranch hlist).mp hbranch
      rw [existsIn_hversion hfolder, FileTree.pathExists_iff]
      exact fun h => h (hmissing name)
    refine Or.inl ?_
    dsimp only [bind, Except.bind]
    rw [hnone]
    rfl

theorem readGeneric_cwd (h : t.lookup (genericFileName :: host.cwd) = none) :
    readGeneric t ⟨host.cwd, []⟩ = .error .missing := by
  have hgeneric : IsName genericFileName := ⟨by decide, by decide, by decide, by decide⟩
  have hjoin : join [] genericFileName = genericFileName := by
    rw [join, if_neg (by simp [hgeneric.not_isAbs]), if_pos (Or.inl rfl), List.nil_append]
  unfold readGeneric
  dsimp only
  rw [hjoin]
  by_cases hcwd : t.lookup host.cwd = some .folder
  · rw [hgeneric.follow hcwd]
    show t.read _ = _
    rw [FileTree.read, h]
  · rw [follow, hgeneric.not_isAbs, hgeneric.components]
    simp only [Bool.false_eq_true, if_false, walk, if_neg hcwd]

/-- A version that a put has returned is found, if its branch folder is one of the folders of
its key. -/
theorem get_version_of_child (hinv : Inv host s) {p : Put} (hp : p ∈ s.returned) {name : Name}
    (hchild : p.remoteDir host = name :: keyDir host p.key) (now : String)
    (dtype : TransferDType) :
    get host s.disk.tree now p.key none (some p.hversion.text) dtype =
      (transfer host now p.key none dtype p.value.bytes).map some := by
  have hvalue := hinv.stored p hp
  have hnewDir : s.disk.tree.lookup (p.newDir host) = some .folder :=
    s.disk.tree.parent _ _ (by rw [← FileTree.lookup, ← Put.valueFile, hvalue]; simp)
  have hlocation : getPathFromHashedVersion host s.disk.tree p.key p.hversion.text =
      .ok ⟨name :: keyDir host p.key, p.hversion.text.toList⟩ :=
    getPathFromHashedVersion_of_unique (by rw [← hchild, ← Put.newDir, hnewDir]; simp)
      (fun name' h =>
        (List.cons.inj ((hinv.unique p (hinv.issued p hp) name' h).trans hchild)).1)
  rw [get, getFilePath, hlocation, ← hchild]
  show (do
    let content ← (readGeneric s.disk.tree ⟨p.remoteDir host, _⟩).mapError StorageError.file
    return some (← transfer host now p.key none dtype content)) = _
  rw [readGeneric_of_lookup hvalue]
  rfl

/-- Otherwise it is not found. -/
theorem get_version_of_not_child (hinv : Inv host s)
    (hcwd : s.disk.tree.lookup (genericFileName :: host.cwd) = none) {p : Put}
    (hp : p ∈ s.returned) (hnot : ∀ name, p.remoteDir host ≠ name :: keyDir host p.key)
    (now : String) (dtype : TransferDType) :
    get host s.disk.tree now p.key none (some p.hversion.text) dtype =
      .error (.file .missing) := by
  have hmissing : ∀ name, s.disk.tree.lookup (p.hversion.name :: name :: keyDir host p.key) =
      none := by
    intro name
    by_contra hexists
    exact hnot name (hinv.unique p (hinv.issued p hp) name hexists).symm
  rw [get, getFilePath]
  rcases getPathFromHashedVersion_of_missing hmissing with h | h <;> rw [h]
  · show (do
      let content ← (readGeneric s.disk.tree ⟨host.cwd, []⟩).mapError StorageError.file
      return some (← transfer host now p.key none dtype content)) = _
    rw [readGeneric_cwd hcwd]
    rfl
  · rfl

/-! ### A small storage -/

/-- A storage in the root folder, without a component key. -/
def rootHost : Host where
  cwd := []
  basePath := "/".toList
  componentKey := ""
  hashFile := id
  opensTemp := fun _ => true
  scandir := id
  scandir_perm := fun _ => List.Perm.refl _

/-- A digest of one digit repeated. -/
def repeatedDigit (c : Char) (hc : c ∈ "0123456789abcdef".toList) : HVersion where
  text := String.ofList (List.replicate 64 c)
  length_eq := by simp
  hex := by
    intro c' hc'
    rw [String.toList_ofList] at hc'
    rw [List.eq_of_mem_replicate hc']
    exact hc

/-- The storage before its first put, on a disk with nothing but its root. -/
def emptyStore : Store := start ⟨FileTree.empty, []⟩

/-- A put of the string `"one"` on the branch `b` of the key `k`. -/
def putOne : Put := ⟨"k", "b", .string "one", repeatedDigit 'a' (by decide)⟩

/-- A put of the string `"two"` on the same branch. -/
def putTwo : Put := ⟨"k", "b", .string "two", repeatedDigit 'b' (by decide)⟩

end SecCask.Pipeman.FileSystemStorage
