import SecCask.Archive.RoundTrip
import SecCask.Lib.Utf8
import SecCask.Pipeman.FileUtils

/-!
# SecCask.Pipeman.ArchiveFolder

`FileUtils.archive_local_folder` and `FileUtils.extract_archive_to` (`file.py`) from one end to
the other: a folder is walked and written to an archive with `stream_zip`, and the archive is
read with `stream_unzip` and written to a folder. What comes out are the files that went in.
-/

namespace SecCask.Pipeman.FileUtils

open PosixPath

/-- What the operating system reports apart from the contents of folders and files. -/
structure OperatingSystem where
  /-- The names in a folder, in the order that `os.scandir` has them. -/
  scandir : FileTree Bytes Bytes → List Bytes → List Bytes
  /-- `st_mode` -/
  stMode : List Bytes → ℕ
  /-- `datetime.now()` when an entry is come to. -/
  now : List Bytes → Archive.ModifiedAt

/-- `os.scandir` lists what is in a folder, in any order. -/
def OperatingSystem.Lists (os : OperatingSystem) : Prop :=
  ∀ t path, (os.scandir t path).Perm (t.children path)

/-- A path of a file in the folder `source`. -/
def IsFileOf (t : FileTree Bytes Bytes) (source path : List Bytes) : Prop :=
  ∃ content, t.lookup (path ++ source) = some (.file content)

/-- The files in a folder have names that there are in a file system. -/
def WellNamed (t : FileTree Bytes Bytes) (source : List Bytes) : Prop :=
  ∀ path, IsFileOf t source path → ∀ name ∈ path, IsName name ∧ FileName.legal name = true

inductive ArchiveError
  | file (e : FileError)
  | zip (e : Archive.ZipError)
  | unzip (e : Archive.UnzipError)
  | unicodeEncode
  deriving DecidableEq, Repr

/-- `PseudoDirEntry` and `os.DirEntry`: the path as it is written, and where it leads. -/
structure DirEntry where
  path : Bytes
  location : List Bytes
  deriving DecidableEq, Repr

variable (os : OperatingSystem)

/-- `traverse_directory`; `fuel` bounds the depth. -/
def traverseDirectory (t : FileTree Bytes Bytes) : ℕ → DirEntry → List DirEntry
  | 0, _ => []
  | fuel + 1, root =>
      if !t.isDir root.location then [root]
      else (os.scandir t root.location).flatMap fun name =>
        traverseDirectory t fuel ⟨join root.path name, name :: root.location⟩

/-- No path of the tree has more names. -/
def depthBound (t : FileTree Bytes Bytes) : ℕ := t.entries.keys.flatten.length + 1

/-- The lines that a file opened with `"rb"` is iterated by. -/
def lines : Bytes → List Bytes
  | [] => []
  | b :: content =>
      if b = 0x0A then [b] :: lines content
      else match lines content with
        | [] => [[b]]
        | line :: later => (b :: line) :: later

/-- An element of `iter_stream_zip`, for an entry that `traverse_directory` has yielded in
the current folder `cwd`. -/
def streamZipFile (t : FileTree Bytes Bytes) (cwd : List Bytes) (p : DirEntry) :
    Except ArchiveError Archive.File :=
  let path : Bytes := [0x2E, 0x2F] ++ p.path
  match follow t cwd path with
  | none => .error (.file .missing)
  | some location =>
      match t.read location, Utf8.decode path with
      | .error e, _ => .error (.file e)
      | .ok _, none => .error .unicodeEncode
      | .ok content, some name => .ok
          { name := name
            modifiedAt := os.now p.location
            perms := os.stMode p.location % 512
            method := .noCompression64
            chunks := lines content }

/-- `iter_stream_zip(".")` in the current folder `cwd`. -/
def iterStreamZip (t : FileTree Bytes Bytes) (cwd : List Bytes) :
    Except ArchiveError (List Archive.File) :=
  (traverseDirectory os t (depthBound t) ⟨[0x2E], cwd⟩).mapM (streamZipFile os t cwd)

variable (compressObj : Archive.CompressObj)

/-- `archive_local_folder`, called in the folder `oldPwd`; the paths are given as what they
normalise to. What an error leaves of the archive is taken to be nothing. -/
def archiveLocalFolder (oldPwd sourceFolder destArchive : List Bytes) :
    Effect ArchiveError (Disk Bytes Bytes) PUnit := do
  ExceptT.adapt .file (gotoDir sourceFolder)
  ExceptT.adapt .file (Disk.write destArchive [])
  let d ← get
  let files ← MonadExcept.ofExcept (iterStreamZip os d.tree sourceFolder)
  let zippedChunks ← MonadExcept.ofExcept
    ((Archive.streamZip compressObj 65536 files).mapError .zip)
  ExceptT.adapt .file (Disk.write destArchive zippedChunks.flatten)
  ExceptT.adapt .file (gotoDir oldPwd)

/-- `iterate_binary`, from where the file has been read to. -/
def iterateBinaryLoop : ℕ → Bytes → List Bytes
  | 0, _ => []
  | fuel + 1, content =>
      if content.take 65536 = [] then []
      else content.take 65536 :: iterateBinaryLoop fuel (content.drop 65536)

def iterateBinary (content : Bytes) : List Bytes :=
  iterateBinaryLoop (content.length + 1) content

/-- `extract_archive_to` with the reading of the archive. -/
def extractArchive (oldPwd sourcePath destPath : List Bytes) :
    Effect ArchiveError (Disk Bytes Bytes) PUnit := do
  ExceptT.adapt .file (gotoDir destPath)
  let d ← get
  let content ← MonadExcept.ofExcept ((d.tree.read sourcePath).mapError .file)
  let unzipped := Archive.streamUnzip 65536 (iterateBinary content)
  ExceptT.adapt .file ((unzipped.members.map fun item => (item.name, item.content)).forM
    (extractMember destPath))
  match unzipped.error with
  | none => ExceptT.adapt .file (gotoDir oldPwd)
  | some e =>
      -- the member that the error comes in has been opened, and written as far as it got
      match unzipped.broken with
      | none => throw (.unzip e)
      | some item =>
          ExceptT.adapt .file (extractMember destPath (item.name, item.content))
          throw (.unzip e)

/-! ### Reading files -/

theorem lines_flatten (content : Bytes) : (lines content).flatten = content := by
  induction content with
  | nil => rfl
  | cons b content ih =>
      rw [lines]
      split
      · rw [List.flatten_cons, ih, List.singleton_append]
      · cases hlines : lines content with
        | nil =>
            rw [hlines] at ih
            rw [← ih]
            rfl
        | cons line later =>
            rw [hlines, List.flatten_cons] at ih
            rw [List.flatten_cons, List.cons_append, ih]

theorem iterateBinary_spec (content : Bytes) : (iterateBinary content).flatten = content ∧
    ∀ chunk ∈ iterateBinary content, chunk ≠ [] := by
  have hloop : ∀ fuel (content : Bytes), content.length < fuel →
      (iterateBinaryLoop fuel content).flatten = content ∧
        ∀ chunk ∈ iterateBinaryLoop fuel content, chunk ≠ [] := by
    intro fuel
    induction fuel with
    | zero =>
        intro content hfuel
        omega
    | succ fuel ih =>
        intro content hfuel
        rw [iterateBinaryLoop]
        by_cases hend : content.take 65536 = []
        · rw [if_pos hend]
          have hnil : content = [] := by simpa using hend
          exact ⟨hnil.symm, by simp⟩
        · rw [if_neg hend]
          have hne : content ≠ [] := by
            intro hnil
            exact hend (by rw [hnil]; rfl)
          have hpositive := List.length_pos_iff.mpr hne
          obtain ⟨hflatten, hchunks⟩ := ih (content.drop 65536) (by
            rw [List.length_drop]
            omega)
          refine ⟨by rw [List.flatten_cons, hflatten, List.take_append_drop], ?_⟩
          intro chunk hmem
          rcases List.mem_cons.mp hmem with rfl | hmem
          · exact hend
          · exact hchunks chunk hmem
  exact hloop _ content (Nat.lt_succ_self _)

/-! ### Walking through a folder -/

/-- The entry that the names of `path` lead to from `root`. -/
def DirEntry.descend (root : DirEntry) (path : List Bytes) : DirEntry :=
  ⟨path.foldr (fun name text => join text name) root.path, path ++ root.location⟩

theorem descend_snoc (root : DirEntry) (path : List Bytes) (name : Bytes) :
    root.descend (path ++ [name]) =
      DirEntry.descend ⟨join root.path name, name :: root.location⟩ path := by
  simp [DirEntry.descend]

variable {os : OperatingSystem}

theorem lookup_ne_none_of_suffix {t : FileTree Bytes Bytes} {path below : List Bytes}
    (hsuffix : path <:+ below) (h : t.lookup below ≠ none) : t.lookup path ≠ none := by
  by_cases heq : path = below
  · rw [heq]
    exact h
  · rw [FileTree.lookup_of_suffix hsuffix heq h]
    simp

/-- All files under a folder, and only these, are come to. -/
theorem mem_traverseDirectory (hos : os.Lists) {t : FileTree Bytes Bytes} {fuel : ℕ}
    {root : DirEntry} (hroot : t.lookup root.location ≠ none)
    (hfuel : ∀ path, t.lookup (path ++ root.location) ≠ none → path.length < fuel)
    (p : DirEntry) : p ∈ traverseDirectory os t fuel root ↔
      ∃ path content, t.lookup (path ++ root.location) = some (.file content) ∧
        p = root.descend path := by
  induction fuel generalizing root with
  | zero => exact absurd (hfuel [] hroot) (Nat.not_lt_zero _)
  | succ fuel ih =>
      rw [traverseDirectory]
      by_cases hdir : t.lookup root.location = some .folder
      · rw [if_neg (by simp [FileTree.isDir_iff.mpr hdir]), List.mem_flatMap]
        have hbelow : ∀ {name}, t.lookup (name :: root.location) ≠ none →
            (p ∈ traverseDirectory os t fuel ⟨join root.path name, name :: root.location⟩ ↔
              ∃ path content, t.lookup (path ++ name :: root.location) = some (.file content) ∧
                p = DirEntry.descend ⟨join root.path name, name :: root.location⟩ path) := by
          intro name hname
          refine ih hname fun path hpath => ?_
          have hlonger := hfuel (path ++ [name]) (by simpa using hpath)
          rw [List.length_append, List.length_singleton] at hlonger
          omega
        constructor
        · intro h
          obtain ⟨name, hname, hmem⟩ := h
          have hchild := FileTree.mem_children.mp ((hos t root.location).mem_iff.mp hname)
          obtain ⟨path, content, hfile, rfl⟩ := (hbelow hchild).mp hmem
          exact ⟨path ++ [name], content, by simpa using hfile, (descend_snoc _ _ _).symm⟩
        · intro h
          obtain ⟨path, content, hfile, rfl⟩ := h
          rcases List.eq_nil_or_concat' path with rfl | ⟨path, name, rfl⟩
          · rw [List.nil_append, hdir] at hfile
            cases hfile
          · rw [List.append_assoc, List.singleton_append] at hfile
            have hchild : t.lookup (name :: root.location) ≠ none :=
              lookup_ne_none_of_suffix (List.suffix_append path _) (by simp [hfile])
            refine ⟨name, (hos t root.location).mem_iff.mpr (FileTree.mem_children.mpr hchild), ?_⟩
            exact (hbelow hchild).mpr ⟨path, content, hfile, descend_snoc _ _ _⟩
      · have hisDir : t.isDir root.location = false := by
          rw [← Bool.not_eq_true, FileTree.isDir_iff]
          exact hdir
        rw [hisDir, Bool.not_false, if_pos rfl, List.mem_singleton]
        constructor
        · intro h
          rcases hentry : t.lookup root.location with _ | (_ | content)
          · exact absurd hentry hroot
          · exact absurd hentry hdir
          · exact ⟨[], content, hentry, h⟩
        · intro h
          obtain ⟨path, content, hfile, rfl⟩ := h
          by_cases hnil : path = []
          · rw [hnil]
            rfl
          · -- a file has nothing in it
            refine absurd (FileTree.lookup_of_suffix (List.suffix_append path root.location)
              (by simpa using hnil) (by simp [hfile])) hdir

theorem mem_keys_of_lookup {t : FileTree Bytes Bytes} {path : List Bytes}
    (h : t.lookup path ≠ none) : path ∈ t.entries.keys :=
  AList.lookup_isSome.mp (Option.isSome_iff_ne_none.mpr h)

theorem length_lt_depthBound {t : FileTree Bytes Bytes} {path : List Bytes}
    (h : t.lookup path ≠ none) : path.length < depthBound t :=
  Nat.lt_succ_of_le (List.sublist_flatten_of_mem (mem_keys_of_lookup h)).length_le

theorem dotted_descend {path cwd : List Bytes} (hnames : ∀ name ∈ path, IsName name) :
    Dotted (DirEntry.descend ⟨[0x2E], cwd⟩ path).path path := by
  induction path with
  | nil => exact dotted_dot (by decide)
  | cons name path ih =>
      exact (ih fun name hname => hnames name (List.mem_cons_of_mem _ hname)).join
        (hnames name List.mem_cons_self)

/-! ### Writing a folder to an archive -/

/-- The names in a text that encodes decode in their turn. -/
theorem decodes_of_components {text : String} {path : List Bytes}
    (hpath : ∀ name ∈ path, name ∈ components (Utf8.encode text)) : decodes path = true := by
  rw [decodes, List.all_eq_true]
  intro name hname
  have hmem := hpath name hname
  rw [components, show (PathAlphabet.slash : UInt8) = UInt8.ofNat '/'.toNat from rfl,
    Utf8.splitOn_encode (by decide), List.mem_map] at hmem
  obtain ⟨part, -, rfl⟩ := hmem
  exact ByteArray.validateUTF8_eq_true_iff.mpr part.isValidUTF8

/-- A member that stands for the file at `path`: its name leads there from any folder. -/
structure MemberFor (path : List Bytes) (content : Bytes) (file : Archive.File) : Prop where
  method : file.method = .noCompression64
  content : file.content = content
  decodes : decodes path = true
  leads : ∀ cwd, abspath cwd file.nameEncoded = path ++ cwd

theorem streamZipFile_ok {t : FileTree Bytes Bytes} {cwd path : List Bytes} {content : Bytes}
    (hnames : WellNamed t cwd) (hcwd : t.lookup cwd = some .folder)
    (hfile : t.lookup (path ++ cwd) = some (.file content)) {file : Archive.File}
    (h : streamZipFile os t cwd (DirEntry.descend ⟨[0x2E], cwd⟩ path) = .ok file) :
    MemberFor path content file := by
  have hmem : t.lookup (path ++ cwd) ≠ none := by simp [hfile]
  have hreal : ∀ name ∈ path, IsName name := fun name hname =>
    (hnames path ⟨content, hfile⟩ name hname).1
  have hdotted : Dotted (DirEntry.descend ⟨[0x2E], cwd⟩ path).path path := dotted_descend hreal
  generalize htext : (DirEntry.descend ⟨[0x2E], cwd⟩ path).path = text at hdotted
  -- the `./` in front of the path changes nothing
  have hprepended : Dotted ([0x2E, 0x2F] ++ text) path := hdotted.prepend (by decide)
  have hread : t.read (path ++ cwd) = .ok content := by rw [FileTree.read, hfile]
  simp only [streamZipFile, htext, hprepended.follow hreal hcwd hmem, hread] at h
  cases hdecode : Utf8.decode ([0x2E, 0x2F] ++ text) with
  | none =>
      rw [hdecode] at h
      cases h
  | some name =>
      have hencode := Utf8.decode_eq_some_iff.mp hdecode
      simp only [hdecode, Except.ok.injEq] at h
      subst h
      constructor
      case method => rfl
      case content => exact lines_flatten content
      case decodes =>
        have hparts : ∀ part ∈ path, part ∈ components (Utf8.encode name) := by
          intro part hpart
          obtain ⟨n, hn⟩ := hprepended.components
          rw [← hencode, hn]
          exact List.mem_append_right _ (List.mem_reverse.mpr hpart)
        exact decodes_of_components hparts
      case leads =>
        intro cwd'
        have hbytes : Utf8.encode name = [0x2E, 0x2F] ++ text := hencode.symm
        exact (congrArg (abspath cwd') hbytes).trans (hprepended.abspath hreal cwd')

theorem root_mem {t : FileTree Bytes Bytes} {cwd : List Bytes}
    (hcwd : t.lookup cwd = some .folder) (p : DirEntry) (hos : os.Lists) :
    p ∈ traverseDirectory os t (depthBound t) ⟨[0x2E], cwd⟩ ↔
      ∃ path content, t.lookup (path ++ cwd) = some (.file content) ∧
        p = DirEntry.descend ⟨[0x2E], cwd⟩ path := by
  refine mem_traverseDirectory hos (by simp [hcwd]) (fun path hpath => ?_) p
  have hlength := length_lt_depthBound hpath
  rw [List.length_append] at hlength
  omega

/-- The members of an archived folder are its files. -/
theorem iterStreamZip_ok (hos : os.Lists) {t : FileTree Bytes Bytes} {cwd : List Bytes}
    (hnames : WellNamed t cwd) (hcwd : t.lookup cwd = some .folder) {files : List Archive.File}
    (h : iterStreamZip os t cwd = .ok files) :
    (∀ file ∈ files, ∃ path content, t.lookup (path ++ cwd) = some (.file content) ∧
      MemberFor path content file) ∧
    ∀ path content, t.lookup (path ++ cwd) = some (.file content) →
      ∃ file ∈ files, MemberFor path content file := by
  have hmem := fun p => root_mem hcwd p hos
  refine ⟨fun file hfile => ?_, fun path content hfile => ?_⟩
  · obtain ⟨p, hp, hok⟩ := (mem_of_mapM_eq_ok h).mp hfile
    obtain ⟨path, content, hlookup, rfl⟩ := (hmem p).mp hp
    exact ⟨path, content, hlookup, streamZipFile_ok hnames hcwd hlookup hok⟩
  · have hp := (hmem _).mpr ⟨path, content, hfile, rfl⟩
    obtain ⟨file, hok⟩ := exists_of_mapM_eq_ok h hp
    exact ⟨file, (mem_of_mapM_eq_ok h).mpr ⟨_, hp, hok⟩,
      streamZipFile_ok hnames hcwd hfile hok⟩

/-! ### Restoring a folder -/

/-- Below `dest` are the files `files` of the folder `source`, with the folders that they are
in; elsewhere everything is as on `d`. -/
structure Restored (t : FileTree Bytes Bytes) (source dest : List Bytes)
    (files : List (List Bytes)) (d d' : Disk Bytes Bytes) : Prop where
  inside : ∀ path, d'.tree.lookup (path ++ dest) =
    if path ∈ files then t.lookup (path ++ source)
    else if path = [] ∨ ∃ file ∈ files, path <:+ file then some .folder else none
  outside : ∀ path, ¬ dest <:+ path → d'.tree.lookup path = d.tree.lookup path

section Restoring

variable {t : FileTree Bytes Bytes} {source dest : List Bytes}

/-- What stands above a file is a folder, so that it is no file itself. -/
theorem not_isFileOf_above {path file : List Bytes} (hsuffix : path <:+ file) (hne : path ≠ file)
    (hfile : IsFileOf t source file) : ¬ IsFileOf t source path := by
  intro hpath
  obtain ⟨content, hlookup⟩ := hfile
  obtain ⟨content', hlookup'⟩ := hpath
  obtain ⟨more, rfl⟩ := hsuffix
  have hfolder : t.lookup (path ++ source) = some .folder := by
    rw [List.append_assoc] at hlookup
    refine FileTree.lookup_of_suffix (List.suffix_append more _) (fun heq => hne ?_)
      (by simp [hlookup])
    rw [List.append_left_eq_self.mp heq.symm, List.nil_append]
  rw [hfolder] at hlookup'
  cases hlookup'

/-- Above a path below `dest` stands `dest`, or something above it, or a path below it. -/
theorem suffix_append_cases {p path dest : List Bytes} (h : p <:+ path ++ dest) :
    p <:+ dest ∨ ∃ p', p = p' ++ dest ∧ p' <:+ path := by
  rcases List.suffix_or_suffix_of_suffix h (List.suffix_append path dest) with hdest | hbelow
  · exact Or.inl hdest
  · obtain ⟨p', rfl⟩ := hbelow
    exact Or.inr ⟨p', rfl, List.suffix_append_self_iff.mp h⟩

/-- The next file finds the folders that it is in or free places for them, and its own place
free or taken by a file. -/
theorem Restored.way {files : List (List Bytes)} {d d' : Disk Bytes Bytes}
    (h : Restored t source dest files d d') (hfiles : ∀ file ∈ files, IsFileOf t source file)
    {path : List Bytes} (hpath : IsFileOf t source path) (hnil : path ≠ []) :
    (∀ p, p <:+ path → p ≠ path → p ∉ files) ∧ d'.tree.lookup (path ++ dest) ≠ some .folder := by
  refine ⟨fun p hp hne hmem => not_isFileOf_above hp hne hpath (hfiles p hmem), ?_⟩
  rw [h.inside]
  split
  · obtain ⟨content, hlookup⟩ := hpath
    simp [hlookup]
  · rename_i hmem
    rw [if_neg]
    · simp
    · intro hor
      rcases hor with heq | ⟨file, hfile, hsuffix⟩
      · exact hnil heq
      · have hne : path ≠ file := fun heq => hmem (heq ▸ hfile)
        exact not_isFileOf_above hsuffix hne (hfiles file hfile) hpath

theorem Restored.root {files : List (List Bytes)} {d d' : Disk Bytes Bytes}
    (h : Restored t source dest files d d') (hnil : [] ∉ files) :
    d'.tree.lookup dest = some .folder := by
  have hinside := h.inside []
  rwa [if_neg hnil, if_pos (Or.inl rfl)] at hinside

/-- The folders that the next file is in are there or can be made: what is above the file is
`dest`, above `dest`, or a folder that is there or not. -/
theorem Restored.makes_folders {files : List (List Bytes)} {d d' : Disk Bytes Bytes}
    (h : Restored t source dest files d d') {path : List Bytes}
    (habove : ∀ p, p <:+ path → p ∉ files)
    (hlegal : ∀ name ∈ path, FileName.legal name = true) :
    ∃ e, Effect.runFrom (Disk.checkOrCreateDir (path ++ dest)) d' = (.ok ⟨⟩, e) ∧
      ∀ p, e.tree.lookup p =
        if p <:+ path ++ dest then some .folder else d'.tree.lookup p := by
  have hroot := h.root (habove [] List.nil_suffix)
  refine Disk.checkOrCreateDir_ok (path ++ dest) ?_ ?_
  · intro p hp other hother
    rcases suffix_append_cases hp with hp | ⟨p', rfl, hp'⟩
    · rw [Disk.lookup_of_isFolder hroot, if_pos hp] at hother
      cases hother
    · rw [h.inside, if_neg (habove p' hp')] at hother
      split at hother <;> cases hother
  · intro name p hp hnone
    rcases suffix_append_cases hp with hp | ⟨p', heq, hp'⟩
    · rw [Disk.lookup_of_isFolder hroot, if_pos hp] at hnone
      cases hnone
    · cases p' with
      | nil =>
          rw [heq, List.nil_append, hroot] at hnone
          cases hnone
      | cons name' p' =>
          obtain ⟨rfl, -⟩ := List.cons.inj heq
          exact hlegal name (hp'.subset List.mem_cons_self)

/-- With its folders made and its content written, the next file is restored too. -/
theorem Restored.write {files : List (List Bytes)} {d d' e e' : Disk Bytes Bytes}
    (h : Restored t source dest files d d') {name : Bytes} {path : List Bytes}
    (habove : ∀ p, p <:+ path → p ∉ files) {content : Bytes}
    (hpath : t.lookup (name :: path ++ source) = some (.file content))
    (hlookup : ∀ p, e.tree.lookup p =
      if p <:+ path ++ dest then some .folder else d'.tree.lookup p)
    (hwritten : ∀ p, e'.tree.lookup p =
      if p = name :: (path ++ dest) then some (.file content) else e.tree.lookup p) :
    Restored t source dest ((name :: path) :: files) d e' where
  inside := by
    intro p
    rw [hwritten, hlookup, h.inside]
    by_cases hp : p = name :: path
    · rw [hp, if_pos List.cons_append, if_pos List.mem_cons_self, hpath]
    · have hne : p ++ dest ≠ name :: (path ++ dest) :=
        fun heq => hp (List.append_cancel_right heq)
      rw [if_neg hne]
      by_cases hsuffix : p <:+ path
      · rw [if_pos (List.suffix_append_self_iff.mpr hsuffix), if_neg, if_pos]
        · exact Or.inr ⟨name :: path, List.mem_cons_self, hsuffix.trans (List.suffix_cons _ _)⟩
        · simpa [hp] using habove p hsuffix
      · have hsuffix' : ¬ p ++ dest <:+ path ++ dest :=
          fun h => hsuffix (List.suffix_append_self_iff.mp h)
        rw [if_neg hsuffix']
        simp only [List.mem_cons, hp, false_or, exists_eq_or_imp, List.suffix_cons_iff, hsuffix]
  outside := by
    intro p hp
    have hroot := h.root (habove [] List.nil_suffix)
    have hne : p ≠ name :: (path ++ dest) := by
      intro heq
      exact hp (heq ▸ List.suffix_append (name :: path) dest)
    rw [hwritten, if_neg hne, hlookup, ← h.outside p hp]
    split
    · rename_i hsuffix
      rcases suffix_append_cases hsuffix with hover | ⟨p', rfl, -⟩
      · rw [Disk.lookup_of_isFolder hroot, if_pos hover]
      · exact absurd (List.suffix_append p' dest) hp
    · rfl

theorem Restored.extractMember {files : List (List Bytes)} {d d' : Disk Bytes Bytes}
    (h : Restored t source dest files d d') (hnames : WellNamed t source)
    (hsource : t.lookup source = some .folder) (hfiles : ∀ file ∈ files, IsFileOf t source file)
    (hdest : decodes dest = true) {path : List Bytes} {content : Bytes} {file : Archive.File}
    (hpath : t.lookup (path ++ source) = some (.file content))
    (hmember : MemberFor path content file) :
    ∃ d'', Effect.runFrom (extractMember dest (file.nameEncoded, content)) d' = (.ok ⟨⟩, d'') ∧
      Restored t source dest (path :: files) d d'' := by
  have hlegal := hnames path ⟨content, hpath⟩
  have hdecodes := hmember.decodes
  have hleads := hmember.leads dest
  have hway := h.way hfiles ⟨content, hpath⟩
  cases path with
  | nil =>
      rw [List.nil_append, hsource] at hpath
      cases hpath
  | cons name path =>
      obtain ⟨habove, hfree⟩ := hway (List.cons_ne_nil _ _)
      replace habove : ∀ p, p <:+ path → p ∉ files := by
        intro p hp
        refine habove p (hp.trans (List.suffix_cons _ _)) fun heq => ?_
        have hlength := hp.length_le
        rw [heq, List.length_cons] at hlength
        omega
      have hparent : decodes (abspath dest file.nameEncoded).tail = true := by
        rw [decodes, List.all_cons, Bool.and_eq_true] at hdecodes
        rw [hleads, List.cons_append, List.tail_cons, decodes, List.all_append, Bool.and_eq_true]
        exact ⟨hdecodes.2, hdest⟩
      obtain ⟨e, hfolders, hlookup⟩ := h.makes_folders habove
        fun name' hname' => (hlegal name' (List.mem_cons_of_mem _ hname')).2
      have hself : ¬ name :: path ++ dest <:+ path ++ dest := by
        intro hsuffix
        have hlength := hsuffix.length_le
        rw [List.cons_append, List.length_cons] at hlength
        omega
      obtain ⟨e', hwrite, hwritten⟩ := Disk.write_ok name (path ++ dest) content (d := e)
        (hlegal name (by simp)).2 (by rw [hlookup, if_pos List.suffix_rfl])
        (by
          rw [hlookup, if_neg (by simpa using hself)]
          exact hfree)
      refine ⟨e', ?_, h.write habove hpath hlookup hwritten⟩
      rw [runFrom_extractMember hparent, hleads, List.cons_append, List.tail_cons, hfolders]
      exact hwrite

theorem MemberFor.path_unique {path path' content content' : _} {file : Archive.File}
    (h : MemberFor path content file) (h' : MemberFor path' content' file) : path = path' := by
  have hsame := (h.leads []).symm.trans (h'.leads [])
  simpa using hsame

/-- The loop over the members. -/
theorem Restored.forM (hnames : WellNamed t source) (hsource : t.lookup source = some .folder)
    (hdest : decodes dest = true) {members : List Archive.File}
    (hmembers : ∀ file ∈ members, ∃ path content,
      t.lookup (path ++ source) = some (.file content) ∧ MemberFor path content file)
    {files : List (List Bytes)} {d d' : Disk Bytes Bytes} (h : Restored t source dest files d d')
    (hfiles : ∀ file ∈ files, IsFileOf t source file) :
    ∃ files' d'', Effect.runFrom ((members.map fun file => (file.nameEncoded, file.content)).forM
        (FileUtils.extractMember dest)) d' = (.ok ⟨⟩, d'') ∧
      Restored t source dest files' d d'' ∧ (∀ path ∈ files', IsFileOf t source path) ∧
      ∀ path, (path ∈ files ∨ ∃ file ∈ members, ∃ content, MemberFor path content file) →
        path ∈ files' := by
  induction members generalizing files d' with
  | nil => exact ⟨files, d', rfl, h, hfiles, by simp⟩
  | cons file members ih =>
      obtain ⟨path, content, hpath, hmember⟩ := hmembers file List.mem_cons_self
      obtain ⟨d₁, hrun, hnext⟩ := h.extractMember hnames hsource hfiles hdest hpath hmember
      obtain ⟨files', d'', hrest, hdone, hall, hmore⟩ := ih
        (fun file' hfile' => hmembers file' (List.mem_cons_of_mem _ hfile')) hnext
        (by simpa using ⟨⟨content, hpath⟩, hfiles⟩)
      refine ⟨files', d'', ?_, hdone, hall, fun path' hpath' => hmore path' ?_⟩
      · rw [List.map_cons, Effect.runFrom_forM_cons, hmember.content, hrun]
        exact hrest
      · rcases hpath' with hbefore | ⟨file', hfile', content', hmember'⟩
        · exact Or.inl (List.mem_cons_of_mem _ hbefore)
        · rcases List.mem_cons.mp hfile' with rfl | hlater
          · exact Or.inl (by simp [hmember'.path_unique hmember])
          · exact Or.inr ⟨file', hlater, content', hmember'⟩

end Restoring

/-! ### From one end to the other -/

variable {compressObj : Archive.CompressObj}

/-- The archive is written from the files of the folder. -/
theorem archiveLocalFolder_ok {oldPwd source archive : List Bytes} {d d' : Disk Bytes Bytes}
    (h : Effect.runFrom (archiveLocalFolder os compressObj oldPwd source archive) d =
      (.ok ⟨⟩, d')) (hout : ¬ source <:+ archive) :
    ∃ t files chunks, t.lookup source = some .folder ∧
      (∀ path content, t.lookup (path ++ source) = some (.file content) ↔
        d.tree.lookup (path ++ source) = some (.file content)) ∧
      iterStreamZip os t source = .ok files ∧
      Archive.streamZip compressObj 65536 files = .ok chunks ∧
      d'.tree.lookup archive = some (.file chunks.flatten) := by
  unfold archiveLocalFolder at h
  obtain ⟨⟨⟩, d₁, hgoto, h⟩ := Effect.runFrom_bind_eq_ok_iff.mp h
  obtain ⟨⟨⟩, d₂, hopen, h⟩ := Effect.runFrom_bind_eq_ok_iff.mp h
  obtain ⟨_, d₃, hget, h⟩ := Effect.runFrom_bind_eq_ok_iff.mp h
  obtain ⟨rfl, rfl⟩ := Effect.runFrom_get_eq_ok_iff.mp hget
  obtain ⟨files, d₃, hfiles, h⟩ := Effect.runFrom_bind_eq_ok_iff.mp h
  obtain ⟨hlisted, rfl⟩ := Effect.runFrom_ofExcept_eq_ok_iff.mp hfiles
  obtain ⟨chunks, d₃, hchunks, h⟩ := Effect.runFrom_bind_eq_ok_iff.mp h
  obtain ⟨hzipped, rfl⟩ := Effect.runFrom_ofExcept_eq_ok_iff.mp hchunks
  obtain ⟨⟨⟩, d₄, hwrite, hback⟩ := Effect.runFrom_bind_eq_ok_iff.mp h
  replace hgoto := Effect.runFrom_adapt_eq_ok_iff.mp hgoto
  replace hopen := Effect.runFrom_adapt_eq_ok_iff.mp hopen
  replace hwrite := Effect.runFrom_adapt_eq_ok_iff.mp hwrite
  replace hback := Effect.runFrom_adapt_eq_ok_iff.mp hback
  have hopened := Disk.lookup_of_write hopen
  have hzip : Archive.streamZip compressObj 65536 files = .ok chunks := by
    cases hzip : Archive.streamZip compressObj 65536 files with
    | error e =>
        rw [hzip] at hzipped
        cases hzipped
    | ok chunks' =>
        rw [hzip] at hzipped
        exact congrArg _ (Except.ok.inj hzipped)
  have hne : ∀ path, path ++ source ≠ archive := by
    intro path heq
    exact hout (heq ▸ List.suffix_append path source)
  refine ⟨d₂.tree, files, chunks, ?_, fun path content => ?_, hlisted, hzip, ?_⟩
  · have hsource : source ≠ archive := hne []
    rw [hopened, if_neg hsource, isFolder_of_gotoDir hgoto]
  · have hfills := gotoDir_fills source d
    rw [hgoto] at hfills
    rw [hopened, if_neg (hne path), hfills.file_iff]
  · have hfills := gotoDir_fills oldPwd d₄
    rw [hback] at hfills
    rw [hfills.file_iff, Disk.lookup_of_write hwrite, if_pos rfl]

/-- What `iterate_binary` and `stream_unzip` make of an archive. -/
theorem streamUnzip_iterateBinary {files : List Archive.File} {chunks : List Bytes}
    (hzip : Archive.streamZip compressObj 65536 files = .ok chunks)
    (hmethod : ∀ file ∈ files, file.method = .noCompression64) :
    (files ≠ [] → (Archive.streamUnzip 65536 (iterateBinary chunks.flatten)).error = none) ∧
    (files = [] → (Archive.streamUnzip 65536 (iterateBinary chunks.flatten)).error =
        some (.unexpectedSignature Archive.endOfCentralDirectorySignature) ∧
      (Archive.streamUnzip 65536 (iterateBinary chunks.flatten)).broken = none) ∧
    ((Archive.streamUnzip 65536 (iterateBinary chunks.flatten)).members.map fun item =>
      (item.name, item.content)) = files.map fun file => (file.nameEncoded, file.content) := by
  obtain ⟨hflatten, hchunks⟩ := iterateBinary_spec chunks.flatten
  have hread : (Archive.streamUnzip 65536 (iterateBinary chunks.flatten)).joined =
      Archive.unzip (iterateBinary chunks.flatten).flatten :=
    Archive.joined_streamUnzip (by decide) hchunks
  rw [hflatten] at hread
  generalize Archive.streamUnzip 65536 (iterateBinary chunks.flatten) = unzipped at hread
  have hreadable : ∀ file ∈ files, file.Readable := by
    intro file hfile
    simp [Archive.File.Readable, hmethod file hfile]
  have hmembers : (unzipped.members.map fun item => (item.name, item.content)) =
      unzipped.joined.members.map fun item => (item.name, item.content) := by
    simp [Archive.Unzipped.joined, Archive.Item.joined, Archive.Item.content]
  rw [hmembers]
  have herror : unzipped.error = unzipped.joined.error := rfl
  rw [herror]
  by_cases hnil : files = []
  · subst hnil
    rw [Archive.unzip_streamZip_nil (by decide) hzip] at hread
    rw [hread]
    refine ⟨fun h => absurd rfl h, fun _ => ⟨rfl, ?_⟩, rfl⟩
    have hbroken : unzipped.joined.broken = none := by rw [hread]
    exact Option.map_eq_none_iff.mp hbroken
  · rw [(Archive.unzip_streamZip (by decide) hzip).1 ⟨hnil, hreadable⟩] at hread
    rw [hread]
    refine ⟨fun _ => rfl, fun h => absurd h hnil, ?_⟩
    simp [Archive.File.item, Archive.Item.content]

/-- Going to an empty folder. -/
theorem Restored.start {t : FileTree Bytes Bytes} {source dest : List Bytes}
    {e e' : Disk Bytes Bytes} (hgoto : Effect.runFrom (gotoDir dest) e = (.ok ⟨⟩, e'))
    (hempty : ∀ path, path ≠ [] → e.tree.lookup (path ++ dest) = none) :
    Restored t source dest [] e' e' where
  inside := by
    intro path
    have hfills := gotoDir_fills dest e
    rw [hgoto] at hfills
    obtain ⟨new, -, hnew, hlookup⟩ := hfills
    by_cases hnil : path = []
    · subst hnil
      simpa using isFolder_of_gotoDir hgoto
    · have hnot : path ++ dest ∉ new := by
        intro hmem
        have hlength := (hnew _ hmem).1.length_le
        have hpositive := List.length_pos_iff.mpr hnil
        rw [List.length_append] at hlength
        omega
      rw [hlookup, if_neg hnot, hempty path hnil]
      simp [hnil]
  outside := fun _ _ => rfl

/-- When all files of the folder have been restored, there is nothing else. -/
theorem Restored.complete {t : FileTree Bytes Bytes} {source dest : List Bytes}
    {files : List (List Bytes)} {d d' : Disk Bytes Bytes} (h : Restored t source dest files d d')
    (hfiles : ∀ path, path ∈ files ↔ IsFileOf t source path) :
    (∀ path content, d'.tree.lookup (path ++ dest) = some (.file content) ↔
      t.lookup (path ++ source) = some (.file content)) ∧
    ∀ path, path ≠ [] → (d'.tree.lookup (path ++ dest) = some .folder ↔
      ∃ more, more ≠ [] ∧ IsFileOf t source (more ++ path)) := by
  refine ⟨fun path content => ?_, fun path hne => ?_⟩
  · rw [h.inside]
    split
    · rfl
    · rename_i hnot
      have hno : t.lookup (path ++ source) ≠ some (.file content) :=
        fun hlookup => hnot ((hfiles path).mpr ⟨content, hlookup⟩)
      refine iff_of_false ?_ hno
      split <;> simp
  · rw [h.inside]
    split
    · rename_i hmem
      have hisFile := (hfiles path).mp hmem
      refine iff_of_false ?_ ?_
      · obtain ⟨content, hlookup⟩ := hisFile
        simp [hlookup]
      · intro hex
        obtain ⟨more, hmore, hbelow⟩ := hex
        exact not_isFileOf_above (List.suffix_append more path) (by simpa using hmore) hbelow
          hisFile
    · rename_i hnot
      simp only [hne, false_or, ite_eq_left_iff, reduceCtorEq, imp_false, not_not]
      constructor
      · intro hex
        obtain ⟨file, hfile, more, rfl⟩ := hex
        refine ⟨more, ?_, (hfiles _).mp hfile⟩
        intro hnil
        exact hnot (by simpa [hnil] using hfile)
      · intro hex
        obtain ⟨more, -, hbelow⟩ := hex
        exact ⟨more ++ path, (hfiles _).mpr hbelow, List.suffix_append more path⟩

/-- The extraction of an archive whose members have been written. -/
theorem runFrom_extractArchive {oldPwd archive dest : List Bytes} {content : Bytes}
    {e e₁ e' : Disk Bytes Bytes} (hgoto : Effect.runFrom (gotoDir dest) e = (.ok ⟨⟩, e₁))
    (hread : e₁.tree.read archive = .ok content)
    (hloop : Effect.runFrom (((Archive.streamUnzip 65536 (iterateBinary content)).members.map
      fun item => (item.name, item.content)).forM (extractMember dest)) e₁ = (.ok ⟨⟩, e'))
    (hcwd : e.tree.lookup oldPwd = some .folder) :
    ((Archive.streamUnzip 65536 (iterateBinary content)).error = none →
      Effect.runFrom (extractArchive oldPwd archive dest) e = (.ok ⟨⟩, e')) ∧
    ∀ error, (Archive.streamUnzip 65536 (iterateBinary content)).error = some error →
      (Archive.streamUnzip 65536 (iterateBinary content)).broken = none →
      Effect.runFrom (extractArchive oldPwd archive dest) e = (.error (.unzip error), e') := by
  have hfills := gotoDir_fills dest e
  rw [hgoto] at hfills
  have hgrows : Disk.Grows e₁ e' :=
    (Effect.Within.forM fun member _ => extractMember_grows dest member).of_run hloop
  have hback := gotoDir_of_isFolder (hgrows.folder _ (hfills.grows.folder _ hcwd))
  generalize hunzipped : Archive.streamUnzip 65536 (iterateBinary content) = unzipped at hloop ⊢
  refine ⟨fun hnone => ?_, fun error hsome hbroken => ?_⟩
  · unfold extractArchive
    simp only [Effect.runFrom_bind, Effect.runFrom_adapt, hgoto, Effect.mapError_ok,
      Effect.runFrom_get, hread, Effect.runFrom_ofExcept, hunzipped, hloop, hnone, hback]
  · unfold extractArchive
    simp only [Effect.runFrom_bind, Effect.runFrom_adapt, hgoto, Effect.mapError_ok,
      Effect.runFrom_get, hread, Effect.runFrom_ofExcept, hunzipped, hloop, hsome, hbroken,
      Effect.runFrom_throw]

/-- **Folders.** A folder is archived, and the archive is extracted to an empty place, on the
same disk or another. The extraction succeeds exactly if there is a file in the folder, and
ends in `UnexpectedSignatureError` otherwise. At the destination are afterwards the files of
the folder, with their contents, and the folders that these are in, and nothing else;
everything that does not lie on the way there is as before. -/
theorem extractArchive_archiveLocalFolder (hos : os.Lists) {oldPwd source archive : List Bytes}
    {d d' : Disk Bytes Bytes} (hnames : WellNamed d.tree source)
    (harchive : Effect.runFrom (archiveLocalFolder os compressObj oldPwd source archive) d =
      (.ok ⟨⟩, d'))
    (hout : ¬ source <:+ archive) {oldPwd' archive' dest : List Bytes} {e e₁ : Disk Bytes Bytes}
    (hcopy : e.tree.lookup archive' = d'.tree.lookup archive)
    (hcwd : e.tree.lookup oldPwd' = some .folder)
    (hgoto : Effect.runFrom (gotoDir dest) e = (.ok ⟨⟩, e₁)) (hdest : decodes dest = true)
    (hempty : ∀ path, path ≠ [] → e.tree.lookup (path ++ dest) = none) :
    ∃ result e', Effect.runFrom (extractArchive oldPwd' archive' dest) e = (result, e') ∧
      ((∃ path, IsFileOf d.tree source path) → result = .ok ⟨⟩) ∧
      ((¬ ∃ path, IsFileOf d.tree source path) → result =
        .error (.unzip (.unexpectedSignature Archive.endOfCentralDirectorySignature))) ∧
      (∀ path content, e'.tree.lookup (path ++ dest) = some (.file content) ↔
        d.tree.lookup (path ++ source) = some (.file content)) ∧
      (∀ path, path ≠ [] → (e'.tree.lookup (path ++ dest) = some .folder ↔
        ∃ more, more ≠ [] ∧ IsFileOf d.tree source (more ++ path))) ∧
      ∀ path, ¬ dest <:+ path → ¬ path <:+ dest → e'.tree.lookup path = e.tree.lookup path := by
  obtain ⟨t, files, chunks, hsource, hsame, hlisted, hzip, hbytes⟩ :=
    archiveLocalFolder_ok harchive hout
  have hisFile : ∀ path, IsFileOf t source path ↔ IsFileOf d.tree source path :=
    fun path => exists_congr fun content => hsame path content
  have hnames' : WellNamed t source := fun path hpath => hnames path ((hisFile path).mp hpath)
  obtain ⟨hmembers, hevery⟩ := iterStreamZip_ok hos hnames' hsource hlisted
  have hmethod : ∀ file ∈ files, file.method = .noCompression64 := by
    intro file hfile
    obtain ⟨_, _, _, hmember⟩ := hmembers file hfile
    exact hmember.method
  obtain ⟨hok, hnone, hpairs⟩ := streamUnzip_iterateBinary hzip hmethod
  have hfills := gotoDir_fills dest e
  rw [hgoto] at hfills
  have hread : e₁.tree.read archive' = .ok chunks.flatten := by
    rw [FileTree.read, hfills.file_iff.mpr (hcopy.trans hbytes)]
  have hstart : Restored t source dest [] e₁ e₁ := Restored.start hgoto hempty
  obtain ⟨done, e', hloop, hdone, hall, hmore⟩ :=
    hstart.forM hnames' hsource hdest hmembers (by simp)
  have hmem : ∀ path, path ∈ done ↔ IsFileOf t source path := by
    intro path
    refine ⟨hall path, fun hpath => hmore path (Or.inr ?_)⟩
    obtain ⟨content, hlookup⟩ := hpath
    obtain ⟨file, hfile, hmember⟩ := hevery path content hlookup
    exact ⟨file, hfile, content, hmember⟩
  obtain ⟨hcontents, hfolders⟩ := hdone.complete hmem
  rw [← hpairs] at hloop
  obtain ⟨hsuccess, hfailure⟩ := runFrom_extractArchive hgoto hread hloop hcwd
  have hnil : files = [] ↔ ¬ ∃ path, IsFileOf d.tree source path := by
    constructor
    · intro hnil hex
      obtain ⟨path, hpath⟩ := hex
      obtain ⟨content, hlookup⟩ := (hisFile path).mpr hpath
      obtain ⟨file, hfile, -⟩ := hevery path content hlookup
      simp [hnil] at hfile
    · intro hno
      refine List.eq_nil_iff_forall_not_mem.mpr fun file hfile => ?_
      obtain ⟨path, content, hlookup, -⟩ := hmembers file hfile
      exact hno ⟨path, (hisFile path).mp ⟨content, hlookup⟩⟩
  have hrun : ∃ result, Effect.runFrom (extractArchive oldPwd' archive' dest) e = (result, e') ∧
      (files ≠ [] → result = .ok ⟨⟩) ∧ (files = [] → result =
        .error (.unzip (.unexpectedSignature Archive.endOfCentralDirectorySignature))) := by
    by_cases hfiles : files = []
    · obtain ⟨herror, hbroken⟩ := hnone hfiles
      exact ⟨_, hfailure _ herror hbroken, fun h => absurd hfiles h, fun _ => rfl⟩
    · exact ⟨_, hsuccess (hok hfiles), fun _ => rfl, fun h => absurd h hfiles⟩
  obtain ⟨result, hresult, hreturns, hraises⟩ := hrun
  refine ⟨result, e', hresult, fun hex => hreturns fun h => hnil.mp h hex,
    fun hno => hraises (hnil.mpr hno), fun path content => ?_, fun path hne => ?_,
    fun path hnot hnot' => ?_⟩
  · rw [hcontents, hsame]
  · rw [hfolders path hne]
    simp only [hisFile]
  · rw [hdone.outside path hnot]
    obtain ⟨new, -, hnew, hlookup⟩ := hfills
    rw [hlookup, if_neg fun hmem => hnot' (hnew path hmem).1]

/-- An operating system that lists folders in the order of their entries. -/
def plainSystem : OperatingSystem := ⟨FileTree.children, fun _ => 0o644, fun _ => {}⟩

/-- The file `/s/x`. -/
def oneFile : Disk Bytes Bytes :=
  (Effect.runFrom (do gotoDir [[0x73]]; Disk.write [[0x78], [0x73]] [1, 2]) emptyDisk).2

/-- The folder `/s` is archived as `/a`. -/
def archivedFile : Disk Bytes Bytes :=
  (Effect.runFrom (archiveLocalFolder plainSystem Archive.idle [] [[0x73]] [[0x61]]) oneFile).2

theorem runFrom_of_fst {ε σ : Type} {x : Effect ε σ PUnit} {s : σ}
    (h : (Effect.runFrom x s).1 = .ok ⟨⟩) :
    Effect.runFrom x s = (.ok ⟨⟩, (Effect.runFrom x s).2) :=
  Prod.ext h rfl

theorem archivedFile_keys : archivedFile.tree.entries.keys =
    [[], [[0x73]], [[0x78], [0x73]], [[0x61]]] := by
  decide +kernel

/-- It is extracted to `/d`. -/
theorem oneFile_restored : ∃ result e', Effect.runFrom (extractArchive [] [[0x61]] [[0x64]])
    archivedFile = (result, e') ∧ result = .ok ⟨⟩ ∧
      e'.tree.lookup [[0x78], [0x64]] = some (.file [1, 2]) := by
  have hkeys : oneFile.tree.entries.keys = [[], [[0x73]], [[0x78], [0x73]]] := by decide +kernel
  have hnames : WellNamed oneFile.tree [[0x73]] := by
    intro path hpath name hname
    obtain ⟨content, hlookup⟩ := hpath
    have hmem : path ++ [[0x73]] ∈ oneFile.tree.entries.keys :=
      mem_keys_of_lookup (by simp [hlookup])
    have hall : ∀ p ∈ oneFile.tree.entries.keys, ∀ name ∈ p,
        IsName name ∧ FileName.legal name = true := by
      rw [hkeys]
      decide
    exact hall _ hmem name (List.mem_append_left _ hname)
  have hempty : ∀ path, path ≠ [] → archivedFile.tree.lookup (path ++ [[0x64]]) = none := by
    intro path _
    by_contra hsome
    have hmem := mem_keys_of_lookup hsome
    rw [archivedFile_keys] at hmem
    have hlast : ∀ p ∈ [[], [[0x73]], [[0x78], [0x73]], [[0x61]]],
        p.getLast? ≠ some ([0x64] : Bytes) := by decide
    exact hlast _ hmem List.getLast?_concat
  have harchive : Effect.runFrom (archiveLocalFolder plainSystem Archive.idle [] [[0x73]]
      [[0x61]]) oneFile = (.ok ⟨⟩, archivedFile) := runFrom_of_fst (by decide +kernel)
  have hsame : archivedFile.tree.lookup [[0x61]] = archivedFile.tree.lookup [[0x61]] := rfl
  have hgoto : (Effect.runFrom (gotoDir [[0x64]]) archivedFile).1 = .ok ⟨⟩ := by decide +kernel
  obtain ⟨result, e', hrun, hreturns, -, hcontents, -⟩ := extractArchive_archiveLocalFolder
    (fun _ _ => List.Perm.refl _) hnames harchive (by decide) hsame (FileTree.lookup_nil _)
    (runFrom_of_fst hgoto) (by decide +kernel) hempty
  have hfile : oneFile.tree.lookup ([[0x78]] ++ [[0x73]]) = some (.file [1, 2]) := by
    decide +kernel
  exact ⟨result, e', hrun, hreturns ⟨[[0x78]], [1, 2], hfile⟩,
    (hcontents [[0x78]] [1, 2]).mpr hfile⟩

end SecCask.Pipeman.FileUtils
