import SecCask.Lib.PosixPath
import SecCask.Lib.Run

/-!
# SecCask.Pipeman.FileUtils

`FileUtils.extract_archive_to` (`file.py`): the members of an archive are written to the paths
that their names give relative to the destination, which is made the current folder first.
Nothing checks where such a path lies.
-/

namespace SecCask.Pipeman.FileUtils

open PosixPath

/-- A name or a content, as bytes. -/
abbrev Bytes := List UInt8

/-- What `stream_unzip` yields for a member: its name and its content. -/
abbrev Member := Bytes × Bytes

/-- `path.decode("utf-8")` succeeds. The slashes between the components do not matter. -/
def decodes (path : List Bytes) : Bool :=
  path.all fun name => (ByteArray.mk name.toArray).validateUTF8

/-- `goto_dir`: the folder becomes the current one. -/
def gotoDir (directory : List Bytes) : Effect FileError (Disk Bytes Bytes) PUnit := do
  Disk.checkOrCreateDir directory
  if !(← get).tree.isDir directory then throw .missing

/-- The body of the loop, in the current folder `cwd`. A folder name that does not decode is
an error too. -/
def extractMember (cwd : List Bytes) (member : Member) :
    Effect FileError (Disk Bytes Bytes) PUnit := do
  let fileName := abspath cwd member.1
  if !decodes fileName.tail then throw .illegalName
  Disk.checkOrCreateDir fileName.tail
  Disk.write fileName member.2

/-- `FileUtils.extract_archive_to`, called in the folder `oldPwd`; the destination is given as
the path that it normalises to. -/
def extractArchiveTo (oldPwd destPath : List Bytes) (members : List Member) :
    Effect FileError (Disk Bytes Bytes) PUnit := do
  gotoDir destPath
  members.forM (extractMember destPath)
  gotoDir oldPwd

/-- Everything that was created or overwritten lies under the destination. The folders that
lead to the destination are created when they are missing. -/
def Contained (destPath : List Bytes) (d : Disk Bytes Bytes) : Prop :=
  ∀ path ∈ d.touched, destPath <:+ path ∨ path <:+ destPath

/-- Nothing can be created or overwritten on the way to this path. -/
def unwritable (t : FileTree Bytes Bytes) : List Bytes → Bool
  | [] => true
  | name :: path =>
      !decodes path ||
        match t.lookup path with
        | some .folder => !FileName.legal name || t.isDir (name :: path)
        | some (.file _) => true
        | none => Disk.blocked t path

/-- The name of the member leads to a path under the destination, or to one where nothing can
be written. -/
def StaysInside (destPath : List Bytes) (d : Disk Bytes Bytes) (member : Member) : Prop :=
  destPath <:+ abspath destPath member.1 ∨
    unwritable d.tree (abspath destPath member.1) = true

/-- The extraction of one member, as a step: an error ends the extraction. -/
def extractStep (destPath : List Bytes) (d : Disk Bytes Bytes) (member : Member) :
    Option (Disk Bytes Bytes) :=
  match Effect.runFrom (extractMember destPath member) d with
  | (.ok _, d') => some d'
  | (.error _, _) => none

/-! ### One member -/

theorem gotoDir_fills (directory : List Bytes) (d : Disk Bytes Bytes) :
    Disk.Fills directory d (Effect.runFrom (gotoDir directory) d).2 := by
  have hfills := Disk.fills_checkOrCreateDir directory d
  rw [gotoDir, Effect.runFrom_bind]
  rcases hrun : Effect.runFrom (Disk.checkOrCreateDir directory) d with ⟨e | _, d'⟩ <;>
    rw [hrun] at hfills
  · exact hfills
  · dsimp only
    rw [Effect.runFrom_bind, Effect.runFrom_get]
    dsimp only
    split
    · exact hfills
    · exact hfills

theorem isFolder_of_gotoDir {directory : List Bytes} {d d' : Disk Bytes Bytes}
    (h : Effect.runFrom (gotoDir directory) d = (.ok ⟨⟩, d')) :
    d'.tree.lookup directory = some .folder := by
  rw [gotoDir, Effect.runFrom_bind] at h
  rcases hrun : Effect.runFrom (Disk.checkOrCreateDir directory) d with ⟨e | _, t⟩ <;>
    rw [hrun] at h
  · cases (Prod.mk.inj h).1
  · dsimp only at h
    rw [Effect.runFrom_bind, Effect.runFrom_get] at h
    dsimp only at h
    by_cases hdir : t.tree.isDir directory = true
    · simp only [hdir, Bool.not_true, Bool.false_eq_true, if_false] at h
      obtain rfl := (Effect.runFrom_pure_eq_ok_iff.mp h).2
      exact FileTree.isDir_iff.mp hdir
    · rw [Bool.not_eq_true] at hdir
      simp only [hdir, Bool.not_false, if_true] at h
      cases (Prod.mk.inj h).1

/-- Going to a folder that is there changes nothing. -/
theorem gotoDir_of_isFolder {directory : List Bytes} {d : Disk Bytes Bytes}
    (h : d.tree.lookup directory = some .folder) :
    Effect.runFrom (gotoDir directory) d = (.ok ⟨⟩, d) := by
  have hexists : Effect.runFrom (Disk.checkOrCreateDir directory) d = (.ok ⟨⟩, d) := by
    rw [Disk.checkOrCreateDir, Disk.runFrom_unlessExists, if_neg (by simp [h])]
  have hdir : d.tree.isDir directory = true := FileTree.isDir_iff.mpr h
  rw [gotoDir, Effect.runFrom_bind, hexists]
  dsimp only
  rw [Effect.runFrom_bind, Effect.runFrom_get]
  simp only [hdir, Bool.not_true, Bool.false_eq_true, if_false, Effect.runFrom_pure]

/-- The round for a member whose folder name decodes: the folder, and then the file. -/
theorem runFrom_extractMember {cwd : List Bytes} {member : Member}
    (hdecodes : decodes (abspath cwd member.1).tail = true) (d : Disk Bytes Bytes) :
    Effect.runFrom (extractMember cwd member) d =
      match Effect.runFrom (Disk.checkOrCreateDir (abspath cwd member.1).tail) d with
      | (.ok _, d') => Effect.runFrom (Disk.write (abspath cwd member.1) member.2) d'
      | (.error e, d') => (.error e, d') := by
  unfold extractMember
  simp only [hdecodes, Bool.not_true, Bool.false_eq_true, if_false]
  rw [Effect.runFrom_bind]
  rcases Effect.runFrom (Disk.checkOrCreateDir (abspath cwd member.1).tail) d with ⟨_ | _, d'⟩
  · rfl
  · rfl

theorem extractMember_undecodable {cwd : List Bytes} {member : Member}
    (hdecodes : decodes (abspath cwd member.1).tail = false) (d : Disk Bytes Bytes) :
    Effect.runFrom (extractMember cwd member) d = (.error .illegalName, d) := by
  unfold extractMember
  simp only [hdecodes, Bool.not_false, if_true]
  rfl

theorem extractMember_grows (cwd : List Bytes) (member : Member) :
    Effect.Within Disk.Grows (extractMember cwd member) := by
  intro d
  by_cases hdecodes : decodes (abspath cwd member.1).tail = true
  · have hfills := (Disk.fills_checkOrCreateDir (abspath cwd member.1).tail d).grows
    rw [runFrom_extractMember hdecodes]
    rcases hrun : Effect.runFrom (Disk.checkOrCreateDir (abspath cwd member.1).tail) d
      with ⟨e | _, d'⟩ <;> rw [hrun] at hfills
    · exact hfills
    · exact hfills.trans (Disk.grows_write _ _ d')
  · rw [extractMember_undecodable (by simpa using hdecodes)]
    exact Disk.Grows.refl d

/-- A member for which nothing can be written fails without a trace. -/
theorem extractMember_unwritable {cwd : List Bytes} {member : Member} {d : Disk Bytes Bytes}
    (h : unwritable d.tree (abspath cwd member.1) = true) :
    ∃ e, Effect.runFrom (extractMember cwd member) d = (.error e, d) := by
  by_cases hdecodes : decodes (abspath cwd member.1).tail = true
  swap
  · exact ⟨_, extractMember_undecodable (by simpa using hdecodes) d⟩
  rw [runFrom_extractMember hdecodes]
  rcases hpath : abspath cwd member.1 with _ | ⟨name, path⟩
  · -- The root is there, and it is a folder.
    rw [List.tail_nil, Disk.checkOrCreateDir, Disk.runFrom_unlessExists, if_neg (by simp)]
    dsimp only
    rw [Disk.write, Effect.runFrom_attempt]
    exact ⟨_, rfl⟩
  · rw [hpath, List.tail_cons] at hdecodes
    rw [hpath, unwritable, hdecodes, Bool.not_true, Bool.false_or] at h
    rw [List.tail_cons]
    have hwrite : ¬ (FileName.legal name = true ∧ d.tree.lookup path = some .folder ∧
        d.tree.lookup (name :: path) ≠ some .folder) →
        ∃ e, Effect.runFrom (Disk.write (name :: path) member.2) d = (.error e, d) := by
      intro hnot
      rcases Disk.write_cases name path member.2 d with ⟨hlegal, hparent, hfree, -⟩ | ⟨-, hrun⟩
      · exact absurd ⟨hlegal, hparent, hfree⟩ hnot
      · exact hrun
    by_cases hmissing : d.tree.lookup path = none
    · rw [hmissing] at h
      obtain ⟨e, hrun⟩ := Disk.makedirs_of_blocked hmissing h
      rw [Disk.checkOrCreateDir, Disk.runFrom_unlessExists, if_pos hmissing, hrun]
      exact ⟨e, rfl⟩
    · rw [Disk.checkOrCreateDir, Disk.runFrom_unlessExists, if_neg hmissing]
      dsimp only
      apply hwrite
      intro hcan
      obtain ⟨hlegal, hparent, hfree⟩ := hcan
      rw [hparent] at h
      simp only [hlegal, Bool.not_true, Bool.false_or, FileTree.isDir_iff] at h
      exact hfree h

/-- For any other member something on the way to its path is written. -/
theorem extractMember_touches {cwd : List Bytes} {member : Member} {d : Disk Bytes Bytes}
    (h : unwritable d.tree (abspath cwd member.1) = false) :
    ∃ p, p <:+ abspath cwd member.1 ∧ d.tree.lookup p ≠ some .folder ∧
      p ∈ (Effect.runFrom (extractMember cwd member) d).2.touched := by
  rcases hpath : abspath cwd member.1 with _ | ⟨name, path⟩
  · rw [hpath] at h
    cases h
  rw [hpath, unwritable, Bool.or_eq_false_iff, Bool.not_eq_false'] at h
  obtain ⟨hdecodes, h⟩ := h
  rw [runFrom_extractMember (by rw [hpath]; exact hdecodes), hpath, List.tail_cons,
    Disk.checkOrCreateDir, Disk.runFrom_unlessExists]
  rcases hlookup : d.tree.lookup path with _ | (_ | content)
  · rw [hlookup] at h
    obtain ⟨p, hsuffix, hp, hnone⟩ := Disk.makedirs_touches hlookup h
    refine ⟨p, hsuffix.trans (List.suffix_cons _ _), by simp [hnone], ?_⟩
    rw [if_pos rfl]
    rcases hrun : Effect.runFrom (Disk.makedirs path) d with ⟨e | _, d'⟩ <;> rw [hrun] at hp
    · exact hp
    · exact (Disk.grows_write _ _ d').recorded p hp
  · rw [hlookup] at h
    simp only [Bool.or_eq_false_iff, Bool.not_eq_false'] at h
    rw [if_neg (by simp)]
    dsimp only
    have hfree : d.tree.lookup (name :: path) ≠ some .folder := by
      intro hfolder
      rw [← FileTree.isDir_iff, h.2] at hfolder
      cases hfolder
    rcases Disk.write_cases name path member.2 d with ⟨-, -, -, d', hrun, hwrites⟩ | ⟨hnot, -⟩
    · rw [hrun]
      exact ⟨name :: path, List.suffix_rfl, hfree, by simp [hwrites.touched]⟩
    · exact absurd ⟨h.1, hlookup, hfree⟩ hnot
  · rw [hlookup] at h
    cases h

/-! ### Containment -/

/-- Nothing that was written is forgotten: what escaped stays on record. -/
theorem Contained.of_grows {destPath : List Bytes} {d d' : Disk Bytes Bytes}
    (h : Contained destPath d') (hgrows : Disk.Grows d d') : Contained destPath d :=
  fun path hpath => h path (hgrows.recorded path hpath)

theorem Contained.of_fills {destPath path : List Bytes} {d d' : Disk Bytes Bytes}
    (h : Contained destPath d) (hfills : Disk.Fills path d d')
    (hpath : destPath <:+ path ∨ path <:+ destPath) : Contained destPath d' := by
  obtain ⟨new, htouched, hnew, -⟩ := hfills
  intro p hp
  rw [htouched] at hp
  rcases List.mem_append.mp hp with hp | hp
  · have hsuffix := (hnew p hp).1
    rcases hpath with hpath | hpath
    · exact List.suffix_or_suffix_of_suffix hpath hsuffix
    · exact Or.inr (hsuffix.trans hpath)
  · exact h p hp

theorem Contained.write {destPath path : List Bytes} {content : Bytes} {d : Disk Bytes Bytes}
    (h : Contained destPath d) (hpath : destPath <:+ path) :
    Contained destPath (Effect.runFrom (Disk.write path content) d).2 := by
  rcases path with _ | ⟨name, path⟩
  · rw [Disk.write, Effect.runFrom_attempt]
    exact h
  · rcases Disk.write_cases name path content d with ⟨-, -, -, d', hrun, hwrites⟩ | ⟨-, e, hrun⟩
    · rw [hrun]
      intro p hp
      rw [hwrites.touched] at hp
      rcases List.mem_cons.mp hp with rfl | hp
      · exact Or.inl hpath
      · exact h p hp
    · rw [hrun]
      exact h

/-- What is above the destination is a folder and cannot be overwritten, so the condition on
the member is exact. -/
theorem contained_extractMember_iff {destPath : List Bytes} {member : Member}
    {d : Disk Bytes Bytes} (h : Contained destPath d)
    (hdest : d.tree.lookup destPath = some .folder) :
    Contained destPath (Effect.runFrom (extractMember destPath member) d).2 ↔
      StaysInside destPath d member := by
  constructor
  · intro hafter
    by_cases hunwritable : unwritable d.tree (abspath destPath member.1) = true
    · exact Or.inr hunwritable
    obtain ⟨p, hsuffix, hfree, hp⟩ := extractMember_touches (by simpa using hunwritable)
    rcases hafter p hp with hunder | hover
    · exact Or.inl (hunder.trans hsuffix)
    · have hsame : p = destPath := by
        by_contra hne
        exact hfree (FileTree.lookup_of_suffix hover hne (by simp [hdest]))
      exact Or.inl (hsame ▸ hsuffix)
  · intro hstays
    rcases hstays with hinside | hunwritable
    · by_cases hdecodes : decodes (abspath destPath member.1).tail = true
      · have htail : destPath <:+ (abspath destPath member.1).tail ∨
            (abspath destPath member.1).tail <:+ destPath :=
          List.suffix_or_suffix_of_suffix hinside (List.tail_suffix _)
        have hfolder := h.of_fills (Disk.fills_checkOrCreateDir _ d) htail
        rw [runFrom_extractMember hdecodes]
        rcases hrun : Effect.runFrom (Disk.checkOrCreateDir (abspath destPath member.1).tail) d
          with ⟨e | _, d'⟩ <;> rw [hrun] at hfolder
        · exact hfolder
        · exact hfolder.write hinside
      · rw [extractMember_undecodable (by simpa using hdecodes)]
        exact h
    · obtain ⟨e, hrun⟩ := extractMember_unwritable hunwritable
      rw [hrun]
      exact h

/-- The loop over the members: induction on the list. That nothing lies outside, and that the
destination is a folder, is carried from one round to the next. -/
theorem contained_forM_iff {destPath : List Bytes} (members : List Member)
    {d : Disk Bytes Bytes} (h : Contained destPath d)
    (hdest : d.tree.lookup destPath = some .folder) :
    Contained destPath (Effect.runFrom (members.forM (extractMember destPath)) d).2 ↔
      Along (extractStep destPath) (StaysInside destPath) d members := by
  induction members generalizing d with
  | nil => exact iff_of_true h trivial
  | cons member members ih =>
      have hmember : Contained destPath (Effect.runFrom (extractMember destPath member) d).2 ↔
          StaysInside destPath d member := contained_extractMember_iff h hdest
      have hgrows := extractMember_grows destPath member d
      show Contained destPath (Effect.runFrom (extractMember destPath member >>= fun _ =>
        members.forM (extractMember destPath)) d).2 ↔ StaysInside destPath d member ∧ _
      rw [Effect.runFrom_bind, extractStep]
      rcases hrun : Effect.runFrom (extractMember destPath member) d with ⟨e | _, d'⟩ <;>
        rw [hrun] at hmember hgrows
      · rw [hmember]
        simp
      · simp only [Option.some.injEq, forall_eq']
        have hlater : Disk.Grows d'
            (Effect.runFrom (members.forM (extractMember destPath)) d').2 :=
          Effect.Within.forM (fun member _ => extractMember_grows destPath member) d'
        rw [← hmember]
        constructor
        · intro hafter
          have hcontained := hafter.of_grows hlater
          exact ⟨hcontained, (ih hcontained (hgrows.folder _ hdest)).mp hafter⟩
        · intro hboth
          exact (ih hboth.1 (hgrows.folder _ hdest)).mpr hboth.2

/-- Everything that an extraction writes lies under its destination exactly if each member
that it comes to leads there, or to a place where nothing can be written. -/
theorem contained_iff_staysInside {oldPwd destPath : List Bytes} {d : Disk Bytes Bytes}
    (hfresh : d.touched = []) (hcwd : d.tree.lookup oldPwd = some .folder)
    (members : List Member) :
    Contained destPath (Effect.runFrom (extractArchiveTo oldPwd destPath members) d).2 ↔
      ∀ d', Effect.runFrom (gotoDir destPath) d = (.ok ⟨⟩, d') →
        Along (extractStep destPath) (StaysInside destPath) d' members := by
  have hstart : Contained destPath d := by
    intro path hpath
    rw [hfresh] at hpath
    cases hpath
  have hgoto := gotoDir_fills destPath d
  have hentered := hstart.of_fills hgoto (Or.inl List.suffix_rfl)
  rw [extractArchiveTo, Effect.runFrom_bind]
  rcases hrun : Effect.runFrom (gotoDir destPath) d with ⟨e | _, d'⟩ <;>
    rw [hrun] at hgoto hentered
  · exact iff_of_true hentered (by simp)
  · simp only [Prod.mk.injEq, true_and, forall_eq']
    rw [← contained_forM_iff members hentered (isFolder_of_gotoDir hrun)]
    have hloop : Disk.Grows d' (Effect.runFrom (members.forM (extractMember destPath)) d').2 :=
      Effect.Within.forM (fun member _ => extractMember_grows destPath member) d'
    rw [Effect.runFrom_bind]
    rcases hmembers : Effect.runFrom (members.forM (extractMember destPath)) d'
      with ⟨e | _, d''⟩
    · rfl
    · -- The folder that the caller was in is still there.
      rw [hmembers] at hloop
      dsimp only
      rw [gotoDir_of_isFolder (hloop.folder _ (hgoto.grows.folder _ hcwd))]

/-- An empty file system. -/
def emptyDisk : Disk Bytes Bytes := ⟨FileTree.empty, []⟩

/-- The member `a/../f`, extracted to `/d`. -/
theorem detour_contained : Contained [[0x64]] (Effect.runFrom (extractArchiveTo [] [[0x64]]
    [([0x61, 0x2F, 0x2E, 0x2E, 0x2F, 0x66], [1])]) emptyDisk).2 :=
  (contained_iff_staysInside rfl (FileTree.lookup_nil _) _).mpr fun _ _ =>
    ⟨Or.inl (by decide), fun _ _ => trivial⟩

/-- The member `../x`, extracted to `/d`, is written to `/x`. -/
theorem parentName_escapes : ¬ Contained [[0x64]] (Effect.runFrom (extractArchiveTo [] [[0x64]]
    [([0x2E, 0x2E, 0x2F, 0x78], [1])]) emptyDisk).2 := by
  have hwritten : (Effect.runFrom (extractArchiveTo [] [[0x64]]
      [([0x2E, 0x2E, 0x2F, 0x78], [1])]) emptyDisk).2.touched = [[[0x78]], [[0x64]]] := by
    decide +kernel
  intro h
  have hinside := h [[0x78]] (by simp [hwritten])
  revert hinside
  decide

end SecCask.Pipeman.FileUtils
