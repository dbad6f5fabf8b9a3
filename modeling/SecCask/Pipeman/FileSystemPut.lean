import SecCask.Pipeman.FileSystemStorage

/-!
# SecCask.Pipeman.FileSystemPut

What one `put` of the file system storage does to the folder tree, wherever it stops: which
paths it changes, and that the head only ever gets a version whose value is in its place.

A put is a list of steps, and one that is cut off or raises has done a first part of them. The
steps before the head is opened change the listed files and make folders on the way to the new
one (`Disk.Changes`), whether they return or not. If all of them return, the value has been
written, moved, and left alone since. Opening the head empties it, and only writing it makes it
name the new version. So there are three outcomes (`PutOutcome`), and every statement about puts
is a case analysis over them.
-/

namespace SecCask.Pipeman

open PyString (universalNewlines universalNewlines_eq_self_iff)

/-! ### Text mode -/

theorem readText_toUTF8 (text : String) :
    readText text.toUTF8 = .ok (String.ofList (universalNewlines text.toList)) := by
  have hdecode : String.fromUTF8? text.toUTF8 = some text := dif_pos text.isValidUTF8
  rw [readText, hdecode]

theorem readText_eq_self_iff {text : String} :
    readText text.toUTF8 = .ok text ↔ '\r' ∉ text.toList := by
  rw [readText_toUTF8, ← universalNewlines_eq_self_iff, Except.ok.injEq]
  constructor
  · intro h
    rw [← String.toList_inj, String.toList_ofList] at h
    exact h
  · intro h
    rw [h, String.ofList_toList]

/-! ### Names -/

namespace HVersion

open PosixPath

theorem name_ne (hversion : HVersion) {other : List Char} {c : Char} (hc : c ∈ other)
    (hnot : c ∉ "0123456789abcdef".toList) : hversion.name ≠ other := by
  intro h
  rw [← h] at hc
  exact hnot (hversion.hex c hc)

theorem name_ne_headFileName (hversion : HVersion) :
    hversion.name ≠ FileSystemStorage.headFileName :=
  hversion.name_ne (c := '@') (by decide) (by decide)

theorem name_ne_genericFileName (hversion : HVersion) :
    hversion.name ≠ FileSystemStorage.genericFileName :=
  hversion.name_ne (c := 'V') (by decide) (by decide)

theorem name_ne_hashFileName (hversion : HVersion) :
    hversion.name ≠ FileSystemStorage.hashFileName :=
  hversion.name_ne (c := 'V') (by decide) (by decide)

theorem name_ne_parentsFileName (hversion : HVersion) :
    hversion.name ≠ FileSystemStorage.parentsFileName :=
  hversion.name_ne (c := 'P') (by decide) (by decide)

theorem isName (hversion : HVersion) : IsName hversion.name where
  ne_nil := by
    intro h
    have hlength := hversion.length_eq
    rw [← HVersion.name, h] at hlength
    cases hlength
  noSlash := fun h => absurd (hversion.hex _ h) (by decide)
  ne_dot := hversion.name_ne (c := '.') (by decide) (by decide)
  ne_dotdot := hversion.name_ne (c := '.') (by decide) (by decide)

theorem legal (hversion : HVersion) : FileName.legal hversion.name = true := by
  have hnull : Char.ofNat 0 ∉ hversion.name := fun h => absurd (hversion.hex _ h) (by decide)
  show (!hversion.name.contains (Char.ofNat 0)) = true
  simp [hnull]

theorem name_injective : Function.Injective name := by
  intro a b h
  obtain ⟨text, _, _⟩ := a
  obtain ⟨text', _, _⟩ := b
  obtain rfl : text = text' := String.toList_injective h
  rfl

theorem readText_text (hversion : HVersion) :
    readText hversion.text.toUTF8 = .ok hversion.text :=
  readText_eq_self_iff.mpr fun h => absurd (hversion.hex _ h) (by decide)

end HVersion

namespace FileSystemStorage

open PosixPath

variable {host : Host}

/-! ### The paths of a put

All files of a put have reserved names, in the folder of the branch or in that of the version.
The head is none of the files that are written before it. -/

/-- `@HEAD` in the folder of the branch. -/
def Put.headFile (host : Host) (p : Put) : Path := headFileName :: p.remoteDir host

/-- The value in the folder of its version. -/
def Put.valueFile (host : Host) (p : Put) : Path := genericFileName :: p.newDir host

/-- What a put writes or moves before it sets the head. -/
def Put.storeFiles (host : Host) (p : Put) : List Path :=
  [ genericFileName :: p.remoteDir host, hashFileName :: p.remoteDir host, p.valueFile host,
    hashFileName :: p.newDir host, parentsFileName :: p.newDir host ]

/-- All of what it writes or moves. -/
def Put.files (host : Host) (p : Put) : List Path := p.headFile host :: p.storeFiles host

theorem remoteDir_suffix_newDir (p : Put) : p.remoteDir host <:+ p.newDir host :=
  List.suffix_cons _ _

theorem headFile_notMem_storeFiles (p : Put) : p.headFile host ∉ p.storeFiles host := by
  intro h
  have hhead : ∀ name ∈ [genericFileName, hashFileName, parentsFileName],
      headFileName ≠ name := by decide
  simp only [Put.headFile, Put.storeFiles, Put.valueFile, Put.newDir, List.mem_cons,
    List.cons.injEq, List.not_mem_nil, or_false] at h
  rcases h with h | h | h | h | h <;> exact hhead _ (by simp) h.1

theorem headFile_not_suffix_newDir (p : Put) : ¬ p.headFile host <:+ p.newDir host := by
  intro h
  have heq := h.eq_of_length (by simp [Put.headFile, Put.newDir])
  exact p.hversion.name_ne_headFileName (List.cons.inj heq).1.symm

/-! ### Which paths a put changes

One lemma for the steps up to the head and one for all of them, for every first part. -/

theorem writeParents_changes {limit : Path} {files : List Path} (p : Put)
    (hfile : parentsFileName :: p.newDir host ∈ files) :
    Effect.Within (Disk.Changes limit files) (writeParents host p) := by
  refine Effect.Within.bind Effect.Within.get fun d => ?_
  refine Effect.Within.bind (Effect.Within.ofExcept _) fun _ => ?_
  exact Disk.Changes.write hfile _

theorem storeSteps_changes (p : Put) : ∀ x ∈ storeSteps host p,
    Effect.Within (Disk.Changes (p.newDir host) (p.storeFiles host)) x := by
  have hwriteValue : Effect.Within (Disk.Changes (p.newDir host) (p.storeFiles host))
      (writeValue host p) := by
    refine Effect.Within.bind (Disk.Changes.write (by simp [Put.storeFiles]) _) fun _ => ?_
    split
    · exact Disk.Changes.write (by simp [Put.storeFiles]) _
    · exact Effect.Within.pure _
  intro x hx
  simp only [storeSteps, List.mem_append, List.mem_cons, List.not_mem_nil, or_false] at hx
  rcases hx with ((rfl | rfl | rfl | rfl) | hx) | rfl
  · exact Disk.Changes.checkOrCreateDir (remoteDir_suffix_newDir p)
  · exact hwriteValue
  · exact Disk.Changes.checkOrCreateDir List.suffix_rfl
  · exact Disk.Changes.rename (by simp [Put.storeFiles])
      (by simp [Put.storeFiles, Put.valueFile])
  · split at hx
    · rw [List.mem_singleton] at hx
      subst hx
      exact Disk.Changes.rename (by simp [Put.storeFiles]) (by simp [Put.storeFiles])
    · cases hx
  · exact writeParents_changes p (by simp [Put.storeFiles])

theorem storeSteps_take_changes (p : Put) (n : ℕ) :
    Effect.Within (Disk.Changes (p.newDir host) (p.storeFiles host))
      (((storeSteps host p).take n).forM id) :=
  Effect.Within.forM fun x hx => storeSteps_changes p x (List.mem_of_mem_take hx)

theorem putUntil_changes (p : Put) (n : ℕ) :
    Effect.Within (Disk.Changes (p.newDir host) (p.files host)) (putUntil host p n) := by
  refine Effect.Within.forM fun x hx => ?_
  rcases List.mem_append.mp (List.mem_of_mem_take hx) with hstore | hhead
  · exact (storeSteps_changes p x hstore).mono fun _ _ h => h.mono (List.subset_cons_self _ _)
  · simp only [setHeadSteps, List.mem_cons, List.not_mem_nil, or_false] at hhead
    rcases hhead with rfl | rfl <;> exact Disk.Changes.write (by simp [Put.files, Put.headFile]) _

/-! ### The value is in its place before the head names it

The value is followed through the steps: it is written next to the head, the folder of the
version is made, the value is moved there, and what comes after that changes other files. -/

theorem lookup_of_writeValue {p : Put} {d d' : FileSystem}
    (h : Effect.runFrom (writeValue host p) d = (.ok ⟨⟩, d')) :
    d'.tree.lookup (genericFileName :: p.remoteDir host) = some (.file p.value.bytes) := by
  obtain ⟨_, t, hwrite, hrest⟩ := Effect.runFrom_bind_eq_ok_iff.mp h
  have hvalue := Disk.lookup_of_write hwrite (genericFileName :: p.remoteDir host)
  rw [if_pos rfl] at hvalue
  split at hrest
  · have hhash : Effect.Within (Disk.Changes [] [hashFileName :: p.remoteDir host])
        (Disk.write (hashFileName :: p.remoteDir host) (host.hashFile p.value.bytes)) :=
      Disk.Changes.write (List.mem_singleton_self _) _
    have hchanges := hhash.of_run hrest
    rw [hchanges.lookup_of_ne_none, hvalue]
    · rw [List.mem_singleton, List.cons.injEq]
      exact fun heq => absurd heq.1 (by decide)
    · simp [hvalue]
  · obtain rfl := (Effect.runFrom_pure_eq_ok_iff.mp hrest).2
    exact hvalue

theorem lookup_of_rename {source : Path} {name : Name} {path : Path} {content : ByteArray}
    {d d' : FileSystem} (hsource : d.tree.lookup source = some (.file content))
    (h : Effect.runFrom (Disk.rename source (name :: path)) d = (.ok ⟨⟩, d')) :
    d'.tree.lookup (name :: path) = some (.file content) := by
  rcases Disk.rename_cases source name path d with ⟨content', -, hsame, hrun⟩ |
    ⟨content', hsource', hne, -, -, -, t, hrun, hlookup⟩ | ⟨-, e, hrun⟩
  · obtain rfl := (Prod.mk.inj (hrun.symm.trans h)).2
    rw [← hsame]
    exact hsource
  · obtain rfl := (Prod.mk.inj (hrun.symm.trans h)).2
    rw [hlookup, if_neg hne.symm, if_pos rfl, ← hsource', hsource]
  · cases (Prod.mk.inj (hrun.symm.trans h)).1

/-- The first steps of a put move the value to its place. -/
def moveSteps (host : Host) (p : Put) : List (Effect FileError FileSystem PUnit) :=
  [ Disk.checkOrCreateDir (p.remoteDir host),
    writeValue host p,
    Disk.checkOrCreateDir (p.newDir host),
    Disk.rename (genericFileName :: p.remoteDir host) (genericFileName :: p.newDir host) ]

theorem lookup_valueFile_of_moveSteps {p : Put} {d d' : FileSystem}
    (h : Effect.runFrom ((moveSteps host p).forM id) d = (.ok ⟨⟩, d')) :
    d'.tree.lookup (p.valueFile host) = some (.file p.value.bytes) := by
  obtain ⟨_, d₁, -, h⟩ := Effect.runFrom_bind_eq_ok_iff.mp h
  obtain ⟨_, d₂, hvalue, h⟩ := Effect.runFrom_bind_eq_ok_iff.mp h
  obtain ⟨_, d₃, hfolder, h⟩ := Effect.runFrom_bind_eq_ok_iff.mp h
  obtain ⟨_, d₄, hrename, h⟩ := Effect.runFrom_bind_eq_ok_iff.mp h
  obtain rfl := (Effect.runFrom_pure_eq_ok_iff.mp h).2
  have hwritten := lookup_of_writeValue hvalue
  have hkept : d₃.tree.lookup (genericFileName :: p.remoteDir host) =
      d₂.tree.lookup (genericFileName :: p.remoteDir host) :=
    ((Disk.Changes.checkOrCreateDir List.suffix_rfl).of_run hfolder).lookup_of_ne_none
      List.not_mem_nil (by simp [hwritten])
  exact lookup_of_rename (hkept.trans hwritten) hrename

/-- What changes after that and before the head. -/
def Put.sideFiles (host : Host) (p : Put) : List Path :=
  [ hashFileName :: p.remoteDir host, hashFileName :: p.newDir host,
    parentsFileName :: p.newDir host ]

theorem sideSteps_changes (p : Put) : ∀ x ∈ (if host.componentKey ≠ "" then
    [Disk.rename (hashFileName :: p.remoteDir host) (hashFileName :: p.newDir host)]
      else []) ++ [writeParents host p],
    Effect.Within (Disk.Changes (p.newDir host) (p.sideFiles host)) x := by
  intro x hx
  simp only [List.mem_append, List.mem_singleton] at hx
  rcases hx with hx | rfl
  · split at hx
    · rw [List.mem_singleton] at hx
      subst hx
      exact Disk.Changes.rename (by simp [Put.sideFiles]) (by simp [Put.sideFiles])
    · cases hx
  · exact writeParents_changes p (by simp [Put.sideFiles])

/-- Once the value has been moved, the steps up to the head leave it. -/
theorem lookup_valueFile_of_storeSteps {p : Put} {d d' : FileSystem}
    (h : Effect.runFrom ((storeSteps host p).forM id) d = (.ok ⟨⟩, d')) :
    d'.tree.lookup (p.valueFile host) = some (.file p.value.bytes) := by
  have hplace : p.valueFile host ∉ p.sideFiles host := by
    have hname : ∀ name ∈ [hashFileName, parentsFileName], genericFileName ≠ name := by decide
    simp only [Put.sideFiles, Put.valueFile, List.mem_cons, List.cons.injEq, List.not_mem_nil,
      or_false, not_or]
    exact ⟨fun h => hname _ (by simp) h.1, fun h => hname _ (by simp) h.1,
      fun h => hname _ (by simp) h.1⟩
  rw [storeSteps, List.append_assoc, Effect.runFrom_forM_append] at h
  rcases hmove : Effect.runFrom (List.forM (moveSteps host p) id) d with ⟨e | _, t⟩
  · rw [moveSteps] at hmove
    rw [hmove] at h
    cases (Prod.mk.inj h).1
  · have hmoved := lookup_valueFile_of_moveSteps hmove
    rw [moveSteps] at hmove
    rw [hmove] at h
    have hchanges := (Effect.Within.forM (sideSteps_changes p)).of_run h
    rw [hchanges.lookup_of_ne_none hplace (by simp [hmoved]), hmoved]

/-- How a put may end: it has not touched the head and has not come to its end; or it stopped
when the head had been emptied; or the head names its version, whose value is in its place. -/
inductive PutOutcome (host : Host) (p : Put) (n : ℕ) (d : FileSystem) :
    Except FileError PUnit × FileSystem → Prop
  | untouched {r : Except FileError PUnit} {d' : FileSystem}
      (unfinished : r = .ok ⟨⟩ → n < (putSteps host p).length)
      (changes : Disk.Changes (p.newDir host) (p.storeFiles host) d d') :
      PutOutcome host p n d (r, d')
  | emptied {r : Except FileError PUnit} {d' : FileSystem}
      (stopped : n = (storeSteps host p).length + 1)
      (head : d'.tree.lookup (p.headFile host) = some (.file "".toUTF8)) :
      PutOutcome host p n d (r, d')
  | shifted {d' : FileSystem} (finished : (putSteps host p).length ≤ n)
      (head : d'.tree.lookup (p.headFile host) = some (.file p.hversion.text.toUTF8))
      (value : d'.tree.lookup (p.valueFile host) = some (.file p.value.bytes)) :
      PutOutcome host p n d (.ok ⟨⟩, d')

theorem length_putSteps (p : Put) :
    (putSteps host p).length = (storeSteps host p).length + 2 := by
  rw [putSteps, List.length_append]
  rfl

theorem putOutcome (p : Put) (n : ℕ) (d : FileSystem) :
    PutOutcome host p n d (Effect.runFrom (putUntil host p n) d) := by
  have hpart := @storeSteps_take_changes host p n d
  have hlength := @length_putSteps host p
  rw [putUntil, putSteps, List.take_append, Effect.runFrom_forM_append]
  by_cases hn : n ≤ (storeSteps host p).length
  · -- The put ends before it opens the head.
    rw [Nat.sub_eq_zero_of_le hn, List.take_zero]
    rcases hrun : Effect.runFrom (((storeSteps host p).take n).forM id) d with ⟨e | _, d₁⟩ <;>
      rw [hrun] at hpart
    · exact .untouched (fun _ => by omega) hpart
    · exact .untouched (fun _ => by omega) hpart
  · rw [List.take_of_length_le (by omega)] at hpart ⊢
    rcases hrun : Effect.runFrom ((storeSteps host p).forM id) d with ⟨e | _, d₁⟩ <;>
      rw [hrun] at hpart
    · exact .untouched (fun h => by cases h) hpart
    have hvalue := lookup_valueFile_of_storeSteps hrun
    have hne : p.valueFile host ≠ headFileName :: p.remoteDir host := by
      intro h
      exact absurd (List.cons.inj h).1 (by decide)
    -- Opening the head for writing fails and changes nothing, or it empties the file.
    rcases Disk.write_cases headFileName (p.remoteDir host) "".toUTF8 d₁ with
      ⟨hlegal, hparent, hfree, d₂, hopen, hemptied⟩ | ⟨-, e, hopen⟩
    swap
    · obtain ⟨k, hk⟩ : ∃ k, n - (storeSteps host p).length = k + 1 :=
        ⟨n - (storeSteps host p).length - 1, by omega⟩
      rw [hk, setHeadSteps, List.take_succ_cons]
      dsimp only
      rw [Effect.runFrom_forM_cons, id, hopen]
      exact .untouched (fun h => by cases h) hpart
    have hempty : d₂.tree.lookup (p.headFile host) = some (.file "".toUTF8) := by
      rw [hemptied.lookup, Put.headFile, if_pos rfl]
    by_cases hlast : n = (storeSteps host p).length + 1
    · rw [show n - (storeSteps host p).length = 1 by omega, setHeadSteps, List.take_succ_cons]
      dsimp only
      rw [Effect.runFrom_forM_cons, id, hopen]
      exact .emptied hlast hempty
    · rw [List.take_of_length_le
        (by rw [setHeadSteps, List.length_cons, List.length_singleton]; omega),
        setHeadSteps]
      dsimp only
      rw [Effect.runFrom_forM_cons, id, hopen]
      dsimp only
      rw [Effect.runFrom_forM_cons, id]
      rcases Disk.write_cases headFileName (p.remoteDir host) p.hversion.text.toUTF8 d₂ with
        ⟨-, -, -, d₃, hwrite, hwritten⟩ | ⟨hnot, -⟩
      · rw [hwrite]
        refine .shifted (by omega) ?_ ?_
        · rw [hwritten.lookup, Put.headFile, if_pos rfl]
        · rw [hwritten.lookup, if_neg hne, hemptied.lookup, if_neg hne, hvalue]
      · refine absurd ⟨hlegal, ?_, ?_⟩ hnot
        · rw [hemptied.lookup, if_neg (List.cons_ne_self _ _).symm]
          exact hparent
        · rw [Put.headFile] at hempty
          rw [hempty]
          simp

end FileSystemStorage

end SecCask.Pipeman
