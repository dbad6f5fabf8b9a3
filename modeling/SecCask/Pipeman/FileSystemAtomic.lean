import SecCask.Pipeman.FileSystemHistory

/-!
# SecCask.Pipeman.FileSystemAtomic

A put that stops after one of its file operations, and what readers see of it. The head file
is emptied before it is written, so a put that stops in between leaves a branch that cannot be
read; everywhere else readers see the old value or the new one.
-/

namespace SecCask.Pipeman.FileSystemStorage

open PosixPath

variable {host : Host} {s s' : Store} {c : PutCall}

/-- A get by branch returns what it returned before the call or the complete new value, and a
get by the version of an earlier put returns what it returned before. -/
structure Atomic (host : Host) (s s' : Store) (c : PutCall) (now key branch : String)
    (dtype : TransferDType) : Prop where
  getBranch : get host s'.disk.tree now key (some branch) none dtype =
      get host s.disk.tree now key (some branch) none dtype ∨
    ∃ value, get host s'.disk.tree now key (some branch) none dtype = .ok (some value) ∧
      Shows dtype c.put.value.bytes value
  getVersion : ∀ p ∈ s.returned,
    get host s'.disk.tree now p.key none (some p.hversion.text) dtype =
      get host s.disk.tree now p.key none (some p.hversion.text) dtype

/-- The call does not stop at the emptied head, and its folder keeps clear of the paths that
lookups follow. -/
structure StopsCleanly (host : Host) (s : Store) (c : PutCall) : Prop
    extends KeepsClear host s c where
  notEmptied : c.steps ≠ (storeSteps host c.put).length + 1
  /-- No folder called as a head is created on the way. -/
  headless : ∀ folder, headFileName :: folder <:+ c.put.remoteDir host →
    s.disk.tree.lookup (headFileName :: folder) ≠ none
  elsewhere : c.put.Elsewhere host

theorem get_branch_of_same_head (hheaded : Headed host s) (hclear : KeepsClear host s c)
    (h : step host s c = some s') {key branch : String}
    (hsame : s'.disk.tree.lookup (headFileName :: getPathFromBranch host key branch) =
      s.disk.tree.lookup (headFileName :: getPathFromBranch host key branch))
    (now : String) (dtype : TransferDType) :
    get host s'.disk.tree now key (some branch) none dtype =
      get host s.disk.tree now key (some branch) none dtype := by
  rcases hhead : s.disk.tree.lookup (headFileName :: getPathFromBranch host key branch) with
    _ | (_ | content)
  · rw [get_branch_of_none hhead, get_branch_of_none (hsame.trans hhead)]
  · rw [get_branch_of_folder hhead, get_branch_of_folder (hsame.trans hhead)]
  · obtain ⟨p, hp, hfolder, rfl, hvalue⟩ := hheaded _ _ hhead
    have hkept := valueFile_kept hclear h hp hvalue
    rw [Put.valueFile, Put.newDir, hfolder] at hvalue hkept
    rw [get_branch_of_file hhead hvalue, get_branch_of_file (hsame.trans hhead) hkept]

/-- One call: readers see the old value or the new one. -/
theorem atomic_step (hinv : Inv host s) (hheaded : Headed host s)
    (hcwd : s.disk.tree.lookup (genericFileName :: host.cwd) = none)
    (hclean : StopsCleanly host s c) (h : step host s c = some s') {now key branch : String}
    {dtype : TransferDType}
    (hread : c.put.remoteDir host = getPathFromBranch host key branch →
      (putSteps host c.put).length ≤ c.steps →
      Readable host now key (some branch) dtype c.put.value.bytes) :
    Atomic host s s' c now key branch dtype := by
  refine ⟨?_, ?_⟩
  · rcases head_cases hclean.notEmptied h (getPathFromBranch host key branch) with
      hsame | ⟨hfolder, hfinished, hhead, hvalue⟩ | ⟨hway, hnone, -⟩
    · exact Or.inl (get_branch_of_same_head hheaded hclean.toKeepsClear h hsame now dtype)
    · obtain ⟨value, htransfer, hshows⟩ :=
        shows_transfer_iff.mpr (hread hfolder.symm hfinished)
      rw [Put.valueFile, Put.newDir, ← hfolder] at hvalue
      refine Or.inr ⟨value, ?_, hshows⟩
      rw [get_branch_of_file hhead hvalue, htransfer]
      rfl
    · exact absurd hnone (hclean.headless _ hway)
  · intro p hp
    have hinv' := inv_step hinv hclean.toKeepsClear h
    have hp' : p ∈ s'.returned := by
      obtain ⟨-, -, -, -, hreturned | ⟨hreturned, -, -⟩⟩ := step_cases h <;> rw [hreturned]
      · exact hp
      · exact List.mem_cons_of_mem _ hp
    by_cases hchild : ∃ name, p.remoteDir host = name :: keyDir host p.key
    · obtain ⟨name, hname⟩ := hchild
      rw [get_version_of_child hinv hp hname, get_version_of_child hinv' hp' hname]
    · have hnot := not_exists.mp hchild
      rw [get_version_of_not_child hinv hcwd hp hnot,
        get_version_of_not_child hinv' (cwd_step hcwd hclean.elsewhere h) hp' hnot]

/-- What a run of calls that all stop cleanly keeps. -/
theorem inv_of_run {d : FileSystem} {calls : List PutCall}
    (hfresh : ∀ folder content, d.tree.lookup (headFileName :: folder) ≠ some (.file content))
    (hcwd : d.tree.lookup (genericFileName :: host.cwd) = none)
    (hrun : Exec (step host) (start d) calls s)
    (hclean : Along (step host) (StopsCleanly host) (start d) calls) :
    Inv host s ∧ Headed host s ∧ s.disk.tree.lookup (genericFileName :: host.cwd) = none :=
  hrun.invariant_along (I := fun s => Inv host s ∧ Headed host s ∧
      s.disk.tree.lookup (genericFileName :: host.cwd) = none)
    (fun _ _ _ hinv hclean h =>
      ⟨inv_step hinv.1 hclean.toKeepsClear h,
        headed_step hinv.2.1 hclean.toKeepsClear hclean.notEmptied h,
        cwd_step hinv.2.2 hclean.elsewhere h⟩)
    hclean ⟨inv_start d, headed_start hfresh, hcwd⟩

/-- **Atomicity.** Wherever a put stops in a run whose puts all stop cleanly, readers see the
old value or the new one. -/
theorem atomic_of_stopsCleanly {d : FileSystem} {calls : List PutCall}
    (hfresh : ∀ folder content, d.tree.lookup (headFileName :: folder) ≠ some (.file content))
    (hcwd : d.tree.lookup (genericFileName :: host.cwd) = none)
    (hrun : Exec (step host) (start d) calls s)
    (hclean : Along (step host) (StopsCleanly host) (start d) calls)
    (hlast : StopsCleanly host s c) (h : step host s c = some s') {now key branch : String}
    {dtype : TransferDType}
    (hread : c.put.remoteDir host = getPathFromBranch host key branch →
      (putSteps host c.put).length ≤ c.steps →
      Readable host now key (some branch) dtype c.put.value.bytes) :
    Atomic host s s' c now key branch dtype := by
  obtain ⟨hinv, hheaded, hcwd'⟩ := inv_of_run hfresh hcwd hrun hclean
  exact atomic_step hinv hheaded hcwd' hlast h hread

theorem plain_kb {value : Value ByteArray} {hversion : HVersion} :
    Put.Plain ⟨"k", "b", value, hversion⟩ := ⟨isComponent_k, isComponent_b⟩

theorem remoteDir_kb {value : Value ByteArray} {hversion : HVersion} :
    Put.remoteDir rootHost ⟨"k", "b", value, hversion⟩ = [['b'], ['k']] := by
  rw [plain_kb.remoteDir]
  show "b".toList :: "k".toList :: rootDir rootHost = _
  decide

theorem stopsCleanly_rootHost {value : Value ByteArray} {hversion : HVersion} {n : ℕ}
    (h : History rootHost s) (hnew : hversion ∉ s.issued.map (·.hversion)) (hstop : n ≠ 6) :
    StopsCleanly rootHost s ⟨⟨"k", "b", value, hversion⟩, n⟩ where
  toKeepsClear := Put.Plain.keepsClear plain_kb (by rw [h.all]; exact h.plain)
    (fresh_of_history h plain_kb hnew)
  notEmptied := hstop
  headless := by
    intro folder hsuffix
    have hmem := hsuffix.subset List.mem_cons_self
    rw [remoteDir_kb] at hmem
    exact absurd hmem (by decide)
  elsewhere := by
    refine ⟨?_, ?_, ?_⟩
    · rw [remoteDir_kb]
      exact List.cons_ne_nil _ _
    · exact List.cons_ne_nil _ _
    · intro hsuffix
      have hmem := hsuffix.subset List.mem_cons_self
      rw [remoteDir_kb] at hmem
      exact absurd hmem (by decide)

/-- The storage after its first put. -/
theorem exists_run_putOne :
    ∃ s, Exec (step rootHost) emptyStore [putOne.call rootHost] s ∧ s.returned = [putOne] ∧
      History rootHost s := by
  have hplain : ∀ p ∈ [putOne], p.Plain := by
    intro p hp
    rw [List.mem_singleton.mp hp]
    exact plain_kb
  exact exists_run (show rootHost.componentKey = "" from rfl) (history_start emptyBase_rootHost)
    hplain (by simp) (fun p _ hmem => by cases hmem)

/-- A second put that stops when the value has been written beside the versions. -/
theorem stoppedPut_atomic :
    ∃ s s', Exec (step rootHost) emptyStore [putOne.call rootHost] s ∧
      step rootHost s ⟨putTwo, 3⟩ = some s' ∧
      Atomic rootHost s s' ⟨putTwo, 3⟩ "0" "k" "b" .string := by
  have hstart := history_start emptyBase_rootHost
  obtain ⟨s, hrun, hreturned, h⟩ := exists_run_putOne
  have hnew : putTwo.hversion ∉ s.issued.map (·.hversion) := by
    rw [h.all, hreturned]
    decide
  obtain ⟨s', hstep⟩ : ∃ s', step rootHost s ⟨putTwo, 3⟩ = some s' := by
    rw [step, if_neg hnew]
    split
    · split
      · exact ⟨_, rfl⟩
      · exact ⟨_, rfl⟩
    · exact ⟨_, rfl⟩
  refine ⟨s, s', hrun, hstep, ?_⟩
  exact atomic_of_stopsCleanly (fun _ _ => by rw [FileTree.lookup_empty (by simp)]; simp)
    (FileTree.lookup_empty (by simp)) hrun
    ⟨stopsCleanly_rootHost hstart (by simp [start]) (by decide), fun _ _ => trivial⟩
    (stopsCleanly_rootHost h hnew (by decide)) hstep
    (fun _ hfinished => absurd hfinished (by decide))

/-- A second put that stops when it has emptied the head: the branch had a value before, and
now reading it fails. -/
theorem emptiedHead_not_atomic :
    ∃ s s', exec (step rootHost) emptyStore [putOne.call rootHost] = some s ∧
      step rootHost s ⟨putTwo, 6⟩ = some s' ∧
      ¬ Atomic rootHost s s' ⟨putTwo, 6⟩ "0" "k" "b" .string := by
  have hreads : ((exec (step rootHost) emptyStore [putOne.call rootHost]).bind fun s =>
      (step rootHost s ⟨putTwo, 6⟩).map fun s' =>
        (get rootHost s.disk.tree "0" "k" (some "b") none .string,
          get rootHost s'.disk.tree "0" "k" (some "b") none .string)) =
      some (.ok (some (.string "one")), .error (.file .missing)) := by
    decide +kernel
  obtain ⟨s, hs, hreads⟩ := Option.bind_eq_some_iff.mp hreads
  obtain ⟨s', hs', hreads⟩ := Option.map_eq_some_iff.mp hreads
  obtain ⟨hbefore, hafter⟩ := Prod.mk.inj hreads
  refine ⟨s, s', hs, hs', fun hatomic => ?_⟩
  rcases hatomic.getBranch with hsame | ⟨value, hnew, -⟩
  · rw [hbefore, hafter] at hsame
    cases hsame
  · rw [hafter] at hnew
    cases hnew

end SecCask.Pipeman.FileSystemStorage
