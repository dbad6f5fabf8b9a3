import SecCask.Lib.Run
import SecCask.Pipeman.Storage

/-!
# SecCask.Pipeman.PartialPut

`SemanticFileStorage.put` is two physical puts: the entity first, then the version mapping.
Here a call may fail before, between or after them, and what the two lookups say about the
same key afterwards.
-/

namespace SecCask.Pipeman.Storage

/-- How far a call of `put` gets. -/
inductive PutOutcome
  | failsBefore
  | failsBetween
  | failsAfter
  | succeeds
  deriving DecidableEq

/-- A call of `SemanticFileStorage.put`, on any of the storages over one physical store. -/
structure PutCall (F : Type) where
  storage : StorageName
  key : MetaKey
  content : F
  outcome : PutOutcome

variable {σ F : Type} (S : PhysicalStore σ F)

/-- What the call leaves in the physical store. -/
def attempt (s : σ) (call : PutCall F) : σ :=
  match call.outcome with
  | .failsBefore => s
  | .failsBetween => (putEntity S call.storage s call.key call.content).1
  | .failsAfter | .succeeds => put S call.storage s call.key call.content

def putStep (s : σ) (call : PutCall F) : Option σ := some (attempt S s call)

/-- The two calls are for one name on one branch of one storage. -/
def SameBranch (c d : PutCall F) : Prop :=
  c.storage = d.storage ∧ c.key.toStringWithoutVersion = d.key.toStringWithoutVersion ∧
    c.key.componentVersion.branch = d.key.componentVersion.branch

/-- The call is the last one that has written the head of its branch. -/
def HeadPut (calls : List (PutCall F)) (c : PutCall F) : Prop :=
  ∃ before after, calls = before ++ c :: after ∧ c.outcome ≠ .failsBefore ∧
    ∀ d ∈ after, d.outcome ≠ .failsBefore → ¬ SameBranch c d

variable {S}

/-! ### One call -/

theorem getBranchHead_attempt {c : PutCall F} (hc : c.outcome ≠ .failsBefore) (s : σ) :
    getBranchHead S c.storage (attempt S s c) c.key = .ok c.content := by
  unfold attempt
  split
  · contradiction
  · exact getBranchHead_putEntity _ _ _ _
  · exact getBranchHead_put _ _ _ _
  · exact getBranchHead_put _ _ _ _

theorem getSemanticVersion_attempt {c : PutCall F} (hbefore : c.outcome ≠ .failsBefore)
    (hbetween : c.outcome ≠ .failsBetween) (s : σ) :
    getSemanticVersion S c.storage (attempt S s c) c.key = .ok c.content := by
  unfold attempt
  split
  · contradiction
  · contradiction
  · exact getSemanticVersion_put _ _ _ _
  · exact getSemanticVersion_put _ _ _ _

theorem getBranchHead_attempt_of_ne {c d : PutCall F}
    (h : d.outcome ≠ .failsBefore → ¬ SameBranch c d) (s : σ) :
    getBranchHead S c.storage (attempt S s d) c.key = getBranchHead S c.storage s c.key := by
  unfold attempt
  split
  · rfl
  all_goals
    rename_i houtcome
    have hne : c.storage = d.storage →
        c.key.toStringWithoutVersion = d.key.toStringWithoutVersion →
        c.key.componentVersion.branch ≠ d.key.componentVersion.branch :=
      fun hstorage hname hbranch => h (by rw [houtcome]; decide) ⟨hstorage, hname, hbranch⟩
    first
    | exact getBranchHead_putEntity_of_ne hne _ _
    | exact getBranchHead_put_of_ne hne _ _

theorem getSemanticVersion_attempt_of_ne {c d : PutCall F}
    (h : d.outcome ≠ .failsBefore → ¬ SameBranch c d) {s : σ} {content : F}
    (hcontent : getSemanticVersion S c.storage s c.key = .ok content) :
    getSemanticVersion S c.storage (attempt S s d) c.key = .ok content := by
  unfold attempt
  split
  · exact hcontent
  all_goals
    rename_i houtcome
    -- Keys that share a version mapping share a branch, and there the name too.
    have hne : c.storage = d.storage →
        c.key.toStringWithVersion = d.key.toStringWithVersion →
        c.key.componentVersion.branch ≠ d.key.componentVersion.branch := by
      intro hstorage hkey hbranch
      obtain ⟨-, hname⟩ := MetaKey.toStringWithVersion_inj_of_branch hbranch hkey
      exact h (by rw [houtcome]; decide) ⟨hstorage, hname, hbranch⟩
    first
    | exact getSemanticVersion_putEntity hcontent
    | exact getSemanticVersion_put_of_ne hne hcontent

/-! ### Runs -/

/-- What later calls leave of a head that they do not write. -/
theorem head_kept {c : PutCall F} {calls : List (PutCall F)} {s s' : σ}
    (hrun : Exec (putStep S) s calls s')
    (hcalls : ∀ d ∈ calls, d.outcome ≠ .failsBefore → ¬ SameBranch c d) :
    getBranchHead S c.storage s' c.key = getBranchHead S c.storage s c.key ∧
      ∀ content, getSemanticVersion S c.storage s c.key = .ok content →
        getSemanticVersion S c.storage s' c.key = .ok content := by
  induction hrun with
  | nil => exact ⟨rfl, fun _ h => h⟩
  | @cons s t u d calls hstep _ ih =>
      obtain rfl := Option.some.inj hstep
      obtain ⟨hhead, hversion⟩ := ih fun e he => hcalls e (by simp [he])
      have hd := hcalls d (by simp)
      refine ⟨hhead.trans (getBranchHead_attempt_of_ne hd s), ?_⟩
      intro content hcontent
      exact hversion content (getSemanticVersion_attempt_of_ne hd hcontent)

/-- **Heads and version mappings.** After any calls, failing at any points, the head of a
branch is what its last put wrote; and unless this put has failed between its two physical
puts, its key reads the same content. -/
theorem head_agrees_of_not_failsBetween {s s' : σ} {calls : List (PutCall F)} {c : PutCall F}
    (hrun : Exec (putStep S) s calls s') (hc : HeadPut calls c) :
    getBranchHead S c.storage s' c.key = .ok c.content ∧
      (c.outcome ≠ .failsBetween →
        getSemanticVersion S c.storage s' c.key = .ok c.content) := by
  obtain ⟨before, after, rfl, hwrites, hafter⟩ := hc
  obtain ⟨t, hbefore, hrest⟩ := hrun.append_inv
  cases hrest with
  | cons hstep hrest =>
      obtain rfl := Option.some.inj hstep
      obtain ⟨hhead, hversion⟩ := head_kept hrest hafter
      refine ⟨hhead.trans (getBranchHead_attempt hwrites t), ?_⟩
      intro hbetween
      exact hversion _ (getSemanticVersion_attempt hwrites hbetween t)

/-- The key `dataset::d::h.0.0`. -/
def exampleKey : MetaKey := ⟨"dataset", "d", ⟨"h", 0, 0⟩⟩

theorem succeeds_agrees : ∃ s, Exec (putStep (logStore ℕ)) []
      [⟨.metaStorage, exampleKey, 1, .failsBetween⟩, ⟨.metaStorage, exampleKey, 2, .succeeds⟩] s ∧
    getSemanticVersion (logStore ℕ) .metaStorage s exampleKey = .ok 2 := by
  have hrun := exec_eq_some_iff.mp (rfl : exec (putStep (logStore ℕ)) []
    [⟨.metaStorage, exampleKey, 1, .failsBetween⟩, ⟨.metaStorage, exampleKey, 2, .succeeds⟩] =
      some _)
  exact ⟨_, hrun, (head_agrees_of_not_failsBetween (c := ⟨.metaStorage, exampleKey, 2, .succeeds⟩)
    hrun ⟨[_], [], rfl, by decide, by simp⟩).2 (by decide)⟩

/-- After a put that has failed between its two physical puts, the head is there and the key
is not. -/
theorem failsBetween_disagrees : ∃ s, Exec (putStep (logStore ℕ)) []
      [⟨.metaStorage, exampleKey, 1, .failsBetween⟩] s ∧
    getBranchHead (logStore ℕ) .metaStorage s exampleKey = .ok 1 ∧
    getSemanticVersion (logStore ℕ) .metaStorage s exampleKey = .error .keyError := by
  refine ⟨_, exec_eq_some_iff.mp rfl, ?_, ?_⟩
  · rfl
  · decide +kernel

end SecCask.Pipeman.Storage
