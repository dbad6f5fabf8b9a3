import SecCask.Lib.LineageStore
import SecCask.Pipeman.Storage

/-!
# SecCask.Pipeman.Lineage

`SemanticFileStorage.traverse_branch`: from the head of a branch along the parents to the
root. The loop appends the parents it finds to the list that it reads its next version from,
and it ends at a version without parents. The head's own parents are looked up before the
loop, where nothing asks whether there are any.
-/

namespace SecCask.Pipeman

/-- A physical store whose `meta` knows the parents of a version: `None` at the root. -/
abbrev LineagePhysicalStore (σ F : Type*) :=
  LineageStore σ String String String (Value F) PyError

namespace Storage

variable {σ F : Type} (S : LineagePhysicalStore σ F)

/-- `SemanticFileStorage.get_parents_of_branch_head` -/
def getParentsOfBranchHead (storage : StorageName) (s : σ) (key : MetaKey) :
    Except PyError (Option (List String)) :=
  S.metaBranch s (formEntityKey storage key) key.componentVersion.branch

/-- The `while` loop of `traverse_branch`, for a number of rounds. -/
def traverseLoop (s : σ) (entityKey : String) :
    ℕ → List (Option (List String)) → Option (Except PyError (List (Option (List String))))
  | 0, _ => none
  | rounds + 1, lineage =>
      match lineage.getLast? with
      | none => some (.error .indexError)
      | some none => some (.error .typeError)
      | some (some [version]) =>
          match S.metaVersion s entityKey version with
          | .error e => some (.error e)
          | .ok none => some (.ok lineage)
          | .ok (some parentNode) =>
              traverseLoop s entityKey rounds (lineage ++ [some parentNode])
      | some (some _) => some (.error .notImplementedError)

/-- `version[0]` for an entry of `lineage` -/
def firstVersion : Option (List String) → Except PyError String
  | none => .error .typeError
  | some [] => .error .indexError
  | some (version :: _) => .ok version

/-- `SemanticFileStorage.traverse_branch`, if its loop ends within a number of rounds. -/
def traverseBranch (rounds : ℕ) (storage : StorageName) (s : σ) (key : MetaKey) :
    Option (Except PyError (List F)) :=
  match getParentsOfBranchHead S storage s key with
  | .error e => some (.error e)
  | .ok node =>
      (traverseLoop S s (formEntityKey storage key) rounds [node]).map fun lineage => do
        (← lineage).mapM fun version => do
          fileVersion S.toBranchStore s (formEntityKey storage key) (← firstVersion version)

/-- `traverse_branch` ends with the given result. -/
def TraversesTo (storage : StorageName) (s : σ) (key : MetaKey) (result : Except PyError (List F)) :
    Prop :=
  ∃ rounds, traverseBranch S rounds storage s key = some result

/-- The contents that `SemanticFileStorage.put` has put on the branch of a key, newest first.
They may have been put under other versions, and anything may have been put elsewhere. -/
inductive BranchHistory (storage : StorageName) (key : MetaKey) : σ → List F → Prop
  | fresh {s : σ} :
      S.head s (formEntityKey storage key) key.componentVersion.branch = none →
      BranchHistory storage key s []
  | put {s : σ} {contents : List F} (k : MetaKey) (content : F) :
      k.componentType = key.componentType → k.componentName = key.componentName →
      k.componentVersion.branch = key.componentVersion.branch →
      BranchHistory storage key s contents →
      BranchHistory storage key (put S.toBranchStore storage s k content) (content :: contents)
  | other {s : σ} {contents : List F} {strKey strBranch : String} (value : Value F) :
      (strKey, strBranch) ≠ (formEntityKey storage key, key.componentVersion.branch) →
      BranchHistory storage key s contents →
      BranchHistory storage key (S.put s strKey strBranch value).1 contents

variable {S}

/-- Recording the version of a put is a put elsewhere. -/
theorem BranchHistory.built {storage : StorageName} {key : MetaKey} {s : σ} {contents : List F}
    (h : BranchHistory S storage key s contents) :
    S.Built (formEntityKey storage key) key.componentVersion.branch s
      (contents.map Value.file) := by
  induction h with
  | fresh hnone => exact .fresh hnone
  | @put s contents k content htype hname hbranch _ ih =>
      have hentity : formEntityKey storage k = formEntityKey storage key := by
        simp [formEntityKey, MetaKey.toStringWithoutVersion, htype, hname]
      have hput := ih.put (.file content)
      rw [← hentity, ← hbranch] at hput ⊢
      refine hput.other (.string _) ?_
      intro heq
      exact formEntityKey_ne_formVersionKey storage storage k k (congrArg Prod.fst heq).symm
  | other value hne _ ih => exact ih.other value hne

/-- From a version with its parents the loop goes on to the root. -/
theorem exists_traverseLoop {s : σ} {entityKey version : String} {values : List (Value F)}
    (hchain : S.Chain s entityKey version values) (front : List (Option (List String))) :
    ∃ rounds versions, traverseLoop S s entityKey rounds (front ++ [some [version]]) =
        some (.ok (front ++ versions.map fun v => some [v])) ∧
      List.Forall₂ (fun v value => S.getVersion s entityKey v = some value) versions values := by
  induction hchain generalizing front with
  | @root version value hversion hmeta =>
      refine ⟨1, [version], ?_, .cons hversion .nil⟩
      simp [traverseLoop, hmeta]
  | @child version parent value values hversion hmeta _ ih =>
      obtain ⟨rounds, versions, hloop, hvalues⟩ := ih (front ++ [some [version]])
      refine ⟨rounds + 1, version :: versions, ?_, .cons hversion hvalues⟩
      rw [traverseLoop, List.getLast?_concat]
      simp only [hmeta]
      rw [hloop]
      simp

theorem mapM_fileVersion {s : σ} {entityKey : String} {versions : List String}
    {contents : List F}
    (h : List.Forall₂ (fun v value => S.getVersion s entityKey v = some value) versions
      (contents.map Value.file)) :
    (versions.map fun v => some [v]).mapM (fun version => do
      fileVersion S.toBranchStore s entityKey (← firstVersion version)) = .ok contents := by
  rw [List.forall₂_map_right_iff] at h
  rw [mapM_eq_ok_iff, List.forall₂_map_left_iff]
  refine h.imp ?_
  intro v content hversion
  show fileVersion S.toBranchStore s entityKey v = .ok content
  rw [fileVersion, hversion]

/-- Where the head is the first value of its branch, `len` is asked of `None`. -/
theorem traverseBranch_of_root {storage : StorageName} {key : MetaKey} {s : σ}
    (h : getParentsOfBranchHead S storage s key = .ok none) (rounds : ℕ) :
    traverseBranch S rounds storage s key =
      if rounds = 0 then none else some (.error .typeError) := by
  rw [traverseBranch, h]
  cases rounds with
  | zero => rfl
  | succ rounds => rfl

/-- Where the head has a parent, its ancestors are read one after the other. -/
theorem traversesTo_of_parent {storage : StorageName} {key : MetaKey} {s : σ} {parent : String}
    {contents : List F} (h : getParentsOfBranchHead S storage s key = .ok (some [parent]))
    (hchain : S.Chain s (formEntityKey storage key) parent (contents.map Value.file)) :
    TraversesTo S storage s key (.ok contents) := by
  obtain ⟨rounds, versions, hloop, hvalues⟩ := exists_traverseLoop hchain []
  refine ⟨rounds, ?_⟩
  rw [List.nil_append, List.nil_append] at hloop
  rw [traverseBranch, h]
  simp only [hloop]
  exact congrArg some (mapM_fileVersion hvalues)

/-- **Branch traversal.** On a branch with one value at least, `traverse_branch` returns the
contents of the proper ancestors of the head, newest first, if and only if there are any. -/
theorem traverseBranch_returns_ancestors_iff {storage : StorageName} {key : MetaKey} {s : σ}
    {newest : F} {older : List F} (h : BranchHistory S storage key s (newest :: older)) :
    TraversesTo S storage s key (.ok older) ↔ older ≠ [] := by
  obtain ⟨version, hhead, hchain⟩ := h.built.chain
  have hparents : getParentsOfBranchHead S storage s key =
      S.metaVersion s (formEntityKey storage key) version := S.metaBranch_of_head _ _ _ _ hhead
  cases older with
  | nil =>
      obtain ⟨-, hmeta⟩ | ⟨-, -, hnil⟩ := hchain
      · refine iff_of_false ?_ (by simp)
        intro hex
        obtain ⟨rounds, hrounds⟩ := hex
        rw [traverseBranch_of_root (hparents.trans hmeta)] at hrounds
        split at hrounds <;> simp at hrounds
      · cases hnil
  | cons content older =>
      obtain _ | ⟨-, hmeta, hancestors⟩ := hchain
      exact iff_of_true (traversesTo_of_parent (hparents.trans hmeta) hancestors) (by simp)

/-- A physical store that is the list of its puts. -/
def lineageLog (F : Type) :
    LineagePhysicalStore (List (BranchStore.LogEntry String String (Value F))) F :=
  LineageStore.log .external ⟨Nat.repr, SemanticVersion.repr_injective⟩

def masterKey (inc : ℕ) : MetaKey := ⟨"library", "model", ⟨"master", 0, inc⟩⟩

/-- The store after the given contents, newest first, have been put on a branch. -/
def afterPuts : List String → List (BranchStore.LogEntry String String (Value String))
  | [] => []
  | content :: contents =>
      put (lineageLog String).toBranchStore .libraryStorage (afterPuts contents)
        (masterKey contents.length) content

theorem branchHistory_afterPuts (contents : List String) :
    BranchHistory (lineageLog String) .libraryStorage (masterKey 0) (afterPuts contents)
      contents := by
  induction contents with
  | nil => exact .fresh rfl
  | cons content contents ih => exact .put (masterKey contents.length) content rfl rfl rfl ih

theorem threePuts_traverse : TraversesTo (lineageLog String) .libraryStorage
    (afterPuts ["third", "second", "first"]) (masterKey 2) (.ok ["second", "first"]) :=
  (traverseBranch_returns_ancestors_iff
    (branchHistory_afterPuts ["third", "second", "first"])).mpr (by decide)

/-- One put: there is no ancestor to return, and `traverse_branch` raises a `TypeError`. -/
theorem onePut_traverse_fails : ∃ s : List (BranchStore.LogEntry String String (Value String)),
    BranchHistory (lineageLog String) .libraryStorage (masterKey 0) s ["first"] ∧
      ¬ TraversesTo (lineageLog String) .libraryStorage s (masterKey 0) (.ok []) := by
  refine ⟨afterPuts ["first"], branchHistory_afterPuts ["first"], ?_⟩
  intro hex
  obtain ⟨rounds, hrounds⟩ := hex
  cases rounds with
  | zero => cases hrounds
  | succ rounds => cases hrounds

end Storage

end SecCask.Pipeman
