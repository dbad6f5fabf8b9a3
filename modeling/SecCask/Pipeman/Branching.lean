import SecCask.Pipeman.Storage

/-!
# SecCask.Pipeman.Branching

`SemanticFileStorage.branch_on_semantic_version`: when the new branch reads the content of
the version it was made from, and what happens to all other keys.
-/

namespace SecCask.Pipeman.Storage

/-- A physical store with its `branch` operation, which reports success. -/
abbrev BranchingPhysicalStore (σ F : Type*) := BranchingStore σ String String String (Value F)

variable {σ F : Type} (S : BranchingPhysicalStore σ F)

/-- `branched_key`: the key with the branch in its version replaced. -/
def branchedKey (key : MetaKey) (newBranch : String) : MetaKey :=
  { key with componentVersion := { key.componentVersion with branch := newBranch } }

/-- `SemanticFileStorage.branch_on_semantic_version`. The version mapping of the new key is
put on the default branch. -/
def branchOnSemanticVersion (storage : StorageName) (s : σ) (key : MetaKey)
    (newBranch : String) : Except PyError σ := do
  let hashedVersion ←
    stringBranchHead S.toBranchStore s (formVersionKey storage key) key.componentVersion.branch
  let s := S.branch s (formEntityKey storage key) newBranch hashedVersion
  return (S.put s (formVersionKey storage (branchedKey key newBranch))
    SemanticVersion.defaultBranch (.string hashedVersion)).1

/-- Both lookups of the branched key give the content, and those of all other keys give what
they gave before. -/
structure PreservesContent (storage : StorageName) (s s' : σ) (branched : MetaKey)
    (content : F) : Prop where
  version : getSemanticVersion S.toBranchStore storage s' branched = .ok content
  head : getBranchHead S.toBranchStore storage s' branched = .ok content
  otherVersion : ∀ storage' other,
    (storage', other.toStringWithVersion, other.componentVersion.branch) ≠
      (storage, branched.toStringWithVersion, branched.componentVersion.branch) →
    ∀ content', getSemanticVersion S.toBranchStore storage' s' other = .ok content' ↔
      getSemanticVersion S.toBranchStore storage' s other = .ok content'
  otherHead : ∀ storage' other,
    (storage', other.toStringWithoutVersion, other.componentVersion.branch) ≠
      (storage, branched.toStringWithoutVersion, branched.componentVersion.branch) →
    getBranchHead S.toBranchStore storage' s' other =
      getBranchHead S.toBranchStore storage' s other

/-- Before a branching that writes its mapping elsewhere: the branched key reads the content
already, and the keys whose mapping is written instead resolve through the new hashed
version as they did before. -/
structure MappedBefore (storage : StorageName) (s : σ) (branched : MetaKey)
    (hashedVersion : String) (content : F) : Prop where
  version : getSemanticVersion S.toBranchStore storage s branched = .ok content
  otherVersion : ∀ other : MetaKey, other.toStringWithVersion = branched.toStringWithVersion →
    other.componentVersion.branch = SemanticVersion.defaultBranch →
    ∀ content', fileVersion S.toBranchStore s (formEntityKey storage other) hashedVersion =
        .ok content' ↔
      getSemanticVersion S.toBranchStore storage s other = .ok content'

variable {S}

/-! ### What branching does to the lookups -/

/-- The store after a branching. -/
def branched (S : BranchingPhysicalStore σ F) (storage : StorageName) (s : σ) (key : MetaKey)
    (newBranch hashedVersion : String) : σ :=
  (S.put (S.branch s (formEntityKey storage key) newBranch hashedVersion)
    (formVersionKey storage (branchedKey key newBranch)) SemanticVersion.defaultBranch
    (.string hashedVersion)).1

theorem branchOnSemanticVersion_eq_ok_iff {storage : StorageName} {s s' : σ} {key : MetaKey}
    {newBranch : String} :
    branchOnSemanticVersion S storage s key newBranch = .ok s' ↔
      ∃ hashedVersion, stringBranchHead S.toBranchStore s (formVersionKey storage key)
          key.componentVersion.branch = .ok hashedVersion ∧
        branched S storage s key newBranch hashedVersion = s' := by
  rw [branchOnSemanticVersion, bind_eq_ok_iff]
  refine exists_congr fun hashedVersion => and_congr_right fun _ => ?_
  exact ⟨Except.ok.inj, congrArg Except.ok⟩

section Branched

variable (storage : StorageName) (s : σ) (key : MetaKey) (newBranch hashedVersion : String)

theorem fileVersion_branched (storage' : StorageName) (other : MetaKey) (h : String) :
    fileVersion S.toBranchStore (branched S storage s key newBranch hashedVersion)
        (formEntityKey storage' other) h =
      fileVersion S.toBranchStore s (formEntityKey storage' other) h := by
  rw [fileVersion, branched,
    S.getVersion_put_of_ne _ _ _ _ _ _ (formEntityKey_ne_formVersionKey _ _ _ _),
    S.getVersion_branch]
  rfl

theorem stringBranchHead_branched :
    stringBranchHead S.toBranchStore (branched S storage s key newBranch hashedVersion)
        (formVersionKey storage (branchedKey key newBranch)) SemanticVersion.defaultBranch =
      .ok hashedVersion := by
  rw [stringBranchHead, branched, S.getBranch_put]

theorem stringBranchHead_branched_of_ne {storage' : StorageName} {other : MetaKey}
    (hne : (storage', other.toStringWithVersion, other.componentVersion.branch) ≠
      (storage, (branchedKey key newBranch).toStringWithVersion,
        SemanticVersion.defaultBranch)) :
    stringBranchHead S.toBranchStore (branched S storage s key newBranch hashedVersion)
        (formVersionKey storage' other) other.componentVersion.branch =
      stringBranchHead S.toBranchStore s (formVersionKey storage' other)
        other.componentVersion.branch := by
  have hmapping : (formVersionKey storage' other, other.componentVersion.branch) ≠
      (formVersionKey storage (branchedKey key newBranch), SemanticVersion.defaultBranch) := by
    intro h
    obtain ⟨hkey, hbranch⟩ := Prod.mk.inj h
    obtain ⟨hstorage, hstring⟩ := formVersionKey_inj hkey
    exact hne (by rw [hstorage, hstring, hbranch])
  have hentity : (formVersionKey storage' other, other.componentVersion.branch) ≠
      (formEntityKey storage key, newBranch) := fun h =>
    formEntityKey_ne_formVersionKey storage storage' key other (congrArg Prod.fst h).symm
  rw [stringBranchHead, branched, S.getBranch_put_of_ne _ _ _ _ _ _ hmapping,
    S.getBranch_branch_of_ne _ _ _ _ _ _ hentity]
  rfl

/-- Only the mapping on the default branch is written. -/
theorem getSemanticVersion_branched_of_ne {storage' : StorageName} {other : MetaKey}
    (hne : (storage', other.toStringWithVersion, other.componentVersion.branch) ≠
      (storage, (branchedKey key newBranch).toStringWithVersion,
        SemanticVersion.defaultBranch)) (content : F) :
    getSemanticVersion S.toBranchStore storage'
        (branched S storage s key newBranch hashedVersion) other = .ok content ↔
      getSemanticVersion S.toBranchStore storage' s other = .ok content := by
  simp only [getSemanticVersion, bind_eq_ok_iff, fileVersion_branched,
    stringBranchHead_branched_of_ne storage s key newBranch hashedVersion hne]

theorem getSemanticVersion_branched {other : MetaKey}
    (hstring : other.toStringWithVersion = (branchedKey key newBranch).toStringWithVersion)
    (hbranch : other.componentVersion.branch = SemanticVersion.defaultBranch) :
    getSemanticVersion S.toBranchStore storage
        (branched S storage s key newBranch hashedVersion) other =
      fileVersion S.toBranchStore s (formEntityKey storage other) hashedVersion := by
  have hkey : formVersionKey storage other =
      formVersionKey storage (branchedKey key newBranch) := by
    rw [formVersionKey, formVersionKey, hstring]
  rw [getSemanticVersion, hbranch, hkey, stringBranchHead_branched]
  exact fileVersion_branched storage s key newBranch hashedVersion storage other hashedVersion

theorem getBranchHead_branched_of_ne {storage' : StorageName} {other : MetaKey}
    (hne : (storage', other.toStringWithoutVersion, other.componentVersion.branch) ≠
      (storage, key.toStringWithoutVersion, newBranch)) :
    getBranchHead S.toBranchStore storage'
        (branched S storage s key newBranch hashedVersion) other =
      getBranchHead S.toBranchStore storage' s other := by
  have hmapping : (formEntityKey storage' other, other.componentVersion.branch) ≠
      (formVersionKey storage (branchedKey key newBranch), SemanticVersion.defaultBranch) :=
    fun h => formEntityKey_ne_formVersionKey _ _ _ _ (congrArg Prod.fst h)
  have hentity : (formEntityKey storage' other, other.componentVersion.branch) ≠
      (formEntityKey storage key, newBranch) := by
    intro h
    obtain ⟨hkey, hbranch⟩ := Prod.mk.inj h
    obtain ⟨hstorage, hstring⟩ := formEntityKey_inj hkey
    exact hne (by rw [hstorage, hstring, hbranch])
  rw [getBranchHead, fileBranchHead, branched, S.getBranch_put_of_ne _ _ _ _ _ _ hmapping,
    S.getBranch_branch_of_ne _ _ _ _ _ _ hentity]
  rfl

variable {hashedVersion}

/-- The head of the new branch is the content of the key. -/
theorem getBranchHead_branched {content : F}
    (hcontent : fileVersion S.toBranchStore s (formEntityKey storage key) hashedVersion =
      .ok content) :
    getBranchHead S.toBranchStore storage (branched S storage s key newBranch hashedVersion)
      (branchedKey key newBranch) = .ok content := by
  have hmapping : (formEntityKey storage key, newBranch) ≠
      (formVersionKey storage (branchedKey key newBranch), SemanticVersion.defaultBranch) :=
    fun h => formEntityKey_ne_formVersionKey _ _ _ _ (congrArg Prod.fst h)
  have hget : S.getVersion s (formEntityKey storage key) hashedVersion =
      some (.file content) := by
    unfold fileVersion at hcontent
    split at hcontent
    · rename_i hget
      rw [hget, Except.ok.inj hcontent]
    · cases hcontent
    · cases hcontent
  have hbranch : S.getBranch (S.branch s (formEntityKey storage key) newBranch hashedVersion)
      (formEntityKey storage key) newBranch = some (.file content) :=
    S.getBranch_branch _ _ _ _ _ hget
  show fileBranchHead S.toBranchStore _ (formEntityKey storage key) newBranch = _
  rw [fileBranchHead, branched, S.getBranch_put_of_ne _ _ _ _ _ _ hmapping, hbranch]

end Branched

/-! ### When branching preserves content -/

/-- **Branching.** It preserves content exactly when the new branch is the default branch, or
what the misplaced mapping should have said was there before and does no harm where it is. -/
theorem preservesContent_iff {storage : StorageName} {s : σ} {key : MetaKey}
    {newBranch hashedVersion : String} {content : F}
    (hversion : stringBranchHead S.toBranchStore s (formVersionKey storage key)
      key.componentVersion.branch = .ok hashedVersion)
    (hcontent : getSemanticVersion S.toBranchStore storage s key = .ok content) :
    (∃ s', branchOnSemanticVersion S storage s key newBranch = .ok s' ∧
      PreservesContent S storage s s' (branchedKey key newBranch) content) ↔
    newBranch = SemanticVersion.defaultBranch ∨
      MappedBefore S storage s (branchedKey key newBranch) hashedVersion content := by
  have hfile : fileVersion S.toBranchStore s (formEntityKey storage key) hashedVersion =
      .ok content := by
    obtain ⟨hashedVersion', hversion', hfile⟩ := bind_eq_ok_iff.mp hcontent
    obtain rfl := Except.ok.inj (hversion.symm.trans hversion')
    exact hfile
  have hhead := getBranchHead_branched storage s key newBranch hfile
  -- The branching writes the default branch's mapping for the branched version: only for the
  -- default branch is that the mapping of the branched key.
  constructor
  · intro ⟨s', hs', hpreserves⟩
    obtain ⟨hashedVersion', hversion', rfl⟩ := branchOnSemanticVersion_eq_ok_iff.mp hs'
    obtain rfl := Except.ok.inj (hversion.symm.trans hversion')
    by_cases hdefault : newBranch = SemanticVersion.defaultBranch
    · exact Or.inl hdefault
    · refine Or.inr ⟨?_, ?_⟩
      · -- The mapping of the branched key itself was not written.
        refine (getSemanticVersion_branched_of_ne storage s key newBranch _ ?_ _).mp
          hpreserves.version
        exact fun h => hdefault (Prod.mk.inj (Prod.mk.inj h).2).2
      · intro other hstring hbranch content'
        rw [← getSemanticVersion_branched storage s key newBranch _ hstring hbranch]
        refine hpreserves.otherVersion storage other ?_ content'
        rw [hbranch]
        exact fun h => hdefault (Prod.mk.inj (Prod.mk.inj h).2).2.symm
  · intro hcond
    refine ⟨_, branchOnSemanticVersion_eq_ok_iff.mpr ⟨hashedVersion, hversion, rfl⟩, ?_⟩
    by_cases hdefault : newBranch = SemanticVersion.defaultBranch
    · subst hdefault
      refine ⟨?_, hhead, ?_, fun storage' other hne =>
        getBranchHead_branched_of_ne storage s key _ _ hne⟩
      · exact (getSemanticVersion_branched storage s key _ _ rfl rfl).trans hfile
      · exact fun storage' other hne =>
          getSemanticVersion_branched_of_ne storage s key _ _ hne
    · have hmapped := hcond.resolve_left hdefault
      refine ⟨?_, hhead, ?_, fun storage' other hne =>
        getBranchHead_branched_of_ne storage s key _ _ hne⟩
      · refine (getSemanticVersion_branched_of_ne storage s key newBranch _ ?_ _).mpr
          hmapped.version
        exact fun h => hdefault (Prod.mk.inj (Prod.mk.inj h).2).2
      -- of the other keys, only those on the default branch with the same text are touched
      · intro storage' other _ content'
        by_cases hclash : (storage', other.toStringWithVersion, other.componentVersion.branch) =
            (storage, (branchedKey key newBranch).toStringWithVersion,
              SemanticVersion.defaultBranch)
        · obtain ⟨rfl, hrest⟩ := Prod.mk.inj hclash
          obtain ⟨hstring, hbranch⟩ := Prod.mk.inj hrest
          rw [getSemanticVersion_branched storage' s key newBranch _ hstring hbranch]
          exact hmapped.otherVersion other hstring hbranch content'
        · exact getSemanticVersion_branched_of_ne storage s key newBranch _ hclash content'

/-- A store in which one dataset version has been put on the given branch. -/
def onePut (branch : String) : BranchingStore.Pointers String String (Value ℕ) :=
  put (BranchingStore.pointers ⟨Nat.repr, SemanticVersion.repr_injective⟩).toBranchStore
    .datasetStorage ⟨[], []⟩ ⟨"dataset", "d", ⟨branch, 0, 0⟩⟩ 1

theorem toDefault_preservesContent : ∃ s',
    branchOnSemanticVersion (BranchingStore.pointers ⟨Nat.repr, SemanticVersion.repr_injective⟩)
      .datasetStorage (onePut "dev") ⟨"dataset", "d", ⟨"dev", 0, 0⟩⟩ "master" = .ok s' ∧
    PreservesContent (BranchingStore.pointers ⟨Nat.repr, SemanticVersion.repr_injective⟩)
      .datasetStorage (onePut "dev") s' ⟨"dataset", "d", ⟨"master", 0, 0⟩⟩ 1 :=
  (preservesContent_iff (show _ = Except.ok "0" by decide +kernel) (by decide +kernel)).mpr
    (Or.inl rfl)

/-- A version on the default branch cannot be read on the branch `dev` made from it. -/
theorem fromDefault_not_preservesContent : ∃ s',
    branchOnSemanticVersion (BranchingStore.pointers ⟨Nat.repr, SemanticVersion.repr_injective⟩)
      .datasetStorage (onePut "master") ⟨"dataset", "d", ⟨"master", 0, 0⟩⟩ "dev" = .ok s' ∧
    getSemanticVersion
      (BranchingStore.pointers ⟨Nat.repr, SemanticVersion.repr_injective⟩).toBranchStore
      .datasetStorage s' ⟨"dataset", "d", ⟨"dev", 0, 0⟩⟩ = .error .keyError := by
  refine ⟨_, rfl, ?_⟩
  decide +kernel

end SecCask.Pipeman.Storage
