import SecCask.Lib.BranchStore

/-!
# SecCask.Lib.LineageStore

Branch stores that know the parents of their versions. A value put on a branch has the
version that the branch pointed at before as its only parent, and the first value put on a
branch has none. What has been put on a branch can be read back along the parents
(`Built.chain`), whatever is put elsewhere in between.
-/

namespace SecCask

/-- Reading the parents may fail with an error of type `ε`. -/
structure LineageStore (σ κ β η ν ε : Type*) extends BranchStore σ κ β η ν where
  /-- The version that a branch points at. -/
  head : σ → κ → β → Option η
  metaBranch : σ → κ → β → Except ε (Option (List η))
  metaVersion : σ → κ → η → Except ε (Option (List η))
  head_put : ∀ s k b v, head (put s k b v).1 k b = some (put s k b v).2
  head_put_of_ne : ∀ s k b v k' b', (k', b') ≠ (k, b) →
    head (put s k b v).1 k' b' = head s k' b'
  metaBranch_of_head : ∀ s k b h, head s k b = some h → metaBranch s k b = metaVersion s k h
  metaVersion_put : ∀ s k b v, metaVersion (put s k b v).1 k (put s k b v).2 =
    .ok ((head s k b).map fun h => [h])
  metaVersion_put_of_ok : ∀ s k b v k' h' parents, metaVersion s k' h' = .ok parents →
    metaVersion (put s k b v).1 k' h' = .ok parents

namespace LineageStore

variable {σ κ β η ν ε : Type*} {S : LineageStore σ κ β η ν ε}

/-- The values of a version and its ancestors, newest first. -/
inductive Chain (S : LineageStore σ κ β η ν ε) (s : σ) (k : κ) : η → List ν → Prop
  | root {h : η} {v : ν} : S.getVersion s k h = some v → S.metaVersion s k h = .ok none →
      Chain S s k h [v]
  | child {h p : η} {v : ν} {vs : List ν} : S.getVersion s k h = some v →
      S.metaVersion s k h = .ok (some [p]) → Chain S s k p vs → Chain S s k h (v :: vs)

/-- Nothing that is put later changes a chain. -/
theorem Chain.put {s : σ} {k : κ} {h : η} {vs : List ν} (hchain : Chain S s k h vs) (k' : κ)
    (b : β) (v : ν) : Chain S (S.put s k' b v).1 k h vs := by
  induction hchain with
  | root hversion hmeta =>
      exact .root (S.getVersion_put_of_some _ _ _ _ _ _ _ hversion)
        (S.metaVersion_put_of_ok _ _ _ _ _ _ _ hmeta)
  | child hversion hmeta _ ih =>
      exact .child (S.getVersion_put_of_some _ _ _ _ _ _ _ hversion)
        (S.metaVersion_put_of_ok _ _ _ _ _ _ _ hmeta) ih

/-- The values that have been put on a branch since it did not exist, newest first. -/
inductive Built (S : LineageStore σ κ β η ν ε) (k : κ) (b : β) : σ → List ν → Prop
  | fresh {s : σ} : S.head s k b = none → Built S k b s []
  | put {s : σ} {vs : List ν} (v : ν) : Built S k b s vs → Built S k b (S.put s k b v).1 (v :: vs)
  | other {s : σ} {vs : List ν} {k' : κ} {b' : β} (v : ν) : (k', b') ≠ (k, b) →
      Built S k b s vs → Built S k b (S.put s k' b' v).1 vs

/-- The head of a branch is the newest version of a chain of all its values. -/
theorem Built.head_chain {k : κ} {b : β} {s : σ} {vs : List ν} (h : Built S k b s vs) :
    vs = [] ∧ S.head s k b = none ∨ ∃ newest, S.head s k b = some newest ∧
      Chain S s k newest vs := by
  induction h with
  | fresh hnone => exact Or.inl ⟨rfl, hnone⟩
  | @put s vs v _ ih =>
      refine Or.inr ⟨_, S.head_put s k b v, ?_⟩
      have hversion := S.getVersion_put s k b v
      have hmeta := S.metaVersion_put s k b v
      obtain ⟨rfl, hnone⟩ | ⟨newest, hsome, hchain⟩ := ih
      · rw [hnone] at hmeta
        exact .root hversion hmeta
      · rw [hsome] at hmeta
        exact .child hversion hmeta (hchain.put k b v)
  | @other s vs k' b' v hne _ ih =>
      rw [S.head_put_of_ne s k' b' v k b (Ne.symm hne)]
      refine ih.imp id ?_
      intro hex
      obtain ⟨newest, hsome, hchain⟩ := hex
      exact ⟨newest, hsome, hchain.put k' b' v⟩

theorem Built.chain {k : κ} {b : β} {s : σ} {v : ν} {vs : List ν} (h : Built S k b s (v :: vs)) :
    ∃ newest, S.head s k b = some newest ∧ Chain S s k newest (v :: vs) := by
  obtain ⟨hnil, -⟩ | hchain := h.head_chain
  · cases hnil
  · exact hchain

section Log

open BranchStore

variable [DecidableEq κ] [DecidableEq β] [DecidableEq η]

def logHead (name : ℕ ↪ η) (k : κ) (b : β) : List (LogEntry κ β ν) → Option η
  | [] => none
  | e :: rest => if e.key = k ∧ e.branch = b then some (name rest.length) else logHead name k b rest

/-- The parent of a put is the put on the same branch before it. -/
def logParents (unknown : ε) (name : ℕ ↪ η) (k : κ) (h : η) :
    List (LogEntry κ β ν) → Except ε (Option (List η))
  | [] => .error unknown
  | e :: rest =>
      if e.key = k ∧ name rest.length = h then .ok ((logHead name k e.branch rest).map fun h => [h])
      else logParents unknown name k h rest

theorem exists_of_logParents {unknown : ε} {name : ℕ ↪ η} {k : κ} {h : η}
    {log : List (LogEntry κ β ν)} {parents : Option (List η)}
    (hparents : logParents unknown name k h log = .ok parents) : ∃ n < log.length, name n = h := by
  induction log with
  | nil => cases hparents
  | cons e rest ih =>
      rw [logParents] at hparents
      split at hparents
      · rename_i he
        exact ⟨rest.length, by simp, he.2⟩
      · obtain ⟨n, hn, hname⟩ := ih hparents
        exact ⟨n, by simp only [List.length_cons]; omega, hname⟩

/-- The store that is the list of its puts. -/
def log (unknown : ε) (name : ℕ ↪ η) : LineageStore (List (LogEntry κ β ν)) κ β η ν ε where
  toBranchStore := BranchStore.log name
  head := fun s k b => logHead name k b s
  metaBranch := fun s k b =>
    match logHead name k b s with
    | some h => logParents unknown name k h s
    | none => .error unknown
  metaVersion := fun s k h => logParents unknown name k h s
  head_put := by simp [BranchStore.log, logHead]
  head_put_of_ne := by
    intro s k b v k' b' hne
    refine if_neg ?_
    intro hex
    obtain ⟨rfl, rfl⟩ := hex
    exact hne rfl
  metaBranch_of_head := by
    intro s k b h hhead
    simp [hhead]
  metaVersion_put := by simp [BranchStore.log, logParents]
  metaVersion_put_of_ok := by
    intro s k b v k' h' parents hparents
    obtain ⟨n, hn, rfl⟩ := exists_of_logParents hparents
    have hfresh : name s.length ≠ name n := fun heq => by
      have := name.injective heq
      omega
    refine (if_neg ?_).trans hparents
    exact fun he => hfresh he.2

end Log

end LineageStore

end SecCask
