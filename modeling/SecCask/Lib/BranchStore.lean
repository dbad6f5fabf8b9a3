import Mathlib.Logic.Embedding.Basic

/-!
# SecCask.Lib.BranchStore

Stores that keep every value put under a key, each under a version name of its own, and
for each branch of a key the value that was put last. The structure carries what its users
rely on, so that a store that loses or mixes up values cannot be built.
-/

namespace SecCask

structure BranchStore (σ κ β η ν : Type*) where
  /-- Stores a value on a branch of a key, and names its version. -/
  put : σ → κ → β → ν → σ × η
  getBranch : σ → κ → β → Option ν
  getVersion : σ → κ → η → Option ν
  getBranch_put : ∀ s k b v, getBranch (put s k b v).1 k b = some v
  getBranch_put_of_ne : ∀ s k b v k' b', (k', b') ≠ (k, b) →
    getBranch (put s k b v).1 k' b' = getBranch s k' b'
  getVersion_put : ∀ s k b v, getVersion (put s k b v).1 k (put s k b v).2 = some v
  getVersion_put_of_some : ∀ s k b v k' h' v', getVersion s k' h' = some v' →
    getVersion (put s k b v).1 k' h' = some v'

/-- A branch store that can make a branch of a key point at one of its versions, and whose
versions are named per key. -/
structure BranchingStore (σ κ β η ν : Type*) extends BranchStore σ κ β η ν where
  branch : σ → κ → β → η → σ
  getBranch_branch : ∀ s k b h v, getVersion s k h = some v →
    getBranch (branch s k b h) k b = some v
  getBranch_branch_of_ne : ∀ s k b h k' b', (k', b') ≠ (k, b) →
    getBranch (branch s k b h) k' b' = getBranch s k' b'
  getVersion_branch : ∀ s k b h k' h', getVersion (branch s k b h) k' h' = getVersion s k' h'
  getVersion_put_of_ne : ∀ s k b v k' h, k' ≠ k →
    getVersion (put s k b v).1 k' h = getVersion s k' h

namespace BranchStore

variable {κ β η ν : Type*} [DecidableEq κ] [DecidableEq β] [DecidableEq η]

/-- One put, for a store that is the list of its puts, newest first. -/
structure LogEntry (κ β ν : Type*) where
  key : κ
  branch : β
  value : ν
  deriving DecidableEq, Repr

def logBranch (k : κ) (b : β) : List (LogEntry κ β ν) → Option ν
  | [] => none
  | e :: rest => if e.key = k ∧ e.branch = b then some e.value else logBranch k b rest

/-- A put is named after the number of puts before it. -/
def logVersion (name : ℕ ↪ η) (k : κ) (h : η) : List (LogEntry κ β ν) → Option ν
  | [] => none
  | e :: rest =>
      if e.key = k ∧ name rest.length = h then some e.value else logVersion name k h rest

omit [DecidableEq β] in
theorem exists_of_logVersion {name : ℕ ↪ η} {k : κ} {h : η} {log : List (LogEntry κ β ν)} {v : ν}
    (hv : logVersion name k h log = some v) : ∃ n < log.length, name n = h := by
  induction log with
  | nil => cases hv
  | cons e rest ih =>
      rw [logVersion] at hv
      split at hv
      · rename_i he
        exact ⟨rest.length, by simp, he.2⟩
      · obtain ⟨n, hn, hname⟩ := ih hv
        exact ⟨n, by simp only [List.length_cons]; omega, hname⟩

/-- The store that is the list of its puts. -/
def log (name : ℕ ↪ η) : BranchStore (List (LogEntry κ β ν)) κ β η ν where
  put := fun s k b v => (⟨k, b, v⟩ :: s, name s.length)
  getBranch := fun s k b => logBranch k b s
  getVersion := fun s k h => logVersion name k h s
  getBranch_put := by simp [logBranch]
  getBranch_put_of_ne := by
    intro s k b v k' b' hne
    refine if_neg ?_
    intro hex
    obtain ⟨rfl, rfl⟩ := hex
    exact hne rfl
  getVersion_put := by simp [logVersion]
  getVersion_put_of_some := by
    intro s k b v k' h' v' hv
    obtain ⟨n, hn, rfl⟩ := exists_of_logVersion hv
    have hfresh : name s.length ≠ name n := fun heq => by
      have := name.injective heq
      omega
    rw [logVersion, if_neg (by simp [hfresh])]
    exact hv

end BranchStore

namespace BranchingStore

variable {κ β η ν : Type*} [DecidableEq κ] [DecidableEq β] [DecidableEq η]

/-- The puts and the heads, both newest first. -/
structure Pointers (κ β ν : Type*) where
  entries : List (BranchStore.LogEntry κ β ν)
  heads : List (BranchStore.LogEntry κ β ν)

/-- The store that is the list of its puts, with the heads in a list of their own. -/
def pointers (name : ℕ ↪ η) : BranchingStore (Pointers κ β ν) κ β η ν where
  put := fun s k b v => (⟨⟨k, b, v⟩ :: s.entries, ⟨k, b, v⟩ :: s.heads⟩, name s.entries.length)
  getBranch := fun s k b => BranchStore.logBranch k b s.heads
  getVersion := fun s k h => BranchStore.logVersion name k h s.entries
  branch := fun s k b h =>
    match BranchStore.logVersion name k h s.entries with
    | some v => { s with heads := ⟨k, b, v⟩ :: s.heads }
    | none => s
  getBranch_put := by simp [BranchStore.logBranch]
  getBranch_put_of_ne := fun s k b v =>
    (BranchStore.log name).getBranch_put_of_ne s.heads k b v
  getVersion_put := by simp [BranchStore.logVersion]
  getVersion_put_of_some := fun s k b v =>
    (BranchStore.log name).getVersion_put_of_some s.entries k b v
  getBranch_branch := by
    intro s k b h v hv
    simp [hv, BranchStore.logBranch]
  getBranch_branch_of_ne := by
    intro s k b h k' b' hne
    split
    · exact (BranchStore.log name).getBranch_put_of_ne s.heads k b _ k' b' hne
    · rfl
  getVersion_branch := by
    intro s k b h k' h'
    split <;> rfl
  getVersion_put_of_ne := by
    intro s k b v k' h hne
    exact if_neg fun hkey => hne hkey.1.symm

end BranchingStore

end SecCask
