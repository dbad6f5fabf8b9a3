import Mathlib.Data.Finset.Card
import Mathlib.Data.List.Nodup

/-!
# SecCask.Lib.LazyCache

**Caches that make room late.** An access to a cache of size `n` that evicts only when the cache
already holds more than `n` entries, whatever the eviction policy is. Such a cache never holds
an entry twice, and it outgrows its size by one: a run stays within the size exactly if it
requests at most `n` different keys.

A policy is a `CacheSim`: a state machine with its residents and its number of misses. The rule
at the end turns one lemma about a single operation into the statement about all runs.
-/

namespace SecCask

/-- A simulated cache. An operation may request a key and then answers with a hit or a miss. -/
structure CacheSim (ε σ Op κ : Type*) where
  request : Op → Option κ
  run : σ → Op → Except ε (Option Bool × σ)
  residents : σ → List κ
  misses : σ → ℕ

namespace CacheSim

variable {κ ε σ Op : Type*} (sim : CacheSim ε σ Op κ)

/-- The cache holds nothing twice and at most `n` entries. -/
def Within (n : ℕ) (s : σ) : Prop := (sim.residents s).Nodup ∧ (sim.residents s).length ≤ n

/-- The answer to a request of `k`: a hit exactly for a resident, a counted miss otherwise, and
`k` is resident in the end. -/
def Answers (s : σ) (k : κ) (answer : Option Bool) (t : σ) : Prop :=
  ∃ hit, answer = some hit ∧ (hit = true ↔ k ∈ sim.residents s) ∧
    sim.misses t = sim.misses s + (if hit then 0 else 1) ∧ k ∈ sim.residents t

/-- Every operation of the run succeeds and answers as it should, and the cache is within its
size all the way. -/
def Respects (n : ℕ) : σ → List Op → Prop
  | s, [] => sim.Within n s
  | s, op :: ops => sim.Within n s ∧ ∃ answer t, sim.run s op = .ok (answer, t) ∧
      (∀ k, sim.request op = some k → sim.Answers s k answer t) ∧ Respects n t ops

variable {sim}

theorem within_of_empty {n : ℕ} {s : σ} (h : sim.residents s = []) : sim.Within n s := by
  rw [Within, h]
  exact ⟨List.nodup_nil, Nat.zero_le n⟩

theorem respects_cons_iff {n : ℕ} {s t : σ} {op : Op} {ops : List Op} {answer : Option Bool}
    (hrun : sim.run s op = .ok (answer, t)) :
    sim.Respects n s (op :: ops) ↔ sim.Within n s ∧
      (∀ k, sim.request op = some k → sim.Answers s k answer t) ∧ sim.Respects n t ops := by
  refine and_congr_right fun _ => ?_
  constructor
  · intro h
    obtain ⟨answer', t', hrun', hanswers, hrest⟩ := h
    obtain ⟨rfl, rfl⟩ := Prod.mk.inj (Except.ok.inj (hrun.symm.trans hrun'))
    exact ⟨hanswers, hrest⟩
  · intro h
    exact ⟨answer, t, hrun, h⟩

end CacheSim

/-! ### Lazy accesses -/

section Lazy

variable {κ : Type*} [DecidableEq κ]

/-- An access of key `k` from one list of residents to the next, with the answer whether it was
a hit. The order of the residents is the policy's own. -/
inductive LazyAccess (n : ℕ) (k : κ) : List κ → Bool → List κ → Prop
  | hit {before after : List κ} : k ∈ before → after.Perm before →
      LazyAccess n k before true after
  | fill {before after : List κ} : k ∉ before → before.length ≤ n →
      after.Perm (k :: before) → LazyAccess n k before false after
  | evict {before after : List κ} {victim : κ} : k ∉ before → n < before.length →
      victim ∈ before → after.Perm (k :: before.erase victim) →
      LazyAccess n k before false after

namespace LazyAccess

variable {n : ℕ} {k : κ} {before after : List κ} {hit : Bool}

/-- A new key behind the entries that stay. -/
theorem fill_append (hk : k ∉ before) (hlen : before.length ≤ n) :
    LazyAccess n k before false (before ++ [k]) :=
  fill hk hlen (List.perm_append_singleton k before)

theorem evict_append {victim : κ} {rest : List κ} (hk : k ∉ before) (hlen : n < before.length)
    (hrest : before.Perm (victim :: rest)) : LazyAccess n k before false (rest ++ [k]) := by
  have herase : (before.erase victim).Perm rest := by
    have h := hrest.erase victim
    rwa [List.erase_cons_head] at h
  have hvictim : victim ∈ before := hrest.mem_iff.mpr List.mem_cons_self
  refine evict hk hlen hvictim ?_
  exact (List.perm_append_singleton k rest).trans (herase.symm.cons k)

theorem hit_iff (h : LazyAccess n k before hit after) : hit = true ↔ k ∈ before := by
  cases h with
  | hit hmem => exact iff_of_true rfl hmem
  | fill hmem => exact iff_of_false Bool.false_ne_true hmem
  | evict hmem => exact iff_of_false Bool.false_ne_true hmem

theorem mem (h : LazyAccess n k before hit after) : k ∈ after := by
  cases h with
  | hit hmem hperm => exact hperm.mem_iff.mpr hmem
  | fill _ _ hperm => exact hperm.mem_iff.mpr (by simp)
  | evict _ _ _ hperm => exact hperm.mem_iff.mpr (by simp)

theorem nodup (h : LazyAccess n k before hit after) (hbefore : before.Nodup) :
    after.Nodup := by
  cases h with
  | hit _ hperm => exact hperm.nodup_iff.mpr hbefore
  | fill hmem _ hperm => exact hperm.nodup_iff.mpr (List.nodup_cons.mpr ⟨hmem, hbefore⟩)
  | evict hmem _ _ hperm =>
      refine hperm.nodup_iff.mpr (List.nodup_cons.mpr ⟨?_, hbefore.erase _⟩)
      exact fun hk => hmem (List.mem_of_mem_erase hk)

/-- A cache is never more than one entry over its size. -/
theorem length_le (h : LazyAccess n k before hit after) (hlen : before.length ≤ n + 1) :
    after.length ≤ n + 1 := by
  cases h with
  | hit _ hperm => exact hperm.length_eq.trans_le hlen
  | fill _ hle hperm =>
      rw [hperm.length_eq, List.length_cons]
      omega
  | evict _ _ hvictim hperm =>
      rw [hperm.length_eq, List.length_cons, List.length_erase_of_mem hvictim]
      omega

/-- As long as the cache is not over its size nothing is lost. -/
theorem toFinset_eq (h : LazyAccess n k before hit after) (hlen : before.length ≤ n) :
    after.toFinset = insert k before.toFinset := by
  cases h with
  | hit hmem hperm =>
      rw [List.toFinset_eq_of_perm _ _ hperm, Finset.insert_eq_of_mem (List.mem_toFinset.mpr hmem)]
  | fill _ _ hperm => rw [List.toFinset_eq_of_perm _ _ hperm, List.toFinset_cons]
  | evict _ hfull => omega

end LazyAccess

namespace CacheSim

variable {ε σ Op : Type*} {sim : CacheSim ε σ Op κ}

/-- What one operation of a cache that makes room late does, on the states of an invariant and
for the operations of a domain. -/
structure Lazy (sim : CacheSim ε σ Op κ) (n : ℕ) (Allowed : Op → Prop) (Inv : σ → Prop) :
    Prop where
  access : ∀ s op k, Inv s → Allowed op → sim.request op = some k →
    ∃ hit t, sim.run s op = .ok (some hit, t) ∧ Inv t ∧
      LazyAccess n k (sim.residents s) hit (sim.residents t) ∧
      sim.misses t = sim.misses s + (if hit then 0 else 1)
  other : ∀ s op, Inv s → Allowed op → sim.request op = none →
    ∃ answer t, sim.run s op = .ok (answer, t) ∧ Inv t ∧ sim.residents t = sim.residents s

/-- A lazy access answers as it should. -/
theorem answers_of_lazyAccess {n : ℕ} {s t : σ} {k : κ} {hit : Bool}
    (h : LazyAccess n k (sim.residents s) hit (sim.residents t))
    (hmisses : sim.misses t = sim.misses s + (if hit then 0 else 1)) :
    sim.Answers s k (some hit) t :=
  ⟨hit, rfl, h.hit_iff, hmisses, h.mem⟩

/-- **Size rule.** A run stays within the size exactly if the residents that it starts with and
the keys that it requests are at most `n`. -/
theorem Lazy.respects_iff {n : ℕ} {Allowed : Op → Prop} {Inv : σ → Prop}
    (h : sim.Lazy n Allowed Inv) {s : σ} (hs : Inv s) (hnodup : (sim.residents s).Nodup)
    {ops : List Op} (hops : ∀ op ∈ ops, Allowed op) :
    sim.Respects n s ops ↔
      (sim.residents s ++ ops.filterMap sim.request).toFinset.card ≤ n := by
  induction ops generalizing s with
  | nil =>
      rw [List.filterMap_nil, List.append_nil, List.toFinset_card_of_nodup hnodup]
      exact and_iff_right hnodup
  | cons op ops ih =>
      have hop : Allowed op := hops op (by simp)
      have hrest : ∀ op ∈ ops, Allowed op := fun op hmem => hops op (by simp [hmem])
      by_cases hlen : (sim.residents s).length ≤ n
      · have hwithin : sim.Within n s := ⟨hnodup, hlen⟩
        cases hrequest : sim.request op with
        | none =>
            obtain ⟨answer, t, hrun, ht, hsame⟩ := h.other s op hs hop hrequest
            rw [respects_cons_iff hrun, ih ht (hsame ▸ hnodup) hrest, hsame,
              List.filterMap_cons_none hrequest]
            simp [hwithin, hrequest]
        | some k =>
            obtain ⟨hit, t, hrun, ht, haccess, hmisses⟩ := h.access s op k hs hop hrequest
            -- Below its size the cache only grows, by the key requested.
            have hkeys : (sim.residents t ++ ops.filterMap sim.request).toFinset =
                (sim.residents s ++ k :: ops.filterMap sim.request).toFinset := by
              rw [List.toFinset_append, haccess.toFinset_eq hlen, List.toFinset_append,
                List.toFinset_cons, Finset.insert_union, Finset.union_insert]
            rw [respects_cons_iff hrun, ih ht (haccess.nodup hnodup) hrest, hkeys,
              List.filterMap_cons_some hrequest]
            simp only [hwithin, hrequest, Option.some.injEq, forall_eq', true_and,
              and_iff_right_iff_imp]
            exact fun _ => answers_of_lazyAccess haccess hmisses
      · -- The cache is too large already, and so are its residents with the keys to come.
        refine iff_of_false (fun hrespects => hlen hrespects.1.2) fun hcard => hlen ?_
        rw [← List.toFinset_card_of_nodup hnodup]
        refine (Finset.card_le_card ?_).trans hcard
        rw [List.toFinset_append]
        exact Finset.subset_union_left

/-- The size rule for a run from an empty cache. -/
theorem Lazy.respects_iff_of_empty {n : ℕ} {Allowed : Op → Prop} {Inv : σ → Prop}
    (h : sim.Lazy n Allowed Inv) {s : σ} (hs : Inv s) (hempty : sim.residents s = [])
    {ops : List Op} (hops : ∀ op ∈ ops, Allowed op) :
    sim.Respects n s ops ↔ (ops.filterMap sim.request).toFinset.card ≤ n := by
  rw [h.respects_iff hs (hempty ▸ List.nodup_nil) hops, hempty, List.nil_append]

/-- Every run stays within one more than the size. -/
theorem Lazy.respects_succ {n : ℕ} {Allowed : Op → Prop} {Inv : σ → Prop}
    (h : sim.Lazy n Allowed Inv) {s : σ} (hs : Inv s) (hwithin : sim.Within (n + 1) s)
    {ops : List Op} (hops : ∀ op ∈ ops, Allowed op) : sim.Respects (n + 1) s ops := by
  induction ops generalizing s with
  | nil => exact hwithin
  | cons op ops ih =>
      have hop : Allowed op := hops op (by simp)
      have hrest : ∀ op ∈ ops, Allowed op := fun op hmem => hops op (by simp [hmem])
      cases hrequest : sim.request op with
      | none =>
          obtain ⟨answer, t, hrun, ht, hsame⟩ := h.other s op hs hop hrequest
          have htwithin : sim.Within (n + 1) t := by
            unfold Within
            rw [hsame]
            exact hwithin
          rw [respects_cons_iff hrun]
          refine ⟨hwithin, ?_, ih ht htwithin hrest⟩
          intro k hk
          rw [hrequest] at hk
          cases hk
      | some k =>
          obtain ⟨hit, t, hrun, ht, haccess, hmisses⟩ := h.access s op k hs hop hrequest
          have htwithin : sim.Within (n + 1) t :=
            ⟨haccess.nodup hwithin.1, haccess.length_le hwithin.2⟩
          rw [respects_cons_iff hrun]
          refine ⟨hwithin, ?_, ih ht htwithin hrest⟩
          intro k' hk'
          obtain rfl := Option.some.inj (hrequest.symm.trans hk')
          exact answers_of_lazyAccess haccess hmisses

end CacheSim

end Lazy

end SecCask
