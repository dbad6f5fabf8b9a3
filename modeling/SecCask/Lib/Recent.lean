import Mathlib.Data.List.Dedup
import Mathlib.Data.List.DropRight

/-!
# SecCask.Lib.Recent

**The last entries of a sequence.** `l.rtake n` are the last `n` entries of `l`, and `ks.dedup`
are the keys of an access sequence in the order of their last accesses. A window that drops its
first entry when it is full shows the former of what has been put into it, and a list of the
recently used keys the former of the latter. So the lists of two sizes are suffixes of one
another, whatever the accesses are.
-/

namespace SecCask

variable {α : Type*}

/-! ### The last entries of a list -/

theorem rtake_of_length_le {l : List α} {n : ℕ} (h : l.length ≤ n) : l.rtake n = l := by
  rw [List.rtake, Nat.sub_eq_zero_of_le h, List.drop_zero]

theorem length_rtake (l : List α) (n : ℕ) : (l.rtake n).length = min l.length n := by
  rw [List.rtake, List.length_drop]
  omega

theorem rtake_append_of_length_le {l m : List α} {n : ℕ} (h : n ≤ m.length) :
    (l ++ m).rtake n = m.rtake n := by
  rw [List.rtake, List.rtake, List.length_append, List.drop_append,
    List.drop_eq_nil_of_le (by omega), List.nil_append]
  congr 1
  omega

theorem rtake_isSuffix (l : List α) {m n : ℕ} (h : m ≤ n) : l.rtake m <:+ l.rtake n := by
  have hdrop : l.rtake m = (l.rtake n).drop (l.length - m - (l.length - n)) := by
    rw [List.rtake, List.rtake, List.drop_drop]
    congr 1
    omega
  rw [hdrop]
  exact List.drop_suffix _ _

/-- The entry that is left out by taking one less is the first. -/
theorem rtake_eq_tail {l : List α} {n : ℕ} (h : n < l.length) :
    l.rtake n = (l.rtake (n + 1)).tail := by
  rw [List.rtake, List.rtake, List.tail_drop]
  congr 1
  omega

/-- A window of `n` entries after one more entry has been put into it. -/
theorem rtake_concat (l : List α) (n : ℕ) (x : α) :
    (l ++ [x]).rtake n =
      if n ≤ (l.rtake n).length then (l.rtake n ++ [x]).tail else l.rtake n ++ [x] := by
  rw [length_rtake]
  split
  · rename_i hfull
    cases n with
    | zero => simp
    | succ n =>
        have hlt : n < l.length := by omega
        have hne : l.rtake (n + 1) ≠ [] := by
          rw [← List.length_pos_iff, length_rtake]
          omega
        rw [List.rtake_concat_succ, rtake_eq_tail hlt, List.tail_append_of_ne_nil hne]
  · rename_i hfree
    rw [rtake_of_length_le (l := l) (by omega), rtake_of_length_le]
    rw [List.length_append, List.length_singleton]
    omega

/-! ### Recently used keys -/

variable [DecidableEq α]

/-- One more access moves its key to the end of the order of last accesses. -/
theorem dedup_concat (l : List α) (a : α) : (l ++ [a]).dedup = l.dedup.erase a ++ [a] := by
  induction l with
  | nil => rfl
  | cons b l ih =>
      by_cases hmem : b ∈ l
      · rw [List.cons_append, List.dedup_cons_of_mem (List.mem_append_left _ hmem), ih,
          List.dedup_cons_of_mem hmem]
      · rw [List.dedup_cons_of_notMem hmem]
        by_cases hb : b = a
        · subst hb
          have hrest : b ∉ l.dedup := fun h => hmem (List.mem_dedup.mp h)
          rw [List.cons_append, List.dedup_cons_of_mem (by simp), ih, List.erase_cons_head,
            List.erase_of_not_mem hrest]
        · rw [List.cons_append, List.dedup_cons_of_notMem (by simp [hmem, hb]), ih,
            List.erase_cons_tail (by simpa using hb), List.cons_append]

/-- An access to a list of the `n` keys used last, which holds the one used last at its end. -/
def useKey (n : ℕ) (l : List α) (k : α) : List α :=
  if k ∈ l then l.erase k ++ [k] else (if n ≤ l.length then l.tail else l) ++ [k]

/-- Taking a key out of the whole order takes it out of its last entries, or makes them one
longer. -/
theorem rtake_erase {l : List α} (hl : l.Nodup) (n : ℕ) (k : α) :
    (l.erase k).rtake n =
      if k ∈ l.rtake (n + 1) then (l.rtake (n + 1)).erase k
      else if n + 1 ≤ (l.rtake (n + 1)).length then (l.rtake (n + 1)).tail
      else l.rtake (n + 1) := by
  set older := l.take (l.length - (n + 1)) with holder
  set recent := l.rtake (n + 1) with hrecent
  have hsplit : older ++ recent = l := List.take_append_drop _ _
  have hlength : recent.length = min l.length (n + 1) := length_rtake _ _
  have hlenOlder : older.length = l.length - (n + 1) := by
    rw [holder, List.length_take]
    omega
  rw [← hsplit] at hl ⊢
  by_cases hk : k ∈ recent
  · have hnot : k ∉ older := fun h => (List.nodup_append.mp hl).2.2 k h k hk rfl
    have herase : (recent.erase k).length = recent.length - 1 := List.length_erase_of_mem hk
    rw [if_pos hk, List.erase_append_right _ hnot]
    by_cases hfull : n + 1 ≤ l.length
    · rw [rtake_append_of_length_le (by omega), rtake_of_length_le (by omega)]
    · have hnil : older = [] := List.length_eq_zero_iff.mp (by omega)
      rw [hnil, List.nil_append, rtake_of_length_le (by omega)]
  · rw [if_neg hk]
    have herase : (older ++ recent).erase k = older.erase k ++ recent := by
      by_cases hold : k ∈ older
      · exact List.erase_append_left _ hold
      · rw [List.erase_of_not_mem (by simp [hk, hold]), List.erase_of_not_mem hold]
    rw [herase]
    by_cases hfull : n + 1 ≤ l.length
    · rw [if_pos (by omega), rtake_append_of_length_le (by omega), rtake_eq_tail (by omega),
        rtake_of_length_le (by omega)]
    · have hnil : older = [] := List.length_eq_zero_iff.mp (by omega)
      rw [if_neg (by omega), hnil, List.erase_nil, List.nil_append,
        rtake_of_length_le (by omega)]

/-- **Recently used keys.** Whatever is accessed, the list holds the last of the keys in the
order of their last accesses. -/
theorem foldl_useKey (n : ℕ) (ks : List α) :
    ks.foldl (useKey (n + 1)) [] = ks.dedup.rtake (n + 1) := by
  induction ks using List.reverseRecOn with
  | nil => simp
  | append_singleton ks k ih =>
      rw [List.foldl_append, List.foldl_cons, List.foldl_nil, ih, dedup_concat,
        List.rtake_concat_succ, rtake_erase (List.nodup_dedup ks), useKey]
      split
      · rfl
      · split <;> rfl

end SecCask
