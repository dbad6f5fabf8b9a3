import SecCask.Lib.Recent
import SecCask.Pac.Cache

/-!
# SecCask.Pac.Inclusion

`LRUCache` of two sizes on the same accesses. Its worker set is the list of the pairs used last,
whose length is by one larger than `worker_set_size`. So the smaller cache holds nothing that the
larger one does not hold, and whatever is missing from the larger one is missing from it too.
-/

namespace SecCask.Pac

namespace LRUCache

/-- The cache after the accesses, in their order. -/
def accessed (workerSetSize : ℕ) (ws : List Worker) : LRUCache :=
  ws.foldl (fun c w => (c.get w.1 w.2).2) (new workerSetSize)

theorem accessed_concat (n : ℕ) (ws : List Worker) (w : Worker) :
    accessed n (ws ++ [w]) = ((accessed n ws).get w.1 w.2).2 :=
  List.foldl_concat ..

theorem get_of_mem {c : LRUCache} {w : Worker} (hw : w ∈ c.workerSet) :
    c.get w.1 w.2 = (true, { c with workerSet := c.workerSet.erase w ++ [w] }) := by
  simp only [get, BaseCache.get, if_pos hw, touch]

theorem get_of_notMem {c : LRUCache} {w : Worker} (hw : w ∉ c.workerSet) :
    c.get w.1 w.2 = (false, ⟨c.coldStart w⟩) := by
  simp only [get, BaseCache.get, if_neg hw]

theorem workerSet_get (c : LRUCache) (w : Worker) :
    (c.get w.1 w.2).2.workerSet = useKey (c.workerSetSize + 1) c.workerSet w := by
  unfold useKey
  by_cases hw : w ∈ c.workerSet
  · rw [get_of_mem hw, if_pos hw, lawful_beq_subsingleton instBEqOfDecidableEq instBEqProd]
  · rw [get_of_notMem hw, if_neg hw]
    rfl

theorem workerSetSize_get (c : LRUCache) (w : Worker) :
    (c.get w.1 w.2).2.workerSetSize = c.workerSetSize := by
  by_cases hw : w ∈ c.workerSet
  · rw [get_of_mem hw]
  · rw [get_of_notMem hw]
    rfl

theorem numColdStart_get (c : LRUCache) (w : Worker) :
    (c.get w.1 w.2).2.numColdStart = c.numColdStart + if w ∈ c.workerSet then 0 else 1 := by
  by_cases hw : w ∈ c.workerSet
  · rw [get_of_mem hw, if_pos hw, Nat.add_zero]
  · rw [get_of_notMem hw, if_neg hw]
    rfl

theorem workerSetSize_accessed (n : ℕ) (ws : List Worker) :
    (accessed n ws).workerSetSize = n := by
  induction ws using List.reverseRecOn with
  | nil => rfl
  | append_singleton ws w ih => rw [accessed_concat, workerSetSize_get, ih]

/-- The worker set holds the pairs that have been accessed last, in the order of their last
accesses. -/
theorem workerSet_accessed (n : ℕ) (ws : List Worker) :
    (accessed n ws).workerSet = ws.dedup.rtake (n + 1) := by
  rw [← foldl_useKey]
  induction ws using List.reverseRecOn with
  | nil => rfl
  | append_singleton ws w ih =>
      rw [accessed_concat, workerSet_get, workerSetSize_accessed, ih, List.foldl_concat]

theorem workerSet_isSuffix {s t : ℕ} (h : s ≤ t) (ws : List Worker) :
    (accessed s ws).workerSet <:+ (accessed t ws).workerSet := by
  rw [workerSet_accessed, workerSet_accessed]
  exact rtake_isSuffix _ (by omega)

theorem numColdStart_le {s t : ℕ} (h : s ≤ t) (ws : List Worker) :
    (accessed t ws).numColdStart ≤ (accessed s ws).numColdStart := by
  induction ws using List.reverseRecOn with
  | nil => exact le_refl 0
  | append_singleton ws w ih =>
      rw [accessed_concat, accessed_concat, numColdStart_get, numColdStart_get]
      -- A hit in the smaller cache is one in the larger cache.
      have hhit : w ∈ (accessed s ws).workerSet → w ∈ (accessed t ws).workerSet :=
        fun hw => (workerSet_isSuffix h ws).subset hw
      by_cases hw : w ∈ (accessed s ws).workerSet
      · rw [if_pos hw, if_pos (hhit hw)]
        omega
      · rw [if_neg hw]
        split <;> omega

/-- **Inclusion.** After any accesses the worker set of the smaller cache is a suffix of the one
of the larger cache, which is a suffix of all pairs in the order of their last accesses, and the
larger cache has had no more cold starts. -/
theorem inclusion {s t : ℕ} (h : s ≤ t) (ws : List Worker) :
    (accessed s ws).workerSet <:+ (accessed t ws).workerSet ∧
      (accessed t ws).workerSet <:+ ws.dedup ∧
      (accessed t ws).numColdStart ≤ (accessed s ws).numColdStart := by
  refine ⟨workerSet_isSuffix h ws, ?_, numColdStart_le h ws⟩
  rw [workerSet_accessed]
  exact List.drop_suffix _ _

theorem inclusion_zero_one :
    (accessed 0 [(0, 1, 0), (1, 0, 0), (0, 1, 0)]).workerSet <:+ [(1, 0, 0), (0, 1, 0)] ∧
      (accessed 1 [(0, 1, 0), (1, 0, 0), (0, 1, 0)]).numColdStart ≤ 3 := by
  have h := inclusion (Nat.zero_le 1) [(0, 1, 0), (1, 0, 0), (0, 1, 0)]
  exact ⟨h.1, h.2.2⟩

end LRUCache

end SecCask.Pac
