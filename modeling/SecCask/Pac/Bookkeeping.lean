import SecCask.Pac.Capacity

/-!
# SecCask.Pac.Bookkeeping

The tables of `LFUCache`. They say of each resident how often it has been requested and how many
calls there have been since it came in, its own included. So all three lists are read off one
list of residents with the calls that each has seen, and what `get` does to the lists is what it
does to this list.
-/

namespace SecCask.Pac

namespace LFUCache

/-- An entry of the worker set with the calls after the one that brought it in. -/
structure Resident where
  worker : Worker
  later : List Worker

namespace Resident

/-- The calls since the resident came in. -/
def calls (r : Resident) : List Worker := r.worker :: r.later

def frequency (r : Resident) : ℕ := r.calls.count r.worker

def age (r : Resident) : ℕ := r.calls.length

def ratio (r : Resident) : ℚ := (r.frequency : ℚ) / r.age

/-- The resident after one more call. -/
def see (w : Worker) (r : Resident) : Resident := { r with later := r.later ++ [w] }

theorem calls_see (w : Worker) (r : Resident) : (r.see w).calls = r.calls ++ [w] := rfl

theorem age_see (w : Worker) (r : Resident) : (r.see w).age = r.age + 1 := by
  rw [age, calls_see, List.length_append, List.length_singleton, age]

theorem frequency_see (w : Worker) (r : Resident) :
    (r.see w).frequency = r.frequency + if w = r.worker then 1 else 0 := by
  rw [frequency, calls_see, List.count_append, List.count_singleton, frequency]
  simp only [see, beq_iff_eq]

theorem one_le_frequency (r : Resident) : 1 ≤ r.frequency :=
  List.count_pos_iff.mpr List.mem_cons_self

theorem frequency_le_age (r : Resident) : r.frequency ≤ r.age := List.count_le_length

theorem exists_age (r : Resident) : ∃ t, r.age = t + 1 := ⟨r.later.length, rfl⟩

theorem ratio_le_one (r : Resident) : r.ratio ≤ 1 :=
  div_le_one_of_le₀ (by exact_mod_cast r.frequency_le_age) (Nat.cast_nonneg _)

end Resident

/-- The lists of the cache are those of the residents, which are different workers. -/
structure Shows (c : LFUCache) (residents : List Resident) : Prop where
  workerSet : c.workerSet = residents.map Resident.worker
  frequencyTable : c.frequencyTable = residents.map Resident.frequency
  time : c.time = residents.map Resident.age
  nodup : c.workerSet.Nodup

/-! ### The search for the least frequency -/

/-- A round of the search, on residents. -/
def searchRound (acc : ℤ × ℚ) (entry : Resident × ℕ) : ℤ × ℚ :=
  if entry.1.ratio ≤ acc.2 then (entry.2, entry.1.ratio) else acc

theorem leastFrequentRound_eq {residents : List Resident} {entry : Resident × ℕ}
    (h : entry ∈ residents.zipIdx) (acc : ℤ × ℚ) :
    leastFrequentRound (residents.map Resident.age) acc (Prod.map Resident.frequency id entry) =
      .ok (searchRound acc entry) := by
  obtain ⟨r, i⟩ := entry
  have hget : (residents.map Resident.age)[i]? = some r.age := by
    rw [List.getElem?_map, List.mk_mem_zipIdx_iff_getElem?.mp h]
    rfl
  obtain ⟨t, ht⟩ := r.exists_age
  simp only [leastFrequentRound, Prod.map, id, hget, searchRound, Resident.ratio, ht]
  split <;> rfl

theorem leastFrequent_eq (residents : List Resident) :
    leastFrequent (residents.map Resident.frequency) (residents.map Resident.age) =
      .ok (residents.zipIdx.foldl searchRound (-1, 9999)).1 := by
  rw [leastFrequent, List.zipIdx_map, List.foldlM_map,
    foldlM_eq_ok_foldl fun entry hentry acc => leastFrequentRound_eq hentry acc]
  rfl

/-- The residents are split at the last one whose ratio is minimal. -/
structure LastLeast (before : List Resident) (r : Resident) (after : List Resident) : Prop where
  before : ∀ q ∈ before, r.ratio ≤ q.ratio
  after : ∀ q ∈ after, r.ratio < q.ratio

theorem exists_lastLeast {residents : List Resident} (hne : residents ≠ []) :
    ∃ before r after, residents = before ++ r :: after ∧ LastLeast before r after ∧
      residents.zipIdx.foldl searchRound (-1, 9999) = ((before.length : ℤ), r.ratio) := by
  induction residents using List.reverseRecOn with
  | nil => exact (hne rfl).elim
  | append_singleton residents q ih =>
      rw [List.zipIdx_append, List.foldl_append]
      by_cases hnil : residents = []
      · -- No ratio is over the value that the search starts with.
        subst hnil
        have hstart : q.ratio ≤ 9999 := q.ratio_le_one.trans (by norm_num)
        refine ⟨[], q, [], rfl, ⟨by simp, by simp⟩, ?_⟩
        exact if_pos hstart
      · obtain ⟨before, r, after, rfl, hleast, hfold⟩ := ih hnil
        rw [hfold]
        by_cases hq : q.ratio ≤ r.ratio
        · refine ⟨before ++ r :: after, q, [], rfl, ⟨?_, by simp⟩, ?_⟩
          · intro p hp
            rcases List.mem_append.mp hp with hp | hp
            · exact hq.trans (hleast.before p hp)
            · rcases List.mem_cons.mp hp with rfl | hp
              · exact hq
              · exact hq.trans (hleast.after p hp).le
          · simp [searchRound, hq]
        · refine ⟨before, r, after ++ [q], by simp, ⟨hleast.before, ?_⟩, ?_⟩
          · intro p hp
            rcases List.mem_append.mp hp with hp | hp
            · exact hleast.after p hp
            · obtain rfl := List.mem_singleton.mp hp
              exact lt_of_not_ge hq
          · exact if_neg hq

/-! ### One call -/

/-- What eviction does in a call of an absent worker: on the residents that have seen the call,
`i_min` is the index of the last one whose ratio is minimal, and its entry goes. -/
def EvictsLastLeast (c : LFUCache) (residents : List Resident) (w : Worker) : Prop :=
  ∃ before r after, residents.map (Resident.see w) = before ++ r :: after ∧
    LastLeast before r after ∧
    leastFrequent c.tick.frequencyTable c.tick.time = .ok before.length ∧
    ∃ t, c.get w.1 w.2 = .ok (false, t) ∧ t.workerSetSize = c.workerSetSize ∧
      t.Shows (before ++ after ++ [⟨w, []⟩])

namespace Shows

variable {c : LFUCache} {residents : List Resident}

theorem tables (h : c.Shows residents) : c.Tables where
  frequencies := by rw [h.frequencyTable, h.workerSet, List.length_map, List.length_map]
  times := by rw [h.time, h.workerSet, List.length_map, List.length_map]
  time_pos := by
    intro t ht
    rw [h.time] at ht
    obtain ⟨r, -, rfl⟩ := List.mem_map.mp ht
    exact Nat.succ_pos _

theorem length_eq (h : c.Shows residents) : c.workerSet.length = residents.length := by
  rw [h.workerSet, List.length_map]

/-- A call of an absent worker leaves every frequency as it was. -/
theorem tick (h : c.Shows residents) {w : Worker} (hw : w ∉ c.workerSet) :
    c.tick.Shows (residents.map (Resident.see w)) where
  workerSet := by
    rw [List.map_map]
    exact h.workerSet
  frequencyTable := by
    rw [List.map_map]
    refine h.frequencyTable.trans (List.map_congr_left fun r hr => ?_)
    have hne : w ≠ r.worker := by
      intro heq
      subst heq
      exact hw (h.workerSet ▸ List.mem_map_of_mem hr)
    rw [Function.comp_apply, Resident.frequency_see, if_neg hne, Nat.add_zero]
  time := by
    show c.time.map (· + 1) = _
    rw [h.time, List.map_map, List.map_map]
    exact List.map_congr_left fun r _ => (r.age_see w).symm
  nodup := h.nodup

/-- The entry of a worker in the frequency table is the one that a call of it counts in. -/
theorem modify_frequencyTable (h : c.Shows residents) {w : Worker} {i : ℕ}
    (hi : c.workerSet[i]? = some w) :
    c.frequencyTable.modify i (· + 1) =
      (residents.map (Resident.see w)).map Resident.frequency := by
  rw [h.frequencyTable]
  refine List.ext_getElem? fun j => ?_
  rw [List.getElem?_modify, List.map_map, List.getElem?_map, List.getElem?_map]
  cases hj : residents[j]? with
  | none => rfl
  | some r =>
      have hr : c.workerSet[j]? = some r.worker := by
        rw [h.workerSet, List.getElem?_map, hj]
        rfl
      -- Residents are different workers, so this is the entry exactly if it is the worker.
      have hiff : i = j ↔ w = r.worker := by
        refine ⟨?_, ?_⟩
        · intro heq
          subst heq
          exact Option.some.inj (hi.symm.trans hr)
        · intro heq
          subst heq
          obtain ⟨hlt, -⟩ := List.getElem?_eq_some_iff.mp hi
          exact (List.getElem?_inj hlt h.nodup).mp (hi.trans hr.symm)
      by_cases hw : w = r.worker
      · simp [hiff, hw, Resident.frequency_see]
      · simp [hiff, hw, Resident.frequency_see]

/-- A call of a resident counts for it alone. -/
theorem exists_hit (h : c.Shows residents) {w : Worker} (hw : w ∈ c.workerSet) :
    ∃ t, c.get w.1 w.2 = .ok (true, t) ∧ t.workerSetSize = c.workerSetSize ∧
      t.Shows (residents.map (Resident.see w)) := by
  obtain ⟨i, hi, hget⟩ := get_of_mem h.tables hw
  refine ⟨_, hget, rfl, ?_, h.modify_frequencyTable hi, ?_, h.nodup⟩
  · rw [List.map_map]
    exact h.workerSet
  · show c.time.map (· + 1) = _
    rw [h.time, List.map_map, List.map_map]
    exact List.map_congr_left fun r _ => (r.age_see w).symm

/-- The new entry has been requested once, by this call. -/
theorem append (h : c.Shows residents) {w : Worker} (hw : w ∉ c.workerSet) :
    (c.append w).Shows (residents ++ [⟨w, []⟩]) where
  workerSet := by
    rw [List.map_append, ← h.workerSet]
    rfl
  frequencyTable := by
    have hone : Resident.frequency ⟨w, []⟩ = 1 := List.count_singleton_self
    rw [List.map_append, ← h.frequencyTable, List.map_singleton, hone]
    rfl
  time := by
    rw [List.map_append, ← h.time]
    rfl
  nodup := List.nodup_append.mpr ⟨h.nodup, List.nodup_singleton w, by
    intro v hv u hu
    obtain rfl := List.mem_singleton.mp hu
    intro heq
    subst heq
    exact hw hv⟩

theorem countColdStart (h : c.Shows residents) : c.countColdStart.Shows residents :=
  ⟨h.workerSet, h.frequencyTable, h.time, h.nodup⟩

theorem eraseEntry {before after : List Resident} {r : Resident}
    (h : c.Shows (before ++ r :: after)) :
    (c.eraseEntry before.length).Shows (before ++ after) := by
  have herase : (before ++ r :: after).eraseIdx before.length = before ++ after := by
    rw [List.eraseIdx_append_of_length_le (le_refl _), Nat.sub_self, List.eraseIdx_cons_zero]
  refine ⟨?_, ?_, ?_, h.nodup.sublist (List.eraseIdx_sublist ..)⟩
  · rw [← herase, ← List.eraseIdx_map, ← h.workerSet]
    rfl
  · rw [← herase, ← List.eraseIdx_map, ← h.frequencyTable]
    rfl
  · rw [← herase, ← List.eraseIdx_map, ← h.time]
    rfl

/-- Eviction takes out the last resident whose ratio is minimal. -/
theorem exists_evict (h : c.Shows residents) (hne : residents ≠ []) :
    ∃ before r after, residents = before ++ r :: after ∧ LastLeast before r after ∧
      leastFrequent c.frequencyTable c.time = .ok before.length ∧
      c.evict = .ok (c.eraseEntry before.length) := by
  obtain ⟨before, r, after, rfl, hleast, hfold⟩ := exists_lastLeast hne
  have hsearch : leastFrequent c.frequencyTable c.time = .ok (before.length : ℤ) := by
    rw [h.frequencyTable, h.time, leastFrequent_eq, hfold]
  have hlength : c.workerSet.length = (before ++ r :: after).length := h.length_eq
  rw [List.length_append, List.length_cons] at hlength
  have hindex : axisIndex c.workerSet.length before.length =
      some ⟨before.length, by omega⟩ := by
    have hlt : (before.length : ℤ) < c.workerSet.length := by omega
    simp [axisIndex, hlt]
  refine ⟨before, r, after, rfl, hleast, hsearch, ?_⟩
  rw [evict, hsearch]
  simp only [bind, Except.bind, pop_of_axisIndex rfl hindex,
    pop_of_axisIndex h.tables.frequencies hindex, pop_of_axisIndex h.tables.times hindex, pure,
    Except.pure, LFUCache.eraseEntry]

theorem evictsLastLeast (h : c.Shows residents) {w : Worker} (hw : w ∉ c.workerSet)
    (hfull : c.workerSetSize < c.workerSet.length) : EvictsLastLeast c residents w := by
  have htick := (h.tick hw).countColdStart
  have hne : residents.map (Resident.see w) ≠ [] := by
    rw [← List.length_pos_iff, List.length_map, ← h.length_eq]
    omega
  obtain ⟨before, r, after, hsplit, hleast, hsearch, hevict⟩ := htick.exists_evict hne
  refine ⟨before, r, after, hsplit, hleast, hsearch,
    (c.tick.countColdStart.eraseEntry before.length).append w, ?_, rfl, ?_⟩
  · have hroom : c.tick.coldStart w =
        .ok ((c.tick.countColdStart.eraseEntry before.length).append w) := by
      rw [coldStart, if_pos (by exact hfull), hevict]
      rfl
    rw [get_of_notMem hw, hroom]
    rfl
  · refine (hsplit ▸ htick).eraseEntry.append fun hmem => hw ?_
    exact List.mem_of_mem_eraseIdx hmem

theorem get_of_room (h : c.Shows residents) {w : Worker} (hw : w ∉ c.workerSet)
    (hroom : c.workerSet.length ≤ c.workerSetSize) :
    ∃ t, c.get w.1 w.2 = .ok (false, t) ∧ t.workerSetSize = c.workerSetSize ∧
      t.Shows (residents.map (Resident.see w) ++ [⟨w, []⟩]) := by
  refine ⟨c.tick.countColdStart.append w, ?_, rfl, (h.tick hw).countColdStart.append hw⟩
  have hfill : c.tick.coldStart w = .ok (c.tick.countColdStart.append w) :=
    if_neg (Nat.not_lt.mpr hroom)
  rw [get_of_notMem hw, hfill]
  rfl

end Shows

/-! ### Runs -/

/-- The cache after the accesses, in their order. -/
def accessed (workerSetSize : ℕ) (ws : List Worker) : Except ArrayError LFUCache :=
  ws.foldlM (fun c w => (c.get w.1 w.2).map Prod.snd) (new workerSetSize)

/-- The invariant: the calls of each resident are the last of all calls. -/
structure Kept (n : ℕ) (ws : List Worker) (c : LFUCache) (residents : List Resident) : Prop where
  shows : c.Shows residents
  size : c.workerSetSize = n
  calls : ∀ r ∈ residents, r.calls <:+ ws

variable {n : ℕ} {ws : List Worker} {c : LFUCache} {residents : List Resident}

theorem kept_new (n : ℕ) : Kept n [] (new n) [] :=
  ⟨⟨rfl, rfl, rfl, List.nodup_nil⟩, rfl, fun _ hr => (List.not_mem_nil hr).elim⟩

theorem Kept.calls_see (h : Kept n ws c residents) (w : Worker) :
    ∀ r ∈ residents.map (Resident.see w), r.calls <:+ ws ++ [w] := by
  intro r hr
  obtain ⟨q, hq, rfl⟩ := List.mem_map.mp hr
  obtain ⟨earlier, hws⟩ := h.calls q hq
  exact ⟨earlier, by rw [Resident.calls_see, ← List.append_assoc, hws]⟩

/-- The one that comes in has seen its own call only. -/
theorem Kept.calls_append (h : Kept n ws c residents) {w : Worker} {rest : List Resident}
    (hrest : ∀ r ∈ rest, r ∈ residents.map (Resident.see w)) :
    ∀ r ∈ rest ++ [⟨w, []⟩], r.calls <:+ ws ++ [w] := by
  intro r hr
  rcases List.mem_append.mp hr with hold | hnew
  · exact h.calls_see w r (hrest r hold)
  · obtain rfl := List.mem_singleton.mp hnew
    exact List.suffix_append ws [w]

theorem Kept.exists_get (h : Kept n ws c residents) (w : Worker) :
    ∃ hit t residents', c.get w.1 w.2 = .ok (hit, t) ∧ Kept n (ws ++ [w]) t residents' := by
  by_cases hw : w ∈ c.workerSet
  · obtain ⟨t, hget, hsize, ht⟩ := h.shows.exists_hit hw
    exact ⟨true, t, _, hget, ht, hsize.trans h.size, h.calls_see w⟩
  · by_cases hfull : c.workerSetSize < c.workerSet.length
    · obtain ⟨before, r, after, hsplit, -, -, t, hget, hsize, ht⟩ :=
        h.shows.evictsLastLeast hw hfull
      refine ⟨false, t, _, hget, ht, hsize.trans h.size, h.calls_append fun q hq => ?_⟩
      rw [hsplit]
      rcases List.mem_append.mp hq with hq | hq
      · exact List.mem_append_left _ hq
      · exact List.mem_append_right _ (List.mem_cons_of_mem r hq)
    · obtain ⟨t, hget, hsize, ht⟩ := h.shows.get_of_room hw (Nat.le_of_not_lt hfull)
      exact ⟨false, t, _, hget, ht, hsize.trans h.size, h.calls_append fun q hq => hq⟩

theorem exists_accessed (n : ℕ) (ws : List Worker) :
    ∃ c residents, accessed n ws = .ok c ∧ Kept n ws c residents := by
  induction ws using List.reverseRecOn with
  | nil => exact ⟨new n, [], rfl, kept_new n⟩
  | append_singleton ws w ih =>
      obtain ⟨c, residents, hrun, hkept⟩ := ih
      obtain ⟨hit, t, residents', hget, ht⟩ := hkept.exists_get w
      refine ⟨t, residents', ?_, ht⟩
      have hstep : (c.get w.1 w.2).map Prod.snd = .ok t := by
        rw [hget]
        rfl
      rw [accessed, List.foldlM_append]
      refine bind_eq_ok_iff.mpr ⟨c, hrun, ?_⟩
      rw [List.foldlM_cons]
      exact bind_eq_ok_iff.mpr ⟨t, hstep, rfl⟩

/-- **Bookkeeping.** No sequence of calls fails. After it the three lists are those of one list
of different residents, and each resident has been requested at least once and at most as often
as there have been calls since it came in. A call that evicts finds the index of the last
resident whose ratio of the two is minimal. -/
theorem bookkeeping (n : ℕ) (ws : List Worker) :
    ∃ c residents, accessed n ws = .ok c ∧ c.Shows residents ∧
      (∀ r ∈ residents, r.calls <:+ ws ∧ 1 ≤ r.frequency ∧ r.frequency ≤ r.age) ∧
      ∀ w ∉ c.workerSet, n < c.workerSet.length → c.EvictsLastLeast residents w := by
  obtain ⟨c, residents, hrun, hkept⟩ := exists_accessed n ws
  refine ⟨c, residents, hrun, hkept.shows, ?_, ?_⟩
  · intro r hr
    exact ⟨hkept.calls r hr, r.one_le_frequency, r.frequency_le_age⟩
  · intro w hw hfull
    exact hkept.shows.evictsLastLeast hw (hkept.size.trans_lt hfull)

end LFUCache

end SecCask.Pac
