import SecCask.Lib.LazyCache
import SecCask.Pac.Victim

/-!
# SecCask.Pac.Capacity

How many pairs the simulated caches hold. All four compare the size of the worker set with
`worker_set_size` before they add a pair, and make room only when it is larger. So each of them
is a cache that makes room late: it comes to hold one pair too many as soon as more than
`worker_set_size` different pairs have been requested.
-/

namespace SecCask.Pac

/-! ### The caches without scores -/

theorem lazyAccess_coldStart {c : BaseCache} {w : Worker} (hw : w ∉ c.workerSet) :
    LazyAccess c.workerSetSize w c.workerSet false (c.coldStart w).workerSet := by
  unfold BaseCache.coldStart
  by_cases hfull : c.workerSet.length > c.workerSetSize
  · simp only [if_pos hfull]
    have hne : c.workerSet ≠ [] := List.ne_nil_of_length_pos (by omega)
    have hpop : c.workerSet.Perm (c.workerSet.head hne :: c.workerSet.tail) := by
      rw [List.cons_head_tail]
    exact .evict_append hw hfull hpop
  · simp only [if_neg hfull]
    exact .fill_append hw (by omega)

/-- The simulation of a cache that adds no state to `BaseCache`. -/
def BaseCache.simOf {α : Type} (toBase : α → BaseCache)
    (get : α → Component → Version → Bool × α) : CacheSim ArrayError α Worker Worker where
  request := some
  run c w := .ok (some (get c w.1 w.2).1, (get c w.1 w.2).2)
  residents c := (toBase c).workerSet
  misses c := (toBase c).numColdStart

/-- Whatever a hit does to the order of the residents, such a cache makes room late. -/
theorem BaseCache.lazy_simOf {α : Type} {toBase : α → BaseCache}
    {get : α → Component → Version → Bool × α} {touch : List Worker → Worker → List Worker}
    (htouch : ∀ workerSet, ∀ w ∈ workerSet, (touch workerSet w).Perm workerSet)
    (hget : ∀ c f v, Prod.map id toBase (get c f v) = (toBase c).get touch (f, v)) (n : ℕ) :
    (simOf toBase get).Lazy n (fun _ => True) fun c => (toBase c).workerSetSize = n where
  access c w k hc _ hk := by
    obtain rfl : w = k := Option.some.inj hk
    by_cases hw : w ∈ (toBase c).workerSet
    · obtain ⟨hhit, hbase⟩ := Prod.mk.inj ((hget c w.1 w.2).trans (if_pos hw))
      refine ⟨true, _, congrArg (fun hit => Except.ok (some hit, _)) hhit, ?_⟩
      simp only [simOf, hbase]
      exact ⟨hc, .hit hw (htouch _ w hw), rfl⟩
    · obtain ⟨hhit, hbase⟩ := Prod.mk.inj ((hget c w.1 w.2).trans (if_neg hw))
      refine ⟨false, _, congrArg (fun hit => Except.ok (some hit, _)) hhit, ?_⟩
      simp only [simOf, hbase]
      exact ⟨hc, hc ▸ lazyAccess_coldStart hw, rfl⟩
  other _ _ _ _ h := by cases h

def LRUCache.sim : CacheSim ArrayError LRUCache Worker Worker :=
  BaseCache.simOf LRUCache.toBaseCache LRUCache.get

theorem LRUCache.lazy (n : ℕ) :
    LRUCache.sim.Lazy n (fun _ => True) fun c => c.workerSetSize = n :=
  @BaseCache.lazy_simOf _ _ _ touch (fun _ _ hw =>
    (List.perm_append_singleton _ _).trans (List.perm_cons_erase hw).symm) (fun _ _ _ => rfl) n

def FIFOCache.sim : CacheSim ArrayError FIFOCache Worker Worker :=
  BaseCache.simOf FIFOCache.toBaseCache FIFOCache.get

theorem FIFOCache.lazy (n : ℕ) :
    FIFOCache.sim.Lazy n (fun _ => True) fun c => c.workerSetSize = n :=
  @BaseCache.lazy_simOf _ _ _ touch (fun _ _ _ => List.Perm.refl _) (fun _ _ _ => rfl) n

/-! ### The least frequently used pair -/

theorem exists_axisIndex {n : ℕ} {i : ℤ} (h : -n ≤ i ∧ i < n) : ∃ j, axisIndex n i = some j := by
  unfold axisIndex
  split
  · exact ⟨_, rfl⟩
  · rename_i hneg
    rw [dif_pos ⟨h.1, by omega⟩]
    exact ⟨_, rfl⟩

theorem pop_of_axisIndex {α : Type*} {n : ℕ} {l : List α} (hl : l.length = n) {i : ℤ} {j : Fin n}
    (h : axisIndex n i = some j) : pop l i = .ok (l.eraseIdx j) := by
  subst hl
  rw [pop, h]

namespace LFUCache

def sim : CacheSim ArrayError LFUCache Worker Worker where
  request := some
  run c w := (c.get w.1 w.2).map fun (hit, t) => (some hit, t)
  residents c := c.workerSet
  misses c := c.numColdStart

/-- The tables have an entry for each resident, and its time has begun. -/
structure Tables (c : LFUCache) : Prop where
  frequencies : c.frequencyTable.length = c.workerSet.length
  times : c.time.length = c.workerSet.length
  time_pos : ∀ t ∈ c.time, 0 < t

theorem tables_new (n : ℕ) : (new n).Tables :=
  ⟨rfl, rfl, fun _ ht => (List.not_mem_nil ht).elim⟩

theorem Tables.tick {c : LFUCache} (hc : c.Tables) : c.tick.Tables where
  frequencies := hc.frequencies
  times := by simpa [LFUCache.tick] using hc.times
  time_pos := by
    intro t ht
    obtain ⟨u, -, rfl⟩ := List.mem_map.mp ht
    exact Nat.succ_pos u

theorem Tables.touch {c : LFUCache} (hc : c.Tables) (i : ℕ) :
    Tables { c with frequencyTable := c.frequencyTable.modify i (· + 1) } where
  frequencies := by simpa using hc.frequencies
  times := hc.times
  time_pos := hc.time_pos

theorem Tables.append {c : LFUCache} (hc : c.Tables) (w : Worker) : (c.append w).Tables where
  frequencies := by simpa [LFUCache.append] using hc.frequencies
  times := by simpa [LFUCache.append] using hc.times
  time_pos := by
    intro t ht
    rcases List.mem_append.mp ht with hold | hnew
    · exact hc.time_pos t hold
    · obtain rfl := List.mem_singleton.mp hnew
      exact Nat.one_pos

/-- The entry that eviction takes out of the worker set and of both tables. -/
def eraseEntry (c : LFUCache) (j : ℕ) : LFUCache :=
  { c with
    workerSet := c.workerSet.eraseIdx j
    frequencyTable := c.frequencyTable.eraseIdx j
    time := c.time.eraseIdx j }

theorem Tables.eraseEntry {c : LFUCache} (hc : c.Tables) (j : ℕ) : (c.eraseEntry j).Tables where
  frequencies := by simp [LFUCache.eraseEntry, List.length_eraseIdx, hc.frequencies]
  times := by simp [LFUCache.eraseEntry, List.length_eraseIdx, hc.times]
  time_pos := fun t ht => hc.time_pos t (List.mem_of_mem_eraseIdx ht)

/-- The search ends with an entry of the tables, or with the index -1 that it starts with. -/
theorem exists_leastFrequent {frequencyTable time : List ℕ}
    (hlen : time.length = frequencyTable.length) (hpos : ∀ t ∈ time, 0 < t) :
    ∃ i, leastFrequent frequencyTable time = .ok i ∧ -1 ≤ i ∧ i < frequencyTable.length := by
  have hround : ∀ entry ∈ frequencyTable.zipIdx, ∀ acc : ℤ × ℚ,
      (-1 ≤ acc.1 ∧ acc.1 < frequencyTable.length) →
      ∃ acc', leastFrequentRound time acc entry = .ok acc' ∧
        -1 ≤ acc'.1 ∧ acc'.1 < frequencyTable.length := by
    intro entry hentry acc hacc
    obtain ⟨freq, i⟩ := entry
    have hi : i < frequencyTable.length := by
      have h := List.snd_lt_of_mem_zipIdx hentry
      omega
    have hget : time[i]? = some time[i] := List.getElem?_eq_getElem (hlen ▸ hi)
    obtain ⟨t, ht⟩ := Nat.exists_eq_succ_of_ne_zero (hpos _ (List.getElem_mem (hlen ▸ hi))).ne'
    rw [ht] at hget
    simp only [leastFrequentRound, hget]
    split
    · exact ⟨_, rfl, by omega, by omega⟩
    · exact ⟨_, rfl, hacc⟩
  obtain ⟨acc, hfold, hacc⟩ := exists_foldlM_eq_ok (b := ((-1 : ℤ), (9999 : ℚ))) (by
    refine ⟨le_refl _, ?_⟩
    omega) hround
  exact ⟨acc.1, by rw [leastFrequent, hfold]; rfl, hacc⟩

/-- Eviction takes the same entry out of the worker set and of both tables. -/
theorem exists_evict {c : LFUCache} (hc : c.Tables) (hne : 0 < c.workerSet.length) :
    ∃ j < c.workerSet.length, c.evict = .ok (c.eraseEntry j) := by
  obtain ⟨i, hleast, hi⟩ := exists_leastFrequent (hc.times.trans hc.frequencies.symm) hc.time_pos
  rw [hc.frequencies] at hi
  obtain ⟨j, hj⟩ := exists_axisIndex (n := c.workerSet.length) ⟨by omega, hi.2⟩
  refine ⟨j, j.isLt, ?_⟩
  rw [evict, hleast]
  simp only [bind, Except.bind, pop_of_axisIndex rfl hj, pop_of_axisIndex hc.frequencies hj,
    pop_of_axisIndex hc.times hj, pure, Except.pure, eraseEntry]

/-- A cold start is a lazy access that keeps the tables. -/
theorem exists_coldStart {c : LFUCache} (hc : c.Tables) {w : Worker} (hw : w ∉ c.workerSet) :
    ∃ t, c.coldStart w = .ok t ∧ t.workerSetSize = c.workerSetSize ∧ t.Tables ∧
      LazyAccess c.workerSetSize w c.workerSet false t.workerSet ∧
      t.numColdStart = c.numColdStart + 1 := by
  -- The tables do not depend on the counter.
  have hcount : c.countColdStart.Tables := ⟨hc.frequencies, hc.times, hc.time_pos⟩
  by_cases hfull : c.countColdStart.workerSet.length > c.countColdStart.workerSetSize
  · obtain ⟨j, hj, hevict⟩ := exists_evict hcount (Nat.zero_lt_of_lt hfull)
    refine ⟨(c.countColdStart.eraseEntry j).append w, ?_, rfl,
      (hcount.eraseEntry j).append w, ?_, rfl⟩
    · rw [coldStart, if_pos hfull, hevict]
      rfl
    · exact .evict_append hw hfull (List.getElem_cons_eraseIdx_perm hj).symm
  · refine ⟨c.countColdStart.append w, if_neg hfull, rfl, hcount.append w, ?_, rfl⟩
    exact .fill_append hw (Nat.le_of_not_lt hfull)

theorem get_of_mem {c : LFUCache} (hc : c.Tables) {w : Worker} (hw : w ∈ c.workerSet) :
    ∃ i, c.workerSet[i]? = some w ∧ c.get w.1 w.2 = .ok (true, { c.tick with
      frequencyTable := c.tick.frequencyTable.modify i (· + 1) }) := by
  obtain ⟨i, hi⟩ : ∃ i, c.tick.workerSet.findIdx? (· = w) = some i := by
    rw [← Option.isSome_iff_exists, List.findIdx?_isSome, List.any_eq_true]
    exact ⟨w, hw, decide_eq_true rfl⟩
  obtain ⟨hlen, hentry, -⟩ := List.findIdx?_eq_some_iff_getElem.mp hi
  have hlt : i < c.tick.frequencyTable.length := hlen.trans_eq hc.frequencies.symm
  refine ⟨i, List.getElem?_eq_some_iff.mpr ⟨hlen, of_decide_eq_true hentry⟩, ?_⟩
  simp only [get, hi, if_pos hlt]

theorem get_of_notMem {c : LFUCache} {w : Worker} (hw : w ∉ c.workerSet) :
    c.get w.1 w.2 = (c.tick.coldStart w).map fun c => (false, c) := by
  have hnone : c.tick.workerSet.findIdx? (· = w) = none := by
    rw [List.findIdx?_eq_none_iff]
    intro v hv
    exact decide_eq_false fun h => hw (h ▸ hv)
  simp only [get, hnone]

theorem run_eq_ok {c t : LFUCache} {w : Worker} {hit : Bool}
    (h : c.get w.1 w.2 = .ok (hit, t)) : sim.run c w = .ok (some hit, t) := by
  simp only [sim, h]
  rfl

theorem lazy (n : ℕ) : sim.Lazy n (fun _ => True) fun c => c.workerSetSize = n ∧ c.Tables where
  access c w k hc _ hk := by
    obtain rfl : w = k := Option.some.inj hk
    obtain ⟨rfl, htables⟩ := hc
    by_cases hw : w ∈ c.workerSet
    · obtain ⟨i, -, hget⟩ := get_of_mem htables hw
      refine ⟨true, _, run_eq_ok hget, ⟨rfl, htables.tick.touch i⟩, ?_, rfl⟩
      exact .hit hw (List.Perm.refl _)
    · obtain ⟨t, ht, hsize, htables, haccess, hmisses⟩ := exists_coldStart htables.tick hw
      have hget : c.get w.1 w.2 = .ok (false, t) := by
        rw [get_of_notMem hw, ht]
        rfl
      exact ⟨false, t, run_eq_ok hget, ⟨hsize, htables⟩, haccess, hmisses⟩
  other _ _ _ _ h := by cases h

end LFUCache

/-! ### The pipeline-aware cache -/

/-- What `update` may be called with: it succeeds on matrices that are distributions, and keeps
them so. -/
structure Transformer where
  run : ScoreMatrices → History → Except ArrayError ScoreMatrices
  exists_run : ∀ {vsms : ScoreMatrices} {history : History}, vsms.Sound → history.InRange →
    ∃ t, run vsms history = .ok t ∧ ScoreMatrices.Sound t

/-- `vsm_transform_sl` is one, -/
def Transformer.sl : Transformer where
  run := vsmTransformSl
  exists_run hs _ := exists_vsmTransformSl hs _

/-- and so is `vsm_transform_ul`. -/
def Transformer.ul : Transformer where
  run := vsmTransformUl
  exists_run hs hrange := exists_vsmTransformUl hs hrange

namespace PACache

/-- The operations on a `PACache`. Submitted pipelines go directly to its history. -/
inductive Op
  | get (component : Component) (version : Version)
  | append (pipeline : Pipeline)
  | update (transformer : Transformer)

/-- The pair that an operation requests. -/
def Op.request : Op → Option Worker
  | get component version => some (component, version)
  | append _ => none
  | update _ => none

/-- Components and versions are in range. -/
def Op.InRange : Op → Prop
  | get component version => component < numPipelineLength ∧
      VSM.InMatrix (maxMajorVersion + 1) (maxMinorVersion + 1) version
  | append pipeline => pipeline.InRange
  | update _ => True

def run (argsort : Argsort) (c : PACache) : Op → Except ArrayError (Option Bool × PACache)
  | .get component version => (c.get argsort component version).map fun (hit, t) => (some hit, t)
  | .append pipeline => .ok (none, { c with history := c.history.append pipeline })
  | .update transformer => (c.update transformer.run).map fun t => (none, t)

def sim (argsort : Argsort) : CacheSim ArrayError PACache Op Worker where
  request := Op.request
  run := run argsort
  residents c := c.workerSet
  misses c := c.numColdStart

/-- The invariant: residents, history and scores are in range. -/
structure Sound (n : ℕ) (c : PACache) : Prop where
  size : c.workerSetSize = n
  residents : ∀ w ∈ c.workerSet, w.1 < numPipelineLength ∧
    VSM.InMatrix (maxMajorVersion + 1) (maxMinorVersion + 1) w.2
  history : c.history.InRange
  vsms : c.vsms.Sound

theorem Sound.exists_victim {n : ℕ} {c : PACache} (hc : c.Sound n) (argsort : Argsort)
    (hne : c.workerSet ≠ []) :
    ∃ w ∈ c.workerSet, leastPossibleWorker argsort c.vsms c.workerSet = .ok w := by
  have hscore : ∀ f d, (c.vsms f).data d ≤ 1 :=
    fun f d => (mem_Icc_of_mem_stdSimplex (hc.vsms f).1 d).2
  obtain ⟨f, d, hvictim, hmem, -⟩ := exists_leastPossibleWorker argsort hne hc.residents hscore
  exact ⟨_, hmem, hvictim⟩

/-- The residents that stay and a new one are in range. -/
theorem Sound.append {n : ℕ} {c : PACache} (hc : c.Sound n) {rest : List Worker}
    (hrest : ∀ v ∈ rest, v ∈ c.workerSet) {w : Worker} (hin : w.1 < numPipelineLength ∧
      VSM.InMatrix (maxMajorVersion + 1) (maxMinorVersion + 1) w.2) :
    Sound n { c with numColdStart := c.numColdStart + 1, workerSet := rest ++ [w] } := by
  refine ⟨hc.size, fun v hv => ?_, hc.history, hc.vsms⟩
  rcases List.mem_append.mp hv with hold | hnew
  · exact hc.residents v (hrest v hold)
  · obtain rfl := List.mem_singleton.mp hnew
    exact hin

theorem Sound.exists_coldStart {n : ℕ} {c : PACache} (hc : c.Sound n) (argsort : Argsort)
    {w : Worker} (hw : w ∉ c.workerSet) (hin : w.1 < numPipelineLength ∧
      VSM.InMatrix (maxMajorVersion + 1) (maxMinorVersion + 1) w.2) :
    ∃ t, c.coldStart argsort w = .ok t ∧ t.Sound n ∧
      LazyAccess n w c.workerSet false t.workerSet ∧ t.numColdStart = c.numColdStart + 1 := by
  unfold coldStart
  by_cases hfull : c.workerSet.length > c.workerSetSize
  · have hne : c.workerSet ≠ [] := List.ne_nil_of_length_pos (Nat.zero_lt_of_lt hfull)
    obtain ⟨victim, hvictim, hleast⟩ := hc.exists_victim argsort hne
    refine ⟨_, by simp only [if_pos hfull, hleast]; rfl,
      hc.append (fun v hv => List.mem_of_mem_erase hv) hin, ?_, rfl⟩
    exact .evict_append hw (hc.size ▸ hfull) (List.perm_cons_erase hvictim)
  · refine ⟨_, by simp only [if_neg hfull], hc.append (fun v hv => hv) hin, ?_, rfl⟩
    exact .fill_append hw (hc.size ▸ Nat.le_of_not_lt hfull)

theorem run_get_eq_ok {argsort : Argsort} {c t : PACache} {f : Component} {v : Version}
    {hit : Bool} (h : c.get argsort f v = .ok (hit, t)) :
    run argsort c (.get f v) = .ok (some hit, t) := by
  simp only [run, h]
  rfl

theorem lazy (argsort : Argsort) (n : ℕ) : (sim argsort).Lazy n Op.InRange (Sound n) where
  access c op k hc hop hk := by
    cases op with
    | get f v =>
        obtain rfl : (f, v) = k := Option.some.inj hk
        by_cases hw : (f, v) ∈ c.workerSet
        · exact ⟨true, c, run_get_eq_ok (if_pos hw), hc, .hit hw (List.Perm.refl _), rfl⟩
        · obtain ⟨t, ht, hsound, haccess, hmisses⟩ := hc.exists_coldStart argsort hw hop
          have hget : c.get argsort f v = .ok (false, t) := by
            simp only [get, if_neg hw, ht]
            rfl
          exact ⟨false, t, run_get_eq_ok hget, hsound, haccess, hmisses⟩
    | append pipeline => cases hk
    | update transformer => cases hk
  other c op hc hop hk := by
    cases op with
    | get f v => cases hk
    | append pipeline =>
        exact ⟨none, _, rfl, ⟨hc.size, hc.residents, hc.history.append hop, hc.vsms⟩, rfl⟩
    | update transformer =>
        obtain ⟨vsms, hrun, hvsms⟩ := transformer.exists_run hc.vsms hc.history
        refine ⟨none, { c with vsms := vsms }, ?_, ⟨hc.size, hc.residents, hc.history, hvsms⟩,
          rfl⟩
        simp only [sim, run, update, hrun]
        rfl

theorem sound_new (n historyCapacity : ℕ) {alpha : ℚ} (h0 : 0 ≤ alpha) (h1 : alpha ≤ 1) :
    (new n historyCapacity alpha).Sound n :=
  ⟨rfl, fun _ hw => (List.not_mem_nil hw).elim, History.inRange_new _,
    sound_generateScoreMatrices h0 h1⟩

end PACache

/-! ### The size of the caches -/

/-- No cache ever holds more than one pair over its size. -/
theorem caches_respect_size_add_one (argsort : Argsort) (n : ℕ) :
    (∀ ws, LRUCache.sim.Respects (n + 1) (.new n) ws) ∧
    (∀ ws, LFUCache.sim.Respects (n + 1) (.new n) ws) ∧
    (∀ ws, FIFOCache.sim.Respects (n + 1) (.new n) ws) ∧
    ∀ historyCapacity alpha ops, 0 ≤ alpha → alpha ≤ 1 →
      (∀ op ∈ ops, PACache.Op.InRange op) →
      (PACache.sim argsort).Respects (n + 1) (.new n historyCapacity alpha) ops := by
  refine ⟨fun ws => ?_, fun ws => ?_, fun ws => ?_, ?_⟩
  · exact (LRUCache.lazy n).respects_succ rfl (CacheSim.within_of_empty rfl) fun _ _ => trivial
  · exact (LFUCache.lazy n).respects_succ ⟨rfl, LFUCache.tables_new n⟩
      (CacheSim.within_of_empty rfl) fun _ _ => trivial
  · exact (FIFOCache.lazy n).respects_succ rfl (CacheSim.within_of_empty rfl) fun _ _ => trivial
  · intro historyCapacity alpha ops h0 h1 hops
    exact (PACache.lazy argsort n).respects_succ (PACache.sound_new n historyCapacity h0 h1)
      (CacheSim.within_of_empty rfl) hops

theorem LRUCache.respects_iff (n : ℕ) (ws : List Worker) :
    LRUCache.sim.Respects n (.new n) ws ↔ ws.toFinset.card ≤ n := by
  rw [(LRUCache.lazy n).respects_iff_of_empty rfl rfl fun _ _ => trivial, LRUCache.sim,
    BaseCache.simOf, List.filterMap_some]

theorem LFUCache.respects_iff (n : ℕ) (ws : List Worker) :
    LFUCache.sim.Respects n (.new n) ws ↔ ws.toFinset.card ≤ n := by
  rw [(LFUCache.lazy n).respects_iff_of_empty ⟨rfl, LFUCache.tables_new n⟩ rfl
    fun _ _ => trivial, LFUCache.sim, List.filterMap_some]

theorem FIFOCache.respects_iff (n : ℕ) (ws : List Worker) :
    FIFOCache.sim.Respects n (.new n) ws ↔ ws.toFinset.card ≤ n := by
  rw [(FIFOCache.lazy n).respects_iff_of_empty rfl rfl fun _ _ => trivial, FIFOCache.sim,
    BaseCache.simOf, List.filterMap_some]

theorem PACache.respects_iff (argsort : Argsort) (n historyCapacity : ℕ) {alpha : ℚ}
    (h0 : 0 ≤ alpha) (h1 : alpha ≤ 1) {ops : List Op} (hops : ∀ op ∈ ops, op.InRange) :
    (sim argsort).Respects n (.new n historyCapacity alpha) ops ↔
      (ops.filterMap Op.request).toFinset.card ≤ n :=
  (PACache.lazy argsort n).respects_iff_of_empty (sound_new n historyCapacity h0 h1) rfl hops

/-- **Capacity.** Each cache answers as it should and stays within `worker_set_size` all the
way exactly if at most so many different pairs are requested. -/
theorem caches_respect_size_iff (argsort : Argsort) (n : ℕ) :
    (∀ ws, LRUCache.sim.Respects n (.new n) ws ↔ ws.toFinset.card ≤ n) ∧
    (∀ ws, LFUCache.sim.Respects n (.new n) ws ↔ ws.toFinset.card ≤ n) ∧
    (∀ ws, FIFOCache.sim.Respects n (.new n) ws ↔ ws.toFinset.card ≤ n) ∧
    ∀ historyCapacity alpha ops, 0 ≤ alpha → alpha ≤ 1 →
      (∀ op ∈ ops, PACache.Op.InRange op) →
      ((PACache.sim argsort).Respects n (.new n historyCapacity alpha) ops ↔
        (ops.filterMap PACache.Op.request).toFinset.card ≤ n) :=
  ⟨LRUCache.respects_iff n, LFUCache.respects_iff n, FIFOCache.respects_iff n,
    fun historyCapacity _ _ h0 h1 hops =>
      PACache.respects_iff argsort n historyCapacity h0 h1 hops⟩

section Example

/-- Two different pairs are requested, with an update in between. -/
def twoRequests : List PACache.Op :=
  [.get 0 (0, 0), .update .ul, .get 1 (0, 0), .get 0 (0, 0)]

theorem inRange_twoRequests : ∀ op ∈ twoRequests, op.InRange := by
  intro op hop
  simp only [twoRequests, List.mem_cons, List.not_mem_nil, or_false] at hop
  rcases hop with rfl | rfl | rfl | rfl
  · exact ⟨by decide, by decide⟩
  · trivial
  · exact ⟨by decide, by decide⟩
  · exact ⟨by decide, by decide⟩

theorem twoRequests_respect_two :
    (PACache.sim .stable).Respects 2 (.new 2 8 (1 / 5)) twoRequests :=
  ((caches_respect_size_iff .stable 2).2.2.2 8 (1 / 5) twoRequests (by norm_num) (by norm_num)
    inRange_twoRequests).mpr (by decide)

/-- In a cache for one pair they are both resident. -/
theorem twoRequests_exceed_one :
    ¬LRUCache.sim.Respects 1 (.new 1) [(0, (0, 0)), (1, (0, 0))] ∧
    ¬LFUCache.sim.Respects 1 (.new 1) [(0, (0, 0)), (1, (0, 0))] ∧
    ¬FIFOCache.sim.Respects 1 (.new 1) [(0, (0, 0)), (1, (0, 0))] ∧
    ¬(PACache.sim .stable).Respects 1 (.new 1 8 (1 / 5)) twoRequests := by
  rw [LRUCache.respects_iff, LFUCache.respects_iff, FIFOCache.respects_iff,
    PACache.respects_iff .stable 1 8 (by norm_num) (by norm_num) inRange_twoRequests]
  decide

end Example

end SecCask.Pac
