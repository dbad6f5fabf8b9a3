import Mathlib.Data.List.MinMax
import SecCask.Pac.Transform

/-!
# SecCask.Pac.Cache

The four simulated caches of `pac/cache.py`. Each holds pairs of a component and a version, and
looks at its size only when a pair is missing, before it adds the pair.
-/

namespace SecCask.Pac

/-- An entry of `_worker_set`. -/
abbrev Worker := Component × Version

structure BaseCache where
  workerSet : List Worker
  numColdStart : ℕ
  workerSetSize : ℕ

namespace BaseCache

def new (workerSetSize : ℕ) : BaseCache where
  workerSet := []
  numColdStart := 0
  workerSetSize := workerSetSize

/-- A cold start that makes room with `pop(0)`, the end of `get` in `LRUCache` and in
`FIFOCache`. -/
def coldStart (c : BaseCache) (w : Worker) : BaseCache :=
  let workerSet :=
    if c.workerSet.length > c.workerSetSize then c.workerSet.tail else c.workerSet
  { c with numColdStart := c.numColdStart + 1, workerSet := workerSet ++ [w] }

/-- The `get` of `LRUCache` and of `FIFOCache`, up to what a hit does to the worker set. -/
def get (touch : List Worker → Worker → List Worker) (c : BaseCache) (w : Worker) :
    Bool × BaseCache :=
  if w ∈ c.workerSet then (true, { c with workerSet := touch c.workerSet w })
  else (false, c.coldStart w)

end BaseCache

structure LRUCache extends BaseCache

namespace LRUCache

def new (workerSetSize : ℕ) : LRUCache := ⟨.new workerSetSize⟩

/-- `remove(w)` and `append(w)` -/
def touch (workerSet : List Worker) (w : Worker) : List Worker := workerSet.erase w ++ [w]

def get (c : LRUCache) (component : Component) (version : Version) : Bool × LRUCache :=
  let (hit, t) := c.toBaseCache.get touch (component, version)
  (hit, ⟨t⟩)

end LRUCache

structure FIFOCache extends BaseCache

namespace FIFOCache

def new (workerSetSize : ℕ) : FIFOCache := ⟨.new workerSetSize⟩

/-- A hit leaves the worker set as it is. -/
def touch (workerSet : List Worker) (_ : Worker) : List Worker := workerSet

def get (c : FIFOCache) (component : Component) (version : Version) : Bool × FIFOCache :=
  let (hit, t) := c.toBaseCache.get touch (component, version)
  (hit, ⟨t⟩)

end FIFOCache

/-- `pop(i)` of a list. -/
def pop {α : Type*} (l : List α) (i : ℤ) : Except ArrayError (List α) :=
  match axisIndex l.length i with
  | some j => .ok (l.eraseIdx j)
  | none => .error .indexError

/-- The two tables run along with the worker set. -/
structure LFUCache extends BaseCache where
  frequencyTable : List ℕ
  time : List ℕ

namespace LFUCache

def new (workerSetSize : ℕ) : LFUCache where
  toBaseCache := .new workerSetSize
  frequencyTable := []
  time := []

/-- A round of the search for the least frequency, with `i_min` and `freq_min`. -/
def leastFrequentRound (time : List ℕ) (acc : ℤ × ℚ) (entry : ℕ × ℕ) :
    Except ArrayError (ℤ × ℚ) :=
  match time[entry.2]? with
  | none => .error .indexError
  | some 0 => .error .zeroDivisionError
  | some (t + 1) =>
      if (entry.1 : ℚ) / (t + 1 : ℕ) ≤ acc.2 then .ok (entry.2, entry.1 / (t + 1 : ℕ))
      else .ok acc

/-- `i_min` after all rounds. -/
def leastFrequent (frequencyTable time : List ℕ) : Except ArrayError ℤ := do
  let (iMin, _) ← frequencyTable.zipIdx.foldlM (leastFrequentRound time) (-1, 9999)
  return iMin

def evict (c : LFUCache) : Except ArrayError LFUCache := do
  let iMin ← leastFrequent c.frequencyTable c.time
  let workerSet ← pop c.workerSet iMin
  let frequencyTable ← pop c.frequencyTable iMin
  let time ← pop c.time iMin
  return { c with workerSet := workerSet, frequencyTable := frequencyTable, time := time }

/-- The time of every resident goes on. -/
def tick (c : LFUCache) : LFUCache := { c with time := c.time.map (· + 1) }

/-- The new pair comes last in the worker set and in both tables. -/
def append (c : LFUCache) (w : Worker) : LFUCache :=
  { c with
    workerSet := c.workerSet ++ [w]
    frequencyTable := c.frequencyTable ++ [1]
    time := c.time ++ [1] }

/-- `num_cold_start += 1` -/
def countColdStart (c : LFUCache) : LFUCache := { c with numColdStart := c.numColdStart + 1 }

/-- The end of `get`. -/
def coldStart (c : LFUCache) (w : Worker) : Except ArrayError LFUCache :=
  let c := c.countColdStart
  if c.workerSet.length > c.workerSetSize then c.evict.map (·.append w) else .ok (c.append w)

def get (c : LFUCache) (component : Component) (version : Version) :
    Except ArrayError (Bool × LFUCache) :=
  let w := (component, version)
  let c := c.tick
  match c.workerSet.findIdx? (· = w) with
  | some i =>
      if i < c.frequencyTable.length then
        .ok (true, { c with frequencyTable := c.frequencyTable.modify i (· + 1) })
      else .error .indexError
  | none => (c.coldStart w).map fun c => (false, c)

end LFUCache

/-! ### The pipeline-aware cache -/

/-- `argsort`: the positions of an array in an order in which its values do not decrease. The
order of equal values is not determined. -/
structure Argsort where
  order : {n : ℕ} → (Fin n → ℚ) → List (Fin n)
  perm : ∀ {n : ℕ} (xs : Fin n → ℚ), (order xs).Perm (List.finRange n)
  sorted : ∀ {n : ℕ} (xs : Fin n → ℚ), ((order xs).map xs).Pairwise (· ≤ ·)

/-- The stable one. -/
def Argsort.stable : Argsort where
  order xs := (List.finRange _).insertionSort fun i j => xs i ≤ xs j
  perm xs := List.perm_insertionSort _ _
  sorted xs := by
    rw [List.map_insertionSort _ (· ≤ ·) xs _ fun _ _ _ _ => Iff.rfl]
    exact List.pairwise_insertionSort _ _

/-- The cells of the matrix in the order of their scores: `argsort` of the entries in row-major
order, and `unravel_index`. -/
def VSM.sortedCells {majorSize minorSize : ℕ} (argsort : Argsort)
    (s : VSM majorSize minorSize) : List (Fin majorSize × Fin minorSize) :=
  (argsort.order fun i : Fin (majorSize * minorSize) => s.data (i.divNat, i.modNat)).map
    fun i => (i.divNat, i.modNat)

/-- A cell of a matrix of the default sizes. -/
abbrev Cell := Fin (maxMajorVersion + 1) × Fin (maxMinorVersion + 1)

/-- The entry of the worker set for a component and a cell of its matrix. -/
def worker (f : Fin numPipelineLength) (c : Cell) : Worker := (f.val, VSM.version c)

structure PACache extends BaseCache where
  history : History
  alpha : ℚ
  vsms : ScoreMatrices

namespace PACache

def new (workerSetSize historyCapacity : ℕ) (alpha : ℚ) : PACache where
  toBaseCache := .new workerSetSize
  history := .new historyCapacity
  alpha := alpha
  vsms := generateScoreMatrices alpha

/-- `num_workers`, counted by component. -/
def numWorkers (workerSet : List Worker) : Except ArrayError (Fin numPipelineLength → ℕ) :=
  if ∀ w ∈ workerSet, w.1 < numPipelineLength then
    .ok fun f => workerSet.countP fun w => w.1 = f.val
  else .error .indexError

/-- `values`: the scores at the pointers. A component without workers is left out of the
comparison. -/
def values (vsms : ScoreMatrices) (ids : Fin numPipelineLength → List Cell)
    (numWorkers pointers : Fin numPipelineLength → ℕ)
    (h : ∀ f, pointers f < (ids f).length) :
    Except ArrayError (Vector ℚ numPipelineLength) :=
  Vector.ofFnM fun f => do
    let score ← (vsms f).getItem (VSM.version ((ids f).get ⟨pointers f, h f⟩))
    return if numWorkers f = 0 then 9999 else score

/-- The loop of `_least_possible_worker`. It ends, as each round moves a pointer on and a
pointer past the end of its list is an `IndexError`. -/
def leastPossibleFrom (vsms : ScoreMatrices)
    (ids : Fin numPipelineLength → List Cell) (workerSet : List Worker)
    (numWorkers pointers : Fin numPipelineLength → ℕ) : Except ArrayError Worker :=
  if h : ∀ f, pointers f < (ids f).length then
    match values vsms ids numWorkers pointers h with
    | .error e => .error e
    | .ok values =>
        match (List.finRange numPipelineLength).argmin values.get with
        | none => .error .valueError
        | some fMin =>
            let w := worker fMin ((ids fMin).get ⟨pointers fMin, h fMin⟩)
            if w ∈ workerSet then .ok w
            else leastPossibleFrom vsms ids workerSet numWorkers
              (Function.update pointers fMin (pointers fMin + 1))
  else .error .indexError
termination_by ∑ f, ((ids f).length - pointers f)
decreasing_by
  refine Finset.sum_lt_sum (fun f _ => ?_) ⟨fMin, Finset.mem_univ _, ?_⟩
  · by_cases hf : f = fMin
    · rw [hf, Function.update_self]
      omega
    · rw [Function.update_of_ne hf]
  · have hlt := h fMin
    rw [Function.update_self]
    omega

/-- `_least_possible_worker` -/
def leastPossibleWorker (argsort : Argsort) (vsms : ScoreMatrices) (workerSet : List Worker) :
    Except ArrayError Worker := do
  let counts ← numWorkers workerSet
  leastPossibleFrom vsms (fun f => (vsms f).sortedCells argsort) workerSet counts fun _ => 0

/-- The end of `get`. -/
def coldStart (argsort : Argsort) (c : PACache) (w : Worker) : Except ArrayError PACache :=
  let c := { c with numColdStart := c.numColdStart + 1 }
  if c.workerSet.length > c.workerSetSize then
    (leastPossibleWorker argsort c.vsms c.workerSet).map fun victim =>
      { c with workerSet := c.workerSet.erase victim ++ [w] }
  else .ok { c with workerSet := c.workerSet ++ [w] }

def get (argsort : Argsort) (c : PACache) (component : Component) (version : Version) :
    Except ArrayError (Bool × PACache) :=
  let w := (component, version)
  if w ∈ c.workerSet then .ok (true, c) else (c.coldStart argsort w).map fun c => (false, c)

def update (c : PACache)
    (transformer : ScoreMatrices → History → Except ArrayError ScoreMatrices) :
    Except ArrayError PACache :=
  (transformer c.vsms c.history).map fun vsms => { c with vsms := vsms }

end PACache

end SecCask.Pac
