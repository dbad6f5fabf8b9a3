import SecCask.Pac.Vsm

/-!
# SecCask.Pac.History

The pipelines that have been submitted (`pac/history.py`).
-/

namespace SecCask.Pac

/-- A `(2, NUM_PIPELINE_LENGTH)` array: the version of each component. -/
abbrev Pipeline := Fin numPipelineLength → Version

/-- Every version of the pipeline lies inside the matrices. -/
def Pipeline.InRange (p : Pipeline) : Prop :=
  ∀ k, VSM.InMatrix (maxMajorVersion + 1) (maxMinorVersion + 1) (p k)

instance (p : Pipeline) : Decidable p.InRange :=
  inferInstanceAs (Decidable (∀ k, VSM.InMatrix _ _ (p k)))

/-- `_data` holds one column for each pipeline of `value`, after a first column of -1. -/
structure History where
  value : List Pipeline
  capacity : ℕ

namespace History

def new (capacity : ℕ) : History where
  value := []
  capacity := capacity

def data (history : History) : List Pipeline := (fun _ => (-1, -1)) :: history.value

def size (history : History) : ℕ := history.data.length - 1

theorem succ_lt_of_lt_size {history : History} {key : ℕ} (h : key < history.size) :
    key + 1 < history.data.length := by
  unfold size at h
  omega

/-- The column of the array that `__getitem__` reads. No index is refused, and one below zero
counts from the end of the array. -/
def column (history : History) (key : ℤ) : Option (Fin history.data.length) :=
  axisIndex history.data.length (key + 1)

/-- `__getitem__` -/
def getItem (history : History) (key : ℤ) : Except ArrayError Pipeline :=
  match history.column key with
  | some c => .ok (history.data.get c)
  | none => .error .indexError

/-- `__getitem__` at an index below the size. -/
def pipelineAt (history : History) (key : Fin history.size) : Pipeline :=
  history.data.get ⟨key + 1, succ_lt_of_lt_size key.isLt⟩

theorem getItem_natCast {history : History} (key : Fin history.size) :
    history.getItem key.val = .ok (history.pipelineAt key) := by
  have hcolumn : history.column key.val = some ⟨key + 1, succ_lt_of_lt_size key.isLt⟩ :=
    axisIndex_natCast (⟨key + 1, succ_lt_of_lt_size key.isLt⟩ : Fin history.data.length)
  rw [getItem, hcolumn]
  rfl

/-- `append`: an array over its capacity loses its column 1, the oldest pipeline. The first
column stays. -/
def append (history : History) (pipeline : Pipeline) : History :=
  let data := history.data ++ [pipeline]
  let data := if data.length > history.capacity then data.eraseIdx 1 else data
  { history with value := data.tail }

theorem append_value (history : History) (pipeline : Pipeline) :
    (history.append pipeline).value =
      if history.value.length + 2 > history.capacity then (history.value ++ [pipeline]).tail
      else history.value ++ [pipeline] := by
  simp only [append, data, List.cons_append, List.length_cons, List.length_append,
    List.length_nil, Nat.zero_add, Nat.add_assoc]
  split
  · cases history.value <;> rfl
  · rfl

/-- Every pipeline of the history has its versions inside the matrices. -/
def InRange (history : History) : Prop := ∀ p ∈ history.value, p.InRange

instance (history : History) : Decidable history.InRange :=
  inferInstanceAs (Decidable (∀ p ∈ history.value, p.InRange))

theorem pipelineAt_mem (history : History) (key : Fin history.size) :
    history.pipelineAt key ∈ history.value := by
  have hkey : key.val < history.value.length := key.isLt
  exact List.getElem_mem hkey

theorem inRange_new (capacity : ℕ) : (new capacity).InRange := by
  intro p hp
  cases hp

theorem InRange.append {history : History} (h : history.InRange) {pipeline : Pipeline}
    (hp : pipeline.InRange) : (history.append pipeline).InRange := by
  intro q hq
  have hmem : q ∈ history.value ++ [pipeline] := by
    rw [append_value] at hq
    split at hq
    · exact List.mem_of_mem_tail hq
    · exact hq
  rcases List.mem_append.mp hmem with hold | hnew
  · exact h q hold
  · rwa [List.mem_singleton.mp hnew]

end History

end SecCask.Pac
