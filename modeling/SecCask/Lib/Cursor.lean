import Mathlib.Data.Nat.Notation

/-!
# SecCask.Lib.Cursor

A position in data that comes in chunks: the current chunk, how much of it has been used, and
the chunks still to come. What is left to read does not depend on how the data is cut.
-/

namespace SecCask

structure Cursor (α : Type) where
  chunk : List α
  offset : ℕ
  rest : List (List α)
  offset_le : offset ≤ chunk.length

namespace Cursor

variable {α : Type}

/-- Before the first chunk. -/
def start (chunks : List (List α)) : Cursor α := ⟨[], 0, chunks, Nat.le_refl _⟩

/-- What is left to read. -/
def remaining (c : Cursor α) : List α := c.chunk.drop c.offset ++ c.rest.flatten

/-- How much of the current chunk is left. -/
def inChunk (c : Cursor α) : ℕ := c.chunk.length - c.offset

/-- Fetches the next chunk when the current one has been used up. -/
def refill (c : Cursor α) : Option (Cursor α) :=
  if c.offset = c.chunk.length then
    match c.rest with
    | [] => none
    | chunk :: rest => some ⟨chunk, 0, rest, Nat.zero_le _⟩
  else some c

/-- The next `n` elements of the current chunk, or what it has left. -/
def piece (n : ℕ) (c : Cursor α) : List α := (c.chunk.drop c.offset).take n

/-- The position behind them. -/
def advance (n : ℕ) (c : Cursor α) : Cursor α :=
  ⟨c.chunk, c.offset + min n c.inChunk, c.rest, by
    have hle := c.offset_le
    unfold inChunk
    omega⟩

/-- The position `n` elements back in the current chunk. -/
def unread (n : ℕ) (c : Cursor α) : Cursor α :=
  ⟨c.chunk, c.offset - n, c.rest, Nat.le_trans (Nat.sub_le _ _) c.offset_le⟩

@[simp] theorem remaining_start (chunks : List (List α)) :
    (start chunks).remaining = chunks.flatten := by
  simp [start, remaining]

theorem refill_eq_none_iff {c : Cursor α} :
    c.refill = none ↔ c.offset = c.chunk.length ∧ c.rest = [] := by
  unfold refill
  split
  · rename_i hend
    cases hrest : c.rest <;> simp [hend]
  · rename_i hend
    simp [hend]

theorem remaining_of_refill_none {c : Cursor α} (h : c.refill = none) : c.remaining = [] := by
  obtain ⟨hend, hrest⟩ := refill_eq_none_iff.mp h
  simp [remaining, hend, hrest]

/-- Fetching a chunk reads nothing, and there is something to read or one chunk fewer. -/
theorem refill_spec {c d : Cursor α} (h : c.refill = some d) :
    d.remaining = c.remaining ∧
      (d = c ∧ 0 < d.inChunk ∨ d.rest.length < c.rest.length ∧ d.offset = 0) := by
  unfold refill at h
  split at h
  · rename_i hend
    cases hrest : c.rest with
    | nil => simp [hrest] at h
    | cons chunk rest =>
        simp only [hrest, Option.some.injEq] at h
        subst h
        simp [remaining, hend, hrest]
  · rename_i hend
    obtain rfl := Option.some.inj h
    have hle := c.offset_le
    exact ⟨rfl, Or.inl ⟨rfl, by unfold inChunk; omega⟩⟩

theorem length_piece (n : ℕ) (c : Cursor α) : (c.piece n).length = min n c.inChunk := by
  simp [piece, inChunk]

theorem inChunk_le_remaining (c : Cursor α) : c.inChunk ≤ c.remaining.length := by
  simp [remaining, inChunk]

/-- Within the chunk, a position further on leaves the rest to read. -/
theorem remaining_of_offset {c d : Cursor α} {k : ℕ} (hchunk : d.chunk = c.chunk)
    (hoffset : d.offset = c.offset + k) (hrest : d.rest = c.rest) (hk : k ≤ c.inChunk) :
    d.remaining = c.remaining.drop k := by
  have hlength : k ≤ (c.chunk.drop c.offset).length := by simpa [inChunk] using hk
  simp only [remaining, hchunk, hoffset, hrest]
  rw [List.drop_append_of_le_length hlength, List.drop_drop]

theorem remaining_advance (n : ℕ) (c : Cursor α) :
    (c.advance n).remaining = c.remaining.drop (c.piece n).length :=
  remaining_of_offset rfl (by rw [length_piece]; rfl) rfl (by
    rw [length_piece]
    exact Nat.min_le_right _ _)

/-- Taking back the last `m` elements of a piece. -/
theorem remaining_unread {n m : ℕ} {c : Cursor α} (hm : m ≤ (c.piece n).length) :
    ((c.advance n).unread m).remaining = c.remaining.drop ((c.piece n).length - m) := by
  rw [length_piece] at hm ⊢
  refine remaining_of_offset rfl ?_ rfl (by omega)
  simp only [unread, advance]
  omega

/-- A piece is what is read next. -/
theorem piece_eq (n : ℕ) (c : Cursor α) :
    c.piece n = c.remaining.take (c.piece n).length := by
  have hle : (c.piece n).length ≤ (c.chunk.drop c.offset).length := by
    rw [length_piece, List.length_drop]
    exact Nat.min_le_right _ _
  rw [remaining, List.take_append_of_le_length hle, length_piece, piece, inChunk,
    ← List.length_drop, List.take_eq_take_min]

end Cursor

end SecCask
