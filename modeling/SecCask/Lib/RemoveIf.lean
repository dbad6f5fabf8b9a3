import Mathlib.Data.List.Basic

/-!
# SecCask.Lib.RemoveIf

`std::remove_if` on a vector of movable elements. The algorithm finds the first
match and then move-assigns every later non-match forward; a moved-from element
keeps its place with the value `moved` (for a smart pointer: null). What it returns
is the new logical end of the vector, *not* the position of a match.
-/

namespace SecCask

variable {α : Type*} (moved : α) (p : α → Bool)

/-- `v[dst] = std::move(v[src])`. -/
def moveAssign (v : List α) (dst src : ℕ) : List α :=
  match v[src]? with
  | some a => (v.set dst a).set src moved
  | none => v

/-- The loop of `std::remove_if`: `is` are the positions still to visit, `first` the
end of the part kept so far. -/
def removeIfLoop (v : List α) (first : ℕ) : List ℕ → List α × ℕ
  | [] => (v, first)
  | i :: is =>
      if (v[i]?).any p then removeIfLoop v first is
      else removeIfLoop (moveAssign moved v first i) (first + 1) is

/-- `std::remove_if`: the vector afterwards and the returned position. -/
def removeIf (v : List α) : List α × ℕ :=
  let first := v.findIdx p
  removeIfLoop moved p v first (List.range' (first + 1) (v.length - (first + 1)))

theorem moveAssign_adjacent (done rest : List α) (y z : α) :
    moveAssign moved (done ++ y :: z :: rest) done.length (done.length + 1) =
      done ++ [z] ++ moved :: rest := by
  simp [moveAssign]

/-- Behind the only match, every element moves one place forward. -/
theorem removeIfLoop_of_none_match (rest : List α) (hrest : ∀ a ∈ rest, p a = false)
    (done : List α) (y : α) :
    removeIfLoop moved p (done ++ y :: rest) done.length
        (List.range' (done.length + 1) rest.length) =
      (done ++ rest ++ [if rest.isEmpty then y else moved], done.length + rest.length) := by
  induction rest generalizing done y with
  | nil => simp [removeIfLoop]
  | cons z rest ih =>
      have hz : p z = false := hrest z (by simp)
      have hvisit : (done ++ y :: z :: rest)[done.length + 1]? = some z := by simp
      have hrec := ih (fun a ha => hrest a (by simp [ha])) (done ++ [z]) moved
      simp only [List.length_append, List.length_singleton] at hrec
      simp only [List.length_cons, List.range'_succ, removeIfLoop, hvisit, Option.any_some, hz,
        Bool.false_eq_true, if_false, moveAssign_adjacent, hrec]
      simp
      omega

/-- **One match.** The others close the gap in their order, the returned position is
the last one of the vector, and what stands there is the match itself only if nothing
stood behind it: otherwise it is what the last move left. -/
theorem removeIf_of_unique {before after : List α} {x : α}
    (hbefore : ∀ a ∈ before, p a = false) (hx : p x = true)
    (hafter : ∀ a ∈ after, p a = false) :
    removeIf moved p (before ++ x :: after) =
      (before ++ after ++ [if after.isEmpty then x else moved],
        before.length + after.length) := by
  have hfirst : (before ++ x :: after).findIdx p = before.length := by
    rw [List.findIdx_append]
    have hnone : before.findIdx p = before.length := by
      rw [List.findIdx_eq_length]
      exact hbefore
    simp [hnone, List.findIdx_cons, hx]
  have hlen : (before ++ x :: after).length - (before.length + 1) = after.length := by
    simp
    omega
  simp only [removeIf, hfirst, hlen]
  exact removeIfLoop_of_none_match moved p after hafter before x

end SecCask
