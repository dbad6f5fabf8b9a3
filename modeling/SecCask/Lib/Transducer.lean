import Mathlib.Data.List.Infix

/-!
# SecCask.Lib.Transducer

Machines that take their input one element at a time and put out something at some of the
elements. What has come out is never taken back, and it does not matter where the input was
cut.
-/

namespace SecCask.Transducer

variable {σ α β : Type} {next : σ → α → σ × List β}

/-- One more input: the new state, and what has come out so far. -/
def push (next : σ → α → σ × List β) (s : σ × List β) (a : α) : σ × List β :=
  ((next s.1 a).1, s.2 ++ (next s.1 a).2)

def run (next : σ → α → σ × List β) (s : σ × List β) (input : List α) : σ × List β :=
  input.foldl (push next) s

@[simp] theorem run_nil (s : σ × List β) : run next s [] = s := rfl

@[simp] theorem run_cons (s : σ × List β) (a : α) (input : List α) :
    run next s (a :: input) = run next (push next s a) input := rfl

theorem run_append (s : σ × List β) (input input' : List α) :
    run next s (input ++ input') = run next (run next s input) input' :=
  List.foldl_append

/-- What has come out before stays in front of what comes out later. -/
theorem run_eq (s : σ) (out : List β) (input : List α) :
    run next (s, out) input =
      ((run next (s, []) input).1, out ++ (run next (s, []) input).2) := by
  induction input generalizing s out with
  | nil => simp
  | cons a input ih =>
      rw [run_cons, run_cons, push, push, ih, ih (next s a).1 ([] ++ (next s a).2)]
      simp

/-- The output for a part of the input is a part of the output. -/
theorem run_prefix {s : σ × List β} {input input' : List α} (h : input <+: input') :
    (run next s input).2 <+: (run next s input').2 := by
  obtain ⟨rest, rfl⟩ := h
  rw [run_append]
  generalize run next s input = t
  obtain ⟨state, out⟩ := t
  rw [run_eq]
  exact List.prefix_append _ _

end SecCask.Transducer
