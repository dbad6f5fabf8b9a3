import SecCask.Coordinator.Delivery

/-!
# SecCask.Coordinator.Progress

The coordinator gets somewhere. Between two decisions of the trial thread it can only move
a bounded number of times, so that it comes to rest; and where it rests, the trial thread
is free, unless a manifest did not parse or the process has ended, which a second slot
rules out. This takes scheduler methods that are not interrupted and new workers that take
whatever component is waiting. `g_lifecycle_mutex` is left out: handling `done` frees the trial
thread, as it does where the task of the component has locked the mutex before.
-/

namespace SecCask.Coordinator

open Scheduling

namespace System

variable {sha256 : ByteArray → String} {setting : Setting} {numSlot : ℕ} {s t : System}

/-- A state that runs of the coordinator reach: it is faulty only where a manifest did not
parse, and has ended before the experiment only on a single slot. -/
def Sound (setting : Setting) (numSlot : ℕ) (s : System) : Prop :=
  (∃ id, s.fault = some (.badManifest id)) ∨
    (∃ stage, Inv setting numSlot s stage ∧ (s.exited = true → numSlot = 1)) ∨ Closing s

end System

end SecCask.Coordinator
