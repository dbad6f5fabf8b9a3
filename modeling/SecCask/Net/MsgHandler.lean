import SecCask.Lib.Run
import SecCask.Net.Message

/-!
# SecCask.Net.MsgHandler

The sending half of `MessageHandler` (`msg_handler.cc`). Each `Send` appends to
`write_msgs_` and starts a `DoWrite` coroutine on `network_strand_`; a coroutine
runs until an `async_write` suspends it and then lets any other one run. The
label of a step says which coroutine moves.

`write_len_` and the deque are members shared by all coroutines, while the text
of the message is a local of each. The buffer of the first `async_write` points
at `write_len_`, so its bytes are read when they go out, not when the write was
started. Both writes may be split: `transfer` moves one byte.
-/

namespace SecCask.Net

/-- Where a `DoWrite` coroutine is. The index counts the bytes that its pending
`async_write` has put on the socket. -/
inductive DoWrite
  /-- Posted on the strand, not yet running. -/
  | spawned
  /-- Suspended in the `async_write` of the four bytes of `write_len_`. -/
  | writingLen (msg : CxxString) (n : Nat)
  /-- Suspended in the `async_write` of the local `msg`. -/
  | writingBody (msg : CxxString) (n : Nat)
  deriving DecidableEq, Repr

/-- The members of `MessageHandler` that the sending side uses, its coroutines and
the socket. `sent` records the messages given to `Send`, in call order. -/
structure MessageHandler where
  writeMsgs : List Message := []
  writeLen : UInt32 := 0
  coroutines : List DoWrite := []
  socket : CxxString := []
  /-- `front` or `pop_front` was called on an empty deque. -/
  undefined : Bool := false
  /-- `_exit(0)` was called after a `bye`. -/
  exited : Bool := false
  sent : List Message := []
  deriving DecidableEq, Repr

namespace MessageHandler

/-- The handler as the constructor leaves it. -/
def init : MessageHandler := {}

/-- No write is under way. -/
def idle (h : MessageHandler) : Prop := h.coroutines = []

inductive Event
  /-- `Send(msg)`: append, and post a coroutine. -/
  | send (m : Message)
  /-- `Send(msg, yield)`: append, and run `DoWrite` in the calling coroutine. -/
  | sendYield (m : Message)
  /-- A posted coroutine runs up to its first suspension. -/
  | start (k : Nat)
  /-- The pending write of coroutine `k` moves one more byte. -/
  | transfer (k : Nat)
  /-- The pending write of coroutine `k` is complete: the coroutine runs on. -/
  | resume (k : Nat)
  deriving DecidableEq, Repr

/-- The message an event hands to `Send`. -/
def Event.message? : Event → Option Message
  | .send m | .sendYield m => some m
  | _ => none

/-- `write_msgs_.emplace_back`. -/
def enqueue (h : MessageHandler) (m : Message) : MessageHandler :=
  { h with writeMsgs := h.writeMsgs ++ [m], sent := h.sent ++ [m] }

/-- `DoWrite` from its first line to the first `async_write`: read the front and set
`write_len_`. The coroutine's next position goes where `place` puts it. -/
def beginWrite (h : MessageHandler) (place : DoWrite → List DoWrite) : MessageHandler :=
  match h.writeMsgs with
  | [] => { h with undefined := true }
  | m :: _ =>
      let msg := m.toString
      { h with
        writeLen := swapEndian (UInt32.ofNat msg.length)
        coroutines := place (.writingLen msg 0) }

/-- `DoWrite` after its second `async_write`: leave on a `bye`, else pop the front
and post another coroutine when the deque is not empty. -/
def finishWrite (h : MessageHandler) (k : Nat) : MessageHandler :=
  match h.writeMsgs with
  | [] => { h with undefined := true }
  | m :: rest =>
      if m.cmd = lit "bye" then { h with exited := true }
      else
        { h with
          writeMsgs := rest
          coroutines := h.coroutines.eraseIdx k ++ (if rest = [] then [] else [.spawned]) }

/-- One step. Nothing follows an undefined behaviour or an exit. -/
def step (h : MessageHandler) (e : Event) : Option MessageHandler :=
  if h.undefined || h.exited then none
  else
    match e with
    | .send m => some { h.enqueue m with coroutines := h.coroutines ++ [.spawned] }
    | .sendYield m => some ((h.enqueue m).beginWrite fun d => h.coroutines ++ [d])
    | .start k =>
        match h.coroutines[k]? with
        | some .spawned => some (h.beginWrite fun d => h.coroutines.set k d)
        | _ => none
    | .transfer k =>
        match h.coroutines[k]? with
        | some (.writingLen msg n) =>
            ((leBytes h.writeLen)[n]?).map fun b =>
              { h with
                socket := h.socket ++ [b]
                coroutines := h.coroutines.set k (.writingLen msg (n + 1)) }
        | some (.writingBody msg n) =>
            (msg[n]?).map fun b =>
              { h with
                socket := h.socket ++ [b]
                coroutines := h.coroutines.set k (.writingBody msg (n + 1)) }
        | _ => none
    | .resume k =>
        match h.coroutines[k]? with
        | some (.writingLen msg n) =>
            if n = 4 then some { h with coroutines := h.coroutines.set k (.writingBody msg 0) }
            else none
        | some (.writingBody msg n) =>
            if n = msg.length then some (h.finishWrite k) else none
        | _ => none

/-- What the socket should carry: no access to an empty deque, never anything but
the frames of the sent messages in order, and all of them once nothing is pending. -/
structure InOrder (h : MessageHandler) : Prop where
  defined : h.undefined = false
  framed : h.socket <+: frames h.sent
  complete : h.idle → h.socket = frames h.sent

/-- The caller hands over a message only when the previous one is off the deque. -/
def SendsWhenEmpty (h : MessageHandler) (e : Event) : Prop :=
  e.message? ≠ none → h.writeMsgs = []

instance (h : MessageHandler) (e : Event) : Decidable (SendsWhenEmpty h e) :=
  inferInstanceAs (Decidable (_ → _))

/-- No `bye` among the messages of a run. -/
def NoBye (es : List Event) : Prop :=
  ∀ e ∈ es, ∀ m ∈ e.message?, m.cmd ≠ lit "bye"

instance (es : List Event) : Decidable (NoBye es) :=
  inferInstanceAs (Decidable (∀ e ∈ es, ∀ m ∈ e.message?, _))

end MessageHandler

end SecCask.Net
