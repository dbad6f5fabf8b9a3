import SecCask.Lib.Transducer
import SecCask.Net.MessageParse
import SecCask.Net.WriteOrder

/-!
# SecCask.Net.Channel

A `MessageHandler` that sends and the one at the other end of the connection that receives.
The bytes that the `DoWrite` coroutines have put on the socket arrive one at a time, whenever
they do, and the `DoRead` coroutine resumes when the four bytes of a length or all bytes of a
text are there. `MessageParse` has the same loop over the whole stream.
-/

namespace SecCask.Net

/-- Where the `DoRead` coroutine is, with the bytes that its pending `async_read` has got. -/
inductive DoRead
  /-- Suspended in the `async_read` of the four bytes of `read_len_`. -/
  | readingLen (buf : CxxString)
  /-- Suspended in the `async_read` of a text of `read_len_` bytes. -/
  | readingBody (readLen : ℕ) (buf : CxxString)
  /-- Left, after a text that does not parse. -/
  | left
  deriving DecidableEq, Repr

namespace DoRead

/-- What a `DoRead` has cut out of the stream: the text of a frame, with the message that is
handed to the callback. -/
abbrev Cut := CxxString × Option Message

/-- From the `async_read` of the text on. It goes on at once if all of the text is there. -/
def readBody (readLen : ℕ) (buf : CxxString) : DoRead × List Cut :=
  if buf.length = readLen then
    match Message.makeFromString buf with
    | none => (.left, [(buf, none)])
    | some m => (.readingLen [], [(buf, some m)])
  else (.readingBody readLen buf, [])

/-- One more byte arrives. -/
def next : DoRead → UInt8 → DoRead × List Cut
  | .readingLen buf, b =>
      if buf.length + 1 = 4 then readBody (swapEndian (ofLeBytes (buf ++ [b]))).toNat []
      else (.readingLen (buf ++ [b]), [])
  | .readingBody readLen buf, b => readBody readLen (buf ++ [b])
  | .left, _ => (.left, [])

end DoRead

/-- Both ends of a connection. `arrived` counts the bytes that the receiver has read, and `cuts`
records what it has cut out of them. -/
structure Channel where
  sender : MessageHandler := MessageHandler.init
  arrived : ℕ := 0
  reader : DoRead := .readingLen []
  cuts : List DoRead.Cut := []
  deriving DecidableEq, Repr

namespace Channel

def init : Channel := {}

inductive Event
  /-- The sender moves. -/
  | write (e : MessageHandler.Event)
  /-- A byte arrives, and the receiver moves on as far as it can. -/
  | arrive
  deriving DecidableEq, Repr

def step (c : Channel) : Event → Option Channel
  | .write e => (c.sender.step e).map fun sender => { c with sender := sender }
  | .arrive =>
      if c.reader = .left then none
      else
        (c.sender.socket[c.arrived]?).map fun b =>
          { c with
            arrived := c.arrived + 1
            reader := (c.reader.next b).1
            cuts := c.cuts ++ (c.reader.next b).2 }

/-- The messages that the callback of the receiver has been called with. -/
def delivered (c : Channel) : List Message := c.cuts.filterMap Prod.snd

/-- The moves of the sender. -/
def writes (es : List Event) : List MessageHandler.Event :=
  es.filterMap fun
    | .write e => some e
    | .arrive => none

/-- The caller hands over a message only when the previous one is off the deque. -/
def SendsWhenEmpty (c : Channel) : Event → Prop
  | .write e => MessageHandler.SendsWhenEmpty c.sender e
  | .arrive => True

instance (c : Channel) : DecidablePred (SendsWhenEmpty c)
  | .write e => inferInstanceAs (Decidable (MessageHandler.SendsWhenEmpty c.sender e))
  | .arrive => isTrue trivial

end Channel

/-! ### The loop, one byte at a time -/

namespace DoRead

open Transducer

theorem run_readingLen_of_lt {buf stream : CxxString} {out : List Cut}
    (h : buf.length + stream.length < 4) :
    run next (.readingLen buf, out) stream = (.readingLen (buf ++ stream), out) := by
  induction stream generalizing buf with
  | nil => simp
  | cons b stream ih =>
      rw [List.length_cons] at h
      have hmore : (buf.length + 1 = 4) = False := by
        rw [eq_iff_iff, iff_false]
        omega
      have hpush : push next (.readingLen buf, out) b = (.readingLen (buf ++ [b]), out) := by
        simp [push, next, hmore]
      rw [run_cons, hpush, ih (by simp; omega), List.append_assoc, List.singleton_append]

/-- The four bytes of the length are there. -/
theorem run_readingLen {readLen : CxxString} {out : List Cut} (h : readLen.length = 4) :
    run next (.readingLen [], out) readLen =
      ((readBody (swapEndian (ofLeBytes readLen)).toNat []).1,
        out ++ (readBody (swapEndian (ofLeBytes readLen)).toNat []).2) := by
  have hne : readLen ≠ [] := by
    intro hnil
    rw [hnil] at h
    cases h
  have hsplit := List.dropLast_append_getLast hne
  have hfront : readLen.dropLast.length = 3 := by rw [List.length_dropLast, h]
  rw [← hsplit, run_append, run_readingLen_of_lt (by simp [h]), List.nil_append, run_cons,
    run_nil, push, next]
  simp only [hfront, if_true]

theorem readBody_of_ne {readLen : ℕ} {buf : CxxString} (h : buf.length ≠ readLen) :
    readBody readLen buf = (.readingBody readLen buf, []) := if_neg h

theorem run_readingBody_of_lt {readLen : ℕ} {buf stream : CxxString} {out : List Cut}
    (h : buf.length + stream.length < readLen) :
    run next (.readingBody readLen buf, out) stream =
      (.readingBody readLen (buf ++ stream), out) := by
  induction stream generalizing buf with
  | nil => simp
  | cons b stream ih =>
      rw [List.length_cons] at h
      have hpush : push next (.readingBody readLen buf, out) b =
          (.readingBody readLen (buf ++ [b]), out) := by
        simp only [push, next, readBody_of_ne (show (buf ++ [b]).length ≠ readLen by simp; omega),
          List.append_nil]
      rw [run_cons, hpush, ih (by simp; omega), List.append_assoc, List.singleton_append]

/-- All bytes of the text are there. -/
theorem run_readBody (msgStr : CxxString) (out : List Cut) :
    run next ((readBody msgStr.length []).1, out ++ (readBody msgStr.length []).2) msgStr =
      ((readBody msgStr.length msgStr).1, out ++ (readBody msgStr.length msgStr).2) := by
  rcases List.eq_nil_or_concat msgStr with rfl | ⟨front, b, rfl⟩
  · rfl
  · have hlength : (front.concat b).length = front.length + 1 := List.length_concat
    rw [readBody_of_ne (show ([] : CxxString).length ≠ (front.concat b).length by simp),
      List.append_nil]
    nth_rewrite 2 [List.concat_eq_append]
    rw [run_append, run_readingBody_of_lt (by simp), List.nil_append, run_cons, run_nil, push,
      next, List.concat_eq_append]

theorem run_left (out : List Cut) (stream : CxxString) :
    run next (.left, out) stream = (.left, out) := by
  induction stream generalizing out with
  | nil => rfl
  | cons b stream ih =>
      rw [run_cons, show push next (.left, out) b = (.left, out) by simp [push, next], ih]

theorem lt_of_readExactly_eq_none {n : ℕ} {stream : CxxString} (h : readExactly n stream = none) :
    stream.length < n := by
  by_contra hle
  rw [readExactly, if_pos (by omega)] at h
  cases h

/-- **Byte by byte.** What comes out of the loop does not depend on when the bytes arrive. -/
theorem run_eq_doRead (stream : CxxString) :
    (run next (.readingLen [], []) stream).2 = doRead stream := by
  fun_induction doRead stream with
  | case1 stream hlen =>
      rw [run_readingLen_of_lt (by simpa using lt_of_readExactly_eq_none hlen)]
  | case2 stream readLen rest hlen hmsg =>
      obtain ⟨hfour, rfl⟩ := readExactly_eq_some_iff.mp hlen
      have hshort := lt_of_readExactly_eq_none hmsg
      rw [run_append, run_readingLen hfour,
        readBody_of_ne (show ([] : CxxString).length ≠ _ by simp; omega),
        run_readingBody_of_lt (by simpa using hshort)]
      rfl
  | case3 stream readLen rest hlen msgStr rest' hmsg hparse =>
      obtain ⟨hfour, rfl⟩ := readExactly_eq_some_iff.mp hlen
      obtain ⟨hbody, rfl⟩ := readExactly_eq_some_iff.mp hmsg
      rw [run_append, run_readingLen hfour, run_append, ← hbody, run_readBody]
      simp only [readBody, if_true, hparse, List.nil_append]
      rw [run_left]
  | case4 stream readLen rest hlen msgStr rest' hmsg m hparse ih =>
      obtain ⟨hfour, rfl⟩ := readExactly_eq_some_iff.mp hlen
      obtain ⟨hbody, rfl⟩ := readExactly_eq_some_iff.mp hmsg
      rw [run_append, run_readingLen hfour, run_append, ← hbody, run_readBody]
      simp only [readBody, if_true, hparse, List.nil_append]
      rw [run_eq, ih]
      rfl

/-- Where the loop is after the frames of messages that parse. -/
theorem run_frames {ms : List Message} (hms : ∀ m ∈ ms, m.Framed) :
    (run next (.readingLen [], []) (frames ms)).1 = .readingLen [] := by
  induction ms using List.reverseRecOn with
  | nil => rfl
  | append_singleton ms m ih =>
      have hm : m.Framed := hms m (by simp)
      obtain ⟨m', hm'⟩ := Option.ne_none_iff_exists'.mp (Message.makeFromString_ne_none hm)
      have hfront := ih fun m hm => hms m (by simp [hm])
      rw [frames_append, run_append, frames_singleton, run_append]
      generalize run next (.readingLen [], []) (frames ms) = t at hfront
      obtain ⟨_, out⟩ := t
      obtain rfl := hfront
      rw [run_readingLen m.lengthBytes_length, Message.swapEndian_lengthBytes hm.short,
        run_readBody]
      simp [readBody, hm']

end DoRead

namespace Channel

/-- The receiver has read a first part of what the sender has written, and has cut out of it
what there was to cut. -/
structure Received (c : Channel) : Prop where
  arrived_le : c.arrived ≤ c.sender.socket.length
  read : (c.reader, c.cuts) =
    Transducer.run DoRead.next (.readingLen [], []) (c.sender.socket.take c.arrived)

theorem received_init : Received init := ⟨Nat.le_refl _, rfl⟩

/-- What is on the socket stays there. -/
theorem socket_prefix_of_step {h t : MessageHandler} {e : MessageHandler.Event}
    (hs : MessageHandler.step h e = some t) : h.socket <+: t.socket := by
  obtain ⟨-, hmoves⟩ := MessageHandler.moves_of_step hs
  cases hmoves with
  | send m => exact List.prefix_rfl
  | sendYield m =>
      rw [MessageHandler.beginWrite]
      split
      · exact List.prefix_rfl
      · exact List.prefix_rfl
  | start _ =>
      rw [MessageHandler.beginWrite]
      split
      · exact List.prefix_rfl
      · exact List.prefix_rfl
  | transferLen _ _ => exact List.prefix_append _ _
  | transferBody _ _ => exact List.prefix_append _ _
  | resumeLen _ => exact List.prefix_rfl
  | resumeBody _ =>
      rw [MessageHandler.finishWrite]
      split
      · exact List.prefix_rfl
      · split
        · exact List.prefix_rfl
        · exact List.prefix_rfl

theorem Received.step {c d : Channel} {e : Event} (hc : Received c) (hs : step c e = some d) :
    Received d := by
  cases e with
  | write e =>
      obtain ⟨sender, hsender, rfl⟩ := Option.map_eq_some_iff.mp hs
      obtain ⟨rest, hrest⟩ := socket_prefix_of_step hsender
      refine ⟨?_, ?_⟩
      · rw [← hrest, List.length_append]
        exact hc.arrived_le.trans (Nat.le_add_right _ _)
      · rw [← hrest, List.take_append_of_le_length hc.arrived_le]
        exact hc.read
  | arrive =>
      rw [Channel.step] at hs
      split at hs
      · cases hs
      · obtain ⟨b, hb, rfl⟩ := Option.map_eq_some_iff.mp hs
        refine ⟨(List.getElem?_eq_some_iff.mp hb).1, ?_⟩
        rw [List.take_add_one, hb, Option.toList_some, Transducer.run_append, ← hc.read]
        rfl

@[simp] theorem writes_append (es es' : List Event) :
    writes (es ++ es') = writes es ++ writes es' := List.filterMap_append

@[simp] theorem writes_map_write (es : List MessageHandler.Event) :
    writes (es.map .write) = es := by
  induction es with
  | nil => rfl
  | cons e es ih => exact congrArg (e :: ·) ih

@[simp] theorem writes_replicate_arrive (n : ℕ) : writes (List.replicate n .arrive) = [] := by
  induction n with
  | zero => rfl
  | succ n ih => exact ih

/-- The sender's part of a run. -/
theorem exec_sender {c d : Channel} {es : List Event} (hx : Exec step c es d) :
    Exec MessageHandler.step c.sender (writes es) d.sender := by
  induction hx with
  | nil => exact .nil
  | @cons c u d e es hs _ ih =>
      cases e with
      | write e =>
          obtain ⟨sender, hsender, rfl⟩ := Option.map_eq_some_iff.mp hs
          exact .cons hsender ih
      | arrive =>
          rw [step] at hs
          split at hs
          · cases hs
          · obtain ⟨b, -, rfl⟩ := Option.map_eq_some_iff.mp hs
            exact ih

theorem along_sender {c d : Channel} {es : List Event} (hx : Exec step c es d)
    (hsend : Along step SendsWhenEmpty c es) :
    Along MessageHandler.step MessageHandler.SendsWhenEmpty c.sender (writes es) := by
  induction hx with
  | nil => trivial
  | @cons c u d e es hs _ ih =>
      have hrest := ih (hsend.2 u hs)
      cases e with
      | write e =>
          obtain ⟨sender, hsender, rfl⟩ := Option.map_eq_some_iff.mp hs
          exact (along_cons_iff hsender).mpr ⟨hsend.1, hrest⟩
      | arrive =>
          rw [step] at hs
          split at hs
          · cases hs
          · obtain ⟨b, -, rfl⟩ := Option.map_eq_some_iff.mp hs
            exact hrest

/-- A run of the sender, as a run of both ends in which nothing arrives. -/
theorem exec_writes {c : Channel} {es : List MessageHandler.Event} {h : MessageHandler}
    (hx : Exec MessageHandler.step c.sender es h) :
    Exec step c (es.map .write) { c with sender := h } := by
  generalize hsender : c.sender = sender at hx
  induction hx generalizing c with
  | nil =>
      subst hsender
      exact .nil
  | @cons _ h' _ e _ hs _ ih =>
      subst hsender
      have hstep : step c (.write e) = some { c with sender := h' } := by
        rw [step, hs, Option.map_some]
      exact .cons hstep (ih rfl)

/-! ### What the receiver has got -/

variable {c : Channel}

/-- On a part of the frames of messages that parse, the loop does not leave. -/
theorem Received.reader_ne_left (hc : Received c)
    (hsocket : c.sender.socket <+: frames c.sender.sent)
    (hframed : ∀ m ∈ c.sender.sent, m.Framed) : c.reader ≠ .left := by
  intro hleft
  obtain ⟨rest, hrest⟩ := (List.take_prefix c.arrived c.sender.socket).trans hsocket
  have hrun := DoRead.run_frames hframed
  rw [← hrest, Transducer.run_append, ← hc.read, hleft, DoRead.run_left] at hrun
  cases hrun

theorem delivered_map_some (h : ∀ cut ∈ c.cuts, cut.2 ≠ none) :
    c.delivered.map some = c.cuts.map Prod.snd := by
  unfold delivered
  generalize c.cuts = cuts at h
  induction cuts with
  | nil => rfl
  | cons cut cuts ih =>
      obtain ⟨hcut, hcuts⟩ := List.forall_mem_cons.mp h
      obtain ⟨m, hm⟩ := Option.ne_none_iff_exists'.mp hcut
      rw [List.filterMap_cons_some hm, List.map_cons, List.map_cons, ih hcuts, hm]

/-- What the callback gets is a first part of what the messages sent parse to. -/
theorem Received.delivered_prefix (hc : Received c)
    (hsocket : c.sender.socket <+: frames c.sender.sent)
    (hframed : ∀ m ∈ c.sender.sent, m.Framed) :
    c.delivered.map some <+: c.sender.sent.map fun m => Message.makeFromString m.toString := by
  have hcuts : c.cuts <+:
      c.sender.sent.map fun m => (m.toString, Message.makeFromString m.toString) := by
    rw [← doRead_frames hframed, ← DoRead.run_eq_doRead,
      show c.cuts = _ from congrArg Prod.snd hc.read]
    exact Transducer.run_prefix ((List.take_prefix _ _).trans hsocket)
  have hparse : ∀ cut ∈ c.cuts, cut.2 ≠ none := by
    intro cut hcut
    obtain ⟨m, hm, rfl⟩ := List.mem_map.mp (hcuts.subset hcut)
    exact Message.makeFromString_ne_none (hframed m hm)
  rw [delivered_map_some hparse]
  have hsnd := hcuts.map Prod.snd
  rw [List.map_map] at hsnd
  exact hsnd

/-- Everything that is on the socket can arrive. -/
theorem Received.arrive_all (hc : Received c) (hsocket : c.sender.socket = frames c.sender.sent)
    (hframed : ∀ m ∈ c.sender.sent, m.Framed) :
    ∃ n d, Exec Channel.step c (List.replicate n .arrive) d ∧ d.sender = c.sender ∧
      Received d ∧ d.arrived = d.sender.socket.length := by
  induction hn : c.sender.socket.length - c.arrived generalizing c with
  | zero =>
      have hle := hc.arrived_le
      exact ⟨0, c, .nil, rfl, hc, by omega⟩
  | succ n ih =>
      have hlt : c.arrived < c.sender.socket.length := by omega
      have hstep := show Channel.step c .arrive = some _ by
        rw [Channel.step, if_neg (hc.reader_ne_left (hsocket ▸ List.prefix_rfl) hframed),
          List.getElem?_eq_getElem hlt, Option.map_some]
      obtain ⟨k, d, hexec, hsender, hreceived, harrived⟩ := ih (hc.step hstep) hsocket hframed
        (show c.sender.socket.length - (c.arrived + 1) = n by omega)
      exact ⟨k + 1, d, .cons hstep hexec, hsender, hreceived, harrived⟩

/-- When everything is on the socket and has arrived, each message has been handed over. -/
theorem Received.delivered_all (hc : Received c) (hsocket : c.sender.socket = frames c.sender.sent)
    (hframed : ∀ m ∈ c.sender.sent, m.Framed) (harrived : c.arrived = c.sender.socket.length) :
    c.delivered.map some = c.sender.sent.map fun m => Message.makeFromString m.toString := by
  have hprefix := hc.delivered_prefix (hsocket ▸ List.prefix_rfl) hframed
  have hcuts : c.cuts =
      c.sender.sent.map fun m => (m.toString, Message.makeFromString m.toString) := by
    rw [← doRead_frames hframed, ← DoRead.run_eq_doRead, ← hsocket,
      show c.cuts = _ from congrArg Prod.snd hc.read, harrived, List.take_length]
  refine hprefix.eq_of_length ?_
  rw [delivered_map_some ?_]
  · rw [hcuts, List.length_map, List.length_map, List.length_map]
  · intro cut hcut
    rw [hcuts] at hcut
    obtain ⟨m, hm, rfl⟩ := List.mem_map.mp hcut
    exact Message.makeFromString_ne_none (hframed m hm)

/-- The messages that were sent, as the receiver reads them. -/
def expected (c : Channel) : List (Option Message) :=
  c.sender.sent.map fun m => Message.makeFromString m.toString

theorem expected_eq (hframed : ∀ m ∈ c.sender.sent, m.Framed)
    (hsafe : ∀ m ∈ c.sender.sent, m.Safe) : c.expected = c.sender.sent.map some :=
  List.map_congr_left fun m hm =>
    (Message.makeFromString_toString_iff (hframed m hm)).mpr (hsafe m hm)

/-- **Both ends.** The sender puts its bytes on the socket in any pieces, and they arrive in any
pieces. As long as every `Send` finds the deque empty, the receiver's callback is called in the
order of the calls of `Send`, once for each and never for anything else, with what the text of
the message parses to, which is the message where its arguments are safe. Nothing holds the
remaining messages up. -/
theorem delivers_in_order {es : List Event} (hx : Exec step init es c)
    (hbye : MessageHandler.NoBye (writes es)) (hsend : Along step SendsWhenEmpty init es)
    (hframed : ∀ m ∈ c.sender.sent, m.Framed) :
    c.reader ≠ .left ∧ c.delivered.map some <+: c.expected ∧
      ((∀ m ∈ c.sender.sent, m.Safe) → c.delivered <+: c.sender.sent) ∧
      ∃ es' d, (∀ e ∈ writes es', e.message? = none) ∧ Exec step c es' d ∧
        d.sender.sent = c.sender.sent ∧ d.delivered.map some = c.expected := by
  have hreceived : Received c := hx.invariant (fun _ _ _ h hs => h.step hs) received_init
  have horderly : MessageHandler.Orderly c.sender :=
    MessageHandler.orderly_init.exec (exec_sender hx) hbye (along_sender hx hsend)
  have hsocket : c.sender.socket <+: frames c.sender.sent := horderly.inOrder.framed
  have hprefix : c.delivered.map some <+: c.expected :=
    hreceived.delivered_prefix hsocket hframed
  refine ⟨hreceived.reader_ne_left hsocket hframed, hprefix, fun hsafe => ?_, ?_⟩
  · rw [expected_eq hframed hsafe] at hprefix
    simpa using hprefix.filterMap id
  · -- First everything that was sent is written, and then all of it arrives.
    obtain ⟨ws, h, hquiet, hws, hidle, hsent, horderly'⟩ := horderly.finish
    have hwritten := exec_writes hws
    have hreceived' : Received { c with sender := h } :=
      hwritten.invariant (fun _ _ _ h hs => h.step hs) hreceived
    have hall : h.socket = frames h.sent := horderly'.inOrder.complete hidle
    obtain ⟨n, d, harrive, hsender, hd, harrived⟩ :=
      hreceived'.arrive_all hall (by simpa [hsent] using hframed)
    refine ⟨_, d, ?_, hwritten.append harrive, by rw [hsender]; exact hsent, ?_⟩
    · rw [writes_append, writes_map_write, writes_replicate_arrive, List.append_nil]
      exact hquiet
    · rw [hd.delivered_all (by rw [hsender]; exact hall) ?_ harrived, hsender, expected, hsent]
      rw [hsender]
      simpa [hsent] using hframed

open MessageHandler (manifestReply doneReply writeOut) in
/-- The two replies of a worker. Each byte of the first arrives as it is written; the second is
on the socket, except for its last byte, when three of its bytes have arrived. -/
def repliesUnderWay : List Event :=
  (.sendYield manifestReply :: writeOut manifestReply).flatMap (fun
    | .transfer k => [.write (.transfer k), .arrive]
    | e => [.write e]) ++
  (.sendYield doneReply :: writeOut doneReply).dropLast.dropLast.map .write ++
  [.arrive, .arrive, .arrive]

theorem repliesUnderWay_delivered :
    ∃ c es' d, Exec step init repliesUnderWay c ∧
      c.delivered = [MessageHandler.manifestReply] ∧ Exec step c es' d ∧
      d.delivered.map some =
        [MessageHandler.manifestReply, MessageHandler.doneReply].map fun m =>
          Message.makeFromString m.toString := by
  obtain ⟨c, hc⟩ := Option.isSome_iff_exists.mp (by decide +kernel :
    ((exec step init repliesUnderWay).filter fun c =>
      c.sender.sent = [MessageHandler.manifestReply, MessageHandler.doneReply] ∧
        c.delivered = [MessageHandler.manifestReply]).isSome = true)
  obtain ⟨hrun, hstate⟩ := Option.filter_eq_some_iff.mp hc
  obtain ⟨hsent, hdelivered⟩ := of_decide_eq_true hstate
  have hx := exec_eq_some_iff.mp hrun
  have hframed : ∀ m ∈ c.sender.sent, m.Framed := by
    intro m hm
    rw [hsent] at hm
    rcases List.mem_pair.mp hm with rfl | rfl
    · exact ⟨by decide, by decide, by decide, by decide⟩
    · exact ⟨by decide, by decide, by decide, by decide⟩
  obtain ⟨-, -, -, es', d, -, hexec, -, hall⟩ :=
    delivers_in_order hx (by decide) (by decide +kernel) hframed
  rw [expected, hsent] at hall
  exact ⟨c, es', d, hx, hdelivered, hexec, hall⟩

end Channel

end SecCask.Net
