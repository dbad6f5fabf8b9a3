import SecCask.Net.MsgHandler

/-!
# SecCask.Net.WriteOrder

**When a `MessageHandler` delivers its messages in order.** A `DoWrite` coroutine
pops the message it wrote only after two suspended writes, so a second `Send` in
between starts a coroutine that reads the *same* front again. Two facts settle
what the socket carries:

* as long as every `Send` finds `write_msgs_` empty there is at most one coroutine,
  and the socket holds the frames of the popped messages followed by a prefix of
  the current one (`Orderly`, kept by every such step);
* one `Send` that finds it non-empty leaves more coroutines to finish than messages
  to pop (`Overfull`, kept by every step), so the handler can never come to rest
  without reading the front of an empty deque.
-/

namespace SecCask.Net.MessageHandler

/-- The steps as a relation, one constructor for each branch of `step`. -/
inductive Moves (h : MessageHandler) : Event → MessageHandler → Prop
  | send (m : Message) :
      Moves h (.send m) { h.enqueue m with coroutines := h.coroutines ++ [.spawned] }
  | sendYield (m : Message) :
      Moves h (.sendYield m) ((h.enqueue m).beginWrite fun d => h.coroutines ++ [d])
  | start {k : Nat} : h.coroutines[k]? = some .spawned →
      Moves h (.start k) (h.beginWrite fun d => h.coroutines.set k d)
  | transferLen {k n : Nat} {msg : CxxString} {b : UInt8} :
      h.coroutines[k]? = some (.writingLen msg n) → (leBytes h.writeLen)[n]? = some b →
      Moves h (.transfer k) { h with
        socket := h.socket ++ [b], coroutines := h.coroutines.set k (.writingLen msg (n + 1)) }
  | transferBody {k n : Nat} {msg : CxxString} {b : UInt8} :
      h.coroutines[k]? = some (.writingBody msg n) → msg[n]? = some b →
      Moves h (.transfer k) { h with
        socket := h.socket ++ [b], coroutines := h.coroutines.set k (.writingBody msg (n + 1)) }
  | resumeLen {k : Nat} {msg : CxxString} :
      h.coroutines[k]? = some (.writingLen msg 4) →
      Moves h (.resume k) { h with coroutines := h.coroutines.set k (.writingBody msg 0) }
  | resumeBody {k : Nat} {msg : CxxString} :
      h.coroutines[k]? = some (.writingBody msg msg.length) →
      Moves h (.resume k) (h.finishWrite k)

theorem moves_of_step {h t : MessageHandler} {e : Event} (hs : step h e = some t) :
    h.undefined = false ∧ Moves h e t := by
  unfold step at hs
  split at hs
  · cases hs
  · rename_i hlive
    refine ⟨by simp only [Bool.or_eq_true, not_or, Bool.not_eq_true] at hlive; exact hlive.1, ?_⟩
    cases e with
    | send m => cases hs; exact .send m
    | sendYield m => cases hs; exact .sendYield m
    | start k =>
        dsimp only at hs
        split at hs
        · rename_i hk
          cases hs
          exact .start hk
        · cases hs
    | transfer k =>
        dsimp only at hs
        split at hs
        · rename_i hk
          obtain ⟨b, hb, rfl⟩ := Option.map_eq_some_iff.mp hs
          exact .transferLen hk hb
        · rename_i hk
          obtain ⟨b, hb, rfl⟩ := Option.map_eq_some_iff.mp hs
          exact .transferBody hk hb
        · cases hs
    | resume k =>
        dsimp only at hs
        split at hs
        · rename_i hk
          split at hs
          · rename_i hn
            subst hn
            cases hs
            exact .resumeLen hk
          · cases hs
        · rename_i hk
          split at hs
          · rename_i hn
            subst hn
            cases hs
            exact .resumeBody hk
          · cases hs
        · cases hs

theorem step_of_moves {h t : MessageHandler} {e : Event} (hu : h.undefined = false)
    (hx : h.exited = false) (hm : Moves h e t) : step h e = some t := by
  cases hm <;> simp_all [step]

/-! ### One message at a time -/

/-- How far the only coroutine has got with `m`, the frames `base` being out already. -/
def Writing (h : MessageHandler) (base : CxxString) (m : Message) : DoWrite → Prop
  | .spawned => h.socket = base
  | .writingLen msg n => msg = m.toString ∧ n ≤ 4 ∧ leBytes h.writeLen = m.lengthBytes ∧
      h.socket = base ++ m.lengthBytes.take n
  | .writingBody msg n => msg = m.toString ∧ n ≤ msg.length ∧
      h.socket = base ++ m.lengthBytes ++ msg.take n

/-- The states of a handler whose callers wait for the deque to empty. -/
structure Orderly (h : MessageHandler) : Prop where
  defined : h.undefined = false
  running : h.exited = false
  noBye : ∀ m ∈ h.sent, m.cmd ≠ lit "bye"
  single :
    (h.writeMsgs = [] ∧ h.coroutines = [] ∧ h.socket = frames h.sent) ∨
    ∃ pre m d, h.sent = pre ++ [m] ∧ h.writeMsgs = [m] ∧ h.coroutines = [d] ∧
      Writing h (frames pre) m d

theorem orderly_init : Orderly init :=
  ⟨rfl, rfl, by simp [init], .inl ⟨rfl, rfl, rfl⟩⟩

theorem leBytes_swapped_length (m : Message) :
    leBytes (swapEndian (UInt32.ofNat m.toString.length)) = m.lengthBytes :=
  leBytes_swapEndian _

/-- With an empty deque there is no coroutine left. -/
theorem Orderly.idle_of_empty {h : MessageHandler} (ho : Orderly h) (hempty : h.writeMsgs = []) :
    h.coroutines = [] ∧ h.socket = frames h.sent := by
  rcases ho.single with ⟨-, hc, hsock⟩ | ⟨pre, m, d, -, hw, -⟩
  · exact ⟨hc, hsock⟩
  · rw [hempty] at hw
    cases hw

/-- A coroutine that moves is the only one, and writes the message sent last. -/
theorem Orderly.writing {h : MessageHandler} (ho : Orderly h) {k : Nat} {d : DoWrite}
    (hk : h.coroutines[k]? = some d) :
    k = 0 ∧ ∃ pre m, h.sent = pre ++ [m] ∧ h.writeMsgs = [m] ∧ h.coroutines = [d] ∧
      Writing h (frames pre) m d := by
  rcases ho.single with ⟨-, hc, -⟩ | ⟨pre, m, d', hsent, hw, hc, hwr⟩
  · simp [hc] at hk
  · rw [hc] at hk
    cases k with
    | zero =>
        obtain rfl : d' = d := by simpa using hk
        exact ⟨rfl, pre, m, hsent, hw, hc, hwr⟩
    | succ k => simp at hk

theorem Orderly.step {h t : MessageHandler} {e : Event} (ho : Orderly h)
    (hsend : SendsWhenEmpty h e) (hbye : ∀ m ∈ e.message?, m.cmd ≠ lit "bye")
    (hs : step h e = some t) : Orderly t := by
  obtain ⟨-, hm⟩ := moves_of_step hs
  have hnb : ∀ m, e.message? = some m → ∀ m' ∈ h.sent ++ [m], m'.cmd ≠ lit "bye" := by
    intro m he m' hm'
    rcases List.mem_append.mp hm' with h' | h'
    · exact ho.noBye m' h'
    · rw [List.mem_singleton.mp h']
      exact hbye m he
  -- `SendsWhenEmpty` leaves the queue to the only coroutine, so a send finds it empty; every
  -- other move is the coroutine's next write.
  cases hm with
  | send m =>
      have hempty : h.writeMsgs = [] := hsend (by simp [Event.message?])
      obtain ⟨hc, hsock⟩ := ho.idle_of_empty hempty
      refine ⟨ho.defined, ho.running, hnb m rfl,
        .inr ⟨h.sent, m, .spawned, rfl, ?_, ?_, hsock⟩⟩
      · simp [enqueue, hempty]
      · simp [hc]
  | sendYield m =>
      have hempty : h.writeMsgs = [] := hsend (by simp [Event.message?])
      obtain ⟨hc, hsock⟩ := ho.idle_of_empty hempty
      have ht : (h.enqueue m).beginWrite (fun d => h.coroutines ++ [d]) =
          { h.enqueue m with
            writeLen := swapEndian (UInt32.ofNat m.toString.length)
            coroutines := [.writingLen m.toString 0] } := by
        simp [beginWrite, enqueue, hempty, hc]
      rw [ht]
      refine ⟨ho.defined, ho.running, hnb m rfl,
        .inr ⟨h.sent, m, _, rfl, ?_, rfl, rfl, by omega, ?_, ?_⟩⟩
      · simp [enqueue, hempty]
      · exact leBytes_swapped_length m
      · simpa [enqueue] using hsock
  | @start k hk =>
      obtain ⟨rfl, pre, m, hsent, hw, hc, hsock⟩ := ho.writing hk
      simp only [beginWrite, hw, hc]
      have hsock : h.socket = frames pre := hsock
      exact ⟨ho.defined, ho.running, ho.noBye, .inr ⟨pre, m, _, hsent, rfl, rfl, rfl, by omega,
        leBytes_swapped_length m, by simpa using hsock⟩⟩
  | @transferLen k n msg b hk hb =>
      obtain ⟨rfl, pre, m, hsent, hw, hc, rfl, hn, hlen, hsock⟩ := ho.writing hk
      -- one more byte of the length field
      have hn' : n < 4 := by simpa using (List.getElem?_eq_some_iff.mp hb).1
      rw [hlen] at hb
      refine ⟨ho.defined, ho.running, ho.noBye, .inr ⟨pre, m, .writingLen m.toString (n + 1),
        hsent, hw, by rw [hc]; rfl, rfl, by omega, hlen, ?_⟩⟩
      simp only [hsock, List.take_add_one, hb, Option.toList_some, List.append_assoc]
  | @transferBody k n msg b hk hb =>
      obtain ⟨rfl, pre, m, hsent, hw, hc, rfl, hn, hsock⟩ := ho.writing hk
      have hn' : n < m.toString.length := (List.getElem?_eq_some_iff.mp hb).1
      refine ⟨ho.defined, ho.running, ho.noBye, .inr ⟨pre, m, .writingBody m.toString (n + 1),
        hsent, hw, by rw [hc]; rfl, rfl, by omega, ?_⟩⟩
      simp only [hsock, List.take_add_one, hb, Option.toList_some, List.append_assoc]
  | @resumeLen k msg hk =>
      obtain ⟨rfl, pre, m, hsent, hw, hc, rfl, -, -, hsock⟩ := ho.writing hk
      refine ⟨ho.defined, ho.running, ho.noBye, .inr ⟨pre, m, .writingBody m.toString 0,
        hsent, hw, by rw [hc]; rfl, rfl, by omega, ?_⟩⟩
      rw [List.take_of_length_le (by simp)] at hsock
      simpa using hsock
  | @resumeBody k msg hk =>
      obtain ⟨rfl, pre, m, hsent, hw, hc, rfl, -, hsock⟩ := ho.writing hk
      -- after a `bye` the handler would stop running instead
      have hm : m.cmd ≠ lit "bye" := ho.noBye m (by rw [hsent]; simp)
      simp only [finishWrite, hw, hc, if_neg hm]
      refine ⟨ho.defined, ho.running, ho.noBye, .inl ⟨rfl, rfl, ?_⟩⟩
      simpa [hsent] using hsock

theorem Orderly.inOrder {h : MessageHandler} (ho : Orderly h) : InOrder h := by
  obtain ⟨hdef, -, -, hsingle⟩ := ho
  refine ⟨hdef, ?_, ?_⟩
  · rcases hsingle with ⟨-, -, hsock⟩ | ⟨pre, m, d, hsent, -, -, hwr⟩
    · exact hsock ▸ List.prefix_rfl
    · rw [hsent, frames_append, frames_singleton]
      cases d with
      | spawned =>
          rw [show h.socket = frames pre from hwr]
          exact List.prefix_append _ _
      | writingLen msg n =>
          rw [hwr.2.2.2]
          exact (List.prefix_append_right_inj _).mpr
            ((List.take_prefix n _).trans (List.prefix_append _ _))
      | writingBody msg n =>
          obtain ⟨rfl, -, hsock⟩ := hwr
          rw [hsock, List.append_assoc]
          exact (List.prefix_append_right_inj _).mpr
            ((List.prefix_append_right_inj _).mpr (List.take_prefix n _))
  · intro hidle
    rcases hsingle with ⟨-, -, hsock⟩ | ⟨pre, m, d, -, -, hc, -⟩
    · exact hsock
    · rw [idle, hc] at hidle
      cases hidle

/-- Steps left until the only coroutine has popped its message. -/
def stepsLeft (h : MessageHandler) : Nat :=
  match h.writeMsgs, h.coroutines with
  | [m], [.spawned] => m.toString.length + 7
  | [m], [.writingLen _ n] => m.toString.length + 6 - n
  | [m], [.writingBody _ n] => m.toString.length + 1 - n
  | _, _ => 0

/-- A handler with a pending write can always go on without another `Send`. -/
theorem Orderly.progress {h : MessageHandler} (ho : Orderly h) (hidle : ¬ h.idle) :
    ∃ e t, e.message? = none ∧ MessageHandler.step h e = some t ∧ t.sent = h.sent ∧
      t.stepsLeft < h.stepsLeft := by
  obtain ⟨hdef, hrun, hnb, hsingle⟩ := ho
  rcases hsingle with ⟨-, hc, -⟩ | ⟨pre, m, d, hsent, hw, hc, hwr⟩
  · exact absurd hc hidle
  have hk : h.coroutines[0]? = some d := by rw [hc]; rfl
  have hlen : (lit "\r\n").length ≤ m.toString.length := by
    simp only [Message.toString, List.length_append]
    omega
  cases d with
  | spawned =>
      refine ⟨.start 0, _, rfl, step_of_moves hdef hrun (.start hk), ?_, ?_⟩
      · simp [beginWrite, hw]
      · simp [beginWrite, stepsLeft, hw, hc]
  | writingLen msg n =>
      obtain ⟨rfl, hn, hlb, -⟩ := hwr
      rcases Nat.lt_or_eq_of_le hn with hlt | rfl
      · have hn' : n < (leBytes h.writeLen).length := by simpa using hlt
        have hb : (leBytes h.writeLen)[n]? = some (leBytes h.writeLen)[n] :=
          List.getElem?_eq_getElem hn'
        refine ⟨.transfer 0, _, rfl, step_of_moves hdef hrun (.transferLen hk hb), rfl, ?_⟩
        simp only [stepsLeft, hw, hc, List.set_cons_zero]
        omega
      · refine ⟨.resume 0, _, rfl, step_of_moves hdef hrun (.resumeLen hk), rfl, ?_⟩
        simp only [stepsLeft, hw, hc, List.set_cons_zero]
        omega
  | writingBody msg n =>
      obtain ⟨rfl, hn, -⟩ := hwr
      rcases Nat.lt_or_eq_of_le hn with hlt | rfl
      · have hb : m.toString[n]? = some m.toString[n] := List.getElem?_eq_getElem hlt
        refine ⟨.transfer 0, _, rfl, step_of_moves hdef hrun (.transferBody hk hb), rfl, ?_⟩
        simp only [stepsLeft, hw, hc, List.set_cons_zero]
        omega
      · have hm : m.cmd ≠ lit "bye" := hnb m (by rw [hsent]; simp)
        refine ⟨.resume 0, _, rfl, step_of_moves hdef hrun (.resumeBody hk), ?_, ?_⟩
        · simp [finishWrite, hw, hm]
        · simp [finishWrite, stepsLeft, hw, hc, hm]

/-- From an orderly state the pending write can be run to its end. -/
theorem Orderly.finish {h : MessageHandler} (ho : Orderly h) :
    ∃ es t, (∀ e ∈ es, e.message? = none) ∧ Exec MessageHandler.step h es t ∧ t.idle ∧
      t.sent = h.sent ∧ Orderly t := by
  -- by induction on the steps that are left
  induction hk : h.stepsLeft using Nat.strongRecOn generalizing h with
  | _ k ih =>
      by_cases hidle : h.idle
      · exact ⟨[], h, by simp, .nil, hidle, rfl, ho⟩
      · obtain ⟨e, u, he, hstep, hsent, hlt⟩ := ho.progress hidle
        have hu : Orderly u :=
          ho.step (fun hne => absurd he hne) (fun m hm => by rw [he] at hm; cases hm) hstep
        obtain ⟨es, t, hes, hexec, hti, hts, hto⟩ := ih u.stepsLeft (hk ▸ hlt) hu rfl
        refine ⟨e :: es, t, ?_, .cons hstep hexec, hti, hts.trans hsent, hto⟩
        intro e' he'
        rcases List.mem_cons.mp he' with rfl | h'
        · exact he
        · exact hes e' h'

/-! ### Too many coroutines -/

/-- No message waits without a coroutine that will pop it. -/
def Manned (h : MessageHandler) : Prop :=
  h.undefined = true ∨ h.writeMsgs.length ≤ h.coroutines.length

/-- More coroutines to finish than messages to pop, now or after the next pop that
leaves the deque non-empty. -/
def Overfull (h : MessageHandler) : Prop :=
  h.undefined = true ∨ h.writeMsgs.length < h.coroutines.length ∨
    (2 ≤ h.writeMsgs.length ∧ h.writeMsgs.length ≤ h.coroutines.length)

theorem lt_length_of_getElem? {cs : List DoWrite} {k : Nat} {d : DoWrite}
    (h : cs[k]? = some d) : k < cs.length :=
  (List.getElem?_eq_some_iff.mp h).1

/-- The counts after a coroutine has run to its end. -/
theorem finishWrite_counts {h : MessageHandler} {k : Nat} (hk : k < h.coroutines.length) :
    (h.finishWrite k).undefined = true ∨
    ((h.finishWrite k).writeMsgs.length = h.writeMsgs.length ∧
      (h.finishWrite k).coroutines.length = h.coroutines.length) ∨
    ((h.finishWrite k).writeMsgs.length + 1 = h.writeMsgs.length ∧
      (h.finishWrite k).coroutines.length + 1 =
        h.coroutines.length + (if h.writeMsgs.length = 1 then 0 else 1)) := by
  unfold finishWrite
  cases h.writeMsgs with
  | nil => exact .inl rfl
  | cons m rest =>
      right
      dsimp only
      split
      · exact .inl ⟨rfl, rfl⟩
      · refine .inr ⟨rfl, ?_⟩
        rw [List.length_append, List.length_eraseIdx_of_lt hk]
        cases rest with
        | nil => simp; omega
        | cons => simp; omega

theorem beginWrite_counts (h : MessageHandler) (place : DoWrite → List DoWrite) :
    (h.beginWrite place).undefined = true ∨
      (h.beginWrite place).writeMsgs = h.writeMsgs ∧
        ∃ d, (h.beginWrite place).coroutines = place d := by
  unfold beginWrite
  split
  · exact .inl rfl
  · exact .inr ⟨rfl, _, rfl⟩

/-- What a step does to the two counts. -/
theorem Moves.counts {h t : MessageHandler} {e : Event} (hm : Moves h e t) :
    t.undefined = true ∨
    (e.message? ≠ none ∧ t.writeMsgs.length = h.writeMsgs.length + 1 ∧
      t.coroutines.length = h.coroutines.length + 1) ∨
    (e.message? = none ∧ t.writeMsgs.length = h.writeMsgs.length ∧
      t.coroutines.length = h.coroutines.length) ∨
    (e.message? = none ∧ t.writeMsgs.length + 1 = h.writeMsgs.length ∧
      t.coroutines.length + 1 =
        h.coroutines.length + (if h.writeMsgs.length = 1 then 0 else 1)) := by
  cases hm with
  | send m => exact .inr (.inl ⟨by simp [Event.message?], by simp [enqueue], by simp⟩)
  | sendYield m =>
      rcases beginWrite_counts (h.enqueue m) (fun d => h.coroutines ++ [d]) with hu | ⟨hw, d, hc⟩
      · exact .inl hu
      · exact .inr (.inl ⟨by simp [Event.message?], by rw [hw]; simp [enqueue], by simp [hc]⟩)
  | start hk =>
      rcases beginWrite_counts h (fun d => h.coroutines.set _ d) with hu | ⟨hw, d, hc⟩
      · exact .inl hu
      · exact .inr (.inr (.inl ⟨rfl, by rw [hw], by rw [hc, List.length_set]⟩))
  | transferLen hk hb => exact .inr (.inr (.inl ⟨rfl, rfl, by simp⟩))
  | transferBody hk hb => exact .inr (.inr (.inl ⟨rfl, rfl, by simp⟩))
  | resumeLen hk => exact .inr (.inr (.inl ⟨rfl, rfl, by simp⟩))
  | resumeBody hk =>
      rcases finishWrite_counts (lt_length_of_getElem? hk) with hu | h' | h'
      · exact .inl hu
      · exact .inr (.inr (.inl ⟨rfl, h'⟩))
      · exact .inr (.inr (.inr ⟨rfl, h'⟩))

theorem Manned.step {h t : MessageHandler} {e : Event} (hm : Manned h)
    (hs : step h e = some t) : Manned t := by
  obtain ⟨hdef, hmv⟩ := moves_of_step hs
  have hle := hm.resolve_left (by simp [hdef])
  rcases hmv.counts with hu | ⟨-, hw, hc⟩ | ⟨-, hw, hc⟩ | ⟨-, hw, hc⟩
  · exact .inl hu
  · exact .inr (by omega)
  · exact .inr (by omega)
  · right
    split at hc <;> omega

theorem Overfull.step {h t : MessageHandler} {e : Event} (ho : Overfull h)
    (hs : step h e = some t) : Overfull t := by
  obtain ⟨hdef, hmv⟩ := moves_of_step hs
  have hle := ho.resolve_left (by simp [hdef])
  rcases hmv.counts with hu | ⟨-, hw, hc⟩ | ⟨-, hw, hc⟩ | ⟨-, hw, hc⟩
  · exact .inl hu
  · exact .inr (by omega)
  · exact .inr (by omega)
  · right
    split at hc <;> omega

/-- A `Send` that finds a message on the deque leaves the handler overfull. -/
theorem overfull_of_send {h t : MessageHandler} {e : Event} (hm : Manned h)
    (hsend : ¬ SendsWhenEmpty h e) (hs : MessageHandler.step h e = some t) : Overfull t := by
  obtain ⟨hdef, hmv⟩ := moves_of_step hs
  have hle := hm.resolve_left (by simp [hdef])
  simp only [SendsWhenEmpty, Classical.not_imp] at hsend
  have hpos : 0 < h.writeMsgs.length := List.length_pos_iff.mpr hsend.2
  rcases hmv.counts with hu | ⟨-, hw, hc⟩ | ⟨he, -⟩ | ⟨he, -⟩
  · exact .inl hu
  · exact .inr (.inr (by omega))
  · exact absurd he hsend.1
  · exact absurd he hsend.1

/-- A run either never sends onto a non-empty deque or ends overfull. -/
theorem along_or_overfull {h t : MessageHandler} {es : List Event}
    (hx : Exec MessageHandler.step h es t) (hm : Manned h) :
    Along MessageHandler.step SendsWhenEmpty h es ∨ Overfull t := by
  induction hx with
  | nil => exact .inl trivial
  | @cons h u t e es hs hrest ih =>
      by_cases hsend : SendsWhenEmpty h e
      · rcases ih (hm.step hs) with hal | hov
        · refine .inl ⟨hsend, fun u' hu' => ?_⟩
          obtain rfl : u = u' := Option.some.inj (hs.symm.trans hu')
          exact hal
        · exact .inr hov
      · exact .inr (hrest.invariant (fun _ _ _ ho hs' => ho.step hs')
          (overfull_of_send hm hsend hs))

/-- A handler at rest in a good state was never overfull. -/
theorem not_overfull_of_idle {h : MessageHandler} (hidle : h.idle) (ho : InOrder h) :
    ¬ Overfull h := by
  rintro (hu | hlt | ⟨htwo, hle⟩)
  · rw [ho.defined] at hu
    cases hu
  · rw [hidle] at hlt
    cases hlt
  · rw [hidle, List.length_nil] at hle
    omega

theorem noBye_cons {e : Event} {es : List Event} (h : NoBye (e :: es)) :
    (∀ m ∈ e.message?, m.cmd ≠ lit "bye") ∧ NoBye es :=
  ⟨h e (List.mem_cons_self ..), fun e' he' => h e' (List.mem_cons_of_mem _ he')⟩

/-- The run form of `Orderly.step`. -/
theorem Orderly.exec {h t : MessageHandler} {es : List Event} (ho : Orderly h)
    (hx : Exec MessageHandler.step h es t) (hbye : NoBye es)
    (hsend : Along MessageHandler.step SendsWhenEmpty h es) : Orderly t := by
  induction hx with
  | nil => exact ho
  | cons hs _ ih =>
      obtain ⟨hb, hbs⟩ := noBye_cons hbye
      exact ih (ho.step hsend.1 hb hs) hbs (hsend.2 _ hs)

/-! ### Delivery -/

/-- **Sends are delivered in order, each once, exactly when no `Send` finds a message
still on the deque.** If none does, every state of the run is in order and the
pending write, if any, can be run to an end that carries all frames; and a run that
comes to rest in order made no such `Send`. -/
theorem inOrder_of_sendsWhenEmpty {es : List Event} {h : MessageHandler}
    (hx : Exec step init es h) (hbye : NoBye es) :
    (Along step SendsWhenEmpty init es →
      InOrder h ∧ ∃ es' h', (∀ e ∈ es', e.message? = none) ∧ Exec step h es' h' ∧
        h'.idle ∧ h'.sent = h.sent ∧ h'.socket = frames h.sent) ∧
    (h.idle → (InOrder h ↔ Along step SendsWhenEmpty init es)) := by
  refine ⟨?_, ?_⟩
  · intro hsend
    have ho : Orderly h := orderly_init.exec hx hbye hsend
    obtain ⟨es', h', hes, hx', hidle, hsent, ho'⟩ := ho.finish
    exact ⟨ho.inOrder, es', h', hes, hx', hidle, hsent,
      hsent ▸ ho'.inOrder.complete hidle⟩
  · intro hidle
    constructor
    · intro hin
      have hm : Manned init := .inr (Nat.le_refl 0)
      exact (along_or_overfull hx hm).resolve_right (not_overfull_of_idle hidle hin)
    · intro hsend
      exact (orderly_init.exec hx hbye hsend).inOrder

/-! ### Two replies of a worker -/

def manifestReply : Message := ⟨lit "w", lit "response_manifest", [lit "m"]⟩

def doneReply : Message := ⟨lit "w", lit "done", [lit "c", lit "0"]⟩

/-- Both writes of one message and the pop, by the first coroutine of the list. -/
def writeOut (m : Message) : List Event :=
  List.replicate 4 (.transfer 0) ++ [.resume 0] ++
    List.replicate m.toString.length (.transfer 0) ++ [.resume 0]

/-- The two replies sent one after the other through `Send(msg, yield)`, the second
when the first has been popped. -/
def sequentialReplies : List Event :=
  [.sendYield manifestReply] ++ writeOut manifestReply ++ [.sendYield doneReply] ++
    writeOut doneReply

theorem sequentialReplies_inOrder :
    ∃ h, Exec step init sequentialReplies h ∧ InOrder h ∧
      h.socket = frames [manifestReply, doneReply] := by
  have hx : ∃ h, Exec step init sequentialReplies h ∧ h.idle ∧
      h.sent = [manifestReply, doneReply] := by
    refine ⟨_, exec_eq_some_iff.mp rfl, rfl, rfl⟩
  obtain ⟨h, hx, hidle, hsent⟩ := hx
  have hin := ((inOrder_of_sendsWhenEmpty hx (by decide)).2 hidle).mpr (by decide)
  exact ⟨h, hx, hin, hsent ▸ hin.complete hidle⟩

/-! ### Two pings -/

/-- The answer to a `ping`, sent through `Send(msg)`. -/
def pong : Message := ⟨lit "w", lit "pong", []⟩

/-- Two pings read one right after the other: the second `pong` is on the deque while the
first is suspended in its write, and a coroutine of its own reads the front again. The
lengths go out first, then the bodies; the first coroutine to end posts a third. -/
def overlappingPongs : List Event :=
  [.send pong, .start 0, .send pong, .start 1] ++
    List.replicate 4 (.transfer 0) ++ List.replicate 4 (.transfer 1) ++ [.resume 0, .resume 1] ++
    List.replicate pong.toString.length (.transfer 0) ++
    List.replicate pong.toString.length (.transfer 1) ++ [.resume 0, .resume 0, .start 0]

/-- The frames are mixed up, and the third coroutine reads the front of an empty deque. -/
theorem overlappingPongs_undefined :
    ∃ h, Exec step init overlappingPongs h ∧ NoBye overlappingPongs ∧ h.sent = [pong, pong] ∧
      h.socket = pong.lengthBytes ++ pong.lengthBytes ++ pong.toString ++ pong.toString ∧
      h.undefined = true ∧ ¬ InOrder h := by
  refine ⟨_, exec_eq_some_iff.mp rfl, by decide, rfl, rfl, rfl, ?_⟩
  intro hin
  exact absurd hin.defined (by decide)

end SecCask.Net.MessageHandler
