import SecCask.Lib.OrderedDict
import SecCask.Lib.RemoveIf
import SecCask.Lib.Run
import Mathlib.Tactic.ByContra

/-!
# SecCask.Coordinator.Registration

How a connection gets its worker id: `Coordinator::DoAccept` puts the handler of a
new connection into `new_workers_`, and the `ready` branch of `DoActionFromMsg` has
`OnWorkerGotID` move it to `workers_[id]` before it answers through that entry.

`OnWorkerGotID` takes the iterator that `std::remove_if` returns for the removed
handler itself. It is the last place of the vector, which holds the handler only when
no other pending connection was accepted after it.
-/

namespace SecCask.Coordinator

/-- A `MessageHandler` object, by identity. -/
abbrev Handler := ℕ

/-- `std::shared_ptr<MessageHandler>`; `none` is the null pointer. -/
abbrev HandlerPtr := Option Handler

/-- `std::map<std::string, std::shared_ptr<MessageHandler>>`. -/
abbrev HandlerMap := OrderedDict String HandlerPtr

/-- The two members that know connections. -/
structure Connections where
  /-- `workers_` -/
  workers : HandlerMap := ∅
  /-- `new_workers_` -/
  newWorkers : List HandlerPtr := []
  deriving DecidableEq

namespace Connections

/-- `workers_[id]`, which inserts a null pointer for an unknown id. -/
def worker (c : Connections) (id : String) : HandlerPtr :=
  (c.workers.lookup id).join

/-- `new_workers_.emplace_back(std::move(worker))` -/
def accept (c : Connections) (h : Handler) : Connections :=
  { c with newWorkers := c.newWorkers ++ [some h] }

/-- `Coordinator::OnWorkerGotID`; `none` where it dereferences the end iterator. -/
def onWorkerGotID (c : Connections) (h : Handler) (id : String) : Option Connections :=
  let (v, it) := removeIf none (fun w => w == some h) c.newWorkers
  match v[it]? with
  | some w => some { workers := c.workers.insert id w, newWorkers := (v.set it none).eraseIdx it }
  | none => none

end Connections

/-! ### One registration -/

theorem pointers_ne {hs : List Handler} {h : Handler} (hh : h ∉ hs) :
    ∀ w ∈ hs.map some, (w == some h) = false := by
  intro w hw
  obtain ⟨g, hg, rfl⟩ := List.mem_map.mp hw
  have hne : g ≠ h := fun hgh => hh (hgh ▸ hg)
  simpa using hne

/-- The vector loses exactly the handler; the map gets the handler or, when a younger
connection is pending, a null pointer. -/
theorem onWorkerGotID_eq {c : Connections} (before after : List Handler) {h : Handler}
    (hnd : (before ++ h :: after).Nodup)
    (hc : c.newWorkers = (before ++ h :: after).map some) (id : String) :
    c.onWorkerGotID h id = some
      { workers := c.workers.insert id (if after.isEmpty then some h else none)
        newWorkers := (before ++ after).map some } := by
  have hnot : h ∉ before ∧ h ∉ after := by
    rw [List.nodup_middle, List.nodup_cons, List.mem_append, not_or] at hnd
    exact hnd.1
  have hremove := removeIf_of_unique (none : HandlerPtr) (fun w => w == some h)
    (pointers_ne hnot.1) (beq_self_eq_true (some h)) (pointers_ne hnot.2)
  have hlast : ∀ w : HandlerPtr, (before.map some ++ after.map some ++ [w])[
      before.length + after.length]? = some w := by
    intro w
    simp
  simp only [List.map_append, List.map_cons] at hc
  simp only [List.length_map] at hremove
  simp only [Connections.onWorkerGotID, hc, hremove, hlast]
  congr 2
  · simp
  · rw [List.eraseIdx_set_eq, List.eraseIdx_append_of_length_le (by simp)]
    simp

/-- What registering `h` under `id` is for: the entry points to `h`, and `new_workers_`
is left with the other handlers in their order. -/
def Registers (c : Connections) (hs : List Handler) (h : Handler) (id : String) : Prop :=
  ∃ c', c.onWorkerGotID h id = some c' ∧ c'.worker id = some h ∧
    c'.newWorkers = (hs.erase h).map some

theorem worker_insert (m : HandlerMap) (v : List HandlerPtr) (id : String) (w : HandlerPtr) :
    Connections.worker { workers := m.insert id w, newWorkers := v } id = w := by
  simp [Connections.worker]

theorem registers_iff {c : Connections} {hs : List Handler} {h : Handler} (hnd : hs.Nodup)
    (hc : c.newWorkers = hs.map some) (hh : h ∈ hs) (id : String) :
    Registers c hs h id ↔ hs.getLast? = some h := by
  obtain ⟨before, after, rfl⟩ := List.append_of_mem hh
  have hnot : h ∉ before := by
    rw [List.nodup_middle, List.nodup_cons, List.mem_append, not_or] at hnd
    exact hnd.1.1
  have heq := onWorkerGotID_eq before after hnd hc id
  have herase : (before ++ h :: after).erase h = before ++ after := by
    rw [List.erase_append_right _ hnot, List.erase_cons_head]
  cases after with
  | nil =>
      refine iff_of_true ⟨_, heq, ?_, ?_⟩ (by simp)
      · exact worker_insert ..
      · simp [herase]
  | cons g gs =>
      refine iff_of_false ?_ ?_
      · intro hex
        obtain ⟨c', hc', hid, -⟩ := hex
        obtain rfl := Option.some.inj (heq.symm.trans hc')
        rw [worker_insert] at hid
        simp at hid
      · intro hlast
        have hmem : h ∈ g :: gs := by
          have hsome : (before ++ h :: g :: gs).getLast? = (g :: gs).getLast? := by
            simp [List.getLast?_append, List.getLast?_cons]
          exact List.mem_of_getLast? (hsome ▸ hlast)
        rw [List.nodup_middle, List.nodup_cons, List.mem_append, not_or] at hnd
        exact hnd.1.2 hmem

/-! ### Runs of accepts and `ready` messages -/

/-- The coordinator's tables next to what the connections have said. -/
structure Registration where
  connections : Connections := {}
  /-- Every connection accepted so far. -/
  accepted : List Handler := []
  /-- Those that have not sent `ready`, in the order of their accepts. -/
  pending : List Handler := []
  /-- Which connection announced an id last. -/
  announced : OrderedDict String Handler := ∅
  /-- The reply to a `ready` went through a null or dangling pointer. -/
  nullSend : Bool := false
  deriving DecidableEq

namespace Registration

inductive Event
  /-- `async_accept` completes with the handler of a new connection. -/
  | accept (h : Handler)
  /-- The `ready` message of a pending connection is handled. -/
  | ready (h : Handler) (id : String)
  deriving DecidableEq, Repr

/-- One callback of the coordinator. A crashed coordinator takes no step. -/
def step (s : Registration) : Event → Option Registration
  | .accept h =>
      if h ∉ s.accepted ∧ s.nullSend = false then
        some { s with
          connections := s.connections.accept h
          accepted := h :: s.accepted, pending := s.pending ++ [h] }
      else none
  | .ready h id =>
      if h ∈ s.pending ∧ s.nullSend = false then
        some { s with
          connections := (s.connections.onWorkerGotID h id).getD s.connections
          pending := s.pending.erase h
          announced := s.announced.insert id h
          nullSend := ((s.connections.onWorkerGotID h id).bind (·.worker id)).isNone }
      else none

/-- Every announced id is bound to the connection that announced it, `new_workers_` holds
the pending connections, and no reply went through a null pointer. -/
def Bound (s : Registration) : Prop :=
  s.nullSend = false ∧
  (∀ id, s.connections.workers.lookup id = (s.announced.lookup id).map some) ∧
  s.connections.newWorkers = s.pending.map some

/-- A `ready` comes from the connection that was accepted last among the pending ones. -/
def YoungestFirst (s : Registration) : Event → Prop
  | .accept _ => True
  | .ready h _ => s.pending.getLast? = some h

instance (s : Registration) (e : Event) : Decidable (YoungestFirst s e) := by
  cases e <;> unfold YoungestFirst <;> infer_instance

/-- The invariant of all runs that have not crashed. -/
structure Inv (s : Registration) : Prop where
  bound : Bound s
  nodup : s.pending.Nodup
  accepted : ∀ h ∈ s.pending, h ∈ s.accepted

theorem inv_init : Inv {} where
  bound := by simp [Bound]
  nodup := List.nodup_nil
  accepted := by simp

theorem Inv.accept {s t : Registration} {h : Handler} (hs : Inv s)
    (hst : step s (.accept h) = some t) : Inv t := by
  obtain ⟨⟨hnew, -⟩, rfl⟩ := guard_eq_some_iff.mp hst
  obtain ⟨hnull, hmap, hvec⟩ := hs.bound
  refine ⟨⟨hnull, hmap, ?_⟩, ?_, ?_⟩
  · simp [Connections.accept, hvec]
  · have hfresh : h ∉ s.pending := fun hmem => hnew (hs.accepted h hmem)
    simpa [List.nodup_append] using ⟨hs.nodup, fun g hg hgh => hfresh (hgh ▸ hg)⟩
  · intro g hg
    rcases List.mem_append.mp hg with hg | hg
    · exact List.mem_cons_of_mem _ (hs.accepted g hg)
    · rw [List.mem_singleton.mp hg]
      exact List.mem_cons_self

/-- A registration of the youngest pending connection binds it. -/
theorem Inv.ready {s t : Registration} {h : Handler} {id : String} (hs : Inv s)
    (hyoung : s.pending.getLast? = some h) (hst : step s (.ready h id) = some t) : Inv t := by
  obtain ⟨⟨hmem, -⟩, rfl⟩ := guard_eq_some_iff.mp hst
  obtain ⟨-, hmap, hvec⟩ := hs.bound
  obtain ⟨before, hpend⟩ : ∃ before, s.pending = before ++ [h] :=
    ⟨_, (List.dropLast_append_getLast? h hyoung).symm⟩
  have heq := onWorkerGotID_eq before [] (hpend ▸ hs.nodup) (hpend ▸ hvec) id
  have herase : s.pending.erase h = before := by
    have hnot : h ∉ before := by
      have hnd := hs.nodup
      rw [hpend, List.nodup_middle, List.nodup_cons] at hnd
      simpa using hnd.1
    rw [hpend, List.erase_append_right _ hnot, List.erase_cons_head, List.append_nil]
  refine ⟨⟨?_, ?_, ?_⟩, ?_, ?_⟩
  · simp [heq, Connections.worker]
  · intro id'
    simp only [heq, Option.getD_some, List.isEmpty_nil, if_true]
    by_cases hid : id' = id
    · subst hid
      simp
    · rw [AList.lookup_insert_ne hid, AList.lookup_insert_ne hid]
      exact hmap id'
  · simp [heq, herase]
  · exact hs.nodup.erase h
  · intro g hg
    exact hs.accepted g (List.mem_of_mem_erase hg)

theorem inv_step {s t : Registration} {e : Event} (hs : Inv s) (hyoung : YoungestFirst s e)
    (hst : step s e = some t) : Inv t := by
  cases e with
  | accept h => exact hs.accept hst
  | ready h id => exact hs.ready hyoung hst

/-- Where the condition fails, the entry is null and the reply goes through it. -/
theorem youngestFirst_of_bound {s t : Registration} {e : Event} (hs : Inv s)
    (hst : step s e = some t) (ht : Bound t) : YoungestFirst s e := by
  cases e with
  | accept h => trivial
  | ready h id =>
      obtain ⟨⟨hmem, -⟩, rfl⟩ := guard_eq_some_iff.mp hst
      obtain ⟨before, after, hpend⟩ := List.append_of_mem hmem
      have heq := onWorkerGotID_eq _ _ (hpend ▸ hs.nodup) (hpend ▸ hs.bound.2.2) id
      have hsend := ht.1
      cases after with
      | nil => simp [YoungestFirst, hpend]
      | cons g gs => simp [heq, Connections.worker] at hsend

end Registration

/-- **Registration of connections.** `OnWorkerGotID` binds a pending handler to its id
exactly when that handler was accepted last among the pending ones; and in a run of
accepts and `ready` messages every announced id is bound to the connection that
announced it, with no reply through a null pointer, exactly when every `ready` comes
from the connection accepted last among those still pending. -/
theorem registration_iff_youngestFirst {c : Connections} {hs : List Handler} (hnd : hs.Nodup)
    (hc : c.newWorkers = hs.map some) {es : List Registration.Event} {t : Registration}
    (hrun : Exec Registration.step {} es t) :
    (∀ h ∈ hs, ∀ id, Registers c hs h id ↔ hs.getLast? = some h) ∧
    (Throughout Registration.step Registration.Bound {} es ↔
      Along Registration.step Registration.YoungestFirst {} es) := by
  refine ⟨?_, ?_⟩
  · intro h hh id
    exact registers_iff hnd hc hh id
  · exact (hrun.along_iff_throughout (I := Registration.Inv) (fun _ hs => hs.bound)
      (fun _ _ _ hs hg hst => Registration.inv_step hs hg hst)
      (fun _ _ _ hs hst ht => Registration.youngestFirst_of_bound hs hst ht)
      Registration.inv_init).symm

/-- Two connections in turn, and two at once whose `ready` messages arrive in the reverse
order of the accepts. -/
def youngestFirstRun : List Registration.Event :=
  [.accept 0, .ready 0 "w0", .accept 1, .accept 2, .ready 2 "w2", .ready 1 "w1"]

theorem youngestFirstRun_bound :
    Registers { newWorkers := [some 0, some 1] } [0, 1] 1 "w1" ∧
    Throughout Registration.step Registration.Bound {} youngestFirstRun := by
  obtain ⟨t, ht⟩ : ∃ t, exec Registration.step {} youngestFirstRun = some t := ⟨_, rfl⟩
  obtain ⟨hbind, hbound⟩ := registration_iff_youngestFirst
    (c := { newWorkers := [some 0, some 1] }) (show ([0, 1] : List Handler).Nodup by decide) rfl
    (exec_eq_some_iff.mp ht)
  exact ⟨(hbind 1 (by decide) "w1").mpr rfl, hbound.mpr (by decide)⟩

/-- Two workers connect and send `ready` in the order in which they connected: the first
id is bound to a null pointer, and the coordinator replies through it. -/
theorem oldestFirst_binds_null :
    ¬ Registers { newWorkers := [some 0, some 1] } [0, 1] 0 "w0" ∧
    ∃ t, Exec Registration.step {} [.accept 0, .accept 1, .ready 0 "w0"] t ∧
      t.connections.workers.lookup "w0" = some none ∧ t.nullSend = true := by
  constructor
  · intro hex
    obtain ⟨c', hc', hid, -⟩ := hex
    obtain rfl := Option.some.inj hc'
    exact absurd hid (by decide)
  · exact ⟨_, exec_eq_some_iff.mp rfl, by decide, by decide⟩

end SecCask.Coordinator
