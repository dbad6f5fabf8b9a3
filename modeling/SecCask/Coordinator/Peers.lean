import SecCask.Coordinator.Dispatch

/-!
# SecCask.Coordinator.Peers

The coordinator in the open: `DoAccept` takes every connection, the server side asks for no
client certificate, and a peer may send any message under any sender id. `DoActionFromMsg`
gets the connection that a message came over, but only the `ready` branch looks at it; all
others act for the id that the message carries.
-/

namespace SecCask.Coordinator

open Scheduling

/-- What a peer may send, its sender id apart. -/
inductive PeerMessage
  | ping
  | ready
  | responseManifest (obj : ManifestObj)
  | done
  | bye
  /-- A command that `DoActionFromMsg` does not know. -/
  | other (cmd : String)
  deriving DecidableEq

structure Peers where
  system : System
  /-- The ids that `ready` messages have registered, with their connections. -/
  registered : List (String × Handler) := []

namespace Peers

def init (numSlot : ℕ) : Peers := { system := System.init numSlot }

variable (sha256 : ByteArray → String) (config : Config)

/-! ### `DoActionFromMsg` -/

/-- The `pong` goes out on the connection of the id; nothing else happens. -/
def onPing (s : System) (id : String) : System :=
  match s.connections.worker id with
  | some _ => s
  | none => s.fail (.nullHandler id)

/-- The `ready` branch for a message that came over `h`. -/
def onReady (s : System) (h : Handler) (id : String) : System :=
  let w : Worker := ⟨s.scheduler.nextRef, id⟩
  let scheduler := { s.scheduler.addNewWorker w with nextRef := s.scheduler.nextRef + 1 }
  match s.connections.onWorkerGotID h id with
  | some connections =>
      { s with scheduler := scheduler, connections := connections }.send id .requestManifest
  | none => { s with scheduler := scheduler }.fail (.nullHandler id)

/-- `DoActionFromMsg(h, msg)`; `order` is the iteration order of the waiting set. -/
def doActionFromMsg (s : System) (h : Handler) (id : String) (order : List Component) :
    PeerMessage → System
  | .ping => onPing s id
  | .ready => onReady s h id
  | .responseManifest obj => s.onResponseManifest sha256 config id obj order
  | .done => s.onDone id
  | .bye => s.onBye id
  | .other _ => s

/-- What a worker that follows the protocol sends. -/
def PeerMessage.ofReply : Reply → PeerMessage
  | .ready => .ready
  | .responseManifest obj => .responseManifest obj
  | .done => .done
  | .bye => .bye

/-- For a message over the worker's own connection the coordinator does what it does in
`System`. -/
theorem doActionFromMsg_ofReply {s : System} {h : Handler} {id : String}
    (hlink : (s.links id).handler = some h)
    (hgot : (s.connections.onWorkerGotID h id).isSome = true) (order : List Component)
    (reply : Reply) :
    doActionFromMsg sha256 config s h id order (PeerMessage.ofReply reply) =
      s.doActionFromMsg sha256 config id order reply := by
  cases reply with
  | ready =>
      obtain ⟨connections, hconnections⟩ := Option.isSome_iff_exists.mp hgot
      simp only [PeerMessage.ofReply, doActionFromMsg, System.doActionFromMsg, onReady,
        System.onReady, hlink, Option.bind_some, hconnections]
  | responseManifest obj => rfl
  | done => rfl
  | bye => rfl

/-! ### Runs -/

inductive Event
  /-- `DoAccept` takes a new connection. -/
  | accept
  /-- A message with sender id `id` arrives over `h`. -/
  | message (h : Handler) (id : String) (msg : PeerMessage) (order : List Component)
  /-- The trial thread moves, as in `System.Event`. -/
  | newComponent (component : Component) (launchId : String)
  | addWaiting
  | finish
  deriving DecidableEq

/-- The `ready` messages handled so far. -/
def register (s : Peers) (h : Handler) (id : String) (msg : PeerMessage) :
    List (String × Handler) :=
  if msg = .ready then (id, h) :: s.registered else s.registered

def step (setting : System.Setting) (s : Peers) (e : Event) : Option Peers :=
  if s.system.fault.isSome || s.system.exited then none
  else match e with
  | .accept =>
      some { s with system := { s.system with
        connections := s.system.connections.accept s.system.nextHandler
        nextHandler := s.system.nextHandler + 1 } }
  | .message h id msg order =>
      if h < s.system.nextHandler ∧
          System.Enumerates order s.system.scheduler.waitingComponents ∧
          s.system.isBusy setting = false then
        some {
          system := doActionFromMsg sha256 setting.config s.system h id order msg
          registered := s.register h id msg }
      else none
  | .newComponent component launchId =>
      if s.system.component = .none ∧ s.system.finished = false ∧
          launchId ∉ s.system.launched then
        some { s with system := s.system.newComponent sha256 setting.config component launchId }
      else none
  | .addWaiting =>
      match s.system.component with
      | .adding component =>
          some { s with system := { s.system with
            scheduler := s.system.scheduler.addWaiting component
            component := .dispatched component } }
      | _ => none
  | .finish =>
      if s.system.component = .none ∧ s.system.finished = false then
        some { s with system := s.system.finish }
      else none

/-! ### What belongs to a worker -/

/-- `workers_[i]`, the place of worker `i` in the scheduler's pools and its manifest are the
same in both states, and a trial thread that waits for a component on `i` still does. -/
structure Untouched (i : String) (s t : System) : Prop where
  worker : t.connections.workers.lookup i = s.connections.workers.lookup i
  newWorkers : t.scheduler.newWorkers.filter (·.id = i) =
    s.scheduler.newWorkers.filter (·.id = i)
  active : i ∈ t.scheduler.activeWorkers.ids ↔ i ∈ s.scheduler.activeWorkers.ids
  cached : i ∈ t.scheduler.cachedWorkers.ids ↔ i ∈ s.scheduler.cachedWorkers.ids
  manifest : ∀ w : Worker, w.id = i →
    t.scheduler.manifests.lookup w = s.scheduler.manifests.lookup w
  waiting : i ∈ s.scheduler.activeWorkers.ids → t.component = s.component

variable {sha256 : ByteArray → String} {config : Config} {i : String}

namespace Untouched

theorem refl (s : System) : Untouched i s s :=
  ⟨rfl, rfl, Iff.rfl, Iff.rfl, fun _ _ => rfl, fun _ => rfl⟩

/-- What the containers of the scheduler, the table of connections and the trial thread say
is all there is to it. -/
theorem of_eq {s t u : System} (h : Untouched i s t) (hscheduler : u.scheduler = t.scheduler)
    (hconnections : u.connections = t.connections) (hcomponent : u.component = t.component) :
    Untouched i s u := by
  refine ⟨?_, ?_, ?_, ?_, ?_, ?_⟩
  · rw [hconnections]
    exact h.worker
  · rw [hscheduler]
    exact h.newWorkers
  · rw [hscheduler]
    exact h.active
  · rw [hscheduler]
    exact h.cached
  · rw [hscheduler]
    exact h.manifest
  · rw [hcomponent]
    exact h.waiting

end Untouched

/-! ### What sending leaves alone -/

theorem send_eq_with (s : System) (id : String) (command : Command) :
    ∃ links fault, s.send id command = { s with links := links, fault := fault } := by
  unfold System.send
  split
  · exact ⟨_, _, rfl⟩
  · exact ⟨_, _, rfl⟩

theorem performAll_eq_with (launchId : String) (s : System) (actions : List Action) :
    ∃ links launched evicted fault, s.performAll launchId actions =
      { s with links := links, launched := launched, evicted := evicted, fault := fault } := by
  induction actions generalizing s with
  | nil => exact ⟨_, _, _, _, rfl⟩
  | cons action actions ih =>
      have hone : ∃ links launched evicted fault, s.perform launchId action =
          { s with links := links, launched := launched, evicted := evicted, fault := fault } := by
        cases action with
        | execute id component =>
            obtain ⟨links, fault, h⟩ := send_eq_with s id (.execute component)
            exact ⟨links, _, _, fault, h⟩
        | onCacheFull id =>
            obtain ⟨links, fault, h⟩ := send_eq_with s id .exit
            exact ⟨links, _, id :: s.evicted, fault, by rw [System.perform, h]⟩
        | launch => exact ⟨_, _, _, _, rfl⟩
      obtain ⟨links, launched, evicted, fault, h⟩ := hone
      obtain ⟨links', launched', evicted', fault', h'⟩ := ih (s.perform launchId action)
      refine ⟨links', launched', evicted', fault', ?_⟩
      rw [System.performAll, List.foldl_cons, ← System.performAll, h', h]

theorem finish_eq_with (s : System) :
    ∃ links fault, s.finish = { s with finished := true, links := links, fault := fault } := by
  unfold System.finish
  generalize s.connections.workers.keys = ids
  suffices h : ∀ u : System, ∃ links fault,
      ids.foldl (fun u id => u.send id .exit) u = { u with links := links, fault := fault } by
    exact h { s with finished := true }
  induction ids with
  | nil => exact fun u => ⟨_, _, rfl⟩
  | cons id ids ih =>
      intro u
      obtain ⟨links, fault, h⟩ := send_eq_with u id .exit
      obtain ⟨links', fault', h'⟩ := ih (u.send id .exit)
      exact ⟨links', fault', by rw [List.foldl_cons, h', h]⟩

/-! ### A message touches the worker it names -/

section Scheduler

variable {p : PACache} {w : Worker}

theorem mem_ids_add_of_ne (hne : w.id ≠ i) : i ∈ (p.add w).ids ↔ i ∈ p.ids := by
  simp [Ne.symm hne]

theorem mem_ids_erase_of_ne (hne : w.id ≠ i) : i ∈ (p.erase w.id).ids ↔ i ∈ p.ids := by
  simp [Ne.symm hne]

theorem filter_erase_of_ne (hne : w.id ≠ i) (l : List Worker) :
    (l.erase w).filter (·.id = i) = l.filter (·.id = i) := by
  rw [← List.erase_filter]
  exact List.erase_of_not_mem fun hmem => hne (by simpa using (List.mem_filter.mp hmem).2)

theorem lookup_recorded_of_ne (s : Scheduler) (component : Component) {v : Worker} (hv : v ≠ w) :
    (s.recorded w component).manifests.lookup v = s.manifests.lookup v := by
  unfold Scheduler.recorded
  split
  · rfl
  · exact AList.lookup_insert_ne hv

end Scheduler

/-- Recording a manifest on another worker. -/
theorem Untouched.onManifest {s : System} {w : Worker} {obj : ManifestObj} {isNew : Bool}
    {scheduler : Scheduler} (hne : w.id ≠ i)
    (h : s.scheduler.onManifest w obj = some (isNew, scheduler)) :
    Untouched i s { s with scheduler := scheduler } := by
  obtain ⟨⟨isNew', m⟩, -, heq⟩ := Option.map_eq_some_iff.mp h
  obtain ⟨rfl, rfl⟩ := Prod.mk.inj heq
  exact ⟨rfl, rfl, Iff.rfl, Iff.rfl,
    fun v hv => AList.lookup_insert_ne fun heq => hne (by rw [← heq, hv]), fun _ => rfl⟩

/-- `on_worker_ready` for another worker. -/
theorem Untouched.onWorkerReady {s : System} {w : Worker} {order : List Component}
    {scheduler : Scheduler} {actions : List Action} (hne : w.id ≠ i)
    (h : s.scheduler.onWorkerReady sha256 config w order = .ok (scheduler, actions)) :
    Untouched i s { s with scheduler := scheduler } := by
  unfold Scheduler.onWorkerReady at h
  dsimp only at h
  split at h
  · rename_i component _
    rw [Scheduler.assign_of_mem (by simp)] at h
    obtain ⟨rfl, -⟩ := Prod.mk.inj (Except.ok.inj h)
    refine ⟨rfl, ?_, ?_, ?_, ?_, fun _ => rfl⟩
    · simp only [Scheduler.assigned_newWorkers]
      exact filter_erase_of_ne hne _
    · simp only [Scheduler.assigned_activeWorkers]
      exact mem_ids_add_of_ne hne
    · simp only [Scheduler.assigned_cachedWorkers]
      rw [mem_ids_erase_of_ne hne]
      exact mem_ids_add_of_ne hne
    · intro v hv
      exact lookup_recorded_of_ne _ component fun heq => hne (by rw [← heq, hv])
  · obtain ⟨rfl, -⟩ := Prod.mk.inj (Except.ok.inj h)
    exact ⟨rfl, rfl, Iff.rfl, mem_ids_add_of_ne hne, fun _ _ => rfl, fun _ => rfl⟩

theorem Untouched.trans {s t u : System} (h : Untouched i s t) (h' : Untouched i t u) :
    Untouched i s u where
  worker := h'.worker.trans h.worker
  newWorkers := h'.newWorkers.trans h.newWorkers
  active := h'.active.trans h.active
  cached := h'.cached.trans h.cached
  manifest := fun w hw => (h'.manifest w hw).trans (h.manifest w hw)
  waiting := fun hi => (h'.waiting (h.active.mpr hi)).trans (h.waiting hi)

/-- At most one worker is active, and then the trial thread waits for what it executes. -/
def OneActive (s : System) : Prop :=
  (s.scheduler.activeWorkers.ids = [] ∧ (s.scheduler.waitingComponents = ∅ ∨
    ∃ c, s.component = .dispatched c ∧ s.scheduler.waitingComponents = {c})) ∨
  ∃ j c, s.scheduler.activeWorkers.ids = [j] ∧ s.scheduler.waitingComponents = ∅ ∧
    s.component = .dispatched c

theorem OneActive.of_eq {s t : System} (h : OneActive s)
    (hactive : t.scheduler.activeWorkers = s.scheduler.activeWorkers)
    (hwaiting : t.scheduler.waitingComponents = s.scheduler.waitingComponents)
    (hcomponent : t.component = s.component) : OneActive t := by
  unfold OneActive
  rw [hactive, hwaiting, hcomponent]
  exact h

theorem onManifest_containers {s scheduler : Scheduler} {w : Worker} {obj : ManifestObj}
    {isNew : Bool} (h : s.onManifest w obj = some (isNew, scheduler)) :
    scheduler.activeWorkers = s.activeWorkers ∧
      scheduler.waitingComponents = s.waitingComponents := by
  obtain ⟨⟨isNew', m⟩, -, heq⟩ := Option.map_eq_some_iff.mp h
  obtain ⟨-, rfl⟩ := Prod.mk.inj heq
  exact ⟨rfl, rfl⟩

/-- `on_worker_ready` activates the worker with a component from the waiting set, or neither. -/
theorem onWorkerReady_containers {s scheduler : Scheduler} {w : Worker}
    {order : List Component} {actions : List Action}
    (h : s.onWorkerReady sha256 config w order = .ok (scheduler, actions)) :
    (scheduler.activeWorkers = s.activeWorkers ∧
      scheduler.waitingComponents = s.waitingComponents) ∨
    ∃ component ∈ order, scheduler.activeWorkers = s.activeWorkers.add w ∧
      scheduler.waitingComponents = s.waitingComponents.erase component := by
  unfold Scheduler.onWorkerReady at h
  dsimp only at h
  split at h
  · rename_i component hfind
    rw [Scheduler.assign_of_mem (by simp)] at h
    obtain ⟨rfl, -⟩ := Prod.mk.inj (Except.ok.inj h)
    exact Or.inr ⟨component, List.mem_of_find?_eq_some hfind, by simp, by simp⟩
  · obtain ⟨rfl, -⟩ := Prod.mk.inj (Except.ok.inj h)
    exact Or.inl ⟨rfl, rfl⟩

theorem launchWorker_containers {s scheduler : Scheduler} {component : Component}
    {actions : List Action} (h : s.launchWorker component = .ok (scheduler, actions)) :
    scheduler.activeWorkers = s.activeWorkers ∧
      scheduler.waitingComponents = s.waitingComponents := by
  unfold Scheduler.launchWorker at h
  split at h
  · cases h
  · split at h
    · split at h
      · obtain ⟨rfl, -⟩ := Prod.mk.inj (Except.ok.inj h)
        exact ⟨rfl, rfl⟩
      · cases h
    · obtain ⟨rfl, -⟩ := Prod.mk.inj (Except.ok.inj h)
      exact ⟨rfl, rfl⟩

namespace OneActive

/-- What a scheduler method does to the containers carries over to the coordinator. -/
theorem proceed {s : System} {launchId : String}
    {result : Except SchedulerError (Scheduler × List Action)} (hs : OneActive s)
    (hok : ∀ scheduler actions, result = .ok (scheduler, actions) →
      OneActive { s with scheduler := scheduler }) :
    OneActive (s.proceed launchId result) := by
  cases result with
  | error e => exact hs.of_eq rfl rfl rfl
  | ok value =>
      obtain ⟨scheduler, actions⟩ := value
      obtain ⟨links, launched, evicted, fault, heq⟩ :=
        performAll_eq_with launchId { s with scheduler := scheduler } actions
      simp only [System.proceed, heq]
      exact (hok scheduler actions rfl).of_eq rfl rfl rfl

theorem onReady {s : System} {h : Handler} {id : String} (hs : OneActive s) :
    OneActive (onReady s h id) := by
  unfold Peers.onReady
  dsimp only
  split
  · rename_i connections _
    obtain ⟨links, fault, heq⟩ := send_eq_with
      { s with
        scheduler := { s.scheduler.addNewWorker ⟨s.scheduler.nextRef, id⟩ with
          nextRef := s.scheduler.nextRef + 1 }
        connections := connections } id .requestManifest
    rw [heq]
    exact hs.of_eq rfl rfl rfl
  · exact hs.of_eq rfl rfl rfl

theorem onResponseManifest {s : System} {id : String} {obj : ManifestObj}
    {order : List Component} (hs : OneActive s)
    (horder : System.Enumerates order s.scheduler.waitingComponents) :
    OneActive (s.onResponseManifest sha256 config id obj order) := by
  unfold System.onResponseManifest
  split
  · exact hs.of_eq rfl rfl rfl
  · rename_i w hw
    split
    · exact hs.of_eq rfl rfl rfl
    · rename_i isNew scheduler hmanifest
      obtain ⟨hactive, hwaiting⟩ := onManifest_containers hmanifest
      split
      · refine hs.proceed fun scheduler' actions hready => ?_
        rcases onWorkerReady_containers hready with ⟨hactive', hwaiting'⟩ |
          ⟨component, hmem, hactive', hwaiting'⟩
        · exact hs.of_eq (hactive'.trans hactive) (hwaiting'.trans hwaiting) rfl
        · -- Only the component that the trial thread waits for is in the waiting set.
          have hin : component ∈ s.scheduler.waitingComponents := by
            rw [← horder.2]
            exact List.mem_toFinset.mpr hmem
          rcases hs with ⟨hnone, hempty | ⟨c, hc, hone⟩⟩ | ⟨_, _, -, hempty, -⟩
          · rw [hempty] at hin
            cases hin
          · obtain rfl : component = c := by
              rw [hone] at hin
              exact Finset.mem_singleton.mp hin
            refine Or.inr ⟨w.id, component, ?_, ?_, hc⟩
            · show scheduler'.activeWorkers.ids = _
              rw [hactive', hactive, PACache.ids_add, hnone]
              rfl
            · show scheduler'.waitingComponents = _
              rw [hwaiting', hwaiting, hone]
              exact Finset.erase_singleton _
          · rw [hempty] at hin
            cases hin
      · exact hs.of_eq hactive hwaiting rfl

theorem onDone {s : System} {id : String} (hs : OneActive s) : OneActive (s.onDone id) := by
  unfold System.onDone
  split
  · exact hs.of_eq rfl rfl rfl
  · rename_i w hw
    split
    · rename_i scheduler hcache
      unfold Scheduler.cacheWorker PACache.remove at hcache
      split at hcache
      · rename_i active hactive
        obtain ⟨hmem, rfl⟩ := guard_eq_some_iff.mp hactive
        obtain rfl := Except.ok.inj hcache
        have hmem : w.id ∈ s.scheduler.activeWorkers.ids := hmem
        rcases hs with ⟨hnone, -⟩ | ⟨j, c, hone, hempty, -⟩
        · rw [hnone] at hmem
          cases hmem
        · refine Or.inl ⟨?_, Or.inl hempty⟩
          rw [hone, List.mem_singleton] at hmem
          show (s.scheduler.activeWorkers.erase w.id).ids = []
          rw [PACache.ids_erase, hone, hmem]
          simp
      · cases hcache
    · exact hs.of_eq rfl rfl rfl

theorem onBye {s : System} {id : String} (hs : OneActive s) : OneActive (s.onBye id) := by
  unfold System.onBye
  split
  · exact hs.of_eq rfl rfl rfl
  · exact hs.of_eq rfl rfl rfl

theorem newComponent {s : System} {component : Component} {launchId : String}
    (hs : OneActive s) (hnone : s.component = .none) :
    OneActive (s.newComponent sha256 config component launchId) := by
  have hidle : s.scheduler.activeWorkers.ids = [] ∧ s.scheduler.waitingComponents = ∅ := by
    rcases hs with ⟨hactive, hempty | ⟨c, hc, -⟩⟩ | ⟨_, c, -, -, hc⟩
    · exact ⟨hactive, hempty⟩
    · rw [hnone] at hc
      cases hc
    · rw [hnone] at hc
      cases hc
  have hstart : ∀ outstanding, OneActive { s with component := outstanding } :=
    fun _ => Or.inl ⟨hidle.1, Or.inl hidle.2⟩
  unfold System.newComponent
  split
  · rename_i w hreuse
    refine (hstart _).proceed fun scheduler actions hassign => ?_
    have hmem := PACache.id_mem_ids (Scheduler.mem_of_findReusable sha256 config hreuse)
    rw [Scheduler.assign_of_mem hmem] at hassign
    obtain ⟨rfl, -⟩ := Prod.mk.inj (Except.ok.inj hassign)
    refine Or.inr ⟨w.id, component, ?_, ?_, rfl⟩
    · simp [hidle.1]
    · simp [hidle.2]
  · refine (hstart _).proceed fun scheduler actions hlaunch => ?_
    obtain ⟨hactive, hwaiting⟩ := launchWorker_containers hlaunch
    exact (hstart (.adding component)).of_eq hactive hwaiting rfl

theorem step {setting : System.Setting} {s t : Peers} {e : Event} (hs : OneActive s.system)
    (hst : step sha256 setting s e = some t) : OneActive t.system := by
  unfold Peers.step at hst
  split at hst
  · cases hst
  cases e with
  | accept =>
      obtain rfl := Option.some.inj hst
      exact hs.of_eq rfl rfl rfl
  | message h id msg order =>
      obtain ⟨⟨-, horder, -⟩, rfl⟩ := guard_eq_some_iff.mp hst
      cases msg with
      | ping =>
          show OneActive (onPing s.system id)
          unfold onPing
          split
          · exact hs
          · exact hs.of_eq rfl rfl rfl
      | ready => exact hs.onReady
      | responseManifest obj => exact hs.onResponseManifest horder
      | done => exact hs.onDone
      | bye => exact hs.onBye
      | other => exact hs
  | newComponent component launchId =>
      obtain ⟨⟨hnone, -⟩, rfl⟩ := guard_eq_some_iff.mp hst
      exact hs.newComponent hnone
  | addWaiting =>
      simp only at hst
      split at hst
      · rename_i component hadding
        obtain rfl := Option.some.inj hst
        rcases hs with ⟨hactive, hempty | ⟨c, hc, -⟩⟩ | ⟨_, c, -, -, hc⟩
        · refine Or.inl ⟨hactive, Or.inr ⟨component, rfl, ?_⟩⟩
          show insert component s.system.scheduler.waitingComponents = _
          rw [hempty]
          rfl
        · rw [hadding] at hc
          cases hc
        · rw [hadding] at hc
          cases hc
      · cases hst
  | finish =>
      obtain ⟨-, rfl⟩ := guard_eq_some_iff.mp hst
      obtain ⟨links, fault, heq⟩ := finish_eq_with s.system
      show OneActive s.system.finish
      rw [heq]
      exact hs.of_eq rfl rfl rfl

end OneActive

end Peers

end SecCask.Coordinator
