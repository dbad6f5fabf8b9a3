import SecCask.Coordinator.Registration
import SecCask.Scheduling.Scheduler
import Mathlib.Logic.Function.Basic

/-!
# SecCask.Coordinator.Dispatch

The coordinator at work: the trial thread hands components to the scheduler one at a time,
and `Coordinator::DoActionFromMsg` handles the messages of the workers. The workers are
those the scheduler launched, each behind a connection that delivers in order, and follow
the protocol: `ready` on connecting, `response_manifest` when asked, `response_manifest`
and `done` after a component, `bye` in reply to `exit`.

A run is any order of the trial thread's calls, the workers' moves and the deliveries.
`get_compatible_worker_sync` may be split behind the launch of a worker, where it has not
yet put the component into the waiting set.
-/

namespace SecCask.Coordinator

open Scheduling

/-- A message to a worker. -/
inductive Command
  | requestManifest
  | execute (component : Component)
  | exit
  deriving DecidableEq

/-- A message from a worker. -/
inductive Reply
  | ready
  | responseManifest (obj : ManifestObj)
  | done
  | bye
  deriving DecidableEq

/-- A launched worker and its connection. -/
structure Link where
  /-- The coordinator's end, once the worker has connected. -/
  handler : Option Handler := none
  /-- Commands on their way to the worker. -/
  down : List Command := []
  /-- Replies on their way to the coordinator. -/
  up : List Reply := []
  deriving DecidableEq

/-- Where the trial thread is with the current component. -/
inductive Outstanding
  | none
  /-- In `get_compatible_worker_sync`, between the launch and `_waiting_components.add`. -/
  | adding (component : Component)
  /-- The call has returned; the trial thread is blocked until `done`. -/
  | dispatched (component : Component)
  deriving DecidableEq

/-- What ends a run before its time. -/
inductive Fault
  /-- The scheduler raised an error. -/
  | scheduler (error : SchedulerError)
  /-- A call through a null pointer. -/
  | nullHandler (id : String)
  /-- The reported manifest does not parse. -/
  | badManifest (id : String)
  deriving DecidableEq

structure System where
  scheduler : Scheduler
  connections : Connections := {}
  /-- Which worker is at the other end of a handler. -/
  owner : Handler → String := fun _ => ""
  nextHandler : Handler := 0
  links : String → Link := fun _ => {}
  /-- The ids of all workers launched so far. -/
  launched : List String := []
  /-- Those that `OnCacheFull` told to exit. -/
  evicted : List String := []
  /-- Those whose `bye` was handled. -/
  departed : List String := []
  component : Outstanding := .none
  /-- `OnNewLifecycle` has finished running the experiment. -/
  finished : Bool := false
  /-- `_exit(0)` -/
  exited : Bool := false
  fault : Option Fault := none
  /-- The log lines `No worker with ID`. -/
  unknownIds : List String := []

namespace System

def init (numSlot : ℕ) : System := { scheduler := { numSlot := numSlot } }

/-- How the coordinator runs. -/
structure Setting where
  config : Config
  /-- Scheduler methods run without interruption. -/
  atomicCalls : Bool

def setLink (s : System) (id : String) (link : Link) : System :=
  { s with links := Function.update s.links id link }

/-- `workers_[id]->Send(…)` -/
def send (s : System) (id : String) (command : Command) : System :=
  match s.connections.worker id with
  | some h =>
      let link := s.links (s.owner h)
      s.setLink (s.owner h) { link with down := link.down ++ [command] }
  | none => { s with fault := some (.nullHandler id) }

/-- What the coordinator does for the scheduler; a worker that is launched gets the id
`launchId`. -/
def perform (launchId : String) (s : System) : Action → System
  | .execute id component => s.send id (.execute component)
  | .onCacheFull id => { s.send id .exit with evicted := id :: s.evicted }
  | .launch => { s with launched := launchId :: s.launched }

def performAll (launchId : String) (s : System) (actions : List Action) : System :=
  actions.foldl (perform launchId) s

def fail (s : System) (fault : Fault) : System := { s with fault := some fault }

/-- Continue with the scheduler's state and actions, or stop at its error. -/
def proceed (s : System) (launchId : String)
    (result : Except SchedulerError (Scheduler × List Action)) : System :=
  match result with
  | .ok (scheduler, actions) => performAll launchId { s with scheduler := scheduler } actions
  | .error e => s.fail (.scheduler e)

variable (sha256 : ByteArray → String) (config : Config)

/-- The task of `OnNewComponent`: `get_compatible_worker_sync` up to the launch. -/
def newComponent (s : System) (component : Component) (launchId : String) : System :=
  match s.scheduler.findReusable sha256 config component with
  | some w =>
      { s with component := .dispatched component }.proceed launchId
        (s.scheduler.assign w component)
  | none =>
      { s with component := .adding component }.proceed launchId
        (s.scheduler.launchWorker component)

/-- What a worker answers to a command; `obj` is its manifest at that time. -/
def replies (obj : ManifestObj) : Command → List Reply
  | .requestManifest => [.responseManifest obj]
  | .execute _ => [.responseManifest obj, .done]
  | .exit => [.bye]

/-! ### The branches of `DoActionFromMsg` -/

def onReady (s : System) (id : String) : System :=
  let w : Worker := ⟨s.scheduler.nextRef, id⟩
  let scheduler := { s.scheduler.addNewWorker w with nextRef := s.scheduler.nextRef + 1 }
  match (s.links id).handler.bind fun h => s.connections.onWorkerGotID h id with
  | some connections =>
      { s with scheduler := scheduler, connections := connections }.send id .requestManifest
  | none => s.fail (.nullHandler id)

def onResponseManifest (s : System) (id : String) (obj : ManifestObj) (order : List Component) :
    System :=
  match s.scheduler.getWorker id with
  | none => { s with unknownIds := id :: s.unknownIds }
  | some w =>
      match s.scheduler.onManifest w obj with
      | none => s.fail (.badManifest id)
      | some (isNew, scheduler) =>
          if isNew then s.proceed "" (scheduler.onWorkerReady sha256 config w order)
          else { s with scheduler := scheduler }

def onDone (s : System) (id : String) : System :=
  match s.scheduler.getWorker id with
  | none => { s with unknownIds := id :: s.unknownIds }
  | some w =>
      match s.scheduler.cacheWorker w with
      | .ok scheduler => { s with scheduler := scheduler, component := .none }
      | .error e => s.fail (.scheduler e)

def onBye (s : System) (id : String) : System :=
  match s.connections.worker id with
  | none => s.fail (.nullHandler id)
  | some _ =>
      let workers := s.connections.workers.erase id
      { s with
        connections := { s.connections with workers := workers }
        departed := id :: s.departed
        exited := decide (workers.keys.length = 0) }

/-- `DoActionFromMsg`; `order` is the iteration order of the waiting set. -/
def doActionFromMsg (s : System) (id : String) (order : List Component) : Reply → System
  | .ready => s.onReady id
  | .responseManifest obj => s.onResponseManifest sha256 config id obj order
  | .done => s.onDone id
  | .bye => s.onBye id

/-- The end of `OnNewLifecycle`: every worker is told to exit. -/
def finish (s : System) : System :=
  s.connections.workers.keys.foldl (fun s id => s.send id .exit) { s with finished := true }

/-! ### Runs -/

inductive Event
  /-- The trial thread calls `OnNewComponent`; a worker launched for it would get this id. -/
  | newComponent (component : Component) (launchId : String)
  /-- The rest of `get_compatible_worker_sync` after a launch. -/
  | addWaiting
  /-- A launched worker connects and sends `ready`. -/
  | connect (id : String)
  /-- A worker handles its next command. -/
  | work (id : String) (obj : ManifestObj)
  /-- The coordinator handles the next message of a worker. -/
  | deliver (id : String) (order : List Component)
  /-- The experiment is over. -/
  | finish
  deriving DecidableEq

/-- A call of the scheduler is under way and must not be interrupted. -/
def isBusy (setting : Setting) (s : System) : Bool :=
  match s.component with
  | .adding _ => setting.atomicCalls
  | _ => false

/-- The iteration order of a set lists its members, each once. -/
def Enumerates (order : List Component) (set : Finset Component) : Prop :=
  order.Nodup ∧ order.toFinset = set

instance (order : List Component) (set : Finset Component) : Decidable (Enumerates order set) :=
  inferInstanceAs (Decidable (_ ∧ _))

/-- One step; nothing moves after a fault or an exit. -/
def step (setting : Setting) (s : System) (e : Event) : Option System :=
  if s.fault.isSome || s.exited then none
  else match e with
  | .newComponent component launchId =>
      if s.component = .none ∧ s.finished = false ∧ launchId ∉ s.launched then
        some (s.newComponent sha256 setting.config component launchId)
      else none
  | .addWaiting =>
      match s.component with
      | .adding component =>
          some { s with
            scheduler := s.scheduler.addWaiting component, component := .dispatched component }
      | _ => none
  | .connect id =>
      if id ∈ s.launched ∧ (s.links id).handler = none ∧ s.isBusy setting = false then
        some { s.setLink id { handler := some s.nextHandler, up := [.ready] } with
          connections := s.connections.accept s.nextHandler
          owner := Function.update s.owner s.nextHandler id
          nextHandler := s.nextHandler + 1 }
      else none
  | .work id obj =>
      match (s.links id).down with
      | command :: rest =>
          if s.isBusy setting = false then
            some (s.setLink id { s.links id with
              down := rest, up := (s.links id).up ++ replies obj command })
          else none
      | [] => none
  | .deliver id order =>
      match (s.links id).up with
      | reply :: rest =>
          if Enumerates order s.scheduler.waitingComponents ∧ s.isBusy setting = false then
            some ((s.setLink id { s.links id with up := rest }).doActionFromMsg sha256
              setting.config id order reply)
          else none
      | [] => none
  | .finish =>
      if s.component = .none ∧ s.finished = false then some s.finish else none

end System

end SecCask.Coordinator
