import SecCask.Scheduling.WorkerCache
import Mathlib.Data.Finset.Basic

/-!
# SecCask.Scheduling.Scheduler

`scheduler.py`. The scheduler's methods call back into the coordinator; here they return
what they asked of it as a list of actions, and the errors they raise as `Except` values.
-/

namespace SecCask.Scheduling

/-- The switches of the `scheduler` section of the configuration. -/
structure Config where
  /-- `__debug_singleton_worker` -/
  debugSingletonWorker : Bool := false
  enableCompatibilityCheckOnCaching : Bool := true
  enableCompatibilityCheckOnNewWorker : Bool := false
  /-- `__debug_disable_level3_check` -/
  debugDisableLevel3Check : Bool := false
  deriving DecidableEq

/-- What a scheduler method asks of the coordinator. -/
inductive Action
  /-- The caller's callback: send the component to the worker with this id. -/
  | execute (id : String) (component : Component)
  /-- `cpp_coordinator.on_cache_full` -/
  | onCacheFull (id : String)
  /-- `_execute_new_worker_command` -/
  | launch
  deriving DecidableEq

inductive SchedulerError
  /-- `WorkerPoolFull` -/
  | workerPoolFull
  /-- `popitem` on an empty cache. -/
  | emptyCache
  /-- `cache_worker` or `activate_worker` does not find the worker. -/
  | keyError
  /-- `from_version_str` on a recorded version. -/
  | versionError
  deriving DecidableEq, Repr

structure Scheduler where
  activeWorkers : PACache := .empty
  cachedWorkers : PACache := .empty
  newWorkers : List Worker := []
  numSlot : ℕ
  waitingComponents : Finset Component := ∅
  /-- The manifest of each connection object. -/
  manifests : Manifests := ∅
  /-- The next reference a new object gets; `0` is the default version. -/
  nextRef : ℕ := 1
  deriving DecidableEq

/-- `Scheduler.is_compatible`, for a worker with the given manifest. -/
def isCompatible (sha256 : ByteArray → String) (config : Config) (worker : Option Manifest)
    (component : Component) : Bool :=
  match worker with
  | none => false
  | some m =>
      let cm := component.manifest
      -- level 1, level 2, level 3
      (m.name == cm.name && m.version.same cm.version) ||
      m.packagesHash sha256 == cm.packagesHash sha256 ||
      (!config.debugDisableLevel3Check &&
        cm.packages.entries.all fun e => m.packages.lookup e.1 == some e.2)

namespace Scheduler

variable (sha256 : ByteArray → String) (config : Config)

def addNewWorker (s : Scheduler) (w : Worker) : Scheduler :=
  { s with newWorkers := s.newWorkers ++ [w] }

def getWorker (s : Scheduler) (id : String) : Option Worker :=
  (s.newWorkers ++ s.activeWorkers.workers ++ s.cachedWorkers.workers).find? (·.id == id)

def cacheWorker (s : Scheduler) (w : Worker) : Except SchedulerError Scheduler :=
  match s.activeWorkers.remove w with
  | some active =>
      .ok { s with activeWorkers := active, cachedWorkers := s.cachedWorkers.add w }
  | none => .error .keyError

def activateWorker (s : Scheduler) (w : Worker) : Except SchedulerError Scheduler :=
  match s.cachedWorkers.remove w with
  | some cached =>
      .ok { s with cachedWorkers := cached, activeWorkers := s.activeWorkers.add w }
  | none => .error .keyError

def isWorkerSetFull (s : Scheduler) : Bool :=
  s.numSlot ≤ s.activeWorkers.len + s.cachedWorkers.len

def recordLastExecutedComponent (s : Scheduler) (w : Worker) (component : Component) :
    Except SchedulerError Scheduler :=
  match s.manifests.lookup w with
  | none => .ok s
  | some m =>
      let cm := component.manifest
      match VersionObject.ofVersionStr s.nextRef cm.version.value.versionStr with
      | some version =>
          .ok { s with
            manifests := s.manifests.insert w { m with name := cm.name, version := version }
            nextRef := s.nextRef + 1 }
      | none => .error .versionError

/-- Activate a worker and give it the component. -/
def assign (s : Scheduler) (w : Worker) (component : Component) :
    Except SchedulerError (Scheduler × List Action) := do
  let s ← s.activateWorker w
  let s ← s.recordLastExecutedComponent w component
  return (s, [.execute w.id component])

/-- The loop of `get_compatible_worker_sync`: the first cached worker it takes. -/
def findReusable (s : Scheduler) (component : Component) : Option Worker :=
  s.cachedWorkers.workers.find? fun w =>
    config.debugSingletonWorker ||
      (config.enableCompatibilityCheckOnCaching &&
        isCompatible sha256 config (s.manifests.lookup w) component)

/-- `get_compatible_worker_sync` behind the loop, up to the launch. -/
def launchWorker (s : Scheduler) (component : Component) :
    Except SchedulerError (Scheduler × List Action) :=
  if s.numSlot ≤ s.activeWorkers.len then .error .workerPoolFull
  else if s.isWorkerSetFull then
    match s.cachedWorkers.removeEnd s.manifests component with
    | some (w, cached) => .ok ({ s with cachedWorkers := cached }, [.onCacheFull w.id, .launch])
    | none => .error .emptyCache
  else .ok (s, [.launch])

/-- `self._waiting_components.add(component)` -/
def addWaiting (s : Scheduler) (component : Component) : Scheduler :=
  { s with waitingComponents := insert component s.waitingComponents }

/-- `Scheduler.get_compatible_worker_sync` without interruption. -/
def getCompatibleWorkerSync (s : Scheduler) (component : Component) :
    Except SchedulerError (Scheduler × List Action) :=
  match s.findReusable sha256 config component with
  | some w => s.assign w component
  | none => (s.launchWorker component).map fun (s, actions) => (s.addWaiting component, actions)

/-- `on_worker_ready` takes the component for the worker. -/
def acceptsNew (s : Scheduler) (w : Worker) (component : Component) : Bool :=
  !config.enableCompatibilityCheckOnNewWorker ||
    isCompatible sha256 config (s.manifests.lookup w) component

/-- `Scheduler.on_worker_ready`; `order` is the order in which the set of waiting components
is iterated. -/
def onWorkerReady (s : Scheduler) (w : Worker) (order : List Component) :
    Except SchedulerError (Scheduler × List Action) :=
  let s := { s with cachedWorkers := s.cachedWorkers.add w }
  match order.find? (s.acceptsNew sha256 config w) with
  | some component =>
      let s := { s with
        waitingComponents := s.waitingComponents.erase component
        newWorkers := s.newWorkers.erase w }
      s.assign w component
  | none => .ok (s, [])

/-- `worker.on_msg` on a `response_manifest`, for a worker of the scheduler. -/
def onManifest (s : Scheduler) (w : Worker) (obj : ManifestObj) : Option (Bool × Scheduler) :=
  (onResponseManifest s.nextRef (s.manifests.lookup w) obj).map fun (isNew, m) =>
    (isNew, { s with manifests := s.manifests.insert w m, nextRef := s.nextRef + 2 })

/-! ### What the methods do -/

/-- The scheduler with the component recorded on the worker. -/
def recorded (s : Scheduler) (w : Worker) (component : Component) : Scheduler :=
  match s.manifests.lookup w with
  | none => s
  | some m =>
      let cm := component.manifest
      let version : VersionObject := ⟨s.nextRef, cm.version.value, cm.version.branchOk⟩
      { s with
        manifests := s.manifests.insert w { m with name := cm.name, version := version }
        nextRef := s.nextRef + 1 }

/-- Versions of component manifests read back, so that recording never fails. -/
theorem recordLastExecutedComponent_eq (s : Scheduler) (w : Worker) (component : Component) :
    s.recordLastExecutedComponent w component = .ok (s.recorded w component) := by
  unfold recordLastExecutedComponent recorded
  cases s.manifests.lookup w with
  | none => rfl
  | some m => simp only [VersionObject.ofVersionStr_versionStr]

section Recorded

variable (s : Scheduler) (w : Worker) (component : Component)

@[simp] theorem recorded_activeWorkers :
    (s.recorded w component).activeWorkers = s.activeWorkers := by
  unfold recorded
  split <;> rfl

@[simp] theorem recorded_cachedWorkers :
    (s.recorded w component).cachedWorkers = s.cachedWorkers := by
  unfold recorded
  split <;> rfl

@[simp] theorem recorded_newWorkers : (s.recorded w component).newWorkers = s.newWorkers := by
  unfold recorded
  split <;> rfl

@[simp] theorem recorded_numSlot : (s.recorded w component).numSlot = s.numSlot := by
  unfold recorded
  split <;> rfl

@[simp] theorem recorded_waitingComponents :
    (s.recorded w component).waitingComponents = s.waitingComponents := by
  unfold recorded
  split <;> rfl

/-- Recording creates no manifest and drops none. -/
@[simp] theorem mem_recorded_manifests (v : Worker) :
    v ∈ (s.recorded w component).manifests ↔ v ∈ s.manifests := by
  unfold recorded
  cases hlookup : s.manifests.lookup w with
  | none => rfl
  | some m =>
      have hw : w ∈ s.manifests := AList.lookup_isSome.mp (by rw [hlookup]; rfl)
      simp only [AList.mem_insert]
      constructor
      · rintro (rfl | hv)
        · exact hw
        · exact hv
      · exact Or.inr

theorem nextRef_le_recorded : s.nextRef ≤ (s.recorded w component).nextRef := by
  unfold recorded
  split
  · exact le_rfl
  · exact Nat.le_succ _

end Recorded

/-- The scheduler after `assign` on a cached worker. -/
def assigned (s : Scheduler) (w : Worker) (component : Component) : Scheduler :=
  ({ s with
    cachedWorkers := s.cachedWorkers.erase w.id
    activeWorkers := s.activeWorkers.add w } : Scheduler).recorded w component

section Assigned

variable (s : Scheduler) (w : Worker) (component : Component)

@[simp] theorem assigned_activeWorkers :
    (s.assigned w component).activeWorkers = s.activeWorkers.add w :=
  recorded_activeWorkers _ _ _

@[simp] theorem assigned_cachedWorkers :
    (s.assigned w component).cachedWorkers = s.cachedWorkers.erase w.id :=
  recorded_cachedWorkers _ _ _

@[simp] theorem assigned_newWorkers : (s.assigned w component).newWorkers = s.newWorkers :=
  recorded_newWorkers _ _ _

@[simp] theorem assigned_numSlot : (s.assigned w component).numSlot = s.numSlot :=
  recorded_numSlot _ _ _

@[simp] theorem assigned_waitingComponents :
    (s.assigned w component).waitingComponents = s.waitingComponents :=
  recorded_waitingComponents _ _ _

@[simp] theorem mem_assigned_manifests (v : Worker) :
    v ∈ (s.assigned w component).manifests ↔ v ∈ s.manifests :=
  mem_recorded_manifests _ _ _ _

theorem nextRef_le_assigned : s.nextRef ≤ (s.assigned w component).nextRef :=
  nextRef_le_recorded
    { s with
      cachedWorkers := s.cachedWorkers.erase w.id
      activeWorkers := s.activeWorkers.add w } w component

end Assigned

/-- A cached worker can be assigned. -/
theorem assign_of_mem {s : Scheduler} {w : Worker} (hw : w.id ∈ s.cachedWorkers.ids)
    (component : Component) :
    s.assign w component = .ok (s.assigned w component, [.execute w.id component]) := by
  simp only [assign, activateWorker, PACache.remove_of_mem hw, bind, Except.bind,
    recordLastExecutedComponent_eq]
  rfl

theorem mem_of_findReusable {s : Scheduler} {component : Component} {w : Worker}
    (h : s.findReusable sha256 config component = some w) : w ∈ s.cachedWorkers.workers :=
  List.mem_of_find?_eq_some h

/-- Where there is room for another active worker, a worker is launched; when the set is
full, it takes the place of an evicted cached worker. -/
theorem launchWorker_cases (s : Scheduler) (component : Component)
    (hroom : s.activeWorkers.len < s.numSlot) :
    (s.activeWorkers.len + s.cachedWorkers.len < s.numSlot ∧
      s.launchWorker component = .ok (s, [.launch])) ∨
    (s.numSlot ≤ s.activeWorkers.len + s.cachedWorkers.len ∧
      ∃ w ∈ s.cachedWorkers.workers, s.launchWorker component = .ok
        ({ s with cachedWorkers := s.cachedWorkers.erase w.id },
          [.onCacheFull w.id, .launch])) := by
  unfold launchWorker isWorkerSetFull
  rw [if_neg (by omega)]
  by_cases hfull : s.numSlot ≤ s.activeWorkers.len + s.cachedWorkers.len
  · right
    have hne : s.cachedWorkers.ids ≠ [] := by
      intro hnil
      have hlen := s.cachedWorkers.len_eq
      rw [hnil, List.length_nil] at hlen
      omega
    obtain ⟨w, hw, hremove⟩ := PACache.removeEnd_of_ne_nil hne s.manifests component
    refine ⟨hfull, w, hw, ?_⟩
    simp [hfull, hremove]
  · left
    refine ⟨by omega, ?_⟩
    simp [hfull]

/-- `on_worker_ready` never raises: the worker it may assign has just been cached. -/
theorem onWorkerReady_ok (s : Scheduler) (w : Worker) (order : List Component) :
    ∃ t actions, s.onWorkerReady sha256 config w order = .ok (t, actions) ∧
      t.waitingComponents =
        match order.find? (s.acceptsNew sha256 config w) with
        | some component => s.waitingComponents.erase component
        | none => s.waitingComponents := by
  cases hfind : order.find? (s.acceptsNew sha256 config w) with
  | none =>
      have hcached : order.find? (Scheduler.acceptsNew sha256 config
          { s with cachedWorkers := s.cachedWorkers.add w } w) = none := hfind
      refine ⟨{ s with cachedWorkers := s.cachedWorkers.add w }, [], ?_, rfl⟩
      simp only [onWorkerReady, hcached]
  | some component =>
      have hcached : order.find? (Scheduler.acceptsNew sha256 config
          { s with cachedWorkers := s.cachedWorkers.add w } w) = some component := hfind
      let u : Scheduler := { s with
        cachedWorkers := s.cachedWorkers.add w
        waitingComponents := s.waitingComponents.erase component
        newWorkers := s.newWorkers.erase w }
      have hmem : w.id ∈ u.cachedWorkers.ids := by simp [u]
      refine ⟨u.assigned w component, [.execute w.id component], ?_, ?_⟩
      · simp only [onWorkerReady, hcached]
        exact assign_of_mem hmem component
      · exact assigned_waitingComponents u w component

/-- `get_worker` finds a worker that is in one of the three containers. -/
theorem exists_getWorker {s : Scheduler} {w : Worker}
    (hw : w ∈ s.newWorkers ∨ w ∈ s.activeWorkers.workers ∨ w ∈ s.cachedWorkers.workers) :
    ∃ v, s.getWorker w.id = some v ∧ v.id = w.id := by
  have hmem : w ∈ s.newWorkers ++ s.activeWorkers.workers ++ s.cachedWorkers.workers := by
    simpa [or_assoc] using hw
  obtain ⟨v, hv⟩ : ∃ v, s.getWorker w.id = some v := by
    rw [← Option.isSome_iff_exists, getWorker, List.find?_isSome]
    exact ⟨w, hmem, by simp⟩
  refine ⟨v, hv, ?_⟩
  simpa using List.find?_some hv

theorem mem_of_getWorker {s : Scheduler} {id : String} {w : Worker}
    (h : s.getWorker id = some w) :
    w.id = id ∧
      (w ∈ s.newWorkers ∨ w ∈ s.activeWorkers.workers ∨ w ∈ s.cachedWorkers.workers) := by
  have hmem := List.mem_of_find?_eq_some h
  exact ⟨by simpa using List.find?_some h, by simpa [or_assoc] using hmem⟩

end Scheduler

end SecCask.Scheduling
