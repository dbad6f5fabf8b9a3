import SecCask.Coordinator.Dispatch

/-!
# SecCask.Coordinator.PoolInvariant

The invariant of the coordinator's runs and what it says about the scheduler's pool.

With one component at a time, at most one worker is not idle in the cache: the one
launched for the component, or the one that executes it. `Stage` names that worker and how
far it has come, and the invariant gives the contents of every container, channel and
table as a function of the stage. Launched workers count against the slots from the
launch on, which is what keeps the pool within its bound.
-/

namespace SecCask.Coordinator

open Scheduling

namespace System

/-- How far a launched worker has come. -/
inductive Progress
  | unconnected
  /-- Connected; `ready` is on its way. -/
  | connected (h : Handler)
  /-- Registered; `request_manifest` is on its way. -/
  | registered (h : Handler)
  /-- `response_manifest` is on its way. -/
  | responded (h : Handler) (obj : ManifestObj)

/-- Which worker the outstanding component depends on. -/
inductive Stage
  | idle
  /-- Launched for the component and not yet through `on_worker_ready`. -/
  | launching (id : String) (progress : Progress)
  /-- Through `on_worker_ready`, which did not give it the component. -/
  | parked (id : String)
  | running (id : String)

namespace Stage

/-- The worker in `_new_workers`. -/
def newIds : Stage → List String
  | .launching id (.registered _) | .launching id (.responded _ _) | .parked id => [id]
  | _ => []

/-- The worker in `_active_workers`. -/
def activeIds : Stage → List String
  | .running id => [id]
  | _ => []

/-- The worker that is neither idle nor leaving. -/
def busyIds : Stage → List String
  | .launching id _ | .running id => [id]
  | _ => []

/-- The busy worker, once it has an entry in `workers_`. -/
def registeredIds : Stage → List String
  | .launching id (.registered _) | .launching id (.responded _ _) | .running id => [id]
  | _ => []

/-- The handlers in `new_workers_`. -/
def pending : Stage → List Handler
  | .launching _ (.connected h) => [h]
  | _ => []

/-- What the connection of the busy worker carries. -/
def Carries (links : String → Link) : Stage → Prop
  | .idle | .parked _ => True
  | .launching id .unconnected => links id = {}
  | .launching id (.connected h) => links id = { handler := some h, up := [.ready] }
  | .launching id (.registered h) =>
      links id = { handler := some h, down := [.requestManifest] }
  | .launching id (.responded h obj) =>
      links id = { handler := some h, up := [.responseManifest obj] }
  | .running id => ∃ h,
      (∃ component, links id = { handler := some h, down := [.execute component] }) ∨
      (∃ obj, links id = { handler := some h, up := [.responseManifest obj, .done] }) ∨
      links id = { handler := some h, up := [.done] }

/-- Where the trial thread is. -/
def Fits (component : Outstanding) : Stage → Prop
  | .idle => component = .none
  | .launching _ _ | .parked _ => component ≠ .none
  | .running _ => ∃ c, component = .dispatched c

/-- The waiting set. -/
def waiting (component : Outstanding) : Stage → Finset Component
  | .launching _ _ | .parked _ =>
      match component with
      | .dispatched c => {c}
      | _ => ∅
  | _ => ∅

end Stage

/-- The scheduler's containers in a stage. -/
structure PoolInv (numSlot : ℕ) (s : System) (stage : Stage) : Prop where
  slots : s.scheduler.numSlot = numSlot
  fits : stage.Fits s.component
  waiting : s.scheduler.waitingComponents = stage.waiting s.component
  newIds : s.scheduler.newWorkers.map Worker.id = stage.newIds
  activeIds : s.scheduler.activeWorkers.ids = stage.activeIds
  parked : ∀ id, stage = .parked id → id ∈ s.scheduler.cachedWorkers.ids
  busy : ∀ id ∈ stage.busyIds, id ∉ s.scheduler.cachedWorkers.ids ∧ id ∉ s.evicted
  evicted : ∀ id ∈ s.evicted, id ∉ s.scheduler.cachedWorkers.ids
  launched : ∀ id, id ∈ s.launched ↔
    id ∈ s.scheduler.cachedWorkers.ids ∨ id ∈ s.evicted ∨ id ∈ stage.busyIds
  /-- Slots are taken from the launch on. -/
  bound : s.scheduler.cachedWorkers.ids.length + stage.busyIds.length ≤ numSlot
  /-- Once a worker was evicted, every slot stays taken. -/
  full : s.evicted ≠ [] →
    s.scheduler.cachedWorkers.ids.length + stage.busyIds.length = numSlot
  refs : ∀ w, w ∈ s.scheduler.manifests ∨ w ∈ s.scheduler.newWorkers →
    w.ref < s.scheduler.nextRef
  known : ∀ w, w ∈ s.scheduler.activeWorkers.workers ∨ w ∈ s.scheduler.cachedWorkers.workers →
    w ∈ s.scheduler.manifests
  fresh : ∀ id progress, stage = .launching id progress →
    ∀ w ∈ s.scheduler.newWorkers, w ∉ s.scheduler.manifests

/-- The connections in a stage. -/
structure LinkInv (s : System) (stage : Stage) : Prop where
  carries : stage.Carries s.links
  quiet : ∀ id, id ∉ s.evicted → id ∉ stage.busyIds →
    (s.links id).down = [] ∧ (s.links id).up = []
  leaving : ∀ id ∈ s.evicted, id ∉ s.departed →
    ((s.links id).down = [.exit] ∧ (s.links id).up = []) ∨
    ((s.links id).down = [] ∧ (s.links id).up = [.bye])
  gone : ∀ id ∈ s.departed, id ∈ s.evicted ∧ (s.links id).down = [] ∧ (s.links id).up = []
  unconnected : ∀ id, (s.links id).handler = none →
    id ∉ s.launched ∨ stage = .launching id .unconnected
  unlaunched : ∀ id, id ∉ s.launched → (s.links id).handler = none
  owner : ∀ id h, (s.links id).handler = some h → h < s.nextHandler ∧ s.owner h = id
  pending : s.connections.newWorkers = stage.pending.map some
  workers : ∀ id w, s.connections.workers.lookup id = some w →
    ∃ h, w = some h ∧ (s.links id).handler = some h
  registered : ∀ id, id ∈ s.connections.workers ↔
    id ∈ s.scheduler.cachedWorkers.ids ∨ (id ∈ s.evicted ∧ id ∉ s.departed) ∨
      id ∈ stage.registeredIds

/-- Nothing lets `on_worker_ready` pass over the component a worker was launched for. -/
def Setting.AlwaysTakes (setting : Setting) : Prop :=
  setting.atomicCalls = true ∧ setting.config.enableCompatibilityCheckOnNewWorker = false

/-- The invariant up to the end of the experiment. -/
structure Inv (setting : Setting) (numSlot : ℕ) (s : System) (stage : Stage) : Prop where
  pool : PoolInv numSlot s stage
  net : LinkInv s stage
  unfinished : s.finished = false
  faultless : s.fault = none
  found : s.unknownIds = []
  notParked : setting.AlwaysTakes → ∀ id, stage ≠ .parked id

theorem inv_init (setting : Setting) (numSlot : ℕ) : Inv setting numSlot (init numSlot) .idle where
  pool := {
    slots := rfl
    fits := rfl
    waiting := rfl
    newIds := rfl
    activeIds := rfl
    parked := by simp
    busy := by simp [Stage.busyIds]
    evicted := by simp [init]
    launched := by simp [init, Stage.busyIds]
    bound := by simp [init, Stage.busyIds]
    full := by simp [init]
    refs := by simp [init]
    known := by simp [init, PACache.workers, OrderedDict.values, PACache.empty]
    fresh := by simp }
  net := {
    carries := trivial
    quiet := fun _ _ _ => ⟨rfl, rfl⟩
    leaving := by simp [init]
    gone := by simp [init]
    unconnected := by simp [init]
    unlaunched := fun _ _ => rfl
    owner := by simp [init]
    pending := rfl
    workers := by simp [init]
    registered := by simp [init, Stage.registeredIds] }
  unfinished := rfl
  faultless := rfl
  found := rfl
  notParked := by simp

/-! ### Sending to a registered worker -/

/-- A registered worker has a live entry, and the handler there is its own. -/
theorem LinkInv.worker {s : System} {stage : Stage} (hs : LinkInv s stage) {id : String}
    (hid : id ∈ s.connections.workers) :
    ∃ h, s.connections.worker id = some h ∧ (s.links id).handler = some h ∧ s.owner h = id := by
  obtain ⟨w, hw⟩ := Option.isSome_iff_exists.mp (AList.lookup_isSome.mpr hid)
  obtain ⟨h, rfl, hlink⟩ := hs.workers id w hw
  exact ⟨h, by simp [Connections.worker, hw], hlink, (hs.owner id h hlink).2⟩

theorem links_setLink_self (s : System) (id : String) (link : Link) :
    (s.setLink id link).links id = link := by
  simp [setLink]

theorem links_setLink_of_ne (s : System) {id id' : String} (hne : id' ≠ id) (link : Link) :
    (s.setLink id link).links id' = s.links id' := by
  simp [setLink, hne]

end System

end SecCask.Coordinator
