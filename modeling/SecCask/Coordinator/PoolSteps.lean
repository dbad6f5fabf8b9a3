import SecCask.Coordinator.PoolInvariant

/-!
# SecCask.Coordinator.PoolSteps

Every step of the coordinator's runs keeps the invariant: one lemma for each thing that
can happen to the busy worker, and one for the workers that are leaving. Two ways lead out
of it: a manifest that does not parse ends the run, and the end of the experiment leaves a
phase in which the scheduler is not touched any more.

A step lemma names the stage before and the stage after, so that the invariant says which
worker the step is about: a message on a link that is not empty comes from the busy worker or
from one that is leaving (`LinkInv.of_down`, `LinkInv.of_up`), and the stage says which message
it is. What is left is to show each field of the invariant for the new stage. The containers of
the scheduler and the connections are two structures for this reason: most steps change one of
them and leave the other as it is.
-/

namespace SecCask.Coordinator

open Scheduling

namespace System

variable {setting : Setting} {numSlot : ℕ} {s : System}

/-! ### The trial thread

A new component finds no busy worker, and makes one: a cached worker runs it, or a worker is
launched for it, into a free slot or into the slot of the worker that is evicted. The bound on
the slots is checked here and nowhere else. -/

/-- A cached worker takes the component. -/
theorem Inv.reuse (hs : Inv setting numSlot s .idle) {w : Worker}
    (hw : w ∈ s.scheduler.cachedWorkers.workers) (component : Component) (launchId : String) :
    Inv setting numSlot ({ s with component := .dispatched component }.proceed launchId
      (s.scheduler.assign w component)) (.running w.id) := by
  have hid : w.id ∈ s.scheduler.cachedWorkers.ids := PACache.id_mem_ids hw
  have hnotEvicted : w.id ∉ s.evicted := fun he => hs.pool.evicted _ he hid
  have hlength := List.length_erase_of_mem hid
  have hpos := List.length_pos_of_mem hid
  obtain ⟨h, hworker, hlink, howner⟩ := hs.net.worker ((hs.net.registered w.id).mpr (Or.inl hid))
  obtain ⟨hdown, hup⟩ := hs.net.quiet w.id hnotEvicted (by simp [Stage.busyIds])
  simp only [proceed, Scheduler.assign_of_mem hid, performAll, List.foldl_cons, List.foldl_nil,
    perform, send, hworker, howner]
  refine ⟨?_, ?_, hs.unfinished, hs.faultless, hs.found, by simp⟩
  · obtain ⟨slots, -, waiting, newIds, activeIds, -, -, evicted, launched, bound, full, refs,
      known, -⟩ := hs.pool
    simp only [Stage.activeIds, Stage.busyIds] at activeIds launched bound full
    constructor <;> simp only [setLink, Scheduler.assigned_activeWorkers,
      Scheduler.assigned_cachedWorkers, Scheduler.assigned_newWorkers, PACache.ids_erase,
      PACache.ids_add, PACache.mem_ids_erase, Stage.busyIds, hlength]
    case slots => simpa using slots
    case fits => exact ⟨component, rfl⟩
    case waiting => simpa [Stage.waiting] using waiting
    case newIds => exact newIds
    case activeIds => simp [Stage.activeIds, activeIds]
    case parked => simp
    case busy => simpa using hnotEvicted
    case evicted => exact fun id he hmem => evicted id he hmem.2
    -- the worker has moved from one cache to the other, so the count over both stands
    case launched => grind
    case bound => grind
    case full => grind
    case refs =>
      intro v hv
      rw [Scheduler.mem_assigned_manifests] at hv
      exact (refs v hv).trans_le (Scheduler.nextRef_le_assigned _ _ _)
    case known =>
      intro v hv
      rw [Scheduler.mem_assigned_manifests]
      rcases hv with hv | hv
      · rcases PACache.mem_workers_add hv with hv | rfl
        · exact known v (Or.inl hv)
        · exact known v (Or.inr hw)
      · exact known v (Or.inr (PACache.mem_workers_erase hv))
    case fresh => simp
  · obtain ⟨-, quiet, leaving, gone, unconnected, unlaunched, owner, pending, workers,
      registered⟩ := hs.net
    have launched := hs.pool.launched
    simp only [Stage.busyIds, Stage.registeredIds] at quiet launched registered
    constructor <;> simp only [setLink, Stage.busyIds, Stage.registeredIds,
      Scheduler.assigned_cachedWorkers, PACache.ids_erase, PACache.mem_ids_erase]
    case carries =>
      refine ⟨h, Or.inl ⟨component, ?_⟩⟩
      simp [hlink, hdown, hup]
    case pending => exact pending
    all_goals grind

/-- A worker is launched into a free slot. -/
theorem Inv.launch (hs : Inv setting numSlot s .idle) {launchId : String}
    (hfresh : launchId ∉ s.launched)
    (hroom : s.scheduler.cachedWorkers.ids.length < numSlot) (component : Component) :
    Inv setting numSlot ({ s with component := .adding component }.proceed launchId
      (.ok (s.scheduler, [.launch]))) (.launching launchId .unconnected) := by
  simp only [proceed, performAll, List.foldl_cons, List.foldl_nil, perform]
  have hnot := (not_congr (hs.pool.launched launchId)).mp hfresh
  refine ⟨?_, ?_, hs.unfinished, hs.faultless, hs.found, by simp⟩
  · obtain ⟨slots, -, waiting, newIds, activeIds, -, -, evicted, launched, bound, full, refs,
      known, -⟩ := hs.pool
    simp only [Stage.newIds, Stage.activeIds, Stage.busyIds]
      at newIds activeIds launched bound full hnot
    constructor <;> simp only [Stage.busyIds]
    case slots => exact slots
    case fits => simp [Stage.Fits]
    case waiting => exact waiting
    case newIds => exact newIds
    case activeIds => exact activeIds
    case parked => simp
    case evicted => exact evicted
    case refs => exact refs
    case known => exact known
    case fresh => simp [List.map_eq_nil_iff.mp newIds]
    all_goals grind
  · obtain ⟨-, quiet, leaving, gone, unconnected, unlaunched, owner, pending, workers,
      registered⟩ := hs.net
    have launched := hs.pool.launched
    simp only [Stage.busyIds, Stage.registeredIds] at quiet launched registered hnot
    constructor <;> simp only [Stage.busyIds, Stage.registeredIds]
    -- an id that has never been launched has nothing on its link
    case carries =>
      have hquiet := quiet launchId (by grind) (by simp)
      have hnone := unlaunched launchId hfresh
      simp only [Stage.Carries]
      cases hlink : s.links launchId
      simp_all
    case pending => exact pending
    all_goals grind

/-- A worker is launched into the slot of an evicted one. -/
theorem Inv.evict (hs : Inv setting numSlot s .idle) {launchId : String}
    (hfresh : launchId ∉ s.launched)
    (hfull : numSlot ≤ s.scheduler.cachedWorkers.ids.length) {w : Worker}
    (hw : w ∈ s.scheduler.cachedWorkers.workers) (component : Component) :
    Inv setting numSlot ({ s with component := .adding component }.proceed launchId
      (.ok ({ s.scheduler with cachedWorkers := s.scheduler.cachedWorkers.erase w.id },
        [.onCacheFull w.id, .launch]))) (.launching launchId .unconnected) := by
  have hid : w.id ∈ s.scheduler.cachedWorkers.ids := PACache.id_mem_ids hw
  have hnotEvicted : w.id ∉ s.evicted := fun he => hs.pool.evicted _ he hid
  have hlength := List.length_erase_of_mem hid
  have hpos := List.length_pos_of_mem hid
  have hnot := (not_congr (hs.pool.launched launchId)).mp hfresh
  obtain ⟨h, hworker, hlink, howner⟩ := hs.net.worker ((hs.net.registered w.id).mpr (Or.inl hid))
  obtain ⟨hdown, hup⟩ := hs.net.quiet w.id hnotEvicted (by simp [Stage.busyIds])
  simp only [proceed, performAll, List.foldl_cons, List.foldl_nil, perform, send, hworker, howner]
  refine ⟨?_, ?_, hs.unfinished, hs.faultless, hs.found, by simp⟩
  · obtain ⟨slots, -, waiting, newIds, activeIds, -, -, evicted, launched, bound, full, refs,
      known, -⟩ := hs.pool
    simp only [Stage.newIds, Stage.activeIds, Stage.busyIds]
      at newIds activeIds launched bound full hnot
    constructor <;> simp only [setLink, Stage.busyIds, PACache.ids_erase, PACache.mem_ids_erase,
      hlength]
    case slots => exact slots
    case fits => simp [Stage.Fits]
    case waiting => exact waiting
    case newIds => exact newIds
    case activeIds => exact activeIds
    case parked => simp
    case refs => exact refs
    case known => exact fun v hv => known v (hv.imp_right PACache.mem_workers_erase)
    case fresh => simp [List.map_eq_nil_iff.mp newIds]
    all_goals grind
  · obtain ⟨-, quiet, leaving, gone, unconnected, unlaunched, owner, pending, workers,
      registered⟩ := hs.net
    have launched := hs.pool.launched
    simp only [Stage.busyIds, Stage.registeredIds] at quiet launched registered hnot
    constructor <;> simp only [setLink, Stage.busyIds, Stage.registeredIds, PACache.ids_erase,
      PACache.mem_ids_erase]
    case carries =>
      have hquiet := quiet launchId (by grind) (by simp)
      have hnone := unlaunched launchId hfresh
      have hne : launchId ≠ w.id := by grind
      simp only [Stage.Carries, Function.update_of_ne hne]
      cases hlink : s.links launchId
      simp_all
    case pending => exact pending
    all_goals grind

theorem Inv.newComponent {sha256 : ByteArray → String} (hs : Inv setting numSlot s .idle)
    (hslots : 0 < numSlot) {launchId : String} (hfresh : launchId ∉ s.launched)
    (component : Component) :
    ∃ stage, Inv setting numSlot
      (s.newComponent sha256 setting.config component launchId) stage := by
  have hactive : s.scheduler.activeWorkers.len = 0 := by
    rw [PACache.len_eq, hs.pool.activeIds]
    rfl
  have hcached := s.scheduler.cachedWorkers.len_eq
  have hnum := hs.pool.slots
  unfold System.newComponent
  cases hfind : s.scheduler.findReusable sha256 setting.config component with
  | some w => exact ⟨_, hs.reuse (Scheduler.mem_of_findReusable _ _ hfind) component launchId⟩
  | none =>
      rcases Scheduler.launchWorker_cases s.scheduler component (by omega) with
        ⟨hroom, heq⟩ | ⟨hfull, w, hw, heq⟩
      · simp only [heq]
        exact ⟨_, hs.launch hfresh (by omega) component⟩
      · simp only [heq]
        exact ⟨_, hs.evict hfresh (by omega) hw component⟩

/-- The component joins the waiting set. -/
theorem Inv.addWaiting {stage : Stage} (hs : Inv setting numSlot s stage) {component : Component}
    (hadding : s.component = .adding component) :
    Inv setting numSlot { s with
      scheduler := s.scheduler.addWaiting component,
      component := .dispatched component } stage := by
  have hwaiting : s.scheduler.waitingComponents = ∅ := by
    rw [hs.pool.waiting, hadding]
    cases stage <;> rfl
  refine ⟨?_, ?_, hs.unfinished, hs.faultless, hs.found, hs.notParked⟩
  · obtain ⟨slots, fits, -, newIds, activeIds, parked, busy, evicted, launched, bound, full, refs,
      known, fresh⟩ := hs.pool
    constructor
    case fits => cases stage <;> simp_all [Stage.Fits]
    case waiting =>
      simp only [Scheduler.addWaiting, hwaiting]
      cases stage <;> simp_all [Stage.Fits, Stage.waiting]
    all_goals assumption
  · obtain ⟨carries, quiet, leaving, gone, unconnected, unlaunched, owner, pending, workers,
      registered⟩ := hs.net
    constructor <;> assumption

/-! ### The workers

The scheduler knows nothing of these steps: a worker connects, or handles the first command on
its link. A change of one link leaves the others as they were, so the two frame lemmas
(`Inv.setLeaving` for a worker that leaves, `Inv.setBusy` for the busy one) only ask about the
link that changes. -/

/-- The launched worker connects. -/
theorem Inv.connect {stage : Stage} (hs : Inv setting numSlot s stage) {id : String}
    (hlaunched : id ∈ s.launched) (hnone : (s.links id).handler = none) :
    ∃ stage', Inv setting numSlot
      { s.setLink id { handler := some s.nextHandler, up := [.ready] } with
        connections := s.connections.accept s.nextHandler
        owner := Function.update s.owner s.nextHandler id
        nextHandler := s.nextHandler + 1 } stage' := by
  obtain rfl : stage = .launching id .unconnected :=
    (hs.net.unconnected id hnone).resolve_left (not_not_intro hlaunched)
  refine ⟨.launching id (.connected s.nextHandler), ?_, ?_, hs.unfinished, hs.faultless,
    hs.found, by simp⟩
  · obtain ⟨slots, fits, waiting, newIds, activeIds, -, busy, evicted, launched, bound, full, refs,
      known, fresh⟩ := hs.pool
    constructor
    case parked => simp
    case fresh => exact fun id' progress hstage w hw => fresh id .unconnected rfl w hw
    all_goals assumption
  · have hbusy := (hs.pool.busy id (by simp [Stage.busyIds])).2
    obtain ⟨-, quiet, leaving, gone, unconnected, unlaunched, owner, pending, workers,
      registered⟩ := hs.net
    simp only [Stage.busyIds, Stage.registeredIds] at quiet registered
    constructor <;> simp only [setLink, Stage.busyIds, Stage.registeredIds]
    case carries => simp [Stage.Carries]
    case pending => simp [Connections.accept, pending, Stage.pending]
    case workers =>
      intro id' w hw
      obtain ⟨h, rfl, hh⟩ := workers id' w hw
      grind
    case registered => exact registered
    all_goals grind

/-- Only the busy worker and the leaving ones have commands to handle. -/
theorem LinkInv.of_down {stage : Stage} (hs : LinkInv s stage) {id : String} {command : Command}
    {rest : List Command} (hdown : (s.links id).down = command :: rest) :
    id ∈ stage.busyIds ∨
      (id ∈ s.evicted ∧ id ∉ s.departed ∧ command = .exit ∧ rest = [] ∧ (s.links id).up = []) := by
  by_cases hbusy : id ∈ stage.busyIds
  · exact Or.inl hbusy
  · right
    have hev : id ∈ s.evicted := by
      by_contra hev
      simp [(hs.quiet id hev hbusy).1] at hdown
    have hdep : id ∉ s.departed := fun hdep => by
      simp [(hs.gone id hdep).2.1] at hdown
    rcases hs.leaving id hev hdep with ⟨hd, hu⟩ | ⟨hd, -⟩
    · rw [hd] at hdown
      obtain ⟨rfl, rfl⟩ := List.cons.inj hdown
      exact ⟨hev, hdep, rfl, rfl, hu⟩
    · simp [hd] at hdown

/-- Only the busy worker and the leaving ones have messages under way. -/
theorem LinkInv.of_up {stage : Stage} (hs : LinkInv s stage) {id : String} {reply : Reply}
    {rest : List Reply} (hup : (s.links id).up = reply :: rest) :
    id ∈ stage.busyIds ∨
      (id ∈ s.evicted ∧ id ∉ s.departed ∧ reply = .bye ∧ rest = [] ∧ (s.links id).down = []) := by
  by_cases hbusy : id ∈ stage.busyIds
  · exact Or.inl hbusy
  · right
    have hev : id ∈ s.evicted := by
      by_contra hev
      simp [(hs.quiet id hev hbusy).2] at hup
    have hdep : id ∉ s.departed := fun hdep => by
      simp [(hs.gone id hdep).2.2] at hup
    rcases hs.leaving id hev hdep with ⟨-, hu⟩ | ⟨hd, hu⟩
    · simp [hu] at hup
    · rw [hu] at hup
      obtain ⟨rfl, rfl⟩ := List.cons.inj hup
      exact ⟨hev, hdep, rfl, rfl, hd⟩

/-- A change of the link of a leaving worker. -/
theorem Inv.setLeaving {stage : Stage} (hs : Inv setting numSlot s stage) {id : String}
    {link : Link}
    (hev : id ∈ s.evicted) (hdep : id ∉ s.departed)
    (hlink : (link.down = [.exit] ∧ link.up = []) ∨ (link.down = [] ∧ link.up = [.bye]))
    (hhandler : link.handler = (s.links id).handler) :
    Inv setting numSlot (s.setLink id link) stage := by
  have hbusy : id ∉ stage.busyIds := fun hb => (hs.pool.busy id hb).2 hev
  refine ⟨?_, ?_, hs.unfinished, hs.faultless, hs.found, hs.notParked⟩
  · obtain ⟨slots, fits, waiting, newIds, activeIds, parked, busy, evicted, launched, bound, full,
      refs, known, fresh⟩ := hs.pool
    constructor <;> assumption
  · obtain ⟨carries, quiet, leaving, gone, unconnected, unlaunched, owner, pending, workers,
      registered⟩ := hs.net
    constructor <;> simp only [setLink]
    case carries =>
      have hframe : ∀ id' ∈ stage.busyIds, Function.update s.links id link id' = s.links id' := by
        grind
      cases stage with
      | idle | parked => trivial
      | launching i progress =>
          have hi := hframe i (by simp [Stage.busyIds])
          cases progress <;> simpa [Stage.Carries, hi] using carries
      | running i =>
          have hi := hframe i (by simp [Stage.busyIds])
          simpa [Stage.Carries, hi] using carries
    case pending => exact pending
    case registered => exact registered
    case workers =>
      intro id' w hw
      obtain ⟨h, rfl, hh⟩ := workers id' w hw
      grind
    all_goals grind

/-- A change of stage that concerns nothing but the link of the busy worker. -/
theorem Inv.setBusy {stage stage' : Stage} (hs : Inv setting numSlot s stage) {id : String}
    {link : Link} (hbusy : stage.busyIds = [id]) (hbusy' : stage'.busyIds = [id])
    (hnew : stage'.newIds = stage.newIds) (hactive : stage'.activeIds = stage.activeIds)
    (hregistered : stage'.registeredIds = stage.registeredIds)
    (hpending : stage'.pending = stage.pending)
    (hfits : stage'.Fits s.component)
    (hwaiting : stage'.waiting s.component = stage.waiting s.component)
    (hlaunching : ∀ progress, stage' = .launching id progress →
      ∃ progress', stage = .launching id progress')
    (hcarries : stage'.Carries (Function.update s.links id link))
    (hhandler : link.handler = (s.links id).handler)
    (hconnected : (s.links id).handler ≠ none) :
    Inv setting numSlot (s.setLink id link) stage' := by
  have hev : id ∉ s.evicted := (hs.pool.busy id (by simp [hbusy])).2
  refine ⟨?_, ?_, hs.unfinished, hs.faultless, hs.found, ?_⟩
  · obtain ⟨slots, fits, waiting, newIds, activeIds, parked, busy, evicted, launched, bound, full,
      refs, known, fresh⟩ := hs.pool
    rw [hbusy] at busy launched bound full
    constructor <;> simp only [setLink, hbusy', hnew, hactive]
    case fits => exact hfits
    case waiting => exact waiting.trans hwaiting.symm
    case parked =>
      intro id' heq
      subst heq
      simp [Stage.busyIds] at hbusy'
    case fresh =>
      intro id' progress heq
      subst heq
      obtain ⟨progress', rfl⟩ := hlaunching progress (by simp_all [Stage.busyIds])
      exact fresh id progress' rfl
    all_goals assumption
  · obtain ⟨carries, quiet, leaving, gone, unconnected, unlaunched, owner, pending, workers,
      registered⟩ := hs.net
    rw [hbusy] at quiet
    constructor <;> simp only [setLink, hbusy', hregistered, hpending]
    case carries => exact hcarries
    -- only the worker being launched may be without a handler, and `id` has one
    case unconnected =>
      intro id' hnone
      by_cases hne : id' = id
      · subst hne
        rw [Function.update_self, hhandler] at hnone
        exact absurd hnone hconnected
      · rw [Function.update_of_ne hne] at hnone
        rcases unconnected id' hnone with hun | rfl
        · exact Or.inl hun
        · simp [Stage.busyIds] at hbusy
          exact absurd hbusy hne
    case pending => exact pending
    case registered => exact registered
    case workers =>
      intro id' w hw
      obtain ⟨h, rfl, hh⟩ := workers id' w hw
      grind
    all_goals grind
  · rintro - id' rfl
    simp [Stage.busyIds] at hbusy'

/-- A worker handles a command. -/
theorem Inv.work {stage : Stage} (hs : Inv setting numSlot s stage) {id : String}
    {obj : ManifestObj} {command : Command} {rest : List Command}
    (hdown : (s.links id).down = command :: rest) :
    ∃ stage', Inv setting numSlot (s.setLink id { s.links id with
      down := rest, up := (s.links id).up ++ replies obj command }) stage' := by
  have hcarries := hs.net.carries
  rcases hs.net.of_down hdown with hbusy | ⟨hev, hdep, rfl, rfl, hup⟩
  · cases stage with
    | idle | parked => simp [Stage.busyIds] at hbusy
    | launching i progress =>
        obtain rfl : id = i := by simpa [Stage.busyIds] using hbusy
        cases progress with
        | registered h =>
            simp only [Stage.Carries] at hcarries
            obtain ⟨rfl, rfl⟩ : Command.requestManifest = command ∧ [] = rest := by
              simpa [hcarries] using hdown
            refine ⟨.launching id (.responded h obj), hs.setBusy rfl rfl rfl rfl rfl rfl
              hs.pool.fits rfl (fun _ _ => ⟨_, rfl⟩) ?_ rfl ?_⟩
            · simp [Stage.Carries, hcarries, replies]
            · simp [hcarries]
        | unconnected | connected | responded =>
            simp only [Stage.Carries] at hcarries
            simp [hcarries] at hdown
    | running i =>
        obtain rfl : id = i := by simpa [Stage.busyIds] using hbusy
        obtain ⟨h, ⟨component, hlink⟩ | ⟨obj', hlink⟩ | hlink⟩ := hcarries
        · obtain ⟨rfl, rfl⟩ : Command.execute component = command ∧ [] = rest := by
            simpa [hlink] using hdown
          refine ⟨.running id, hs.setBusy rfl rfl rfl rfl rfl rfl hs.pool.fits rfl (by simp) ?_
            rfl ?_⟩
          · exact ⟨h, Or.inr (Or.inl ⟨obj, by simp [hlink, replies]⟩)⟩
          · simp [hlink]
        · simp [hlink] at hdown
        · simp [hlink] at hdown
  · exact ⟨stage, hs.setLeaving hev hdep (Or.inr ⟨rfl, by simp [hup, replies]⟩) rfl⟩

/-! ### The coordinator

The messages of the busy worker, in the order in which its stages let them come: `ready`, the
first manifest (after which the worker takes the component it was launched for, or another one
has to wait and it is parked in the cache), the manifest of a finished run, and `done`. A `bye`
comes from an evicted worker, at any stage of the busy one. -/

/-- `ready`: the worker enters both tables and is asked for its manifest. -/
theorem Inv.onReady {id : String} {h : Handler}
    (hs : Inv setting numSlot s (.launching id (.connected h))) :
    Inv setting numSlot ((s.setLink id { s.links id with up := [] }).onReady id)
      (.launching id (.registered h)) := by
  have hlink : s.links id = { handler := some h, up := [.ready] } := hs.net.carries
  have howner : s.owner h = id := (hs.net.owner id h (by rw [hlink])).2
  have hgot := onWorkerGotID_eq (c := s.connections) [] [] (h := h)
    (by simp) hs.net.pending id
  have hself : (s.setLink id { s.links id with up := [] }).links id = { handler := some h } := by
    simp [setLink, hlink]
  have hnew : s.scheduler.newWorkers = [] := List.map_eq_nil_iff.mp hs.pool.newIds
  simp only [System.onReady, hself, Option.bind_some]
  simp only [setLink, hgot, List.isEmpty_nil, if_true, send, Connections.worker,
    AList.lookup_insert, Option.join_some, howner, Function.update_self, hlink]
  refine ⟨?_, ?_, hs.unfinished, hs.faultless, hs.found, by simp⟩
  · obtain ⟨slots, fits, waiting, newIds, activeIds, -, busy, evicted, launched, bound, full,
      refs, known, fresh⟩ := hs.pool
    constructor <;> simp only [Stage.busyIds, Scheduler.addNewWorker, hnew]
    case newIds => rfl
    case parked => simp
    case refs =>
      rintro w (hw | hw)
      · exact (refs w (Or.inl hw)).trans (Nat.lt_succ_self _)
      · obtain rfl := List.mem_singleton.mp hw
        exact Nat.lt_succ_self _
    -- the new worker takes the next reference, above those of all manifests
    case fresh =>
      intro id' progress _ w hw hmem
      obtain rfl := List.mem_singleton.mp hw
      exact absurd (refs _ (Or.inl hmem)) (lt_irrefl _)
    all_goals assumption
  · have hbusy := hs.pool.busy id (by simp [Stage.busyIds])
    obtain ⟨-, quiet, leaving, gone, unconnected, unlaunched, owner, pending, workers,
      registered⟩ := hs.net
    simp only [Stage.busyIds, Stage.registeredIds] at quiet registered
    constructor <;> simp only [Stage.busyIds, Stage.registeredIds]
    case carries => simp [Stage.Carries]
    case pending => rfl
    case workers =>
      intro id' w hw
      by_cases hne : id' = id
      · subst hne
        simp at hw
        exact ⟨h, by simp [hw.symm], by simp⟩
      · rw [AList.lookup_insert_ne hne] at hw
        simpa [hne] using workers id' w hw
    case registered =>
      intro id'
      rw [AList.mem_insert, registered]
      grind [Scheduler.addNewWorker]
    all_goals grind

/-- The manifest of a worker is replaced; nothing else of the pool moves. -/
theorem PoolInv.manifest {stage : Stage} (hs : PoolInv numSlot s stage) {w : Worker} {m : Manifest}
    (hw : w ∈ s.scheduler.manifests) (k : ℕ) :
    PoolInv numSlot { s with scheduler := { s.scheduler with
      manifests := s.scheduler.manifests.insert w m,
      nextRef := s.scheduler.nextRef + k } } stage := by
  obtain ⟨slots, fits, waiting, newIds, activeIds, parked, busy, evicted, launched, bound, full,
    refs, known, fresh⟩ := hs
  constructor
  case refs =>
    intro v hv
    have hv' : v ∈ s.scheduler.manifests ∨ v ∈ s.scheduler.newWorkers := by
      rcases hv with hv | hv
      · rcases (AList.mem_insert _).mp hv with rfl | hv
        · exact Or.inl hw
        · exact Or.inl hv
      · exact Or.inr hv
    exact (refs v hv').trans_le (Nat.le_add_right _ _)
  case known => exact fun v hv => (AList.mem_insert _).mpr (Or.inr (known v hv))
  case fresh =>
    intro id progress hstage v hv hmem
    rcases (AList.mem_insert _).mp hmem with rfl | hmem
    · exact fresh id progress hstage v hv hw
    · exact fresh id progress hstage v hv hmem
  all_goals assumption

theorem onManifest_eq_some {sch sch' : Scheduler} {w : Worker} {obj : ManifestObj} {isNew : Bool}
    (h : sch.onManifest w obj = some (isNew, sch')) :
    isNew = (sch.manifests.lookup w).isNone ∧ ∃ m, sch' =
      { sch with manifests := sch.manifests.insert w m, nextRef := sch.nextRef + 2 } := by
  obtain ⟨⟨isNew', m⟩, hm, heq⟩ := Option.map_eq_some_iff.mp h
  obtain ⟨rfl, rfl⟩ := Prod.mk.inj heq
  exact ⟨onResponseManifest_isNew hm, m, rfl⟩

theorem ids_add_of_notMem {p : PACache} {w : Worker} (hw : w.id ∉ p.ids) :
    (p.add w).ids = p.ids ++ [w.id] := by
  rw [PACache.ids_add, List.erase_of_not_mem hw]

theorem ids_add_erase_of_notMem {p : PACache} {w : Worker} (hw : w.id ∉ p.ids) :
    ((p.add w).erase w.id).ids = p.ids := by
  rw [PACache.ids_erase, ids_add_of_notMem hw, List.erase_append_right _ hw]
  simp

/-- The scheduler when a new worker's manifest has arrived and the worker is cached. -/
def ready (sch : Scheduler) (w : Worker) (m : Manifest) : Scheduler :=
  { sch with
    manifests := sch.manifests.insert w m
    nextRef := sch.nextRef + 2
    cachedWorkers := sch.cachedWorkers.add w }

/-- The new worker gets the component it was launched for. -/
theorem Inv.take {w : Worker} {h : Handler} {obj : ManifestObj}
    (hs : Inv setting numSlot s (.launching w.id (.responded h obj)))
    (hnew : s.scheduler.newWorkers = [w]) {component : Component}
    (hcomponent : s.component = .dispatched component) (m : Manifest) :
    Inv setting numSlot ((s.setLink w.id { s.links w.id with up := [] }).proceed ""
      (({ ready s.scheduler w m with
        waitingComponents := s.scheduler.waitingComponents.erase component
        newWorkers := s.scheduler.newWorkers.erase w } : Scheduler).assign w component))
      (.running w.id) := by
  have hlink : s.links w.id = { handler := some h, up := [.responseManifest obj] } :=
    hs.net.carries
  obtain ⟨h', hworker, hh', howner⟩ := hs.net.worker
    ((hs.net.registered w.id).mpr (Or.inr (Or.inr (by simp [Stage.registeredIds]))))
  obtain rfl : h' = h := by simpa [hlink] using hh'.symm
  have hbusy := hs.pool.busy w.id (by simp [Stage.busyIds])
  have hmemIds : w.id ∈ (s.scheduler.cachedWorkers.add w).ids := by
    simp [ids_add_of_notMem hbusy.1]
  -- the new worker is cached first, so that `assign` finds it where it looks for the idle ones
  have hassign := Scheduler.assign_of_mem (s := { ready s.scheduler w m with
    waitingComponents := s.scheduler.waitingComponents.erase component
    newWorkers := s.scheduler.newWorkers.erase w }) hmemIds component
  rw [hassign]
  simp only [proceed, performAll, List.foldl_cons, List.foldl_nil, perform, send, hworker,
    howner, setLink, Function.update_self, hlink, hnew]
  refine ⟨?_, ?_, hs.unfinished, hs.faultless, hs.found, by simp⟩
  · obtain ⟨slots, -, waiting, -, activeIds, -, busy, evicted, launched, bound, full, refs, known,
      -⟩ := hs.pool
    simp only [Stage.busyIds] at busy launched bound full
    constructor <;> simp only [Scheduler.assigned_activeWorkers,
      Scheduler.assigned_cachedWorkers, Scheduler.assigned_newWorkers,
      Scheduler.assigned_numSlot, Scheduler.assigned_waitingComponents,
      Scheduler.mem_assigned_manifests, ready, ids_add_erase_of_notMem hbusy.1, PACache.ids_add,
      Stage.busyIds]
    case fits => exact ⟨component, hcomponent⟩
    case waiting => simp [waiting, hcomponent, Stage.waiting]
    case newIds => simp [Stage.newIds]
    case activeIds => simp [activeIds, Stage.activeIds]
    case parked => simp
    -- the manifests gain the new worker only, whose reference was below already
    case refs =>
      intro v hv
      have hv' : v ∈ s.scheduler.manifests ∨ v ∈ s.scheduler.newWorkers := by
        rcases hv with hv | hv
        · rcases (AList.mem_insert _).mp hv with rfl | hv
          · exact Or.inr (by simp [hnew])
          · exact Or.inl hv
        · simp at hv
      refine ((refs v hv').trans_le (Nat.le_add_right _ 2)).trans_le ?_
      exact Scheduler.nextRef_le_assigned { ready s.scheduler w m with
        waitingComponents := s.scheduler.waitingComponents.erase component
        newWorkers := [w].erase w } w component
    case known =>
      intro v hv
      rw [AList.mem_insert]
      rcases hv with hv | hv
      · rcases PACache.mem_workers_add hv with hv | rfl
        · exact Or.inr (known v (Or.inl hv))
        · exact Or.inl rfl
      · rcases PACache.mem_workers_add (PACache.mem_workers_erase hv) with hv | rfl
        · exact Or.inr (known v (Or.inr hv))
        · exact Or.inl rfl
    case fresh => simp
    all_goals assumption
  · have launched := hs.pool.launched
    obtain ⟨-, quiet, leaving, gone, unconnected, unlaunched, owner, pending, workers,
      registered⟩ := hs.net
    simp only [Stage.busyIds, Stage.registeredIds] at quiet registered launched
    constructor <;> simp only [Stage.busyIds, Stage.registeredIds,
      Scheduler.assigned_cachedWorkers, ready, ids_add_erase_of_notMem hbusy.1]
    case carries => exact ⟨h', Or.inl ⟨component, by simp⟩⟩
    case pending => exact pending
    case registered => exact registered
    case workers =>
      intro id' w' hw
      obtain ⟨h, rfl, hh⟩ := workers id' w' hw
      grind
    all_goals grind

/-- The new worker is cached without the component. -/
theorem Inv.park {w : Worker} {h : Handler} {obj : ManifestObj}
    (hs : Inv setting numSlot s (.launching w.id (.responded h obj)))
    (hnew : s.scheduler.newWorkers = [w]) (hpasses : ¬ setting.AlwaysTakes) (m : Manifest) :
    Inv setting numSlot ((s.setLink w.id { s.links w.id with up := [] }).proceed ""
      (.ok (ready s.scheduler w m, []))) (.parked w.id) := by
  have hlink : s.links w.id = { handler := some h, up := [.responseManifest obj] } :=
    hs.net.carries
  have hbusy := hs.pool.busy w.id (by simp [Stage.busyIds])
  have hids := ids_add_of_notMem hbusy.1
  simp only [proceed, performAll, List.foldl_nil, setLink, hlink]
  refine ⟨?_, ?_, hs.unfinished, hs.faultless, hs.found, fun htakes => absurd htakes hpasses⟩
  · obtain ⟨slots, fits, waiting, newIds, activeIds, -, busy, evicted, launched, bound, full, refs,
      known, -⟩ := hs.pool
    simp only [Stage.busyIds] at launched bound full
    constructor <;> simp only [ready, hids, Stage.busyIds]
    case parked => simp
    case busy => simp
    case evicted => grind
    case launched => grind
    case bound => simpa using bound
    case full => simpa using full
    case refs =>
      intro v hv
      have hv' : v ∈ s.scheduler.manifests ∨ v ∈ s.scheduler.newWorkers := by
        rcases hv with hv | hv
        · rcases (AList.mem_insert _).mp hv with rfl | hv
          · exact Or.inr (by simp [hnew])
          · exact Or.inl hv
        · exact Or.inr hv
      exact (refs v hv').trans_le (Nat.le_add_right _ 2)
    case known =>
      intro v hv
      rw [AList.mem_insert]
      rcases hv with hv | hv
      · exact Or.inr (known v (Or.inl hv))
      · rcases PACache.mem_workers_add hv with hv | rfl
        · exact Or.inr (known v (Or.inr hv))
        · exact Or.inl rfl
    case fresh => simp
    all_goals assumption
  · have launched := hs.pool.launched
    obtain ⟨-, quiet, leaving, gone, unconnected, unlaunched, owner, pending, workers,
      registered⟩ := hs.net
    simp only [Stage.busyIds, Stage.registeredIds] at quiet registered launched
    constructor <;> simp only [Stage.busyIds, Stage.registeredIds, ready, hids]
    case carries => trivial
    case pending => exact pending
    case workers =>
      intro id' w' hw
      obtain ⟨h, rfl, hh⟩ := workers id' w' hw
      grind
    all_goals grind

/-- The first manifest of a worker: it takes the waiting component or is parked. -/
theorem Inv.firstManifest {sha256 : ByteArray → String} {id : String} {h : Handler}
    {obj : ManifestObj} (hs : Inv setting numSlot s (.launching id (.responded h obj)))
    {order : List Component} (horder : Enumerates order s.scheduler.waitingComponents)
    (hidle : s.isBusy setting = false) {t : System}
    (ht : (s.setLink id { s.links id with up := [] }).onResponseManifest sha256 setting.config
      id obj order = t) :
    t = (s.setLink id { s.links id with up := [] }).fail (.badManifest id) ∨
      ∃ stage, Inv setting numSlot t stage := by
  obtain ⟨w, hnew, rfl⟩ : ∃ w, s.scheduler.newWorkers = [w] ∧ w.id = id := by
    have hids := hs.pool.newIds
    simp only [Stage.newIds] at hids
    exact List.map_eq_singleton_iff.mp hids
  have hget : s.scheduler.getWorker w.id = some w := by
    simp [Scheduler.getWorker, hnew]
  -- the new worker has no manifest yet, so its first one goes through `on_worker_ready`
  have hfresh : s.scheduler.manifests.lookup w = none :=
    AList.lookup_eq_none.mpr (hs.pool.fresh _ _ rfl w (by simp [hnew]))
  have hlinkScheduler : (s.setLink w.id { s.links w.id with up := [] }).scheduler = s.scheduler :=
    rfl
  simp only [System.onResponseManifest, hlinkScheduler, hget] at ht
  cases hman : s.scheduler.onManifest w obj with
  | none =>
      rw [hman] at ht
      exact Or.inl ht.symm
  | some r =>
      right
      obtain ⟨isNew, sch⟩ := r
      obtain ⟨hisNew, m, rfl⟩ := onManifest_eq_some hman
      obtain rfl : isNew = true := by simpa [hfresh] using hisNew
      simp only [hman, if_true, Scheduler.onWorkerReady] at ht
      cases hfind : order.find? (Scheduler.acceptsNew sha256 setting.config
          (ready s.scheduler w m) w) with
      | some component =>
          have hmem : component ∈ s.scheduler.waitingComponents := by
            rw [← horder.2]
            exact List.mem_toFinset.mpr (List.mem_of_find?_eq_some hfind)
          have hcomponent : s.component = .dispatched component := by
            rw [hs.pool.waiting] at hmem
            cases hc : s.component <;> simp_all [Stage.waiting]
          have htake := hs.take hnew hcomponent m
          simp only [ready] at hfind htake
          rw [hfind] at ht
          exact ⟨_, ht ▸ htake⟩
      | none =>
          -- Under a setting that always takes, the component is dispatched by now and the
          -- scheduler accepts it, against `hfind`.
          have hpasses : ¬ setting.AlwaysTakes := by
            intro hex
            obtain ⟨hatomic, hcheck⟩ := hex
            obtain ⟨component, hcomponent⟩ : ∃ component, s.component = .dispatched component := by
              have hfits := hs.pool.fits
              cases hc : s.component with
              | none => exact absurd hc hfits
              | adding component => simp [isBusy, hc, hatomic] at hidle
              | dispatched component => exact ⟨component, rfl⟩
            have hmem : component ∈ order := by
              rw [← List.mem_toFinset, horder.2, hs.pool.waiting, hcomponent]
              simp [Stage.waiting]
            have hrejects := List.find?_eq_none.mp hfind component hmem
            simp [Scheduler.acceptsNew, hcheck] at hrejects
          have hpark := hs.park hnew hpasses m
          simp only [ready] at hfind hpark
          rw [hfind] at ht
          exact ⟨_, ht ▸ hpark⟩

/-- `get_worker` finds the running worker. -/
theorem PoolInv.getWorker_running {id : String} (hs : PoolInv numSlot s (.running id)) :
    ∃ w ∈ s.scheduler.activeWorkers.workers, w.id = id ∧ s.scheduler.getWorker id = some w := by
  obtain ⟨v, hv, rfl⟩ : ∃ v ∈ s.scheduler.activeWorkers.workers, v.id = id := by
    have hid : id ∈ s.scheduler.activeWorkers.ids := by
      rw [hs.activeIds]
      simp [Stage.activeIds]
    rw [← PACache.map_id_workers] at hid
    exact List.mem_map.mp hid
  obtain ⟨w, hget, hid⟩ := Scheduler.exists_getWorker (Or.inr (Or.inl hv))
  refine ⟨w, ?_, hid, hget⟩
  rcases (Scheduler.mem_of_getWorker hget).2 with hw | hw | hw
  · have hnew : s.scheduler.newWorkers = [] := List.map_eq_nil_iff.mp hs.newIds
    simp [hnew] at hw
  · exact hw
  · have hcached := PACache.id_mem_ids hw
    rw [hid] at hcached
    exact absurd hcached (hs.busy v.id (by simp [Stage.busyIds])).1

/-- A later manifest of the running worker. -/
theorem Inv.nextManifest {sha256 : ByteArray → String} {id : String} {obj : ManifestObj}
    (hs : Inv setting numSlot s (.running id)) {h : Handler}
    (hlink : s.links id = { handler := some h, up := [.responseManifest obj, .done] })
    (order : List Component) {t : System}
    (ht : (s.setLink id { s.links id with up := [.done] }).onResponseManifest sha256
      setting.config id obj order = t) :
    t = (s.setLink id { s.links id with up := [.done] }).fail (.badManifest id) ∨
      Inv setting numSlot t (.running id) := by
  have hpop : Inv setting numSlot (s.setLink id { s.links id with up := [.done] })
      (.running id) := by
    refine hs.setBusy rfl rfl rfl rfl rfl rfl hs.pool.fits rfl (by simp) ?_ rfl ?_
    · exact ⟨h, Or.inr (Or.inr (by simp [hlink]))⟩
    · simp [hlink]
  obtain ⟨w, hw, -, hget⟩ := hpop.pool.getWorker_running
  have hknown := hpop.pool.known w (Or.inl hw)
  obtain ⟨m₀, hm₀⟩ := Option.isSome_iff_exists.mp (AList.lookup_isSome.mpr hknown)
  simp only [System.onResponseManifest, hget] at ht
  cases hman : (s.setLink id { s.links id with up := [.done] }).scheduler.onManifest w obj with
  | none =>
      rw [hman] at ht
      exact Or.inl ht.symm
  | some r =>
      right
      obtain ⟨isNew, sch⟩ := r
      obtain ⟨hisNew, m, rfl⟩ := onManifest_eq_some hman
      obtain rfl : isNew = false := by simpa [hm₀] using hisNew
      simp only [hman, Bool.false_eq_true, if_false] at ht
      subst ht
      exact ⟨hpop.pool.manifest hknown 2, by
        obtain ⟨carries, quiet, leaving, gone, unconnected, unlaunched, owner, pending, workers,
          registered⟩ := hpop.net
        constructor <;> assumption, hpop.unfinished, hpop.faultless, hpop.found, hpop.notParked⟩

/-- `done`: the worker is cached and the component is no longer outstanding. -/
theorem Inv.done {id : String} (hs : Inv setting numSlot s (.running id)) {h : Handler}
    (hlink : s.links id = { handler := some h, up := [.done] }) :
    Inv setting numSlot ((s.setLink id { s.links id with up := [] }).onDone id) .idle := by
  obtain ⟨w, hw, rfl, hget⟩ := hs.pool.getWorker_running
  have hactive : s.scheduler.activeWorkers.ids = [w.id] := hs.pool.activeIds
  have hremove := PACache.remove_of_mem (p := s.scheduler.activeWorkers) (w := w)
    (by simp [hactive])
  have hbusy := hs.pool.busy w.id (by simp [Stage.busyIds])
  have hids := ids_add_of_notMem hbusy.1
  simp only [System.onDone, setLink, hget, Scheduler.cacheWorker, hremove, hlink]
  refine ⟨?_, ?_, hs.unfinished, hs.faultless, hs.found, by simp⟩
  · obtain ⟨slots, -, waiting, newIds, -, -, busy, evicted, launched, bound, full, refs, known,
      -⟩ := hs.pool
    simp only [Stage.busyIds] at busy launched bound full
    constructor <;> simp only [hids, Stage.busyIds]
    case slots => exact slots
    case fits => rfl
    case waiting => exact waiting
    case newIds => exact newIds
    case activeIds => simp [hactive, Stage.activeIds]
    case parked => simp
    case bound => simpa using bound
    case full => simpa using full
    case refs => exact refs
    -- the worker goes back to the cache with the manifest it had
    case known =>
      intro v hv
      rcases hv with hv | hv
      · exact known v (Or.inl (PACache.mem_workers_erase hv))
      · rcases PACache.mem_workers_add hv with hv | rfl
        · exact known v (Or.inr hv)
        · exact known v (Or.inl hw)
    case fresh => simp
    all_goals grind
  · have launched := hs.pool.launched
    obtain ⟨-, quiet, leaving, gone, unconnected, unlaunched, owner, pending, workers,
      registered⟩ := hs.net
    simp only [Stage.busyIds, Stage.registeredIds] at quiet registered launched
    constructor <;> simp only [Stage.busyIds, Stage.registeredIds, hids]
    case carries => trivial
    case pending => exact pending
    case workers =>
      intro id' w' hw
      obtain ⟨h, rfl, hh⟩ := workers id' w' hw
      grind
    all_goals grind

/-- `bye`: the worker's entry goes. -/
theorem Inv.bye {stage : Stage} (hs : Inv setting numSlot s stage) {id : String}
    (hev : id ∈ s.evicted) (hdep : id ∉ s.departed) (hdown : (s.links id).down = []) :
    ∃ exited, (s.setLink id { s.links id with up := [] }).onBye id =
        { s.setLink id { s.links id with up := [] } with
          connections := { s.connections with workers := s.connections.workers.erase id }
          departed := id :: s.departed
          exited := exited } ∧
      (exited = true ↔ ∀ id' ∈ s.connections.workers, id' = id) ∧
      Inv setting numSlot ((s.setLink id { s.links id with up := [] }).onBye id) stage := by
  obtain ⟨h, hworker, hlink, -⟩ := hs.net.worker
    ((hs.net.registered id).mpr (Or.inr (Or.inl ⟨hev, hdep⟩)))
  have hworker' : (s.setLink id { s.links id with up := [] }).connections.worker id = some h :=
    hworker
  simp only [System.onBye, hworker']
  refine ⟨_, rfl, ?_, ?_, ?_, hs.unfinished, hs.faultless, hs.found, hs.notParked⟩
  -- the coordinator exits with the last entry
  · have hmem : ∀ id', id' ∈ (s.connections.workers.erase id).keys ↔
        id' ≠ id ∧ id' ∈ s.connections.workers := fun id' =>
      AList.mem_keys.symm.trans AList.mem_erase
    rw [decide_eq_true_iff, List.length_eq_zero_iff, List.eq_nil_iff_forall_not_mem]
    constructor
    · intro hnil id' hid'
      by_contra hne
      exact hnil id' ((hmem id').mpr ⟨hne, hid'⟩)
    · intro hall id' hid'
      obtain ⟨hne, hin⟩ := (hmem id').mp hid'
      exact hne (hall id' hin)
  · obtain ⟨slots, fits, waiting, newIds, activeIds, parked, busy, evicted, launched, bound, full,
      refs, known, fresh⟩ := hs.pool
    constructor <;> assumption
  -- an evicted worker is not the busy one, whose link therefore stays as it is
  · have hbusy : id ∉ stage.busyIds := fun hb => (hs.pool.busy id hb).2 hev
    have hcached := hs.pool.evicted id hev
    have hregbusy : ∀ id' ∈ stage.registeredIds, id' ∈ stage.busyIds := by
      intro id' hid'
      cases stage with
      | idle | parked => simp [Stage.registeredIds] at hid'
      | launching i progress => cases progress <;> simp_all [Stage.registeredIds, Stage.busyIds]
      | running i => simpa [Stage.registeredIds, Stage.busyIds] using hid'
    obtain ⟨carries, quiet, leaving, gone, unconnected, unlaunched, owner, pending, workers,
      registered⟩ := hs.net
    constructor <;> simp only [setLink]
    case carries =>
      have hframe : ∀ id' ∈ stage.busyIds,
          Function.update s.links id { s.links id with up := [] } id' = s.links id' := by
        grind
      cases stage with
      | idle | parked => trivial
      | launching i progress =>
          have hi := hframe i (by simp [Stage.busyIds])
          cases progress <;> simpa [Stage.Carries, hi] using carries
      | running i =>
          have hi := hframe i (by simp [Stage.busyIds])
          simpa [Stage.Carries, hi] using carries
    case pending => exact pending
    case workers =>
      intro id' w' hw
      have hne : id' ≠ id := by
        intro heq
        subst heq
        rw [AList.lookup_erase] at hw
        cases hw
      rw [AList.lookup_erase_ne hne] at hw
      obtain ⟨h, rfl, hh⟩ := workers id' w' hw
      exact ⟨h, rfl, by simpa [hne] using hh⟩
    case registered =>
      intro id'
      rw [AList.mem_erase, registered]
      grind
    all_goals grind

/-! ### The end of the experiment

Behind the end there are only farewells under way, and none of them reaches the scheduler.
`Closing` says less than the invariant and is enough for that. -/

/-- After the experiment only farewells are under way. -/
structure Closing (s : System) : Prop where
  finished : s.finished = true
  component : s.component = .none
  farewell : ∀ id, (∀ command ∈ (s.links id).down, command = .exit) ∧
    (∀ reply ∈ (s.links id).up, reply = .bye)
  connected : ∀ id ∈ s.launched, (s.links id).handler ≠ none

/-- What happens after the experiment leaves the scheduler alone. -/
structure Untouched (s t : System) : Prop where
  scheduler : t.scheduler = s.scheduler
  evicted : t.evicted = s.evicted
  fault : t.fault = s.fault ∨ ∃ id, t.fault = some (.nullHandler id)
  found : t.unknownIds = s.unknownIds

theorem Closing.setLink (hs : Closing s) {id : String} {link : Link}
    (hdown : ∀ command ∈ link.down, command = .exit) (hup : ∀ reply ∈ link.up, reply = .bye)
    (hhandler : link.handler = (s.links id).handler) : Closing (s.setLink id link) := by
  obtain ⟨finished, component, farewell, connected⟩ := hs
  constructor <;> simp only [System.setLink]
  case finished => exact finished
  case component => exact component
  all_goals grind

/-- Telling registered workers to exit. -/
theorem Closing.sendExit (ids : List String) (hs : Closing s)
    (hids : ∀ id ∈ ids, ∃ h, s.connections.worker id = some h) :
    Closing (ids.foldl (fun s id => s.send id .exit) s) ∧
      Untouched s (ids.foldl (fun s id => s.send id .exit) s) := by
  induction ids generalizing s with
  | nil => exact ⟨hs, rfl, rfl, Or.inl rfl, rfl⟩
  | cons id ids ih =>
      obtain ⟨h, hworker⟩ := hids id (by simp)
      have hsend : s.send id .exit = s.setLink (s.owner h) { s.links (s.owner h) with
          down := (s.links (s.owner h)).down ++ [.exit] } := by
        simp only [send, hworker]
      have hnext : Closing (s.send id .exit) := by
        rw [hsend]
        refine hs.setLink ?_ (hs.farewell _).2 rfl
        intro command hc
        rcases List.mem_append.mp hc with hc | hc
        · exact (hs.farewell _).1 command hc
        · exact List.mem_singleton.mp hc
      obtain ⟨hclosing, huntouched⟩ := ih hnext (by
        rw [hsend]
        exact fun id' hid' => hids id' (by simp [hid']))
      refine ⟨hclosing, huntouched.scheduler.trans ?_, huntouched.evicted.trans ?_, ?_,
        huntouched.found.trans ?_⟩
      · rw [hsend]
        rfl
      · rw [hsend]
        rfl
      · have hfault : (s.send id .exit).fault = s.fault := by
          rw [hsend]
          rfl
        rw [← hfault]
        exact huntouched.fault
      · rw [hsend]
        rfl

theorem Inv.finish (hs : Inv setting numSlot s .idle) :
    Closing s.finish ∧ Untouched s s.finish := by
  have hstart : Closing { s with finished := true } := by
    refine ⟨rfl, hs.pool.fits, ?_, ?_⟩
    · intro id
      by_cases hev : id ∈ s.evicted
      · by_cases hdep : id ∈ s.departed
        · obtain ⟨-, hd, hu⟩ := hs.net.gone id hdep
          simp [hd, hu]
        · rcases hs.net.leaving id hev hdep with ⟨hd, hu⟩ | ⟨hd, hu⟩
          · simp [hd, hu]
          · simp [hd, hu]
      · obtain ⟨hd, hu⟩ := hs.net.quiet id hev (by simp [Stage.busyIds])
        simp [hd, hu]
    · intro id hid hnone
      rcases hs.net.unconnected id hnone with hun | hstage
      · exact hun hid
      · cases hstage
  have hkeys : ∀ id ∈ s.connections.workers.keys, ∃ h, s.connections.worker id = some h := by
    intro id hid
    obtain ⟨h, hworker, -⟩ := hs.net.worker (AList.mem_keys.mpr hid)
    exact ⟨h, hworker⟩
  obtain ⟨hclosing, hsched, hevicted, hfault, hfound⟩ :=
    hstart.sendExit s.connections.workers.keys hkeys
  exact ⟨hclosing, hsched, hevicted, hfault, hfound⟩

theorem Closing.step {sha256 : ByteArray → String} {t : System} {e : Event} (hs : Closing s)
    (hst : step sha256 setting s e = some t) : Closing t ∧ Untouched s t := by
  unfold System.step at hst
  split at hst
  · cases hst
  -- the first three events need an experiment that goes on or a component at hand
  cases e with
  | newComponent component launchId => simp [hs.finished] at hst
  | addWaiting => simp [hs.component] at hst
  | finish => simp [hs.finished] at hst
  | connect id =>
      obtain ⟨⟨hlaunched, hnone, -⟩, -⟩ := guard_eq_some_iff.mp hst
      exact absurd hnone (hs.connected id hlaunched)
  | work id obj =>
      have hdown := (hs.farewell id).1
      simp only at hst
      split at hst
      · rename_i command rest heq
        obtain ⟨-, rfl⟩ := guard_eq_some_iff.mp hst
        obtain rfl := hdown command (by simp [heq])
        refine ⟨hs.setLink ?_ ?_ rfl, rfl, rfl, Or.inl rfl, rfl⟩
        · exact fun c hc => hdown c (by simp [heq, hc])
        · intro reply hr
          rcases List.mem_append.mp hr with hr | hr
          · exact (hs.farewell id).2 reply hr
          · exact List.mem_singleton.mp hr
      · cases hst
  | deliver id order =>
      have hup := (hs.farewell id).2
      simp only at hst
      split at hst
      · rename_i reply rest heq
        obtain ⟨-, rfl⟩ := guard_eq_some_iff.mp hst
        obtain rfl := hup reply (by simp [heq])
        have hpop : Closing (s.setLink id { s.links id with up := rest }) :=
          hs.setLink (hs.farewell id).1 (fun r hr => hup r (by simp [heq, hr])) rfl
        obtain ⟨finished, component, farewell, connected⟩ := hpop
        simp only [doActionFromMsg, System.onBye]
        split
        · exact ⟨⟨finished, component, farewell, connected⟩, rfl, rfl, Or.inr ⟨id, rfl⟩, rfl⟩
        · exact ⟨⟨finished, component, farewell, connected⟩, rfl, rfl, Or.inl rfl, rfl⟩
      · cases hst

/-! ### All steps

The step lemmas put together, by the event and by the stage. -/

/-- A bad manifest stops the run where the message has just been taken. -/
def BadManifest (s t : System) : Prop :=
  ∃ id obj rest, (s.links id).up = .responseManifest obj :: rest ∧
    t = (s.setLink id { s.links id with up := rest }).fail (.badManifest id)

theorem Inv.deliver {sha256 : ByteArray → String} {stage : Stage}
    (hs : Inv setting numSlot s stage) {id : String} {reply : Reply} {rest : List Reply}
    (hup : (s.links id).up = reply :: rest) {order : List Component}
    (horder : Enumerates order s.scheduler.waitingComponents) (hidle : s.isBusy setting = false)
    {t : System} (ht : (s.setLink id { s.links id with up := rest }).doActionFromMsg sha256
      setting.config id order reply = t) :
    (∃ stage', Inv setting numSlot t stage') ∨ BadManifest s t := by
  have hcarries := hs.net.carries
  -- a reply comes from the busy worker, or it is the farewell of an evicted one
  rcases hs.net.of_up hup with hbusy | ⟨hev, hdep, rfl, rfl, hdown⟩
  · cases stage with
    | idle | parked => simp [Stage.busyIds] at hbusy
    | launching i progress =>
        obtain rfl : id = i := by simpa [Stage.busyIds] using hbusy
        cases progress with
        | connected h =>
            simp only [Stage.Carries] at hcarries
            obtain ⟨rfl, rfl⟩ : Reply.ready = reply ∧ [] = rest := by simpa [hcarries] using hup
            subst ht
            exact Or.inl ⟨_, hs.onReady⟩
        | responded h obj =>
            simp only [Stage.Carries] at hcarries
            obtain ⟨rfl, rfl⟩ : Reply.responseManifest obj = reply ∧ [] = rest := by
              simpa [hcarries] using hup
            rcases hs.firstManifest horder hidle ht with hbad | hinv
            · exact Or.inr ⟨id, obj, [], hup, hbad⟩
            · exact Or.inl hinv
        | unconnected | registered =>
            simp only [Stage.Carries] at hcarries
            simp [hcarries] at hup
    | running i =>
        obtain rfl : id = i := by simpa [Stage.busyIds] using hbusy
        obtain ⟨h, ⟨component, hlink⟩ | ⟨obj, hlink⟩ | hlink⟩ := hcarries
        · simp [hlink] at hup
        · obtain ⟨rfl, rfl⟩ : Reply.responseManifest obj = reply ∧ [.done] = rest := by
            simpa [hlink] using hup
          rcases hs.nextManifest hlink order ht with hbad | hinv
          · exact Or.inr ⟨id, obj, [.done], hup, hbad⟩
          · exact Or.inl ⟨_, hinv⟩
        · obtain ⟨rfl, rfl⟩ : Reply.done = reply ∧ [] = rest := by simpa [hlink] using hup
          subst ht
          exact Or.inl ⟨_, hs.done hlink⟩
  · obtain ⟨-, -, -, hbye⟩ := hs.bye hev hdep hdown
    exact Or.inl ⟨stage, ht ▸ hbye⟩

/-- One step of a run that has not reached the end of the experiment. -/
theorem Inv.step {sha256 : ByteArray → String} {stage : Stage} {t : System} {e : Event}
    (hs : Inv setting numSlot s stage) (hslots : 0 < numSlot)
    (hst : step sha256 setting s e = some t) :
    (∃ stage', Inv setting numSlot t stage') ∨ BadManifest s t ∨
      (e = .finish ∧ Closing t ∧ Untouched s t) := by
  -- without a component at hand no worker is busy
  have hidle : s.component = .none → stage = .idle := by
    intro hnone
    have hfits := hs.pool.fits
    cases stage <;> simp_all [Stage.Fits]
  unfold System.step at hst
  split at hst
  · cases hst
  cases e with
  | newComponent component launchId =>
      obtain ⟨⟨hnone, -, hfresh⟩, rfl⟩ := guard_eq_some_iff.mp hst
      obtain rfl := hidle hnone
      exact Or.inl (hs.newComponent hslots hfresh component)
  | addWaiting =>
      simp only at hst
      split at hst
      · rename_i component hadding
        obtain rfl := Option.some.inj hst
        exact Or.inl ⟨stage, hs.addWaiting hadding⟩
      · cases hst
  | connect id =>
      obtain ⟨⟨hlaunched, hnone, -⟩, rfl⟩ := guard_eq_some_iff.mp hst
      exact Or.inl (hs.connect hlaunched hnone)
  | work id obj =>
      simp only at hst
      split at hst
      · rename_i command rest hdown
        obtain ⟨-, rfl⟩ := guard_eq_some_iff.mp hst
        exact Or.inl (hs.work hdown)
      · cases hst
  | deliver id order =>
      simp only at hst
      split at hst
      · rename_i reply rest hup
        obtain ⟨⟨horder, hbusy⟩, hdeliver⟩ := guard_eq_some_iff.mp hst
        exact (hs.deliver hup horder hbusy hdeliver).imp_right Or.inl
      · cases hst
  | finish =>
      obtain ⟨⟨hnone, -⟩, rfl⟩ := guard_eq_some_iff.mp hst
      obtain rfl := hidle hnone
      exact Or.inr (Or.inr ⟨rfl, hs.finish⟩)

end System

end SecCask.Coordinator
