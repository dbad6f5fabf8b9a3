import SecCask.Coordinator.Exit
import SecCask.Lib.Refinement
import Mathlib.Algebra.Order.BigOperators.Group.List
import Mathlib.Algebra.Order.Ring.Nat

/-!
# SecCask.Coordinator.Delivery

What the coordinator is for: it has the trial thread's components executed, one after the
other. `Job` says so without workers, pools and messages: a component is submitted, it is
executed once, and only then the trial thread goes on. The coordinator refines it, whatever
the configuration, the order of events and the answers of the workers, and between two
calls of the trial thread it can only move a bounded number of times.
-/

namespace SecCask.Coordinator

open Scheduling

/-- What can be seen of a component from outside. -/
inductive Shown
  | submitted (component : Component)
  /-- The worker with this id starts the component. -/
  | executed (id : String) (component : Component)
  | completed
  deriving DecidableEq

/-- What has become of the trial thread's component. -/
inductive Job
  | free
  | owed (component : Component)
  | performed (component : Component)
  deriving DecidableEq

/-- One component at a time, and each is executed exactly once. -/
def Job.step : Job → Shown → Option Job
  | .free, .submitted component => some (.owed component)
  | .owed component, .executed _ component' =>
      if component' = component then some (.performed component) else none
  | .performed _, .completed => some .free
  | _, _ => none

/-- The components that a run shows as submitted. -/
def submitted (shown : List Shown) : List Component :=
  shown.filterMap fun o => match o with | .submitted component => some component | _ => none

/-- The components that a run shows as executed. -/
def executed (shown : List Shown) : List Component :=
  shown.filterMap fun o => match o with | .executed _ component => some component | _ => none

/-- The component that is still to be executed. -/
def Job.owes : Job → List Component
  | .owed component => [component]
  | _ => []

/-- Whatever is submitted has been executed, in the same order, or is still owed. -/
theorem Job.submitted_eq {job job' : Job} {shown : List Shown}
    (h : Exec Job.step job shown job') :
    job.owes ++ submitted shown = executed shown ++ job'.owes := by
  induction h with
  | nil => simp [submitted, executed]
  | @cons job job₁ job' o shown hst _ ih =>
      -- the enabled pairs are submitting, executing and completing
      cases job <;> cases o <;> simp only [Job.step, reduceCtorEq] at hst
      case free.submitted component =>
        obtain rfl := Option.some.inj hst
        simpa [submitted, executed, owes] using ih
      case owed.executed component id component' =>
        obtain ⟨rfl, rfl⟩ := guard_eq_some_iff.mp hst
        simpa [submitted, executed, owes] using ih
      case performed.completed component =>
        obtain rfl := Option.some.inj hst
        simpa [submitted, executed, owes] using ih

/-- The component the trial thread waits for. -/
def Outstanding.current : Outstanding → Option Component
  | .none => Option.none
  | .adding component | .dispatched component => some component

namespace System

variable {sha256 : ByteArray → String} {setting : Setting} {numSlot : ℕ} {s t : System}

/-- All events but the trial thread's own decisions. -/
def Event.Internal : Event → Prop
  | .newComponent _ _ | .finish => False
  | _ => True

/-- What a step shows. -/
def shows (s : System) : Event → List Shown
  | .newComponent component _ => [.submitted component]
  | .work id _ =>
      match (s.links id).down.head? with
      | some (.execute component) => [.executed id component]
      | _ => []
  | .deliver id _ => if (s.links id).up.head? = some .done then [.completed] else []
  | .addWaiting | .connect _ | .finish => []

/-- Moves left to a leaving worker and its `bye`. -/
def farewells (s : System) (id : String) : ℕ :=
  2 * (s.links id).down.length + (s.links id).up.length

namespace Stage

/-- What has become of the component in a stage. -/
def Does (s : System) (job : Job) : Stage → Prop
  | .idle => job = .free
  | .launching _ _ | .parked _ => ∃ c, s.component.current = some c ∧ job = .owed c
  | .running id => ∃ c, s.component = .dispatched c ∧
      (((s.links id).down = [.execute c] ∧ job = .owed c) ∨
        ((s.links id).down = [] ∧ job = .performed c))

/-- Moves left to the busy worker and its messages. -/
def left (s : System) : Stage → ℕ
  | .idle | .parked _ => 0
  | .launching _ .unconnected => 7
  | .launching _ (.connected _) => 6
  | .launching _ (.registered _) => 5
  | .launching _ (.responded _ _) => 4
  | .running id => 3 * (s.links id).down.length + (s.links id).up.length

/-- A bound on the moves before the trial thread's next decision. -/
def rank (s : System) (stage : Stage) : ℕ :=
  (match s.component with | .adding _ => 1 | _ => 0) + stage.left s +
    (s.evicted.map s.farewells).sum

end Stage

/-- A step as the levels above see it. -/
def Advances (setting : Setting) (numSlot : ℕ) (s : System) (stage : Stage) (e : Event)
    (t : System) : Prop :=
  ∃ stage', Inv setting numSlot t stage' ∧
    (∀ job, stage.Does s job → ∃ job', Exec Job.step job (s.shows e) job' ∧ stage'.Does t job') ∧
    (e.Internal → stage'.rank t < stage.rank s)

/-! ### The trial thread -/

/-- The busy worker of a stage is given a component, or one is launched for it. -/
theorem Inv.newComponent_advances (hs : Inv setting numSlot s .idle) (hslots : 0 < numSlot)
    {launchId : String} (hfresh : launchId ∉ s.launched) (component : Component) :
    Advances setting numSlot s .idle (.newComponent component launchId)
      (s.newComponent sha256 setting.config component launchId) := by
  have hactive : s.scheduler.activeWorkers.len = 0 := by
    rw [PACache.len_eq, hs.pool.activeIds]
    rfl
  have hcached := s.scheduler.cachedWorkers.len_eq
  have hnum := hs.pool.slots
  -- the component is owed, whichever worker is to execute it
  have hadvances : ∀ {t : System} {stage : Stage}, Inv setting numSlot t stage →
      stage.Does t (.owed component) →
      Advances setting numSlot s .idle (.newComponent component launchId) t := by
    intro t stage hinv hdoes
    refine ⟨stage, hinv, ?_, fun h => h.elim⟩
    intro job hjob
    obtain rfl : job = .free := hjob
    exact ⟨_, Exec.single rfl, hdoes⟩
  unfold System.newComponent
  cases hfind : s.scheduler.findReusable sha256 setting.config component with
  | some w =>
      have hw := Scheduler.mem_of_findReusable _ _ hfind
      have hid : w.id ∈ s.scheduler.cachedWorkers.ids := PACache.id_mem_ids hw
      have hnotEvicted : w.id ∉ s.evicted := fun he => hs.pool.evicted _ he hid
      obtain ⟨h, hworker, -, howner⟩ :=
        hs.net.worker ((hs.net.registered w.id).mpr (Or.inl hid))
      obtain ⟨hdown, -⟩ := hs.net.quiet w.id hnotEvicted (by simp [Stage.busyIds])
      refine hadvances (hs.reuse hw component launchId) ?_
      simp only [Stage.Does, proceed, Scheduler.assign_of_mem hid, performAll, List.foldl_cons,
        List.foldl_nil, perform, send, hworker, howner, setLink, Function.update_self, hdown]
      exact ⟨component, rfl, Or.inl ⟨rfl, rfl⟩⟩
  | none =>
      rcases Scheduler.launchWorker_cases s.scheduler component (by omega) with
        ⟨hroom, heq⟩ | ⟨hfull, w, hw, heq⟩
      · simp only [heq]
        exact hadvances (hs.launch hfresh (by omega) component) ⟨component, rfl, rfl⟩
      · simp only [heq]
        refine hadvances (hs.evict hfresh (by omega) hw component) ⟨component, ?_, rfl⟩
        obtain ⟨h, hworker, -⟩ := hs.net.worker
          ((hs.net.registered w.id).mpr (Or.inl (PACache.id_mem_ids hw)))
        simp only [proceed, performAll, List.foldl_cons, List.foldl_nil, perform, send, hworker]
        rfl

theorem Inv.addWaiting_advances {stage : Stage} (hs : Inv setting numSlot s stage)
    {component : Component} (hadding : s.component = .adding component) :
    Advances setting numSlot s stage .addWaiting { s with
      scheduler := s.scheduler.addWaiting component,
      component := .dispatched component } := by
  refine ⟨stage, hs.addWaiting hadding, ?_, ?_⟩
  · intro job hjob
    refine ⟨job, Exec.nil, ?_⟩
    have hfits := hs.pool.fits
    cases stage with
    | idle => exact hjob
    | launching id progress | parked id =>
        obtain ⟨c, hc, rfl⟩ := hjob
        rw [hadding] at hc
        exact ⟨c, hc, rfl⟩
    | running id =>
        obtain ⟨c, hc⟩ := hfits
        rw [hadding] at hc
        cases hc
  · intro _
    have hleft : stage.left { s with
        scheduler := s.scheduler.addWaiting component,
        component := .dispatched component } = stage.left s := by
      cases stage with
      | launching id progress => cases progress <;> rfl
      | idle | parked id | running id => rfl
    have hfarewells : System.farewells { s with
        scheduler := s.scheduler.addWaiting component,
        component := .dispatched component } = s.farewells := rfl
    simp only [Stage.rank, hleft, hfarewells, hadding]
    omega

/-! ### Links -/

/-- Another link of a leaving worker lets the others' farewells be. -/
theorem sum_farewells_setLink (s : System) {id : String} (hid : id ∉ s.evicted) (link : Link) :
    (s.evicted.map (s.setLink id link).farewells).sum = (s.evicted.map s.farewells).sum := by
  congr 1
  refine List.map_congr_left fun id' hid' => ?_
  have hne : id' ≠ id := fun heq => hid (heq ▸ hid')
  simp only [farewells, links_setLink_of_ne s hne]

/-- A leaving worker comes closer to its end. -/
theorem sum_farewells_setLink_lt (s : System) {id : String} (hid : id ∈ s.evicted) {link : Link}
    (hlt : 2 * link.down.length + link.up.length < s.farewells id) :
    (s.evicted.map (s.setLink id link).farewells).sum < (s.evicted.map s.farewells).sum := by
  refine List.sum_lt_sum _ _ ?_ ⟨id, hid, ?_⟩
  · intro id' _
    by_cases hne : id' = id
    · subst hne
      simpa only [farewells, links_setLink_self] using hlt.le
    · simp only [farewells, links_setLink_of_ne s hne, le_refl]
  · simpa only [farewells, links_setLink_self] using hlt

/-- What a leaving worker does is no concern of the component. -/
theorem Inv.leaving_advances {stage : Stage} (hs : Inv setting numSlot s stage) {id : String}
    (hev : id ∈ s.evicted) {link : Link} (hinv : Inv setting numSlot t stage)
    (hcomponent : t.component = s.component) (hevicted : t.evicted = s.evicted)
    (hlinks : t.links = (s.setLink id link).links)
    (hlt : 2 * link.down.length + link.up.length < s.farewells id) {e : Event}
    (hshows : s.shows e = []) : Advances setting numSlot s stage e t := by
  have hbusy : ∀ i ∈ stage.busyIds, t.links i = s.links i := by
    intro i hi
    have hne : i ≠ id := fun heq => (hs.pool.busy i hi).2 (heq ▸ hev)
    rw [hlinks, links_setLink_of_ne s hne]
  refine ⟨stage, hinv, ?_, ?_⟩
  · intro job hjob
    rw [hshows]
    refine ⟨job, Exec.nil, ?_⟩
    cases stage with
    | idle => exact hjob
    | launching i progress | parked i => simpa only [Stage.Does, hcomponent] using hjob
    | running i =>
        simpa only [Stage.Does, hcomponent, hbusy i (by simp [Stage.busyIds])] using hjob
  · intro _
    have hleft : stage.left t = stage.left s := by
      cases stage with
      | launching i progress => cases progress <;> rfl
      | idle | parked i => rfl
      | running i => simp only [Stage.left, hbusy i (by simp [Stage.busyIds])]
    have hfarewells : t.farewells = (s.setLink id link).farewells := by
      funext i
      simp only [farewells, hlinks]
    simp only [Stage.rank, hcomponent, hleft, hevicted, hfarewells]
    exact Nat.add_lt_add_left (sum_farewells_setLink_lt s hev hlt) _

/-- The busy worker gets one message further. -/
theorem Inv.busy_advances {stage stage' : Stage} (hs : Inv setting numSlot s stage) {id : String}
    (hid : id ∈ stage.busyIds) {link : Link} (hinv : Inv setting numSlot t stage')
    (hcomponent : t.component = s.component) (hevicted : t.evicted = s.evicted)
    (hlinks : t.links = (s.setLink id link).links) {e : Event}
    (hdoes : ∀ job, stage.Does s job →
      ∃ job', Exec Job.step job (s.shows e) job' ∧ stage'.Does t job')
    (hlt : stage'.left t < stage.left s) : Advances setting numSlot s stage e t := by
  refine ⟨stage', hinv, hdoes, fun _ => ?_⟩
  have hfarewells : t.farewells = (s.setLink id link).farewells := by
    funext i
    simp only [farewells, hlinks]
  simp only [Stage.rank, hcomponent, hevicted, hfarewells,
    sum_farewells_setLink s (hs.pool.busy id hid).2]
  omega

/-! ### The workers -/

theorem Inv.connect_advances {stage : Stage} (hs : Inv setting numSlot s stage) {id : String}
    (hlaunched : id ∈ s.launched) (hnone : (s.links id).handler = none) :
    Advances setting numSlot s stage (.connect id)
      { s.setLink id { handler := some s.nextHandler, up := [.ready] } with
        connections := s.connections.accept s.nextHandler
        owner := Function.update s.owner s.nextHandler id
        nextHandler := s.nextHandler + 1 } := by
  obtain rfl : stage = .launching id .unconnected :=
    (hs.net.unconnected id hnone).resolve_left (not_not_intro hlaunched)
  obtain ⟨stage', hinv⟩ := hs.connect hlaunched hnone
  -- the handler in `new_workers_` shows which stage comes next
  have hpending := hinv.net.pending
  simp only [Connections.accept, hs.net.pending, Stage.pending] at hpending
  obtain ⟨i, h, rfl⟩ : ∃ i h, stage' = .launching i (.connected h) := by
    cases stage' with
    | launching i progress =>
        cases progress with
        | connected h => exact ⟨i, h, rfl⟩
        | unconnected | registered | responded => simp at hpending
    | idle | parked | running => simp at hpending
  refine hs.busy_advances (show id ∈ _ by simp [Stage.busyIds]) hinv rfl rfl rfl ?_ ?_
  · intro job hjob
    exact ⟨job, Exec.nil, hjob⟩
  · simp [Stage.left]

theorem Inv.work_advances {stage : Stage} (hs : Inv setting numSlot s stage) {id : String}
    {obj : ManifestObj} {command : Command} {rest : List Command}
    (hdown : (s.links id).down = command :: rest) :
    Advances setting numSlot s stage (.work id obj) (s.setLink id { s.links id with
      down := rest, up := (s.links id).up ++ replies obj command }) := by
  have hcarries := hs.net.carries
  rcases hs.net.of_down hdown with hbusy | ⟨hev, hdep, rfl, rfl, hup⟩
  · cases stage with
    | idle | parked => simp [Stage.busyIds] at hbusy
    | launching i progress =>
        obtain rfl : id = i := by simpa [Stage.busyIds] using hbusy
        cases progress with
        | registered h =>
            simp only [Stage.Carries] at hcarries
            obtain ⟨rfl, rfl⟩ : Command.requestManifest = command ∧ [] = rest := by
              simpa [hcarries] using hdown
            have hinv : Inv setting numSlot (s.setLink id { s.links id with
                down := [], up := (s.links id).up ++ replies obj .requestManifest })
                (.launching id (.responded h obj)) := by
              refine hs.setBusy rfl rfl rfl rfl rfl rfl hs.pool.fits rfl (fun _ _ => ⟨_, rfl⟩) ?_
                rfl ?_
              · simp [Stage.Carries, hcarries, replies]
              · simp [hcarries]
            refine hs.busy_advances (by simp [Stage.busyIds]) hinv rfl rfl rfl ?_ ?_
            · intro job hjob
              refine ⟨job, ?_, hjob⟩
              simp only [shows, hdown, List.head?_cons]
              exact Exec.nil
            · simp [Stage.left]
        | unconnected | connected | responded =>
            simp only [Stage.Carries] at hcarries
            simp [hcarries] at hdown
    | running i =>
        obtain rfl : id = i := by simpa [Stage.busyIds] using hbusy
        obtain ⟨h, ⟨component, hlink⟩ | ⟨obj', hlink⟩ | hlink⟩ := hcarries
        · obtain ⟨rfl, rfl⟩ : Command.execute component = command ∧ [] = rest := by
            simpa [hlink] using hdown
          have hinv : Inv setting numSlot (s.setLink id { s.links id with
              down := [], up := (s.links id).up ++ replies obj (.execute component) })
              (.running id) := by
            refine hs.setBusy rfl rfl rfl rfl rfl rfl hs.pool.fits rfl (by simp) ?_ rfl ?_
            · exact ⟨h, Or.inr (Or.inl ⟨obj, by simp [hlink, replies]⟩)⟩
            · simp [hlink]
          refine hs.busy_advances (by simp [Stage.busyIds]) hinv rfl rfl rfl ?_ ?_
          -- the owed component is the one on the link
          · intro job hjob
            obtain ⟨c, hc, ⟨hd, rfl⟩ | ⟨hd, -⟩⟩ := hjob
            · obtain rfl : component = c := by simpa [hlink] using hd
              refine ⟨.performed component, ?_, component, hc, Or.inr ⟨?_, rfl⟩⟩
              · simp only [shows, hdown, List.head?_cons]
                exact Exec.single (by simp [Job.step])
              · simp only [links_setLink_self]
            · simp [hlink] at hd
          · simp [Stage.left, links_setLink_self, hlink, replies]
        · simp [hlink] at hdown
        · simp [hlink] at hdown
  · have hinv : Inv setting numSlot (s.setLink id { s.links id with
        down := [], up := (s.links id).up ++ replies obj .exit }) stage :=
      hs.setLeaving hev hdep (Or.inr ⟨rfl, by simp [hup, replies]⟩) rfl
    refine hs.leaving_advances hev hinv rfl rfl rfl ?_ ?_
    · simp [farewells, hdown, hup, replies]
    · simp only [shows, hdown, List.head?_cons]

/-! ### The coordinator -/

/-- Taking `ready` off the link and registering the worker. -/
theorem Inv.onReady_advances {id : String} {h : Handler}
    (hs : Inv setting numSlot s (.launching id (.connected h))) (order : List Component) :
    Advances setting numSlot s (.launching id (.connected h)) (.deliver id order)
      ((s.setLink id { s.links id with up := [] }).onReady id) := by
  have hlink : s.links id = { handler := some h, up := [.ready] } := hs.net.carries
  have howner : s.owner h = id := (hs.net.owner id h (by rw [hlink])).2
  have hgot := onWorkerGotID_eq (c := s.connections) [] [] (h := h)
    (by simp) hs.net.pending id
  have hself : (s.setLink id { s.links id with up := [] }).links id = { handler := some h } := by
    simp [setLink, hlink]
  have hinv := hs.onReady
  have hcomponent : ((s.setLink id { s.links id with up := [] }).onReady id).component =
        s.component ∧
      ((s.setLink id { s.links id with up := [] }).onReady id).evicted = s.evicted ∧
      ((s.setLink id { s.links id with up := [] }).onReady id).links =
        (s.setLink id { handler := some h, down := [.requestManifest] }).links := by
    simp only [System.onReady, hself, Option.bind_some]
    simp only [setLink, hgot, List.isEmpty_nil, if_true, send, Connections.worker,
      AList.lookup_insert, Option.join_some, howner, Function.update_self, hlink,
      Function.update_idem, List.nil_append, and_self]
  obtain ⟨hcomponent, hevicted, hlinks⟩ := hcomponent
  refine hs.busy_advances (by simp [Stage.busyIds]) hinv hcomponent hevicted hlinks ?_ ?_
  · intro job hjob
    obtain ⟨c, hc, rfl⟩ := hjob
    refine ⟨_, ?_, c, hcomponent ▸ hc, rfl⟩
    simp only [shows, hlink, List.head?_cons, Option.some.injEq, reduceCtorEq, if_false]
    exact Exec.nil
  · simp [Stage.left]

/-- The new worker gets the component it was launched for. -/
theorem Inv.take_advances {w : Worker} {h : Handler} {obj : ManifestObj}
    (hs : Inv setting numSlot s (.launching w.id (.responded h obj)))
    (hnew : s.scheduler.newWorkers = [w]) {component : Component}
    (hcomponent : s.component = .dispatched component) (m : Manifest) (order : List Component) :
    Advances setting numSlot s (.launching w.id (.responded h obj)) (.deliver w.id order)
      ((s.setLink w.id { s.links w.id with up := [] }).proceed ""
        (({ ready s.scheduler w m with
          waitingComponents := s.scheduler.waitingComponents.erase component
          newWorkers := s.scheduler.newWorkers.erase w } : Scheduler).assign w component)) := by
  have hlink : s.links w.id = { handler := some h, up := [.responseManifest obj] } :=
    hs.net.carries
  obtain ⟨h', hworker, -, howner⟩ := hs.net.worker
    ((hs.net.registered w.id).mpr (Or.inr (Or.inr (by simp [Stage.registeredIds]))))
  have hbusy := hs.pool.busy w.id (by simp [Stage.busyIds])
  have hmemIds : w.id ∈ (s.scheduler.cachedWorkers.add w).ids := by
    simp [ids_add_of_notMem hbusy.1]
  have hinv := hs.take hnew hcomponent m
  rw [Scheduler.assign_of_mem (s := { ready s.scheduler w m with
    waitingComponents := s.scheduler.waitingComponents.erase component
    newWorkers := s.scheduler.newWorkers.erase w }) hmemIds component] at hinv ⊢
  simp only [proceed, performAll, List.foldl_cons, List.foldl_nil, perform, send, hworker,
    howner, setLink, Function.update_self, hlink, Function.update_idem] at hinv ⊢
  refine hs.busy_advances (by simp [Stage.busyIds]) hinv rfl rfl rfl ?_ ?_
  · intro job hjob
    obtain ⟨c, hc, rfl⟩ := hjob
    obtain rfl : component = c := by simpa [hcomponent, Outstanding.current] using hc
    refine ⟨.owed component, ?_, component, hcomponent, Or.inl ⟨?_, rfl⟩⟩
    · simp only [shows, hlink, List.head?_cons, Option.some.injEq, reduceCtorEq, if_false]
      exact Exec.nil
    · simp only [Function.update_self, List.nil_append]
  · simp [Stage.left]

/-- The new worker is cached without the component, which stays owed. -/
theorem Inv.park_advances {w : Worker} {h : Handler} {obj : ManifestObj}
    (hs : Inv setting numSlot s (.launching w.id (.responded h obj)))
    (hnew : s.scheduler.newWorkers = [w]) (m : Manifest) {stage' : Stage}
    (hinv : Inv setting numSlot ((s.setLink w.id { s.links w.id with up := [] }).proceed ""
      (.ok (ready s.scheduler w m, []))) stage') (order : List Component) :
    Advances setting numSlot s (.launching w.id (.responded h obj)) (.deliver w.id order)
      ((s.setLink w.id { s.links w.id with up := [] }).proceed ""
        (.ok (ready s.scheduler w m, []))) := by
  have hlink : s.links w.id = { handler := some h, up := [.responseManifest obj] } :=
    hs.net.carries
  have hactive := hs.pool.activeIds
  have hfits := hs.pool.fits
  simp only [proceed, performAll, List.foldl_nil, setLink, hlink] at hinv ⊢
  -- nothing is left on the worker's link, so that it can only be parked
  obtain ⟨i, rfl⟩ : ∃ i, stage' = .parked i := by
    have hnewIds := hinv.pool.newIds
    have hactive' := hinv.pool.activeIds
    have hfits' := hinv.pool.fits
    have hcarries := hinv.net.carries
    simp only [ready, hnew, List.map_cons, List.map_nil] at hnewIds
    cases stage' with
    | parked i => exact ⟨i, rfl⟩
    | idle => exact absurd hfits' hfits
    | running i => simp [ready, hactive, Stage.activeIds] at hactive'
    | launching i progress =>
        cases progress <;> simp_all [Stage.newIds, Stage.Carries]
  refine hs.busy_advances (by simp [Stage.busyIds]) hinv rfl rfl rfl ?_ ?_
  · intro job hjob
    refine ⟨job, ?_, hjob⟩
    simp only [shows, hlink, List.head?_cons, Option.some.injEq, reduceCtorEq, if_false]
    exact Exec.nil
  · simp [Stage.left]

/-- The first manifest of a worker: it does not parse, or the worker takes the component, or
it is parked. -/
theorem Inv.firstManifest_cases {id : String} {h : Handler} {obj : ManifestObj}
    (hs : Inv setting numSlot s (.launching id (.responded h obj))) {order : List Component}
    (horder : Enumerates order s.scheduler.waitingComponents)
    (hidle : s.isBusy setting = false) :
    (s.setLink id { s.links id with up := [] }).onResponseManifest sha256 setting.config id obj
        order = (s.setLink id { s.links id with up := [] }).fail (.badManifest id) ∨
      Advances setting numSlot s (.launching id (.responded h obj)) (.deliver id order)
        ((s.setLink id { s.links id with up := [] }).onResponseManifest sha256 setting.config id
          obj order) := by
  have hlink : s.links id = { handler := some h, up := [.responseManifest obj] } :=
    hs.net.carries
  rcases hs.firstManifest horder hidle (Eq.refl ((s.setLink id
    { s.links id with up := [] }).onResponseManifest sha256 setting.config id obj order)) with
    hbad | ⟨stage', hinv⟩
  · exact Or.inl hbad
  right
  obtain ⟨w, hnew, rfl⟩ : ∃ w, s.scheduler.newWorkers = [w] ∧ w.id = id := by
    have hids := hs.pool.newIds
    simp only [Stage.newIds] at hids
    exact List.map_eq_singleton_iff.mp hids
  have hget : (s.setLink w.id { s.links w.id with up := [] }).scheduler.getWorker w.id =
      some w := by
    simp [Scheduler.getWorker, setLink, hnew]
  have hfresh : s.scheduler.manifests.lookup w = none :=
    AList.lookup_eq_none.mpr (hs.pool.fresh _ _ rfl w (by simp [hnew]))
  simp only [System.onResponseManifest, hget] at hinv ⊢
  cases hman : (s.setLink w.id { s.links w.id with up := [] }).scheduler.onManifest w obj with
  | none =>
      rw [hman] at hinv
      exact absurd hinv.faultless (by simp [fail])
  | some r =>
      obtain ⟨isNew, sch⟩ := r
      obtain ⟨hisNew, m, rfl⟩ := onManifest_eq_some hman
      obtain rfl : isNew = true := by
        have hlookup : (s.setLink w.id { s.links w.id with up := [] }).scheduler.manifests.lookup
            w = none := hfresh
        simpa [hlookup] using hisNew
      simp only [hman, if_true, Scheduler.onWorkerReady] at hinv ⊢
      cases hfind : order.find? (Scheduler.acceptsNew sha256 setting.config
          (ready s.scheduler w m) w) with
      | some component =>
          have hmem : component ∈ s.scheduler.waitingComponents := by
            rw [← horder.2]
            exact List.mem_toFinset.mpr (List.mem_of_find?_eq_some hfind)
          have hcomponent : s.component = .dispatched component := by
            rw [hs.pool.waiting] at hmem
            cases hc : s.component <;> simp_all [Stage.waiting]
          have htake := hs.take_advances hnew hcomponent m order
          simp only [ready] at hfind htake
          simp only [setLink] at htake ⊢
          rw [hfind]
          exact htake
      | none =>
          simp only [ready] at hfind
          simp only [setLink] at hinv
          rw [hfind] at hinv
          have hparked := hs.park_advances hnew m hinv order
          simp only [ready, setLink] at hparked ⊢
          rw [hfind]
          exact hparked

/-- A later manifest of the running worker, which changes nothing that is seen here. -/
theorem Inv.nextManifest_cases {id : String} {obj : ManifestObj} (hs : Inv setting numSlot s
    (.running id)) {h : Handler}
    (hlink : s.links id = { handler := some h, up := [.responseManifest obj, .done] })
    (order : List Component) :
    (s.setLink id { s.links id with up := [.done] }).onResponseManifest sha256 setting.config id
        obj order = (s.setLink id { s.links id with up := [.done] }).fail (.badManifest id) ∨
      Advances setting numSlot s (.running id) (.deliver id order)
        ((s.setLink id { s.links id with up := [.done] }).onResponseManifest sha256 setting.config
          id obj order) := by
  rcases hs.nextManifest hlink order (Eq.refl ((s.setLink id
    { s.links id with up := [.done] }).onResponseManifest sha256 setting.config id obj order)) with
    hbad | hinv
  · exact Or.inl hbad
  right
  have hself : ∃ u, (s.setLink id { s.links id with up := [.done] }).onResponseManifest sha256
      setting.config id obj order = { s.setLink id { s.links id with up := [.done] } with
        scheduler := u } := by
    obtain ⟨w, hw, -, hget⟩ := hs.pool.getWorker_running
    have hget' : (s.setLink id { s.links id with up := [.done] }).scheduler.getWorker id =
        some w := hget
    obtain ⟨m₀, hm₀⟩ := Option.isSome_iff_exists.mp
      (AList.lookup_isSome.mpr (hs.pool.known w (Or.inl hw)))
    simp only [System.onResponseManifest, hget'] at hinv ⊢
    cases hman : (s.setLink id { s.links id with up := [.done] }).scheduler.onManifest w obj with
    | none =>
        rw [hman] at hinv
        exact absurd hinv.faultless (by simp [fail])
    | some r =>
        obtain ⟨isNew, sch⟩ := r
        obtain ⟨hisNew, m, rfl⟩ := onManifest_eq_some hman
        obtain rfl : isNew = false := by
          have hlookup : (s.setLink id { s.links id with up := [.done] }).scheduler.manifests.lookup
              w = some m₀ := hm₀
          simpa [hlookup] using hisNew
        exact ⟨_, rfl⟩
  obtain ⟨u, heq⟩ := hself
  rw [heq] at hinv ⊢
  refine hs.busy_advances (by simp [Stage.busyIds]) hinv rfl rfl rfl ?_ ?_
  · intro job hjob
    obtain ⟨c, hc, ⟨hd, -⟩ | ⟨-, rfl⟩⟩ := hjob
    · simp [hlink] at hd
    · refine ⟨_, ?_, c, hc, Or.inr ⟨?_, rfl⟩⟩
      · simp only [shows, hlink, List.head?_cons, Option.some.injEq, reduceCtorEq, if_false]
        exact Exec.nil
      · simp [setLink, hlink]
  · simp [Stage.left, setLink, hlink]

theorem Inv.onDone_advances {id : String} (hs : Inv setting numSlot s (.running id)) {h : Handler}
    (hlink : s.links id = { handler := some h, up := [.done] }) (order : List Component) :
    Advances setting numSlot s (.running id) (.deliver id order)
      ((s.setLink id { s.links id with up := [] }).onDone id) := by
  have hinv := hs.done hlink
  obtain ⟨w, -, rfl, hget⟩ := hs.pool.getWorker_running
  have hactive : s.scheduler.activeWorkers.ids = [w.id] := hs.pool.activeIds
  have hremove := PACache.remove_of_mem (p := s.scheduler.activeWorkers) (w := w)
    (by simp [hactive])
  simp only [System.onDone, setLink, hget, Scheduler.cacheWorker, hremove, hlink] at hinv ⊢
  refine ⟨.idle, hinv, ?_, ?_⟩
  · intro job hjob
    obtain ⟨c, hc, ⟨hd, -⟩ | ⟨-, rfl⟩⟩ := hjob
    · simp [hlink] at hd
    · refine ⟨.free, ?_, rfl⟩
      simp only [shows, hlink, List.head?_cons, if_true]
      exact Exec.single rfl
  · intro _
    have hev : w.id ∉ s.evicted := (hs.pool.busy w.id (by simp [Stage.busyIds])).2
    have hsum := sum_farewells_setLink s hev { handler := some h }
    obtain ⟨c, hc⟩ : ∃ c, s.component = .dispatched c := hs.pool.fits
    simp only [Stage.rank, Stage.left, hlink, hc]
    calc _ = 0 + 0 + (s.evicted.map s.farewells).sum := congrArg (0 + 0 + ·) hsum
      _ < _ := by simp

/-- The coordinator handles a message. -/
theorem Inv.deliver_advances {stage : Stage} (hs : Inv setting numSlot s stage) {id : String}
    {reply : Reply} {rest : List Reply} (hup : (s.links id).up = reply :: rest)
    {order : List Component} (horder : Enumerates order s.scheduler.waitingComponents)
    (hidle : s.isBusy setting = false) :
    (BadManifest s ((s.setLink id { s.links id with up := rest }).doActionFromMsg sha256
        setting.config id order reply) ∧ s.shows (.deliver id order) = []) ∨
      Advances setting numSlot s stage (.deliver id order)
        ((s.setLink id { s.links id with up := rest }).doActionFromMsg sha256
          setting.config id order reply) := by
  have hcarries := hs.net.carries
  -- a reply comes from the busy worker, or it is the farewell of an evicted one
  rcases hs.net.of_up hup with hbusy | ⟨hev, hdep, rfl, rfl, hdown⟩
  · cases stage with
    | idle | parked => simp [Stage.busyIds] at hbusy
    | launching i progress =>
        obtain rfl : id = i := by simpa [Stage.busyIds] using hbusy
        cases progress with
        | connected h =>
            simp only [Stage.Carries] at hcarries
            obtain ⟨rfl, rfl⟩ : Reply.ready = reply ∧ [] = rest := by simpa [hcarries] using hup
            exact Or.inr (hs.onReady_advances order)
        | responded h obj =>
            simp only [Stage.Carries] at hcarries
            obtain ⟨rfl, rfl⟩ : Reply.responseManifest obj = reply ∧ [] = rest := by
              simpa [hcarries] using hup
            rcases hs.firstManifest_cases horder hidle with hbad | hadvances
            · exact Or.inl ⟨⟨id, obj, [], hup, hbad⟩, by simp [shows, hcarries]⟩
            · exact Or.inr hadvances
        | unconnected | registered =>
            simp only [Stage.Carries] at hcarries
            simp [hcarries] at hup
    | running i =>
        obtain rfl : id = i := by simpa [Stage.busyIds] using hbusy
        obtain ⟨h, ⟨component, hlink⟩ | ⟨obj, hlink⟩ | hlink⟩ := hcarries
        · simp [hlink] at hup
        · obtain ⟨rfl, rfl⟩ : Reply.responseManifest obj = reply ∧ [.done] = rest := by
            simpa [hlink] using hup
          rcases hs.nextManifest_cases hlink order with hbad | hadvances
          · exact Or.inl ⟨⟨id, obj, [.done], hup, hbad⟩, by simp [shows, hlink]⟩
          · exact Or.inr hadvances
        · obtain ⟨rfl, rfl⟩ : Reply.done = reply ∧ [] = rest := by simpa [hlink] using hup
          exact Or.inr (hs.onDone_advances hlink order)
  · obtain ⟨exited, heq, -, hinv⟩ := hs.bye hev hdep hdown
    right
    simp only [doActionFromMsg]
    rw [heq] at hinv ⊢
    refine hs.leaving_advances hev hinv rfl rfl rfl ?_ ?_
    · simp [farewells, hup, hdown]
    · simp only [shows, hup, List.head?_cons, Option.some.injEq, reduceCtorEq, if_false]

/-! ### All steps -/

/-- One step before the end of the experiment. -/
theorem Inv.step_advances {stage : Stage} {e : Event} (hs : Inv setting numSlot s stage)
    (hslots : 0 < numSlot) (hst : System.step sha256 setting s e = some t) :
    Advances setting numSlot s stage e t ∨ (BadManifest s t ∧ s.shows e = []) ∨
      (e = .finish ∧ stage = .idle ∧ Closing t) := by
  have hidle : s.component = .none → stage = .idle := by
    intro hnone
    have hfits := hs.pool.fits
    cases stage <;> simp_all [Stage.Fits]
  unfold System.step at hst
  split at hst
  · cases hst
  cases e with
  | newComponent component launchId =>
      obtain ⟨⟨hnone, -, hfresh⟩, rfl⟩ := guard_eq_some_iff.mp hst
      obtain rfl := hidle hnone
      exact Or.inl (hs.newComponent_advances hslots hfresh component)
  | addWaiting =>
      simp only at hst
      split at hst
      · rename_i component hadding
        obtain rfl := Option.some.inj hst
        exact Or.inl (hs.addWaiting_advances hadding)
      · cases hst
  | connect id =>
      obtain ⟨⟨hlaunched, hnone, -⟩, rfl⟩ := guard_eq_some_iff.mp hst
      exact Or.inl (hs.connect_advances hlaunched hnone)
  | work id obj =>
      simp only at hst
      split at hst
      · rename_i command rest hdown
        obtain ⟨-, rfl⟩ := guard_eq_some_iff.mp hst
        exact Or.inl (hs.work_advances hdown)
      · cases hst
  | deliver id order =>
      simp only at hst
      split at hst
      · rename_i reply rest hup
        obtain ⟨⟨horder, hbusy⟩, rfl⟩ := guard_eq_some_iff.mp hst
        exact (hs.deliver_advances hup horder hbusy).symm.imp_right Or.inl
      · cases hst
  | finish =>
      obtain ⟨⟨hnone, -⟩, rfl⟩ := guard_eq_some_iff.mp hst
      obtain rfl := hidle hnone
      exact Or.inr (Or.inr ⟨rfl, rfl, hs.finish.1⟩)

/-- After the experiment nothing is shown any more. -/
theorem Closing.shows_eq_nil {e : Event} (hs : Closing s)
    (hst : System.step sha256 setting s e = some t) : s.shows e = [] := by
  unfold System.step at hst
  split at hst
  · cases hst
  cases e with
  | newComponent component launchId => simp [hs.finished] at hst
  | addWaiting | connect id | finish => rfl
  | work id obj =>
      cases hdown : (s.links id).down with
      | nil => simp [shows, hdown]
      | cons command rest =>
          obtain rfl := (hs.farewell id).1 command (by simp [hdown])
          simp [shows, hdown]
  | deliver id order =>
      cases hup : (s.links id).up with
      | nil => simp [shows, hup]
      | cons reply rest =>
          obtain rfl := (hs.farewell id).2 reply (by simp [hup])
          simp [shows, hup]

/-- A state of the coordinator and what has become of its component. -/
def Refines (setting : Setting) (numSlot : ℕ) (s : System) (job : Job) : Prop :=
  s.fault.isSome = true ∨ (∃ stage, Inv setting numSlot s stage ∧ stage.Does s job) ∨
    (Closing s ∧ job = .free)

theorem simulated (hslots : 1 ≤ numSlot) :
    Simulated (System.step sha256 setting) shows Job.step (Refines setting numSlot) := by
  intro s job e t hs hst
  rcases hs with hfault | ⟨stage, hinv, hdoes⟩ | ⟨hclosing, rfl⟩
  · simp [System.step, hfault] at hst
  · rcases hinv.step_advances hslots hst with
      ⟨stage', hinv', hjob, -⟩ | ⟨⟨id, obj, rest, -, rfl⟩, hshows⟩ | ⟨rfl, rfl, hclosing⟩
    · obtain ⟨job', hexec, hdoes'⟩ := hjob job hdoes
      exact ⟨job', hexec, Or.inr (Or.inl ⟨stage', hinv', hdoes'⟩)⟩
    · rw [hshows]
      exact ⟨job, Exec.nil, Or.inl rfl⟩
    · exact ⟨job, Exec.nil, Or.inr (Or.inr ⟨hclosing, hdoes⟩)⟩
  · obtain ⟨hclosing', -⟩ := hclosing.step hst
    rw [hclosing.shows_eq_nil hst]
    exact ⟨.free, Exec.nil, Or.inr (Or.inr ⟨hclosing', rfl⟩)⟩

theorem refines_init (setting : Setting) (numSlot : ℕ) :
    Refines setting numSlot (init numSlot) .free :=
  Or.inr (Or.inl ⟨.idle, inv_init setting numSlot, rfl⟩)

/-- **Delivery.** What every run of the coordinator shows is a run of `Job`: the components
are executed in the order in which the trial thread submits them, each once, each before
the thread goes on; all but possibly the last one have been, and once the trial thread is
free again the last one as well. -/
theorem delivers (sha256 : ByteArray → String) (setting : Setting) {numSlot : ℕ}
    (hslots : 1 ≤ numSlot) {es : List Event} {t : System}
    (hrun : Exec (System.step sha256 setting) (init numSlot) es t) :
    ∃ job, Exec Job.step .free (shown (System.step sha256 setting) shows (init numSlot) es) job ∧
      submitted (shown (System.step sha256 setting) shows (init numSlot) es) =
        executed (shown (System.step sha256 setting) shows (init numSlot) es) ++ job.owes ∧
      (t.fault = none → t.component = .none → job = .free) := by
  obtain ⟨job, hexec, href⟩ := hrun.refines (simulated hslots) (refines_init setting numSlot)
  refine ⟨job, hexec, by simpa [Job.owes] using Job.submitted_eq hexec, ?_⟩
  intro hfault hnone
  rcases href with hsome | ⟨stage, hinv, hdoes⟩ | ⟨-, rfl⟩
  · simp [hfault] at hsome
  · have hfits := hinv.pool.fits
    cases stage with
    | idle => exact hdoes
    | launching i progress | parked i => exact absurd hnone hfits
    | running i =>
        obtain ⟨c, hc⟩ := hfits
        rw [hnone] at hc
        cases hc
  · rfl

/-- One component done, the next one owed. -/
theorem twoComponents_delivers :
    ∃ t job, Exec (System.step (fun _ => "")
        ⟨{ enableCompatibilityCheckOnCaching := false }, true⟩) (init 1) twoComponents t ∧
      Exec Job.step .free (shown (System.step (fun _ => "")
        ⟨{ enableCompatibilityCheckOnCaching := false }, true⟩) shows (init 1) twoComponents) job ∧
      job = .owed ⟨0, Manifest.defaultValues⟩ := by
  obtain ⟨t, ht⟩ := Option.isSome_iff_exists.mp (by decide +kernel :
    (exec (System.step (fun _ => "") ⟨{ enableCompatibilityCheckOnCaching := false }, true⟩)
      (init 1) twoComponents).isSome = true)
  obtain ⟨job, hexec, -, -⟩ := delivers (fun _ => "")
    ⟨{ enableCompatibilityCheckOnCaching := false }, true⟩ le_rfl (exec_eq_some_iff.mp ht)
  have hjob : exec Job.step .free (shown (System.step (fun _ => "")
      ⟨{ enableCompatibilityCheckOnCaching := false }, true⟩) shows (init 1) twoComponents) =
      some (.owed ⟨0, Manifest.defaultValues⟩) := by
    decide +kernel
  exact ⟨t, job, exec_eq_some_iff.mp ht, hexec,
    Option.some.inj ((exec_eq_some_iff.mpr hexec).symm.trans hjob)⟩

end System

end SecCask.Coordinator
