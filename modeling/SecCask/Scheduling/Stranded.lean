import SecCask.Scheduling.Scheduler
import SecCask.Lib.Run
import Mathlib.Data.Finset.Card
import Mathlib.Data.Finset.Option
import Mathlib.Data.Finset.Insert

/-!
# SecCask.Scheduling.Stranded

Whether every waiting component has a worker on its way. A call of
`get_compatible_worker_sync` that finds no worker launches one and only then adds its
component to the waiting set; the set is drained by `on_worker_ready` alone. A worker that
becomes ready between the two, or that turns every waiting component down, is spent
without a component.
-/

namespace SecCask.Scheduling

/-- The scheduler with its calls and launches in progress. -/
structure Fleet where
  scheduler : Scheduler
  /-- The call that has launched a worker and has not added its component yet. -/
  call : Option Component := none
  /-- Launched workers that have not gone through `on_worker_ready`. -/
  onTheWay : ℕ := 0

namespace Fleet

variable (sha256 : ByteArray → String) (config : Config)

def init (numSlot : ℕ) : Fleet := { scheduler := { numSlot := numSlot } }

inductive Event
  /-- `get_compatible_worker_sync`, up to the launch if there is one. -/
  | request (component : Component)
  /-- The rest of the call: `_waiting_components.add`. -/
  | addWaiting
  /-- A launched worker becomes ready with a manifest; `order` is the iteration order of
  the waiting set. -/
  | ready (id : String) (manifest : Manifest) (order : List Component)
  /-- `cache_worker` -/
  | cache (w : Worker)
  /-- A worker reports its manifest again. -/
  | report (w : Worker) (obj : ManifestObj)
  deriving DecidableEq

/-- The scheduler with the connection of a worker whose first manifest has arrived. -/
def connected (s : Scheduler) (id : String) (manifest : Manifest) : Scheduler :=
  let w : Worker := ⟨s.nextRef, id⟩
  { s.addNewWorker w with
    manifests := s.manifests.insert w manifest, nextRef := s.nextRef + 1 }

/-- The component that `on_worker_ready` gives to the new worker. -/
def taken (s : Fleet) (id : String) (manifest : Manifest) (order : List Component) :
    Option Component :=
  order.find? ((connected s.scheduler id manifest).acceptsNew sha256 config
    ⟨s.scheduler.nextRef, id⟩)

/-- One step. A method that raises leaves the scheduler as it was. -/
def step (s : Fleet) : Event → Option Fleet
  | .request component =>
      if s.call = none then
        match s.scheduler.findReusable sha256 config component with
        | some w =>
            match s.scheduler.assign w component with
            | .ok (scheduler, _) => some { s with scheduler := scheduler }
            | .error _ => some s
        | none =>
            match s.scheduler.launchWorker component with
            | .ok (scheduler, _) => some { s with
                scheduler := scheduler, call := some component, onTheWay := s.onTheWay + 1 }
            | .error _ => some s
      else none
  | .addWaiting =>
      match s.call with
      | some component =>
          some { s with scheduler := s.scheduler.addWaiting component, call := none }
      | none => none
  | .ready id manifest order =>
      if 0 < s.onTheWay ∧ order.toFinset = s.scheduler.waitingComponents then
        match (connected s.scheduler id manifest).onWorkerReady sha256 config
            ⟨s.scheduler.nextRef, id⟩ order with
        | .ok (scheduler, _) => some { s with scheduler := scheduler, onTheWay := s.onTheWay - 1 }
        | .error _ => some { s with onTheWay := s.onTheWay - 1 }
      else none
  | .cache w =>
      match s.scheduler.cacheWorker w with
      | .ok scheduler => some { s with scheduler := scheduler }
      | .error _ => some s
  | .report w obj =>
      match s.scheduler.onManifest w obj with
      | some (_, scheduler) => some { s with scheduler := scheduler }
      | none => some s

/-- Between scheduler steps, every waiting component can have a worker of its own among
those on their way. -/
def NoneStranded (s : Fleet) : Prop :=
  s.call = none → s.scheduler.waitingComponents.card ≤ s.onTheWay

/-- The components that wait or are about to. -/
def demand (s : Fleet) : Finset Component := s.scheduler.waitingComponents ∪ s.call.toFinset

/-- A worker that becomes ready takes a waiting component, other than the one whose call is
in progress, or there are more workers on their way than components that need one. -/
def NotSpent (s : Fleet) : Event → Prop
  | .ready id manifest order =>
      ((s.taken sha256 config id manifest order).any fun c => s.call ≠ some c) = true ∨
        s.demand.card < s.onTheWay
  | _ => True

/-- The count that steps keep, also during a call. -/
def Supplied (s : Fleet) : Prop := s.demand.card ≤ s.onTheWay

instance (s : Fleet) (e : Event) : Decidable (NotSpent sha256 config s e) := by
  cases e <;> unfold NotSpent <;> infer_instance

theorem supplied_iff {s : Fleet} (hcall : s.call = none) : Supplied s ↔ NoneStranded s := by
  simp [Supplied, NoneStranded, demand, hcall]

/-! ### What the steps do to the counts -/

variable {sha256 config}

theorem waiting_assign {sch t : Scheduler} {w : Worker} {component : Component}
    {actions : List Action} (h : sch.assign w component = .ok (t, actions)) :
    t.waitingComponents = sch.waitingComponents := by
  by_cases hw : w.id ∈ sch.cachedWorkers.ids
  · rw [Scheduler.assign_of_mem hw] at h
    obtain ⟨rfl, -⟩ := Prod.mk.inj (Except.ok.inj h)
    simp
  · have hnone : sch.cachedWorkers.remove w = none := if_neg hw
    simp [Scheduler.assign, Scheduler.activateWorker, hnone, bind, Except.bind] at h

theorem waiting_launchWorker {sch t : Scheduler} {component : Component} {actions : List Action}
    (h : sch.launchWorker component = .ok (t, actions)) :
    t.waitingComponents = sch.waitingComponents := by
  unfold Scheduler.launchWorker at h
  split at h
  · cases h
  · split at h
    · split at h
      · obtain ⟨rfl, -⟩ := Prod.mk.inj (Except.ok.inj h)
        rfl
      · cases h
    · obtain ⟨rfl, -⟩ := Prod.mk.inj (Except.ok.inj h)
      rfl

/-- What a step does to the components that need a worker and to the workers on their way,
outside of the readiness of a worker: both are as they were, or one of each is added. -/
theorem step_cases {s t : Fleet} {e : Event} (hst : step sha256 config s e = some t) :
    (∃ id manifest order, e = .ready id manifest order) ∨
    (t.demand = s.demand ∧ t.onTheWay = s.onTheWay) ∨
    (∃ component, s.call = none ∧ t.call = some component ∧
      t.demand = insert component s.demand ∧ t.onTheWay = s.onTheWay + 1) := by
  cases e with
  | ready id manifest order => exact Or.inl ⟨id, manifest, order, rfl⟩
  | request component =>
      right
      simp only [step] at hst
      split at hst
      · rename_i hcall
        -- a cached worker takes the component, or a worker is launched for it
        split at hst
        · split at hst
          · rename_i scheduler _ heq
            obtain rfl := Option.some.inj hst
            exact Or.inl ⟨by simp [demand, waiting_assign heq], rfl⟩
          · obtain rfl := Option.some.inj hst
            exact Or.inl ⟨rfl, rfl⟩
        · split at hst
          · rename_i scheduler _ heq
            obtain rfl := Option.some.inj hst
            refine Or.inr ⟨component, hcall, rfl, ?_, rfl⟩
            ext c
            simp [demand, waiting_launchWorker heq, hcall]
          · obtain rfl := Option.some.inj hst
            exact Or.inl ⟨rfl, rfl⟩
      · cases hst
  | addWaiting =>
      right; left
      simp only [step] at hst
      split at hst
      · rename_i component hcall
        obtain rfl := Option.some.inj hst
        -- the component moves from the call to the waiting ones
        refine ⟨?_, rfl⟩
        ext c
        simp [demand, Scheduler.addWaiting, hcall]
      · cases hst
  | cache w =>
      right; left
      simp only [step] at hst
      split at hst
      · rename_i scheduler heq
        obtain rfl := Option.some.inj hst
        unfold Scheduler.cacheWorker at heq
        split at heq
        · obtain rfl := Except.ok.inj heq
          exact ⟨rfl, rfl⟩
        · cases heq
      · obtain rfl := Option.some.inj hst
        exact ⟨rfl, rfl⟩
  | report w obj =>
      right; left
      simp only [step] at hst
      split at hst
      · rename_i scheduler heq
        obtain rfl := Option.some.inj hst
        obtain ⟨⟨isNew, m⟩, -, hpair⟩ := Option.map_eq_some_iff.mp heq
        obtain ⟨-, rfl⟩ := Prod.mk.inj hpair
        exact ⟨rfl, rfl⟩
      · obtain rfl := Option.some.inj hst
        exact ⟨rfl, rfl⟩

/-- The readiness of a worker: one worker less on its way, and the component it takes is no
longer waiting. -/
theorem step_ready {s t : Fleet} {id : String} {manifest : Manifest} {order : List Component}
    (hst : step sha256 config s (.ready id manifest order) = some t) :
    0 < s.onTheWay ∧ t.onTheWay = s.onTheWay - 1 ∧ t.call = s.call ∧
      match s.taken sha256 config id manifest order with
      | some component => component ∈ s.scheduler.waitingComponents ∧
          t.scheduler.waitingComponents = s.scheduler.waitingComponents.erase component
      | none => t.scheduler.waitingComponents = s.scheduler.waitingComponents := by
  simp only [step] at hst
  split at hst
  · rename_i hguard
    obtain ⟨u, actions, hok, hwaiting⟩ := Scheduler.onWorkerReady_ok sha256 config
      (connected s.scheduler id manifest) ⟨s.scheduler.nextRef, id⟩ order
    rw [hok] at hst
    obtain rfl := Option.some.inj hst
    refine ⟨hguard.1, rfl, rfl, ?_⟩
    rw [← taken] at hwaiting
    cases htaken : s.taken sha256 config id manifest order with
    | none =>
        rw [htaken] at hwaiting
        exact hwaiting
    | some component =>
        rw [htaken] at hwaiting
        refine ⟨?_, hwaiting⟩
        rw [← hguard.2]
        exact List.mem_toFinset.mpr (List.mem_of_find?_eq_some htaken)
  · cases hst

/-- A worker that becomes ready keeps the supply exactly when it is not spent. -/
theorem supplied_ready_iff {s t : Fleet} {id : String} {manifest : Manifest}
    {order : List Component} (hs : Supplied s)
    (hst : step sha256 config s (.ready id manifest order) = some t) :
    Supplied t ↔ NotSpent sha256 config s (.ready id manifest order) := by
  obtain ⟨hpos, hway, hcall, htake⟩ := step_ready hst
  simp only [Supplied, NotSpent] at hs ⊢
  cases htaken : s.taken sha256 config id manifest order with
  | none =>
      rw [htaken] at htake
      have hdemand : t.demand = s.demand := by simp [demand, htake, hcall]
      simp only [hdemand, hway, Option.any_none, Bool.false_eq_true, false_or]
      omega
  | some component =>
      rw [htaken] at htake
      obtain ⟨hmem, htake⟩ := htake
      by_cases hsame : s.call = some component
      · have hdemand : t.demand = s.demand := by
          ext c
          by_cases hc : c = component
          · simp [demand, htake, hcall, hsame, hc]
          · simp [demand, htake, hcall, hsame, hc]
        simp only [hdemand, hway, Option.any_some, hsame, ne_eq, not_true_eq_false, decide_false,
          Bool.false_eq_true, false_or]
        omega
      · have hdemand : t.demand = s.demand.erase component := by
          ext c
          by_cases hc : c = component
          · subst hc
            simp [demand, htake, hcall, hsame]
          · simp [demand, htake, hcall, hc]
        have hin : component ∈ s.demand := Finset.mem_union_left _ hmem
        have hcard := Finset.card_erase_of_mem hin
        simp only [hdemand, hway, hcard, Option.any_some, hsame, ne_eq, not_false_eq_true,
          decide_true, true_or, iff_true]
        omega

theorem supplied_step {s t : Fleet} {e : Event} (hs : Supplied s)
    (hspent : NotSpent sha256 config s e) (hst : step sha256 config s e = some t) :
    Supplied t := by
  rcases step_cases hst with ⟨id, manifest, order, rfl⟩ | ⟨hdemand, hway⟩ |
    ⟨component, -, -, hdemand, hway⟩
  · exact (supplied_ready_iff hs hst).mpr hspent
  · rw [Supplied, hdemand, hway]
    exact hs
  · rw [Supplied, hdemand, hway]
    exact (Finset.card_insert_le _ _).trans (Nat.succ_le_succ hs)

theorem notSpent_of_supplied {s t : Fleet} {e : Event} (hs : Supplied s)
    (hst : step sha256 config s e = some t) (ht : Supplied t) : NotSpent sha256 config s e := by
  cases e with
  | ready id manifest order => exact (supplied_ready_iff hs hst).mp ht
  | _ => trivial

/-- A shortfall during a call lasts until the call returns. -/
theorem not_supplied_step {s t : Fleet} {e : Event} (hs : ¬ Supplied s) (hcall : s.call ≠ none)
    (hst : step sha256 config s e = some t) : ¬ Supplied t := by
  simp only [Supplied, not_le] at hs ⊢
  rcases step_cases hst with ⟨id, manifest, order, rfl⟩ | ⟨hdemand, hway⟩ | ⟨component, hnone, -⟩
  · obtain ⟨hpos, hway, hcall', htake⟩ := step_ready hst
    have hle : s.demand.card ≤ t.demand.card + 1 := by
      cases htaken : s.taken sha256 config id manifest order with
      | none =>
          rw [htaken] at htake
          simp [demand, htake, hcall']
      | some component =>
          rw [htaken] at htake
          have hsub : s.demand ⊆ insert component t.demand := by
            intro c hc
            by_cases heq : c = component
            · simp [heq]
            · simp only [demand, hcall', htake.2, Finset.mem_insert, Finset.mem_union,
                Finset.mem_erase] at hc ⊢
              tauto
          exact (Finset.card_le_card hsub).trans (Finset.card_insert_le _ _)
    omega
  · rw [hdemand, hway]
    exact hs
  · exact absurd hnone hcall

/-! ### Runs -/

/-- A run that ends between steps shows every shortfall at a state between steps. -/
theorem supplied_of_noneStranded {s t : Fleet} {es : List Event}
    (hrun : Exec (step sha256 config) s es t) (ht : t.call = none)
    (hP : Throughout (step sha256 config) NoneStranded s es) : Supplied s := by
  induction hrun with
  | nil => exact (supplied_iff ht).mpr hP
  | @cons s u t e es hst _ ih =>
      by_cases hcall : s.call = none
      · exact (supplied_iff hcall).mpr hP.1
      · by_contra hs
        exact not_supplied_step hs hcall hst (ih ht (hP.2 u hst))

theorem throughout_supplied_iff {s t : Fleet} {es : List Event}
    (hrun : Exec (step sha256 config) s es t) (ht : t.call = none) :
    Throughout (step sha256 config) Supplied s es ↔
      Throughout (step sha256 config) NoneStranded s es := by
  induction hrun with
  | nil => exact supplied_iff ht
  | @cons s u t e es hst hrest ih =>
      constructor
      · intro hT
        refine ⟨fun hcall => (supplied_iff hcall).mp hT.1 hcall, fun v hv => ?_⟩
        obtain rfl : u = v := Option.some.inj (hst.symm.trans hv)
        exact (ih ht).mp (hT.2 u hst)
      · intro hT
        refine ⟨supplied_of_noneStranded (Exec.cons hst hrest) ht hT, fun v hv => ?_⟩
        obtain rfl : u = v := Option.some.inj (hst.symm.trans hv)
        exact (ih ht).mpr (hT.2 u hst)

/-- **No stranded component.** In a run that ends between scheduler steps, the waiting
components are at no state between steps more than the workers on their way exactly when
no worker is spent: each one that becomes ready takes a component that waits, or leaves
enough others on their way. -/
theorem noneStranded_iff_notSpent (sha256 : ByteArray → String) (config : Config) (numSlot : ℕ)
    {es : List Event} {t : Fleet} (hrun : Exec (step sha256 config) (init numSlot) es t)
    (ht : t.call = none) :
    Throughout (step sha256 config) NoneStranded (init numSlot) es ↔
      Along (step sha256 config) (NotSpent sha256 config) (init numSlot) es := by
  have hinit : Supplied (init numSlot) := by simp [Supplied, demand, init]
  rw [← throughout_supplied_iff hrun ht]
  exact (hrun.along_iff_throughout (I := Supplied) (fun _ hs => hs)
    (fun _ _ _ hs hspent hst => supplied_step hs hspent hst)
    (fun _ _ _ hs hst hu => notSpent_of_supplied hs hst hu) hinit).symm

/-- Two components on two slots; each launched worker becomes ready after its call. -/
def readyAfterCall : List Event :=
  let first : Component := ⟨0, Manifest.defaultValues⟩
  let second : Component := ⟨1, Manifest.defaultValues⟩
  [.request first, .addWaiting, .request second, .addWaiting,
   .ready "w0" Manifest.defaultValues [second, first], .ready "w1" Manifest.defaultValues [first]]

theorem readyAfterCall_noneStranded :
    Throughout (step (fun _ => "") {}) NoneStranded (init 2) readyAfterCall := by
  obtain ⟨t, ht⟩ := Option.isSome_iff_exists.mp (by decide +kernel :
    ((exec (step (fun _ => "") {}) (init 2) readyAfterCall).filter
      (·.call = none)).isSome = true)
  obtain ⟨hrun, hcall⟩ := Option.filter_eq_some_iff.mp ht
  refine (noneStranded_iff_notSpent _ _ _ (exec_eq_some_iff.mp hrun) (by simpa using hcall)).mpr ?_
  decide +kernel

/-- The worker is ready before its component has been put into the waiting set: the
component then waits, and no worker is on its way. -/
theorem readyDuringCall_strands :
    ∃ t, Exec (step (fun _ => "") {}) (init 1)
        [.request ⟨0, Manifest.defaultValues⟩, .ready "w0" Manifest.defaultValues [],
          .addWaiting] t ∧
      t.call = none ∧ t.scheduler.waitingComponents.card = 1 ∧ t.onTheWay = 0 := by
  obtain ⟨t, ht⟩ := Option.isSome_iff_exists.mp (by decide +kernel :
    ((exec (step (fun _ => "") {}) (init 1)
      [.request ⟨0, Manifest.defaultValues⟩, .ready "w0" Manifest.defaultValues [],
        .addWaiting]).filter fun t => decide (t.call = none) &&
          decide (t.scheduler.waitingComponents.card = 1) && decide (t.onTheWay = 0)).isSome
      = true)
  obtain ⟨hrun, hstate⟩ := Option.filter_eq_some_iff.mp ht
  simp only [Bool.and_eq_true, decide_eq_true_eq] at hstate
  exact ⟨t, exec_eq_some_iff.mp hrun, hstate.1.1, hstate.1.2, hstate.2⟩

end Fleet

end SecCask.Scheduling
