import SecCask.Lib.Run

/-!
# SecCask.Coordinator.Lifecycle

The hand-over between the trial thread and a component's `done`
(`Coordinator::OnNewComponent` and the `done` branch of `DoActionFromMsg`).

`g_lifecycle_mutex` is used as a latch. The task posted on `lifecycle_strand_`
dispatches the component and *then* locks the mutex; the trial thread waits for
the task's promise and locks the mutex a second time, which blocks it; the `done`
handler unlocks. Nothing keeps a fast worker's `done` from arriving between the
dispatch and the task's lock, so the order of these two is the whole question.
-/

namespace SecCask.Coordinator

/-- Where the trial thread is in `OnNewComponent`. -/
inductive Trial
  /-- Outside the call. -/
  | running
  /-- In `promise.get_future().get()`. -/
  | waitingPromise
  /-- At its `g_lifecycle_mutex.lock()`. -/
  | locking
  /-- Past the lock, before its `g_lifecycle_mutex.unlock()`. -/
  | unlocking
  deriving DecidableEq, Repr

/-- Where the task posted on `lifecycle_strand_` is. -/
inductive Task
  | none
  /-- Before or in `get_compatible_worker_sync`. -/
  | dispatching
  /-- At `g_lifecycle_mutex.lock()`. -/
  | locking
  /-- Past the lock, at `promise.set_value(true)`. -/
  | settingPromise
  | finished
  deriving DecidableEq, Repr

/-- The task has returned from its `lock` call. -/
def Task.hasLocked : Task → Bool
  | .settingPromise | .finished => true
  | _ => false

/-- Where the current component is on its way to a worker and back. -/
inductive ComponentStage
  | none
  /-- A new worker was launched for it: `on_worker_ready` will send `execute`. -/
  | waitingWorker
  /-- The `execute` message is under way. -/
  | executeSent
  | executing
  /-- The `done` message is under way. -/
  | doneSent
  /-- The `done` handler has cached the worker and is at the unlock. -/
  | workerCached
  /-- The `done` handler has returned. -/
  | handled
  deriving DecidableEq, Repr

/-- Who locked `g_lifecycle_mutex`, and for which component. -/
inductive Owner
  | task (component : Nat)
  | trial (component : Nat)
  deriving DecidableEq, Repr

structure Lifecycle where
  /-- The number of `OnNewComponent` calls so far: the current component. -/
  current : Nat := 0
  trial : Trial := .running
  task : Task := .none
  promise : Bool := false
  component : ComponentStage := .none
  mutex : Option Owner := none
  /-- A `done` handler unlocked while its component's lock was not held. -/
  badUnlock : Bool := false
  deriving DecidableEq, Repr

namespace Lifecycle

def init : Lifecycle := {}

inductive Event
  /-- The trial thread enters `OnNewComponent` and posts the task. -/
  | onNewComponent
  /-- The task's `get_compatible_worker_sync`: the callback sends `execute` to an
  existing worker, or the component is left to a new one. -/
  | dispatch (existing : Bool)
  /-- `on_worker_ready` finds the component and sends `execute`. -/
  | workerReady
  | deliverExecute
  | finishComponent
  /-- The `done` handler up to `cache_worker`. -/
  | cacheWorker
  /-- The `g_lifecycle_mutex.unlock()` of the `done` handler. -/
  | unlockDone
  | taskLock
  | setPromise
  | getPromise
  | trialLock
  | trialUnlock
  deriving DecidableEq, Repr

/-- One step of one of the parties; `none` while the party cannot move. A thread at a
`lock` moves only when the mutex is free; `unlock` frees it whoever holds it. -/
def step (s : Lifecycle) : Event → Option Lifecycle
  | .onNewComponent =>
      if s.trial = .running then
        some { s with
          current := s.current + 1, trial := .waitingPromise, task := .dispatching
          promise := false, component := .none }
      else none
  | .dispatch existing =>
      if s.task = .dispatching then
        some { s with
          task := .locking, component := if existing then .executeSent else .waitingWorker }
      else none
  | .workerReady =>
      if s.component = .waitingWorker then some { s with component := .executeSent } else none
  | .deliverExecute =>
      if s.component = .executeSent then some { s with component := .executing } else none
  | .finishComponent =>
      if s.component = .executing then some { s with component := .doneSent } else none
  | .cacheWorker =>
      if s.component = .doneSent then some { s with component := .workerCached } else none
  | .unlockDone =>
      if s.component = .workerCached then
        some { s with
          component := .handled, mutex := none
          badUnlock := s.badUnlock || decide (s.mutex ≠ some (.task s.current)) }
      else none
  | .taskLock =>
      if s.task = .locking ∧ s.mutex = none then
        some { s with task := .settingPromise, mutex := some (.task s.current) }
      else none
  | .setPromise =>
      if s.task = .settingPromise then some { s with task := .finished, promise := true }
      else none
  | .getPromise =>
      if s.trial = .waitingPromise ∧ s.promise = true then some { s with trial := .locking }
      else none
  | .trialLock =>
      if s.trial = .locking ∧ s.mutex = none then
        some { s with trial := .unlocking, mutex := some (.trial s.current) }
      else none
  | .trialUnlock =>
      if s.trial = .unlocking then some { s with trial := .running, mutex := none } else none

/-- The current component's `done` has been handled, the mutex is locked, and it stays
locked whatever happens next. -/
def LostWakeup (s : Lifecycle) : Prop :=
  s.component = .handled ∧ s.mutex ≠ none ∧ ∀ t, Reachable step s t → t.mutex ≠ none

/-- What the latch is for: `done` unlocks only the lock taken for its component, and
no wake-up of the trial thread is lost. -/
structure Sound (s : Lifecycle) : Prop where
  unlocks : s.badUnlock = false
  wakes : ¬ LostWakeup s

/-- A `done` handler reaches its unlock only after the task of the component has
returned from its lock. -/
def DoneAfterLock (s : Lifecycle) (e : Event) : Prop :=
  e = .unlockDone → s.task.hasLocked = true

instance (s : Lifecycle) (e : Event) : Decidable (DoneAfterLock s e) :=
  inferInstanceAs (Decidable (_ → _))

/-! ### The invariant of runs that meet the condition -/

/-- The component has been dispatched and its `done` is not yet handled. -/
def UnderWay (s : Lifecycle) : Prop := s.component ≠ .none ∧ s.component ≠ .handled

/-- The mutex between the task's lock and the trial thread's: held for the component
exactly while it is under way. -/
def Latched (s : Lifecycle) : Prop :=
  (s.component = .handled ∧ s.mutex = none) ∨ (s.UnderWay ∧ s.mutex = some (.task s.current))

/-- The places that the trial thread and the task can be in together, and what the
component and the mutex are there. -/
inductive Agree (s : Lifecycle) : Prop
  | before (htr : s.trial = .running) (htk : s.task = .none) (hc : s.component = .none)
      (hm : s.mutex = none)
  | dispatching (htr : s.trial = .waitingPromise) (htk : s.task = .dispatching)
      (hc : s.component = .none) (hm : s.mutex = none) (hp : s.promise = false)
  | taskLocking (htr : s.trial = .waitingPromise) (htk : s.task = .locking)
      (hc : s.UnderWay) (hm : s.mutex = none) (hp : s.promise = false)
  | settingPromise (htr : s.trial = .waitingPromise) (htk : s.task = .settingPromise)
      (hl : s.Latched) (hp : s.promise = false)
  | promised (htr : s.trial = .waitingPromise) (htk : s.task = .finished) (hl : s.Latched)
  | trialLocking (htr : s.trial = .locking) (htk : s.task = .finished) (hl : s.Latched)
  | trialUnlocking (htr : s.trial = .unlocking) (htk : s.task = .finished)
      (hc : s.component = .handled)
  | after (htr : s.trial = .running) (htk : s.task = .finished) (hc : s.component = .handled)
      (hm : s.mutex = none)

/-- The invariant of the runs that meet the condition. -/
structure Good (s : Lifecycle) : Prop where
  unlocks : s.badUnlock = false
  agree : s.Agree

theorem good_init : Good init := ⟨rfl, .before rfl rfl rfl rfl⟩

/-- A move of the component between two places under way keeps the invariant. -/
theorem Good.moveComponent {s : Lifecycle} {c : ComponentStage} (hg : Good s) (hs : s.UnderWay)
    (hc : c ≠ .none ∧ c ≠ .handled) : Good { s with component := c } := by
  obtain ⟨hb, ha⟩ := hg
  have hlatch : s.Latched → Latched { s with component := c } := by
    rintro (⟨hh, -⟩ | ⟨-, hm⟩)
    · exact absurd hh hs.2
    · exact .inr ⟨hc, hm⟩
  refine ⟨hb, ?_⟩
  cases ha with
  | before _ _ h _ => exact absurd h hs.1
  | dispatching _ _ h _ _ => exact absurd h hs.1
  | taskLocking htr htk _ hm hp => exact .taskLocking htr htk hc hm hp
  | settingPromise htr htk hl hp => exact .settingPromise htr htk (hlatch hl) hp
  | promised htr htk hl => exact .promised htr htk (hlatch hl)
  | trialLocking htr htk hl => exact .trialLocking htr htk (hlatch hl)
  | trialUnlocking _ _ h => exact absurd h hs.2
  | after _ _ h _ => exact absurd h hs.2

/-- Once the task has locked, a component under way has its lock held. -/
theorem Agree.held {s : Lifecycle} (ha : s.Agree) (hs : s.UnderWay)
    (htk : s.task.hasLocked = true) : s.mutex = some (.task s.current) := by
  have hlatch : s.Latched → s.mutex = some (.task s.current) :=
    fun hl => (hl.resolve_left fun h => hs.2 h.1).2
  cases ha with
  | before _ h _ _ => simp [h, Task.hasLocked] at htk
  | dispatching _ h _ _ _ => simp [h, Task.hasLocked] at htk
  | taskLocking _ h _ _ _ => simp [h, Task.hasLocked] at htk
  | settingPromise _ _ hl _ => exact hlatch hl
  | promised _ _ hl => exact hlatch hl
  | trialLocking _ _ hl => exact hlatch hl
  | trialUnlocking _ _ h => exact absurd h hs.2
  | after _ _ h _ => exact absurd h hs.2

/-- Before the task has locked, a component under way has no lock held. -/
theorem Agree.free {s : Lifecycle} (ha : s.Agree) (hs : s.UnderWay)
    (htk : s.task.hasLocked = false) : s.mutex = none := by
  cases ha with
  | before _ _ _ hm => exact hm
  | dispatching _ _ _ hm _ => exact hm
  | taskLocking _ _ _ hm _ => exact hm
  | settingPromise _ h _ _ => simp [h, Task.hasLocked] at htk
  | promised _ h _ => simp [h, Task.hasLocked] at htk
  | trialLocking _ h _ => simp [h, Task.hasLocked] at htk
  | trialUnlocking _ _ h => exact absurd h hs.2
  | after _ _ _ hm => exact hm

/-- Handling `done` while its component's lock is held releases it and keeps the rest. -/
theorem Agree.unlock {s : Lifecycle} (ha : s.Agree) (hs : s.UnderWay) (b : Bool)
    (htk : s.task.hasLocked = true) :
    Agree { s with component := .handled, mutex := none, badUnlock := b } := by
  cases ha with
  | before _ h _ _ => simp [h, Task.hasLocked] at htk
  | dispatching _ h _ _ _ => simp [h, Task.hasLocked] at htk
  | taskLocking _ h _ _ _ => simp [h, Task.hasLocked] at htk
  | settingPromise htr htk _ hp => exact .settingPromise htr htk (.inl ⟨rfl, rfl⟩) hp
  | promised htr htk _ => exact .promised htr htk (.inl ⟨rfl, rfl⟩)
  | trialLocking htr htk _ => exact .trialLocking htr htk (.inl ⟨rfl, rfl⟩)
  | trialUnlocking _ _ h => exact absurd h hs.2
  | after _ _ h _ => exact absurd h hs.2

theorem good_step {s t : Lifecycle} {e : Event} (hg : Good s) (hd : DoneAfterLock s e)
    (hs : step s e = some t) : Good t := by
  have ⟨hb, ha⟩ := hg
  -- With the agreement the guard of an event fixes where the trial thread, the task and the
  -- component are, and hence where they get.
  cases e with
  | onNewComponent =>
      obtain ⟨htr, rfl⟩ := guard_eq_some_iff.mp hs
      have hm : s.mutex = none := by cases ha <;> simp_all
      exact ⟨hb, .dispatching rfl rfl rfl hm rfl⟩
  | dispatch existing =>
      obtain ⟨htk, rfl⟩ := guard_eq_some_iff.mp hs
      obtain ⟨htr, hm, hp⟩ : s.trial = .waitingPromise ∧ s.mutex = none ∧ s.promise = false := by
        cases ha <;> simp_all
      exact ⟨hb, .taskLocking htr rfl (by cases existing <;> simp [UnderWay]) hm hp⟩
  | workerReady =>
      obtain ⟨hc, rfl⟩ := guard_eq_some_iff.mp hs
      exact hg.moveComponent (by simp [UnderWay, hc]) (by simp)
  | deliverExecute =>
      obtain ⟨hc, rfl⟩ := guard_eq_some_iff.mp hs
      exact hg.moveComponent (by simp [UnderWay, hc]) (by simp)
  | finishComponent =>
      obtain ⟨hc, rfl⟩ := guard_eq_some_iff.mp hs
      exact hg.moveComponent (by simp [UnderWay, hc]) (by simp)
  | cacheWorker =>
      obtain ⟨hc, rfl⟩ := guard_eq_some_iff.mp hs
      exact hg.moveComponent (by simp [UnderWay, hc]) (by simp)
  | unlockDone =>
      obtain ⟨hc, rfl⟩ := guard_eq_some_iff.mp hs
      -- by `hd` the task has locked, so there is a lock to release
      have hu : s.UnderWay := by simp [UnderWay, hc]
      exact ⟨by simp [hb, ha.held hu (hd rfl)], ha.unlock hu _ (hd rfl)⟩
  | taskLock =>
      obtain ⟨⟨htk, hm⟩, rfl⟩ := guard_eq_some_iff.mp hs
      obtain ⟨htr, hc, hp⟩ : s.trial = .waitingPromise ∧ s.UnderWay ∧ s.promise = false := by
        cases ha <;> simp_all
      exact ⟨hb, .settingPromise htr rfl (.inr ⟨hc, rfl⟩) hp⟩
  | setPromise =>
      obtain ⟨htk, rfl⟩ := guard_eq_some_iff.mp hs
      obtain ⟨htr, hl⟩ : s.trial = .waitingPromise ∧ s.Latched := by
        cases ha <;> simp_all
      exact ⟨hb, .promised htr rfl hl⟩
  | getPromise =>
      obtain ⟨⟨htr, hp⟩, rfl⟩ := guard_eq_some_iff.mp hs
      obtain ⟨htk, hl⟩ : s.task = .finished ∧ s.Latched := by
        cases ha <;> simp_all
      exact ⟨hb, .trialLocking rfl htk hl⟩
  | trialLock =>
      obtain ⟨⟨htr, hm⟩, rfl⟩ := guard_eq_some_iff.mp hs
      obtain ⟨htk, hc⟩ : s.task = .finished ∧ s.component = .handled := by
        cases ha <;> simp_all [Latched]
      exact ⟨hb, .trialUnlocking rfl htk hc⟩
  | trialUnlock =>
      obtain ⟨htr, rfl⟩ := guard_eq_some_iff.mp hs
      obtain ⟨htk, hc⟩ : s.task = .finished ∧ s.component = .handled := by
        cases ha <;> simp_all
      exact ⟨hb, .after rfl htk hc rfl⟩

/-- In a good state whose `done` is handled only the trial thread can hold the mutex,
and it is about to release it. -/
theorem Good.sound {s : Lifecycle} (hg : Good s) : Sound s := by
  obtain ⟨hb, ha⟩ := hg
  refine ⟨hb, ?_⟩
  intro hex
  obtain ⟨hc, hm, hstays⟩ := hex
  have htr : s.trial = .unlocking := by
    cases ha <;> simp_all [Latched, UnderWay]
  exact hstays _ (Reachable.tail (.refl s) (l := .trialUnlock)
    (guard_eq_some_iff.mpr ⟨htr, rfl⟩)) rfl

/-- An unlock before the task's lock finds the mutex free. -/
theorem Good.doneAfterLock {s t : Lifecycle} {e : Event} (hg : Good s)
    (hs : step s e = some t) (hsound : Sound t) : DoneAfterLock s e := by
  intro heq
  subst heq
  obtain ⟨hc, rfl⟩ := guard_eq_some_iff.mp hs
  cases hlock : s.task.hasLocked with
  | true => rfl
  | false =>
      have hm := hg.agree.free (by simp [UnderWay, hc]) hlock
      have hbad := hsound.unlocks
      simp [hm] at hbad

/-- **No wake-up is lost exactly in the runs whose `done` handlers reach their unlock
after the task's lock.** -/
theorem sound_iff_doneAfterLock {s : Lifecycle} {es : List Event}
    (hx : Exec step init es s) :
    Along step DoneAfterLock init es ↔ Throughout step Sound init es :=
  hx.along_iff_throughout (fun _ hg => hg.sound) (fun _ _ _ hg hd hs => good_step hg hd hs)
    (fun _ _ _ hg hs hP => hg.doneAfterLock hs hP) good_init

/-- One component, its `done` handled after the task has locked. -/
def slowWorker : List Event :=
  [.onNewComponent, .dispatch true, .taskLock, .setPromise, .deliverExecute, .finishComponent,
    .cacheWorker, .getPromise, .unlockDone, .trialLock, .trialUnlock]

/-- One component whose worker answers before the task gets to its lock. -/
def fastWorker : List Event :=
  [.onNewComponent, .dispatch true, .deliverExecute, .finishComponent, .cacheWorker,
    .unlockDone, .taskLock, .setPromise, .getPromise]

theorem slowWorker_sound : Throughout step Sound init slowWorker := by
  have hx : ∃ s, Exec step init slowWorker s := ⟨_, exec_eq_some_iff.mp rfl⟩
  obtain ⟨s, hx⟩ := hx
  exact (sound_iff_doneAfterLock hx).mp (by decide)

/-- The unlock of the fast worker's `done` frees nothing; then the task locks, and the
trial thread waits for a release that no step brings. -/
theorem fastWorker_loses_wakeup :
    ∃ s, Exec step init fastWorker s ∧ s.badUnlock = true ∧ s.trial = .locking ∧
      LostWakeup s := by
  refine ⟨_, exec_eq_some_iff.mp rfl, rfl, rfl, rfl, by decide, fun t ht => ?_⟩
  rw [ht.eq_of_stuck (by intro e; cases e <;> rfl)]
  decide

end Lifecycle

end SecCask.Coordinator
