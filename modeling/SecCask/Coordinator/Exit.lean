import SecCask.Coordinator.Pool

/-!
# SecCask.Coordinator.Exit

When the `bye` branch of `DoActionFromMsg` calls `_exit(0)`. It does so when the last entry
of `workers_` is gone, and between the eviction of a worker and the `ready` of the one
launched in its place that can be the case with a component waiting: on a single slot no
other worker is left, unless an earlier evicted one has not said `bye` yet.
-/

namespace SecCask.Coordinator

open Scheduling

namespace System

variable {sha256 : ByteArray → String} {setting : Setting} {numSlot : ℕ} {s : System}

/-- The process does not end before the experiment. -/
def ExitsLate (s : System) : Prop := s.exited = true → s.finished = true

/-- When a `bye` is handled before the end of the experiment, there is a second slot, every
launched worker has announced itself, or another evicted worker has not said `bye`. -/
def ByeInTime (numSlot : ℕ) (s : System) : Event → Prop
  | .deliver id _ => (s.links id).up.head? = some .bye → s.finished = false →
      2 ≤ numSlot ∨ (∀ j ∈ s.launched, j ∈ s.connections.workers ∨ j ∈ s.departed) ∨
        ∃ j ∈ s.evicted, j ≠ id ∧ j ∉ s.departed
  | _ => True

instance (numSlot : ℕ) (s : System) (e : Event) : Decidable (ByeInTime numSlot s e) := by
  cases e <;> unfold ByeInTime <;> infer_instance

/-! ### Only `bye` ends the process -/

@[simp] theorem exited_send (s : System) (id : String) (command : Command) :
    (s.send id command).exited = s.exited := by
  unfold send
  split <;> rfl

@[simp] theorem exited_performAll (launchId : String) (s : System) (actions : List Action) :
    (s.performAll launchId actions).exited = s.exited := by
  induction actions generalizing s with
  | nil => rfl
  | cons action actions ih =>
      rw [performAll, List.foldl_cons, ← performAll, ih]
      cases action <;> simp [perform]

@[simp] theorem exited_proceed (s : System) (launchId : String)
    (result : Except SchedulerError (Scheduler × List Action)) :
    (s.proceed launchId result).exited = s.exited := by
  unfold proceed
  split
  · simp
  · rfl

theorem exited_newComponent (config : Config) (component : Component) (launchId : String) :
    (s.newComponent sha256 config component launchId).exited = s.exited := by
  unfold System.newComponent
  split <;> simp

theorem exited_doActionFromMsg (config : Config) (id : String) (order : List Component)
    {reply : Reply} (hreply : reply ≠ .bye) :
    (s.doActionFromMsg sha256 config id order reply).exited = s.exited := by
  cases reply with
  | ready =>
      simp only [doActionFromMsg, System.onReady]
      split
      · simp
      · rfl
  | responseManifest obj =>
      simp only [doActionFromMsg, System.onResponseManifest]
      split
      · rfl
      · split
        · rfl
        · split
          · simp
          · rfl
  | done =>
      simp only [doActionFromMsg, System.onDone]
      split
      · rfl
      · split <;> rfl
  | bye => exact absurd rfl hreply

/-! ### The last entry -/

/-- Taking the entry of a leaving worker out of `workers_` leaves it empty exactly when the
`bye` does not come in time. -/
theorem Inv.lastEntry_iff {stage : Stage} (hs : Inv setting numSlot s stage) (hslots : 1 ≤ numSlot)
    {id : String} (hev : id ∈ s.evicted) :
    (∀ j ∈ s.connections.workers, j = id) ↔
      ¬ (2 ≤ numSlot ∨ (∀ j ∈ s.launched, j ∈ s.connections.workers ∨ j ∈ s.departed) ∨
        ∃ j ∈ s.evicted, j ≠ id ∧ j ∉ s.departed) := by
  have hfull := hs.pool.full (List.ne_nil_of_mem hev)
  have hregistered := hs.net.registered
  have hregbusy : ∀ j ∈ stage.registeredIds, j ∈ stage.busyIds := by
    intro j hj
    cases stage with
    | idle | parked => simp [Stage.registeredIds] at hj
    | launching i progress => cases progress <;> simp_all [Stage.registeredIds, Stage.busyIds]
    | running i => simpa [Stage.registeredIds, Stage.busyIds] using hj
  have hone : stage.busyIds.length ≤ 1 := by
    cases stage <;> simp [Stage.busyIds]
  constructor
  · intro hall
    -- Every cached worker would be a second entry.
    have hempty : s.scheduler.cachedWorkers.ids = [] := by
      refine List.eq_nil_iff_forall_not_mem.mpr fun j hj => hs.pool.evicted id hev ?_
      exact hall j ((hregistered j).mpr (Or.inl hj)) ▸ hj
    rw [hempty, List.length_nil, Nat.zero_add] at hfull
    rintro (htwo | hannounced | ⟨j, hj, hne, hjdep⟩)
    · omega
    · obtain ⟨i, hi⟩ := List.exists_mem_of_length_pos (by omega : 0 < stage.busyIds.length)
      have hinot := (hs.pool.busy i hi).2
      rcases hannounced i ((hs.pool.launched i).mpr (Or.inr (Or.inr hi))) with hin | hgone
      · exact hinot (hall i hin ▸ hev)
      · exact hinot (hs.net.gone i hgone).1
    · exact hne (hall j ((hregistered j).mpr (Or.inr (Or.inl ⟨hj, hjdep⟩))))
  · intro hlate
    simp only [not_or, not_forall, not_exists] at hlate
    obtain ⟨htwo, ⟨i, hi, hinot, higone⟩, hother⟩ := hlate
    -- The worker that has not announced itself takes the only slot.
    have hibusy : i ∈ stage.busyIds := by
      rcases (hs.pool.launched i).mp hi with hcached | hiev | hbusy
      · exact absurd ((hregistered i).mpr (Or.inl hcached)) hinot
      · exact absurd ((hregistered i).mpr (Or.inr (Or.inl ⟨hiev, higone⟩))) hinot
      · exact hbusy
    have hpos := List.length_pos_of_mem hibusy
    have hempty : s.scheduler.cachedWorkers.ids = [] := List.length_eq_zero_iff.mp (by omega)
    obtain ⟨k, hk⟩ := List.length_eq_one_iff.mp (by omega : stage.busyIds.length = 1)
    intro j hj
    rcases (hregistered j).mp hj with hcached | ⟨hjev, hjdep⟩ | hjreg
    · simp [hempty] at hcached
    · by_contra hne
      exact hother j ⟨hjev, hne, hjdep⟩
    · have hji : j = i := by
        have hjbusy := hregbusy j hjreg
        rw [hk, List.mem_singleton] at hjbusy hibusy
        rw [hjbusy, hibusy]
      exact absurd (hji ▸ hj) hinot

/-- A step before the end of the experiment ends the process exactly when it handles a
`bye` that does not come in time. -/
theorem Inv.exited_iff {stage : Stage} (hs : Inv setting numSlot s stage) (hslots : 1 ≤ numSlot)
    {t : System} {e : Event} (hst : System.step sha256 setting s e = some t) :
    t.exited = true ↔ ¬ ByeInTime numSlot s e := by
  unfold System.step at hst
  split at hst
  · cases hst
  rename_i hlive
  obtain ⟨-, hexited⟩ : s.fault.isSome = false ∧ s.exited = false := by simpa using hlive
  -- all events but a delivery leave `exited` as it was, and it was `false`
  have hsame : ∀ {u : System}, u.exited = s.exited → ByeInTime numSlot s e →
      (u.exited = true ↔ ¬ ByeInTime numSlot s e) := by
    intro u hu hin
    rw [hu, hexited]
    exact iff_of_false (by simp) (not_not_intro hin)
  cases e with
  | newComponent component launchId =>
      obtain ⟨-, rfl⟩ := guard_eq_some_iff.mp hst
      exact hsame (exited_newComponent _ _ _) trivial
  | addWaiting =>
      simp only at hst
      split at hst
      · obtain rfl := Option.some.inj hst
        exact hsame rfl trivial
      · cases hst
  | connect id =>
      obtain ⟨-, rfl⟩ := guard_eq_some_iff.mp hst
      exact hsame rfl trivial
  | work id obj =>
      simp only at hst
      split at hst
      · obtain ⟨-, rfl⟩ := guard_eq_some_iff.mp hst
        exact hsame rfl trivial
      · cases hst
  | finish =>
      obtain ⟨⟨hnone, -⟩, rfl⟩ := guard_eq_some_iff.mp hst
      refine hsame ?_ trivial
      unfold System.finish
      generalize s.connections.workers.keys = ids
      have hfold : ∀ u : System, (ids.foldl (fun u id => u.send id .exit) u).exited = u.exited := by
        induction ids with
        | nil => exact fun _ => rfl
        | cons id ids ih => exact fun u => (ih _).trans (exited_send _ _ _)
      exact hfold _
  | deliver id order =>
      simp only at hst
      split at hst
      · rename_i reply rest hup
        obtain ⟨-, rfl⟩ := guard_eq_some_iff.mp hst
        by_cases hbye : reply = .bye
        · subst hbye
          rcases hs.net.of_up hup with hbusy | ⟨hev, hdep, -, rfl, hdown⟩
          -- a busy worker sends no `bye` …
          · have hcarries := hs.net.carries
            cases stage with
            | idle | parked => simp [Stage.busyIds] at hbusy
            | launching i progress =>
                obtain rfl : id = i := by simpa [Stage.busyIds] using hbusy
                cases progress <;> simp_all [Stage.Carries]
            | running i =>
                obtain rfl : id = i := by simpa [Stage.busyIds] using hbusy
                obtain ⟨h, ⟨component, hlink⟩ | ⟨obj, hlink⟩ | hlink⟩ := hcarries <;>
                  simp [hlink] at hup
          -- … and that of an evicted one ends the process with the last entry
          · obtain ⟨exited, heq, hiff, -⟩ := hs.bye hev hdep hdown
            simp only [doActionFromMsg]
            rw [heq]
            simp only [hiff, hs.lastEntry_iff hslots hev, ByeInTime, hup, List.head?_cons,
              hs.unfinished, forall_const]
        · refine hsame (exited_doActionFromMsg _ _ _ hbye) ?_
          simp [ByeInTime, hup, hbye]
      · cases hst

/-- The states of the runs in which no `bye` has come too early. -/
def Runs (setting : Setting) (numSlot : ℕ) (s : System) : Prop :=
  ExitsLate s ∧ (s.fault.isSome = true ∨ (∃ stage, Inv setting numSlot s stage) ∨ Closing s)

theorem runs_step (hslots : 1 ≤ numSlot) {t : System} {e : Event} (hs : Runs setting numSlot s)
    (hin : ByeInTime numSlot s e) (hst : System.step sha256 setting s e = some t) :
    Runs setting numSlot t := by
  obtain ⟨hlate, hfault | ⟨stage, hinv⟩ | hclosing⟩ := hs
  · simp [System.step, hfault] at hst
  · have hexited : ExitsLate t := fun h =>
      absurd hin ((hinv.exited_iff hslots hst).mp h)
    rcases hinv.step hslots hst with hinv' | ⟨id, obj, rest, -, rfl⟩ | ⟨-, hclosing, -⟩
    · exact ⟨hexited, Or.inr (Or.inl hinv')⟩
    · exact ⟨hexited, Or.inl rfl⟩
    · exact ⟨hexited, Or.inr (Or.inr hclosing)⟩
  · obtain ⟨hclosing', -⟩ := hclosing.step hst
    exact ⟨fun _ => hclosing'.finished, Or.inr (Or.inr hclosing')⟩

/-- An exit before the end of the experiment comes from a `bye` that was too early. -/
theorem byeInTime_of_exitsLate (hslots : 1 ≤ numSlot) {t : System} {e : Event}
    (hs : Runs setting numSlot s) (hst : System.step sha256 setting s e = some t)
    (ht : ExitsLate t) : ByeInTime numSlot s e := by
  obtain ⟨-, hfault | ⟨stage, hinv⟩ | hclosing⟩ := hs
  · simp [System.step, hfault] at hst
  · by_contra hin
    have hexited := (hinv.exited_iff hslots hst).mpr hin
    have hfinished := ht hexited
    rcases hinv.step hslots hst with ⟨stage', hinv'⟩ | ⟨id, obj, rest, -, rfl⟩ | ⟨rfl, -⟩
    · rw [hinv'.unfinished] at hfinished
      cases hfinished
    · exact absurd hfinished (by simp [fail, setLink, hinv.unfinished])
    · exact hin trivial
  · cases e with
    | deliver id order => simp [ByeInTime, hclosing.finished]
    | _ => trivial

/-- **No early exit.** In a run no state has the process ended before the experiment exactly
when every `bye` comes in time: with two or more slots always, and on a single slot when no
`bye` is handled between an eviction and the `ready` of the worker launched in its place,
unless another evicted worker has not said `bye` yet. -/
theorem exitsLate_iff_byeInTime (sha256 : ByteArray → String) (setting : Setting) {numSlot : ℕ}
    (hslots : 1 ≤ numSlot) {es : List Event} {t : System}
    (hrun : Exec (System.step sha256 setting) (init numSlot) es t) :
    Throughout (System.step sha256 setting) ExitsLate (init numSlot) es ↔
      Along (System.step sha256 setting) (ByeInTime numSlot) (init numSlot) es := by
  have hinit : Runs setting numSlot (init numSlot) :=
    ⟨fun h => absurd h (by simp [init]), Or.inr (Or.inl ⟨_, inv_init setting numSlot⟩)⟩
  exact (hrun.along_iff_throughout (fun _ hs => hs.1)
    (fun _ _ _ hs hin hst => runs_step hslots hs hin hst)
    (fun _ _ _ hs hst ht => byeInTime_of_exitsLate hslots hs hst ht) hinit).symm

/-- The second worker has announced itself when the first one says `bye`. -/
def readyThenBye : List Event :=
  let component : Component := ⟨0, Manifest.defaultValues⟩
  twoComponents ++ [.addWaiting, .connect "w1", .deliver "w1" [component], .work "w0" {},
    .deliver "w0" [component]]

theorem readyThenBye_exitsLate :
    Throughout
      (System.step (fun _ => "") ⟨{ enableCompatibilityCheckOnCaching := false }, false⟩)
      ExitsLate (init 1) readyThenBye := by
  obtain ⟨s, hs⟩ := Option.isSome_iff_exists.mp (by decide +kernel :
    (exec (System.step (fun _ => "") ⟨{ enableCompatibilityCheckOnCaching := false }, false⟩)
      (init 1) readyThenBye).isSome = true)
  exact (exitsLate_iff_byeInTime _ _ le_rfl (exec_eq_some_iff.mp hs)).mpr (by decide +kernel)

/-- The first worker says `bye` before the one launched in its place is ready. -/
def byeThenReady : List Event :=
  let component : Component := ⟨0, Manifest.defaultValues⟩
  twoComponents ++ [.addWaiting, .work "w0" {}, .deliver "w0" [component]]

/-- The process ends while the second component waits for its worker. -/
theorem byeThenReady_exits_early :
    ∃ s, Exec (System.step (fun _ => "")
        ⟨{ enableCompatibilityCheckOnCaching := false }, false⟩) (init 1) byeThenReady s ∧
      s.exited = true ∧ s.finished = false ∧ s.scheduler.waitingComponents ≠ ∅ := by
  obtain ⟨s, hs⟩ := Option.isSome_iff_exists.mp (by decide +kernel :
    ((exec (System.step (fun _ => "") ⟨{ enableCompatibilityCheckOnCaching := false }, false⟩)
      (init 1) byeThenReady).filter fun s =>
        s.exited && !s.finished && decide (s.scheduler.waitingComponents ≠ ∅)).isSome = true)
  obtain ⟨hrun, hstate⟩ := Option.filter_eq_some_iff.mp hs
  simp only [Bool.and_eq_true, Bool.not_eq_true', decide_eq_true_eq] at hstate
  exact ⟨s, exec_eq_some_iff.mp hrun, hstate.1.1, hstate.1.2, hstate.2⟩

end System

end SecCask.Coordinator
