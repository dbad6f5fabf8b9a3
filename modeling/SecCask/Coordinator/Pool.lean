import SecCask.Coordinator.PoolSteps

/-!
# SecCask.Coordinator.Pool

What the scheduler's pool promises in every reachable state when its methods run without
interruption and a new worker takes whatever component is waiting.
-/

namespace SecCask.Coordinator

open Scheduling

namespace System

variable {setting : Setting} {numSlot : ℕ} {s : System}

/-- Messages whose sender the coordinator looks up in the scheduler. -/
def Reply.LooksUp : Reply → Prop
  | .responseManifest _ | .done => True
  | .ready | .bye => False

/-- What the pool promises in every state. -/
structure PoolOk (numSlot : ℕ) (s : System) : Prop where
  /-- No worker id is in two containers, or in one twice. -/
  apart : (s.scheduler.newWorkers.map Worker.id ++ s.scheduler.activeWorkers.ids ++
    s.scheduler.cachedWorkers.ids).Nodup
  evicted : ∀ id ∈ s.evicted, id ∉ s.scheduler.newWorkers.map Worker.id ++
    s.scheduler.activeWorkers.ids ++ s.scheduler.cachedWorkers.ids
  capacity : s.scheduler.activeWorkers.len + s.scheduler.cachedWorkers.len ≤ numSlot
  /-- No scheduler method has raised an error. -/
  raised : ∀ e, s.fault ≠ some (.scheduler e)
  /-- `get_worker` has found every sender so far … -/
  found : s.unknownIds = []
  /-- … and finds the sender of every message under way. -/
  sender : ∀ id, ∀ reply ∈ (s.links id).up, Reply.LooksUp reply →
    ∃ w, s.scheduler.getWorker id = some w ∧ w.id = id

theorem Inv.poolOk {stage : Stage} (hs : Inv setting numSlot s stage)
    (htakes : setting.AlwaysTakes) : PoolOk numSlot s := by
  have hcachedNodup := s.scheduler.cachedWorkers.ids_nodup
  have hnotParked := hs.notParked htakes
  have hbusy := hs.pool.busy
  have hevicted := hs.pool.evicted
  have hbound := hs.pool.bound
  -- A setting that always takes leaves no worker parked, which is the one stage with a worker
  -- in two caches.
  constructor
  case apart =>
    rw [hs.pool.newIds, hs.pool.activeIds]
    cases stage with
    | idle => simpa [Stage.newIds, Stage.activeIds] using hcachedNodup
    | parked id => exact absurd rfl (hnotParked id)
    | launching id progress =>
        have hid := (hbusy id (by simp [Stage.busyIds])).1
        cases progress <;> simp [Stage.newIds, Stage.activeIds, hcachedNodup, hid]
    | running id =>
        have hid := (hbusy id (by simp [Stage.busyIds])).1
        simp [Stage.newIds, Stage.activeIds, hcachedNodup, hid]
  case evicted =>
    intro id he
    rw [hs.pool.newIds, hs.pool.activeIds]
    cases stage with
    | idle => simpa [Stage.newIds, Stage.activeIds] using hevicted id he
    | parked id => exact absurd rfl (hnotParked id)
    | launching id' progress =>
        have hid := (hbusy id' (by simp [Stage.busyIds])).2
        have hne : id ≠ id' := fun heq => hid (heq ▸ he)
        cases progress <;> simpa [Stage.newIds, Stage.activeIds, hne] using hevicted id he
    | running id' =>
        have hid := (hbusy id' (by simp [Stage.busyIds])).2
        have hne : id ≠ id' := fun heq => hid (heq ▸ he)
        simpa [Stage.newIds, Stage.activeIds, hne] using hevicted id he
  case capacity =>
    rw [PACache.len_eq, PACache.len_eq, hs.pool.activeIds]
    cases stage <;> simp [Stage.activeIds, Stage.busyIds] at hbound ⊢ <;> omega
  case raised => simp [hs.faultless]
  case found => exact hs.found
  case sender =>
    intro id reply hreply hlooks
    -- the sender is being launched, or it is running, or it says `bye`
    obtain ⟨r, rest, hup⟩ := List.exists_cons_of_ne_nil (List.ne_nil_of_mem hreply)
    have hcarries := hs.net.carries
    rcases hs.net.of_up hup with hin | ⟨-, -, rfl, rfl, -⟩
    · cases stage with
      | idle | parked => simp [Stage.busyIds] at hin
      | launching i progress =>
          obtain rfl : id = i := by simpa [Stage.busyIds] using hin
          cases progress with
          | connected h =>
              simp only [Stage.Carries] at hcarries
              rw [hcarries, List.mem_singleton] at hreply
              subst hreply
              exact hlooks.elim
          | responded h obj =>
              obtain ⟨w, hnew, rfl⟩ := List.map_eq_singleton_iff.mp hs.pool.newIds
              exact Scheduler.exists_getWorker (Or.inl (by simp [hnew]))
          | unconnected | registered =>
              simp only [Stage.Carries] at hcarries
              simp [hcarries] at hup
      | running i =>
          obtain rfl : id = i := by simpa [Stage.busyIds] using hin
          obtain ⟨w, -, hid, hget⟩ := hs.pool.getWorker_running
          exact ⟨w, hget, hid⟩
    · rw [hup, List.mem_singleton] at hreply
      subst hreply
      exact hlooks.elim

theorem PoolOk.badManifest {t : System} (hs : PoolOk numSlot s) (ht : BadManifest s t) :
    PoolOk numSlot t := by
  obtain ⟨id, obj, rest, hup, rfl⟩ := ht
  obtain ⟨apart, evicted, capacity, raised, found, sender⟩ := hs
  constructor
  case raised => simp [fail]
  case found => exact found
  case sender =>
    intro id' reply hreply hlooks
    refine sender id' reply ?_ hlooks
    by_cases hne : id' = id
    · subst hne
      simp only [fail, links_setLink_self] at hreply
      simp [hup, hreply]
    · simpa [fail, links_setLink_of_ne _ hne] using hreply
  all_goals assumption

theorem PoolOk.untouched {t : System} (hs : PoolOk numSlot s) (ht : Closing t)
    (hst : Untouched s t) : PoolOk numSlot t := by
  obtain ⟨apart, evicted, capacity, raised, found, -⟩ := hs
  obtain ⟨hscheduler, hevicted, hfault, hfound⟩ := hst
  constructor
  case raised => rcases hfault with h | ⟨id, h⟩ <;> simp [h, raised]
  case found => exact hfound.trans found
  case sender =>
    intro id reply hreply hlooks
    obtain rfl := (ht.farewell id).2 reply hreply
    exact hlooks.elim
  all_goals
    rw [hscheduler]
    first | exact apart | exact capacity | exact hevicted ▸ evicted

/-- **Pool invariant.** In every reachable state no worker is in two containers and an
evicted worker in none, the pool keeps to its slots, no scheduler method has raised an
error, and the coordinator finds the sender of every manifest and every `done`. -/
theorem poolOk_of_reachable (sha256 : ByteArray → String) (setting : Setting) {numSlot : ℕ}
    (hslots : 1 ≤ numSlot) (hatomic : setting.atomicCalls = true)
    (hcheck : setting.config.enableCompatibilityCheckOnNewWorker = false) {s : System}
    (hreach : Reachable (System.step sha256 setting) (init numSlot) s) : PoolOk numSlot s := by
  have htakes : setting.AlwaysTakes := ⟨hatomic, hcheck⟩
  have hinit := inv_init setting numSlot
  have hinv : PoolOk numSlot s ∧
      (s.fault.isSome = true ∨ (∃ stage, Inv setting numSlot s stage) ∨ Closing s) := by
    refine hreach.invariant (I := fun s => PoolOk numSlot s ∧
      (s.fault.isSome = true ∨ (∃ stage, Inv setting numSlot s stage) ∨ Closing s)) ?_
      ⟨hinit.poolOk htakes, Or.inr (Or.inl ⟨_, hinit⟩)⟩
    rintro s e t ⟨hok, hfault | ⟨stage, hinv⟩ | hclosing⟩ hst
    · simp [System.step, hfault] at hst
    · rcases hinv.step hslots hst with ⟨stage', hinv'⟩ | hbad | ⟨-, hclosing, huntouched⟩
      · exact ⟨hinv'.poolOk htakes, Or.inr (Or.inl ⟨stage', hinv'⟩)⟩
      · refine ⟨hok.badManifest hbad, Or.inl ?_⟩
        obtain ⟨id, obj, rest, -, rfl⟩ := hbad
        rfl
      · exact ⟨hok.untouched hclosing huntouched, Or.inr (Or.inr hclosing)⟩
    · obtain ⟨hclosing', huntouched⟩ := hclosing.step hst
      exact ⟨hok.untouched hclosing' huntouched, Or.inr (Or.inr hclosing')⟩
  exact hinv.1

/-- Two components on one slot: the second one's worker takes the place of the first. -/
def twoComponents : List Event :=
  let component : Component := ⟨0, Manifest.defaultValues⟩
  [.newComponent component "w0", .addWaiting, .connect "w0", .deliver "w0" [component],
   .work "w0" {}, .deliver "w0" [component], .work "w0" {}, .deliver "w0" [], .deliver "w0" [],
   .newComponent component "w1"]

theorem twoComponents_poolOk :
    ∃ s, Exec (System.step (fun _ => "") ⟨{ enableCompatibilityCheckOnCaching := false }, true⟩)
        (init 1) twoComponents s ∧ s.evicted = ["w0"] ∧ PoolOk 1 s := by
  obtain ⟨s, hs⟩ := Option.isSome_iff_exists.mp (by decide +kernel :
    ((exec (System.step (fun _ => "") ⟨{ enableCompatibilityCheckOnCaching := false }, true⟩)
      (init 1) twoComponents).filter fun s => s.evicted = ["w0"]).isSome = true)
  obtain ⟨hrun, hevicted⟩ := Option.filter_eq_some_iff.mp hs
  have hexec := exec_eq_some_iff.mp hrun
  exact ⟨s, hexec, by simpa using hevicted,
    poolOk_of_reachable _ _ le_rfl rfl rfl ⟨_, hexec⟩⟩

end System

end SecCask.Coordinator
