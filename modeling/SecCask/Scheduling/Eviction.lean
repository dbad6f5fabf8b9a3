import SecCask.Lib.Fallible
import SecCask.Lib.Recent
import SecCask.Lib.Run
import SecCask.Scheduling.Scheduler

/-!
# SecCask.Scheduling.Eviction

Which worker gives way to a new one. The pool of idle workers is a dictionary that nothing
ever sorts: a worker goes to its end when it is made idle, and whatever else happens takes
workers out. So the dictionary's order is the order in which the workers have become idle
(`Pool.Ordered`), and `PACache.remove_end` takes the first worker that it can use.
-/

namespace SecCask.Scheduling

namespace PACache

theorem workers_add (p : PACache) (w : Worker) :
    (p.add w).workers = (p.erase w.id).workers ++ [w] := by
  simp [workers, OrderedDict.values, add, erase, OrderedDict.putLast]

theorem workers_erase_sublist (p : PACache) (id : String) :
    (p.erase id).workers.Sublist p.workers :=
  (List.kerase_sublist id p.cache.entries).map _

theorem notMem_workers_erase (p : PACache) (w : Worker) : w ∉ (p.erase w.id).workers := by
  intro hw
  have hid := id_mem_ids hw
  rw [ids_erase, mem_ids_erase] at hid
  exact hid.1 rfl

theorem erase_of_split {p : PACache} {front back : List (Sigma fun _ : String => Worker)}
    {e : Sigma fun _ : String => Worker} (h : p.cache.entries = front ++ e :: back) :
    (p.erase e.1).cache.entries = front ++ back := by
  have hkeys : e.1 ∉ front.keys := by
    have hnodup := p.cache.nodupKeys
    rw [h] at hnodup
    intro hmem
    have hdisjoint := List.nodup_append.mp (by simpa [List.NodupKeys, List.keys] using hnodup)
    exact hdisjoint.2.2 e.1 hmem e.1 List.mem_cons_self rfl
  show List.kerase e.1 p.cache.entries = _
  rw [h, List.kerase_append_right hkeys, List.kerase_cons_eq rfl]

/-- The worker's manifest has the component's name. -/
def Named (manifests : Manifests) (component : Component) (w : Worker) : Prop :=
  (manifests.lookup w).any (·.name == component.manifest.name) = true

/-- Of the workers in their order, `w` is the first whose manifest has the component's name,
or the first of all where none has. -/
def FirstChoice (manifests : Manifests) (component : Component) (before : List Worker)
    (w : Worker) (after : List Worker) : Prop :=
  (Named manifests component w ∧ ∀ v ∈ before, ¬ Named manifests component v) ∨
    (before = [] ∧ ∀ v ∈ w :: after, ¬ Named manifests component v)

/-- `remove_end` takes its first choice out of the pool, and leaves the others in their
order. -/
theorem removeEnd_spec {p : PACache} (hp : p.workers ≠ []) (manifests : Manifests)
    (component : Component) : ∃ before w after p', p.workers = before ++ w :: after ∧
      p.removeEnd manifests component = some (w, p') ∧ p'.workers = before ++ after ∧
      FirstChoice manifests component before w after := by
  unfold removeEnd
  split
  · rename_i e he
    obtain ⟨hname, front, back, hsplit, hfront⟩ := List.find?_eq_some_iff_append.mp he
    refine ⟨front.map (·.2), e.2, back.map (·.2), _, ?_, rfl, ?_, Or.inl ⟨hname, ?_⟩⟩
    · rw [workers, OrderedDict.values, hsplit]
      simp
    · rw [workers, OrderedDict.values, erase_of_split hsplit, List.map_append]
    · intro v hv
      obtain ⟨d, hd, rfl⟩ := List.mem_map.mp hv
      simpa [Named] using hfront d hd
  · rename_i hnone
    cases hentries : p.cache.entries with
    | nil =>
        refine absurd ?_ hp
        rw [workers, OrderedDict.values, hentries]
        rfl
    | cons e back =>
        refine ⟨[], e.2, back.map (·.2), _, ?_, rfl, ?_, Or.inr ⟨rfl, ?_⟩⟩
        · rw [workers, OrderedDict.values, hentries]
          rfl
        · have hsplit : p.cache.entries = [] ++ e :: back := hentries
          rw [workers, OrderedDict.values, erase_of_split hsplit, List.map_append]
          rfl
        · intro v hv hnamed
          have hmem : v ∈ (e :: back).map (·.2) := hv
          rw [← hentries] at hmem
          obtain ⟨d, hd, rfl⟩ := List.mem_map.mp hmem
          exact List.find?_eq_none.mp hnone d hd hnamed

theorem removeEnd_sublist {p p' : PACache} {manifests : Manifests} {component : Component}
    {w : Worker} (h : p.removeEnd manifests component = some (w, p')) :
    p'.workers.Sublist p.workers := by
  by_cases hp : p.workers = []
  · have hempty : p.cache.entries = [] := by simpa [workers, OrderedDict.values] using hp
    simp [removeEnd, hempty] at h
  · obtain ⟨before, v, after, q, hsplit, hremove, hrest, -⟩ :=
      removeEnd_spec hp manifests component
    obtain ⟨-, rfl⟩ := Prod.mk.inj (Option.some.inj (hremove.symm.trans h))
    rw [hrest, hsplit]
    exact (List.Sublist.refl before).append (List.sublist_cons_self v after)

end PACache

/-! ### Runs of the scheduler -/

/-- The scheduler, and the workers that have been made idle so far, in this order. -/
structure Pool where
  scheduler : Scheduler
  madeIdle : List Worker := []

namespace Pool

variable (sha256 : ByteArray → String) (config : Config)

def init (numSlot : ℕ) : Pool := { scheduler := { numSlot := numSlot } }

inductive Op
  | addNewWorker (w : Worker)
  | cacheWorker (w : Worker)
  | activateWorker (w : Worker)
  | getCompatibleWorkerSync (component : Component)
  /-- `order` is the iteration order of the waiting set. -/
  | onWorkerReady (w : Worker) (order : List Component)
  /-- The worker's connection takes a manifest. -/
  | onManifest (w : Worker) (obj : ManifestObj)
  deriving DecidableEq

def Op.run (s : Scheduler) : Op → Except SchedulerError Scheduler
  | .addNewWorker w => .ok (s.addNewWorker w)
  | .cacheWorker w => s.cacheWorker w
  | .activateWorker w => s.activateWorker w
  | .getCompatibleWorkerSync component =>
      (s.getCompatibleWorkerSync sha256 config component).map (·.1)
  | .onWorkerReady w order => (s.onWorkerReady sha256 config w order).map (·.1)
  | .onManifest w obj => ((s.onManifest w obj).map (·.2)).elim (.error .versionError) .ok

/-- The workers that an operation adds to the pool of idle workers. -/
def Op.idle : Op → List Worker
  | .cacheWorker w => [w]
  | .onWorkerReady w _ => [w]
  | _ => []

/-- One operation. Where it raises, it leaves the scheduler as it was. -/
def step (s : Pool) (op : Op) : Option Pool :=
  match op.run sha256 config s.scheduler with
  | .ok scheduler => some ⟨scheduler, s.madeIdle ++ op.idle⟩
  | .error _ => some s

/-- The idle workers are in the order in which they have been made idle last: `dedup` keeps
the last occurrence of each. -/
def Ordered (s : Pool) : Prop := s.scheduler.cachedWorkers.workers.Sublist s.madeIdle.dedup

variable {sha256 config}

/-- A worker that is added goes behind all others, also when it was in the pool. -/
theorem ordered_add {p : PACache} {idle : List Worker} (h : p.workers.Sublist idle.dedup)
    (w : Worker) : (p.add w).workers.Sublist (idle ++ [w]).dedup := by
  rw [PACache.workers_add, dedup_concat]
  refine List.Sublist.append ?_ (List.Sublist.refl [w])
  have hothers := ((p.workers_erase_sublist w.id).trans h).erase w
  rwa [List.erase_of_not_mem (p.notMem_workers_erase w)] at hothers

theorem cachedWorkers_assign {s t : Scheduler} {w : Worker} {component : Component}
    {actions : List Action} (h : s.assign w component = .ok (t, actions)) :
    t.cachedWorkers.workers.Sublist s.cachedWorkers.workers := by
  by_cases hw : w.id ∈ s.cachedWorkers.ids
  · rw [Scheduler.assign_of_mem hw] at h
    obtain ⟨rfl, -⟩ := Prod.mk.inj (Except.ok.inj h)
    rw [Scheduler.assigned_cachedWorkers]
    exact s.cachedWorkers.workers_erase_sublist w.id
  · have hnone : s.cachedWorkers.remove w = none := if_neg hw
    simp [Scheduler.assign, Scheduler.activateWorker, hnone, bind, Except.bind] at h

theorem cachedWorkers_launchWorker {s t : Scheduler} {component : Component}
    {actions : List Action} (h : s.launchWorker component = .ok (t, actions)) :
    t.cachedWorkers.workers.Sublist s.cachedWorkers.workers := by
  unfold Scheduler.launchWorker at h
  split at h
  · cases h
  · split at h
    · split at h
      · rename_i hremove
        obtain ⟨rfl, -⟩ := Prod.mk.inj (Except.ok.inj h)
        exact PACache.removeEnd_sublist hremove
      · cases h
    · obtain ⟨rfl, -⟩ := Prod.mk.inj (Except.ok.inj h)
      exact List.Sublist.refl _

theorem cachedWorkers_getCompatibleWorkerSync {s t : Scheduler} {component : Component}
    {actions : List Action}
    (h : s.getCompatibleWorkerSync sha256 config component = .ok (t, actions)) :
    t.cachedWorkers.workers.Sublist s.cachedWorkers.workers := by
  unfold Scheduler.getCompatibleWorkerSync at h
  split at h
  · exact cachedWorkers_assign h
  · obtain ⟨⟨u, launched⟩, hlaunch, heq⟩ := map_eq_ok_iff.mp h
    obtain ⟨rfl, -⟩ := Prod.mk.inj heq
    -- The waiting component does not show in the pool.
    have hpool := cachedWorkers_launchWorker hlaunch
    exact hpool

/-- The new worker is added, and may be taken out for a waiting component. -/
theorem cachedWorkers_onWorkerReady {s t : Scheduler} {w : Worker} {order : List Component}
    {actions : List Action} (h : s.onWorkerReady sha256 config w order = .ok (t, actions)) :
    t.cachedWorkers.workers.Sublist (s.cachedWorkers.add w).workers := by
  simp only [Scheduler.onWorkerReady] at h
  split at h
  · exact cachedWorkers_assign h
  · obtain ⟨rfl, -⟩ := Prod.mk.inj (Except.ok.inj h)
    exact List.Sublist.refl _

/-- Taking a manifest changes no pool. -/
theorem cachedWorkers_onManifest {s t : Scheduler} {w : Worker} {obj : ManifestObj} {isNew : Bool}
    (h : s.onManifest w obj = some (isNew, t)) : t.cachedWorkers = s.cachedWorkers := by
  obtain ⟨⟨_, m⟩, -, heq⟩ := Option.map_eq_some_iff.mp h
  obtain ⟨-, rfl⟩ := Prod.mk.inj heq
  rfl

/-- What an operation leaves of the pool, with the workers that it adds, is in order. -/
theorem ordered_run {s t : Scheduler} {op : Op} {idle : List Worker}
    (h : op.run sha256 config s = .ok t) (hs : s.cachedWorkers.workers.Sublist idle.dedup) :
    t.cachedWorkers.workers.Sublist (idle ++ op.idle).dedup := by
  cases op with
  | addNewWorker w =>
      obtain rfl := Except.ok.inj h
      simpa [Op.idle, Scheduler.addNewWorker] using hs
  | cacheWorker w =>
      have h : s.cacheWorker w = .ok t := h
      unfold Scheduler.cacheWorker at h
      split at h
      · obtain rfl := Except.ok.inj h
        exact ordered_add hs w
      · cases h
  | activateWorker w =>
      have h : s.activateWorker w = .ok t := h
      unfold Scheduler.activateWorker PACache.remove at h
      split at h
      · rename_i hremove
        obtain rfl := Except.ok.inj h
        split at hremove
        · obtain rfl := Option.some.inj hremove
          simpa [Op.idle] using (s.cachedWorkers.workers_erase_sublist w.id).trans hs
        · cases hremove
      · cases h
  | getCompatibleWorkerSync component =>
      obtain ⟨⟨u, actions⟩, hrun, rfl⟩ := map_eq_ok_iff.mp h
      simpa [Op.idle] using (cachedWorkers_getCompatibleWorkerSync hrun).trans hs
  | onWorkerReady w order =>
      obtain ⟨⟨u, actions⟩, hrun, rfl⟩ := map_eq_ok_iff.mp h
      exact (cachedWorkers_onWorkerReady hrun).trans (ordered_add hs w)
  | onManifest w obj =>
      cases hmanifest : s.onManifest w obj with
      | none =>
          rw [Op.run, hmanifest] at h
          cases h
      | some result =>
          rw [Op.run, hmanifest] at h
          obtain rfl := Except.ok.inj h
          rw [cachedWorkers_onManifest hmanifest]
          simpa [Op.idle] using hs

theorem ordered_step {s t : Pool} {op : Op} (hs : Ordered s)
    (h : step sha256 config s op = some t) : Ordered t := by
  unfold step at h
  split at h
  · rename_i hrun
    obtain rfl := Option.some.inj h
    exact ordered_run hrun hs
  · obtain rfl := Option.some.inj h
    exact hs

theorem ordered_init (numSlot : ℕ) : Ordered (init numSlot) := List.Sublist.refl _

/-- **Eviction policy.** After every run of scheduler operations the idle workers are in the
order in which they have been made idle last, and on a nonempty pool `remove_end` takes out its
first choice in this order: one worker, with the others and their order as they were. -/
theorem removeEnd_evicts_longest_idle {numSlot : ℕ} {ops : List Op} {s : Pool}
    (h : Exec (step sha256 config) (init numSlot) ops s) :
    s.scheduler.cachedWorkers.workers.Sublist s.madeIdle.dedup ∧
      ∀ component, s.scheduler.cachedWorkers.workers ≠ [] →
        ∃ before w after rest, s.scheduler.cachedWorkers.workers = before ++ w :: after ∧
          s.scheduler.cachedWorkers.removeEnd s.scheduler.manifests component = some (w, rest) ∧
          rest.workers = before ++ after ∧
          PACache.FirstChoice s.scheduler.manifests component before w after := by
  refine ⟨h.invariant (fun _ _ _ hs hst => ordered_step hs hst) (ordered_init numSlot), ?_⟩
  intro component hne
  exact PACache.removeEnd_spec hne s.scheduler.manifests component

section Example

/-- A component named `n` of the default version. -/
def namedComponent (n : String) : Component :=
  ⟨0, { Manifest.defaultValues with name := n }⟩

/-- Two workers have been made idle, the first of them twice, and each reports a name. -/
def twiceIdle : List Op :=
  [.onWorkerReady ⟨1, "a"⟩ [], .onWorkerReady ⟨2, "b"⟩ [], .activateWorker ⟨1, "a"⟩,
    .cacheWorker ⟨1, "a"⟩, .onManifest ⟨1, "a"⟩ { name := some "train" },
    .onManifest ⟨2, "b"⟩ { name := some "test" }]

theorem twiceIdle_evicts : ∃ s : Pool,
    Exec (step (fun _ => "") {}) (init 2) twiceIdle s ∧
    s.scheduler.cachedWorkers.workers.Sublist [⟨2, "b"⟩, ⟨1, "a"⟩] ∧
    ∃ before w after rest, s.scheduler.cachedWorkers.workers = before ++ w :: after ∧
      s.scheduler.cachedWorkers.removeEnd s.scheduler.manifests (namedComponent "train") =
        some (w, rest) ∧ rest.workers = before ++ after ∧
      PACache.FirstChoice s.scheduler.manifests (namedComponent "train") before w after := by
  obtain ⟨s, hs⟩ : ∃ s, exec (step (fun _ => "") {}) (init 2) twiceIdle = some s := ⟨_, rfl⟩
  obtain ⟨horder, hevict⟩ := removeEnd_evicts_longest_idle (exec_eq_some_iff.mp hs)
  have hidle : s.madeIdle.dedup = [⟨2, "b"⟩, ⟨1, "a"⟩] := by
    obtain rfl := Option.some.inj hs
    decide +kernel
  have hne : s.scheduler.cachedWorkers.workers ≠ [] := by
    obtain rfl := Option.some.inj hs
    decide +kernel
  rw [hidle] at horder
  exact ⟨s, exec_eq_some_iff.mp hs, horder, hevict (namedComponent "train") hne⟩

end Example

end Pool

end SecCask.Scheduling
