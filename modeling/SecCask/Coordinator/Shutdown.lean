import SecCask.Coordinator.Progress

/-!
# SecCask.Coordinator.Shutdown

The end of the experiment. Every worker that still has an entry in `workers_` is told to
exit, and the last `bye` ends the process. A worker ends its own process once its `bye` is
on the socket. The runs here are those in which a worker handles nothing after it has begun
to say `bye`, so that an evicted worker that is told to exit a second time answers only once
(`ByeLast`). One that reads the second `exit` while the `bye` is still being written would
start a second write of it.
-/

namespace SecCask.Coordinator

open Scheduling

namespace System

variable {sha256 : ByteArray → String} {setting : Setting} {numSlot : ℕ} {s t : System}

/-- A worker whose `bye` is under way or has been handled handles no command. -/
def ByeLast (s : System) : Event → Prop
  | .work id _ => Reply.bye ∉ (s.links id).up ∧ id ∉ s.departed
  | _ => True

instance (s : System) : DecidablePred (ByeLast s)
  | .work id _ => inferInstanceAs (Decidable (Reply.bye ∉ (s.links id).up ∧ id ∉ s.departed))
  | .newComponent _ _ | .addWaiting | .connect _ | .deliver _ _ | .finish =>
      isTrue trivial

/-- A worker that has still to go: it is told to exit, or its `bye` is under way. -/
def Going (link : Link) : Prop :=
  (link.down.head? = some .exit ∧ link.up = []) ∨ link.up = [.bye]

/-- The state after the experiment, while workers follow the protocol to its end. -/
structure Leaving (s : System) : Prop where
  closing : Closing s
  faultless : s.fault = none
  /-- The entries of `workers_` are the workers that have still to go. -/
  entries : ∀ id, id ∈ s.connections.workers ↔ id ∈ s.launched ∧ id ∉ s.departed
  worker : ∀ id ∈ s.connections.workers, ∃ h, s.connections.worker id = some h
  going : ∀ id ∈ s.connections.workers, Going (s.links id)
  silent : ∀ id, id ∉ s.connections.workers → (s.links id).up = []
  idle : ∀ id, id ∉ s.launched → (s.links id).down = []
  exited : s.exited = true ↔ s.launched ≠ [] ∧ ∀ id ∈ s.launched, id ∈ s.departed

/-! ### Telling everybody to exit -/

/-- Moves left before the worker's entry is gone. -/
def toGo (s : System) (id : String) : ℕ :=
  if id ∈ s.departed then 0 else if (s.links id).up = [] then 2 else 1

/-- One worker comes closer to its end, and the others stay where they are. -/
theorem sum_toGo_lt {id : String} (hid : id ∈ s.launched) (hlaunched : t.launched = s.launched)
    (hlt : t.toGo id < s.toGo id) (hother : ∀ id', id' ≠ id → t.toGo id' = s.toGo id') :
    (t.launched.map t.toGo).sum < (s.launched.map s.toGo).sum := by
  rw [hlaunched]
  refine List.sum_lt_sum _ _ (fun id' _ => ?_) ⟨id, hid, hlt⟩
  by_cases heq : id' = id
  · rw [heq]
    exact hlt.le
  · exact (hother id' heq).le

/-- A worker that reads `exit` is a launched one that has not answered before. -/
theorem Leaving.reads_exit (hs : Leaving s) {id : String} {obj : ManifestObj}
    {command : Command} {rest : List Command} (he : ByeLast s (.work id obj))
    (hdown : (s.links id).down = command :: rest) :
    command = .exit ∧ id ∈ s.launched ∧ (s.links id).up = [] := by
  obtain ⟨hbye, hdep⟩ := he
  have hlaunched : id ∈ s.launched := by
    by_contra hnot
    simp [hs.idle id hnot] at hdown
  refine ⟨(hs.closing.farewell id).1 command (by simp [hdown]), hlaunched, ?_⟩
  rcases hs.going id ((hs.entries id).mpr ⟨hlaunched, hdep⟩) with ⟨-, hup⟩ | hup
  · exact hup
  · simp [hup] at hbye

/-- It says `bye`. -/
theorem Leaving.answer (hs : Leaving s) {id : String} {rest : List Command}
    (hlaunched : id ∈ s.launched) (hdep : id ∉ s.departed) (hup : (s.links id).up = [])
    (hclosing : Closing (s.setLink id { s.links id with down := rest, up := [.bye] })) :
    Leaving (s.setLink id { s.links id with down := rest, up := [.bye] }) ∧
      ((s.setLink id { s.links id with down := rest, up := [.bye] }).launched.map
        (s.setLink id { s.links id with down := rest, up := [.bye] }).toGo).sum <
      (s.launched.map s.toGo).sum := by
  have hentry : id ∈ s.connections.workers := (hs.entries id).mpr ⟨hlaunched, hdep⟩
  refine ⟨?_, sum_toGo_lt hlaunched rfl ?_ ?_⟩
  · obtain ⟨-, faultless, entries, worker, going, silent, idle, exited⟩ := hs
    constructor <;> simp only [setLink]
    case closing => exact hclosing
    case going =>
      intro id' hid'
      by_cases heq : id' = id
      · subst heq
        simp [Going]
      · simpa [heq] using going id' hid'
    case entries => exact entries
    case exited => exact exited
    all_goals grind
  · simp [toGo, setLink, hup, hdep]
  · intro id' heq
    simp [toGo, setLink, heq]

/-- Only a worker that has an entry and has said nothing else says `bye`. -/
theorem Leaving.hears_bye (hs : Leaving s) {id : String} {reply : Reply} {rest : List Reply}
    (hup : (s.links id).up = reply :: rest) :
    reply = .bye ∧ rest = [] ∧ id ∈ s.connections.workers := by
  have hentry : id ∈ s.connections.workers := by
    by_contra hnot
    simp [hs.silent id hnot] at hup
  refine ⟨(hs.closing.farewell id).2 reply (by simp [hup]), ?_, hentry⟩
  rcases hs.going id hentry with ⟨-, hnil⟩ | hbye
  · simp [hup] at hnil
  · simpa [hup] using (List.cons.inj (hup.symm.trans hbye)).2

/-- Its entry goes, and with the last entry the process. -/
theorem Leaving.farewell (hs : Leaving s) {id : String} (hentry : id ∈ s.connections.workers)
    (hup : (s.links id).up = [.bye])
    (hclosing : Closing ((s.setLink id { s.links id with up := [] }).onBye id)) :
    Leaving ((s.setLink id { s.links id with up := [] }).onBye id) ∧
      ((s.setLink id { s.links id with up := [] }).onBye id).launched = s.launched ∧
      (((s.setLink id { s.links id with up := [] }).onBye id).launched.map
        ((s.setLink id { s.links id with up := [] }).onBye id).toGo).sum <
      (s.launched.map s.toGo).sum := by
  obtain ⟨hlaunched, hdep⟩ := (hs.entries id).mp hentry
  obtain ⟨h, hworker⟩ := hs.worker id hentry
  have hworker' : (s.setLink id { s.links id with up := [] }).connections.worker id =
      some h := hworker
  simp only [System.onBye, hworker'] at hclosing ⊢
  refine ⟨?_, rfl, sum_toGo_lt hlaunched rfl ?_ ?_⟩
  · obtain ⟨-, faultless, entries, worker, going, silent, idle, exited⟩ := hs
    constructor <;> simp only [setLink]
    case closing => exact hclosing
    case faultless => exact faultless
    case entries =>
      intro id'
      rw [AList.mem_erase, entries]
      grind
    case worker =>
      intro id' hid'
      obtain ⟨hne, hin⟩ := AList.mem_erase.mp hid'
      obtain ⟨h', hh'⟩ := worker id' hin
      refine ⟨h', ?_⟩
      simpa only [Connections.worker, AList.lookup_erase_ne hne] using hh'
    case going =>
      intro id' hid'
      obtain ⟨hne, hin⟩ := AList.mem_erase.mp hid'
      simpa [hne] using going id' hin
    case silent =>
      intro id' hid'
      by_cases heq : id' = id
      · simp [heq]
      · have hout : id' ∉ s.connections.workers := fun hin =>
          hid' (AList.mem_erase.mpr ⟨heq, hin⟩)
        simpa [heq] using silent id' hout
    case idle => grind
    case exited =>
      refine decide_eq_true_iff.trans ?_
      rw [List.length_eq_zero_iff, List.eq_nil_iff_forall_not_mem]
      simp only [← AList.mem_keys, AList.mem_erase, entries, List.mem_cons]
      constructor
      · intro hnil
        refine ⟨List.ne_nil_of_mem hlaunched, fun id' hid' => ?_⟩
        by_contra hstays
        rw [not_or] at hstays
        exact hnil id' ⟨hstays.1, hid', hstays.2⟩
      · intro hall id' hstays
        rcases hall.2 id' hstays.2.1 with heq | hgone
        · exact hstays.1 heq
        · exact hstays.2.2 hgone
  · simp [toGo, hdep, hup]
  · intro id' heq
    simp [toGo, setLink, heq]

/-- A step of the farewells keeps the state and brings one worker closer to its end. -/
theorem Leaving.step {e : Event} (hs : Leaving s) (he : ByeLast s e)
    (hst : System.step sha256 setting s e = some t) :
    Leaving t ∧ t.launched = s.launched ∧
      (t.launched.map t.toGo).sum < (s.launched.map s.toGo).sum := by
  have hclosing := (hs.closing.step hst).1
  unfold System.step at hst
  split at hst
  · cases hst
  cases e with
  | newComponent component launchId => simp [hs.closing.finished] at hst
  | addWaiting => simp [hs.closing.component] at hst
  | finish => simp [hs.closing.finished] at hst
  | connect id =>
      obtain ⟨⟨hlaunched, hnone, -⟩, -⟩ := guard_eq_some_iff.mp hst
      exact absurd hnone (hs.closing.connected id hlaunched)
  | work id obj =>
      simp only at hst
      split at hst
      · rename_i command rest hdown
        obtain ⟨-, rfl⟩ := guard_eq_some_iff.mp hst
        obtain ⟨rfl, hlaunched, hup⟩ := hs.reads_exit he hdown
        rw [hup, List.nil_append, replies] at hclosing ⊢
        obtain ⟨hleaving, hlt⟩ := hs.answer hlaunched he.2 hup hclosing
        exact ⟨hleaving, rfl, hlt⟩
      · cases hst
  | deliver id order =>
      simp only at hst
      split at hst
      · rename_i reply rest hup
        obtain ⟨-, rfl⟩ := guard_eq_some_iff.mp hst
        obtain ⟨rfl, rfl, hentry⟩ := hs.hears_bye hup
        exact hs.farewell hentry hup hclosing
      · cases hst

end System

end SecCask.Coordinator
