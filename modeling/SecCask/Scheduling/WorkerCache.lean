import SecCask.Scheduling.Manifest

/-!
# SecCask.Scheduling.WorkerCache

`worker_cache.PACache`: the policy-aware cache of worker connections, keyed by worker id
and ordered by the last `put`.
-/

namespace SecCask.Scheduling

/-- A worker connection object: its identity and its id, which never changes. The manifest
lives in the scheduler's `Manifests`. -/
structure Worker where
  ref : ℕ
  id : String
  deriving DecidableEq, Repr

/-- A component object with the manifest loaded for it. -/
structure Component where
  ref : ℕ
  manifest : Manifest
  deriving DecidableEq

/-- `worker.manifest` of every connection; absent while it is `None`. -/
abbrev Manifests := AList fun _ : Worker => Manifest

/-- Every entry is filed under its own id. -/
structure PACache where
  cache : OrderedDict String Worker
  keyed : ∀ e ∈ cache.entries, e.2.id = e.1
  deriving DecidableEq

namespace PACache

def empty : PACache := ⟨∅, by simp⟩

/-- `iter(cache)` -/
def workers (p : PACache) : List Worker := p.cache.values

/-- `len(cache)` -/
def len (p : PACache) : ℕ := p.cache.len

/-- The ids, oldest first. -/
def ids (p : PACache) : List String := p.cache.keys

def erase (p : PACache) (id : String) : PACache where
  cache := p.cache.erase id
  keyed := fun e he => p.keyed e (OrderedDict.mem_entries_erase he)

/-- `PACache.add` -/
def add (p : PACache) (w : Worker) : PACache where
  cache := p.cache.putLast w.id w
  keyed := by
    intro e he
    rcases OrderedDict.mem_entries_putLast he with he | rfl
    · exact p.keyed e he
    · rfl

/-- `PACache.remove`; `none` where `pop` raises `KeyError`. -/
def remove (p : PACache) (w : Worker) : Option PACache :=
  if w.id ∈ p.cache then some (p.erase w.id) else none

/-- `PACache.remove_end`: the oldest worker whose manifest has the component's name, else
the oldest worker. `none` where `popitem` raises on an empty cache. -/
def removeEnd (p : PACache) (manifests : Manifests) (component : Component) :
    Option (Worker × PACache) :=
  match p.cache.entries.find? fun e =>
      (manifests.lookup e.2).any (·.name == component.manifest.name) with
  | some e => some (e.2, p.erase e.1)
  | none => p.cache.entries.head?.map fun e => (e.2, p.erase e.1)

@[simp] theorem ids_empty : empty.ids = [] := rfl

@[simp] theorem ids_erase (p : PACache) (id : String) : (p.erase id).ids = p.ids.erase id :=
  AList.keys_erase id p.cache

@[simp] theorem ids_add (p : PACache) (w : Worker) : (p.add w).ids = p.ids.erase w.id ++ [w.id] :=
  OrderedDict.keys_putLast p.cache w.id w

theorem ids_nodup (p : PACache) : p.ids.Nodup := p.cache.keys_nodup

theorem len_eq (p : PACache) : p.len = p.ids.length := OrderedDict.len_eq_length_keys p.cache

theorem map_id_workers (p : PACache) : p.workers.map Worker.id = p.ids := by
  simp only [workers, OrderedDict.values, ids, AList.keys, List.keys, List.map_map]
  exact List.map_congr_left fun e he => p.keyed e he

theorem id_mem_ids {p : PACache} {w : Worker} (hw : w ∈ p.workers) : w.id ∈ p.ids := by
  rw [← map_id_workers]
  exact List.mem_map_of_mem hw

theorem mem_workers_add {p : PACache} {w v : Worker} (h : v ∈ (p.add w).workers) :
    v ∈ p.workers ∨ v = w := by
  obtain ⟨e, he, rfl⟩ := List.mem_map.mp h
  rcases OrderedDict.mem_entries_putLast he with he | rfl
  · exact Or.inl (List.mem_map_of_mem he)
  · exact Or.inr rfl

theorem mem_workers_erase {p : PACache} {id : String} {v : Worker}
    (h : v ∈ (p.erase id).workers) : v ∈ p.workers := by
  obtain ⟨e, he, rfl⟩ := List.mem_map.mp h
  exact List.mem_map_of_mem (OrderedDict.mem_entries_erase he)

theorem mem_ids_erase {p : PACache} {id id' : String} :
    id' ∈ p.ids.erase id ↔ id' ≠ id ∧ id' ∈ p.ids :=
  p.ids_nodup.mem_erase_iff

theorem remove_of_mem {p : PACache} {w : Worker} (hw : w.id ∈ p.ids) :
    p.remove w = some (p.erase w.id) :=
  if_pos hw

/-- On a nonempty cache `remove_end` takes out one of its workers. -/
theorem removeEnd_of_ne_nil {p : PACache} (hp : p.ids ≠ []) (manifests : Manifests)
    (component : Component) :
    ∃ w ∈ p.workers, p.removeEnd manifests component = some (w, p.erase w.id) := by
  unfold removeEnd
  split
  · rename_i e he
    have hmem := List.mem_of_find?_eq_some he
    exact ⟨e.2, List.mem_map_of_mem hmem, by rw [p.keyed e hmem]⟩
  · cases hentries : p.cache.entries with
    | nil =>
        refine absurd ?_ hp
        simp [ids, AList.keys, hentries]
    | cons e es =>
        have hmem : e ∈ p.cache.entries := hentries ▸ List.mem_cons_self
        exact ⟨e.2, List.mem_map_of_mem hmem, by rw [p.keyed e hmem]; rfl⟩

end PACache

end SecCask.Scheduling
