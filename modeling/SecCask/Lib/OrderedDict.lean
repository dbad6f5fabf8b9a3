import Mathlib.Data.List.AList

/-!
# SecCask.Lib.OrderedDict

Dictionaries that remember the order of their entries, oldest first: an association list
without repeated keys. What a dictionary does apart from the order is the library's
`AList`; here is what depends on it.
-/

namespace SecCask

abbrev OrderedDict (κ ν : Type*) := AList fun _ : κ => ν

namespace OrderedDict

variable {κ ν : Type*} [DecidableEq κ]

/-- Equality of dictionaries with their order, in a form that evaluates. -/
instance [DecidableEq ν] : DecidableEq (OrderedDict κ ν) := fun d e =>
  decidable_of_iff (d.entries = e.entries) AList.ext_iff.symm

/-- `d.values()`, in order. -/
def values (d : OrderedDict κ ν) : List ν := d.entries.map (·.2)

/-- `len(d)` -/
def len (d : OrderedDict κ ν) : ℕ := d.entries.length

omit [DecidableEq κ] in
theorem len_eq_length_keys (d : OrderedDict κ ν) : d.len = d.keys.length := by
  simp [len, AList.keys, List.keys]

omit [DecidableEq κ] in
theorem nodupKeys_snoc {l : List (Sigma fun _ : κ => ν)} (hl : l.NodupKeys)
    {e : Sigma fun _ : κ => ν} (he : e.1 ∉ l.keys) : (l ++ [e]).NodupKeys := by
  have hperm : (e :: l).Perm (l ++ [e]) := (List.perm_append_singleton _ _).symm
  exact (List.perm_nodupKeys hperm).mp (List.nodupKeys_cons.mpr ⟨he, hl⟩)

/-- `d[k] = v; d.move_to_end(k)` -/
def putLast (d : OrderedDict κ ν) (k : κ) (v : ν) : OrderedDict κ ν where
  entries := (d.erase k).entries ++ [⟨k, v⟩]
  nodupKeys := nodupKeys_snoc (d.erase k).nodupKeys
    fun hk => (AList.mem_erase.mp (AList.mem_keys.mpr hk)).1 rfl

theorem keys_map_update (k : κ) (v : ν) (l : List (Sigma fun _ : κ => ν)) :
    (l.map fun e => if e.1 = k then (⟨k, v⟩ : Sigma fun _ : κ => ν) else e).keys = l.keys := by
  show List.map _ (List.map _ l) = List.map _ l
  rw [List.map_map]
  refine List.map_congr_left fun e _ => ?_
  by_cases he : e.1 = k <;> simp [he]

/-- `d[k] = v`: a key that is there keeps its place. -/
def set (d : OrderedDict κ ν) (k : κ) (v : ν) : OrderedDict κ ν :=
  if hk : k ∈ d.keys then
    ⟨d.entries.map fun e => if e.1 = k then ⟨k, v⟩ else e, by
      rw [List.NodupKeys, keys_map_update]
      exact d.nodupKeys⟩
  else ⟨d.entries ++ [⟨k, v⟩], nodupKeys_snoc d.nodupKeys hk⟩

/-- `d.update(e)` -/
def update (d e : OrderedDict κ ν) : OrderedDict κ ν :=
  e.entries.foldl (fun d entry => d.set entry.1 entry.2) d

@[simp] theorem keys_putLast (d : OrderedDict κ ν) (k : κ) (v : ν) :
    (d.putLast k v).keys = d.keys.erase k ++ [k] := by
  rw [← AList.keys_erase]
  simp [putLast, AList.keys]

theorem dlookup_map_update (k : κ) (v : ν) {l : List (Sigma fun _ : κ => ν)} {k' : κ} :
    (l.map fun e => if e.1 = k then (⟨k, v⟩ : Sigma fun _ : κ => ν) else e).dlookup k' =
      if k' = k then (l.dlookup k).map fun _ => v else l.dlookup k' := by
  induction l with
  | nil => simp
  | cons e l ih =>
      obtain ⟨a, b⟩ := e
      by_cases hak : k' = a
      · subst hak
        by_cases hk : k' = k
        · subst hk
          simp
        · simp [hk]
      · -- The first entry is skipped, whether it was updated or not.
        have hskip : ∀ c (l : List (Sigma fun _ : κ => ν)),
            (⟨a, c⟩ :: l : List (Sigma fun _ : κ => ν)).dlookup k' = l.dlookup k' :=
          fun c l => List.dlookup_cons_ne l ⟨a, c⟩ hak
        rw [hskip, List.map_cons]
        by_cases ha : a = k
        · subst ha
          rw [if_pos rfl, hskip, ih, if_neg hak, if_neg hak]
        · rw [if_neg ha, hskip, ih, show (⟨a, b⟩ :: l : List (Sigma fun _ : κ => ν)).dlookup k =
            l.dlookup k from List.dlookup_cons_ne l ⟨a, b⟩ (Ne.symm ha)]

theorem lookup_singleton (k : κ) (v : ν) :
    (AList.singleton k v : OrderedDict κ ν).lookup k = some v :=
  List.dlookup_cons_eq (β := fun _ : κ => ν) [] k v

theorem lookup_singleton_ne {k k' : κ} (v : ν) (h : k' ≠ k) :
    (AList.singleton k v : OrderedDict κ ν).lookup k' = none :=
  List.dlookup_cons_ne [] (⟨k, v⟩ : Sigma fun _ : κ => ν) h

theorem lookup_set (d : OrderedDict κ ν) (k : κ) (v : ν) (k' : κ) :
    (d.set k v).lookup k' = if k' = k then some v else d.lookup k' := by
  unfold set
  split
  · rename_i hk
    obtain ⟨b, hb⟩ := Option.isSome_iff_exists.mp (List.dlookup_isSome.mpr hk)
    show List.dlookup k' (List.map _ _) = _
    rw [dlookup_map_update, hb]
    rfl
  · rename_i hk
    show List.dlookup k' (d.entries ++ _) = _
    rw [List.dlookup_append]
    by_cases hk' : k' = k
    · subst hk'
      rw [List.dlookup_eq_none.mpr hk]
      simp
    · rw [List.dlookup_cons_ne _ _ hk', List.dlookup_nil, Option.or_none, if_neg hk']
      rfl

theorem lookup_foldl_set {α : Type*} (f : α → κ) (g : α → ν) {l : List α} (hl : (l.map f).Nodup)
    (d : OrderedDict κ ν) (k : κ) (v : ν) :
    (l.foldl (fun d a => d.set (f a) (g a)) d).lookup k = some v ↔
      (∃ a ∈ l, f a = k ∧ g a = v) ∨ k ∉ l.map f ∧ d.lookup k = some v := by
  induction l generalizing d with
  | nil => simp
  | cons a l ih =>
      rw [List.map_cons, List.nodup_cons] at hl
      rw [List.foldl_cons, ih hl.2, lookup_set]
      by_cases hk : k = f a
      · subst hk
        simp only [hl.1, not_false_eq_true, if_true, Option.some.injEq, true_and, List.map_cons,
          List.mem_cons, not_true_eq_false, false_and, or_false, or_and_right,
          exists_or, exists_eq_left]
        rw [or_comm]
      · simp [hk, Ne.symm hk]

theorem lookup_update (d e : OrderedDict κ ν) (k : κ) :
    (d.update e).lookup k = (e.lookup k).or (d.lookup k) := by
  have hfold : ∀ l : List (Sigma fun _ : κ => ν), l.NodupKeys → ∀ d : OrderedDict κ ν,
      (l.foldl (fun d entry => d.set entry.1 entry.2) d).lookup k =
        (l.dlookup k).or (d.lookup k) := by
    intro l
    induction l with
    | nil => simp
    | cons entry l ih =>
        intro hl d
        obtain ⟨hnot, hl⟩ := List.nodupKeys_cons.mp hl
        rw [List.foldl_cons, ih hl, lookup_set]
        obtain ⟨a, b⟩ := entry
        by_cases hk : k = a
        · subst hk
          rw [List.dlookup_eq_none.mpr hnot]
          simp
        · rw [List.dlookup_cons_ne _ _ hk, if_neg hk]
  exact hfold e.entries e.nodupKeys d

theorem mem_entries_putLast {d : OrderedDict κ ν} {k : κ} {v : ν} {e : Sigma fun _ : κ => ν}
    (he : e ∈ (d.putLast k v).entries) : e ∈ d.entries ∨ e = ⟨k, v⟩ := by
  rcases List.mem_append.mp he with he | he
  · exact Or.inl ((List.kerase_sublist k d.entries).subset he)
  · exact Or.inr (List.mem_singleton.mp he)

theorem mem_entries_erase {d : OrderedDict κ ν} {k : κ} {e : Sigma fun _ : κ => ν}
    (he : e ∈ (d.erase k).entries) : e ∈ d.entries :=
  (List.kerase_sublist k d.entries).subset he

end OrderedDict

end SecCask
