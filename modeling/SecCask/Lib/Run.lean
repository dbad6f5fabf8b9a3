import Mathlib.Logic.Relation

/-!
# SecCask.Lib.Run

**Runs of a labelled system.** A system is a partial step function
`step : σ → ℓ → Option σ`: the label resolves the nondeterminism (which thread
moves, which message is delivered, where a call fails), and `none` says that the
label is not enabled in that state. A statement about every interleaving is one about
`Exec step s ls t` for all label lists `ls`.

Two predicates travel along a run: `Along` holds a side condition of every step
taken, `Throughout` a property of every state visited. The rules at the end turn
one step lemma into a statement about whole runs.
-/

namespace SecCask

variable {σ ℓ : Type*} {step : σ → ℓ → Option σ}

/-- A guarded move: how step functions are taken apart. -/
theorem guard_eq_some_iff {α : Type*} {c : Prop} [Decidable c] {a b : α} :
    (if c then some a else none) = some b ↔ c ∧ a = b := by
  rw [Option.ite_none_right_eq_some, Option.some.injEq]

/-- Taking the labels `ls` in order leads from the first state to the last. -/
inductive Exec (step : σ → ℓ → Option σ) : σ → List ℓ → σ → Prop
  | nil {s : σ} : Exec step s [] s
  | cons {s t u : σ} {l : ℓ} {ls : List ℓ} :
      step s l = some t → Exec step t ls u → Exec step s (l :: ls) u

/-- `Exec` as a computation. -/
def exec (step : σ → ℓ → Option σ) : σ → List ℓ → Option σ
  | s, [] => some s
  | s, l :: ls => (step s l).bind (exec step · ls)

/-- Every step of the run `ls` from `s` meets the side condition `G`, which may
look at the state before the step and at its label. -/
def Along (step : σ → ℓ → Option σ) (G : σ → ℓ → Prop) : σ → List ℓ → Prop
  | _, [] => True
  | s, l :: ls => G s l ∧ ∀ t, step s l = some t → Along step G t ls

theorem along_cons_iff {G : σ → ℓ → Prop} {s t : σ} {l : ℓ} {ls : List ℓ}
    (hs : step s l = some t) :
    Along step G s (l :: ls) ↔ G s l ∧ Along step G t ls :=
  and_congr_right fun _ =>
    ⟨fun h => h t hs, fun h _ hu => Option.some.inj (hs.symm.trans hu) ▸ h⟩

/-- A condition that every label of the run meets in all states holds along it. -/
theorem along_of_forall_states {G : σ → ℓ → Prop} {ls : List ℓ} (h : ∀ s, ∀ l ∈ ls, G s l)
    (s : σ) : Along step G s ls := by
  induction ls generalizing s with
  | nil => trivial
  | cons l ls ih =>
      exact ⟨h s l (by simp), fun t _ => ih (fun u m hm => h u m (by simp [hm])) t⟩

/-- A condition on the labels alone holds along every run. -/
theorem along_of_forall {G : ℓ → Prop} {ls : List ℓ} (h : ∀ l ∈ ls, G l) (s : σ) :
    Along step (fun _ l => G l) s ls :=
  along_of_forall_states (fun _ => h) s

instance decidableAlong {G : σ → ℓ → Prop} [∀ s l, Decidable (G s l)] :
    ∀ s ls, Decidable (Along step G s ls)
  | _, [] => isTrue trivial
  | s, l :: ls =>
      match hs : step s l with
      | none => decidable_of_iff (G s l)
          ⟨fun h => ⟨h, fun t ht => absurd (hs.symm.trans ht) (by simp)⟩, And.left⟩
      | some t =>
          have := decidableAlong (G := G) t ls
          decidable_of_iff (G s l ∧ Along step G t ls) (along_cons_iff hs).symm

/-- Every state that the run `ls` from `s` visits has the property `P`. -/
def Throughout (step : σ → ℓ → Option σ) (P : σ → Prop) : σ → List ℓ → Prop
  | s, [] => P s
  | s, l :: ls => P s ∧ ∀ t, step s l = some t → Throughout step P t ls

theorem exec_eq_some_iff {s t : σ} {ls : List ℓ} :
    exec step s ls = some t ↔ Exec step s ls t := by
  induction ls generalizing s with
  | nil =>
      constructor
      · intro h
        obtain rfl : s = t := by simpa [exec] using h
        exact Exec.nil
      · intro h
        cases h
        rfl
  | cons l ls ih =>
      simp only [exec, Option.bind_eq_some_iff]
      constructor
      · intro hex
        obtain ⟨u, hu, hrest⟩ := hex
        exact Exec.cons hu (ih.mp hrest)
      · intro h
        cases h with
        | cons hu hrest => exact ⟨_, hu, ih.mpr hrest⟩

namespace Exec

theorem single {s t : σ} {l : ℓ} (h : step s l = some t) : Exec step s [l] t :=
  cons h nil

theorem append {s t u : σ} {ls ms : List ℓ} (h : Exec step s ls t)
    (k : Exec step t ms u) : Exec step s (ls ++ ms) u := by
  induction h with
  | nil => exact k
  | cons hs _ ih => exact cons hs (ih k)

/-- A run in two parts. -/
theorem append_inv {s u : σ} {ls ms : List ℓ} (h : Exec step s (ls ++ ms) u) :
    ∃ t, Exec step s ls t ∧ Exec step t ms u := by
  induction ls generalizing s with
  | nil => exact ⟨s, nil, h⟩
  | cons l ls ih =>
      cases h with
      | cons hst hrest =>
          obtain ⟨t, ht, hms⟩ := ih hrest
          exact ⟨t, cons hst ht, hms⟩

theorem snoc {s t u : σ} {ls : List ℓ} {l : ℓ} (h : Exec step s ls t)
    (k : step t l = some u) : Exec step s (ls ++ [l]) u :=
  h.append (single k)

/-- The last step of a run. -/
theorem snoc_iff {s u : σ} {ls : List ℓ} {l : ℓ} :
    Exec step s (ls ++ [l]) u ↔ ∃ t, Exec step s ls t ∧ step t l = some u := by
  constructor
  · intro h
    obtain ⟨t, ht, hlast⟩ := h.append_inv
    cases hlast with
    | cons hst hrest =>
        cases hrest
        exact ⟨t, ht, hst⟩
  · intro hex
    obtain ⟨t, ht, hlast⟩ := hex
    exact ht.snoc hlast

/-- A property that every step keeps holds at the end of every run. -/
theorem invariant {I : σ → Prop}
    (hstep : ∀ s l t, I s → step s l = some t → I t)
    {s t : σ} {ls : List ℓ} (h : Exec step s ls t) (hs : I s) : I t := by
  induction h with
  | nil => exact hs
  | cons hst _ ih => exact ih (hstep _ _ _ hs hst)

/-- The guarded form: steps need to keep the invariant only where they meet the
side condition that the whole run is known to meet. -/
theorem invariant_along {I : σ → Prop} {G : σ → ℓ → Prop}
    (hstep : ∀ s l t, I s → G s l → step s l = some t → I t)
    {s t : σ} {ls : List ℓ} (h : Exec step s ls t) (hG : Along step G s ls)
    (hs : I s) : I t := by
  induction h with
  | nil => exact hs
  | cons hst _ ih => exact ih (hG.2 _ hst) (hstep _ _ _ hs hG.1 hst)

/-- **Exactness rule.** When, from every state of the invariant, a step meets the
side condition exactly if the state it leads to has the property, a whole run
meets the condition exactly if all of its states have the property. -/
theorem along_iff_throughout {I P : σ → Prop} {G : σ → ℓ → Prop}
    (hP : ∀ s, I s → P s)
    (hstep : ∀ s l t, I s → G s l → step s l = some t → I t)
    (hexact : ∀ s l t, I s → step s l = some t → P t → G s l)
    {s t : σ} {ls : List ℓ} (h : Exec step s ls t) (hs : I s) :
    Along step G s ls ↔ Throughout step P s ls := by
  induction h with
  | nil => exact iff_of_true trivial (hP _ hs)
  | @cons s u t l ls hst _ ih =>
      constructor
      · intro hG
        refine ⟨hP s hs, fun u' hu' => ?_⟩
        obtain rfl : u = u' := Option.some.inj (hst.symm.trans hu')
        exact (ih (hstep _ _ _ hs hG.1 hst)).mp (hG.2 _ hst)
      · intro hT
        have hPu : P u := by
          have hrest := hT.2 u hst
          cases ls with
          | nil => exact hrest
          | cons => exact hrest.1
        have hg : G s l := hexact _ _ _ hs hst hPu
        refine ⟨hg, fun u' hu' => ?_⟩
        obtain rfl : u = u' := Option.some.inj (hst.symm.trans hu')
        exact (ih (hstep _ _ _ hs hg hst)).mpr (hT.2 _ hst)

end Exec

/-- States that some run reaches. -/
def Reachable (step : σ → ℓ → Option σ) (s t : σ) : Prop :=
  ∃ ls, Exec step s ls t

theorem Reachable.refl (s : σ) : Reachable step s s := ⟨[], Exec.nil⟩

theorem Reachable.tail {s t u : σ} {l : ℓ} (h : Reachable step s t)
    (k : step t l = some u) : Reachable step s u := by
  obtain ⟨ls, hls⟩ := h
  exact ⟨ls ++ [l], hls.snoc k⟩

/-- A state without enabled labels reaches only itself. -/
theorem Reachable.eq_of_stuck {s t : σ} (hstuck : ∀ l, step s l = none)
    (h : Reachable step s t) : t = s := by
  obtain ⟨ls, hls⟩ := h
  cases hls with
  | nil => rfl
  | cons hst _ => rw [hstuck] at hst; cases hst

/-- Induction over reachability with the invariant of the run rule. -/
theorem Reachable.invariant {I : σ → Prop}
    (hstep : ∀ s l t, I s → step s l = some t → I t)
    {s t : σ} (h : Reachable step s t) (hs : I s) : I t := by
  obtain ⟨ls, hls⟩ := h
  exact hls.invariant hstep hs

end SecCask
