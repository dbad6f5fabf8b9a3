import Mathlib.Order.Defs.Unbundled

/-!
# SecCask.Lib.Effect

Computations that change a state and may raise an error at any point, keeping the state as
they leave it. Three ways to reason about them: inversion rules for the runs that succeed,
`Within`, for what every run does to the state, the failing ones included, and `Returns`, for
the runs that are bound to succeed.
-/

namespace SecCask

variable {ε σ α β : Type}

abbrev Effect (ε σ α : Type) := ExceptT ε (StateM σ) α

namespace Effect

/-- The result of a computation and the state that it leaves. -/
def runFrom (x : Effect ε σ α) (s : σ) : Except ε α × σ := (ExceptT.run x).run s

@[simp] theorem runFrom_pure (a : α) (s : σ) :
    runFrom (pure a : Effect ε σ α) s = (.ok a, s) := rfl

@[simp] theorem runFrom_throw (e : ε) (s : σ) :
    runFrom (throw e : Effect ε σ α) s = (.error e, s) := rfl

@[simp] theorem runFrom_get (s : σ) : runFrom (get : Effect ε σ σ) s = (.ok s, s) := rfl

@[simp] theorem runFrom_modify (f : σ → σ) (s : σ) :
    runFrom (modify f : Effect ε σ PUnit) s = (.ok ⟨⟩, f s) := rfl

/-- A step that either changes the state or raises an error and leaves it. -/
def attempt (f : σ → Except ε σ) : Effect ε σ PUnit := do
  set (← MonadExcept.ofExcept (f (← get)))

theorem runFrom_attempt (f : σ → Except ε σ) (s : σ) :
    runFrom (attempt f) s =
      match f s with
      | .ok t => (.ok ⟨⟩, t)
      | .error e => (.error e, s) := by
  show (match (ExceptT.run (MonadExcept.ofExcept (f s) : Effect ε σ σ)).run s with
    | (r, t) => (ExceptT.bindCont (fun u => (set u : Effect ε σ PUnit)) r).run t) = _
  cases f s <;> rfl

/-- What an `Except` value does as a computation. -/
@[simp] theorem runFrom_ofExcept (x : Except ε α) (s : σ) :
    runFrom (MonadExcept.ofExcept x : Effect ε σ α) s = (x, s) := by
  cases x <;> rfl

theorem runFrom_bind (x : Effect ε σ α) (f : α → Effect ε σ β) (s : σ) :
    runFrom (x >>= f) s =
      match runFrom x s with
      | (.ok a, t) => runFrom (f a) t
      | (.error e, t) => (.error e, t) := by
  show (match (ExceptT.run x).run s with | (r, t) => (ExceptT.bindCont f r).run t) = _
  show _ = match (ExceptT.run x).run s with | (.ok a, t) => _ | (.error e, t) => _
  rcases (ExceptT.run x).run s with ⟨_ | _, t⟩ <;> rfl

theorem runFrom_tryCatch (x : Effect ε σ α) (handler : ε → Effect ε σ α) (s : σ) :
    runFrom (tryCatch x handler) s =
      match runFrom x s with
      | (.ok a, t) => (.ok a, t)
      | (.error e, t) => runFrom (handler e) t := by
  show (match (ExceptT.run x).run s with
    | (r, t) => (match r with
        | .ok a => pure (Except.ok a) | .error e => handler e : StateM σ _).run t) = _
  show _ = match (ExceptT.run x).run s with | (.ok a, t) => _ | (.error e, t) => _
  rcases (ExceptT.run x).run s with ⟨_ | _, t⟩ <;> rfl

theorem mapError_ok {ε' : Type} (f : ε → ε') (a : α) :
    (Except.ok a : Except ε α).mapError f = .ok a := rfl

theorem mapError_error {ε' : Type} (f : ε → ε') (e : ε) :
    (Except.error e : Except ε α).mapError f = .error (f e) := rfl

/-- Errors of one kind become errors of another. -/
theorem runFrom_adapt {ε' : Type} (f : ε → ε') (x : Effect ε σ α) (s : σ) :
    runFrom (ExceptT.adapt f x : Effect ε' σ α) s =
      ((runFrom x s).1.mapError f, (runFrom x s).2) := rfl

theorem runFrom_forM_cons (f : α → Effect ε σ PUnit) (a : α) (l : List α) (s : σ) :
    runFrom ((a :: l).forM f) s =
      match runFrom (f a) s with
      | (.ok _, t) => runFrom (l.forM f) t
      | (.error e, t) => (.error e, t) := by
  show runFrom (f a >>= fun _ => l.forM f) s = _
  rw [runFrom_bind]
  rcases runFrom (f a) s with ⟨_ | _, t⟩ <;> rfl

theorem runFrom_forM_append (f : α → Effect ε σ PUnit) (l l' : List α) (s : σ) :
    runFrom ((l ++ l').forM f) s =
      match runFrom (l.forM f) s with
      | (.ok _, t) => runFrom (l'.forM f) t
      | (.error e, t) => (.error e, t) := by
  show runFrom (forM (l ++ l') f) s = _
  rw [List.forM_append, runFrom_bind]
  show _ = match runFrom (forM l f) s with | (.ok _, t) => _ | (.error e, t) => _
  rcases runFrom (forM l f) s with ⟨_ | _, t⟩ <;> rfl

/-! ### Runs that succeed -/

theorem runFrom_bind_eq_ok_iff {x : Effect ε σ α} {f : α → Effect ε σ β} {s u : σ} {b : β} :
    runFrom (x >>= f) s = (.ok b, u) ↔
      ∃ a t, runFrom x s = (.ok a, t) ∧ runFrom (f a) t = (.ok b, u) := by
  rw [runFrom_bind]
  rcases runFrom x s with ⟨e | a, t⟩
  · simp
  · simp only [Prod.mk.injEq, Except.ok.injEq]
    constructor
    · intro h
      exact ⟨a, t, ⟨rfl, rfl⟩, h⟩
    · intro hex
      obtain ⟨_, _, ⟨rfl, rfl⟩, h⟩ := hex
      exact h

theorem runFrom_pure_eq_ok_iff {s t : σ} {a b : α} :
    runFrom (pure a : Effect ε σ α) s = (.ok b, t) ↔ a = b ∧ s = t := by
  simp

theorem runFrom_get_eq_ok_iff {s t a : σ} :
    runFrom (get : Effect ε σ σ) s = (.ok a, t) ↔ s = a ∧ s = t := by
  simp

theorem runFrom_modify_eq_ok_iff {f : σ → σ} {s t : σ} {a : PUnit} :
    runFrom (modify f : Effect ε σ PUnit) s = (.ok a, t) ↔ f s = t := by
  simp

theorem runFrom_ofExcept_eq_ok_iff {x : Except ε α} {s t : σ} {a : α} :
    runFrom (MonadExcept.ofExcept x : Effect ε σ α) s = (.ok a, t) ↔ x = .ok a ∧ s = t := by
  simp

theorem runFrom_adapt_eq_ok_iff {ε' : Type} {f : ε → ε'} {x : Effect ε σ α} {s t : σ} {a : α} :
    runFrom (ExceptT.adapt f x : Effect ε' σ α) s = (.ok a, t) ↔ runFrom x s = (.ok a, t) := by
  rw [runFrom_adapt]
  rcases runFrom x s with ⟨_ | _, _⟩ <;> simp [mapError_ok, mapError_error]

/-! ### What every run does to the state -/

/-- The run of the computation from a state, successful or not, relates it to the state that
it leaves. -/
def WithinFrom (R : σ → σ → Prop) (x : Effect ε σ α) (s : σ) : Prop := R s (runFrom x s).2

theorem WithinFrom.of_run {R : σ → σ → Prop} {x : Effect ε σ α} {s t : σ} {r : Except ε α}
    (h : WithinFrom R x s) (hrun : runFrom x s = (r, t)) : R s t := by
  rwa [WithinFrom, hrun] at h

/-- The second part is only entered with what the first one can return. -/
theorem WithinFrom.bind {R : σ → σ → Prop} [IsTrans σ R] {x : Effect ε σ α}
    {f : α → Effect ε σ β} {s : σ} (hx : WithinFrom R x s)
    (hf : ∀ a t, runFrom x s = (.ok a, t) → WithinFrom R (f a) t) : WithinFrom R (x >>= f) s := by
  unfold WithinFrom at hx ⊢
  rw [runFrom_bind]
  rcases hrun : runFrom x s with ⟨e | a, t⟩ <;> rw [hrun] at hx
  · exact hx
  · exact IsTrans.trans _ _ _ hx (hf a t hrun)

/-- Every run of the computation, successful or not, relates the first state to the last. -/
def Within (R : σ → σ → Prop) (x : Effect ε σ α) : Prop := ∀ s, R s (runFrom x s).2

namespace Within

variable {R : σ → σ → Prop}

theorem of_run {x : Effect ε σ α} (h : Within R x) {s t : σ} {r : Except ε α}
    (hrun : runFrom x s = (r, t)) : R s t := WithinFrom.of_run (h s) hrun

theorem mono {R' : σ → σ → Prop} {x : Effect ε σ α} (h : Within R x)
    (hR : ∀ s t, R s t → R' s t) : Within R' x :=
  fun s => hR s _ (h s)

theorem modify {f : σ → σ} (hf : ∀ s, R s (f s)) :
    Within R (modify f : Effect ε σ PUnit) := hf

section Refl

variable [Std.Refl R]

theorem pure (a : α) : Within R (pure a : Effect ε σ α) := fun s => Std.Refl.refl s

theorem throw (e : ε) : Within R (throw e : Effect ε σ α) := fun s => Std.Refl.refl s

theorem get : Within R (get : Effect ε σ σ) := fun s => Std.Refl.refl s

theorem ofExcept (x : Except ε α) : Within R (MonadExcept.ofExcept x : Effect ε σ α) := by
  intro s
  rw [runFrom_ofExcept]
  exact Std.Refl.refl s

end Refl

section Trans

variable [IsTrans σ R]

theorem bind {x : Effect ε σ α} {f : α → Effect ε σ β} (hx : Within R x)
    (hf : ∀ a, Within R (f a)) : Within R (x >>= f) :=
  fun s => WithinFrom.bind (hx s) fun a t _ => hf a t

theorem tryCatch {x : Effect ε σ α} {handler : ε → Effect ε σ α} (hx : Within R x)
    (hhandler : ∀ e, Within R (handler e)) : Within R (tryCatch x handler) := by
  intro s
  have hs := hx s
  rw [runFrom_tryCatch]
  rcases hrun : runFrom x s with ⟨e | a, t⟩ <;> rw [hrun] at hs
  · exact IsTrans.trans _ _ _ hs (hhandler e t)
  · exact hs

end Trans

theorem foldlM [Std.Refl R] [IsTrans σ R] {f : β → α → Effect ε σ β} {l : List α}
    (hf : ∀ a ∈ l, ∀ b, Within R (f b a)) (b : β) : Within R (l.foldlM f b) := by
  induction l generalizing b with
  | nil => exact Within.pure b
  | cons a l ih =>
      rw [List.foldlM_cons]
      exact Within.bind (hf a (by simp) b) (ih fun a ha => hf a (by simp [ha]))

theorem forM [Std.Refl R] [IsTrans σ R] {f : α → Effect ε σ PUnit} {l : List α}
    (hf : ∀ a ∈ l, Within R (f a)) : Within R (l.forM f) := by
  induction l with
  | nil => exact Within.pure _
  | cons a l ih =>
      show Within R (f a >>= fun _ => l.forM f)
      exact Within.bind (hf a (by simp)) fun _ => ih fun a ha => hf a (by simp [ha])

end Within

/-! ### Runs that are bound to succeed -/

/-- The computation raises nothing in the state. -/
def Returns (x : Effect ε σ α) (s : σ) : Prop := ∃ a t, runFrom x s = (.ok a, t)

namespace Returns

theorem pure (a : α) (s : σ) : Returns (pure a : Effect ε σ α) s := ⟨a, s, rfl⟩

theorem get (s : σ) : Returns (get : Effect ε σ σ) s := ⟨s, s, rfl⟩

theorem modify (f : σ → σ) (s : σ) : Returns (modify f : Effect ε σ PUnit) s := ⟨⟨⟩, f s, rfl⟩

theorem ofExcept {x : Except ε α} (hx : ∃ a, x = .ok a) (s : σ) :
    Returns (MonadExcept.ofExcept x : Effect ε σ α) s := by
  obtain ⟨a, rfl⟩ := hx
  exact ⟨a, s, rfl⟩

/-- The second part has to succeed after every success of the first. -/
theorem bind {x : Effect ε σ α} {f : α → Effect ε σ β} {s : σ} (hx : Returns x s)
    (hf : ∀ a t, runFrom x s = (.ok a, t) → Returns (f a) t) : Returns (x >>= f) s := by
  obtain ⟨a, t, hrun⟩ := hx
  obtain ⟨b, u, hrest⟩ := hf a t hrun
  exact ⟨b, u, runFrom_bind_eq_ok_iff.mpr ⟨a, t, hrun, hrest⟩⟩

/-- A loop succeeds when its rounds do, under a relation that every round keeps. -/
theorem foldlM {R : σ → σ → Prop} [Std.Refl R] [IsTrans σ R] {f : β → α → Effect ε σ β}
    {l : List α} {s : σ} (hf : ∀ a ∈ l, ∀ b t, R s t → Returns (f b a) t)
    (hR : ∀ a ∈ l, ∀ b, Within R (f b a)) (b : β) : Returns (l.foldlM f b) s := by
  have hfrom : ∀ t, R s t → Returns (l.foldlM f b) t := by
    induction l generalizing b with
    | nil => exact fun t _ => pure b t
    | cons a l ih =>
        intro t ht
        rw [List.foldlM_cons]
        refine (hf a (by simp) b t ht).bind fun c u hrun => ?_
        refine ih (fun a ha => hf a (by simp [ha])) (fun a ha => hR a (by simp [ha])) c u ?_
        exact IsTrans.trans _ _ _ ht ((hR a (by simp) b).of_run hrun)
  exact hfrom s (Std.Refl.refl s)

theorem forM {R : σ → σ → Prop} [Std.Refl R] [IsTrans σ R] {f : α → Effect ε σ PUnit}
    {l : List α} {s : σ} (hf : ∀ a ∈ l, ∀ t, R s t → Returns (f a) t)
    (hR : ∀ a ∈ l, Within R (f a)) : Returns (l.forM f) s := by
  have hfrom : ∀ t, R s t → Returns (l.forM f) t := by
    induction l with
    | nil => exact fun t _ => pure _ t
    | cons a l ih =>
        intro t ht
        refine (hf a (by simp) t ht).bind fun c u hrun => ?_
        refine ih (fun a ha => hf a (by simp [ha])) (fun a ha => hR a (by simp [ha])) u ?_
        exact IsTrans.trans _ _ _ ht ((hR a (by simp)).of_run hrun)
  exact hfrom s (Std.Refl.refl s)

end Returns

end Effect

end SecCask
