import Mathlib.Tactic.Common

/-!
## Stateful computations that may fail

Weakest preconditions for `EStateM`: a computation changes the state step by step and keeps the
changes it made when it stops with an error. The rules are equations, so `simp` runs a
computation symbolically from the state it starts in.
-/

namespace Effect

variable {σ ε α β : Type}

/-- A computation that only reads the state. -/
def reading (f : σ → Except ε α) : EStateM ε σ α := fun s =>
  match f s with
  | .ok a => .ok a s
  | .error e => .error e s

/-- The state a computation leaves behind, whether it succeeds or fails. -/
def final (m : EStateM ε σ α) (s : σ) : σ :=
  match m s with
  | .ok _ t => t
  | .error _ t => t

/-- From `s` the computation ends with a result in `post`, or fails in `failed`. -/
def wp (m : EStateM ε σ α) (post : α → σ → Prop) (failed : σ → Prop) (s : σ) : Prop :=
  match m s with
  | .ok a t => post a t
  | .error _ t => failed t

variable {Q : α → σ → Prop} {R : β → σ → Prop} {E : σ → Prop} {s : σ}

@[simp] theorem wp_pure (a : α) : wp (pure a : EStateM ε σ α) Q E = Q a := rfl

@[simp] theorem wp_throw (e : ε) : wp (throw e : EStateM ε σ α) Q E = E := rfl

@[simp] theorem wp_bind (m : EStateM ε σ α) (k : α → EStateM ε σ β) :
    wp (m >>= k) R E = wp m (fun a => wp (k a) R E) E := by
  funext s
  show wp (EStateM.bind m k) R E s = _
  unfold wp EStateM.bind
  cases m s <;> rfl

@[simp] theorem wp_map (m : EStateM ε σ α) (f : α → β) :
    wp (f <$> m) R E = wp m (fun a => R (f a)) E := by
  funext s
  show wp (EStateM.map f m) R E s = _
  unfold wp EStateM.map
  cases m s <;> rfl

@[simp] theorem wp_get {P : σ → σ → Prop} :
    wp (get : EStateM ε σ σ) P E = fun s => P s s := rfl

@[simp] theorem wp_set (t : σ) {P : PUnit → σ → Prop} :
    wp (set t : EStateM ε σ PUnit) P E = fun _ => P ⟨⟩ t := rfl

@[simp] theorem wp_modify (f : σ → σ) {P : PUnit → σ → Prop} :
    wp (modify f : EStateM ε σ PUnit) P E = fun s => P ⟨⟩ (f s) := rfl

theorem wp_reading (f : σ → Except ε α) :
    wp (reading f) Q E s = match f s with | .ok a => Q a s | .error _ => E s := by
  unfold wp reading
  cases f s <;> rfl

/-- A read keeps the state: it is enough to treat each result it can have. -/
theorem wp_reading_intro {f : σ → Except ε α} (failed : E s)
    (ok : ∀ a, f s = .ok a → Q a s) : wp (reading f) Q E s := by
  rw [wp_reading]
  cases eq : f s with
  | ok a => exact ok a eq
  | error e => exact failed

theorem wp_mono {m : EStateM ε σ α} {Q' : α → σ → Prop} {E' : σ → Prop} (h : wp m Q E s)
    (post : ∀ a t, Q a t → Q' a t) (failed : ∀ t, E t → E' t) : wp m Q' E' s := by
  unfold wp at *
  cases eq : m s with
  | ok a t => rw [eq] at h; exact post a t h
  | error e t => rw [eq] at h; exact failed t h

theorem wp_and {m : EStateM ε σ α} {Q' : α → σ → Prop} {E' : σ → Prop} (h : wp m Q E s)
    (h' : wp m Q' E' s) : wp m (fun a t => Q a t ∧ Q' a t) (fun t => E t ∧ E' t) s := by
  unfold wp at *
  cases eq : m s <;> rw [eq] at h h' <;> exact ⟨h, h'⟩

/-- What a successful computation ends in. -/
theorem ran_final {m : EStateM ε σ Unit} (ok : (m s matches .ok _ _) = true) :
    m s = .ok () (final m s) := by
  unfold final
  cases eq : m s with
  | ok a t => rfl
  | error e t => simp [eq] at ok

theorem wp_ran {m : EStateM ε σ α} {a : α} {t : σ} (ran : m s = .ok a t) (h : Q a t) :
    wp m Q E s := by
  unfold wp
  rwa [ran]

theorem wp_returned {m : EStateM ε σ α} {a : α} {t : σ} (h : wp m Q E s) (ran : m s = .ok a t) :
    Q a t := by
  unfold wp at h
  rwa [ran] at h

theorem wp_failed {m : EStateM ε σ α} {e : ε} {t : σ} (h : wp m Q E s) (ran : m s = .error e t) :
    E t := by
  unfold wp at h
  rwa [ran] at h

theorem wp_final {P : σ → Prop} {m : EStateM ε σ α} (h : wp m (fun _ => P) P s) :
    P (final m s) := by
  unfold wp at h
  unfold final
  cases eq : m s <;> rw [eq] at h <;> exact h

theorem wp_to_final {m : EStateM ε σ α} :
    wp m (fun _ t => t = final m s) (fun t => t = final m s) s := by
  unfold wp final
  cases m s <;> rfl

/-- A loop over a list keeps an invariant that every pass of its body keeps. -/
theorem wp_forM {P : σ → Prop} {xs : List α} {body : α → EStateM ε σ PUnit}
    (step : ∀ x ∈ xs, ∀ t, P t → wp (body x) (fun _ => P) E t) (hs : P s) :
    wp (xs.forM body) (fun _ => P) E s := by
  induction xs generalizing s with
  | nil => exact hs
  | cons x xs ih =>
    show wp (body x >>= fun _ => xs.forM body) (fun _ => P) E s
    rw [wp_bind]
    exact wp_mono (step x (by simp) s hs)
      (fun _ t ht => ih (fun y hy => step y (by simp [hy])) ht) (fun _ h => h)

/-- The result of a computation, without the state it ends in. -/
def outcome (m : EStateM ε σ α) (s : σ) : Except ε α :=
  match m s with
  | .ok a _ => .ok a
  | .error e _ => .error e

def Blind (m : EStateM ε σ α) : Prop := ∀ s t, outcome m s = outcome m t

theorem Blind.pure (a : α) : Blind (Pure.pure a : EStateM ε σ α) := fun _ _ => rfl

theorem Blind.throw (e : ε) : Blind (MonadExcept.throw e : EStateM ε σ α) := fun _ _ => rfl

theorem Blind.bind {m : EStateM ε σ α} {k : α → EStateM ε σ β} (first : Blind m)
    (rest : ∀ a, Blind (k a)) : Blind (m >>= k) := by
  intro s t
  show outcome (EStateM.bind m k) s = outcome (EStateM.bind m k) t
  have same := first s t
  unfold outcome EStateM.bind at *
  cases atS : m s <;> cases atT : m t <;> rw [atS, atT] at same <;> cases same
  · exact rest _ _ _
  · rfl

theorem Blind.map {m : EStateM ε σ α} (blind : Blind m) (f : α → β) : Blind (f <$> m) := by
  intro s t
  show outcome (EStateM.map f m) s = outcome (EStateM.map f m) t
  have same := blind s t
  unfold outcome EStateM.map at *
  cases atS : m s <;> cases atT : m t <;> rw [atS, atT] at same <;> cases same <;> rfl

theorem Blind.mapM {f : α → EStateM ε σ β} (each : ∀ a, Blind (f a)) (xs : List α) :
    Blind (xs.mapM f) := by
  induction xs with
  | nil => exact .pure []
  | cons x xs ih =>
    rw [List.mapM_cons]
    exact .bind (each x) fun _ => .bind ih fun _ => .pure _

/-! ### With the error -/

/-- As `wp`, where `failed` is told the error as well. -/
def ends (m : EStateM ε σ α) (post : α → σ → Prop) (failed : ε → σ → Prop) (s : σ) : Prop :=
  match m s with
  | .ok a t => post a t
  | .error e t => failed e t

section Ends

variable {F : ε → σ → Prop}

@[simp] theorem ends_pure (a : α) : ends (pure a : EStateM ε σ α) Q F = Q a := rfl

@[simp] theorem ends_throw (e : ε) : ends (throw e : EStateM ε σ α) Q F = F e := rfl

@[simp] theorem ends_bind (m : EStateM ε σ α) (k : α → EStateM ε σ β) :
    ends (m >>= k) R F = ends m (fun a => ends (k a) R F) F := by
  funext s
  show ends (EStateM.bind m k) R F s = _
  unfold ends EStateM.bind
  cases m s <;> rfl

@[simp] theorem ends_map (m : EStateM ε σ α) (f : α → β) :
    ends (f <$> m) R F = ends m (fun a => R (f a)) F := by
  funext s
  show ends (EStateM.map f m) R F s = _
  unfold ends EStateM.map
  cases m s <;> rfl

@[simp] theorem ends_get {P : σ → σ → Prop} :
    ends (get : EStateM ε σ σ) P F = fun s => P s s := rfl

@[simp] theorem ends_set (t : σ) {P : PUnit → σ → Prop} :
    ends (set t : EStateM ε σ PUnit) P F = fun _ => P ⟨⟩ t := rfl

theorem ends_reading (f : σ → Except ε α) :
    ends (reading f) Q F s = match f s with | .ok a => Q a s | .error e => F e s := by
  unfold ends reading
  cases f s <;> rfl

theorem ends_mono {m : EStateM ε σ α} {Q' : α → σ → Prop} {F' : ε → σ → Prop} (h : ends m Q F s)
    (post : ∀ a t, Q a t → Q' a t) (failed : ∀ e t, F e t → F' e t) : ends m Q' F' s := by
  unfold ends at *
  cases eq : m s with
  | ok a t => rw [eq] at h; exact post a t h
  | error e t => rw [eq] at h; exact failed e t h

theorem ends_and {m : EStateM ε σ α} {Q' : α → σ → Prop} {F' : ε → σ → Prop} (h : ends m Q F s)
    (h' : ends m Q' F' s) : ends m (fun a t => Q a t ∧ Q' a t) (fun e t => F e t ∧ F' e t) s := by
  unfold ends at *
  cases eq : m s <;> rw [eq] at h h' <;> exact ⟨h, h'⟩

theorem ends_returned {m : EStateM ε σ α} {a : α} {t : σ} (h : ends m Q F s)
    (ran : m s = .ok a t) : Q a t := by
  unfold ends at h
  rwa [ran] at h

theorem ends_failed {m : EStateM ε σ α} {e : ε} {t : σ} (h : ends m Q F s)
    (ran : m s = .error e t) : F e t := by
  unfold ends at h
  rwa [ran] at h

/-- What holds of the end without the error, together with what is known of the errors. -/
theorem ends_of_wp {m : EStateM ε σ α} (h : wp m Q E s)
    (errors : ∀ e t, m s = .error e t → E t → F e t) : ends m Q F s := by
  unfold wp at h
  unfold ends
  cases eq : m s with
  | ok a t => rwa [eq] at h
  | error e t => rw [eq] at h; exact errors e t eq h

theorem reading_bind_ok {f : σ → Except ε α} {a : α} (h : f s = .ok a) (k : α → EStateM ε σ β) :
    (reading f >>= k) s = k a s := by
  show EStateM.bind (reading f) k s = _
  simp only [EStateM.bind, reading, h]

theorem reading_bind_error {f : σ → Except ε α} {e : ε} (h : f s = .error e)
    (k : α → EStateM ε σ β) : (reading f >>= k) s = .error e s := by
  show EStateM.bind (reading f) k s = _
  simp only [EStateM.bind, reading, h]

theorem get_bind (k : σ → EStateM ε σ β) : ((get : EStateM ε σ σ) >>= k) s = k s s := rfl

theorem bind_ok {m : EStateM ε σ α} {a : α} {t : σ} (h : m s = .ok a t) (k : α → EStateM ε σ β) :
    (m >>= k) s = k a t := by
  show EStateM.bind m k s = _
  simp only [EStateM.bind, h]

end Ends

end Effect
