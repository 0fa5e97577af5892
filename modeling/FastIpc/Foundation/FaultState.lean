import Mathlib.Logic.Basic

/-!
# State-passing computations that may fault

Kernel code either returns with a new state or stops the machine.  A
`FaultM` computation takes a state and gives back a result with the state
after it, or the fault that ended it.  The lemmas take such a computation apart
at its binds, so that the callers of a function only ever cite what the function
does.

Main results:

- Theorem `bind_eq_ok`: a sequence returns exactly if both parts do.
- Theorem `zoom_eq_ok`: running a computation on a component changes that
  component only.
- Theorem `Avoids.bind`: a sequence of computations without a fault has none.
- Theorem `wp_bind`: what a sequence has to reach, for its parts.
- Theorem `wlp_bind`: the same if it returns.
-/

namespace FastIpc
namespace Foundation

variable {ε σ τ α β : Type}

/-- Computations over a state that may stop with a fault. -/
abbrev FaultM (ε σ : Type) := StateT σ (Except ε)

namespace FaultM

/-- Run a computation on one component of a larger state. -/
def zoom (view : σ → τ) (put : τ → σ → σ) (x : FaultM ε τ α) : FaultM ε σ α := fun s =>
  match x (view s) with
  | .ok (a, t) => .ok (a, put t s)
  | .error e => .error e

@[simp]
theorem pure_apply (a : α) (s : σ) : (pure a : FaultM ε σ α) s = .ok (a, s) := rfl

@[simp]
theorem throw_apply (e : ε) (s : σ) : (throw e : FaultM ε σ α) s = .error e := rfl

@[simp]
theorem get_apply (s : σ) : (get : FaultM ε σ σ) s = .ok (s, s) := rfl

@[simp]
theorem set_apply (s t : σ) : (set t : FaultM ε σ PUnit) s = .ok (⟨⟩, t) := rfl

@[simp]
theorem modify_apply (f : σ → σ) (s : σ) : (modify f : FaultM ε σ PUnit) s = .ok (⟨⟩, f s) := rfl

theorem bind_apply (x : FaultM ε σ α) (f : α → FaultM ε σ β) (s : σ) :
    (x >>= f) s = (x s >>= fun r => f r.1 r.2) :=
  rfl

/-- A sequence whose first part returns continues with the second part. -/
theorem bind_of_ok {x : FaultM ε σ α} {f : α → FaultM ε σ β} {s s' : σ} {a : α}
    (h : x s = .ok (a, s')) : (x >>= f) s = f a s' := by
  rw [bind_apply, h]
  rfl

/-- A sequence whose first part faults faults. -/
theorem bind_of_error {x : FaultM ε σ α} {f : α → FaultM ε σ β} {s : σ} {e : ε}
    (h : x s = .error e) : (x >>= f) s = .error e := by
  rw [bind_apply, h]
  rfl

/-- A sequence returns exactly if both parts do. -/
theorem bind_eq_ok {x : FaultM ε σ α} {f : α → FaultM ε σ β} {s : σ} {r : β × σ} :
    (x >>= f) s = .ok r ↔ ∃ a s', x s = .ok (a, s') ∧ f a s' = .ok r := by
  constructor
  · intro h
    cases hx : x s with
    | error e => simp [bind_of_error hx] at h
    | ok p => exact ⟨p.1, p.2, rfl, by rwa [bind_of_ok hx] at h⟩
  · rintro ⟨a, s', hx, hf⟩
    rw [bind_of_ok hx, hf]

/-- Running a computation on a component returns what it returns there. -/
theorem zoom_of_ok {view : σ → τ} {put : τ → σ → σ} {x : FaultM ε τ α} {s : σ} {a : α}
    {t : τ} (h : x (view s) = .ok (a, t)) : zoom view put x s = .ok (a, put t s) := by
  simp [zoom, h]

/-- Running a computation on a component changes that component only. -/
theorem zoom_eq_ok {view : σ → τ} {put : τ → σ → σ} {x : FaultM ε τ α} {s : σ} {r : α × σ} :
    zoom view put x s = .ok r ↔ ∃ t, x (view s) = .ok (r.1, t) ∧ r.2 = put t s := by
  unfold zoom
  constructor
  · intro h
    split at h
    next a t hx =>
      cases h
      exact ⟨t, hx, rfl⟩
    next => cases h
  · rintro ⟨t, hx, hr⟩
    rw [hx]
    cases r
    cases hr
    rfl

/-! ## Faults that do not occur -/

/-- A computation ends with no fault of a certain kind, whatever state it starts in. -/
def Avoids (bad : ε → Prop) (x : FaultM ε σ α) : Prop := ∀ s e, x s = .error e → ¬bad e

namespace Avoids

variable {bad : ε → Prop} {x : FaultM ε σ α}

/-- A computation that always returns. -/
theorem of_ok (h : ∀ s, ∃ r, x s = .ok r) : Avoids bad x := by
  intro s e he
  obtain ⟨r, hr⟩ := h s
  rw [hr] at he
  cases he

theorem pure (a : α) : Avoids bad (pure a : FaultM ε σ α) := of_ok fun s => ⟨(a, s), rfl⟩

theorem throw {e : ε} (h : ¬bad e) : Avoids bad (throw e : FaultM ε σ α) := by
  intro s e' he
  cases he
  exact h

theorem get : Avoids bad (get : FaultM ε σ σ) := of_ok fun s => ⟨(s, s), rfl⟩

theorem set (t : σ) : Avoids bad (set t : FaultM ε σ PUnit) := of_ok fun _ => ⟨(⟨⟩, t), rfl⟩

theorem modify (f : σ → σ) : Avoids bad (modify f : FaultM ε σ PUnit) :=
  of_ok fun s => ⟨(⟨⟩, f s), rfl⟩

/-- A sequence avoids what its parts avoid. -/
theorem bind {f : α → FaultM ε σ β} (hx : Avoids bad x) (hf : ∀ a, Avoids bad (f a)) :
    Avoids bad (x >>= f) := by
  intro s e he
  cases hs : x s with
  | error e' =>
    rw [bind_of_error hs] at he
    cases he
    exact hx s e hs
  | ok r =>
    rw [bind_of_ok hs] at he
    exact hf r.1 r.2 e he

theorem zoom {view : σ → τ} {put : τ → σ → σ} {y : FaultM ε τ α} (hy : Avoids bad y) :
    Avoids bad (zoom view put y) := by
  intro s e he
  unfold FaultM.zoom at he
  split at he
  next => cases he
  next e' hs =>
    cases he
    exact hy _ e hs

end Avoids

/-! ## Weakest preconditions -/

/-- The computation returns with `Q` or faults with `E`. -/
def wp (x : FaultM ε σ α) (Q : α → σ → Prop) (E : ε → Prop) (s : σ) : Prop :=
  match x s with
  | .ok r => Q r.1 r.2
  | .error e => E e

section Rules

variable {x : FaultM ε σ α} {f : α → FaultM ε σ β} {Q Q' : α → σ → Prop} {E E' : ε → Prop} {s : σ}

@[simp]
theorem wp_pure (a : α) : wp (pure a : FaultM ε σ α) Q E s ↔ Q a s := Iff.rfl

@[simp]
theorem wp_throw (e : ε) : wp (throw e : FaultM ε σ α) Q E s ↔ E e := Iff.rfl

@[simp]
theorem wp_get {R : σ → σ → Prop} : wp (get : FaultM ε σ σ) R E s ↔ R s s := Iff.rfl

@[simp]
theorem wp_set {R : PUnit → σ → Prop} (t : σ) : wp (set t : FaultM ε σ PUnit) R E s ↔ R ⟨⟩ t :=
  Iff.rfl

@[simp]
theorem wp_modify {R : PUnit → σ → Prop} (g : σ → σ) :
    wp (modify g : FaultM ε σ PUnit) R E s ↔ R ⟨⟩ (g s) :=
  Iff.rfl

/-- A sequence. -/
@[simp]
theorem wp_bind {R : β → σ → Prop} : wp (x >>= f) R E s ↔ wp x (fun a t => wp (f a) R E t) E s := by
  unfold wp
  cases hs : x s with
  | error e => rw [bind_of_error hs]
  | ok r => rw [bind_of_ok hs]

/-- A weaker requirement. -/
theorem wp_mono (h : wp x Q E s) (hQ : ∀ a t, Q a t → Q' a t) (hE : ∀ e, E e → E' e) :
    wp x Q' E' s := by
  unfold wp at *
  split at h
  next r hs => exact hQ _ _ h
  next e hs => exact hE _ h

theorem wp_of_run {r : α × σ} (hs : x s = .ok r) (h : Q r.1 r.2) : wp x Q E s := by
  unfold wp
  rw [hs]
  exact h

theorem wp_of_ok (h : wp x Q E s) {r : α × σ} (hs : x s = .ok r) : Q r.1 r.2 := by
  unfold wp at h
  rw [hs] at h
  exact h

theorem wp_of_error (h : wp x Q E s) {e : ε} (hs : x s = .error e) : E e := by
  unfold wp at h
  rw [hs] at h
  exact h

/-- A computation on a component. -/
theorem wp_zoom {view : σ → τ} {put : τ → σ → σ} {y : FaultM ε τ α} :
    wp (zoom view put y) Q E s ↔ wp y (fun a t => Q a (put t s)) E (view s) := by
  unfold wp zoom
  cases y (view s) with
  | error e => rfl
  | ok r => rfl

end Rules

/-! ## Computations that return -/

/-- If the computation returns, it returns with `Q`. -/
def wlp (x : FaultM ε σ α) (Q : α → σ → Prop) (s : σ) : Prop := ∀ a t, x s = .ok (a, t) → Q a t

section Returning

variable {x : FaultM ε σ α} {f : α → FaultM ε σ β} {Q Q' : α → σ → Prop} {E : ε → Prop} {s : σ}

@[simp]
theorem wlp_pure (a : α) : wlp (pure a : FaultM ε σ α) Q s ↔ Q a s := by
  constructor
  · exact fun h => h a s rfl
  · intro h b t hbt
    cases hbt
    exact h

@[simp]
theorem wlp_throw (e : ε) : wlp (throw e : FaultM ε σ α) Q s := by
  intro a t hat
  cases hat

@[simp]
theorem wlp_get {R : σ → σ → Prop} : wlp (get : FaultM ε σ σ) R s ↔ R s s := by
  constructor
  · exact fun h => h s s rfl
  · intro h b t hbt
    cases hbt
    exact h

@[simp]
theorem wlp_set {R : PUnit → σ → Prop} (t : σ) : wlp (set t : FaultM ε σ PUnit) R s ↔ R ⟨⟩ t := by
  constructor
  · exact fun h => h ⟨⟩ t rfl
  · intro h b u hbu
    cases hbu
    exact h

@[simp]
theorem wlp_modify {R : PUnit → σ → Prop} (g : σ → σ) :
    wlp (modify g : FaultM ε σ PUnit) R s ↔ R ⟨⟩ (g s) := by
  constructor
  · exact fun h => h ⟨⟩ (g s) rfl
  · intro h b u hbu
    cases hbu
    exact h

/-- A sequence. -/
@[simp]
theorem wlp_bind {R : β → σ → Prop} : wlp (x >>= f) R s ↔ wlp x (fun a t => wlp (f a) R t) s := by
  constructor
  · intro h a t hx b u hf
    exact h b u (bind_eq_ok.mpr ⟨a, t, hx, hf⟩)
  · intro h b u hbu
    obtain ⟨a, t, hx, hf⟩ := bind_eq_ok.mp hbu
    exact h a t hx b u hf

/-- A weaker requirement. -/
theorem wlp_mono (h : wlp x Q s) (hQ : ∀ a t, Q a t → Q' a t) : wlp x Q' s :=
  fun a t hx => hQ a t (h a t hx)

theorem wlp_of_run {r : α × σ} (hs : x s = .ok r) (h : Q r.1 r.2) : wlp x Q s := by
  intro a t hx
  cases hs.symm.trans hx
  exact h

end Returning

end FaultM

end Foundation
end FastIpc
