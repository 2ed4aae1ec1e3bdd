import Mathlib.Logic.Function.Basic

/-!
  Reasoning about programs with state and early exit.

  A program is `EStateM ε σ α`: from a state it either returns a value (`.ok`) or exits early
  (`.error`), in both cases with a state. `wp x Q R s` says that, started in `s`, the program ends
  either by returning with `Q` or by exiting with `R`. The rules below follow the structure of the
  program. -/

namespace Jos.Lib

variable {ε σ α β : Type}

/-- Started in `s`, `x` returns with `Q` or exits with `R`. -/
def wp (x : EStateM ε σ α) (Q : α → σ → Prop) (R : ε → σ → Prop) (s : σ) : Prop :=
  match x s with
  | .ok a t => Q a t
  | .error e t => R e t

variable {Q Q' : α → σ → Prop} {R R' : ε → σ → Prop} {s t : σ}

theorem wp_ok {x : EStateM ε σ α} {a : α} (h : x s = .ok a t) : wp x Q R s ↔ Q a t := by
  rw [wp, h]

theorem wp_error {x : EStateM ε σ α} {e : ε} (h : x s = .error e t) : wp x Q R s ↔ R e t := by
  rw [wp, h]

theorem wp.ok {x : EStateM ε σ α} {a : α} (h : wp x Q R s) (hx : x s = .ok a t) : Q a t :=
  (wp_ok hx).mp h

theorem wp.error {x : EStateM ε σ α} {e : ε} (h : wp x Q R s) (hx : x s = .error e t) : R e t := by
  rwa [wp, hx] at h

/-- A program that runs like another one, from another state. -/
theorem wp_of_eq {x y : EStateM ε σ α} (h : x s = y t) : wp x Q R s ↔ wp y Q R t := by
  rw [wp, wp, h]

/-- Weaker postconditions. -/
theorem wp.mono {x : EStateM ε σ α} (h : wp x Q R s) (hQ : ∀ a t, Q a t → Q' a t)
    (hR : ∀ e t, R e t → R' e t) : wp x Q' R' s := by
  unfold wp at h ⊢
  split
  · rename_i hx; rw [hx] at h; exact hQ _ _ h
  · rename_i hx; rw [hx] at h; exact hR _ _ h

/-- The rule for a call: continue from what its specification says. -/
theorem wp.bind {x : EStateM ε σ α} {f : α → EStateM ε σ β} {Q : α → σ → Prop}
    {Q' : β → σ → Prop} (h : wp x Q R s) (hf : ∀ a t, Q a t → wp (f a) Q' R t) :
    wp (x >>= f) Q' R s := by
  unfold wp at h ⊢
  show match EStateM.bind x f s with | .ok a t => Q' a t | .error e t => R e t
  unfold EStateM.bind
  split at h
  · rename_i hx; rw [hx]; exact hf _ _ h
  · rename_i hx; rw [hx]; exact h

/-- Both specifications of a program hold. -/
theorem wp.and {x : EStateM ε σ α} (h : wp x Q R s) (h' : wp x Q' R' s) :
    wp x (fun a t => Q a t ∧ Q' a t) (fun e t => R e t ∧ R' e t) s := by
  unfold wp at *
  split <;> simp_all

@[simp] theorem wp_pure (a : α) : wp (pure a) Q R s ↔ Q a s := Iff.rfl

theorem wp_bind {x : EStateM ε σ α} {f : α → EStateM ε σ β} {Q : β → σ → Prop} :
    wp (x >>= f) Q R s ↔ wp x (fun a t => wp (f a) Q R t) R s := by
  show (match EStateM.bind x f s with | .ok a t => Q a t | .error e t => R e t) ↔ _
  unfold EStateM.bind wp
  cases x s <;> rfl

@[simp] theorem wp_get {Q : σ → σ → Prop} : wp (get : EStateM ε σ σ) Q R s ↔ Q s s := Iff.rfl

@[simp] theorem wp_set {Q : PUnit → σ → Prop} (t : σ) :
    wp (set t : EStateM ε σ PUnit) Q R s ↔ Q ⟨⟩ t := Iff.rfl

@[simp] theorem wp_modify {Q : PUnit → σ → Prop} (f : σ → σ) :
    wp (modify f : EStateM ε σ PUnit) Q R s ↔ Q ⟨⟩ (f s) := Iff.rfl

@[simp] theorem wp_throw (e : ε) : wp (throw e : EStateM ε σ α) Q R s ↔ R e s := Iff.rfl

theorem wp_ite {c : Prop} [Decidable c] {x y : EStateM ε σ α} :
    wp (if c then x else y) Q R s ↔ (c → wp x Q R s) ∧ (¬ c → wp y Q R s) := by
  split <;> simp_all

/-- A loop over a list: the invariant speaks about the elements still to come. -/
theorem wp.forM {f : α → EStateM ε σ PUnit} {I : List α → σ → Prop}
    (hf : ∀ a l s, I (a :: l) s → wp (f a) (fun _ t => I l t) R s) :
    ∀ {l : List α} {s : σ}, I l s → wp (l.forM f) (fun _ t => I [] t) R s
  | [], _, h => h
  | a :: l, s, h => by
    show wp (f a >>= fun _ => l.forM f) (fun _ t => I [] t) R s
    exact (hf a l s h).bind fun _ t ht => wp.forM hf ht

-- Programs are run through the rules, never by unfolding.
attribute [irreducible] wp

section Run

theorem run_pure (a : α) (s : σ) : (pure a : EStateM ε σ α) s = .ok a s := rfl

theorem run_bind (x : EStateM ε σ α) (f : α → EStateM ε σ β) (s : σ) :
    (x >>= f) s = match x s with
      | .ok a s' => f a s'
      | .error e s' => .error e s' := rfl

theorem run_bind_ok {x : EStateM ε σ α} {f : α → EStateM ε σ β} {a : α} (h : x s = .ok a t) :
    (x >>= f) s = f a t := by
  rw [run_bind, h]

theorem bind_eq_ok {x : EStateM ε σ α} {f : α → EStateM ε σ β} {b : β} {v : σ}
    (h : (x >>= f) s = .ok b v) : ∃ a u, x s = .ok a u ∧ f a u = .ok b v := by
  rw [run_bind] at h
  cases hx : x s with
  | ok a u =>
    rw [hx] at h
    exact ⟨a, u, rfl, h⟩
  | error e u =>
    rw [hx] at h
    cases h

theorem run_get (s : σ) : (get : EStateM ε σ σ) s = .ok s s := rfl

theorem run_set (t s : σ) : (set t : EStateM ε σ PUnit) s = .ok ⟨⟩ t := rfl

theorem run_modify (f : σ → σ) (s : σ) : (modify f : EStateM ε σ PUnit) s = .ok ⟨⟩ (f s) := rfl

theorem run_throw (e : ε) (s : σ) : (throw e : EStateM ε σ α) s = .error e s := rfl

theorem run_ite (c : Prop) [Decidable c] (x y : EStateM ε σ α) (s : σ) :
    (if c then x else y) s = if c then x s else y s := by split <;> rfl

end Run

end Jos.Lib
