import Mathlib.Logic.Relation

/-!
  Labelled transition systems and what holds along their runs.

  `Run step s ls t` is a finite run from `s` to `t` with labels `ls`. A run whose steps all meet a
  condition is a run of the step relation restricted by it (`restrict`). -/

namespace Jos.Lib

variable {σ ℓ : Type*}

/-- A finite run, with its labels in order. -/
inductive Run (step : σ → ℓ → σ → Prop) : σ → List ℓ → σ → Prop
  | nil (s : σ) : Run step s [] s
  | cons {s t u : σ} {l : ℓ} {ls : List ℓ} : step s l t → Run step t ls u → Run step s (l :: ls) u

/-- The steps of `step` that also meet `ok` in the state they start from. -/
def restrict (ok : σ → ℓ → Prop) (step : σ → ℓ → σ → Prop) (s : σ) (l : ℓ) (t : σ) : Prop :=
  ok s l ∧ step s l t

variable {step : σ → ℓ → σ → Prop}

theorem Run.single {s t : σ} {l : ℓ} (h : step s l t) : Run step s [l] t := .cons h (.nil t)

theorem Run.append {s t u : σ} {ls ls' : List ℓ} (h : Run step s ls t) (h' : Run step t ls' u) :
    Run step s (ls ++ ls') u := by
  induction h with
  | nil => exact h'
  | cons hst _ ih => exact .cons hst (ih h')

/-- A run with a compound label list passes through a state between the parts. -/
theorem Run.of_append {s u : σ} : ∀ {ls ls' : List ℓ}, Run step s (ls ++ ls') u →
    ∃ t, Run step s ls t ∧ Run step t ls' u
  | [], _, h => ⟨s, .nil s, h⟩
  | _ :: _, _, .cons hst h => by
    obtain ⟨t, h1, h2⟩ := h.of_append
    exact ⟨t, .cons hst h1, h2⟩

theorem Run.mono {step' : σ → ℓ → σ → Prop} (hm : ∀ s l t, step s l t → step' s l t) {s t : σ}
    {ls : List ℓ} (h : Run step s ls t) : Run step' s ls t := by
  induction h with
  | nil s => exact .nil s
  | cons hst _ ih => exact .cons (hm _ _ _ hst) ih

/-- A run whose steps all meet the condition. -/
theorem Run.restrict_of {ok : σ → ℓ → Prop} {s t : σ} {ls : List ℓ} (h : Run step s ls t)
    (hok : ∀ s l t, step s l t → l ∈ ls → ok s l) : Run (restrict ok step) s ls t := by
  induction h with
  | nil s => exact .nil s
  | cons hst _ ih =>
    exact .cons ⟨hok _ _ _ hst (List.mem_cons_self ..), hst⟩
      (ih fun s l t hst hl => hok s l t hst (List.mem_cons_of_mem _ hl))

/-- A property that every step keeps holds at the end of every run that starts in it. -/
theorem Run.invariant {I : σ → Prop} (hI : ∀ s l t, I s → step s l t → I t) {s t : σ} {ls : List ℓ}
    (h : Run step s ls t) (hs : I s) : I t := by
  induction h with
  | nil => exact hs
  | cons hst _ ih => exact ih (hI _ _ _ hs hst)

/-- Whatever no step changes has not changed at the end. -/
theorem Run.unchanged {β : Type*} {v : σ → β} {s t : σ} {ls : List ℓ}
    (h : Run (fun s l t => step s l t ∧ v t = v s) s ls t) : v t = v s := by
  induction h with
  | nil => rfl
  | cons hst _ ih => exact ih.trans hst.2

/-- In every run no step changes `v`, or there is a last one that does. -/
theorem Run.last_change {β : Type*} (v : σ → β) {s t : σ} {ls : List ℓ} (h : Run step s ls t) :
    Run (fun s l t => step s l t ∧ v t = v s) s ls t ∨
      ∃ ls₁ l ls₂ u w, ls = ls₁ ++ l :: ls₂ ∧ Run step s ls₁ u ∧ step u l w ∧ v w ≠ v u ∧
        Run (fun s l t => step s l t ∧ v t = v s) w ls₂ t := by
  induction h with
  | nil s => exact Or.inl (.nil s)
  | cons hst hrun ih =>
    rename_i s m t l ls
    rcases ih with hsame | ⟨ls₁, l', ls₂, u, w, rfl, hu, hst', hne, hw⟩
    · by_cases hv : v m = v s
      · exact Or.inl (.cons ⟨hst, hv⟩ hsame)
      · exact Or.inr ⟨[], l, ls, s, m, rfl, .nil s, hst, hv, hsame⟩
    · exact Or.inr ⟨l :: ls₁, l', ls₂, u, w, rfl, .cons hst hu, hst', hne, hw⟩

/-! ### Counting steps -/

/-- A run with the number of its steps that meet `P`. -/
inductive Counted (step : σ → ℓ → σ → Prop) (P : σ → ℓ → σ → Prop) : σ → List ℓ → Nat → σ → Prop
  | nil (s : σ) : Counted step P s [] 0 s
  | hit {s t u : σ} {l : ℓ} {ls : List ℓ} {n : Nat} : step s l t → P s l t →
      Counted step P t ls n u → Counted step P s (l :: ls) (n + 1) u
  | miss {s t u : σ} {l : ℓ} {ls : List ℓ} {n : Nat} : step s l t → ¬ P s l t →
      Counted step P t ls n u → Counted step P s (l :: ls) n u

section

variable {P Q R : σ → ℓ → σ → Prop}

theorem Counted.run {s u : σ} {ls : List ℓ} {n : Nat} (h : Counted step P s ls n u) :
    Run step s ls u := by
  induction h with
  | nil s => exact .nil s
  | hit hst _ _ ih => exact .cons hst ih
  | miss hst _ _ ih => exact .cons hst ih

/-- The steps of every run can be counted. -/
theorem Run.counted {s u : σ} {ls : List ℓ} (h : Run step s ls u) (P : σ → ℓ → σ → Prop) :
    ∃ n, Counted step P s ls n u := by
  induction h with
  | nil s => exact ⟨0, .nil s⟩
  | @cons s t u l ls hst _ ih =>
    obtain ⟨n, hn⟩ := ih
    by_cases hP : P s l t
    · exact ⟨n + 1, .hit hst hP hn⟩
    · exact ⟨n, .miss hst hP hn⟩

open Classical in
theorem Counted.cons_inv {s u : σ} {l : ℓ} {ls : List ℓ} {n : Nat}
    (h : Counted step P s (l :: ls) n u) : ∃ t m, step s l t ∧ Counted step P t ls m u ∧
      n = m + if P s l t then 1 else 0 := by
  cases h with
  | hit hst hP ht => exact ⟨_, _, hst, ht, by rw [if_pos hP]⟩
  | miss hst hP ht => exact ⟨_, _, hst, ht, by rw [if_neg hP, Nat.add_zero]⟩

/-- A run without a single one of the counted steps. -/
theorem Counted.none : ∀ {ls : List ℓ} {s u : σ}, Counted step P s ls 0 u →
    Run (fun s l t => step s l t ∧ ¬ P s l t) s ls u
  | [], _, _, h => by
    cases h
    exact .nil _
  | _ :: _, _, _, h => by
    cases h with
    | miss hst hP ht => exact .cons ⟨hst, hP⟩ ht.none

open Classical in
/-- What a run puts in and what it takes out in two ways balances, if that is so for each step from
    an invariant state. -/
theorem Counted.balance {I : σ → Prop} {f : σ → Nat}
    (hdet : ∀ s l t t', step s l t → step s l t' → t = t')
    (hI : ∀ s l t, I s → step s l t → I t)
    (hf : ∀ s l t, I s → step s l t → (f s + if P s l t then 1 else 0) =
      (f t + if Q s l t then 1 else 0) + if R s l t then 1 else 0) :
    ∀ {ls : List ℓ} {s u : σ} {p q r : Nat}, I s → Counted step P s ls p u →
      Counted step Q s ls q u → Counted step R s ls r u → f s + p = f u + q + r
  | [], s, _, _, _, _, _, hp, hq, hr => by
    cases hp
    cases hq
    cases hr
    rfl
  | l :: ls, s, u, p, q, r, hs, hp, hq, hr => by
    obtain ⟨t, p', hst, hp', rfl⟩ := hp.cons_inv
    obtain ⟨t', q', hst', hq', rfl⟩ := hq.cons_inv
    obtain rfl := hdet _ _ _ _ hst hst'
    obtain ⟨t', r', hst', hr', rfl⟩ := hr.cons_inv
    obtain rfl := hdet _ _ _ _ hst hst'
    have hstep := hf s l t hs hst
    have hrest := Counted.balance hdet hI hf (hI s l t hs hst) hp' hq' hr'
    omega

open Classical in
/-- A potential that each counted step takes from, and that nothing adds to but the steps of another
    kind, at most `b` each, bounds how many steps are counted. -/
theorem Counted.potential {I : σ → Prop} {f : σ → Nat} {b : Nat}
    (hdet : ∀ s l t t', step s l t → step s l t' → t = t')
    (hI : ∀ s l t, I s → step s l t → I t)
    (hf : ∀ s l t, I s → step s l t →
      (f t + if P s l t then 1 else 0) ≤ f s + if R s l t then b else 0) :
    ∀ {ls : List ℓ} {s u : σ} {p r : Nat}, I s → Counted step P s ls p u →
      Counted step R s ls r u → f u + p ≤ f s + b * r
  | [], s, _, _, _, _, hp, hr => by
    cases hp
    cases hr
    exact Nat.le_refl _
  | l :: ls, s, u, p, r, hs, hp, hr => by
    obtain ⟨t, p', hst, hp', rfl⟩ := hp.cons_inv
    obtain ⟨t', r', hst', hr', rfl⟩ := hr.cons_inv
    obtain rfl := hdet _ _ _ _ hst hst'
    have hstep := hf s l t hs hst
    have hrest := Counted.potential hdet hI hf (hI s l t hs hst) hp' hr'
    have hb : b * (r' + if R s l t then 1 else 0) = b * r' + if R s l t then b else 0 := by
      split <;> simp [Nat.mul_add]
    omega

end

end Jos.Lib
