import Jos.Lib.Transition
import Mathlib.Logic.Function.Basic

/-!
  Processes that hand over values.

  A process is a state of a program, and the program's text says what it does next. A value passes
  from one process to another in one step, in which both of them take part. -/

namespace Jos.Lib

variable {σ τ ℓ ℓ' ω : Type*}

/-- A run in which each step is a step of another system, or none, has the same output there. -/
theorem Run.simulates {step : σ → ℓ → σ → Prop} {step' : τ → ℓ' → τ → Prop} {I : σ → Prop}
    {f : σ → τ} {out : ℓ → List ω} {out' : ℓ' → List ω}
    (hI : ∀ s l t, I s → step s l t → I t)
    (hsim : ∀ s l t, I s → step s l t →
      f t = f s ∧ out l = [] ∨ ∃ l', step' (f s) l' (f t) ∧ out' l' = out l)
    {s t : σ} {ls : List ℓ} (h : Run step s ls t) (hs : I s) :
    ∃ ls', Run step' (f s) ls' (f t) ∧ ls'.flatMap out' = ls.flatMap out := by
  induction h with
  | nil s => exact ⟨[], .nil _, rfl⟩
  | @cons s u t l ls hst _ ih =>
    obtain ⟨ls', hr, ho⟩ := ih (hI _ _ _ hs hst)
    rcases hsim s l u hs hst with ⟨hf, hl⟩ | ⟨l', hl, hol⟩
    · refine ⟨ls', hf ▸ hr, ?_⟩
      rw [List.flatMap_cons, hl, List.nil_append, ho]
    · refine ⟨l' :: ls', .cons hl hr, ?_⟩
      rw [List.flatMap_cons, List.flatMap_cons, hol, ho]

namespace Rendezvous

/-- What a process does next and how it goes on. Names are `ν`, values `α` and outputs `ω`. -/
inductive Op (ν α ω σ : Type)
  | send (dst : ν) (v : α) (next : σ)
  | recv (next : α → ν → σ)
  | fork (parent : ν → σ) (child : σ)
  | print (w : ω) (next : σ)
  | exit

/-- The processes there are, by name. -/
abbrev Procs (ν σ : Type) := ν → Option σ

inductive Label (ν α ω : Type)
  | pass (i j : ν) (v : α)
  | born (i j : ν)
  | print (i : ν) (w : ω)
  | gone (i : ν)

variable {ν α ω σ : Type} [DecidableEq ν]

/-- What comes out in a step, and who printed it. -/
def Label.out : Label ν α ω → List (ν × ω)
  | .print i w => [(i, w)]
  | _ => []

/-- `i` goes on at `p`. -/
def Procs.set (M : Procs ν σ) (i : ν) (p : Option σ) : Procs ν σ := Function.update M i p

@[simp] theorem Procs.set_self (M : Procs ν σ) (i : ν) (p : Option σ) : M.set i p i = p :=
  Function.update_self ..

theorem Procs.set_of_ne (M : Procs ν σ) {i j : ν} (h : j ≠ i) (p : Option σ) :
    M.set i p j = M j := Function.update_of_ne h ..

theorem Procs.eq_or_of_set {M : Procs ν σ} {i w : ν} {p : Option σ} (h : M.set i p w ≠ none) :
    w = i ∨ M w ≠ none := by
  rcases eq_or_ne w i with hw | hw
  · exact Or.inl hw
  · exact Or.inr (M.set_of_ne hw p ▸ h)

/-- One step of the processes, whose text is `text`. -/
inductive Step (text : σ → Op ν α ω σ) (M : Procs ν σ) : Label ν α ω → Procs ν σ → Prop
  | pass {i j : ν} {p p' q : σ} {v : α} {next : α → ν → σ} : M i = some p →
      text p = .send j v p' → M j = some q → text q = .recv next →
      Step text M (.pass i j v) ((M.set i (some p')).set j (some (next v i)))
  | born {i j : ν} {p child : σ} {parent : ν → σ} : M i = some p → text p = .fork parent child →
      M j = none → Step text M (.born i j) ((M.set i (some (parent j))).set j (some child))
  | print {i : ν} {p p' : σ} {w : ω} : M i = some p → text p = .print w p' →
      Step text M (.print i w) (M.set i (some p'))
  | gone {i : ν} {p : σ} : M i = some p → text p = .exit → Step text M (.gone i) (M.set i none)

end Rendezvous

end Jos.Lib
