import Mathlib.Logic.Function.Basic
import Mathlib.Tactic.SplitIfs

/-!
  A spin lock that records its owner, access by access.

  `Acquire` and `Release` are the places inside the two procedures, named after the next access to
  the lock. The owner is recorded after the lock was taken and cleared before it is given back, so
  the check for the owner may read either field while others move. `SpinInv` ties the fields to the
  roles of all processors; a processor that takes a lock it does not own, and gives back one that it
  owns, fails no check. Once it is recorded, a processor also records its callers, which may fault. -/

namespace Jos.Lib

/-- The lock: its word, and the processor that owns it. -/
structure Spin (ι : Type*) where
  locked : Bool
  cpu : Option ι

/-- The next access while the lock is taken: the two halves of the check that it is not owned
    already, the exchange, and the records of the owner and of its callers. -/
inductive Acquire where | locked | owner | spin | record | callers
  deriving DecidableEq

/-- The next access while the lock is given back: the two halves of the check that it is owned, the
    end of the record, and the exchange. -/
inductive Release where | locked | owner | clear | free
  deriving DecidableEq

/-- What an access leads to: another one, the end of the procedure, a failed check, or a fault. -/
inductive Access (α : Type*) where
  | next (a : α)
  | done
  | panic
  | fault

/-- What a processor does with the lock. -/
inductive Role where
  | away
  | acquiring (a : Acquire)
  | holding
  | releasing (r : Release)

variable {ι : Type*}

/-- From the exchange that takes the lock up to the one that gives it back. -/
def Role.owns : Role → Bool
  | .acquiring .record | .acquiring .callers | .holding | .releasing _ => true
  | _ => false

/-- The part of it in which the lock names the processor. -/
def Role.recorded : Role → Bool
  | .acquiring .callers | .holding | .releasing .locked | .releasing .owner
  | .releasing .clear => true
  | _ => false

theorem Role.owns_of_recorded {x : Role} (h : x.recorded = true) : x.owns = true := by
  cases x with
  | away => cases h
  | acquiring a =>
    cases a with
    | callers => rfl
    | locked | owner | spin | record => cases h
  | holding => rfl
  | releasing r => rfl

/-- The lock's fields agree with what the processors do, and one at most owns it. -/
structure SpinInv (l : Spin ι) (r : ι → Role) : Prop where
  locked : l.locked = true ↔ ∃ c, (r c).owns = true
  unique : ∀ c d, (r c).owns = true → (r d).owns = true → c = d
  owner : ∀ c, l.cpu = some c ↔ (r c).recorded = true

variable {l : Spin ι} {r : ι → Role} {c : ι}

theorem spinInv_free (h : ∀ c, (r c).owns = false) : SpinInv (⟨false, none⟩ : Spin ι) r := by
  have hno : ∀ c, ¬ (r c).owns = true := fun c hc => by
    rw [h] at hc
    cases hc
  refine ⟨⟨?_, ?_⟩, fun c _ hc => absurd hc (hno c), fun c => ⟨?_, fun hc => ?_⟩⟩
  · rintro ⟨⟩
  · rintro ⟨c, hc⟩
    exact absurd hc (hno c)
  · rintro ⟨⟩
  · exact absurd (Role.owns_of_recorded hc) (hno c)

/-- As long as the same processors own the lock, only the record of the owner is at stake. -/
theorem SpinInv.of_owns (h : SpinInv l r) {l' : Spin ι} {r' : ι → Role}
    (ho : ∀ d, (r' d).owns = (r d).owns) (hl : l'.locked = l.locked)
    (hc : ∀ d, l'.cpu = some d ↔ (r' d).recorded = true) : SpinInv l' r' := by
  refine ⟨?_, fun a b ha hb => h.unique a b ?_ ?_, hc⟩
  · rw [hl]
    simp only [ho]
    exact h.locked
  · rwa [ho] at ha
  · rwa [ho] at hb

variable [DecidableEq ι]

/-- An access while the lock is taken. `readable` says whether the callers can be read. -/
def Acquire.run (c : ι) (readable : Bool) (l : Spin ι) : Acquire → Access Acquire × Spin ι
  | .locked => (if l.locked then .next .owner else .next .spin, l)
  | .owner => (if l.cpu = some c then .panic else .next .spin, l)
  | .spin => (if l.locked then .next .spin else .next .record, { l with locked := true })
  | .record => (.next .callers, { l with cpu := some c })
  | .callers => (if readable then .done else .fault, l)

def Release.run (c : ι) (l : Spin ι) : Release → Access Release × Spin ι
  | .locked => (if l.locked then .next .owner else .panic, l)
  | .owner => (if l.cpu = some c then .next .clear else .panic, l)
  | .clear => (.next .free, { l with cpu := none })
  | .free => (.done, { l with locked := false })

/-- A new role that owns the lock if the old one did. -/
theorem owns_update {x : Role} (ho : x.owns = (r c).owns) (d : ι) :
    (Function.update r c x d).owns = (r d).owns := by
  rcases eq_or_ne d c with rfl | hd
  · rw [Function.update_self, ho]
  · rw [Function.update_of_ne hd]

/-- Roles that own and are named alike. -/
theorem SpinInv.update (h : SpinInv l r) {x : Role} (ho : x.owns = (r c).owns)
    (hr : x.recorded = (r c).recorded) : SpinInv l (Function.update r c x) := by
  refine h.of_owns (owns_update ho) rfl fun d => ?_
  rcases eq_or_ne d c with rfl | hd
  · rw [Function.update_self, hr]
    exact h.owner d
  · rw [Function.update_of_ne hd]
    exact h.owner d

/-- The exchange that finds the lock free. -/
theorem SpinInv.take (h : SpinInv l r) (hl : l.locked = false) {x : Role} (ho : x.owns = true)
    (hx : x.recorded = false) (hr : (r c).recorded = false) :
    SpinInv { l with locked := true } (Function.update r c x) := by
  have hnone : ∀ d, (r d).owns = false := by
    intro d
    by_contra hd
    have := h.locked.mpr ⟨d, by simpa using hd⟩
    rw [hl] at this
    cases this
  have hat : ∀ d, (Function.update r c x d).owns = true → d = c := by
    intro d hd
    by_contra hne
    rw [Function.update_of_ne hne, hnone] at hd
    cases hd
  refine ⟨⟨fun _ => ⟨c, by rw [Function.update_self, ho]⟩, fun _ => rfl⟩,
    fun a b ha hb => (hat a ha).trans (hat b hb).symm, fun d => ?_⟩
  rcases eq_or_ne d c with rfl | hd
  · rw [Function.update_self, hx, ← hr]
    exact h.owner d
  · rw [Function.update_of_ne hd]
    exact h.owner d

/-- The record of the owner is written. -/
theorem SpinInv.record (h : SpinInv l r) {x : Role} (hc : (r c).owns = true) (ho : x.owns = true)
    (hx : x.recorded = true) : SpinInv { l with cpu := some c } (Function.update r c x) := by
  refine h.of_owns (owns_update (ho.trans hc.symm)) rfl fun d => ?_
  rcases eq_or_ne d c with rfl | hd
  · rw [Function.update_self, hx]
    exact ⟨fun _ => rfl, fun _ => rfl⟩
  · rw [Function.update_of_ne hd]
    refine ⟨fun hdc => absurd (Option.some.inj hdc).symm hd, fun hrec => ?_⟩
    exact absurd (h.unique d c (Role.owns_of_recorded hrec) hc) hd

/-- The record ends. -/
theorem SpinInv.clear (h : SpinInv l r) {x : Role} (hc : (r c).owns = true) (ho : x.owns = true)
    (hx : x.recorded = false) : SpinInv { l with cpu := none } (Function.update r c x) := by
  refine h.of_owns (owns_update (ho.trans hc.symm)) rfl fun d => ⟨?_, fun hrec => ?_⟩
  · rintro ⟨⟩
  rcases eq_or_ne d c with rfl | hd
  · rw [Function.update_self, hx] at hrec
    cases hrec
  · rw [Function.update_of_ne hd] at hrec
    exact absurd (h.unique d c (Role.owns_of_recorded hrec) hc) hd

/-- The exchange that gives the lock back. -/
theorem SpinInv.free (h : SpinInv l r) {x : Role} (hc : (r c).owns = true)
    (hr : (r c).recorded = false) (ho : x.owns = false) :
    SpinInv { l with locked := false } (Function.update r c x) := by
  have hnone : ∀ d, (Function.update r c x d).owns = false := by
    intro d
    rcases eq_or_ne d c with rfl | hd
    · rw [Function.update_self, ho]
    · rw [Function.update_of_ne hd]
      by_contra hd'
      exact hd (h.unique d c (by simpa using hd') hc)
  have hrec : ∀ d, (r d).recorded = false := by
    intro d
    rcases eq_or_ne d c with rfl | hd
    · exact hr
    · by_contra hd'
      exact hd (h.unique d c (Role.owns_of_recorded (by simpa using hd')) hc)
  refine ⟨⟨?_, ?_⟩, fun a _ ha => ?_, fun d => ⟨fun hd => ?_, fun hd => ?_⟩⟩
  · rintro ⟨⟩
  · rintro ⟨d, hd⟩
    rw [hnone] at hd
    cases hd
  · rw [hnone] at ha
    cases ha
  · have := (h.owner d).mp hd
    rw [hrec] at this
    cases this
  · have := Role.owns_of_recorded hd
    rw [hnone] at this
    cases this

/-- The role after an access of `spin_lock`. -/
def Acquire.after : Access Acquire → Role
  | .next a => .acquiring a
  | .done | .fault => .holding
  | .panic => .away

/-- The role after an access of `spin_unlock`. -/
def Release.after : Access Release → Role
  | .next a => .releasing a
  | .done | .panic | .fault => .away

/-- A processor that takes the lock: no check fails, and the invariant is kept. -/
theorem SpinInv.acquire (h : SpinInv l r) {a : Acquire} (readable : Bool)
    (hc : r c = .acquiring a) : (a.run c readable l).1 ≠ .panic ∧
      SpinInv (a.run c readable l).2
        (Function.update r c (Acquire.after (a.run c readable l).1)) := by
  cases a with
  | locked =>
    simp only [Acquire.run]
    split
    · exact ⟨by simp, h.update (by rw [hc]; rfl) (by rw [hc]; rfl)⟩
    · exact ⟨by simp, h.update (by rw [hc]; rfl) (by rw [hc]; rfl)⟩
  | owner =>
    have hno : ¬ l.cpu = some c := by
      rw [h.owner, hc]
      simp [Role.recorded]
    simp only [Acquire.run, if_neg hno]
    exact ⟨by simp, h.update (by rw [hc]; rfl) (by rw [hc]; rfl)⟩
  | spin =>
    simp only [Acquire.run]
    split
    · rename_i hl
      have heq : ({ l with locked := true } : Spin ι) = l := by
        cases l
        simp_all
      rw [heq]
      exact ⟨by simp, h.update (by rw [hc]; rfl) (by rw [hc]; rfl)⟩
    · rename_i hl
      exact ⟨by simp, h.take (by simpa using hl) rfl rfl (by rw [hc]; rfl)⟩
  | record =>
    exact ⟨by simp [Acquire.run], h.record (by rw [hc]; rfl) rfl rfl⟩
  | callers =>
    cases readable with
    | true => exact ⟨by simp [Acquire.run], h.update (by rw [hc]; rfl) (by rw [hc]; rfl)⟩
    | false => exact ⟨by simp [Acquire.run], h.update (by rw [hc]; rfl) (by rw [hc]; rfl)⟩

/-- A processor that gives back the lock it owns. -/
theorem SpinInv.release (h : SpinInv l r) {a : Release} (hc : r c = .releasing a) :
    (a.run c l).1 ≠ .panic ∧
      SpinInv (a.run c l).2 (Function.update r c (Release.after (a.run c l).1)) := by
  have howns : (r c).owns = true := by
    rw [hc]
    rfl
  cases a with
  | locked =>
    have hl : l.locked = true := h.locked.mpr ⟨c, howns⟩
    simp only [Release.run, if_pos hl]
    exact ⟨by simp, h.update (by rw [hc]; rfl) (by rw [hc]; rfl)⟩
  | owner =>
    have hcpu : l.cpu = some c := (h.owner c).mpr (by rw [hc]; rfl)
    simp only [Release.run, if_pos hcpu]
    exact ⟨by simp, h.update (by rw [hc]; rfl) (by rw [hc]; rfl)⟩
  | clear => exact ⟨by simp [Release.run], h.clear howns rfl rfl⟩
  | free => exact ⟨by simp [Release.run], h.free howns (by rw [hc]; rfl) rfl⟩

end Jos.Lib
