import Jos.Boot
import Jos.Lib.Transition

/-!
  The system: CPUs that run user code and enter the kernel in any order.

  A kernel entry runs to its end under `kernel_lock`, so it is one step. Between entries a CPU in
  user mode may store through its page tables, or through what it has cached of them. A run ends when
  a CPU panics or enters the monitor, and when a store reaches memory that the page allocator does
  not manage: such a store changes kernel data that is kept as typed fields here. -/

namespace Jos

open Lib

/-- A page managed by `page_alloc`: one that `page_init` put on the free list. -/
def Managed (s : KState) (f : Nat) : Prop :=
  f < s.npages ∧ pageReserved (paddrFrame s.nextfree) f = false

instance (s : KState) (f : Nat) : Decidable (Managed s f) := inferInstanceAs (Decidable (_ ∧ _))

/-- The frame user code on `c` reaches at `va` with the rights `need` at both levels. -/
def userAccess (s : KState) (c : CpuIdx) (need va : Word) : Option Nat :=
  userWalk s.mem (s.cr3 c) need (pdx va) (ptx va)

/-- What a CPU does next. A store may go through the cached translation `via`. -/
inductive Event where
  | trap (inp : Input) (tf : Trapframe)
  | store (va : Word) (b : Byte) (via : Option Nat)
  | start

/-- The frame that a store of user code goes to. -/
def storeFrame (s : KState) (c : CpuIdx) (va : Word) (via : Option Nat) : Option Nat :=
  viaTlb (s.cachedWrite c) via (pgnum va) (userAccess s c userWrite va)

/-- Traps that can happen: any from user mode, external interrupts while halted. -/
def TrapAllowed (s : KState) (c : CpuIdx) (tf : Trapframe) : Prop :=
  ((s.cpus c).mode = .user ∧ tf.tfCs = gdUt ||| 3) ∨
  ((s.cpus c).mode = .halted ∧ tf.tfCs = gdKt ∧ tf.tfTrapno ∈ irqVectors)

instance (s : KState) (c : CpuIdx) (tf : Trapframe) : Decidable (TrapAllowed s c tf) :=
  inferInstanceAs (Decidable (_ ∨ _))

/-- Run kernel code up to the point where the CPU leaves the kernel. -/
def enter (x : K Unit) (s : KState) : Option KState :=
  match x s with
  | .error .leave s' => some s'
  | _ => none

/-- One step of CPU `c`. -/
def step (c : CpuIdx) (ev : Event) (s : KState) : Option KState :=
  match ev with
  | .trap inp tf => if TrapAllowed s c tf then enter (trap c inp tf) s else none
  | .store va b via =>
    if (s.cpus c).mode = .user then
      match storeFrame s c va via with
      | none => none
      | some f =>
        if Managed s f then some (s.setFrame f ((s.mem f).setByte (pgoff va) b)) else none
    else none
  | .start => if (s.cpus c).mode = .starting then enter (schedYield c) s else none

/-- The step relation, labelled with the CPU and what it does. -/
def Step (s : KState) (l : CpuIdx × Event) (t : KState) : Prop := step l.1 l.2 s = some t

theorem enter_eq_some {x : K Unit} {s t : KState} : enter x s = some t ↔ x s = .error .leave t := by
  unfold enter; split <;> simp_all

/-- A run from the state in which boot leaves the kernel, all of whose steps meet `ok`. -/
def BootRun (ok : KState → CpuIdx × Event → Prop) (p : BootParams) (ls : List (CpuIdx × Event))
    (t : KState) : Prop :=
  ∃ s, boot p = some s ∧ Run (restrict ok Step) s ls t

theorem BootRun.mono {ok : KState → CpuIdx × Event → Prop} (ok' : KState → CpuIdx × Event → Prop)
    {p : BootParams} {ls : List (CpuIdx × Event)} {t : KState} (h : BootRun ok p ls t)
    (hm : ∀ s l, ok s l → ok' s l) : BootRun ok' p ls t := by
  obtain ⟨s, hboot, hr⟩ := h
  exact ⟨s, hboot, hr.mono fun s l _ hst => ⟨hm s l hst.1, hst.2⟩⟩

end Jos
