import Jos.Trap
import Jos.Lib.Ia32
import Mathlib.Logic.Relation

/-!
  The page-fault upcall: the frame that `page_fault_handler` pushes for user code, and the
  trampoline `_pgfault_upcall` (`lib/pfentry.S`) that unwinds it.

  Here user memory is flat, as the environment sees it. A handler may fault itself; `Handles n`
  serves a fault whose handler takes faults nested up to `n` deep. -/

namespace Jos

open Lib.Ia32

/-- Addresses that the linker gives: the variable `_pgfault_handler`, and the code after the call. -/
structure PfLink where
  pgfaultHandler : Word
  afterCall : Word

/-- `_pgfault_upcall` up to its call. -/
def pfentryHead (k : PfLink) : List Instr :=
  [.pushl (.reg .esp), .movl (.abs k.pgfaultHandler) (.reg .eax)]

/-- `_pgfault_upcall` from the return of the handler up to its final `ret`. -/
def pfentryTail : List Instr :=
  [.addl 4 .esp, .addl 8 .esp, .movl (.mem 32 .esp) (.reg .eax), .movl (.mem 40 .esp) (.reg .edx),
    .subl 4 .edx, .movl (.reg .eax) (.mem 0 .edx), .movl (.reg .edx) (.mem 40 .esp), .popal,
    .addl 4 .esp, .popfl, .popl .esp]

def pgfaultCall (k : PfLink) (m : Machine) : Option Machine :=
  (m.run (pfentryHead k)).bind fun m => m.call (m.reg .eax) k.afterCall

def pgfaultReturn (m : Machine) : Option Machine := (m.run pfentryTail).map Machine.ret

/-- What a trap saves of a machine in user mode; `oesp` is the kernel's own `esp`. -/
def trapframeOf (m : Machine) (trapno err oesp : Word) : Trapframe where
  tfRegs := ⟨m.reg .edi, m.reg .esi, m.reg .ebp, oesp, m.reg .ebx, m.reg .edx, m.reg .ecx,
    m.reg .eax⟩
  tfEs := m.es
  tfDs := m.ds
  tfTrapno := trapno
  tfErr := err
  tfEip := m.eip
  tfCs := m.cs
  tfEflags := m.eflags
  tfEsp := m.reg .esp
  tfSs := m.ss

/-- A page fault as user code sees it: the frame is pushed, and the upcall starts on it. -/
def faultEntry (upcall va err oesp : Word) (m : Machine) : Machine :=
  let utf := utfAddr (m.reg .esp)
  { m with
    mem := m.mem.storeAll utf (utrapframe va (trapframeOf m tPgflt err oesp))
    reg := Function.update m.reg .esp utf
    eip := upcall }

/-- The handler returned to the trampoline with the registers that a call preserves. -/
structure Returned (k : PfLink) (h0 h1 : Machine) : Prop where
  eip : h1.eip = k.afterCall
  esp : h1.reg .esp = h0.reg .esp + 4
  saved : ∀ r, r = .ebx ∨ r = .ebp ∨ r = .esi ∨ r = .edi → h1.reg r = h0.reg r
  seg : h1.cs = h0.cs ∧ h1.ds = h0.ds ∧ h1.es = h0.es ∧ h1.ss = h0.ss

/-- The exception stack is one page; `exEdge` is its lowest address. -/
def exEdge : Word := uxstacktop - BitVec.ofNat 32 pgsize

/-- In the page of the exception stack. -/
def InEx (a : Word) : Prop := exEdge ≤ a ∧ a < uxstacktop

/-- On the exception stack as the kernel tests it, which leaves the lowest address out. -/
def Inside (esp : Word) : Prop := exEdge < esp ∧ esp < uxstacktop

/-- The byte at `a` is not one that a fault at `esp` writes below `esp`: on the exception stack these
    are the call of the handler, the frame and the word above it, on another stack that word. -/
def Clear (esp a : Word) : Prop :=
  (InEx esp → 64 ≤ (a - (esp - 64)).toNat) ∧ (¬ InEx esp → 4 ≤ (a - (esp - 4)).toNat)

/-- The handler of a fault in `s` was called and has returned, in state `h`; the word below the
    trap-time `esp` and the frame may be written. -/
structure HandlerDone (k : PfLink) (run : Word → Machine → Machine → Prop) (s h : Machine) : Prop where
  ran : ∃ upcall va err oesp h0, pgfaultCall k (faultEntry upcall va err oesp s) = some h0 ∧
    run (utfAddr (s.reg .esp)) h0 h ∧ Returned k h0 h
  scratch : h.writable (s.reg .esp - 4) = true
  frame : h.writable (utfAddr (s.reg .esp) + 48) = true

/-- A fault in `s` is served and user code goes on in `t`, when handlers run by `run`. -/
def Serve (k : PfLink) (run : Word → Machine → Machine → Prop) (s t : Machine) : Prop :=
  ∃ h, HandlerDone k run s h ∧ pgfaultReturn h = some t

/-- A handler's run with its frame at `b`: steps of its own, and faults that are served. -/
def HandlerRun (own : Word → Machine → Machine → Prop) (fault : Machine → Machine → Prop) (b : Word) :
    Machine → Machine → Prop :=
  Relation.ReflTransGen fun m m' => own b m m' ∨ fault m m'

/-- Service of a fault with fewer than `n` levels of faults nested in it, each of them, and this one,
    taken at an `esp` that meets `ok`. -/
def Handles (k : PfLink) (own : Word → Machine → Machine → Prop) (ok : Word → Prop) :
    Nat → Machine → Machine → Prop
  | 0, _, _ => False
  | n + 1, s, t => ok (s.reg .esp) ∧ Serve k (HandlerRun own (Handles k own ok n)) s t

/-- Handler code follows the calling convention: its stack stays below its frame, and it writes
    nothing from its frame up. It leaves the memory in `K` alone as well, which lies apart from the
    exception stack and from what faults at the `esp`s in `ok` write. -/
structure OwnOk (K ok : Word → Prop) (own : Word → Machine → Machine → Prop) : Prop where
  stack : ∀ b m m', own b m m' → m.reg .esp ≤ b → m'.reg .esp ≤ b
  mem : ∀ b m m', own b m m' → m.reg .esp ≤ b →
    ∀ a, K a ∨ (b ≤ a ∧ a < uxstacktop) → m'.mem a = m.mem a
  outside : ∀ a, K a → ¬ InEx a
  clear : ∀ e a, ok e → K a → Clear e a

/-- User code goes on as if the fault had not been taken: all registers and the flags of user code
    are back, and on the stack of the fault nothing at or above `esp` has changed. -/
structure Restored (K : Word → Prop) (s t : Machine) : Prop where
  reg : t.reg = s.reg
  eip : t.eip = s.eip
  eflags : t.eflags &&& userFlags = s.eflags &&& userFlags
  seg : t.cs = s.cs ∧ t.ds = s.ds ∧ t.es = s.es ∧ t.ss = s.ss
  exStack : InEx (s.reg .esp) → ∀ a, s.reg .esp ≤ a → a < uxstacktop → t.mem a = s.mem a
  kept : ∀ a, K a → Clear (s.reg .esp) a → t.mem a = s.mem a

/-! ### The two stacks -/

/-- The word that the trampoline writes is apart from all words of the frame. -/
theorem scratch_apart (esp : Word) {j : Word} (hj : j.toNat ≤ 48) :
    Mem.Apart (utfAddr esp + j) (esp - 4) := by
  have htop : uxstacktop.toNat = 4005560320 := by decide
  have hlow : (uxstacktop - BitVec.ofNat 32 pgsize).toNat = 4005556224 := by decide
  have hs : (BitVec.ofNat 32 (utrapframeSize + 4)).toNat = 56 := by decide
  have h4 : (4 : Word).toNat = 4 := rfl
  unfold Mem.Apart utfAddr stacktop
  split
  · rename_i hin
    rw [BitVec.lt_def, BitVec.lt_def, htop, hlow] at hin
    constructor <;> bv_omega
  · rename_i hin
    rw [BitVec.lt_def, BitVec.lt_def, htop, hlow] at hin
    constructor <;> bv_omega

/-- The new frame starts 56 bytes below the top of its stack. -/
theorem stacktop_range (esp : Word) :
    4005556224 < (stacktop esp).toNat ∧ (stacktop esp).toNat ≤ 4005560320 := by
  have htop : uxstacktop.toNat = 4005560320 := by decide
  have hlow : (uxstacktop - BitVec.ofNat 32 pgsize).toNat = 4005556224 := by decide
  unfold stacktop
  split
  · rename_i h
    rw [BitVec.lt_def, BitVec.lt_def, htop, hlow] at h
    omega
  · omega

theorem utfAddr_toNat (esp : Word) : (utfAddr esp).toNat + 56 = (stacktop esp).toNat := by
  have hs : (BitVec.ofNat 32 (utrapframeSize + 4)).toNat = 56 := by decide
  have := stacktop_range esp
  unfold utfAddr
  bv_omega

/-- In the recursive case the frame lies just below the scratch word, which lies just below `esp`. -/
theorem utfAddr_recursive {esp : Word} (h : InEx esp) (hne : esp ≠ exEdge) :
    utfAddr esp + 52 = esp - 4 ∧ (utfAddr esp).toNat + 56 = esp.toNat := by
  have htop : uxstacktop.toNat = 4005560320 := by decide
  have hlow : exEdge.toNat = 4005556224 := by decide
  have hne' : esp.toNat ≠ 4005556224 := fun he => hne (BitVec.eq_of_toNat_eq (he.trans hlow.symm))
  have hs : (BitVec.ofNat 32 (utrapframeSize + 4)).toNat = 56 := by decide
  obtain ⟨h1, h2⟩ := h
  rw [BitVec.le_def, hlow] at h1
  rw [BitVec.lt_def, htop] at h2
  have hin : uxstacktop - BitVec.ofNat 32 pgsize < esp ∧ esp < uxstacktop :=
    ⟨by rw [BitVec.lt_def]; show exEdge.toNat < _; omega, by rw [BitVec.lt_def, htop]; exact h2⟩
  unfold utfAddr stacktop
  rw [if_pos hin]
  have h52 : (52 : Word).toNat = 52 := rfl
  have h4 : (4 : Word).toNat = 4 := rfl
  constructor <;> bv_omega

/-- What a fault writes on the exception stack, seen from outside of it. -/
theorem utf_clear {esp a : Word} (ha : ¬ InEx a) (hfar : InEx esp → 64 ≤ (a - (esp - 64)).toNat) :
    60 ≤ (a - (utfAddr esp - 8)).toNat := by
  have htop : uxstacktop.toNat = 4005560320 := by decide
  have hlow : exEdge.toNat = 4005556224 := by decide
  have hu1 := utfAddr_toNat esp
  by_cases hin : InEx esp ∧ esp ≠ exEdge
  · have := hfar hin.1
    obtain ⟨-, hrec⟩ := utfAddr_recursive hin.1 hin.2
    bv_omega
  · have htop' : stacktop esp = uxstacktop := by
      unfold stacktop
      rw [if_neg fun h => hin ⟨⟨BitVec.le_of_lt h.1, h.2⟩, fun he => ?_⟩]
      subst he
      exact absurd h.1 (by decide)
    rw [htop', htop] at hu1
    simp only [InEx, BitVec.le_def, BitVec.lt_def, hlow, htop] at ha
    bv_omega

/-! ### The trampoline -/

/-- The words `ws` lie in memory from `u` on. -/
def WordsAt (mem : Mem) (u : Word) (ws : List Word) : Prop :=
  ∀ k (hk : k < ws.length), mem.load (u + BitVec.ofNat 32 (4 * k)) = ws[k]

/-- Registers after the trampoline's `popal`. -/
def frameReg (r : PushRegs) (esp : Word) : Reg → Word
  | .eax => r.regEax
  | .ecx => r.regEcx
  | .edx => r.regEdx
  | .ebx => r.regEbx
  | .esp => esp
  | .ebp => r.regEbp
  | .esi => r.regEsi
  | .edi => r.regEdi

/-- What the tail of the trampoline does with the words that it finds at its frame `u`. -/
theorem pgfaultReturn_effect {m : Machine} {u e' : Word} (hesp : m.reg .esp = u - 4)
    (he' : m.mem.load (u + 48) - 4 = e') (hw : m.writable e' = true)
    (hu : m.writable (u + 48) = true) : ∃ t, pgfaultReturn m = some t ∧
      t.mem = (m.mem.store e' (m.mem.load (u + 40))).store (u + 48) e' ∧ t.eip = t.mem.load e' ∧
      t.reg = Function.update (t.popalReg (u + 8)) .esp (e' + 4) ∧
      t.eflags &&& userFlags = t.mem.load (u + 44) &&& userFlags ∧
      t.cs = m.cs ∧ t.ds = m.ds ∧ t.es = m.es ∧ t.ss = m.ss := by
  unfold pgfaultReturn pfentryTail
  obtain ⟨f1, h1⟩ := m.exec_addl 4 .esp
  rw [Machine.run_cons h1]
  set m1 : Machine := { m with eflags := f1, reg := Function.update m.reg .esp (m.reg .esp + 4) }
  obtain ⟨f2, h2⟩ := m1.exec_addl 8 .esp
  rw [Machine.run_cons h2]
  set m2 : Machine := { m1 with eflags := f2, reg := Function.update m1.reg .esp (m1.reg .esp + 8) }
  have hs2 : m2.reg .esp = u + 8 := by
    show m.reg .esp + 4 + 8 = u + 8
    rw [hesp, BitVec.sub_add_cancel]
  rw [Machine.run_cons (m2.exec_load 32 .eax .esp)]
  set m3 : Machine := { m2 with
    reg := Function.update m2.reg .eax (m2.mem.load (m2.reg .esp + 32)) }
  rw [Machine.run_cons (m3.exec_load 40 .edx .esp)]
  set m4 : Machine := { m3 with
    reg := Function.update m3.reg .edx (m3.mem.load (m3.reg .esp + 40)) }
  obtain ⟨f5, h5⟩ := m4.exec_subl 4 .edx
  rw [Machine.run_cons h5]
  set m5 : Machine := { m4 with eflags := f5, reg := Function.update m4.reg .edx (m4.reg .edx - 4) }
  have hs5 : m5.reg .esp = u + 8 := hs2
  have hadd : ∀ j : Word, u + 8 + j = u + (8 + j) := fun j => BitVec.add_assoc ..
  have ha5 : m5.reg .eax = m.mem.load (u + 40) := by
    show m.mem.load (m2.reg .esp + 32) = _
    rw [hs2, hadd]
    rfl
  have hd5 : m5.reg .edx = e' := by
    show m.mem.load (m2.reg .esp + 40) - 4 = e'
    rw [hs2, hadd]
    exact he'
  have hd0 : m5.reg .edx + 0 = e' := by rw [hd5]; exact BitVec.add_zero e'
  rw [Machine.run_cons (m5.exec_store (by rw [hd0]; exact hw)), hd0, ha5]
  set m6 : Machine := { m5 with mem := m5.mem.store e' (m.mem.load (u + 40)) }
  have hd6 : m6.reg .esp + 40 = u + 48 := by
    show m5.reg .esp + 40 = u + 48
    rw [hs5, hadd]
    rfl
  rw [Machine.run_cons (m6.exec_store (by rw [hd6]; exact hu)), hd6]
  have hdx6 : m6.reg .edx = e' := hd5
  rw [hdx6]
  set m7 : Machine := { m6 with mem := m6.mem.store (u + 48) e' }
  have hs7 : m7.reg .esp = u + 8 := hs5
  -- `popal`, then the flags, the stack and the return
  rw [Machine.run_cons (show m7.exec .popal = some m7.popal from rfl)]
  obtain ⟨f8, h8⟩ := m7.popal.exec_addl 4 .esp
  rw [Machine.run_cons h8]
  set m8 : Machine := { m7.popal with
    eflags := f8, reg := Function.update m7.popal.reg .esp (m7.popal.reg .esp + 4) }
  have hs8 : m8.reg .esp = u + 44 := by
    show m7.reg .esp + 32 + 4 = u + 44
    rw [hs7, hadd, BitVec.add_assoc]
    rfl
  rw [Machine.run_cons (show m8.exec .popfl = _ from rfl)]
  set m9 : Machine := { m8.pop with
    eflags := (m8.eflags &&& ~~~userFlags) ||| (m8.top &&& userFlags) }
  have hs9 : m9.reg .esp = u + 48 := by
    show m8.reg .esp + 4 = u + 48
    rw [hs8, BitVec.add_assoc]
    rfl
  rw [Machine.run_cons (show m9.exec (.popl .esp) = _ from rfl)]
  have htop9 : m9.top = e' := by
    show m7.mem.load (m9.reg .esp) = e'
    rw [hs9]
    exact Mem.load_store_self ..
  refine ⟨_, rfl, rfl, ?_, ?_, ?_, rfl, rfl, rfl, rfl⟩
  · show m7.mem.load m9.top = m7.mem.load e'
    rw [htop9]
  · funext r
    rcases eq_or_ne r .esp with rfl | hr
    · show m9.top + 4 = _
      rw [Function.update_self, htop9]
    have h9 : m9.reg r = m7.popalReg (u + 8) r := by
      show Function.update (Function.update (m7.popalReg (m7.reg .esp)) .esp _) .esp _ r = _
      rw [Function.update_of_ne hr, Function.update_of_ne hr, hs7]
    rw [Function.update_of_ne hr]
    simp only [Machine.ret, Machine.pop, Machine.setReg, Function.update_of_ne hr, h9]
    cases r <;> rfl
  · have htop8 : m8.top = m7.mem.load (u + 44) := by
      show m7.mem.load (m8.reg .esp) = _
      rw [hs8]
    show ((m8.eflags &&& ~~~userFlags) ||| (m8.top &&& userFlags)) &&& userFlags =
      m7.mem.load (u + 44) &&& userFlags
    rw [htop8]
    ext i
    simp only [BitVec.getElem_and, BitVec.getElem_or, BitVec.getElem_not]
    cases userFlags[i] <;> simp

/-- The tail of the trampoline with the frame of `tf` at `u`. -/
theorem pgfaultReturn_run {m : Machine} {u va : Word} (tf : Trapframe) (hesp : m.reg .esp = u - 4)
    (hf : WordsAt m.mem u (utrapframe va tf)) (hw : m.writable (tf.tfEsp - 4) = true)
    (hu : m.writable (u + 48) = true)
    (hap : ∀ j : Word, j.toNat ≤ 48 → Mem.Apart (u + j) (tf.tfEsp - 4)) :
    ∃ t, pgfaultReturn m = some t ∧ t.reg = frameReg tf.tfRegs tf.tfEsp ∧ t.eip = tf.tfEip ∧
      t.eflags &&& userFlags = tf.tfEflags &&& userFlags ∧
      (t.cs = m.cs ∧ t.ds = m.ds ∧ t.es = m.es ∧ t.ss = m.ss) ∧
      t.mem = (m.mem.store (tf.tfEsp - 4) tf.tfEip).store (u + 48) (tf.tfEsp - 4) := by
  have hword : ∀ k (hk : k < 13) (w : Word), (utrapframe va tf).get ⟨k, hk⟩ = w → ∀ j : Word,
      BitVec.ofNat 32 (4 * k) = j → m.mem.load (u + j) = w := by
    rintro k hk w rfl j rfl
    exact hf k hk
  have heip : m.mem.load (u + 40) = tf.tfEip := hword 10 (by decide) _ rfl _ (by decide)
  have hesp' : m.mem.load (u + 48) = tf.tfEsp := hword 12 (by decide) _ rfl _ (by decide)
  obtain ⟨t, ht, hmem, hteip, hreg, hfl, hseg⟩ :=
    pgfaultReturn_effect hesp (by rw [hesp']) hw hu
  rw [heip] at hmem
  -- the words of the frame that are read after the two stores
  have hload : ∀ j : Word, Mem.Apart j 48 → j.toNat ≤ 48 → t.mem.load (u + j) = m.mem.load (u + j) :=
    fun j hj hle => by
      rw [hmem, Mem.load_store_of_apart hj.of_add, Mem.load_store_of_apart (hap j hle)]
  refine ⟨t, ht, ?_, ?_, ?_, hseg, hmem⟩
  · have hpop : ∀ (k : Nat) (hk : k < 13) (w : Word) (j : Word), (utrapframe va tf).get ⟨k, hk⟩ = w →
        BitVec.ofNat 32 (4 * k) = 8 + j → Mem.Apart (8 + j) 48 → (8 + j).toNat ≤ 48 →
        t.mem.load (u + 8 + j) = w := by
      intro k hk w j hw' hj hap' hle
      rw [BitVec.add_assoc, hload _ hap' hle]
      exact hword k hk w hw' _ hj
    have h0 : t.mem.load (u + 8) = tf.tfRegs.regEdi := by
      have := hpop 2 (by decide) _ 0 rfl (by decide) (by decide) (by decide)
      rwa [show u + 8 + 0 = u + 8 from BitVec.add_zero _] at this
    rw [hreg]
    funext r
    cases r
    case esp =>
      rw [Function.update_self, BitVec.sub_add_cancel]
      rfl
    case edi => exact h0
    case esi => exact hpop 3 (by decide) _ 4 rfl (by decide) (by decide) (by decide)
    case ebp => exact hpop 4 (by decide) _ 8 rfl (by decide) (by decide) (by decide)
    case ebx => exact hpop 6 (by decide) _ 16 rfl (by decide) (by decide) (by decide)
    case edx => exact hpop 7 (by decide) _ 20 rfl (by decide) (by decide) (by decide)
    case ecx => exact hpop 8 (by decide) _ 24 rfl (by decide) (by decide) (by decide)
    case eax => exact hpop 9 (by decide) _ 28 rfl (by decide) (by decide) (by decide)
  · rw [hteip, hmem, Mem.load_store_of_apart (hap 48 (by decide)).symm, Mem.load_store_self]
  · rw [hfl, hload 44 (by decide) (by decide)]
    rw [hword 11 (by decide) _ rfl _ (by decide)]
    rfl

/-- The head of the trampoline pushes two words below the frame and calls the handler. -/
theorem pgfaultCall_spec {k : PfLink} {m h : Machine} (hc : pgfaultCall k m = some h) :
    h.reg .esp = m.reg .esp - 8 ∧ (h.cs = m.cs ∧ h.ds = m.ds ∧ h.es = m.es ∧ h.ss = m.ss) ∧
      ∀ a, 8 ≤ (a - (m.reg .esp - 8)).toNat → h.mem a = m.mem a := by
  unfold pgfaultCall pfentryHead at hc
  obtain ⟨m2, h2, hc⟩ := Option.bind_eq_some_iff.mp hc
  obtain ⟨m1, h1, h2⟩ := Option.bind_eq_some_iff.mp h2
  obtain rfl := Machine.push_eq_some h1
  cases h2
  obtain ⟨m3, h3, rfl⟩ := Option.map_eq_some_iff.mp hc
  obtain rfl := Machine.push_eq_some h3
  have h8 : (8 : Word).toNat = 8 := rfl
  have h4 : (4 : Word).toNat = 4 := rfl
  have h44 : m.reg .esp - 4 - 4 = m.reg .esp - 8 := by bv_omega
  simp only [Machine.setReg, Machine.read, ne_eq, reduceCtorEq, not_false_eq_true,
    Function.update_self, Function.update_of_ne, h44, and_self, true_and]
  intro a ha
  rw [Mem.store_of_apart (by bv_omega), Mem.store_of_apart (by bv_omega)]

section

variable {k : PfLink} {own : Word → Machine → Machine → Prop} {K ok : Word → Prop} {s t : Machine}

theorem utrapframe_length (va : Word) (tf : Trapframe) : (utrapframe va tf).length = 13 := rfl

/-- A handler's run with its frame at `b` leaves the frame, what lies above it, and the memory in `K`
    alone. -/
def RunKeeps (K : Word → Prop) (b : Word) (run : Machine → Machine → Prop) : Prop :=
  ∀ h0 h1, h0.reg .esp ≤ b → run h0 h1 →
    ∀ a, K a ∨ (b ≤ a ∧ a < uxstacktop) → h1.mem a = h0.mem a

/-- What the trampoline makes of the state in which the handler is done. -/
structure Unwound (K : Word → Prop) (s h t : Machine) : Prop where
  reg : t.reg = s.reg
  eip : t.eip = s.eip
  eflags : t.eflags &&& userFlags = s.eflags &&& userFlags
  seg : t.cs = s.cs ∧ t.ds = s.ds ∧ t.es = s.es ∧ t.ss = s.ss
  mem : t.mem = (h.mem.store (s.reg .esp - 4) s.eip).store (utfAddr (s.reg .esp) + 48)
    (s.reg .esp - 4)
  above : ∀ a : Word, (utfAddr (s.reg .esp)).toNat + 52 ≤ a.toNat → a.toNat < 4005560320 →
    h.mem a = s.mem a
  kept : ∀ a, K a → (InEx (s.reg .esp) → 64 ≤ (a - (s.reg .esp - 64)).toNat) → h.mem a = s.mem a

theorem HandlerDone.unwound {run : Word → Machine → Machine → Prop} (hK : ∀ a, K a → ¬ InEx a)
    (hrun : RunKeeps K (utfAddr (s.reg .esp)) (run (utfAddr (s.reg .esp)))) {h : Machine}
    (hd : HandlerDone k run s h) : ∃ t, pgfaultReturn h = some t ∧ Unwound K s h t := by
  obtain ⟨⟨upcall, va, err, oesp, h0, hcall, hr, hret⟩, hw, hu⟩ := hd
  set u := utfAddr (s.reg .esp) with hudef
  set m0 := faultEntry upcall va err oesp s with hm0
  set tf := trapframeOf s tPgflt err oesp with htf
  obtain ⟨hesp0, hseg0, hmem0⟩ := pgfaultCall_spec hcall
  have hu0 : m0.reg .esp = u := by rw [hm0, hudef]; simp [faultEntry]
  rw [hu0] at hesp0 hmem0
  have htop : uxstacktop.toNat = 4005560320 := by decide
  have hlow : exEdge.toNat = 4005556224 := by decide
  have h8 : (8 : Word).toNat = 8 := rfl
  -- the frame lies above the words of the call
  have hu1 := utfAddr_toNat (s.reg .esp)
  have hu2 := stacktop_range (s.reg .esp)
  rw [← hudef] at hu1
  have hub : 4005556168 ≤ u.toNat ∧ u.toNat + 56 ≤ 4005560320 := by omega
  have hkeep := hrun h0 h (by rw [hesp0, BitVec.le_def]; bv_omega) hr
  have hframe : ∀ a : Word, u.toNat ≤ a.toNat → a.toNat < 4005560320 → h.mem a = m0.mem a := by
    intro a h1 h2
    rw [hkeep a (Or.inr ⟨by rw [BitVec.le_def]; exact h1, by rw [BitVec.lt_def, htop]; exact h2⟩)]
    exact hmem0 a (by bv_omega)
  have hwords : WordsAt h.mem u (utrapframe va tf) := by
    intro j hj
    rw [utrapframe_length] at hj
    rw [Mem.load_congr (m := m0.mem) fun i hi => hframe _ (by bv_omega) (by bv_omega)]
    exact Mem.load_storeAll (l := utrapframe va tf) hj (by rw [utrapframe_length]; decide)
  have hesp1 : h.reg .esp = u - 4 := by
    rw [hret.esp, hesp0]
    bv_omega
  obtain ⟨t, ht, htr, hteip, htfl, htseg, htmem⟩ := pgfaultReturn_run tf hesp1 hwords hw hu
    fun j hj => scratch_apart _ hj
  obtain ⟨hc1, hc2, hc3, hc4⟩ := hret.seg
  obtain ⟨h1, h2, h3, h4⟩ := htseg
  obtain ⟨g1, g2, g3, g4⟩ := hseg0
  have h52 : 4 * (utrapframe va tf).length = 52 := rfl
  refine ⟨t, ht, ?_, hteip, htfl, ⟨h1.trans (hc1.trans g1), h2.trans (hc2.trans g2),
    h3.trans (hc3.trans g3), h4.trans (hc4.trans g4)⟩, htmem, fun a ha1 ha2 => ?_, fun a ha hfar => ?_⟩
  · rw [htr]
    funext r
    cases r <;> rfl
  · have ha3 : u.toNat + 52 ≤ a.toNat := ha1
    rw [hframe a (by omega) ha2]
    exact Mem.storeAll_of_outside (by rw [h52]; bv_omega) (by rw [utrapframe_length]; decide)
  · have hout : 60 ≤ (a - (u - 8)).toNat := utf_clear (hK a ha) hfar
    rw [hkeep a (Or.inl ha), hmem0 a (by omega)]
    exact Mem.storeAll_of_outside (by rw [h52]; bv_omega) (by rw [utrapframe_length]; decide)

/-- One level: when the handler's run keeps its frame and everything above, the fault is unwound. -/
theorem HandlerDone.restored {run : Word → Machine → Machine → Prop} (hne : s.reg .esp ≠ exEdge)
    (hK : ∀ a, K a → ¬ InEx a)
    (hrun : RunKeeps K (utfAddr (s.reg .esp)) (run (utfAddr (s.reg .esp)))) {h : Machine}
    (hd : HandlerDone k run s h) : ∃ t, pgfaultReturn h = some t ∧ Restored K s t := by
  obtain ⟨t, ht, hun⟩ := hd.unwound hK hrun
  have htop : uxstacktop.toNat = 4005560320 := by decide
  have hlow : exEdge.toNat = 4005556224 := by decide
  have hu1 := utfAddr_toNat (s.reg .esp)
  have hu2 := stacktop_range (s.reg .esp)
  have h48 : (48 : Word).toNat = 48 := rfl
  have h4 : (4 : Word).toNat = 4 := rfl
  refine ⟨t, ht, hun.reg, hun.eip, hun.eflags, hun.seg, fun hex a h1 h2 => ?_, fun a hKa hclear => ?_⟩
  · -- the recursive case: everything written lies below `esp`
    obtain ⟨-, hrec⟩ := utfAddr_recursive hex hne
    rw [BitVec.le_def] at h1
    rw [BitVec.lt_def, htop] at h2
    rw [hun.mem, Mem.store_of_apart (by bv_omega), Mem.store_of_apart (by bv_omega)]
    exact hun.above a (by omega) h2
  · obtain ⟨hfar, hnear⟩ := hclear
    have hout := utf_clear (hK a hKa) hfar
    have hscr : 4 ≤ (a - (s.reg .esp - 4)).toNat := by
      by_cases hex : InEx (s.reg .esp)
      · have := hfar hex
        bv_omega
      · exact hnear hex
    rw [hun.mem, Mem.store_of_apart (by bv_omega), Mem.store_of_apart hscr, hun.kept a hKa hfar]

/-- What a handler keeps during its run. -/
structure Keeps (K : Word → Prop) (b : Word) (m m' : Machine) : Prop where
  esp : m'.reg .esp ≤ b
  mem : ∀ a, K a ∨ (b ≤ a ∧ a < uxstacktop) → m'.mem a = m.mem a

/-- The faults that a handler takes at or below `b` are taken inside, and unwound. -/
def Nested (K : Word → Prop) (b : Word) (fault : Machine → Machine → Prop) : Prop :=
  ∀ m m', fault m m' → m.reg .esp ≤ b →
    Inside (m.reg .esp) ∧ Restored K m m' ∧ ∀ a, K a → Clear (m.reg .esp) a

theorem HandlerRun.keeps {fault : Machine → Machine → Prop} {b : Word} (ho : OwnOk K ok own)
    (hf : Nested K b fault) {m m' : Machine} (hr : HandlerRun own fault b m m')
    (hle : m.reg .esp ≤ b) : Keeps K b m m' := by
  induction hr with
  | refl => exact ⟨hle, fun _ _ => rfl⟩
  | @tail m1 m2 _ hstep ih =>
    rcases hstep with hown | hfault
    · exact ⟨ho.stack b m1 m2 hown ih.esp, fun a ha =>
        (ho.mem b m1 m2 hown ih.esp a ha).trans (ih.mem a ha)⟩
    · -- a nested fault writes below its own `esp` only
      obtain ⟨hin, hr, hclear⟩ := hf m1 m2 hfault ih.esp
      refine ⟨by rw [hr.reg]; exact ih.esp, fun a ha => ?_⟩
      rw [← ih.mem a ha]
      rcases ha with hk | ⟨h1, h2⟩
      · exact hr.kept a hk (hclear a hk)
      · exact hr.exStack ⟨BitVec.le_of_lt hin.1, hin.2⟩ a (BitVec.le_trans ih.esp h1) h2

theorem HandlerRun.runKeeps {fault : Machine → Machine → Prop} {b : Word} (ho : OwnOk K ok own)
    (hf : Nested K b fault) : RunKeeps K b (HandlerRun own fault b) :=
  fun _ _ hle hr => (HandlerRun.keeps ho hf hr hle).mem

theorem Inside.utfAddr_le {esp b : Word} (h : Inside esp) (hle : esp ≤ b) : utfAddr esp ≤ b := by
  obtain ⟨-, hrec⟩ := utfAddr_recursive ⟨BitVec.le_of_lt h.1, h.2⟩ (Ne.symm (BitVec.ne_of_lt h.1))
  rw [BitVec.le_def] at hle ⊢
  omega

/-- However deep faults nest, they are unwound if each is taken inside the exception stack. -/
theorem handles_restored {b : Word} (ho : OwnOk K ok own) (hok : ∀ e, ok e → e ≤ b → Inside e) :
    ∀ n, Nested K b (Handles k own ok n)
  | 0, _, _, h, _ => h.elim
  | n + 1, s, t, ⟨he, h, hd, ht⟩, hle => by
    have hin := hok _ he hle
    have hnest : Nested K (utfAddr (s.reg .esp)) (Handles k own ok n) :=
      handles_restored ho (fun e he' hle' => hok e he' (BitVec.le_trans hle' (hin.utfAddr_le hle))) n
    obtain ⟨t', ht', hres⟩ := hd.restored (Ne.symm (BitVec.ne_of_lt hin.1)) ho.outside
      (HandlerRun.runKeeps ho hnest)
    rw [ht'] at ht
    cases ht
    exact ⟨hin, hres, fun a ha => ho.clear _ a he ha⟩

end

/-! ### Handlers that break a frame -/

section

variable {k : PfLink} {own : Word → Machine → Machine → Prop} {ok : Word → Prop} {s : Machine}

/-- A handler that may do anything below its frame. -/
def anyHandler (b : Word) (m m' : Machine) : Prop :=
  m'.reg .esp ≤ b ∧ ∀ a, b ≤ a → a < uxstacktop → m'.mem a = m.mem a

theorem anyHandler_ok : OwnOk (fun _ => False) ok anyHandler :=
  ⟨fun _ _ _ h _ => h.1, fun _ _ _ h _ a ha => ha.elim False.elim fun hx => h.2 a hx.1 hx.2,
    fun _ h => h.elim, fun _ _ _ h => h.elim⟩

/-- A handler has returned with this memory. -/
def handlerRet (k : PfLink) (h0 : Machine) (mem : Mem) : Machine :=
  { h0 with
    eip := k.afterCall
    reg := Function.update h0.reg .esp (h0.reg .esp + 4)
    mem := mem }

theorem handlerRet_returned (k : PfLink) (h0 : Machine) (mem : Mem) :
    Returned k h0 (handlerRet k h0 mem) :=
  ⟨rfl, rfl, by rintro r (rfl | rfl | rfl | rfl) <;> rfl, rfl, rfl, rfl, rfl⟩

/-- The call of the handler, where all memory may be written. -/
theorem pgfaultCall_run (k : PfLink) {m : Machine} (hw : m.wr = fun _ => true) :
    ∃ h0, pgfaultCall k m = some h0 ∧ h0.reg .esp = m.reg .esp - 8 ∧ h0.wr = (fun _ => true) ∧
      h0.mem = (m.mem.store (m.reg .esp - 4) (m.reg .esp)).store (m.reg .esp - 8) k.afterCall := by
  have hwr : ∀ (m : Machine) (a : Word), m.wr = (fun _ => true) → m.writable a = true :=
    fun m a hm => by simp [Machine.writable, hm]
  have h44 : m.reg .esp - 4 - 4 = m.reg .esp - 8 := by
    have h8 : (8 : Word).toNat = 8 := rfl
    have h4 : (4 : Word).toNat = 4 := rfl
    bv_omega
  set m1 : Machine := { m with
    reg := Function.update m.reg .esp (m.reg .esp - 4)
    mem := m.mem.store (m.reg .esp - 4) (m.reg .esp) } with hm1
  have h1 : m.exec (.pushl (.reg .esp)) = some m1 := m.push_of_writable (hwr m _ hw)
  set m2 := m1.setReg .eax (m1.mem.load k.pgfaultHandler) with hm2
  have h2 : m1.exec (.movl (.abs k.pgfaultHandler) (.reg .eax)) = some m2 := rfl
  have hsp2 : m2.reg .esp = m.reg .esp - 4 := by simp [hm2, hm1, Machine.setReg]
  refine ⟨{ m2 with
    eip := m2.reg .eax
    reg := Function.update m2.reg .esp (m.reg .esp - 8)
    mem := m2.mem.store (m.reg .esp - 8) k.afterCall }, ?_, rfl, hw, rfl⟩
  unfold pgfaultCall pfentryHead
  rw [Machine.run_cons h1, Machine.run_cons h2]
  show (m2.call (m2.reg .eax) k.afterCall) = _
  unfold Machine.call
  rw [m2.push_of_writable (hwr m2 _ hw), hsp2, h44]
  rfl

/-- A machine at `esp`, with all registers and memory zero and writable. -/
def blankMachine (esp : Word) : Machine where
  reg r := if r = .esp then esp else 0
  eip := 0
  eflags := 0
  cs := 0
  ds := 0
  es := 0
  ss := 0
  mem _ := 0
  wr _ := true

/-- A fault taken with `esp` at the lowest address of the exception stack: its frame goes to the top
    of that stack, over what is there. -/
theorem full_stack_overwritten (ok : Word → Prop) (n : Nat) : ∃ h,
    HandlerDone ⟨0x800000, 0x800100⟩
      (HandlerRun anyHandler (Handles ⟨0x800000, 0x800100⟩ anyHandler ok n)) (blankMachine exEdge) h ∧
    ∀ t, pgfaultReturn h = some t → ¬ Restored (fun _ => False) (blankMachine exEdge) t := by
  set s := blankMachine exEdge with hs
  set k : PfLink := ⟨0x800000, 0x800100⟩
  obtain ⟨h0, hcall, hesp, hwr, hmem⟩ := pgfaultCall_run k (m := faultEntry 0 0xDEADBEEF 0 0 s) rfl
  have hu : (faultEntry 0 0xDEADBEEF 0 0 s).reg .esp = utfAddr exEdge := rfl
  rw [hu] at hesp hmem
  have hrun : ∀ {fault}, HandlerRun anyHandler fault (utfAddr exEdge) h0 (handlerRet k h0 h0.mem) := by
    refine .single (Or.inl ⟨?_, fun _ _ _ => rfl⟩)
    show h0.reg .esp + 4 ≤ utfAddr exEdge
    rw [hesp]
    decide
  have hd : ∀ fault, HandlerDone k (HandlerRun anyHandler fault) s (handlerRet k h0 h0.mem) := fun _ =>
    ⟨⟨0, 0xDEADBEEF, 0, 0, h0, hcall, hrun, handlerRet_returned k h0 _⟩,
      by simp [Machine.writable, handlerRet, hwr], by simp [Machine.writable, handlerRet, hwr]⟩
  refine ⟨handlerRet k h0 h0.mem, hd _, fun t ht hres => ?_⟩
  have hok : OwnOk (fun _ => False) (fun _ => False) anyHandler := anyHandler_ok
  obtain ⟨t', ht', hun⟩ := (hd fun _ _ => False).unwound (K := fun _ => False)
    (fun _ h => h.elim) (HandlerRun.runKeeps hok fun _ _ h => h.elim)
  rw [ht] at ht'
  cases ht'
  -- the lowest byte of the frame lies above `esp`
  have hsame := hres.exStack (by unfold InEx; decide) (utfAddr exEdge) (by decide) (by decide)
  rw [hun.mem, show (handlerRet k h0 h0.mem).mem = h0.mem from rfl, hmem] at hsame
  revert hsame
  decide

/-- What the kernel pushes for a fault in `s`, where the first words of the frame are all ones. -/
theorem frame_ones {esp a : Word} {va err : Word} {m : Machine} (hva : va = -1) (herr : err = -1)
    (hedi : m.reg .edi = -1) (hesp : m.reg .esp = esp) (ha : (a - utfAddr esp).toNat ≤ 8) :
    (faultEntry 0 va err 0 m).mem a = 0xFF := by
  obtain ⟨k, hk, j, hj, rfl⟩ : ∃ k < 3, ∃ j : Word, j.toNat < 4 ∧
      a = utfAddr esp + BitVec.ofNat 32 (4 * k) + j := by
    refine ⟨(a - utfAddr esp).toNat / 4, by omega,
      BitVec.ofNat 32 ((a - utfAddr esp).toNat % 4), ?_, ?_⟩
    · rw [BitVec.toNat_ofNat]
      omega
    · rw [BitVec.add_assoc, ← BitVec.ofNat_add, Nat.div_add_mod, BitVec.ofNat_toNat,
        BitVec.setWidth_eq]
      bv_omega
  set ws := utrapframe va (trapframeOf m tPgflt err 0)
  have hlen : ws.length < 2 ^ 29 := by rw [utrapframe_length]; decide
  have hload : (m.mem.storeAll (utfAddr esp) ws).load (utfAddr esp + BitVec.ofNat 32 (4 * k)) = -1 := by
    have : k = 0 ∨ k = 1 ∨ k = 2 := by omega
    rcases this with rfl | rfl | rfl
    · exact (Mem.load_storeAll (k := 0) (by rw [utrapframe_length]; decide) hlen).trans hva
    · exact (Mem.load_storeAll (k := 1) (by rw [utrapframe_length]; decide) hlen).trans herr
    · exact (Mem.load_storeAll (k := 2) (by rw [utrapframe_length]; decide) hlen).trans hedi
  have hbyte := Mem.byte_load (m.mem.storeAll (utfAddr esp) ws)
    (utfAddr esp + BitVec.ofNat 32 (4 * k)) hj
  rw [hload] at hbyte
  show (m.mem.storeAll (utfAddr (m.reg .esp)) ws) _ = _
  rw [hesp, ← hbyte]
  have : j.toNat = 0 ∨ j.toNat = 1 ∨ j.toNat = 2 ∨ j.toNat = 3 := by omega
  rcases this with h | h | h | h <;> rw [h] <;> decide

/-- A fault taken elsewhere than inside the exception stack, by a handler with its frame at `u`: the
    new frame goes to the top of that stack. If it leaves `edi` in the handler's frame alone, the
    handler that serves it does not. -/
theorem nested_service {u e : Word} {m : Machine} (hwr : m.wr = fun _ => true)
    (hesp : m.reg .esp = e) (hedi : m.reg .edi = -1) (hout : ¬ Inside e) (he : e ≤ u)
    (hu : 4005556168 < u.toNat ∧ u.toNat ≤ 4005560264) (hok : ok e) :
    ∃ t, Handles k anyHandler ok 1 m t ∧ t.mem (u + 8) = 0xFF := by
  set b := utfAddr e with hb
  have h4 : (4 : Word).toNat = 4 := rfl
  have h8 : (8 : Word).toNat = 8 := rfl
  have h48 : (48 : Word).toNat = 48 := rfl
  have htop : uxstacktop.toNat = 4005560320 := by decide
  have hb1 : b.toNat = 4005560264 := by
    have hst : stacktop e = uxstacktop := if_neg hout
    have hb1 := utfAddr_toNat e
    rw [hst, htop, ← hb] at hb1
    omega
  rw [BitVec.le_def] at he
  obtain ⟨h0, hcall, hesp0, hwr0, hmem0⟩ := pgfaultCall_run k (m := faultEntry 0 (-1) (-1) 0 m) hwr
  have hun : (faultEntry 0 (-1) (-1) 0 m).reg .esp = b := by simp [faultEntry, hesp, hb]
  rw [hun] at hesp0 hmem0
  set h := handlerRet k h0 fun a => if a = u + 8 ∧ a < b then 0xFF else h0.mem a with hh
  have hrun : ∀ {fault}, HandlerRun anyHandler fault b h0 h := by
    refine .single (Or.inl ⟨?_, fun a ha _ => if_neg fun hx => ?_⟩)
    · show h0.reg .esp + 4 ≤ b
      rw [hesp0, BitVec.le_def]
      bv_omega
    · exact absurd hx.2 (BitVec.not_lt.mpr ha)
  have hwrh : ∀ a, h.writable a = true := fun a => by
    simp [Machine.writable, hh, handlerRet, hwr0]
  have hdone : ∀ fault, HandlerDone k (HandlerRun anyHandler fault) m h := fun fault =>
    ⟨⟨0, -1, -1, 0, h0, hcall, by rw [hesp]; exact hrun, handlerRet_returned k h0 _⟩,
      hwrh _, hwrh _⟩
  have hany : OwnOk (fun _ => False) (fun _ => False) anyHandler := anyHandler_ok
  obtain ⟨t, ht, hun⟩ := (hdone fun _ _ => False).unwound (K := fun _ => False)
    (fun _ h => h.elim) (HandlerRun.runKeeps hany fun _ _ h => h.elim)
  refine ⟨t, ⟨by rw [hesp]; exact hok, h, hdone _, ht⟩, ?_⟩
  rw [hun.mem, hesp, Mem.store_of_apart (by bv_omega), Mem.store_of_apart (by bv_omega)]
  show (if u + 8 = u + 8 ∧ u + 8 < b then 0xFF else h0.mem (u + 8)) = _
  by_cases hlt : u + 8 < b
  · rw [if_pos ⟨rfl, hlt⟩]
  · rw [if_neg fun hx => hlt hx.2, hmem0]
    rw [BitVec.lt_def] at hlt
    rw [Mem.store_of_apart (by bv_omega), Mem.store_of_apart (by bv_omega)]
    exact frame_ones rfl rfl hedi hesp (by bv_omega)

/-- The handler of the first fault then finds its own frame spoilt. -/
theorem nested_frame_spoilt {esp e : Word} (hok : ok e) (he : e ≤ utfAddr esp) (hout : ¬ Inside e) :
    ∃ h, HandlerDone ⟨0x800000, 0x800100⟩
        (HandlerRun anyHandler (Handles ⟨0x800000, 0x800100⟩ anyHandler ok 1)) (blankMachine esp) h ∧
      ∀ t, pgfaultReturn h = some t → ¬ Restored (fun _ => False) (blankMachine esp) t := by
  set s := blankMachine esp with hs
  set k : PfLink := ⟨0x800000, 0x800100⟩
  set u := utfAddr esp with hu
  have hesp : s.reg .esp = esp := rfl
  have h4 : (4 : Word).toNat = 4 := rfl
  have h8 : (8 : Word).toNat = 8 := rfl
  have hu1 : u.toNat + 56 = (stacktop esp).toNat := utfAddr_toNat esp
  have hu2 := stacktop_range esp
  -- the handler is called, and faults at `e` with all ones in `edi`
  obtain ⟨h0, hcall, hesp0, hwr0, -⟩ := pgfaultCall_run k (m := faultEntry 0 0 0 0 s) rfl
  have hesp0' : h0.reg .esp = u - 8 := hesp0
  set m1 : Machine := { h0 with
    reg := Function.update (Function.update h0.reg .edi (-1)) .esp e } with hm1
  have hesp1 : m1.reg .esp = e := rfl
  obtain ⟨m2, hserve, hbyte⟩ := nested_service (k := k) (m := m1) hwr0 hesp1 rfl hout he
    (by omega) hok
  -- it returns
  set h := handlerRet k h0 m2.mem with hh
  have hesph : h.reg .esp = u - 4 := by
    show h0.reg .esp + 4 = u - 4
    rw [hesp0']
    bv_omega
  have hwrh : ∀ a, h.writable a = true := fun a => by
    simp [Machine.writable, hh, handlerRet, hwr0]
  have hown1 : anyHandler u h0 m1 := ⟨he, fun _ _ _ => rfl⟩
  have hown2 : anyHandler u m2 h := ⟨by rw [hesph, BitVec.le_def]; bv_omega, fun _ _ _ => rfl⟩
  have hstep : HandlerRun anyHandler (Handles k anyHandler ok 1) u h0 m1 := .single (Or.inl hown1)
  have hrun : HandlerRun anyHandler (Handles k anyHandler ok 1) u h0 h :=
    .tail (.tail hstep (Or.inr hserve)) (Or.inl hown2)
  refine ⟨h, ⟨⟨0, 0, 0, 0, h0, hcall, hrun, handlerRet_returned k h0 _⟩, hwrh _, hwrh _⟩,
    fun t ht hres => ?_⟩
  -- `edi` comes from the frame, if `esp` does
  obtain ⟨t', ht', hmem, -, hreg, -⟩ := pgfaultReturn_effect hesph rfl (hwrh _) (hwrh _)
  rw [ht] at ht'
  cases ht'
  have hx : h.mem.load (u + 48) - 4 = esp - 4 := by
    have hback : t.reg .esp = esp := by rw [hres.reg, hesp]
    rw [hreg, Function.update_self] at hback
    bv_omega
  have hedi : t.mem.load (u + 8) = 0 := by
    have hback : t.reg .edi = 0 := by rw [hres.reg]; rfl
    rw [hreg] at hback
    exact hback
  rw [hmem, hx, Mem.load_store_of_apart (Mem.Apart.of_add (by decide)),
    Mem.load_store_of_apart (scratch_apart esp (by decide))] at hedi
  have hb0 := Mem.byte_load h.mem (u + 8) (k := 0) (by decide)
  rw [hedi, show u + 8 + 0 = u + 8 from BitVec.add_zero _,
    show h.mem (u + 8) = 0xFF from hbyte] at hb0
  revert hb0
  decide

end

/-- `_pgfault_upcall` runs to its final `ret` and restores the trap-time state, at any depth of
    nesting, exactly when `esp` is not the lowest address of the exception stack and the handler takes
    faults of its own inside that stack only. On that stack the word that is written is the one left
    free above the frame. -/
theorem upcall_round_trip (esp : Word) (ok : Word → Prop) :
    (∀ (k : PfLink) (own : Word → Machine → Machine → Prop) (K : Word → Prop) (n : Nat)
      (s h : Machine), s.reg .esp = esp → OwnOk K ok own →
      HandlerDone k (HandlerRun own (Handles k own ok n)) s h →
      (∃ t, pgfaultReturn h = some t ∧ Restored K s t) ∧
        (InEx esp → utfAddr esp + 52 = esp - 4)) ↔
      esp ≠ exEdge ∧ ∀ e, ok e → e ≤ utfAddr esp → Inside e := by
  constructor
  · intro hall
    refine ⟨?_, fun e he hle => ?_⟩
    · rintro rfl
      obtain ⟨h, hd, hno⟩ := full_stack_overwritten ok 0
      obtain ⟨⟨t, ht, hres⟩, -⟩ := hall _ _ (fun _ => False) 0 (blankMachine exEdge) h rfl
        anyHandler_ok hd
      exact hno t ht hres
    · by_contra hout
      obtain ⟨h, hd, hno⟩ := nested_frame_spoilt he hle hout
      obtain ⟨⟨t, ht, hres⟩, -⟩ := hall _ _ (fun _ => False) 1 (blankMachine esp) h rfl
        anyHandler_ok hd
      exact hno t ht hres
  · rintro ⟨hne, hin⟩ k own K n s h rfl ho hd
    exact ⟨hd.restored hne ho.outside (HandlerRun.runKeeps ho (handles_restored ho hin n)),
      fun hex => (utfAddr_recursive hex hne).1⟩

/-- The trampoline does not restore every trap-time state. -/
theorem upcall_overwrites_full_stack : ¬ ∀ (k : PfLink) (own : Word → Machine → Machine → Prop)
    (K : Word → Prop) (n : Nat) (s h : Machine), OwnOk K (fun _ => True) own →
    HandlerDone k (HandlerRun own (Handles k own (fun _ => True) n)) s h →
    ∃ t, pgfaultReturn h = some t ∧ Restored K s t := by
  intro hall
  obtain ⟨h, hd, hno⟩ := full_stack_overwritten (fun _ => True) 0
  obtain ⟨t, ht, hres⟩ := hall _ _ (fun _ => False) 0 (blankMachine exEdge) h anyHandler_ok hd
  exact hno t ht hres

end Jos
