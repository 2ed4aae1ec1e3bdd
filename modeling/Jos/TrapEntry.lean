import Jos.Upcall

/-!
  Entering and leaving the kernel (`kern/trapentry.S`, `trap_init`, `env_pop_tf`).

  The CPU pushes part of the user's state, a stub completes it to the same shape for all vectors,
  and `_alltraps` pushes the rest. `env_pop_tf` takes a copy of what was pushed apart again. -/

namespace Jos

open Lib.Ia32

/-- The stubs of `trapentry.S`. -/
inductive TrapStub where
  | divideEntry | debugEntry | nmiEntry | brkptEntry | oflowEntry | boundEntry | illopEntry
  | deviceEntry | dblfltEntry | tssEntry | segnpEntry | stackEntry | gpfltEntry | pgfltEntry
  | fperrEntry | alignEntry | mchkEntry | simderrEntry | syscallEntry
  | irqErrorHandler | irqIdeHandler | irqKbdHandler | irqSerialHandler | irqSpuriousHandler
  | irqTimerHandler
  deriving DecidableEq

/-- `TRAPHANDLER`, for traps with an error code. -/
def trapHandler (num : Nat) : List Instr := [.pushl (.imm (BitVec.ofNat 32 num))]

/-- `TRAPHANDLER_NOEC`. -/
def trapHandlerNoec (num : Nat) : List Instr :=
  [.pushl (.imm 0), .pushl (.imm (BitVec.ofNat 32 num))]

/-- `IRQ_OFFSET`. -/
def irqOffset : Nat := 32

/-- The code of each stub up to its jump to `_alltraps`. -/
def TrapStub.code : TrapStub → List Instr
  | .divideEntry => trapHandlerNoec 0
  | .debugEntry => trapHandlerNoec 1
  | .nmiEntry => trapHandlerNoec 2
  | .brkptEntry => trapHandlerNoec 3
  | .oflowEntry => trapHandlerNoec 4
  | .boundEntry => trapHandlerNoec 5
  | .illopEntry => trapHandlerNoec 6
  | .deviceEntry => trapHandlerNoec 7
  | .dblfltEntry => trapHandler 8
  | .tssEntry => trapHandler 10
  | .segnpEntry => trapHandler 11
  | .stackEntry => trapHandler 12
  | .gpfltEntry => trapHandler 13
  | .pgfltEntry => trapHandler 14
  | .fperrEntry => trapHandlerNoec 16
  | .alignEntry => trapHandler 17
  | .mchkEntry => trapHandlerNoec 18
  | .simderrEntry => trapHandlerNoec 19
  | .syscallEntry => trapHandlerNoec 48
  | .irqErrorHandler => trapHandlerNoec (irqOffset + 19)
  | .irqIdeHandler => trapHandlerNoec (irqOffset + 14)
  | .irqKbdHandler => trapHandlerNoec (irqOffset + 1)
  | .irqSerialHandler => trapHandlerNoec (irqOffset + 4)
  | .irqSpuriousHandler => trapHandlerNoec (irqOffset + 7)
  | .irqTimerHandler => trapHandlerNoec irqOffset

/-- The gates that `trap_init` installs. -/
def idt : Nat → Option TrapStub
  | 0 => some .divideEntry
  | 1 => some .debugEntry
  | 2 => some .nmiEntry
  | 3 => some .brkptEntry
  | 4 => some .oflowEntry
  | 5 => some .boundEntry
  | 6 => some .illopEntry
  | 7 => some .deviceEntry
  | 8 => some .dblfltEntry
  | 10 => some .tssEntry
  | 11 => some .segnpEntry
  | 12 => some .stackEntry
  | 13 => some .gpfltEntry
  | 14 => some .pgfltEntry
  | 16 => some .fperrEntry
  | 17 => some .alignEntry
  | 18 => some .mchkEntry
  | 19 => some .simderrEntry
  | 32 => some .irqTimerHandler
  | 33 => some .irqKbdHandler
  | 36 => some .irqSerialHandler
  | 39 => some .irqSpuriousHandler
  | 46 => some .irqIdeHandler
  | 48 => some .syscallEntry
  | 51 => some .irqErrorHandler
  | _ => none

/-- The exceptions for which the CPU pushes an error code. -/
def PushesError (vector : Nat) : Prop := vector ∈ [8, 10, 11, 12, 13, 14, 17]

instance (vector : Nat) : Decidable (PushesError vector) := inferInstanceAs (Decidable (_ ∈ _))

/-- `GD_KD`. -/
def gdKd : Word := 0x10

/-- `_alltraps` up to its call of `trap`. -/
def alltraps : List Instr :=
  [.pushSeg .ds, .pushSeg .es, .pushal, .movl (.imm gdKd) (.reg .eax), .movSeg .eax .ds,
    .movSeg .eax .es, .pushl (.reg .esp)]

/-- What the CPU pushes when user code traps. -/
def trapWords (m : Machine) (vector : Nat) (err : Word) : List Word :=
  [m.ss.zeroExtend 32, m.reg .esp, m.eflags, m.cs.zeroExtend 32, m.eip] ++
    if PushesError vector then [err] else []

/-- The CPU on its kernel stack at `esp0`, with interrupts off; `wr` is what kernel code may
    write. -/
def onKernelStack (m : Machine) (esp0 : Word) (wr : Word → Bool) : Machine :=
  { m with
    reg := Function.update m.reg .esp esp0
    eflags := m.eflags &&& ~~~flIf
    cs := gdKt
    ss := gdKd.truncate 16
    wr := wr }

/-- The state at the call of `trap`, when user code in state `m` traps at `vector`. -/
def trapEntry (m : Machine) (esp0 : Word) (wr : Word → Bool) (vector : Nat) (err : Word)
    (stub : TrapStub) : Option Machine :=
  ((onKernelStack m esp0 wr).pushed (trapWords m vector err)).run (stub.code ++ alltraps)

/-- The `struct Trapframe` at `a`, field by field at its offset. -/
def loadFrame (mem : Mem) (a : Word) : Trapframe where
  tfRegs := ⟨mem.load a, mem.load (a + 4), mem.load (a + 8), mem.load (a + 12), mem.load (a + 16),
    mem.load (a + 20), mem.load (a + 24), mem.load (a + 28)⟩
  tfEs := (mem.load (a + 32)).truncate 16
  tfDs := (mem.load (a + 36)).truncate 16
  tfTrapno := mem.load (a + 40)
  tfErr := mem.load (a + 44)
  tfEip := mem.load (a + 48)
  tfCs := (mem.load (a + 52)).truncate 16
  tfEflags := mem.load (a + 56)
  tfEsp := mem.load (a + 60)
  tfSs := (mem.load (a + 64)).truncate 16

/-- `sizeof(struct Trapframe)`. -/
def sizeofTrapframe : Nat := 68

/-- The 68 bytes at `b` in `mem'` are those at `a` in `mem`. -/
def Copied (mem : Mem) (a : Word) (mem' : Mem) (b : Word) : Prop :=
  ∀ k, k < sizeofTrapframe → mem' (b + BitVec.ofNat 32 k) = mem (a + BitVec.ofNat 32 k)

/-- `env_pop_tf` on the frame at `tf`, from its assignment to `esp` on. -/
def envPopTf (tf : Word) (m : Machine) : Option Machine :=
  (m.run [.movl (.imm tf) (.reg .esp), .popal, .popSeg .es, .popSeg .ds, .addl 8 .esp]).map
    Machine.iret

/-- Two machines agree in all that user code has of the CPU. -/
structure SameUser (m t : Machine) : Prop where
  reg : t.reg = m.reg
  eip : t.eip = m.eip
  eflags : t.eflags = m.eflags
  seg : t.cs = m.cs ∧ t.ds = m.ds ∧ t.es = m.es ∧ t.ss = m.ss

/-! ### Entry -/

/-- Every gate leads to a stub that pushes its own number, and a 0 where the CPU pushes no error
    code. -/
theorem idt_code {vector : Nat} {stub : TrapStub} (h : idt vector = some stub) :
    stub.code = if PushesError vector then trapHandler vector else trapHandlerNoec vector := by
  unfold idt at h
  split at h <;> cases h <;> rfl

section

variable {m : Machine} {n : Nat}

/-- What `_alltraps` pushes: the segment registers, the general registers and the address of the
    whole frame. -/
theorem alltraps_run (h : m.Room 11) : ∃ k, m.run alltraps = some k ∧
    k.reg .esp = m.reg .esp - 44 ∧
    k.mem = m.mem.pushAll (m.reg .esp) [m.ds.zeroExtend 32, m.es.zeroExtend 32, m.reg .eax,
      m.reg .ecx, m.reg .edx, m.reg .ebx, m.reg .esp - 8, m.reg .ebp, m.reg .esi, m.reg .edi,
      m.reg .esp - 40] := by
  obtain ⟨h1, r1⟩ := Machine.Room.push (n := 10) h (m.ds.zeroExtend 32)
  obtain ⟨h2, r2⟩ := Machine.Room.push (n := 9) r1 (m.es.zeroExtend 32)
  obtain ⟨h3, r3⟩ := Machine.Room.pushal (n := 1) r2
  simp only [Machine.pushed_append, List.cons_append, List.nil_append] at h2 h3 r3
  set ws := [m.ds.zeroExtend 32, m.es.zeroExtend 32, (m.pushed [m.ds.zeroExtend 32,
    m.es.zeroExtend 32]).reg .eax, (m.pushed [m.ds.zeroExtend 32, m.es.zeroExtend 32]).reg .ecx,
    (m.pushed [m.ds.zeroExtend 32, m.es.zeroExtend 32]).reg .edx,
    (m.pushed [m.ds.zeroExtend 32, m.es.zeroExtend 32]).reg .ebx,
    (m.pushed [m.ds.zeroExtend 32, m.es.zeroExtend 32]).reg .esp,
    (m.pushed [m.ds.zeroExtend 32, m.es.zeroExtend 32]).reg .ebp,
    (m.pushed [m.ds.zeroExtend 32, m.es.zeroExtend 32]).reg .esi,
    (m.pushed [m.ds.zeroExtend 32, m.es.zeroExtend 32]).reg .edi] with hws
  have hlen : ws.length = 10 := rfl
  -- the kernel's data segment is loaded before the last push
  set k := ((((m.pushed ws).setReg .eax gdKd).setSeg .ds (gdKd.truncate 16)).setSeg .es
    (gdKd.truncate 16)) with hk
  have hesp : k.reg .esp = m.reg .esp - 40 := by
    show Function.update (m.pushed ws).reg .eax gdKd .esp = _
    rw [Function.update_of_ne (by decide), Machine.pushed_esp, hlen]
    rfl
  have rk : k.Room 1 := by
    intro j hj
    have := r3 j hj
    rw [Machine.pushed_esp, hlen] at this
    rw [hesp]
    exact this
  obtain ⟨h4, -⟩ := Machine.Room.push (n := 0) rk (k.reg .esp)
  refine ⟨k.pushed [k.reg .esp], ?_, ?_, ?_⟩
  · unfold alltraps
    rw [Machine.run_cons (show m.exec (.pushSeg .ds) = _ from h1),
      Machine.run_cons (show (m.pushed [m.ds.zeroExtend 32]).exec (.pushSeg .es) = _ from h2),
      Machine.run_cons (show Machine.exec _ .pushal = _ from h3),
      Machine.run_cons (show Machine.exec _ (.movl (.imm gdKd) (.reg .eax)) = _ from rfl),
      Machine.run_cons (show Machine.exec _ (.movSeg .eax .ds) = _ from rfl),
      Machine.run_cons (show Machine.exec _ (.movSeg .eax .es) = _ from rfl)]
    have hsame : ∀ k', k' = k → k'.run [.pushl (.reg .esp)] = some (k.pushed [k.reg .esp]) := by
      rintro k' rfl
      rw [Machine.run_cons (show Machine.exec _ (.pushl (.reg .esp)) = _ from h4)]
      rfl
    exact hsame _ rfl
  · rw [Machine.pushed_esp, hesp, BitVec.sub_sub]
    rfl
  · have hmem : k.mem = m.mem.pushAll (m.reg .esp) ws := rfl
    show k.mem.pushAll (k.reg .esp) [k.reg .esp] = _
    have h40 : m.reg .esp - 40 = m.reg .esp - BitVec.ofNat 32 (4 * ws.length) := rfl
    rw [hmem, hesp]
    nth_rewrite 1 [h40]
    rw [← Mem.pushAll_append, hws]
    simp [Machine.pushed]

/-- Seven words are on the stack when `_alltraps` starts, whichever stub ran. -/
theorem stub_run {vector : Nat} {stub : TrapStub} {err : Word} (hv : idt vector = some stub)
    (h : m.Room (7 + n)) : (m.pushed (trapWords m' vector err)).run (stub.code ++ is) =
      (m.pushed [m'.ss.zeroExtend 32, m'.reg .esp, m'.eflags, m'.cs.zeroExtend 32, m'.eip,
        if PushesError vector then err else 0, BitVec.ofNat 32 vector]).run is := by
  rw [idt_code hv]
  unfold trapWords
  by_cases hp : PushesError vector
  · simp only [if_pos hp, List.cons_append, List.nil_append]
    have hr : (m.pushed [m'.ss.zeroExtend 32, m'.reg .esp, m'.eflags, m'.cs.zeroExtend 32, m'.eip,
        err]).Room (n + 1) := Machine.Room.pushed (n := n + 1) (by
      rw [show n + 1 + List.length [m'.ss.zeroExtend 32, m'.reg .esp, m'.eflags,
        m'.cs.zeroExtend 32, m'.eip, err] = 7 + n by simp; omega]
      exact h)
    obtain ⟨h1, -⟩ := hr.push (BitVec.ofNat 32 vector)
    rw [Machine.pushed_append] at h1
    exact Machine.run_cons h1
  · simp only [if_neg hp, List.append_nil]
    have hr : (m.pushed [m'.ss.zeroExtend 32, m'.reg .esp, m'.eflags, m'.cs.zeroExtend 32,
        m'.eip]).Room (n + 2) := Machine.Room.pushed (n := n + 2) (by
      rw [show n + 2 + List.length [m'.ss.zeroExtend 32, m'.reg .esp, m'.eflags,
        m'.cs.zeroExtend 32, m'.eip] = 7 + n by simp; omega]
      exact h)
    obtain ⟨h1, r1⟩ := Machine.Room.push (n := n + 1) hr 0
    obtain ⟨h2, -⟩ := r1.push (BitVec.ofNat 32 vector)
    rw [Machine.pushed_append] at h1 h2
    rw [Machine.pushed_append] at h2
    exact (Machine.run_cons (show Machine.exec _ (.pushl (.imm 0)) = _ from h1)).trans
      (Machine.run_cons h2)

end

/-- Everything that is on the kernel stack when `trap` is called, in the order it was pushed. -/
def framePushes (m : Machine) (esp0 : Word) (vector : Nat) (err : Word) : List Word :=
  [m.ss.zeroExtend 32, m.reg .esp, m.eflags, m.cs.zeroExtend 32, m.eip,
    if PushesError vector then err else 0, BitVec.ofNat 32 vector,
    m.ds.zeroExtend 32, m.es.zeroExtend 32, m.reg .eax, m.reg .ecx, m.reg .edx, m.reg .ebx,
    esp0 - 36, m.reg .ebp, m.reg .esi, m.reg .edi, esp0 - 68]

theorem trapEntry_run {m : Machine} {esp0 : Word} {wr : Word → Bool} {vector : Nat} (err : Word)
    {stub : TrapStub} (hv : idt vector = some stub) (hst : (onKernelStack m esp0 wr).Room 18) :
    ∃ k, trapEntry m esp0 wr vector err stub = some k ∧ k.reg .esp = esp0 - 72 ∧
      k.mem = m.mem.pushAll esp0 (framePushes m esp0 vector err) := by
  set base := onKernelStack m esp0 wr with hb
  have hesp : base.reg .esp = esp0 := by simp [hb, onKernelStack]
  have hreg : ∀ r, r ≠ .esp → base.reg r = m.reg r := fun r hr => Function.update_of_ne hr _ _
  set ws := [m.ss.zeroExtend 32, m.reg .esp, m.eflags, m.cs.zeroExtend 32, m.eip,
    if PushesError vector then err else 0, BitVec.ofNat 32 vector] with hws
  have hlen : ws.length = 7 := rfl
  have h1 : (base.pushed (trapWords m vector err)).run (stub.code ++ alltraps) =
      (base.pushed ws).run alltraps := stub_run (n := 11) hv hst
  have hr : (base.pushed ws).Room 11 := Machine.Room.pushed hst
  obtain ⟨k, hk, hke, hkm⟩ := alltraps_run hr
  refine ⟨k, h1.trans hk, ?_, ?_⟩
  · rw [hke, Machine.pushed_esp, hlen, hesp, BitVec.sub_sub]
    rfl
  · rw [hkm, Machine.pushed_esp, hesp]
    simp only [Machine.pushed_reg _ (show Reg.eax ≠ .esp by decide),
      Machine.pushed_reg _ (show Reg.ecx ≠ .esp by decide),
      Machine.pushed_reg _ (show Reg.edx ≠ .esp by decide),
      Machine.pushed_reg _ (show Reg.ebx ≠ .esp by decide),
      Machine.pushed_reg _ (show Reg.ebp ≠ .esp by decide),
      Machine.pushed_reg _ (show Reg.esi ≠ .esp by decide),
      Machine.pushed_reg _ (show Reg.edi ≠ .esp by decide)]
    rw [hreg .eax (by decide), hreg .ecx (by decide), hreg .edx (by decide),
      hreg .ebx (by decide), hreg .ebp (by decide), hreg .esi (by decide), hreg .edi (by decide)]
    have hmem : (base.pushed ws).mem = m.mem.pushAll esp0 ws := by
      show m.mem.pushAll (base.reg .esp) ws = _
      rw [hesp]
    have h36 : esp0 - BitVec.ofNat 32 (4 * ws.length) - 8 = esp0 - 36 := by
      rw [hlen, BitVec.sub_sub]
      rfl
    have h68 : esp0 - BitVec.ofNat 32 (4 * ws.length) - 40 = esp0 - 68 := by
      rw [hlen, BitVec.sub_sub]
      rfl
    rw [hmem, h36, h68, ← Mem.pushAll_append]
    rfl

/-- The words pushed are a `struct Trapframe` that holds the user's state. -/
theorem loadFrame_pushes (mem : Mem) (m : Machine) (esp0 : Word) (vector : Nat) (err : Word) :
    loadFrame (mem.pushAll esp0 (framePushes m esp0 vector err)) (esp0 - 68) =
      trapframeOf m (BitVec.ofNat 32 vector) (if PushesError vector then err else 0)
        (esp0 - 36) := by
  have hload : ∀ (k : Nat) (hk : k < 18) (off : Word), off = 68 - BitVec.ofNat 32 (4 * (k + 1)) →
      (mem.pushAll esp0 (framePushes m esp0 vector err)).load (esp0 - 68 + off) =
        (framePushes m esp0 vector err).get ⟨k, hk⟩ := by
    intro k hk off hoff
    have ha : esp0 - 68 + off = esp0 - BitVec.ofNat 32 (4 * (k + 1)) := by
      subst hoff
      bv_omega
    rw [ha]
    exact Mem.load_pushAll (l := framePushes m esp0 vector err) hk (show 18 < 2 ^ 29 by decide)
  have h0 := hload 16 (by decide) 0 rfl
  rw [show esp0 - 68 + 0 = esp0 - 68 from BitVec.add_zero _] at h0
  have htr : ∀ v : BitVec 16, (v.zeroExtend 32).truncate 16 = v := by
    intro v
    simp
  unfold loadFrame trapframeOf
  rw [h0, hload 15 (by decide) 4 rfl, hload 14 (by decide) 8 rfl, hload 13 (by decide) 12 rfl,
    hload 12 (by decide) 16 rfl, hload 11 (by decide) 20 rfl, hload 10 (by decide) 24 rfl,
    hload 9 (by decide) 28 rfl, hload 8 (by decide) 32 rfl, hload 7 (by decide) 36 rfl,
    hload 6 (by decide) 40 rfl, hload 5 (by decide) 44 rfl, hload 4 (by decide) 48 rfl,
    hload 3 (by decide) 52 rfl, hload 2 (by decide) 56 rfl, hload 1 (by decide) 60 rfl,
    hload 0 (by decide) 64 rfl]
  simp [framePushes]

/-! ### Exit -/

/-- A copy of a frame holds the same state. -/
theorem Copied.loadFrame {mem mem' : Mem} {a b : Word} (h : Copied mem a mem' b) :
    Jos.loadFrame mem' b = Jos.loadFrame mem a := by
  have hload : ∀ off : Word, off.toNat + 4 ≤ 68 → mem'.load (b + off) = mem.load (a + off) := by
    intro off hoff
    refine Mem.load_copy fun k hk => ?_
    have hsum : (off + k).toNat < sizeofTrapframe := by
      unfold sizeofTrapframe
      bv_omega
    have := h (off + k).toNat hsum
    rw [BitVec.ofNat_toNat, BitVec.setWidth_eq] at this
    rw [BitVec.add_assoc, BitVec.add_assoc]
    exact this
  have h0 : mem'.load b = mem.load a := by simpa using hload 0 (by decide)
  unfold Jos.loadFrame
  rw [h0, hload 4 (by decide), hload 8 (by decide), hload 12 (by decide), hload 16 (by decide),
    hload 20 (by decide), hload 24 (by decide), hload 28 (by decide), hload 32 (by decide),
    hload 36 (by decide), hload 40 (by decide), hload 44 (by decide), hload 48 (by decide),
    hload 52 (by decide), hload 56 (by decide), hload 60 (by decide), hload 64 (by decide)]

/-- What the machine is once user code runs on the state in `tf`. -/
structure Resumed (tf : Trapframe) (t : Machine) : Prop where
  regs : t.reg .edi = tf.tfRegs.regEdi ∧ t.reg .esi = tf.tfRegs.regEsi ∧
    t.reg .ebp = tf.tfRegs.regEbp ∧ t.reg .ebx = tf.tfRegs.regEbx ∧
    t.reg .edx = tf.tfRegs.regEdx ∧ t.reg .ecx = tf.tfRegs.regEcx ∧ t.reg .eax = tf.tfRegs.regEax
  esp : t.reg .esp = tf.tfEsp
  eip : t.eip = tf.tfEip
  eflags : t.eflags = tf.tfEflags
  seg : t.cs = tf.tfCs ∧ t.ds = tf.tfDs ∧ t.es = tf.tfEs ∧ t.ss = tf.tfSs

/-- `env_pop_tf` loads every register of user code from the frame. -/
theorem envPopTf_run (a : Word) (k : Machine) :
    ∃ t, envPopTf a k = some t ∧ Resumed (loadFrame k.mem a) t := by
  refine ⟨_, rfl, ?_⟩
  have h36 : a + 32 + 4 = a + 36 := by rw [BitVec.add_assoc]; rfl
  have h40 : a + 36 + 4 = a + 40 := by rw [BitVec.add_assoc]; rfl
  have h48 : a + 40 + 8 = a + 48 := by rw [BitVec.add_assoc]; rfl
  have h52 : a + 48 + 4 = a + 52 := by rw [BitVec.add_assoc]; rfl
  have h56 : a + 48 + 8 = a + 56 := by rw [BitVec.add_assoc]; rfl
  have h60 : a + 48 + 12 = a + 60 := by rw [BitVec.add_assoc]; rfl
  have h64 : a + 48 + 16 = a + 64 := by rw [BitVec.add_assoc]; rfl
  refine ⟨⟨rfl, rfl, rfl, rfl, rfl, rfl, rfl⟩, ?_, ?_, ?_, ?_, ?_, ?_, ?_⟩
  · show k.mem.load (a + 32 + 4 + 4 + 8 + 12) = k.mem.load (a + 60)
    rw [h36, h40, h48, h60]
  · show k.mem.load (a + 32 + 4 + 4 + 8) = k.mem.load (a + 48)
    rw [h36, h40, h48]
  · show k.mem.load (a + 32 + 4 + 4 + 8 + 8) = k.mem.load (a + 56)
    rw [h36, h40, h48, h56]
  · show (k.mem.load (a + 32 + 4 + 4 + 8 + 4)).truncate 16 = (k.mem.load (a + 52)).truncate 16
    rw [h36, h40, h48, h52]
  · show (k.mem.load (a + 32 + 4)).truncate 16 = (k.mem.load (a + 36)).truncate 16
    rw [h36]
  · rfl
  · show (k.mem.load (a + 32 + 4 + 4 + 8 + 16)).truncate 16 = (k.mem.load (a + 64)).truncate 16
    rw [h36, h40, h48, h64]

/-- A frame made from a machine in user mode leads back to it. -/
theorem Resumed.sameUser {m t : Machine} {trapno err oesp : Word}
    (h : Resumed (trapframeOf m trapno err oesp) t) : SameUser m t := by
  obtain ⟨h1, h2, h3, h4, h5, h6, h7⟩ := h.regs
  refine ⟨funext fun r => ?_, h.eip, h.eflags, h.seg⟩
  cases r with
  | eax => exact h7
  | ecx => exact h6
  | edx => exact h5
  | ebx => exact h4
  | esp => exact h.esp
  | ebp => exact h3
  | esi => exact h2
  | edi => exact h1

/-- A trap at any installed vector leaves a `struct Trapframe` on the kernel stack that holds the
    user's state, the error code or 0, and the vector, with its address as the argument of `trap`;
    and `env_pop_tf` on any copy of it, in any state of kernel and memory, leads back to that
    state. -/
theorem trap_entry_exit (m : Machine) (esp0 : Word) (wr : Word → Bool) (vector : Nat) (err : Word)
    (stub : TrapStub) (hv : idt vector = some stub) (hst : (onKernelStack m esp0 wr).Room 18) :
    ∃ k, trapEntry m esp0 wr vector err stub = some k ∧ k.top = esp0 - 68 ∧
      loadFrame k.mem (esp0 - 68) = trapframeOf m (BitVec.ofNat 32 vector)
        (if PushesError vector then err else 0) (esp0 - 36) ∧
      ∀ (k' : Machine) (a : Word), Copied k.mem (esp0 - 68) k'.mem a →
        ∃ t, envPopTf a k' = some t ∧ SameUser m t := by
  obtain ⟨k, hk, hesp, hmem⟩ := trapEntry_run err hv hst
  have hframe : loadFrame k.mem (esp0 - 68) = trapframeOf m (BitVec.ofNat 32 vector)
      (if PushesError vector then err else 0) (esp0 - 36) := by
    rw [hmem]
    exact loadFrame_pushes _ m esp0 vector err
  refine ⟨k, hk, ?_, hframe, fun k' a hc => ?_⟩
  · have h72 : esp0 - 72 = esp0 - BitVec.ofNat 32 (4 * (17 + 1)) := rfl
    unfold Machine.top
    rw [hesp, hmem, h72, Mem.load_pushAll (l := framePushes m esp0 vector err)
      (show 17 < 18 by decide) (show 18 < 2 ^ 29 by decide)]
    rfl
  · obtain ⟨t, ht, hr⟩ := envPopTf_run a k'
    rw [hc.loadFrame, hframe] at hr
    exact ⟨t, ht, hr.sameUser⟩

/-- A page fault of a machine with all registers 0. -/
theorem trap_entry_exit_pgflt :
    ∃ k, trapEntry (blankMachine ustacktop) 0xF0000000 (fun _ => true) 14 4 .pgfltEntry = some k ∧
      k.top = 0xF0000000 - 68 ∧
      loadFrame k.mem (0xF0000000 - 68) = trapframeOf (blankMachine ustacktop) (BitVec.ofNat 32 14)
        (if PushesError 14 then 4 else 0) (0xF0000000 - 36) ∧
      ∀ (k' : Machine) (a : Word), Copied k.mem (0xF0000000 - 68) k'.mem a →
        ∃ t, envPopTf a k' = some t ∧ SameUser (blankMachine ustacktop) t :=
  trap_entry_exit (blankMachine ustacktop) 0xF0000000 (fun _ => true) 14 4 .pgfltEntry rfl fun _ _ => rfl

end Jos
