import Mathlib.Logic.Function.Basic
import Mathlib.Data.BitVec

/-!
  A fragment of the 32-bit x86: byte memory, registers, and the instructions that trap stubs and
  upcall trampolines are made of.

  A store to an address that is not writable faults, and then there is no next state. Addresses are
  taken modulo `2 ^ 32`, so two accesses are apart when neither starts within the other. -/

namespace Jos.Lib.Ia32

abbrev W := BitVec 32

abbrev Mem := BitVec 32 → BitVec 8

namespace Mem

/-- The word at `a`, little end first. -/
def load (m : Mem) (a : W) : W := m (a + 3) ++ m (a + 2) ++ m (a + 1) ++ m a

/-- Byte `k` of a word, little end first. -/
def byte (w : W) (k : Nat) : BitVec 8 := w.extractLsb' (8 * k) 8

def store (m : Mem) (a w : W) : Mem := fun x =>
  if (x - a).toNat < 4 then byte w (x - a).toNat else m x

/-- Accesses to the words at `a` and `b` do not overlap. -/
def Apart (a b : W) : Prop := 4 ≤ (a - b).toNat ∧ 4 ≤ (b - a).toNat

instance (a b : W) : Decidable (Apart a b) := inferInstanceAs (Decidable (_ ∧ _))

theorem Apart.symm {a b : W} (h : Apart a b) : Apart b a := ⟨h.2, h.1⟩

/-- Two words at constant distances from a base. -/
theorem Apart.of_add {a k l : W} (h : Apart k l) : Apart (a + k) (a + l) := by
  have h1 : a + k - (a + l) = k - l := by
    rw [BitVec.sub_eq_iff_eq_add, BitVec.add_comm (k - l), BitVec.add_assoc, BitVec.add_comm l,
      BitVec.sub_add_cancel]
  have h2 : a + l - (a + k) = l - k := by
    rw [BitVec.sub_eq_iff_eq_add, BitVec.add_comm (l - k), BitVec.add_assoc, BitVec.add_comm k,
      BitVec.sub_add_cancel]
  unfold Apart
  rw [h1, h2]
  exact h

theorem store_of_apart {m : Mem} {a w x : W} (h : 4 ≤ (x - a).toNat) : store m a w x = m x :=
  if_neg (by omega)

theorem byte_append (w : W) : byte w 3 ++ byte w 2 ++ byte w 1 ++ byte w 0 = w := by
  ext i hi
  simp only [byte, BitVec.getElem_append, BitVec.getElem_extractLsb']
  split
  · simp [BitVec.getLsbD_eq_getElem hi]
  · split
    · rename_i h1 h2
      have : 8 + (i - 8) = i := by omega
      simp [this, BitVec.getLsbD_eq_getElem hi]
    · split
      · have : 16 + (i - 8 - 8) = i := by omega
        simp [this, BitVec.getLsbD_eq_getElem hi]
      · have : 24 + (i - 8 - 8 - 8) = i := by omega
        simp [this, BitVec.getLsbD_eq_getElem hi]

theorem byte_load (m : Mem) (s : W) {k : W} (hk : k.toNat < 4) :
    byte (m.load s) k.toNat = m (s + k) := by
  have h : k = 0 ∨ k = 1 ∨ k = 2 ∨ k = 3 := by bv_omega
  rcases h with rfl | rfl | rfl | rfl <;>
  · ext i hi
    simp only [byte, load, BitVec.getElem_extractLsb', BitVec.getLsbD_append]
    grind [BitVec.add_zero]

theorem load_store_self (m : Mem) (a w : W) : load (store m a w) a = w := by
  have h : ∀ k : W, a + k - a = k := fun k => by rw [BitVec.add_comm, BitVec.add_sub_cancel]
  have h0 : a - a = 0 := BitVec.sub_self a
  show store m a w (a + 3) ++ store m a w (a + 2) ++ store m a w (a + 1) ++ store m a w a = w
  simp only [store, h, h0]
  exact byte_append w

theorem load_store_of_apart {m : Mem} {a b w : W} (h : Apart b a) :
    load (store m a w) b = load m b := by
  obtain ⟨h1, h2⟩ := h
  have hk : ∀ k : W, k.toNat < 4 → 4 ≤ (b + k - a).toNat := fun k hk => by bv_omega
  have h0 : 4 ≤ (b - a).toNat := h1
  simp only [load, store_of_apart h0, store_of_apart (hk 3 (by decide)),
    store_of_apart (hk 2 (by decide)), store_of_apart (hk 1 (by decide))]

/-- Words stored one after the other. -/
def storeAll (m : Mem) (a : W) : List W → Mem
  | [] => m
  | w :: ws => storeAll (m.store a w) (a + 4) ws

theorem storeAll_of_outside {a x : W} : ∀ {ws : List W} {m : Mem}, 4 * ws.length ≤ (x - a).toNat →
    ws.length < 2 ^ 29 → storeAll m a ws x = m x
  | [], _, _, _ => rfl
  | w :: ws, m, h, hl => by
    rw [List.length_cons] at h hl
    have h4 : (x - (a + 4)).toNat = (x - a).toNat - 4 := by
      have : (4 : W).toNat = 4 := rfl
      bv_omega
    unfold storeAll
    rw [storeAll_of_outside (by omega) (by omega), store_of_apart (by omega)]

/-- The word at index `k` of words stored from `a` on. -/
theorem load_storeAll {a : W} : ∀ {l : List W} {m : Mem} {k : Nat} (hk : k < l.length),
    l.length < 2 ^ 29 → load (storeAll m a l) (a + BitVec.ofNat 32 (4 * k)) = l[k]
  | w :: ws, m, 0, _, hl => by
    rw [List.length_cons] at hl
    have h0 : a + BitVec.ofNat 32 (4 * 0) = a := BitVec.add_zero a
    have hout : ∀ x : W, (x - a).toNat < 4 → storeAll (m.store a w) (a + 4) ws x = m.store a w x := by
      intro x hx
      refine storeAll_of_outside ?_ (by omega)
      have : (4 : W).toNat = 4 := rfl
      bv_omega
    rw [h0, List.getElem_cons_zero]
    have hlow : ∀ k : W, k.toNat < 4 → (a + k - a).toNat < 4 := fun k hk => by
      rw [BitVec.add_comm, BitVec.add_sub_cancel]; exact hk
    have h1 : load (storeAll m a (w :: ws)) a = load (m.store a w) a := by
      simp only [load, storeAll]
      rw [hout _ (hlow 3 (by decide)), hout _ (hlow 2 (by decide)), hout _ (hlow 1 (by decide)),
        hout a (by rw [BitVec.sub_self]; decide)]
    rw [h1, load_store_self]
  | w :: ws, m, k + 1, hk, hl => by
    rw [List.length_cons] at hk hl
    have hshift : a + BitVec.ofNat 32 (4 * (k + 1)) = a + 4 + BitVec.ofNat 32 (4 * k) := by
      bv_omega
    rw [hshift, List.getElem_cons_succ]
    exact load_storeAll (m := m.store a w) (Nat.lt_of_succ_lt_succ hk) (by omega)

/-- Equal bytes at two addresses make equal words. -/
theorem load_copy {m m' : Mem} {a b : W} (h : ∀ k : W, k.toNat < 4 → m' (b + k) = m (a + k)) :
    load m' b = load m a := by
  have h0 : m' b = m a := by simpa using h 0 (by decide)
  simp only [load, h0, h 3 (by decide), h 2 (by decide), h 1 (by decide)]

theorem load_congr {m m' : Mem} {a : W} (h : ∀ k : W, k.toNat < 4 → m' (a + k) = m (a + k)) :
    load m' a = load m a :=
  load_copy h

/-- Words pushed one after the other onto a stack at `a`. -/
def pushAll (m : Mem) (a : W) : List W → Mem
  | [] => m
  | w :: ws => pushAll (m.store (a - 4) w) (a - 4) ws

theorem pushAll_append {a : W} : ∀ {ws vs : List W} {m : Mem},
    pushAll m a (ws ++ vs) = pushAll (pushAll m a ws) (a - BitVec.ofNat 32 (4 * ws.length)) vs
  | [], vs, m => by simp [pushAll]
  | w :: ws, vs, m => by
    have h : a - 4 - BitVec.ofNat 32 (4 * ws.length) =
        a - BitVec.ofNat 32 (4 * (ws.length + 1)) := by bv_omega
    rw [List.cons_append, pushAll, pushAll_append, pushAll, List.length_cons, h]

theorem pushAll_of_outside {a x : W} : ∀ {ws : List W} {m : Mem},
    4 * ws.length ≤ (a - 1 - x).toNat → ws.length < 2 ^ 29 → pushAll m a ws x = m x
  | [], _, _, _ => rfl
  | w :: ws, m, h, hl => by
    rw [List.length_cons] at h hl
    have h4 : (4 : W).toNat = 4 := rfl
    have h1 : (1 : W).toNat = 1 := rfl
    have hstep : (a - 4 - 1 - x).toNat = (a - 1 - x).toNat - 4 := by bv_omega
    unfold pushAll
    rw [pushAll_of_outside (by omega) (by omega), store_of_apart (by bv_omega)]

/-- The word at index `k` of words pushed onto a stack at `a`. -/
theorem load_pushAll {a : W} : ∀ {l : List W} {m : Mem} {k : Nat} (hk : k < l.length),
    l.length < 2 ^ 29 → load (pushAll m a l) (a - BitVec.ofNat 32 (4 * (k + 1))) = l[k]
  | w :: ws, m, 0, _, hl => by
    rw [List.length_cons] at hl
    have h4 : (4 : W).toNat = 4 := rfl
    have h1 : (1 : W).toNat = 1 := rfl
    have hout : ∀ j : W, j.toNat < 4 →
        pushAll (m.store (a - 4) w) (a - 4) ws (a - 4 + j) = m.store (a - 4) w (a - 4 + j) := by
      intro j hj
      exact pushAll_of_outside (by bv_omega) (by omega)
    show load (pushAll (m.store (a - 4) w) (a - 4) ws) (a - 4) = w
    rw [load_congr hout, load_store_self]
  | w :: ws, m, k + 1, hk, hl => by
    rw [List.length_cons] at hk hl
    have hshift : a - BitVec.ofNat 32 (4 * (k + 1 + 1)) = a - 4 - BitVec.ofNat 32 (4 * (k + 1)) := by
      bv_omega
    rw [hshift, List.getElem_cons_succ]
    exact load_pushAll (m := m.store (a - 4) w) (Nat.lt_of_succ_lt_succ hk) (by omega)

end Mem

inductive Reg where | eax | ecx | edx | ebx | esp | ebp | esi | edi
  deriving DecidableEq

inductive Seg where | es | ds
  deriving DecidableEq

structure Machine where
  reg : Reg → W
  eip : W
  eflags : W
  cs : BitVec 16
  ds : BitVec 16
  es : BitVec 16
  ss : BitVec 16
  mem : Mem
  /-- Addresses that may be written. -/
  wr : W → Bool

inductive Operand where
  | imm (w : W)
  | reg (r : Reg)
  | mem (disp : W) (base : Reg)
  | abs (a : W)

inductive Instr where
  | pushl (src : Operand)
  | pushSeg (s : Seg)
  | pushal
  | popl (r : Reg)
  | popSeg (s : Seg)
  | popal
  | popfl
  | movl (src dst : Operand)
  | movSeg (r : Reg) (s : Seg)
  | addl (n : W) (r : Reg)
  | subl (n : W) (r : Reg)

/-- The flags that arithmetic sets: carry, parity, adjust, zero, sign and overflow. -/
def arithFlags : W := 0x8D5

/-- The flags that `popfl` sets at user level: the arithmetic ones, TF, DF, NT, AC and ID. -/
def userFlags : W := 0x244DD5

namespace Machine

variable (m : Machine)

def setReg (r : Reg) (w : W) : Machine := { m with reg := Function.update m.reg r w }

def addr : Operand → W
  | .mem disp base => m.reg base + disp
  | .abs a => a
  | _ => 0

def read : Operand → W
  | .imm w => w
  | .reg r => m.reg r
  | .mem disp base => m.mem.load (m.reg base + disp)
  | .abs a => m.mem.load a

def writable (a : W) : Bool := m.wr a && m.wr (a + 1) && m.wr (a + 2) && m.wr (a + 3)

def store (a w : W) : Option Machine :=
  if m.writable a then some { m with mem := m.mem.store a w } else none

def write (dst : Operand) (w : W) : Option Machine :=
  match dst with
  | .imm _ => none
  | .reg r => some (m.setReg r w)
  | .mem disp base => m.store (m.reg base + disp) w
  | .abs a => m.store a w

def push (w : W) : Option Machine := (m.setReg .esp (m.reg .esp - 4)).store (m.reg .esp - 4) w

/-- The word on top of the stack, and the machine without it. -/
def top : W := m.mem.load (m.reg .esp)

def pop : Machine := m.setReg .esp (m.reg .esp + 4)

def seg : Seg → BitVec 16
  | .es => m.es
  | .ds => m.ds

def setSeg : Seg → BitVec 16 → Machine
  | .es, v => { m with es := v }
  | .ds, v => { m with ds := v }

/-- A flag at bit `k`. -/
def flag (c : Bool) (k : Nat) : W := if c then 1 <<< k else 0

/-- Whether the low byte has an even number of ones. -/
def evenParity (r : W) : Bool := (List.range 8).foldl (fun p k => p != r.getLsbD k) true

/-- The flags after arithmetic with result `r`. -/
def setArith (r : W) (carry overflow adjust : Bool) : Machine :=
  let bits := flag carry 0 ||| flag (evenParity r) 2 ||| flag adjust 4 ||| flag (r = 0) 6 |||
    flag r.msb 7 ||| flag overflow 11
  { m with eflags := (m.eflags &&& ~~~arithFlags) ||| bits }

/-- Registers after `popal`; the saved `esp` is skipped. -/
def popalReg (e : W) : Reg → W
  | .edi => m.mem.load e
  | .esi => m.mem.load (e + 4)
  | .ebp => m.mem.load (e + 8)
  | .ebx => m.mem.load (e + 16)
  | .edx => m.mem.load (e + 20)
  | .ecx => m.mem.load (e + 24)
  | .eax => m.mem.load (e + 28)
  | .esp => e + 32

def popal : Machine := { m with reg := m.popalReg (m.reg .esp) }

/-- `pushal`: the pushed `esp` is the one from before. -/
def pushal : Option Machine := do
  let m1 ← m.push (m.reg .eax)
  let m2 ← m1.push (m.reg .ecx)
  let m3 ← m2.push (m.reg .edx)
  let m4 ← m3.push (m.reg .ebx)
  let m5 ← m4.push (m.reg .esp)
  let m6 ← m5.push (m.reg .ebp)
  let m7 ← m6.push (m.reg .esi)
  m7.push (m.reg .edi)

def exec : Instr → Option Machine
  | .pushl src => m.push (m.read src)
  | .pushSeg s => m.push ((m.seg s).zeroExtend 32)
  | .pushal => m.pushal
  | .popl r => some (m.pop.setReg r m.top)
  | .popSeg s => some (m.pop.setSeg s (m.top.truncate 16))
  | .popal => some m.popal
  | .popfl => some { m.pop with
      eflags := (m.eflags &&& ~~~userFlags) ||| (m.top &&& userFlags) }
  | .movl src dst => m.write dst (m.read src)
  | .movSeg r s => some (m.setSeg s ((m.reg r).truncate 16))
  | .addl n r =>
    let a := m.reg r
    some ((m.setArith (a + n) (2 ^ 32 ≤ a.toNat + n.toNat)
      (a.msb = n.msb ∧ (a + n).msb ≠ a.msb) (16 ≤ a.toNat % 16 + n.toNat % 16)).setReg r (a + n))
  | .subl n r =>
    let a := m.reg r
    some ((m.setArith (a - n) (a.toNat < n.toNat)
      (a.msb ≠ n.msb ∧ (a - n).msb ≠ a.msb) (a.toNat % 16 < n.toNat % 16)).setReg r (a - n))

/-- Straight-line code. -/
def run (m : Machine) : List Instr → Option Machine
  | [] => some m
  | i :: is => (m.exec i).bind fun m' => run m' is

theorem push_eq_some {m m' : Machine} {w : W} (h : m.push w = some m') :
    m' = { m with
      reg := Function.update m.reg .esp (m.reg .esp - 4)
      mem := m.mem.store (m.reg .esp - 4) w } := by
  unfold push store at h
  split at h
  · cases h; rfl
  · cases h

theorem push_of_writable {w : W} (h : m.writable (m.reg .esp - 4) = true) :
    m.push w = some { m with
      reg := Function.update m.reg .esp (m.reg .esp - 4)
      mem := m.mem.store (m.reg .esp - 4) w } := if_pos h

/-- The machine after words were pushed. -/
def pushed (ws : List W) : Machine :=
  { m with
    reg := Function.update m.reg .esp (m.reg .esp - BitVec.ofNat 32 (4 * ws.length))
    mem := m.mem.pushAll (m.reg .esp) ws }

/-- The stack has room for `n` more words. -/
def Room (n : Nat) : Prop :=
  ∀ k, k < n → m.writable (m.reg .esp - BitVec.ofNat 32 (4 * (k + 1))) = true

variable {m}

theorem pushed_nil : m.pushed [] = m := by
  simp [pushed, Mem.pushAll]

@[simp] theorem pushed_esp (ws : List W) :
    (m.pushed ws).reg .esp = m.reg .esp - BitVec.ofNat 32 (4 * ws.length) := by
  simp [pushed]

theorem pushed_reg (ws : List W) {r : Reg} (hr : r ≠ .esp) : (m.pushed ws).reg r = m.reg r :=
  Function.update_of_ne hr _ _

theorem pushed_pushed (ws : List W) (w : W) : (m.pushed [w]).pushed ws = m.pushed (w :: ws) := by
  have h : m.reg .esp - 4 - BitVec.ofNat 32 (4 * ws.length) =
      m.reg .esp - BitVec.ofNat 32 (4 * (ws.length + 1)) := by bv_omega
  simp only [pushed, Mem.pushAll, List.length_cons, List.length_nil, Function.update_self,
    Function.update_idem]
  rw [show m.reg .esp - BitVec.ofNat 32 (4 * (0 + 1)) = m.reg .esp - 4 from rfl, h]

theorem pushed_append (ws vs : List W) : (m.pushed ws).pushed vs = m.pushed (ws ++ vs) := by
  induction ws generalizing m with
  | nil => rw [pushed_nil, List.nil_append]
  | cons w ws ih => rw [← pushed_pushed, ih, List.cons_append, pushed_pushed]

theorem Room.push {n : Nat} (h : m.Room (n + 1)) (w : W) :
    m.push w = some (m.pushed [w]) ∧ (m.pushed [w]).Room n := by
  refine ⟨push_of_writable m (h 0 (by omega)), fun k hk => ?_⟩
  have := h (k + 1) (by omega)
  rw [pushed_esp]
  have he : m.reg .esp - BitVec.ofNat 32 (4 * [w].length) - BitVec.ofNat 32 (4 * (k + 1)) =
      m.reg .esp - BitVec.ofNat 32 (4 * (k + 1 + 1)) := by
    rw [List.length_singleton]
    bv_omega
  rw [he]
  exact this

theorem Room.pushed {n : Nat} {ws : List W} (h : m.Room (n + ws.length)) :
    (m.pushed ws).Room n := by
  intro k hk
  have hw := h (k + ws.length) (by omega)
  have he : m.reg .esp - BitVec.ofNat 32 (4 * ws.length) - BitVec.ofNat 32 (4 * (k + 1)) =
      m.reg .esp - BitVec.ofNat 32 (4 * (k + ws.length + 1)) := by bv_omega
  rw [pushed_esp, he]
  exact hw

/-- `pushal` with room for eight words. -/
theorem Room.pushal {n : Nat} (h : m.Room (n + 8)) :
    m.pushal = some (m.pushed [m.reg .eax, m.reg .ecx, m.reg .edx, m.reg .ebx, m.reg .esp,
      m.reg .ebp, m.reg .esi, m.reg .edi]) ∧
    (m.pushed [m.reg .eax, m.reg .ecx, m.reg .edx, m.reg .ebx, m.reg .esp, m.reg .ebp, m.reg .esi,
      m.reg .edi]).Room n := by
  obtain ⟨h1, r1⟩ := Room.push (n := n + 7) h (m.reg .eax)
  obtain ⟨h2, r2⟩ := Room.push (n := n + 6) r1 (m.reg .ecx)
  obtain ⟨h3, r3⟩ := Room.push (n := n + 5) r2 (m.reg .edx)
  obtain ⟨h4, r4⟩ := Room.push (n := n + 4) r3 (m.reg .ebx)
  obtain ⟨h5, r5⟩ := Room.push (n := n + 3) r4 (m.reg .esp)
  obtain ⟨h6, r6⟩ := Room.push (n := n + 2) r5 (m.reg .ebp)
  obtain ⟨h7, r7⟩ := Room.push (n := n + 1) r6 (m.reg .esi)
  obtain ⟨h8, r8⟩ := Room.push (n := n) r7 (m.reg .edi)
  simp only [pushed_append, List.cons_append, List.nil_append] at *
  refine ⟨?_, r8⟩
  unfold Machine.pushal
  simp only [h1, h2, h3, h4, h5, h6, h7, h8, Option.bind_eq_bind, Option.bind_some]

variable (m)

theorem run_cons {m m' : Machine} {i : Instr} {is : List Instr} (h : m.exec i = some m') :
    m.run (i :: is) = m'.run is := by
  rw [run, h, Option.bind_some]

theorem exec_addl (n : W) (r : Reg) : ∃ fl, m.exec (.addl n r) =
    some { m with eflags := fl, reg := Function.update m.reg r (m.reg r + n) } := ⟨_, rfl⟩

theorem exec_subl (n : W) (r : Reg) : ∃ fl, m.exec (.subl n r) =
    some { m with eflags := fl, reg := Function.update m.reg r (m.reg r - n) } := ⟨_, rfl⟩

/-- A store of a register to an address that may be written. -/
theorem exec_store {d : W} {r b : Reg} (h : m.writable (m.reg b + d) = true) :
    m.exec (.movl (.reg r) (.mem d b)) =
      some { m with mem := m.mem.store (m.reg b + d) (m.reg r) } := by
  show m.store (m.reg b + d) (m.reg r) = _
  rw [store, if_pos h]

theorem exec_load (d : W) (r b : Reg) : m.exec (.movl (.mem d b) (.reg r)) =
    some { m with reg := Function.update m.reg r (m.mem.load (m.reg b + d)) } := rfl

/-- `ret`. -/
def ret : Machine := { m.pop with eip := m.top }

/-- `call` to `target`, with the address that it returns to. -/
def call (target back : W) : Option Machine := (m.push back).map fun m => { m with eip := target }

/-- `iret` to user level at privilege level 0: all five words come from the stack. -/
def iret : Machine :=
  let e := m.reg .esp
  { m with
    eip := m.mem.load e
    cs := (m.mem.load (e + 4)).truncate 16
    eflags := m.mem.load (e + 8)
    reg := Function.update m.reg .esp (m.mem.load (e + 12))
    ss := (m.mem.load (e + 16)).truncate 16 }

end Machine

end Jos.Lib.Ia32
