import Jos.Console
import Jos.Readline

/-!
  The keyboard (`kbd_proc_data` and `kbd_intr` in `kern/console.c`), from keystrokes to a line.

  The controller sends a scan code when a key goes down and another one, with the top bit set, when
  it comes up; keys of the second block have the escape 0xE0 before both. The driver keeps the
  modifiers and a pending escape in one static word, so the bytes may come in any portions. -/

namespace Jos

namespace Keyboard

open Console Readline

def no : Byte := 0

/-! ### The driver -/

/-- `SHIFT`, `CTL`, `ALT`, `CAPSLOCK`, `NUMLOCK`, `SCROLLLOCK` and `E0ESC`. -/
def shiftBit : Word := 1
def ctl : Word := 1 <<< 1
def alt : Word := 1 <<< 2
def capslock : Word := 1 <<< 3
def numlock : Word := 1 <<< 4
def scrolllock : Word := 1 <<< 5
def e0esc : Word := 1 <<< 6

def keyHome : Byte := 0xE0
def keyEnd : Byte := 0xE1
def keyUp : Byte := 0xE2
def keyDn : Byte := 0xE3
def keyLf : Byte := 0xE4
def keyRt : Byte := 0xE5
def keyPgup : Byte := 0xE6
def keyPgdn : Byte := 0xE7
def keyIns : Byte := 0xE8
def keyDel : Byte := 0xE9

/-- A table of 256 bytes, from its first entries and the designated ones; the others are 0. -/
def initTable (first : List Byte) (designated : List (Byte × Byte)) (d : Byte) : Byte :=
  (designated.lookup d).getD (first.getD d.toNat 0)

def shiftcode (d : Byte) : Word :=
  match d.toNat with
  | 0x1D => ctl
  | 0x2A => shiftBit
  | 0x36 => shiftBit
  | 0x38 => alt
  | 0x9D => ctl
  | 0xB8 => alt
  | _ => 0

def togglecode (d : Byte) : Word :=
  match d.toNat with
  | 0x3A => capslock
  | 0x45 => numlock
  | 0x46 => scrolllock
  | _ => 0

/-- The keys of the second block, in `normalmap` and `shiftmap`. -/
def secondBlock : List (Byte × Byte) :=
  [(0xC7, keyHome), (0x9C, 0x0A), (0xB5, 0x2F), (0xC8, keyUp), (0xC9, keyPgup), (0xCB, keyLf),
    (0xCD, keyRt), (0xCF, keyEnd), (0xD0, keyDn), (0xD1, keyPgdn), (0xD2, keyIns), (0xD3, keyDel)]

def normalmap : Byte → Byte := initTable
  [no, 0x1B, 0x31, 0x32, 0x33, 0x34, 0x35, 0x36,             -- ESC 1 2 3 4 5 6
    0x37, 0x38, 0x39, 0x30, 0x2D, 0x3D, 0x08, 0x09,          -- 7 8 9 0 - = BS TAB
    0x71, 0x77, 0x65, 0x72, 0x74, 0x79, 0x75, 0x69,          -- q w e r t y u i
    0x6F, 0x70, 0x5B, 0x5D, 0x0A, no, 0x61, 0x73,            -- o p [ ] Enter, a s
    0x64, 0x66, 0x67, 0x68, 0x6A, 0x6B, 0x6C, 0x3B,          -- d f g h j k l ;
    0x27, 0x60, no, 0x5C, 0x7A, 0x78, 0x63, 0x76,            -- ' `, \ z x c v
    0x62, 0x6E, 0x6D, 0x2C, 0x2E, 0x2F, no, 0x2A,            -- b n m , . /, *
    no, 0x20, no, no, no, no, no, no,                        -- blank
    no, no, no, no, no, no, no, 0x37,                        -- keypad 7
    0x38, 0x39, 0x2D, 0x34, 0x35, 0x36, 0x2B, 0x31,          -- 8 9 - 4 5 6 + 1
    0x32, 0x33, 0x30, 0x2E, no, no, no, no] secondBlock      -- 2 3 0 .

def shiftmap : Byte → Byte := initTable
  [no, 0x1B, 0x21, 0x40, 0x23, 0x24, 0x25, 0x5E,             -- ESC ! @ # $ % ^
    0x26, 0x2A, 0x28, 0x29, 0x5F, 0x2B, 0x08, 0x09,          -- & * ( ) _ + BS TAB
    0x51, 0x57, 0x45, 0x52, 0x54, 0x59, 0x55, 0x49,          -- Q W E R T Y U I
    0x4F, 0x50, 0x7B, 0x7D, 0x0A, no, 0x41, 0x53,            -- O P { } Enter, A S
    0x44, 0x46, 0x47, 0x48, 0x4A, 0x4B, 0x4C, 0x3A,          -- D F G H J K L :
    0x22, 0x7E, no, 0x7C, 0x5A, 0x58, 0x43, 0x56,            -- double quote ~, | Z X C V
    0x42, 0x4E, 0x4D, 0x3C, 0x3E, 0x3F, no, 0x2A,            -- B N M < > ?, *
    no, 0x20, no, no, no, no, no, no,
    no, no, no, no, no, no, no, 0x37,
    0x38, 0x39, 0x2D, 0x34, 0x35, 0x36, 0x2B, 0x31,
    0x32, 0x33, 0x30, 0x2E, no, no, no, no] secondBlock

/-- `C(x)`, for the code of `x`. -/
def control (x : Byte) : Byte := x - 0x40

/-- The entry for the Home key is at 0x97, not at 0xC7. -/
def ctlmap : Byte → Byte := initTable
  [no, no, no, no, no, no, no, no,
    no, no, no, no, no, no, no, no,
    control 0x51, control 0x57, control 0x45, control 0x52, control 0x54, control 0x59,
    control 0x55, control 0x49,
    control 0x4F, control 0x50, no, no, 0x0D, no, control 0x41, control 0x53,
    control 0x44, control 0x46, control 0x47, control 0x48, control 0x4A, control 0x4B,
    control 0x4C, no,
    no, no, no, control 0x5C, control 0x5A, control 0x58, control 0x43, control 0x56,
    control 0x42, control 0x4E, control 0x4D, no, no, control 0x2F, no, no]
  [(0x97, keyHome), (0xB5, control 0x2F), (0xC8, keyUp), (0xC9, keyPgup), (0xCB, keyLf),
    (0xCD, keyRt), (0xCF, keyEnd), (0xD0, keyDn), (0xD1, keyPgdn), (0xD2, keyIns), (0xD3, keyDel)]

/-- `charcode[i]`. -/
def charcode (i : Word) : Byte → Byte :=
  match i.toNat with
  | 0 => normalmap
  | 1 => shiftmap
  | _ => ctlmap

/-- What CapsLock does to a character. -/
def swapCase (c : Byte) : Byte :=
  if 0x61 ≤ c ∧ c ≤ 0x7A then c - 0x20
  else if 0x41 ≤ c ∧ c ≤ 0x5A then c + 0x20
  else c

/-- `kbd_proc_data` once it has read a byte: the character, the new `shift`, and whether it resets
    the machine. -/
def decode (shift : Word) (data : Byte) : Byte × Word × Bool :=
  if data = 0xE0 then (0, shift ||| e0esc, false)
  else if data &&& 0x80 ≠ 0 then
    let data := if shift &&& e0esc ≠ 0 then data else data &&& 0x7F
    (0, shift &&& ~~~(shiftcode data ||| e0esc), false)
  else
    let (data, shift) :=
      if shift &&& e0esc ≠ 0 then (data ||| 0x80, shift &&& ~~~e0esc) else (data, shift)
    let shift := shift ||| shiftcode data
    let shift := shift ^^^ togglecode data
    let c := charcode (shift &&& (ctl ||| shiftBit)) data
    let c := if shift &&& capslock ≠ 0 then swapCase c else c
    (c, shift, decide (~~~shift &&& (ctl ||| alt) = 0 ∧ c = keyDel))

/-- The keyboard: what waits in the controller, each byte with whether it comes from the mouse, the
    static `shift` of the driver, and whether the driver has reset the machine. -/
structure Kbd where
  queue : List (Byte × Bool)
  shift : Word
  reset : Bool

def Kbd.init : Kbd := ⟨[], 0, false⟩

/-- `kbd_proc_data`: nothing for -1. A byte from the mouse is not read, so it stays. -/
def kbdProcData (k : Kbd) : Option Byte × Kbd :=
  match k.queue with
  | [] => (none, k)
  | (data, mouse) :: queue =>
    if mouse then (none, k)
    else
      let (c, shift, reset) := decode k.shift data
      (some c, ⟨queue, shift, k.reset || reset⟩)

theorem kbdProcData_shorter {k k' : Kbd} {c : Byte} (h : kbdProcData k = (some c, k')) :
    k'.queue.length < k.queue.length := by
  unfold kbdProcData at h
  split at h
  · cases h
  · rename_i data mouse queue hq
    split at h
    · cases h
    · cases h
      rw [hq]
      exact Nat.lt_succ_self _

/-- What `kbd_proc_data` returns in the loop of `cons_intr`, up to -1. -/
def procChars (k : Kbd) : List Byte × Kbd :=
  match _ : kbdProcData k with
  | (none, k') => ([], k')
  | (some c, k') =>
    let (cs, k'') := procChars k'
    (c :: cs, k'')
termination_by k.queue.length
decreasing_by exact kbdProcData_shorter (by assumption)

/-- What happens: bytes arrive in the controller, a keyboard interrupt (`kbd_intr`), or a call of
    `cons_getc`, which polls the keyboard. -/
inductive Occurs where
  | arrive (queue : List (Byte × Bool))
  | intr
  | getc

/-- The keyboard after one of these, and what it means for the console. -/
def Kbd.step (k : Kbd) : Occurs → Kbd × List Event
  | .arrive queue => ({ k with queue := k.queue ++ queue }, [])
  | .intr => ((procChars k).2, [.intr (procChars k).1])
  | .getc => ((procChars k).2, [.getc [] (procChars k).1])

/-- The keyboard after a run. -/
def Kbd.after (k : Kbd) (os : List Occurs) : Kbd := os.foldl (fun k o => (k.step o).1) k

/-- What a run means for the console. -/
def Kbd.events (k : Kbd) : List Occurs → List Event
  | [] => []
  | o :: os => (k.step o).2 ++ (k.step o).1.events os

/-- The bytes that arrive. -/
def arrivals (os : List Occurs) : List (Byte × Bool) :=
  os.flatMap fun o => match o with
    | .arrive queue => queue
    | _ => []

/-! ### Keystrokes -/

/-- A key: its code, and whether it belongs to the second block. No key has the code that would be
    the escape when it comes up. -/
structure Key where
  second : Bool
  code : BitVec 7
  ok : code ≠ 0x60
  deriving DecidableEq

/-- A key goes down or comes up. -/
inductive Stroke where
  | press (k : Key)
  | release (k : Key)

def Stroke.key : Stroke → Key
  | .press k => k
  | .release k => k

/-- Its place in the tables. -/
def Key.slot (k : Key) : Byte := (BitVec.ofBool k.second ++ k.code : BitVec 8)

/-- The bytes that the keyboard sends. -/
def Stroke.bytes : Stroke → List Byte
  | .press k => (if k.second then [0xE0] else []) ++ [(0#1 ++ k.code : BitVec 8)]
  | .release k => (if k.second then [0xE0] else []) ++ [(1#1 ++ k.code : BitVec 8)]

inductive Modifier where
  | shift
  | ctl
  | alt
  deriving DecidableEq

/-- The two keys of a modifier. -/
def Modifier.slots : Modifier → List Byte
  | .shift => [0x2A, 0x36]
  | .ctl => [0x1D, 0x9D]
  | .alt => [0x38, 0xB8]

/-- Which modifiers count as held after a list of strokes. -/
abbrev View := Modifier → List Stroke → Bool

/-- The last of the strokes that meet `p` went down. -/
def lastDown (p : Byte → Bool) (es : List Stroke) : Bool :=
  match es.reverse.find? fun e => p e.key.slot with
  | some (.press _) => true
  | _ => false

/-- One of the keys of the modifier is down. -/
def held (m : Modifier) (es : List Stroke) : Bool := m.slots.any fun d => lastDown (· == d) es

/-- The last stroke on either key of the modifier went down. The driver has one bit for both keys,
    which a release of either clears. -/
def latched (m : Modifier) (es : List Stroke) : Bool :=
  lastDown (fun d => decide (d ∈ m.slots)) es

/-- No key of a modifier comes up while the other one is down, in `es` after `pre`. -/
def SeparateFrom (pre : List Stroke) : List Stroke → Prop
  | [] => True
  | e :: es =>
    (∀ (m : Modifier) (k : Key), e = .release k → k.slot ∈ m.slots → ∀ d ∈ m.slots, d ≠ k.slot →
      lastDown (· == d) pre = false) ∧ SeparateFrom (pre ++ [e]) es

def Separate (es : List Stroke) : Prop := SeparateFrom [] es

/-- CapsLock goes down. -/
def Stroke.locks : Stroke → Bool
  | .press k => decide (k.slot = 0x3A)
  | .release _ => false

/-- CapsLock went down an odd number of times. -/
def capsOn (es : List Stroke) : Bool := decide (es.countP Stroke.locks % 2 = 1)

/-- The character at a place in the tables, under Control, Shift and CapsLock. -/
def charAt (ctl shift caps : Bool) (d : Byte) : Byte :=
  let c := (if ctl then ctlmap else if shift then shiftmap else normalmap) d
  if caps then swapCase c else c

section

variable (view : View)

/-- The character on a key, under the modifiers after `es`. -/
def legend (es : List Stroke) (k : Key) : Byte :=
  charAt (view .ctl es) (view .shift es) (capsOn es) k.slot

/-- What the last stroke of `es` types. -/
def typedBy (es : List Stroke) : Stroke → List Byte
  | .press k => [legend view es k].filter (· ≠ 0)
  | .release _ => []

/-- The characters that the strokes `es` type after `pre`. -/
def textFrom (pre : List Stroke) : List Stroke → List Byte
  | [] => []
  | e :: es => typedBy view (pre ++ [e]) e ++ textFrom (pre ++ [e]) es

def text (es : List Stroke) : List Byte := textFrom view [] es

/-- Control, Alt and Delete at once in `es`, after `pre`. -/
def ResetFrom (pre es : List Stroke) : Prop :=
  ∃ p k q, es = p ++ .press k :: q ∧ k.slot = 0xD3 ∧
    view .ctl (pre ++ p ++ [.press k]) = true ∧ view .alt (pre ++ p ++ [.press k]) = true

def CtrlAltDel (es : List Stroke) : Prop := ResetFrom view [] es

end

/-! ### Bytes and tables -/

section

variable {shift : Word} {k : Key} {pre es : List Stroke} {view : View}

theorem byte_down : ∀ code : BitVec 7, (0#1 ++ code : BitVec 8) ≠ 0xE0 ∧
    (0#1 ++ code : BitVec 8) &&& 0x80 = 0 ∧
    (0#1 ++ code : BitVec 8) ||| 0x80 = (1#1 ++ code : BitVec 8) := by
  decide

theorem byte_up : ∀ code : BitVec 7, (1#1 ++ code : BitVec 8) &&& 0x80 ≠ 0 ∧
    (1#1 ++ code : BitVec 8) &&& 0x7F = (0#1 ++ code : BitVec 8) ∧
    (code ≠ 0x60 → (1#1 ++ code : BitVec 8) ≠ 0xE0) := by
  decide

theorem shiftcode_bits : ∀ d : Byte,
    (shiftcode d).getLsbD 0 = decide (d ∈ Modifier.shift.slots) ∧
    (shiftcode d).getLsbD 1 = decide (d ∈ Modifier.ctl.slots) ∧
    (shiftcode d).getLsbD 2 = decide (d ∈ Modifier.alt.slots) ∧
    (shiftcode d).getLsbD 3 = false ∧ (shiftcode d).getLsbD 6 = false := by
  decide

theorem togglecode_bits : ∀ d : Byte,
    (togglecode d).getLsbD 0 = false ∧ (togglecode d).getLsbD 1 = false ∧
    (togglecode d).getLsbD 2 = false ∧ (togglecode d).getLsbD 3 = decide (d = 0x3A) ∧
    (togglecode d).getLsbD 6 = false := by
  decide

/-- No key has DEL on it, and only one has Delete, with Control as well. -/
theorem charAt_delete : ∀ (ctl shift caps : Bool) (d : Byte), charAt ctl shift caps d ≠ 0x7F ∧
    (charAt ctl shift caps d = keyDel → d = 0xD3) ∧
    (ctl = true → d = 0xD3 → charAt ctl shift caps d = keyDel) := by
  decide +kernel

/-! ### The driver follows the history -/

theorem bit_iff (w : Word) {i : Nat} (hi : i < 32) :
    w &&& BitVec.twoPow 32 i ≠ 0 ↔ w.getLsbD i = true := by
  rw [BitVec.and_twoPow]
  split
  · rename_i h
    refine ⟨fun _ => h, fun _ h0 => ?_⟩
    have := congrArg (fun v : Word => v.getLsbD i) h0
    simp [hi] at this
  · rename_i h
    exact ⟨fun hx => absurd rfl hx, fun hx => absurd hx h⟩

theorem escape_iff (w : Word) : w &&& e0esc ≠ 0 ↔ w.getLsbD 6 = true := bit_iff w (by decide)

theorem capslock_iff (w : Word) : w &&& capslock ≠ 0 ↔ w.getLsbD 3 = true := bit_iff w (by decide)

/-- The modifiers select a table. -/
theorem charcode_eq (w : Word) : charcode (w &&& (ctl ||| shiftBit)) =
    if w.getLsbD 1 then ctlmap else if w.getLsbD 0 then shiftmap else normalmap := by
  have hn : (w &&& (ctl ||| shiftBit)).toNat = w.toNat % 4 := by
    rw [BitVec.toNat_and]
    exact Nat.and_two_pow_sub_one_eq_mod w.toNat 2
  have hbit : ∀ i, w.getLsbD i = decide (w.toNat / 2 ^ i % 2 = 1) := fun i =>
    Nat.testBit_eq_decide_div_mod_eq
  rw [charcode, hn, hbit, hbit]
  have h4 : w.toNat % 4 = 0 ∨ w.toNat % 4 = 1 ∨ w.toNat % 4 = 2 ∨ w.toNat % 4 = 3 := by omega
  have hlow : w.toNat / 2 ^ 0 % 2 = w.toNat % 4 % 2 ∧ w.toNat / 2 ^ 1 % 2 = w.toNat % 4 / 2 := by
    omega
  rw [hlow.1, hlow.2]
  rcases h4 with h | h | h | h <;> rw [h] <;> rfl

theorem reset_iff (w : Word) :
    ~~~w &&& (ctl ||| alt) = 0 ↔ w.getLsbD 1 = true ∧ w.getLsbD 2 = true := by
  have hclear : ∀ {i}, i < 32 → (~~~w &&& BitVec.twoPow 32 i = 0 ↔ w.getLsbD i = true) := by
    intro i hi
    have := bit_iff (~~~w) hi
    rw [BitVec.getLsbD_not] at this
    simp only [hi, decide_true, Bool.true_and, Bool.not_eq_true'] at this
    rw [← not_iff_not, ← ne_eq, this, Bool.not_eq_true]
  have hor : ~~~w &&& (ctl ||| alt) =
      (~~~w &&& BitVec.twoPow 32 1) ||| (~~~w &&& BitVec.twoPow 32 2) := BitVec.and_or_distrib_left
  rw [hor, ← hclear (show 1 < 32 by decide), ← hclear (show 2 < 32 by decide)]
  exact BitVec.or_eq_zero_iff

theorem lastDown_press (p : Byte → Bool) (es : List Stroke) (k : Key) :
    lastDown p (es ++ [.press k]) = (lastDown p es || p k.slot) := by
  unfold lastDown
  rw [List.reverse_append, List.reverse_singleton, List.singleton_append, List.find?_cons]
  by_cases hk : p k.slot <;> simp [Stroke.key, hk]

theorem lastDown_release (p : Byte → Bool) (es : List Stroke) (k : Key) :
    lastDown p (es ++ [.release k]) = (lastDown p es && !p k.slot) := by
  unfold lastDown
  rw [List.reverse_append, List.reverse_singleton, List.singleton_append, List.find?_cons]
  by_cases hk : p k.slot <;> simp [Stroke.key, hk]

theorem latched_press (m : Modifier) (es : List Stroke) (k : Key) :
    latched m (es ++ [.press k]) = (latched m es || decide (k.slot ∈ m.slots)) :=
  lastDown_press _ es k

theorem latched_release (m : Modifier) (es : List Stroke) (k : Key) :
    latched m (es ++ [.release k]) = (latched m es && !decide (k.slot ∈ m.slots)) :=
  lastDown_release _ es k

theorem held_press (m : Modifier) (es : List Stroke) (k : Key) :
    held m (es ++ [.press k]) = (held m es || decide (k.slot ∈ m.slots)) := by
  have hany : m.slots.any (fun d => k.slot == d) = decide (k.slot ∈ m.slots) := by
    rw [← List.contains_eq_any_beq, List.contains_eq_mem]
  unfold held
  simp only [lastDown_press]
  rw [← hany]
  cases m <;> simp [Modifier.slots, Bool.or_assoc, Bool.or_left_comm]

theorem held_release {m : Modifier} {es : List Stroke} {k : Key}
    (h : k.slot ∈ m.slots → ∀ d ∈ m.slots, d ≠ k.slot → lastDown (· == d) es = false) :
    held m (es ++ [.release k]) = (held m es && !decide (k.slot ∈ m.slots)) := by
  unfold held
  simp only [lastDown_release]
  by_cases hk : k.slot ∈ m.slots
  · have hall : ∀ d ∈ m.slots, (lastDown (· == d) es && !(k.slot == d)) = false := by
      intro d hd
      by_cases hx : d = k.slot
      · simp [hx]
      · simp [h hk d hd hx]
    rw [decide_eq_true hk, Bool.not_true, Bool.and_false]
    exact List.any_eq_false.mpr fun d hd => by simpa using hall d hd
  · have hsame : ∀ d ∈ m.slots,
        (lastDown (· == d) es && !(k.slot == d)) = lastDown (· == d) es := by
      intro d hd
      have hx : k.slot ≠ d := fun hx => hk (hx ▸ hd)
      simp [hx]
    rw [decide_eq_false hk, Bool.not_false, Bool.and_true, Bool.eq_iff_iff, List.any_eq_true,
      List.any_eq_true]
    exact exists_congr fun d => and_congr_right fun hd => by rw [hsame d hd]

/-- The driver knows what is held as long as the two keys of a modifier come up separately. -/
theorem SeparateFrom.latched_eq_held {p q : List Stroke} (h : SeparateFrom pre es)
    (h0 : ∀ m, latched m pre = held m pre) (hes : es = p ++ q) (m : Modifier) :
    latched m (pre ++ p) = held m (pre ++ p) := by
  induction es generalizing pre p with
  | nil =>
    obtain rfl := (List.append_eq_nil_iff.mp hes.symm).1
    rw [List.append_nil]
    exact h0 m
  | cons e es ih =>
    cases p with
    | nil =>
      rw [List.append_nil]
      exact h0 m
    | cons x p =>
      obtain ⟨rfl, htail⟩ := List.cons.inj hes
      rw [List.append_cons]
      refine ih h.2 (fun m' => ?_) htail
      cases e with
      | press k => rw [latched_press, held_press, h0]
      | release k => rw [latched_release, held_release (h.1 m' k rfl), h0]

/-- With both Shift keys down, a release of either is enough for the driver. -/
example : ∀ l r : Key, l.slot = 0x2A → r.slot = 0x36 →
    held .shift [.press l, .press r, .release l] = true ∧
      latched .shift [.press l, .press r, .release l] = false := by
  intro l r hl hr
  simp [held, latched, lastDown, Modifier.slots, Stroke.key, hl, hr]

theorem textFrom_congr {view' : View}
    (h : ∀ p q, es = p ++ q → ∀ m, view m (pre ++ p) = view' m (pre ++ p)) :
    textFrom view pre es = textFrom view' pre es := by
  induction es generalizing pre with
  | nil => rfl
  | cons e es ih =>
    have htype : typedBy view (pre ++ [e]) e = typedBy view' (pre ++ [e]) e := by
      have hm := h [e] es rfl
      cases e with
      | press k => simp only [typedBy, legend, hm]
      | release k => rfl
    rw [textFrom, textFrom, htype, ih fun p q hes m => ?_]
    rw [← List.append_cons]
    exact h (e :: p) q (by rw [hes]; rfl) m

theorem ResetFrom.congr {view' : View}
    (h : ∀ p q, es = p ++ q → ∀ m, view m (pre ++ p) = view' m (pre ++ p))
    (hr : ResetFrom view pre es) : ResetFrom view' pre es := by
  obtain ⟨p, k, q, hes, hk, hctl, halt⟩ := hr
  have hm := h (p ++ [.press k]) q (by rw [hes, List.append_assoc]; rfl)
  simp only [← List.append_assoc] at hm
  exact ⟨p, k, q, hes, hk, hm .ctl ▸ hctl, hm .alt ▸ halt⟩

/-- The text and the resets of the driver are then what the keys held make them. -/
theorem Separate.views (h : Separate es) : text latched es = text held es ∧
    (CtrlAltDel latched es ↔ CtrlAltDel held es) := by
  have hsame : ∀ p q, es = p ++ q → ∀ m, latched m ([] ++ p) = held m ([] ++ p) := fun p q hes m =>
    SeparateFrom.latched_eq_held h (fun m' => by cases m' <;> rfl) hes m
  exact ⟨textFrom_congr hsame, fun hr => hr.congr hsame,
    fun hr => hr.congr fun p q hes m => (hsame p q hes m).symm⟩

theorem capsOn_press (es : List Stroke) (k : Key) :
    capsOn (es ++ [.press k]) = (capsOn es ^^ decide (k.slot = 0x3A)) := by
  unfold capsOn
  rw [List.countP_append, List.countP_singleton, Stroke.locks]
  by_cases hk : k.slot = 0x3A
  · rw [decide_eq_true hk, if_pos rfl, Bool.xor_true, ← decide_not, decide_eq_decide]
    omega
  · rw [decide_eq_false hk, if_neg Bool.false_ne_true, Bool.xor_false, Nat.add_zero]

theorem capsOn_release (es : List Stroke) (k : Key) : capsOn (es ++ [.release k]) = capsOn es := by
  unfold capsOn
  rw [List.countP_append, List.countP_singleton, Stroke.locks, if_neg Bool.false_ne_true,
    Nat.add_zero]

/-- The bits of `shift` say what went down last, and no escape is pending. -/
structure Agrees (es : List Stroke) (w : Word) : Prop where
  shift : w.getLsbD 0 = latched .shift es
  ctl : w.getLsbD 1 = latched .ctl es
  alt : w.getLsbD 2 = latched .alt es
  caps : w.getLsbD 3 = capsOn es
  escape : w.getLsbD 6 = false

/-- `shift` after a key went down, or came up. -/
def pressed (shift : Word) (k : Key) : Word := (shift ||| shiftcode k.slot) ^^^ togglecode k.slot

def released (shift : Word) (k : Key) : Word := shift &&& ~~~(shiftcode k.slot ||| e0esc)

theorem Agrees.pressed (h : Agrees es shift) (k : Key) :
    Agrees (es ++ [.press k]) (pressed shift k) := by
  obtain ⟨h0, h1, h2, h3, h6⟩ := shiftcode_bits k.slot
  obtain ⟨t0, t1, t2, t3, t6⟩ := togglecode_bits k.slot
  unfold Keyboard.pressed
  refine ⟨?_, ?_, ?_, ?_, ?_⟩
  · rw [BitVec.getLsbD_xor, BitVec.getLsbD_or, h0, t0, h.shift, latched_press, Bool.xor_false]
  · rw [BitVec.getLsbD_xor, BitVec.getLsbD_or, h1, t1, h.ctl, latched_press, Bool.xor_false]
  · rw [BitVec.getLsbD_xor, BitVec.getLsbD_or, h2, t2, h.alt, latched_press, Bool.xor_false]
  · rw [BitVec.getLsbD_xor, BitVec.getLsbD_or, h3, t3, h.caps, capsOn_press, Bool.or_false]
  · rw [BitVec.getLsbD_xor, BitVec.getLsbD_or, h6, t6, h.escape]
    rfl

theorem Agrees.released (h : Agrees es shift) (k : Key) :
    Agrees (es ++ [.release k]) (released shift k) := by
  obtain ⟨h0, h1, h2, h3, h6⟩ := shiftcode_bits k.slot
  have hesc : ∀ i < 32, e0esc.getLsbD i = decide (i = 6) := by decide
  have hbit : ∀ i < 32, (Keyboard.released shift k).getLsbD i =
      (shift.getLsbD i && !((shiftcode k.slot).getLsbD i || decide (i = 6))) := by
    intro i hi
    unfold Keyboard.released
    rw [BitVec.getLsbD_and, BitVec.getLsbD_not, BitVec.getLsbD_or, hesc i hi]
    simp [hi]
  refine ⟨?_, ?_, ?_, ?_, ?_⟩
  · rw [hbit 0 (by decide), h0, h.shift, latched_release]
    simp
  · rw [hbit 1 (by decide), h1, h.ctl, latched_release]
    simp
  · rw [hbit 2 (by decide), h2, h.alt, latched_release]
    simp
  · rw [hbit 3 (by decide), h3, h.caps, capsOn_release]
    simp
  · rw [hbit 6 (by decide), h.escape]
    rfl

/-! ### Bytes in any portions -/

/-- What the driver makes of a list of bytes: characters, `shift`, and whether it resets. -/
def decodeAll (shift : Word) : List Byte → List Byte × Word × Bool
  | [] => ([], shift, false)
  | b :: bs =>
    let d := decode shift b
    let r := decodeAll d.2.1 bs
    (d.1 :: r.1, r.2.1, d.2.2 || r.2.2)

theorem decodeAll_append : ∀ (bs bs' : List Byte) (shift : Word), decodeAll shift (bs ++ bs') =
    ((decodeAll shift bs).1 ++ (decodeAll (decodeAll shift bs).2.1 bs').1,
      (decodeAll (decodeAll shift bs).2.1 bs').2.1,
      (decodeAll shift bs).2.2 || (decodeAll (decodeAll shift bs).2.1 bs').2.2)
  | [], bs', shift => by simp [decodeAll]
  | b :: bs, bs', shift => by
    rw [List.cons_append, decodeAll, decodeAll_append bs bs']
    simp [decodeAll, Bool.or_assoc]

theorem decode_escape (shift : Word) : decode shift 0xE0 = (0, shift ||| e0esc, false) := by
  rw [decode, if_pos rfl]

/-- The escape sets a bit that the next byte clears. -/
theorem escaped (h : shift.getLsbD 6 = false) :
    (shift ||| e0esc) &&& e0esc ≠ 0 ∧ (shift ||| e0esc) &&& ~~~e0esc = shift ∧
      ∀ w : Word, (shift ||| e0esc) &&& ~~~(w ||| e0esc) = shift &&& ~~~(w ||| e0esc) := by
  have hesc : ∀ i < 32, e0esc.getLsbD i = decide (i = 6) := by decide
  refine ⟨?_, ?_, fun w => ?_⟩
  · rw [escape_iff, BitVec.getLsbD_or, hesc 6 (by decide)]
    simp
  · refine BitVec.eq_of_getLsbD_eq fun i hi => ?_
    rw [BitVec.getLsbD_and, BitVec.getLsbD_or, BitVec.getLsbD_not, hesc i hi]
    by_cases h6 : i = 6
    · rw [h6, h]
      rfl
    · simp [h6, hi]
  · refine BitVec.eq_of_getLsbD_eq fun i hi => ?_
    rw [BitVec.getLsbD_and, BitVec.getLsbD_and, BitVec.getLsbD_or, BitVec.getLsbD_not,
      BitVec.getLsbD_or, hesc i hi]
    by_cases h6 : i = 6
    · simp [h6]
    · simp [h6]

/-- The character of a key that went down. -/
def keyChar (shift : Word) (k : Key) : Byte :=
  let c := charcode (shift &&& (ctl ||| shiftBit)) k.slot
  if shift &&& capslock ≠ 0 then swapCase c else c

theorem Key.slot_eq (k : Key) :
    k.slot = if k.second then (1#1 ++ k.code : BitVec 8) else (0#1 ++ k.code : BitVec 8) := by
  unfold Key.slot
  cases k.second <;> rfl

theorem decode_down (h : shift.getLsbD 6 = false) (k : Key) :
    decodeAll shift (Stroke.press k).bytes =
      ((if k.second then [0] else []) ++ [keyChar (pressed shift k) k], pressed shift k,
        decide (~~~(pressed shift k) &&& (ctl ||| alt) = 0 ∧
          keyChar (pressed shift k) k = keyDel)) := by
  have hno : ¬ shift &&& e0esc ≠ 0 := fun hx => by
    rw [escape_iff, h] at hx
    cases hx
  obtain ⟨h1, h2, -⟩ := escaped h
  obtain ⟨hne, hlow, hhigh⟩ := byte_down k.code
  have hplain : ¬ (0#1 ++ k.code : BitVec 8) &&& 0x80 ≠ 0 := not_not.mpr hlow
  cases hk : k.second with
  | false =>
    have hslot : k.slot = (0#1 ++ k.code : BitVec 8) := k.slot_eq.trans (by rw [hk]; rfl)
    have hbytes : (Stroke.press k).bytes = [(0#1 ++ k.code : BitVec 8)] := by
      rw [Stroke.bytes, hk]
      rfl
    rw [hbytes, decodeAll, decode, if_neg hne, if_neg hplain, if_neg hno, ← hslot]
    simp only [decodeAll, Bool.or_false]
    rfl
  | true =>
    have hslot : k.slot = (1#1 ++ k.code : BitVec 8) := k.slot_eq.trans (if_pos hk)
    have hbytes : (Stroke.press k).bytes = [0xE0, (0#1 ++ k.code : BitVec 8)] := by
      rw [Stroke.bytes, hk]
      rfl
    rw [hbytes, decodeAll, decode_escape, decodeAll, decode, if_neg hne, if_neg hplain, if_pos h1,
      hhigh, h2, ← hslot]
    simp only [decodeAll, Bool.or_false, Bool.false_or]
    rfl

theorem decode_up (h : shift.getLsbD 6 = false) (k : Key) :
    decodeAll shift (Stroke.release k).bytes =
      ((if k.second then [0] else []) ++ [0], released shift k, false) := by
  have hno : ¬ shift &&& e0esc ≠ 0 := fun hx => by
    rw [escape_iff, h] at hx
    cases hx
  obtain ⟨h1, -, h2⟩ := escaped h
  obtain ⟨htop, hlow, hne⟩ := byte_up k.code
  cases hk : k.second with
  | false =>
    have hslot : k.slot = (0#1 ++ k.code : BitVec 8) := k.slot_eq.trans (by rw [hk]; rfl)
    have hbytes : (Stroke.release k).bytes = [(1#1 ++ k.code : BitVec 8)] := by
      rw [Stroke.bytes, hk]
      rfl
    rw [hbytes, decodeAll, decode, if_neg (hne k.ok), if_pos htop, if_neg hno, hlow, ← hslot]
    simp only [decodeAll, Bool.or_false]
    rfl
  | true =>
    have hslot : k.slot = (1#1 ++ k.code : BitVec 8) := k.slot_eq.trans (if_pos hk)
    have hbytes : (Stroke.release k).bytes = [0xE0, (1#1 ++ k.code : BitVec 8)] := by
      rw [Stroke.bytes, hk]
      rfl
    rw [hbytes, decodeAll, decode_escape, decodeAll, decode, if_neg (hne k.ok), if_pos htop,
      if_pos h1, ← hslot]
    simp only [decodeAll, h2, Bool.or_false]
    rfl

theorem keyChar_eq (h : Agrees es shift) (k : Key) : keyChar shift k = legend latched es k := by
  unfold keyChar legend charAt
  rw [charcode_eq, h.ctl, h.shift]
  simp only [capslock_iff, h.caps]

theorem legend_delete (h : legend view es k = keyDel) : k.slot = 0xD3 :=
  (charAt_delete _ _ _ k.slot).2.1 h

theorem legend_of_delete (hk : k.slot = 0xD3) (hc : view .ctl es = true) :
    legend view es k = keyDel :=
  (charAt_delete _ _ _ k.slot).2.2 hc hk

theorem legend_ne_del (view : View) (es : List Stroke) (k : Key) : legend view es k ≠ 0x7F :=
  (charAt_delete _ _ _ k.slot).1

theorem text_ne_del : ∀ (es pre : List Stroke), ∀ c ∈ textFrom view pre es, c ≠ 0x7F
  | [], _, _, hc => absurd hc List.not_mem_nil
  | e :: es, pre, c, hc => by
    rcases List.mem_append.mp hc with hc | hc
    · cases e with
      | press k =>
        obtain rfl := List.mem_singleton.mp (List.mem_filter.mp hc).1
        exact legend_ne_del view _ k
      | release k => exact absurd hc List.not_mem_nil
    · exact text_ne_del es _ c hc

/-- The escape yields no character. -/
theorem filter_escape (k : Key) (c : Byte) :
    ((if k.second then [0] else []) ++ [c]).filter (· ≠ 0) = [c].filter (· ≠ 0) := by
  cases k.second <;> rfl

theorem resetFrom_nil (pre : List Stroke) : ¬ ResetFrom view pre [] := by
  rintro ⟨p, k, q, h, -⟩
  exact absurd h.symm (List.append_ne_nil_of_right_ne_nil p (List.cons_ne_nil _ _))

theorem resetFrom_cons (pre : List Stroke) (e : Stroke) (es : List Stroke) :
    ResetFrom view pre (e :: es) ↔ (∃ k, e = .press k ∧ k.slot = 0xD3 ∧
      view .ctl (pre ++ [e]) = true ∧ view .alt (pre ++ [e]) = true) ∨
        ResetFrom view (pre ++ [e]) es := by
  constructor
  · rintro ⟨p, k, q, h, hk, hctl, halt⟩
    cases p with
    | nil =>
      obtain ⟨rfl, rfl⟩ := List.cons.inj h
      rw [List.append_nil] at hctl halt
      exact Or.inl ⟨k, rfl, hk, hctl, halt⟩
    | cons x p =>
      obtain ⟨rfl, rfl⟩ := List.cons.inj h
      rw [List.append_cons pre e p] at hctl halt
      exact Or.inr ⟨p, k, q, rfl, hk, hctl, halt⟩
  · rintro (⟨k, rfl, hk, hctl, halt⟩ | ⟨p, k, q, rfl, hk, hctl, halt⟩)
    · exact ⟨[], k, es, rfl, hk, by rwa [List.append_nil], by rwa [List.append_nil]⟩
    · rw [← List.append_cons pre e p] at hctl halt
      exact ⟨e :: p, k, q, rfl, hk, hctl, halt⟩

/-- What the strokes `es` after `pre` come to: their text, and a reset exactly for Control, Alt and
    Delete. -/
theorem decode_strokes : ∀ (es pre : List Stroke) (shift : Word), Agrees pre shift →
    (decodeAll shift (es.flatMap Stroke.bytes)).1.filter (· ≠ 0) = textFrom latched pre es ∧
    ((decodeAll shift (es.flatMap Stroke.bytes)).2.2 = true ↔ ResetFrom latched pre es)
  | [], pre, _, _ =>
    ⟨rfl, fun h => absurd h Bool.false_ne_true, fun h => absurd h (resetFrom_nil pre)⟩
  | .press k :: es, pre, shift, h => by
    have hp := h.pressed k
    obtain ⟨htext, hreset⟩ := decode_strokes es _ _ hp
    rw [List.flatMap_cons, decodeAll_append, decode_down h.escape, keyChar_eq hp]
    refine ⟨?_, ?_⟩
    · rw [List.filter_append, htext, filter_escape]
      rfl
    · rw [resetFrom_cons, Bool.or_eq_true_iff, hreset]
      refine or_congr_left ?_
      rw [decide_eq_true_iff, reset_iff, hp.ctl, hp.alt]
      constructor
      · rintro ⟨⟨hctl, halt⟩, hdel⟩
        exact ⟨k, rfl, legend_delete hdel, hctl, halt⟩
      · rintro ⟨_, ⟨⟩, hk, hctl, halt⟩
        exact ⟨⟨hctl, halt⟩, legend_of_delete hk hctl⟩
  | .release k :: es, pre, shift, h => by
    obtain ⟨htext, hreset⟩ := decode_strokes es _ _ (h.released k)
    rw [List.flatMap_cons, decodeAll_append, decode_up h.escape]
    refine ⟨?_, ?_⟩
    · rw [List.filter_append, htext, filter_escape]
      rfl
    · rw [resetFrom_cons, Bool.or_eq_true_iff, hreset]
      refine or_congr_left ⟨fun hf => absurd hf Bool.false_ne_true, ?_⟩
      rintro ⟨_, hf, -⟩
      cases hf

/-! ### Runs -/

theorem procChars_none {k k' : Kbd} (h : kbdProcData k = (none, k')) : procChars k = ([], k') := by
  rw [procChars]
  split
  · rename_i k'' h'
    obtain rfl := congrArg Prod.snd (h.symm.trans h')
    rfl
  · rename_i c k'' h'
    have hx := congrArg Prod.fst (h.symm.trans h')
    cases hx

theorem procChars_some {k k' : Kbd} {c : Byte} (h : kbdProcData k = (some c, k')) :
    procChars k = (c :: (procChars k').1, (procChars k').2) := by
  rw [procChars]
  split
  · rename_i k'' h'
    have hx := congrArg Prod.fst (h.symm.trans h')
    cases hx
  · rename_i c' k'' h'
    cases h.symm.trans h'
    rfl

/-- The driver reads all that waits, if none of it is from the mouse. -/
theorem procChars_keys : ∀ (bs : List Byte) (shift : Word) (reset : Bool),
    procChars ⟨bs.map fun b => (b, false), shift, reset⟩ = ((decodeAll shift bs).1,
      ⟨[], (decodeAll shift bs).2.1, reset || (decodeAll shift bs).2.2⟩)
  | [], shift, reset => by
    have h : kbdProcData ⟨[], shift, reset⟩ = (none, ⟨[], shift, reset⟩) := rfl
    rw [List.map_nil, procChars_none h, decodeAll, Bool.or_false]
  | b :: bs, shift, reset => by
    have h : kbdProcData ⟨(b :: bs).map fun b => (b, false), shift, reset⟩ =
        (some (decode shift b).1, ⟨bs.map fun b => (b, false), (decode shift b).2.1,
          reset || (decode shift b).2.2⟩) := rfl
    rw [procChars_some h, procChars_keys bs, decodeAll, Bool.or_assoc]

theorem procChars_queue {k : Kbd} {qs : List Byte} (hq : k.queue = (qs.map fun b => (b, false))) :
    (procChars k).2.queue = [] := by
  obtain ⟨queue, shift, reset⟩ := k
  obtain rfl : queue = qs.map fun b => (b, false) := hq
  rw [procChars_keys]

/-- The characters that devices hand to the console. -/
def charsOf (l : List Moment) : List Byte := l.flatMap fun m => match m with
  | .char c => [c]
  | .grab => []

theorem charsOf_append (l l' : List Moment) : charsOf (l ++ l') = charsOf l ++ charsOf l' :=
  List.flatMap_append

theorem charsOf_chars (cs : List Byte) : charsOf (cs.map .char) = cs := by
  rw [charsOf, List.flatMap_map]
  exact List.flatMap_singleton' cs

theorem charsOf_intr (cs : List Byte) : charsOf (moments [.intr cs]) = cs := by
  rw [moments, List.flatMap_singleton]
  exact charsOf_chars cs

theorem charsOf_getc (cs : List Byte) : charsOf (moments [.getc [] cs]) = cs := by
  rw [moments, List.flatMap_singleton, Event.moments, List.nil_append, charsOf_append,
    charsOf_chars]
  exact List.append_nil cs

/-- What the console hears of first comes first. -/
theorem charsOf_events (k : Kbd) (o : Occurs) (os : List Occurs) :
    charsOf (moments (k.events (o :: os))) =
      charsOf (moments (k.step o).2) ++ charsOf (moments ((k.step o).1.events os)) := by
  rw [Kbd.events, moments, List.flatMap_append, charsOf_append]
  rfl

theorem received_after (l : List Moment) :
    (Console.after l).received = (charsOf l).filter (· ≠ 0) := by
  induction l using List.reverseRecOn with
  | nil => rfl
  | append_singleton l m ih =>
    rw [after_append, charsOf_append, List.filter_append, ← ih]
    cases m with
    | char c =>
      rw [Hist.step]
      by_cases hc : c = 0
      · subst hc
        exact (List.append_nil _).symm
      · have hf : (charsOf [.char c]).filter (· ≠ 0) = [c] :=
          List.filter_cons_of_pos (decide_eq_true hc)
        rw [if_neg hc, hf, put_received]
    | grab => exact (List.append_nil _).symm

/-- Of the bytes `bs`, those up to some point were decoded, and the others wait. -/
def Decodes (k k' : Kbd) (cs bs : List Byte) : Prop :=
  ∃ done rest, bs = done ++ rest ∧ k'.queue = (rest.map fun b => (b, false)) ∧
    cs = (decodeAll k.shift done).1 ∧ k'.reset = (k.reset || (decodeAll k.shift done).2.2)

/-- The keyboard is polled, and then more happens. -/
theorem Decodes.polled {k k' : Kbd} {qs bs cs : List Byte}
    (hq : k.queue = (qs.map fun b => (b, false))) (h : Decodes (procChars k).2 k' cs bs) :
    Decodes k k' ((procChars k).1 ++ cs) (qs ++ bs) := by
  obtain ⟨queue, shift, reset⟩ := k
  obtain rfl : queue = qs.map fun b => (b, false) := hq
  rw [procChars_keys] at h ⊢
  obtain ⟨done, rest, rfl, hqueue, rfl, hreset⟩ := h
  refine ⟨qs ++ done, rest, (List.append_assoc ..).symm, hqueue, ?_, ?_⟩
  · rw [decodeAll_append]
  · rw [hreset, decodeAll_append, Bool.or_assoc]

/-- The keyboard through a run: `qs` waits at the start, and `bs` arrives. -/
theorem decodes_events : ∀ (os : List Occurs) (k : Kbd) (qs bs : List Byte),
    k.queue = (qs.map fun b => (b, false)) → arrivals os = (bs.map fun b => (b, false)) →
    Decodes k (k.after os) (charsOf (moments (k.events os))) (qs ++ bs)
  | [], k, qs, bs, hq, hb => by
    obtain rfl := List.map_eq_nil_iff.mp hb.symm
    exact ⟨[], qs, List.append_nil qs, hq, rfl, (Bool.or_false _).symm⟩
  | .arrive queue :: os, k, qs, bs, hq, hb => by
    obtain ⟨bs1, bs2, rfl, hb1, hb2⟩ := List.map_eq_append_iff.mp hb.symm
    have hq' : k.queue ++ queue = (qs ++ bs1).map fun b => (b, false) := by
      rw [List.map_append, hb1, hq]
    rw [← List.append_assoc]
    exact decodes_events os { k with queue := k.queue ++ queue } (qs ++ bs1) bs2 hq' hb2.symm
  | .intr :: os, k, qs, bs, hq, hb => by
    rw [charsOf_events, Kbd.step, charsOf_intr]
    exact Decodes.polled hq (decodes_events os _ [] bs (procChars_queue hq) hb)
  | .getc :: os, k, qs, bs, hq, hb => by
    rw [charsOf_events, Kbd.step, charsOf_getc]
    exact Decodes.polled hq (decodes_events os _ [] bs (procChars_queue hq) hb)

end

theorem decodeAll_prefix {shift : Word} {done rest : List Byte} :
    (decodeAll shift done).1 <+: (decodeAll shift (done ++ rest)).1 := by
  rw [decodeAll_append]
  exact List.prefix_append _ _

theorem decodeAll_length : ∀ (bs : List Byte) (shift : Word),
    (decodeAll shift bs).1.length = bs.length
  | [], _ => rfl
  | _ :: bs, _ => congrArg (· + 1) (decodeAll_length bs _)

/-- There is room for everything if not much arrives. -/
theorem along_spare {os : List Occurs} {bs : List Byte}
    (hb : arrivals os = (bs.map fun b => (b, false))) (hlt : bs.length < consbufsize - 1) :
    Along Hist.Spare (moments (Kbd.init.events os)) := by
  obtain ⟨done, rest, hbytes, -, hchars, -⟩ := decodes_events os .init [] bs rfl hb
  intro pre c post h _
  have hle : (charsOf pre).length ≤ bs.length := by
    have hall : (charsOf (moments (Kbd.init.events os))).length ≤ bs.length := by
      rw [hchars, decodeAll_length, ← List.nil_append bs, hbytes, List.length_append]
      exact Nat.le_add_right _ _
    rw [h, charsOf_append, List.length_append] at hall
    omega
  have hrec : (Console.after pre).received.length ≤ (charsOf pre).length := by
    rw [received_after]
    exact List.length_filter_le _ _
  unfold Hist.Spare
  omega

/-- Nothing that follows changes a line that has ended. -/
theorem typed_prefix {input rest : List Byte} (h : input <+: rest) (hend : ∃ c ∈ input, Ends c) :
    Readline.typed input = Readline.typed rest := by
  obtain ⟨post, rfl⟩ := h
  obtain ⟨c, cs, hin, hc⟩ := typed_append hend
  have hline : ∀ more,
      Readline.typed (Readline.typed input ++ c :: more) = Readline.typed input := by
    intro more
    have hstop : (c :: more).takeWhile (fun x => decide (¬ Ends x)) = [] :=
      List.takeWhile_cons_of_neg fun hx => absurd hc (of_decide_eq_true hx)
    rw [Readline.typed,
      List.takeWhile_append_of_pos fun x hx => decide_eq_true (not_ends_typed x hx), hstop,
      List.append_nil]
  have hrest : input ++ post = Readline.typed input ++ c :: (cs ++ post) := by
    conv_lhs => rw [hin]
    rw [List.append_assoc, List.cons_append]
  rw [hrest, hline]

theorem agrees_init : Agrees [] 0 := by
  refine ⟨?_, ?_, ?_, ?_, ?_⟩ <;> rfl

/-- Typing, whatever portions the bytes of the keystrokes come in and whenever the keyboard is
    polled, as long as the console has room: what `cons_getc` returns is the beginning of what was
    typed, nothing of it is lost, and the machine is reset for Control, Alt and Delete only. A
    modifier counts as held from the press of one of its keys to the release of one; while its keys
    come up separately, that is as long as one of them is down. A line typed to its end is edited
    properly, since no key sends a DEL. -/
theorem keyboard_line {es : List Stroke} {os : List Occurs}
    (hb : arrivals os = ((es.flatMap Stroke.bytes).map fun b => (b, false)))
    (hs : Along Hist.Spare (moments (Kbd.init.events os))) :
    let kbd := Kbd.init.after os
    let hist := Console.after (moments (Kbd.init.events os))
    hist.cons = (Kbd.init.events os).foldl Cons.step .init ∧
    hist.returned <+: text latched es ∧
    (kbd.queue = [] → hist.returned ++ hist.cons.contents = text latched es) ∧
    (kbd.reset = true → CtrlAltDel latched es) ∧
    (kbd.queue = [] → CtrlAltDel latched es → kbd.reset = true) ∧
    (Separate es → text latched es = text held es ∧
      (CtrlAltDel latched es ↔ CtrlAltDel held es)) ∧
    ∀ prompt buf, (∃ c ∈ hist.returned, Ends c) →
      Edits prompt buf hist.returned ∧
        Readline.typed hist.returned = Readline.typed (text latched es) := by
  intro kbd hist
  obtain ⟨done, rest, hbytes, hqueue, hchars, hreset⟩ :=
    decodes_events os .init [] (es.flatMap Stroke.bytes) rfl hb
  rw [List.nil_append] at hbytes
  obtain ⟨htext, hctl⟩ := decode_strokes es [] 0 agrees_init
  obtain ⟨r, hc⟩ := calm_after (fun _ _ hi hs => hi.spare hs) _ hs
  have hrec : hist.received = (decodeAll 0 done).1.filter (· ≠ 0) := by
    rw [received_after, hchars]
    rfl
  have hall : kbd.queue = [] → done = es.flatMap Stroke.bytes := by
    intro hq
    obtain rfl := List.map_eq_nil_iff.mp (hqueue.symm.trans hq)
    rw [hbytes, List.append_nil]
  have hret : hist.returned <+: text latched es := by
    have hprefix : hist.received <+: text latched es := by
      rw [hrec, text, ← htext, hbytes]
      exact decodeAll_prefix.filter _
    exact (hc.same ▸ List.take_prefix _ _).trans hprefix
  refine ⟨foldl_moments _ _, hret, fun hq => ?_, fun hr => ?_, fun hq hd => ?_, fun h => h.views,
    fun prompt buf hend => ?_⟩
  · rw [hc.contents, hc.same, List.take_append_drop, hrec, hall hq]
    exact htext
  · refine hctl.mp ?_
    rw [hbytes, decodeAll_append, Bool.or_eq_true_iff]
    exact Or.inl (hreset.symm.trans hr)
  · rw [hreset, hall hq]
    exact hctl.mpr hd
  · have hclean : Clean (Readline.typed hist.returned) := by
      intro pre post h
      have hdel : (0x7F : Byte) ∈ Readline.typed hist.returned := by
        rw [h]
        exact List.mem_append_right _ (List.mem_cons_self ..)
      exact absurd rfl (text_ne_del es [] _ (hret.subset (List.takeWhile_subset _ hdel)))
    exact ⟨(edits_iff_keep prompt buf hend).mpr (foldl_keep_eq_iff.mpr hclean),
      typed_prefix hret hend⟩

/-- Shift and h, then i, then Enter; the keyboard is polled four times. -/
theorem keyboard_line_demo :
    text held [.press ⟨false, 0x2A, by decide⟩, .press ⟨false, 0x23, by decide⟩,
      .release ⟨false, 0x2A, by decide⟩, .press ⟨false, 0x17, by decide⟩,
      .press ⟨false, 0x1C, by decide⟩] = [0x48, 0x69, 0x0A] ∧
    (Console.after (moments (Kbd.init.events [.arrive [(0x2A, false), (0x23, false)], .intr,
      .arrive [(0xAA, false), (0x17, false), (0x1C, false)], .getc, .getc, .getc]))).returned <+:
        [0x48, 0x69, 0x0A] := by
  have htext : text held [.press ⟨false, 0x2A, by decide⟩, .press ⟨false, 0x23, by decide⟩,
      .release ⟨false, 0x2A, by decide⟩, .press ⟨false, 0x17, by decide⟩,
      .press ⟨false, 0x1C, by decide⟩] = [0x48, 0x69, 0x0A] := by decide
  have hsep : Separate [.press ⟨false, 0x2A, by decide⟩, .press ⟨false, 0x23, by decide⟩,
      .release ⟨false, 0x2A, by decide⟩, .press ⟨false, 0x17, by decide⟩,
      .press ⟨false, 0x1C, by decide⟩] := by
    refine ⟨fun _ _ h => (by cases h), fun _ _ h => (by cases h), ?_, fun _ _ h => (by cases h),
      fun _ _ h => (by cases h), trivial⟩
    rintro m k ⟨⟩
    cases m <;> decide
  have hroom := @along_spare [.arrive [(0x2A, false), (0x23, false)], .intr,
    .arrive [(0xAA, false), (0x17, false), (0x1C, false)], .getc, .getc, .getc]
    [0x2A, 0x23, 0xAA, 0x17, 0x1C] rfl (by decide)
  obtain ⟨-, hpre, -, -, -, hviews, -⟩ := keyboard_line
    (show _ = ((List.flatMap Stroke.bytes [.press ⟨false, 0x2A, by decide⟩,
      .press ⟨false, 0x23, by decide⟩, .release ⟨false, 0x2A, by decide⟩,
      .press ⟨false, 0x17, by decide⟩, .press ⟨false, 0x1C, by decide⟩]).map
        fun b => (b, false)) by decide) hroom
  exact ⟨htext, htext ▸ (hviews hsep).1 ▸ hpre⟩

end Keyboard

end Jos
