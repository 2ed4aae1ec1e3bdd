import Jos.FormatString
import Mathlib.Logic.Function.Basic

/-!
  `vcprintf` of the kernel and of user environments, as the characters that reach the console.

  A user environment collects its output and hands it to the kernel in parts, and the kernel prints each
  part with `%.*s`: as a string that ends at a NUL. The buffer lies on the stack, at an address other
  than 0 where the environment may read, so `user_mem_assert` lets it pass. -/

namespace Jos

namespace Fmt

/-- What a call of `cputchar` puts on the console. -/
def byte (c : Int) : Byte := BitVec.ofInt 8 c

def bytes (l : List Int) : List Byte := l.map byte

/-! ### In the kernel -/

namespace Kern

/-- `putch`: the console, and `*cnt`. `*cnt++` moves the pointer and leaves the counter alone. -/
def putch (st : List Int × Int) (c : Int) : List Int × Int := (st.1 ++ [c], st.2)

/-- `vcprintf`: the output, and the result. -/
def vcprintf (view : View) (fmt : List Byte) (args : List Arg) : Except Crash (List Int × Int) := do
  let s ← vprintfmt view fmt args
  .ok (s.foldl putch ([], 0))

theorem foldl_putch (s : List Int) : ∀ st : List Int × Int, s.foldl putch st = (st.1 ++ s, st.2) := by
  induction s with
  | nil =>
    intro st
    rw [List.append_nil]
    rfl
  | cons c s ih =>
    intro st
    rw [List.foldl_cons, ih, putch, List.append_assoc]
    rfl

/-- All that `vprintfmt` puts out appears, and 0 is returned. -/
theorem vcprintf_eq {view : View} {fmt : List Byte} {args : List Arg} {s : List Int}
    (h : vprintfmt view fmt args = .ok s) : vcprintf view fmt args = .ok (s, 0) := by
  rw [vcprintf, h]
  simp only [bind, Except.bind]
  rw [foldl_putch, List.nil_append]

/-- `sys_cputs`, once the range has been checked. -/
def cputs (view : View) (s len : Word) : Except Crash (List Int) := do
  let (out, _) ← vcprintf view (str "%.*s") [.word len, .word s]
  .ok out

/-- The length is the precision, and there is no width to fill. -/
theorem cputs_eq {view : View} {s len : Word} {p : Ptr} (h : vaString [.word s] = .ok (p, [])) :
    cputs view s len = (do
      let (body, width) ← chars view 0 (2 ^ 32) p len.toInt 0
      .ok (body ++ pad width (chr ' '))) := by
  have hdir := vprintfmt_string view h false none (some (.star len))
  have hprec : startPrecision (some (.star len)) = len.toInt := rfl
  have hwidth : startWidth none (some (.star len)) = 0 := rfl
  rw [hprec, hwidth] at hdir
  have hout : vprintfmt view (str "%.*s") [.word len, .word s] = (do
      let (body, width) ← chars view 0 (2 ^ 32) p len.toInt 0
      .ok (body ++ pad width (chr ' '))) := by
    refine hdir.trans ?_
    unfold string leftPad
    dsimp only
    rw [if_neg fun hleft => absurd hleft.1 (lt_irrefl 0)]
    rfl
  rw [cputs, vcprintf, hout]
  simp only [bind, Except.bind]
  rcases chars view 0 (2 ^ 32) p len.toInt 0 with e | ⟨body, width⟩
  · rfl
  · dsimp only
    rw [foldl_putch, List.nil_append]

end Kern

/-! ### In a user environment -/

namespace User

/-- `struct printbuf` -/
structure Printbuf where
  idx : Nat
  cnt : Int
  buf : Nat → Byte

/-- The memory where `b.buf` lies at `base`. -/
def bufView (base : Word) (buf : Nat → Byte) : View := fun a =>
  if (a - base).toNat < 256 then some (buf (a - base).toNat) else none

/-- `sys_cputs`: the kernel prints `len` characters at `base`. -/
def sysCputs (base : Word) (buf : Nat → Byte) (len : Nat) : Except Crash (List Int) :=
  Kern.cputs (bufView base buf) base (BitVec.ofNat 32 len)

/-- `putch`, with what it has printed. -/
def putch (base : Word) (b : Printbuf) (c : Int) : Except Crash (Printbuf × List Int) :=
  let buf := Function.update b.buf b.idx (byte c)
  if b.idx + 1 = 256 - 1 then do
    let out ← sysCputs base buf (b.idx + 1)
    .ok (⟨0, int (b.cnt + 1), buf⟩, out)
  else .ok (⟨b.idx + 1, int (b.cnt + 1), buf⟩, [])

/-- The calls of `putch`, one after the other. -/
def putchs (base : Word) : List Int → Printbuf → Except Crash (Printbuf × List Int)
  | [], b => .ok (b, [])
  | c :: s, b => do
    let (b, out) ← putch base b c
    let (b, rest) ← putchs base s b
    .ok (b, out ++ rest)

/-- `vcprintf`: the output, and the result. The buffer holds anything when the call begins. -/
def vcprintf (view : View) (base : Word) (buf : Nat → Byte) (fmt : List Byte) (args : List Arg) :
    Except Crash (List Int × Int) := do
  let s ← vprintfmt view fmt args
  let (b, out) ← putchs base s ⟨0, 0, buf⟩
  let rest ← sysCputs base b.buf b.idx
  .ok (out ++ rest, b.cnt)

/-- The bytes `l` at a pointer, and one more that can be read. -/
def Holds (view : View) : Ptr → List Byte → Prop
  | p, [] => ∃ c, fetch view p = .ok c
  | p, c :: l => fetch view p = .ok c ∧ Holds view p.next l

/-- `%.*s` stops at the length and at a NUL. -/
theorem chars_holds {view : View} : ∀ (k : Nat) {p : Ptr} {l : List Byte} (x : Int), Holds view p l →
    l.length < k → chars view 0 k p l.length (int x) =
      .ok ((l.takeWhile (· ≠ 0)).map BitVec.toInt, int (x - (l.takeWhile (· ≠ 0)).length))
  | 0, _, _, _, _, hk => absurd hk (Nat.not_lt_zero _)
  | k + 1, p, [], x, ⟨c, h⟩, _ => by
    have hx : x - (([] : List Byte).length : Int) = x := by simp
    rw [chars, h, List.takeWhile_nil, hx]
    show (if c = 0 then _ else _) = _
    split
    · rfl
    · rfl
  | k + 1, p, c :: l, x, ⟨hf, hl⟩, hk => by
    rw [List.length_cons] at hk
    rw [chars, hf]
    show (if c = 0 then _ else _) = _
    rcases eq_or_ne c 0 with rfl | hc
    · have hx : x - (([] : List Byte).length : Int) = x := by simp
      rw [if_pos rfl, List.takeWhile_cons_of_neg (by decide), hx]
      rfl
    · have hprec : ((c :: l).length : Int) - 1 = l.length := by
        rw [List.length_cons]
        omega
      have hx : ∀ m : Nat, x - 1 - (m : Int) = x - ((m + 1 : Nat) : Int) := fun m => by omega
      rw [if_neg hc, if_neg (by omega), hprec, if_pos (by omega), int_sub,
        chars_holds k (x - 1) hl (by omega), List.takeWhile_cons_of_pos (by simpa using hc),
        List.length_cons, ← hx]
      show Except.ok (shown 0 c :: _, _) = _
      rw [shown_plain]
      rfl

/-- The bytes `l` in the buffer, from `i` on. -/
def InBuf (buf : Nat → Byte) (i : Nat) (l : List Byte) : Prop :=
  ∀ (j : Nat) (c : Byte), l[j]? = some c → buf (i + j) = c

theorem holds_buf (base : Word) {buf : Nat → Byte} : ∀ (l : List Byte) (i : Nat), i + l.length < 256 →
    InBuf buf i l →
    Holds (bufView base buf) (.mem (base + BitVec.ofNat 32 i)) l
  | [], i, hi, _ => by
    have ho : (base + BitVec.ofNat 32 i - base).toNat = i := by
      rw [List.length_nil] at hi
      bv_omega
    rw [List.length_nil] at hi
    refine ⟨buf i, ?_⟩
    unfold fetch bufView
    dsimp only
    rw [ho, if_pos (by omega)]
  | c :: l, i, hi, h => by
    rw [List.length_cons] at hi
    have ho : (base + BitVec.ofNat 32 i - base).toNat = i := by bv_omega
    have hnext : base + BitVec.ofNat 32 i + 1 = base + BitVec.ofNat 32 (i + 1) := by bv_omega
    refine ⟨?_, ?_⟩
    · have hc : buf i = c := h 0 c rfl
      unfold fetch bufView
      dsimp only
      rw [ho, if_pos (by omega), hc]
    · show Holds _ (.mem (base + BitVec.ofNat 32 i + 1)) l
      rw [hnext]
      refine holds_buf base l (i + 1) (by omega) fun j d hj => ?_
      have hadd : i + 1 + j = i + (j + 1) := by omega
      rw [hadd]
      exact h (j + 1) d (List.getElem?_cons_succ.trans hj)

/-- One part of the output: what stands in front of the first NUL is printed. -/
theorem sysCputs_eq {base : Word} (hbase : base ≠ 0) {buf : Nat → Byte} {l : List Byte}
    (hl : l.length < 256) (h : InBuf buf 0 l) :
    sysCputs base buf l.length = .ok ((l.takeWhile (· ≠ 0)).map BitVec.toInt) := by
  have hlen : (BitVec.ofNat 32 l.length).toInt = l.length := by
    rw [BitVec.toInt_eq_toNat_cond, BitVec.toNat_ofNat]
    omega
  have h0 : base + BitVec.ofNat 32 0 = base := by simp
  have hholds := holds_buf base l 0 (by omega) h
  rw [h0] at hholds
  have hchars := chars_holds (2 ^ 32) 0 hholds (by omega)
  have hpad : (int (0 - (l.takeWhile (· ≠ 0)).length)).toNat = 0 := by
    have := (List.takeWhile_prefix (l := l) (· ≠ 0)).length_le
    unfold int
    omega
  have h00 : int 0 = 0 := rfl
  rw [h00] at hchars
  rw [sysCputs, Kern.cputs_eq (vaString_word hbase []), hlen, hchars]
  simp only [bind, Except.bind]
  rw [pad, hpad, List.replicate_zero, List.append_nil]

/-- The parts of the output: a full buffer each, and what is left at the end. -/
def chunks : List Byte → List Byte → List (List Byte)
  | l, [] => [l]
  | l, c :: s => if l.length + 1 = 255 then (l ++ [c]) :: chunks [] s else chunks (l ++ [c]) s

theorem flatten_chunks (s : List Byte) : ∀ l, (chunks l s).flatten = l ++ s := by
  induction s with
  | nil =>
    intro l
    rw [chunks, List.flatten_singleton, List.append_nil]
  | cons c s ih =>
    intro l
    have happ : l ++ [c] ++ s = l ++ c :: s := by
      rw [List.append_assoc]
      rfl
    rw [chunks]
    split
    · rw [List.flatten_cons, ih, List.nil_append, happ]
    · rw [ih, happ]

/-- One more character in the buffer. -/
theorem inBuf_update {buf : Nat → Byte} {l : List Byte} (h : InBuf buf 0 l) (c : Byte) :
    InBuf (Function.update buf l.length c) 0 (l ++ [c]) := by
  intro j d hj
  rw [Nat.zero_add]
  rcases Nat.lt_trichotomy j l.length with hlt | rfl | hgt
  · rw [List.getElem?_append_left hlt] at hj
    rw [Function.update_of_ne hlt.ne, ← Nat.zero_add j]
    exact h j d hj
  · rw [List.getElem?_append_right le_rfl, Nat.sub_self] at hj
    rw [Function.update_self]
    exact Option.some.inj hj
  · rw [List.getElem?_eq_none (by rw [List.length_append, List.length_singleton]; omega)] at hj
    exact absurd hj nofun

/-- The part of a chunk that the kernel prints. -/
def front (l : List Byte) : List Byte := l.takeWhile (· ≠ 0)

/-- What all calls of `putch` print, with the rest that is handed over at the end. -/
theorem putchs_eq {base : Word} (hbase : base ≠ 0) (s : List Int) : ∀ (l : List Byte) (b : Printbuf),
    b.idx = l.length → l.length < 255 → InBuf b.buf 0 l → int b.cnt = b.cnt →
    ∃ b' out rest, putchs base s b = .ok (b', out) ∧ b'.cnt = int (b.cnt + s.length) ∧
      sysCputs base b'.buf b'.idx = .ok rest ∧
      out ++ rest = ((chunks l (bytes s)).flatMap front).map BitVec.toInt := by
  induction s with
  | nil =>
    intro l b hidx hl hbuf hcnt
    have h0 : b.cnt + (([] : List Int).length : Int) = b.cnt := by simp
    refine ⟨b, [], (front l).map BitVec.toInt, rfl, ?_, ?_, ?_⟩
    · rw [h0, hcnt]
    · rw [hidx]
      exact sysCputs_eq hbase (by omega) hbuf
    · have hc : chunks l (bytes []) = [l] := rfl
      rw [hc, List.flatMap_singleton]
      rfl
  | cons c s ih =>
    intro l b hidx hl hbuf hcnt
    have hlen : (l ++ [byte c]).length = l.length + 1 := by
      rw [List.length_append, List.length_singleton]
    have hbuf' : InBuf (Function.update b.buf b.idx (byte c)) 0 (l ++ [byte c]) :=
      hidx ▸ inBuf_update hbuf (byte c)
    have hbytes : bytes (c :: s) = byte c :: bytes s := rfl
    have hcount : int (int (b.cnt + 1) + s.length) = int (b.cnt + (c :: s).length) := by
      rw [List.length_cons]
      unfold int
      omega
    have hwrap : int (int (b.cnt + 1)) = int (b.cnt + 1) := by
      unfold int
      omega
    rw [hbytes, chunks]
    rcases Nat.lt_or_ge (l.length + 1) 255 with hlt | hge
    · obtain ⟨b', out, rest, h1, h2, h3, h4⟩ := ih (l ++ [byte c])
        ⟨b.idx + 1, int (b.cnt + 1), Function.update b.buf b.idx (byte c)⟩
        (by rw [hlen, hidx]) (by omega) hbuf' hwrap
      have hput : putch base b c =
          .ok (⟨b.idx + 1, int (b.cnt + 1), Function.update b.buf b.idx (byte c)⟩, []) :=
        if_neg (by omega)
      refine ⟨b', out, rest, ?_, h2.trans hcount, h3, ?_⟩
      · rw [putchs, hput]
        simp only [bind, Except.bind]
        rw [h1]
        rfl
      · rw [if_neg (by omega), h4]
    · -- The buffer is full.
      have hcputs := sysCputs_eq hbase (by omega) hbuf'
      rw [hlen, ← hidx] at hcputs
      have hput : putch base b c =
          .ok (⟨0, int (b.cnt + 1), Function.update b.buf b.idx (byte c)⟩,
            (front (l ++ [byte c])).map BitVec.toInt) := by
        unfold putch
        dsimp only
        rw [if_pos (by omega), hcputs]
        rfl
      obtain ⟨b', out, rest, h1, h2, h3, h4⟩ := ih []
        ⟨0, int (b.cnt + 1), Function.update b.buf b.idx (byte c)⟩ rfl (by decide)
        (fun j d hj => absurd hj nofun) hwrap
      refine ⟨b', (front (l ++ [byte c])).map BitVec.toInt ++ out, rest, ?_, h2.trans hcount, h3, ?_⟩
      · rw [putchs, hput]
        simp only [bind, Except.bind]
        rw [h1]
      · rw [if_pos (by omega), List.flatMap_cons, List.map_append, List.append_assoc, h4]

theorem length_front_le (l : List Byte) : (front l).length ≤ l.length :=
  (List.takeWhile_prefix _).length_le

theorem length_flatMap_front_le (ls : List (List Byte)) :
    (ls.flatMap front).length ≤ ls.flatten.length := by
  induction ls with
  | nil => exact le_rfl
  | cons l ls ih =>
    rw [List.flatMap_cons, List.flatten_cons, List.length_append, List.length_append]
    exact Nat.add_le_add (length_front_le l) ih

/-- Nothing is lost exactly when there is no NUL. -/
theorem flatMap_front_iff (ls : List (List Byte)) :
    ls.flatMap front = ls.flatten ↔ ∀ c ∈ ls.flatten, c ≠ 0 := by
  induction ls with
  | nil => exact iff_of_true rfl fun c hc => absurd hc List.not_mem_nil
  | cons l ls ih =>
    have hle := length_flatMap_front_le ls
    have hfront : front l = l ↔ ∀ c ∈ l, c ≠ 0 := by
      unfold front
      rw [List.takeWhile_eq_self_iff]
      simp
    rw [List.flatMap_cons, List.flatten_cons]
    constructor
    · intro h
      have hlen := congrArg List.length h
      rw [List.length_append, List.length_append] at hlen
      have hl := length_front_le l
      obtain ⟨h1, h2⟩ := List.append_inj h (by omega)
      intro c hc
      rcases List.mem_append.mp hc with hc | hc
      · exact hfront.mp h1 c hc
      · exact ih.mp h2 c hc
    · intro h
      rw [hfront.mpr fun c hc => h c (List.mem_append_left _ hc),
        ih.mpr fun c hc => h c (List.mem_append_right _ hc)]

theorem bytes_toInt (l : List Byte) : bytes (l.map BitVec.toInt) = l := by
  unfold bytes
  rw [List.map_map]
  exact (List.map_congr_left fun c _ => BitVec.ofInt_toInt).trans (List.map_id l)

/-- The whole output of a user environment. -/
theorem vcprintf_eq {view : View} {base : Word} (hbase : base ≠ 0) (buf : Nat → Byte)
    {fmt : List Byte} {args : List Arg} {s : List Int} (h : vprintfmt view fmt args = .ok s) :
    ∃ out, vcprintf view base buf fmt args = .ok (out, int s.length) ∧
      (bytes out = bytes s ↔ ∀ c ∈ s, byte c ≠ 0) := by
  obtain ⟨b, out, rest, h1, h2, h3, h4⟩ := putchs_eq hbase s [] ⟨0, 0, buf⟩ rfl (by decide)
    (fun j d hj => absurd hj nofun) rfl
  refine ⟨out ++ rest, ?_, ?_⟩
  · rw [vcprintf, h]
    simp only [bind, Except.bind]
    rw [h1]
    dsimp only
    rw [h3, h2, zero_add]
  · have hiff := flatMap_front_iff (chunks [] (bytes s))
    rw [flatten_chunks, List.nil_append] at hiff
    rw [h4, bytes_toInt, hiff]
    exact List.forall_mem_map

end User

/-- The kernel prints what `vprintfmt` puts out but returns 0, and a user environment returns its
    length as an `int` but loses what stands behind a NUL, up to the next part. -/
theorem cprintf_agree_iff {view : View} {base : Word} (hbase : base ≠ 0) (buf : Nat → Byte)
    {fmt : List Byte} {args : List Arg} {s : List Int} (h : vprintfmt view fmt args = .ok s) :
    ∃ kout kret uout uret, Kern.vcprintf view fmt args = .ok (kout, kret) ∧
      User.vcprintf view base buf fmt args = .ok (uout, uret) ∧
      (bytes kout = bytes s ∧ kret = 0) ∧
      ((bytes uout = bytes s ↔ ∀ c ∈ s, byte c ≠ 0) ∧ uret = int s.length) ∧
      (bytes uout = bytes s ∧ bytes kout = bytes s ∧ uret = s.length ∧ kret = s.length ↔ s = []) := by
  obtain ⟨uout, huser, hiff⟩ := User.vcprintf_eq hbase buf h
  refine ⟨s, 0, uout, _, Kern.vcprintf_eq h, huser, ⟨rfl, rfl⟩, ⟨hiff, rfl⟩, ?_⟩
  constructor
  · rintro ⟨_, _, _, h0⟩
    exact List.eq_nil_of_length_eq_zero (by omega)
  · rintro rfl
    exact ⟨hiff.mpr fun c hc => absurd hc List.not_mem_nil, rfl, rfl, rfl⟩

/-- What `%300s` puts out for `jos`. -/
def wide : List Int := List.replicate 297 (chr ' ') ++ [chr 'j', chr 'o', chr 's']

set_option maxRecDepth 8000 in
/-- An output that takes more than one buffer appears as a whole on either way, and only a user
    environment has its length. Where nothing is put out the two agree. -/
theorem cprintf_agree_iff_wide :
    (∃ kout uout, Kern.vcprintf (fun _ => none) (str "%300s") [.text (str "jos")] = .ok (kout, 0) ∧
      User.vcprintf (fun _ => none) 16 (fun _ => 0) (str "%300s") [.text (str "jos")] =
        .ok (uout, 300) ∧ bytes kout = bytes wide ∧ bytes uout = bytes wide) ∧
    ∃ kout uout, Kern.vcprintf (fun _ => none) (str "") [] = .ok (kout, 0) ∧
      User.vcprintf (fun _ => none) 16 (fun _ => 0) (str "") [] = .ok (uout, 0) ∧
      bytes kout = [] ∧ bytes uout = [] := by
  have hbase : (16 : Word) ≠ 0 := by decide
  refine ⟨?_, ?_⟩
  · have hout : vprintfmt (fun _ => none) (str "%300s") [.text (str "jos")] = .ok wide := rfl
    obtain ⟨kout, _, uout, _, hk, hu, ⟨hkb, rfl⟩, ⟨hub, rfl⟩, -⟩ :=
      cprintf_agree_iff hbase (fun _ => 0) hout
    exact ⟨kout, uout, hk, hu, hkb, hub.mpr (by decide)⟩
  · have hout : vprintfmt (fun _ => none) (str "") [] = .ok [] := rfl
    obtain ⟨kout, _, uout, _, hk, hu, -, -, hall⟩ := cprintf_agree_iff hbase (fun _ => 0) hout
    obtain ⟨hub, hkb, rfl, rfl⟩ := hall.mpr rfl
    exact ⟨kout, uout, hk, hu, hkb, hub⟩

/-- `cprintf("%c", 0)`: the kernel puts out one byte and returns 0, the environment the other way
    round. -/
theorem nul_lost :
    vprintfmt (fun _ => none) (str "%c") [.word 0] = .ok [0] ∧
      Kern.vcprintf (fun _ => none) (str "%c") [.word 0] = .ok ([0], 0) ∧
      User.vcprintf (fun _ => none) 16 (fun _ => 0) (str "%c") [.word 0] = .ok ([], 1) := by
  have hout : vprintfmt (fun _ => none) (str "%c") [.word 0] = .ok [0] := rfl
  refine ⟨hout, Kern.vcprintf_eq hout, ?_⟩
  have hbuf : User.InBuf (Function.update (fun _ => 0) 0 (byte 0)) 0 [0] :=
    User.inBuf_update (l := []) (fun j d hj => absurd hj nofun) 0
  have hcputs := User.sysCputs_eq (by decide : (16 : Word) ≠ 0) (by decide) hbuf
  rw [User.vcprintf, hout]
  simp only [bind, Except.bind]
  rw [User.putchs, User.putch]
  simp only [bind, Except.bind]
  rw [if_neg (by decide)]
  dsimp only
  rw [User.putchs]
  dsimp only
  rw [Nat.zero_add]
  rw [List.length_singleton] at hcputs
  rw [hcputs]
  rfl

end Fmt

end Jos
