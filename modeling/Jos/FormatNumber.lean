import Jos.FormatScan

/-!
  The conversions of numbers, `%d`, `%u`, `%o` and `%x`, against their reference text.

  The sign is put out before the padding, which does not count it, and `%o` takes its argument for a
  signed number. -/

namespace Jos

namespace Fmt

theorem int_of_range {x : Int} (h1 : -2 ^ 31 ≤ x) (h2 : x < 2 ^ 31) : int x = x := by
  unfold int
  omega

theorem int_sub (x y : Int) : int (int x - y) = int (x - y) := by
  unfold int
  omega

theorem digit_eq {d : Nat} (h : d < 16) : digit d = chr (Nat.digitChar d) := by
  revert d
  decide

/-- `printnum` puts out the padding and then the digits. -/
theorem printnum_eq {base : Nat} (h2 : 2 ≤ base) (h16 : base ≤ 16) (padc : Int) (num : Nat) :
    ∀ width, printnum num base width padc =
      pad (int (width - (Nat.toDigits base num).length)) padc ++
        (Nat.toDigits base num).map chr := by
  induction num using Nat.strong_induction_on with
  | _ num ih =>
    intro width
    rw [printnum]
    rcases Nat.lt_or_ge num base with hlt | hge
    · rw [dif_neg (by omega), Nat.toDigits_of_lt_base hlt, Nat.mod_eq_of_lt hlt,
        digit_eq (by omega)]
      rfl
    · have hmod : num % base < 16 := (Nat.mod_lt _ (by omega)).trans_le h16
      have hlen : int (int (width - 1) - (Nat.toDigits base (num / base)).length) =
          int (width - ((Nat.toDigits base (num / base)).length + 1 : Nat)) := by
        rw [int_sub]
        congr 1
        omega
      rw [dif_pos ⟨h2, hge⟩, ih _ (Nat.div_lt_self (by omega) (by omega)),
        Nat.toDigits_of_base_le (by omega) hge, List.length_append, List.length_singleton, hlen,
        List.map_append, List.append_assoc, digit_eq hmod]
      rfl

/-! ### The width -/

/-- A number in decimal digits. -/
def decimal (w : Nat) : List Byte := (Nat.toDigits 10 w).map ch

theorem isDigit_ch {d : Nat} (h : d < 10) : isDigit (ch (Nat.digitChar d)) = true := by
  revert d
  decide

theorem ch_digit_toNat {d : Nat} (h : d < 10) :
    ((ch (Nat.digitChar d)).toNat : Int) - chr '0' = d := by
  revert d
  decide

theorem ch_digit_ne_zero {d : Nat} (h : d < 10) : 0 < d → ch (Nat.digitChar d) ≠ ch '0' := by
  revert d
  decide

theorem decimal_of_lt {w : Nat} (h : w < 10) : decimal w = [ch (Nat.digitChar w)] := by
  rw [decimal, Nat.toDigits_of_lt_base h]
  rfl

theorem decimal_of_ge {w : Nat} (h : 10 ≤ w) :
    decimal w = decimal (w / 10) ++ [ch (Nat.digitChar (w % 10))] := by
  rw [decimal, Nat.toDigits_of_base_le (by decide) h, List.map_append]
  rfl

theorem isDigit_decimal (w : Nat) : ∀ c ∈ decimal w, isDigit c = true := by
  induction w using Nat.strong_induction_on with
  | _ w ih =>
    intro c hc
    rcases Nat.lt_or_ge w 10 with hlt | hge
    · rw [decimal_of_lt hlt, List.mem_singleton] at hc
      exact hc ▸ isDigit_ch hlt
    · rw [decimal_of_ge hge] at hc
      rcases List.mem_append.mp hc with hc | hc
      · exact ih _ (by omega) c hc
      · exact List.mem_singleton.mp hc ▸ isDigit_ch (Nat.mod_lt _ (by decide))

/-- Only zero begins with a `0`. -/
theorem decimal_cons (w : Nat) (hw : 0 < w) : ∃ c l, decimal w = c :: l ∧ c ≠ ch '0' := by
  induction w using Nat.strong_induction_on with
  | _ w ih =>
    rcases Nat.lt_or_ge w 10 with hlt | hge
    · exact ⟨_, [], decimal_of_lt hlt, ch_digit_ne_zero hlt hw⟩
    · obtain ⟨c, l, h, hc⟩ := ih (w / 10) (by omega) (by omega)
      exact ⟨c, _, by rw [decimal_of_ge hge, h]; rfl, hc⟩

theorem foldl_digit_decimal (s : Spec) (hs : s.precision = 0) (w : Nat) :
    (decimal w).foldl Spec.digit s = { s with precision := int w } := by
  induction w using Nat.strong_induction_on with
  | _ w ih =>
    rcases Nat.lt_or_ge w 10 with hlt | hge
    · have h := ch_digit_toNat hlt
      have hval : s.precision * 10 + ((ch (Nat.digitChar w)).toNat : Int) - chr '0' = w := by
        rw [hs]
        omega
      rw [decimal_of_lt hlt]
      show Spec.digit s _ = _
      rw [Spec.digit, hval]
    · have h := ch_digit_toNat (Nat.mod_lt w (by decide : 10 > 0))
      have hval : int (int ((w / 10 : Nat) : Int) * 10 +
          ((ch (Nat.digitChar (w % 10))).toNat : Int) - chr '0') = int w := by
        unfold int
        omega
      rw [decimal_of_ge hge, List.foldl_append, ih _ (by omega)]
      show Spec.digit _ _ = _
      rw [Spec.digit, hval]

/-- Digits within a number. -/
theorem evalFlags_digits (ds rest : List Byte) (args : List Arg) : ∀ (s : Spec),
    (∀ c ∈ ds, isDigit c = true) →
    evalFlags (ds ++ rest) s true args = evalFlags rest (ds.foldl Spec.digit s) true args := by
  induction ds with
  | nil => exact fun _ _ => rfl
  | cons c ds ih =>
    intro s h
    have hflag : flag c s true args = .ok (s.digit c, true, args) := by
      rw [flag, h c List.mem_cons_self]
      rfl
    rw [List.cons_append, evalFlags, hflag]
    exact ih _ fun d hd => h d (List.mem_cons_of_mem _ hd)

/-- A digit other than `0` begins a number. -/
theorem flag_first {c : Byte} (hd : isDigit c = true) (h0 : c ≠ ch '0') (s : Spec)
    (args : List Arg) : flag c s false args = .ok ({ s with precision := 0 }.digit c, true, args) := by
  have hm : c ≠ ch '-' := by
    rintro rfl
    exact absurd hd (by decide)
  rw [flag, Bool.false_and, if_neg Bool.false_ne_true]
  dsimp only
  rw [if_neg Bool.false_ne_true, if_neg hm, if_neg h0, if_pos hd]

/-- A number where none is under way. -/
theorem evalFlags_decimal {w : Nat} (hw : 0 < w) (rest : List Byte) (s : Spec) (args : List Arg) :
    evalFlags (decimal w ++ rest) s false args =
      evalFlags rest { s with precision := int w } true args := by
  obtain ⟨c, l, hcl, hc⟩ := decimal_cons w hw
  have hall := isDigit_decimal w
  have hfold := foldl_digit_decimal { s with precision := 0 } rfl w
  rw [hcl] at hall hfold ⊢
  rw [List.cons_append, evalFlags, flag_first (hall c List.mem_cons_self) hc]
  show evalFlags (l ++ rest) _ true args = _
  rw [evalFlags_digits l rest args _ fun d hd => hall d (List.mem_cons_of_mem _ hd)]
  rw [List.foldl_cons] at hfold
  rw [hfold]

/-! ### A directive for a number -/

/-- The conversions of numbers that take a width. -/
inductive NumConv where | d | u | o | x
  deriving DecidableEq

def NumConv.char : NumConv → Byte
  | .d => ch 'd'
  | .u => ch 'u'
  | .o => ch 'o'
  | .x => ch 'x'

/-- The text of the width. -/
def widthText : Option Nat → List Byte
  | none => []
  | some w => decimal w

/-- The flags of a directive: `0`, a width, and `l` as often as `l` says. -/
def numberFlags (zero : Bool) (w : Option Nat) (l : Nat) : List Byte :=
  (if zero then [ch '0'] else []) ++ (widthText w ++ List.replicate l (ch 'l'))

def numberDirective (zero : Bool) (w : Option Nat) (l : Nat) (c : NumConv) : List Byte :=
  ch '%' :: (numberFlags zero w l ++ [c.char])

/-- The width as an `int`, and -1 where none is given. -/
def widthInt : Option Nat → Int
  | none => -1
  | some w => if w = 0 then -1 else int w

/-- What the padding is made of. -/
def padOf (zero : Bool) (w : Option Nat) : Int := if zero ∨ w = some 0 then chr '0' else chr ' '

theorem isFlag_of_isDigit {c : Byte} (h : isDigit c = true) : isFlag c = true := by
  rw [isFlag, h]
  rfl

theorem isFlag_widthText (w : Option Nat) : ∀ c ∈ widthText w, isFlag c = true := by
  intro c hc
  rcases w with _ | w
  · exact absurd hc List.not_mem_nil
  · exact isFlag_of_isDigit (isDigit_decimal w c hc)

theorem isFlag_numberFlags (zero : Bool) (w : Option Nat) (l : Nat) :
    ∀ c ∈ numberFlags zero w l, isFlag c = true := by
  intro c hc
  rcases List.mem_append.mp hc with hc | hc
  · rcases zero with _ | _
    · exact absurd hc List.not_mem_nil
    · exact List.mem_singleton.mp hc ▸ by decide
  · rcases List.mem_append.mp hc with hc | hc
    · exact isFlag_widthText w c hc
    · rw [List.eq_of_mem_replicate hc]
      decide

/-- `l` as often as it comes, after a number or not. -/
theorem evalFlags_l (args : List Arg) : ∀ (l : Nat) (s : Spec) (digits : Bool),
    0 ≤ s.lflag → s.lflag + l < 2 ^ 31 →
    evalFlags (List.replicate l (ch 'l')) s digits args =
      .ok ({ (if digits then s.processPrecision else s) with lflag := s.lflag + l }, args)
  | 0, s, digits, _, _ => by
    have h : s.lflag + ((0 : Nat) : Int) = s.lflag := by omega
    rw [List.replicate_zero, evalFlags, h]
    rcases digits with _ | _
    · rfl
    · show Except.ok (s.processPrecision, args) = .ok ({ s.processPrecision with lflag := s.lflag }, args)
      unfold Spec.processPrecision
      split <;> rfl
  | l + 1, s, digits, h0, h1 => by
    have hp : ∀ t : Spec, t.processPrecision.lflag = t.lflag := fun t => by
      unfold Spec.processPrecision
      split <;> rfl
    have hflag : flag (ch 'l') s digits args = .ok
        ({ (if digits then s.processPrecision else s) with lflag := int (s.lflag + 1) }, false, args) := by
      rcases digits with _ | _
      · rfl
      · show Except.ok ({ s.processPrecision with lflag := int (s.processPrecision.lflag + 1) },
          false, args) = _
        rw [hp]
        rfl
    have hint : int (s.lflag + 1) = s.lflag + 1 := int_of_range (by omega) (by omega)
    rw [List.replicate_succ, evalFlags, hflag, hint]
    show evalFlags (List.replicate l (ch 'l')) _ false args = _
    have hadd : s.lflag + 1 + (l : Int) = s.lflag + ((l + 1 : Nat) : Int) := by omega
    rw [evalFlags_l args l _ false (by dsimp only; omega) (by dsimp only; omega)]
    dsimp only
    rw [hadd]
    rfl

theorem processPrecision_of_none {s : Spec} (h : s.width = -1) :
    s.processPrecision = { s with width := s.precision, precision := -1 } :=
  if_pos (by rw [h]; decide)

/-- Any number of `l`, where none came before. -/
theorem evalFlags_long {l : Nat} (hl : l < 2 ^ 31) (args : List Arg) (s : Spec) (digits : Bool)
    (h : s.lflag = 0) : evalFlags (List.replicate l (ch 'l')) s digits args =
      .ok ({ (if digits then s.processPrecision else s) with lflag := l }, args) := by
  rw [evalFlags_l args l s digits h.ge (by rw [h]; omega), h, zero_add]

/-- What the width sets. -/
theorem evalFlags_width (w : Option Nat) {l : Nat} (hl : l < 2 ^ 31) (args : List Arg) (s : Spec)
    (hw : s.width = -1) (hp : s.precision = -1) (h : s.lflag = 0) :
    evalFlags (widthText w ++ List.replicate l (ch 'l')) s false args =
      .ok (⟨widthInt w, -1, l, s.altflag, if w = some 0 then chr '0' else s.padc⟩, args) := by
  rcases w with _ | w
  · rw [widthText, List.nil_append, evalFlags_long hl args s false h, if_neg Bool.false_ne_true,
      if_neg (Option.some_ne_none 0).symm]
    dsimp only
    rw [hw, hp, widthInt]
  rcases Nat.eq_zero_or_pos w with rfl | hpos
  · have h0 : evalFlags (widthText (some 0) ++ List.replicate l (ch 'l')) s false args =
        evalFlags (List.replicate l (ch 'l')) { s with padc := chr '0' } false args := rfl
    rw [h0, evalFlags_long hl args { s with padc := chr '0' } false h, if_neg Bool.false_ne_true, if_pos rfl]
    dsimp only
    rw [hw, hp, widthInt, if_pos rfl]
  · have hne : some w ≠ some 0 := fun h => by
      rw [Option.some_inj] at h
      omega
    rw [widthText, evalFlags_decimal hpos, evalFlags_long hl args
      { s with precision := int w } true h, if_pos rfl, if_neg hne,
      processPrecision_of_none (s := { s with precision := int w }) hw, widthInt, if_neg hpos.ne']

/-- What the flags of a number set. -/
theorem evalFlags_number (zero : Bool) (w : Option Nat) {l : Nat} (hl : l < 2 ^ 31)
    (args : List Arg) : evalFlags (numberFlags zero w l) .init false args =
      .ok (⟨widthInt w, -1, l, 0, padOf zero w⟩, args) := by
  rcases zero with _ | _
  · have hz : evalFlags (numberFlags false w l) .init false args =
        evalFlags (widthText w ++ List.replicate l (ch 'l')) .init false args := rfl
    rw [hz, evalFlags_width w hl args .init rfl rfl rfl, padOf]
    simp only [Bool.false_eq_true, false_or]
    rfl
  · have hz : evalFlags (numberFlags true w l) .init false args =
        evalFlags (widthText w ++ List.replicate l (ch 'l')) { Spec.init with padc := chr '0' } false
          args := rfl
    rw [hz, evalFlags_width w hl args _ rfl rfl rfl, padOf, if_pos (Or.inl rfl)]
    dsimp only
    rw [ite_self]
    rfl

/-! ### The argument -/

/-- The words on the stack for an argument of the size that `l` asks for. -/
def argWords (l : Nat) (v : BitVec 64) : List Arg :=
  if 2 ≤ l then [.word (v.extractLsb' 0 32), .word (v.extractLsb' 32 32)]
  else [.word (v.setWidth 32)]

/-- The argument as a signed number. -/
def sval (l : Nat) (v : BitVec 64) : Int := if 2 ≤ l then v.toInt else (v.setWidth 32).toInt

/-- The argument as an unsigned number. -/
def uval (l : Nat) (v : BitVec 64) : Nat := if 2 ≤ l then v.toNat else (v.setWidth 32).toNat

theorem vaLong_words (v : BitVec 64) :
    vaLong [.word (v.extractLsb' 0 32), .word (v.extractLsb' 32 32)] = .ok (v, []) := by
  have h : v.extractLsb' 32 32 ++ v.extractLsb' 0 32 = v := by
    apply BitVec.eq_of_getLsbD_eq
    intro i hi
    rw [BitVec.getLsbD_append]
    simp only [BitVec.getLsbD_extractLsb']
    grind
  show Except.ok (v.extractLsb' 32 32 ++ v.extractLsb' 0 32, []) = _
  rw [h]

theorem getint_argWords (l : Nat) (v : BitVec 64) :
    ∃ num : BitVec 64, getint (argWords l v) l = .ok (num, []) ∧ num.toInt = sval l v := by
  unfold getint argWords sval
  rcases Nat.lt_or_ge l 2 with h | h
  · rw [if_neg (by omega), if_neg (by omega), if_neg (by omega)]
    exact ⟨_, rfl, BitVec.toInt_signExtend_of_le (by decide)⟩
  · rw [if_pos (by omega), if_pos (by omega), if_pos (by omega)]
    exact ⟨v, vaLong_words v, rfl⟩

theorem getuint_argWords (l : Nat) (v : BitVec 64) :
    ∃ num : BitVec 64, getuint (argWords l v) l = .ok (num, []) ∧ num.toNat = uval l v := by
  unfold getuint argWords uval
  rcases Nat.lt_or_ge l 2 with h | h
  · rw [if_neg (by omega), if_neg (by omega), if_neg (by omega)]
    refine ⟨_, rfl, ?_⟩
    rw [BitVec.toNat_setWidth]
    have := (v.setWidth 32).isLt
    omega
  · rw [if_pos (by omega), if_pos (by omega), if_pos (by omega)]
    exact ⟨v, vaLong_words v, rfl⟩

theorem signed_spec (num : BitVec 64) :
    signed num = (if num.toInt < 0 then [chr '-'] else [], (signed num).2) ∧
      (signed num).2.toNat = num.toInt.natAbs := by
  unfold signed
  have h := BitVec.toInt_eq_toNat_cond num
  have hlt := num.isLt
  split
  · refine ⟨rfl, ?_⟩
    dsimp only
    rw [BitVec.toNat_neg]
    omega
  · refine ⟨rfl, ?_⟩
    dsimp only
    omega

/-- The sign of the reference text. -/
def NumConv.sign (c : NumConv) (l : Nat) (v : BitVec 64) : List Int :=
  if c = .d ∧ sval l v < 0 then [chr '-'] else []

theorem sign_of_ne (c : NumConv) (h : c ≠ .d) (l : Nat) (v : BitVec 64) : c.sign l v = [] :=
  if_neg fun hc => h hc.1

/-- The digits of the reference text. -/
def NumConv.digits (c : NumConv) (l : Nat) (v : BitVec 64) : List Int :=
  (match c with
    | .d => Nat.toDigits 10 (sval l v).natAbs
    | .u => Nat.toDigits 10 (uval l v)
    | .o => Nat.toDigits 8 (uval l v)
    | .x => Nat.toDigits 16 (uval l v)).map chr

/-- The reference text: at least `w` characters, with spaces before the sign or with zeros after
    it. -/
def paddedText (zero : Bool) (w : Nat) (sign digits : List Int) : List Int :=
  let pads := w - (sign.length + digits.length)
  if zero then sign ++ List.replicate pads (chr '0') ++ digits
  else List.replicate pads (chr ' ') ++ sign ++ digits

/-! ### What comes out -/

section

variable (nested : List Byte → List Arg → Except Crash (List Int)) (view : View) (s : Spec)
  (args : List Arg)

theorem convert_d : convert nested view NumConv.d.char s args = (do
    let (num, args) ← getint args s.lflag
    .ok ((signed num).1 ++ printnum (signed num).2.toNat 10 s.width s.padc, args)) := rfl

theorem convert_o : convert nested view NumConv.o.char s args = (do
    let (num, args) ← getint args s.lflag
    .ok ((signed num).1 ++ printnum (signed num).2.toNat 8 s.width s.padc, args)) := rfl

theorem convert_u : convert nested view NumConv.u.char s args = (do
    let (num, args) ← getuint args s.lflag
    .ok (printnum num.toNat 10 s.width s.padc, args)) := rfl

theorem convert_x : convert nested view NumConv.x.char s args = (do
    let (num, args) ← getuint args s.lflag
    .ok (printnum num.toNat 16 s.width s.padc, args)) := rfl

end

/-- The directive puts out the sign, the padding and the digits. -/
structure Emits (view : View) (zero : Bool) (w : Option Nat) (l : Nat) (c : NumConv)
    (v : BitVec 64) (sign : List Int) (digits : List Char) : Prop where
  out : vprintfmt view (numberDirective zero w l c) (argWords l v) =
    .ok (sign ++ (pad (int (widthInt w - digits.length)) (padOf zero w) ++ digits.map chr))

theorem emits_of_convert {view : View} {zero : Bool} {w : Option Nat} {l : Nat} (hl : l < 2 ^ 31)
    {c : NumConv} {v : BitVec 64} {sign : List Int} {num base : Nat} (h2 : 2 ≤ base)
    (h16 : base ≤ 16)
    (h : convert (vprintfmtN view 1) view c.char ⟨widthInt w, -1, l, 0, padOf zero w⟩ (argWords l v) =
      .ok (sign ++ printnum num base (widthInt w) (padOf zero w), [])) :
    Emits view zero w l c v sign (Nat.toDigits base num) := by
  have hf : isFlag c.char = false := by rcases c <;> decide
  have hc : isConv c.char = true := by rcases c <;> decide
  refine ⟨?_⟩
  rw [vprintfmt, numberDirective, vprintfmtN_directive view 1 (isFlag_numberFlags zero w l) hf hc,
    evalFlags_number zero w hl]
  simp only [bind, Except.bind]
  rw [h, printnum_eq h2 h16]

/-- `%d` and `%o`: the number is taken for a signed one. -/
theorem emits_signed (view : View) (zero : Bool) (w : Option Nat) {l : Nat} (hl : l < 2 ^ 31)
    (v : BitVec 64) {c : NumConv} {base : Nat} (hc : c = .d ∧ base = 10 ∨ c = .o ∧ base = 8) :
    Emits view zero w l c v (if sval l v < 0 then [chr '-'] else [])
      (Nat.toDigits base (sval l v).natAbs) := by
  obtain ⟨num, hnum, hval⟩ := getint_argWords l v
  obtain ⟨hs1, hs2⟩ := signed_spec num
  have hs3 : (signed num).1 = if sval l v < 0 then [chr '-'] else [] := by
    rw [hs1, hval]
  rw [hval] at hs2
  rcases hc with ⟨rfl, rfl⟩ | ⟨rfl, rfl⟩
  · refine emits_of_convert hl (by decide) (by decide) ?_
    rw [convert_d, hnum, ← hs3, ← hs2]
    rfl
  · refine emits_of_convert hl (by decide) (by decide) ?_
    rw [convert_o, hnum, ← hs3, ← hs2]
    rfl

/-- `%u` and `%x`. -/
theorem emits_unsigned (view : View) (zero : Bool) (w : Option Nat) {l : Nat} (hl : l < 2 ^ 31)
    (v : BitVec 64) {c : NumConv} {base : Nat} (hc : c = .u ∧ base = 10 ∨ c = .x ∧ base = 16) :
    Emits view zero w l c v [] (Nat.toDigits base (uval l v)) := by
  obtain ⟨num, hnum, hval⟩ := getuint_argWords l v
  rcases hc with ⟨rfl, rfl⟩ | ⟨rfl, rfl⟩
  · refine emits_of_convert hl (by decide) (by decide) ?_
    rw [convert_u, hnum, ← hval]
    rfl
  · refine emits_of_convert hl (by decide) (by decide) ?_
    rw [convert_x, hnum, ← hval]
    rfl

/-! ### Against the reference -/

theorem length_toDigits_le {base : Nat} (hb : 2 ≤ base) (k : Nat) : ∀ num, num < 2 ^ (k + 1) →
    (Nat.toDigits base num).length ≤ k + 1 := by
  induction k with
  | zero =>
    intro num h
    rw [Nat.toDigits_of_lt_base (by omega)]
    exact le_rfl
  | succ k ih =>
    intro num h
    rcases Nat.lt_or_ge num base with hlt | hge
    · rw [Nat.toDigits_of_lt_base hlt, List.length_singleton]
      omega
    · have hdiv : num / base < 2 ^ (k + 1) := by
        have : num / base ≤ num / 2 := Nat.div_le_div_left hb (by decide)
        omega
      rw [Nat.toDigits_of_base_le (by omega) hge, List.length_append, List.length_singleton]
      exact Nat.succ_le_succ (ih _ hdiv)

theorem toDigits_pos {base : Nat} (hb : 2 ≤ base) (num : Nat) :
    0 < (Nat.toDigits base num).length := by
  rw [Nat.toDigits_eq_if (by omega)]
  split
  · exact Nat.zero_lt_one
  · rw [List.length_append]
    exact Nat.lt_add_left _ Nat.zero_lt_one

/-- How many pad characters come out. -/
theorem pads_eq_iff {w : Option Nat} {k : Nat} (hk : 0 < k) (hk' : k ≤ 64) :
    (int (widthInt w - k)).toNat = w.getD 0 - k ↔ w.getD 0 < 2 ^ 31 + k := by
  have hneg : (int (-1 - k)).toNat = 0 := by
    unfold int
    omega
  rcases w with _ | w
  · rw [widthInt, hneg, Option.getD_none]
    omega
  · rw [Option.getD_some, widthInt]
    split
    · rw [hneg]
      omega
    · rw [int_sub]
      unfold int
      omega

/-- The padding is made of the right characters, if there is any. -/
theorem pad_padOf (zero : Bool) (w : Option Nat) {k : Nat} (hk : k ≤ 64) :
    pad (int (widthInt w - k)) (padOf zero w) =
      pad (int (widthInt w - k)) (if zero then chr '0' else chr ' ') := by
  rcases eq_or_ne w (some 0) with rfl | hw
  · have h : (int (widthInt (some 0) - k)).toNat = 0 := by
      rw [widthInt, if_pos rfl]
      unfold int
      omega
    unfold pad
    rw [h]
    rfl
  · unfold padOf
    simp only [hw, or_false]

/-- A text without a sign. -/
theorem plain_text_iff (zero : Bool) (w : Nat) (P : Int) (ds : List Int) :
    pad P (if zero then chr '0' else chr ' ') ++ ds = paddedText zero w [] ds ↔
      P.toNat = w - ds.length := by
  constructor
  · intro h
    have hlen := congrArg List.length h
    unfold paddedText pad at hlen
    rcases zero with _ | _ <;>
    · simp at hlen
      omega
  · intro h
    unfold paddedText pad
    rw [h]
    rcases zero with _ | _
    · simp
    · simp

/-- A negative number: the padding stands behind the sign and does not count it. -/
theorem minus_text_iff (zero : Bool) (w : Option Nat) (ds : List Int) (hk : ds.length ≤ 64) :
    chr '-' :: (pad (int (widthInt w - ds.length)) (if zero then chr '0' else chr ' ') ++ ds) =
        paddedText zero (w.getD 0) [chr '-'] ds ↔ w.getD 0 ≤ ds.length := by
  have hlow : w.getD 0 ≤ ds.length → (int (widthInt w - ds.length)).toNat = 0 := by
    intro h
    rcases w with _ | w
    · rw [widthInt]
      unfold int
      omega
    · rw [Option.getD_some] at h
      rw [widthInt]
      split
      · unfold int
        omega
      · rw [int_sub]
        unfold int
        omega
  have hhigh : (int (widthInt w - ds.length)).toNat = w.getD 0 - (1 + ds.length) →
      w.getD 0 ≤ ds.length := by
    intro h
    rcases w with _ | w
    · exact Nat.zero_le _
    · rw [Option.getD_some, widthInt] at *
      split at h
      · omega
      · rw [int_sub] at h
        unfold int at h
        omega
  constructor
  · intro h
    apply hhigh
    have hlen := congrArg List.length h
    unfold paddedText pad at hlen
    rcases zero with _ | _ <;>
    · simp at hlen
      omega
  · intro h
    have h0 : w.getD 0 - (1 + ds.length) = 0 := by omega
    unfold paddedText pad
    rw [hlow h, List.length_singleton, h0]
    rcases zero with _ | _
    · rfl
    · rfl

theorem natAbs_sval_lt (l : Nat) (v : BitVec 64) : (sval l v).natAbs < 2 ^ 64 := by
  unfold sval
  split
  · have h1 := BitVec.toInt_lt (x := v)
    have h2 := BitVec.le_toInt v
    omega
  · have h1 := BitVec.toInt_lt (x := v.setWidth 32)
    have h2 := BitVec.le_toInt (v.setWidth 32)
    omega

theorem uval_lt (l : Nat) (v : BitVec 64) : uval l v < 2 ^ 64 := by
  unfold uval
  split
  · exact v.isLt
  · have := (v.setWidth 32).isLt
    omega

theorem natAbs_sval {l : Nat} {v : BitVec 64} (h : 0 ≤ sval l v) : (sval l v).natAbs = uval l v := by
  unfold sval uval at *
  split
  · rw [if_pos ‹_›] at h
    have := BitVec.toInt_eq_toNat_cond v
    have := v.isLt
    omega
  · rw [if_neg ‹_›] at h
    have := BitVec.toInt_eq_toNat_cond (v.setWidth 32)
    have := (v.setWidth 32).isLt
    omega

/-- There is no sign in the reference text of an unsigned number. -/
theorem minus_not_mem (zero : Bool) (w num : Nat) :
    chr '-' ∉ paddedText zero w [] ((Nat.toDigits 8 num).map chr) := by
  have hd : chr '-' ∉ (Nat.toDigits 8 num).map chr := by
    intro h
    obtain ⟨c, hc, heq⟩ := List.mem_map.mp h
    have hdig := Nat.isDigit_of_mem_toDigits (by decide) (by decide) hc
    have hcm : c = '-' := by
      have : c.toNat = '-'.toNat := Int.ofNat_inj.mp heq
      exact Char.toNat_inj.mp this
    rw [hcm] at hdig
    exact absurd hdig (by decide)
  have hne : ∀ (k : Nat) (c : Char), chr '-' ≠ chr c → chr '-' ∉ List.replicate k (chr c) :=
    fun k c h hmem => h (List.eq_of_mem_replicate hmem)
  unfold paddedText
  rcases zero with _ | _
  · simp only [Bool.false_eq_true, if_false, List.append_nil, List.mem_append, not_or]
    exact ⟨hne _ ' ' (by decide), hd⟩
  · simp only [if_true, List.nil_append, List.mem_append, not_or]
    exact ⟨hne _ '0' (by decide), hd⟩

/-- The number is printed as the reference has it exactly when it is not a negative one under `%o`,
    when a negative one under `%d` fills its width with the digits alone, and when the width is not
    so large that the padding overflows an `int`. -/
theorem formatNumber_iff (view : View) (zero : Bool) (w : Option Nat) {l : Nat} (hl : l ≤ 2)
    (c : NumConv) (v : BitVec 64) :
    vprintfmt view (numberDirective zero w l c) (argWords l v) =
        .ok (paddedText zero (w.getD 0) (c.sign l v) (c.digits l v)) ↔
      (c = .o → 0 ≤ sval l v) ∧
      (c = .d → sval l v < 0 → w.getD 0 ≤ (c.digits l v).length) ∧
      w.getD 0 < 2 ^ 31 + (c.digits l v).length := by
  have hl' : l < 2 ^ 31 := by omega
  have hplain : ∀ base num, 2 ≤ base → num < 2 ^ 64 →
      ((Except.ok ([] ++ (pad (int (widthInt w - (Nat.toDigits base num).length)) (padOf zero w) ++
          (Nat.toDigits base num).map chr)) : Except Crash (List Int)) =
        .ok (paddedText zero (w.getD 0) [] ((Nat.toDigits base num).map chr)) ↔
      w.getD 0 < 2 ^ 31 + ((Nat.toDigits base num).map chr).length) := by
    intro base num hb hnum
    have hk := length_toDigits_le hb 63 num hnum
    rw [Except.ok.injEq, List.nil_append, pad_padOf zero w hk, plain_text_iff, List.length_map]
    exact pads_eq_iff (toDigits_pos hb num) hk
  rcases c with _ | _ | _ | _
  · -- `%d`
    rw [(emits_signed view zero w hl' v (.inl ⟨rfl, rfl⟩)).out]
    rcases lt_or_ge (sval l v) 0 with hneg | hpos
    · have hsign : NumConv.d.sign l v = [chr '-'] := if_pos ⟨rfl, hneg⟩
      have hk : (Nat.toDigits 10 (sval l v).natAbs).length ≤ 64 :=
        length_toDigits_le (by decide) 63 _ (natAbs_sval_lt l v)
      have hmap : ((Nat.toDigits 10 (sval l v).natAbs).map chr).length =
          (Nat.toDigits 10 (sval l v).natAbs).length := List.length_map _
      have h := minus_text_iff zero w ((Nat.toDigits 10 (sval l v).natAbs).map chr) (hmap.trans_le hk)
      rw [hmap] at h
      rw [if_pos hneg, hsign, pad_padOf zero w hk, Except.ok.injEq, List.singleton_append,
        NumConv.digits, hmap]
      refine h.trans ⟨fun hle => ⟨nofun, fun _ _ => hle, by omega⟩, fun hall => hall.2.1 rfl hneg⟩
    · have hsign : NumConv.d.sign l v = [] := if_neg fun h => absurd h.2 (not_lt.mpr hpos)
      rw [if_neg (not_lt.mpr hpos), hsign, NumConv.digits,
        hplain 10 _ (by decide) (natAbs_sval_lt l v)]
      exact ⟨fun h => ⟨nofun, fun _ hn => absurd hn (not_lt.mpr hpos), h⟩, fun h => h.2.2⟩
  · -- `%u`
    rw [(emits_unsigned view zero w hl' v (.inl ⟨rfl, rfl⟩)).out, sign_of_ne .u nofun,
      NumConv.digits, hplain 10 _ (by decide) (uval_lt l v)]
    exact ⟨fun h => ⟨nofun, nofun, h⟩, fun h => h.2.2⟩
  · -- `%o`
    rw [(emits_signed view zero w hl' v (.inr ⟨rfl, rfl⟩)).out, sign_of_ne .o nofun,
      NumConv.digits]
    rcases lt_or_ge (sval l v) 0 with hneg | hpos
    · rw [if_pos hneg, Except.ok.injEq]
      refine iff_of_false (fun h => minus_not_mem zero (w.getD 0) (uval l v) ?_)
        fun h => absurd (h.1 rfl) (not_le.mpr hneg)
      rw [← h]
      exact List.mem_cons_self
    · rw [if_neg (not_lt.mpr hpos), natAbs_sval hpos, hplain 8 _ (by decide) (uval_lt l v)]
      exact ⟨fun h => ⟨fun _ => hpos, nofun, h⟩, fun h => h.2.2⟩
  · -- `%x`
    rw [(emits_unsigned view zero w hl' v (.inr ⟨rfl, rfl⟩)).out, sign_of_ne .x nofun,
      NumConv.digits, hplain 16 _ (by decide) (uval_lt l v)]
    exact ⟨fun h => ⟨nofun, nofun, h⟩, fun h => h.2.2⟩

theorem formatNumber_iff_width_five :
    vprintfmt (fun _ => none) (numberDirective false (some 5) 0 .d) (argWords 0 42) =
      .ok (paddedText false 5 [] ((Nat.toDigits 10 42).map chr)) :=
  (formatNumber_iff (fun _ => none) false (some 5) (Nat.zero_le 2) .d 42).mpr
    ⟨nofun, fun _ h => absurd h (by decide), by decide⟩

/-- `%5d` of -3: the sign, then the padding, and one character too many. -/
theorem padding_behind_sign :
    vprintfmt (fun _ => none) (numberDirective false (some 5) 0 .d) (argWords 0 (-3)) ≠
      .ok (paddedText false 5 (NumConv.d.sign 0 (-3)) (NumConv.d.digits 0 (-3))) := by
  have h := (emits_signed (fun _ => none) false (some 5) (l := 0) (by decide) (-3)
    (c := .d) (.inl ⟨rfl, rfl⟩)).out
  rw [h]
  decide

end Fmt

end Jos
