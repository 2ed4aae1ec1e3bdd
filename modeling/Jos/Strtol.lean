import Jos.FormatNumber

/-!
  `strtol` of `lib/string.c` reads back what `vprintfmt` prints.

  A string is the list of its characters without the NUL: reading at its end yields 0. `long` is 32
  bits wide and wraps around. -/

namespace Jos

namespace Fmt

/-- `*s` -/
def star (s : List Byte) : Byte := s.headD 0

/-- `while (*s == ' ' || *s == '\t') s++;` -/
def gobble : List Byte → List Byte
  | [] => []
  | c :: s => if c = ch ' ' ∨ c = 9 then gobble s else c :: s

/-- The sign, if there is one, and the rest. -/
def takeSign (s : List Byte) : Bool × List Byte :=
  if star s = ch '+' then (false, s.tail)
  else if star s = ch '-' then (true, s.tail)
  else (false, s)

/-- The base prefix, if there is one: the base, and the rest. -/
def takePrefix (s : List Byte) (base : Int) : Int × List Byte :=
  if (base = 0 ∨ base = 16) ∧ star s = ch '0' ∧ star s.tail = ch 'x' then (16, s.tail.tail)
  else if base = 0 ∧ star s = ch '0' then (8, s.tail)
  else if base = 0 then (10, s)
  else (base, s)

/-- `dig`, for a digit or a letter. -/
def digitOf (c : Byte) : Option Int :=
  if ch '0' ≤ c ∧ c ≤ ch '9' then some (c.toNat - chr '0')
  else if ch 'a' ≤ c ∧ c ≤ ch 'z' then some (c.toNat - chr 'a' + 10)
  else if ch 'A' ≤ c ∧ c ≤ ch 'Z' then some (c.toNat - chr 'A' + 10)
  else none

/-- The loop over the digits: the value, and where it ends. -/
def takeDigits (base : Int) : List Byte → Word → Word × List Byte
  | [], val => (val, [])
  | c :: s, val =>
    match digitOf c with
    | none => (val, c :: s)
    | some dig =>
      if base ≤ dig then (val, c :: s)
      else takeDigits base s (val * BitVec.ofInt 32 base + BitVec.ofInt 32 dig)

/-- `strtol`: the value, and `*endptr`. -/
def strtol (s : List Byte) (base : Int) : Word × List Byte :=
  let (neg, s) := takeSign (gobble s)
  let (base, s) := takePrefix s base
  let (val, s) := takeDigits base s 0
  (if neg then -val else val, s)

theorem digitOf_digitChar {d : Nat} (h : d < 16) :
    digitOf (ch (Nat.digitChar d)) = some (d : Int) := by
  revert d
  decide

/-- Reading the digits of a number. -/
theorem takeDigits_toDigits {base : Nat} (h2 : 2 ≤ base) (h16 : base ≤ 16) (num : Nat) :
    ∀ rest, takeDigits base ((Nat.toDigits base num).map ch ++ rest) 0 =
      takeDigits base rest (BitVec.ofNat 32 num) := by
  have hstep : ∀ (d : Nat) (rest : List Byte) (val : Word), d < base →
      takeDigits base (ch (Nat.digitChar d) :: rest) val =
        takeDigits base rest (val * BitVec.ofInt 32 base + BitVec.ofInt 32 d) := by
    intro d rest val hd
    rw [takeDigits, digitOf_digitChar (by omega)]
    exact if_neg (by omega)
  induction num using Nat.strong_induction_on with
  | _ num ih =>
    intro rest
    rcases Nat.lt_or_ge num base with hlt | hge
    · rw [Nat.toDigits_of_lt_base hlt]
      show takeDigits base (ch (Nat.digitChar num) :: rest) 0 = _
      have hval : (0 : Word) * BitVec.ofInt 32 base + BitVec.ofInt 32 num = BitVec.ofNat 32 num := by
        rw [BitVec.ofInt_natCast, BitVec.ofInt_natCast]
        simp
      rw [hstep num rest 0 hlt, hval]
    · have hval : BitVec.ofNat 32 (num / base) * BitVec.ofInt 32 base + BitVec.ofInt 32 (num % base : Nat)
          = BitVec.ofNat 32 num := by
        rw [BitVec.ofInt_natCast, BitVec.ofInt_natCast, ← BitVec.ofNat_mul, ← BitVec.ofNat_add,
          Nat.div_add_mod']
      rw [Nat.toDigits_of_base_le (by omega) hge, List.map_append, List.append_assoc,
        ih _ (Nat.div_lt_self (by omega) (by omega))]
      show takeDigits base (ch (Nat.digitChar (num % base)) :: rest) _ = _
      rw [hstep _ rest _ (Nat.mod_lt _ (by omega)), hval]

/-- Only zero has a 0 in front. -/
theorem toDigits_head {base : Nat} (h2 : 2 ≤ base) (h16 : base ≤ 16) (num : Nat) :
    ∃ d rest, d < 16 ∧ (Nat.toDigits base num).map ch = ch (Nat.digitChar d) :: rest ∧
      (0 < num → 0 < d) := by
  induction num using Nat.strong_induction_on with
  | _ num ih =>
    rcases Nat.lt_or_ge num base with hlt | hge
    · exact ⟨num, [], by omega, by rw [Nat.toDigits_of_lt_base hlt]; rfl, id⟩
    · obtain ⟨d, rest, hd, h, h0⟩ := ih _ (Nat.div_lt_self (by omega) (by omega : 1 < base))
      refine ⟨d, rest ++ [ch (Nat.digitChar (num % base))], hd, ?_,
        fun _ => h0 (Nat.div_pos hge (by omega))⟩
      rw [Nat.toDigits_of_base_le (by omega) hge, List.map_append, h]
      rfl

theorem digitChar_ne {d : Nat} (h : d < 16) : ch (Nat.digitChar d) ≠ ch ' ' ∧
    ch (Nat.digitChar d) ≠ 9 ∧ ch (Nat.digitChar d) ≠ ch '+' ∧ ch (Nat.digitChar d) ≠ ch '-' ∧
    (0 < d → ch (Nat.digitChar d) ≠ ch '0') := by
  revert d
  decide

/-- The prefix that `strtol` takes off the digits of a number: none, but for 0 itself. -/
theorem takePrefix_digits {base : Nat} (h2 : 2 ≤ base) (h16 : base ≤ 16) (num : Nat) {b : Int}
    (hb : b = base ∨ b = 0 ∧ base = 10) :
    takePrefix ((Nat.toDigits base num).map ch) b =
        ((base : Int), (Nat.toDigits base num).map ch) ∨
      num = 0 ∧ takePrefix ((Nat.toDigits base num).map ch) b = (8, []) := by
  rcases Nat.eq_zero_or_pos num with rfl | hpos
  · rw [Nat.toDigits_zero]
    rcases hb with rfl | ⟨rfl, rfl⟩
    · refine .inl ?_
      unfold takePrefix
      rw [if_neg fun h => absurd h.2.2 (by decide), if_neg fun h => by omega, if_neg (by omega)]
    · exact .inr ⟨rfl, rfl⟩
  · obtain ⟨d, rest, hd, h, h0⟩ := toDigits_head h2 h16 num
    have hstar : star ((Nat.toDigits base num).map ch) ≠ ch '0' := by
      rw [h]
      exact (digitChar_ne hd).2.2.2.2 (h0 hpos)
    refine .inl ?_
    unfold takePrefix
    rw [if_neg fun h => hstar h.2.1, if_neg fun h => hstar h.2]
    rcases hb with rfl | ⟨rfl, rfl⟩
    · rw [if_neg (by omega)]
    · rw [if_pos rfl]
      rfl

/-- A number with its sign is read back. -/
theorem strtol_text {base : Nat} (h2 : 2 ≤ base) (h16 : base ≤ 16) (num : Nat) {b : Int}
    (hb : b = base ∨ b = 0 ∧ base = 10) (neg : Bool) :
    strtol ((if neg then [ch '-'] else []) ++ (Nat.toDigits base num).map ch) b =
      (if neg then -BitVec.ofNat 32 num else BitVec.ofNat 32 num, []) := by
  obtain ⟨d, rest, hd, h, _⟩ := toDigits_head h2 h16 num
  obtain ⟨h1, h9, hplus, hminus, _⟩ := digitChar_ne hd
  have hsign : takeSign (gobble ((if neg then [ch '-'] else []) ++ (Nat.toDigits base num).map ch)) =
      (neg, (Nat.toDigits base num).map ch) := by
    rcases neg with _ | _
    · have hg : gobble (ch (Nat.digitChar d) :: rest) = ch (Nat.digitChar d) :: rest := by
        rw [gobble, if_neg (not_or.mpr ⟨h1, h9⟩)]
      have hs : star (ch (Nat.digitChar d) :: rest) = ch (Nat.digitChar d) := rfl
      rw [if_neg Bool.false_ne_true, List.nil_append, h, hg, takeSign, hs, if_neg hplus,
        if_neg hminus]
    · rfl
  have hdigits := takeDigits_toDigits h2 h16 num []
  rw [List.append_nil, takeDigits] at hdigits
  rw [strtol, hsign]
  dsimp only
  rcases takePrefix_digits h2 h16 num hb with hp | ⟨rfl, hp⟩
  · rw [hp]
    dsimp only
    rw [hdigits]
  · rw [hp]
    dsimp only
    rw [takeDigits]
    rcases neg with _ | _ <;> rfl

/-- What is printed for `v` reads back as `v`, up to the end of the text. -/
def ReadsBack (view : View) (fmt : String) (base : Int) (v : Word) : Prop :=
  ∃ out, vprintfmt view (str fmt) [.word v] = .ok out ∧
    strtol (out.map (BitVec.ofInt 8)) base = (v, [])

theorem map_byte (l : List Char) : (l.map chr).map (BitVec.ofInt 8) = l.map ch := by
  rw [List.map_map]
  exact List.map_congr_left fun c _ => BitVec.ofInt_natCast 8 c.toNat

/-- Without a width there is no padding. -/
theorem pad_none {k : Nat} (hk : k ≤ 64) (padc : Int) : pad (int (widthInt none - k)) padc = [] := by
  have h : (int (widthInt none - k)).toNat = 0 := by
    rw [widthInt]
    unfold int
    omega
  rw [pad, h]
  rfl

theorem argWords_word (v : Word) : argWords 0 (v.setWidth 64) = [.word v] := by
  rw [argWords, if_neg (by decide)]
  congr 2
  bv_omega

/-- `%d` and `%o` print the sign and the magnitude. -/
theorem readsBack_signed (view : View) (v : Word) {c : NumConv} {base : Nat} {b : Int}
    (hc : c = .d ∧ base = 10 ∨ c = .o ∧ base = 8) (h2 : 2 ≤ base) (h16 : base ≤ 16)
    (hb : b = base ∨ b = 0 ∧ base = 10) :
    ∃ out, vprintfmt view (numberDirective false none 0 c) [.word v] = .ok out ∧
      strtol (out.map (BitVec.ofInt 8)) b = (v, []) := by
  have hout := (emits_signed view false none (l := 0) (by decide) (v.setWidth 64) hc).out
  have hk : (Nat.toDigits base (sval 0 (v.setWidth 64)).natAbs).length ≤ 64 :=
    length_toDigits_le h2 63 _ (natAbs_sval_lt _ _)
  have hsval : sval 0 (v.setWidth 64) = v.toInt := by
    have : (v.setWidth 64).setWidth 32 = v := by bv_omega
    rw [sval, if_neg (by decide), this]
  rw [argWords_word, pad_none hk, List.nil_append, hsval] at hout
  refine ⟨_, hout, ?_⟩
  have hneg := strtol_text h2 h16 v.toInt.natAbs hb (decide (v.toInt < 0))
  have hv := BitVec.toInt_eq_toNat_cond v
  have hlt := v.isLt
  rw [List.map_append, map_byte]
  rcases lt_or_ge v.toInt 0 with h | h
  · rw [decide_eq_true h] at hneg
    have hval : -BitVec.ofNat 32 v.toInt.natAbs = v := by
      apply BitVec.eq_of_toNat_eq
      rw [BitVec.toNat_neg, BitVec.toNat_ofNat]
      omega
    rw [if_pos h]
    refine hneg.trans ?_
    rw [if_pos rfl, hval]
  · rw [decide_eq_false (not_lt.mpr h)] at hneg
    have hval : BitVec.ofNat 32 v.toInt.natAbs = v := by
      apply BitVec.eq_of_toNat_eq
      rw [BitVec.toNat_ofNat]
      omega
    rw [if_neg (not_lt.mpr h)]
    refine hneg.trans ?_
    rw [if_neg Bool.false_ne_true, hval]

/-- `%x`. -/
theorem readsBack_hex (view : View) (v : Word) : ReadsBack view "%x" 16 v := by
  have hout := (emits_unsigned view false none (l := 0) (by decide) (v.setWidth 64)
    (c := .x) (.inr ⟨rfl, rfl⟩)).out
  have huval : uval 0 (v.setWidth 64) = v.toNat := by
    have : (v.setWidth 64).setWidth 32 = v := by bv_omega
    rw [uval, if_neg (by decide), this]
  rw [argWords_word, huval, pad_none (length_toDigits_le (by decide) 63 _ (by omega)),
    List.nil_append] at hout
  refine ⟨_, hout, ?_⟩
  rw [List.nil_append, map_byte]
  have h := strtol_text (by decide : 2 ≤ 16) le_rfl v.toNat (.inl rfl) false
  rw [if_neg Bool.false_ne_true, if_neg Bool.false_ne_true, List.nil_append] at h
  refine h.trans ?_
  rw [BitVec.ofNat_toNat, BitVec.setWidth_eq]

/-- `%p`: the prefix makes it base 16. -/
theorem readsBack_pointer (view : View) (v : Word) {b : Int} (hb : b = 0 ∨ b = 16) :
    ReadsBack view "%p" b v := by
  have hconv : ∀ nested s, convert nested view (ch 'p') s [.word v] =
      .ok (chr '0' :: chr 'x' :: printnum v.toNat 16 s.width s.padc, []) := fun _ _ => rfl
  have hout : vprintfmt view (str "%p") [.word v] =
      .ok (chr '0' :: chr 'x' :: (Nat.toDigits 16 v.toNat).map chr) := by
    have hfmt : str "%p" = ch '%' :: ([] ++ [ch 'p']) := rfl
    rw [vprintfmt, hfmt, vprintfmtN_directive view 1 (fun x hx => absurd hx List.not_mem_nil) rfl rfl]
    have hflags : evalFlags [] .init false [.word v] = .ok (.init, [.word v]) := rfl
    rw [hflags]
    simp only [bind, Except.bind]
    rw [hconv, printnum_eq (by decide) (by decide)]
    have := pad_none (length_toDigits_le (by decide : 2 ≤ 16) 63 v.toNat (by omega)) (chr ' ')
    show Except.ok (chr '0' :: chr 'x' :: (pad (int (-1 - _)) (chr ' ') ++ _)) = _
    rw [show (-1 : Int) = widthInt none from rfl, this, List.nil_append]
  refine ⟨_, hout, ?_⟩
  have hdigits : takeDigits 16 ((Nat.toDigits 16 v.toNat).map ch) 0 =
      (BitVec.ofNat 32 v.toNat, []) := by
    have h := takeDigits_toDigits (by decide : 2 ≤ 16) le_rfl v.toNat []
    rw [List.append_nil, takeDigits] at h
    exact h
  have hpre : takePrefix (ch '0' :: ch 'x' :: (Nat.toDigits 16 v.toNat).map ch) b =
      (16, (Nat.toDigits 16 v.toNat).map ch) := by
    rw [takePrefix, if_pos ⟨hb, rfl, rfl⟩]
    rfl
  have htext : (chr '0' :: chr 'x' :: (Nat.toDigits 16 v.toNat).map chr).map (BitVec.ofInt 8) =
      ch '0' :: ch 'x' :: (Nat.toDigits 16 v.toNat).map ch := by
    rw [List.map_cons, List.map_cons, map_byte]
    rfl
  have hsign : takeSign (gobble (ch '0' :: ch 'x' :: (Nat.toDigits 16 v.toNat).map ch)) =
      (false, ch '0' :: ch 'x' :: (Nat.toDigits 16 v.toNat).map ch) := rfl
  rw [htext, strtol, hsign]
  dsimp only
  rw [hpre]
  dsimp only
  rw [hdigits, if_neg Bool.false_ne_true, BitVec.ofNat_toNat, BitVec.setWidth_eq]

/-- Parsing undoes printing. -/
theorem strtol_vprintfmt (view : View) (v : Word) :
    ReadsBack view "%d" 0 v ∧ ReadsBack view "%d" 10 v ∧ ReadsBack view "%x" 16 v ∧
      ReadsBack view "%p" 0 v ∧ ReadsBack view "%p" 16 v ∧ ReadsBack view "%o" 8 v :=
  ⟨readsBack_signed view v (c := .d) (.inl ⟨rfl, rfl⟩) (by decide) (by decide) (.inr ⟨rfl, rfl⟩),
    readsBack_signed view v (c := .d) (.inl ⟨rfl, rfl⟩) (by decide) (by decide) (.inl rfl),
    readsBack_hex view v, readsBack_pointer view v (.inl rfl), readsBack_pointer view v (.inr rfl),
    readsBack_signed view v (c := .o) (.inr ⟨rfl, rfl⟩) (by decide) (by decide) (.inl rfl)⟩

end Fmt

end Jos
