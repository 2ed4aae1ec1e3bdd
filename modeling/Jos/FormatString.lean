import Jos.FormatNumber

/-!
  `%s` with a width and a precision, against its reference text.

  A `0` that begins a precision is taken for the flag, and so the precision `0` is none at all. -/

namespace Jos

namespace Fmt

/-! ### Strings in memory -/

/-- The string at a pointer, up to its NUL. -/
def IsString (view : View) : Ptr → List Byte → Prop
  | p, [] => fetch view p = .ok 0
  | p, c :: s => c ≠ 0 ∧ fetch view p = .ok c ∧ IsString view p.next s

theorem isString_text (view : View) : ∀ {s : List Byte}, (∀ c ∈ s, c ≠ 0) →
    IsString view (.text s) s
  | [], _ => rfl
  | c :: _, h => ⟨h c List.mem_cons_self, rfl,
      isString_text view fun d hd => h d (List.mem_cons_of_mem _ hd)⟩

/-- The characters lie one after the other, and the NUL behind them. -/
theorem IsString.at {view : View} : ∀ {s : List Byte} {a : Word}, IsString view (.mem a) s →
    fetch view (.mem (a + BitVec.ofNat 32 s.length)) = .ok 0 ∧
      ∀ i < s.length, fetch view (.mem (a + BitVec.ofNat 32 i)) ≠ .ok 0
  | [], a, h => by
    have ha : a + BitVec.ofNat 32 0 = a := by simp
    rw [List.length_nil, ha]
    exact ⟨h, fun i hi => absurd hi (Nat.not_lt_zero i)⟩
  | c :: s, a, ⟨hc, hf, hs⟩ => by
    have hadd : ∀ i : Nat, a + BitVec.ofNat 32 (i + 1) = a + 1 + BitVec.ofNat 32 i := by
      intro i
      rw [BitVec.ofNat_add, BitVec.add_comm (BitVec.ofNat 32 i), ← BitVec.add_assoc]
      rfl
    obtain ⟨h0, h1⟩ := IsString.at hs
    refine ⟨?_, fun i hi => ?_⟩
    · rw [List.length_cons, hadd]
      exact h0
    · rcases i with _ | i
      · have ha : a + BitVec.ofNat 32 0 = a := by simp
        rw [ha, hf]
        intro h
        exact hc (Except.ok.inj h)
      · rw [hadd]
        exact h1 i (by rw [List.length_cons] at hi; omega)

/-- A string fits into the address space. -/
theorem IsString.length_lt {view : View} {s : List Byte} {a : Word}
    (h : IsString view (.mem a) s) : s.length < 2 ^ 32 := by
  obtain ⟨h0, h1⟩ := h.at
  by_contra hge
  have hwrap : BitVec.ofNat 32 (s.length - 2 ^ 32) = BitVec.ofNat 32 s.length := by
    apply BitVec.eq_of_toNat_eq
    rw [BitVec.toNat_ofNat, BitVec.toNat_ofNat]
    omega
  have h2 := h1 (s.length - 2 ^ 32) (by omega)
  rw [hwrap] at h2
  exact h2 h0

theorem strnlen_eq {view : View} : ∀ (k : Nat) {p : Ptr} {s : List Byte}, IsString view p s →
    strnlen view k p = .ok (min s.length k)
  | 0, _, _, _ => by rw [strnlen, Nat.min_zero]
  | k + 1, p, [], h => by
    rw [strnlen, h]
    rfl
  | k + 1, p, c :: s, ⟨hc, hf, hs⟩ => by
    have hmin : min (s.length + 1) (k + 1) = min s.length k + 1 := Nat.succ_min_succ _ _
    rw [strnlen, hf, List.length_cons, hmin]
    show (if c = 0 then _ else _) = _
    rw [if_neg hc, strnlen_eq k hs]
    rfl

/-- How many characters of `n` a precision lets through. -/
def precLen (precision : Int) (n : Nat) : Nat :=
  if precision < 0 then n else min n precision.toNat

/-- The loop over the characters. -/
theorem chars_eq (view : View) (alt : Int) : ∀ (k : Nat) {p : Ptr} {s : List Byte}
    (prec x : Int), IsString view p s → s.length < k →
    chars view alt k p prec (int x) =
      .ok ((s.take (precLen prec s.length)).map (shown alt), int (x - precLen prec s.length))
  | 0, _, _, _, _, _, hk => absurd hk (Nat.not_lt_zero _)
  | k + 1, p, [], prec, x, h, _ => by
    have h0 : precLen prec ([] : List Byte).length = 0 := by
      unfold precLen
      split
      · rfl
      · exact Nat.zero_min _
    have hx : x - ((0 : Nat) : Int) = x := by omega
    rw [chars, h, h0, hx]
    rfl
  | k + 1, p, c :: s, prec, x, ⟨hc, hf, hs⟩, hk => by
    rw [List.length_cons] at hk
    have hint : int (int x - 1) = int (x - 1) := int_sub x 1
    rw [chars, hf]
    show (if c = 0 then _ else _) = _
    rw [if_neg hc, List.length_cons, hint]
    rcases lt_or_ge prec 0 with hneg | hpos
    · have hn : precLen prec (s.length + 1) = precLen prec s.length + 1 := by
        rw [precLen, precLen, if_pos hneg, if_pos hneg]
      have hx : x - 1 - (precLen prec s.length : Int) = x - ((precLen prec s.length + 1 : Nat) : Int) := by
        omega
      rw [if_pos hneg, chars_eq view alt k prec (x - 1) hs (by omega), hn, hx]
      rfl
    rw [if_neg (not_lt.mpr hpos)]
    rcases lt_or_ge (prec - 1) 0 with hlast | hmore
    · have h0 : precLen prec (s.length + 1) = 0 := by
        unfold precLen
        rw [if_neg (not_lt.mpr hpos)]
        omega
      have hx : x - ((0 : Nat) : Int) = x := by omega
      rw [if_neg (not_le.mpr hlast), h0, hx]
      rfl
    · have hn : precLen prec (s.length + 1) = precLen (prec - 1) s.length + 1 := by
        rw [precLen, precLen, if_neg (not_lt.mpr hpos), if_neg (not_lt.mpr hmore)]
        omega
      have hx : x - 1 - (precLen (prec - 1) s.length : Int) =
          x - ((precLen (prec - 1) s.length + 1 : Nat) : Int) := by
        omega
      rw [if_pos hmore, chars_eq view alt k (prec - 1) (x - 1) hs (by omega), hn, hx]
      rfl

/-! ### The directive -/

/-- A width or a precision: decimal digits, the zeros in front of them counted, or `*` with its
    argument. -/
inductive Num where
  | digits (zeros v : Nat)
  | star (w : Word)

def Num.text : Num → List Byte
  | .digits zeros v => List.replicate zeros (ch '0') ++ decimal v
  | .star _ => [ch '*']

def Num.args : Num → List Arg
  | .digits _ _ => []
  | .star w => [.word w]

/-- The number that is written. -/
def Num.value : Num → Int
  | .digits _ v => v
  | .star w => w.toInt

/-- The number is one that an `int` holds. -/
def Num.Fits (n : Num) : Prop := n.value < 2 ^ 31

/-- A `0` comes first. -/
def Num.zeroFirst : Num → Bool
  | .digits zeros v => 0 < zeros || v = 0
  | .star _ => false

/-- All digits are `0`. -/
def Num.allZeros : Num → Bool
  | .digits _ v => v = 0
  | .star _ => false

/-- The flags of the directive. -/
def stringFlags (minus : Bool) (w p : Option Num) : List Byte :=
  (if minus then [ch '-'] else []) ++
    (w.elim [] Num.text ++ p.elim [] fun n => ch '.' :: n.text)

def stringDirective (minus : Bool) (w p : Option Num) : List Byte :=
  ch '%' :: (stringFlags minus w p ++ [ch 's'])

/-- The arguments: those of `*`, and the string. -/
def stringArgs (w p : Option Num) (a : Word) : List Arg :=
  w.elim [] Num.args ++ (p.elim [] Num.args ++ [.word a])

/-- What a number sets `precision` to, where none is under way: `0` sets nothing. -/
def Num.got : Num → Int
  | .digits _ v => if v = 0 then -1 else int v
  | .star w => w.toInt

/-- `width` where the characters begin. -/
def startWidth (w p : Option Num) : Int :=
  let width := w.elim (-1) Num.got
  if p.isSome ∧ width < 0 then 0 else width

/-- `precision` where the characters begin. -/
def startPrecision (p : Option Num) : Int := p.elim (-1) Num.got

/-- `padc` where the characters begin. -/
def startPadc (minus : Bool) (w p : Option Num) : Int :=
  if w.any Num.zeroFirst ∨ p.any Num.zeroFirst then chr '0' else if minus then chr '-' else chr ' '

theorem isFlag_num (n : Num) : ∀ c ∈ n.text, isFlag c = true := by
  intro c hc
  rcases n with ⟨zeros, v⟩ | w
  · rcases List.mem_append.mp hc with hc | hc
    · rw [List.eq_of_mem_replicate hc]
      decide
    · exact isFlag_of_isDigit (isDigit_decimal v c hc)
  · rw [List.mem_singleton.mp hc]
    decide

theorem isFlag_stringFlags (minus : Bool) (w p : Option Num) :
    ∀ c ∈ stringFlags minus w p, isFlag c = true := by
  intro c hc
  rcases List.mem_append.mp hc with hc | hc
  · rcases minus with _ | _
    · exact absurd hc List.not_mem_nil
    · rw [List.mem_singleton.mp hc]
      decide
  rcases List.mem_append.mp hc with hc | hc
  · rcases w with _ | w
    · exact absurd hc List.not_mem_nil
    · exact isFlag_num w c hc
  · rcases p with _ | p
    · exact absurd hc List.not_mem_nil
    · rcases List.mem_cons.mp hc with rfl | hc
      · decide
      · exact isFlag_num p c hc

/-- Zeros where no number is under way. -/
theorem evalFlags_zeros (rest : List Byte) (args : List Arg) : ∀ (zeros : Nat) (s : Spec),
    evalFlags (List.replicate zeros (ch '0') ++ rest) s false args =
      evalFlags rest { s with padc := if 0 < zeros then chr '0' else s.padc } false args
  | 0, s => rfl
  | zeros + 1, s => by
    have hstep : evalFlags (List.replicate (zeros + 1) (ch '0') ++ rest) s false args =
        evalFlags (List.replicate zeros (ch '0') ++ rest) { s with padc := chr '0' } false args := rfl
    rw [hstep, evalFlags_zeros rest args zeros]
    dsimp only
    rw [ite_self, if_pos (Nat.succ_pos zeros)]

/-- The end of a number. -/
theorem evalFlags_end {rest : List Byte} (h : ∀ c ∈ rest.head?, isDigit c = false) (s : Spec)
    (args : List Arg) :
    evalFlags rest s true args = evalFlags rest s.processPrecision false args := by
  rcases rest with _ | ⟨c, rest⟩
  · rfl
  · have hflag : flag c s true args = flag c s.processPrecision false args := by
      unfold flag
      rw [h c rfl]
      rfl
    rw [evalFlags, evalFlags, hflag]

/-- What a number sets. -/
def Num.set (n : Num) (s : Spec) : Spec :=
  let s := { s with padc := if n.zeroFirst then chr '0' else s.padc }
  if n.allZeros then s else { s with precision := n.got }.processPrecision

theorem Num.got_of_allZeros {n : Num} (h : n.allZeros = true) : n.got = -1 := by
  rcases n with ⟨zeros, v⟩ | w
  · exact if_pos (of_decide_eq_true h)
  · exact absurd h Bool.false_ne_true

/-- The first number is the width. -/
theorem Num.set_width (n : Num) {s : Spec} (hw : s.width = -1) (hp : s.precision = -1) :
    n.set s = { s with
      width := n.got, padc := if n.zeroFirst then chr '0' else s.padc } := by
  unfold Num.set
  rcases hz : n.allZeros with _ | _
  · have hneg : s.width < 0 := by omega
    rw [if_neg Bool.false_ne_true, Spec.processPrecision, if_pos hneg]
    dsimp only
    rw [hp]
  · rw [if_pos rfl, got_of_allZeros hz, ← hw]

/-- The number behind the `.` is the precision. -/
theorem Num.set_precision (n : Num) {s : Spec} (hw : 0 ≤ s.width) (hp : s.precision = -1) :
    n.set s = { s with
      precision := n.got, padc := if n.zeroFirst then chr '0' else s.padc } := by
  unfold Num.set
  rcases hz : n.allZeros with _ | _
  · rw [if_neg Bool.false_ne_true, Spec.processPrecision, if_neg (not_lt.mpr hw)]
  · rw [if_pos rfl, got_of_allZeros hz, ← hp]

theorem evalFlags_num (n : Num) {rest : List Byte} (h : ∀ c ∈ rest.head?, isDigit c = false)
    (s : Spec) (args : List Arg) :
    evalFlags (n.text ++ rest) s false (n.args ++ args) = evalFlags rest (n.set s) false args := by
  rcases n with ⟨zeros, v⟩ | w
  · rw [Num.text, Num.args, List.nil_append, List.append_assoc, evalFlags_zeros]
    rcases Nat.eq_zero_or_pos v with rfl | hv
    · have h0 : evalFlags (decimal 0 ++ rest)
          { s with padc := if 0 < zeros then chr '0' else s.padc } false args =
          evalFlags rest { s with padc := chr '0' } false args := rfl
      rw [h0]
      simp [Num.set, Num.zeroFirst, Num.allZeros]
    · rw [evalFlags_decimal hv, evalFlags_end h]
      simp [Num.set, Num.zeroFirst, Num.allZeros, Num.got, hv.ne']
  · rfl

/-- The flags set `width`, `precision` and `padc`. -/
theorem evalFlags_string (minus : Bool) (w p : Option Num) (a : Word) :
    evalFlags (stringFlags minus w p) .init false (stringArgs w p a) =
      .ok (⟨startWidth w p, startPrecision p, 0, 0, startPadc minus w p⟩, [.word a]) := by
  -- The `-`, then the width, then the precision.
  let s₀ : Spec := { Spec.init with padc := if minus then chr '-' else chr ' ' }
  let s₁ : Spec := w.elim s₀ fun n => n.set s₀
  have h0 : evalFlags (stringFlags minus w p) .init false (stringArgs w p a) =
      evalFlags (w.elim [] Num.text ++ p.elim [] fun n => ch '.' :: n.text) s₀ false
        (stringArgs w p a) := by
    rcases minus with _ | _ <;> rfl
  have hhead : ∀ c ∈ (p.elim [] fun n => ch '.' :: n.text).head?, isDigit c = false := by
    rcases p with _ | p
    · exact nofun
    · intro c hc
      rw [← Option.mem_some.mp hc]
      decide
  have h1 : evalFlags (w.elim [] Num.text ++ p.elim [] fun n => ch '.' :: n.text) s₀ false
      (stringArgs w p a) =
      evalFlags (p.elim [] fun n => ch '.' :: n.text) s₁ false (p.elim [] Num.args ++ [.word a]) := by
    rcases w with _ | w
    · rfl
    · exact evalFlags_num w hhead s₀ _
  have hs₁ : s₁ = ⟨w.elim (-1) Num.got, -1, 0, 0,
      if w.any Num.zeroFirst then chr '0' else if minus then chr '-' else chr ' '⟩ := by
    rcases w with _ | w
    · rfl
    · exact w.set_width rfl rfl
  rw [h0, h1, hs₁]
  rcases p with _ | p
  · simp [evalFlags, startWidth, startPrecision, startPadc]
  · have hdot : ∀ (s : Spec) (args : List Arg), evalFlags (ch '.' :: p.text) s false args =
        evalFlags (p.text ++ []) { s with width := if s.width < 0 then 0 else s.width } false args := by
      intro s args
      rw [List.append_nil]
      rfl
    show evalFlags (ch '.' :: p.text) _ false (p.args ++ [.word a]) = _
    have hnil : ∀ c ∈ ([] : List Byte).head?, isDigit c = false := fun c hc =>
      absurd hc (Option.not_mem_none c)
    rw [hdot, evalFlags_num p hnil, evalFlags, if_neg Bool.false_ne_true]
    rcases lt_or_ge (w.elim (-1) Num.got) 0 with hlt | hge
    · rw [if_pos hlt, p.set_precision le_rfl rfl]
      rcases hz : p.zeroFirst with _ | _ <;>
      simp [startWidth, startPrecision, startPadc, hlt, hz]
    · rw [if_neg (not_lt.mpr hge), p.set_precision hge rfl]
      rcases hz : p.zeroFirst with _ | _ <;>
      simp [startWidth, startPrecision, startPadc, not_lt.mpr hge, hz]

/-! ### What comes out -/

theorem shown_plain (c : Byte) : shown 0 c = c.toInt := if_neg fun h => h.1 rfl

/-- Padding on both sides of the characters, as the `int` arithmetic has it. -/
theorem string_eq {view : View} {p : Ptr} {s : List Byte} (h : IsString view p s)
    (hlen : s.length < 2 ^ 32) {width prec : Int} (padc : Int) (hw : int width = width)
    (hp : -1 ≤ prec) (hp' : prec < 2 ^ 31) :
    string view ⟨width, prec, 0, 0, padc⟩ p =
      let m := precLen prec s.length
      let body := (s.take m).map BitVec.toInt
      .ok (if 0 < width ∧ padc ≠ chr '-' then
        pad (int (width - m)) padc ++ (body ++
          pad (if 0 < int (width - m) then int (0 - m) else int (width - m - m)) (chr ' '))
      else body ++ pad (int (width - m)) (chr ' ')) := by
  dsimp only
  have hbody : ∀ l : List Byte, l.map (shown 0) = l.map BitVec.toInt := fun l =>
    List.map_congr_left fun c _ => shown_plain c
  have hmin : min s.length (prec % 2 ^ 32).toNat = precLen prec s.length := by
    unfold precLen
    rcases lt_or_ge prec 0 with hneg | hpos
    · rw [if_pos hneg]
      omega
    · rw [if_neg (not_lt.mpr hpos)]
      omega
  have hchars := fun x => chars_eq view 0 (2 ^ 32) prec x h hlen
  generalize hm : precLen prec s.length = m at hmin hchars
  unfold string leftPad
  dsimp only
  rcases Classical.em (0 < width ∧ padc ≠ chr '-') with hleft | hright
  · have hint : int (width - int m) = int (width - m) := by
      unfold int
      omega
    have hrest : (if 0 < int (width - m) then 0 else int (width - m)) =
        int (if 0 < int (width - m) then 0 else width - m) := by
      split
      · rfl
      · rfl
    rw [if_pos hleft, if_pos hleft, strnlen_eq _ h, hmin]
    simp only [bind, Except.bind]
    rw [hint, hrest, hchars, hbody]
    dsimp only
    rw [List.append_assoc]
    rcases Classical.em (0 < int (width - m)) with hx | hx
    · rw [if_pos hx, if_pos hx]
    · rw [if_neg hx, if_neg hx]
  · rw [if_neg hright, if_neg hright]
    simp only [bind, Except.bind]
    rw [← hw, hchars, hbody, hw]
    rfl

theorem vaString_word {a : Word} (ha : a ≠ 0) (args : List Arg) :
    vaString (.word a :: args) = .ok (.mem a, args) := by
  rw [vaString, if_neg ha]

theorem vprintfmt_string (view : View) {a : Word} {q : Ptr} (h : vaString [.word a] = .ok (q, []))
    (minus : Bool) (w p : Option Num) :
    vprintfmt view (stringDirective minus w p) (stringArgs w p a) =
      string view ⟨startWidth w p, startPrecision p, 0, 0, startPadc minus w p⟩ q := by
  rw [vprintfmt, stringDirective, vprintfmtN_directive view 1 (isFlag_stringFlags minus w p) (by decide)
    (by decide), evalFlags_string]
  simp only [bind, Except.bind]
  rw [convert_string h]
  rcases string view _ q with e | out
  · rfl
  · rfl

/-! ### Against the reference -/

/-- The width that is asked for. -/
def widthOf (w : Option Num) : Int := w.elim 0 Num.value

/-- How many of `n` characters are asked for. -/
def lengthOf (p : Option Num) (n : Nat) : Nat := p.elim n fun q => min n q.value.toNat

/-- The reference text: at least `w` characters, with spaces on the right or on the left. -/
def paddedString (minus : Bool) (w : Int) (l : List Int) : List Int :=
  let spaces := List.replicate (w - l.length).toNat (chr ' ')
  if minus then l ++ spaces else spaces ++ l

theorem Num.value_ge (n : Num) : -2 ^ 31 ≤ n.value := by
  rcases n with ⟨zeros, v⟩ | w
  · have : (0 : Int) ≤ v := Int.natCast_nonneg v
    show -2 ^ 31 ≤ (v : Int)
    omega
  · exact BitVec.le_toInt w

theorem Num.got_of_not_allZeros {n : Num} (h : n.Fits) (hz : n.allZeros = false) :
    n.got = n.value := by
  rcases n with ⟨zeros, v⟩ | w
  · have hv : v ≠ 0 := of_decide_eq_false hz
    exact (if_neg hv).trans (int_of_range (Num.value_ge (.digits zeros v)) h)
  · rfl

theorem Num.value_of_allZeros {n : Num} (hz : n.allZeros = true) : n.value = 0 := by
  rcases n with ⟨zeros, v⟩ | w
  · exact congrArg Nat.cast (of_decide_eq_true hz : v = 0)
  · exact absurd hz Bool.false_ne_true

theorem Num.zeroFirst_of_allZeros {n : Num} (hz : n.allZeros = true) : n.zeroFirst = true := by
  rcases n with ⟨zeros, v⟩ | w
  · exact Bool.or_eq_true_iff.mpr (.inr hz)
  · exact absurd hz Bool.false_ne_true

/-- A positive width is taken over, and any other one pads nothing. -/
theorem startWidth_spec {w : Option Num} (hw : ∀ n ∈ w, n.Fits) (p : Option Num) :
    int (startWidth w p) = startWidth w p ∧ widthOf w < 2 ^ 31 ∧
      (startWidth w p = widthOf w ∨ startWidth w p ≤ 0 ∧ widthOf w ≤ 0) ∧
      (p.isSome → 0 ≤ startWidth w p) := by
  have hgot : -2 ^ 31 ≤ w.elim (-1) Num.got ∧ w.elim (-1) Num.got < 2 ^ 31 ∧ widthOf w < 2 ^ 31 ∧
      (w.elim (-1) Num.got = widthOf w ∨ w.elim (-1) Num.got ≤ 0 ∧ widthOf w ≤ 0) := by
    rcases w with _ | n
    · exact ⟨by decide, by decide, by decide, .inr ⟨by decide, by decide⟩⟩
    · have hn : n.value < 2 ^ 31 := hw n rfl
      show -2 ^ 31 ≤ n.got ∧ n.got < 2 ^ 31 ∧ n.value < 2 ^ 31 ∧
        (n.got = n.value ∨ n.got ≤ 0 ∧ n.value ≤ 0)
      rcases hz : n.allZeros with _ | _
      · rw [Num.got_of_not_allZeros hn hz]
        exact ⟨n.value_ge, hn, hn, .inl rfl⟩
      · rw [Num.got_of_allZeros hz, Num.value_of_allZeros hz]
        exact ⟨by decide, by decide, by decide, .inr ⟨by decide, le_rfl⟩⟩
  obtain ⟨h1, h2, h3, h4⟩ := hgot
  unfold startWidth
  dsimp only
  split
  · exact ⟨rfl, h3, by omega, fun _ => le_rfl⟩
  · exact ⟨int_of_range h1 h2, h3, h4, fun h => by simp_all⟩

theorem startPrecision_spec {p : Option Num} (hp : ∀ n ∈ p, 0 ≤ n.value ∧ n.Fits) :
    -1 ≤ startPrecision p ∧ startPrecision p < 2 ^ 31 ∧ ∀ n,
      precLen (startPrecision p) n = if p.any Num.allZeros then n else lengthOf p n := by
  rcases p with _ | q
  · exact ⟨by decide, by decide, fun n => rfl⟩
  · obtain ⟨h0, hfits⟩ := hp q rfl
    show -1 ≤ q.got ∧ q.got < 2 ^ 31 ∧ ∀ n, precLen q.got n = if q.allZeros = true then n else
      min n q.value.toNat
    rcases hz : q.allZeros with _ | _
    · have hlt : q.value < 2 ^ 31 := hfits
      rw [Num.got_of_not_allZeros hfits hz]
      refine ⟨by omega, hlt, fun n => ?_⟩
      rw [precLen, if_neg (not_lt.mpr h0), if_neg Bool.false_ne_true]
    · rw [Num.got_of_allZeros hz]
      exact ⟨by decide, by decide, fun n => rfl⟩

theorem pad_append_iff (x y c d : Int) (l : List Int) :
    pad x c ++ (l ++ pad y d) = l ↔ x ≤ 0 ∧ y ≤ 0 := by
  unfold pad
  constructor
  · intro h
    have hlen := congrArg List.length h
    rw [List.length_append, List.length_append, List.length_replicate, List.length_replicate] at hlen
    omega
  · rintro ⟨hx, hy⟩
    rw [Int.toNat_of_nonpos hx, Int.toNat_of_nonpos hy, List.replicate_zero, List.replicate_zero,
      List.append_nil, List.nil_append]

theorem append_pad_iff (y d : Int) (l : List Int) : l ++ pad y d = l ↔ y ≤ 0 := by
  have h := pad_append_iff 0 y d d l
  have h0 : pad 0 d = [] := rfl
  rw [h0, List.nil_append] at h
  rw [h]
  omega

/-- Zeros are no spaces. -/
theorem zeros_ne_spaces {x : Int} (hx : 0 < x) (y : Int) (k : Nat) (l : List Int) (minus : Bool) :
    pad x (chr '0') ++ (l ++ pad y (chr ' ')) ≠
      (let spaces := List.replicate k (chr ' ')
      if minus then l ++ spaces else spaces ++ l) := by
  intro h
  have hcount := congrArg (List.count (chr '0')) h
  have hne : ¬ chr ' ' = chr '0' := by decide
  unfold pad at hcount
  rcases minus with _ | _ <;>
  · simp [List.count_append, List.count_replicate, hne] at hcount
    omega

theorem map_toInt_eq_spaces {s : List Byte} {k : Nat} :
    s.map BitVec.toInt = List.replicate k (chr ' ') ↔ s = List.replicate k (ch ' ') := by
  have h : (List.replicate k (ch ' ')).map BitVec.toInt = List.replicate k (chr ' ') := by
    rw [List.map_replicate]
    rfl
  rw [← h]
  exact (List.map_injective_iff.mpr fun a b hab => BitVec.eq_of_toInt_eq hab).eq_iff

/-- The precision is given by zeros: what comes out is the whole string. -/
theorem whole_string_iff {s : List Byte} {w x : Int} (hlen : s.length < 2 ^ 32) (hw : w < 2 ^ 31)
    (hx : x = w ∨ x ≤ 0 ∧ w ≤ 0) (hx0 : 0 ≤ x) (minus : Bool) :
    (if 0 < x ∧ chr '0' ≠ chr '-' then
        pad (int (x - s.length)) (chr '0') ++ (s.map BitVec.toInt ++
          pad (if 0 < int (x - s.length) then int (0 - s.length)
            else int (x - s.length - s.length)) (chr ' '))
      else s.map BitVec.toInt ++ pad (int (x - s.length)) (chr ' ')) = paddedString minus w [] ↔
      s = List.replicate w.toNat (ch ' ') := by
  have hspec : paddedString minus w [] = List.replicate w.toNat (chr ' ') := by
    have h0 : w - ((0 : Nat) : Int) = w := by omega
    rw [paddedString, List.length_nil, h0]
    rcases minus with _ | _ <;> simp
  have hpre : ∀ y, s.map BitVec.toInt ++ pad y (chr ' ') = List.replicate w.toNat (chr ' ') →
      s.length ≤ w.toNat := by
    intro y h
    have hl := congrArg List.length h
    rw [List.length_append, List.length_map, List.length_replicate] at hl
    omega
  have hend : ∀ y, s.length = w.toNat → y ≤ 0 →
      (s.map BitVec.toInt ++ pad y (chr ' ') = List.replicate w.toNat (chr ' ') ↔
        s = List.replicate w.toNat (ch ' ')) := by
    intro y _ hy
    rw [pad, Int.toNat_of_nonpos hy, List.replicate_zero, List.append_nil, map_toInt_eq_spaces]
  rw [hspec]
  rcases lt_or_eq_of_le hx0 with hpos | hzero
  · rw [if_pos ⟨hpos, by decide⟩]
    have hxw : x = w := by omega
    subst hxw
    rcases lt_or_ge 0 (int (x - s.length)) with hlt | hge
    · -- Zeros come first.
      rw [if_pos hlt]
      refine iff_of_false (fun h => ?_) fun h => ?_
      · have hmem : chr '0' ∈ List.replicate x.toNat (chr ' ') :=
          h ▸ List.mem_append_left _ (List.mem_replicate.mpr ⟨by omega, rfl⟩)
        exact absurd (List.eq_of_mem_replicate hmem) (by decide)
      · have hl := congrArg List.length h
        rw [List.length_replicate] at hl
        unfold int at hlt
        omega
    · have hnil : pad (int (x - s.length)) (chr '0') = [] := by
        rw [pad, Int.toNat_of_nonpos hge, List.replicate_zero]
      rw [if_neg (not_lt.mpr hge), hnil, List.nil_append]
      have hy : s.length = x.toNat → int (x - s.length - s.length) ≤ 0 := by
        intro hl
        unfold int
        omega
      constructor
      · intro h
        have hl : s.length = x.toNat := by
          have := hpre _ h
          unfold int at hge
          omega
        exact (hend _ hl (hy hl)).mp h
      · intro h
        have hl : s.length = x.toNat := by rw [h, List.length_replicate]
        exact (hend _ hl (hy hl)).mpr h
  · have hw0 : w.toNat = 0 := by omega
    rw [← hzero, if_neg fun h => absurd h.1 (lt_irrefl 0)]
    have hy : s.length = w.toNat → int (0 - s.length) ≤ 0 := by
      intro hl
      unfold int
      omega
    constructor
    · intro h
      have hl : s.length = w.toNat := by
        have := hpre _ h
        omega
      exact (hend _ hl (hy hl)).mp h
    · intro h
      have hl : s.length = w.toNat := by rw [h, List.length_replicate]
      exact (hend _ hl (hy hl)).mpr h

/-- What is put out is what is asked for exactly when zeros in front of a number come with no padding,
    zeros alone as a precision come with a string of spaces that fills the width, and the arithmetic
    of a padding that is not needed does not wrap around to a positive number. -/
theorem formatString_iff {view : View} {a : Word} (ha : a ≠ 0) {s : List Byte}
    (hs : IsString view (.mem a) s) (minus : Bool) {w p : Option Num} (hw : ∀ n ∈ w, n.Fits)
    (hp : ∀ n ∈ p, 0 ≤ n.value ∧ n.Fits) :
    vprintfmt view (stringDirective minus w p) (stringArgs w p a) =
        .ok (paddedString minus (widthOf w) ((s.take (lengthOf p s.length)).map BitVec.toInt)) ↔
      if p.any Num.allZeros then s = List.replicate (widthOf w).toNat (ch ' ')
      else if (lengthOf p s.length : Int) < widthOf w then
        w.any Num.zeroFirst = false ∧ p.any Num.zeroFirst = false
      else int (startWidth w p - lengthOf p s.length) ≤ 0 ∧
        (0 < widthOf w → startPadc minus w p ≠ chr '-' →
          int (widthOf w - lengthOf p s.length - lengthOf p s.length) ≤ 0) := by
  have hlen := hs.length_lt
  obtain ⟨hint, hwlt, hx, hx0⟩ := startWidth_spec hw p
  obtain ⟨hp1, hp2, hprec⟩ := startPrecision_spec hp
  rw [vprintfmt_string view (vaString_word ha []), string_eq hs hlen _ hint hp1 hp2, hprec]
  dsimp only
  rw [Except.ok.injEq]
  rcases hz : p.any Num.allZeros with _ | _
  · rw [if_neg Bool.false_ne_true, if_neg Bool.false_ne_true]
    have hm : lengthOf p s.length ≤ s.length := by
      rcases p with _ | q
      · exact le_rfl
      · exact min_le_left _ _
    have hbody : ((s.take (lengthOf p s.length)).map BitVec.toInt).length = lengthOf p s.length := by
      rw [List.length_map, List.length_take]
      omega
    generalize (s.take (lengthOf p s.length)).map BitVec.toInt = body at hbody
    generalize lengthOf p s.length = m at *
    rcases lt_or_ge (m : Int) (widthOf w) with hlt | hge
    · -- Padding is needed.
      have hxw : startWidth w p = widthOf w := by omega
      have hpos : 0 < widthOf w - m := by omega
      have hpads : int (widthOf w - m) = widthOf w - m := int_of_range (by omega) (by omega)
      have hnone : int (0 - m) ≤ 0 := by
        unfold int
        omega
      rw [if_pos hlt, hxw, hpads, paddedString, hbody, if_pos hpos]
      unfold startPadc
      rcases hzero : decide (w.any Num.zeroFirst = true ∨ p.any Num.zeroFirst = true) with _ | _
      · have hzero := of_decide_eq_false hzero
        rw [if_neg hzero]
        refine iff_of_true ?_ ?_
        · rcases minus with _ | _
          · rw [if_neg Bool.false_ne_true, if_pos ⟨by omega, by decide⟩]
            have hback : body ++ pad (int (0 - m)) (chr ' ') = body := (append_pad_iff _ _ _).mpr hnone
            rw [hback]
            rfl
          · rw [if_pos rfl, if_neg fun h => h.2 rfl]
            rfl
        · rw [not_or] at hzero
          exact ⟨Bool.not_eq_true _ ▸ hzero.1, Bool.not_eq_true _ ▸ hzero.2⟩
      · have hzero := of_decide_eq_true hzero
        rw [if_pos hzero, if_pos ⟨by omega, by decide⟩]
        refine iff_of_false (zeros_ne_spaces hpos _ _ _ _) ?_
        rintro ⟨h1, h2⟩
        rcases hzero with h | h
        · exact absurd (h.symm.trans h1) (by decide)
        · exact absurd (h.symm.trans h2) (by decide)
    · -- Nothing is to be added.
      have hspec : paddedString minus (widthOf w) body = body := by
        have h0 : (widthOf w - body.length).toNat = 0 := by omega
        rw [paddedString, h0]
        rcases minus with _ | _
        · rfl
        · exact List.append_nil body
      rw [if_neg (not_lt.mpr hge), hspec]
      rcases Classical.em (0 < startWidth w p ∧ startPadc minus w p ≠ chr '-') with hleft | hright
      · have hxw : startWidth w p = widthOf w := by omega
        rw [if_pos hleft, pad_append_iff, hxw]
        constructor
        · rintro ⟨h1, h2⟩
          rw [if_neg (not_lt.mpr h1)] at h2
          exact ⟨h1, fun _ _ => h2⟩
        · rintro ⟨h1, h2⟩
          rw [if_neg (not_lt.mpr h1)]
          exact ⟨h1, h2 (by omega) hleft.2⟩
      · rw [if_neg hright, append_pad_iff]
        exact ⟨fun h => ⟨h, fun h1 h2 => absurd ⟨by omega, h2⟩ hright⟩, fun h => h.1⟩
  · -- The precision is lost.
    obtain ⟨q, rfl⟩ : ∃ q, p = some q := by
      rcases p with _ | q
      · exact absurd hz Bool.false_ne_true
      · exact ⟨q, rfl⟩
    have hq : q.allZeros = true := hz
    have hpadc : startPadc minus w (some q) = chr '0' := if_pos (.inr (Num.zeroFirst_of_allZeros hq))
    have hl : lengthOf (some q) s.length = 0 := by
      show min s.length q.value.toNat = 0
      rw [Num.value_of_allZeros hq]
      exact Nat.min_zero _
    rw [if_pos rfl, if_pos rfl, hpadc, hl, List.take_length, List.take_zero, List.map_nil]
    exact whole_string_iff hlen hwlt hx (hx0 rfl) minus

/-- `ab` at address 16. -/
def abView : View := fun a =>
  if a = 16 then some (ch 'a') else if a = 17 then some (ch 'b') else if a = 18 then some 0 else none

theorem isString_abView : IsString abView (.mem 16) (str "ab") :=
  ⟨by decide, rfl, by decide, rfl, rfl⟩

theorem formatString_iff_five_one :
    vprintfmt abView (stringDirective true (some (.digits 0 5)) (some (.digits 0 1)))
        (stringArgs (some (.digits 0 5)) (some (.digits 0 1)) 16) =
      .ok (paddedString true 5 [chr 'a']) := by
  have hw : ∀ n ∈ some (Num.digits 0 5), n.Fits := by
    rintro n ⟨rfl⟩
    exact (by decide : (5 : Int) < 2 ^ 31)
  have hp : ∀ n ∈ some (Num.digits 0 1), 0 ≤ n.value ∧ n.Fits := by
    rintro n ⟨rfl⟩
    exact ⟨by decide, (by decide : (1 : Int) < 2 ^ 31)⟩
  refine (formatString_iff (by decide) isString_abView true hw hp).mpr ?_
  rw [if_neg (by decide), if_pos (by decide)]
  exact ⟨rfl, rfl⟩

/-- `%.0s`: the `0` is taken for the flag, and the whole string comes out. -/
theorem precision_zero_ignored :
    vprintfmt abView (stringDirective false none (some (.digits 0 0)))
        (stringArgs none (some (.digits 0 0)) 16) ≠
      .ok (paddedString false 0
        (((str "ab").take (lengthOf (some (.digits 0 0)) 2)).map BitVec.toInt)) := by
  rw [vprintfmt_string _ (vaString_word (by decide) []),
    string_eq isString_abView (by decide) _ (by decide) (by decide) (by decide)]
  decide

end Fmt

end Jos
