import Jos.Mmu

/-!
  `vprintfmt` of `lib/printfmt.c`, as the sequence of the calls of `putch` that it makes.

  The format is a zipper: what was read of it, last byte first, and what is left, with the NUL at its
  end. Reading beyond the NUL or moving back before the first byte is a crash, and so are an index
  outside of `error_string` and an argument that is not there. Arguments lie on the stack as words.
  `int` arithmetic wraps around. -/

namespace Jos

namespace Fmt

inductive Crash where | overrun | badIndex | noArg | pageFault | forever
  deriving DecidableEq

/-- The byte at an address, if a page is mapped. -/
abbrev View := Word → Option Byte

/-- A character of a format. -/
def ch (c : Char) : Byte := BitVec.ofNat 8 c.toNat

/-- A character constant, which is an `int`. -/
def chr (c : Char) : Int := c.toNat

def str (s : String) : List Byte := s.toList.map ch

/-- The value of an `int`. -/
def int (x : Int) : Int := (x + 2 ^ 31) % 2 ^ 32 - 2 ^ 31

/-- A word on the stack, or the address of a string constant. -/
inductive Arg where
  | word (w : Word)
  | text (l : List Byte)

/-- `va_arg(ap, int)` and the like. -/
def vaWord : List Arg → Except Crash (Word × List Arg)
  | .word w :: args => .ok (w, args)
  | _ => .error .noArg

/-- `va_arg(ap, long long)`: the low word comes first. -/
def vaLong (args : List Arg) : Except Crash (BitVec 64 × List Arg) := do
  let (lo, args) ← vaWord args
  let (hi, args) ← vaWord args
  .ok (hi ++ lo, args)

/-! ### Flags -/

/-- The variables that a directive sets. -/
structure Spec where
  width : Int
  precision : Int
  lflag : Int
  altflag : Int
  padc : Int

def Spec.init : Spec := ⟨-1, -1, 0, 0, chr ' '⟩

/-- `process_precision`. -/
def Spec.processPrecision (s : Spec) : Spec :=
  if s.width < 0 then { s with width := s.precision, precision := -1 } else s

/-- `precision = precision * 10 + ch - '0'` -/
def Spec.digit (s : Spec) (c : Byte) : Spec :=
  { s with precision := int (s.precision * 10 + c.toNat - chr '0') }

def isDigit (c : Byte) : Bool := ch '0' ≤ c && c ≤ ch '9'

/-- The characters after which `reswitch` goes on. -/
def isFlag (c : Byte) : Bool :=
  isDigit c || c = ch '-' || c = ch '*' || c = ch '.' || c = ch '#' || c = ch 'l'

/-- The cases of the switch that end with `goto reswitch`. `digits` tells whether the loop over the
    digits of a number is under way. -/
def flag (c : Byte) (s : Spec) (digits : Bool) (args : List Arg) :
    Except Crash (Spec × Bool × List Arg) :=
  if digits && isDigit c then .ok (s.digit c, true, args)
  else
    let s := if digits then s.processPrecision else s
    if c = ch '-' then .ok ({ s with padc := chr '-' }, false, args)
    else if c = ch '0' then .ok ({ s with padc := chr '0' }, false, args)
    else if isDigit c then .ok ({ s with precision := 0 }.digit c, true, args)
    else if c = ch '*' then do
      let (w, args) ← vaWord args
      .ok ({ s with precision := w.toInt }.processPrecision, false, args)
    else if c = ch '.' then .ok ({ s with width := if s.width < 0 then 0 else s.width }, false, args)
    else if c = ch '#' then .ok ({ s with altflag := 1 }, false, args)
    else .ok ({ s with lflag := int (s.lflag + 1) }, false, args)

/-- Where the switch comes to a character that is no flag. -/
structure Found where
  ch : Byte
  before : List Byte
  after : List Byte
  spec : Spec
  args : List Arg

/-- `reswitch` -/
def reswitch : List Byte → List Byte → Spec → Bool → List Arg → Except Crash Found
  | _, [], _, _, _ => .error .overrun
  | before, c :: after, s, digits, args =>
    if isFlag c then do
      let (s, digits, args) ← flag c s digits args
      reswitch (c :: before) after s digits args
    else .ok ⟨c, c :: before, after, if digits then s.processPrecision else s, args⟩

/-! ### Strings -/

inductive Ptr where
  | mem (a : Word)
  | text (l : List Byte)

def Ptr.next : Ptr → Ptr
  | .mem a => .mem (a + 1)
  | .text l => .text l.tail

def fetch (view : View) : Ptr → Except Crash Byte
  | .mem a => match view a with
    | some c => .ok c
    | none => .error .pageFault
  | .text l => .ok (l.headD 0)

/-- `va_arg(ap, char *)`, or `"(null)"` for a null pointer. -/
def vaString : List Arg → Except Crash (Ptr × List Arg)
  | .word w :: args => .ok (if w = 0 then .text (str "(null)") else .mem w, args)
  | .text l :: args => .ok (.text l, args)
  | [] => .error .noArg

def strnlen (view : View) : Nat → Ptr → Except Crash Nat
  | 0, _ => .ok 0
  | k + 1, p => do
    let c ← fetch view p
    if c = 0 then .ok 0
    else
      let n ← strnlen view k p.next
      .ok (n + 1)

/-- With the `#` flag, `?` for a character that does not print. -/
def shown (altflag : Int) (c : Byte) : Int :=
  if altflag ≠ 0 ∧ (c.toInt < chr ' ' ∨ chr '~' < c.toInt) then chr '?' else c.toInt

/-- The loop over the characters, and `width` after it. In `2 ^ 32` characters the pointer comes
    round. -/
def chars (view : View) (altflag : Int) : Nat → Ptr → Int → Int → Except Crash (List Int × Int)
  | 0, _, _, _ => .error .forever
  | k + 1, p, precision, width => do
    let c ← fetch view p
    if c = 0 then .ok ([], width)
    else if precision < 0 then
      let (out, width) ← chars view altflag k p.next precision (int (width - 1))
      .ok (shown altflag c :: out, width)
    else if 0 ≤ precision - 1 then
      let (out, width) ← chars view altflag k p.next (precision - 1) (int (width - 1))
      .ok (shown altflag c :: out, width)
    else .ok ([], width)

/-- `while (width-- > 0) putch(padc)` and its like. -/
def pad (width : Int) (padc : Int) : List Int := List.replicate width.toNat padc

/-- The padding on the left, and `width` after it. -/
def leftPad (view : View) (s : Spec) (p : Ptr) : Except Crash (List Int × Int) :=
  if 0 < s.width ∧ s.padc ≠ chr '-' then do
    let n ← strnlen view (s.precision % 2 ^ 32).toNat p
    let width := int (s.width - int n)
    .ok (pad width s.padc, if 0 < width then 0 else width)
  else .ok ([], s.width)

/-- `%s` -/
def string (view : View) (s : Spec) (p : Ptr) : Except Crash (List Int) := do
  let (left, width) ← leftPad view s p
  let (body, width) ← chars view s.altflag (2 ^ 32) p s.precision width
  .ok (left ++ body ++ pad width (chr ' '))

/-! ### Numbers -/

/-- `"0123456789abcdef"[d]` -/
def digit (d : Nat) : Int := chr ("0123456789abcdef".toList.getD d '0')

/-- `printnum`. The base is 8, 10 or 16. -/
def printnum (num base : Nat) (width padc : Int) : List Int :=
  if _h : 2 ≤ base ∧ base ≤ num then
    printnum (num / base) base (int (width - 1)) padc ++ [digit (num % base)]
  else pad (int (width - 1)) padc ++ [digit (num % base)]
termination_by num
decreasing_by exact Nat.div_lt_self (by omega) (by omega)

/-- `getuint`. `long` has the size of `int`. -/
def getuint (args : List Arg) (lflag : Int) : Except Crash (BitVec 64 × List Arg) :=
  if 2 ≤ lflag then vaLong args
  else do
    let (w, args) ← vaWord args
    .ok (w.setWidth 64, args)

/-- `getint` -/
def getint (args : List Arg) (lflag : Int) : Except Crash (BitVec 64 × List Arg) :=
  if 2 ≤ lflag then vaLong args
  else do
    let (w, args) ← vaWord args
    .ok (w.signExtend 64, args)

/-- The sign of a number as it is put out, and its magnitude. -/
def signed (num : BitVec 64) : List Int × BitVec 64 :=
  if num.toInt < 0 then ([chr '-'], -num) else ([], num)

/-! ### Directives -/

def maxerror : Int := 9

/-- `error_string` -/
def errorString : List (Option (List Byte)) :=
  [none, some (str "unspecified error"), some (str "bad environment"),
    some (str "invalid parameter"), some (str "out of memory"), some (str "out of environments"),
    some (str "segmentation fault"), some (str "env is not recving"),
    some (str "unexpected end of file")]

/-- `err` of `%e`. -/
def errOf (w : Word) : Int := if w.toInt < 0 then int (-w.toInt) else w.toInt

/-- `%e`, with `nested` for the calls of `printfmt`. -/
def errorText (nested : List Byte → List Arg → Except Crash (List Int)) (err : Int) :
    Except Crash (List Int) :=
  if maxerror ≤ err then nested (str "error %d") [.word (BitVec.ofInt 32 err)]
  else if err < 0 then .error .badIndex
  else match errorString.getD err.toNat none with
    | none => nested (str "error %d") [.word (BitVec.ofInt 32 err)]
    | some text => nested (str "%s") [.text text]

/-- The conversions. -/
def isConv (c : Byte) : Bool :=
  c = ch 'c' || c = ch 'e' || c = ch 's' || c = ch 'd' || c = ch 'u' || c = ch 'o' || c = ch 'p' ||
    c = ch 'x' || c = ch '%'

/-- The cases of the switch for the conversions. -/
def convert (nested : List Byte → List Arg → Except Crash (List Int)) (view : View) (c : Byte)
    (s : Spec) (args : List Arg) : Except Crash (List Int × List Arg) :=
  if c = ch 'c' then do
    let (w, args) ← vaWord args
    .ok ([w.toInt], args)
  else if c = ch 'e' then do
    let (w, args) ← vaWord args
    let out ← errorText nested (errOf w)
    .ok (out, args)
  else if c = ch 's' then do
    let (p, args) ← vaString args
    let out ← string view s p
    .ok (out, args)
  else if c = ch 'd' then do
    let (num, args) ← getint args s.lflag
    .ok ((signed num).1 ++ printnum (signed num).2.toNat 10 s.width s.padc, args)
  else if c = ch 'u' then do
    let (num, args) ← getuint args s.lflag
    .ok (printnum num.toNat 10 s.width s.padc, args)
  else if c = ch 'o' then do
    let (num, args) ← getint args s.lflag
    .ok ((signed num).1 ++ printnum (signed num).2.toNat 8 s.width s.padc, args)
  else if c = ch 'p' then do
    let (w, args) ← vaWord args
    .ok (chr '0' :: chr 'x' :: printnum w.toNat 16 s.width s.padc, args)
  else if c = ch 'x' then do
    let (num, args) ← getuint args s.lflag
    .ok (printnum num.toNat 16 s.width s.padc, args)
  else .ok ([c.toNat], args)

theorem convert_string {nested : List Byte → List Arg → Except Crash (List Int)} {view : View}
    {s : Spec} {args args' : List Arg} {p : Ptr} (h : vaString args = .ok (p, args')) :
    convert nested view (ch 's') s args = (do
      let out ← string view s p
      .ok (out, args')) := by
  show (do
    let (p, args) ← vaString args
    let out ← string view s p
    Except.ok (out, args)) = _
  rw [h]
  rfl

/-- `for (; fmt[-1] != '%'; fmt--)` -/
def rewindLoop : List Byte → List Byte → Except Crash (List Byte × List Byte)
  | [], _ => .error .overrun
  | c :: before, after =>
    if c = ch '%' then .ok (c :: before, after) else rewindLoop before (c :: after)

/-- `for (fmt--; fmt[-1] != '%'; fmt--)` -/
def rewind : List Byte → List Byte → Except Crash (List Byte × List Byte)
  | [], _ => .error .overrun
  | c :: before, after => rewindLoop before (c :: after)

/-- The outer loop of `vprintfmt`, at most `fuel` times. -/
def loop (nested : List Byte → List Arg → Except Crash (List Int)) (view : View) :
    Nat → List Byte → List Byte → List Arg → Except Crash (List Int)
  | 0, _, _, _ => .error .forever
  | _ + 1, _, [], _ => .error .overrun
  | fuel + 1, before, c :: after, args =>
    if c ≠ ch '%' then
      if c = 0 then .ok []
      else do
        let out ← loop nested view fuel (c :: before) after args
        .ok ((c.toNat : Int) :: out)
    else do
      let f ← reswitch (c :: before) after .init false args
      if isConv f.ch then
        let (out, args) ← convert nested view f.ch f.spec f.args
        let rest ← loop nested view fuel f.before f.after args
        .ok (out ++ rest)
      else
        let (before, after) ← rewind f.before f.after
        let rest ← loop nested view fuel before after f.args
        .ok (chr '%' :: rest)

/-- `vprintfmt`, with at most `depth` calls of itself under way. -/
def vprintfmtN (view : View) : Nat → List Byte → List Arg → Except Crash (List Int)
  | 0, _, _ => .error .forever
  | depth + 1, fmt, args =>
    loop (vprintfmtN view depth) view (fmt.length + 1) [] (fmt ++ [0]) args

/-- `vprintfmt`. The formats that `%e` prints with have no `%e` in them. -/
def vprintfmt (view : View) (fmt : List Byte) (args : List Arg) : Except Crash (List Int) :=
  vprintfmtN view 2 fmt args

end Fmt

end Jos
