import Jos.FormatString
import Mathlib.Data.List.Forall2

/-!
  A format that is given the arguments it asks for is scanned to its end.

  Only the number of `%e` can lead out of the tables: the smallest `int` is its own negation. -/

namespace Jos

namespace Fmt

/-! ### Arguments -/

/-- What a directive takes from the stack. -/
inductive Kind where | word | err | string
  deriving DecidableEq

/-- An argument of a kind. A string ends with a NUL, and 0 is the null pointer. -/
def Suits (view : View) : Kind → Arg → Prop
  | .string, .word a => a = 0 ∨ ∃ s, IsString view (.mem a) s
  | .string, .text l => ∃ s, IsString view (.text l) s ∧ s.length < 2 ^ 32
  | _, .word _ => True
  | _, .text _ => False

/-- What a conversion takes. -/
def convKinds (long : Prop) [Decidable long] (c : Byte) : List Kind :=
  if c = ch 'c' ∨ c = ch 'p' then [.word]
  else if c = ch 'e' then [.err]
  else if c = ch 's' then [.string]
  else if c = ch 'd' ∨ c = ch 'u' ∨ c = ch 'o' ∨ c = ch 'x' then
    if long then [.word, .word] else [.word]
  else []

/-- What the flags of a directive and its conversion take: a word for each `*`. With two `l` a number
    has two words. -/
def Item.kinds : Item → List Kind
  | .lit _ => []
  | .conv fl c => List.replicate (fl.count (ch '*')) .word ++
      convKinds (2 ≤ int (fl.count (ch 'l'))) c
  | .bad fl _ => List.replicate (fl.count (ch '*')) .word

/-- What a format takes. -/
def kinds (fmt : List Byte) : List Kind := (parse none fmt).flatMap Item.kinds

/-! ### The parts of a format -/

/-- A part as it is written. -/
def Item.text : Item → List Byte
  | .lit c => [c]
  | .conv fl c => ch '%' :: (fl ++ [c])
  | .bad fl c => ch '%' :: (fl ++ c.toList)

def Item.flags : Item → List Byte
  | .lit _ => []
  | .conv fl _ => fl
  | .bad fl _ => fl

/-- The parts make up the format. -/
theorem parse_text : ∀ (l : List Byte) (st : Option (List Byte)),
    (parse st l).flatMap Item.text = st.elim [] (fun fl => ch '%' :: fl) ++ l
  | [], none => rfl
  | [], some fl => by simp [parse, Item.text]
  | c :: l, none => by
    rw [parse]
    split
    · rename_i hc
      rw [parse_text l, hc]
      rfl
    · rw [List.flatMap_cons, parse_text l]
      rfl
  | c :: l, some fl => by
    rw [parse]
    split
    · rw [parse_text l]
      simp
    split
    · rw [List.flatMap_cons, parse_text l]
      simp [Item.text]
    · rw [List.flatMap_cons, parse_text l]
      simp [Item.text]

theorem parse_flags : ∀ (l : List Byte) (st : Option (List Byte)),
    (∀ fl ∈ st, ∀ x ∈ fl, isFlag x = true) → ∀ item ∈ parse st l, ∀ x ∈ item.flags, isFlag x = true
  | [], none, _, item, hi => absurd hi List.not_mem_nil
  | [], some fl, h, item, hi => by
    rw [List.mem_singleton.mp hi]
    exact h fl rfl
  | c :: l, none, h, item, hi => by
    rw [parse] at hi
    split at hi
    · refine parse_flags l _ (fun fl hfl => ?_) item hi
      rw [← Option.mem_some.mp hfl]
      exact fun x hx => absurd hx List.not_mem_nil
    · rcases List.mem_cons.mp hi with rfl | hi
      · exact fun x hx => absurd hx List.not_mem_nil
      · exact parse_flags l none h item hi
  | c :: l, some fl, h, item, hi => by
    have hnone : ∀ fl ∈ (none : Option (List Byte)), ∀ x ∈ fl, isFlag x = true := fun fl hfl =>
      absurd hfl (Option.not_mem_none fl)
    rw [parse] at hi
    split at hi
    · rename_i hc
      refine parse_flags l _ (fun fl' hfl' => ?_) item hi
      rw [← Option.mem_some.mp hfl']
      intro x hx
      rcases List.mem_append.mp hx with hx | hx
      · exact h fl rfl x hx
      · exact List.mem_singleton.mp hx ▸ hc
    split at hi
    · rcases List.mem_cons.mp hi with rfl | hi
      · exact h fl rfl
      · exact parse_flags l none hnone item hi
    · rcases List.mem_cons.mp hi with rfl | hi
      · exact h fl rfl
      · exact parse_flags l none hnone item hi

/-! ### Flags -/

theorem processPrecision_lflag (s : Spec) : s.processPrecision.lflag = s.lflag := by
  unfold Spec.processPrecision
  split <;> rfl

theorem flag_star (s : Spec) (digits : Bool) (w : Word) (args : List Arg) :
    ∃ t d, flag (ch '*') s digits (.word w :: args) = .ok (t, d, args) ∧ t.lflag = s.lflag := by
  rcases digits with _ | _
  · exact ⟨_, _, rfl, processPrecision_lflag _⟩
  · exact ⟨_, _, rfl, (processPrecision_lflag _).trans (processPrecision_lflag s)⟩

/-- The other flags take no argument. -/
theorem flag_other {c : Byte} (hc : c ≠ ch '*') (hf : isFlag c = true) (s : Spec) (digits : Bool)
    (args : List Arg) : ∃ t d, flag c s digits args = .ok (t, d, args) ∧
      t.lflag = if c = ch 'l' then int (s.lflag + 1) else s.lflag := by
  have hdl : isDigit c = true → c ≠ ch 'l' := by
    rintro h rfl
    exact absurd h (by decide)
  have hs : (if digits then s.processPrecision else s).lflag = s.lflag := by
    rcases digits with _ | _
    · rfl
    · exact processPrecision_lflag s
  rw [flag]
  dsimp only
  generalize (if digits then s.processPrecision else s) = s' at hs
  rw [← hs]
  split
  · rename_i h
    refine ⟨_, _, rfl, ?_⟩
    rw [if_neg (hdl (Bool.and_eq_true_iff.mp h).2), hs]
    rfl
  split
  · rename_i h
    exact ⟨_, _, rfl, (if_neg (h ▸ by decide)).symm⟩
  split
  · rename_i h
    exact ⟨_, _, rfl, (if_neg (h ▸ by decide)).symm⟩
  split
  · rename_i h
    exact ⟨_, _, rfl, (if_neg (hdl h)).symm⟩
  split
  · rename_i h
    exact ⟨_, _, rfl, (if_neg (h ▸ by decide)).symm⟩
  split
  · rename_i h
    exact ⟨_, _, rfl, (if_neg (h ▸ by decide)).symm⟩
  · have hl : c = ch 'l' := by simp_all [isFlag]
    exact ⟨_, _, rfl, (if_pos hl).symm⟩

/-- Flags with a word for each `*`. -/
theorem evalFlags_stars {view : View} (extra : List Arg) : ∀ {fl : List Byte} {args : List Arg}
    (s : Spec) (digits : Bool), (∀ x ∈ fl, isFlag x = true) → int s.lflag = s.lflag →
      List.Forall₂ (Suits view) (List.replicate (fl.count (ch '*')) .word) args →
      ∃ t, evalFlags fl s digits (args ++ extra) = .ok (t, extra) ∧
        t.lflag = int (s.lflag + fl.count (ch 'l'))
  | [], args, s, digits, _, hs, hargs => by
    have h0 : s.lflag + ((([] : List Byte).count (ch 'l') : Nat) : Int) = s.lflag := by simp
    rw [List.forall₂_nil_left_iff.mp hargs, h0, hs, evalFlags]
    refine ⟨_, rfl, ?_⟩
    rcases digits with _ | _
    · rfl
    · exact processPrecision_lflag s
  | c :: fl, args, s, digits, hfl, hs, hargs => by
    have hfl' : ∀ x ∈ fl, isFlag x = true := fun x hx => hfl x (List.mem_cons_of_mem _ hx)
    rcases eq_or_ne c (ch '*') with rfl | hc
    · rw [List.count_cons_self, List.replicate_succ] at hargs
      obtain ⟨a, rest, ha, hrest, rfl⟩ := List.forall₂_cons_left_iff.mp hargs
      obtain ⟨w, rfl⟩ : ∃ w, a = .word w := by
        rcases a with w | l
        · exact ⟨w, rfl⟩
        · exact ha.elim
      obtain ⟨t, d, hflag, ht⟩ := flag_star s digits w (rest ++ extra)
      obtain ⟨t', h', ht'⟩ := evalFlags_stars extra t d hfl' (by rw [ht, hs]) hrest
      refine ⟨t', ?_, ?_⟩
      · rw [List.cons_append, evalFlags, hflag]
        exact h'
      · rw [ht', ht, List.count_cons_of_ne (by decide)]
    · rw [List.count_cons_of_ne hc] at hargs
      obtain ⟨t, d, hflag, ht⟩ := flag_other hc (hfl c List.mem_cons_self) s digits (args ++ extra)
      have hcount : int (t.lflag + fl.count (ch 'l')) = int (s.lflag + (c :: fl).count (ch 'l')) ∧
          int t.lflag = t.lflag := by
        rw [ht]
        rcases eq_or_ne c (ch 'l') with rfl | hl
        · rw [if_pos rfl, List.count_cons_self]
          unfold int
          omega
        · rw [if_neg hl, List.count_cons_of_ne hl]
          exact ⟨rfl, hs⟩
      obtain ⟨t', h', ht'⟩ := evalFlags_stars extra t d hfl' hcount.2 hargs
      refine ⟨t', ?_, ht'.trans hcount.1⟩
      rw [evalFlags, hflag]
      exact h'

/-! ### Conversions -/

/-- The loop over the characters comes to its end. -/
theorem chars_ok {view : View} (alt : Int) : ∀ (k : Nat) {p : Ptr} {s : List Byte} (prec width : Int),
    IsString view p s → s.length < k → ∃ r, chars view alt k p prec width = .ok r
  | 0, _, _, _, _, _, hk => absurd hk (Nat.not_lt_zero _)
  | k + 1, p, [], prec, width, h, _ => by
    rw [chars, h]
    exact ⟨_, rfl⟩
  | k + 1, p, c :: s, prec, width, ⟨hc, hf, hs⟩, hk => by
    rw [List.length_cons] at hk
    rw [chars, hf]
    show ∃ r, (if c = 0 then _ else _) = Except.ok r
    rw [if_neg hc]
    split
    · obtain ⟨r, hr⟩ := chars_ok alt k prec (int (width - 1)) hs (by omega)
      rw [hr]
      exact ⟨_, rfl⟩
    split
    · obtain ⟨r, hr⟩ := chars_ok alt k (prec - 1) (int (width - 1)) hs (by omega)
      rw [hr]
      exact ⟨_, rfl⟩
    · exact ⟨_, rfl⟩

theorem string_ok {view : View} {p : Ptr} {s : List Byte} (h : IsString view p s)
    (hlen : s.length < 2 ^ 32) (t : Spec) : ∃ out, string view t p = .ok out := by
  obtain ⟨l, hl⟩ : ∃ l, leftPad view t p = .ok l := by
    unfold leftPad
    split
    · rw [strnlen_eq _ h]
      exact ⟨_, rfl⟩
    · exact ⟨_, rfl⟩
  obtain ⟨r, hr⟩ := chars_ok t.altflag (2 ^ 32) t.precision l.2 h hlen
  refine ⟨l.1 ++ r.1 ++ pad r.2 (chr ' '), ?_⟩
  unfold string
  rw [hl]
  simp only [bind, Except.bind]
  rw [hr]

section

variable (nested : List Byte → List Arg → Except Crash (List Int)) (view : View)

/-- An argument that its conversion can use: `%e` has a text for it. -/
def Good (k : Kind) (a : Arg) : Prop :=
  Suits view k a ∧ ∀ w, k = .err → a = .word w → ∃ out, errorText nested (errOf w) = .ok out

theorem convert_e (s : Spec) (args : List Arg) : convert nested view (ch 'e') s args = (do
    let (w, args) ← vaWord args
    let out ← errorText nested (errOf w)
    .ok (out, args)) := rfl

end

variable {nested : List Byte → List Arg → Except Crash (List Int)} {view : View}
  (extra : List Arg)

theorem suits_word {a : Arg} (h : Suits view .word a) : ∃ w, a = .word w := by
  rcases a with w | l
  · exact ⟨w, rfl⟩
  · exact h.elim

theorem suits_err {a : Arg} (h : Suits view .err a) : ∃ w, a = .word w := by
  rcases a with w | l
  · exact ⟨w, rfl⟩
  · exact h.elim

/-- Only `%e` asks more of its argument than to be of the right kind. -/
theorem good_of_no_err {ks : List Kind} {args : List Arg} (hks : .err ∉ ks)
    (h : List.Forall₂ (Suits view) ks args) : List.Forall₂ (Good nested view) ks args := by
  have hne : ∀ k ∈ ks, k ≠ .err := by
    rintro k hmem rfl
    exact hks hmem
  refine ((List.forall₂_and_left _ _).mpr ⟨hne, h⟩).imp ?_
  rintro k a ⟨hk, ha⟩
  exact ⟨ha, fun w hw => absurd hw hk⟩

/-- What `va_arg(ap, char *)` finds. -/
theorem vaString_ok {a : Arg} (h : Suits view .string a) (args : List Arg) :
    ∃ p s, vaString (a :: args) = .ok (p, args) ∧ IsString view p s ∧ s.length < 2 ^ 32 := by
  rcases a with w | l
  · rcases eq_or_ne w 0 with rfl | hw
    · exact ⟨_, str "(null)", rfl, isString_text view (by decide), by decide⟩
    · rcases h with h | ⟨s, hs⟩
      · exact absurd h hw
      · exact ⟨.mem w, s, vaString_word hw args, hs, hs.length_lt⟩
  · obtain ⟨s, hs, hlen⟩ := h
    exact ⟨_, s, rfl, hs, hlen⟩

/-- The words of a number. -/
theorem number_args {lflag : Int} {args : List Arg}
    (h : List.Forall₂ (Good nested view) (if 2 ≤ lflag then [.word, .word] else [.word]) args) :
    (∃ num, getint (args ++ extra) lflag = .ok (num, extra)) ∧
      ∃ num, getuint (args ++ extra) lflag = .ok (num, extra) := by
  unfold getint getuint
  split at h
  · rename_i hl
    obtain ⟨a, rest, ha, hrest, rfl⟩ := List.forall₂_cons_left_iff.mp h
    obtain ⟨b, rest', hb, hrest', rfl⟩ := List.forall₂_cons_left_iff.mp hrest
    rw [List.forall₂_nil_left_iff.mp hrest', if_pos hl, if_pos hl]
    obtain ⟨v, rfl⟩ := suits_word ha.1
    obtain ⟨w, rfl⟩ := suits_word hb.1
    exact ⟨⟨_, rfl⟩, ⟨_, rfl⟩⟩
  · rename_i hl
    obtain ⟨a, rest, ha, hrest, rfl⟩ := List.forall₂_cons_left_iff.mp h
    rw [List.forall₂_nil_left_iff.mp hrest, if_neg hl, if_neg hl]
    obtain ⟨v, rfl⟩ := suits_word ha.1
    exact ⟨⟨_, rfl⟩, ⟨_, rfl⟩⟩

/-- A conversion that gets its arguments takes them and puts something out. -/
theorem convert_ok {s : Spec} {c : Byte} {args : List Arg}
    (h : List.Forall₂ (Good nested view) (convKinds (2 ≤ s.lflag) c) args) :
    ∃ out, convert nested view c s (args ++ extra) = .ok (out, extra) := by
  unfold convKinds at h
  split at h
  · rename_i hc
    obtain ⟨a, rest, ha, hrest, rfl⟩ := List.forall₂_cons_left_iff.mp h
    rw [List.forall₂_nil_left_iff.mp hrest]
    obtain ⟨w, rfl⟩ := suits_word ha.1
    rcases hc with rfl | rfl
    · exact ⟨_, rfl⟩
    · exact ⟨_, rfl⟩
  split at h
  · rename_i hc
    subst hc
    obtain ⟨a, rest, ha, hrest, rfl⟩ := List.forall₂_cons_left_iff.mp h
    rw [List.forall₂_nil_left_iff.mp hrest]
    obtain ⟨w, rfl⟩ := suits_err ha.1
    obtain ⟨out, hout⟩ := ha.2 w rfl rfl
    refine ⟨out, ?_⟩
    rw [convert_e, List.singleton_append, vaWord]
    simp only [bind, Except.bind]
    rw [hout]
  split at h
  · rename_i hc
    subst hc
    obtain ⟨a, rest, ha, hrest, rfl⟩ := List.forall₂_cons_left_iff.mp h
    rw [List.forall₂_nil_left_iff.mp hrest]
    obtain ⟨p, t, hp, ht, hlen⟩ := vaString_ok ha.1 extra
    obtain ⟨out, hout⟩ := string_ok ht hlen s
    refine ⟨out, ?_⟩
    rw [List.singleton_append, convert_string hp, hout]
    rfl
  split at h
  · rename_i hc
    obtain ⟨⟨m, hm⟩, ⟨n, hn⟩⟩ := number_args extra h
    rcases hc with rfl | rfl | rfl | rfl
    · exact ⟨_, by rw [← NumConv.char.eq_1, convert_d, hm]; rfl⟩
    · exact ⟨_, by rw [← NumConv.char.eq_2, convert_u, hn]; rfl⟩
    · exact ⟨_, by rw [← NumConv.char.eq_3, convert_o, hm]; rfl⟩
    · exact ⟨_, by rw [← NumConv.char.eq_4, convert_x, hn]; rfl⟩
  · -- `%%`
    rename_i h1 h2 h3 h4
    rw [not_or] at h1
    rw [not_or, not_or, not_or] at h4
    rw [List.forall₂_nil_left_iff.mp h, convert, if_neg h1.1, if_neg h2, if_neg h3, if_neg h4.1,
      if_neg h4.2.1, if_neg h4.2.2.1, if_neg h1.2, if_neg h4.2.2.2]
    exact ⟨_, rfl⟩

/-- A conversion that works out had arguments that it can use. -/
theorem good_of_convert {s : Spec} {c : Byte} {long : Prop} [Decidable long] {args : List Arg}
    (h : List.Forall₂ (Suits view) (convKinds long c) args) {r : List Int × List Arg}
    (hr : convert nested view c s (args ++ extra) = .ok r) :
    List.Forall₂ (Good nested view) (convKinds long c) args := by
  rcases eq_or_ne c (ch 'e') with rfl | hc
  · have hk : convKinds long (ch 'e') = [.err] := rfl
    rw [hk] at h ⊢
    obtain ⟨a, rest, ha, hrest, rfl⟩ := List.forall₂_cons_left_iff.mp h
    rw [List.forall₂_nil_left_iff.mp hrest] at hr ⊢
    refine .cons ⟨ha, ?_⟩ .nil
    rintro w - rfl
    rw [convert_e, List.singleton_append, vaWord] at hr
    simp only [bind, Except.bind] at hr
    rcases herr : errorText nested (errOf w) with e | out
    · rw [herr] at hr
      exact absurd hr nofun
    · exact ⟨out, rfl⟩
  · have hk : .err ∉ convKinds long c := by
      unfold convKinds
      rw [if_neg hc]
      split_ifs <;> decide
    exact good_of_no_err hk h

/-! ### The whole format -/

/-- A directive that is known. -/
def Item.IsDirective : Item → Prop
  | .conv _ _ => True
  | _ => False

section

variable (nested : List Byte → List Arg → Except Crash (List Int)) (view : View)

/-- What one part puts out, and the arguments that are left. -/
def itemOut : Item → List Arg → Except Crash (List Int × List Arg)
  | .lit c, args => .ok ([plain c], args)
  | .conv fl c, args => do
    let (s, args) ← evalFlags fl .init false args
    convert nested view c s args
  | .bad fl c, args => do
    let (_, args) ← evalFlags fl .init false args
    .ok (chr '%' :: (fl ++ c.toList).map plain, args)

theorem render_cons (item : Item) (items : List Item) (args : List Arg) :
    render nested view (item :: items) args = (do
      let (out, args) ← itemOut nested view item args
      let rest ← render nested view items args
      .ok (out ++ rest)) := by
  rcases item with c | ⟨fl, c⟩ | ⟨fl, c⟩
  · rfl
  · rw [render, itemOut]
    rcases evalFlags fl .init false args with e | ⟨s, args'⟩
    · rfl
    · rfl
  · rw [render, itemOut]
    rcases evalFlags fl .init false args with e | ⟨s, args'⟩
    · rfl
    · rfl

end

theorem forall₂_append_left {α β : Type} {R : α → β → Prop} {l₂ : List α} : ∀ {l₁ : List α} {l : List β},
    List.Forall₂ R (l₁ ++ l₂) l →
    ∃ a b, List.Forall₂ R l₁ a ∧ List.Forall₂ R l₂ b ∧ l = a ++ b
  | [], l, h => ⟨[], l, .nil, h, rfl⟩
  | x :: l₁, l, h => by
    obtain ⟨y, rest, hxy, hrest, rfl⟩ := List.forall₂_cons_left_iff.mp h
    obtain ⟨a, b, ha, hb, rfl⟩ := forall₂_append_left hrest
    exact ⟨y :: a, b, .cons hxy ha, hb, rfl⟩

/-- The words for the `*` of a directive. -/
theorem good_stars {k : Nat} {args : List Arg}
    (h : List.Forall₂ (Suits view) (List.replicate k .word) args) :
    List.Forall₂ (Good nested view) (List.replicate k .word) args :=
  good_of_no_err (fun hmem => absurd (List.eq_of_mem_replicate hmem) (by decide)) h

theorem suits_of_good {ks : List Kind} {args : List Arg}
    (h : List.Forall₂ (Good nested view) ks args) : List.Forall₂ (Suits view) ks args :=
  h.imp fun _ _ hg => hg.1

/-- One part of the format with its arguments. -/
theorem item_ok {item : Item} (hfl : ∀ x ∈ item.flags, isFlag x = true) {args : List Arg}
    (h : List.Forall₂ (Good nested view) item.kinds args) :
    ∃ out, itemOut nested view item (args ++ extra) = .ok (out, extra) ∧
      (item.IsDirective ∨ out = item.text.map plain) := by
  rcases item with c | ⟨fl, c⟩ | ⟨fl, c⟩
  · rw [List.forall₂_nil_left_iff.mp h]
    exact ⟨_, rfl, .inr rfl⟩
  · obtain ⟨a, b, ha, hb, rfl⟩ := forall₂_append_left h
    have hfl' : ∀ x ∈ fl, isFlag x = true := hfl
    obtain ⟨s, hs, hlflag⟩ := evalFlags_stars (b ++ extra) .init false hfl' rfl (suits_of_good ha)
    have hl : s.lflag = int (fl.count (ch 'l')) := hlflag.trans (by rw [Spec.init, zero_add])
    rw [← hl] at hb
    obtain ⟨out, hout⟩ := convert_ok extra hb
    refine ⟨out, ?_, .inl trivial⟩
    rw [itemOut, List.append_assoc, hs]
    exact hout
  · have hfl' : ∀ x ∈ fl, isFlag x = true := hfl
    obtain ⟨s, hs, _⟩ := evalFlags_stars extra .init false hfl' rfl (suits_of_good h)
    refine ⟨chr '%' :: (fl ++ c.toList).map plain, ?_, .inr rfl⟩
    rw [itemOut, hs]
    rfl

theorem good_of_item {item : Item} (hfl : ∀ x ∈ item.flags, isFlag x = true) {args : List Arg}
    (h : List.Forall₂ (Suits view) item.kinds args) {r : List Int × List Arg}
    (hr : itemOut nested view item (args ++ extra) = .ok r) :
    List.Forall₂ (Good nested view) item.kinds args := by
  rcases item with c | ⟨fl, c⟩ | ⟨fl, c⟩
  · rw [List.forall₂_nil_left_iff.mp h]
    exact .nil
  · obtain ⟨a, b, ha, hb, rfl⟩ := forall₂_append_left h
    have hfl' : ∀ x ∈ fl, isFlag x = true := hfl
    obtain ⟨s, hs, _⟩ := evalFlags_stars (b ++ extra) .init false hfl' rfl ha
    rw [itemOut, List.append_assoc, hs] at hr
    exact List.rel_append (good_stars ha) (good_of_convert extra hb hr)
  · exact good_stars h

/-- All parts of the format with their arguments. -/
theorem render_ok : ∀ {items : List Item} {args : List Arg},
    (∀ item ∈ items, ∀ x ∈ item.flags, isFlag x = true) →
    List.Forall₂ (Good nested view) (items.flatMap Item.kinds) args →
    ∃ pieces : List (List Int), render nested view items (args ++ extra) = .ok pieces.flatten ∧
      List.Forall₂ (fun item out => item.IsDirective ∨ out = item.text.map plain) items pieces
  | [], _, _, _ => ⟨[], rfl, .nil⟩
  | item :: items, _, hfl, h => by
    rw [List.flatMap_cons] at h
    obtain ⟨a, b, ha, hb, rfl⟩ := forall₂_append_left h
    obtain ⟨out, hout, hitem⟩ := item_ok (b ++ extra) (hfl item List.mem_cons_self) ha
    obtain ⟨pieces, hrest, hpieces⟩ := render_ok (fun i hi => hfl i (List.mem_cons_of_mem _ hi)) hb
    refine ⟨out :: pieces, ?_, .cons hitem hpieces⟩
    rw [render_cons, List.append_assoc, hout]
    simp only [bind, Except.bind]
    rw [hrest]
    rfl

theorem good_of_render : ∀ {items : List Item} {args : List Arg} {out : List Int},
    (∀ item ∈ items, ∀ x ∈ item.flags, isFlag x = true) →
    List.Forall₂ (Suits view) (items.flatMap Item.kinds) args →
    render nested view items (args ++ extra) = .ok out →
    List.Forall₂ (Good nested view) (items.flatMap Item.kinds) args
  | [], _, _, _, h, _ => by
    rw [List.forall₂_nil_left_iff.mp h]
    exact .nil
  | item :: items, _, _, hfl, h, hr => by
    rw [List.flatMap_cons] at h ⊢
    obtain ⟨a, b, ha, hb, rfl⟩ := forall₂_append_left h
    have hitem := hfl item List.mem_cons_self
    rw [render_cons, List.append_assoc] at hr
    rcases hout : itemOut nested view item (a ++ (b ++ extra)) with e | r
    · rw [hout] at hr
      exact absurd hr nofun
    have hgood := good_of_item (b ++ extra) hitem ha hout
    obtain ⟨out, hout', _⟩ := item_ok (b ++ extra) hitem hgood
    rw [hout'] at hr
    simp only [bind, Except.bind] at hr
    rcases hrest : render nested view items (b ++ extra) with e | rest
    · rw [hrest] at hr
      exact absurd hr nofun
    · exact List.rel_append hgood
        (good_of_render (fun i hi => hfl i (List.mem_cons_of_mem _ hi)) hb hrest)

theorem flags_of_parse (fmt : List Byte) :
    ∀ item ∈ parse none fmt, ∀ x ∈ item.flags, isFlag x = true :=
  parse_flags fmt none fun fl hfl => absurd hfl (Option.not_mem_none fl)

/-! ### Error texts -/

/-- A format without `%e`. -/
theorem vprintfmtN_ok (view : View) (depth : Nat) {fmt : List Byte} (hfmt : ∀ x ∈ fmt, x ≠ 0)
    (herr : .err ∉ kinds fmt) {args : List Arg} (h : List.Forall₂ (Suits view) (kinds fmt) args) :
    ∃ out, vprintfmtN view (depth + 1) fmt args = .ok out := by
  have hgood : List.Forall₂ (Good (vprintfmtN view depth) view) (kinds fmt) args :=
    good_of_no_err herr h
  obtain ⟨pieces, hout, _⟩ := render_ok [] (flags_of_parse fmt) hgood
  rw [List.append_nil] at hout
  exact ⟨_, (vprintfmtN_eq view depth hfmt args).trans hout⟩

theorem errorString_spec : ∀ t ∈ errorString, ∀ text ∈ t, (∀ c ∈ text, c ≠ 0) ∧ text.length < 2 ^ 32 := by
  have hall : errorString.all (fun t => t.all fun l =>
      l.all (· ≠ 0) && decide (l.length < 2 ^ 32)) = true := by decide +kernel
  intro t ht text htext
  have h := List.all_eq_true.mp hall t ht
  rw [Option.mem_def.mp htext, Option.all_some, Bool.and_eq_true, List.all_eq_true] at h
  exact ⟨fun c hc => of_decide_eq_true (h.1 c hc), of_decide_eq_true h.2⟩

/-- The smallest `int`. -/
def intMin : Word := 0x80000000

theorem errOf_nonneg {w : Word} (h : w ≠ intMin) : 0 ≤ errOf w := by
  have h1 := BitVec.le_toInt w
  have h2 : w.toInt ≠ -2 ^ 31 := by
    intro heq
    exact h (BitVec.eq_of_toInt_eq (heq.trans (by decide)))
  unfold errOf
  split
  · unfold int
    omega
  · omega

/-- There is a text for every number but the smallest. -/
theorem errorText_ok (view : View) (depth : Nat) {w : Word} (h : w ≠ intMin) :
    ∃ out, errorText (vprintfmtN view (depth + 1)) (errOf w) = .ok out := by
  have hnum : ∃ out, vprintfmtN view (depth + 1) (str "error %d")
      [.word (BitVec.ofInt 32 (errOf w))] = .ok out :=
    vprintfmtN_ok view depth (by decide) (by decide) (.cons trivial .nil)
  have h0 := errOf_nonneg h
  unfold errorText
  split
  · exact hnum
  rename_i hlt
  rw [if_neg (not_lt.mpr h0)]
  rcases ht : errorString.getD (errOf w).toNat none with _ | text
  · exact hnum
  · have hlen : (errOf w).toNat < errorString.length := by
      have : errorString.length = 9 := rfl
      unfold maxerror at hlt
      omega
    have hmem : some text ∈ errorString := by
      rw [← ht, List.getD_eq_getElem?_getD, List.getElem?_eq_getElem hlen, Option.getD_some]
      exact List.getElem_mem hlen
    obtain ⟨h1, h2⟩ := errorString_spec _ hmem text rfl
    exact vprintfmtN_ok view depth (by decide) (by decide) (.cons ⟨text, isString_text view h1, h2⟩ .nil)

/-- The smallest number stays negative, and `error_string` is read in front of its beginning. -/
theorem errorText_intMin : errorText nested (errOf intMin) = .error .badIndex := by
  have herr : errOf intMin = -2 ^ 31 := by decide
  rw [herr, errorText, if_neg (by decide), if_pos (by decide)]

/-- The scan comes to its end, with no access outside of the format and of `error_string`, and puts
    out as it is written what is no directive, exactly when `%e` is not given the smallest `int`. -/
theorem vprintfmt_safe_iff (view : View) {fmt : List Byte} (hfmt : ∀ x ∈ fmt, x ≠ 0) {args : List Arg}
    (hargs : List.Forall₂ (Suits view) (kinds fmt) args) (extra : List Arg) :
    (parse none fmt).flatMap Item.text = fmt ∧
    ((∃ pieces : List (List Int), vprintfmt view fmt (args ++ extra) = .ok pieces.flatten ∧
        List.Forall₂ (fun item out => item.IsDirective ∨ out = item.text.map plain)
          (parse none fmt) pieces) ↔
      (.err, .word intMin) ∉ (kinds fmt).zip args) := by
  refine ⟨(parse_text fmt none).trans (List.nil_append fmt), ?_⟩
  rw [vprintfmt, vprintfmtN_eq view 1 hfmt]
  constructor
  · rintro ⟨pieces, hout, _⟩ hmem
    have hgood := good_of_render extra (flags_of_parse fmt) hargs hout
    obtain ⟨_, herr⟩ := (List.forall₂_iff_zip.mp hgood).2 hmem
    obtain ⟨out, hout'⟩ := herr intMin rfl rfl
    rw [errorText_intMin] at hout'
    cases hout'
  · intro hmem
    refine render_ok extra (flags_of_parse fmt) ?_
    obtain ⟨hlen, hsuits⟩ := List.forall₂_iff_zip.mp hargs
    refine List.forall₂_iff_zip.mpr ⟨hlen, fun {k a} hka => ⟨hsuits hka, ?_⟩⟩
    rintro w rfl rfl
    refine errorText_ok view 0 ?_
    rintro rfl
    exact hmem hka

theorem vprintfmt_safe_unknown : ∃ pieces : List (List Int),
    vprintfmt (fun _ => none) (str "%e %5k %") [.word 3] = .ok pieces.flatten ∧
      List.Forall₂ (fun item out => item.IsDirective ∨ out = item.text.map plain)
        (parse none (str "%e %5k %")) pieces := by
  have hargs : List.Forall₂ (Suits fun _ => none) (kinds (str "%e %5k %")) [.word 3] :=
    .cons trivial .nil
  refine (vprintfmt_safe_iff (fun _ => none) (by decide) hargs []).2.mpr fun h => ?_
  have hk : kinds (str "%e %5k %") = [.err] := rfl
  rw [hk, List.zip_cons_cons, List.zip_nil_left, List.mem_singleton] at h
  injection h with _ h
  injection h with h
  exact absurd h (by decide)

/-- `%e` with the smallest `int`. -/
theorem error_number_min :
    List.Forall₂ (Suits fun _ => none) (kinds (str "%e")) [.word intMin] ∧
      vprintfmt (fun _ => none) (str "%e") [.word intMin] = .error .badIndex := by
  refine ⟨.cons trivial .nil, ?_⟩
  rw [vprintfmt, vprintfmtN_eq _ 1 (by decide)]
  show (do
    let (out, args) ← convert (vprintfmtN (fun _ => none) 1) (fun _ => none) (ch 'e') .init [.word intMin]
    let rest ← render (vprintfmtN (fun _ => none) 1) (fun _ => none) [] args
    Except.ok (out ++ rest)) = _
  rw [convert_e, vaWord]
  simp only [bind, Except.bind]
  rw [errorText_intMin]

end Fmt

end Jos
