import Jos.Vprintfmt
import Mathlib.Data.List.TakeWhile

/-!
  What a format says: its literal characters, its directives, and what only looks like one.

  `vprintfmt` moves back to the `%` of a directive that it does not know and scans it again as text.
  It does the same as a reader that takes the format apart beforehand. -/

namespace Jos

namespace Fmt

/-- A part of a format: a literal character, a directive, or the beginning of one with the character
    that it breaks off at, if the format does not end there. -/
inductive Item where
  | lit (c : Byte)
  | conv (flags : List Byte) (c : Byte)
  | bad (flags : List Byte) (c : Option Byte)

/-- Take a format apart; within a directive, with the flags read so far. -/
def parse : Option (List Byte) → List Byte → List Item
  | none, [] => []
  | none, c :: l => if c = ch '%' then parse (some []) l else .lit c :: parse none l
  | some fl, [] => [.bad fl none]
  | some fl, c :: l =>
    if isFlag c then parse (some (fl ++ [c])) l
    else if isConv c then .conv fl c :: parse none l
    else .bad fl (some c) :: parse none l

/-- What the flags of a directive set, and the arguments that are left. -/
def evalFlags : List Byte → Spec → Bool → List Arg → Except Crash (Spec × List Arg)
  | [], s, digits, args => .ok (if digits then s.processPrecision else s, args)
  | c :: fl, s, digits, args => do
    let (s, digits, args) ← flag c s digits args
    evalFlags fl s digits args

/-- A character as the format has it. -/
def plain (c : Byte) : Int := c.toNat

section

variable (nested : List Byte → List Arg → Except Crash (List Int)) (view : View)

/-- What the parts of a format put out. A directive that is none comes out as it is written. -/
def render : List Item → List Arg → Except Crash (List Int)
  | [], _ => .ok []
  | .lit c :: items, args => do
    let rest ← render items args
    .ok (plain c :: rest)
  | .conv fl c :: items, args => do
    let (s, args) ← evalFlags fl .init false args
    let (out, args) ← convert nested view c s args
    let rest ← render items args
    .ok (out ++ rest)
  | .bad fl c :: items, args => do
    let (_, args) ← evalFlags fl .init false args
    let rest ← render items args
    .ok (chr '%' :: (fl ++ c.toList).map plain ++ rest)

end

variable {nested : List Byte → List Arg → Except Crash (List Int)} {view : View}

theorem not_percent_of_isFlag {c : Byte} (h : isFlag c = true) : c ≠ ch '%' := by
  rintro rfl
  exact absurd h (by decide)

theorem ne_zero_of_isFlag {c : Byte} (h : isFlag c = true) : c ≠ 0 := by
  rintro rfl
  exact absurd h (by decide)

/-- The switch goes through the flags to the first character that is none. -/
theorem reswitch_flags {c : Byte} (hc : isFlag c = false) (after : List Byte) :
    ∀ (fl before : List Byte) (s : Spec) (digits : Bool) (args : List Arg),
      (∀ x ∈ fl, isFlag x = true) →
      reswitch before (fl ++ c :: after) s digits args = (do
        let (s, args) ← evalFlags fl s digits args
        .ok ⟨c, c :: (fl.reverse ++ before), after, s, args⟩)
  | [], before, s, digits, args, _ => by
    rw [List.nil_append, reswitch, if_neg (by rw [hc]; exact Bool.false_ne_true)]
    rfl
  | x :: fl, before, s, digits, args, h => by
    rw [List.cons_append, reswitch, if_pos (h x List.mem_cons_self), evalFlags]
    rcases flag x s digits args with e | ⟨s', d', args'⟩
    · rfl
    · have ih := reswitch_flags hc after fl (x :: before) s' d' args' fun y hy =>
        h y (List.mem_cons_of_mem _ hy)
      have hrev : (x :: fl).reverse ++ before = fl.reverse ++ x :: before := by
        rw [List.reverse_cons, List.append_assoc]
        rfl
      rw [hrev]
      exact ih

theorem rewindLoop_flags (before : List Byte) : ∀ (l after : List Byte),
    (∀ x ∈ l, x ≠ ch '%') →
    rewindLoop (l ++ ch '%' :: before) after = .ok (ch '%' :: before, l.reverse ++ after)
  | [], after, _ => by
    rw [List.nil_append, rewindLoop, if_pos rfl]
    rfl
  | x :: l, after, h => by
    rw [List.cons_append, rewindLoop, if_neg (h x List.mem_cons_self),
      rewindLoop_flags before l (x :: after) fun y hy => h y (List.mem_cons_of_mem _ hy),
      List.reverse_cons, List.append_assoc]
    rfl

/-- The default case goes back to right behind the `%`. -/
theorem rewind_flags {fl : List Byte} (hfl : ∀ x ∈ fl, isFlag x = true) (c : Byte)
    (before after : List Byte) :
    rewind (c :: (fl.reverse ++ ch '%' :: before)) after =
      .ok (ch '%' :: before, fl ++ c :: after) := by
  rw [rewind, rewindLoop_flags before fl.reverse _ fun x hx =>
    not_percent_of_isFlag (hfl x (List.mem_reverse.mp hx)), List.reverse_reverse]

/-- Text before the rest of the format. -/
theorem loop_text : ∀ (t : List Byte) (fuel : Nat) (before rest : List Byte) (args : List Arg),
    (∀ x ∈ t, x ≠ ch '%' ∧ x ≠ 0) →
    loop nested view (fuel + t.length) before (t ++ rest) args = (do
      let out ← loop nested view fuel (t.reverse ++ before) rest args
      .ok (t.map plain ++ out))
  | [], fuel, before, rest, args, _ => by
    rw [List.length_nil, Nat.add_zero, List.nil_append, List.reverse_nil, List.nil_append]
    rcases loop nested view fuel before rest args with e | out
    · rfl
    · rfl
  | x :: t, fuel, before, rest, args, h => by
    obtain ⟨h1, h2⟩ := h x List.mem_cons_self
    have ih := loop_text t fuel (x :: before) rest args fun y hy => h y (List.mem_cons_of_mem _ hy)
    have hrev : (x :: t).reverse ++ before = t.reverse ++ x :: before := by
      rw [List.reverse_cons, List.append_assoc]
      rfl
    rw [List.length_cons, ← Nat.add_assoc, List.cons_append, loop, if_pos h1, if_neg h2, ih, hrev]
    rcases loop nested view fuel (t.reverse ++ x :: before) rest args with e | out
    · rfl
    · rfl

/-- How a directive is taken apart. -/
theorem parse_some : ∀ (l fl : List Byte), parse (some fl) l =
    match l.dropWhile isFlag with
    | [] => [.bad (fl ++ l.takeWhile isFlag) none]
    | c :: r =>
      if isConv c then .conv (fl ++ l.takeWhile isFlag) c :: parse none r
      else .bad (fl ++ l.takeWhile isFlag) (some c) :: parse none r
  | [], fl => by
    rw [parse, List.dropWhile_nil, List.takeWhile_nil, List.append_nil]
  | c :: l, fl => by
    rw [parse]
    rcases hc : isFlag c with _ | _
    · rw [if_neg Bool.false_ne_true, List.dropWhile_cons_of_neg (by rw [hc]; exact Bool.false_ne_true),
        List.takeWhile_cons_of_neg (by rw [hc]; exact Bool.false_ne_true), List.append_nil]
    · rw [if_pos rfl, parse_some l, List.dropWhile_cons_of_pos hc, List.takeWhile_cons_of_pos hc,
        List.append_assoc]
      rfl

/-- A `%`, flags, and the character behind them. -/
theorem loop_percent {fl : List Byte} {c : Byte} (hfl : ∀ x ∈ fl, isFlag x = true)
    (hc : isFlag c = false) (fuel : Nat) (before after : List Byte) (args : List Arg) :
    loop nested view (fuel + 1) before (ch '%' :: (fl ++ c :: after)) args = (do
      let (s, args) ← evalFlags fl .init false args
      if isConv c then
        let (out, args) ← convert nested view c s args
        let rest ← loop nested view fuel (c :: (fl.reverse ++ ch '%' :: before)) after args
        .ok (out ++ rest)
      else
        let rest ← loop nested view fuel (ch '%' :: before) (fl ++ c :: after) args
        .ok (chr '%' :: rest)) := by
  rw [loop, if_neg (not_not.mpr rfl), reswitch_flags hc after fl _ _ _ _ hfl]
  rcases evalFlags fl .init false args with e | ⟨s, args'⟩
  · rfl
  · simp only [bind, Except.bind]
    rcases isConv c with _ | _
    · rw [if_neg Bool.false_ne_true, if_neg Bool.false_ne_true, rewind_flags hfl]
    · rw [if_pos rfl, if_pos rfl]

/-- The scan of a format puts out what its parts say. -/
theorem loop_render (n : Nat) : ∀ (l : List Byte) (fuel : Nat) (before : List Byte)
    (args : List Arg), l.length ≤ n → l.length < fuel → (∀ x ∈ l, x ≠ 0) →
    loop nested view fuel before (l ++ [0]) args = render nested view (parse none l) args := by
  induction n using Nat.strong_induction_on with
  | _ n ih =>
    intro l fuel before args hn hfuel hl
    obtain ⟨fuel, rfl⟩ := Nat.exists_eq_succ_of_ne_zero (Nat.ne_zero_of_lt hfuel)
    rcases l with _ | ⟨c, l⟩
    · rw [List.nil_append, loop, if_pos (by decide), if_pos rfl]
      rfl
    rw [List.length_cons] at hn hfuel
    have hl' : ∀ x ∈ l, x ≠ 0 := fun x hx => hl x (List.mem_cons_of_mem _ hx)
    rcases ne_or_eq c (ch '%') with hc | rfl
    · -- Text.
      rw [List.cons_append, loop, if_pos hc, if_neg (hl c List.mem_cons_self), parse, if_neg hc, render,
        ih l.length (by omega) l fuel _ _ le_rfl (by omega) hl']
      rfl
    -- A directive: its flags, and what comes behind them.
    have hsplit : l = l.takeWhile isFlag ++ l.dropWhile isFlag := List.takeWhile_append_dropWhile.symm
    have hflags : ∀ x ∈ l.takeWhile isFlag, isFlag x = true := fun x hx => List.mem_takeWhile_imp hx
    have hhead := List.head?_dropWhile_not isFlag l
    rw [parse, if_pos rfl, parse_some]
    generalize l.takeWhile isFlag = fl at hsplit hflags
    generalize l.dropWhile isFlag = r at hsplit hhead
    subst hsplit
    have htext : ∀ x ∈ fl, x ≠ ch '%' ∧ x ≠ 0 := fun x hx =>
      ⟨not_percent_of_isFlag (hflags x hx), ne_zero_of_isFlag (hflags x hx)⟩
    rw [List.length_append] at hn hfuel
    rcases r with _ | ⟨c, r⟩
    · -- The format ends within the directive.
      obtain ⟨k, rfl⟩ := Nat.exists_eq_add_of_le' (by omega : fl.length + 1 ≤ fuel)
      have hlen : k + (fl.length + 1) = k + 1 + fl.length := by omega
      rw [List.append_nil, List.nil_append, List.cons_append, loop_percent hflags rfl]
      dsimp only
      rw [render]
      rcases evalFlags fl .init false args with e | ⟨s, args'⟩
      · rfl
      simp only [bind, Except.bind]
      rw [if_neg (by decide), hlen, loop_text fl _ _ _ _ htext, loop, if_pos (by decide), if_pos rfl,
        render, Option.toList_none, List.append_nil]
      simp only [bind, Except.bind]
      rfl
    · have hc : isFlag c = false := by simpa using hhead
      have hr : ∀ x ∈ r, x ≠ 0 := fun x hx =>
        hl' x (List.mem_append_right _ (List.mem_cons_of_mem _ hx))
      rw [List.length_cons] at hn hfuel
      rw [List.cons_append, List.append_assoc, List.cons_append, loop_percent hflags hc,
        List.nil_append]
      dsimp only
      rcases hconv : isConv c with _ | _
      · -- Nothing that is known: back to the beginning.
        have hcp : c ≠ ch '%' := by
          rintro rfl
          exact absurd hconv (by decide)
        have htext' : ∀ x ∈ fl ++ [c], x ≠ ch '%' ∧ x ≠ 0 := by
          intro x hx
          rcases List.mem_append.mp hx with hx | hx
          · exact htext x hx
          · rw [List.mem_singleton.mp hx]
            exact ⟨hcp, hl' c (List.mem_append_right _ List.mem_cons_self)⟩
        have happ : fl ++ c :: (r ++ [0]) = (fl ++ [c]) ++ (r ++ [0]) := by
          rw [List.append_assoc]
          rfl
        obtain ⟨k, rfl⟩ :=
          Nat.exists_eq_add_of_le' (by omega : r.length + 1 + (fl.length + 1) ≤ fuel)
        have hlen : k + (r.length + 1 + (fl.length + 1)) =
            k + (r.length + 1) + (fl ++ [c]).length := by
          rw [List.length_append, List.length_singleton]
          omega
        rw [if_neg Bool.false_ne_true, render]
        rcases evalFlags fl .init false args with e | ⟨s, args'⟩
        · rfl
        simp only [bind, Except.bind]
        rw [if_neg Bool.false_ne_true, happ, hlen, loop_text _ _ _ _ _ htext',
          ih r.length (by omega) r _ _ _ le_rfl (by omega) hr]
        simp only [bind, Except.bind]
        rcases render nested view (parse none r) args' with e | out
        · rfl
        · rfl
      · -- A conversion.
        rw [if_pos rfl, render]
        rcases evalFlags fl .init false args with e | ⟨s, args'⟩
        · rfl
        simp only [bind, Except.bind]
        rw [if_pos trivial]
        rcases convert nested view c s args' with e | ⟨out, args''⟩
        · rfl
        dsimp only
        rw [ih r.length (by omega) r _ _ _ le_rfl (by omega) hr]

/-- `vprintfmt` puts out what the parts of the format say. -/
theorem vprintfmtN_eq (view : View) (depth : Nat) {fmt : List Byte} (h : ∀ x ∈ fmt, x ≠ 0)
    (args : List Arg) : vprintfmtN view (depth + 1) fmt args =
      render (vprintfmtN view depth) view (parse none fmt) args :=
  loop_render fmt.length fmt _ _ _ le_rfl (Nat.lt_succ_self _) h

/-- A format that is one directive. -/
theorem vprintfmtN_directive (view : View) (depth : Nat) {fl : List Byte} {c : Byte}
    (hfl : ∀ x ∈ fl, isFlag x = true) (hf : isFlag c = false) (hc : isConv c = true)
    (args : List Arg) : vprintfmtN view (depth + 1) (ch '%' :: (fl ++ [c])) args = (do
      let (s, args) ← evalFlags fl .init false args
      let (out, _) ← convert (vprintfmtN view depth) view c s args
      .ok out) := by
  have h0 : ∀ x ∈ ch '%' :: (fl ++ [c]), x ≠ 0 := by
    intro x hx
    rcases List.mem_cons.mp hx with rfl | hx
    · decide
    rcases List.mem_append.mp hx with hx | hx
    · exact ne_zero_of_isFlag (hfl x hx)
    · rw [List.mem_singleton.mp hx]
      rintro rfl
      exact absurd hc (by decide)
  have hdrop : (fl ++ [c]).dropWhile isFlag = [c] := by
    rw [List.dropWhile_append_of_pos hfl, List.dropWhile_cons_of_neg (by rw [hf]; decide)]
  have htake : (fl ++ [c]).takeWhile isFlag = fl := by
    rw [List.takeWhile_append_of_pos hfl, List.takeWhile_cons_of_neg (by rw [hf]; decide),
      List.append_nil]
  rw [vprintfmtN_eq view depth h0, parse, if_pos rfl, parse_some, hdrop, htake]
  dsimp only
  rw [if_pos hc, List.nil_append, render]
  rcases evalFlags fl .init false args with e | ⟨s, args'⟩
  · rfl
  simp only [bind, Except.bind]
  rcases convert (vprintfmtN view depth) view c s args' with e | ⟨out, args''⟩
  · rfl
  · show Except.ok (out ++ []) = Except.ok out
    rw [List.append_nil]

end Fmt

end Jos
