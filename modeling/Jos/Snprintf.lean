import Jos.Vprintfmt
import Mathlib.Data.List.GetD
import Mathlib.Logic.Function.Basic

/-!
  `vsnprintf` of `lib/printfmt.c`: what `vprintfmt` puts out goes into a buffer of a given size.

  The format and the strings that are printed lie apart from the buffer: they are as they were when the
  call began. -/

namespace Jos

namespace Fmt

/-- `struct sprintbuf`, and the memory. -/
structure Sprintbuf where
  buf : Word
  ebuf : Word
  cnt : Int
  mem : Word → Byte

def sprintputch (b : Sprintbuf) (c : Int) : Sprintbuf :=
  let b := { b with cnt := int (b.cnt + 1) }
  if b.buf < b.ebuf then
    { b with buf := b.buf + 1, mem := Function.update b.mem b.buf (BitVec.ofInt 8 c) }
  else b

theorem sprintputch_room {b : Sprintbuf} (h : b.buf < b.ebuf) (c : Int) : sprintputch b c =
    ⟨b.buf + 1, b.ebuf, int (b.cnt + 1), Function.update b.mem b.buf (BitVec.ofInt 8 c)⟩ :=
  if_pos h

theorem sprintputch_full {b : Sprintbuf} (h : ¬ b.buf < b.ebuf) (c : Int) :
    sprintputch b c = ⟨b.buf, b.ebuf, int (b.cnt + 1), b.mem⟩ :=
  if_neg h

/-- `-E_INVAL` -/
def eInval : Int := -3

/-- `vsnprintf`: the result, and the memory. -/
def vsnprintf (view : View) (mem : Word → Byte) (buf : Word) (n : Int) (fmt : List Byte)
    (args : List Arg) : Except Crash (Int × (Word → Byte)) :=
  if buf = 0 ∨ n < 1 then .ok (eInval, mem)
  else do
    let s ← vprintfmt view fmt args
    let b := s.foldl sprintputch ⟨buf, buf + BitVec.ofInt 32 (n - 1), 0, mem⟩
    .ok (b.cnt, Function.update b.mem b.buf 0)

/-- The memory with bytes from `buf` on. -/
def written (mem : Word → Byte) (buf : Word) (l : List Byte) : Word → Byte := fun a =>
  l.getD (a - buf).toNat (mem a)

theorem written_nil (mem : Word → Byte) (buf : Word) : written mem buf [] = mem := rfl

/-- One more byte. -/
theorem written_concat (mem : Word → Byte) (buf : Word) {l : List Byte} (h : l.length < 2 ^ 32)
    (c : Byte) : Function.update (written mem buf l) (buf + BitVec.ofNat 32 l.length) c =
      written mem buf (l ++ [c]) := by
  funext a
  rcases eq_or_ne a (buf + BitVec.ofNat 32 l.length) with rfl | ha
  · have ho : (buf + BitVec.ofNat 32 l.length - buf).toNat = l.length := by bv_omega
    rw [Function.update_self, written, ho, List.getD_append_right _ _ _ _ le_rfl, Nat.sub_self]
    rfl
  · have ho : (a - buf).toNat ≠ l.length := by bv_omega
    rw [Function.update_of_ne ha, written, written]
    rcases Nat.lt_or_gt_of_ne ho with hlt | hgt
    · rw [List.getD_append _ _ _ _ hlt]
    · rw [List.getD_append_right _ _ _ _ hgt.le, List.getD_eq_default _ _ hgt.le,
        List.getD_eq_default _ _ (by rw [List.length_singleton]; omega)]

section

variable (mem : Word → Byte) (buf : Word) (n : Nat)

/-- The buffer after `l` was put out, with room for `n` characters. -/
def after (l : List Int) : Sprintbuf :=
  ⟨buf + BitVec.ofNat 32 (min l.length n), buf + BitVec.ofNat 32 n, int l.length,
    written mem buf ((l.take n).map (BitVec.ofInt 8))⟩

variable {buf n}

/-- One character: it is stored as long as there is room, and counted in any case. -/
theorem sprintputch_after (h : buf.toNat + n < 2 ^ 32) (l : List Int) (c : Int) :
    sprintputch (after mem buf n l) c = after mem buf n (l ++ [c]) := by
  have hcnt : int (int l.length + 1) = int (l ++ [c]).length := by
    rw [List.length_append, List.length_singleton]
    unfold int
    omega
  rcases Nat.lt_or_ge l.length n with hlt | hge
  · -- There is room.
    have hlen : (l.map (BitVec.ofInt 8)).length = l.length := List.length_map _
    have hmin : min l.length n = l.length := min_eq_left hlt.le
    have hmin' : min (l ++ [c]).length n = l.length + 1 := by
      rw [List.length_append, List.length_singleton]
      omega
    have hroom : (after mem buf n l).buf < (after mem buf n l).ebuf := by
      unfold after
      bv_omega
    have hnext : buf + BitVec.ofNat 32 l.length + 1 = buf + BitVec.ofNat 32 (l.length + 1) := by
      bv_omega
    have htake : (l ++ [c]).take n = l ++ [c] := List.take_of_length_le (by
      rw [List.length_append, List.length_singleton]
      omega)
    have hmem := written_concat mem buf (l := l.map (BitVec.ofInt 8)) (by omega) (BitVec.ofInt 8 c)
    rw [hlen] at hmem
    rw [sprintputch_room hroom, after, after]
    dsimp only
    rw [hcnt, hmin, hmin', hnext, htake, List.take_of_length_le hlt.le, hmem, List.map_append]
    rfl
  · have hmin : min l.length n = n := min_eq_right hge
    have hmin' : min (l ++ [c]).length n = n := by
      rw [List.length_append, List.length_singleton]
      omega
    have hfull : ¬ (after mem buf n l).buf < (after mem buf n l).ebuf := by
      unfold after
      rw [hmin]
      exact BitVec.lt_irrefl _
    rw [sprintputch_full hfull, after, after]
    dsimp only
    rw [hcnt, hmin, hmin', List.take_append_of_le_length hge]

theorem foldl_sprintputch (h : buf.toNat + n < 2 ^ 32) (s : List Int) : ∀ l : List Int,
    s.foldl sprintputch (after mem buf n l) = after mem buf n (l ++ s) := by
  induction s with
  | nil =>
    intro l
    rw [List.append_nil]
    rfl
  | cons c s ih =>
    intro l
    rw [List.foldl_cons, sprintputch_after mem h, ih, List.append_assoc]
    rfl

end

/-- The output is cut to the size of the buffer and ends with a NUL, nothing else is written, and its
    whole length is returned. -/
theorem vsnprintf_bounded (view : View) (mem : Word → Byte) {buf : Word} (hbuf : buf ≠ 0) {n : Int}
    (hn : 1 ≤ n) (hfits : buf.toNat + n ≤ 2 ^ 32) {fmt : List Byte} {args : List Arg} {s : List Int}
    (hs : vprintfmt view fmt args = .ok s) (hlen : s.length < 2 ^ 31) :
    ∃ mem', vsnprintf view mem buf n fmt args = .ok ((s.length : Int), mem') ∧
      (∀ a : Word, a < buf ∨ buf.toNat + n ≤ a.toNat → mem' a = mem a) ∧
      (∀ i (hi : i < s.length), i < n - 1 → mem' (buf + BitVec.ofNat 32 i) = BitVec.ofInt 8 s[i]) ∧
      mem' (buf + BitVec.ofNat 32 (min s.length (n - 1).toNat)) = 0 := by
  obtain ⟨k, rfl⟩ : ∃ k : Nat, n = k + 1 := ⟨(n - 1).toNat, by omega⟩
  have hk : ((k : Int) + 1 - 1) = k := by omega
  have hroom : buf.toNat + k < 2 ^ 32 := by omega
  have hfold := foldl_sprintputch mem hroom s []
  rw [List.nil_append] at hfold
  have hstart : (⟨buf, buf + BitVec.ofNat 32 k, 0, mem⟩ : Sprintbuf) = after mem buf k [] := by
    have h0 : buf + BitVec.ofNat 32 0 = buf := by simp
    unfold after
    rw [List.length_nil, Nat.zero_min, h0, List.take_nil, List.map_nil, written_nil]
    rfl
  have htext : ((s.take k).map (BitVec.ofInt 8)).length = min s.length k := by
    rw [List.length_map, List.length_take, Nat.min_comm]
  have hnul := written_concat mem buf (l := (s.take k).map (BitVec.ofInt 8)) (by omega) 0
  rw [htext] at hnul
  have hint : int s.length = s.length := by
    unfold int
    omega
  refine ⟨written mem buf ((s.take k).map (BitVec.ofInt 8) ++ [0]), ?_, ?_, ?_, ?_⟩
  · unfold vsnprintf
    rw [if_neg (not_or.mpr ⟨hbuf, by omega⟩), hs, hk, BitVec.ofInt_natCast, ← hnul]
    simp only [bind, Except.bind]
    rw [hstart, hfold]
    dsimp only [after]
    rw [hint]
  · intro a ha
    have ho : min s.length k + 1 ≤ (a - buf).toNat := by bv_omega
    rw [written, List.getD_eq_default]
    rw [List.length_append, List.length_singleton, htext]
    exact ho
  · intro i hi hik
    have ho : (buf + BitVec.ofNat 32 i - buf).toNat = i := by bv_omega
    rw [written, ho, List.getD_append _ _ _ _ (by omega), List.getD_eq_getElem _ _ (by omega),
      List.getElem_map, List.getElem_take]
  · have ho : (buf + BitVec.ofNat 32 (min s.length k) - buf).toNat = min s.length k := by bv_omega
    have hk' : ((k : Int) + 1 - 1).toNat = k := by omega
    rw [hk', written, ho, List.getD_append_right _ _ _ _ (by rw [htext]), htext, Nat.sub_self]
    rfl

theorem vsnprintf_bounded_exact : ∃ mem',
    vsnprintf (fun _ => none) (fun _ => 7) 16 3 (str "abc") [] = .ok (3, mem') ∧
      (∀ a : Word, a < 16 ∨ (16 : Word).toNat + (3 : Int) ≤ a.toNat → mem' a = 7) ∧
      (∀ i (hi : i < [chr 'a', chr 'b', chr 'c'].length), (i : Int) < 3 - 1 →
        mem' (16 + BitVec.ofNat 32 i) = BitVec.ofInt 8 [chr 'a', chr 'b', chr 'c'][i]) ∧
      mem' (16 + BitVec.ofNat 32 (min 3 ((3 : Int) - 1).toNat)) = 0 := by
  have hout : vprintfmt (fun _ => none) (str "abc") [] = .ok [chr 'a', chr 'b', chr 'c'] := rfl
  exact vsnprintf_bounded (fun _ => none) (fun _ => 7) (by decide : (16 : Word) ≠ 0)
    (by decide : (1 : Int) ≤ 3) (by decide) hout (by decide)

end Fmt

end Jos
