import Jos.Mmu
import Jos.Lib.Movs

/-!
  `memmove` of `lib/string.c`, with the string instructions and as the portable loops.

  Which of the four moves it makes depends on how the ranges lie and whether they are aligned. Every
  move that fits the ranges leaves the same memory. -/

namespace Jos

open Lib.Ia32

namespace Memmove

/-- `(int)p % 4 == 0`. -/
def aligned (p : Word) : Bool := p.toInt.tmod 4 == 0

/-- `s < d && s + n > d`. -/
def overlaps (s d n : Word) : Bool := s < d && s + n > d

/-- The moves: longs or bytes, down or up. -/
inductive Path where | longsDown | bytesDown | longsUp | bytesUp
  deriving DecidableEq

/-- The string instructions of a move. -/
def asm (m : Strings) (d s n : Word) : Path → Strings
  | .longsDown => (Strings.rep .movsl
      { m.std with edi := d + n - 4, esi := s + n - 4, ecx := n / 4 }).cld
  | .bytesDown => (Strings.rep .movsb
      { m.std with edi := d + n - 1, esi := s + n - 1, ecx := n }).cld
  | .longsUp => Strings.rep .movsl { m.cld with edi := d, esi := s, ecx := n / 4 }
  | .bytesUp => Strings.rep .movsb { m.cld with edi := d, esi := s, ecx := n }

/-- The move that `memmove` chooses. -/
def path (d s n : Word) : Path :=
  if overlaps s d n then
    if aligned (s + n) && aligned (d + n) && n % 4 == 0 then .longsDown else .bytesDown
  else
    if aligned s && aligned d && n % 4 == 0 then .longsUp else .bytesUp

/-- `while (n-- > 0) *--d = *--s;` -/
def copyDown (m : Mem) (d s : Word) : Nat → Mem
  | 0 => m
  | n + 1 => copyDown (Function.update m (d - 1) (m (s - 1))) (d - 1) (s - 1) n

/-- `while (n-- > 0) *d++ = *s++;` -/
def copyUp (m : Mem) (d s : Word) : Nat → Mem
  | 0 => m
  | n + 1 => copyUp (Function.update m d (m s)) (d + 1) (s + 1) n

/-- The move suits the ranges: longs for a whole number of them, and the direction. -/
def Path.Fits (d s n : Word) : Path → Prop
  | .longsDown => overlaps s d n ∧ n.toNat % 4 = 0
  | .bytesDown => overlaps s d n
  | .longsUp => ¬ overlaps s d n ∧ n.toNat % 4 = 0
  | .bytesUp => ¬ overlaps s d n

end Memmove

open Memmove

/-- `memmove` with the string instructions. -/
def memmove (m : Strings) (dst src n : Word) : Word × Strings :=
  (dst, asm m dst src n (path dst src n))

/-- `memmove` of the `#else` branch. -/
def memmoveC (m : Mem) (dst src n : Word) : Word × Mem :=
  (dst, if overlaps src dst n then copyDown m (dst + n) (src + n) n.toNat
    else copyUp m dst src n.toNat)

namespace Memmove

variable {m : Mem} {d s n : Word}

theorem copyUp_eq_repeats : ∀ (k : Nat) (t : Strings), t.df = false →
    copyUp t.mem t.edi t.esi k = (Strings.repeats .movsb k t).mem
  | 0, _, _ => rfl
  | k + 1, t, h => by
    have hstep : ∀ x : Word, x + t.stride 1 = x + 1 := fun x => by rw [Strings.stride, h]; rfl
    have ih := copyUp_eq_repeats k { t.movsb with ecx := t.ecx - 1 } h
    simp only [Strings.movsb, hstep] at ih
    simp only [copyUp, Strings.repeats, Strings.movsb, hstep, ih]

theorem copyDown_eq_repeats : ∀ (k : Nat) (t : Strings), t.df = true →
    copyDown t.mem (t.edi + 1) (t.esi + 1) k = (Strings.repeats .movsb k t).mem
  | 0, _, _ => rfl
  | k + 1, t, h => by
    have hstep : ∀ x : Word, x + t.stride 1 + 1 = x := fun x => by
      rw [Strings.stride, h, BitVec.add_assoc]
      exact BitVec.add_zero x
    have ih := copyDown_eq_repeats k { t.movsb with ecx := t.ecx - 1 } h
    simp only [Strings.movsb, hstep] at ih
    simp only [copyDown, Strings.repeats, Strings.movsb, BitVec.add_sub_cancel, ih]

/-- Ranges that a move upward suits. -/
theorem upSafe (hs : s.toNat + n.toNat ≤ 2 ^ 32) (hd : d.toNat + n.toNat ≤ 2 ^ 32)
    (h : ¬ overlaps s d n) : Strings.UpSafe d s n.toNat := by
  intro i hi
  simp only [overlaps, Bool.and_eq_true, decide_eq_true_eq, not_and] at h
  rcases Nat.lt_or_ge s.toNat d.toNat with hlt | hge
  · have := h hlt
    bv_omega
  · bv_omega

/-- Ranges that a move downward suits. -/
theorem downSafe (hd : d.toNat + n.toNat ≤ 2 ^ 32) (h : overlaps s d n) :
    Strings.DownSafe d s n.toNat := by
  intro i hi
  simp only [overlaps, Bool.and_eq_true, decide_eq_true_eq] at h
  obtain ⟨h1, h2⟩ := h
  bv_omega

/-- Every move that suits the ranges. -/
theorem asm_mem (t : Strings) (hs : s.toNat + n.toNat ≤ 2 ^ 32) (hd : d.toNat + n.toNat ≤ 2 ^ 32) :
    ∀ p : Path, p.Fits d s n → (asm t d s n p).mem = t.mem.moved d s 0 n.toNat := by
  have hn : n.toNat ≤ 2 ^ 32 := n.isLt.le
  have h4 : (n / 4).toNat = n.toNat / 4 := BitVec.toNat_udiv
  have hself : BitVec.ofNat 32 n.toNat = n := by rw [BitVec.ofNat_toNat, BitVec.setWidth_eq]
  rintro (_ | _ | _ | _) hp
  case longsDown =>
    have h := Strings.repeats_down t.mem Strings.movsl_moves (downSafe hd hp.1) hn
      (n / 4).toNat n.toNat { t.std with edi := d + n - 4, esi := s + n - 4, ecx := n / 4 }
      (by omega) le_rfl rfl (Mem.moved_empty _ _ _ _).symm (by rw [hself]; rfl) (by rw [hself]; rfl)
    have h0 : n.toNat - 4 * (n / 4).toNat = 0 := by
      have := hp.2
      omega
    rwa [h0] at h
  case bytesDown =>
    have h := Strings.repeats_down t.mem Strings.movsb_moves (downSafe hd hp) hn
      n.toNat n.toNat { t.std with edi := d + n - 1, esi := s + n - 1, ecx := n }
      (by omega) le_rfl rfl (Mem.moved_empty _ _ _ _).symm (by rw [hself]; rfl) (by rw [hself]; rfl)
    have h0 : n.toNat - 1 * n.toNat = 0 := by omega
    rwa [h0] at h
  case longsUp =>
    have h := Strings.repeats_up t.mem Strings.movsl_moves (upSafe hs hd hp.1) hn
      (n / 4).toNat 0 { t.cld with edi := d, esi := s, ecx := n / 4 } (by omega) rfl
      (Mem.moved_empty _ _ _ _).symm (BitVec.add_zero d).symm (BitVec.add_zero s).symm
    have h0 : 0 + 4 * (n / 4).toNat = n.toNat := by
      have := hp.2
      omega
    rwa [h0] at h
  case bytesUp =>
    have h := Strings.repeats_up t.mem Strings.movsb_moves (upSafe hs hd hp) hn
      n.toNat 0 { t.cld with edi := d, esi := s, ecx := n } (by omega) rfl
      (Mem.moved_empty _ _ _ _).symm (BitVec.add_zero d).symm (BitVec.add_zero s).symm
    have h0 : 0 + 1 * n.toNat = n.toNat := by omega
    rwa [h0] at h

theorem asm_df (t : Strings) : ∀ p : Path, (asm t d s n p).df = false
  | .longsDown => rfl
  | .bytesDown => rfl
  | .longsUp => Strings.repeats_df Strings.movsl_moves _ _
  | .bytesUp => Strings.repeats_df Strings.movsb_moves _ _

/-- The loops do what the byte moves do. -/
theorem memmoveC_mem (t : Strings) : (memmoveC t.mem d s n).2 =
    (asm t d s n (if overlaps s d n then .bytesDown else .bytesUp)).mem := by
  unfold memmoveC
  split
  · have h := copyDown_eq_repeats n.toNat
      { t.std with edi := d + n - 1, esi := s + n - 1, ecx := n } rfl
    simp only [BitVec.sub_add_cancel] at h
    exact h
  · exact copyUp_eq_repeats n.toNat { t.cld with edi := d, esi := s, ecx := n } rfl

/-- The chosen move suits the ranges. -/
theorem path_fits (d s n : Word) : (path d s n).Fits d s n := by
  unfold path
  have h4 : n % 4 = 0 → n.toNat % 4 = 0 := fun h => by bv_omega
  split
  · rename_i h
    split
    · rename_i h'
      simp only [Bool.and_eq_true, beq_iff_eq] at h'
      exact ⟨h, h4 h'.2⟩
    · exact h
  · rename_i h
    split
    · rename_i h'
      simp only [Bool.and_eq_true, beq_iff_eq] at h'
      exact ⟨h, h4 h'.2⟩
    · exact h

/-- What a move leaves: the bytes that were at `s`, and every other byte as before. -/
structure Copies (m m' : Mem) (d s n : Word) : Prop where
  inside : ∀ i, i < n.toNat → m' (d + BitVec.ofNat 32 i) = m (s + BitVec.ofNat 32 i)
  outside : ∀ a : Word, ¬ (d.toNat ≤ a.toNat ∧ a.toNat < d.toNat + n.toNat) → m' a = m a

theorem moved_copies (m : Mem) (s : Word) (hd : d.toNat + n.toNat ≤ 2 ^ 32) :
    Copies m (m.moved d s 0 n.toNat) d s n where
  inside i hi := by
    have h1 : d + BitVec.ofNat 32 i - d = BitVec.ofNat 32 i := by
      rw [BitVec.add_comm, BitVec.add_sub_cancel]
    have h2 : (BitVec.ofNat 32 i).toNat = i := by
      rw [BitVec.toNat_ofNat]
      exact Nat.mod_eq_of_lt (by omega)
    unfold Mem.moved
    rw [h1, h2, if_pos ⟨Nat.zero_le i, hi⟩]
  outside a ha := if_neg (by bv_omega)

/-- `memmove` copies, whichever of the moves that suit the ranges it makes, as the loops do. -/
theorem memmove_copies (t : Strings) (dst src n : Word) (hs : src.toNat + n.toNat ≤ 2 ^ 32)
    (hd : dst.toNat + n.toNat ≤ 2 ^ 32) :
    Copies t.mem (memmove t dst src n).2.mem dst src n ∧
      (memmove t dst src n).2.mem = (memmoveC t.mem dst src n).2 ∧
      (∀ p : Path, p.Fits dst src n → Copies t.mem (asm t dst src n p).mem dst src n ∧
        (asm t dst src n p).mem = (memmoveC t.mem dst src n).2) ∧
      (path dst src n).Fits dst src n ∧
      (memmove t dst src n).2.df = false ∧ (memmove t dst src n).1 = dst := by
  have hall : ∀ p : Path, p.Fits dst src n → Copies t.mem (asm t dst src n p).mem dst src n ∧
      (asm t dst src n p).mem = (memmoveC t.mem dst src n).2 := by
    intro p hp
    rw [memmoveC_mem, asm_mem t hs hd p hp, asm_mem t hs hd _ ?_]
    · exact ⟨moved_copies _ _ hd, rfl⟩
    · split
      · assumption
      · assumption
  obtain ⟨h1, h2⟩ := hall _ (path_fits dst src n)
  exact ⟨h1, h2, hall, path_fits dst src n, asm_df t _, rfl⟩

theorem memmove_copies_overlapping :
    (memmove ⟨fun a => a.setWidth 8, 0, 0, 0, true⟩ 0x1001 0x1000 6).2.mem
      (0x1001 + BitVec.ofNat 32 5) = 0x05 :=
  (memmove_copies ⟨fun a => a.setWidth 8, 0, 0, 0, true⟩ 0x1001 0x1000 6 (by decide)
    (by decide)).1.inside 5 (by decide)

end Memmove

end Jos
