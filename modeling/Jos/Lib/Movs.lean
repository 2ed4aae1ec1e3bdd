import Jos.Lib.Ia32

/-!
  The string moves of the x86 and the direction flag.

  A move of `w` bytes reads all of them before it writes any. A sequence of such moves copies a range
  as long as no move reads what an earlier one wrote: upward, when the bytes still to be read lie at
  or above the ones to be written, or clear of the range; downward, the other way round. -/

namespace Jos.Lib.Ia32

namespace Mem

/-- The `w` bytes at `d` replaced by the ones at `s`, all read first. -/
def block (m : Mem) (w : Nat) (d s : W) : Mem := fun a =>
  if (a - d).toNat < w then m (s + (a - d)) else m a

/-- The bytes at offsets `lo` to `hi` of a range at `d` replaced by the ones at `s`. -/
def moved (m : Mem) (d s : W) (lo hi : Nat) : Mem := fun a =>
  if lo ≤ (a - d).toNat ∧ (a - d).toNat < hi then m (s + (a - d)) else m a

theorem update_eq_block (m : Mem) (d s : W) : Function.update m d (m s) = m.block 1 d s := by
  funext a
  rcases eq_or_ne a d with rfl | h
  · simp [block]
  · have h1 : ¬ (a - d).toNat < 1 := by bv_omega
    rw [Function.update_of_ne h, block, if_neg h1]

theorem store_load_eq_block (m : Mem) (d s : W) : m.store d (m.load s) = m.block 4 d s := by
  funext a
  unfold store block
  split
  · rename_i h
    exact byte_load m s h
  · rfl

@[simp] theorem moved_empty (m : Mem) (d s : W) (lo : Nat) : m.moved d s lo lo = m := by
  funext a
  exact if_neg (by omega)

/-- One more block next to what is already moved, which reads nothing of that. -/
theorem block_moved {m : Mem} {d s : W} {lo hi lo' hi' k w : Nat} (hk : k + w ≤ 2 ^ 32)
    (hsrc : ∀ i < w, ¬ (lo ≤ (s + BitVec.ofNat 32 (k + i) - d).toNat ∧
      (s + BitVec.ofNat 32 (k + i) - d).toNat < hi))
    (hwin : ∀ o, (lo' ≤ o ∧ o < hi') ↔ ((lo ≤ o ∧ o < hi) ∨ (k ≤ o ∧ o < k + w))) :
    (m.moved d s lo hi).block w (d + BitVec.ofNat 32 k) (s + BitVec.ofNat 32 k) =
      m.moved d s lo' hi' := by
  funext a
  have hoff : (a - (d + BitVec.ofNat 32 k)).toNat < w ↔
      k ≤ (a - d).toNat ∧ (a - d).toNat < k + w := by
    bv_omega
  have hw := hwin (a - d).toNat
  unfold block
  rcases Decidable.em ((a - (d + BitVec.ofNat 32 k)).toNat < w) with h | h
  · obtain ⟨h1, h2⟩ := hoff.1 h
    have hs : s + BitVec.ofNat 32 k + (a - (d + BitVec.ofNat 32 k)) = s + (a - d) := by
      bv_omega
    have hi : s + BitVec.ofNat 32 (k + ((a - d).toNat - k)) = s + (a - d) := by
      rw [Nat.add_sub_cancel' h1, BitVec.ofNat_toNat, BitVec.setWidth_eq]
    have hout := hsrc ((a - d).toNat - k) (by omega)
    rw [hi] at hout
    rw [if_pos h, hs]
    unfold moved
    rw [if_neg hout, if_pos (hw.2 (.inr ⟨h1, h2⟩))]
  · rw [if_neg h]
    unfold moved
    have : (lo' ≤ (a - d).toNat ∧ (a - d).toNat < hi') ↔
        (lo ≤ (a - d).toNat ∧ (a - d).toNat < hi) := by
      rw [hw]
      constructor
      · rintro (h1 | h1)
        · exact h1
        · exact absurd (hoff.2 h1) h
      · exact .inl
    simp only [this]

end Mem

/-- What the string instructions work on. -/
structure Strings where
  mem : Mem
  esi : W
  edi : W
  ecx : W
  df : Bool

namespace Strings

section

variable (m : Strings)

def cld : Strings := { m with df := false }

def std : Strings := { m with df := true }

/-- How far an instruction on `w` bytes moves its registers. -/
def stride (w : W) : W := if m.df then -w else w

def movsb : Strings :=
  { m with mem := Function.update m.mem m.edi (m.mem m.esi)
           esi := m.esi + m.stride 1
           edi := m.edi + m.stride 1 }

def movsl : Strings :=
  { m with mem := m.mem.store m.edi (m.mem.load m.esi)
           esi := m.esi + m.stride 4
           edi := m.edi + m.stride 4 }

end

def repeats (f : Strings → Strings) : Nat → Strings → Strings
  | 0, m => m
  | k + 1, m => repeats f k { f m with ecx := m.ecx - 1 }

/-- `rep`: as often as `%ecx` says. -/
def rep (f : Strings → Strings) (m : Strings) : Strings := repeats f m.ecx.toNat m

/-- A string move of `w` bytes. -/
def Moves (f : Strings → Strings) (w : Nat) : Prop :=
  ∀ m, f m = { m with mem := m.mem.block w m.edi m.esi
                      esi := m.esi + m.stride (BitVec.ofNat 32 w)
                      edi := m.edi + m.stride (BitVec.ofNat 32 w) }

theorem movsb_moves : Moves movsb 1 := fun m => by
  rw [movsb, Mem.update_eq_block]
  rfl

theorem movsl_moves : Moves movsl 4 := fun m => by
  rw [movsl, Mem.store_load_eq_block]
  rfl

/-- No byte of `n` is read after it was written, from the lowest on. -/
def UpSafe (d s : W) (n : Nat) : Prop := ∀ i < n, i ≤ (s + BitVec.ofNat 32 i - d).toNat

/-- No byte of `n` is read after it was written, from the highest on. -/
def DownSafe (d s : W) (n : Nat) : Prop :=
  ∀ i < n, (s + BitVec.ofNat 32 i - d).toNat ≤ i ∨ n ≤ (s + BitVec.ofNat 32 i - d).toNat

variable {f : Strings → Strings} {w n : Nat} {d s : W} {m₀ : Mem}

theorem repeats_df (hf : Moves f w) : ∀ (c : Nat) (m : Strings), (repeats f c m).df = m.df
  | 0, _ => rfl
  | c + 1, m => by
    rw [repeats, repeats_df hf c, hf]

variable (m₀)

/-- Upward, `k` bytes are moved and `c` moves are left. -/
theorem repeats_up (hf : Moves f w) (hsafe : UpSafe d s n) (hn : n ≤ 2 ^ 32) :
    ∀ (c k : Nat) (m : Strings), k + w * c ≤ n → m.df = false → m.mem = m₀.moved d s 0 k →
      m.edi = d + BitVec.ofNat 32 k → m.esi = s + BitVec.ofNat 32 k →
      (repeats f c m).mem = m₀.moved d s 0 (k + w * c)
  | 0, k, m, _, _, hm, _, _ => hm
  | c + 1, k, m, hk, hdf, hm, hd, hs => by
    have hc : k + w + w * c = k + w * (c + 1) := by rw [Nat.mul_succ]; omega
    have hstride : ∀ x : W, x + BitVec.ofNat 32 k + m.stride (BitVec.ofNat 32 w) =
        x + BitVec.ofNat 32 (k + w) := fun x => by
      rw [stride, hdf, BitVec.ofNat_add, BitVec.add_assoc]
      rfl
    rw [repeats, ← hc]
    refine repeats_up hf hsafe hn c (k + w) _ (by omega) ?_ ?_ ?_ ?_ <;> simp only [hf m]
    · exact hdf
    · rw [hm, hd, hs]
      refine Mem.block_moved (by omega) ?_ (fun o => by omega)
      intro i hi
      have := hsafe (k + i) (by omega)
      omega
    · rw [hd, hstride]
    · rw [hs, hstride]

/-- Downward, the bytes from `lo` on are moved and `c` moves are left. -/
theorem repeats_down (hf : Moves f w) (hsafe : DownSafe d s n) (hn : n ≤ 2 ^ 32) :
    ∀ (c lo : Nat) (m : Strings), w * c ≤ lo → lo ≤ n → m.df = true →
      m.mem = m₀.moved d s lo n → m.edi = d + BitVec.ofNat 32 lo - BitVec.ofNat 32 w →
      m.esi = s + BitVec.ofNat 32 lo - BitVec.ofNat 32 w →
      (repeats f c m).mem = m₀.moved d s (lo - w * c) n
  | 0, lo, m, _, _, _, hm, _, _ => hm
  | c + 1, lo, m, hlo, hn', hdf, hm, hd, hs => by
    rw [Nat.mul_succ] at hlo ⊢
    have hc : lo - w - w * c = lo - (w * c + w) := by omega
    have hat : ∀ x : W, x + BitVec.ofNat 32 lo - BitVec.ofNat 32 w =
        x + BitVec.ofNat 32 (lo - w) := fun x => by
      have : BitVec.ofNat 32 lo = BitVec.ofNat 32 (lo - w) + BitVec.ofNat 32 w := by
        rw [← BitVec.ofNat_add, Nat.sub_add_cancel (by omega)]
      rw [this, ← BitVec.add_assoc, BitVec.add_sub_cancel]
    have hstride : ∀ x : W, x + m.stride (BitVec.ofNat 32 w) = x - BitVec.ofNat 32 w := fun x => by
      rw [stride, hdf, BitVec.sub_eq_add_neg]
      rfl
    rw [repeats, ← hc]
    refine repeats_down hf hsafe hn c (lo - w) _ (by omega) (by omega) ?_ ?_ ?_ ?_ <;> simp only [hf m]
    · exact hdf
    · rw [hm, hd, hs, hat, hat]
      refine Mem.block_moved (by omega) ?_ (fun o => by omega)
      intro i hi
      have := hsafe (lo - w + i) (by omega)
      omega
    · rw [hstride, hd, hat]
    · rw [hstride, hs, hat]

end Strings

end Jos.Lib.Ia32
