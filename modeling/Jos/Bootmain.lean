import Jos.Lib.Ia32
import Jos.Mmu

/-!
  The boot loader (`boot/main.c`).

  `readseg` reads whole sectors, so it also writes the bytes before a segment that share its first
  sector, and the bytes behind it that share its last one. The second kind is overwritten by the
  segments that follow. The first kind may belong to an earlier segment, and gets the bytes that the
  image has in front of the later one: where the earlier segment was cleared, or where the two lie
  at different distances in the image and in memory, these are the wrong ones. -/

namespace Jos.Bootmain

open Lib.Ia32

/-- `SECTSIZE`. -/
abbrev sectsize : Nat := 512

/-- `ELFHDR`, the scratch space. -/
def elfhdr : Word := 0x10000

/-- `ELF_MAGIC`. -/
def elfMagic : Word := 0x464C457F

/-- A 16-bit field, little end first. -/
def half (m : Mem) (a : Word) : BitVec 16 := m (a + 1) ++ m a

/-- The part of `struct Proghdr` that `bootmain` reads. -/
structure Proghdr where
  pOffset : Word
  pPa : Word
  pFilesz : Word
  pMemsz : Word
  deriving DecidableEq

/-- The program header at `ph`. -/
def proghdr (m : Mem) (ph : Word) : Proghdr :=
  ⟨m.load (ph + 4), m.load (ph + 12), m.load (ph + 16), m.load (ph + 20)⟩

/-- `readsect`. The drive takes 28 bits of the sector number. -/
def readsect (disk : Nat → Byte) (dst offset : Word) (m : Mem) : Mem := fun a =>
  if (a - dst).toNat < sectsize then
    disk (offset.toNat % 2 ^ 28 * sectsize + (a - dst).toNat)
  else m a

/-- The loop of `readseg`. `none` stands for a loop that does not end. -/
def readsegLoop (disk : Nat → Byte) (endPa : Word) : Nat → Word → Word → Mem → Option Mem
  | 0, pa, _, m => if pa < endPa then none else some m
  | fuel + 1, pa, offset, m =>
    if pa < endPa then
      readsegLoop disk endPa fuel (pa + BitVec.ofNat 32 sectsize) (offset + 1)
        (readsect disk pa offset m)
    else some m

/-- `readseg`. There are `2 ^ 23` sector boundaries, so a loop that passes more never ends. -/
def readseg (disk : Nat → Byte) (pa count offset : Word) (m : Mem) : Option Mem :=
  readsegLoop disk (pa + count) (2 ^ 23) (pa - BitVec.ofNat 32 (pa.toNat % sectsize))
    (offset / BitVec.ofNat 32 sectsize + 1) m

/-- The loop of `bootmain` that clears the end of a segment. Its bounds are read from the program
    header each time. -/
def clearLoop (ph : Word) : Nat → Word → Mem → Mem
  | 0, _, m => m
  | fuel + 1, i, m =>
    let p := proghdr m ph
    if i < p.pMemsz - p.pFilesz then
      clearLoop ph fuel (i + 1) fun a => if a = p.pPa + p.pFilesz + i then 0 else m a
    else m

/-- Load the segment that the program header at `ph` describes. -/
def loadSegment (disk : Nat → Byte) (ph : Word) (m : Mem) : Option Mem := do
  let p := proghdr m ph
  let m ← readseg disk p.pPa p.pMemsz p.pOffset m
  return clearLoop ph (2 ^ 32) 0 m

/-- The loop of `bootmain` over the program headers; `e_phnum` has 16 bits. -/
def loadLoop (disk : Nat → Byte) (eph : Word) : Nat → Word → Mem → Option Mem
  | 0, _, m => some m
  | fuel + 1, ph, m =>
    if ph < eph then do
      let m ← loadSegment disk ph m
      loadLoop disk eph fuel (ph + 32) m
    else some m

/-- `bootmain` up to the jump into the kernel, which it may never reach. -/
def bootmain (disk : Nat → Byte) (m : Mem) : Option Mem := do
  let m ← readseg disk elfhdr (BitVec.ofNat 32 (sectsize * 8)) 0 m
  if m.load elfhdr ≠ elfMagic then none
  else
    let ph := elfhdr + m.load (elfhdr + 28)
    let eph := ph + 32 * (half m (elfhdr + 44)).setWidth 32
    loadLoop disk eph (2 ^ 16) ph m

/-! ### The image -/

/-- Byte `n` of the kernel image, which starts at the second sector. -/
def image (disk : Nat → Byte) (n : Nat) : Byte := disk (sectsize + n)

/-- The start of the image, laid out at `ELFHDR`. -/
def header (disk : Nat → Byte) : Mem := fun a => image disk (a - elfhdr).toNat

def ePhoff (disk : Nat → Byte) : Word := (header disk).load (elfhdr + 28)

def ePhnum (disk : Nat → Byte) : Nat := (half (header disk) (elfhdr + 44)).toNat

/-- Where program header `i` is in memory. -/
def phAt (disk : Nat → Byte) (i : Nat) : Word :=
  elfhdr + ePhoff disk + BitVec.ofNat 32 (32 * i)

/-- The program headers of the image. -/
def segments (disk : Nat → Byte) : List Proghdr :=
  (List.range (ePhnum disk)).map fun i => proghdr (header disk) (phAt disk i)

namespace Proghdr

/-- The end of the segment in memory. -/
def endPa (p : Proghdr) : Nat := p.pPa.toNat + p.pMemsz.toNat

/-- Address `a` belongs to the segment. -/
def Holds (p : Proghdr) (a : Nat) : Prop := p.pPa.toNat ≤ a ∧ a < p.endPa

/-- The sectors read for the segment include the one at `a`. -/
def Reads (p : Proghdr) (a : Nat) : Prop :=
  p.pPa.toNat / sectsize ≤ a / sectsize ∧ a / sectsize * sectsize < p.endPa

instance (p : Proghdr) (a : Nat) : Decidable (p.Reads a) := inferInstanceAs (Decidable (_ ∧ _))

/-- The position in the image of the byte that reading the segment puts at `a`. -/
def source (p : Proghdr) (a : Nat) : Nat :=
  (p.pOffset.toNat / sectsize + (a / sectsize - p.pPa.toNat / sectsize)) * sectsize + a % sectsize

/-- The byte that the segment should have at `p_pa + k`. -/
def content (p : Proghdr) (disk : Nat → Byte) (k : Nat) : Byte :=
  if k < p.pFilesz.toNat then image disk (p.pOffset.toNat + k) else 0

end Proghdr

/-- A kernel image as the linker lays it out. -/
structure WellFormed (disk : Nat → Byte) : Prop where
  magic : (header disk).load elfhdr = elfMagic
  fits : (ePhoff disk).toNat + 32 * ePhnum disk ≤ sectsize * 8
  filesz : ∀ p ∈ segments disk, p.pFilesz.toNat ≤ p.pMemsz.toNat
  range : ∀ p ∈ segments disk, p.endPa < 2 ^ 32
  away : ∀ p ∈ segments disk, p.endPa ≤ 0x10000 ∨ 0x11000 ≤ p.pPa.toNat
  congr : ∀ p ∈ segments disk, p.pPa.toNat % sectsize = p.pOffset.toNat % sectsize
  sorted : (segments disk).Pairwise fun p q => p.pPa.toNat ≤ q.pPa.toNat
  disjoint : (segments disk).Pairwise fun p q => ∀ a, p.Holds a → ¬ q.Holds a

/-- Every byte of every segment is what the image says. -/
def Loaded (disk : Nat → Byte) (m : Mem) : Prop :=
  ∀ p ∈ segments disk, ∀ k < p.pMemsz.toNat, m (p.pPa + BitVec.ofNat 32 k) = p.content disk k

/-- Where the sector of a byte of segment `p` is read again for a segment in `later`, the last of
    them brings the byte that `p` has there. -/
def Agrees (disk : Nat → Byte) (p : Proghdr) (later : List Proghdr) : Prop :=
  ∀ k < p.pMemsz.toNat, ∀ q,
    later.reverse.find? (fun q => decide (q.Reads (p.pPa.toNat + k))) = some q →
      image disk (q.source (p.pPa.toNat + k)) = p.content disk k

/-! ### Reading sectors -/

section

variable {disk : Nat → Byte} {m : Mem} {p : Proghdr} {a : Word}

theorem readsect_apply {dst offset : Word} (h : dst.toNat + sectsize ≤ 2 ^ 32)
    (ho : offset.toNat < 2 ^ 28) : readsect disk dst offset m a =
      if dst.toNat ≤ a.toNat ∧ a.toNat < dst.toNat + sectsize then
        disk (offset.toNat * sectsize + (a.toNat - dst.toNat)) else m a := by
  have ha := a.isLt
  have hd := dst.isLt
  simp only [sectsize] at h
  unfold readsect
  rw [Nat.mod_eq_of_lt ho]
  by_cases hin : dst.toNat ≤ a.toNat ∧ a.toNat < dst.toNat + sectsize
  · simp only [sectsize] at hin
    have hsub : (a - dst).toNat = a.toNat - dst.toNat := by rw [BitVec.toNat_sub]; omega
    rw [hsub, if_pos (by simp only [sectsize]; omega), if_pos hin]
  · rw [if_neg hin, if_neg]
    simp only [sectsize] at hin ⊢
    rw [BitVec.toNat_sub]
    omega

/-- The loop of `readseg` reads every sector from `pa` on that starts before `end_pa`. -/
theorem readsegLoop_eq {endPa : Word} (hend : endPa.toNat + sectsize ≤ 2 ^ 32) :
    ∀ {fuel : Nat} {pa offset : Word} {m : Mem}, pa.toNat % sectsize = 0 →
      endPa.toNat ≤ pa.toNat + sectsize * fuel → offset.toNat ≤ 2 ^ 24 + pa.toNat / sectsize →
      readsegLoop disk endPa fuel pa offset m = some fun a =>
        if pa.toNat ≤ a.toNat ∧ a.toNat / sectsize * sectsize < endPa.toNat then
          disk ((offset.toNat + (a.toNat / sectsize - pa.toNat / sectsize)) * sectsize
            + a.toNat % sectsize)
        else m a
  | 0, pa, offset, m, hpa, hf, _ => by
    simp only [sectsize] at *
    have hle : ¬ pa < endPa := by rw [BitVec.lt_def]; omega
    rw [readsegLoop, if_neg hle]
    refine congrArg some (funext fun a => ?_)
    rw [if_neg]
    omega
  | fuel + 1, pa, offset, m, hpa, hf, ho => by
    rw [readsegLoop]
    simp only [sectsize] at hend hpa hf ho
    have hb := pa.isLt
    by_cases hlt : pa < endPa
    · rw [if_pos hlt]
      rw [BitVec.lt_def] at hlt
      have hpa' : (pa + BitVec.ofNat 32 sectsize).toNat = pa.toNat + 512 := by
        rw [BitVec.toNat_add, BitVec.toNat_ofNat]
        simp only [sectsize]
        omega
      have ho' : (offset + 1).toNat = offset.toNat + 1 := by
        rw [BitVec.toNat_add]
        have h1 : (1 : Word).toNat = 1 := rfl
        omega
      rw [readsegLoop_eq hend (by rw [hpa']; simp only [sectsize]; omega)
        (by rw [hpa']; simp only [sectsize]; omega)
        (by rw [hpa', ho']; simp only [sectsize]; omega)]
      refine congrArg some (funext fun a => ?_)
      rw [readsect_apply (by simp only [sectsize]; omega) (by omega), hpa', ho']
      simp only [sectsize]
      by_cases hin : pa.toNat ≤ a.toNat ∧ a.toNat < pa.toNat + 512
      · rw [if_neg (by omega), if_pos hin, if_pos (by omega)]
        refine congrArg disk ?_
        omega
      · rw [if_neg hin]
        by_cases hnext : pa.toNat + 512 ≤ a.toNat ∧ a.toNat / 512 * 512 < endPa.toNat
        · rw [if_pos hnext, if_pos (by omega)]
          refine congrArg disk ?_
          omega
        · rw [if_neg hnext, if_neg (by omega)]
    · rw [if_neg hlt]
      rw [BitVec.lt_def] at hlt
      refine congrArg some (funext fun a => ?_)
      simp only [sectsize]
      rw [if_neg (by omega)]

/-- No sector starts behind an end in the last sector, so the loop goes around. -/
theorem readsegLoop_none {endPa : Word} (hend : 2 ^ 32 < endPa.toNat + sectsize) :
    ∀ {fuel : Nat} {pa offset : Word} {m : Mem}, pa.toNat % sectsize = 0 →
      readsegLoop disk endPa fuel pa offset m = none
  | fuel, pa, offset, m, hpa => by
    simp only [sectsize] at hend hpa
    have hb := pa.isLt
    have hlt : pa < endPa := by rw [BitVec.lt_def]; omega
    cases fuel with
    | zero => rw [readsegLoop, if_pos hlt]
    | succ fuel =>
      rw [readsegLoop, if_pos hlt]
      refine readsegLoop_none hend ?_
      rw [BitVec.toNat_add, BitVec.toNat_ofNat]
      simp only [sectsize]
      omega

/-- Reading the sectors of a segment. -/
theorem readseg_eq (hr : p.endPa < 2 ^ 32) : readseg disk p.pPa p.pMemsz p.pOffset m =
    if p.endPa + sectsize ≤ 2 ^ 32 then
      some fun a => if p.Reads a.toNat then image disk (p.source a.toNat) else m a
    else none := by
  have hpa := p.pPa.isLt
  have hoff := p.pOffset.isLt
  have hend : (p.pPa + p.pMemsz).toNat = p.endPa := by
    simp only [Proghdr.endPa] at hr ⊢
    rw [BitVec.toNat_add]
    omega
  have hdown : (p.pPa - BitVec.ofNat 32 (p.pPa.toNat % sectsize)).toNat
      = p.pPa.toNat / sectsize * sectsize := by
    rw [BitVec.toNat_sub, BitVec.toNat_ofNat]
    simp only [sectsize]
    omega
  have hsect : (p.pOffset / BitVec.ofNat 32 sectsize + 1).toNat
      = p.pOffset.toNat / sectsize + 1 := by
    have h1 : (1 : Word).toNat = 1 := rfl
    have h512 : (BitVec.ofNat 32 sectsize).toNat = 512 := rfl
    rw [BitVec.toNat_add, BitVec.toNat_udiv, h512, h1]
    simp only [sectsize]
    omega
  have halign : p.pPa.toNat / sectsize * sectsize % sectsize = 0 := Nat.mul_mod_left ..
  unfold readseg
  split
  · rename_i hle
    rw [readsegLoop_eq (by rw [hend]; exact hle) (by rw [hdown]; exact halign)
      (by rw [hend, hdown]; simp only [sectsize] at *; omega)
      (by rw [hsect]; simp only [sectsize]; omega), hend, hdown, hsect]
    refine congrArg some (funext fun a => ?_)
    simp only [Proghdr.Reads, Proghdr.source, image, sectsize]
    refine if_congr (by omega) ?_ rfl
    congr 1
    omega
  · rename_i hgt
    refine readsegLoop_none ?_ (by rw [hdown]; exact halign)
    rw [hend]
    omega

/-! ### The program headers in the scratch space -/

/-- The scratch space still holds the start of the image. -/
def SameHeader (disk : Nat → Byte) (m : Mem) : Prop :=
  ∀ a : Word, 0x10000 ≤ a.toNat → a.toNat < 0x11000 → m a = header disk a

theorem SameHeader.load (h : SameHeader disk m) (h0 : 0x10000 ≤ a.toNat)
    (h1 : a.toNat + 4 ≤ 0x11000) : m.load a = (header disk).load a := by
  have hk : ∀ k : Word, k.toNat < 4 → m (a + k) = header disk (a + k) := by
    intro k hk
    have : (a + k).toNat = a.toNat + k.toNat := by rw [BitVec.toNat_add]; omega
    exact h _ (by omega) (by omega)
  have h00 : m a = header disk a := h a h0 (by omega)
  unfold Mem.load
  rw [hk 3 (by decide), hk 2 (by decide), hk 1 (by decide), h00]

theorem SameHeader.proghdr {ph : Word} (h : SameHeader disk m) (h0 : 0x10000 ≤ ph.toNat)
    (h1 : ph.toNat + 32 ≤ 0x11000) : proghdr m ph = proghdr (header disk) ph := by
  have hk : ∀ k : Word, k.toNat ≤ 28 → m.load (ph + k) = (header disk).load (ph + k) := by
    intro k hk
    have : (ph + k).toNat = ph.toNat + k.toNat := by rw [BitVec.toNat_add]; omega
    exact h.load (by omega) (by omega)
  unfold Bootmain.proghdr
  rw [hk 4 (by decide), hk 12 (by decide), hk 16 (by decide), hk 20 (by decide)]

/-! ### Loading one segment -/

namespace Proghdr

/-- Memory after the segment has been read and its end cleared. -/
def after (p : Proghdr) (disk : Nat → Byte) (m : Mem) : Mem := fun a =>
  if p.pPa.toNat + p.pFilesz.toNat ≤ a.toNat ∧ a.toNat < p.endPa then 0
  else if p.Reads a.toNat then image disk (p.source a.toNat) else m a

/-- Away from the scratch space neither the segment nor its sectors touch the headers. -/
theorem after_header (ha : p.endPa ≤ 0x10000 ∨ 0x11000 ≤ p.pPa.toNat) (h : SameHeader disk m) :
    SameHeader disk (p.after disk m) := by
  intro a h0 h1
  have hle : p.pPa.toNat ≤ p.endPa := Nat.le_add_right ..
  unfold after
  rw [if_neg (by omega), if_neg (by simp only [Reads, sectsize]; omega)]
  exact h a h0 h1

/-- The segment itself is right. -/
theorem after_content (hc : p.pPa.toNat % sectsize = p.pOffset.toNat % sectsize)
    (hr : p.endPa < 2 ^ 32) {k : Nat} (hk : k < p.pMemsz.toNat) :
    p.after disk m (p.pPa + BitVec.ofNat 32 k) = p.content disk k := by
  have ha : (p.pPa + BitVec.ofNat 32 k).toNat = p.pPa.toNat + k := by
    simp only [endPa] at hr
    rw [BitVec.toNat_add, BitVec.toNat_ofNat]
    omega
  simp only [after, content, ha, Reads, source, endPa, sectsize] at hc ⊢
  by_cases hf : k < p.pFilesz.toNat
  · rw [if_neg (by omega), if_pos (by omega), if_pos hf]
    congr 1
    omega
  · rw [if_pos (by omega), if_neg hf]

/-- Outside the segment only its sectors are written. -/
theorem after_outside (h : ¬ p.Holds a.toNat) :
    p.after disk m a = if p.Reads a.toNat then image disk (p.source a.toNat) else m a := by
  unfold after
  rw [if_neg]
  simp only [Holds] at h
  omega

end Proghdr

/-- Clearing the end of a segment that the headers are not part of. -/
theorem clearLoop_eq {ph : Word} (hp : proghdr (header disk) ph = p)
    (h0 : 0x10000 ≤ ph.toNat) (h1 : ph.toNat + 32 ≤ 0x11000)
    (hf : p.pFilesz.toNat ≤ p.pMemsz.toNat) (hr : p.endPa < 2 ^ 32)
    (ha : p.endPa ≤ 0x10000 ∨ 0x11000 ≤ p.pPa.toNat) :
    ∀ {fuel : Nat} {i : Word} {m : Mem}, SameHeader disk m →
      p.pMemsz.toNat ≤ p.pFilesz.toNat + i.toNat + fuel → clearLoop ph fuel i m = fun a =>
        if p.pPa.toNat + p.pFilesz.toNat + i.toNat ≤ a.toNat ∧ a.toNat < p.endPa then 0 else m a
  | 0, i, m, _, hfuel => by
    funext a
    rw [clearLoop, if_neg]
    simp only [Proghdr.endPa]
    omega
  | fuel + 1, i, m, hm, hfuel => by
    have hsub : (p.pMemsz - p.pFilesz).toNat = p.pMemsz.toNat - p.pFilesz.toNat := by
      have := p.pMemsz.isLt
      rw [BitVec.toNat_sub]
      omega
    have hendPa : p.endPa = p.pPa.toNat + p.pMemsz.toNat := rfl
    rw [clearLoop, hm.proghdr h0 h1, hp]
    by_cases hlt : i < p.pMemsz - p.pFilesz
    · rw [if_pos hlt]
      rw [BitVec.lt_def, hsub] at hlt
      have hi : (i + 1).toNat = i.toNat + 1 := by
        have h1 : (1 : Word).toNat = 1 := rfl
        rw [BitVec.toNat_add]
        omega
      have hat : (p.pPa + p.pFilesz + i).toNat = p.pPa.toNat + p.pFilesz.toNat + i.toNat := by
        rw [BitVec.toNat_add, BitVec.toNat_add]
        omega
      rw [clearLoop_eq hp h0 h1 hf hr ha (fun a ha0 ha1 => ?_) (by omega)]
      · funext a
        simp only [hi]
        by_cases hcell : a = p.pPa + p.pFilesz + i
        · have := congrArg BitVec.toNat hcell
          rw [hat] at this
          rw [if_neg (by omega), if_pos hcell, if_pos (by omega)]
        · have hne : a.toNat ≠ p.pPa.toNat + p.pFilesz.toNat + i.toNat := by
            rintro heq
            exact hcell (BitVec.eq_of_toNat_eq (heq.trans hat.symm))
          rw [if_neg hcell]
          refine if_congr ?_ rfl rfl
          omega
      · have hne : a ≠ p.pPa + p.pFilesz + i := by
          rintro rfl
          rw [hat] at ha0 ha1
          omega
        rw [if_neg hne]
        exact hm a ha0 ha1
    · rw [if_neg hlt]
      rw [BitVec.lt_def, hsub] at hlt
      funext a
      rw [if_neg]
      omega

theorem loadSegment_eq {ph : Word} (hp : proghdr (header disk) ph = p)
    (h0 : 0x10000 ≤ ph.toNat) (h1 : ph.toNat + 32 ≤ 0x11000)
    (hf : p.pFilesz.toNat ≤ p.pMemsz.toNat) (hr : p.endPa < 2 ^ 32)
    (ha : p.endPa ≤ 0x10000 ∨ 0x11000 ≤ p.pPa.toNat) (hm : SameHeader disk m) :
    loadSegment disk ph m =
      if p.endPa + sectsize ≤ 2 ^ 32 then some (p.after disk m) else none := by
  have hle : p.pPa.toNat ≤ p.endPa := Nat.le_add_right ..
  unfold loadSegment
  simp only [hm.proghdr h0 h1, hp, readseg_eq hr]
  split
  · simp only [Option.bind_eq_bind, Option.bind_some, Option.pure_def]
    congr 1
    have hz : (0 : Word).toNat = 0 := rfl
    have hlt := p.pMemsz.isLt
    rw [clearLoop_eq hp h0 h1 hf hr ha (fun a ha0 ha1 => ?_) (by omega)]
    · rfl
    · rw [if_neg (by simp only [Proghdr.Reads, sectsize]; omega)]
      exact hm a ha0 ha1
  · rfl

/-! ### Loading all segments -/

/-- Load a segment whose program header is known. -/
def Proghdr.load (p : Proghdr) (disk : Nat → Byte) (m : Mem) : Option Mem :=
  if p.endPa + sectsize ≤ 2 ^ 32 then some (p.after disk m) else none

theorem WellFormed.phAt_toNat (h : WellFormed disk) {i : Nat} (hi : i ≤ ePhnum disk) :
    (phAt disk i).toNat = 0x10000 + (ePhoff disk).toNat + 32 * i := by
  have hfits := h.fits
  have he : elfhdr.toNat = 0x10000 := rfl
  simp only [sectsize] at hfits
  rw [phAt, BitVec.toNat_add, BitVec.toNat_add, BitVec.toNat_ofNat, he]
  omega

theorem segments_drop {i : Nat} (hi : i < ePhnum disk) : (segments disk).drop i =
    proghdr (header disk) (phAt disk i) :: (segments disk).drop (i + 1) := by
  have hlen : i < (segments disk).length := by simpa [segments] using hi
  rw [List.drop_eq_getElem_cons hlen]
  simp [segments]

/-- The loop over the program headers loads the segments in order. -/
theorem loadLoop_eq (h : WellFormed disk) : ∀ {k i fuel : Nat} {m : Mem}, i + k = ePhnum disk →
    k ≤ fuel → SameHeader disk m →
    loadLoop disk (phAt disk (ePhnum disk)) fuel (phAt disk i) m
      = ((segments disk).drop i).foldlM (fun m p => p.load disk m) m
  | 0, i, fuel, m, hi, _, _ => by
    obtain rfl : i = ePhnum disk := by omega
    have hnil : (segments disk).drop (ePhnum disk) = [] := by
      rw [List.drop_eq_nil_iff]
      simp [segments]
    rw [hnil, List.foldlM_nil]
    cases fuel with
    | zero => rfl
    | succ fuel => rw [loadLoop, if_neg (by rw [BitVec.lt_def]; omega)]; rfl
  | k + 1, i, fuel + 1, m, hi, hf, hm => by
    have hlt : i < ePhnum disk := by omega
    have hat := h.phAt_toNat (le_of_lt hlt)
    have hlast := h.phAt_toNat (le_refl (ePhnum disk))
    have hfits := h.fits
    simp only [sectsize] at hfits
    have hmem : proghdr (header disk) (phAt disk i) ∈ segments disk :=
      List.mem_map.mpr ⟨i, List.mem_range.mpr hlt, rfl⟩
    have hnext : phAt disk i + 32 = phAt disk (i + 1) := by
      apply BitVec.eq_of_toNat_eq
      have h32 : (32 : Word).toNat = 32 := rfl
      rw [h.phAt_toNat hlt, BitVec.toNat_add, hat, h32]
      omega
    rw [segments_drop hlt, List.foldlM_cons, loadLoop,
      if_pos (by rw [BitVec.lt_def, hat, hlast]; omega),
      loadSegment_eq rfl (by omega) (by omega) (h.filesz _ hmem) (h.range _ hmem) (h.away _ hmem)
        hm, hnext]
    unfold Proghdr.load
    split
    · exact loadLoop_eq h (k := k) (i := i + 1) (by omega) (by omega) (Proghdr.after_header (h.away _ hmem) hm)
    · rfl

/-- `bootmain` finds the program headers of a well-formed image and loads what they describe. -/
theorem bootmain_eq (h : WellFormed disk) (m : Mem) : ∃ m', SameHeader disk m' ∧
    bootmain disk m = (segments disk).foldlM (fun m p => p.load disk m) m' := by
  let scratch : Proghdr := ⟨0, elfhdr, 0, BitVec.ofNat 32 (sectsize * 8)⟩
  have hpa : scratch.pPa.toNat = 0x10000 := rfl
  have hend : scratch.endPa = 0x11000 := rfl
  have hoff : scratch.pOffset.toNat = 0 := rfl
  have hread : readseg disk scratch.pPa scratch.pMemsz scratch.pOffset m = _ :=
    readseg_eq (by rw [hend]; omega)
  rw [if_pos (by rw [hend]; simp only [sectsize]; omega)] at hread
  set m' : Mem := fun a =>
    if scratch.Reads a.toNat then image disk (scratch.source a.toNat) else m a with hm'
  have hsame : SameHeader disk m' := by
    intro a h0 h1
    have he : elfhdr.toNat = 0x10000 := rfl
    have hsub : (a - elfhdr).toNat = a.toNat - 0x10000 := by rw [BitVec.toNat_sub, he]; omega
    simp only [hm', Proghdr.Reads, Proghdr.source, hpa, hend, hoff, header, hsub, sectsize]
    rw [if_pos (by omega)]
    refine congrArg (image disk) ?_
    omega
  have hword : ∀ k : Word, k.toNat + 4 ≤ 0x1000 →
      m'.load (elfhdr + k) = (header disk).load (elfhdr + k) := by
    intro k hk
    have he : elfhdr.toNat = 0x10000 := rfl
    have : (elfhdr + k).toNat = 0x10000 + k.toNat := by rw [BitVec.toNat_add, he]; omega
    exact hsame.load (by omega) (by omega)
  have hhalf : half m' (elfhdr + 44) = half (header disk) (elfhdr + 44) := by
    unfold half
    rw [hsame (elfhdr + 44 + 1) (by decide) (by decide), hsame (elfhdr + 44) (by decide) (by decide)]
  have hmagic : m'.load elfhdr = elfMagic := (hword 0 (by decide)).trans h.magic
  have hphnum : 32 * (half (header disk) (elfhdr + 44)).setWidth 32
      = BitVec.ofNat 32 (32 * ePhnum disk) := by
    have h32 : (32 : Word).toNat = 32 := rfl
    apply BitVec.eq_of_toNat_eq
    rw [BitVec.toNat_mul, BitVec.toNat_setWidth, BitVec.toNat_ofNat, h32, ePhnum]
    have := (half (header disk) (elfhdr + 44)).isLt
    omega
  refine ⟨m', hsame, ?_⟩
  have hstart : elfhdr + ePhoff disk = phAt disk 0 := by
    rw [phAt, Nat.mul_zero, BitVec.add_zero]
  unfold bootmain
  have hread' : readseg disk elfhdr (BitVec.ofNat 32 (sectsize * 8)) 0 m = some m' := hread
  rw [hread']
  simp only [Option.bind_eq_bind, Option.bind_some]
  rw [if_neg (not_not.mpr hmagic), hword 28 (by decide), hhalf, hphnum]
  have hloop := loadLoop_eq h (by omega : 0 + ePhnum disk = ePhnum disk)
    (by have := (half (header disk) (elfhdr + 44)).isLt; simp only [ePhnum]; omega :
      ePhnum disk ≤ 2 ^ 16) hsame
  rw [List.drop_zero, ← hstart] at hloop
  exact hloop

/-- Loading fails on a segment that reaches into the last sector of the address space. -/
theorem foldlM_load {l : List Proghdr} : ∀ {m : Mem}, l.foldlM (fun m p => p.load disk m) m =
    if ∀ p ∈ l, p.endPa + sectsize ≤ 2 ^ 32 then some (l.foldl (fun m p => p.after disk m) m)
    else none := by
  induction l with
  | nil => intro m; simp
  | cons p l ih =>
    intro m
    rw [List.foldlM_cons, Proghdr.load]
    by_cases hp : p.endPa + sectsize ≤ 2 ^ 32
    · have hiff : (∀ q ∈ p :: l, q.endPa + sectsize ≤ 2 ^ 32) ↔
          ∀ q ∈ l, q.endPa + sectsize ≤ 2 ^ 32 := by
        rw [List.forall_mem_cons]
        exact and_iff_right hp
      rw [if_pos hp]
      simp only [Option.bind_eq_bind, Option.bind_some, ih, List.foldl_cons, hiff]
    · rw [if_neg hp, if_neg fun hall => hp (hall p (List.mem_cons_self ..))]
      rfl

/-- A byte outside all the segments is left to the last one whose sectors include it. -/
theorem foldl_after {l : List Proghdr} : ∀ {m : Mem}, (∀ q ∈ l, ¬ q.Holds a.toNat) →
    (l.foldl (fun m p => p.after disk m) m) a =
      match l.reverse.find? (fun q => decide (q.Reads a.toNat)) with
      | some q => image disk (q.source a.toNat)
      | none => m a := by
  induction l with
  | nil => intro m _; rfl
  | cons q l ih =>
    intro m hl
    rw [List.foldl_cons, ih fun q hq => hl q (List.mem_cons_of_mem _ hq), List.reverse_cons,
      List.find?_append]
    cases l.reverse.find? fun q => decide (q.Reads a.toNat) with
    | some q => rfl
    | none =>
      rw [Proghdr.after_outside (hl q (List.mem_cons_self ..))]
      by_cases hr : q.Reads a.toNat <;> simp [hr]

/-- The final byte at `p_pa + k` of a segment. -/
theorem WellFormed.final (h : WellFormed disk) {pre post : List Proghdr}
    (hs : segments disk = pre ++ p :: post) {k : Nat} (hk : k < p.pMemsz.toNat) :
    ((segments disk).foldl (fun m p => p.after disk m) m) (p.pPa + BitVec.ofNat 32 k) =
      match post.reverse.find? (fun q => decide (q.Reads (p.pPa.toNat + k))) with
      | some q => image disk (q.source (p.pPa.toNat + k))
      | none => p.content disk k := by
  have hp : p ∈ segments disk := by rw [hs]; simp
  have hr := h.range p hp
  have ha : (p.pPa + BitVec.ofNat 32 k).toNat = p.pPa.toNat + k := by
    simp only [Proghdr.endPa] at hr
    rw [BitVec.toNat_add, BitVec.toNat_ofNat]
    omega
  have hd := h.disjoint
  rw [hs] at hd
  have hlater := (List.pairwise_cons.mp (List.pairwise_append.mp hd).2.1).1
  rw [hs, List.foldl_append, List.foldl_cons, foldl_after fun q hq => ?_, ha,
    Proghdr.after_content (h.congr p hp) hr hk]
  rw [ha]
  refine hlater q hq _ ⟨Nat.le_add_right .., ?_⟩
  simp only [Proghdr.endPa]
  omega

/-- The segments are right at the end exactly if no sector that is read again brings something
    else. -/
theorem WellFormed.loaded_iff (h : WellFormed disk) (m : Mem) :
    Loaded disk ((segments disk).foldl (fun m p => p.after disk m) m) ↔
      ∀ pre p post, segments disk = pre ++ p :: post → Agrees disk p post := by
  constructor
  · intro hl pre p post hs k hk q hq
    have hp : p ∈ segments disk := by rw [hs]; simp
    have hfinal := h.final (m := m) hs hk
    rw [hq, hl p hp k hk] at hfinal
    exact hfinal.symm
  · intro ha p hp k hk
    obtain ⟨pre, post, hs⟩ := List.append_of_mem hp
    rw [h.final hs hk]
    cases hq : post.reverse.find? fun q => decide (q.Reads (p.pPa.toNat + k)) with
    | some q => exact ha pre p post hs k hk q hq
    | none => rfl

end

/-- For every well-formed image: `bootmain` reaches the jump into the kernel with every segment as
    the image describes it exactly if no segment reaches into the last sector of the address space
    and, wherever a later segment's sectors include a byte of an earlier segment, the image holds
    the same byte there. -/
theorem bootmain_loads_iff {disk : Nat → Byte} (h : WellFormed disk) (m : Mem) :
    (∃ m', bootmain disk m = some m' ∧ Loaded disk m') ↔
      (∀ p ∈ segments disk, p.endPa + sectsize ≤ 2 ^ 32) ∧
      ∀ pre p post, segments disk = pre ++ p :: post → Agrees disk p post := by
  obtain ⟨m0, -, hrun⟩ := bootmain_eq h m
  rw [foldlM_load] at hrun
  constructor
  · rintro ⟨m', hm', hl⟩
    rw [hrun] at hm'
    split at hm'
    · rename_i hend
      cases hm'
      exact ⟨hend, (h.loaded_iff m0).mp hl⟩
    · cases hm'
  · rintro ⟨hend, ha⟩
    rw [if_pos hend] at hrun
    exact ⟨_, hrun, (h.loaded_iff m0).mpr ha⟩

/-- A disk whose image starts with the words of `l`, little end first, and is not zero behind. -/
def diskOf (l : List Word) : Nat → Byte := fun n =>
  Mem.byte (l.getD ((n - sectsize) / 4) 0xAAAAAAAA) ((n - sectsize) % 4)

/-- An image with two program headers, each given by `p_offset`, `p_pa`, `p_filesz`, `p_memsz`. -/
def elfImage (p q : Proghdr) : Nat → Byte :=
  diskOf [elfMagic, 0, 0, 0, 0x30002, 1, 0x10000C, 52, 0, 0, 0x200034, 2, 0,
    1, p.pOffset, 0, p.pPa, p.pFilesz, p.pMemsz, 7, 0x1000,
    1, q.pOffset, 0, q.pPa, q.pFilesz, q.pMemsz, 7, 0x1000]

/-- A segment that is cleared behind its first 256 bytes. -/
def withBss : Proghdr := ⟨0x1000, 0x100000, 0x100, 0x180⟩

/-- The next segment on a page of its own. -/
def nextPage : Proghdr := ⟨0x2000, 0x101000, 0x40, 0x40⟩

/-- The next segment in the same sector. -/
def sameSector : Proghdr := ⟨0x11C0, 0x1001C0, 0x40, 0x40⟩

/-- What makes an image with these two headers well formed. -/
theorem elfImage_wellFormed {p q : Proghdr} (hs : segments (elfImage p q) = [p, q])
    (hm : (header (elfImage p q)).load elfhdr = elfMagic)
    (hfit : (ePhoff (elfImage p q)).toNat + 32 * ePhnum (elfImage p q) ≤ sectsize * 8)
    (hf : p.pFilesz.toNat ≤ p.pMemsz.toNat ∧ q.pFilesz.toNat ≤ q.pMemsz.toNat)
    (hr : 0x11000 ≤ p.pPa.toNat ∧ p.endPa ≤ q.pPa.toNat ∧ q.endPa < 2 ^ 32)
    (hc : p.pPa.toNat % sectsize = p.pOffset.toNat % sectsize ∧
      q.pPa.toNat % sectsize = q.pOffset.toNat % sectsize) : WellFormed (elfImage p q) := by
  have hpe : p.pPa.toNat ≤ p.endPa := Nat.le_add_right ..
  have hqe : q.pPa.toNat ≤ q.endPa := Nat.le_add_right ..
  refine ⟨hm, hfit, ?_, ?_, ?_, ?_, ?_, ?_⟩ <;> rw [hs]
  · simpa using hf
  · simp only [List.mem_cons, List.not_mem_nil, or_false, forall_eq_or_imp, forall_eq]
    omega
  · simp only [List.mem_cons, List.not_mem_nil, or_false, forall_eq_or_imp, forall_eq]
    omega
  · simpa using hc
  · simp only [List.pairwise_pair]
    omega
  · simp only [List.pairwise_pair]
    rintro a ⟨-, ha⟩ ⟨ha', -⟩
    omega

/-- An image whose segments lie on different pages. -/
theorem bootmain_loads_pages :
    ∃ m', bootmain (elfImage withBss nextPage) (fun _ => 0) = some m' ∧
      Loaded (elfImage withBss nextPage) m' := by
  have hs : segments (elfImage withBss nextPage) = [withBss, nextPage] := by decide
  refine (bootmain_loads_iff (elfImage_wellFormed hs (by decide) (by decide) (by decide)
    (by decide) (by decide)) _).mpr ⟨by rw [hs]; decide, ?_⟩
  intro pre p post hsplit k hk q hq
  rw [hs] at hsplit
  have hnot : ∀ k < withBss.pMemsz.toNat, ¬ nextPage.Reads (withBss.pPa.toNat + k) := by
    rintro k hk ⟨hle, -⟩
    have h1 : nextPage.pPa.toNat = 0x101000 := rfl
    have h2 : withBss.pPa.toNat = 0x100000 := rfl
    have h3 : withBss.pMemsz.toNat = 0x180 := rfl
    simp only [sectsize] at hle
    omega
  rcases pre with _ | ⟨x, _ | ⟨y, pre⟩⟩
  · cases hsplit
    simp [hnot k hk] at hq
  · cases hsplit
    simp at hq
  · simp at hsplit

/-- The second segment's sector is read over the cleared bytes of the first, which then hold what
    the image has between the two. -/
theorem cleared_bytes_overwritten : WellFormed (elfImage withBss sameSector) ∧
    ∃ m', bootmain (elfImage withBss sameSector) (fun _ => 0) = some m' ∧
      m' 0x100100 = 0xAA ∧ withBss.content (elfImage withBss sameSector) 0x100 = 0 ∧
      ¬ Loaded (elfImage withBss sameSector) m' := by
  have hs : segments (elfImage withBss sameSector) = [withBss, sameSector] := by decide
  have h : WellFormed (elfImage withBss sameSector) := elfImage_wellFormed hs (by decide)
    (by decide) (by decide) (by decide) (by decide)
  obtain ⟨m0, -, hrun⟩ := bootmain_eq h fun _ => 0
  rw [foldlM_load, if_pos (by rw [hs]; decide)] at hrun
  have hbyte := h.final (m := m0) (p := withBss) (k := 0x100)
    (show _ = [] ++ withBss :: [sameSector] from hs) (by decide)
  have hzero : withBss.content (elfImage withBss sameSector) 0x100 = 0 := by decide
  have haa : ((segments (elfImage withBss sameSector)).foldl
      (fun m p => p.after (elfImage withBss sameSector) m) m0) 0x100100 = 0xAA :=
    hbyte.trans (by decide)
  refine ⟨h, _, hrun, haa, hzero, fun hl => ?_⟩
  have hgood := hl withBss (by rw [hs]; simp) 0x100 (by decide)
  rw [hzero] at hgood
  exact absurd (haa.symm.trans hgood) (by decide)

end Jos.Bootmain
