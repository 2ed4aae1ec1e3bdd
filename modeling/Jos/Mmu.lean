import Mathlib.Algebra.GroupWithZero.Nat
import Mathlib.Data.Fintype.BigOperators

/-!
  Paging constants and the arithmetic of linear addresses and page-table entries (`inc/mmu.h`,
  `inc/memlayout.h`, the rounding macros of `inc/types.h`).

  Words, addresses and entries are 32-bit. A physical page (a *frame*) is named by its number, the
  index of its `struct PageInfo` in `pages`. A page of memory is 1024 words. -/

namespace Jos

abbrev Word := BitVec 32
abbrev Byte := BitVec 8

/-- Index into a page directory or a page table, or of a word in a page. -/
abbrev Idx := Fin 1024

instance neZeroIdx : NeZero 1024 := ⟨by decide⟩

/-- Contents of one frame, as 1024 words. -/
abbrev Page := Idx → Word

/-! ### Page-table entry flags -/

def pteP : Word := 0x001
def pteW : Word := 0x002
def pteU : Word := 0x004
def ptePwt : Word := 0x008
def ptePcd : Word := 0x010

/-- Bits the hardware ignores and user processes may set. -/
def pteAvail : Word := 0xE00

/-- Flags that system calls may use. -/
def pteSyscall : Word := pteAvail ||| pteP ||| pteW ||| pteU

/-- User-level marks on available bits (`inc/lib.h`, `lib/fork.c`). -/
def pteShare : Word := 0x400
def pteCow : Word := 0x800

/-! ### Layout of the address space -/

def pgsize : Nat := 4096
def ptsize : Nat := 4096 * 1024

def kernbase : Word := 0xF0000000
def kstacktop : Word := kernbase
def kstksize : Nat := 8 * pgsize
def kstkgap : Nat := 8 * pgsize
def mmiolim : Word := 0xEFC00000
def mmiobase : Word := 0xEF800000
def ulim : Word := mmiobase
def uvpt : Word := 0xEF400000
def upages : Word := 0xEF000000
def uenvs : Word := 0xEEC00000
def utop : Word := uenvs
def uxstacktop : Word := utop
def ustacktop : Word := 0xEEBFE000
def pftemp : Word := 0x7FF000

/-! ### Linear addresses -/

/-- Page number of an address. -/
def pgnum (la : Word) : Nat := la.toNat / 4096

/-- Page directory index of an address. -/
def pdx (la : Word) : Idx := Fin.ofNat 1024 (la.toNat / 4194304)

/-- Page table index of an address. -/
def ptx (la : Word) : Idx := Fin.ofNat 1024 (la.toNat / 4096)

/-- Offset of an address in its page. -/
def pgoff (la : Word) : Nat := la.toNat % 4096

/-- The address with directory index `d`, table index `t` and offset 0. -/
def pgaddr (d t : Idx) : Word := BitVec.ofNat 32 (d.val * 4194304 + t.val * 4096)

/-- Round down to a multiple of the page size. -/
def rounddown (a : Word) : Word := a - BitVec.ofNat 32 (a.toNat % pgsize)

/-- Round up to a multiple of the page size, in 32-bit arithmetic. -/
def roundup (a : Word) : Word := rounddown (a + BitVec.ofNat 32 (pgsize - 1))

/-- Directory index of the recursive mapping, and the first one that user code may not edit. -/
def uvptPdx : Idx := pdx uvpt
def utopPdx : Idx := pdx utop

/-! ### Entries -/

/-- Physical address of the frame `pp`, as a 32-bit value. -/
def page2pa (pp : Nat) : Word := BitVec.ofNat 32 (pp * 4096)

/-- The frame an entry points at, if the entry is present. -/
def entryFrame (w : Word) : Option Nat := if w &&& pteP = 0 then none else some (pgnum w)

theorem entryFrame_zero : entryFrame 0 = none := rfl

@[simp] theorem entryFrame_ofNat_zero : entryFrame 0#32 = none := rfl

theorem entryFrame_of_present {w : Word} (h : w &&& pteP ≠ 0) : entryFrame w = some (pgnum w) :=
  if_neg h

theorem entryFrame_eq_none {w : Word} : entryFrame w = none ↔ w &&& pteP = 0 := by
  unfold entryFrame; split <;> simp_all

theorem entryFrame_eq_some {w : Word} {f : Nat} :
    entryFrame w = some f ↔ w &&& pteP ≠ 0 ∧ pgnum w = f := by
  unfold entryFrame; split <;> simp_all

/-- The low bit decides presence. -/
theorem present_iff {w : Word} : w &&& pteP ≠ 0 ↔ w.getLsbD 0 = true := by
  constructor
  · intro h
    by_contra h0
    refine h (BitVec.eq_of_getLsbD_eq fun i hi => ?_)
    rw [BitVec.getLsbD_and]
    by_cases hi0 : i = 0
    · subst hi0; simp_all [pteP]
    · have : pteP.getLsbD i = false := by
        have hp : pteP = BitVec.twoPow 32 0 := by decide
        rw [hp, BitVec.getLsbD_twoPow]; simp [Ne.symm hi0]
      simp [this]
  · intro h h0
    have hx : (w &&& pteP).getLsbD 0 = false := by rw [h0]; rfl
    rw [BitVec.getLsbD_and, h] at hx
    exact absurd hx (by decide)

/-- An entry with the present bit or-ed in is present. -/
theorem present_or (w : Word) : (w ||| pteP) &&& pteP ≠ 0 := by
  rw [present_iff, BitVec.getLsbD_or]; simp [pteP]

theorem pgnum_or (a b : Word) : pgnum (a ||| b) = pgnum a ||| pgnum b := by
  have h : ∀ n : Nat, n / 4096 = n >>> 12 := fun n => by rw [Nat.shiftRight_eq_div_pow]
  simp only [pgnum, BitVec.toNat_or, h, Nat.shiftRight_or_distrib]

theorem pgnum_page2pa {pp : Nat} (h : pp < 2 ^ 20) : pgnum (page2pa pp) = pp := by
  simp only [pgnum, page2pa, BitVec.toNat_ofNat]
  omega

/-- A physical page address has no flag bits. -/
theorem page2pa_flags (pp : Nat) : page2pa pp &&& 0xFFF = 0 := by
  apply BitVec.eq_of_toNat_eq
  rw [page2pa, BitVec.toNat_and, BitVec.toNat_ofNat]
  have : (0xFFF : Word).toNat = 2 ^ 12 - 1 := by decide
  rw [this, Nat.and_two_pow_sub_one_eq_mod]
  show pp * 4096 % 2 ^ 32 % 2 ^ 12 = 0
  omega

theorem pgnum_lt (w : Word) : pgnum w < 2 ^ 20 := by
  have := w.isLt
  simp only [pgnum]; omega

/-- The frame of an entry built as the source builds them. -/
theorem entryFrame_mk {pp : Nat} (perm : Word) (h : pp < 2 ^ 20) :
    entryFrame (page2pa pp ||| perm ||| pteP) = some (pp ||| pgnum perm) := by
  rw [entryFrame_of_present (present_or _), pgnum_or, pgnum_or, pgnum_page2pa h]
  have : pgnum pteP = 0 := by decide
  rw [this, Nat.or_zero]

theorem entryFrame_mk_of_lt {pp : Nat} {perm : Word} (h : pp < 2 ^ 20) (hp : perm.toNat < 4096) :
    entryFrame (page2pa pp ||| perm ||| pteP) = some pp := by
  rw [entryFrame_mk perm h, pgnum, Nat.div_eq_of_lt hp, Nat.or_zero]

/-! ### Splitting and joining addresses -/

theorem pdx_val (la : Word) : (pdx la).val = la.toNat / 4194304 := by
  have := la.isLt
  simp only [pdx, Fin.ofNat]; omega

theorem ptx_val (la : Word) : (ptx la).val = la.toNat / 4096 % 1024 := rfl

theorem pgnum_eq (la : Word) : pgnum la = (pdx la).val * 1024 + (ptx la).val := by
  rw [pdx_val, ptx_val, pgnum]; omega

theorem pdx_pgaddr (d t : Idx) : pdx (pgaddr d t) = d := by
  apply Fin.ext
  have := d.isLt; have := t.isLt
  rw [pdx_val, pgaddr, BitVec.toNat_ofNat]; omega

theorem ptx_pgaddr (d t : Idx) : ptx (pgaddr d t) = t := by
  apply Fin.ext
  have := d.isLt; have := t.isLt
  rw [ptx_val, pgaddr, BitVec.toNat_ofNat]; omega

theorem utopPdx_val : utopPdx.val = 955 := by decide

/-- Addresses below `UTOP` are those whose directory index is below that of `UTOP`. -/
theorem pdx_lt_utopPdx {va : Word} : pdx va < utopPdx ↔ va < utop := by
  rw [Fin.lt_def, utopPdx_val, pdx_val, BitVec.lt_def]
  have : utop.toNat = 955 * 4194304 := by decide
  omega

/-! ### Rounding -/

theorem rounddown_toNat (a : Word) : (rounddown a).toNat = a.toNat / 4096 * 4096 := by
  have ha := a.isLt
  have hm : a.toNat % 4096 ≤ a.toNat := Nat.mod_le _ _
  rw [rounddown, BitVec.toNat_sub, BitVec.toNat_ofNat]
  have hp : pgsize = 4096 := rfl
  rw [hp]
  omega

theorem roundup_toNat {a : Word} (h : a.toNat + 4095 < 2 ^ 32) :
    (roundup a).toNat = (a.toNat + 4095) / 4096 * 4096 := by
  have : (a + BitVec.ofNat 32 (pgsize - 1)).toNat = a.toNat + 4095 := by
    rw [BitVec.toNat_add, BitVec.toNat_ofNat]
    have hp : pgsize = 4096 := rfl
    rw [hp]
    omega
  rw [roundup, rounddown_toNat, this]

end Jos
