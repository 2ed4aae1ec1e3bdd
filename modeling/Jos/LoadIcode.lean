import Jos.MapCalls
import Jos.Fault

/-!
  What `load_icode` makes of an ELF binary (`kern/env.c`).

  `region_alloc` maps every page from the one that holds `va` up to the one before `va + len`,
  rounded up. For an empty segment that does not start on a page, that is one page too many. -/

namespace Jos

open Lib RefCount

/-- The byte that `e` finds at `va`. -/
def byteAt (s : KState) (e : EnvIdx) (va : Word) : Option Byte :=
  (mappedAt s e va).map fun f => (s.mem f).byte (pgoff va)

namespace Proghdr

/-- A loadable segment. -/
def Load (ph : Proghdr) : Prop := ph.pType = elfProgLoad

instance (ph : Proghdr) : Decidable ph.Load := inferInstanceAs (Decidable (ph.pType = elfProgLoad))

/-- The segment has a byte in page `v`. -/
def Touches (ph : Proghdr) (v : Nat) : Prop :=
  0 < ph.pMemsz.toNat ∧ pgnum ph.pVa ≤ v ∧ v * 4096 < ph.pVa.toNat + ph.pMemsz.toNat

/-- `region_alloc` maps page `v` for the segment. -/
def Allocates (ph : Proghdr) (v : Nat) : Prop :=
  pgnum ph.pVa ≤ v ∧ v * 4096 < ph.pVa.toNat + ph.pMemsz.toNat

/-- How many pages that makes. -/
def pages (ph : Proghdr) : Nat :=
  (ph.pVa.toNat + ph.pMemsz.toNat + 4095) / 4096 - pgnum ph.pVa

/-- The byte that the ELF file puts at offset `k` of the segment. -/
def image (file : Nat → Byte) (ph : Proghdr) (k : Nat) : Byte :=
  if k < ph.pFilesz.toNat then file (ph.pOffset.toNat + k) else 0

end Proghdr

/-- First address of the page for the initial stack. -/
def stackPage : Word := ustacktop - BitVec.ofNat 32 pgsize

/-- What `load_icode` may assume of a binary: the magic number and an entry point, no more bytes in
    the file than in memory, segments below the stack, and no two of them on one page. -/
structure WellFormedImage (b : UserImage) : Prop where
  magic : b.magicOk = true
  entry : b.eEntry ≠ 0
  sizes : ∀ ph ∈ b.phdrs, ph.Load → ph.pFilesz.toNat ≤ ph.pMemsz.toNat
  below : ∀ ph ∈ b.phdrs, ph.Load → ph.pVa.toNat + ph.pMemsz.toNat ≤ stackPage.toNat
  disjoint : b.phdrs.Pairwise fun p q => p.Load → q.Load → ∀ v, p.Touches v → ¬ q.Touches v

/-- Free pages that are enough for the segments: a page and a page table for each page. -/
def pagesFor (l : List Proghdr) : Nat := (l.map fun ph => if ph.Load then 2 * ph.pages else 0).sum

/-- After `load_icode`, `e` has the image of the binary and a stack, and nothing else. -/
structure Realised (t : KState) (e : EnvIdx) (b : UserImage) : Prop where
  bytes : ∀ ph ∈ b.phdrs, ph.Load → ∀ k, k < ph.pMemsz.toNat →
    byteAt t e (ph.pVa + BitVec.ofNat 32 k) = some (ph.image b.file k)
  mapped : ∀ va, va < utop → (mappedAt t e va ≠ none ↔
    (∃ ph ∈ b.phdrs, ph.Load ∧ ph.Touches (pgnum va)) ∨ pgnum va = pgnum stackPage)
  frames : ∀ va f, va < utop → mappedAt t e va = some f →
    pteOf t e va = page2pa f ||| (pteW ||| pteU) ||| pteP ∧ (t.pages f).ppRef = 1 ∧
    ∀ va', va' < utop → mappedAt t e va' = some f → pgnum va' = pgnum va
  start : (t.envs e).envTf.tfEip = b.eEntry

/-- The same binary with its program headers in any order. -/
structure Reordered (b b' : UserImage) : Prop where
  magic : b'.magicOk = b.magicOk
  entry : b'.eEntry = b.eEntry
  file : b'.file = b.file
  phdrs : b'.phdrs.Perm b.phdrs

/-- A page that is mapped for an empty segment is touched by a segment further down the list. -/
def Settled : List Proghdr → Prop
  | [] => True
  | ph :: l => (ph.Load → ∀ v, ph.Allocates v → ¬ ph.Touches v → ∃ q ∈ l, q.Load ∧ q.Touches v) ∧
    Settled l

/-- While `load_icode` runs on the page directory `d` of `e`, whose pages nobody else has. -/
structure Loading (s : KState) (c : CpuIdx) (e : EnvIdx) (d : Nat) (L : List Nat) : Prop where
  page : PageInv s L ∅
  dir : (s.envs e).envPgdir = some d ∧ s.cr3 c = d
  sole : ∀ i j f, target s (.pte e i j) = some f → ∀ r, target s r = some f → r = .pte e i j
  flags : ∀ va f, va < utop → mappedAt s e va = some f →
    pteOf s e va = page2pa f ||| (pteW ||| pteU) ||| pteP

section

variable {s t : KState} {c : CpuIdx} {e : EnvIdx} {d : Nat} {L : List Nat} {va va' last : Word}

theorem pteOf_page (h : pgnum va' = pgnum va) : pteOf s e va' = pteOf s e va := by
  have hd : pdx va' = pdx va := by
    apply Fin.ext
    rw [pdx_val, pdx_val]
    unfold pgnum at h
    omega
  have ht : ptx va' = ptx va := by
    apply Fin.ext
    rw [ptx_val, ptx_val]
    unfold pgnum at h
    omega
  rw [pteOf, hd, ht, pteOf]

theorem mappedAt_page (h : pgnum va' = pgnum va) : mappedAt s e va' = mappedAt s e va :=
  congrArg entryFrame (pteOf_page h)

theorem at_iff : At va (pdx va') (ptx va') ↔ pgnum va' = pgnum va := by
  constructor
  · rintro ⟨h1, h2⟩
    rw [pgnum_eq, pgnum_eq, h1, h2]
  · intro h
    unfold pgnum at h
    refine ⟨Fin.ext ?_, Fin.ext ?_⟩
    · rw [pdx_val, pdx_val]
      omega
    · rw [ptx_val, ptx_val]
      omega

/-- One page more: `page_alloc` and `page_insert` in the loop of `region_alloc`. -/
structure Grown (s t : KState) (e : EnvIdx) (P : Nat → Prop) : Prop where
  only : PmOnly s t
  mapped : ∀ va, va < utop → (mappedAt t e va ≠ none ↔ mappedAt s e va ≠ none ∨ P (pgnum va))
  bytes : ∀ va, va < utop → ¬ P (pgnum va) → byteAt t e va = byteAt s e va

theorem Grown.refl (s : KState) (e : EnvIdx) {P : Nat → Prop} (hP : ∀ v, ¬ P v) : Grown s s e P :=
  ⟨.refl s, fun va _ => by simp [hP], fun _ _ _ => rfl⟩

theorem Grown.trans {u : KState} {P Q R : Nat → Prop} (h : Grown s t e P) (h' : Grown t u e Q)
    (hR : ∀ v, R v ↔ P v ∨ Q v) : Grown s u e R := by
  refine ⟨h.only.trans h'.only, fun va hva => ?_, fun va hva hno => ?_⟩
  · rw [h'.mapped va hva, h.mapped va hva, hR, or_assoc]
  · rw [hR, not_or] at hno
    rw [h'.bytes va hva hno.2, h.bytes va hva hno.1]

theorem Loading.insert (h : Loading s c e d L) (hva : va < utop) (hL : 2 ≤ L.length) :
    ∃ f m t L', pageAlloc false s = .ok (some f) m ∧ getPgdir e m = .ok d m ∧
      pageInsert c d f va (pteW ||| pteU) m = .ok (.ok ()) t ∧ Loading t c e d L' ∧
      L.length ≤ L'.length + 2 ∧ Grown s t e (· = pgnum va) := by
  rcases h.page.alloc false with ⟨rfl, -⟩ | ⟨f, m, L1, rfl, hrun, hm⟩
  · simp at hL
  rw [List.length_cons] at hL
  have hi := pdx_lt_utopPdx.mpr hva
  have hdm : (m.envs e).envPgdir = some d := by rw [hm.only.envs]; exact h.dir.1
  have hf := (hm.inv.lt_window hm.managed).2
  have hperm : (pteW ||| pteU) &&& ~~~pteSyscall = 0 := by decide
  rcases pageInsert_spec c (pteW ||| pteU) hm.inv hdm hi hm.managed hm.notFree hm.notTable with
    ⟨-, hnil, -⟩ | ⟨t, hins, hmap⟩
  · rw [hnil] at hL
    simp at hL
  have hentry : entryFrame (page2pa f ||| (pteW ||| pteU) ||| pteP) = some f :=
    entryFrame_insert (by omega) hperm
  obtain ⟨L', hL', hlen⟩ := hmap.inv hentry (Or.inl (by rw [hm.unused]; decide))
  rw [Finset.erase_singleton] at hL'
  have ho := hm.only.trans hmap.edit.only
  -- nothing referred to `f` before, and one entry does now
  have hfresh : ∀ r, target m r ≠ some f := (hm.inv.counted.inHand f (Finset.mem_singleton_self f)).2
  have hat : target t (.pte e (pdx va) (ptx va)) = some f := by
    simp only [target, hmap.entry, hentry]
  have hother : ∀ x i j, ¬ (x = e ∧ At va i j) → target t (.pte x i j) = target s (.pte x i j) := by
    intro x i j hx
    have hx' : ¬ (some x = some e ∧ At va i j) := fun hy => hx ⟨Option.some.inj hy.1, hy.2⟩
    simp only [target, hmap.edit.pte (some x) i j hx', hm.tables.2]
  have hfresh' : ∀ x i j, target s (.pte x i j) ≠ some f := by
    intro x i j
    have hsame : target s (.pte x i j) = target m (.pte x i j) := by
      simp only [target, hm.tables.2]
    rw [hsame]
    exact hfresh _
  have hpte : ∀ {r : Slot} {i j : Idx} {g : Nat}, target t (.pte e i j) = some g →
      target t r = some g → ∃ x a b, r = .pte x a b := by
    intro r i j g hg hr
    have hnt := hL'.notTable_of_pte hg
    cases r with
    | dir x => exact absurd hr (hnt.2 _ trivial)
    | tab o a => exact absurd hr (hnt.2 _ trivial)
    | pte x a b => exact ⟨x, a, b, rfl⟩
  have hkeep : ∀ {w : Word}, pgnum w ≠ pgnum va → mappedAt t e w = mappedAt s e w := fun hw =>
    hother e _ _ fun hx => hw (at_iff.mp hx.2)
  have hhere : ∀ {w : Word}, pgnum w = pgnum va → mappedAt t e w = some f := fun hw =>
    (mappedAt_page hw).trans hat
  refine ⟨f, m, t, L', hrun, getPgdir_run hdm, hins, ⟨hL', ⟨by rw [ho.envs]; exact h.dir.1, by
    rw [ho.cr3]; exact h.dir.2⟩, fun i j g hg r hr => ?_, fun w g hw hg => ?_⟩, ?_, ho,
    fun w hw => ?_, fun w hw hne => ?_⟩
  · obtain ⟨x, a, b, rfl⟩ := hpte hg hr
    by_cases h1 : At va i j
    · obtain ⟨rfl, rfl⟩ := h1
      obtain rfl := Option.some.inj (hat.symm.trans hg)
      by_cases h2 : x = e ∧ At va a b
      · obtain ⟨rfl, rfl, rfl⟩ := h2
        rfl
      · rw [hother x a b h2] at hr
        exact absurd hr (hfresh' x a b)
    · rw [hother e i j fun hx => h1 hx.2] at hg
      by_cases h2 : x = e ∧ At va a b
      · obtain ⟨rfl, rfl, rfl⟩ := h2
        obtain rfl := Option.some.inj (hat.symm.trans hr)
        exact absurd hg (hfresh' x i j)
      · rw [hother x a b h2] at hr
        exact h.sole i j g hg _ hr
  · by_cases hp : pgnum w = pgnum va
    · obtain rfl := Option.some.inj ((hhere hp).symm.trans hg)
      obtain ⟨h1, h2⟩ := at_iff.mpr hp
      rw [pteOf, h1, h2]
      exact hmap.entry
    · rw [hkeep hp] at hg
      have hno : ¬ (some e = some e ∧ At va (pdx w) (ptx w)) := fun hx => hp (at_iff.mp hx.2)
      rw [pteOf, hmap.edit.pte (some e) _ _ hno, hm.tables.2]
      exact h.flags w g hw hg
  · have := hlen L1 hm.inv
    rw [List.length_cons]
    omega
  · by_cases hp : pgnum w = pgnum va
    · simp [hhere hp, hp]
    · simp [hkeep hp, hp]
  · have hsame := hkeep hne
    unfold byteAt
    rw [hsame]
    cases hg : mappedAt s e w with
    | none => rfl
    | some g =>
      have hgf : g ≠ f := fun hx => hfresh' e _ _ (hx ▸ hg)
      have hnt := hL'.notTable_of_pte (hsame.trans hg)
      rw [Option.map_some, Option.map_some, hmap.edit.data g hnt, hm.mem g hgf]

/-- The pages from `va` up to `last`. -/
theorem regionAllocLoop_maps (hlast : last.toNat ≤ utop.toNat) : ∀ (m fuel : Nat) {va : Word}
    {s : KState} {L : List Nat}, Loading s c e d L → va.toNat % 4096 = 0 →
    last.toNat = va.toNat + 4096 * m → m ≤ fuel → 2 * m ≤ L.length →
    ∃ t L', regionAllocLoop c e last fuel va s = .ok () t ∧ Loading t c e d L' ∧
      L.length ≤ L'.length + 2 * m ∧ Grown s t e fun v => pgnum va ≤ v ∧ v < pgnum va + m
  | 0, fuel, va, s, L, h, hal, hend, hf, hL => by
    refine ⟨s, L, ?_, h, by omega, .refl s e fun v hv => by omega⟩
    have hge : ¬ va < last := by
      rw [BitVec.lt_def]
      omega
    cases fuel with
    | zero => rfl
    | succ fuel =>
      simp only [regionAllocLoop, if_neg hge]
      rfl
  | m + 1, fuel + 1, va, s, L, h, hal, hend, hf, hL => by
    have hlt : va < last := by
      rw [BitVec.lt_def]
      omega
    have hva : va < utop := by
      rw [BitVec.lt_def] at hlt ⊢
      omega
    have hutop := utop.isLt
    obtain ⟨f, m1, t1, L1, halloc, hpd, hins, h1, hlen1, hg1⟩ := h.insert hva (by omega)
    have hnext : (va + BitVec.ofNat 32 pgsize).toNat = va.toNat + 4096 := by
      have hp : (BitVec.ofNat 32 pgsize).toNat = 4096 := by decide
      rw [BitVec.toNat_add, hp, Nat.mod_eq_of_lt (by omega)]
    obtain ⟨t, L', hrun, ht, hlen, hg⟩ := regionAllocLoop_maps hlast m fuel h1
      (by omega : (va + BitVec.ofNat 32 pgsize).toNat % 4096 = 0) (by omega) (by omega) (by omega)
    refine ⟨t, L', ?_, ht, by omega, hg1.trans hg fun v => ?_⟩
    · simp only [regionAllocLoop, if_pos hlt, run_bind, halloc, hpd, hins, hrun]
    · unfold pgnum
      rw [hnext]
      omega

/-! ### Storing through the page tables -/

/-- Bytes that are stored, and nothing else is changed. -/
structure Stored (s t : KState) (e : EnvIdx) (va : Word) (bs : List Byte) : Prop where
  only : PmOnly s t
  mapped : ∀ w, mappedAt t e w = mappedAt s e w
  bytes : ∀ w, w < utop → byteAt t e w = if va.toNat ≤ w.toNat ∧ w.toNat < va.toNat + bs.length then
    bs[w.toNat - va.toNat]? else byteAt s e w

/-- One byte stored on a mapped page. -/
theorem Loading.storeByte (h : Loading s c e d L) (hva : va < utop) (hm : mappedAt s e va ≠ none)
    (b : Byte) : ∃ t, storeByte c va b s = .ok () t ∧ Loading t c e d L ∧ Stored s t e va [b] := by
  obtain ⟨f, hf⟩ := Option.ne_none_iff_exists'.mp hm
  have hnt : NotTable s f := h.page.notTable_of_pte hf
  set t := s.setFrame f ((s.mem f).setByte (pgoff va) b) with ht
  have hrun : Jos.storeByte c va b s = .ok () t := by
    have hw : walk s.mem (s.cr3 c) (pgnum va) = some f := by
      rw [h.dir.2, walk_user h.dir.1 hva]
      exact hf
    simp only [Jos.storeByte, run_bind, run_get, hw, run_set]
    rfl
  have htgt : target t = target s := hnt.target_setFrame _
  have hmap : ∀ w, mappedAt t e w = mappedAt s e w := fun w => congrFun htgt _
  refine ⟨t, hrun, ⟨h.page.setFrame hnt _, h.dir, by rw [htgt]; exact h.sole, fun w g hw hg => ?_⟩,
    .setFrame s f _, hmap, fun w hw => ?_⟩
  · rw [hmap] at hg
    rw [pteOf, ht, hnt.pteAt_setFrame]
    exact h.flags w g hw hg
  · unfold byteAt
    rw [hmap, List.length_singleton]
    by_cases hwv : w = va
    · subst hwv
      rw [if_pos ⟨le_refl _, by omega⟩, hf, Nat.sub_self, Option.map_some, ht, KState.setFrame_mem,
        Function.update_self, Page.byte_setByte _ (pgoff_lt w) (pgoff_lt w), if_pos rfl]
      rfl
    · have hne : w.toNat ≠ va.toNat := fun hx => hwv (BitVec.eq_of_toNat_eq hx)
      rw [if_neg (by omega)]
      cases hg : mappedAt s e w with
      | none => rfl
      | some g =>
        rw [Option.map_some, Option.map_some, ht, KState.setFrame_mem]
        by_cases hgf : g = f
        · subst hgf
          have hslot := h.sole _ _ g hf _ hg
          have hp : pgnum w = pgnum va := by
            injection hslot with h1 h2 h3
            exact at_iff.mp ⟨h2, h3⟩
          have hoff : pgoff w ≠ pgoff va := by
            intro hx
            unfold pgnum at hp
            unfold pgoff at hx
            omega
          rw [Function.update_self, Page.byte_setByte _ (pgoff_lt va) (pgoff_lt w), if_neg hoff]
        · rw [Function.update_of_ne hgf]

/-- `memmove` and `memset` to mapped pages. -/
theorem Loading.storeBytes : ∀ (bs : List Byte) (va : Word) {s : KState}, Loading s c e d L →
    va.toNat + bs.length ≤ utop.toNat →
    (∀ k, k < bs.length → mappedAt s e (va + BitVec.ofNat 32 k) ≠ none) →
    ∃ t, storeBytes c va bs s = .ok () t ∧ Loading t c e d L ∧ Stored s t e va bs
  | [], va, s, h, _, _ => ⟨s, rfl, h, .refl s, fun _ => rfl, fun w _ => by
      rw [if_neg (by simp only [List.length_nil]; omega)]⟩
  | b :: bs, va, s, h, hle, hm => by
    have hutop := utop.isLt
    rw [List.length_cons] at hle hm
    have h0 : va + BitVec.ofNat 32 0 = va := BitVec.add_zero va
    have hva : va < utop := by
      rw [BitVec.lt_def]
      omega
    have hnext : ∀ k, va + 1 + BitVec.ofNat 32 k = va + BitVec.ofNat 32 (k + 1) := by
      intro k
      rw [Nat.add_comm k 1, BitVec.ofNat_add, ← BitVec.add_assoc]
      rfl
    have hva1 : (va + 1).toNat = va.toNat + 1 := toNat_add_ofNat (k := 1) (by omega)
    obtain ⟨m, hrun, hl, hs⟩ := h.storeByte hva (h0 ▸ hm 0 (Nat.succ_pos _)) b
    obtain ⟨t, hrun', hl', hs'⟩ := Loading.storeBytes bs (va + 1) hl (by omega)
      fun k hk => by
        rw [hnext, hs.mapped]
        exact hm (k + 1) (by omega)
    refine ⟨t, ?_, hl', hs.only.trans hs'.only, fun w => (hs'.mapped w).trans (hs.mapped w),
      fun w hw => ?_⟩
    · simp only [Jos.storeBytes, run_bind, hrun, hrun']
    · rw [hs'.bytes w hw, hs.bytes w hw, hva1]
      simp only [List.length_cons, List.length_nil]
      by_cases hw0 : w.toNat = va.toNat
      · rw [if_neg (by omega), if_pos (by omega), if_pos (by omega), hw0, Nat.sub_self]
        rfl
      · by_cases hin : va.toNat + 1 ≤ w.toNat ∧ w.toNat < va.toNat + 1 + bs.length
        · have hsub : w.toNat - va.toNat = w.toNat - (va.toNat + 1) + 1 := by omega
          rw [if_pos hin, if_pos (by omega), hsub, List.getElem?_cons_succ]
        · rw [if_neg hin, if_neg (by omega), if_neg (by omega)]

/-! ### Segments -/

theorem stackPage_lt : stackPage.toNat + 4096 = ustacktop.toNat ∧ ustacktop.toNat ≤ utop.toNat := by
  decide

/-- `region_alloc` for a segment maps the pages that it allocates. -/
theorem regionAlloc_maps (ph : Proghdr) (h : Loading s c e d L)
    (hle : ph.pVa.toNat + ph.pMemsz.toNat ≤ ustacktop.toNat) (hL : 2 * ph.pages ≤ L.length) :
    ∃ t L', regionAlloc c e ph.pVa ph.pMemsz s = .ok () t ∧ Loading t c e d L' ∧
      L.length ≤ L'.length + 2 * ph.pages ∧ Grown s t e ph.Allocates := by
  have hst : ustacktop.toNat = 0xEEBFE000 := by decide
  have hutop := stackPage_lt.2
  have hsum : (ph.pVa + ph.pMemsz).toNat = ph.pVa.toNat + ph.pMemsz.toNat := by
    rw [BitVec.toNat_add, Nat.mod_eq_of_lt (by omega)]
  have hlast : (roundup (ph.pVa + ph.pMemsz)).toNat
      = (ph.pVa.toNat + ph.pMemsz.toNat + 4095) / 4096 * 4096 := by
    rw [roundup_toNat (by omega), hsum]
  have hfirst := rounddown_toNat ph.pVa
  have hpages : ph.pages = (ph.pVa.toNat + ph.pMemsz.toNat + 4095) / 4096 - ph.pVa.toNat / 4096 := rfl
  obtain ⟨t, L', hrun, ht, hlen, hg⟩ := regionAllocLoop_maps (by omega) ph.pages (2 ^ 20) h
    (by omega : (rounddown ph.pVa).toNat % 4096 = 0)
    (by omega : (roundup (ph.pVa + ph.pMemsz)).toNat = (rounddown ph.pVa).toNat + 4096 * ph.pages)
    (by omega) hL
  refine ⟨t, L', hrun, ht, hlen, ?_⟩
  have hiff : (fun v => pgnum (rounddown ph.pVa) ≤ v ∧ v < pgnum (rounddown ph.pVa) + ph.pages)
      = ph.Allocates := by
    funext v
    simp only [Proghdr.Allocates, pgnum, eq_iff_iff]
    omega
  exact hiff ▸ hg

/-- A segment that was loaded. -/
structure SegmentLoaded (s t : KState) (e : EnvIdx) (file : Nat → Byte) (ph : Proghdr) : Prop where
  grown : Grown s t e fun v => ph.Load ∧ ph.Allocates v
  image : ph.Load → ∀ k, k < ph.pMemsz.toNat →
    byteAt t e (ph.pVa + BitVec.ofNat 32 k) = some (ph.image file k)

theorem loadSegment_run (file : Nat → Byte) {ph : Proghdr} (h : Loading s c e d L)
    (hsz : ph.Load → ph.pFilesz.toNat ≤ ph.pMemsz.toNat)
    (hle : ph.Load → ph.pVa.toNat + ph.pMemsz.toNat ≤ ustacktop.toNat)
    (hL : (if ph.Load then 2 * ph.pages else 0) ≤ L.length) :
    ∃ t L', loadSegment c e file ph s = .ok () t ∧ Loading t c e d L' ∧
      L.length ≤ L'.length + (if ph.Load then 2 * ph.pages else 0) ∧
      SegmentLoaded s t e file ph := by
  by_cases hload : ph.Load
  swap
  · refine ⟨s, L, ?_, h, by omega, .refl s e fun v hv => hload hv.1, fun hx => absurd hx hload⟩
    have htype : ¬ ph.pType = elfProgLoad := hload
    simp only [loadSegment, if_neg htype]
    rfl
  rw [if_pos hload] at hL ⊢
  have hsz' := hsz hload
  have hle' := hle hload
  have hst : ustacktop.toNat = 0xEEBFE000 := by decide
  have hutop := stackPage_lt.2
  have hno : ¬ ph.pMemsz < ph.pFilesz := by
    rw [BitVec.lt_def]
    omega
  obtain ⟨m, L', hrun, hm, hlen, hg⟩ := regionAlloc_maps ph h hle' hL
  have hat : ∀ {k : Nat}, k < ph.pMemsz.toNat →
      (ph.pVa + BitVec.ofNat 32 k).toNat = ph.pVa.toNat + k := fun hk =>
    toNat_add_ofNat (by omega)
  have hin : ∀ {k : Nat}, k < ph.pMemsz.toNat → mappedAt m e (ph.pVa + BitVec.ofNat 32 k) ≠ none := by
    intro k hk
    have hu : ph.pVa + BitVec.ofNat 32 k < utop := by
      rw [BitVec.lt_def, hat hk]
      omega
    refine (hg.mapped _ hu).mpr (Or.inr ?_)
    unfold Proghdr.Allocates pgnum
    rw [hat hk]
    omega
  have hmid : (ph.pVa + ph.pFilesz).toNat = ph.pVa.toNat + ph.pFilesz.toNat := by
    rw [BitVec.toNat_add, Nat.mod_eq_of_lt (by omega)]
  have hrest : (ph.pMemsz - ph.pFilesz).toNat = ph.pMemsz.toNat - ph.pFilesz.toNat := by
    have := ph.pMemsz.isLt
    rw [BitVec.toNat_sub]
    omega
  have hsplit : ∀ k, ph.pVa + ph.pFilesz + BitVec.ofNat 32 k
      = ph.pVa + BitVec.ofNat 32 (ph.pFilesz.toNat + k) := by
    intro k
    rw [BitVec.add_assoc, BitVec.ofNat_add, BitVec.ofNat_toNat, BitVec.setWidth_eq]
  obtain ⟨bs, hbs⟩ : ∃ bs, bs = fileBytes file ph.pOffset.toNat ph.pFilesz.toNat := ⟨_, rfl⟩
  have hbl : bs.length = ph.pFilesz.toNat := by rw [hbs, fileBytes_length]
  obtain ⟨m1, hrun1, hm1, hs1⟩ := hm.storeBytes bs ph.pVa (by omega) fun k hk => hin (by omega)
  obtain ⟨zs, hzs⟩ : ∃ zs : List Byte, zs = List.replicate (ph.pMemsz - ph.pFilesz).toNat 0 :=
    ⟨_, rfl⟩
  have hzl : zs.length = ph.pMemsz.toNat - ph.pFilesz.toNat := by
    rw [hzs, List.length_replicate, hrest]
  obtain ⟨t, hrun2, ht, hs2⟩ := hm1.storeBytes zs (ph.pVa + ph.pFilesz) (by omega) fun k hk => by
    rw [hs1.mapped, hsplit]
    exact hin (by omega)
  refine ⟨t, L', ?_, ht, hlen, ⟨(hg.only.trans hs1.only).trans hs2.only, fun w hw => ?_,
    fun w hw hno' => ?_⟩, fun _ k hk => ?_⟩
  · have htype : ph.pType = elfProgLoad := hload
    simp only [loadSegment, if_pos htype, if_neg hno, run_bind, hrun, ← hbs, hrun1, ← hzs, hrun2]
  · rw [hs2.mapped, hs1.mapped, hg.mapped w hw, and_iff_right hload]
  · have hout : ¬ ph.Allocates (pgnum w) := fun hx => hno' ⟨hload, hx⟩
    have hw' : ¬ (ph.pVa.toNat ≤ w.toNat ∧ w.toNat < ph.pVa.toNat + ph.pMemsz.toNat) := by
      intro hx
      refine hout ?_
      unfold Proghdr.Allocates pgnum
      omega
    rw [hs2.bytes w hw, if_neg (by omega), hs1.bytes w hw, if_neg (by omega), hg.bytes w hw hout]
  · have hu : ph.pVa + BitVec.ofNat 32 k < utop := by
      rw [BitVec.lt_def, hat hk]
      omega
    rw [hs2.bytes _ hu, hs1.bytes _ hu, hat hk, hmid, Proghdr.image]
    by_cases hkf : k < ph.pFilesz.toNat
    · rw [if_neg (by omega), if_pos (by omega), if_pos hkf, Nat.add_sub_cancel_left, hbs, fileBytes,
        List.getElem?_map, List.getElem?_range hkf]
      rfl
    · rw [if_pos (by omega), if_neg hkf, hzs, List.getElem?_replicate, if_pos (by omega)]

/-- A page that is allocated for a segment ends up with a segment that touches it. -/
theorem Settled.touched : ∀ {l : List Proghdr}, Settled l → ∀ {ph : Proghdr}, ph ∈ l → ph.Load →
    ∀ {v : Nat}, ph.Allocates v → ∃ q ∈ l, q.Load ∧ q.Touches v
  | p :: l, h, ph, hmem, hload, v, hv => by
    rcases List.mem_cons.mp hmem with rfl | hin
    · by_cases ht : ph.Touches v
      · exact ⟨ph, hmem, hload, ht⟩
      · obtain ⟨q, hq, hql, hqt⟩ := h.1 hload v hv ht
        exact ⟨q, List.mem_cons_of_mem ph hq, hql, hqt⟩
    · obtain ⟨q, hq, hql, hqt⟩ := h.2.touched hin hload hv
      exact ⟨q, List.mem_cons_of_mem p hq, hql, hqt⟩

/-- The segments one after the other. -/
structure SegmentsLoaded (s t : KState) (e : EnvIdx) (file : Nat → Byte) (l : List Proghdr) :
    Prop where
  grown : Grown s t e fun v => ∃ ph ∈ l, ph.Load ∧ ph.Allocates v
  image : l.Pairwise (fun p q => p.Load → q.Load → ∀ v, p.Touches v → ¬ q.Touches v) → Settled l →
    ∀ ph ∈ l, ph.Load → ∀ k, k < ph.pMemsz.toNat →
      byteAt t e (ph.pVa + BitVec.ofNat 32 k) = some (ph.image file k)

/-- The loop of `load_icode`. A page of a segment that was loaded is not replaced for a later
    one: no later segment touches it, and one that allocates it without would leave it to a
    segment that does. -/
theorem loadSegments_run (file : Nat → Byte) : ∀ (l : List Proghdr) {s : KState} {L : List Nat},
    Loading s c e d L → (∀ ph ∈ l, ph.Load → ph.pFilesz.toNat ≤ ph.pMemsz.toNat) →
    (∀ ph ∈ l, ph.Load → ph.pVa.toNat + ph.pMemsz.toNat ≤ ustacktop.toNat) →
    pagesFor l ≤ L.length →
    ∃ t L', l.forM (loadSegment c e file) s = .ok () t ∧ Loading t c e d L' ∧
      L.length ≤ L'.length + pagesFor l ∧ SegmentsLoaded s t e file l
  | [], s, L, h, _, _, _ =>
    ⟨s, L, rfl, h, Nat.le_add_right .., .refl s e fun v hv => by simp at hv, fun _ _ ph hph => by
      cases hph⟩
  | ph :: l, s, L, h, hsz, hle, hL => by
    have hcons : pagesFor (ph :: l) = (if ph.Load then 2 * ph.pages else 0) + pagesFor l := by
      simp only [pagesFor, List.map_cons, List.sum_cons]
    obtain ⟨m, L1, hrun, hm, hlen, hseg⟩ := loadSegment_run file h
      (hsz ph (List.mem_cons_self ..)) (hle ph (List.mem_cons_self ..)) (by omega)
    obtain ⟨t, L', hrun', ht, hlen', htail⟩ := loadSegments_run file l hm
      (fun q hq => hsz q (List.mem_cons_of_mem ph hq))
      (fun q hq => hle q (List.mem_cons_of_mem ph hq)) (by omega)
    refine ⟨t, L', ?_, ht, by omega, hseg.grown.trans htail.grown fun v => by simp, ?_⟩
    · have hfor : (ph :: l).forM (loadSegment c e file)
          = loadSegment c e file ph >>= fun _ => l.forM (loadSegment c e file) := rfl
      simp only [hfor, run_bind, hrun, hrun']
    · intro hdis hset q hq hload k hk
      rcases List.mem_cons.mp hq with rfl | hin
      · have hend := hle q hq hload
        have hst : ustacktop.toNat = 0xEEBFE000 := by decide
        have hutop := stackPage_lt.2
        have hat : (q.pVa + BitVec.ofNat 32 k).toNat = q.pVa.toNat + k := toNat_add_ofNat (by omega)
        have hu : q.pVa + BitVec.ofNat 32 k < utop := by
          rw [BitVec.lt_def, hat]
          omega
        have htouch : q.Touches (pgnum (q.pVa + BitVec.ofNat 32 k)) := by
          unfold Proghdr.Touches pgnum
          rw [hat]
          omega
        rw [htail.grown.bytes _ hu, hseg.image hload k hk]
        rintro ⟨r, hr, hrl, hra⟩
        obtain ⟨r', hr', hrl', hrt'⟩ := hset.2.touched hr hrl hra
        exact (List.pairwise_cons.mp hdis).1 r' hr' hload hrl' _ htouch hrt'
      · exact htail.image (List.pairwise_cons.mp hdis).2 hset.2 q hin hload k hk

end

/-! ### The environment that `env_create` hands over -/

section

variable {s : KState} {c : CpuIdx} {e : EnvIdx} {d : Nat} {L : List Nat}

/-- A page directory without page tables of its own is ready for `load_icode`. -/
theorem Loading.start (hL : PageInv s L ∅) (hd : (s.envs e).envPgdir = some d)
    (htab : ∀ i, tabFrame s (some e) i = none) (v : Word) :
    Loading ((s.setEnv e { s.envs e with envTf := { (s.envs e).envTf with tfEip := v } }).lcr3 c d)
      c e d L := by
  set t := (s.setEnv e { s.envs e with
    envTf := { (s.envs e).envTf with tfEip := v } }).lcr3 c d with ht
  have hpd : ∀ x, (t.envs x).envPgdir = (s.envs x).envPgdir := by
    intro x
    by_cases hx : x = e
    · subst hx
      simp [ht, KState.lcr3, KState.setEnv]
    · simp [ht, KState.lcr3, KState.setEnv, hx]
  have htgt : target t = target s := target_congr hpd rfl rfl
  have hnone : ∀ i j, target s (.pte e i j) = none := by
    intro i j
    simp only [target, pteAt_of_no_tab (htab i), entryFrame_zero]
  refine ⟨pageInv_congr hL rfl hpd rfl rfl ⟨rfl, rfl, rfl, rfl, rfl⟩,
    ⟨(hpd e).trans hd, Function.update_self ..⟩, fun i j f hf => ?_, fun va f _ hf => ?_⟩
  · rw [htgt, hnone] at hf
    cases hf
  · have hm : mappedAt t e va = none := (congrFun htgt _).trans (hnone _ _)
    rw [hm] at hf
    cases hf

theorem WellFormedImage.reorder {b b' : UserImage} (h : WellFormedImage b) (hb : Reordered b b') :
    WellFormedImage b' := by
  refine ⟨hb.magic.trans h.magic, hb.entry ▸ h.entry,
    fun ph hph => h.sizes ph (hb.phdrs.subset hph), fun ph hph => h.below ph (hb.phdrs.subset hph),
    (hb.phdrs.pairwise_iff fun {p q} hpq hq hp v hqv hpv => ?_).mpr h.disjoint⟩
  exact hpq hp hq v hpv hqv

/-- The segment that `load_icode` sets up as the stack. -/
def stackSegment : Proghdr := ⟨elfProgLoad, 0, stackPage, 0, BitVec.ofNat 32 pgsize⟩

theorem stackSegment_allocates (v : Nat) : stackSegment.Allocates v ↔ v = pgnum stackPage := by
  have h1 : stackSegment.pVa.toNat = 0xEEBFD000 := by decide
  have h2 : stackSegment.pMemsz.toNat = 4096 := by decide
  have h3 : stackPage.toNat = 0xEEBFD000 := by decide
  unfold Proghdr.Allocates pgnum
  rw [h1, h2, h3]
  omega

/-- `load_icode` returns, with the segments and the stack in memory. -/
theorem loadIcode_run {b : UserImage} (hL : PageInv s L ∅) (hd : (s.envs e).envPgdir = some d)
    (htab : ∀ i, tabFrame s (some e) i = none) (hb : WellFormedImage b)
    (hroom : pagesFor b.phdrs + 2 ≤ L.length) :
    ∃ m t L', loadIcode c e b s = .ok () t ∧ Loading t c e d L' ∧
      (∀ va, mappedAt m e va = none) ∧ (t.envs e).envTf.tfEip = b.eEntry ∧
      Grown m t e (fun v => (∃ ph ∈ b.phdrs, ph.Load ∧ ph.Allocates v) ∨ v = pgnum stackPage) ∧
      (Settled b.phdrs → ∀ ph ∈ b.phdrs, ph.Load → ∀ k, k < ph.pMemsz.toNat →
        byteAt t e (ph.pVa + BitVec.ofNat 32 k) = some (ph.image b.file k)) := by
  have hst := stackPage_lt
  have h0 := Loading.start (c := c) hL hd htab b.eEntry
  set m := (s.setEnv e { s.envs e with
    envTf := { (s.envs e).envTf with tfEip := b.eEntry } }).lcr3 c d with hm
  have hpd : ((s.setEnv e { s.envs e with
      envTf := { (s.envs e).envTf with tfEip := b.eEntry } }).envs e).envPgdir = some d := h0.dir.1
  have heip : (m.envs e).envTf.tfEip = b.eEntry := by simp [hm, KState.lcr3, KState.setEnv]
  have hnone : ∀ va, mappedAt m e va = none := by
    intro va
    have htgt : target m = target s := target_congr (fun x => by
      by_cases hx : x = e
      · subst hx
        simp [hm, KState.lcr3, KState.setEnv]
      · simp [hm, KState.lcr3, KState.setEnv, hx]) rfl rfl
    rw [mappedAt, htgt]
    simp only [target, pteAt_of_no_tab (htab _), entryFrame_zero]
  obtain ⟨t1, L1, hrun1, h1, hlen1, hseg⟩ := loadSegments_run b.file b.phdrs h0 hb.sizes
    (fun ph hph hload => by have := hb.below ph hph hload; omega) (by omega)
  have hpages : stackSegment.pages = 1 := by decide
  obtain ⟨t, L', hrun, ht, -, hg⟩ := regionAlloc_maps stackSegment h1 (by decide) (by omega)
  have hstack : stackSegment.Allocates = (· = pgnum stackPage) := by
    funext v
    exact propext (stackSegment_allocates v)
  rw [hstack] at hg
  refine ⟨m, t, L', ?_, ht, hnone, by rw [(hseg.grown.only.trans hg.only).envs, heip],
    hseg.grown.trans hg fun v => Iff.rfl, fun hset ph hph hload k hk => ?_⟩
  · have hmagic : ¬ b.magicOk = false := by simp [hb.magic]
    have hstep : loadIcode c e b s = (b.phdrs.forM (loadSegment c e b.file) >>= fun _ =>
        regionAlloc c e stackSegment.pVa stackSegment.pMemsz) m := by
      simp only [loadIcode, if_neg hmagic, if_neg hb.entry, run_bind, run_modify, getPgdir_run hpd]
      rfl
    rw [hstep, run_bind, hrun1]
    exact hrun
  · have hle := hb.below ph hph hload
    have hutop : utop.toNat = 0xEEC00000 := by decide
    have hat : (ph.pVa + BitVec.ofNat 32 k).toNat = ph.pVa.toNat + k := toNat_add_ofNat (by omega)
    have hu : ph.pVa + BitVec.ofNat 32 k < utop := by
      rw [BitVec.lt_def, hat]
      omega
    rw [hg.bytes _ hu, hseg.image hb.disjoint hset ph hph hload k hk]
    unfold pgnum
    rw [hat]
    have : stackPage.toNat = 0xEEBFD000 := by decide
    omega

theorem Proghdr.Touches.allocates {ph : Proghdr} {v : Nat} (h : ph.Touches v) : ph.Allocates v := h.2

/-- A page that is mapped while `load_icode` runs has one reference. -/
theorem Loading.own {va : Word} {f : Nat} (h : Loading s c e d L) (hf : mappedAt s e va = some f) :
    (s.pages f).ppRef = 1 ∧ ∀ va', mappedAt s e va' = some f → pgnum va' = pgnum va := by
  have hslot : target s (.pte e (pdx va) (ptx va)) = some f := hf
  refine ⟨BitVec.eq_of_toNat_eq ?_, fun va' hf' => ?_⟩
  · rw [h.page.counted.exact f (h.page.counted.target _ f hslot),
      refs_eq_one hslot (h.sole _ _ f hslot)]
    rfl
  · have hslot := h.sole _ _ f hf _ hf'
    injection hslot with _ h2 h3
    exact at_iff.mp ⟨h2, h3⟩

/-- `load_icode` on a new environment, with enough free pages, realises a well-formed binary,
    whatever the order of its program headers, if pages that it maps for empty segments are
    touched by segments further down; if it does, they are at least touched by some segment. -/
theorem load_icode_realises {b b' : UserImage} (hL : PageInv s L ∅)
    (hd : (s.envs e).envPgdir = some d) (htab : ∀ i, tabFrame s (some e) i = none)
    (hb : WellFormedImage b) (hbb : Reordered b b') (hroom : pagesFor b.phdrs + 2 ≤ L.length) :
    ∃ t, loadIcode c e b' s = .ok () t ∧ (Settled b'.phdrs → Realised t e b) ∧
      (Realised t e b → ∀ ph ∈ b.phdrs, ph.Load → ∀ v, ph.Allocates v →
        ∃ q ∈ b.phdrs, q.Load ∧ q.Touches v) := by
  have hsum : pagesFor b'.phdrs = pagesFor b.phdrs := (hbb.phdrs.map _).sum_eq
  have hmem : ∀ {ph : Proghdr}, ph ∈ b'.phdrs ↔ ph ∈ b.phdrs := hbb.phdrs.mem_iff
  obtain ⟨m, t, L', hrun, ht, hnone, heip, hg, himage⟩ :=
    loadIcode_run (c := c) hL hd htab (hb.reorder hbb) (by omega)
  have hmapped : ∀ va, va < utop → (mappedAt t e va ≠ none ↔
      (∃ ph ∈ b.phdrs, ph.Load ∧ ph.Allocates (pgnum va)) ∨ pgnum va = pgnum stackPage) := by
    intro va hva
    rw [hg.mapped va hva, hnone]
    simp only [ne_eq, not_true, false_or, hmem]
  refine ⟨t, hrun, fun hset => ⟨fun ph hph hload k hk => ?_, fun va hva => ?_,
    fun va f hva hf => ⟨ht.flags va f hva hf, (ht.own hf).1, fun va' _ => (ht.own hf).2 va'⟩,
    heip.trans hbb.entry⟩, fun hreal ph hph hload v hv => ?_⟩
  · rw [← hbb.file]
    exact himage hset ph (hmem.mpr hph) hload k hk
  · rw [hmapped va hva]
    refine or_congr_left ⟨?_, ?_⟩
    · rintro ⟨ph, hph, hload, hall⟩
      obtain ⟨q, hq, hql, hqt⟩ := hset.touched (hmem.mpr hph) hload hall
      exact ⟨q, hmem.mp hq, hql, hqt⟩
    · rintro ⟨ph, hph, hload, htouch⟩
      exact ⟨ph, hph, hload, htouch.allocates⟩
  · have hle := hb.below ph hph hload
    have hst : stackPage.toNat = 0xEEBFD000 := by decide
    have hutop : utop.toNat = 0xEEC00000 := by decide
    have hval : (BitVec.ofNat 32 (v * 4096)).toNat = v * 4096 := by
      rw [BitVec.toNat_ofNat]
      have := hv.2
      omega
    have hpg : pgnum (BitVec.ofNat 32 (v * 4096)) = v := by
      unfold pgnum
      rw [hval, Nat.mul_div_cancel _ (by decide)]
    have hva : BitVec.ofNat 32 (v * 4096) < utop := by
      rw [BitVec.lt_def, hval]
      have := hv.2
      omega
    have hat := (hmapped _ hva).mpr (Or.inl ⟨ph, hph, hload, by rw [hpg]; exact hv⟩)
    rcases (hreal.mapped _ hva).mp hat with ⟨q, hq, hql, hqt⟩ | hstack
    · rw [hpg] at hqt
      exact ⟨q, hq, hql, hqt⟩
    · rw [hpg] at hstack
      have := hv.2
      unfold pgnum at hstack
      omega

end

/-! ### Two binaries -/

/-- A new environment on the demonstration machine, with a thousand free pages but a few. -/
theorem demo_new_env : ∃ s L e d, PageInv s L ∅ ∧ (s.envs e).envPgdir = some d ∧
    (∀ i, tabFrame s (some e) i = none) ∧ 900 ≤ L.length := by
  obtain ⟨s, L, -, hb, hL, hlen⟩ := demo_boots
  have hmid : Mid False 1 ∅ s :=
    ⟨hb.inv.core, fun k _ => ⟨(hb.inv.cpus k).running, fun hf => hf.elim⟩⟩
  rcases hmid.envAlloc 0 with ⟨hwhy, -⟩ | ⟨e, p, t, -, -, hcr, -, L', hL', ht⟩
  · rcases hwhy with hnone | hnil
    · have hhead := hb.head
      rw [hnone, dif_pos (by decide)] at hhead
      cases hhead
    · rw [hL.unique hnil] at hlen
      simp at hlen
  · rw [hL.unique hL', List.length_cons] at hlen
    refine ⟨t, L', e, p, ht, ?_, hcr.noTab, by omega⟩
    rw [hcr.envs, Function.update_self]
    rfl

/-- One segment of eight bytes in the middle of a page, four of them from the file. -/
def smallImage : UserImage where
  magicOk := true
  eEntry := 0x800020
  phdrs := [⟨elfProgLoad, 0, 0x800020, 4, 8⟩]
  file _ := 7
  user := by simp +decide

/-- A segment of no bytes in the middle of a page. -/
def emptyImage : UserImage where
  magicOk := true
  eEntry := 0x800020
  phdrs := [⟨elfProgLoad, 0, 0x800020, 0, 0⟩]
  file _ := 7
  user := by simp +decide

theorem smallImage_wellFormed : WellFormedImage smallImage :=
  ⟨rfl, by decide, by simp +decide, by simp +decide,
    List.pairwise_singleton ..⟩

theorem emptyImage_wellFormed : WellFormedImage emptyImage :=
  ⟨rfl, by decide, by simp +decide, by simp +decide,
    List.pairwise_singleton ..⟩

/-- The small binary is realised. -/
theorem load_icode_realises_demo : ∃ s t c e, loadIcode c e smallImage s = .ok () t ∧
    Realised t e smallImage := by
  obtain ⟨s, L, e, d, hL, hd, htab, hlen⟩ := demo_new_env
  have hpages : pagesFor smallImage.phdrs = 2 := by decide
  have hset : Settled smallImage.phdrs :=
    ⟨fun _ v hv hno => absurd ⟨by decide, hv⟩ hno, trivial⟩
  obtain ⟨t, hrun, hreal, -⟩ := load_icode_realises (c := 0) hL hd htab smallImage_wellFormed
    ⟨rfl, rfl, rfl, .refl _⟩ (by omega)
  exact ⟨s, t, 0, e, hrun, hreal hset⟩

/-- The page of the empty segment is mapped, though no segment touches it. -/
theorem empty_segment_maps_page : ¬ ∀ (s : KState) (L : List Nat) (c : CpuIdx) (e : EnvIdx) (d : Nat)
    (b : UserImage), PageInv s L ∅ → (s.envs e).envPgdir = some d →
    (∀ i, tabFrame s (some e) i = none) → WellFormedImage b → pagesFor b.phdrs + 2 ≤ L.length →
    ∃ t, loadIcode c e b s = .ok () t ∧ Realised t e b := by
  intro hall
  obtain ⟨s, L, e, d, hL, hd, htab, hlen⟩ := demo_new_env
  have hpages : pagesFor emptyImage.phdrs = 2 := by decide
  obtain ⟨t, hrun, hreal⟩ := hall s L 0 e d emptyImage hL hd htab emptyImage_wellFormed (by omega)
  obtain ⟨m, t', L', hrun', -, hnone, -, hg, -⟩ := loadIcode_run (c := 0) hL hd htab
    emptyImage_wellFormed (by omega)
  rw [hrun] at hrun'
  cases hrun'
  have hva : (0x800000 : Word) < utop := by decide
  have hpg : pgnum (0x800000 : Word) = 0x800 := by decide
  have hat := (hg.mapped 0x800000 hva).mpr
    (Or.inr (Or.inl ⟨_, List.mem_cons_self .., rfl, by rw [hpg]; exact ⟨by decide, by decide⟩⟩))
  rcases (hreal.mapped _ hva).mp hat with ⟨q, hq, -, hqt, -⟩ | hstack
  · obtain rfl := List.mem_singleton.mp hq
    exact absurd hqt (by decide)
  · exact absurd hstack (by decide)

end Jos
