import Jos.BootInv

/-!
  What `page_insert` does, for page directories and a free list that are merely well formed.

  Counters need not be exact here, and are taken modulo 2^16 as the code keeps them. Directories
  may map themselves as page tables, as JOS's do at `UVPT`: an address there shows an entry of the
  directory, so a new page table becomes visible at one of them. -/

namespace Jos

open Lib RefCount

/-- The page-table entry that the directory `d` leads to; 0 without a page table. -/
def entryOf (s : KState) (d : Nat) (i j : Idx) : Word :=
  match entryFrame (s.mem d i) with
  | none => 0
  | some T => s.mem T j

/-- A well-formed free list: its pages exist and are not counted. -/
structure FreePages (s : KState) (L : List Nat) : Prop where
  list : FreeChain s L
  exist : ∀ f ∈ L, f < s.npages
  unused : ∀ f ∈ L, (s.pages f).ppRef = 0
  window : s.npages ≤ 65536

/-- The directories `D` are well formed: neither they nor their page tables are on the free list,
    and a page table below `UTOP` has a place of its own. -/
structure TwoLevel (s : KState) (D : Set Nat) (L : List Nat) : Prop where
  dir : ∀ d ∈ D, d ∉ L
  tab : ∀ d ∈ D, ∀ i T, entryFrame (s.mem d i) = some T → T < s.npages ∧ T ∉ L
  own : ∀ d ∈ D, ∀ i, i < utopPdx → ∀ T, entryFrame (s.mem d i) = some T →
    T ∉ D ∧ ∀ d' ∈ D, ∀ i', entryFrame (s.mem d' i') = some T → d' = d ∧ i' = i

/-- A page in use: counted, and not on the free list. -/
structure InUse (s : KState) (L : List Nat) (q : Nat) : Prop where
  exist : q < s.npages
  notFree : q ∉ L
  counted : (s.pages q).ppRef ≠ 0
  unlinked : (s.pages q).ppLink = none

/-- The free list `L'` after a successful `page_insert` that took what was missing from `L`. The
    page `q` that it replaced is on it if its count dropped to zero. -/
def freeAfter (t : KState) (mapped : Option Nat) (pp : Nat) (rest : List Nat) : List Nat :=
  match mapped with
  | none => rest
  | some q => if q ≠ pp ∧ (t.pages q).ppRef = 0 then q :: rest else rest

/-- What a successful `page_insert` of `pp` at `va` does, when the free list was `L`. -/
structure Inserted (s t : KState) (D : Set Nat) (d pp : Nat) (va perm : Word) (L : List Nat) :
    Prop where
  /-- Translations: `va` has the new entry, an address that shows the entry of the page table for
      `va` shows its new value, and all others are as before. -/
  entries : ∀ d' ∈ D, ∀ i j, entryOf t d' i j =
    if d' = d ∧ i = pdx va ∧ j = ptx va then page2pa pp ||| perm ||| pteP
    else if entryFrame (s.mem d' i) = some d ∧ j = pdx va then t.mem d (pdx va)
    else entryOf s d' i j
  /-- That entry changes only if a page table had to be made; the new one is zeroed and counted
      once. -/
  table : (∃ T, entryFrame (s.mem d (pdx va)) = some T ∧ t.mem d (pdx va) = s.mem d (pdx va)) ∨
    entryFrame (s.mem d (pdx va)) = none ∧ ∃ T L', L = T :: L' ∧
      entryFrame (t.mem d (pdx va)) = some T ∧ (∀ j, j ≠ ptx va → t.mem T j = 0) ∧
      (t.pages T).ppRef = 1
  /-- A page mapped at `va` again keeps its count. -/
  same : entryFrame (entryOf s d (pdx va) (ptx va)) = some pp →
    (t.pages pp).ppRef = (s.pages pp).ppRef
  /-- Otherwise `pp` gains a reference. -/
  gain : entryFrame (entryOf s d (pdx va) (ptx va)) ≠ some pp →
    (t.pages pp).ppRef = (s.pages pp).ppRef + 1
  /-- Another page mapped at `va` loses one. -/
  loss : ∀ q, entryFrame (entryOf s d (pdx va) (ptx va)) = some q → q ≠ pp →
    (t.pages q).ppRef = (s.pages q).ppRef - 1
  /-- No other count changes. -/
  others : ∀ f, f ≠ pp → entryFrame (entryOf s d (pdx va) (ptx va)) ≠ some f →
    (entryFrame (s.mem d (pdx va)) = none → s.pageFreeList ≠ some f) →
    (t.pages f).ppRef = (s.pages f).ppRef
  /-- The free list loses the new page table and gains a page whose count dropped to zero. -/
  free : FreePages t (freeAfter t (entryFrame (entryOf s d (pdx va) (ptx va))) pp
    (if entryFrame (s.mem d (pdx va)) = none then L.tail else L))

section

variable {c : CpuIdx} {s t m : KState} {D : Set Nat} {L : List Nat} {d pp T : Nat} {va perm : Word}

/-- The word that ends up at `va`, over memory that already has the page table. -/
def putEntry (m : KState) (T : Nat) (j : Idx) (w : Word) (f : Nat) (k : Idx) : Word :=
  if f = T ∧ k = j then w else m.mem f k

theorem poke_putEntry {u : KState} {j : Idx} {w : Word}
    (hu : ∀ f k, f ≠ T ∨ k ≠ j → u.mem f k = m.mem f k) (f : Nat) (k : Idx) :
    (u.poke T j w).mem f k = putEntry m T j w f k := by
  unfold putEntry
  by_cases hf : f = T
  · subst hf
    rw [KState.poke_mem_self]
    by_cases hk : k = j
    · rw [if_pos hk, if_pos ⟨rfl, hk⟩]
    · rw [if_neg hk, if_neg fun hx => hk hx.2, hu f k (Or.inr hk)]
  · rw [KState.poke_mem_of_ne _ _ _ _ hf, if_neg fun hx => hf hx.1, hu f k (Or.inl hf)]

/-- Entries after the write, when the page table was there. -/
theorem entryOf_found (h : TwoLevel s D L) (hd : d ∈ D) (hi : pdx va < utopPdx)
    (hT : entryFrame (s.mem d (pdx va)) = some T) {w : Word}
    (hm : ∀ f k, t.mem f k = putEntry s T (ptx va) w f k) {d' : Nat} (hd' : d' ∈ D) (i j : Idx) :
    entryOf t d' i j =
      if d' = d ∧ i = pdx va ∧ j = ptx va then w
      else if entryFrame (s.mem d' i) = some d ∧ j = pdx va then t.mem d (pdx va)
      else entryOf s d' i j := by
  obtain ⟨hTD, huniq⟩ := h.own d hd (pdx va) hi T hT
  have hdir : ∀ x ∈ D, ∀ k, t.mem x k = s.mem x k := by
    intro x hx k
    rw [hm, putEntry, if_neg]
    rintro ⟨rfl, -⟩
    exact hTD hx
  unfold entryOf
  rw [hdir d' hd']
  cases hX : entryFrame (s.mem d' i) with
  | none =>
    have hne : ¬ (d' = d ∧ i = pdx va ∧ j = ptx va) := by
      rintro ⟨rfl, rfl, -⟩
      rw [hX] at hT
      cases hT
    rw [if_neg hne, if_neg (by simp)]
  | some X =>
    simp only [Option.some.injEq]
    by_cases hXd : X = d
    · -- a directory seen as a page table
      subst hXd
      have hne : ¬ (d' = X ∧ i = pdx va ∧ j = ptx va) := by
        rintro ⟨rfl, rfl, -⟩
        rw [hX] at hT
        exact hTD (Option.some.inj hT ▸ hd)
      rw [if_neg hne, hdir X hd]
      split
      · rename_i hj
        rw [hj.2, hdir X hd]
      · rfl
    · rw [if_neg (c := X = d ∧ j = pdx va) fun hx => hXd hx.1, hm, putEntry]
      by_cases hXT : X = T
      · subst hXT
        obtain ⟨rfl, rfl⟩ := huniq d' hd' i hX
        simp
      · have hne : ¬ (d' = d ∧ i = pdx va ∧ j = ptx va) := by
          rintro ⟨rfl, rfl, -⟩
          rw [hX] at hT
          exact hXT (Option.some.inj hT)
        rw [if_neg fun hx => hXT hx.1, if_neg hne]

/-- Memory with a new page table. -/
theorem newTable_mem (hTd : T ≠ d) (i : Idx) (f : Nat) (k : Idx) :
    (newTable s d i T).mem f k =
      if f = d ∧ k = i then page2pa T ||| pteP ||| pteW ||| pteU
      else if f = T then 0 else s.mem f k := by
  rw [newTable]
  by_cases hf : f = d
  · subst hf
    rw [KState.poke_mem_self]
    by_cases hk : k = i
    · rw [if_pos hk, if_pos ⟨rfl, hk⟩]
    · rw [if_neg hk, if_neg fun hx => hk hx.2, if_neg (Ne.symm hTd), incref_mem,
        KState.setFrame_mem, Function.update_of_ne (Ne.symm hTd), pop_mem]
  · rw [KState.poke_mem_of_ne _ _ _ _ hf, if_neg fun hx => hf hx.1, incref_mem,
      KState.setFrame_mem]
    by_cases hT : f = T
    · rw [if_pos hT, hT, Function.update_self]
    · rw [if_neg hT, Function.update_of_ne hT, pop_mem]

/-- Entries after the write, when the page table was new. -/
theorem entryOf_new (h : TwoLevel s D L) (hd : d ∈ D) (hfree : T ∈ L) (hlt : T < 2 ^ 20)
    (hT : entryFrame (s.mem d (pdx va)) = none) {w : Word}
    (hm : ∀ f k, t.mem f k = putEntry (newTable s d (pdx va) T) T (ptx va) w f k) {d' : Nat}
    (hd' : d' ∈ D) (i j : Idx) :
    entryOf t d' i j =
      if d' = d ∧ i = pdx va ∧ j = ptx va then w
      else if entryFrame (s.mem d' i) = some d ∧ j = pdx va then t.mem d (pdx va)
      else entryOf s d' i j := by
  have hnotD : ∀ x ∈ D, x ≠ T := fun x hx he => h.dir x hx (he ▸ hfree)
  have hTd : T ≠ d := Ne.symm (hnotD d hd)
  have hdir : ∀ x ∈ D, ∀ k, t.mem x k =
      if x = d ∧ k = pdx va then page2pa T ||| pteP ||| pteW ||| pteU else s.mem x k := by
    intro x hx k
    rw [hm, putEntry, if_neg fun hy => hnotD x hx hy.1, newTable_mem hTd, if_neg (c := x = T)
      (hnotD x hx)]
  have hTm : ∀ k, t.mem T k = if k = ptx va then w else 0 := by
    intro k
    rw [hm, putEntry]
    by_cases hk : k = ptx va
    · rw [if_pos ⟨rfl, hk⟩, if_pos hk]
    · rw [if_neg fun hx => hk hx.2, if_neg hk, newTable_mem hTd, if_neg fun hx => hTd hx.1,
        if_pos rfl]
  by_cases hdi : d' = d ∧ i = pdx va
  · obtain ⟨rfl, rfl⟩ := hdi
    have hs0 : entryOf s d' (pdx va) j = 0 := by unfold entryOf; rw [hT]
    have ht : entryOf t d' (pdx va) j = t.mem T j := by
      unfold entryOf
      rw [hdir d' hd', if_pos ⟨rfl, rfl⟩, entryFrame_pde hlt]
    rw [ht, hTm, hs0, hT]
    simp
  · have hne : ¬ (d' = d ∧ i = pdx va ∧ j = ptx va) := fun hx => hdi ⟨hx.1, hx.2.1⟩
    have hdm : t.mem d' i = s.mem d' i := by rw [hdir d' hd', if_neg hdi]
    rw [if_neg hne]
    unfold entryOf
    rw [hdm]
    cases hX : entryFrame (s.mem d' i) with
    | none => rw [if_neg (by simp)]
    | some X =>
      obtain ⟨-, hXL⟩ := h.tab d' hd' i X hX
      have hXT : X ≠ T := fun he => hXL (he ▸ hfree)
      simp only [Option.some.injEq]
      by_cases hXd : X = d
      · subst hXd
        split
        · rename_i hj
          rw [hj.2]
        · rename_i hj
          rw [hdir X hd, if_neg hj]
      · rw [if_neg fun hx => hXd hx.1, hm, putEntry, if_neg fun hx => hXT hx.1,
          newTable_mem hTd, if_neg fun hx => hXd hx.1, if_neg hXT]

/-! ### Counters and the free list -/

/-- Counters and the free list after `page_insert`, given those once the page table is there. -/
structure Recounted (m t : KState) (mapped : Option Nat) (pp : Nat) (R : List Nat) : Prop where
  same : mapped = some pp → (t.pages pp).ppRef = (m.pages pp).ppRef
  gain : mapped ≠ some pp → (t.pages pp).ppRef = (m.pages pp).ppRef + 1
  loss : ∀ q, mapped = some q → q ≠ pp → (t.pages q).ppRef = (m.pages q).ppRef - 1
  others : ∀ f, f ≠ pp → mapped ≠ some f → (t.pages f).ppRef = (m.pages f).ppRef
  free : FreePages t (freeAfter t mapped pp R)

variable {R : List Nat} {g : Nat}

theorem incref_ref (m : KState) (f g : Nat) :
    ((m.incref f).pages g).ppRef = if g = f then (m.pages f).ppRef + 1 else (m.pages g).ppRef := by
  by_cases hg : g = f
  · subst hg
    simp [KState.incref, KState.setPage]
  · rw [pages_incref_of_ne m f hg, if_neg hg]

theorem incref_link (m : KState) (f g : Nat) :
    ((m.incref f).pages g).ppLink = (m.pages g).ppLink := by
  by_cases hg : g = f
  · subst hg
    simp [KState.incref, KState.setPage]
  · rw [pages_incref_of_ne m f hg]

theorem unref_ref (m : KState) (f : Nat) :
    ((m.unref f).pages f).ppRef = (m.pages f).ppRef - 1 := by
  unfold KState.unref
  split <;> simp [KState.push, KState.setPage]

/-- Nothing was mapped. -/
theorem recounted_fresh (h : FreePages m R) (hpp : pp ∉ R) (hp : t.pages = (m.incref pp).pages)
    (hl : t.pageFreeList = m.pageFreeList) (hn : t.npages = m.npages) :
    Recounted m t none pp R := by
  refine ⟨(fun hx => nomatch hx), fun _ => by rw [hp, incref_ref, if_pos rfl],
    (fun _ hx => nomatch hx), fun f hf _ => by rw [hp, incref_ref, if_neg hf], ?_⟩
  refine ⟨h.list.congr hl fun f => by rw [hp, incref_link], fun f hf => by rw [hn]; exact h.exist f hf,
    fun f hf => ?_, by rw [hn]; exact h.window⟩
  have hne : f ≠ pp := fun he => hpp (he ▸ hf)
  rw [hp, incref_ref, if_neg hne]
  exact h.unused f hf

/-- The page was mapped there already. -/
theorem recounted_same (h : FreePages m R) (hr : (m.pages pp).ppRef ≠ 0)
    (hp : t.pages = ((m.incref pp).unref pp).pages)
    (hl : t.pageFreeList = ((m.incref pp).unref pp).pageFreeList) (hn : t.npages = m.npages) :
    Recounted m t (some pp) pp R := by
  obtain ⟨hp', hl'⟩ := unref_incref_self hr
  rw [hp'] at hp
  rw [hl'] at hl
  have hlist : freeAfter t (some pp) pp R = R := if_neg fun hx => hx.1 rfl
  refine ⟨fun _ => by rw [hp], fun hx => absurd rfl hx, fun q hq hne => absurd ?_ hne,
    fun f _ _ => by rw [hp], ?_⟩
  · exact (Option.some.inj hq).symm
  · rw [hlist]
    exact ⟨h.list.congr hl fun f => by rw [hp], fun f hf => by rw [hn]; exact h.exist f hf,
      fun f hf => by rw [hp]; exact h.unused f hf, by rw [hn]; exact h.window⟩

/-- Another page was mapped there. -/
theorem recounted_over (h : FreePages m R) (hpp : pp ∉ R) (hg : InUse m R g) (hne : g ≠ pp)
    (hp : t.pages = ((m.incref pp).unref g).pages)
    (hl : t.pageFreeList = ((m.incref pp).unref g).pageFreeList) (hn : t.npages = m.npages) :
    Recounted m t (some g) pp R := by
  have hg1 : (t.pages g).ppRef = (m.pages g).ppRef - 1 := by
    rw [hp, unref_ref, incref_ref, if_neg hne]
  have hother : ∀ f, f ≠ g → (t.pages f).ppRef = ((m.incref pp).pages f).ppRef := by
    intro f hf
    rw [hp, pages_unref_of_ne _ g hf]
  refine ⟨fun hx => absurd (Option.some.inj hx) hne, fun _ => ?_, ?_, ?_, ?_⟩
  · rw [hother pp (Ne.symm hne), incref_ref, if_pos rfl]
  · rintro q hq -
    obtain rfl := Option.some.inj hq
    exact hg1
  · intro f hf hfm
    rw [hother f fun he => hfm (he ▸ rfl), incref_ref, if_neg hf]
  · -- the free list of the intermediate state, read off the two updates
    have hchain : FreeChain (m.incref pp) R := h.list.congr rfl fun f => incref_link m pp f
    have hun := hchain.unref hg.notFree
    rw [incref_ref, if_neg hne, ← hg1] at hun
    have hR : ∀ f ∈ R, f < t.npages ∧ (t.pages f).ppRef = 0 := by
      intro f hf
      have hfg : f ≠ g := fun he => hg.notFree (he ▸ hf)
      have hfp : f ≠ pp := fun he => hpp (he ▸ hf)
      rw [hother f hfg, incref_ref, if_neg hfp, hn]
      exact ⟨h.exist f hf, h.unused f hf⟩
    have hlist : freeAfter t (some g) pp R = if (t.pages g).ppRef = 0 then g :: R else R := by
      simp [freeAfter, hne]
    rw [hlist]
    refine ⟨hun.congr hl fun f => by rw [hp], fun f hf => ?_, fun f hf => ?_, by rw [hn]; exact h.window⟩
    · split at hf
      · rcases List.mem_cons.mp hf with rfl | hf
        · rw [hn]; exact hg.exist
        · exact (hR f hf).1
      · exact (hR f hf).1
    · split at hf
      · rename_i h0
        rcases List.mem_cons.mp hf with rfl | hf
        · exact h0
        · exact (hR f hf).2
      · exact (hR f hf).2

/-- The entry that `page_insert` finds is overwritten, whatever it held, and the counters follow. -/
theorem pageInsert_entry (c : CpuIdx) (perm : Word)
    (hwalk : pgdirWalk d va true s = .ok (some (T, ptx va)) m)
    (hm : FreePages m R) (hpp : pp ∉ R) (hp : entryFrame (m.mem d (pdx va)) = some T)
    (hT : T < m.npages)
    (hq : ∀ q, entryFrame (m.mem T (ptx va)) = some q → InUse m R q) :
    ∃ t, pageInsert c d pp va perm s = .ok (.ok ()) t ∧
      (∀ f k, t.mem f k = putEntry m T (ptx va) (page2pa pp ||| perm ||| pteP) f k) ∧
      Recounted m t (entryFrame (m.mem T (ptx va))) pp R := by
  cases he : entryFrame (m.mem T (ptx va)) with
  | none =>
    exact ⟨_, pageInsert_fresh c hwalk he, fun f k => poke_putEntry (fun _ _ _ => by rw [incref_mem]) f k,
      recounted_fresh hm hpp rfl rfl rfl⟩
  | some g =>
    have hg := hq g he
    refine ⟨_, pageInsert_over c hwalk hp hT hm.window he hg.exist hg.unlinked, ?_, ?_⟩
    · intro f k
      refine poke_putEntry (fun f' k' hne => ?_) f k
      by_cases hf : f' = T
      · subst hf
        rw [KState.poke_mem_self, if_neg (hne.resolve_left fun hx => hx rfl)]
        simp
      · rw [KState.poke_mem_of_ne _ _ _ _ hf]
        simp
    · obtain ⟨hup, hul⟩ := unref_congr (s := m.incref pp) (t := (m.incref pp).flush c d va)
        (flush_pages _ _ _ _) (flush_freeList _ _ _ _) g
      have hpages : (((((m.incref pp).flush c d va).unref g).flush c d va).poke T (ptx va) 0).pages =
          ((m.incref pp).unref g).pages := (flush_pages _ _ _ _).trans hup
      have hlist : (((((m.incref pp).flush c d va).unref g).flush c d va).poke T
          (ptx va) 0).pageFreeList = ((m.incref pp).unref g).pageFreeList :=
        (flush_freeList _ _ _ _).trans hul
      have hnp : (((((m.incref pp).flush c d va).unref g).flush c d va).poke T (ptx va) 0).npages =
          m.npages :=
        ((((PmOnly.incref m pp).trans (.flush _ _ _ _)).trans (.unref _ _)).trans
          (.flush _ _ _ _)).npages
      by_cases hgp : g = pp
      · subst hgp
        exact recounted_same hm hg.counted hpages hlist hnp
      · exact recounted_over hm hpp hg hgp hpages hlist hnp

end

/-- `page_insert` fails exactly if a page table is missing and the free list is empty, and then
    changes nothing. Otherwise it maps `pp` at `va` and nothing else. -/
theorem page_insert_exact (c : CpuIdx) {s : KState} {D : Set Nat} {L : List Nat} {d pp : Nat}
    {va : Word} (perm : Word) (hl : FreePages s L) (ht : TwoLevel s D L) (hd : d ∈ D)
    (hva : va < utop) (hpp : pp ∉ L)
    (hq : ∀ q, entryFrame (entryOf s d (pdx va) (ptx va)) = some q → InUse s L q) :
    (pageInsert c d pp va perm s = .ok (.error .noMem) s ∧
      entryFrame (s.mem d (pdx va)) = none ∧ L = []) ∨
    (∃ t, pageInsert c d pp va perm s = .ok (.ok ()) t ∧ Inserted s t D d pp va perm L) ∧
      ¬ (entryFrame (s.mem d (pdx va)) = none ∧ L = []) := by
  have hi : pdx va < utopPdx := pdx_lt_utopPdx.mpr hva
  cases hT : entryFrame (s.mem d (pdx va)) with
  | some T =>
    refine Or.inr ⟨?_, fun hx => by cases hx.1⟩
    have hTn := (ht.tab d hd _ T hT).1
    have hent : entryOf s d (pdx va) (ptx va) = s.mem T (ptx va) := by unfold entryOf; rw [hT]
    rw [hent] at hq
    obtain ⟨t, hrun, hm, hr⟩ := pageInsert_entry c perm
      (pgdirWalk_found hT hTn hl.window true) hl hpp hT hTn hq
    rw [← hent] at hr
    refine ⟨t, hrun, fun d' hd' i j => entryOf_found ht hd hi hT hm hd' i j, Or.inl ⟨T, hT, ?_⟩,
      hr.same, hr.gain, hr.loss, fun f hf hfm _ => hr.others f hf hfm, ?_⟩
    · rw [hm, putEntry, if_neg]
      rintro ⟨rfl, -⟩
      exact (ht.own d hd _ hi d hT).1 hd
    · rw [hT, if_neg (by simp)]
      exact hr.free
  | none =>
    cases L with
    | nil =>
      refine Or.inl ⟨?_, rfl, rfl⟩
      simp only [pageInsert, run_bind, pgdirWalk_full hl.list.1 hT, run_pure]
    | cons T L' =>
      refine Or.inr ⟨?_, fun hx => by cases hx.2⟩
      have hTn := hl.exist T (List.mem_cons_self ..)
      have hhead : s.pageFreeList = some T := hl.list.1.1
      have hTd : T ≠ d := fun he => ht.dir d hd (he ▸ List.mem_cons_self ..)
      have hppT : pp ≠ T := fun he => hpp (he ▸ List.mem_cons_self ..)
      obtain ⟨hTL, -⟩ := List.nodup_cons.mp hl.list.2
      set m := newTable s d (pdx va) T with hmdef
      have hpages : m.pages = ((s.pop T).incref T).pages := rfl
      have hpg : ∀ f, f ≠ T → m.pages f = s.pages f := by
        intro f hf
        rw [hpages, pages_incref_of_ne _ T hf]
        simp [KState.pop, KState.setPage, hf]
      have hpgT : (m.pages T).ppRef = 1 := by
        rw [hpages, incref_ref, if_pos rfl]
        have : ((s.pop T).pages T).ppRef = (s.pages T).ppRef := by simp [KState.pop, KState.setPage]
        rw [this, hl.unused T (List.mem_cons_self ..)]
        rfl
      have hfm : FreePages m L' := by
        refine ⟨hl.list.pop.congr rfl fun f => by rw [hpages, incref_link], fun f hf =>
          hl.exist f (List.mem_cons_of_mem T hf), fun f hf => ?_, hl.window⟩
        have hne : f ≠ T := fun he => hTL (he ▸ hf)
        rw [hpg f hne]
        exact hl.unused f (List.mem_cons_of_mem T hf)
      have hT20 : T < 2 ^ 20 := by have := hl.window; omega
      have hpde : entryFrame (m.mem d (pdx va)) = some T := by
        rw [newTable_mem hTd, if_pos ⟨rfl, rfl⟩, entryFrame_pde hT20]
      have hzero : m.mem T (ptx va) = 0 := by
        rw [newTable_mem hTd, if_neg fun hx => hTd hx.1, if_pos rfl]
      have hnone : entryFrame (m.mem T (ptx va)) = none := by rw [hzero, entryFrame_zero]
      have hsnone : entryFrame (entryOf s d (pdx va) (ptx va)) = none := by
        unfold entryOf
        rw [hT, entryFrame_zero]
      obtain ⟨t, hrun, hm, hr⟩ := pageInsert_entry c perm
        (pgdirWalk_new hhead hTn hl.window hT) hfm (fun hx => hpp (List.mem_cons_of_mem T hx)) hpde
        hTn fun q hq => by rw [hnone] at hq; cases hq
      rw [hnone] at hr
      refine ⟨t, hrun, fun d' hd' i j => entryOf_new ht hd (List.mem_cons_self ..) hT20 hT hm hd' i j,
        Or.inr ⟨hT, T, L', rfl, ?_, ?_, ?_⟩, ?_, ?_, ?_, ?_, ?_⟩
      · rw [hm, putEntry, if_neg fun hx => hTd hx.1.symm]
        exact hpde
      · intro j hj
        rw [hm, putEntry, if_neg fun hx => hj hx.2, newTable_mem hTd, if_neg fun hx => hTd hx.1,
          if_pos rfl]
      · rw [hr.others T (Ne.symm hppT) (by simp), hpgT]
      · rw [hsnone]
        intro hx
        cases hx
      · intro _
        rw [hr.gain (by simp), hpg pp hppT]
      · rw [hsnone]
        intro q hx
        cases hx
      · intro f hf _ hhd
        have hne : f ≠ T := fun he => hhd hT (he ▸ hhead)
        rw [hr.others f hf (by simp), hpg f hne]
      · rw [hsnone, hT, if_pos rfl]
        exact hr.free

/-! ### The kernel's own directories are well formed -/

theorem PageInv.freePages {s : KState} {L : List Nat} {H : Finset Nat} (h : PageInv s L H) :
    FreePages s L :=
  ⟨⟨h.chain, h.counted.nodup⟩, fun f hf => (h.counted.managed f hf).1,
    fun _ hf => h.counted.ref_free hf, h.window⟩

/-- What an environment maps is in use. -/
theorem PageInv.inUse {s : KState} {L : List Nat} {H : Finset Nat} (h : PageInv s L H) {r : Slot}
    {f : Nat} (hf : target s r = some f) : InUse s L f := by
  have hM := h.counted.target r f hf
  refine ⟨hM.1, h.counted.not_free_of_target hf, fun h0 => ?_, h.link_of_target hf⟩
  have hex := h.counted.exact f hM
  have hpos := refs_pos hf
  rw [h0] at hex
  simp at hex
  omega

/-- A directory entry of an environment names one of its own page tables, the directory itself,
    or a page table of the kernel. -/
theorem Core.entry_cases {s : KState} {L : List Nat} {H : Finset Nat} (h : Core H s)
    (hL : PageInv s L H) {e : EnvIdx} {d T : Nat} {i : Idx} (hd : (s.envs e).envPgdir = some d)
    (hT : entryFrame (s.mem d i) = some T) :
    tabFrame s (some e) i = some T ∨ T = d ∨ tabFrame s none i = some T := by
  by_cases hi : i < utopPdx
  · left
    rw [tabFrame_of_dir (o := some e) hd hi]
    exact hT
  · right
    have hup := h.kern.upper e d hd i (not_lt.mp hi)
    by_cases hv : i = uvptPdx
    · left
      have hd20 : d < 2 ^ 20 := by
        have := (hL.lt_window (hL.counted.target (.dir e) d hd)).2
        omega
      rw [hup, if_pos hv, BitVec.or_assoc, BitVec.or_comm pteP, ← BitVec.or_assoc,
        entryFrame_mk_of_lt hd20 (by decide)] at hT
      exact (Option.some.inj hT).symm
    · right
      rw [hup, if_neg hv] at hT
      rw [tabFrame_of_dir (o := none) rfl hv]
      exact hT

/-- Between kernel entries the directories of all environments are well formed. -/
theorem Core.twoLevel {s : KState} {L : List Nat} {H : Finset Nat} (h : Core H s)
    (hL : PageInv s L H) : TwoLevel s {d | ∃ e, (s.envs e).envPgdir = some d} L := by
  have hs := hL.separate
  refine ⟨?_, ?_, ?_⟩
  · rintro d ⟨e, hd⟩
    exact (hL.inUse (r := .dir e) hd).notFree
  · rintro d ⟨e, hd⟩ i T hT
    have huse : InUse s L T := by
      rcases h.entry_cases hL hd hT with hT | rfl | hT
      · exact hL.inUse (r := .tab _ _) hT
      · exact hL.inUse (r := .dir e) hd
      · exact hL.inUse (r := .tab _ _) hT
    exact ⟨huse.exist, huse.notFree⟩
  · rintro d ⟨e, hd⟩ i hi T hT
    have hTe : tabFrame s (some e) i = some T := by
      rw [tabFrame_of_dir (o := some e) hd hi]
      exact hT
    refine ⟨?_, ?_⟩
    · rintro ⟨x, hx⟩
      exact hs.tab_ne_dir (q := some x) hTe hx rfl
    · rintro d' ⟨e', hd'⟩ i' hT'
      rcases h.entry_cases hL hd' hT' with hT' | rfl | hT'
      · obtain ⟨he, hii⟩ := hs.tab_inj hTe hT'
        obtain rfl := Option.some.inj he
        exact ⟨Option.some.inj (hd'.symm.trans hd), hii⟩
      · exact absurd rfl (hs.tab_ne_dir (q := some e') hTe hd')
      · cases (hs.tab_inj hTe hT').1

/-! ### A directory that maps itself -/

/-- Frame 1 is free, frame 2 is a directory with nothing but its `UVPT` entry, and frame 3 is in
    use. -/
def selfMapped : KState :=
  { startState demo with
    npages := 4
    pageFreeList := some 1
    mem := fun f i => if f = 2 ∧ i = uvptPdx then page2pa 2 ||| pteU ||| pteP else 0
    pages := fun f => ⟨none, if f = 3 then 1 else 0⟩ }

theorem selfMapped_free : FreePages selfMapped [1] :=
  ⟨⟨⟨rfl, rfl⟩, List.nodup_singleton 1⟩, by simp [selfMapped], by simp [selfMapped],
    by decide⟩

theorem selfMapped_entry {i : Idx} {T : Nat} (h : entryFrame (selfMapped.mem 2 i) = some T) :
    i = uvptPdx ∧ T = 2 := by
  by_cases hi : i = uvptPdx
  · subst hi
    have : selfMapped.mem 2 uvptPdx = page2pa 2 ||| pteU ||| pteP := by decide
    rw [this, entryFrame_mk_of_lt (by decide) (by decide)] at h
    exact ⟨rfl, (Option.some.inj h).symm⟩
  · have : selfMapped.mem 2 i = 0 := by simp [selfMapped, hi]
    rw [this, entryFrame_zero] at h
    cases h

theorem selfMapped_twoLevel : TwoLevel selfMapped {2} [1] := by
  refine ⟨?_, ?_, ?_⟩
  · rintro d rfl
    decide
  · rintro d rfl i T hT
    obtain ⟨-, rfl⟩ := selfMapped_entry hT
    exact ⟨by decide, by decide⟩
  · rintro d rfl i hi T hT
    obtain ⟨rfl, -⟩ := selfMapped_entry hT
    exact absurd hi (by decide)

theorem selfMapped_absent : entryFrame (selfMapped.mem 2 (pdx 0)) = none := by
  cases h : entryFrame (selfMapped.mem 2 (pdx 0)) with
  | none => rfl
  | some T => exact absurd (selfMapped_entry h).1 (by decide)

/-- Inserting at address 0 makes a page table, which then shows up at `UVPT`: the address there
    was unmapped before and is mapped afterwards. -/
theorem page_insert_shows_new_table :
    ∃ (s t : KState) (D : Set Nat) (L : List Nat) (d pp : Nat) (va perm : Word) (i j : Idx),
      FreePages s L ∧ TwoLevel s D L ∧ d ∈ D ∧ va < utop ∧ pp ∉ L ∧
      entryOf s d (pdx va) (ptx va) = 0 ∧ pageInsert 0 d pp va perm s = .ok (.ok ()) t ∧
      (i, j) ≠ (pdx va, ptx va) ∧ entryOf s d i j = 0 ∧ entryOf t d i j ≠ 0 := by
  have hnone := selfMapped_absent
  set m := newTable selfMapped 2 (pdx 0) 1 with hm
  have hwalk : pgdirWalk 2 0 true selfMapped = .ok (some (1, ptx 0)) m :=
    pgdirWalk_new rfl (by decide) (by decide) hnone
  have h21 : (1 : Nat) ≠ 2 := by decide
  have hzero : entryFrame (m.mem 1 (ptx 0)) = none := by
    rw [hm, newTable_mem h21, if_neg fun hx => h21 hx.1, if_pos rfl, entryFrame_zero]
  set t := (m.incref 3).poke 1 (ptx 0) (page2pa 3 ||| 7 ||| pteP) with ht
  have hrun : pageInsert 0 2 3 0 7 selfMapped = .ok (.ok ()) t := pageInsert_fresh 0 hwalk hzero
  have hmem : ∀ f k, t.mem f k = putEntry m 1 (ptx 0) (page2pa 3 ||| 7 ||| pteP) f k :=
    poke_putEntry fun _ _ _ => by rw [incref_mem]
  have hself : entryFrame (selfMapped.mem 2 uvptPdx) = some 2 := by decide
  have hother : (uvptPdx, pdx 0) ≠ (pdx (0 : Word), ptx (0 : Word)) := by decide
  have hd : (2 : Nat) ∈ ({2} : Set Nat) := rfl
  have hnew := entryOf_new selfMapped_twoLevel hd (List.mem_singleton_self 1) (by decide) hnone
    hmem hd uvptPdx (pdx 0)
  refine ⟨selfMapped, t, {2}, [1], 2, 3, 0, 7, uvptPdx, pdx 0, selfMapped_free,
    selfMapped_twoLevel, rfl, by decide, by decide, ?_, hrun, hother, ?_, ?_⟩
  · unfold entryOf
    rw [hnone]
  · unfold entryOf
    rw [hself]
    rfl
  · rw [hnew, if_neg (by decide), if_pos ⟨hself, rfl⟩, hmem, putEntry,
      if_neg fun hx => h21 hx.1.symm, hm, newTable_mem h21, if_pos ⟨rfl, rfl⟩]
    decide

/-- `page_insert` into that directory. -/
theorem page_insert_exact_selfMapped :
    (pageInsert 0 2 3 0 7 selfMapped = .ok (.error .noMem) selfMapped ∧
      entryFrame (selfMapped.mem 2 (pdx 0)) = none ∧ ([1] : List Nat) = []) ∨
    (∃ t, pageInsert 0 2 3 0 7 selfMapped = .ok (.ok ()) t ∧
      Inserted selfMapped t {2} 2 3 0 7 [1]) ∧
      ¬ (entryFrame (selfMapped.mem 2 (pdx 0)) = none ∧ ([1] : List Nat) = []) := by
  refine page_insert_exact 0 7 selfMapped_free selfMapped_twoLevel rfl (by decide) (by decide) ?_
  intro q hq
  unfold entryOf at hq
  rw [selfMapped_absent, entryFrame_zero] at hq
  cases hq

end Jos
