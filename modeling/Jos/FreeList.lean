import Jos.Boot
import Jos.Alloc

/-!
  The free list that boot builds (`page_init`, and the reordering in `check_page_free_list`). -/

namespace Jos

open Lib RefCount

/-- The pages below `n` that `page_init` puts on the free list, the last one first. -/
def initFree (kernelEndPage n : Nat) : List Nat :=
  ((List.range n).filter fun i => !pageReserved kernelEndPage i).reverse

theorem mem_initFree {ke n f : Nat} : f ∈ initFree ke n ↔ f < n ∧ pageReserved ke f = false := by
  simp [initFree]

theorem nodup_initFree (ke n : Nat) : (initFree ke n).Nodup := by
  rw [initFree, List.nodup_reverse]
  exact List.Nodup.filter _ List.nodup_range

theorem initFree_succ (ke n : Nat) :
    initFree ke (n + 1) = if pageReserved ke n then initFree ke n else n :: initFree ke n := by
  unfold initFree
  rw [List.range_succ, List.filter_append, List.reverse_append]
  cases h : pageReserved ke n <;> simp [h]

/-- What the loop of `page_init` has done to a fresh page array after `n` pages. -/
structure InitLoop (ke n : Nat) (s t : KState) : Prop where
  only : PmOnly s t
  mem : t.mem = s.mem
  tlb : t.tlb = s.tlb
  chain : Chain (fun f => (t.pages f).ppLink) t.pageFreeList (initFree ke n)
  pages : ∀ f, (t.pages f).ppRef = if f < n ∧ pageReserved ke f then 1 else 0
  rest : ∀ f, n ≤ f → (t.pages f).ppLink = none

theorem pageInit_loop {s : KState} (ke : Nat) (hp : s.pages = fun _ => ⟨none, 0⟩)
    (hf : s.pageFreeList = none) (n : Nat) :
    InitLoop ke n s ((List.range n).foldl (pageInitStep ke) s) := by
  induction n with
  | zero =>
    refine ⟨.refl s, rfl, rfl, hf, fun f => ?_, fun f _ => ?_⟩
    · simp [hp]
    · simp [hp]
  | succ n ih =>
    rw [List.range_succ, List.foldl_append, List.foldl_cons, List.foldl_nil]
    set m := (List.range n).foldl (pageInitStep ke) s
    unfold pageInitStep
    have hn : n ∉ initFree ke n := fun h => absurd (mem_initFree.mp h).1 (lt_irrefl n)
    split
    · rename_i hr
      refine ⟨ih.only, ih.mem, ih.tlb, ?_, fun f => ?_, fun f hfn => ?_⟩
      · rw [initFree_succ, if_pos hr]
        refine ih.chain.congr fun f hfl => ?_
        have hne : f ≠ n := fun e => hn (e ▸ hfl)
        simp [KState.setPage, hne]
      · by_cases hfn : f = n
        · subst hfn; simp [KState.setPage, hr]
        · have : f < n + 1 ↔ f < n := by omega
          simp [KState.setPage, hfn, ih.pages f, this]
      · have hne : f ≠ n := by omega
        simpa [KState.setPage, hne] using ih.rest f (by omega)
    · rename_i hr
      refine ⟨ih.only, ih.mem, ih.tlb, ?_, fun f => ?_, fun f hfn => ?_⟩
      · rw [initFree_succ, if_neg hr]
        refine (ih.chain.push hn).congr fun f _ => ?_
        by_cases hfn : f = n
        · subst hfn; simp [KState.setPage]
        · simp [KState.setPage, hfn]
      · by_cases hfn : f = n
        · subst hfn; simp [KState.setPage, hr]
        · have : f < n + 1 ↔ f < n := by omega
          simp [KState.setPage, hfn, ih.pages f, this]
      · have hne : f ≠ n := by omega
        simpa [KState.setPage, hne] using ih.rest f (by omega)

/-- Reading a chain back. -/
theorem freeListFrom_eq {s : KState} : ∀ {l : List Nat} {h : Option Nat} {fuel : Nat},
    Chain (fun f => (s.pages f).ppLink) h l → l.length ≤ fuel → freeListFrom s fuel h = l
  | [], h, fuel, hc, _ => by
    rw [Chain] at hc
    subst hc
    cases fuel <;> rfl
  | f :: l, h, 0, _, hl => by simp at hl
  | f :: l, h, fuel + 1, hc, hl => by
    obtain ⟨rfl, hc⟩ := hc
    rw [List.length_cons] at hl
    rw [freeListFrom, freeListFrom_eq hc (by omega)]

/-- What relinking the pages of `l` does. -/
structure Linked (l : List Nat) (s t : KState) : Prop where
  only : PmOnly s t
  mem : t.mem = s.mem
  tlb : t.tlb = s.tlb
  chain : Chain (fun f => (t.pages f).ppLink) t.pageFreeList l
  ref : ∀ f, (t.pages f).ppRef = (s.pages f).ppRef
  off : ∀ f, f ∉ l → (t.pages f).ppLink = (s.pages f).ppLink

theorem linkList_spec (s : KState) : ∀ {l : List Nat}, l.Nodup → Linked l s (linkList s l)
  | [], _ => ⟨rfl, rfl, rfl, rfl, fun _ => rfl, fun _ _ => rfl⟩
  | f :: l, hn => by
    obtain ⟨hf, hn'⟩ := List.nodup_cons.mp hn
    have ih := linkList_spec s hn'
    unfold linkList
    refine ⟨ih.only, ih.mem, ih.tlb, ?_, fun g => ?_, fun g hg => ?_⟩
    · refine (ih.chain.push hf).congr fun g _ => ?_
      by_cases hgf : g = f
      · subst hgf; simp [KState.setPage]
      · simp [KState.setPage, hgf]
    · by_cases hgf : g = f
      · subst hgf; simp [KState.setPage, ih.ref]
      · simp [KState.setPage, hgf, ih.ref]
    · rw [List.mem_cons, not_or] at hg
      simpa [KState.setPage, hg.1] using ih.off g hg.2

/-- Putting the low pages first only reorders the list. -/
theorem lowFirst_perm (l : List Nat) :
    (l.filter lowPage ++ l.filter fun f => !lowPage f).Perm l := by
  have := List.filter_append_perm (fun f => lowPage f) l
  simpa using this

end Jos
