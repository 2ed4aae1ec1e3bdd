import Jos.FreeList
import Jos.Lib.Transition

/-!
  Double frees (`page_free` in `kern/pmap.c`).

  The only mark of a free page is a link that is not null, and the link of the last page on the free
  list is null. Freeing that page again passes both assertions and links it to the head, so the list
  runs into a cycle. Every other free page is caught. -/

namespace Jos

open Lib

/-- A call of the page allocator with its result, or code that leaves the free list alone. -/
inductive AllocCall where
  | alloc (zero : Bool) (got : Option Nat)
  | free (pp : Nat)
  | other

/-- One call that returns. -/
inductive AllocStep : KState → AllocCall → KState → Prop
  | alloc {s t : KState} {zero : Bool} {got : Option Nat} :
      pageAlloc zero s = .ok got t → AllocStep s (.alloc zero got) t
  | free {s t : KState} {pp : Nat} : pageFree pp s = .ok () t → AllocStep s (.free pp) t
  | other {s t : KState} : t.pageFreeList = s.pageFreeList →
      (∀ f, (t.pages f).ppLink = (s.pages f).ppLink) → AllocStep s .other t

/-- The pages handed out and not freed since, where `A` were in use before. -/
def inUse (A : Set Nat) : List AllocCall → Set Nat
  | [] => A
  | .alloc _ (some f) :: calls => inUse (insert f A) calls
  | .free pp :: calls => inUse (A \ {pp}) calls
  | _ :: calls => inUse A calls

/-- `pp` is the last page on the free list and has no references. -/
def LastFree (s : KState) (pp : Nat) : Prop :=
  (s.pages pp).ppRef = 0 ∧ ∃ L, FreeChain s (L ++ [pp])

/-- A call that does not free the last page of the free list. -/
def AllocCall.Sound (s : KState) : AllocCall → Prop
  | .free pp => ¬ LastFree s pp
  | _ => True

section

variable {s t : KState} {L : List Nat} {A : Set Nat}

/-- On the free list only the last page has a null link. -/
theorem Lib.Chain.link_eq_none {next : Nat → Option Nat} {pp : Nat} :
    ∀ {h : Option Nat} {l : List Nat}, Chain next h l → l.Nodup → pp ∈ l →
      (next pp = none ↔ ∃ l', l = l' ++ [pp])
  | _, [], _, _, hpp => by simp at hpp
  | _, [a], ⟨_, hc⟩, _, hpp => by
    rw [List.mem_singleton] at hpp
    subst hpp
    exact ⟨fun _ => ⟨[], rfl⟩, fun _ => hc⟩
  | _, a :: b :: l, ⟨_, hc⟩, hn, hpp => by
    obtain ⟨ha, hn⟩ := List.nodup_cons.mp hn
    rcases List.mem_cons.mp hpp with rfl | hpp
    · refine ⟨fun h => ?_, ?_⟩
      · rw [hc.1] at h
        exact absurd h (by simp)
      · rintro ⟨l', hl'⟩
        have hlast : (pp :: b :: l).getLast? = some pp := by rw [hl', List.getLast?_concat]
        rw [List.getLast?_cons_cons] at hlast
        exact absurd (List.mem_of_getLast? hlast) ha
    · rw [hc.link_eq_none hn hpp]
      constructor
      · rintro ⟨l', hl'⟩
        exact ⟨a :: l', by rw [hl', List.cons_append]⟩
      · rintro ⟨l', hl'⟩
        cases l' with
        | nil => simp at hl'
        | cons c l' => exact ⟨l', (List.cons.inj hl').2⟩

/-- `LastFree` as the two assertions of `page_free` see it. -/
theorem FreeChain.lastFree_iff (h : FreeChain s L) {pp : Nat} (hpp : pp ∈ L) :
    LastFree s pp ↔ (s.pages pp).ppRef = 0 ∧ (s.pages pp).ppLink = none := by
  refine and_congr_right fun _ => ?_
  rw [h.1.link_eq_none h.2 hpp]
  constructor
  · rintro ⟨l, hl⟩
    exact ⟨l, h.1.unique hl.1⟩
  · rintro ⟨l, rfl⟩
    exact ⟨l, h⟩

/-- `page_free` panics exactly when one of its assertions fails. -/
theorem pageFree_panics {pp : Nat} (h : ¬ ((s.pages pp).ppRef = 0 ∧ (s.pages pp).ppLink = none)) :
    pageFree pp s = .error .panic s := by
  by_cases hr : (s.pages pp).ppRef = 0
  · have hl : (s.pages pp).ppLink ≠ none := fun hl => h ⟨hr, hl⟩
    have hr' : ¬ (s.pages pp).ppRef ≠ 0 := not_not.mpr hr
    simp only [pageFree, run_bind, run_get, run_ite, hr', if_false]
    rw [if_pos hl]
    rfl
  · simp only [pageFree, run_bind, run_get, run_ite]
    rw [if_pos hr]
    rfl

theorem pageFree_ok {pp : Nat} (h : pageFree pp s = .ok () t) :
    (s.pages pp).ppRef = 0 ∧ (s.pages pp).ppLink = none ∧ t = s.push pp := by
  by_cases hp : (s.pages pp).ppRef = 0 ∧ (s.pages pp).ppLink = none
  · rw [pageFree_run hp.1 hp.2] at h
    cases h
    exact ⟨hp.1, hp.2, rfl⟩
  · rw [pageFree_panics hp] at h
    cases h

theorem page2kva_ok {f g : Nat} (h : page2kva f s = .ok g t) : t = s := by
  simp only [page2kva, kaddr, run_bind, run_get, run_ite] at h
  split at h
  · cases h
  · cases h
    rfl

/-- `page_alloc` takes the head of the list. -/
theorem FreeChain.alloc {zero : Bool} {got : Option Nat} (h : FreeChain s L)
    (hs : pageAlloc zero s = .ok got t) :
    got = L.head? ∧ FreeChain t L.tail := by
  cases L with
  | nil =>
    have hn : s.pageFreeList = none := h.1
    simp only [pageAlloc, run_bind, run_get, hn, run_pure] at hs
    cases hs
    exact ⟨rfl, h⟩
  | cons f L =>
    have hf : s.pageFreeList = some f := h.1.1
    have hpop : FreeChain (s.pop f) L := h.pop
    simp only [pageAlloc, run_bind, run_get, hf, run_set, run_ite] at hs
    cases zero with
    | false =>
      cases hs
      exact ⟨rfl, hpop⟩
    | true =>
      simp only [if_true] at hs
      split at hs
      · rename_i hk
        obtain rfl := page2kva_ok hk
        cases hs
        exact ⟨rfl, hpop.congr rfl fun _ => rfl⟩
      · cases hs

/-- A page whose double free goes unnoticed is linked to itself. -/
theorem LastFree.cycle {pp : Nat} (h : LastFree s pp) (hs : pageFree pp s = .ok () t) :
    ¬ ∃ L, FreeChain t L := by
  obtain ⟨-, l, hl⟩ := h
  obtain ⟨-, -, rfl⟩ := pageFree_ok hs
  rintro ⟨m, hm⟩
  -- Behind `pp` the new list runs through the old one up to `pp`, and `pp` is its head again.
  cases m with
  | nil => exact absurd hm.1 (by simp [Chain, KState.push])
  | cons a m =>
    obtain ⟨ha, hm'⟩ := hm.1
    obtain rfl : pp = a := Option.some.inj ha
    obtain ⟨hpp, -⟩ := List.nodup_cons.mp hm.2
    have hlink : ((s.push pp).pages pp).ppLink = s.pageFreeList := by
      simp [KState.push, KState.setPage]
    have hm' : Chain (fun f => ((s.push pp).pages f).ppLink) s.pageFreeList m := by
      rw [← hlink]
      exact hm'
    have hold : Chain (fun f => (s.pages f).ppLink) s.pageFreeList m := by
      refine hm'.congr fun g hg => ?_
      have hgp : g ≠ pp := fun e => hpp (e ▸ hg)
      simp [KState.push, KState.setPage, hgp]
    rw [← hl.1.unique hold] at hpp
    exact hpp (by simp)

/-- The free list has no cycle and no page twice, and none of its pages is in use. -/
def ListOk (A : Set Nat) (s : KState) : Prop := ∃ L, FreeChain s L ∧ ∀ f ∈ L, f ∉ A

/-- A call that does not free the last page keeps the list in order. -/
theorem ListOk.step {call : AllocCall} (h : ListOk A s) (hok : call.Sound s)
    (hs : AllocStep s call t) : ListOk (inUse A [call]) t := by
  obtain ⟨L, hL, hA⟩ := h
  cases hs with
  | @alloc _ zero got hs =>
    obtain ⟨rfl, ht⟩ := hL.alloc hs
    refine ⟨L.tail, ht, fun f hf => ?_⟩
    cases L with
    | nil => simp at hf
    | cons g L =>
      have hg : g ∉ L := (List.nodup_cons.mp hL.2).1
      rw [List.tail_cons] at hf
      rintro (rfl | hfA)
      · exact hg hf
      · exact hA f (List.mem_cons_of_mem g hf) hfA
  | @free _ pp hs =>
    obtain ⟨hr, hl, rfl⟩ := pageFree_ok hs
    have hpp : pp ∉ L := fun hpp => hok ((hL.lastFree_iff hpp).mpr ⟨hr, hl⟩)
    refine ⟨pp :: L, hL.push hpp, fun f hf => ?_⟩
    rintro ⟨hfA, hne⟩
    rcases List.mem_cons.mp hf with rfl | hf
    · exact hne rfl
    · exact hA f hf hfA
  | other hl hp => exact ⟨L, hL.congr hl hp, hA⟩

theorem inUse_cons (A : Set Nat) (call : AllocCall) (calls : List AllocCall) :
    inUse A (call :: calls) = inUse (inUse A [call]) calls := by
  rcases call with ⟨zero, _ | f⟩ | pp | _ <;> rfl

/-- Runs that never free the last page of the free list. -/
theorem ListOk.run {calls : List AllocCall}
    (hr : Run (restrict (fun s call => call.Sound s) AllocStep) s calls t) (h : ListOk A s) :
    ListOk (inUse A calls) t := by
  induction hr generalizing A with
  | nil s => exact h
  | cons hst _ ih =>
    rw [inUse_cons]
    exact ih (h.step hst.1 hst.2)

end

/-- In every state reached by calls of the allocator none of which frees the last page of the free
    list, the list is free of cycles and repetitions and `page_alloc` hands out a page that is not
    in use. There `page_free` catches exactly the listed pages other than the last one, and freeing
    that one leaves no list behind. -/
theorem page_free_detects {s t : KState} {A : Set Nat} {L : List Nat} {calls : List AllocCall}
    (hL : FreeChain s L) (hA : ∀ f ∈ L, f ∉ A)
    (hr : Run (restrict (fun s call => call.Sound s) AllocStep) s calls t) :
    ∃ L', FreeChain t L' ∧
      (∀ zero f u, pageAlloc zero t = .ok (some f) u → f ∉ inUse A calls) ∧
      ∀ pp ∈ L', (pageFree pp t = .error .panic t ↔ ¬ LastFree t pp) ∧
        ∀ u, pageFree pp t = .ok () u → ¬ ∃ L, FreeChain u L := by
  obtain ⟨L', hL', hA'⟩ := ListOk.run hr ⟨L, hL, hA⟩
  refine ⟨L', hL', fun zero f u hu => ?_, fun pp hpp => ⟨⟨fun hp hlast => ?_, fun hlast => ?_⟩, ?_⟩⟩
  · obtain ⟨hf, -⟩ := hL'.alloc hu
    exact hA' f (List.mem_of_mem_head? hf.symm)
  · obtain ⟨hr, hl⟩ := (hL'.lastFree_iff hpp).mp hlast
    rw [pageFree_run hr hl] at hp
    cases hp
  · exact pageFree_panics fun h => hlast ((hL'.lastFree_iff hpp).mpr h)
  · rintro u hu
    obtain ⟨hr, hl, -⟩ := pageFree_ok hu
    exact ((hL'.lastFree_iff hpp).mpr ⟨hr, hl⟩).cycle hu

/-- Three pages, of which `page_init` lists the last two. -/
def threePages : KState :=
  { startState demo with
    npages := 3
    pages := Function.update (fun _ => ⟨none, 0⟩) 2 ⟨some 1, 0⟩
    pageFreeList := some 2 }

theorem threePages_chain : FreeChain threePages [2, 1] := ⟨⟨rfl, rfl, rfl⟩, by decide⟩

/-- A page that was allocated and freed is caught when it is freed again. -/
theorem page_free_detects_head :
    ∃ t, Run (restrict (fun s call => call.Sound s) AllocStep) threePages
        [.alloc false (some 2), .free 2] t ∧ pageFree 2 t = .error .panic t := by
  have hpop : FreeChain (threePages.pop 2) [1] := threePages_chain.pop
  have hnot : ¬ LastFree (threePages.pop 2) 2 := by
    rintro ⟨-, l, hl⟩
    have hlast := congrArg List.getLast? (hpop.1.unique hl.1)
    rw [List.getLast?_concat] at hlast
    exact absurd hlast (by decide)
  have hrun : Run (restrict (fun s call => call.Sound s) AllocStep) threePages
      [.alloc false (some 2), .free 2] ((threePages.pop 2).push 2) :=
    .cons ⟨trivial, .alloc rfl⟩ (.cons ⟨hnot, .free (pageFree_run rfl rfl)⟩ (.nil _))
  obtain ⟨L', hL', -, hpanic⟩ :=
    page_free_detects threePages_chain (A := ∅) (fun _ _ => Set.notMem_empty _) hrun
  obtain rfl := hL'.1.unique (hpop.push (by decide)).1
  refine ⟨_, hrun, ((hpanic 2 (by decide)).1).mpr fun h => ?_⟩
  exact absurd ((hL'.lastFree_iff (by decide)).mp h).2 (by decide)

/-- Page 1 is free and is freed again; after that it is handed out twice. -/
theorem last_page_freed_twice :
    FreeChain threePages [2, 1] ∧ ∃ t u v w,
      pageFree 1 threePages = .ok () t ∧ (¬ ∃ L, FreeChain t L) ∧
      pageAlloc false t = .ok (some 1) u ∧ pageAlloc false u = .ok (some 2) v ∧
      pageAlloc false v = .ok (some 1) w := by
  have hlast : LastFree threePages 1 := ⟨rfl, [2], threePages_chain⟩
  have hfree : pageFree 1 threePages = .ok () (threePages.push 1) := pageFree_run rfl rfl
  exact ⟨threePages_chain, _, _, _, _, hfree, hlast.cycle hfree, rfl, rfl, rfl⟩

end Jos
