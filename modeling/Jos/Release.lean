import Jos.BootInv

/-!
  What `env_free` gives back.

  Every reference that the environment held disappears and no other one does. Since counters are
  exact before and after, each counter drops by the references held, and the frames whose last
  reference it was are the ones that join the free list. -/

namespace Jos

open Lib RefCount

/-- The slots that belong to environment `e`: its page directory, its page tables, its entries. -/
def Slot.OfEnv (e : EnvIdx) : Slot → Prop
  | .dir e' => e' = e
  | .tab o _ => o = some e
  | .pte e' _ _ => e' = e

instance (e : EnvIdx) (r : Slot) : Decidable (r.OfEnv e) := by
  cases r <;> unfold Slot.OfEnv <;> infer_instance

/-- Number of references to frame `f` that environment `e` holds. -/
def heldBy (s : KState) (e : EnvIdx) (f : Nat) : ℕ :=
  (Finset.univ.filter fun r : Slot => r.OfEnv e ∧ target s r = some f).card

/-- Number of addresses below `UTOP` at which environment `e` maps frame `f`. -/
def mapsOf (s : KState) (e : EnvIdx) (f : Nat) : ℕ :=
  (Finset.univ.filter fun p : Idx × Idx => target s (.pte e p.1 p.2) = some f).card

/-- A frame that is no directory or page table is held through mappings only. -/
theorem heldBy_eq_mapsOf {s : KState} {f : Nat} (hf : NotTable s f) (e : EnvIdx) :
    heldBy s e f = mapsOf s e f := by
  refine card_filter_map (fun p : Idx × Idx => Slot.pte e p.1 p.2) ?_ fun r => ?_
  · rintro ⟨i, j⟩ ⟨i', j'⟩ heq
    cases heq
    rfl
  constructor
  · rintro ⟨ho, ht⟩
    cases r with
    | dir e' => exact absurd ht (hf.2 _ trivial)
    | tab o i => exact absurd ht (hf.2 _ trivial)
    | pte e' i j =>
      obtain rfl : e' = e := ho
      exact ⟨(i, j), ht, rfl⟩
  · rintro ⟨⟨i, j⟩, ht, rfl⟩
    exact ⟨rfl, ht⟩

/-- A directory or page table is held once, by its environment. -/
theorem heldBy_table {s : KState} (h : Separate s) {e : EnvIdx} {r : Slot} (hr : r.IsTable)
    (ho : r.OfEnv e) {f : Nat} (hf : target s r = some f) : heldBy s e f = 1 := by
  have hone : (Finset.univ.filter fun x : Slot => x.OfEnv e ∧ target s x = some f) = {r} := by
    ext x
    simp only [Finset.mem_filter, Finset.mem_univ, true_and, Finset.mem_singleton]
    constructor
    · rintro ⟨-, hx⟩
      exact h.sole r f hr hf x hx
    · rintro rfl
      exact ⟨ho, hf⟩
  rw [heldBy, hone, Finset.card_singleton]

variable {c : CpuIdx} {s t : KState} {L : List Nat} {H : Finset Nat} {e : EnvIdx} {d : Nat}

/-- The references of `e` are gone, and the others are as before. -/
theorem EnvGone.target_eq (h : EnvGone c e d s t) :
    target t = fun r => if r.OfEnv e then none else target s r := by
  funext r
  cases r with
  | dir e' =>
    by_cases he : e' = e
    · subst he
      simp [target, h.envs, Slot.OfEnv]
    · simp [target, h.envs, Slot.OfEnv, he]
  | tab o i =>
    by_cases ho : o = some e
    · subst ho
      simp [target, h.noTab, Slot.OfEnv]
    · simp [target, h.tab o i ho, Slot.OfEnv, ho]
  | pte e' i j =>
    by_cases he : e' = e
    · subst he
      simp [target, pteAt_of_no_tab (h.noTab i), Slot.OfEnv]
    · have ho : some e' ≠ some e := fun hx => he (Option.some.inj hx)
      simp [target, h.pte (some e') i j ho, Slot.OfEnv, he]

/-- Counters of managed frames drop by the references that `e` held. -/
theorem EnvGone.count (h : EnvGone c e d s t) (hs : PageInv s L H) {L' : List Nat}
    (ht : PageInv t L' H) {f : Nat} (hf : Managed s f) :
    (s.pages f).ppRef.toNat = (t.pages f).ppRef.toNat + heldBy s e f := by
  have hft : Managed t f := by rw [h.limits.managed]; exact hf
  rw [hs.counted.exact f hf, ht.counted.exact f hft, h.target_eq,
    refs_split (target s) (fun r => r.OfEnv e) f, heldBy]

theorem heldBy_unmanaged (hs : PageInv s L H) {f : Nat} (hf : ¬ Managed s f) :
    heldBy s e f = 0 := by
  rw [heldBy, Finset.card_eq_zero, Finset.filter_eq_empty_iff]
  rintro r - ⟨-, hr⟩
  exact hf (hs.counted.target r f hr)

/-- What `env_free` releases when the free list was `L` and becomes `L'`. -/
structure Released (s t : KState) (e : EnvIdx) (L L' : List Nat) : Prop where
  /-- Each counter drops by the references that `e` held. -/
  count : ∀ f, (s.pages f).ppRef.toNat = (t.pages f).ppRef.toNat + heldBy s e f
  /-- For a data page these are its mappings. -/
  maps : ∀ f, NotTable s f → heldBy s e f = mapsOf s e f
  /-- A directory and the page tables of `e` are released completely. -/
  tables : ∀ r f, r.IsTable → r.OfEnv e → target s r = some f → (t.pages f).ppRef = 0
  /-- The new free list holds, once each, the old one and the frames that lost their last
      reference. -/
  list : Chain (fun f => (t.pages f).ppLink) t.pageFreeList L'
  nodup : L'.Nodup
  freed : ∀ f, f ∈ L' ↔ f ∈ L ∨ 0 < heldBy s e f ∧ (t.pages f).ppRef = 0
  /-- Nobody else's directory and page tables change, and neither do the kernel's. -/
  pde : ∀ o d i, o ≠ some e → dirFrame s o = some d → dirFrame t o = some d ∧ t.mem d i = s.mem d i
  pte : ∀ o i j, o ≠ some e → tabFrame t o i = tabFrame s o i ∧ pteAt t o i j = pteAt s o i j
  /-- The slot is free and at the head of the list, with its id kept. -/
  slot : t.envFreeList = some e ∧ t.envs e =
    { s.envs e with envPgdir := none, envStatus := .free, envLink := s.envFreeList }
  envs : ∀ x, x ≠ e → t.envs x = s.envs x

theorem EnvGone.released (h : EnvGone c e d s t) (hs : PageInv s L H) {L' : List Nat}
    (ht : PageInv t L' H) : Released s t e L L' := by
  have hcount : ∀ f, (s.pages f).ppRef.toNat = (t.pages f).ppRef.toNat + heldBy s e f := by
    intro f
    by_cases hf : Managed s f
    · exact h.count hs ht hf
    · rw [h.unmanaged f hf, heldBy_unmanaged hs hf, Nat.add_zero]
  refine ⟨hcount, fun f hf => heldBy_eq_mapsOf hf e, ?_, ht.chain, ht.counted.nodup, ?_, ?_, ?_,
    ⟨h.envFreeList, by rw [h.envs, Function.update_self]⟩,
    fun x hx => by rw [h.envs, Function.update_of_ne hx]⟩
  · intro r f hr ho hf
    -- a table has a single reference, and `e` held it
    have hM := hs.counted.target r f hf
    have hone : refs (target s) f = 1 := refs_eq_one hf (hs.sole r f hr hf)
    have := hcount f
    rw [hs.counted.exact f hM, hone, heldBy_table hs.separate hr ho hf] at this
    exact BitVec.eq_of_toNat_eq (by simpa using this)
  · intro f
    by_cases hM : Managed s f
    · have hMt : Managed t f := by rw [h.limits.managed]; exact hM
      have hsplit := refs_split (target s) (fun r => r.OfEnv e) f
      rw [← h.target_eq] at hsplit
      have hfree : f ∈ L ↔ refs (target s) f = 0 ∧ f ∉ H := hs.counted.free_iff f hM
      have hfree' : f ∈ L' ↔ refs (target t) f = 0 ∧ f ∉ H := ht.counted.free_iff f hMt
      have hzero : (t.pages f).ppRef = 0 ↔ refs (target t) f = 0 := by
        rw [← ht.counted.exact f hMt]
        exact ⟨fun h0 => by rw [h0]; rfl, fun h0 => BitVec.eq_of_toNat_eq (by simpa using h0)⟩
      have hhand : 0 < heldBy s e f → f ∉ H := by
        intro hpos hfH
        obtain ⟨r, hr⟩ := card_filter_pos.mp hpos
        exact (hs.counted.inHand f hfH).2 r hr.2
      rw [hfree, hfree', hzero]
      change _ = _ + heldBy s e f at hsplit
      constructor
      · rintro ⟨h0, hH⟩
        rcases Nat.eq_zero_or_pos (heldBy s e f) with hz | hpos
        · exact Or.inl ⟨by omega, hH⟩
        · exact Or.inr ⟨hpos, h0⟩
      · rintro (⟨h0, hH⟩ | ⟨hpos, h0⟩)
        · exact ⟨by omega, hH⟩
        · exact ⟨h0, hhand hpos⟩
    · have hMt : ¬ Managed t f := by rw [h.limits.managed]; exact hM
      rw [heldBy_unmanaged hs hM]
      constructor
      · intro hf
        exact absurd (ht.counted.managed f hf) hMt
      · rintro (hf | ⟨hpos, -⟩)
        · exact absurd (hs.counted.managed f hf) hM
        · exact absurd hpos (lt_irrefl 0)
  · intro o d' i ho hd'
    refine ⟨?_, h.pde o d' i ho hd'⟩
    cases o with
    | none => rw [dirFrame, h.limits.kernPgdir]; exact hd'
    | some x =>
      have hx : x ≠ e := fun hx => ho (hx ▸ rfl)
      rw [dirFrame, h.envs, Function.update_of_ne hx]
      exact hd'
  · intro o i j ho
    exact ⟨h.tab o i ho, h.pte o i j ho⟩

/-- Freeing an environment does not take pages. -/
theorem length_le_of_gone {L L' : List Nat} (h : EnvGone c e d s t)
    (hs : PageInv s L ∅) (ht : PageInv t L' ∅) : L.length ≤ L'.length :=
  (List.subperm_of_subset hs.counted.nodup fun f hf =>
    ((h.released hs ht).freed f).mpr (Or.inl hf)).length_le

/-- `env_free` succeeds on every environment that has a page directory and releases exactly what
    it held. Counters are exact afterwards. -/
theorem env_free_releases (c : CpuIdx) {s : KState} {L : List Nat} {H : Finset Nat} {e : EnvIdx}
    {d : Nat} (h : PageInv s L H) (hd : (s.envs e).envPgdir = some d) :
    ∃ t L', envFree c e s = .ok () t ∧ PageInv t L' H ∧ Released s t e L L' := by
  obtain ⟨t, hrun, hgone, L', hinv⟩ := envFree_spec c h hd
  exact ⟨t, L', hrun, hinv, hgone.released h hinv⟩

/-- The demonstration machine gives back its second program. -/
theorem env_free_releases_demo :
    ∃ s L d t L', boot demo = some s ∧ PageInv s L ∅ ∧ (s.envs 1).envPgdir = some d ∧
      envFree 0 1 s = .ok () t ∧ PageInv t L' ∅ ∧ Released s t 1 L L' := by
  obtain ⟨s, L, hboot, hb, hL, -⟩ := demo_boots
  obtain ⟨Le, hLe⟩ := hb.inv.core.envs
  have hlive : (s.envs 1).envPgdir ≠ none := by
    intro hn
    have hbe := hb.envs 1 (by decide)
    rw [if_pos (by decide)] at hbe
    rw [hLe.dir, hbe.status] at hn
    cases hn
  obtain ⟨d, hd⟩ := Option.ne_none_iff_exists'.mp hlive
  obtain ⟨t, L', hrun, hinv, hrel⟩ := env_free_releases 0 hL hd
  exact ⟨s, L, d, t, L', hboot, hL, hd, hrun, hinv, hrel⟩

end Jos
