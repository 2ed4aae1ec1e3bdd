import Mathlib.Data.Fintype.BigOperators

/-!
  Reference counting over a table of references.

  A *reference table* `t : ι → Option φ` says what each reference slot points at. `refs t f` counts
  the slots that point at `f`. `Counted` ties such a table to the counters kept for its targets
  and to a list of free targets: each counter is exact, and a target is free exactly when nothing
  points at it and nobody holds it in hand. The lemmas say what allocating, assigning, clearing
  and replacing one slot do to it. Counters are `w`-bit words, so each increment has to show that
  it does not wrap. -/

namespace Jos.RefCount

section Refs

variable {ι φ : Type*} [Fintype ι] [DecidableEq φ]

/-- Number of slots of `t` that point at `f`. -/
@[irreducible] def refs (t : ι → Option φ) (f : φ) : ℕ := (Finset.univ.filter fun r => t r = some f).card

/-- The pointers to a target split into those in `P` and the rest. -/
theorem refs_split (t : ι → Option φ) (P : ι → Prop) [DecidablePred P] (f : φ) :
    refs t f = refs (fun r => if P r then none else t r) f +
      (Finset.univ.filter fun r => P r ∧ t r = some f).card := by
  have h := Finset.card_filter_add_card_filter_not (s := Finset.univ.filter fun r => t r = some f) P
  rw [Finset.filter_filter, Finset.filter_filter] at h
  rw [refs, refs, ← h, Nat.add_comm]
  congr 2
  · ext r
    by_cases hP : P r <;> simp [hP]
  · ext r
    simp [and_comm]

theorem card_filter_pos {P : ι → Prop} [DecidablePred P] :
    0 < (Finset.univ.filter P).card ↔ ∃ r, P r := by
  simp [Finset.card_pos, Finset.Nonempty]

/-- Slots counted through an embedding of another type into them. -/
theorem card_filter_map {κ : Type*} [Fintype κ] {P : κ → Prop} {Q : ι → Prop} [DecidablePred P]
    [DecidablePred Q] (g : κ → ι) (hg : Function.Injective g)
    (h : ∀ r, Q r ↔ ∃ k, P k ∧ g k = r) :
    (Finset.univ.filter Q).card = (Finset.univ.filter P).card := by
  refine (Finset.card_bij (fun k _ => g k) ?_ (fun a _ b _ hab => hg hab) ?_).symm
  · intro k hk
    rw [Finset.mem_filter_univ] at hk ⊢
    exact (h _).mpr ⟨k, hk, rfl⟩
  · intro r hr
    rw [Finset.mem_filter_univ] at hr
    obtain ⟨k, hk, hr⟩ := (h r).mp hr
    exact ⟨k, by rw [Finset.mem_filter_univ]; exact hk, hr⟩

theorem refs_eq_zero {t : ι → Option φ} {f : φ} : refs t f = 0 ↔ ∀ r, t r ≠ some f := by
  simp [refs, Finset.filter_eq_empty_iff]

theorem refs_pos {t : ι → Option φ} {r : ι} {f : φ} (h : t r = some f) : 0 < refs t f :=
  Nat.pos_of_ne_zero fun h0 => refs_eq_zero.mp h0 r h

theorem refs_eq_sum (t : ι → Option φ) (f : φ) :
    refs t f = ∑ r, if t r = some f then 1 else 0 := by
  rw [refs, Finset.card_filter]

/-- A target is counted at most as often as there are places in which the slots that point at it are
    found. -/
theorem refs_le_card {κ : Type*} {t : ι → Option φ} {f : φ} {S : Finset κ} {g : κ → ι}
    (h : ∀ r, t r = some f → ∃ k ∈ S, g k = r) : refs t f ≤ S.card := by
  classical
  have hsub : (Finset.univ.filter fun r => t r = some f) ⊆ S.image g := by
    intro r hr
    rw [Finset.mem_filter_univ] at hr
    exact Finset.mem_image.mpr (h r hr)
  calc refs t f = (Finset.univ.filter fun r => t r = some f).card := by rw [refs]
    _ ≤ (S.image g).card := Finset.card_le_card hsub
    _ ≤ S.card := Finset.card_image_le

/-- A target that one slot points at, and no other, is counted once. -/
theorem refs_eq_one {t : ι → Option φ} {r : ι} {f : φ} (hr : t r = some f)
    (hs : ∀ r', t r' = some f → r' = r) : refs t f = 1 := by
  have : (Finset.univ.filter fun x => t x = some f) = {r} := by
    ext x
    simp only [Finset.mem_filter, Finset.mem_univ, true_and, Finset.mem_singleton]
    exact ⟨hs x, fun h => h ▸ hr⟩
  rw [refs, this, Finset.card_singleton]

variable [DecidableEq ι]

/-- Writing `v` into slot `r` moves one reference from what `r` held to `v`. -/
theorem refs_update (t : ι → Option φ) (r : ι) (v : Option φ) (f : φ) :
    refs (Function.update t r v) f + (if t r = some f then 1 else 0)
      = refs t f + (if v = some f then 1 else 0) := by
  have hrest : ∑ x ∈ Finset.univ.erase r, (if Function.update t r v x = some f then 1 else 0)
      = ∑ x ∈ Finset.univ.erase r, (if t x = some f then 1 else 0) := by
    refine Finset.sum_congr rfl fun x hx => ?_
    rw [Function.update_of_ne (Finset.ne_of_mem_erase hx)]
  rw [refs_eq_sum, refs_eq_sum, ← Finset.add_sum_erase _ _ (Finset.mem_univ r),
    ← Finset.add_sum_erase Finset.univ (fun x => if t x = some f then 1 else 0)
      (Finset.mem_univ r), hrest, Function.update_self]
  omega

theorem refs_update_of_ne {t : ι → Option φ} {r : ι} {v : Option φ} {f : φ}
    (hr : t r ≠ some f) (hv : v ≠ some f) : refs (Function.update t r v) f = refs t f := by
  have := refs_update t r v f
  simpa [hr, hv] using this

theorem refs_assign {t : ι → Option φ} {r : ι} {f : φ} (hr : t r = none) :
    refs (Function.update t r (some f)) f = refs t f + 1 := by
  have := refs_update t r (some f) f
  simpa [hr] using this

theorem refs_clear {t : ι → Option φ} {r : ι} {f : φ} (hr : t r = some f) :
    refs (Function.update t r none) f + 1 = refs t f := by
  have := refs_update t r none f
  simpa [hr] using this

end Refs

/-- The counters `ref` are exact for the managed targets `M` of `t`, and `free` lists, once each,
    those that nothing points at and that are not `held` by the code that is running. -/
structure Counted {ι φ : Type*} [Fintype ι] [DecidableEq φ] {w : ℕ} (t : ι → Option φ)
    (ref : φ → BitVec w) (free : List φ) (held : Finset φ) (M : φ → Prop) : Prop where
  nodup : free.Nodup
  managed : ∀ f ∈ free, M f
  target : ∀ r f, t r = some f → M f
  inHand : ∀ f ∈ held, M f ∧ ∀ r, t r ≠ some f
  exact : ∀ f, M f → (ref f).toNat = refs t f
  free_iff : ∀ f, M f → (f ∈ free ↔ refs t f = 0 ∧ f ∉ held)

theorem toNat_one_of_lt {w : ℕ} (h : 1 < 2 ^ w) : (1 : BitVec w).toNat = 1 := by
  simp only [BitVec.ofNat_eq_ofNat, BitVec.toNat_ofNat]
  exact Nat.mod_eq_of_lt h

section Counted

variable {ι φ : Type*} [Fintype ι] [DecidableEq φ] {w : ℕ} {t : ι → Option φ}
  {ref : φ → BitVec w} {free : List φ} {held : Finset φ} {M : φ → Prop}

theorem Counted.not_target_of_free (h : Counted t ref free held M) {f : φ} (hf : f ∈ free) (r : ι) :
    t r ≠ some f :=
  refs_eq_zero.mp ((h.free_iff f (h.managed f hf)).mp hf).1 r

theorem Counted.not_free_of_target (h : Counted t ref free held M) {r : ι} {f : φ}
    (hr : t r = some f) : f ∉ free :=
  fun hf => h.not_target_of_free hf r hr

theorem Counted.ref_free (h : Counted t ref free held M) {f : φ} (hf : f ∈ free) : ref f = 0#w := by
  have h0 := ((h.free_iff f (h.managed f hf)).mp hf).1
  have hx := h.exact f (h.managed f hf)
  exact BitVec.eq_of_toNat_eq (by simp [hx, h0])

theorem Counted.ref_held (h : Counted t ref free held M) {f : φ} (hM : M f)
    (h0 : ∀ r, t r ≠ some f) : ref f = 0#w := by
  have hx := h.exact f hM
  exact BitVec.eq_of_toNat_eq (by simp [hx, refs_eq_zero.mpr h0])

/-- Taking the head of the free list puts it in hand. -/
theorem Counted.pop {f : φ} (h : Counted t ref (f :: free) held M) :
    Counted t ref free (insert f held) M where
  nodup := (List.nodup_cons.mp h.nodup).2
  managed g hg := h.managed g (List.mem_cons_of_mem f hg)
  target := h.target
  inHand g hg := by
    rcases Finset.mem_insert.mp hg with rfl | hg
    · exact ⟨h.managed g (List.mem_cons_self ..), h.not_target_of_free (List.mem_cons_self ..)⟩
    · exact h.inHand g hg
  exact := h.exact
  free_iff g hg := by
    have hf := (List.nodup_cons.mp h.nodup).1
    have := h.free_iff g hg
    simp only [List.mem_cons, Finset.mem_insert, not_or] at this ⊢
    constructor
    · intro hgl
      have hgf : g ≠ f := fun e => hf (e ▸ hgl)
      exact ⟨(this.mp (Or.inr hgl)).1, hgf, (this.mp (Or.inr hgl)).2⟩
    · rintro ⟨h0, hgf, hgh⟩
      exact (this.mpr ⟨h0, hgh⟩).resolve_left hgf

/-- Giving back a target that is in hand and that nothing points at. -/
theorem Counted.push {f : φ} (h : Counted t ref free held M) (hf : f ∈ held) :
    Counted t ref (f :: free) (held.erase f) M where
  nodup := List.nodup_cons.mpr ⟨fun hm => ((h.free_iff f (h.inHand f hf).1).mp hm).2 hf, h.nodup⟩
  managed g hg := by
    rcases List.mem_cons.mp hg with rfl | hg
    · exact (h.inHand g hf).1
    · exact h.managed g hg
  target := h.target
  inHand g hg := h.inHand g (Finset.mem_of_mem_erase hg)
  exact := h.exact
  free_iff g hg := by
    simp only [List.mem_cons, Finset.mem_erase, not_and]
    constructor
    · rintro (rfl | hgl)
      · exact ⟨refs_eq_zero.mpr (h.inHand g hf).2, fun hne => absurd rfl hne⟩
      · exact ⟨((h.free_iff g hg).mp hgl).1, fun _ => ((h.free_iff g hg).mp hgl).2⟩
    · rintro ⟨hg0, hgh⟩
      by_cases hgf : g = f
      · exact Or.inl hgf
      · exact Or.inr ((h.free_iff g hg).mpr ⟨hg0, hgh hgf⟩)

/-- A table with the same entries may replace `t`. -/
theorem Counted.congr {t' : ι → Option φ} {ref' : φ → BitVec w} (h : Counted t ref free held M)
    (ht : t' = t) (hr : ∀ f, M f → ref' f = ref f) : Counted t' ref' free held M := by
  subst ht
  exact ⟨h.nodup, h.managed, h.target, h.inHand, fun f hf => by rw [hr f hf]; exact h.exact f hf,
    h.free_iff⟩

/-- The order of the free list does not matter. -/
theorem Counted.perm {free' : List φ} (h : Counted t ref free held M) (hp : free'.Perm free) :
    Counted t ref free' held M :=
  ⟨hp.nodup_iff.mpr h.nodup, fun f hf => h.managed f (hp.mem_iff.mp hf), h.target, h.inHand,
    h.exact, fun f hf => by rw [hp.mem_iff]; exact h.free_iff f hf⟩

variable [DecidableEq ι]

/-- Pointing the empty slot `r` at `f`, which is not free: its counter goes up, and `f` is no
    longer in hand. The count must fit the counter. -/
theorem Counted.assign {r : ι} {f : φ} (h : Counted t ref free held M) (hr : t r = none)
    (hM : M f) (hf : f ∉ free) (hmax : refs t f + 1 < 2 ^ w) :
    Counted (Function.update t r (some f)) (Function.update ref f (ref f + 1)) free
      (held.erase f) M where
  nodup := h.nodup
  managed := h.managed
  target r' g hg := by
    by_cases hrr : r' = r
    · subst hrr; rw [Function.update_self] at hg; exact Option.some.inj hg ▸ hM
    · rw [Function.update_of_ne hrr] at hg; exact h.target r' g hg
  inHand g hg := by
    obtain ⟨hgf, hgh⟩ := Finset.mem_erase.mp hg
    refine ⟨(h.inHand g hgh).1, fun r' => ?_⟩
    by_cases hrr : r' = r
    · subst hrr; rw [Function.update_self]; simpa using Ne.symm hgf
    · rw [Function.update_of_ne hrr]; exact (h.inHand g hgh).2 r'
  exact g hg := by
    by_cases hgf : g = f
    · subst hgf
      have hx := h.exact g hg
      rw [Function.update_self, refs_assign hr, BitVec.toNat_add, hx]
      rw [toNat_one_of_lt (by omega), Nat.mod_eq_of_lt hmax]
    · rw [Function.update_of_ne hgf, refs_update_of_ne (by simp [hr]) (by simpa using Ne.symm hgf)]
      exact h.exact g hg
  free_iff g hg := by
    by_cases hgf : g = f
    · subst hgf
      rw [refs_assign hr]
      exact ⟨fun hm => absurd hm hf, fun hm => by omega⟩
    · rw [refs_update_of_ne (by simp [hr]) (by simpa using Ne.symm hgf), h.free_iff g hg,
        Finset.mem_erase, not_and]
      exact ⟨fun hm => ⟨hm.1, fun _ => hm.2⟩, fun hm => ⟨hm.1, hm.2 hgf⟩⟩

/-- Clearing the slot `r` that points at `g`: its counter goes down, and `g` joins the free list
    when that was the last reference. -/
theorem Counted.clear {r : ι} {g : φ} (h : Counted t ref free held M) (hr : t r = some g) :
    Counted (Function.update t r none) (Function.update ref g (ref g - 1))
      (if refs t g = 1 then g :: free else free) held M := by
  have hM := h.target r g hr
  have hpos := refs_pos hr
  have hgfree : g ∉ free := h.not_free_of_target hr
  have hcl := refs_clear hr
  have hg : g ∉ held := fun hh => (h.inHand g hh).2 r hr
  refine ⟨?_, ?_, ?_, ?_, ?_, ?_⟩
  · split
    · exact List.nodup_cons.mpr ⟨hgfree, h.nodup⟩
    · exact h.nodup
  · intro f hf
    split at hf
    · rcases List.mem_cons.mp hf with rfl | hf
      · exact hM
      · exact h.managed f hf
    · exact h.managed f hf
  · intro r' f hf
    by_cases hrr : r' = r
    · subst hrr; simp at hf
    · rw [Function.update_of_ne hrr] at hf; exact h.target r' f hf
  · intro f hf
    refine ⟨(h.inHand f hf).1, fun r' => ?_⟩
    by_cases hrr : r' = r
    · subst hrr; simp
    · rw [Function.update_of_ne hrr]; exact (h.inHand f hf).2 r'
  · intro f hf
    by_cases hfg : f = g
    · subst hfg
      have hx := h.exact f hf
      have hlt := (ref f).isLt
      rw [Function.update_self, BitVec.toNat_sub]
      rw [toNat_one_of_lt (by omega),
        show 2 ^ w - 1 + (ref f).toNat = refs (Function.update t r none) f + 2 ^ w by omega,
        Nat.add_mod_right, Nat.mod_eq_of_lt (by omega)]
    · rw [Function.update_of_ne hfg,
        refs_update_of_ne (by rw [hr]; simpa using Ne.symm hfg) (by simp)]
      exact h.exact f hf
  · intro f hf
    by_cases hfg : f = g
    · subst hfg
      split
      · simp only [List.mem_cons, true_or, true_iff]; exact ⟨by omega, hg⟩
      · exact ⟨fun hm => absurd hm hgfree, fun hm => by omega⟩
    · rw [refs_update_of_ne (by rw [hr]; simpa using Ne.symm hfg) (by simp), ← h.free_iff f hf]
      split
      · simp [hfg]
      · rfl

end Counted

section Sole

variable {ι φ : Type*}

/-- Each slot of `T` is the only slot that points at its target. -/
def Sole (T : ι → Prop) (t : ι → Option φ) : Prop :=
  ∀ r f, T r → t r = some f → ∀ r', t r' = some f → r' = r

variable [DecidableEq ι] {T : ι → Prop} {t : ι → Option φ}

theorem Sole.clear (h : Sole T t) (r : ι) : Sole T (Function.update t r none) := by
  intro a f ha hf b hb
  have ne : ∀ c, Function.update t r none c = some f → t c = some f := by
    intro c hc
    by_cases hcr : c = r
    · subst hcr; simp at hc
    · rwa [Function.update_of_ne hcr] at hc
  exact h a f ha (ne a hf) b (ne b hb)

/-- Pointing a slot at a target nothing points at keeps table slots sole. -/
theorem Sole.assign_fresh (h : Sole T t) {r : ι} {f : φ} (hf : ∀ r', t r' ≠ some f) :
    Sole T (Function.update t r (some f)) := by
  intro a g ha hg b hb
  by_cases har : a = r
  · subst har
    rw [Function.update_self] at hg
    obtain rfl := Option.some.inj hg
    by_contra hba
    rw [Function.update_of_ne hba] at hb
    exact hf b hb
  · rw [Function.update_of_ne har] at hg
    by_cases hbr : b = r
    · subst hbr
      rw [Function.update_self] at hb
      obtain rfl := Option.some.inj hb
      exact absurd hg (hf a)
    · rw [Function.update_of_ne hbr] at hb
      exact h a g ha hg b hb

/-- Pointing a slot outside `T` at a target no slot of `T` points at keeps table slots sole. -/
theorem Sole.assign (h : Sole T t) {r : ι} {f : φ} (hr : ¬ T r) (hf : ∀ r', T r' → t r' ≠ some f) :
    Sole T (Function.update t r (some f)) := by
  intro a g ha hg b hb
  have har : a ≠ r := fun e => hr (e ▸ ha)
  rw [Function.update_of_ne har] at hg
  by_cases hbr : b = r
  · subst hbr
    rw [Function.update_self] at hb
    obtain rfl := Option.some.inj hb
    exact absurd hg (hf a ha)
  · rw [Function.update_of_ne hbr] at hb
    exact h a g ha hg b hb

end Sole

end Jos.RefCount
