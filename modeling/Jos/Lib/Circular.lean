import Mathlib.Algebra.GroupWithZero.Nat
import Mathlib.Data.Fintype.BigOperators

/-!
  Circular search, and what it gives when each search starts behind the last find.

  While an element stays eligible, each find is closer to it than the one before, so nothing is
  found twice until the element itself is found. -/

namespace Jos.Lib

variable {n : ℕ}

/-- How far `e` is from position `start`, going up and around. -/
def ahead (start : ℕ) (e : Fin n) : ℕ :=
  if start ≤ e.val then e.val - start else n + e.val - start

/-- `z` is the first element with `p` from position `start` on. -/
def Nearest (p : Fin n → Prop) (start : ℕ) (z : Fin n) : Prop :=
  p z ∧ ∀ e, p e → ahead start z ≤ ahead start e

variable {p : Fin n → Prop} {y z e : Fin n} {start : ℕ}

theorem ofNat_ahead [NeZero n] (hs : start ≤ n) (e : Fin n) :
    ahead start e < n ∧ Fin.ofNat n (start + ahead start e) = e := by
  have he := e.isLt
  unfold ahead
  split
  · refine ⟨by omega, Fin.ext ?_⟩
    rw [Fin.val_ofNat, Nat.mod_eq_of_lt (by omega)]
    omega
  · refine ⟨by omega, Fin.ext ?_⟩
    rw [Fin.val_ofNat, Nat.mod_eq_sub_mod (by omega), Nat.mod_eq_of_lt (by omega)]
    omega

/-- A search through all positions finds the first element. -/
theorem nearest_of_find [NeZero n] {q : Fin n → Bool} (hq : ∀ e, q e = true ↔ p e)
    (hs : start ≤ n) (h : ((List.range n).map fun i => Fin.ofNat n (start + i)).find? q = some z) :
    Nearest p start z := by
  obtain ⟨hz, i, hi, hzi, hfirst⟩ := List.find?_eq_some_iff_getElem.mp h
  simp only [List.length_map, List.length_range] at hi
  have hpos : ∀ {k : ℕ}, k < n → ahead start (Fin.ofNat n (start + k)) = k := by
    intro k hk
    simp only [ahead, Fin.val_ofNat]
    by_cases hlt : start + k < n
    · rw [Nat.mod_eq_of_lt hlt, if_pos (by omega)]
      omega
    · rw [Nat.mod_eq_sub_mod (by omega), Nat.mod_eq_of_lt (by omega), if_neg (by omega)]
      omega
  refine ⟨(hq z).mp hz, fun e he => ?_⟩
  rw [List.getElem_map, List.getElem_range] at hzi
  rw [← hzi, hpos hi]
  by_contra hlt
  obtain ⟨hn, heq⟩ := ofNat_ahead hs e
  have hno := hfirst (ahead start e) (by omega)
  rw [List.getElem_map, List.getElem_range, heq] at hno
  rw [(hq e).mpr he] at hno
  exact absurd hno (by simp)

/-- It misses none. -/
theorem not_of_find_none [NeZero n] {q : Fin n → Bool} (hq : ∀ e, q e = true ↔ p e)
    (hs : start ≤ n) (h : ((List.range n).map fun i => Fin.ofNat n (start + i)).find? q = none)
    (e : Fin n) : ¬ p e := by
  obtain ⟨hn, heq⟩ := ofNat_ahead hs e
  have hmem : e ∈ (List.range n).map fun i => Fin.ofNat n (start + i) :=
    List.mem_map.mpr ⟨ahead start e, List.mem_range.mpr hn, heq⟩
  exact fun he => List.find?_eq_none.mp h e hmem ((hq e).mpr he)

/-- What is found behind `y` is closer to a waiting `e` than `y`. -/
theorem Nearest.closer (h : Nearest p (y.val + 1) z) (he : p e) (hy : y ≠ e) :
    ahead z.val e < ahead y.val e := by
  have hle := h.2 e he
  have hne : y.val ≠ e.val := fun hx => hy (Fin.ext hx)
  have h1 := y.isLt
  have h2 := z.isLt
  have h3 := e.isLt
  unfold ahead at hle ⊢
  split_ifs at hle ⊢ <;> omega

/-- A search from the start finds the same, if the elements are all on one side of `y`. -/
theorem Nearest.behind (h : Nearest p 0 z)
    (hside : (∀ e, p e → y < e) ∨ ∀ e, p e → e < y) : Nearest p (y.val + 1) z := by
  refine ⟨h.1, fun e he => ?_⟩
  have hle := h.2 e he
  have h2 := z.isLt
  have h3 := e.isLt
  unfold ahead at hle ⊢
  rcases hside with hs | hs
  · have hz := Fin.lt_def.mp (hs z h.1)
    have hx := Fin.lt_def.mp (hs e he)
    split_ifs at hle ⊢ <;> omega
  · have hz := Fin.lt_def.mp (hs z h.1)
    have hx := Fin.lt_def.mp (hs e he)
    split_ifs at hle ⊢ <;> omega

/-- What is found one after the other from `y` on, while `e` waits. -/
inductive Rounds (e : Fin n) : Fin n → List (Fin n) → Prop
  | nil (y : Fin n) : Rounds e y []
  | cons {p : Fin n → Prop} {y z : Fin n} {zs : List (Fin n)} : p e → y ≠ e →
      Nearest p (y.val + 1) z → Rounds e z zs → Rounds e y (z :: zs)

theorem Rounds.closer {zs : List (Fin n)} (h : Rounds e y zs) :
    ∀ z ∈ zs, ahead z.val e < ahead y.val e := by
  induction h with
  | nil y => exact fun z hz => (List.not_mem_nil hz).elim
  | cons he hy hz _ ih =>
    intro x hx
    have hlt := hz.closer he hy
    rcases List.mem_cons.mp hx with rfl | hx
    · exact hlt
    · exact (ih x hx).trans hlt

/-- Nothing is found twice. -/
theorem Rounds.nodup {zs : List (Fin n)} (h : Rounds e y zs) : (y :: zs).Nodup := by
  induction h with
  | nil y => exact List.nodup_singleton y
  | cons he hy hz hrest ih =>
    refine List.nodup_cons.mpr ⟨fun hmem => ?_, ih⟩
    exact absurd ((Rounds.cons he hy hz hrest).closer _ hmem) (lt_irrefl _)

end Jos.Lib
