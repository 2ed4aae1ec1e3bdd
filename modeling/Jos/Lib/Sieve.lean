import Mathlib.NumberTheory.Chebyshev

/-!
  What the first primes leave of the integers, and how large the primes are. -/

namespace Jos.Lib

/-- Each of the first `k` primes that divides another one is that one. -/
theorem nth_prime_dvd_nth_prime {j k : ℕ} : Nat.nth Nat.Prime j ∣ Nat.nth Nat.Prime k ↔ j = k := by
  rw [Nat.prime_dvd_prime_iff_eq (Nat.prime_nth_prime j) (Nat.prime_nth_prime k)]
  exact (Nat.nth_injective Nat.infinite_setOfPred_prime).eq_iff

/-- The first `k` primes leave nothing of `[lo, hi)`. -/
def Sifted (k lo hi : ℕ) : Prop := ∀ m, lo ≤ m → m < hi → ∃ j < k, Nat.nth Nat.Prime j ∣ m

section

variable {k k' lo mid hi i m : ℕ}

theorem Sifted.append (h : Sifted k lo mid) (h' : Sifted k mid hi) : Sifted k lo hi := by
  intro m hm hlt
  rcases lt_or_ge m mid with hmid | hmid
  · exact h m hm hmid
  · exact h' m hmid hlt

theorem Sifted.mono (h : Sifted k lo hi) (hk : k ≤ k') (hlo : lo ≤ mid) : Sifted k' mid hi := by
  intro m hm hlt
  obtain ⟨j, hj, hd⟩ := h m (hlo.trans hm) hlt
  exact ⟨j, hj.trans_le hk, hd⟩

theorem Sifted.single {j : ℕ} (hj : j < k) (hd : Nat.nth Nat.Prime j ∣ m) : Sifted k m (m + 1) := by
  intro m' hm hlt
  obtain rfl : m' = m := by omega
  exact ⟨j, hj, hd⟩

theorem Sifted.empty : Sifted k lo lo := fun _ hm hlt => absurd (hm.trans_lt hlt) (lt_irrefl _)

/-- Every number has a prime factor. -/
theorem exists_nth_prime_dvd (hi : 2 ≤ i) :
    ∃ j, Nat.nth Nat.Prime j ∣ i ∧ Nat.nth Nat.Prime j ≤ i := by
  obtain ⟨q, hq, hd⟩ := Nat.exists_prime_and_dvd (show i ≠ 1 by omega)
  obtain ⟨j, rfl⟩ : q ∈ Set.range (Nat.nth Nat.Prime) := by
    rw [Nat.range_nth_of_infinite Nat.infinite_setOfPred_prime]
    exact hq
  exact ⟨j, hd, Nat.le_of_dvd (by omega) hd⟩

theorem sifted_nth_prime : Sifted k 2 (Nat.nth Nat.Prime k) := by
  intro m hm hlt
  obtain ⟨j, hd, hle⟩ := exists_nth_prime_dvd hm
  exact ⟨j, (Nat.nth_lt_nth Nat.infinite_setOfPred_prime).mp (hle.trans_lt hlt), hd⟩

/-- The first number that is left is the next prime. -/
theorem Sifted.eq_nth_prime (h : Sifted k 2 i) (hi : 2 ≤ i)
    (hno : ∀ j < k, ¬ Nat.nth Nat.Prime j ∣ i) : i = Nat.nth Nat.Prime k := by
  obtain ⟨j, hd, hle⟩ := exists_nth_prime_dvd hi
  have hkj : k ≤ j := not_lt.mp fun hj => hno j hj hd
  have hle' : Nat.nth Nat.Prime k ≤ i :=
    ((Nat.nth_le_nth Nat.infinite_setOfPred_prime).mpr hkj).trans hle
  by_contra hne
  obtain ⟨j', hj', hd'⟩ := h (Nat.nth Nat.Prime k) (Nat.prime_nth_prime k).two_le (by omega)
  exact absurd (nth_prime_dvd_nth_prime.mp hd') hj'.ne

/-- No later prime is among what nothing is left of. -/
theorem Sifted.le_nth_prime (h : Sifted k lo hi) (hk : k ≤ m) (hlo : lo ≤ Nat.nth Nat.Prime m) :
    hi ≤ Nat.nth Nat.Prime m := by
  by_contra hlt
  obtain ⟨j, hj, hd⟩ := h (Nat.nth Nat.Prime m) hlo (not_le.mp hlt)
  exact absurd (nth_prime_dvd_nth_prime.mp hd) (hj.trans_le hk).ne

/-- There are many primes below a power of two. -/
theorem nth_prime_le_two_pow (h : k * m + m + 1 < 2 ^ m) : Nat.nth Nat.Prime k ≤ 2 ^ m := by
  by_contra hlt
  have hm : 0 < m := by
    rcases Nat.eq_zero_or_pos m with rfl | hm
    · simp at h
    · exact hm
  have hcount : Nat.primeCounting (2 ^ m) ≤ k := Nat.le_nth_of_count_le (by omega)
  have hlog : 0 < Real.log 2 := Real.log_pos (by norm_num)
  have hpi := Chebyshev.pi_ge (2 ^ m)
  have hsucc : Real.log ((2 ^ m : ℕ) + 1) ≤ (m + 1) * Real.log 2 := by
    rw [← Real.log_rpow (by norm_num)]
    refine Real.log_le_log (by positivity) ?_
    have hle : (2 : ℕ) ^ m + 1 ≤ 2 ^ (m + 1) := by
      have := Nat.one_le_two_pow (n := m)
      omega
    exact_mod_cast hle
  have hcast : Real.log ((2 ^ m : ℕ) : ℝ) = m * Real.log 2 := by
    push_cast
    exact Real.log_pow 2 m
  rw [hcast, div_le_iff₀ (by positivity)] at hpi
  have hk : (Nat.primeCounting (2 ^ m) : ℝ) ≤ k := by exact_mod_cast hcount
  have hreal : ((2 ^ m : ℕ) : ℝ) * Real.log 2 ≤ (k * m + m + 1) * Real.log 2 := by
    have := mul_le_mul_of_nonneg_right hk (show 0 ≤ m * Real.log 2 by positivity)
    linarith
  have hle := le_of_mul_le_mul_right hreal hlog
  have : 2 ^ m ≤ k * m + m + 1 := by exact_mod_cast hle
  omega

end

end Jos.Lib
