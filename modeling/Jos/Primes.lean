import Jos.IpcRun
import Jos.Lib.Sieve

/-!
  The concurrent prime sieve (`user/primes.c`).

  The generator feeds the integers into a chain of processes. Each of them has a prime, which it took
  from the left, and passes on what the prime does not divide; the last one still waits for its
  prime. -/

namespace Jos

open Lib Rendezvous

namespace Ipc

/-- Where a process of `user/primes.c` is. -/
inductive Pc where
  -- `umain`: before its `fork`, and in the loop that feeds `i` to `id`
  | start
  | feed (id i : Word)
  -- `primeproc`: before each call, and with the `i` that is to be sent
  | top
  | printing (p : Word)
  | split (p : Word)
  | filter (p id : Word)
  | pass (p id i : Word)

/-- `user/primes.c`; of a line of output, the prime. -/
def primes : Text Word Pc
  | .start => .fork (fun id => .feed id 2) .top
  | .feed id i => .send id i (.feed id (i + 1))
  | .top => .recv fun p _ => .printing p
  | .printing p => .print p (.split p)
  | .split p => .fork (fun id => .filter p id) .top
  | .filter p id => .recv fun i _ => if i.srem p ≠ 0 then .pass p id i else .filter p id
  | .pass p id i => .send id i (.filter p id)

/-- The chain `xs`, whose head has the prime of number `k` or waits for it. Of the numbers below `out`
    the head took those that none of the first `k` primes divides. The first `n` primes were
    printed. -/
inductive Stages (M : Procs Word Pc) : ℕ → ℕ → List Word → ℕ → Prop
  | top {k out : ℕ} {x : Word} : M x = some .top → Sifted k 2 out → Stages M k out [x] k
  | printing {k out : ℕ} {x p : Word} : M x = some (.printing p) → p.toNat = Nat.nth Nat.Prime k →
      Sifted k (p.toNat + 1) out → Stages M k out [x] k
  | split {k out : ℕ} {x p : Word} : M x = some (.split p) → p.toNat = Nat.nth Nat.Prime k →
      Sifted k (p.toNat + 1) out → Stages M k out [x] (k + 1)
  | filter {k out n : ℕ} {x y p : Word} {ys : List Word} : M x = some (.filter p y) →
      p.toNat = Nat.nth Nat.Prime k → Stages M (k + 1) out (y :: ys) n →
      Stages M k out (x :: y :: ys) n
  | pass {k out n : ℕ} {x y p i : Word} {ys : List Word} : M x = some (.pass p y i) →
      p.toNat = Nat.nth Nat.Prime k → 2 ≤ i.toNat → i.toNat < out →
      (∀ j < k + 1, ¬ Nat.nth Nat.Prime j ∣ i.toNat) → Sifted k (i.toNat + 1) out →
      Stages M (k + 1) i.toNat (y :: ys) n → Stages M k out (x :: y :: ys) n

/-- The system, with the first `n` primes printed. -/
inductive Sieving (M : Procs Word Pc) : ℕ → Prop
  | start {g : Word} : (∀ w, M w ≠ none → w = g) → M g = some .start → Sieving M 0
  | feed {g i x : Word} {xs : List Word} {n : ℕ} : M g = some (.feed x i) → 2 ≤ i.toNat →
      (g :: x :: xs).Nodup → (∀ w, M w ≠ none → w ∈ g :: x :: xs) →
      Stages M 0 i.toNat (x :: xs) n → Sieving M n

section

variable {M : Procs Word Pc} {k out out' n : ℕ} {xs : List Word} {i j w x : Word}

theorem Stages.congr {M' : Procs Word Pc} (h : Stages M k out xs n) (hM : ∀ x ∈ xs, M' x = M x) :
    Stages M' k out xs n := by
  induction h with
  | top hx hs => exact .top ((hM _ (by simp)).trans hx) hs
  | printing hx hp hs => exact .printing ((hM _ (by simp)).trans hx) hp hs
  | split hx hp hs => exact .split ((hM _ (by simp)).trans hx) hp hs
  | filter hx hp _ ih =>
    exact .filter ((hM _ (by simp)).trans hx) hp (ih fun z hz => hM z (List.mem_cons_of_mem _ hz))
  | pass hx hp h2 hlt hno hs _ ih =>
    exact .pass ((hM _ (by simp)).trans hx) hp h2 hlt hno hs
      (ih fun z hz => hM z (List.mem_cons_of_mem _ hz))

theorem Stages.set (h : Stages M k out xs n) (hi : i ∉ xs) (o : Option Pc) :
    Stages (M.set i o) k out xs n :=
  h.congr fun _ hx => Procs.set_of_ne _ (ne_of_mem_of_not_mem hx hi) _

/-- Numbers that do not come through do not matter. -/
theorem Stages.raise (h : Stages M k out xs n) (hs : Sifted k out out') (hle : out ≤ out') :
    Stages M k out' xs n := by
  induction h generalizing out' with
  | top hx hsx => exact .top hx (hsx.append hs)
  | printing hx hp hsx => exact .printing hx hp (hsx.append hs)
  | split hx hp hsx => exact .split hx hp (hsx.append hs)
  | filter hx hp _ ih => exact .filter hx hp (ih (hs.mono (Nat.le_succ _) le_rfl) hle)
  | pass hx hp h2 hlt hno hsx ht _ =>
    exact .pass hx hp h2 (hlt.trans_le hle) hno (hsx.append hs) ht

theorem Stages.live (h : Stages M k out xs n) : ∀ x ∈ xs, M x ≠ none := by
  induction h with
  | top hx => simp [hx]
  | printing hx => simp [hx]
  | split hx => simp [hx]
  | filter hx _ _ ih => exact List.forall_mem_cons.mpr ⟨by simp [hx], ih⟩
  | pass hx _ _ _ _ _ _ ih => exact List.forall_mem_cons.mpr ⟨by simp [hx], ih⟩

theorem Stages.printed (h : Stages M k out xs n) : n ≤ k + xs.length := by
  induction h with
  | top => simp
  | printing => simp
  | split => simp
  | filter _ _ _ ih => simp only [List.length_cons] at ih ⊢; omega
  | pass _ _ _ _ _ _ _ ih => simp only [List.length_cons] at ih ⊢; omega

/-- The primes that were fed are in the chain. -/
theorem Stages.bound (h : Stages M k out xs n) : out ≤ Nat.nth Nat.Prime (k + 2 * xs.length) := by
  have hmono : ∀ {a b}, a ≤ b → Nat.nth Nat.Prime a ≤ Nat.nth Nat.Prime b := fun hab =>
    (Nat.nth_le_nth Nat.infinite_setOfPred_prime).mpr hab
  have hlast : ∀ {k out p : ℕ} {y : Word}, p = Nat.nth Nat.Prime k → Sifted k (p + 1) out →
      out ≤ Nat.nth Nat.Prime (k + 2 * [y].length) := by
    rintro k out p y rfl hs
    refine (hs.le_nth_prime (m := k + 1) (by omega) ?_).trans (hmono (by simp))
    exact (Nat.nth_lt_nth Nat.infinite_setOfPred_prime).mpr (Nat.lt_succ_self k)
  induction h with
  | top hx hs =>
    exact (hs.le_nth_prime le_rfl (Nat.prime_nth_prime _).two_le).trans (hmono (by simp))
  | printing hx hp hs => exact hlast hp hs
  | split hx hp hs => exact hlast hp hs
  | filter _ _ _ ih => exact ih.trans (hmono (by simp only [List.length_cons]; omega))
  | @pass k _ _ _ y _ _ ys _ _ _ _ _ hs _ ih =>
    refine (hs.le_nth_prime (m := k + 1 + 2 * (y :: ys).length + 1) (by omega) ?_).trans
      (hmono (by simp only [List.length_cons]; omega))
    exact ih.trans_lt ((Nat.nth_lt_nth Nat.infinite_setOfPred_prime).mpr (Nat.lt_succ_self _))

/-- For numbers in the range of `int`, `%` tells divisibility. -/
theorem srem_eq_zero {p : Word} (hi : i.toNat < 2 ^ 31) (hp : p.toNat < 2 ^ 31) :
    i.srem p = 0 ↔ p.toNat ∣ i.toNat := by
  have hmsb : ∀ {v : Word}, v.toNat < 2 ^ 31 → v.msb = false := fun hv =>
    BitVec.msb_eq_false_iff_two_mul_lt.mpr (by omega)
  rw [BitVec.srem_eq, hmsb hi, hmsb hp]
  simp only
  rw [← BitVec.toNat_inj, BitVec.toNat_umod, Nat.dvd_iff_mod_eq_zero]
  rfl

/-! ### Steps of the chain -/

variable {p p' q child : Pc} {v : Word} {next : Word → Word → Pc} {parent : Word → Pc}

/-- The head of the chain receives a number. -/
theorem Stages.deliver {y : Word} {ys : List Word} (h : Stages M k i.toNat (y :: ys) n)
    (h2 : 2 ≤ i.toNat) (hno : ∀ j < k, ¬ Nat.nth Nat.Prime j ∣ i.toNat) (hlt : i.toNat < out)
    (hs : Sifted k (i.toNat + 1) out) (hsmall : i.toNat < 2 ^ 31) (hq : M y = some q)
    (hr : primes q = .recv next) (hy : y ∉ ys) (src : Word) :
    Stages (M.set y (some (next i src))) k out (y :: ys) n := by
  cases h with
  | top hx hsx =>
    obtain rfl := Option.some.inj (hx.symm.trans hq)
    cases hr
    exact .printing (Procs.set_self ..) (hsx.eq_nth_prime h2 hno) hs
  | printing hx =>
    obtain rfl := Option.some.inj (hx.symm.trans hq)
    cases hr
  | split hx =>
    obtain rfl := Option.some.inj (hx.symm.trans hq)
    cases hr
  | @filter _ _ _ _ z p zs hx hp ht =>
    obtain rfl := Option.some.inj (hx.symm.trans hq)
    cases hr
    have hpsmall : p.toNat < 2 ^ 31 := by
      obtain ⟨j, hd, hle⟩ := exists_nth_prime_dvd h2
      have hkj : k ≤ j := not_lt.mp fun hj => hno j hj hd
      rw [hp]
      exact (((Nat.nth_le_nth Nat.infinite_setOfPred_prime).mpr hkj).trans hle).trans_lt hsmall
    by_cases hd : Nat.nth Nat.Prime k ∣ i.toNat
    · -- a multiple of the prime
      have hz : ¬ i.srem p ≠ 0 := not_not.mpr ((srem_eq_zero hsmall hpsmall).mpr (hp ▸ hd))
      simp only [if_neg hz]
      refine .filter (Procs.set_self ..) hp ((ht.set hy _).raise ?_ hlt.le)
      exact (Sifted.single (Nat.lt_succ_self k) hd).append (hs.mono (Nat.le_succ k) le_rfl)
    · have hz : i.srem p ≠ 0 := fun hz => hd (hp ▸ (srem_eq_zero hsmall hpsmall).mp hz)
      simp only [if_pos hz]
      refine .pass (Procs.set_self ..) hp h2 hlt (fun j hj => ?_) hs (ht.set hy _)
      rcases Nat.lt_succ_iff_lt_or_eq.mp hj with hj | rfl
      · exact hno j hj
      · exact hd
  | pass hx =>
    obtain rfl := Option.some.inj (hx.symm.trans hq)
    cases hr

/-- A process of the chain, with what is right of it. What is left of it stays as it is. -/
theorem Stages.focus (h : Stages M k out xs n) (hi : i ∈ xs) : ∃ as bs k' out',
    xs = as ++ i :: bs ∧ out' ≤ out ∧ Stages M k' out' (i :: bs) n ∧
    ∀ M' bs' n', (∀ a ∈ as, M' a = M a) → Stages M' k' out' (i :: bs') n' →
      Stages M' k out (as ++ i :: bs') n' := by
  have hhead : ∀ {y : Word} {ys as bs : List Word}, y :: ys = as ++ i :: bs →
      ∀ bs', ∃ zs, as ++ i :: bs' = y :: zs := by
    intro y ys as bs heq bs'
    cases as with
    | nil =>
      obtain rfl := (List.cons.inj heq).1
      exact ⟨bs', rfl⟩
    | cons a as =>
      obtain rfl := (List.cons.inj heq).1
      exact ⟨as ++ i :: bs', rfl⟩
  have hself : ∀ {k out n xs}, Stages M k out (i :: xs) n → ∃ as bs k' out',
      i :: xs = as ++ i :: bs ∧ out' ≤ out ∧ Stages M k' out' (i :: bs) n ∧
      ∀ M' bs' n', (∀ a ∈ as, M' a = M a) → Stages M' k' out' (i :: bs') n' →
        Stages M' k out (as ++ i :: bs') n' :=
    fun hs => ⟨[], _, _, _, rfl, le_rfl, hs, fun _ _ _ _ h' => h'⟩
  induction h with
  | top hx hs =>
    obtain rfl := List.mem_singleton.mp hi
    exact hself (.top hx hs)
  | printing hx hp hs =>
    obtain rfl := List.mem_singleton.mp hi
    exact hself (.printing hx hp hs)
  | split hx hp hs =>
    obtain rfl := List.mem_singleton.mp hi
    exact hself (.split hx hp hs)
  | @filter _ _ _ x y p ys hx hp ht ih =>
    rcases List.mem_cons.mp hi with rfl | hi
    · exact hself (.filter hx hp ht)
    · obtain ⟨as, bs, k', out', heq, hle, hs, hrest⟩ := ih hi
      refine ⟨x :: as, bs, k', out', by rw [heq]; rfl, hle, hs, fun M' bs' n' hM hs' => ?_⟩
      have hnew := hrest M' bs' n' (fun a ha => hM a (List.mem_cons_of_mem _ ha)) hs'
      obtain ⟨zs, hzs⟩ := hhead heq bs'
      rw [hzs] at hnew
      rw [List.cons_append, hzs]
      exact .filter ((hM x (List.mem_cons_self ..)).trans hx) hp hnew
  | @pass _ _ _ x y p v ys hx hp h2 hlt hno hsx ht ih =>
    rcases List.mem_cons.mp hi with rfl | hi
    · exact hself (.pass hx hp h2 hlt hno hsx ht)
    · obtain ⟨as, bs, k', out', heq, hle, hs, hrest⟩ := ih hi
      refine ⟨x :: as, bs, k', out', by rw [heq]; rfl, hle.trans hlt.le, hs,
        fun M' bs' n' hM hs' => ?_⟩
      have hnew := hrest M' bs' n' (fun a ha => hM a (List.mem_cons_of_mem _ ha)) hs'
      obtain ⟨zs, hzs⟩ := hhead heq bs'
      rw [hzs] at hnew
      rw [List.cons_append, hzs]
      exact .pass ((hM x (List.mem_cons_self ..)).trans hx) hp h2 hlt hno hsx hnew

/-- A number goes one process to the right. -/
theorem Stages.passes (h : Stages M k out xs n) (hnd : xs.Nodup) (hout : out < 2 ^ 31) (hi : i ∈ xs)
    (hp : M i = some p) (ht : primes p = .send j v p') (hq : M j = some q)
    (hr : primes q = .recv next) : j ∈ xs ∧
      Stages ((M.set i (some p')).set j (some (next v i))) k out xs n := by
  obtain ⟨as, bs, k', out', rfl, hle, hs, hrest⟩ := h.focus hi
  obtain ⟨-, hnd', hdis⟩ := List.nodup_append.mp hnd
  obtain ⟨hib, hndb⟩ := List.nodup_cons.mp hnd'
  cases hs with
  | top hx =>
    obtain rfl := Option.some.inj (hx.symm.trans hp)
    cases ht
  | printing hx =>
    obtain rfl := Option.some.inj (hx.symm.trans hp)
    cases ht
  | split hx =>
    obtain rfl := Option.some.inj (hx.symm.trans hp)
    cases ht
  | filter hx =>
    obtain rfl := Option.some.inj (hx.symm.trans hp)
    cases ht
  | @pass _ _ _ _ y _ _ ys hx hpk h2 hlt hno hsx htail =>
    obtain rfl := Option.some.inj (hx.symm.trans hp)
    cases ht
    have hji : j ≠ i := ne_of_mem_of_not_mem (List.mem_cons_self ..) hib
    refine ⟨by simp, hrest _ _ _ (fun a ha => ?_) (.filter ?_ hpk ?_)⟩
    · rw [Procs.set_of_ne _ (hdis a ha j (by simp)), Procs.set_of_ne _ (hdis a ha i (by simp))]
    · rw [Procs.set_of_ne _ hji.symm, Procs.set_self]
    · exact (htail.set hib _).deliver h2 hno hlt (hsx.mono (Nat.le_succ _) le_rfl)
        ((hlt.trans_le hle).trans hout) ((Procs.set_of_ne _ hji _).trans hq) hr
        (List.nodup_cons.mp hndb).1 i

/-- The last process forks its right neighbour. -/
theorem Stages.born (h : Stages M k out xs n) (hnd : xs.Nodup) (hi : i ∈ xs) (hp : M i = some p)
    (ht : primes p = .fork parent child) (hj : M j = none) :
    Stages ((M.set i (some (parent j))).set j (some child)) k out (xs ++ [j]) n := by
  have hlive := h.live
  obtain ⟨as, bs, k', out', rfl, -, hs, hrest⟩ := h.focus hi
  obtain ⟨-, -, hdis⟩ := List.nodup_append.mp hnd
  have hne : ∀ y ∈ as ++ i :: bs, y ≠ j := fun y hy he => hlive y hy (he ▸ hj)
  cases hs with
  | top hx =>
    obtain rfl := Option.some.inj (hx.symm.trans hp)
    cases ht
  | printing hx =>
    obtain rfl := Option.some.inj (hx.symm.trans hp)
    cases ht
  | filter hx =>
    obtain rfl := Option.some.inj (hx.symm.trans hp)
    cases ht
  | pass hx =>
    obtain rfl := Option.some.inj (hx.symm.trans hp)
    cases ht
  | split hx hpk hsx =>
    obtain rfl := Option.some.inj (hx.symm.trans hp)
    cases ht
    rw [List.append_assoc]
    refine hrest _ [j] _ (fun a ha => ?_) (.filter ?_ hpk (.top (Procs.set_self ..) ?_))
    · rw [Procs.set_of_ne _ (hne a (List.mem_append_left _ ha)),
        Procs.set_of_ne _ (hdis a ha i (by simp))]
    · rw [Procs.set_of_ne _ (hne i (by simp)), Procs.set_self]
    · have hprime : Sifted (k' + 1) (Nat.nth Nat.Prime k') (Nat.nth Nat.Prime k' + 1) :=
        .single (Nat.lt_succ_self k') dvd_rfl
      rw [hpk] at hsx
      exact ((sifted_nth_prime.mono (Nat.le_succ k') le_rfl).append hprime).append
        (hsx.mono (Nat.le_succ k') le_rfl)

/-- The last process prints the next prime. -/
theorem Stages.prints (h : Stages M k out xs n) (hnd : xs.Nodup) (hi : i ∈ xs) (hp : M i = some p)
    (ht : primes p = .print w p') :
    Stages (M.set i (some p')) k out xs (n + 1) ∧ w.toNat = Nat.nth Nat.Prime n := by
  obtain ⟨as, bs, k', out', rfl, -, hs, hrest⟩ := h.focus hi
  obtain ⟨-, -, hdis⟩ := List.nodup_append.mp hnd
  cases hs with
  | top hx =>
    obtain rfl := Option.some.inj (hx.symm.trans hp)
    cases ht
  | split hx =>
    obtain rfl := Option.some.inj (hx.symm.trans hp)
    cases ht
  | filter hx =>
    obtain rfl := Option.some.inj (hx.symm.trans hp)
    cases ht
  | pass hx =>
    obtain rfl := Option.some.inj (hx.symm.trans hp)
    cases ht
  | printing hx hpk hsx =>
    obtain rfl := Option.some.inj (hx.symm.trans hp)
    cases ht
    refine ⟨hrest _ [] _ (fun a ha => ?_) (.split (Procs.set_self ..) hpk hsx), hpk⟩
    exact Procs.set_of_ne _ (hdis a ha i (by simp)) _

theorem primes_ne_exit : primes p ≠ .exit := by
  cases p <;> simp [primes]

/-! ### The system -/

/-- Environments run out before the numbers leave the range of `int`. -/
theorem Stages.small {g : Word} (h : Stages M 0 out xs n) (hnd : (g :: xs).Nodup)
    (hg : M g ≠ none) (hslots : Slots M) : xs.length ≤ 1023 ∧ out < 2 ^ 30 := by
  have hlive : ∀ w ∈ g :: xs, M w ≠ none := List.forall_mem_cons.mpr ⟨hg, h.live⟩
  have hmap : ((g :: xs).map envx).Nodup :=
    hnd.map_on fun w hw w' hw' hx => hslots w w' (hlive w hw) (hlive w' hw') hx
  have hlen := hmap.length_le_card
  rw [List.length_map, List.length_cons, Fintype.card_fin] at hlen
  have hlen' : xs.length ≤ 1023 := Nat.le_of_succ_le_succ hlen
  refine ⟨hlen', ?_⟩
  have hprime : Nat.nth Nat.Prime 2046 ≤ 2 ^ 20 := nth_prime_le_two_pow (by norm_num)
  have hmono : Nat.nth Nat.Prime (0 + 2 * xs.length) ≤ Nat.nth Nat.Prime 2046 :=
    (Nat.nth_le_nth Nat.infinite_setOfPred_prime).mpr (by omega)
  have hbound := h.bound
  omega

/-- What the first `n` primes look like on the screen. -/
theorem Sieving.step {M' : Procs Word Pc} {l : Rendezvous.Label Word Word Word} (h : Sieving M n)
    (hslots : Slots M) (hst : Rendezvous.Step primes M l M') : ∃ n', Sieving M' n' ∧
      (List.range n).map (Nat.nth Nat.Prime) ++ l.out.map (fun x => x.2.toNat) =
        (List.range n').map (Nat.nth Nat.Prime) := by
  cases h with
  | @start g honly hg =>
    have hstart : ∀ {i p}, M i = some p → i = g ∧ p = .start := by
      intro i p hp
      obtain rfl := honly i (by simp [hp])
      exact ⟨rfl, Option.some.inj (hp.symm.trans hg)⟩
    cases hst with
    | pass hp ht =>
      obtain ⟨-, rfl⟩ := hstart hp
      cases ht
    | print hp ht =>
      obtain ⟨-, rfl⟩ := hstart hp
      cases ht
    | gone hp ht => exact absurd ht primes_ne_exit
    | @born i j p child parent hp ht hj =>
      obtain ⟨rfl, rfl⟩ := hstart hp
      cases ht
      have hij : i ≠ j := by
        rintro rfl
        rw [hg] at hj
        cases hj
      have hnd : [i, j].Nodup := by simpa using hij
      refine ⟨0, .feed (i := 2) ?_ (by decide) hnd (fun w hw => ?_)
        (.top (Procs.set_self ..) .empty), rfl⟩
      · rw [Procs.set_of_ne _ hij, Procs.set_self]
      · rcases eq_or_ne w j with rfl | hwj
        · simp
        rcases eq_or_ne w i with rfl | hwi
        · simp
        rw [Procs.set_of_ne _ hwj, Procs.set_of_ne _ hwi] at hw
        exact absurd (honly w hw) hwi
  | @feed g i x xs n hg h2 hnd honly hs =>
    obtain ⟨hgx, hnd'⟩ := List.nodup_cons.mp hnd
    obtain ⟨-, hsmall⟩ := hs.small hnd (by simp [hg]) hslots
    have hactor : ∀ {y p}, M y = some p → y = g ∧ p = .feed x i ∨ y ∈ x :: xs := by
      intro y p hp
      rcases List.mem_cons.mp (honly y (by simp [hp])) with rfl | hy
      · exact Or.inl ⟨rfl, Option.some.inj (hp.symm.trans hg)⟩
      · exact Or.inr hy
    have hmem : ∀ {y o}, y ∈ g :: x :: xs → ∀ w, M.set y o w ≠ none → w ∈ g :: x :: xs := by
      intro y o hy w hw
      rcases Procs.eq_or_of_set hw with rfl | hw
      · exact hy
      · exact honly w hw
    have hmem2 : ∀ {y o z o'}, y ∈ g :: x :: xs → ∀ w, (M.set y o).set z o' w ≠ none →
        w = z ∨ w ∈ g :: x :: xs := by
      intro y o z o' hy w hw
      exact (Procs.eq_or_of_set hw).imp_right (hmem hy w)
    cases hst with
    | gone hp ht => exact absurd ht primes_ne_exit
    | @pass y z p p' q v next hp ht hq hr =>
      rcases hactor hp with ⟨rfl, rfl⟩ | hy
      · -- the generator
        cases ht
        obtain ⟨hxxs, -⟩ := List.nodup_cons.mp hnd'
        have hxy : x ≠ y := ne_of_mem_of_not_mem (List.mem_cons_self ..) hgx
        have hi1 : (i + 1).toNat = i.toNat + 1 := by
          rw [BitVec.toNat_add, show (1 : Word).toNat = 1 from rfl]
          omega
        have hs' : Stages _ 0 (i + 1).toNat (x :: xs) n := (hs.set hgx _).deliver h2 (by simp)
          (by omega) (hi1 ▸ .empty) (hsmall.trans (by norm_num))
          ((Procs.set_of_ne _ hxy (some (.feed x (i + 1)))).trans hq) hr hxxs y
        refine ⟨n, .feed ?_ (by omega) hnd (fun w hw => ?_) hs', by simp [Rendezvous.Label.out]⟩
        · rw [Procs.set_of_ne _ hxy.symm, Procs.set_self]
        · rcases hmem2 (List.mem_cons_self ..) w hw with rfl | hw
          · simp
          · exact hw
      · obtain ⟨hz, hs'⟩ := hs.passes hnd' (hsmall.trans (by norm_num)) hy hp ht hq hr
        refine ⟨n, .feed ?_ h2 hnd (fun w hw => ?_) hs', by simp [Rendezvous.Label.out]⟩
        · rw [Procs.set_of_ne _ (ne_of_mem_of_not_mem hz hgx).symm,
            Procs.set_of_ne _ (ne_of_mem_of_not_mem hy hgx).symm, hg]
        · rcases hmem2 (List.mem_cons_of_mem _ hy) w hw with rfl | hw
          · exact List.mem_cons_of_mem _ hz
          · exact hw
    | @born y z p child parent hp ht hz =>
      rcases hactor hp with ⟨rfl, rfl⟩ | hy
      · cases ht
      · have hfresh : z ∉ g :: x :: xs := by
          intro hmz
          rcases List.mem_cons.mp hmz with rfl | hmz
          · rw [hg] at hz
            cases hz
          · exact hs.live z hmz hz
        have hs' : Stages _ 0 i.toNat (x :: (xs ++ [z])) n := hs.born hnd' hy hp ht hz
        refine ⟨n, .feed (g := g) ?_ h2 ?_ (fun w hw => ?_) hs', by simp [Rendezvous.Label.out]⟩
        · rw [Procs.set_of_ne _ (ne_of_mem_of_not_mem (List.mem_cons_self ..) hfresh),
            Procs.set_of_ne _ (ne_of_mem_of_not_mem hy hgx).symm, hg]
        · exact List.nodup_append_comm.mp (show ([z] ++ g :: x :: xs).Nodup from
            List.nodup_cons.mpr ⟨hfresh, hnd⟩)
        · rw [← List.cons_append, ← List.cons_append, List.mem_append, List.mem_singleton]
          exact (hmem2 (List.mem_cons_of_mem _ hy) w hw).symm
    | @print y p p' w hp ht =>
      rcases hactor hp with ⟨rfl, rfl⟩ | hy
      · cases ht
      · obtain ⟨hs', hw⟩ := hs.prints hnd' hy hp ht
        refine ⟨n + 1, .feed ?_ h2 hnd
          (hmem (List.mem_cons_of_mem _ hy)) hs', ?_⟩
        · rw [Procs.set_of_ne _ (ne_of_mem_of_not_mem hy hgx).symm, hg]
        · rw [List.range_succ, List.map_append, List.map_singleton, ← hw]
          rfl

theorem Sieving.run {T : Procs Word Pc} {ls : List (Rendezvous.Label Word Word Word)}
    (h : Sieving M n)
    (hr : Run (restrict (fun M _ => Slots M) (Rendezvous.Step primes)) M ls T) : ∃ n', Sieving T n' ∧
      (List.range n).map (Nat.nth Nat.Prime) ++
        (ls.flatMap Rendezvous.Label.out).map (fun x => x.2.toNat) =
      (List.range n').map (Nat.nth Nat.Prime) := by
  induction hr generalizing n with
  | nil => exact ⟨n, h, by simp⟩
  | cons hst _ ih =>
    obtain ⟨m, hm, hout⟩ := h.step hst.1 hst.2
    obtain ⟨n', hn', hrest⟩ := ih hm
    refine ⟨n', hn', ?_⟩
    rw [List.flatMap_cons, List.map_append, ← List.append_assoc, hout, hrest]

/-- The only program that boot loaded is at its start. -/
theorem sieving_boot {p : BootParams} (hone : p.images.length = 1) :
    Sieving (bootProcs (fun _ => Pc.start) p) 0 := by
  refine .start (g := 4096) (fun w hw => ?_) ?_
  · unfold bootProcs at hw
    split at hw
    · rename_i hc
      obtain ⟨hlt, hw⟩ := hc
      have h0 : (envx w).val = 0 := by omega
      rw [hw, h0]
      rfl
    · exact absurd rfl hw
  · unfold bootProcs
    rw [if_pos ⟨by rw [hone]; decide, by decide⟩]

end

/-- In every run of the kernel with the sieve as its only program, the numbers printed are the first
    primes in their order, at most 1023 of them: without `user/idle` the generator is the only
    environment that does not print one. -/
theorem primes_in_order {p : BootParams} {N T : Net Pc} {ls : List (Label Word)}
    (h : Launched (fun _ => .start) p N) (hone : p.images.length = 1)
    (hr : Run (restrict (Smooth primes) (Step primes)) N ls T) : ∃ n ≤ 1023,
      (ls.flatMap Label.out).map (fun x => x.2.toNat) = (List.range n).map (Nat.nth Nat.Prime) := by
  obtain ⟨ls', hr', hout⟩ := h.inv.run hr
  rw [h.procs] at hr'
  obtain ⟨n, hn, hprinted⟩ := (sieving_boot hone).run hr'
  refine ⟨n, ?_, by rw [← hout]; exact hprinted⟩
  cases hn with
  | start => omega
  | feed hg _ hnd _ hs =>
    have hlen := (hs.small hnd (by simp [hg]) procsOf_slots).1
    have hle := hs.printed
    omega

/-- The first process of the chain prints 2. -/
theorem primes_in_order_demo : ∃ (N T : Net Pc) (ls : List (Label Word)),
    Launched (fun _ => .start) oneProgram N ∧
    Run (restrict (Smooth primes) (Step primes)) N ls T ∧ ls.flatMap Label.out = [(4097, 2)] ∧
    ∃ n ≤ 1023, (ls.flatMap Label.out).map (fun x => x.2.toNat) =
      (List.range n).map (Nat.nth Nat.Prime) := by
  obtain ⟨N, T, ls, hL, hr, ho⟩ := hands_over primes (fun _ => .start) rfl rfl rfl rfl
  exact ⟨N, T, ls, hL, hr, ho, primes_in_order hL rfl hr⟩

end Ipc

end Jos
