import Jos.Paging
import Jos.Boot

/-!
  `user_mem_check`: exactly when its answer is right.

  The range is taken mathematically, without wrap-around. The loop tests one address of each page;
  `badPage` is that test. -/

namespace Jos

open Lib

/-- The directory `d` is well formed: it names page tables that exist. -/
structure DirOk (s : KState) (d : Nat) : Prop where
  window : s.npages ≤ 65536
  table : ∀ i T, entryFrame (s.mem d i) = some T → T < s.npages

/-- `user_mem_check`'s test of a page, at an address in it. -/
def badPage (s : KState) (d : Nat) (perm va : Word) : Bool :=
  match entryFrame (s.mem d (pdx va)) with
  | none => true
  | some T => decide (ulim ≤ va) || decide (s.entry (T, ptx va) &&& perm ≠ perm)

/-- Address `n` is below `ULIM`, on a page that is present with all bits of `perm`. -/
def Allowed (s : KState) (d : Nat) (perm : Word) (n : Nat) : Prop :=
  n < ulim.toNat ∧ ∃ T, entryFrame (s.mem d (pdx (BitVec.ofNat 32 n))) = some T ∧
    entryFrame (s.mem T (ptx (BitVec.ofNat 32 n))) ≠ none ∧
    s.mem T (ptx (BitVec.ofNat 32 n)) &&& perm = perm

/-- `n` is the first address from `va` on that is not allowed. -/
def FirstBad (s : KState) (d : Nat) (perm : Word) (va n : Nat) : Prop :=
  va ≤ n ∧ ¬ Allowed s d perm n ∧ ∀ m, va ≤ m → m < n → Allowed s d perm m

section

variable {s : KState} {d : Nat} {perm va : Word}

/-- The loop stops at the first bad page. -/
theorem userMemCheckLoop_run (va perm : Word) (h : DirOk s d) (last : Word) :
    ∀ (fuel n : Nat) (start : Word), last.toNat = start.toNat + 4096 * n → n ≤ fuel →
      ((∀ i, i < n → badPage s d perm (start + BitVec.ofNat 32 (4096 * i)) = false) ∧
        userMemCheckLoop d va last perm fuel start s = .ok (.ok ()) s) ∨
      ∃ i, i < n ∧ badPage s d perm (start + BitVec.ofNat 32 (4096 * i)) = true ∧
        (∀ j, j < i → badPage s d perm (start + BitVec.ofNat 32 (4096 * j)) = false) ∧
        userMemCheckLoop d va last perm fuel start s = .ok (.error .fault) { s with
          userMemCheckAddr := if start + BitVec.ofNat 32 (4096 * i) = rounddown va then va
            else start + BitVec.ofNat 32 (4096 * i) }
  | 0, n, start, _, hf => Or.inl ⟨fun i hi => absurd hi (by omega), rfl⟩
  | fuel + 1, 0, start, hl, _ => by
    have hlt : ¬ start < last := by rw [BitVec.lt_def]; omega
    refine Or.inl ⟨fun i hi => absurd hi (Nat.not_lt_zero i), ?_⟩
    simp only [userMemCheckLoop, run_ite, if_neg hlt, run_pure]
  | fuel + 1, n + 1, start, hl, hf => by
    have hlt : start < last := by rw [BitVec.lt_def]; omega
    have hz : start + BitVec.ofNat 32 (4096 * 0) = start := BitVec.add_zero start
    have hpg : (BitVec.ofNat 32 pgsize).toNat = 4096 := by decide
    have hlast := last.isLt
    have hnext : (start + BitVec.ofNat 32 pgsize).toNat = start.toNat + 4096 := by
      rw [BitVec.toNat_add, hpg]
      exact Nat.mod_eq_of_lt (by omega)
    have hshift : ∀ i, start + BitVec.ofNat 32 pgsize + BitVec.ofNat 32 (4096 * i)
        = start + BitVec.ofNat 32 (4096 * (i + 1)) := by
      intro i
      rw [BitVec.add_assoc, ← BitVec.ofNat_add, show pgsize + 4096 * i = 4096 * (i + 1) by
        rw [show pgsize = 4096 from rfl]; omega]
    -- what one round of the loop does
    have hround : userMemCheckLoop d va last perm (fuel + 1) start s =
        if badPage s d perm start = true then
          .ok (.error .fault)
            { s with userMemCheckAddr := if start = rounddown va then va else start }
        else userMemCheckLoop d va last perm fuel (start + BitVec.ofNat 32 pgsize) s := by
      unfold badPage
      cases hT : entryFrame (s.mem d (pdx start)) with
      | none =>
        simp only [userMemCheckLoop, run_ite, if_pos hlt, run_bind, pgdirWalk_absent hT, run_get,
          if_true, run_set, run_pure]
      | some T =>
        simp only [userMemCheckLoop, run_ite, if_pos hlt, run_bind,
          pgdirWalk_found hT (h.table _ _ hT) h.window, run_get, run_set, run_pure]
    by_cases hb : badPage s d perm start = true
    · refine Or.inr ⟨0, by omega, by rw [hz]; exact hb, fun j hj => absurd hj (Nat.not_lt_zero j), ?_⟩
      rw [hround, if_pos hb, hz]
    · rw [hround, if_neg hb]
      have hb' : badPage s d perm start = false := by simpa using hb
      rcases userMemCheckLoop_run va perm h last fuel n (start + BitVec.ofNat 32 pgsize)
        (by rw [hnext]; omega) (by omega) with ⟨hall, hrun⟩ | ⟨i, hi, hbi, hlow, hrun⟩
      · refine Or.inl ⟨fun i hi => ?_, hrun⟩
        cases i with
        | zero => rw [hz]; exact hb'
        | succ i => rw [← hshift]; exact hall i (by omega)
      · refine Or.inr ⟨i + 1, by omega, by rw [← hshift]; exact hbi, fun j hj => ?_, ?_⟩
        · cases j with
          | zero => rw [hz]; exact hb'
          | succ j => rw [← hshift]; exact hlow j (by omega)
        · rw [hrun, hshift]

/-! ### Pages and addresses -/

/-- Two addresses of one page go through the same entry. -/
theorem same_page {a b : Word} (h : a.toNat / 4096 = b.toNat / 4096) : pdx a = pdx b ∧ ptx a = ptx b := by
  constructor
  · apply Fin.ext
    rw [pdx_val, pdx_val]
    omega
  · apply Fin.ext
    rw [ptx_val, ptx_val, h]

theorem badPage_congr {a b : Word} (h : a.toNat / 4096 = b.toNat / 4096) :
    badPage s d perm a = badPage s d perm b := by
  have hu : ulim.toNat = 4018143232 := by decide
  obtain ⟨h1, h2⟩ := same_page h
  have hle : ulim ≤ a ↔ ulim ≤ b := by
    rw [BitVec.le_def, BitVec.le_def, hu]
    omega
  unfold badPage
  rw [h1, h2, decide_eq_decide.mpr hle]

/-- A bad page has no allowed address. -/
theorem not_allowed_of_badPage {n : Nat} (hn : n < 2 ^ 32)
    (hb : badPage s d perm (BitVec.ofNat 32 n) = true) : ¬ Allowed s d perm n := by
  rintro ⟨hlt, T, hT, -, hp⟩
  have hnat : (BitVec.ofNat 32 n).toNat = n := by
    rw [BitVec.toNat_ofNat, Nat.mod_eq_of_lt hn]
  unfold badPage at hb
  rw [hT] at hb
  simp only [Bool.or_eq_true, decide_eq_true_eq] at hb
  rcases hb with hle | hne
  · rw [BitVec.le_def, hnat] at hle
    omega
  · exact hne hp

/-! ### `user_mem_check` -/

/-- The answer is exact: success if all addresses of the range are allowed, else the first that is
    not. -/
def ChecksExactly (s : KState) (e : EnvIdx) (d : Nat) (va len perm : Word) : Prop :=
  ((∀ n, va.toNat ≤ n → n < va.toNat + len.toNat → Allowed s d perm n) ∧
    userMemCheck e va len perm s = .ok (.ok ()) s) ∨
  ∃ n, n < va.toNat + len.toNat ∧ FirstBad s d perm va.toNat n ∧
    userMemCheck e va len perm s =
      .ok (.error .fault) { s with userMemCheckAddr := BitVec.ofNat 32 n }

/-- Where `user_mem_check` is exact: on ranges whose rounded end does not wrap, when the first
    forbidden address is one that the test of its page detects (any is when `perm` is not 0). A
    range that wraps is only refused if it wraps into the page it starts in, and that page is bad. -/
def CheckSound (s : KState) (d : Nat) (va len perm : Word) : Prop :=
  (va.toNat + len.toNat ≤ 0xFFFFF000 ∧ ∀ n, n < va.toNat + len.toNat →
    FirstBad s d perm va.toNat n → badPage s d perm (BitVec.ofNat 32 n) = true) ∨
  (2 ^ 32 ≤ va.toNat + len.toNat ∧ va.toNat / 4096 * 4096 + 2 ^ 32 < va.toNat + len.toNat ∧
    va.toNat < 0xFFFFF000 ∧ badPage s d perm va = true)

theorem FirstBad.unique {v m n : Nat} (hm : FirstBad s d perm v m) (hn : FirstBad s d perm v n) :
    m = n := by
  rcases lt_trichotomy m n with h | h | h
  · exact absurd (hn.2.2 m hm.1 h) hm.2.1
  · exact h
  · exact absurd (hm.2.2 n hn.1 h) hn.2.1

theorem exists_firstBad {v n : Nat} (h : v ≤ n) (hb : ¬ Allowed s d perm n) :
    ∃ m, m ≤ n ∧ FirstBad s d perm v m := by
  classical
  have hex : ∃ m, v ≤ m ∧ ¬ Allowed s d perm m := ⟨n, h, hb⟩
  refine ⟨Nat.find hex, Nat.find_min' hex ⟨h, hb⟩, (Nat.find_spec hex).1, (Nat.find_spec hex).2,
    fun m h1 h2 => ?_⟩
  by_contra hm
  exact absurd (Nat.find_min' hex ⟨h1, hm⟩) (by omega)

/-- An answer of success for a range that reaches `ULIM` is wrong. -/
theorem not_exact_of_ok {e : EnvIdx} {len : Word} (htop : 4018143232 < va.toNat + len.toNat)
    (hlen : 0 < len.toNat) (hrun : userMemCheck e va len perm s = .ok (.ok ()) s) :
    ¬ ChecksExactly s e d va len perm := by
  have hu : ulim.toNat = 4018143232 := by decide
  rintro (⟨hall, -⟩ | ⟨n, -, -, hn⟩)
  · have := (hall (max va.toNat 4018143232) (le_max_left _ _) (by omega)).1
    rw [hu] at this
    omega
  · rw [hrun] at hn
    cases hn

theorem userMemCheckLoop_done {last start : Word} (h : last.toNat ≤ start.toNat) (fuel : Nat) :
    userMemCheckLoop d va last perm fuel start s = .ok (.ok ()) s := by
  have hlt : ¬ start < last := by rw [BitVec.lt_def]; omega
  cases fuel with
  | zero => rfl
  | succ fuel => simp only [userMemCheckLoop, run_ite, if_neg hlt, run_pure]

theorem roundup_toNat_mod (a : Word) :
    (roundup a).toNat = (a.toNat + 4095) % 2 ^ 32 / 4096 * 4096 := by
  rw [roundup, rounddown_toNat, BitVec.toNat_add]
  rfl

theorem userMemCheck_eq {e : EnvIdx} (hd : (s.envs e).envPgdir = some d) (va len perm : Word) :
    userMemCheck e va len perm s =
      userMemCheckLoop d va (roundup (va + len)) perm (2 ^ 20) (rounddown va) s := by
  simp only [userMemCheck, run_bind, run_get, hd]

theorem fault_inj {a b : Word} (h : (EStateM.Result.ok (.error .fault)
      { s with userMemCheckAddr := a } : EStateM.Result Stop KState (Except Err Unit)) =
    .ok (.error .fault) { s with userMemCheckAddr := b }) : a = b :=
  congrArg (fun r : EStateM.Result Stop KState (Except Err Unit) => match r with
    | .ok _ t => t.userMemCheckAddr
    | .error _ t => t.userMemCheckAddr) h

/-- A range whose rounded end does not wrap. -/
theorem check_exact_of_le {e : EnvIdx} (hd : (s.envs e).envPgdir = some d) (h : DirOk s d)
    {len : Word} (hlen : 0 < len.toNat) (hle : va.toNat + len.toNat ≤ 0xFFFFF000) :
    ChecksExactly s e d va len perm ↔ ∀ n, n < va.toNat + len.toNat →
      FirstBad s d perm va.toNat n → badPage s d perm (BitVec.ofNat 32 n) = true := by
  have hsum : (va + len).toNat = va.toNat + len.toNat := by
    rw [BitVec.toNat_add, Nat.mod_eq_of_lt (by omega)]
  have hlast : (roundup (va + len)).toNat = (va.toNat + len.toNat + 4095) / 4096 * 4096 := by
    rw [roundup_toNat (by rw [hsum]; omega), hsum]
  have hstart := rounddown_toNat va
  set N := (va.toNat + len.toNat + 4095) / 4096 - va.toNat / 4096 with hN
  have hpage : ∀ i, i < N → (rounddown va + BitVec.ofNat 32 (4096 * i)).toNat
      = va.toNat / 4096 * 4096 + 4096 * i := by
    intro i hi
    rw [BitVec.toNat_add, hstart, BitVec.toNat_ofNat]
    omega
  -- the test of page `i` speaks about all its addresses
  have hbad : ∀ i, i < N → ∀ n, n < 2 ^ 32 → n / 4096 = va.toNat / 4096 + i →
      badPage s d perm (rounddown va + BitVec.ofNat 32 (4096 * i))
        = badPage s d perm (BitVec.ofNat 32 n) := by
    intro i hi n hn hni
    refine badPage_congr ?_
    rw [hpage i hi, BitVec.toNat_ofNat, Nat.mod_eq_of_lt hn]
    omega
  have hloop := userMemCheckLoop_run va perm h (roundup (va + len)) (2 ^ 20) N
    (rounddown va) (by rw [hlast, hstart]; omega) (by omega)
  unfold ChecksExactly
  rw [userMemCheck_eq hd]
  constructor
  · intro hex n hn hfirst
    rcases hex with ⟨hall, -⟩ | ⟨n', -, hfirst', hrun⟩
    · exact absurd (hall n hfirst.1 hn) hfirst.2.1
    obtain rfl := hfirst'.unique hfirst
    have hge := hfirst.1
    rcases hloop with ⟨-, hok⟩ | ⟨i, hi, hbi, hlow, herr⟩
    · rw [hok] at hrun; cases hrun
    rw [herr] at hrun
    have haddr : (if rounddown va + BitVec.ofNat 32 (4096 * i) = rounddown va then va
        else rounddown va + BitVec.ofNat 32 (4096 * i)) = BitVec.ofNat 32 n' := fault_inj hrun
    rcases lt_trichotomy i (n' / 4096 - va.toNat / 4096) with hlt | heq | hgt
    · -- an earlier page is bad
      have hm := hfirst.2.2 (max va.toNat (va.toNat / 4096 * 4096 + 4096 * i)) (le_max_left _ _)
        (by omega)
      refine absurd hm (not_allowed_of_badPage (by omega) ?_)
      rw [← hbad i hi _ (by omega) (by omega)]
      exact hbi
    · rw [← hbad i hi n' (by omega) (by omega)]
      exact hbi
    · exfalso
      have hne : ¬ rounddown va + BitVec.ofNat 32 (4096 * i) = rounddown va := by
        intro he
        have := congrArg BitVec.toNat he
        rw [hpage i hi, hstart] at this
        omega
      rw [if_neg hne] at haddr
      have := congrArg BitVec.toNat haddr
      rw [hpage i hi, BitVec.toNat_ofNat, Nat.mod_eq_of_lt (by omega)] at this
      omega
  · intro hsound
    rcases hloop with ⟨hall, hok⟩ | ⟨i, hi, hbi, hlow, herr⟩
    · refine Or.inl ⟨fun n hge hn => ?_, hok⟩
      by_contra hna
      obtain ⟨m, hm, hfirst⟩ := exists_firstBad hge hna
      have hge' := hfirst.1
      have hb := hsound m (by omega) hfirst
      rw [← hbad (m / 4096 - va.toNat / 4096) (by omega) m (by omega) (by omega),
        hall _ (by omega)] at hb
      cases hb
    · have hi' := hpage i hi
      refine Or.inr ⟨max va.toNat (va.toNat / 4096 * 4096 + 4096 * i), by omega,
        ⟨le_max_left _ _, not_allowed_of_badPage (by omega) ?_, fun m hge hm => ?_⟩, ?_⟩
      · rw [← hbad i hi _ (by omega) (by omega)]
        exact hbi
      · by_contra hna
        obtain ⟨m', hm', hfirst⟩ := exists_firstBad hge hna
        have hge' := hfirst.1
        have hb := hsound m' (by omega) hfirst
        rw [← hbad (m' / 4096 - va.toNat / 4096) (by omega) m' (by omega) (by omega),
          hlow _ (by omega)] at hb
        cases hb
      · have haddr : (if rounddown va + BitVec.ofNat 32 (4096 * i) = rounddown va then va
            else rounddown va + BitVec.ofNat 32 (4096 * i))
            = BitVec.ofNat 32 (max va.toNat (va.toNat / 4096 * 4096 + 4096 * i)) := by
          by_cases h0 : i = 0
          · subst h0
            rw [if_pos (BitVec.add_zero _), max_eq_left (by omega)]
            apply BitVec.eq_of_toNat_eq
            rw [BitVec.toNat_ofNat, Nat.mod_eq_of_lt va.isLt]
          · have hne : ¬ rounddown va + BitVec.ofNat 32 (4096 * i) = rounddown va := by
              intro he
              have := congrArg BitVec.toNat he
              rw [hi', hstart] at this
              omega
            rw [if_neg hne, max_eq_right (by omega)]
            apply BitVec.eq_of_toNat_eq
            rw [hi', BitVec.toNat_ofNat, Nat.mod_eq_of_lt (by omega)]
        rw [herr, haddr]

/-- `user_mem_check` is exact where `CheckSound` says so, and nowhere else. -/
theorem user_mem_check_exact_iff {e : EnvIdx} (hd : (s.envs e).envPgdir = some d) (h : DirOk s d)
    {len : Word} (hlen : 0 < len.toNat) :
    ChecksExactly s e d va len perm ↔ CheckSound s d va len perm := by
  have hva := va.isLt
  have hln := len.isLt
  by_cases hle : va.toNat + len.toNat ≤ 0xFFFFF000
  · rw [check_exact_of_le hd h hlen hle]
    constructor
    · exact fun hx => Or.inl ⟨hle, hx⟩
    · rintro (⟨-, hx⟩ | ⟨hx, -⟩)
      · exact hx
      · omega
  have hstart := rounddown_toNat va
  have hlast : (roundup (va + len)).toNat
      = ((va.toNat + len.toNat) % 2 ^ 32 + 4095) % 2 ^ 32 / 4096 * 4096 := by
    rw [roundup_toNat_mod, BitVec.toNat_add]
  have hrun := userMemCheck_eq hd va len perm
  by_cases hin : 2 ^ 32 ≤ va.toNat + len.toNat ∧
      va.toNat / 4096 * 4096 + 2 ^ 32 < va.toNat + len.toNat ∧ va.toNat < 0xFFFFF000
  · -- the end wraps into the page of `va`: only that page is tested
    obtain ⟨h1, h2, h3⟩ := hin
    have hloop := userMemCheckLoop_run va perm h (roundup (va + len)) (2 ^ 20) 1
      (rounddown va) (by rw [hlast, hstart]; omega) (by omega)
    have hz : rounddown va + BitVec.ofNat 32 (4096 * 0) = rounddown va := BitVec.add_zero _
    have hpg : badPage s d perm (rounddown va) = badPage s d perm va :=
      badPage_congr (by rw [hstart]; omega)
    have hvan : BitVec.ofNat 32 va.toNat = va := by
      apply BitVec.eq_of_toNat_eq
      rw [BitVec.toNat_ofNat, Nat.mod_eq_of_lt hva]
    rw [← hrun] at hloop
    rcases hloop with ⟨hall, hok⟩ | ⟨i, hi, hbi, -, herr⟩
    · have hb := hall 0 (by omega)
      rw [hz, hpg] at hb
      refine ⟨fun hex => absurd hex (not_exact_of_ok (by omega) hlen hok), ?_⟩
      rintro (⟨hx, -⟩ | ⟨-, -, -, hx⟩)
      · omega
      · rw [hb] at hx; cases hx
    · obtain rfl : i = 0 := by omega
      rw [hz, hpg] at hbi
      rw [hz, if_pos rfl] at herr
      refine ⟨fun _ => Or.inr ⟨h1, h2, h3, hbi⟩, fun _ => Or.inr ⟨va.toNat, by omega,
        ⟨le_refl _, not_allowed_of_badPage hva (by rw [hvan]; exact hbi),
          fun m h1 h2 => absurd h1 (by omega)⟩, ?_⟩⟩
      rw [hvan]
      exact herr
  · -- nothing is tested
    have hok : userMemCheck e va len perm s = .ok (.ok ()) s := by
      rw [hrun]
      exact userMemCheckLoop_done (by rw [hlast, hstart]; omega) _
    refine ⟨fun hex => absurd hex (not_exact_of_ok (by omega) hlen hok), ?_⟩
    rintro (⟨hx, -⟩ | ⟨h1, h2, h3, -⟩)
    · omega
    · exact absurd ⟨h1, h2, h3⟩ hin

end

/-- Environment 0 with an empty page directory. -/
def emptySpace : KState :=
  (startState demo).setEnv 0 { emptyEnv 0 with envPgdir := some 0 }

/-- An environment with one page, full of the letter `a`, at `0x800000`. -/
def onePage : KState :=
  { emptySpace with
    npages := 3
    mem := fun f i =>
      if f = 0 then if i = 2 then 0x1007 else 0
      else if f = 1 then if i = 0 then 0x2007 else 0
      else 0x61616161 }

theorem emptySpace_dir : (emptySpace.envs 0).envPgdir = some 0 ∧ DirOk emptySpace 0 := by
  have h0 : ∀ i, entryFrame (emptySpace.mem 0 i) = none := fun _ => entryFrame_zero
  refine ⟨rfl, by decide, fun i T h => ?_⟩
  rw [h0] at h
  cases h

theorem onePage_dir : (onePage.envs 0).envPgdir = some 0 ∧ DirOk onePage 0 := by
  refine ⟨rfl, by decide, fun i T h => ?_⟩
  by_cases hi : i = 2
  · subst hi
    obtain rfl : 1 = T := Option.some.inj h
    decide
  · have h0 : onePage.mem 0 i = 0 := by simp [onePage, hi]
    rw [h0, entryFrame_zero] at h
    cases h

/-- The last byte of the page and the first one behind it are refused, as they have to be. A range
    that comes round to the page again is not checked. -/
theorem user_mem_check_exact_iff_page :
    ChecksExactly onePage 0 0 0x800FFF 2 4 ∧ ¬ ChecksExactly onePage 0 0 0x800000 0xFFFFFFFF 4 := by
  have hmapped : Allowed onePage 0 4 0x800FFF :=
    ⟨by decide, 1, by decide, by decide, by decide⟩
  refine ⟨(user_mem_check_exact_iff onePage_dir.1 onePage_dir.2 (by decide)).mpr
    (Or.inl ⟨by decide, fun n hn hbad => ?_⟩), fun hx => ?_⟩
  · obtain rfl : n = 0x801000 := by
      have hlt : n < 0x800FFF + 2 := hn
      have hge : 0x800FFF ≤ n := hbad.1
      have hne : n ≠ 0x800FFF := fun hx => hbad.2.1 (hx ▸ hmapped)
      omega
    decide
  · rcases (user_mem_check_exact_iff onePage_dir.1 onePage_dir.2 (by decide)).mp hx with
      ⟨hle, -⟩ | ⟨-, hlt, -⟩
    · exact absurd hle (by decide)
    · exact absurd hlt (by decide)

/-- The whole address space but one byte is accepted, whatever is mapped. -/
theorem user_mem_check_accepts_wrapped_end : ¬ ∀ (s : KState) (e : EnvIdx) (d : Nat)
    (va len perm : Word), (s.envs e).envPgdir = some d → DirOk s d → 0 < len.toNat →
    ChecksExactly s e d va len perm := by
  intro h
  have hex := h emptySpace 0 0 0 0xFFFFFFFF 4 emptySpace_dir.1 emptySpace_dir.2 (by decide)
  have hend : (roundup ((0 : Word) + 0xFFFFFFFF)).toNat ≤ (rounddown 0).toNat := by decide
  refine not_exact_of_ok (by decide) (by decide) ?_ hex
  rw [userMemCheck_eq emptySpace_dir.1]
  exact userMemCheckLoop_done hend _

end Jos
