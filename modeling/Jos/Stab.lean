import Jos.Mmu
import Mathlib.Order.Basic

/-!
  The search for a debugging entry (`stab_binsearch` in `kern/kdebug.c`).

  The entries of one type are scattered among others, so each probe goes back to the nearest entry of
  the type. An exact match does not end the search: it goes on for `addr + 1`. An entry that stands
  for `addr + 1` is then a match as well, and the result is that entry, unless the search had already
  left it out. -/

namespace Jos

/-- `struct Stab`. -/
structure Stab where
  nStrx : Word
  nType : Byte
  nOther : Byte
  nDesc : BitVec 16
  nValue : Word

namespace Stab

section

variable (stabs : Int → Stab) (type : Int)

/-- `stabs[i].n_type == type`. -/
def Match (i : Int) : Prop := ((stabs i).nType.toNat : Int) = type

instance (i : Int) : Decidable (Match stabs type i) :=
  inferInstanceAs (Decidable (((stabs i).nType.toNat : Int) = type))

/-- `while (m >= l && stabs[m].n_type != type) m--`, and the indices that it reads. -/
def scan (l m : Int) (log : List Int) : Int × List Int :=
  if l ≤ m then
    if ¬ Match stabs type m then scan l (m - 1) (log ++ [m]) else (m, log ++ [m])
  else (m, log)
termination_by (m + 1 - l).toNat

end

/-- The variables of `stab_binsearch`, and the indices read so far. -/
structure Search where
  l : Int
  r : Int
  left : Int
  right : Int
  anyMatches : Bool
  addr : Word
  log : List Int

/-- `true_m`. -/
def mid (l r : Int) : Int := (l + r).tdiv 2

section

variable (stabs : Int → Stab) (type : Int)

/-- The body of the loop. -/
def Search.next (s : Search) : Search :=
  let (m, log) := scan stabs type s.l (mid s.l s.r) s.log
  if m < s.l then
    { s with l := mid s.l s.r + 1, log := log }
  else if (stabs m).nValue < s.addr then
    { s with anyMatches := true, left := m, l := mid s.l s.r + 1, log := log }
  else if (stabs m).nValue > s.addr then
    { s with anyMatches := true, right := m - 1, r := m - 1, log := log }
  else
    { s with anyMatches := true, left := m, l := m, addr := s.addr + 1, log := log }

/-- `m` is the last entry of the type in `[l, t]`. -/
structure Last (l t m : Int) : Prop where
  ge : l ≤ m
  le : m ≤ t
  is : Match stabs type m
  none : ∀ i, m < i → i ≤ t → ¬ Match stabs type i

/-- What one probe finds and does. -/
inductive Probe (s : Search) : Search → Prop where
  | none {log : List Int} (h : ∀ i, s.l ≤ i → i ≤ mid s.l s.r → ¬ Match stabs type i) :
    Probe s { s with l := mid s.l s.r + 1, log := log }
  | below {m : Int} {log : List Int} (h : Last stabs type s.l (mid s.l s.r) m)
    (hv : (stabs m).nValue < s.addr) :
    Probe s { s with anyMatches := true, left := m, l := mid s.l s.r + 1, log := log }
  | above {m : Int} {log : List Int} (h : Last stabs type s.l (mid s.l s.r) m)
    (hv : s.addr < (stabs m).nValue) :
    Probe s { s with anyMatches := true, right := m - 1, r := m - 1, log := log }
  | equal {m : Int} {log : List Int} (h : Last stabs type s.l (mid s.l s.r) m)
    (hv : (stabs m).nValue = s.addr) :
    Probe s { s with anyMatches := true, left := m, l := m, addr := s.addr + 1, log := log }

end

variable {stabs : Int → Stab} {type : Int}

theorem scan_spec (stabs : Int → Stab) (type : Int) (l m : Int) (log : List Int) :
    (scan stabs type l m log).1 ≤ m ∧
    (l ≤ (scan stabs type l m log).1 → Match stabs type (scan stabs type l m log).1) ∧
    (l ≤ m + 1 → l - 1 ≤ (scan stabs type l m log).1) ∧
    ∀ i, l ≤ i → (scan stabs type l m log).1 < i → i ≤ m → ¬ Match stabs type i := by
  fun_induction scan stabs type l m log with
  | case1 m log hlm hm ih =>
    obtain ⟨h1, h2, h3, h4⟩ := ih
    refine ⟨by omega, h2, fun _ => h3 (by omega), fun i hl hi hle => ?_⟩
    rcases Int.lt_or_eq_of_le hle with hlt | rfl
    · exact h4 i hl hi (by omega)
    · exact hm
  | case2 m log hlm hm =>
    exact ⟨le_rfl, fun _ => not_not.mp hm, fun _ => by omega, fun i _ hi hle => by omega⟩
  | case3 m log hlm =>
    exact ⟨le_rfl, fun h => absurd h hlm, fun _ => by omega, fun i _ hi hle => by omega⟩

theorem mid_mem {l r : Int} (h : l ≤ r) : l ≤ mid l r ∧ mid l r ≤ r := by
  unfold mid
  rw [Int.tdiv_eq_ediv]
  split
  · omega
  · rename_i hn
    simp only [not_or, not_le] at hn
    have : Int.sign 2 = 1 := rfl
    omega

/-- Every round of the loop is one probe. -/
theorem next_probe (stabs : Int → Stab) (type : Int) (s : Search) :
    Probe stabs type s (s.next stabs type) := by
  obtain ⟨h1, h2, _, h4⟩ := scan_spec stabs type s.l (mid s.l s.r) s.log
  unfold Search.next
  generalize scan stabs type s.l (mid s.l s.r) s.log = x at h1 h2 h4
  obtain ⟨m, log⟩ := x
  dsimp only at h1 h2 h4 ⊢
  split
  · rename_i hm
    exact .none fun i hl hi => h4 i hl (by omega) hi
  · rename_i hm
    have hlast : Last stabs type s.l (mid s.l s.r) m :=
      ⟨by omega, h1, h2 (by omega), fun i hi hle => h4 i (by omega) hi hle⟩
    split
    · exact .below hlast ‹_›
    · split
      · exact .above hlast ‹_›
      · exact .equal hlast (by bv_omega)

/-- The interval that is left, and whether its first entry is the next match. -/
def Search.measure (stabs : Int → Stab) (type : Int) (s : Search) : Nat :=
  2 * (s.r + 1 - s.l).toNat +
    if Match stabs type s.l ∧ (stabs s.l).nValue = s.addr then 1 else 0

theorem measure_lt (stabs : Int → Stab) (type : Int) (s : Search) (h : s.l ≤ s.r) :
    (s.next stabs type).measure stabs type < s.measure stabs type := by
  have hm := mid_mem h
  have hone : ∀ t : Search, (if Match stabs type t.l ∧ (stabs t.l).nValue = t.addr then 1 else 0) ≤
      1 := fun t => by split <;> omega
  have hp := next_probe stabs type s
  generalize s.next stabs type = t at hp
  have ht := hone t
  unfold Search.measure
  rcases hp with _ | _ | ⟨hl, _⟩ | ⟨hl, hv⟩
  · dsimp only at ht ⊢
    omega
  · dsimp only at ht ⊢
    omega
  · have := hl.ge
    have := hl.le
    dsimp only at ht ⊢
    omega
  · rename_i m log
    have h1 := hl.ge
    have h2 := hl.le
    have hne : ¬ (Match stabs type m ∧ (stabs m).nValue = s.addr + 1) := fun hc => by
      have := hc.2
      rw [hv] at this
      bv_omega
    dsimp only at ht ⊢
    rw [if_neg hne]
    rcases Int.lt_or_eq_of_le h1 with hlt | rfl
    · omega
    · rw [if_pos ⟨hl.is, hv⟩]
      omega

/-- The loop. -/
def loop (stabs : Int → Stab) (type : Int) (s : Search) : Search :=
  if s.l ≤ s.r then loop stabs type (s.next stabs type) else s
termination_by s.measure stabs type
decreasing_by exact measure_lt _ _ s ‹_›

end Stab

open Stab

/-- What comes after the loop. -/
def Stab.finish (stabs : Int → Stab) (type : Int) (s : Search) : Int × Int :=
  if ¬ s.anyMatches then (s.left, s.left - 1)
  else ((scan stabs type (s.left + 1) s.right s.log).1, s.right)

/-- `stab_binsearch`, from `*region_left` and `*region_right` to what they are afterwards. -/
def stabBinsearch (stabs : Int → Stab) (left right : Int) (type : Int) (addr : Word) : Int × Int :=
  finish stabs type (loop stabs type ⟨left, right, left, right, false, addr, []⟩)

namespace Stab

/-! ### The search for a key that no entry has, and for one that an entry has -/

/-- The values of the entries of the type increase. -/
def Increasing (stabs : Int → Stab) (type L R : Int) : Prop :=
  ∀ i j, L ≤ i → i < j → j ≤ R → Match stabs type i → Match stabs type j →
    (stabs i).nValue < (stabs j).nValue

/-- `q` is the first entry of the type after `p`. -/
structure Next (stabs : Int → Stab) (type p q R : Int) : Prop where
  gt : p < q
  le : q ≤ R
  is : Match stabs type q
  none : ∀ i, p < i → i < q → ¬ Match stabs type i

/-- Halving `[l, r]` towards the entry `p`, with the nearest entry below the middle as the border,
    comes to the entry `q` after it before it comes to `p`. -/
inductive NextFirst (stabs : Int → Stab) (type p q : Int) : Int → Int → Prop where
  | next {l r : Int} (h : q ≤ mid l r) (hn : ∀ i, q < i → i ≤ mid l r → ¬ Match stabs type i) :
    NextFirst stabs type p q l r
  | right {l r : Int} (h : mid l r < p) (hn : NextFirst stabs type p q (mid l r + 1) r) :
    NextFirst stabs type p q l r
  | left {l r m : Int} (h : Last stabs type l (mid l r) m) (hq : q < m)
    (hn : NextFirst stabs type p q l (m - 1)) : NextFirst stabs type p q l r

variable {stabs : Int → Stab} {type L R p q l r : Int}

theorem Increasing.mono (h : Increasing stabs type L R) (hl : L ≤ l) (hr : r ≤ R) :
    Increasing stabs type l r :=
  fun i j hi hij hj => h i j (hl.trans hi) hij (hj.trans hr)

theorem Increasing.le (h : Increasing stabs type L R) {i j : Int} (hi : L ≤ i) (hij : i ≤ j)
    (hj : j ≤ R) (hti : Match stabs type i) (htj : Match stabs type j) :
    (stabs i).nValue ≤ (stabs j).nValue := by
  rcases Int.lt_or_eq_of_le hij with hlt | rfl
  · exact BitVec.le_of_lt (h i j hi hlt hj hti htj)
  · exact BitVec.le_refl _

theorem Last.unique {t m m' : Int} (h : Last stabs type l t m) (h' : Last stabs type L t m') :
    m = m' := by
  rcases Int.lt_trichotomy m m' with hlt | heq | hgt
  · exact absurd h'.is (h.none m' hlt h'.le)
  · exact heq
  · exact absurd h.is (h'.none m hgt h.le)

theorem nextFirst_right (hpq : p < q) (h : mid l r < p) :
    NextFirst stabs type p q l r ↔ NextFirst stabs type p q (mid l r + 1) r := by
  refine ⟨fun hn => ?_, .right h⟩
  rcases hn with ⟨hq, _⟩ | ⟨_, hn⟩ | ⟨hl, hq, _⟩
  · omega
  · exact hn
  · have := hl.le
    omega

theorem nextFirst_left {m : Int} (hpq : p < q) (hm : Last stabs type l (mid l r) m) (hq : q < m) :
    NextFirst stabs type p q l r ↔ NextFirst stabs type p q l (m - 1) := by
  refine ⟨fun hn => ?_, .left hm hq⟩
  have hle := hm.le
  rcases hn with ⟨_, hno⟩ | ⟨hp, _⟩ | ⟨hl, _, hn⟩
  · exact absurd hm.is (hno m hq hle)
  · omega
  · rwa [hl.unique hm] at hn

theorem not_nextFirst (hp : p ≤ mid l r) (hq : mid l r < q) :
    ¬ NextFirst stabs type p q l r := by
  intro hn
  rcases hn with ⟨h, _⟩ | ⟨h, _⟩ | ⟨hl, h, _⟩
  · omega
  · omega
  · have := hl.le
    omega

/-- What the loop leaves when no entry in the interval has the key for its value. -/
structure Ends (stabs : Int → Stab) (type : Int) (s t : Search) : Prop where
  lower : s.l - 1 ≤ t.r
  upper : t.r ≤ s.r
  below : ∀ i, s.l ≤ i → i ≤ t.r → Match stabs type i → (stabs i).nValue < s.addr
  above : ∀ i, t.r < i → i ≤ s.r → Match stabs type i → s.addr < (stabs i).nValue
  edge : t.r = s.r ∨ Match stabs type (t.r + 1)
  left : Last stabs type s.l t.r t.left ∨
    ((∀ i, s.l ≤ i → i ≤ t.r → ¬ Match stabs type i) ∧ t.left = s.left)
  right : s.right = s.r → t.right = t.r
  any : t.anyMatches = true ↔
    (s.anyMatches = true ∨ ∃ i, s.l ≤ i ∧ i ≤ s.r ∧ Match stabs type i)

theorem loop_ends (stabs : Int → Stab) (type : Int) (s : Search) (hs : s.l ≤ s.r + 1)
    (hinc : Increasing stabs type s.l s.r)
    (hno : ∀ i, s.l ≤ i → i ≤ s.r → Match stabs type i → (stabs i).nValue ≠ s.addr) :
    Ends stabs type s (loop stabs type s) := by
  fun_induction loop stabs type s with
  | case1 s hle ih =>
    have hm := mid_mem hle
    have hp := next_probe stabs type s
    generalize s.next stabs type = t at hp ih
    rcases hp with ⟨hn⟩ | ⟨hl, hv⟩ | ⟨hl, hv⟩ | ⟨hl, hv⟩
    · -- No entry of the type up to the middle.
      obtain ⟨h1, h2, h3, h4, h5, h6, h7, h8⟩ := ih (by dsimp only; omega)
        (hinc.mono (by dsimp only; omega) le_rfl)
        fun i hi => hno i (by dsimp only at hi; omega)
      dsimp only at h1 h2 h3 h4 h5 h6 h7 h8
      have hskip : ∀ i, s.l ≤ i → Match stabs type i → mid s.l s.r + 1 ≤ i := fun i hi ht => by
        by_contra hc
        exact hn i hi (by omega) ht
      refine ⟨by omega, h2, fun i hi hr ht => h3 i (hskip i hi ht) hr ht, h4, h5, ?_, h7, ?_⟩
      · rcases h6 with ⟨g1, g2, g3, g4⟩ | ⟨h6, h6'⟩
        · exact .inl ⟨by omega, g2, g3, g4⟩
        · exact .inr ⟨fun i hi hr ht => h6 i (hskip i hi ht) hr ht, h6'⟩
      · rw [h8]
        refine or_congr_right ⟨?_, ?_⟩
        · rintro ⟨i, hi, hr, ht⟩
          exact ⟨i, by omega, hr, ht⟩
        · rintro ⟨i, hi, hr, ht⟩
          exact ⟨i, hskip i hi ht, hr, ht⟩
    · -- The nearest entry lies below the key: it is the left end for now.
      rename_i m log
      obtain ⟨h1, h2, h3, h4, h5, h6, h7, h8⟩ := ih (by dsimp only; omega)
        (hinc.mono (by dsimp only; omega) le_rfl)
        fun i hi => hno i (by dsimp only at hi; omega)
      dsimp only at h1 h2 h3 h4 h5 h6 h7 h8
      obtain ⟨g1, g2, g3, g4⟩ := hl
      refine ⟨by omega, h2, fun i hi hr ht => ?_, h4, h5, ?_, h7, ?_⟩
      · rcases lt_or_ge (mid s.l s.r) i with hgt | hle'
        · exact h3 i hgt hr ht
        · have him : i ≤ m := by
            by_contra hc
            exact g4 i (by omega) hle' ht
          exact Nat.lt_of_le_of_lt (hinc.le hi him (by omega) ht g3) hv
      · rcases h6 with ⟨k1, k2, k3, k4⟩ | ⟨h6, h6'⟩
        · exact .inl ⟨by omega, k2, k3, k4⟩
        · refine .inl ?_
          rw [h6']
          refine ⟨g1, by omega, g3, fun i hi hr ht => ?_⟩
          rcases lt_or_ge (mid s.l s.r) i with hgt | hle'
          · exact h6 i hgt hr ht
          · exact g4 i hi hle' ht
      · rw [h8]
        exact iff_of_true (.inl rfl) (.inr ⟨m, g1, by omega, g3⟩)
    · -- It lies above the key: the search goes on below it.
      rename_i m log
      obtain ⟨g1, g2, g3, g4⟩ := hl
      obtain ⟨h1, h2, h3, h4, h5, h6, h7, h8⟩ := ih (by dsimp only; omega)
        (hinc.mono le_rfl (by dsimp only; omega))
        fun i hi hr => hno i hi (by dsimp only at hr; omega)
      dsimp only at h1 h2 h3 h4 h5 h6 h7 h8
      refine ⟨h1, by omega, h3, fun i hi hr ht => ?_, ?_, h6, ?_, ?_⟩
      · rcases lt_or_ge i m with hlt | hge
        · exact h4 i hi (by omega) ht
        · exact Nat.lt_of_lt_of_le hv (hinc.le g1 hge hr g3 ht)
      · rcases h5 with h5 | h5
        · refine .inr ?_
          rw [h5, Int.sub_add_cancel]
          exact g3
        · exact .inr h5
      · exact fun _ => h7 rfl
      · rw [h8]
        exact iff_of_true (.inl rfl) (.inr ⟨m, g1, by omega, g3⟩)
    · rename_i m log
      exact absurd hv (hno m hl.ge (by have := hl.le; omega) hl.is)
  | case2 s hle =>
    refine ⟨by omega, le_rfl, fun i hi hr => ?_, fun i hi hr => ?_, .inl rfl,
      .inr ⟨fun i hi hr => ?_, rfl⟩, id, ?_⟩
    · omega
    · omega
    · omega
    · refine ⟨.inl, ?_⟩
      rintro (h | ⟨i, hi, hr, _⟩)
      · exact h
      · omega

/-- An entry `p` that has the key for its value was found, with `r` for the right end. -/
def Search.hit (s : Search) (p r : Int) (log : List Int) : Search :=
  { l := p, r := r, left := p, right := r, anyMatches := true, addr := s.addr + 1, log := log }

theorem loop_hits (stabs : Int → Stab) (type : Int) (s : Search)
    (hinc : Increasing stabs type s.l s.r) (hright : s.right = s.r)
    (hp : s.l ≤ p) (hpr : p ≤ s.r) (ht : Match stabs type p)
    (hv : (stabs p).nValue = s.addr) : ∃ r log, p ≤ r ∧ r ≤ s.r ∧ (r = s.r ∨ Match stabs type (r + 1)) ∧
      loop stabs type s = loop stabs type (s.hit p r log) ∧
      ∀ q, Next stabs type p q s.r → (NextFirst stabs type p q s.l s.r ∧ r = q - 1) ∨
        (¬ NextFirst stabs type p q s.l s.r ∧ q ≤ r) := by
  fun_induction loop stabs type s with
  | case1 s hle ih =>
    have hm := mid_mem hle
    have hprobe := next_probe stabs type s
    generalize hnext : s.next stabs type = t at hprobe ih
    rcases hprobe with ⟨hn⟩ | ⟨hl, hlt⟩ | ⟨hl, hgt⟩ | ⟨hl, heq⟩
    · -- No entry of the type up to the middle.
      have hmp : mid s.l s.r < p := by
        by_contra hc
        exact hn p hp (by omega) ht
      obtain ⟨r, log, h1, h2, h3, h4, h5⟩ :=
        ih (hinc.mono (by dsimp only; omega) le_rfl) hright hmp hpr hv
      refine ⟨r, log, h1, h2, h3, h4, fun q hq => ?_⟩
      rw [nextFirst_right hq.gt hmp]
      exact h5 q hq
    · rename_i m log
      have hmp : mid s.l s.r < p := by
        by_contra hc
        have hpm : p ≤ m := by
          by_contra hc'
          exact hl.none p (by omega) (by omega) ht
        have := hinc.le hp hpm (by have := hl.le; omega) ht hl.is
        rw [hv] at this
        bv_omega
      obtain ⟨r, log, h1, h2, h3, h4, h5⟩ :=
        ih (hinc.mono (by dsimp only; omega) le_rfl) hright hmp hpr hv
      refine ⟨r, log, h1, h2, h3, h4, fun q hq => ?_⟩
      rw [nextFirst_right hq.gt hmp]
      exact h5 q hq
    · -- The probe is past `p`, at `q` or beyond.
      rename_i m log
      have hml := hl.le
      have hpm : p < m := by
        by_contra hc
        have := hinc.le hl.ge (by omega : m ≤ p) hpr hl.is ht
        rw [hv] at this
        bv_omega
      obtain ⟨r, log, h1, h2, h3, h4, h5⟩ :=
        ih (hinc.mono le_rfl (by dsimp only; omega)) rfl hp (by dsimp only; omega) hv
      dsimp only at h2 h3 h5
      have hedge : r = m - 1 ∨ Match stabs type (r + 1) := h3
      refine ⟨r, log, h1, by omega, .inr ?_, ?_, fun q hq => ?_⟩
      · rcases hedge with hr | hr
        · rw [hr, Int.sub_add_cancel]
          exact hl.is
        · exact hr
      · rw [h4]
        rfl
      · rcases Int.lt_trichotomy q m with hqm | rfl | hmq
        · rw [nextFirst_left hq.gt hl hqm]
          exact h5 q ⟨hq.gt, by omega, hq.is, hq.none⟩
        · refine .inl ⟨.next hml hl.none, ?_⟩
          rcases hedge with hr | hr
          · exact hr
          · by_contra hc
            exact hq.none (r + 1) (by omega) (by omega) hr
        · exact absurd hl.is (hq.none m hpm hmq)
    · rename_i m log
      have hml := hl.le
      have hmp : m = p := by
        rcases Int.lt_trichotomy m p with h | h | h
        · have := hinc m p hl.ge h hpr hl.is ht
          rw [hv, heq] at this
          exact absurd this (BitVec.lt_irrefl _)
        · exact h
        · have := hinc p m hp h (by omega) ht hl.is
          rw [hv, heq] at this
          exact absurd this (BitVec.lt_irrefl _)
      subst hmp
      refine ⟨s.r, log, hpr, le_rfl, .inl rfl, ?_, fun q hq => .inr ⟨?_, hq.le⟩⟩
      · rw [Search.hit, hright]
      · refine not_nextFirst hml ?_
        by_contra hc
        exact hl.none q hq.gt (by omega) hq.is
  | case2 s hle => omega

/-- The search is past the entry `p`, or stands at it with a greater key. -/
structure Past (stabs : Int → Stab) (p : Int) (s : Search) : Prop where
  l : p ≤ s.l
  r : p ≤ s.r
  left : p ≤ s.left
  right : p ≤ s.right
  key : s.l = p → (stabs p).nValue < s.addr
  any : s.anyMatches = true

/-- It never comes back. -/
theorem loop_past (stabs : Int → Stab) (type : Int) (s : Search) (h : Past stabs p s) :
    Past stabs p (loop stabs type s) := by
  fun_induction loop stabs type s with
  | case1 s hle ih =>
    have hm := mid_mem hle
    have hprobe := next_probe stabs type s
    obtain ⟨h1, h2, h3, h4, h5, h6⟩ := h
    generalize s.next stabs type = t at hprobe ih
    apply ih
    rcases hprobe with ⟨hn⟩ | ⟨hl, hlt⟩ | ⟨hl, hgt⟩ | ⟨hl, heq⟩
    · exact ⟨by dsimp only; omega, h2, h3, h4, fun h => absurd h (by dsimp only; omega), h6⟩
    · have := hl.ge
      exact ⟨by dsimp only; omega, h2, by dsimp only; omega, h4,
        fun h => absurd h (by dsimp only; omega), rfl⟩
    · rename_i m log
      have hge := hl.ge
      have hne : p ≠ m := by
        rintro rfl
        have := h5 (by omega)
        bv_omega
      exact ⟨h1, by dsimp only; omega, h3, by dsimp only; omega, h5, rfl⟩
    · rename_i m log
      have hge := hl.ge
      have hne : p ≠ m := by
        rintro rfl
        have := h5 (by omega)
        rw [heq] at this
        exact absurd this (BitVec.lt_irrefl _)
      exact ⟨by dsimp only; omega, h2, by dsimp only; omega, h4,
        fun h => absurd h (by dsimp only; omega), rfl⟩
  | case2 s hle => exact h

/-! ### The result -/

/-- `k` is the last entry of the type whose value is at most `addr`. -/
structure Covers (stabs : Int → Stab) (type L R : Int) (addr : Word) (k : Int) : Prop where
  ge : L ≤ k
  le : k ≤ R
  is : Match stabs type k
  value : (stabs k).nValue ≤ addr
  above : ∀ i, k < i → i ≤ R → Match stabs type i → addr < (stabs i).nValue

/-- Some entry of the type has a value of at most `addr`. -/
def Covered (stabs : Int → Stab) (type L R : Int) (addr : Word) : Prop :=
  ∃ i, L ≤ i ∧ i ≤ R ∧ Match stabs type i ∧ (stabs i).nValue ≤ addr

/-- The result is the entry that covers `addr`, and where the next one begins. -/
def Encloses (stabs : Int → Stab) (type L R : Int) (addr : Word) (out : Int × Int) : Prop :=
  (out.1 ≤ out.2 ↔ Covered stabs type L R addr) ∧
  (Covered stabs type L R addr → Covers stabs type L R addr out.1 ∧
    (Next stabs type out.1 (out.2 + 1) R ∨
      (out.2 = R ∧ ∀ i, out.1 < i → i ≤ R → ¬ Match stabs type i)))

/-- The entries do not mislead the search: some entry covers `addr` if there is any, and an entry for
    `addr + 1` after one for `addr` is met before it, or stands right after it with the greatest
    value of all. -/
def Searchable (stabs : Int → Stab) (type L R : Int) (addr : Word) : Prop :=
  (∀ i, L ≤ i → i ≤ R → ¬ Match stabs type i) ∨
  (Covered stabs type L R addr ∧
    ∀ p q, L ≤ p → p ≤ R → Match stabs type p → (stabs p).nValue = addr →
      L ≤ q → q ≤ R → Match stabs type q → (stabs q).nValue = addr + 1 →
      NextFirst stabs type p q L R ∨ (addr = 0xFFFFFFFE ∧ q = p + 1))

variable {addr : Word} {t : Search}

theorem finish_of_any (h : t.anyMatches = true) :
    finish stabs type t = ((scan stabs type (t.left + 1) t.right t.log).1, t.right) := by
  rw [finish, if_neg (not_not.mpr h)]

theorem finish_le (h : t.anyMatches = true) :
    (finish stabs type t).1 ≤ (finish stabs type t).2 := by
  rw [finish_of_any h]
  exact (scan_spec _ _ _ _ _).1

/-- Between the ends is no other entry of the type. -/
theorem finish_last (h : t.anyMatches = true) (hle : t.left ≤ t.right)
    (hno : ∀ i, t.left < i → i ≤ t.right → ¬ Match stabs type i) :
    finish stabs type t = (t.left, t.right) := by
  obtain ⟨h1, h2, h3, _⟩ := scan_spec stabs type (t.left + 1) t.right t.log
  rw [finish_of_any h]
  have hge := h3 (by omega)
  congr 1
  by_contra hne
  exact hno _ (by omega) h1 (h2 (by omega))

theorem finish_of_lt (h : t.anyMatches = true) (hlt : t.right < t.left + 1) :
    finish stabs type t = (t.right, t.right) := by
  rw [finish_of_any h, scan, if_neg (by omega)]

theorem finish_ge (stabs : Int → Stab) (type : Int) (h : t.anyMatches = true) (hl : p ≤ t.left)
    (hr : p ≤ t.right) :
    p ≤ (finish stabs type t).1 := by
  rcases lt_or_ge t.right (t.left + 1) with hlt | hge
  · rw [finish_of_lt h hlt]
    exact hr
  · obtain ⟨_, _, h3, _⟩ := scan_spec stabs type (t.left + 1) t.right t.log
    rw [finish_of_any h]
    have := h3 (by omega)
    dsimp only
    omega

/-- The loop ends with the last entry that is not above `addr`, and the right end at the next one. -/
theorem encloses_of (h : t.anyMatches = true) (hl : Last stabs type L t.right t.left)
    (hr : t.right ≤ R) (hv : (stabs t.left).nValue ≤ addr)
    (habove : ∀ i, t.right < i → i ≤ R → Match stabs type i → addr < (stabs i).nValue)
    (hedge : t.right = R ∨ Match stabs type (t.right + 1)) :
    Encloses stabs type L R addr (finish stabs type t) := by
  obtain ⟨h1, h2, h3, h4⟩ := hl
  have hcov : Covered stabs type L R addr := ⟨t.left, h1, by omega, h3, hv⟩
  rw [finish_last h h2 h4]
  refine ⟨iff_of_true h2 hcov, fun _ => ⟨⟨h1, by dsimp only; omega, h3, hv, ?_⟩, ?_⟩⟩
  · intro i hi hiR ht
    rcases lt_or_ge t.right i with hlt | hge
    · exact habove i hlt hiR ht
    · exact absurd ht (h4 i hi hge)
  · rcases eq_or_ne t.right R with heq | hne
    · exact .inr ⟨heq, fun i hi hiR => h4 i hi (by omega)⟩
    · refine .inl ⟨by dsimp only; omega, by dsimp only; omega, ?_, fun i hi hlt => h4 i hi (by
        dsimp only at hlt; omega)⟩
      rcases hedge with he | he
      · exact absurd he hne
      · exact he

theorem Increasing.unique (hinc : Increasing stabs type L R) {i j : Int} (hi : L ≤ i) (hiR : i ≤ R)
    (hj : L ≤ j) (hjR : j ≤ R) (hti : Match stabs type i) (htj : Match stabs type j)
    (h : (stabs i).nValue = (stabs j).nValue) : i = j := by
  rcases Int.lt_trichotomy i j with hlt | heq | hgt
  · have := hinc i j hi hlt hjR hti htj
    rw [h] at this
    exact absurd this (BitVec.lt_irrefl _)
  · exact heq
  · have := hinc j i hj hgt hiR htj hti
    rw [h] at this
    exact absurd this (BitVec.lt_irrefl _)

/-- The entry for `addr + 1` is the next one after the entry for `addr`. -/
theorem Increasing.next (hinc : Increasing stabs type L R) (hp : L ≤ p) (hpR : p ≤ R)
    (htp : Match stabs type p) (hvp : (stabs p).nValue = addr) (hq : L ≤ q) (hqR : q ≤ R)
    (htq : Match stabs type q) (hvq : (stabs q).nValue = addr + 1) (ha : addr < 0xFFFFFFFF) :
    Next stabs type p q R := by
  have hpq : p < q := by
    by_contra hc
    have := hinc.le hq (by omega : q ≤ p) hpR htq htp
    rw [hvq, hvp] at this
    bv_omega
  refine ⟨hpq, hqR, htq, fun i hpi hiq ht => ?_⟩
  have h1 := hinc p i hp hpi (by omega) htp ht
  have h2 := hinc i q (by omega) hiq hqR ht htq
  rw [hvp] at h1
  rw [hvq] at h2
  bv_omega

/-- The search as it starts. -/
def Search.start (L R : Int) (addr : Word) : Search := ⟨L, R, L, R, false, addr, []⟩

theorem not_covered_of_none (h : ∀ i, L ≤ i → i ≤ R → ¬ Match stabs type i) :
    ¬ Covered stabs type L R addr := fun ⟨i, hi, hR, ht, _⟩ => h i hi hR ht

/-- No entry of the type. -/
theorem encloses_none (h : ∀ i, L ≤ i → i ≤ R → ¬ Match stabs type i) :
    Encloses stabs type L R addr (stabBinsearch stabs L R type addr) := by
  have hout : stabBinsearch stabs L R type addr = (L, L - 1) := by
    rcases lt_or_ge R L with hlt | hge
    · rw [stabBinsearch, loop, if_neg (by dsimp only; omega)]
      rfl
    · have he := loop_ends stabs type (Search.start L R addr)
        (by simp only [Search.start]; omega) (fun i _ hi hij hj hti => absurd hti (h i hi (by
          simp only [Search.start] at hj; omega))) fun i hi hR ht => absurd ht (h i hi hR)
      have hany : (loop stabs type (Search.start L R addr)).anyMatches = false := by
        rw [Bool.eq_false_iff]
        intro hc
        rcases he.any.mp hc with hc | ⟨i, hi, hR, ht⟩
        · exact Bool.noConfusion hc
        · exact h i hi hR ht
      have hleft : (loop stabs type (Search.start L R addr)).left = L := by
        rcases he.left with hl | ⟨_, hl⟩
        · exact absurd hl.is (h _ hl.ge (hl.le.trans he.upper))
        · exact hl
      show finish stabs type (loop stabs type (Search.start L R addr)) = _
      rw [finish, if_pos (by rw [hany]; exact Bool.false_ne_true), hleft]
  rw [hout]
  refine ⟨iff_of_false (by dsimp only; omega) (not_covered_of_none h), fun hc => ?_⟩
  exact absurd hc (not_covered_of_none h)

variable (addr) in
/-- No entry for `addr` itself: the loop is a plain binary search. -/
theorem loop_plain (hinc : Increasing stabs type L R) (hLR : L ≤ R)
    (hno : ∀ i, L ≤ i → i ≤ R → Match stabs type i → (stabs i).nValue ≠ addr) :
    Ends stabs type (Search.start L R addr) (loop stabs type (Search.start L R addr)) :=
  loop_ends stabs type _ (by simp only [Search.start]; omega) hinc hno

/-- Entries of the type, but none covers `addr`: the result looks as if one did. -/
theorem not_encloses_uncovered {i : Int} (hinc : Increasing stabs type L R) (hi : L ≤ i)
    (hiR : i ≤ R) (hti : Match stabs type i) (hun : ¬ Covered stabs type L R addr) :
    ¬ Encloses stabs type L R addr (stabBinsearch stabs L R type addr) := by
  have he := loop_plain addr hinc (hi.trans hiR) fun j hj hjR htj hv =>
    hun ⟨j, hj, hjR, htj, hv ▸ BitVec.le_refl _⟩
  intro henc
  exact hun (henc.1.mp (finish_le (he.any.mpr (.inr ⟨i, hi, hiR, hti⟩))))

/-- An entry covers `addr`, and none stands for it exactly. -/
theorem encloses_plain (hinc : Increasing stabs type L R) (hcov : Covered stabs type L R addr)
    (hno : ∀ i, L ≤ i → i ≤ R → Match stabs type i → (stabs i).nValue ≠ addr) :
    Encloses stabs type L R addr (stabBinsearch stabs L R type addr) := by
  obtain ⟨k, hk, hkR, htk, hvk⟩ := hcov
  have he := loop_plain addr hinc (hk.trans hkR) hno
  have hright : (loop stabs type (Search.start L R addr)).right =
      (loop stabs type (Search.start L R addr)).r := he.right rfl
  have hkr : k ≤ (loop stabs type (Search.start L R addr)).r := by
    by_contra hc
    have := he.above k (by omega) hkR htk
    exact absurd (Nat.lt_of_lt_of_le this hvk) (Nat.lt_irrefl _)
  have hlast : Last stabs type L (loop stabs type (Search.start L R addr)).r
      (loop stabs type (Search.start L R addr)).left := by
    rcases he.left with hl | ⟨hn, _⟩
    · exact hl
    · exact absurd htk (hn k hk hkr)
  refine encloses_of (he.any.mpr (.inr ⟨k, hk, hkR, htk⟩)) (hright ▸ hlast) ?_ ?_ ?_ ?_
  · exact hright ▸ he.upper
  · exact BitVec.le_of_lt (he.below _ hlast.ge hlast.le hlast.is)
  · exact hright ▸ he.above
  · exact hright ▸ he.edge

/-- The entry `p` stands for `addr`. It was found with the right end `r`, and up to there nothing
    stands for `addr + 1`. -/
theorem encloses_hit {r : Int} {log : List Int} (hinc : Increasing stabs type L R) (hp : L ≤ p)
    (htp : Match stabs type p) (hvp : (stabs p).nValue = addr)
    (ha : addr < 0xFFFFFFFF) (hpr : p ≤ r) (hrR : r ≤ R) (hedge : r = R ∨ Match stabs type (r + 1))
    (hno : ∀ i, p ≤ i → i ≤ r → Match stabs type i → (stabs i).nValue ≠ addr + 1) :
    Encloses stabs type L R addr
      (finish stabs type (loop stabs type ((Search.start L R addr).hit p r log))) := by
  have he := loop_ends stabs type ((Search.start L R addr).hit p r log)
    (by simp only [Search.hit]; omega) (hinc.mono hp hrR) hno
  generalize loop stabs type ((Search.start L R addr).hit p r log) = t at he
  obtain ⟨h1, h2, h3, h4, h5, h6, h7, h8⟩ := he
  dsimp only [Search.hit, Search.start] at h1 h2 h3 h4 h5 h6 h7 h8
  have hright : t.right = t.r := h7 rfl
  have hpt : p ≤ t.r := by
    by_contra hc
    have := h4 p (by omega) hpr htp
    rw [hvp] at this
    bv_omega
  have hlast : Last stabs type p t.r t.left := by
    rcases h6 with hl | ⟨hn, _⟩
    · exact hl
    · exact absurd htp (hn p le_rfl hpt)
  rw [← hright] at hlast hpt h2 h5
  refine encloses_of (h8.mpr (.inl rfl)) ⟨hp.trans hlast.ge, hlast.le, hlast.is, hlast.none⟩
    (h2.trans hrR) ?_ ?_ ?_
  · have := h3 t.left hlast.ge (hright ▸ hlast.le) hlast.is
    bv_omega
  · intro i hi hiR hti
    have := hinc p i hp (by omega) hiR htp hti
    rwa [hvp] at this
  · rcases h5 with h5 | h5
    · rcases hedge with he | he
      · exact .inl (h5.trans he)
      · exact .inr (h5 ▸ he)
    · exact .inr h5

/-- Both `p` for `addr` and the next entry `q` for `addr + 1` were found. -/
theorem encloses_both {r : Int} {log : List Int} (hinc : Increasing stabs type L R) (hp : L ≤ p)
    (hpR : p ≤ R) (htp : Match stabs type p) (hvp : (stabs p).nValue = addr)
    (ha : addr < 0xFFFFFFFF) (hnext : Next stabs type p q R) (hvq : (stabs q).nValue = addr + 1)
    (hqr : q ≤ r) (hrR : r ≤ R) :
    Encloses stabs type L R addr
      (finish stabs type (loop stabs type ((Search.start L R addr).hit p r log))) ↔
      addr = 0xFFFFFFFE ∧ q = p + 1 := by
  obtain ⟨hpq, hqR, htq, hnone⟩ := hnext
  obtain ⟨r', log', h1, h2, _, h4, _⟩ := loop_hits stabs type
    ((Search.start L R addr).hit p r log) (hinc.mono hp hrR) rfl hpq.le hqr htq hvq
  rw [h4]
  have hcov : Covered stabs type L R addr := ⟨p, hp, hpR, htp, hvp ▸ BitVec.le_refl _⟩
  rcases eq_or_ne addr 0xFFFFFFFE with rfl | hne
  · -- The key wraps to 0, which no entry from `q` on has.
    have hmax : ∀ i, q ≤ i → i ≤ R → Match stabs type i → (stabs i).nValue = 0xFFFFFFFF := by
      intro i hi hiR hti
      have := hinc.le (by omega) hi hiR htq hti
      rw [hvq] at this
      bv_omega
    have he := loop_ends stabs type
      (((Search.start L R 0xFFFFFFFE).hit p r log).hit q r' log')
      (by simp only [Search.hit]; omega) (hinc.mono (by simp only [Search.hit]; omega) (h2.trans hrR))
      (fun i hi hir hti => by
        rw [hmax i hi (by simp only [Search.hit] at hir h2; omega) hti]
        simp only [Search.hit, Search.start]
        decide)
    generalize loop stabs type (((Search.start L R 0xFFFFFFFE).hit p r log).hit q r' log') = t at he
    obtain ⟨g1, g2, g3, g4, g5, g6, g7, g8⟩ := he
    dsimp only [Search.hit, Search.start] at g1 g2 g3 g4 g5 g6 g7 g8 h2
    have htr : t.r < q := by
      by_contra hc
      have := g3 q le_rfl (by omega) htq
      rw [hvq] at this
      exact absurd this (by decide)
    have hleft : t.left = q := by
      rcases g6 with hl | ⟨_, hl⟩
      · have := hl.ge
        have := hl.le
        omega
      · exact hl
    have hright : t.right = q - 1 := by
      rw [g7 rfl]
      omega
    rw [finish_of_lt (g8.mpr (.inl rfl)) (by omega), hright]
    refine ⟨fun henc => ⟨rfl, ?_⟩, fun hq => ⟨iff_of_true le_rfl hcov, fun _ => ?_⟩⟩
    · by_contra hne
      exact hnone (q - 1) (by omega) (by omega) (henc.2 hcov).1.is
    · have hq1 : q - 1 = p := by omega
      rw [hq1]
      refine ⟨⟨hp, hpR, htp, hvp ▸ BitVec.le_refl _, fun i hi hiR hti => ?_⟩, .inl ?_⟩
      · have := hinc p i hp hi hiR htp hti
        rwa [hvp] at this
      · dsimp only
        rw [← hq.2]
        exact ⟨hpq, hqR, htq, hnone⟩
  · -- The search goes on past `q`.
    have hpast := loop_past stabs type (p := q)
      (((Search.start L R addr).hit p r log).hit q r' log')
      ⟨le_rfl, h1, le_rfl, h1, fun _ => ?_, rfl⟩
    · refine iff_of_false (fun henc => ?_) fun hc => hne hc.1
      have hcv := (henc.2 hcov).1
      have hge := finish_ge stabs type hpast.any hpast.left hpast.right
      have := hinc.le (by omega) hge hcv.le htq hcv.is
      have hv := hcv.value
      rw [hvq] at this
      bv_omega
    · rw [hvq]
      simp only [Search.hit, Search.start]
      bv_omega

/-- `stab_binsearch` finds the entry that covers `addr` exactly when the entries do not mislead it. -/
theorem stabBinsearch_encloses_iff (stabs : Int → Stab) (L R type : Int) (addr : Word)
    (hinc : Increasing stabs type L R) (ha : addr < 0xFFFFFFFF) :
    Encloses stabs type L R addr (stabBinsearch stabs L R type addr) ↔
      Searchable stabs type L R addr := by
  rcases Classical.em (∀ i, L ≤ i → i ≤ R → ¬ Match stabs type i) with hnone | hsome
  · exact iff_of_true (encloses_none hnone) (.inl hnone)
  rcases Classical.em (Covered stabs type L R addr) with hcov | hun
  · rcases Classical.em (∀ i, L ≤ i → i ≤ R → Match stabs type i → (stabs i).nValue ≠ addr)
      with hno | hex
    · exact iff_of_true (encloses_plain hinc hcov hno)
        (.inr ⟨hcov, fun p q hp hpR htp hvp => absurd hvp (hno p hp hpR htp)⟩)
    simp only [not_forall, not_not] at hex
    obtain ⟨p, hp, hpR, htp, hvp⟩ := hex
    obtain ⟨r, log, h1, h2, h3, h4, h5⟩ :=
      loop_hits stabs type (Search.start L R addr) hinc rfl hp hpR htp hvp
    have hout : stabBinsearch stabs L R type addr =
        finish stabs type (loop stabs type ((Search.start L R addr).hit p r log)) :=
      congrArg (finish stabs type) h4
    rw [hout]
    rcases Classical.em (∃ q, L ≤ q ∧ q ≤ R ∧ Match stabs type q ∧ (stabs q).nValue = addr + 1)
      with ⟨q, hq, hqR, htq, hvq⟩ | hnq
    · have hnext := hinc.next hp hpR htp hvp hq hqR htq hvq ha
      have hsearch : Searchable stabs type L R addr ↔
          NextFirst stabs type p q L R ∨ (addr = 0xFFFFFFFE ∧ q = p + 1) := by
        refine ⟨fun hs => ?_, fun hs => .inr ⟨hcov, ?_⟩⟩
        · rcases hs with hs | ⟨_, hs⟩
          · exact absurd hs hsome
          · exact hs p q hp hpR htp hvp hq hqR htq hvq
        · intro p' q' hp' hpR' htp' hvp' hq' hqR' htq' hvq'
          rw [hinc.unique hp' hpR' hp hpR htp' htp (hvp'.trans hvp.symm),
            hinc.unique hq' hqR' hq hqR htq' htq (hvq'.trans hvq.symm)]
          exact hs
      rw [hsearch]
      rcases h5 q hnext with ⟨hfirst, hr⟩ | ⟨hnot, hqr⟩
      · refine iff_of_true (encloses_hit hinc hp htp hvp ha h1 h2 h3 fun i hi hir hti hvi => ?_)
          (.inl hfirst)
        have hiq := hinc.unique (hp.trans hi) (hir.trans h2) hq hqR hti htq (hvi.trans hvq.symm)
        omega
      · have hnot' : ¬ NextFirst stabs type p q L R := hnot
        rw [or_iff_right hnot']
        exact encloses_both hinc hp hpR htp hvp ha hnext hvq hqr h2
    · refine iff_of_true (encloses_hit hinc hp htp hvp ha h1 h2 h3 fun i hi hir hti hvi =>
        hnq ⟨i, hp.trans hi, hir.trans h2, hti, hvi⟩) (.inr ⟨hcov, ?_⟩)
      intro p' q' _ _ _ _ hq' hqR' htq' hvq'
      exact absurd ⟨q', hq', hqR', htq', hvq'⟩ hnq
  · obtain ⟨i, hi, hiR, hti⟩ : ∃ i, L ≤ i ∧ i ≤ R ∧ Match stabs type i := by
      simpa only [not_forall, not_not, exists_prop] using hsome
    refine iff_of_false (not_encloses_uncovered hinc hi hiR hti hun) ?_
    rintro (hn | ⟨hc, _⟩)
    · exact hn i hi hiR hti
    · exact hun hc

/-! ### Any table -/

/-- The loop stops after `n` rounds, in the state `t`. -/
inductive Rounds (stabs : Int → Stab) (type : Int) : Search → Nat → Search → Prop where
  | done {s : Search} (h : ¬ s.l ≤ s.r) : Rounds stabs type s 0 s
  | round {s t : Search} {n : Nat} (h : s.l ≤ s.r) (hn : Rounds stabs type (s.next stabs type) n t) :
    Rounds stabs type s (n + 1) t

/-- The indices that `stab_binsearch` reads, in the loop and after it. -/
def reads (stabs : Int → Stab) (left right type : Int) (addr : Word) : List Int :=
  let s := loop stabs type (.start left right addr)
  if ¬ s.anyMatches then s.log else (scan stabs type (s.left + 1) s.right s.log).2

/-- The search stays inside `[L, R]`. The right end may fall just short of it. -/
structure Within (L R : Int) (s : Search) : Prop where
  l : L ≤ s.l
  r : s.r ≤ R
  left : L ≤ s.left ∧ s.left ≤ R
  right : L - 1 ≤ s.right ∧ s.right ≤ R
  log : ∀ i ∈ s.log, L ≤ i ∧ i ≤ R

/-- The number of rounds is at most twice the length of the interval, and one. -/
theorem loop_rounds (stabs : Int → Stab) (type : Int) (s : Search) :
    ∃ n, n ≤ s.measure stabs type ∧ Rounds stabs type s n (loop stabs type s) := by
  fun_induction loop stabs type s with
  | case1 s hle ih =>
    obtain ⟨n, hn, hr⟩ := ih
    have hlt := measure_lt stabs type s hle
    exact ⟨n + 1, by omega, .round hle hr⟩
  | case2 s hle => exact ⟨0, Nat.zero_le _, .done hle⟩

theorem scan_log (stabs : Int → Stab) (type l m : Int) (log : List Int) :
    ∀ i ∈ (scan stabs type l m log).2, i ∈ log ∨ l ≤ i ∧ i ≤ m := by
  fun_induction scan stabs type l m log with
  | case1 m log hlm hm ih =>
    intro i hi
    rcases ih i hi with hmem | ⟨h1, h2⟩
    · rcases List.mem_append.mp hmem with hlog | hone
      · exact .inl hlog
      · obtain rfl := List.mem_singleton.mp hone
        exact .inr ⟨hlm, le_rfl⟩
    · exact .inr ⟨h1, by omega⟩
  | case2 m log hlm hm =>
    intro i hi
    rcases List.mem_append.mp hi with hlog | hone
    · exact .inl hlog
    · obtain rfl := List.mem_singleton.mp hone
      exact .inr ⟨hlm, le_rfl⟩
  | case3 m log hlm => exact fun i hi => .inl hi

theorem next_log (stabs : Int → Stab) (type : Int) (s : Search) :
    (s.next stabs type).log = (scan stabs type s.l (mid s.l s.r) s.log).2 := by
  unfold Search.next
  dsimp only
  split
  · rfl
  · split
    · rfl
    · split <;> rfl

theorem Within.next {s : Search} (h : Within L R s) (hle : s.l ≤ s.r) :
    Within L R (s.next stabs type) := by
  have hm := mid_mem hle
  obtain ⟨h1, h2, ⟨h3, h4⟩, ⟨h5, h6⟩, h7⟩ := h
  have hlog : ∀ i ∈ (s.next stabs type).log, L ≤ i ∧ i ≤ R := by
    rw [next_log]
    intro i hi
    rcases scan_log stabs type s.l (mid s.l s.r) s.log i hi with hmem | ⟨hl, hr⟩
    · exact h7 i hmem
    · exact ⟨by omega, by omega⟩
  have hp := next_probe stabs type s
  generalize s.next stabs type = t at hp hlog
  -- a probe moves each end to an entry of the interval or next to one
  rcases hp with ⟨hn⟩ | ⟨hl, hv⟩ | ⟨hl, hv⟩ | ⟨hl, hv⟩
  · exact ⟨by dsimp only; omega, h2, ⟨h3, h4⟩, ⟨h5, h6⟩, hlog⟩
  · have hge := hl.ge
    have hle' := hl.le
    exact ⟨by dsimp only; omega, h2, ⟨by dsimp only; omega, by dsimp only; omega⟩, ⟨h5, h6⟩, hlog⟩
  · have hge := hl.ge
    have hle' := hl.le
    exact ⟨h1, by dsimp only; omega, ⟨h3, h4⟩, ⟨by dsimp only; omega, by dsimp only; omega⟩, hlog⟩
  · have hge := hl.ge
    have hle' := hl.le
    exact ⟨by dsimp only; omega, h2, ⟨by dsimp only; omega, by dsimp only; omega⟩, ⟨h5, h6⟩, hlog⟩

theorem Within.loop {s : Search} (h : Within L R s) : Within L R (loop stabs type s) := by
  fun_induction Stab.loop stabs type s with
  | case1 s hle ih => exact ih (h.next hle)
  | case2 s hle => exact h

/-- On any table the search ends, and what it reads and returns stays inside the interval. An array
    in memory has fewer than 2 ^ 30 entries, so `l + r` does not overflow. -/
theorem stabBinsearch_within (stabs : Int → Stab) (left right type : Int) (addr : Word)
    (h : left ≤ right) :
    (∃ n, Rounds stabs type (.start left right addr) n
      (loop stabs type (.start left right addr))) ∧
    (∀ i ∈ reads stabs left right type addr, left ≤ i ∧ i ≤ right) ∧
    (left - 1 ≤ (stabBinsearch stabs left right type addr).1 ∧
      (stabBinsearch stabs left right type addr).1 ≤ right) ∧
    left - 1 ≤ (stabBinsearch stabs left right type addr).2 ∧
      (stabBinsearch stabs left right type addr).2 ≤ right := by
  have hstart : Within left right (.start left right addr) :=
    ⟨le_rfl, le_rfl, ⟨le_rfl, h⟩, ⟨by dsimp only [Search.start]; omega, le_rfl⟩,
      fun i hi => (nomatch hi)⟩
  obtain ⟨n, -, hn⟩ := loop_rounds stabs type (.start left right addr)
  have hend : Within left right (loop stabs type (.start left right addr)) := hstart.loop
  refine ⟨⟨n, hn⟩, ?_⟩
  have hout : stabBinsearch stabs left right type addr =
      finish stabs type (loop stabs type (.start left right addr)) := rfl
  rw [hout, reads, finish]
  generalize loop stabs type (.start left right addr) = s at hend
  obtain ⟨-, -, ⟨h1, h2⟩, ⟨h3, h4⟩, hlog⟩ := hend
  split
  · exact ⟨hlog, ⟨by dsimp only; omega, by dsimp only; omega⟩, by dsimp only; omega, by dsimp only; omega⟩
  · obtain ⟨hs1, -, hs3, -⟩ := scan_spec stabs type (s.left + 1) s.right s.log
    refine ⟨fun i hi => ?_, ⟨?_, by dsimp only; omega⟩, h3, h4⟩
    · rcases scan_log stabs type _ _ _ i hi with hmem | ⟨hl, hr⟩
      · exact hlog i hmem
      · exact ⟨by omega, by omega⟩
    · -- the last loop goes back to `*region_left` at most
      dsimp only
      by_cases hc : s.left ≤ s.right
      · have := hs3 (by omega)
        omega
      · rw [scan, if_neg (by omega)]
        exact h3

/-- An `N_SO` entry for `0x10`, and `N_FUN` entries for `0x20`. -/
def oneFun : Int → Stab := fun i =>
  if i = 0 then ⟨0, 0x64, 0, 0, 0x10⟩ else ⟨0, 0x24, 0, 0, 0x20⟩

theorem oneFun_increasing : Increasing oneFun 0x24 0 1 := by
  intro i j hi hij hj hti _
  obtain rfl : i = 0 := by omega
  exact absurd hti (by decide)

theorem stabBinsearch_encloses_iff_oneFun :
    Encloses oneFun 0x24 0 1 0x28 (stabBinsearch oneFun 0 1 0x24 0x28) :=
  (stabBinsearch_encloses_iff oneFun 0 1 0x24 0x28 oneFun_increasing (by decide)).mpr
    (.inr ⟨⟨1, by decide, by decide, by decide, by decide⟩, fun p q hp hpR htp hvp => by
      obtain rfl | rfl : p = 0 ∨ p = 1 := by omega
      · exact absurd htp (by decide)
      · exact absurd hvp (by decide)⟩)

theorem stabBinsearch_within_oneFun :
    (∃ n, Rounds oneFun 0x24 (.start 0 1 0xFFFFFFFF) n (loop oneFun 0x24 (.start 0 1 0xFFFFFFFF))) ∧
    ∀ i ∈ reads oneFun 0 1 0x24 0xFFFFFFFF, (0 : Int) ≤ i ∧ i ≤ 1 :=
  have h := stabBinsearch_within oneFun 0 1 0x24 0xFFFFFFFF (by decide)
  ⟨h.1, h.2.1⟩

/-- An address before the only function: the search pretends to have found an entry. -/
theorem address_before_first_function : Increasing oneFun 0x24 0 1 ∧ (0x18 : Word) < 0xFFFFFFFF ∧
    ¬ Encloses oneFun 0x24 0 1 0x18 (stabBinsearch oneFun 0 1 0x24 0x18) := by
  refine ⟨oneFun_increasing, by decide,
    not_encloses_uncovered oneFun_increasing (by decide : (0 : Int) ≤ 1) le_rfl (by decide) ?_⟩
  rintro ⟨i, hi, hiR, hti, hvi⟩
  obtain rfl | rfl : i = 0 ∨ i = 1 := by omega
  · exact absurd hti (by decide)
  · exact absurd hvi (by decide)

end Stab

end Jos
