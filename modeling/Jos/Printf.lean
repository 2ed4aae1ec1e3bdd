import Jos.MemCheck
import Jos.Cprintf

/-!
  Printing a user's string (`sys_cputs` in `kern/syscall.c`).

  The `%s` loop of `vprintfmt` reads a character before it looks at the precision, so it reads one
  character more than it prints unless the string ends before that. The precision is an `int`: a
  length from `2 ^ 31` on is negative and means no limit. -/

namespace Jos

open Lib

namespace Fmt

theorem add_ofNat_succ (a : Word) (j : Nat) :
    a + 1 + BitVec.ofNat 32 j = a + BitVec.ofNat 32 (j + 1) := by
  rw [BitVec.ofNat_add, BitVec.add_comm (BitVec.ofNat 32 j), ← BitVec.add_assoc]
  rfl

theorem not_ok_of_error {α : Type} {e : Crash} : ¬ ∃ r : α, Except.error e = .ok r := by
  rintro ⟨r, hr⟩
  cases hr

/-! ### What the loop over the characters reads -/

section

variable {view : View} {alt prec width : Int} {a : Word} {p : Ptr} {k : Nat}

theorem fetch_mem {c : Byte} (h : view a = some c) : fetch view (.mem a) = .ok c := by
  rw [fetch, h]

/-- One character is read, and the loop ends there or goes on. -/
theorem chars_succ_ok : (∃ r, chars view alt (k + 1) p prec width = .ok r) ↔
    ∃ c, fetch view p = .ok c ∧ (c = 0 ∨ prec = 0 ∨
      ∃ r, chars view alt k p.next (if prec < 0 then prec else prec - 1) (int (width - 1)) = .ok r) := by
  rw [chars]
  rcases fetch view p with e | c
  · refine iff_of_false not_ok_of_error ?_
    rintro ⟨c, hc, -⟩
    cases hc
  simp only [bind, Except.bind, Except.ok.injEq, exists_eq_left']
  by_cases hz : c = 0
  · rw [if_pos hz]
    exact iff_of_true ⟨_, rfl⟩ (.inl hz)
  rw [if_neg hz, or_iff_right hz]
  rcases lt_trichotomy prec 0 with hneg | rfl | hpos
  · rw [if_pos hneg, if_pos hneg, or_iff_right hneg.ne]
    rcases chars view alt k p.next prec (int (width - 1)) with e | r
    · exact iff_of_false not_ok_of_error not_ok_of_error
    · exact iff_of_true ⟨_, rfl⟩ ⟨_, rfl⟩
  · exact iff_of_true ⟨_, rfl⟩ (.inl rfl)
  · have hmore : 0 ≤ prec - 1 := by omega
    rw [if_neg hpos.not_gt, if_neg hpos.not_gt, if_pos hmore, or_iff_right hpos.ne']
    rcases chars view alt k p.next (prec - 1) (int (width - 1)) with e | r
    · exact iff_of_false not_ok_of_error not_ok_of_error
    · exact iff_of_true ⟨_, rfl⟩ ⟨_, rfl⟩

/-- The loop returns if the string ends, or the precision does, and all is mapped up to there, with
    the character at which it ends. -/
theorem chars_returns (view : View) (alt : Int) : ∀ (k : Nat) {a : Word} {prec width : Int},
    (∃ r, chars view alt k (.mem a) prec width = .ok r) ↔
      ∃ n < k, (∀ j ≤ n, view (a + BitVec.ofNat 32 j) ≠ none) ∧
        (view (a + BitVec.ofNat 32 n) = some 0 ∨ (n : Int) = prec)
  | 0, _, _, _ => by
    refine iff_of_false not_ok_of_error ?_
    rintro ⟨n, hn, -⟩
    exact absurd hn (Nat.not_lt_zero n)
  | k + 1, a, prec, width => by
    have h0 : a + BitVec.ofNat 32 0 = a := BitVec.add_zero a
    rw [chars_succ_ok]
    constructor
    · rintro ⟨c, hc, hrest⟩
      have hv : view a = some c := by
        rw [fetch] at hc
        split at hc
        · rename_i d hd
          rw [hd, Except.ok.inj hc]
        · cases hc
      have hfirst : ∀ j ≤ 0, view (a + BitVec.ofNat 32 j) ≠ none := by
        intro j hj
        rw [Nat.le_zero.mp hj, h0, hv]
        simp
      rcases hrest with rfl | rfl | hnext
      · exact ⟨0, Nat.succ_pos k, hfirst, .inl (by rw [h0, hv])⟩
      · exact ⟨0, Nat.succ_pos k, hfirst, .inr rfl⟩
      · obtain ⟨n, hn, hall, hend⟩ := (chars_returns view alt k).mp hnext
        refine ⟨n + 1, by omega, fun j hj => ?_, ?_⟩
        · cases j with
          | zero => exact hfirst 0 le_rfl
          | succ j => rw [← add_ofNat_succ]; exact hall j (by omega)
        · rw [← add_ofNat_succ]
          refine hend.imp_right fun hx => ?_
          push_cast
          split at hx <;> omega
    · rintro ⟨n, hn, hall, hend⟩
      have hmapped := hall 0 (Nat.zero_le n)
      rw [h0] at hmapped
      obtain ⟨c, hv⟩ := Option.ne_none_iff_exists'.mp hmapped
      refine ⟨c, fetch_mem hv, ?_⟩
      rcases n with _ | n
      · rw [h0, hv] at hend
        exact hend.imp Option.some.inj fun hx => .inl hx.symm
      · refine .inr (.inr ((chars_returns view alt k).mpr ⟨n, by omega, fun j hj => ?_, ?_⟩))
        · rw [add_ofNat_succ]
          exact hall (j + 1) (by omega)
        · rw [add_ofNat_succ]
          refine hend.imp_right fun hx => ?_
          push_cast at hx
          split <;> omega

/-- More memory changes nothing. -/
theorem chars_mono {small : View} (h : ∀ a c, small a = some c → view a = some c) (alt : Int) :
    ∀ (k : Nat) {p : Ptr} {prec width : Int} {r : List Int × Int},
      chars small alt k p prec width = .ok r → chars view alt k p prec width = .ok r
  | 0, _, _, _, _, hr => by cases hr
  | k + 1, p, prec, width, r, hr => by
    have hfetch : ∀ c, fetch small p = .ok c → fetch view p = .ok c := by
      intro c hc
      cases p with
      | text l => exact hc
      | mem a =>
        rw [fetch] at hc
        split at hc
        · rename_i d hd
          rw [fetch_mem (h a d hd), hc]
        · cases hc
    rw [chars] at hr ⊢
    rcases hc : fetch small p with e | c
    · rw [hc] at hr
      cases hr
    rw [hc] at hr
    rw [hfetch c hc]
    simp only [bind, Except.bind] at hr ⊢
    have hnext : ∀ prec' : Int, ∀ r', chars small alt k p.next prec' (int (width - 1)) = .ok r' →
        chars view alt k p.next prec' (int (width - 1)) = .ok r' := fun _ _ => chars_mono h alt k
    split at hr
    · rename_i hz
      rw [if_pos hz]
      exact hr
    rename_i hz
    rw [if_neg hz]
    split at hr
    · rename_i hneg
      rw [if_pos hneg]
      split at hr
      · cases hr
      · rename_i r' hr'
        rw [hnext prec r' hr']
        exact hr
    · rename_i hneg
      rw [if_neg hneg]
      split at hr
      · rename_i hmore
        rw [if_pos hmore]
        split at hr
        · cases hr
        · rename_i r' hr'
          rw [hnext (prec - 1) r' hr']
          exact hr
      · rename_i hmore
        rw [if_neg hmore]
        exact hr

end

/-! ### Printing an accepted range -/

/-- The memory with nothing but `[s, s + len)` mapped in it. -/
def View.within (view : View) (s len : Word) : View := fun a =>
  if (a - s).toNat < len.toNat then view a else none

/-- Printing takes its characters from `[s, s + len)` only: it prints memory and no text of the
    kernel's, it returns, and it comes to the same where nothing else is mapped. -/
def ReadsChecked (view : View) (s len : Word) : Prop :=
  vaString [.word s] = .ok (.mem s, []) ∧
    ∃ out, Kern.cputs (view.within s len) s len = .ok out ∧ Kern.cputs view s len = .ok out

/-- `[s, s + len)` contains a null character, and is mapped up to there. -/
def Terminated (view : View) (s len : Word) : Prop :=
  ∃ k, k < len.toNat ∧ view (s + BitVec.ofNat 32 k) = some 0 ∧
    ∀ j, j < k → view (s + BitVec.ofNat 32 j) ≠ none

section

variable {view : View} {s len : Word}

theorem within_add {k : Nat} (hk : k < 2 ^ 32) : view.within s len (s + BitVec.ofNat 32 k) =
    if k < len.toNat then view (s + BitVec.ofNat 32 k) else none := by
  have hoff : (s + BitVec.ofNat 32 k - s).toNat = k := by bv_omega
  rw [View.within, hoff]

theorem within_some {a : Word} {c : Byte} (h : view.within s len a = some c) : view a = some c := by
  rw [View.within] at h
  split at h
  · exact h
  · cases h

/-- Printing returns as the loop over the characters does. -/
theorem cputs_ok_iff {p : Ptr} (h : vaString [.word s] = .ok (p, [])) :
    (∃ out, Kern.cputs view s len = .ok out) ↔
      ∃ r, chars view 0 (2 ^ 32) p len.toInt 0 = .ok r := by
  rw [Kern.cputs_eq h]
  rcases chars view 0 (2 ^ 32) p len.toInt 0 with e | r
  · exact iff_of_false not_ok_of_error not_ok_of_error
  · exact iff_of_true ⟨_, rfl⟩ ⟨_, rfl⟩

theorem readsChecked_iff : ReadsChecked view s len ↔ s ≠ 0 ∧ Terminated view s len := by
  have hlen := len.isLt
  constructor
  · rintro ⟨hmem, out, hin, -⟩
    have hs : s ≠ 0 := by
      rintro rfl
      cases hmem
    obtain ⟨k, hk, hmapped, hend⟩ :=
      (chars_returns _ 0 (2 ^ 32)).mp ((cputs_ok_iff hmem).mp ⟨out, hin⟩)
    have hlt : ∀ j ≤ k, j < len.toNat ∧ view (s + BitVec.ofNat 32 j) ≠ none := by
      intro j hj
      have hm := hmapped j hj
      rw [within_add (by omega)] at hm
      split at hm
      · exact ⟨‹_›, hm⟩
      · exact absurd rfl hm
    have hklt := (hlt k le_rfl).1
    rw [within_add hk, if_pos hklt] at hend
    refine ⟨hs, k, hklt, ?_, fun j hj => (hlt j hj.le).2⟩
    rcases hend with hz | hp
    · exact hz
    · -- The precision is the length, and the character behind the range would have been read.
      rw [BitVec.toInt_eq_toNat_cond] at hp
      split at hp <;> omega
  · rintro ⟨hs, k, hk, hz, hmapped⟩
    have hmem : vaString [.word s] = .ok (.mem s, []) := vaString_word hs []
    have hall : ∀ j ≤ k, view.within s len (s + BitVec.ofNat 32 j) ≠ none := by
      intro j hj
      rw [within_add (by omega), if_pos (by omega)]
      rcases Nat.lt_or_eq_of_le hj with hlt | rfl
      · exact hmapped j hlt
      · rw [hz]
        simp
    have hzero : view.within s len (s + BitVec.ofNat 32 k) = some 0 := by
      rw [within_add (by omega), if_pos hk, hz]
    obtain ⟨r, hr⟩ : ∃ r, chars (view.within s len) 0 (2 ^ 32) (.mem s) len.toInt 0 = .ok r :=
      (chars_returns _ 0 (2 ^ 32)).mpr ⟨k, by omega, hall, .inl hzero⟩
    refine ⟨hmem, r.1 ++ pad r.2 (chr ' '), ?_, ?_⟩
    · rw [Kern.cputs_eq hmem, hr]
      rfl
    · rw [Kern.cputs_eq hmem, chars_mono (fun a c => within_some) 0 _ hr]
      rfl

end

end Fmt

open Fmt

/-- What the kernel sees at user addresses on CPU `c`. -/
def KState.view (s : KState) (c : CpuIdx) : View := fun a =>
  (walk s.mem (s.cr3 c) (pgnum a)).map fun f => (s.mem f).byte (pgoff a)

/-- `sys_cputs` goes on to print: `user_mem_check` accepts `[va, va + len)`. -/
def Accepted (s : KState) (e : EnvIdx) (va len : Word) : Prop :=
  userMemCheck e va len (0 ||| pteU) s = .ok (.ok ()) s

theorem walk_pgnum (mem : Nat → Page) (d : Nat) (a : Word) : walk mem d (pgnum a) =
    (entryFrame (mem d (pdx a))).bind fun t => entryFrame (mem t (ptx a)) := by
  rw [walk, pgnum, Nat.div_div_eq_div_mul]
  rfl

/-- Where `user_mem_check` is right, a range that it accepts is mapped. -/
theorem Accepted.mapped {s : KState} {c : CpuIdx} {e : EnvIdx} {d : Nat} {va len : Word}
    (h : Accepted s e va len) (hd : (s.envs e).envPgdir = some d) (hok : DirOk s d)
    (hc : s.cr3 c = d) (hle : va.toNat + len.toNat ≤ 0xFFFFF000)
    (hbad : ∀ n, n < va.toNat + len.toNat → FirstBad s d (0 ||| pteU) va.toNat n →
      badPage s d (0 ||| pteU) (BitVec.ofNat 32 n) = true) {k : Nat} (hk : k < len.toNat) :
    s.view c (va + BitVec.ofNat 32 k) ≠ none := by
  have ha : va + BitVec.ofNat 32 k = BitVec.ofNat 32 (va.toNat + k) := by
    apply BitVec.eq_of_toNat_eq
    rw [BitVec.toNat_add, BitVec.toNat_ofNat, BitVec.toNat_ofNat]
    omega
  rcases (check_exact_of_le hd hok (by omega) hle).mpr hbad with ⟨hall, -⟩ | ⟨n, -, -, herr⟩
  · obtain ⟨-, T, hT, hpage, -⟩ := hall (va.toNat + k) (by omega) (by omega)
    obtain ⟨f, hf⟩ := Option.ne_none_iff_exists'.mp hpage
    have hw : walk s.mem (s.cr3 c) (pgnum (va + BitVec.ofNat 32 k)) = some f := by
      rw [walk_pgnum, hc, ha, hT]
      exact hf
    rw [KState.view, hw]
    simp
  · rw [Accepted, herr] at h
    cases h

/-- What `sys_cputs` owes its check: if the range is accepted, printing reads nothing else. -/
def CputsSafe (s : KState) (c : CpuIdx) (e : EnvIdx) (va len : Word) : Prop :=
  Accepted s e va len → ReadsChecked (s.view c) va len

/-- For every state, environment, address and length: printing an accepted range returns and reads
    only bytes of the range exactly if the address is not null and the range contains a null
    character. -/
theorem sys_cputs_safe_iff (s : KState) (c : CpuIdx) (e : EnvIdx) (va len : Word) :
    CputsSafe s c e va len ↔
      (Accepted s e va len → va ≠ 0 ∧ Terminated (s.view c) va len) :=
  imp_congr_right fun _ => readsChecked_iff

/-- The last 16 bytes of the page are accepted, and printing them runs into the next page. -/
theorem sys_cputs_reads_past_end : Accepted onePage 0 0x800FF0 16 ∧
    ¬ CputsSafe onePage 0 0 0x800FF0 16 ∧
    Kern.cputs (onePage.view 0) 0x800FF0 16 = .error .pageFault := by
  have hacc : Accepted onePage 0 0x800FF0 16 := rfl
  refine ⟨hacc, fun hsafe => ?_, rfl⟩
  obtain ⟨-, k, hk, hz, -⟩ := readsChecked_iff.mp (hsafe hacc)
  have hletter : ∀ k < 16, onePage.view 0 (0x800FF0 + BitVec.ofNat 32 k) = some 0x61 := by decide
  rw [hletter k hk] at hz
  exact absurd hz (by decide)

end Jos
