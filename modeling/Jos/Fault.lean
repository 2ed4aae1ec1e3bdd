import Jos.Entry
import Jos.MemCheck
import Jos.Upcall
import Jos.BootInv

/-!
  User page faults: where `page_fault_handler` pushes the frame, and when it gives up.

  The frame and a word of scratch space go below the trap-time `esp` if that lies on the exception
  stack, and to the top of the exception stack otherwise. All of it must be writable by the user. -/

namespace Jos

open Lib RefCount

/-- The frame for a fault at `esp`, and the scratch word above it, are writable by the user. -/
def FrameFits (s : KState) (d : Nat) (esp : Word) : Prop :=
  ∀ n, (utfAddr esp).toNat ≤ n → n < (utfAddr esp).toNat + 56 → Allowed s d (pteU ||| pteW) n

/-- The frame was pushed and the upcall runs on it: `t` is the state in which the CPU leaves the
    kernel. The frame is placed as documented, and no byte outside it was written. -/
structure Pushed (s t : KState) (c : CpuIdx) (cur : EnvIdx) (tf : Trapframe) : Prop where
  runs : (t.cpus c).mode = .user ∧ t.curenv c = some cur
  entry : (t.envs cur).envTf =
    { tf with tfEip := (s.envs cur).envPgfaultUpcall, tfEsp := utfAddr tf.tfEsp }
  writes : ∀ f off, off < 4096 → (t.mem f).byte off ≠ (s.mem f).byte off →
    ∃ a : Word, (utfAddr tf.tfEsp).toNat ≤ a.toNat ∧ a.toNat < (utfAddr tf.tfEsp).toNat + 52 ∧
      walk s.mem (s.cr3 c) (pgnum a) = some f ∧ pgoff a = off
  below : InEx tf.tfEsp → (utfAddr tf.tfEsp).toNat + 56 ≤ tf.tfEsp.toNat
  top : ¬ InEx tf.tfEsp → (utfAddr tf.tfEsp).toNat + 56 = uxstacktop.toNat

/-- The documented behaviour of a page fault of user code in `cur`, which has an upcall. An
    environment that was marked for destruction is freed on this trap like on any other. -/
structure FaultSafe (s : KState) (c : CpuIdx) (cur : EnvIdx) (inp : Input) (tf : Trapframe) :
    Prop where
  marked : (s.envs cur).envStatus = .dying → Killed s c cur (trap c inp tf s)
  pushed : (s.envs cur).envStatus ≠ .dying → FrameFits s (s.cr3 c) tf.tfEsp →
    ∃ t, trap c inp tf s = .error .leave t ∧ Pushed s t c cur tf
  refused : (s.envs cur).envStatus ≠ .dying → ¬ FrameFits s (s.cr3 c) tf.tfEsp →
    Killed s c cur (trap c inp tf s)

/-! ### Bytes -/

theorem ff_getLsbD (m : Nat) : (0xFF : Word).getLsbD m = decide (m < 8) := by
  have h : (0xFF : Word) = (BitVec.allOnes 8).setWidth 32 := by decide
  rw [h, BitVec.getLsbD_setWidth, BitVec.getLsbD_allOnes]
  by_cases hm : m < 8
  · simp [hm]
    omega
  · simp [hm]

/-- Bit `n` of byte `j`, after byte `k` was replaced. -/
theorem byteOf_withByte_bit (w : Word) {k j n : Nat} (hj : j < 4) (hn : n < 8) (b : Byte) :
    (byteOf (withByte w k b) j).getLsbD n =
      if j = k then b.getLsbD n else w.getLsbD (8 * j + n) := by
  have h32 : 8 * j + n < 32 := by omega
  unfold byteOf withByte
  rw [BitVec.getLsbD_extractLsb', BitVec.getLsbD_or, BitVec.getLsbD_and, BitVec.getLsbD_not,
    BitVec.getLsbD_shiftLeft, BitVec.getLsbD_shiftLeft, ff_getLsbD]
  rcases lt_trichotomy j k with hlt | rfl | hlt
  · have h1 : 8 * j + n < 8 * k := by omega
    rw [if_neg (by omega)]
    simp [hn, h32, h1]
  · have h1 : ¬ 8 * j + n < 8 * j := by omega
    have h2 : 8 * j + n - 8 * j = n := by omega
    rw [if_pos rfl]
    simp [hn, h32, h1, h2]
    omega
  · have h1 : ¬ 8 * j + n < 8 * k := by omega
    have h2 : ¬ 8 * j + n - 8 * k < 8 := by omega
    have h3 : b.getLsbD (8 * j + n - 8 * k) = false := BitVec.getLsbD_of_ge _ _ (by omega)
    rw [if_neg (by omega)]
    simp [hn, h32, h1, h2, h3]

theorem byteOf_withByte (w : Word) {k j : Nat} (hj : j < 4) (b : Byte) :
    byteOf (withByte w k b) j = if j = k then b else byteOf w j := by
  refine BitVec.eq_of_getLsbD_eq fun n hn => ?_
  rw [byteOf_withByte_bit w hj hn]
  split
  · rfl
  · unfold byteOf
    rw [BitVec.getLsbD_extractLsb']
    simp [hn]

/-- Replacing a byte of a page changes no other byte. -/
theorem Page.byte_setByte (p : Page) {off o : Nat} (hoff : off < 4096) (ho : o < 4096) (b : Byte) :
    (p.setByte off b).byte o = if o = off then b else p.byte o := by
  unfold Page.setByte Page.byte
  by_cases hw : o / 4 = off / 4
  · rw [hw, Function.update_self, byteOf_withByte _ (Nat.mod_lt _ (by decide))]
    have hiff : o % 4 = off % 4 ↔ o = off := by omega
    simp only [hiff]
  · have hne : (Fin.ofNat 1024 (o / 4) : Idx) ≠ Fin.ofNat 1024 (off / 4) := by
      intro he
      have := congrArg Fin.val he
      simp only [Fin.val_ofNat] at this
      omega
    rw [Function.update_of_ne hne, if_neg (by rintro rfl; exact hw rfl)]

section

variable {c : CpuIdx} {cur : EnvIdx} {s : KState} {L : List Nat} {d : Nat}

theorem pgoff_lt (a : Word) : pgoff a < 4096 := Nat.mod_lt _ (by decide)

theorem toNat_add_ofNat {va : Word} {k : Nat} (h : va.toNat + k < 2 ^ 32) :
    (va + BitVec.ofNat 32 k).toNat = va.toNat + k := by
  rw [BitVec.toNat_add, BitVec.toNat_ofNat, Nat.mod_eq_of_lt (by omega : k < 2 ^ 32),
    Nat.mod_eq_of_lt h]

/-- The frame behind a user address, as the slots have it. -/
theorem walk_user (hd : (s.envs cur).envPgdir = some d) {a : Word} (ha : a < utop) :
    walk s.mem d (pgnum a) = target s (.pte cur (pdx a) (ptx a)) := by
  rw [pgnum_eq, walk_eq hd (pdx_lt_utopPdx.mpr ha)]

/-- Bytes stored on mapped user pages: only they change. The induction is on the bytes; stores
    never hit a page table, so all later addresses lead where they led before. -/
theorem storeBytes_run : ∀ (bs : List Byte) (va : Word) {s : KState}, PageInv s L ∅ →
    (s.envs cur).envPgdir = some (s.cr3 c) → va.toNat + bs.length ≤ utop.toNat →
    (∀ k, k < bs.length → walk s.mem (s.cr3 c) (pgnum (va + BitVec.ofNat 32 k)) ≠ none) →
    ∃ t, storeBytes c va bs s = .ok () t ∧ PmOnly s t ∧
      ∀ f off, off < 4096 → (t.mem f).byte off ≠ (s.mem f).byte off → ∃ k, k < bs.length ∧
        walk s.mem (s.cr3 c) (pgnum (va + BitVec.ofNat 32 k)) = some f ∧
        pgoff (va + BitVec.ofNat 32 k) = off
  | [], va, s, _, _, _, _ => ⟨s, rfl, .refl s, fun f off _ hne => absurd rfl hne⟩
  | b :: bs, va, s, h, hd, hle, hw => by
    have hutop : utop.toNat < 2 ^ 32 := utop.isLt
    rw [List.length_cons] at hle hw
    have hz : va + BitVec.ofNat 32 0 = va := BitVec.add_zero va
    obtain ⟨f, hf⟩ := Option.ne_none_iff_exists'.mp (hw 0 (Nat.succ_pos _))
    rw [hz] at hf
    have hbelow : ∀ k, k < bs.length + 1 → va + BitVec.ofNat 32 k < utop := by
      intro k hk
      rw [BitVec.lt_def, toNat_add_ofNat (by omega)]
      omega
    have hva : va < utop := by
      have := hbelow 0 (Nat.succ_pos _)
      rwa [hz] at this
    have hnt : NotTable s f := h.notTable_of_pte (walk_user hd hva ▸ hf)
    set s' := s.setFrame f ((s.mem f).setByte (pgoff va) b) with hs'
    have hsame : ∀ k, k < bs.length + 1 → walk s'.mem (s'.cr3 c) (pgnum (va + BitVec.ofNat 32 k))
        = walk s.mem (s.cr3 c) (pgnum (va + BitVec.ofNat 32 k)) := by
      intro k hk
      have hd' : (s'.envs cur).envPgdir = some (s'.cr3 c) := hd
      rw [walk_user hd (hbelow k hk), walk_user hd' (hbelow k hk), hs', hnt.target_setFrame]
    have hnext : ∀ k, va + 1 + BitVec.ofNat 32 k = va + BitVec.ofNat 32 (k + 1) := by
      intro k
      rw [Nat.add_comm k 1, BitVec.ofNat_add, ← BitVec.add_assoc]
      rfl
    have hva1 : (va + 1).toNat = va.toNat + 1 := toNat_add_ofNat (k := 1) (by omega)
    obtain ⟨t, hrun, hpm, hfoot⟩ := storeBytes_run bs (va + 1) (s := s')
      (h.setFrame hnt _) hd (by omega) (fun k hk => by
        rw [hnext, hsame _ (by omega)]
        exact hw _ (by omega))
    refine ⟨t, ?_, (PmOnly.setFrame s f _).trans hpm, fun g off hoff hne => ?_⟩
    · have hstore : storeByte c va b s = .ok () s' := by
        simp only [storeByte, run_bind, run_get, hf, run_set]
        rfl
      simp only [storeBytes, run_bind, hstore]
      exact hrun
    · by_cases hlast : (t.mem g).byte off = (s'.mem g).byte off
      · -- the first byte changed
        rw [hlast] at hne
        have hgf : g = f := by
          by_contra hgf
          rw [hs', KState.setFrame_mem, Function.update_of_ne hgf] at hne
          exact hne rfl
        subst hgf
        rw [hs', KState.setFrame_mem, Function.update_self,
          Page.byte_setByte _ (pgoff_lt va) hoff] at hne
        refine ⟨0, Nat.succ_pos _, by rw [hz]; exact hf, ?_⟩
        rw [hz]
        by_contra hx
        rw [if_neg fun e => hx e.symm] at hne
        exact hne rfl
      · obtain ⟨k, hk, hk1, hk2⟩ := hfoot g off hoff hlast
        rw [hnext] at hk1 hk2
        rw [hsame _ (by omega)] at hk1
        exact ⟨k + 1, by rw [List.length_cons]; omega, hk1, hk2⟩

/-! ### The check of the frame -/

/-- The directory of an environment names tables that exist. -/
theorem Core.dirOk (h : Core ∅ s) (hd : (s.envs cur).envPgdir = some d) : DirOk s d := by
  obtain ⟨L, hL⟩ := h.page
  refine ⟨hL.window, fun i T hT => ?_⟩
  by_cases hi : i < utopPdx
  · have htab : tabFrame s (some cur) i = some T := by
      simp only [tabFrame, Owns, if_pos hi, pdeAt, dirFrame, hd, hT]
    exact hL.tab_lt htab
  have hup := h.kern.upper cur d hd i (not_lt.mp hi)
  by_cases hu : i = uvptPdx
  · have hdM : Managed s d := hL.counted.target (.dir cur) d hd
    have hlt := hL.lt_window hdM
    have hform : page2pa d ||| pteP ||| pteU = page2pa d ||| pteU ||| pteP := by
      rw [BitVec.or_assoc, BitVec.or_comm pteP, ← BitVec.or_assoc]
    rw [hup, if_pos hu, hform, entryFrame_mk_of_lt (by omega) (by decide)] at hT
    cases hT
    exact hlt.1
  · rw [hup, if_neg hu] at hT
    have htab : tabFrame s none i = some T := by
      simp only [tabFrame, Owns, if_pos (show i ≠ uvptPdx from hu), pdeAt, dirFrame, hT]
    exact hL.tab_lt htab

theorem utf_range (esp : Word) : 4005556168 < (utfAddr esp).toNat ∧
    (utfAddr esp).toNat + 56 ≤ utop.toNat := by
  have hutop : utop.toNat = 4005560320 := by decide
  have := utfAddr_toNat esp
  have := stacktop_range esp
  omega

/-- Below `UTOP` the test of a page is exact: an entry that is not present is 0. -/
theorem badPage_of_not_allowed (h : Core ∅ s) (hd : (s.envs cur).envPgdir = some d) {perm : Word}
    (hp : perm ≠ 0) {n : Nat} (hn : n < utop.toNat) (hno : ¬ Allowed s d perm n) :
    badPage s d perm (BitVec.ofNat 32 n) = true := by
  have hutop : utop.toNat = 4005560320 := by decide
  have hu : ulim.toNat = 4018143232 := by decide
  have hlt : BitVec.ofNat 32 n < utop := by
    rw [BitVec.lt_def, BitVec.toNat_ofNat, Nat.mod_eq_of_lt (by omega)]
    exact hn
  unfold badPage
  cases hT : entryFrame (s.mem d (pdx (BitVec.ofNat 32 n))) with
  | none => rfl
  | some T =>
    have htab : tabFrame s (some cur) (pdx (BitVec.ofNat 32 n)) = some T := by
      simp only [tabFrame, Owns, if_pos (pdx_lt_utopPdx.mpr hlt), pdeAt, dirFrame, hd, hT]
    have hent := h.entries cur (pdx (BitVec.ofNat 32 n)) (ptx (BitVec.ofNat 32 n))
    unfold pteAt at hent
    rw [htab] at hent
    simp only [Bool.or_eq_true, decide_eq_true_eq]
    refine Or.inr fun hperm => hno ⟨by omega, T, hT, ?_, hperm⟩
    rcases hent with hz | ⟨f, perm', hw, hp'⟩
    · have hz' : s.entry (T, ptx (BitVec.ofNat 32 n)) = 0 := hz
      rw [hz'] at hperm
      exact absurd (hperm.symm.trans BitVec.zero_and) hp
    · have hw' : s.mem T (ptx (BitVec.ofNat 32 n)) = page2pa f ||| perm' ||| pteP := hw
      rw [hw']
      exact fun hx => present_or _ (entryFrame_eq_none.mp hx)

/-- A frame that fits lies on mapped pages. -/
theorem FrameFits.walk (hd : (s.envs cur).envPgdir = some d) {esp : Word} (h : FrameFits s d esp)
    {k : Nat} (hk : k < 52) : walk s.mem d (pgnum (utfAddr esp + BitVec.ofNat 32 k)) ≠ none := by
  have hr := utf_range esp
  have hutop : utop.toNat = 4005560320 := by decide
  have hval : (utfAddr esp + BitVec.ofNat 32 k).toNat = (utfAddr esp).toNat + k :=
    toNat_add_ofNat (by omega)
  obtain ⟨-, T, hT, hpte, -⟩ := h ((utfAddr esp).toNat + k) (by omega) (by omega)
  have ha : BitVec.ofNat 32 ((utfAddr esp).toNat + k) = utfAddr esp + BitVec.ofNat 32 k := by
    rw [← hval, BitVec.ofNat_toNat, BitVec.setWidth_eq]
  rw [ha] at hT hpte
  have hlt : utfAddr esp + BitVec.ofNat 32 k < utop := by
    rw [BitVec.lt_def, hval]
    omega
  rw [walk_user hd hlt]
  have htab : tabFrame s (some cur) (pdx (utfAddr esp + BitVec.ofNat 32 k)) = some T := by
    simp only [tabFrame, Owns, if_pos (pdx_lt_utopPdx.mpr hlt), pdeAt, dirFrame, hd, hT]
  simp only [target, pteAt, htab]
  exact hpte

/-- The check before the frame is pushed is exact. -/
theorem frame_check (h : Core ∅ s) (hd : (s.envs cur).envPgdir = some d) (esp : Word) :
    (FrameFits s d esp ∧ userMemAssert c cur (utfAddr esp)
      (BitVec.ofNat 32 (utrapframeSize + 4)) (pteU ||| pteW) s = .ok () s) ∨
    (¬ FrameFits s d esp ∧ ∃ a, userMemAssert c cur (utfAddr esp)
      (BitVec.ofNat 32 (utrapframeSize + 4)) (pteU ||| pteW) s =
        envDestroy c cur { s with userMemCheckAddr := a }) := by
  have hr := utf_range esp
  have hutop : utop.toNat = 4005560320 := by decide
  have hsz : (BitVec.ofNat 32 (utrapframeSize + 4)).toNat = 56 := by decide
  have hperm : pteU ||| pteW ||| pteU = pteU ||| pteW := by decide
  have hex : ChecksExactly s cur d (utfAddr esp) (BitVec.ofNat 32 (utrapframeSize + 4))
      (pteU ||| pteW) := (check_exact_of_le hd (h.dirOk hd) (by omega) (by omega)).mpr
    fun n hn hb => badPage_of_not_allowed h hd (by decide) (by omega) hb.2.1
  unfold ChecksExactly at hex
  rw [hsz] at hex
  rcases hex with ⟨hall, hrun⟩ | ⟨n, hn, hb, hrun⟩
  · refine Or.inl ⟨hall, ?_⟩
    simp only [userMemAssert, run_bind, hperm, hrun, run_pure]
  · refine Or.inr ⟨fun hfit => hb.2.1 (hfit n hb.1 hn), BitVec.ofNat 32 n, ?_⟩
    simp only [userMemAssert, run_bind, hperm, hrun]

/-! ### The fault -/

/-- The frame is placed as documented, but for `esp` on the lowest address of the exception stack. -/
theorem frame_placed {esp : Word} (hne : esp ≠ exEdge) :
    (InEx esp → (utfAddr esp).toNat + 56 ≤ esp.toNat) ∧
      (¬ InEx esp → (utfAddr esp).toNat + 56 = uxstacktop.toNat) := by
  refine ⟨fun hin => (utfAddr_recursive hin hne).2.le, fun hout => ?_⟩
  rw [utfAddr_toNat]
  have hno : ¬ (uxstacktop - BitVec.ofNat 32 pgsize < esp ∧ esp < uxstacktop) := by
    rintro ⟨h1, h2⟩
    exact hout ⟨BitVec.le_of_lt h1, h2⟩
  rw [stacktop, if_neg hno]

/-- On the lowest address the frame goes to the top of the stack, over what is live there. -/
theorem frame_at_edge : InEx exEdge ∧ ¬ (utfAddr exEdge).toNat + 56 ≤ exEdge.toNat := by
  unfold InEx
  decide

/-- `page_fault_handler` in the current environment, once its frame is saved. -/
theorem pageFaultHandler_run {inp : Input} {tf : Trapframe} (h : Core ∅ s) (hn : NoStale s c inp)
    (hc : s.curenv c = some cur) (hd : (s.envs cur).envPgdir = some (s.cr3 c))
    (hcs : tf.tfCs = gdUt ||| 3) (hup : (s.envs cur).envPgfaultUpcall ≠ 0)
    (htf : (s.envs cur).envTf = tf) :
    (FrameFits s (s.cr3 c) tf.tfEsp ∧ ∃ t, pageFaultHandler c inp tf s = .error .leave t ∧
      (t.cpus c).mode = .user ∧ t.curenv c = some cur ∧ (t.envs cur).envTf =
        { tf with tfEip := (s.envs cur).envPgfaultUpcall, tfEsp := utfAddr tf.tfEsp } ∧
      ∀ f off, off < 4096 → (t.mem f).byte off ≠ (s.mem f).byte off →
        ∃ a : Word, (utfAddr tf.tfEsp).toNat ≤ a.toNat ∧
          a.toNat < (utfAddr tf.tfEsp).toNat + 52 ∧
          walk s.mem (s.cr3 c) (pgnum a) = some f ∧ pgoff a = off) ∨
    (¬ FrameFits s (s.cr3 c) tf.tfEsp ∧ Killed s c cur (pageFaultHandler c inp tf s)) := by
  obtain ⟨L, hL⟩ := h.page
  have h3 : ¬ tf.tfCs &&& 3 = 0 := by
    rw [hcs]
    decide
  rcases frame_check (c := c) h hd tf.tfEsp with ⟨hfit, hrun⟩ | ⟨hno, a, hrun⟩
  · refine Or.inl ⟨hfit, ?_⟩
    have hr := utf_range tf.tfEsp
    have hutop : utop.toNat = 4005560320 := by decide
    have hlen : (wordBytes (utrapframe inp.cr2 tf)).length = 52 := by
      rw [wordBytes_length]
      rfl
    obtain ⟨u, hstore, hpm, hfoot⟩ := storeBytes_run (wordBytes (utrapframe inp.cr2 tf))
      (utfAddr tf.tfEsp) hL hd (by omega) (fun k hk => hfit.walk hd (by omega))
    have hcached : storeBytesCached c inp (utfAddr tf.tfEsp) (wordBytes (utrapframe inp.cr2 tf)) s =
        .ok () u := (storeBytesCached_eq hL hn hd (utrapframe_below _ _ _)).trans hstore
    set w := u.setEnv cur { u.envs cur with envTf := { (u.envs cur).envTf with
      tfEip := (u.envs cur).envPgfaultUpcall, tfEsp := utfAddr tf.tfEsp } } with hw
    have hwcur : w.envs cur = { u.envs cur with envTf := { (u.envs cur).envTf with
        tfEip := (u.envs cur).envPgfaultUpcall, tfEsp := utfAddr tf.tfEsp } } := by
      simp [hw, KState.setEnv]
    have hwd : (w.envs cur).envPgdir = some (s.cr3 c) := by
      rw [hwcur, hpm.envs]
      exact hd
    refine ⟨resume c cur (s.cr3 c) (preempt c w), ?_, ?_, ?_, ?_, ?_⟩
    · simp only [pageFaultHandler, run_bind, run_ite, if_neg h3, getCurenv_run hc, run_get,
        if_pos hup, hrun, hcached, run_modify, ← hw, envRun_run ⟨_, hwd, rfl⟩]
    · rw [resume_cpus, Function.update_self]
    · unfold KState.curenv
      rw [resume_cpus, Function.update_self]
    · rw [resume_envs, if_pos rfl, preempt_envs]
      split <;> simp only [hwcur, hpm.envs, htf]
    · intro f off hoff hne
      have hmem : (resume c cur (s.cr3 c) (preempt c w)).mem = u.mem :=
        resume_mem.trans preempt_alike.mem
      rw [hmem] at hne
      obtain ⟨k, hk, hk1, hk2⟩ := hfoot f off hoff hne
      have hval : (utfAddr tf.tfEsp + BitVec.ofNat 32 k).toNat = (utfAddr tf.tfEsp).toNat + k :=
        toNat_add_ofNat (by omega)
      exact ⟨_, by omega, by omega, hk1, hk2⟩
  · refine Or.inr ⟨hno, ?_⟩
    have hk : Killed s c cur (envDestroy c cur { s with userMemCheckAddr := a }) :=
      envDestroy_killed hL hd ⟨rfl, rfl, rfl, ⟨rfl, rfl, rfl, rfl, rfl⟩, rfl, fun _ => rfl,
        fun _ => rfl, fun _ => Iff.rfl⟩ hc
    have hall : pageFaultHandler c inp tf s = envDestroy c cur { s with userMemCheckAddr := a } := by
      simp only [pageFaultHandler, run_bind, run_ite, if_neg h3, getCurenv_run hc, run_get,
        if_pos hup, hrun]
      cases hx : envDestroy c cur { s with userMemCheckAddr := a } with
      | ok r t => exact absurd hx (hk.stops t)
      | error e t => rfl
    rw [hall]
    exact hk

theorem Killed.alike {u : KState} {r : EStateM.Result Stop KState Unit} (ha : Alike s u)
    (h : Killed u c cur r) : Killed s c cur r := by
  obtain ⟨v, hfree, hmem, hr⟩ := h
  refine ⟨v, hfree, fun f hf => ?_, hr⟩
  have hf' : NotTable u f := by
    unfold NotTable at hf ⊢
    rw [ha.target, ha.limits.kernPgdir]
    exact hf
  rw [hmem f hf', ha.mem]

/-- Both outcomes of a page fault of user code that is not marked for destruction. The placement of
    the frame is left open. -/
theorem trap_pgflt {inp : Input} {tf : Trapframe} (h : Core ∅ s) (hn : NoStale s c inp)
    (hc : s.curenv c = some cur) (hd : (s.envs cur).envPgdir = some (s.cr3 c))
    (hcs : tf.tfCs = gdUt ||| 3) (hk : CallersOk s c inp tf) (hno : tf.tfTrapno = tPgflt)
    (hup : (s.envs cur).envPgfaultUpcall ≠ 0)
    (hnd : (s.envs cur).envStatus ≠ .dying) :
    (FrameFits s (s.cr3 c) tf.tfEsp ∧ ∃ t, trap c inp tf s = .error .leave t ∧
      ((InEx tf.tfEsp → (utfAddr tf.tfEsp).toNat + 56 ≤ tf.tfEsp.toNat) →
        (¬ InEx tf.tfEsp → (utfAddr tf.tfEsp).toNat + 56 = uxstacktop.toNat) →
          Pushed s t c cur tf)) ∨
    (¬ FrameFits s (s.cr3 c) tf.tfEsp ∧ Killed s c cur (trap c inp tf s)) := by
  have ha : Alike s (saved c cur tf s) := saved_alike tf
  have hcur : (saved c cur tf s).envs cur = { s.envs cur with envTf := tf } := by
    simp [saved, KState.setEnv, KState.setCpu]
  have hdisp : trapDispatch c inp tf = pageFaultHandler c inp tf := by
    unfold trapDispatch
    rw [if_pos hno]
  have hrun := pageFaultHandler_run (h.alike ha)
    (hn.congr (show (saved c cur tf s).mem = s.mem from rfl) rfl rfl) ((saved_curenv tf c).trans hc)
    (by rw [hcur]; exact hd) hcs (by rw [hcur]; exact hup) (by rw [hcur])
  rw [trap_user hcs hc hk hnd, hdisp]
  rcases hrun with ⟨hfit, t, ht, hmode, hct, htf, hw⟩ | ⟨hfit, hk⟩
  · refine Or.inl ⟨hfit, t, ?_, fun h1 h2 => ⟨⟨hmode, hct⟩, ?_, hw, h1, h2⟩⟩
    · rw [bind_stops _ fun u hu => by cases ht.symm.trans hu]
      exact ht
    · rw [htf, hcur]
  · refine Or.inr ⟨hfit, ?_⟩
    rw [bind_stops _ fun u => hk.stops u]
    exact hk.alike ha

/-- A user page fault is handled as documented exactly when the kernel can follow the frame pointers
    and the lowest address of the exception stack is not the trap-time `esp` of a frame that fits. -/
theorem fault_safe_iff {inp : Input} {tf : Trapframe} (h : Core ∅ s) (hn : NoStale s c inp)
    (hc : s.curenv c = some cur) (hd : (s.envs cur).envPgdir = some (s.cr3 c))
    (hcs : tf.tfCs = gdUt ||| 3) (hno : tf.tfTrapno = tPgflt)
    (hup : (s.envs cur).envPgfaultUpcall ≠ 0) :
    FaultSafe s c cur inp tf ↔ CallersOk s c inp tf ∧ ((s.envs cur).envStatus ≠ .dying →
      tf.tfEsp = exEdge → ¬ FrameFits s (s.cr3 c) tf.tfEsp) := by
  obtain ⟨L, hL⟩ := h.page
  constructor
  · intro hsafe
    refine ⟨?_, fun hnd hedge hfit => ?_⟩
    · by_contra hk
      have hp := trap_faults hcs hc hk
      have hno : ¬ Killed s c cur (trap c inp tf s) := by
        rw [hp]
        exact Killed.ne_panic hc (curenv_started rfl)
      by_cases hdy : (s.envs cur).envStatus = .dying
      · exact hno (hsafe.marked hdy)
      · by_cases hfit : FrameFits s (s.cr3 c) tf.tfEsp
        · obtain ⟨t, ht, -⟩ := hsafe.pushed hdy hfit
          cases hp.symm.trans ht
        · exact hno (hsafe.refused hdy hfit)
    · obtain ⟨t, -, hp⟩ := hsafe.pushed hnd hfit
      obtain ⟨hin, hbad⟩ := frame_at_edge
      have hbelow := hp.below
      rw [hedge] at hbelow
      exact hbad (hbelow hin)
  · rintro ⟨hk, hok⟩
    refine ⟨fun hdy => trap_marked hL hd hcs hc hk hdy, fun hnd hfit => ?_, fun hnd hfit => ?_⟩
    · rcases trap_pgflt h hn hc hd hcs hk hno hup hnd with ⟨-, t, ht, hp⟩ | ⟨hx, -⟩
      · obtain ⟨h1, h2⟩ := frame_placed fun he => hok hnd he hfit
        exact ⟨t, ht, hp h1 h2⟩
      · exact absurd hfit hx
    · rcases trap_pgflt h hn hc hd hcs hk hno hup hnd with ⟨hx, -⟩ | ⟨-, hk⟩
      · exact absurd hx hfit
      · exact hk

end

/-- A fault with the stack pointer on the lowest address of the exception stack. -/
def edgeFault : Trapframe := { Trapframe.zero with
  tfTrapno := tPgflt, tfCs := gdUt ||| 3, tfEsp := exEdge }

/-- A page mapped for the user at the exception stack makes a frame fit there. -/
theorem frameFits_edge {f : Nat} (hd : (s.envs cur).envPgdir = some d)
    (hw : pteAt s (some cur) (pdx exEdge) (ptx exEdge) = page2pa f ||| 7 ||| pteP) :
    FrameFits s d exEdge := by
  have hlow : exEdge.toNat = 4005556224 := by decide
  have hutf : (utfAddr exEdge).toNat = 4005560264 := by decide
  have hu : ulim.toNat = 4018143232 := by decide
  have hi : pdx exEdge < utopPdx := by decide
  intro n h1 h2
  have hn : (BitVec.ofNat 32 n).toNat = n := by
    rw [BitVec.toNat_ofNat, Nat.mod_eq_of_lt (by omega)]
  obtain ⟨hp, ht⟩ := same_page (show (BitVec.ofNat 32 n).toNat / 4096 = exEdge.toNat / 4096 by
    rw [hn]
    omega)
  refine ⟨by omega, ?_⟩
  rw [hp, ht]
  have hpres : page2pa f ||| 7 ||| pteP ≠ 0 := fun h0 => present_or _ (by rw [h0]; rfl)
  have hmask : (page2pa f ||| 7 ||| pteP) &&& (pteU ||| pteW) = pteU ||| pteW := by
    have hform : page2pa f ||| 7 ||| pteP = page2pa f ||| 1 ||| (pteU ||| pteW) := by
      rw [BitVec.or_assoc, BitVec.or_assoc]
      rfl
    rw [hform]
    ext i
    simp only [BitVec.getElem_and, BitVec.getElem_or]
    cases pteU[i] <;> cases pteW[i] <;> simp
  cases hT : entryFrame (s.mem d (pdx exEdge)) with
  | none =>
    have htab : tabFrame s (some cur) (pdx exEdge) = none := by
      simp only [tabFrame, Owns, if_pos hi, pdeAt, dirFrame, hd, hT]
    rw [pteAt, htab] at hw
    exact absurd hw.symm hpres
  | some T =>
    have htab : tabFrame s (some cur) (pdx exEdge) = some T := by
      simp only [tabFrame, Owns, if_pos hi, pdeAt, dirFrame, hd, hT]
    rw [pteAt_of_tab htab] at hw
    refine ⟨T, rfl, ?_, ?_⟩
    · rw [hw]
      exact fun hx => present_or _ (entryFrame_eq_none.mp hx)
    · rw [hw, hmask]

/-- The demonstration machine once its first program has an upcall and an exception stack. -/
theorem demo_exception_stack : ∃ s, Core ∅ s ∧ s.curenv 1 = some 0 ∧
    (s.envs 0).envPgdir = some (s.cr3 1) ∧ (s.envs 0).envPgfaultUpcall ≠ 0 ∧
    (s.envs 0).envStatus ≠ .dying ∧ FrameFits s (s.cr3 1) exEdge := by
  obtain ⟨s, L, -, hb, hL, hlen⟩ := demo_boots
  obtain ⟨e, he, hd⟩ := (hb.inv.cpus 1).running hb.bsp.1
  obtain rfl : 0 = e := Option.some.inj (hb.bsp.2.symm.trans he)
  obtain ⟨v, -, h0⟩ := hb.first
  have hmid : Mid False 1 ∅ s :=
    ⟨hb.inv.core, fun k _ => ⟨(hb.inv.cpus k).running, fun hf => hf.elim⟩⟩
  rcases hmid.pageAlloc true with ⟨hnil, -⟩ | ⟨f, m, -, hm, ho, -, hM, h00, -, -, -, L', hL', hLm⟩
  · rw [hL.unique hnil] at hlen
    simp at hlen
  have hmem : f ∈ ({f} : Finset Nat) := Finset.mem_singleton_self f
  have hdm : (m.envs 0).envPgdir = some (s.cr3 1) := by
    rw [ho.envs]
    exact hd
  have hfree : ∀ L, PageInv m L {f} → f ∉ L := fun L₁ h₁ hx =>
    ((h₁.counted.free_iff f hM).mp hx).2 hmem
  rcases hm.pageInsert hdm (show pdx exEdge < utopPdx by decide) hM hfree
    (hLm.notTable_of_held hmem) (show (7 : Word) &&& ~~~pteSyscall = 0 by decide)
    (Or.inl (by rw [h00]; decide)) (fun hf => hf.elim) with ⟨hnil, -⟩ | ⟨t, -, htm, hmap⟩
  · rw [hL.unique hL', hLm.unique hnil] at hlen
    simp at hlen
  rw [Finset.erase_singleton] at htm
  have henvs : t.envs = s.envs := hmap.edit.only.envs.trans ho.envs
  have hcr3 : t.cr3 = s.cr3 := hmap.edit.only.cr3.trans ho.cr3
  have hcur : t.curenv = s.curenv := hmap.edit.only.curenv.trans ho.curenv
  have ha : Alike t (t.setEnv 0 { t.envs 0 with envPgfaultUpcall := 0x800020 }) :=
    Alike.setEnv rfl rfl Iff.rfl
  have hdt : ((t.setEnv 0 { t.envs 0 with envPgfaultUpcall := 0x800020 }).envs 0).envPgdir =
      some (t.cr3 1) := by
    rw [ha.dir, henvs, hcr3]
    exact hd
  refine ⟨t.setEnv 0 { t.envs 0 with envPgfaultUpcall := 0x800020 }, htm.core.alike ha, ?_, hdt, ?_,
    ?_, ?_⟩
  · exact (congrFun hcur 1).trans hb.bsp.2
  · show (0x800020 : Word) ≠ 0
    decide
  · show (t.envs 0).envStatus ≠ .dying
    rw [henvs, h0]
    simp
  · refine frameFits_edge (f := f) hdt ?_
    rw [ha.tables.2]
    exact hmap.entry

/-- Its first fault, from the normal stack, is handled as documented. -/
theorem fault_safe_iff_demo : ∃ s, Core ∅ s ∧ (s.envs 0).envPgfaultUpcall ≠ 0 ∧
    FrameFits s (s.cr3 1) exEdge ∧
    FaultSafe s 1 0 .plain { edgeFault with tfEsp := ustacktop - 16 } := by
  obtain ⟨s, h, hc, hd, hup, -, hfit⟩ := demo_exception_stack
  have hn : NoStale s 1 .plain := fun v f hv => (by cases hv)
  refine ⟨s, h, hup, hfit, (fault_safe_iff h hn hc hd rfl rfl hup).mpr
    ⟨.of_lt (by decide), fun _ he => absurd he (by decide)⟩⟩

/-- There the frame goes to the top of the stack, over data that is in use. -/
theorem fault_overwrites_exception_stack : ¬ ∀ (s : KState) (c : CpuIdx) (cur : EnvIdx)
    (inp : Input) (tf : Trapframe), Core ∅ s → NoStale s c inp → s.curenv c = some cur →
    (s.envs cur).envPgdir = some (s.cr3 c) → tf.tfCs = gdUt ||| 3 → tf.tfTrapno = tPgflt →
    (s.envs cur).envPgfaultUpcall ≠ 0 → FaultSafe s c cur inp tf := by
  intro hall
  obtain ⟨s, h, hc, hd, hup, hnd, hfit⟩ := demo_exception_stack
  have hn : NoStale s 1 .plain := fun v f hv => (by cases hv)
  obtain ⟨t, -, hp⟩ := (hall s 1 0 .plain edgeFault h hn hc hd rfl rfl hup).pushed hnd hfit
  obtain ⟨hin, hbad⟩ := frame_at_edge
  exact hbad (hp.below hin)

end Jos
