import Jos.SyscallInv

/-!
  Every safe step of the system keeps the invariant. -/

namespace Jos

open Lib RefCount

/-- The CPU is no longer halted. -/
def started (c : CpuIdx) (s : KState) : KState := s.setCpu c { s.cpus c with cpuStatus := .started }

/-- The state in which a trap from user mode is dispatched: its frame is saved in `cur`. -/
def saved (c : CpuIdx) (cur : EnvIdx) (tf : Trapframe) (s : KState) : KState :=
  (s.setCpu c { s.cpus c with cpuStatus := .started }).setEnv cur { s.envs cur with envTf := tf }

/-- A trap is safe: no other CPU runs the same environment, and a system call is safe. -/
def TrapSafe (T : Prop) (s : KState) (c : CpuIdx) (tf : Trapframe) : Prop :=
  ∀ cur, (s.cpus c).mode = .user → s.curenv c = some cur →
    ¬ Elsewhere s c cur ∧ ((s.envs cur).envStatus ≠ .dying → tf.tfTrapno = tSyscall →
      (Call.ofTf tf).Safe (saved c cur tf s) cur T c)

/-- The cached translations through which the kernel writes in a trap are what the tables say. -/
def NoStale (s : KState) (c : CpuIdx) (inp : Input) : Prop :=
  ∀ v f, inp.cached v = some f → s.cachedWrite c v f = true → walk s.mem (s.cr3 c) v = some f

/-- The CPU goes through no translation that its tables do not say any more. -/
def Current (s : KState) (c : CpuIdx) : Event → Prop
  | .trap inp _ => NoStale s c inp
  | .store va _ via => ∀ f, via = some f → s.cachedWrite c (pgnum va) f = true →
      userAccess s c userWrite va = some f
  | .start => True

/-- The steps that stay clear of the kernel's unguarded cases. Where the cached translations are not
    tracked, that includes that the CPU does not go through an outdated one. -/
def StepSafe (T : Prop) (s : KState) (l : CpuIdx × Event) : Prop :=
  (T ∨ Current s l.1 l.2) ∧
    match l.2 with
    | .trap _ tf => TrapSafe T s l.1 tf
    | _ => True

/-- `get_caller_pcs` reads the word at `va` without a page fault. -/
def Readable (s : KState) (c : CpuIdx) (inp : Input) (va : Word) : Prop :=
  readFrame s c inp va ≠ none ∧ readFrame s c inp (va + 3) ≠ none

instance (s : KState) (c : CpuIdx) (inp : Input) (va : Word) : Decidable (Readable s c inp va) :=
  inferInstanceAs (Decidable (_ ∧ _))

/-- The frame pointers from `ebp` on that `get_caller_pcs` follows within `n` rounds lead to words
    that can be read. -/
def CallersReadable (s : KState) (c : CpuIdx) (inp : Input) : Nat → Word → Prop
  | 0, _ => True
  | n + 1, ebp => ebp < ulim ∨ Readable s c inp (ebp + 4) ∧ Readable s c inp ebp ∧
      CallersReadable s c inp n (inp.savedEbp ebp)

instance (s : KState) (c : CpuIdx) (inp : Input) : ∀ (n : Nat) (ebp : Word),
    Decidable (CallersReadable s c inp n ebp)
  | 0, _ => inferInstanceAs (Decidable True)
  | n + 1, ebp =>
    have := instDecidableCallersReadable s c inp n (inp.savedEbp ebp)
    inferInstanceAs (Decidable (ebp < ulim ∨ Readable s c inp (ebp + 4) ∧ Readable s c inp ebp ∧
      CallersReadable s c inp n (inp.savedEbp ebp)))

/-- Taking the lock in a trap from user code does not fault on the `%ebp` that user code left. -/
def CallersOk (s : KState) (c : CpuIdx) (inp : Input) (tf : Trapframe) : Prop :=
  CallersReadable s c inp inp.callers tf.tfRegs.regEbp

instance (s : KState) (c : CpuIdx) (inp : Input) (tf : Trapframe) :
    Decidable (CallersOk s c inp tf) := inferInstanceAs (Decidable (CallersReadable _ _ _ _ _))

section

variable {T : Prop} {c : CpuIdx} {cur : EnvIdx} {s : KState} {R : KState → Prop}

theorem saved_curenv (tf : Trapframe) (k : CpuIdx) :
    (saved c cur tf s).curenv k = s.curenv k := by
  by_cases hk : k = c
  · subst hk; simp [saved, KState.curenv, KState.setEnv, KState.setCpu]
  · simp [saved, KState.curenv, KState.setEnv, KState.setCpu, hk]

theorem saved_mode (tf : Trapframe) (k : CpuIdx) :
    ((saved c cur tf s).cpus k).mode = (s.cpus k).mode := by
  by_cases hk : k = c
  · subst hk; simp [saved, KState.setEnv, KState.setCpu]
  · simp [saved, KState.setEnv, KState.setCpu, hk]

theorem elsewhere_saved (tf : Trapframe) (e : EnvIdx) :
    Elsewhere (saved c cur tf s) c e ↔ Elsewhere s c e := by
  simp only [Elsewhere, saved_curenv, saved_mode]

/-! ### The record of the lock's callers -/

/-- Which frame pointers can be followed depends on memory and on what the CPU has loaded and
    cached. -/
theorem CallersReadable.congr {t : KState} {inp : Input} (hm : t.mem = s.mem)
    (hr : t.cr3 c = s.cr3 c) (ht : t.tlb c = s.tlb c) : ∀ {n : Nat} {ebp : Word},
    CallersReadable s c inp n ebp → CallersReadable t c inp n ebp
  | 0, _, _ => trivial
  | n + 1, ebp, h => by
    have hread : ∀ va, Readable t c inp va ↔ Readable s c inp va := fun va => by
      simp only [Readable, readFrame, hm, hr, ht]
    simp only [CallersReadable, hread] at h ⊢
    exact h.imp id fun h => ⟨h.1, h.2.1, h.2.2.congr hm hr ht⟩

theorem readWord_run {inp : Input} {va : Word} (h : Readable s c inp va) :
    readWord c inp va s = .ok (inp.savedEbp va) s := by
  have hn : ¬ (readFrame s c inp va = none ∨ readFrame s c inp (va + 3) = none) := by
    rintro (h' | h')
    · exact h.1 h'
    · exact h.2 h'
  simp only [readWord, run_bind, run_get, run_ite, if_neg hn, run_pure]

theorem readWord_faults {inp : Input} {va : Word} (h : ¬ Readable s c inp va) :
    readWord c inp va s = .error .panic s := by
  have hn : readFrame s c inp va = none ∨ readFrame s c inp (va + 3) = none := by
    by_contra hx
    exact h (not_or.mp hx)
  simp only [readWord, run_bind, run_get, run_ite, if_pos hn]
  rfl

/-- Where the frame pointers can be followed, recording the callers changes nothing. -/
theorem getCallerPcs_run {inp : Input} : ∀ {n : Nat} {ebp : Word},
    CallersReadable s c inp n ebp → getCallerPcs c inp n ebp s = .ok () s
  | 0, _, _ => rfl
  | n + 1, ebp, h => by
    unfold getCallerPcs
    by_cases hu : ebp < ulim
    · rw [if_pos hu]; rfl
    · obtain ⟨h4, h0, hn⟩ := h.resolve_left hu
      rw [if_neg hu, run_bind_ok (readWord_run h4), run_bind_ok (readWord_run h0)]
      exact getCallerPcs_run hn

/-- Otherwise the kernel takes a page fault, which it does not survive. -/
theorem getCallerPcs_faults {inp : Input} : ∀ {n : Nat} {ebp : Word},
    ¬ CallersReadable s c inp n ebp → getCallerPcs c inp n ebp s = .error .panic s
  | 0, _, h => absurd trivial h
  | n + 1, ebp, h => by
    obtain ⟨hu, h⟩ := not_or.mp h
    unfold getCallerPcs
    rw [if_neg hu]
    by_cases h4 : Readable s c inp (ebp + 4)
    · rw [run_bind_ok (readWord_run h4)]
      by_cases h0 : Readable s c inp ebp
      · rw [run_bind_ok (readWord_run h0)]
        exact getCallerPcs_faults fun hn => h ⟨h4, h0, hn⟩
      · rw [run_bind, readWord_faults h0]
    · rw [run_bind, readWord_faults h4]

/-- A frame pointer below `ULIM` is not followed. -/
theorem CallersOk.of_lt {inp : Input} {tf : Trapframe} (h : tf.tfRegs.regEbp < ulim) :
    CallersOk s c inp tf := by
  unfold CallersOk
  cases inp.callers with
  | zero => trivial
  | succ n => exact .inl h

theorem getCallerPcs_wp {Q : Unit → KState → Prop} {R : Stop → KState → Prop} {inp : Input} {n : Nat}
    {ebp : Word} (hR : R .panic s) (hQ : CallersReadable s c inp n ebp → Q () s) :
    wp (getCallerPcs c inp n ebp) Q R s := by
  by_cases h : CallersReadable s c inp n ebp
  · exact (wp_ok (getCallerPcs_run h)).mpr (hQ h)
  · exact (wp_error (getCallerPcs_faults h)).mpr hR

/-! ### Writes through cached translations -/

theorem viaTlb_of_current {cache : Nat → Nat → Bool} {via tables : Option Nat} {v : Nat}
    (h : ∀ f, via = some f → cache v f = true → tables = some f) :
    viaTlb cache via v tables = tables := by
  cases via with
  | none => rfl
  | some f =>
    show (if cache v f then some f else tables) = tables
    split
    · rename_i hf; exact (h f rfl hf).symm
    · rfl

/-- An access goes where the tables say, or where a cached translation does. -/
theorem viaTlb_cases {cache : Nat → Nat → Bool} {via tables : Option Nat} {v f : Nat}
    (h : viaTlb cache via v tables = some f) : tables = some f ∨ cache v f = true := by
  cases via with
  | none => exact Or.inl h
  | some g =>
    by_cases hg : cache v g = true
    · rw [viaTlb, if_pos hg] at h
      cases h
      exact Or.inr hg
    · rw [viaTlb, if_neg hg] at h
      exact Or.inl h

theorem writeFrame_eq {inp : Input} (h : NoStale s c inp) (v : Nat) :
    writeFrame s c inp v = walk s.mem (s.cr3 c) v :=
  viaTlb_of_current (h v)

theorem cachedWrite_eq_true {v f : Nat} : s.cachedWrite c v f = true ↔
    v < pgnum utop ∧ s.tlb c v f = true ∧ (s.tlb c).writes v f = true := by
  simp [KState.cachedWrite, and_assoc]

theorem pdx_lt_of_pgnum {va : Word} (h : pgnum va < pgnum utop) : pdx va < utopPdx := by
  have hutop : pgnum utop = utopPdx.val * 1024 := by decide
  rw [pgnum_eq, hutop] at h
  rw [Fin.lt_def]
  omega

theorem user_page {v : Nat} (hv : v < pgnum utop) :
    ∃ i j : Idx, i < utopPdx ∧ i.val * 1024 + j.val = v := by
  have hutop : pgnum utop = utopPdx.val * 1024 := by decide
  have hlt : v / 1024 < utopPdx.val := by omega
  exact ⟨⟨v / 1024, hlt.trans utopPdx.isLt⟩, ⟨v % 1024, Nat.mod_lt _ (by decide)⟩, hlt,
    Nat.div_add_mod' v 1024⟩

/-- Nothing below `UTOP` that a CPU in user mode has cached is outdated. -/
theorem CpuOk.cached {v f : Nat} (h : CpuOk T s c) (hT : T) (hu : (s.cpus c).mode = .user)
    (hv : v < pgnum utop) (hf : s.tlb c v f = true) : walk s.mem (s.cr3 c) v = some f := by
  obtain ⟨e, -, hd⟩ := h.running hu
  obtain ⟨i, j, hi, rfl⟩ := user_page hv
  rw [walk_eq hd hi]
  exact h.fresh hT hu e hd i j f hi hf

/-- Where user code may write, the kernel finds the same frame. -/
theorem walk_of_writeWalk {mem : Nat → Page} {pd v f : Nat} (h : writeWalk mem pd v = some f) :
    walk mem pd v = some f := by
  have present : ∀ w : Word, w &&& userWrite = userWrite → entryFrame w = some (pgnum w) := by
    intro w hw
    refine entryFrame_of_present fun h0 => ?_
    have : userWrite &&& pteP = 0 := by
      rw [← hw, BitVec.and_assoc, BitVec.and_comm userWrite, ← BitVec.and_assoc, h0]; simp
    exact absurd this (by decide)
  simp only [writeWalk, userWalk] at h
  split at h
  case isFalse => cases h
  rename_i hacc
  rw [walk, present _ hacc.1, Option.bind_some, present _ hacc.2]
  exact h

/-- A trap meets no outdated translation, because nothing cached is outdated or because it goes
    through none. -/
theorem NoStale.of_safe {inp : Input} {tf : Trapframe} (h : CpuOk T s c)
    (hu : (s.cpus c).mode = .user) (hs : T ∨ Current s c (.trap inp tf)) : NoStale s c inp := by
  rcases hs with hT | hs
  · intro v f _ hf
    obtain ⟨hv, ht, -⟩ := cachedWrite_eq_true.mp hf
    exact h.cached hT hu hv ht
  · exact hs

theorem NoStale.congr {t : KState} {inp : Input} (h : NoStale s c inp) (hm : t.mem = s.mem)
    (hr : t.cr3 c = s.cr3 c) (ht : t.tlb c = s.tlb c) : NoStale t c inp := by
  intro v f hv hf
  rw [hm, hr]
  refine h v f hv ?_
  simpa only [KState.cachedWrite, ht] using hf

/-- Writing a page that is no table leaves what the tables say of user pages alone. -/
theorem walk_setFrame {f v : Nat} {p : Page} {d : Nat} (hd : (s.envs cur).envPgdir = some d)
    (hnt : NotTable s f) (hv : v < pgnum utop) : walk (s.setFrame f p).mem d v = walk s.mem d v := by
  obtain ⟨i, j, hi, rfl⟩ := user_page hv
  rw [walk_eq (s := s.setFrame f p) hd hi, walk_eq hd hi, hnt.target_setFrame]

theorem NoStale.setFrame {inp : Input} {f : Nat} {p : Page} (h : NoStale s c inp)
    (hd : (s.envs cur).envPgdir = some (s.cr3 c)) (hnt : NotTable s f) :
    NoStale (s.setFrame f p) c inp := by
  intro v g hv hg
  obtain ⟨hlt, hmaps, hwrites⟩ := cachedWrite_eq_true.mp hg
  have hm : s.tlb c v g = true ∨ walk (s.setFrame f p).mem (s.cr3 c) v = some g := by
    simpa [KState.setFrame, KState.fill] using hmaps
  have hw : (s.tlb c).writes v g = true ∨ writeWalk (s.setFrame f p).mem (s.cr3 c) v = some g := by
    simpa [KState.setFrame, KState.fill] using hwrites
  -- what was cached meanwhile is what the tables say now
  rcases hm with hm | hm
  · rcases hw with hw | hw
    · rw [KState.setFrame_cr3, walk_setFrame hd hnt hlt]
      exact h v g hv (cachedWrite_eq_true.mpr ⟨hlt, hm, hw⟩)
    · exact walk_of_writeWalk hw
  · exact hm

/-- Where no outdated translation is met, the bytes go where the tables say. -/
theorem storeBytesCached_eq {inp : Input} : ∀ {bs : List Byte} {va : Word} {s : KState} {L : List Nat},
    PageInv s L ∅ → NoStale s c inp → (s.envs cur).envPgdir = some (s.cr3 c) →
    va.toNat + bs.length ≤ utop.toNat → storeBytesCached c inp va bs s = storeBytes c va bs s
  | [], _, _, _, _, _, _, _ => rfl
  | b :: bs, va, s, L, h, hn, hd, hle => by
    have hutop : utop.toNat = 955 * 4194304 := by decide
    rw [List.length_cons] at hle
    have hi : pdx va < utopPdx := pdx_lt_utopPdx.mpr (by rw [BitVec.lt_def]; omega)
    have hw : walk s.mem (s.cr3 c) (pgnum va) = target s (.pte cur (pdx va) (ptx va)) := by
      rw [pgnum_eq, walk_eq hd hi]
    simp only [storeBytesCached, storeBytes, storeByte, run_bind, run_get, writeFrame_eq hn]
    cases hf : walk s.mem (s.cr3 c) (pgnum va) with
    | none => rfl
    | some f =>
      simp only [run_set]
      have hnt : NotTable s f := h.notTable_of_pte (hw ▸ hf)
      have hva1 : (va + 1).toNat = va.toNat + 1 := by
        rw [BitVec.toNat_add]
        show (va.toNat + 1) % 2 ^ 32 = _
        exact Nat.mod_eq_of_lt (by omega)
      exact storeBytesCached_eq (h.setFrame hnt _) (hn.setFrame hd hnt) hd (by omega)

/-- Storing bytes below `UTOP` through the page tables of the current environment. -/
theorem storeBytes_mid {R : Stop → KState → Prop} (hR : ∀ t, R .panic t) :
    ∀ {bs : List Byte} {va : Word} {s : KState}, Mid T c ∅ s →
      (s.envs cur).envPgdir = some (s.cr3 c) → va.toNat + bs.length ≤ utop.toNat →
      wp (storeBytes c va bs) (fun _ t => Mid T c ∅ t ∧ PmOnly s t ∧ pteAt t = pteAt s) R s
  | [], _, s, h, _, _ => (wp_pure _).mpr ⟨h, .refl s, rfl⟩
  | b :: bs, va, s, h, hd, hle => by
    have hutop : utop.toNat = 955 * 4194304 := by decide
    rw [List.length_cons] at hle
    have hva : va < utop := by rw [BitVec.lt_def]; omega
    have hi : pdx va < utopPdx := pdx_lt_utopPdx.mpr hva
    have hw : walk s.mem (s.cr3 c) (pgnum va) = target s (.pte cur (pdx va) (ptx va)) := by
      rw [pgnum_eq, walk_eq hd hi]
    unfold storeBytes storeByte
    simp only [wp_bind, wp_get]
    cases hf : walk s.mem (s.cr3 c) (pgnum va) with
    | none => simpa using hR s
    | some f =>
      simp only [wp_set]
      obtain ⟨L, hL⟩ := h.core.page
      have hnt : NotTable s f := hL.notTable_of_pte (hw ▸ hf)
      have hva1 : (va + 1).toNat = va.toNat + 1 := by
        rw [BitVec.toNat_add]
        show (va.toNat + 1) % 2 ^ 32 = _
        exact Nat.mod_eq_of_lt (by omega)
      refine (storeBytes_mid hR (h.setFrame hnt _) hd (by omega)).mono
        (fun _ t ht => ⟨ht.1, (PmOnly.setFrame s f _).trans ht.2.1,
          ht.2.2.trans (hnt.pteAt_setFrame _)⟩) fun _ _ hR => hR

theorem wordBytes_length (ws : List Word) : (wordBytes ws).length = 4 * ws.length := by
  induction ws with
  | nil => rfl
  | cons w ws ih =>
    have : wordBytes (w :: ws) = [byteOf w 0, byteOf w 1, byteOf w 2, byteOf w 3] ++ wordBytes ws :=
      rfl
    rw [this, List.length_append, ih, List.length_cons]
    simp only [List.length_cons, List.length_nil]
    omega

/-- The frame pushed for a user page fault lies below `UTOP`. -/
theorem utrapframe_below (esp : Word) (faultVa : Word) (tf : Trapframe) :
    (utfAddr esp).toNat + (wordBytes (utrapframe faultVa tf)).length ≤ utop.toNat := by
  have hl : (wordBytes (utrapframe faultVa tf)).length = 52 := by
    rw [wordBytes_length]; rfl
  have htop : uxstacktop.toNat = 4005560320 := by decide
  have hlow : (uxstacktop - BitVec.ofNat 32 pgsize).toNat = 4005556224 := by decide
  have hsize : (BitVec.ofNat 32 (utrapframeSize + 4)).toNat = 56 := by decide
  have hutop : utop.toNat = 4005560320 := by decide
  rw [hl, utfAddr, stacktop, BitVec.toNat_sub, hsize, hutop]
  split
  · rename_i h
    rw [BitVec.lt_def, BitVec.lt_def, htop, hlow] at h
    omega
  · rw [htop]
    decide

theorem pageFaultHandler_mid {Q : Unit → KState → Prop} {inp : Input} {tf : Trapframe}
    (h : Mid T c ∅ s) (hn : NoStale s c inp) (hc : s.curenv c = some cur) (hno : ¬ Elsewhere s c cur)
    (hd : (s.envs cur).envPgdir = some (s.cr3 c)) :
    wp (pageFaultHandler c inp tf) Q (Leaves (Inv T)) s := by
  unfold pageFaultHandler
  simp only [wp_ite]
  refine ⟨fun _ => by simp [wp_bind], fun _ => ?_⟩
  rw [wp_bind, wp_ok (getCurenv_run hc)]
  simp only [wp_bind, wp_get, wp_ite]
  refine ⟨fun _ => ?_, fun _ => envDestroy_cur h hc hno⟩
  refine userMemAssert_mid h hc hno fun a ha => ?_
  have hna : NoStale { s with userMemCheckAddr := a } c inp := hn.congr rfl rfl rfl
  obtain ⟨L, hL⟩ := ha.core.page
  rw [wp_of_eq (storeBytesCached_eq hL hna hd (utrapframe_below _ _ _))]
  refine (storeBytes_mid (R := Leaves (Inv T)) (fun _ => by simp) ha hd
    (utrapframe_below _ _ _)).mono (fun _ t ht => ?_) fun _ _ hR => hR
  simp only [wp_modify]
  refine envRun_wp fun u hu => Mid.runs ?_ hu
  exact ht.1.setEnv rfl rfl Iff.rfl

theorem trapDispatch_mid {Q : Unit → KState → Prop} {inp : Input} {tf : Trapframe}
    (h : Mid T c ∅ s) (hn : NoStale s c inp) (hc : s.curenv c = some cur) (hno : ¬ Elsewhere s c cur)
    (hlive : (s.envs cur).envStatus ≠ .free)
    (hd : (s.envs cur).envPgdir = some (s.cr3 c))
    (hs : tf.tfTrapno = tSyscall → (Call.ofTf tf).Safe s cur T c) (hQ : ∀ t, Mid T c ∅ t → Q () t) :
    wp (trapDispatch c inp tf) Q (Leaves (Inv T)) s := by
  unfold trapDispatch
  simp only [wp_ite]
  refine ⟨fun _ => pageFaultHandler_mid h hn hc hno hd, fun _ => ⟨fun _ => by simp, fun _ =>
    ⟨fun hsys => ?_, fun _ => ⟨fun _ => schedYield_wp fun t ht => h.yields ht, fun _ =>
      ⟨fun _ => by simp, fun _ => ?_⟩⟩⟩⟩⟩
  · rw [wp_bind, wp_ok (getCurenv_run hc), wp_bind]
    refine (syscall_mid (Call.ofTf tf) h rfl hc hlive hno (hs hsys)).mono
      (fun w t ht => ?_) fun _ _ hR => hR
    exact (wp_modify _).mpr (hQ _ (ht.setEnv rfl rfl Iff.rfl))
  · rw [wp_bind, wp_ok (getCurenv_run hc)]
    exact envDestroy_cur h hc hno

theorem trap_inv {Q : Unit → KState → Prop} {inp : Input} {tf : Trapframe} (h : Inv T s)
    (ha : TrapAllowed s c tf) (hcur : T ∨ Current s c (.trap inp tf)) (hs : TrapSafe T s c tf) :
    wp (trap c inp tf) Q (Leaves (Inv T)) s := by
  unfold trap
  simp only [wp_bind, wp_modify]
  have hent : Mid T c ∅ (s.setCpu c { s.cpus c with cpuStatus := .started }) := (h.mid c).setCpu _
  rcases ha with ⟨hu, hcs⟩ | ⟨hm, hcs, hirq⟩
  · -- from user mode
    obtain ⟨cur, hc, hd⟩ := (h.cpus c).running hu
    obtain ⟨hno, hcall⟩ := hs cur hu hc
    have hn : NoStale s c inp := .of_safe (h.cpus c) hu hcur
    obtain ⟨Le, hLe⟩ := h.core.envs
    have hlive : (s.envs cur).envStatus ≠ .free := fun hf => by
      rw [(hLe.dir cur).mpr hf] at hd; cases hd
    have hc' : (s.setCpu c { s.cpus c with cpuStatus := .started }).curenv c = some cur := by
      simpa [KState.curenv, KState.setCpu] using hc
    simp only [wp_ite]
    refine ⟨fun _ => ?_, fun h3 => absurd (by rw [hcs]; decide) h3⟩
    rw [wp_bind, wp_ok (getCurenv_run hc'), wp_bind]
    refine getCallerPcs_wp (by simp) fun _ => ?_
    simp only [wp_bind, wp_get, wp_ite, wp_modify]
    refine ⟨fun _ => ?_, fun hnd => ?_⟩
    · -- it was destroyed while it ran
      refine envFree_wp hent (fun hE => hno ?_) fun d t _ ht _ => ?_
      · obtain ⟨k, hk, hku, hkc⟩ := hE
        refine ⟨k, hk, ?_, ?_⟩
        · simpa [KState.setCpu, hk] using hku
        · simpa [KState.curenv, KState.setCpu, hk] using hkc
      · exact schedYield_wp fun u hu => (ht.setCpu _).yields hu
    · have hsv : Mid T c ∅ (saved c cur tf s) := hent.setEnv rfl rfl Iff.rfl
      have hlive' : ((saved c cur tf s).envs cur).envStatus ≠ .free := by
        simpa [saved, KState.setEnv, KState.setCpu] using hlive
      have hd' : ((saved c cur tf s).envs cur).envPgdir = some ((saved c cur tf s).cr3 c) := by
        simpa [saved, KState.setEnv, KState.setCpu] using hd
      exact trapDispatch_mid hsv (hn.congr rfl rfl rfl) ((saved_curenv tf c).trans hc)
        (fun hE => hno ((elsewhere_saved tf cur).mp hE)) hlive' hd'
        (hcall hnd) fun t ht => trapReturn_wp fun u hu => ht.returns hu
  · -- an interrupt that wakes a halted CPU
    have h3 : ¬ tf.tfCs &&& 3 = 3 := by rw [hcs]; decide
    obtain ⟨h1, h2, h4⟩ := ne_of_irq hirq
    simp only [if_neg h3, trapDispatch, if_neg h1, if_neg h2, if_neg h4, wp_bind, wp_ite]
    exact ⟨fun _ => schedYield_wp fun u hu => hent.yields hu, fun _ =>
      ⟨fun _ => by simp, fun hk => absurd hcs hk⟩⟩

/-- User code reaches nothing writable but what its entries below `UTOP` map. -/
theorem userWrite_target {va : Word} {f : Nat} (h : Inv T s) (hu : (s.cpus c).mode = .user)
    (hf : userAccess s c userWrite va = some f) :
    ∃ e, s.curenv c = some e ∧ target s (.pte e (pdx va) (ptx va)) = some f := by
  obtain ⟨e, he, hd⟩ := (h.cpus c).running hu
  refine ⟨e, he, ?_⟩
  simp only [userAccess, userWalk] at hf
  split at hf
  case isFalse => cases hf
  rename_i hacc
  obtain ⟨hpde, hpte⟩ := hacc
  obtain rfl := Option.some.inj hf
  have present : ∀ w : Word, w &&& userWrite = userWrite → w &&& pteP ≠ 0 := by
    intro w hw h0
    have : userWrite &&& pteP = 0 := by
      rw [← hw, BitVec.and_assoc, BitVec.and_comm userWrite, ← BitVec.and_assoc, h0]; simp
    exact absurd this (by decide)
  have hent := entryFrame_of_present (present _ hpde)
  by_cases hi : pdx va < utopPdx
  · have hT : tabFrame s (some e) (pdx va) = some (pgnum (s.mem (s.cr3 c) (pdx va))) := by
      rw [tabFrame_of_dir (o := some e) hd hi, hent]
    simp only [target, pteAt_of_tab hT]
    exact entryFrame_of_present (present _ hpte)
  · have hup := h.core.kern.upper e _ hd (pdx va) (not_lt.mp hi)
    by_cases hv : pdx va = uvptPdx
    · -- the recursive entry is read-only
      rw [hup, if_pos hv] at hpde
      have hlow : (page2pa (s.cr3 c) ||| pteP ||| pteU) &&& 0xFFF = pteP ||| pteU := by
        have : (page2pa (s.cr3 c) ||| pteP ||| pteU) &&& 0xFFF
            = (page2pa (s.cr3 c) &&& 0xFFF) ||| ((pteP ||| pteU) &&& 0xFFF) := by
          ext i
          simp only [BitVec.getElem_or, BitVec.getElem_and]
          cases (page2pa (s.cr3 c))[i] <;> cases pteP[i] <;> cases pteU[i] <;> simp
        rw [this, page2pa_flags]
        decide
      have hmask : userWrite = 0xFFF &&& userWrite := by decide
      rw [hmask, ← BitVec.and_assoc, hlow] at hpde
      exact absurd hpde (by decide)
    · rw [if_neg hv] at hup
      have hT : tabFrame s none (pdx va) = some (pgnum (s.mem (s.cr3 c) (pdx va))) := by
        rw [tabFrame_of_dir (o := none) rfl hv, ← hup, hent]
      refine absurd ?_ (h.core.kern.noWrite (pdx va) (ptx va) (not_lt.mp hi))
      rw [pteAt_of_tab hT]
      exact hpte

/-- A store of user code reaches nothing but what the entries below `UTOP` map. -/
theorem storeFrame_target {va : Word} {via : Option Nat} {b : Byte} {f : Nat} (h : Inv T s)
    (hs : T ∨ Current s c (.store va b via)) (hu : (s.cpus c).mode = .user)
    (hf : storeFrame s c va via = some f) :
    ∃ e, s.curenv c = some e ∧ target s (.pte e (pdx va) (ptx va)) = some f := by
  rcases hs with hT | hs
  · rcases viaTlb_cases hf with hacc | hc
    · exact userWrite_target h hu hacc
    · obtain ⟨e, he, hd⟩ := (h.cpus c).running hu
      obtain ⟨hlt, ht, -⟩ := cachedWrite_eq_true.mp hc
      rw [pgnum_eq] at ht
      exact ⟨e, he, (h.cpus c).fresh hT hu e hd _ _ f (pdx_lt_of_pgnum hlt) ht⟩
  · rw [storeFrame, viaTlb_of_current hs] at hf
    exact userWrite_target h hu hf

/-- One step: every safe step from a state that meets the invariant ends in one. -/
theorem step_inv {s t : KState} {l : CpuIdx × Event} (h : Inv T s) (hs : StepSafe T s l)
    (hst : Step s l t) : Inv T t := by
  obtain ⟨c, ev⟩ := l
  cases ev with
  | trap inp tf =>
    simp only [Step, step] at hst
    split at hst
    · rename_i ha
      exact (trap_inv (Q := fun _ _ => True) h ha hs.1 hs.2).error (enter_eq_some.mp hst) rfl
    · cases hst
  | store va b via =>
    simp only [Step, step] at hst
    split at hst
    · rename_i hu
      split at hst
      · cases hst
      · rename_i f hf
        split at hst
        · obtain ⟨e, -, htgt⟩ := storeFrame_target h hs.1 hu hf
          obtain ⟨L, hL⟩ := h.core.page
          cases hst
          exact h.setFrame (hL.notTable_of_pte htgt) _
        · cases hst
    · cases hst
  | start =>
    simp only [Step, step] at hst
    split at hst
    · exact (schedYield_wp (Q := fun _ _ => True) fun u hu => (h.mid c).yields hu).error
        (enter_eq_some.mp hst) rfl
    · cases hst

/-- Every run of safe steps from a state that meets the invariant ends in one. -/
theorem run_inv {s t : KState} {ls : List (CpuIdx × Event)}
    (h : Run (restrict (StepSafe T) Step) s ls t) (hs : Inv T s) : Inv T t :=
  h.invariant (I := Inv T) (fun _ _ _ hI hst => step_inv hI hst.1 hst.2) hs

end

end Jos
