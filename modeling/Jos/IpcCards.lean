import Jos.ForkChild
import Jos.Ipc

/-!
  What threads see of the kernel, and what a kernel entry does to it. -/

namespace Jos

open Lib RefCount

namespace Ipc

/-- What a thread sees of its environment, and others of theirs. -/
@[ext]
structure Card where
  envId : Word
  recving : Bool
  value : Word
  src : Word
  eax : Word
  stopped : Bool

def Card.withEax (d : Card) (w : Word) : Card := { d with eax := w }

def cardOf (v : Env) : Option Card :=
  if v.envStatus = .free then none
  else some ⟨v.envId, v.envIpcRecving, v.envIpcValue, v.envIpcFrom, v.envTf.tfRegs.regEax,
    decide (v.envStatus = .notRunnable)⟩

abbrev Cards := EnvIdx → Option Card

def cards (s : KState) : Cards := fun e => cardOf (s.envs e)

def Cards.set (C : Cards) (e : EnvIdx) (d : Option Card) : Cards := Function.update C e d

@[simp] theorem Cards.set_self (C : Cards) (e : EnvIdx) (d : Option Card) : C.set e d e = d :=
  Function.update_self ..

theorem Cards.set_of_ne (C : Cards) {e x : EnvIdx} (h : x ≠ e) (d : Option Card) :
    C.set e d x = C x := Function.update_of_ne h ..

theorem Cards.set_get (C : Cards) (e : EnvIdx) : C.set e (C e) = C := Function.update_eq_self ..

theorem Cards.set_set (C : Cards) (e : EnvIdx) (d d' : Option Card) :
    (C.set e d).set e d' = C.set e d' := Function.update_idem ..

theorem Cards.set_between (C : Cards) {e x : EnvIdx} (h : x ≠ e) (d d' b : Option Card) :
    ((C.set e d).set x b).set e d' = (C.set x b).set e d' := by
  unfold Cards.set
  rw [Function.update_comm h, Function.update_idem, Function.update_comm h.symm]

/-- What a CPU executes is marked as running. -/
def Awake (s : KState) : Prop := ∀ k e, Executes s k e → (s.envs e).envStatus = .running

/-- How a system call of `e` changes the cards, when the caller's frame is `tf`. -/
inductive CallEffect (C : Cards) (e : EnvIdx) (d : Card) (tf : Trapframe) (C' : Cards) : Prop
  | quiet {w : Word} : C' = C.set e (some (d.withEax w)) →
      ((Call.ofTf tf).no = 2 → w = d.envId) → ((Call.ofTf tf).no = 7 → w.slt 0 = true) →
      ((Call.ofTf tf).no = 11 → w ≠ 0) → (Call.ofTf tf).no ≠ 12 → CallEffect C e d tf C'
  | died : C' = C.set e none → CallEffect C e d tf C'
  | born {x : EnvIdx} {b : Card} : (Call.ofTf tf).no = 7 → C x = none → envx b.envId = x →
      b.envId.slt 0 = false → b.envId ≠ 0 → b.recving = false → b.eax = 0 → b.stopped = true →
      C' = (C.set e (some (d.withEax b.envId))).set x (some b) → CallEffect C e d tf C'
  | started {x : EnvIdx} {b : Card} {w : Word} {z : Bool} : (Call.ofTf tf).no = 8 → C x = some b →
      envx (Call.ofTf tf).a1 = x → b.envId = (Call.ofTf tf).a1 → x ≠ e →
      C' = (C.set x (some { b with stopped := z })).set e (some (d.withEax w)) →
      CallEffect C e d tf C'
  | received : (Call.ofTf tf).no = 12 →
      C' = C.set e (some ⟨d.envId, true, 0, 0, tf.tfRegs.regEax, true⟩) → CallEffect C e d tf C'
  | sent {x : EnvIdx} {b : Card} : (Call.ofTf tf).no = 11 → C x = some b →
      envx (Call.ofTf tf).a1 = x → b.envId = (Call.ofTf tf).a1 → x ≠ e → b.recving = true →
      C' = (C.set x (some ⟨b.envId, false, (Call.ofTf tf).a2, d.envId, 0, false⟩)).set e
        (some (d.withEax 0)) → CallEffect C e d tf C'

section

variable {c : CpuIdx} {cur e x : EnvIdx} {s t u m : KState} {tf : Trapframe} {inp : Input}
  {d : Card}

theorem cards_live (h : cards s e = some d) : (s.envs e).envStatus ≠ .free := by
  intro hf
  simp [cards, cardOf, hf] at h

theorem cards_of_live (h : (s.envs e).envStatus ≠ .free) : ∃ d, cards s e = some d := by
  simp [cards, cardOf, h]

theorem cards_eq_none : cards s e = none ↔ (s.envs e).envStatus = .free := by
  simp [cards, cardOf]

/-- A card, read back. -/
theorem cards_eq (h : cards s e = some d) : d = ⟨(s.envs e).envId, (s.envs e).envIpcRecving,
    (s.envs e).envIpcValue, (s.envs e).envIpcFrom, eaxOf s e,
    decide ((s.envs e).envStatus = .notRunnable)⟩ := by
  have hl := cards_live h
  simp only [cards, cardOf, if_neg hl] at h
  exact (Option.some.inj h).symm

theorem cards_setEnv (v : Env) : cards (s.setEnv e v) = (cards s).set e (cardOf v) := by
  funext y
  rcases eq_or_ne y e with rfl | hy
  · simp [cards, KState.setEnv]
  · rw [Cards.set_of_ne _ hy, cards, setEnv_envs_of_ne hy, cards]

theorem cards_congr (h : t.envs = s.envs) : cards t = cards s := by
  unfold cards
  rw [h]

theorem cards_saved (hd : cards s e = some d) :
    cards (saved c e tf s) = (cards s).set e (some (d.withEax tf.tfRegs.regEax)) := by
  have hl := cards_live hd
  funext y
  rcases eq_or_ne y e with rfl | hy
  · rw [Cards.set_self, cards_eq hd, cards, saved_envs, if_pos rfl]
    simp [cardOf, hl, Card.withEax]
  · rw [Cards.set_of_ne _ hy, cards, saved_envs, if_neg hy, cards]

theorem cards_answered {w : Word} (hd : cards u e = some d) :
    cards (answered u e w) = (cards u).set e (some (d.withEax w)) := by
  have hl := cards_live hd
  rw [answered, cards_setEnv, cards_eq hd]
  simp [cardOf, hl, Card.withEax, Trapframe.withEax]

/-- A call that only returned a result, after the frame was saved. -/
theorem cards_answered_saved {w : Word} (hd : cards s e = some d) :
    cards (answered (saved c e tf s) e w) = (cards s).set e (some (d.withEax w)) := by
  have hs : cards (saved c e tf s) = _ := cards_saved hd
  rw [cards_answered (by rw [hs, Cards.set_self]), hs, Cards.set_set]
  rfl

/-! ### Leaving the kernel -/

theorem Rescheduled.card {v w : Env} (h : Rescheduled v w)
    (hs : w.envStatus = v.envStatus ∨ Eligible v ∧ Eligible w) : cardOf w = cardOf v := by
  have hst : (w.envStatus = .free ↔ v.envStatus = .free) ∧
      (w.envStatus = .notRunnable ↔ v.envStatus = .notRunnable) := by
    rcases hs with hs | ⟨hv, hw⟩
    · rw [hs]
      exact ⟨Iff.rfl, Iff.rfl⟩
    · rcases hv with hv | hv <;> rcases hw with hw | hw <;> simp [hv, hw]
  unfold cardOf
  rw [h.rest]
  simp only [hst.1, hst.2]

theorem Yields.cards (h : Yields c s t) : Ipc.cards t = Ipc.cards s :=
  funext fun y => Rescheduled.card (h.rescheduled y) (h.status y)

theorem Returns.cards (h : Returns c s t) : Ipc.cards t = Ipc.cards s :=
  funext fun y => Rescheduled.card (h.rescheduled y) (h.status y)

/-- The environment that was running, and its death. -/
theorem cards_death (hs : ∀ y, y ≠ e → m.envs y = s.envs y) (hu : SameEnvs (freed e m) u)
    (hy : Yields c (u.setCurenv c none) t) : cards t = (cards s).set e none := by
  funext y
  rw [Yields.cards hy, cards_congr (t := u.setCurenv c none) (s := u) rfl, cards_congr hu.envs]
  rcases eq_or_ne y e with rfl | hne
  · simp [cards, cardOf, freed, KState.setEnv]
  · rw [Cards.set_of_ne _ hne, cards, freed_envs hne, hs y hne, cards]

/-- A trap that is no system call: the frame is saved, or the environment dies. -/
theorem trap_cards (ha : Awake s) (hk : Executes s c e) (hno : tf.tfTrapno ≠ tSyscall)
    (hd : cards s e = some d) (hst : Jos.Step s (c, .trap inp tf) t) :
    cards t = (cards s).set e (some (d.withEax tf.tfRegs.regEax)) ∨
      cards t = (cards s).set e none := by
  have hrun := ha c e hk
  have hsav : ∀ y, y ≠ e → (saved c e tf s).envs y = s.envs y := fun y hy => by
    rw [saved_envs, if_neg hy]
  cases step_effect hst with
  | trap _ ht =>
    cases ht with
    | collected _ hc _ hu hy =>
      obtain rfl := Option.some.inj (hc.symm.trans hk.2)
      exact Or.inr (cards_death (m := started c s) (fun _ _ => rfl) hu hy)
    | @faulted x u _ hc _ _ _ hu hr =>
      obtain rfl := Option.some.inj (hc.symm.trans hk.2)
      have hx : u.envs x = { s.envs x with
          envTf := { tf with tfEip := (s.envs x).envPgfaultUpcall, tfEsp := utfAddr tf.tfEsp } } := by
        rw [hu.envs]
        simp only [Jos.faulted, KState.setEnv, Function.update_self]
        rfl
      have hel : Eligible (u.envs x) := Or.inr (by rw [hx]; exact hrun)
      left
      funext y
      rw [cards, Rescheduled.card (hr.rescheduled fun _ => hel) (hr.status hel y)]
      rcases eq_or_ne y x with rfl | hy
      · rw [hx, Cards.set_self, cards_eq hd]
        simp [cardOf, hrun, Card.withEax]
      · rw [Cards.set_of_ne _ hy, hu.envs, Jos.faulted, setEnv_envs_of_ne hy]
        rfl
    | killed _ hc _ _ _ hu hy =>
      obtain rfl := Option.some.inj (hc.symm.trans hk.2)
      exact Or.inr (cards_death hsav hu hy)
    | called _ _ _ h => exact absurd h hno
    | left _ _ _ h => exact absurd h hno
    | timer _ hc _ _ hy =>
      obtain rfl := Option.some.inj (hc.symm.trans hk.2)
      exact Or.inl ((Yields.cards hy).trans (cards_saved hd))
    | woken hm => exact absurd (hm.symm.trans hk.1) (by simp)

/-- A step that is no trap from user mode. -/
theorem other_cards {ev : Event} (hev : userTrap s c ev = none) (hinv : Inv True s)
    (hst : Jos.Step s (c, ev) t) : cards t = cards s := by
  cases step_effect hst with
  | trap _ ht =>
    have hnone : (s.cpus c).mode ≠ .user := by
      intro hm
      obtain ⟨y, hy, -⟩ := (hinv.cpus c).running hm
      simp [userTrap, hm, hy] at hev
    cases ht with
    | woken _ _ hy => exact (Yields.cards hy).trans (cards_congr rfl)
    | collected hm => exact absurd hm hnone
    | faulted hm => exact absurd hm hnone
    | killed hm => exact absurd hm hnone
    | called hm => exact absurd hm hnone
    | left hm => exact absurd hm hnone
    | timer hm => exact absurd hm hnone
  | store _ ho => exact cards_congr ho.envs
  | start _ hy => exact Yields.cards hy

/-! ### System calls -/

theorem Err.code_slt (err : Err) : err.code.slt 0 = true := by
  cases err <;> decide

/-- What `envid2env` finds under an id other than 0. -/
theorem lookup_card {id : Word} {chk : Bool} (hcur : (s.envs cur).envStatus ≠ .free) (h0 : id ≠ 0)
    (hl : lookupEnv s cur id chk = some x) : envx id = x ∧ ∃ b, cards s x = some b ∧ b.envId = id := by
  obtain ⟨b, hb⟩ := cards_of_live (lookupEnv_live hcur hl)
  unfold lookupEnv at hl
  rw [if_neg h0] at hl
  split at hl
  · cases hl
  rename_i hno
  split at hl
  · cases hl
  have hx := Option.some.inj hl
  subst hx
  refine ⟨rfl, b, hb, ?_⟩
  rw [cards_eq hb]
  exact not_not.mp (not_or.mp hno).2

/-- `sys_ipc_recv` with the address that stands for no page. -/
theorem recv_effect (hu : InUser s c e) (hno : tf.tfTrapno = tSyscall)
    (h12 : (Call.ofTf tf).no = 12) (ha : (Call.ofTf tf).a1 = -1) (hd : cards s e = some d)
    (hst : Jos.Step s (c, .trap inp tf) t) : CallEffect (cards s) e d tf (cards t) := by
  have hva : ¬ ((Call.ofTf tf).a1 < utop ∧ pgoff (Call.ofTf tf).a1 ≠ 0) := by
    rw [ha]
    decide
  rcases step_recv hu hno h12 hst with ⟨-, hy⟩ | ⟨hbad, -⟩
  · refine .received h12 ?_
    have hsd : cards (saved c e tf s) e = some (d.withEax tf.tfRegs.regEax) := by
      rw [cards_saved hd, Cards.set_self]
    rw [Yields.cards hy, receiving, cards_setEnv, cards_saved hd, Cards.set_set]
    have hsave := cards_eq hsd
    simp only [Card.withEax, eaxOf, Card.mk.injEq] at hsave
    simp [cardOf, hsave.1, hsave.2.2.2.2.1]
  · exact absurd hbad hva

/-- `sys_ipc_try_send`. -/
theorem send_effect (h : MailInv s) (hu : InUser s c e) (hno : tf.tfTrapno = tSyscall)
    (h11 : (Call.ofTf tf).no = 11) (hd : cards s e = some d)
    (hst : Jos.Step s (c, .trap inp tf) t) : CallEffect (cards s) e d tf (cards t) := by
  have hlive := cards_live hd
  have hquiet : ∀ err : Err, Returns c (answered (saved c e tf s) e err.code) t →
      CallEffect (cards s) e d tf (cards t) := fun err hret =>
    .quiet ((Returns.cards hret).trans (cards_answered_saved hd)) (by simp [h11])
      (by simp [h11]) (fun _ => Err.code_ne_zero err) (by simp [h11])
  cases hl : lookupEnv s e (Call.ofTf tf).a1 false with
  | none =>
    have hc : (saved c e tf s).curenv c = some e := (saved_curenv tf c).trans hu.current
    have hsys : syscall c inp tf.tfRegs.regEax tf.tfRegs.regEdx tf.tfRegs.regEcx tf.tfRegs.regEbx
        tf.tfRegs.regEdi tf.tfRegs.regEsi (saved c e tf s)
        = .ok Err.badEnv.code (saved c e tf s) := by
      have hrun : sysIpcTrySend c inp (Call.ofTf tf).a1 tf.tfRegs.regEcx tf.tfRegs.regEbx
          tf.tfRegs.regEdi (saved c e tf s) = _ :=
        sysIpcTrySend_missing hc ((saved_lookup tf _ _).trans hl) inp
      have hx : tf.tfRegs.regEax.toNat = 11 := h11
      unfold syscall
      rw [hx]
      simp only [run_bind]
      rw [show tf.tfRegs.regEdx = (Call.ofTf tf).a1 from rfl, hrun]
      rfl
    rcases step_syscall hu hno hst with ⟨w, u, hrun, hret⟩ | hrun
    · rw [hsys] at hrun
      cases hrun
      exact hquiet .badEnv (trapReturn_returns hret)
    · rw [hsys] at hrun
      cases hrun
  | some y =>
    by_cases hr : (s.envs y).envIpcRecving = false
    · exact hquiet .ipcNotRecv (step_not_recv hu hno h11 hl hr hst)
    have hrec : (s.envs y).envIpcRecving = true := by simpa using hr
    have hylive := lookupEnv_live hlive hl
    have hne : y ≠ e := by
      rintro rfl
      exact h.not_blocked (k := c) ⟨hu.mode, hu.current⟩ ⟨hylive, hrec⟩
    have h0 : (Call.ofTf tf).a1 ≠ 0 := by
      intro h0
      rw [h0] at hl
      exact hne (Option.some.inj hl).symm
    obtain ⟨hx, b, hb, hid⟩ := lookup_card hlive h0 hl
    obtain ⟨L, hL⟩ := h.inv.core.page
    obtain ⟨Le, hLe⟩ := h.inv.core.envs
    obtain ⟨p, hp⟩ := Option.ne_none_iff_exists'.mp (mt (hLe.dir e).mp hlive)
    obtain ⟨p', hp'⟩ := Option.ne_none_iff_exists'.mp (mt (hLe.dir y).mp hylive)
    rcases send_step hL hp hp' hu hno h11 ⟨hl, hrec⟩ hst with ⟨err, hret⟩ | ⟨u, hsent, hret⟩
    · exact hquiet err hret
    have hsd : cards (saved c e tf s) e = some (d.withEax tf.tfRegs.regEax) := by
      rw [cards_saved hd, Cards.set_self]
    have hse : cards u = (cards (saved c e tf s)).set y
        (some ⟨b.envId, false, (Call.ofTf tf).a2, d.envId, 0, false⟩) := by
      funext z
      rcases eq_or_ne z y with rfl | hz
      · have h1 : ((saved c e tf s).envs e).envId = d.envId := by
          have hsave := cards_eq hsd
          simp only [Card.withEax, Card.mk.injEq] at hsave
          exact hsave.1.symm
        have h2 : ((saved c e tf s).envs z).envId = b.envId := by
          rw [saved_envs, if_neg hne, cards_eq hb]
        rw [Cards.set_self, cards, hsent.record]
        simp [cardOf, h1, h2, Trapframe.withEax]
      · rw [Cards.set_of_ne _ hz, cards, hsent.others z hz, cards]
    have hue : cards u e = some (d.withEax tf.tfRegs.regEax) := by
      rw [hse, Cards.set_of_ne _ hne.symm, hsd]
    refine .sent h11 hb hx hid hne (by rw [cards_eq hb]; exact hrec) ?_
    rw [Returns.cards hret, cards_answered hue, hse, cards_saved hd, Cards.set_between _ hne]
    rfl

/-- `sys_getenvid`. -/
theorem getenvid_effect (hu : InUser s c e) (hno : tf.tfTrapno = tSyscall)
    (h2 : (Call.ofTf tf).no = 2) (hd : cards s e = some d)
    (hst : Jos.Step s (c, .trap inp tf) t) : CallEffect (cards s) e d tf (cards t) := by
  have hc : (saved c e tf s).curenv c = some e := (saved_curenv tf c).trans hu.current
  have hsys : syscall c inp tf.tfRegs.regEax tf.tfRegs.regEdx tf.tfRegs.regEcx tf.tfRegs.regEbx
      tf.tfRegs.regEdi tf.tfRegs.regEsi (saved c e tf s)
      = .ok ((saved c e tf s).envs e).envId (saved c e tf s) := by
    have hx : tf.tfRegs.regEax.toNat = 2 := h2
    unfold syscall
    rw [hx]
    simp only [sysGetenvid, run_bind, getCurenv_run hc, run_get, run_pure]
  have hid : ((saved c e tf s).envs e).envId = d.envId := by
    rw [(saved_ids s c e tf e).2.1, cards_eq hd]
  rcases step_syscall hu hno hst with ⟨w, u, hrun, hret⟩ | hrun
  · rw [hsys] at hrun
    cases hrun
    exact .quiet ((Returns.cards (trapReturn_returns hret)).trans (cards_answered_saved hd))
      (fun _ => hid) (by simp [h2]) (by simp [h2]) (by simp [h2])
  · rw [hsys] at hrun
    cases hrun

/-- `sys_exofork`. -/
theorem exofork_effect (h : Inv True s) (hu : InUser s c e) (hno : tf.tfTrapno = tSyscall)
    (h7 : (Call.ofTf tf).no = 7) (hd : cards s e = some d)
    (hst : Jos.Step s (c, .trap inp tf) t) : CallEffect (cards s) e d tf (cards t) := by
  have hlive := cards_live hd
  have hc : (saved c e tf s).curenv c = some e := (saved_curenv tf c).trans hu.current
  have hmid : Mid True c ∅ (saved c e tf s) := ((h.mid c).setCpu _).setEnv rfl rfl Iff.rfl
  have hx : tf.tfRegs.regEax.toNat = 7 := h7
  have hquiet : ∀ err : Err, Returns c (answered (saved c e tf s) e err.code) t →
      CallEffect (cards s) e d tf (cards t) := fun err hret =>
    .quiet ((Returns.cards hret).trans (cards_answered_saved hd)) (by simp [h7])
      (fun _ => Err.code_slt err) (by simp [h7]) (by simp [h7])
  rcases hmid.envAlloc ((saved c e tf s).envs e).envId with
    ⟨-, err, hr⟩ | ⟨y, p, m, hr, -, hcr, hbefore, -⟩
  · have hsys : syscall c inp tf.tfRegs.regEax tf.tfRegs.regEdx tf.tfRegs.regEcx tf.tfRegs.regEbx
        tf.tfRegs.regEdi tf.tfRegs.regEsi (saved c e tf s) = .ok err.code (saved c e tf s) := by
      unfold syscall
      rw [hx]
      simp only [sysExofork, run_bind, getCurenv_run hc, run_get, hr, run_pure]
      rfl
    rcases step_syscall hu hno hst with ⟨w, u, hrun, hret⟩ | hrun
    · rw [hsys] at hrun
      cases hrun
      exact hquiet err (trapReturn_returns hret)
    · rw [hsys] at hrun
      cases hrun
  have hm : m.envs = Function.update (saved c e tf s).envs y
      (newEnv (saved c e tf s) y ((saved c e tf s).envs e).envId p) := hcr.envs
  have hyd : cards s y = none := by
    rw [cards_eq_none, ← (saved_ids s c e tf y).1]
    exact hbefore
  have hye : y ≠ e := by
    rintro rfl
    rw [hd] at hyd
    cases hyd
  set v : Env := { m.envs y with
    envStatus := .notRunnable, envTf := (m.envs e).envTf.withEax 0 } with hv
  have hvid : v.envId = nextGeneration ((saved c e tf s).envs y).envId ||| BitVec.ofNat 32 y.val := by
    rw [hv, hm, Function.update_self]
    rfl
  have hsys : syscall c inp tf.tfRegs.regEax tf.tfRegs.regEdx tf.tfRegs.regEcx tf.tfRegs.regEbx
      tf.tfRegs.regEdi tf.tfRegs.regEsi (saved c e tf s) = .ok v.envId (m.setEnv y v) := by
    unfold syscall
    rw [hx]
    simp only [sysExofork, run_bind, getCurenv_run hc, run_get, hr, run_modify, run_pure]
    simp [KState.setEnv, retCode, hv]
  have hcm : cards (m.setEnv y v) = (cards (saved c e tf s)).set y
      (some ⟨v.envId, false, v.envIpcValue, v.envIpcFrom, 0, true⟩) := by
    rw [cards_setEnv]
    funext z
    rcases eq_or_ne z y with rfl | hz
    · rw [Cards.set_self, Cards.set_self, hv, hm, Function.update_self]
      simp [cardOf, newEnv, Trapframe.withEax]
    · rw [Cards.set_of_ne _ hz, Cards.set_of_ne _ hz, cards, hm, Function.update_of_ne hz, cards]
  have hsd : cards (saved c e tf s) e = some (d.withEax tf.tfRegs.regEax) := by
    rw [cards_saved hd, Cards.set_self]
  have hmd : cards (m.setEnv y v) e = some (d.withEax tf.tfRegs.regEax) := by
    rw [hcm, Cards.set_of_ne _ hye.symm, hsd]
  rcases step_syscall hu hno hst with ⟨w, u, hrun, hret⟩ | hrun
  · rw [hsys] at hrun
    cases hrun
    refine .born h7 hyd (b := ⟨v.envId, false, v.envIpcValue, v.envIpcFrom, 0, true⟩)
      (by rw [hvid, envx_nextGeneration]) ?_ ?_ rfl rfl rfl ?_
    · rw [hvid]
      exact BitVec.slt_zero_eq_msb.trans (nextGeneration_msb _ _)
    · rw [hvid]
      exact nextGeneration_ne_zero _ _
    · rw [Returns.cards (trapReturn_returns hret), cards_answered hmd, hcm, cards_saved hd]
      unfold Cards.set
      rw [Function.update_comm hye, Function.update_idem]
      rfl
  · rw [hsys] at hrun
    cases hrun

/-- The system calls that the library makes: no page is received or sent, a thread destroys itself
    only, and it sets the status of another one. -/
structure Modest (s : KState) (e : EnvIdx) (call : Call) : Prop where
  destroy : call.no = 3 → call.a1 = 0
  status : call.no = 8 → call.a1 ≠ 0 ∧ envx call.a1 ≠ e
  page : (call.no = 11 → call.a3 = -1) ∧ (call.no = 12 → call.a1 = -1)

theorem call_effect (h : MailInv s) (hu : InUser s c e) (hno : tf.tfTrapno = tSyscall)
    (hmod : Modest s e (Call.ofTf tf)) (hd : cards s e = some d)
    (hst : Jos.Step s (c, .trap inp tf) t) : CallEffect (cards s) e d tf (cards t) := by
  by_cases h12 : (Call.ofTf tf).no = 12
  · exact recv_effect hu hno h12 (hmod.page.2 h12) hd hst
  by_cases h11 : (Call.ofTf tf).no = 11
  · exact send_effect h hu hno h11 hd hst
  by_cases h2 : (Call.ofTf tf).no = 2
  · exact getenvid_effect hu hno h2 hd hst
  by_cases h7 : (Call.ofTf tf).no = 7
  · exact exofork_effect h.inv hu hno h7 hd hst
  have hquiet : ∀ w, cards t = (cards s).set e (some (d.withEax w)) →
      CallEffect (cards s) e d tf (cards t) := fun w hw =>
    .quiet hw (fun hx => absurd hx h2) (fun hx => absurd hx h7) (fun hx => absurd hx h11) h12
  have hlive := cards_live hd
  have hsd : cards (saved c e tf s) e = some (d.withEax tf.tfRegs.regEax) := by
    rw [cards_saved hd, Cards.set_self]
  have hcur : (saved c e tf s).curenv c = some e := (saved_curenv tf c).trans hu.current
  have hself : ∀ x, (Call.ofTf tf).Destroys (saved c e tf s) e x → x = e := by
    rintro x ⟨h3, hl⟩
    rw [hmod.destroy h3] at hl
    exact (Option.some.inj hl).symm
  have hkept : ∀ {u : KState} {w : Word}, cards u = cards (saved c e tf s) →
      Returns c (answered u e w) t → CallEffect (cards s) e d tf (cards t) := by
    intro u w hc hr
    refine hquiet w ?_
    rw [Returns.cards hr, cards_answered (hc ▸ hsd), hc, cards_saved hd, Cards.set_set]
    rfl
  cases step_effect hst with
  | trap _ ht =>
    cases ht with
    | collected _ hc hdy =>
      obtain rfl := Option.some.inj (hc.symm.trans hu.current)
      exact absurd hdy hu.live
    | faulted _ _ _ hn => exact absurd (hno.symm.trans hn) (by decide)
    | killed _ _ _ hn => exact absurd hno hn
    | timer _ _ _ hn => exact absurd (hno.symm.trans hn) (by decide)
    | woken hm => exact absurd (hm.symm.trans hu.mode) (by simp)
    | @called y u w _ hc _ _ hcd hr =>
      obtain rfl := Option.some.inj (hc.symm.trans hu.current)
      cases hcd with
      | nothing hs => exact hkept (cards_congr hs.envs) hr
      | marked hx _ hne => exact absurd (hself _ hx ▸ hcur) hne
      | freed hx _ hne => exact absurd (hself _ hx ▸ hcur) hne
      | forked hn => exact absurd hn h7
      | @status x st h8 hl hst' hs =>
        obtain ⟨h0, hxe⟩ := hmod.status h8
        rw [saved_lookup] at hl
        obtain ⟨hx, b, hb, hid⟩ := lookup_card hlive h0 hl
        rw [hx] at hxe
        have hxl := cards_live hb
        have hsx : (saved c y tf s).envs x = s.envs x := by rw [saved_envs, if_neg hxe]
        have hcu : cards u = (cards (saved c y tf s)).set x
            (some { b with stopped := decide (st = .notRunnable) }) := by
          rw [cards_congr hs.envs, cards_setEnv, hsx, cards_eq hb]
          have hlive' : st ≠ .free := by
            rcases statusOfWord_ne_free hst' with rfl | rfl <;> simp
          simp [cardOf, hlive', eaxOf]
        have huy : cards u y = some (d.withEax tf.tfRegs.regEax) := by
          rw [hcu, Cards.set_of_ne _ (Ne.symm hxe), hsd]
        have hct : cards (answered u y w) = _ := cards_answered huy
        rw [hcu, cards_saved hd, Cards.set_between _ hxe] at hct
        exact .started h8 hb hx hid hxe ((Returns.cards hr).trans hct)
      | upcall _ _ hs =>
        refine hkept ?_ hr
        rw [cards_congr hs.envs, cards_setEnv]
        exact Cards.set_get _ _
      | sent hn => exact absurd hn h11
    | @left y _ hc _ _ hl =>
      obtain rfl := Option.some.inj (hc.symm.trans hu.current)
      cases hl with
      | died _ hs hy =>
        exact .died (cards_death (fun x hx => by rw [saved_envs, if_neg hx]) hs hy)
      | yielded _ hy => exact hquiet _ ((Yields.cards hy).trans (cards_saved hd))
      | received hn => exact absurd hn h12

/-! ### What is running -/

/-- A system call leaves what is marked as running so, if it does not aim at it. -/
theorem CallDone.awake {call : Call} (h : CallDone s c cur call u) (hL : ∃ Le, EnvList s Le)
    (he : (s.envs e).envStatus = .running) (hd : ¬ Disturbs s cur call e) :
    (u.envs e).envStatus = .running := by
  have hset : ∀ {x : EnvIdx} {v : Env}, u.envs = Function.update s.envs x v → e ≠ x →
      (u.envs e).envStatus = .running := by
    intro x v hu hx
    rw [hu, Function.update_of_ne hx]
    exact he
  cases h with
  | nothing hu =>
    rw [hu.envs]
    exact he
  | marked hx _ _ hu => exact hset hu.envs fun h => hd (Or.inl (h ▸ hx))
  | freed hx _ _ hu => exact hset hu.envs fun h => hd (Or.inl (h ▸ hx))
  | @forked x p _ hf hu =>
    obtain ⟨Le, hLe⟩ := hL
    have hx : e ≠ x := by
      rintro rfl
      have hfree := (hLe.free e).mp (List.mem_of_head? (hLe.chain.head_eq.symm.trans hf))
      rw [he] at hfree
      cases hfree
    rw [hu.envs]
    simp only [Jos.forked, KState.setEnv, Function.update_of_ne hx]
    exact he
  | status h8 hl _ hu => exact hset hu.envs fun h => hd (Or.inr (Or.inl ⟨h8, h ▸ hl⟩))
  | @upcall x _ _ hu =>
    rw [hu.envs]
    rcases eq_or_ne e x with rfl | hx
    · simpa [KState.setEnv] using he
    · simpa [KState.setEnv, hx] using he
  | sent h11 hl hr hu => exact hset hu.envs fun h => hd (Or.inr (Or.inr ⟨h11, h ▸ hl, h ▸ hr⟩))

theorem Awake.step {ev : Event} (ha : Awake s) (hx : Exclusive Every s)
    (hst : Jos.Step s (c, ev) t) (hsp : ∀ inp tf cur y k, ev = .trap inp tf → InUser s c cur →
      tf.tfTrapno = tSyscall → k ≠ c → Executes s k y → ¬ Disturbs s cur (Call.ofTf tf) y) :
    Awake t := by
  intro k y hk
  rcases step_exits hst with ⟨va, b, via, rfl, ho⟩ | ⟨m, hw, hex⟩
  · rw [ho.envs]
    exact ha k y ⟨by rw [← ho.cpus]; exact hk.1, by rw [← ho.curenv]; exact hk.2⟩
  by_cases hkc : k = c
  · exact hex.executes (hkc ▸ hk)
  have hcpu := step_cpus_of_ne hst hkc
  have hks : Executes s k y := ⟨hcpu ▸ hk.1, by rw [KState.curenv, ← hcpu]; exact hk.2⟩
  have hrun := ha k y hks
  have hcy : s.curenv c ≠ some y := by
    intro hy
    by_cases hm : (s.cpus c).mode = .user
    · exact hkc (hx.sole k c y trivial trivial hks.1 hm hks.2 hy)
    · rw [hx.idle c trivial hm] at hy
      cases hy
  have hstill : m.curenv c ≠ some y → (m.envs y).envStatus = .running →
      (t.envs y).envStatus = .running := fun h1 h2 => (hex.still h1 (by rw [h2]; simp)).trans h2
  rcases hw.other hcy with ⟨hmc, henv⟩ | ⟨inp, tf, x, u, w, rfl, hu, hno, hd, rfl⟩
  · exact hstill hmc (henv ▸ hrun)
  · have hal : Alike s (saved c x tf s) := saved_alike tf
    obtain ⟨Le, hLe⟩ := hx.list
    refine hstill (by rwa [hd.answered_curenv]) ?_
    rw [answered_status]
    refine CallDone.awake hd ⟨Le, hLe.congr hal.envFreeList hal.dir hal.link hal.free⟩
      (by rw [(saved_ids s c x tf y).1]; exact hrun) fun hdis => ?_
    exact hsp inp tf x y k rfl hu hno hkc hks ((saved_disturbs tf).mp hdis)

end

end Ipc

end Jos
