import Jos.RoundRobin

/-!
  An environment runs on one CPU only.

  `ENV_RUNNING` is meant to say that some CPU is running the environment. The scheduler relies on
  it, so this holds as long as no system call gives a running environment another status that
  makes it eligible, or frees it. -/

namespace Jos

open Lib RefCount

/-- For the CPUs of `Out`, which do not execute kernel code: no environment is current on two of
    them in user mode, and one that is current is neither waiting for a CPU nor free. -/
structure Exclusive (Out : CpuIdx → Prop) (s : KState) : Prop where
  list : ∃ Le, EnvList s Le
  sole : ∀ k k' e, Out k → Out k' → (s.cpus k).mode = .user → (s.cpus k').mode = .user →
    s.curenv k = some e → s.curenv k' = some e → k = k'
  status : ∀ k e, Out k → (s.cpus k).mode = .user → s.curenv k = some e →
    (s.envs e).envStatus ≠ .free ∧ (s.envs e).envStatus ≠ .runnable
  idle : ∀ k, Out k → (s.cpus k).mode ≠ .user → s.curenv k = none

/-- No other CPU runs what CPU `c` was running. -/
def Own (c : CpuIdx) (s : KState) : Prop := ∀ cur, s.curenv c = some cur → ¬ Elsewhere s c cur

/-- A system call that makes `e` eligible, if it succeeds. -/
def Wakes (s : KState) (cur : EnvIdx) (call : Call) (e : EnvIdx) : Prop :=
  call.no = 8 ∧ lookupEnv s cur call.a1 true = some e ∧ statusOfWord call.a2 = some .runnable ∨
    SendsTo s cur call e

/-- `sys_env_destroy` of an environment that is not marked as running frees it at once. -/
def FreesAtOnce (s : KState) (cur : EnvIdx) (call : Call) (e : EnvIdx) : Prop :=
  call.Destroys s cur e ∧ (s.envs e).envStatus ≠ .running

/-- The step does neither to an environment that another CPU is running. -/
def SparesRunning (s : KState) (l : CpuIdx × Event) : Prop :=
  ∀ inp tf cur e, l.2 = .trap inp tf → InUser s l.1 cur → tf.tfTrapno = tSyscall →
    Elsewhere s l.1 e → ¬ Wakes s cur (Call.ofTf tf) e ∧ ¬ FreesAtOnce s cur (Call.ofTf tf) e

/-- The CPUs other than `c`. -/
abbrev Besides (c : CpuIdx) : CpuIdx → Prop := fun k => k ≠ c

/-- All CPUs. -/
abbrev Every : CpuIdx → Prop := fun _ => True

section

variable {c : CpuIdx} {cur e : EnvIdx} {s t u : KState} {tf : Trapframe} {call : Call}

theorem Exclusive.enter (h : Exclusive Every s) (c : CpuIdx) : Exclusive (Besides c) s ∧ Own c s := by
  refine ⟨⟨h.list, fun k k' e _ _ => h.sole k k' e trivial trivial,
    fun k e _ => h.status k e trivial, fun k _ => h.idle k trivial⟩, ?_⟩
  rintro cur hc ⟨k, hk, hm, hkc⟩
  by_cases hu : (s.cpus c).mode = .user
  · exact hk (h.sole k c cur trivial trivial hm hu hkc hc)
  · rw [h.idle c trivial hu] at hc
    cases hc

/-- What runs on another CPU keeps off the scheduler's choice. -/
theorem Exclusive.elsewhere (h : Exclusive (Besides c) s) (he : Elsewhere s c e) :
    (s.envs e).envStatus ≠ .free ∧ (s.envs e).envStatus ≠ .runnable := by
  obtain ⟨k, hk, hm, hkc⟩ := he
  exact h.status k e hk hm hkc

theorem elsewhere_congr (hc : ∀ k, k ≠ c → t.cpus k = s.cpus k) :
    Elsewhere t c e ↔ Elsewhere s c e := by
  refine exists_congr fun k => and_congr_right fun hk => ?_
  rw [KState.curenv, KState.curenv, hc k hk]

/-- An update of environments while CPU `c` is in the kernel. -/
theorem Exclusive.update (h : Exclusive (Besides c) s) (hc : ∀ k, k ≠ c → t.cpus k = s.cpus k)
    (hl : ∃ Le, EnvList t Le) (hst : ∀ e, Elsewhere s c e →
      (t.envs e).envStatus ≠ .free ∧ (t.envs e).envStatus ≠ .runnable) :
    Exclusive (Besides c) t := by
  have hcur : ∀ k, k ≠ c → t.curenv k = s.curenv k := fun k hk => by
    rw [KState.curenv, KState.curenv, hc k hk]
  refine ⟨hl, fun k k' e hk hk' => ?_, fun k e hk hm hkc => ?_, fun k hk => ?_⟩
  · rw [hc k hk, hc k' hk', hcur k hk, hcur k' hk']
    exact h.sole k k' e hk hk'
  · rw [hc k hk] at hm
    rw [hcur k hk] at hkc
    exact hst e ⟨k, hk, hm, hkc⟩
  · rw [hc k hk, hcur k hk]
    exact h.idle k hk

theorem Exclusive.alike (h : Exclusive (Besides c) s) (ha : Alike s t)
    (hc : ∀ k, k ≠ c → t.cpus k = s.cpus k)
    (hst : ∀ e, Elsewhere s c e → (t.envs e).envStatus = (s.envs e).envStatus) :
    Exclusive (Besides c) t := by
  obtain ⟨Le, hLe⟩ := h.list
  refine h.update hc ⟨Le, hLe.congr ha.envFreeList ha.dir ha.link ha.free⟩ fun e he => ?_
  rw [hst e he]
  exact h.elsewhere he

theorem Own.congr (h : Own c s) (hc : t.cpus = s.cpus) : Own c t := by
  rintro cur hcur he
  have hx : t.curenv c = s.curenv c := by rw [KState.curenv, KState.curenv, hc]
  exact h cur (hx ▸ hcur) ((elsewhere_congr fun k _ => by rw [hc]).mp he)

/-! ### Leaving the kernel -/

theorem resume_alike {d : Nat} (hlive : (s.envs e).envStatus ≠ .free) :
    Alike s (resume c e d s) := by
  have h1 : Alike s (s.setCurenv c (some e)) := Alike.setCpu s c _
  set s1 := s.setCurenv c (some e)
  have hlive1 : (s1.envs e).envStatus ≠ .free := fun hx => hlive ((h1.free e).mp hx)
  set v1 : Env := { s1.envs e with envStatus := .running, envRuns := (s1.envs e).envRuns + 1 }
  have h2 : Alike s1 (s1.setEnv e v1) := Alike.setEnv rfl rfl (by simp [v1, hlive1])
  have h3 := Alike.lcr3 (s1.setEnv e v1) c d
  set s3 := (s1.setEnv e v1).lcr3 c d
  have h4 : Alike s3 (s3.setEnv e { s3.envs e with envCpunum := c }) := Alike.setEnv rfl rfl Iff.rfl
  exact (((h1.trans h2).trans h3).trans h4).trans (Alike.setCpu _ c _)

theorem Runs.alike (h : Runs c e s t) (hlive : (s.envs e).envStatus ≠ .free) : Alike s t := by
  obtain ⟨pd, -, rfl⟩ := h
  have hp : Alike s (preempt c s) := preempt_alike
  exact hp.trans (resume_alike fun hx => hlive ((hp.free e).mp hx))

theorem Exclusive.runs (h : Exclusive (Besides c) s) (hr : Runs c e s t) (hown : Own c s)
    (he : ¬ Elsewhere s c e) (hlive : (s.envs e).envStatus ≠ .free) : Exclusive Every t := by
  obtain ⟨Le, hLe⟩ := h.list
  have ha := hr.alike hlive
  have hL2 := hLe.congr ha.envFreeList ha.dir ha.link ha.free
  obtain ⟨pd, -, rfl⟩ := hr
  have hout : ∀ k, k ≠ c → (resume c e pd (preempt c s)).cpus k = s.cpus k := fun k hk => by
    rw [resume_cpus, Function.update_of_ne hk, preempt_cpus]
  have hin : (resume c e pd (preempt c s)).curenv c = some e := by
    simp [KState.curenv, resume_cpus]
  have hmode : ((resume c e pd (preempt c s)).cpus c).mode = .user := by simp [resume_cpus]
  have hb := h.update hout ⟨Le, hL2⟩ fun x hx => by
    have hxe : x ≠ e := fun hxe => he (hxe ▸ hx)
    rw [resume_envs, if_neg hxe, preempt_envs, if_neg fun hy => hown x hy.1 hx]
    exact h.elsewhere hx
  have hno : ¬ Elsewhere (resume c e pd (preempt c s)) c e := fun hx =>
    he ((elsewhere_congr hout).mp hx)
  refine ⟨⟨Le, hL2⟩, fun k k' x _ _ hm hm' hx hx' => ?_, fun k x _ hm hx => ?_, fun k _ hm => ?_⟩
  · by_cases hk : k = c
    · subst hk
      by_contra hne
      obtain rfl := Option.some.inj (hin.symm.trans hx)
      exact hno ⟨k', fun hy => hne hy.symm, hm', hx'⟩
    · by_cases hk' : k' = c
      · subst hk'
        obtain rfl := Option.some.inj (hin.symm.trans hx')
        exact absurd ⟨k, hk, hm, hx⟩ hno
      · exact hb.sole k k' x hk hk' hm hm' hx hx'
  · by_cases hk : k = c
    · subst hk
      obtain rfl := Option.some.inj (hin.symm.trans hx)
      rw [resume_envs, if_pos rfl]
      exact ⟨by simp, by simp⟩
    · exact hb.status k x hk hm hx
  · by_cases hk : k = c
    · exact absurd (hk ▸ hmode) hm
    · exact hb.idle k hk hm

theorem Exclusive.yields (h : Exclusive (Besides c) s) (hy : Yields c s t) (hown : Own c s) :
    Exclusive Every t := by
  cases hy with
  | pick hp hr =>
    have hs := schedPick_runnable hp
    exact h.runs hr hown (fun hx => (h.elsewhere hx).2 hs) (by rw [hs]; simp)
  | stay hp hc hs hr => exact h.runs hr hown (hown _ hc) (by rw [hs]; simp)
  | halt hp hc hb =>
    have hout : ∀ k, k ≠ c → (halted c s).cpus k = s.cpus k := fun k hk => by
      rw [halted_cpus, Function.update_of_ne hk]
    have hin : (halted c s).cpus c = ⟨.halted, none, .halted⟩ := by
      rw [halted_cpus, Function.update_self]
    obtain ⟨Le, hLe⟩ := h.list
    have hb := h.update hout ⟨Le, hLe.congr rfl (fun _ => rfl) (fun _ => rfl) fun _ => Iff.rfl⟩
      fun x hx => h.elsewhere hx
    refine ⟨hb.list, fun k k' x _ _ hm hm' => ?_, fun k x _ hm => ?_, fun k _ hm => ?_⟩
    · by_cases hk : k = c
      · rw [hk, hin] at hm
        cases hm
      · by_cases hk' : k' = c
        · rw [hk', hin] at hm'
          cases hm'
        · exact hb.sole k k' x hk hk' hm hm'
    · by_cases hk : k = c
      · rw [hk, hin] at hm
        cases hm
      · exact hb.status k x hk hm
    · by_cases hk : k = c
      · rw [hk, KState.curenv, hin]
      · exact hb.idle k hk hm

theorem Exclusive.returns (h : Exclusive (Besides c) s) (hr : Returns c s t) (hown : Own c s) :
    Exclusive Every t := by
  cases hr with
  | stay hc hs hr => exact h.runs hr hown (hown _ hc) (by rw [hs]; simp)
  | yield _ hy => exact h.yields hy hown

/-! ### System calls -/

/-- Freeing what no other CPU runs. -/
theorem Exclusive.freed (h : Exclusive (Besides c) s) (hlive : (s.envs e).envStatus ≠ .free)
    (he : ¬ Elsewhere s c e) (hu : SameEnvs (freed e s) u) : Exclusive (Besides c) u := by
  obtain ⟨Le, hLe⟩ := h.list
  have henvs : u.envs = Function.update s.envs e { s.envs e with
    envPgdir := none, envStatus := .free, envLink := s.envFreeList } := hu.envs
  refine h.update (fun k _ => by rw [hu.cpus]; rfl)
    ⟨_, hLe.give hlive henvs rfl rfl rfl hu.free⟩ fun x hx => ?_
  have hxe : x ≠ e := fun hxe => he (hxe ▸ hx)
  rw [henvs, Function.update_of_ne hxe]
  exact h.elsewhere hx

/-- A new status for a live environment. -/
theorem Exclusive.setEnv (h : Exclusive (Besides c) s) {v : Env} (hu : SameEnvs (s.setEnv e v) u)
    (hd : v.envPgdir = (s.envs e).envPgdir) (hl : v.envLink = (s.envs e).envLink)
    (hlive : (s.envs e).envStatus ≠ .free) (hv : v.envStatus ≠ .free)
    (he : Elsewhere s c e → v.envStatus ≠ .runnable) : Exclusive (Besides c) u := by
  obtain ⟨Le, hLe⟩ := h.list
  have henvs : u.envs = Function.update s.envs e v := hu.envs
  have hx : ∀ x, x ≠ e → u.envs x = s.envs x := fun x hne => by
    rw [henvs, Function.update_of_ne hne]
  have hself : u.envs e = v := by rw [henvs, Function.update_self]
  refine h.update (fun k _ => by rw [hu.cpus]; rfl) ⟨Le, hLe.congr hu.free (fun x => ?_)
    (fun x => ?_) fun x => ?_⟩ fun x hxe => ?_
  · rcases eq_or_ne x e with rfl | hne
    · rw [hself, hd]
    · rw [hx x hne]
  · rcases eq_or_ne x e with rfl | hne
    · rw [hself, hl]
    · rw [hx x hne]
  · rcases eq_or_ne x e with rfl | hne
    · rw [hself]
      exact ⟨fun h0 => absurd h0 hv, fun h0 => absurd h0 hlive⟩
    · rw [hx x hne]
  · rcases eq_or_ne x e with rfl | hne
    · rw [hself]
      exact ⟨hv, he hxe⟩
    · rw [hx x hne]
      exact h.elsewhere hxe

/-- One system call: it says for each kind of result why no other CPU is concerned. -/
theorem CallDone.exclusive (hd : CallDone s c cur call u) (h : Exclusive (Besides c) s)
    (hcur : (s.envs cur).envStatus ≠ .free)
    (hsp : ∀ e, Elsewhere s c e → ¬ Wakes s cur call e ∧ ¬ FreesAtOnce s cur call e) :
    Exclusive (Besides c) u := by
  cases hd with
  | nothing hu =>
    obtain ⟨Le, hLe⟩ := h.list
    refine h.update (fun k _ => by rw [hu.cpus]) ⟨Le, hLe.congr hu.free (fun _ => by rw [hu.envs])
      (fun _ => by rw [hu.envs]) fun _ => by rw [hu.envs]⟩ fun x hx => ?_
    rw [hu.envs]
    exact h.elsewhere hx
  | @marked e hdes hr hne hu =>
    exact h.setEnv hu rfl rfl (by rw [hr]; simp) (by simp) fun _ => by simp
  | @freed e hdes hr hne hu =>
    exact h.freed (lookupEnv_live hcur hdes.2) (fun hx => (hsp e hx).2 ⟨hdes, hr⟩) hu
  | @forked e p hno hf hu =>
    obtain ⟨Le, hLe⟩ := h.list
    have henvs : u.envs = Function.update s.envs e ((Jos.forked s cur e p).envs e) := by
      rw [hu.envs]
      funext x
      rcases eq_or_ne x e with rfl | hne
      · rw [Function.update_self]
      · simp [Jos.forked, KState.setEnv, hne]
    have hself : (Jos.forked s cur e p).envs e = { newEnv s e (s.envs cur).envId p with
        envStatus := .notRunnable, envTf := ((Jos.forked s cur e p).envs e).envTf } := by
      simp [Jos.forked, KState.setEnv]
    have hfree : u.envFreeList = (s.envs e).envLink := hu.free
    obtain ⟨Lt, rfl, hLt⟩ := hLe.take hf henvs (by rw [hself]; simp)
      (by rw [hself]; simp [newEnv]) hfree
    refine h.update (fun k _ => by rw [hu.cpus]; rfl) ⟨Lt, hLt⟩ fun x hx => ?_
    have hxe : x ≠ e := by
      rintro rfl
      exact (h.elsewhere hx).1 ((hLe.free x).mp (List.mem_cons_self ..))
    rw [henvs, Function.update_of_ne hxe]
    exact h.elsewhere hx
  | @status e st hno hl hst hu =>
    refine h.setEnv hu rfl rfl (lookupEnv_live hcur hl) ?_ fun hx hrun => ?_
    · rcases statusOfWord_ne_free hst with rfl | rfl <;> simp
    · have hst' : st = .runnable := hrun
      exact (hsp e hx).1 (Or.inl ⟨hno, hl, hst' ▸ hst⟩)
  | @upcall e hno hl hu =>
    have hlive := lookupEnv_live hcur hl
    exact h.setEnv hu rfl rfl hlive hlive fun hx => (h.elsewhere hx).2
  | @sent e perm hno hl hr hu =>
    exact h.setEnv hu rfl rfl (lookupEnv_live hcur hl) (by simp)
      fun hx => absurd (Or.inr ⟨hno, hl, hr⟩) (hsp e hx).1

/-! ### One step -/

/-- The frame is saved; nothing else changes for other CPUs. -/
theorem Exclusive.saved (h : Exclusive (Besides c) s) : Exclusive (Besides c) (saved c cur tf s) :=
  h.alike (saved_alike tf) (fun k hk => by simp [Jos.saved, KState.setEnv, KState.setCpu, hk])
    fun e _ => (saved_ids s c cur tf e).1

theorem Own.saved (h : Own c s) : Own c (saved c cur tf s) := by
  rintro x hx he
  exact h x (by rwa [saved_curenv] at hx) ((elsewhere_saved tf x).mp he)

/-- What ran is freed, and another environment is chosen. -/
theorem Exclusive.after_death (h : Exclusive (Besides c) s) (hlive : (s.envs cur).envStatus ≠ .free)
    (he : ¬ Elsewhere s c cur) (hu : SameEnvs (Jos.freed cur s) u)
    (hy : Yields c (u.setCurenv c none) t) : Exclusive Every t := by
  have hf := h.freed hlive he hu
  have hset : Exclusive (Besides c) (u.setCurenv c none) :=
    hf.alike (Alike.setCpu u c _) (fun k hk => Function.update_of_ne hk _ _) fun _ _ => rfl
  refine hset.yields hy ?_
  rintro x hx
  simp [KState.setCurenv, KState.curenv, KState.setCpu] at hx

theorem saved_wakes : Wakes (saved c cur tf s) cur call e ↔ Wakes s cur call e := by
  unfold Wakes
  rw [saved_lookup, saved_sendsTo]

theorem saved_freesAtOnce :
    FreesAtOnce (saved c cur tf s) cur call e ↔ FreesAtOnce s cur call e := by
  unfold FreesAtOnce Call.Destroys
  rw [saved_lookup, (saved_ids s c cur tf e).1]

theorem TrapEffect.exclusive (ht : TrapEffect s c tf t) (h : Exclusive Every s)
    (hsp : ∀ cur e, InUser s c cur → tf.tfTrapno = tSyscall → Elsewhere s c e →
      ¬ Wakes s cur (Call.ofTf tf) e ∧ ¬ FreesAtOnce s cur (Call.ofTf tf) e) :
    Exclusive Every t := by
  obtain ⟨hb, hown⟩ := h.enter c
  have hstart : Exclusive (Besides c) (started c s) :=
    hb.alike (Alike.setCpu s c _) (fun k hk => Function.update_of_ne hk _ _) fun _ _ => rfl
  have hse : ∀ {x}, Elsewhere (started c s) c x ↔ Elsewhere s c x :=
    elsewhere_congr fun k hk => Function.update_of_ne hk _ _
  have hsc : ∀ k, (started c s).curenv k = s.curenv k := by
    intro k
    by_cases hk : k = c
    · subst hk; simp [started, KState.curenv, KState.setCpu]
    · simp [started, KState.curenv, KState.setCpu, hk]
  have hsown : Own c (started c s) := fun x hx he => hown x (by rwa [hsc] at hx) (hse.mp he)
  cases ht with
  | @collected cur u hm hc hdy hu hy =>
    exact hstart.after_death (by show (s.envs cur).envStatus ≠ .free; rw [hdy]; simp)
      (hsown cur ((hsc c).trans hc)) hu hy
  | @faulted cur u hm hc hnd hno hup hu hr =>
    have hlive := (h.status c cur trivial hm hc).1
    have hset := hstart.setEnv hu rfl rfl hlive hlive fun hx => (hstart.elsewhere hx).2
    have hou : Own c u := hsown.congr hu.cpus
    refine hset.runs hr hou (hou cur ?_) ?_
    · rw [KState.curenv, hu.cpus]
      exact (hsc c).trans hc
    · have hst : (u.envs cur).envStatus = (s.envs cur).envStatus := by
        rw [hu.envs]
        simp [Jos.faulted, KState.setEnv, started, KState.setCpu]
      rwa [hst]
  | @killed cur u hm hc hnd hno hno' hu hy =>
    exact hb.saved.after_death (by rw [(saved_ids s c cur tf cur).1]; exact (h.status c cur trivial hm hc).1)
      (hown.saved cur ((saved_curenv tf c).trans hc)) hu hy
  | @called cur u w hm hc hnd hsys hd hr =>
    have hlive : ((Jos.saved c cur tf s).envs cur).envStatus ≠ .free := by
      rw [(saved_ids s c cur tf cur).1]
      exact (h.status c cur trivial hm hc).1
    have hdone := hd.exclusive hb.saved hlive fun e he => by
      rw [saved_wakes, saved_freesAtOnce]
      exact hsp cur e ⟨hm, hc, hnd⟩ hsys ((elsewhere_saved tf e).mp he)
    have hou : Own c u := hown.saved.congr hd.cpus
    have hans : Exclusive (Besides c) (answered u cur w) :=
      hdone.alike (.setEnv rfl rfl Iff.rfl) (fun _ _ => rfl) fun x _ => by
        rcases eq_or_ne x cur with rfl | hne
        · simp [answered, KState.setEnv]
        · simp [answered, KState.setEnv, hne]
    exact hans.returns hr hou
  | @left cur hm hc hnd hsys hl =>
    have hlive : ((Jos.saved c cur tf s).envs cur).envStatus ≠ .free := by
      rw [(saved_ids s c cur tf cur).1]
      exact (h.status c cur trivial hm hc).1
    have hne : ¬ Elsewhere (Jos.saved c cur tf s) c cur :=
      hown.saved cur ((saved_curenv tf c).trans hc)
    cases hl with
    | died hdes hu hy => exact hb.saved.after_death hlive hne hu hy
    | yielded hno hy => exact hb.saved.yields hy hown.saved
    | received hno hy =>
      have hset := hb.saved.setEnv (.refl _) (v := (receiving (Jos.saved c cur tf s) cur
        (Call.ofTf tf).a1).envs cur) (e := cur) ?_ ?_ hlive ?_ fun hx => absurd hx hne
      · have hos : Own c (Jos.saved c cur tf s) := hown.saved
        refine Exclusive.yields ?_ hy (hos.congr rfl)
        convert hset using 1
        simp [receiving, KState.setEnv]
      all_goals simp [receiving, KState.setEnv]
  | timer hm hc hnd hno hy => exact hb.saved.yields hy hown.saved
  | woken hm hno hy => exact hstart.yields hy hsown

theorem Runs.cpus_of_ne (h : Runs c e s t) {k : CpuIdx} (hk : k ≠ c) : t.cpus k = s.cpus k := by
  obtain ⟨pd, -, rfl⟩ := h
  rw [resume_cpus, Function.update_of_ne hk, preempt_cpus]

theorem Returns.cpus_of_ne (h : Returns c s t) {k : CpuIdx} (hk : k ≠ c) : t.cpus k = s.cpus k := by
  cases h with
  | stay _ _ hr => exact hr.cpus_of_ne hk
  | yield _ hy => exact hy.cpus_of_ne hk

/-- A step changes its own CPU only. -/
theorem step_cpus_of_ne {ev : Event} (hst : Step s (c, ev) t) {k : CpuIdx} (hk : k ≠ c) :
    t.cpus k = s.cpus k := by
  have hstart : (started c s).cpus k = s.cpus k := Function.update_of_ne hk _ _
  have hsav : ∀ x tf, (Jos.saved c x tf s).cpus k = s.cpus k := fun x tf => by
    simp [Jos.saved, KState.setEnv, KState.setCpu, hk]
  have hdeath : ∀ {u : KState}, Yields c (u.setCurenv c none) t → t.cpus k = u.cpus k :=
    fun hy => (hy.cpus_of_ne hk).trans (Function.update_of_ne hk _ _)
  cases step_effect hst with
  | @trap inp tf ha ht =>
    cases ht with
    | collected _ _ _ hu hy => exact (hdeath hy).trans ((congrFun hu.cpus k).trans hstart)
    | faulted _ _ _ _ _ hu hr => exact (hr.cpus_of_ne hk).trans ((congrFun hu.cpus k).trans hstart)
    | @killed cur u _ _ _ _ _ hu hy => exact (hdeath hy).trans ((congrFun hu.cpus k).trans (hsav cur tf))
    | @called cur u w _ _ _ _ hd hr => exact (hr.cpus_of_ne hk).trans ((congrFun hd.cpus k).trans (hsav cur tf))
    | @left cur _ _ _ _ hl =>
      cases hl with
      | died _ hu hy => exact (hdeath hy).trans ((congrFun hu.cpus k).trans (hsav cur tf))
      | yielded _ hy => exact (hy.cpus_of_ne hk).trans (hsav cur tf)
      | received _ hy => exact (hy.cpus_of_ne hk).trans (hsav cur tf)
    | @timer cur _ _ _ _ hy => exact (hy.cpus_of_ne hk).trans (hsav cur tf)
    | woken _ _ hy => exact (hy.cpus_of_ne hk).trans hstart
  | store _ ho => rw [ho.cpus]
  | start _ hy => exact hy.cpus_of_ne hk

/-- One step that spares what other CPUs are running. -/
theorem Exclusive.step {l : CpuIdx × Event} (h : Exclusive Every s) (hsp : SparesRunning s l)
    (hst : Step s l t) : Exclusive Every t := by
  obtain ⟨c, ev⟩ := l
  cases step_effect hst with
  | trap ha ht => exact ht.exclusive h fun cur e hu hsys he => hsp _ _ cur e rfl hu hsys he
  | store hm ho =>
    obtain ⟨Le, hLe⟩ := h.list
    refine ⟨⟨Le, hLe.congr ho.envFreeList (fun _ => by rw [ho.envs]) (fun _ => by rw [ho.envs])
      fun _ => by rw [ho.envs]⟩, ?_, ?_, ?_⟩
    · rw [ho.cpus, ho.curenv]
      exact h.sole
    · rw [ho.cpus, ho.curenv, ho.envs]
      exact h.status
    · rw [ho.cpus, ho.curenv]
      exact h.idle
  | start hm hy =>
    obtain ⟨hb, hown⟩ := h.enter c
    exact hb.yields hy hown

theorem Exclusive.run {ls : List (CpuIdx × Event)} (h : Exclusive Every s)
    (hr : Run (restrict SparesRunning Step) s ls t) : Exclusive Every t :=
  hr.invariant (I := Exclusive Every) (fun _ _ _ hI hst => hI.step hst.1 hst.2) h

theorem Booted.exclusive {p : BootParams} (h : Booted p s) : Exclusive Every s := by
  obtain ⟨v, -, h0⟩ := h.first
  have huser : ∀ k, (s.cpus k).mode = .user → k = p.bsp := fun k hm => by
    by_contra hk
    exact (h.others k hk).1 hm
  refine ⟨h.inv.core.envs, fun k k' e _ _ hm hm' _ _ => (huser k hm).trans (huser k' hm').symm,
    fun k e _ hm hk => ?_, fun k _ hm => ?_⟩
  · rw [huser k hm, h.bsp.2] at hk
    obtain rfl := Option.some.inj hk
    rw [h0]
    exact ⟨by simp, by simp⟩
  · by_cases hk : k = p.bsp
    · exact absurd (hk ▸ h.bsp.1) hm
    · exact (h.others k hk).2.1

end

/-- The step spares what other CPUs are running, and a system call in it stays clear of the kernel's
    other unguarded cases. Where the cached translations are not tracked, it uses none that is
    outdated. -/
def Careful (T : Prop) (s : KState) (l : CpuIdx × Event) : Prop :=
  SparesRunning s l ∧ (T ∨ Current s l.1 l.2) ∧ ∀ inp tf cur, l.2 = .trap inp tf → InUser s l.1 cur →
    tf.tfTrapno = tSyscall → (Call.ofTf tf).Safe (saved l.1 cur tf s) cur T l.1

theorem Exclusive.safe {T : Prop} {s : KState} {l : CpuIdx × Event} (h : Exclusive Every s)
    (hc : Careful T s l) : StepSafe T s l := by
  obtain ⟨c, ev⟩ := l
  cases ev with
  | trap inp tf =>
    obtain ⟨-, hown⟩ := h.enter c
    exact ⟨hc.2.1, fun cur hm hcur =>
      ⟨hown cur hcur, fun hnd hsys => hc.2.2 inp tf cur rfl ⟨hm, hcur, hnd⟩ hsys⟩⟩
  | store va b via => exact ⟨hc.2.1, trivial⟩
  | start => exact ⟨hc.2.1, trivial⟩

/-- A careful run keeps both invariants. -/
theorem careful_run {T : Prop} {p : BootParams} {ls : List (CpuIdx × Event)} {s : KState}
    (h : BootRun (Careful T) p ls s) : Exclusive Every s ∧ Inv T s := by
  obtain ⟨s0, hboot, hr⟩ := h
  have hb := boot_booted hboot
  have hinv := hb.inv
  refine hr.invariant (I := fun s => Exclusive Every s ∧ Inv T s) (fun s l t hI hst => ?_)
    ⟨hb.exclusive, hinv.core, fun k => ⟨(hinv.cpus k).running, fun _ => (hinv.cpus k).fresh trivial⟩⟩
  exact ⟨hI.1.step hst.1.1 hst.2, step_inv hI.2 (hI.1.safe hst.1) hst.2⟩

end Jos
