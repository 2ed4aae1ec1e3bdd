import Jos.CowDuppage

/-!
  The steps of a family of environments, in any order.

  Private memory takes every one of them as well (`Good.step`), if memory is not exhausted and `PFTEMP`
  and the counters are as the code takes them to be (`Within`). So every load of a run returns what it
  returns there, and only the environment that takes the step notices it. -/

namespace Jos

open Lib Lib.Cow

namespace CowFork

variable {D : Prop} {upcall : Word} {S T U : Sys} {G : Loans} {I : Memory} {c : CpuIdx} {e y : EnvIdx}
  {o : Occurs} {t : KState} {r : Except Err Word} {l : Label} {ls : List Label}

/-- A step of `fork` or `pgfault`: a system call, or what goes on between two of them. -/
theorem act_go (hact : S.act upcall c e .go = some (T, o)) : (S.threads e).place ≠ .panicked ∧
    ((∃ q r t, (S.threads e).request = some q ∧ perform upcall c q S.kern = .ok r t ∧
      S.answer e r t = (T, o)) ∨
      (S.threads e).request = none ∧ S.advance c e = some (T, o)) := by
  simp only [Sys.act] at hact
  split at hact
  · cases hact
  rename_i hpl
  refine ⟨hpl, ?_⟩
  split at hact
  · rename_i q hq
    split at hact
    · rename_i r t hp
      exact Or.inl ⟨q, r, t, hq, hp, Option.some.inj hact⟩
    · cases hact
  · rename_i hq
    exact Or.inr ⟨hq, hact⟩

/-- With the call that comes next. -/
theorem act_call {q : Request} (hact : S.act upcall c e .go = some (T, o))
    (hq : (S.threads e).request = some q) :
    ∃ r t, perform upcall c q S.kern = .ok r t ∧ S.answer e r t = (T, o) := by
  obtain ⟨-, ⟨q', r, t, hq', hp, ha⟩ | ⟨hno, -⟩⟩ := act_go hact
  · obtain rfl := Option.some.inj (hq.symm.trans hq')
    exact ⟨r, t, hp, ha⟩
  · rw [hq] at hno
    cases hno

/-- Without a call. -/
theorem act_advance (hact : S.act upcall c e .go = some (T, o))
    (hq : (S.threads e).request = none) : S.advance c e = some (T, o) := by
  obtain ⟨-, ⟨q', r, t, hq', -⟩ | ⟨-, ha⟩⟩ := act_go hact
  · rw [hq] at hq'
    cases hq'
  · exact ha

/-- What is not an interrupt is a step of what the CPU runs. -/
theorem act_of_step {a : Act} (ha : a ≠ .yield) (hst : S.step upcall c a = some (T, o)) :
    ∃ e, OnCpu S.kern c e ∧ S.act upcall c e a = some (T, o) := by
  have hstep : S.user upcall c a = some (T, o) := by
    cases a with
    | yield => exact absurd rfl ha
    | _ => exact hst
  unfold Sys.user at hstep
  cases hcur : S.kern.curenv c with
  | none =>
    rw [hcur] at hstep
    cases hstep
  | some e =>
    simp only [hcur] at hstep
    split at hstep
    · rename_i hmode
      exact ⟨e, ⟨hmode, hcur⟩, hstep⟩
    · cases hstep

/-- A system call finds the memory that it needs, and a counter that does not wrap. -/
structure Request.Ready (s : KState) (e : EnvIdx) (q : Request) : Prop where
  affordable : q.Affordable s e
  counted : q.Counted s e

/-- The next step of `pgfault`. -/
theorem Good.goFault (h : Good D S G I) (hc : OnCpu S.kern c e) {pl : Place} {fl : Fault}
    (hth : S.threads e = ⟨pl, some fl⟩)
    (hready : ∀ q, (S.threads e).request = some q → q.Ready S.kern e)
    (hact : S.act upcall c e .go = some (T, o)) : Matched D S e I T o := by
  have hfl : (S.threads e).fault = some fl := by rw [hth]
  have hpl : (S.threads e).place = pl := by rw [hth]
  have hself : lookupEnv S.kern e 0 true = some e := Fork.lookupEnv_self ..
  -- what follows from a successful call
  have hans : ∀ {r t G'}, S.answer e r t = (T, o) → r = .ok 0 →
      Moved D S e ⟨t, Function.update S.threads e ⟨(S.threads e).place, fl.next⟩⟩ G' I →
      Matched D S e I T o := by
    intro r t G' hans hr hg
    subst hr
    rw [hpl] at hg
    have hm := matched_answer (r := .ok 0) (o := .quiet) hth rfl (fun x hx => by cases hx) trivial rfl hg
    rw [hans] at hm
    exact hm
  cases fl with
  | map a =>
    have hq : (S.threads e).request = some (.map a 0 pftemp (pteU ||| pteP)) := by rw [hth]; rfl
    obtain ⟨r, t, hp, ha⟩ := act_call hact hq
    obtain ⟨hr, G', hg⟩ := h.faultMap hc hfl (hready _ hq).counted ((hready _ hq).affordable e hself) hp
    exact hans ha hr hg
  | alloc a =>
    have hq : (S.threads e).request = some (.alloc 0 a (pteW ||| pteU ||| pteP)) := by rw [hth]; rfl
    obtain ⟨r, t, hp, ha⟩ := act_call hact hq
    obtain ⟨hr, G', hg⟩ := h.faultAlloc hc hfl ((hready _ hq).affordable e hself) hp
    exact hans ha hr hg
  | copy a k =>
    by_cases hk : k < pgsize
    · have hq : (S.threads e).request = none := by
        rw [hth]
        exact if_pos hk
      obtain ⟨rfl, hg⟩ := h.faultCopy hc hfl hk (act_advance hact hq)
      exact ⟨trivial, G, hg⟩
    · have hq : (S.threads e).request = some (.unmap pftemp) := by
        rw [hth]
        exact if_neg hk
      obtain ⟨r, t, hp, ha⟩ := act_call hact hq
      obtain ⟨hr, G', hg⟩ := h.faultUnmap hc hfl hk hp
      exact hans ha hr hg

/-- The next step of `fork`. -/
theorem Good.goFork (h : Good D S G I) (hc : OnCpu S.kern c e) {pl : Place}
    (hth : S.threads e = ⟨pl, none⟩)
    (hready : ∀ q, (S.threads e).request = some q → q.Ready S.kern e)
    (hact : S.act upcall c e .go = some (T, o)) : Matched D S e I T o := by
  have hfl : (S.threads e).fault = none := by rw [hth]
  have hpl : (S.threads e).place = pl := by rw [hth]
  have hself : lookupEnv S.kern e 0 true = some e := Fork.lookupEnv_self ..
  have hask : ∀ {q}, pl.request = some q → (S.threads e).request = some q := fun hq => by
    rw [hth]
    exact hq
  -- a system call returned
  have hcall : ∀ {q}, pl.request = some q →
      (∀ r t, perform upcall c q S.kern = .ok r t →
        Matched D S e I (S.answer e r t).1 (S.answer e r t).2) → Matched D S e I T o := by
    intro q hq hans
    obtain ⟨r, t, hp, ha⟩ := act_call hact (hask hq)
    have hm := hans r t hp
    rw [ha] at hm
    exact hm
  cases pl with
  | program =>
    have ha := act_advance hact (by rw [hth]; rfl)
    simp only [Sys.advance, hth] at ha
    cases ha
  | panicked => exact absurd hpl (act_go hact).1
  | handler =>
    refine hcall rfl fun r t hp => ?_
    obtain ⟨rfl, hg⟩ := h.handler hc hth ((hready _ (hask rfl)).affordable e hself) hp
    exact matched_answer hth rfl (fun x hx => by cases hx) trivial rfl hg
  | upcall =>
    refine hcall rfl fun r t hp => ?_
    obtain ⟨rfl, hg⟩ := h.record hc hfl hself hp .exofork (fun _ => trivial)
      fun x hx => by cases hx
    exact matched_answer hth rfl (fun x hx => by cases hx) trivial rfl hg
  | exofork =>
    refine hcall rfl fun r t hp => ?_
    have ha := (hready _ (hask rfl)).affordable
    obtain ⟨id, rfl, hslt, hne0, G', hg⟩ := h.exofork hc hth ha.1 ha.2 hp
    have hocc : Thread.occurs S.kern e (.ok id) ⟨.exofork, none⟩ = .born (envx id) := by
      simp only [Thread.occurs, Place.occurs, hslt, hne0, or_self, Bool.false_eq_true, if_false]
    have hnext : Thread.next (pteOf S.kern e (Fork.pageVa 0)) (.ok id) ⟨.exofork, none⟩ =
        ⟨.scan id 0, none⟩ := by
      simp only [Thread.next, Place.next, retCode, hslt, hne0, Bool.false_eq_true, if_false]
    simp only [Sys.answer, hth, hocc, Place.page, hnext]
    exact ⟨trivial, G', hg⟩
  | scan envid pn =>
    obtain ⟨rfl, hg⟩ := h.scan hc hth (act_advance hact (by rw [hth]; rfl))
    exact ⟨trivial, G, hg⟩
  | enter envid pn =>
    obtain ⟨rfl, hg⟩ := h.enter hc hth (act_advance hact (by rw [hth]; rfl))
    exact ⟨trivial, G, hg⟩
  | dup envid pn pte =>
    have hr := hready _ (hask rfl)
    exact hcall rfl fun r t hp => h.dup hc hth hr.counted hr.affordable hp
  | own envid pn was =>
    have hr := hready _ (hask rfl)
    exact hcall rfl fun r t hp => h.own hc hth hr.counted (hr.affordable e hself) hp
  | stack envid => exact hcall rfl fun r t hp => h.stack hc hth (hready _ (hask rfl)).affordable hp
  | childUpcall envid =>
    refine hcall rfl fun r t hp => ?_
    have hb : Builds S.kern G I e envid (pgnum ustacktop) fun _ => False := by
      have hpl := h.place e
      rw [hth] at hpl
      exact hpl
    obtain ⟨d, hd⟩ := hb.child
    obtain ⟨rfl, hg⟩ := h.record hc hfl hd.look hp (.start envid)
      (fun hpl => by rw [hth] at hpl; exact hpl) fun x hx => by rw [hth]; exact hx
    exact matched_answer hth rfl (fun x hx => by cases hx) trivial rfl hg
  | start envid => exact hcall rfl fun r t hp => h.start hc hth hp

/-- What a step counts on without checking it: `PFTEMP` at a fault, and a counter at a call. -/
structure Counts (S : Sys) (c : CpuIdx) (e : EnvIdx) (a : Act) : Prop where
  temp : ∀ va b, a = .store va b → userAccess S.kern c userWrite va = none →
    pteOf S.kern e va &&& pteCow ≠ 0 → mappedAt S.kern e pftemp = none
  ready : ∀ q, a = .go → (S.threads e).request = some q → q.Ready S.kern e

theorem Spares.counts (h : Spares S l) (haff : Affords S l) (hc : S.kern.curenv l.cpu = some e) :
    Counts S l.cpu e l.act :=
  ⟨fun va b ha => h.temp e va b ha hc, fun q ha hq => ⟨haff e q ha hc hq, h.counted e q ha hc hq⟩⟩

/-- Private memory takes every step of an environment. -/
theorem Good.act {a : Act} (h : Good D S G I) (hc : OnCpu S.kern c e) (hk : Counts S c e a)
    (hact : S.act upcall c e a = some (T, o)) : Matched D S e I T o := by
  cases a with
  | load va => exact h.load hc hact
  | store va b => exact h.store hc (hk.temp va b rfl) hact
  | fork first => exact h.fork hc hact
  | go =>
    cases hth : S.threads e with
    | mk pl fl =>
      cases fl with
      | none => exact h.goFork hc hth (hk.ready · rfl) hact
      | some fl => exact h.goFault hc hth (hk.ready · rfl) hact
  | exit => exact h.exit hc hact
  | yield => cases hact

/-- Private memory takes every step, and only what the CPU runs notices it. -/
theorem Good.step (h : Good D S G I) (hst : Step upcall S l T) (haff : Affords S l) (hsp : Spares S l) :
    I.Allows l.occurs ∧ (∃ G', Good D T G' (I.after l.occurs)) ∧
      ∀ y, S.kern.curenv l.cpu ≠ some y → Started S.kern y → Untouched S.kern T.kern y := by
  obtain ⟨c, a, o⟩ := l
  by_cases hy : a = .yield
  · subst hy
    obtain ⟨hal, G', hg, hothers⟩ := h.yield hst
    exact ⟨hal, ⟨G', hg⟩, fun y _ _ => hothers y⟩
  obtain ⟨e, hc, hact⟩ := act_of_step hy hst
  obtain ⟨hal, G', hg⟩ := h.act hc (hsp.counts haff hc.current) hact
  exact ⟨hal, ⟨G', hg.good⟩, fun y hne => hg.others y fun hx => hne (hx ▸ hc.current)⟩

/-! ### Runs -/

/-- Memory is not exhausted in this step, and what the code does not check holds. -/
def Within (S : Sys) (l : Label) : Prop := Affords S l ∧ Spares S l

/-- No page is lent, and nothing is being copied. -/
def nothingLent : Loans := ⟨fun _ _ => False, fun _ => none⟩

/-- Everybody is in the program, and nobody shares what it may write to. -/
theorem good_of_alone (h : Sound D S.kern) (ha : Alone S.kern) (hth : ∀ e, S.threads e = CowFork.idle) :
    Good D S nothingLent (memoryOf S.kern) := by
  refine ⟨h, ⟨fun _ _ _ _ => rfl, fun e p hl => hl.elim, fun e p f hs e' p' a hs' =>
      Or.inl (ha e p f hs e' p' a hs'), fun e p hp => (by cases hp)⟩, fun _ _ hl => hl.elim,
    fun e _ => hth e, fun e => ?_, fun e => ?_, fun e e' x hx => ?_⟩
  · rw [hth]
    exact rfl
  · rw [hth]
    exact trivial
  · rw [hth] at hx
    cases hx

/-- Private memory takes every run, and the kernel's tables stand for it at the end. -/
theorem Good.run (h : Good D S G I) (hrun : Run (restrict Within (Step upcall)) S ls T) :
    I.Follows (ls.map Label.occurs) ∧ ∃ G', Good D T G' ((ls.map Label.occurs).foldl Memory.after I) := by
  induction hrun generalizing G I with
  | nil => exact ⟨trivial, G, h⟩
  | cons hst _ ih =>
    obtain ⟨hal, ⟨G', hg⟩, -⟩ := h.step hst.2 hst.1.1 hst.1.2
    obtain ⟨hfol, hend⟩ := ih hg
    exact ⟨⟨hal, hfol⟩, hend⟩

/-! ### Runs of programs that leave `PFTEMP` to `pgfault` -/

/-- Nobody has a page at `PFTEMP` in private memory. -/
def Memory.TempFree (I : Memory) : Prop := ∀ e, I e temp = none

theorem Good.slot_none (h : Good D S G I) (hc : OnCpu S.kern c e) (hfl : (S.threads e).fault = none)
    (hI : I e p = none) : (frames S.kern).slot e p = none := by
  have hshown := h.shown hc hfl p
  rw [hI] at hshown
  exact Option.map_eq_none_iff.mp hshown.symm

/-- With `PFTEMP` left to `pgfault` and few addresses for each frame, no step goes beyond what the
    code counts on. -/
theorem Good.spares (h : Good D S G I) (hD : D) (ht : I.TempFree) (hst : Step upcall S l T) :
    Spares S l := by
  obtain ⟨c, a, o⟩ := l
  refine ⟨fun e va b ha hcur hno hcow => ?_, fun e q ha hcur hq => ?_⟩
  · subst ha
    obtain ⟨e', hc, hact⟩ := act_of_step (by simp) hst
    obtain rfl := Option.some.inj (hcur.symm.trans hc.current)
    replace hno : userAccess S.kern c userWrite va = none := hno
    simp only [Sys.act, hno, if_neg hcow] at hact
    split at hact
    swap
    · cases hact
    rename_i hreach
    split at hact
    swap
    · cases hact
    rename_i hlow
    have hfl : (S.threads e).fault = none := hreach.2.2.resolve_right fun hst => by
      rw [BitVec.le_def] at hst
      rw [BitVec.lt_def] at hlow
      omega
    exact h.kern.unmapped (h.slot_none hc hfl (ht e))
  · exact h.kern.counted hD q

theorem occurs_zeroed {th : Thread} {s : KState} (h : th.occurs s e r = .zeroed y p) :
    p = pageOf Fork.uxstackPage := by
  obtain ⟨pl, fl⟩ := th
  cases fl with
  | some fl =>
    cases r with
    | ok id => cases h
    | error err => cases h
  | none =>
    cases pl with
    | handler =>
      cases r with
      | error err => cases h
      | ok id =>
        cases h
        rfl
    | stack envid =>
      cases r with
      | error err => cases h
      | ok id =>
        cases h
        rfl
    | exofork =>
      cases r with
      | error err => cases h
      | ok id =>
        simp only [Thread.occurs, Place.occurs] at h
        split at h
        · cases h
        · cases h
    | dup envid pn pte =>
      simp only [Thread.occurs, Place.occurs] at h
      split at h
      · cases h
      · split at h
        · cases r with
          | error err => cases h
          | ok id =>
            simp only at h
            split at h
            · cases h
            · cases h
        · cases h
    | own envid pn was =>
      cases r with
      | error err => cases h
      | ok id =>
        simp only [Thread.occurs, Place.occurs] at h
        split at h
        · cases h
        · cases h
    | _ =>
      cases r with
      | error err => cases h
      | ok id => cases h

theorem answer_occurs : (S.answer e r t).2 = (S.threads e).occurs S.kern e r := by
  simp only [Sys.answer]
  split
  · rfl
  · rfl

/-- Between two system calls nothing is seen but that the library panics. -/
theorem advance_occurs (h : S.advance c e = some (T, o)) : o = .quiet ∨ o = .broke e := by
  simp only [Sys.advance] at h
  split at h
  · split at h
    · cases h
      exact Or.inl rfl
    · cases h
      exact Or.inr rfl
  · cases h
  · split at h
    · split at h
      · split at h
        · cases h
          exact Or.inl rfl
        · cases h
          exact Or.inl rfl
      · cases h
        exact Or.inl rfl
    · cases h
      exact Or.inl rfl
    · cases h

/-- The only pages that are made are exception stacks. -/
theorem zeroed_of_step (hst : Step upcall S l T) (ho : l.occurs = .zeroed y p) :
    p = pageOf Fork.uxstackPage := by
  obtain ⟨c, a, o⟩ := l
  replace ho : o = .zeroed y p := ho
  subst ho
  by_cases hy : a = .yield
  · subst hy
    simp only [Step, Sys.step] at hst
    split at hst
    · cases hst
    · obtain ⟨u, -, hu⟩ := Option.map_eq_some_iff.mp hst
      cases hu
  obtain ⟨e, -, hact⟩ := act_of_step hy hst
  cases a with
  | go =>
    obtain ⟨-, ⟨q, r, t, -, -, hans⟩ | ⟨-, hadv⟩⟩ := act_go hact
    · exact occurs_zeroed (answer_occurs.symm.trans (congrArg Prod.snd hans))
    · rcases advance_occurs hadv with h | h
      · cases h
      · cases h
  | load va =>
    simp only [Sys.act] at hact
    split at hact
    · split at hact
      · cases hact
      · cases hact
    · cases hact
  | store va b =>
    simp only [Sys.act] at hact
    split at hact
    · split at hact
      · cases hact
      · split at hact
        · cases hact
        · split at hact
          · cases hact
          · cases hact
    · cases hact
  | fork first =>
    simp only [Sys.act] at hact
    split at hact
    · cases hact
    · cases hact
  | exit =>
    simp only [Sys.act] at hact
    split at hact
    · cases hact
    · cases hact
  | yield => cases hact

theorem Memory.TempFree.after (ht : I.TempFree) (hst : Step upcall S l T) :
    (I.after l.occurs).TempFree := by
  intro x
  have hset : ∀ {e p z}, (p = temp → z = none) → I.setPage e p z x temp = none := by
    intro e p z hz
    by_cases hn : x = e ∧ temp = p
    · obtain ⟨rfl, rfl⟩ := hn
      exact setPage_self.trans (hz rfl)
    · exact (setPage_of_ne hn).trans (ht x)
  have hempty : ∀ {e}, Function.update I e (fun _ => none) x temp = none := by
    intro e
    rcases eq_or_ne x e with rfl | hne
    · rw [Function.update_self]
    · rw [Function.update_of_ne hne]
      exact ht x
  cases ho : l.occurs with
  | write e va b => exact hset fun hp => by rw [hp, ht e]; rfl
  | zeroed e p =>
    have hp := zeroed_of_step hst ho
    exact hset fun hx => absurd (hp.symm.trans hx) (by decide)
  | copied e child p => exact hset fun hp => by rw [hp]; exact ht e
  | born child => exact hempty
  | gone e => exact hempty
  | _ => exact ht x

/-- Programs that leave `PFTEMP` to `pgfault` run within what the code counts on. -/
theorem Good.within (h : Good D S G I) (hD : D) (ht : I.TempFree)
    (hrun : Run (restrict Affords (Step upcall)) S ls T) : Run (restrict Within (Step upcall)) S ls T ∧
      ((ls.map Label.occurs).foldl Memory.after I).TempFree := by
  induction hrun generalizing G I with
  | nil => exact ⟨.nil _, ht⟩
  | cons hst _ ih =>
    have hsp := h.spares hD ht hst.2
    obtain ⟨-, ⟨G', hg⟩, -⟩ := h.step hst.2 hst.1 hsp
    obtain ⟨hrest, hend⟩ := ih hg (ht.after hst.2)
    exact ⟨.cons ⟨⟨hst.1, hsp⟩, hst.2⟩ hrest, hend⟩

theorem Memory.Follows.after {os os' : List Occurs} (h : I.Follows (os ++ os')) :
    (os.foldl Memory.after I).Follows os' := by
  induction os generalizing I with
  | nil => exact h
  | cons o os ih => exact ih h.2

/-- What a started environment finds is what its tables show. -/
theorem Sound.finds {s : KState} (h : Sound D s) (hy : Started s y) {va : Word} (hva : va < utop) :
    finds s y va = ((frames s).slot y (pageOf va)).map fun x => (s.mem x.1).byte (pgoff va) := by
  obtain ⟨Le, hLe⟩ := h.inv.core.envs
  cases hd : (s.envs y).envPgdir with
  | none => exact absurd ((hLe.dir y).mp hd) hy.1
  | some d =>
    rw [CowFork.finds, hd]
    simp only [Option.bind_some, h.tables.reads hd hva, Option.map_map]
    rfl

theorem Untouched.finds {s t : KState} (h : Untouched s t y) (hs : Sound D s) (ht : Sound D t)
    (hy : Started s y) {va : Word} (hva : va < utop) :
    CowFork.finds t y va = CowFork.finds s y va := by
  rw [ht.finds (hy.stays h.stays) hva, hs.finds hy hva, h.slot]
  cases hx : (frames s).slot y (pageOf va) with
  | none => rfl
  | some x => rw [Option.map_some, Option.map_some, h.data _ x.1 x.2 hx]

end CowFork

end Jos
