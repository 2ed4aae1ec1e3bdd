import Jos.CowPgfault

/-!
  The steps of `fork`, against private memory.

  Where the parent has a page to itself, `duppage` first lends it to the child, and private memory
  copies it when the parent gives up writing to it. Any other page is copied with the child's entry. -/

namespace Jos

open Lib Lib.Cow

namespace CowFork

variable {D : Prop} {upcall w : Word} {S T : Sys} {G G' : Loans} {I I' : Memory} {c : CpuIdx} {e x : EnvIdx}
  {o : Occurs} {p : PageNo} {t : KState} {th th' : Thread} {f pn n : Nat} {envid was pte : Word}
  {y : Option (Nat × Access)} {r : Except Err Word} {P : PageNo → Prop}

theorem Good.slot_of_page (h : Good D S G I) (hc : OnCpu S.kern c e)
    (hfl : (S.threads e).fault = none) {z : Copy Page} (hz : I e p = some z) :
    ∃ f a, (frames S.kern).slot e p = some (f, a) ∧ z = ⟨decide (a ≠ .readOnly), S.kern.mem f⟩ := by
  have hs := h.shown hc hfl p
  rw [hz] at hs
  cases hslot : (frames S.kern).slot e p with
  | none =>
    rw [Frames.shown, hslot] at hs
    cases hs
  | some y =>
    obtain ⟨f, a⟩ := y
    rw [shown_of_slot hslot] at hs
    exact ⟨f, a, rfl, Option.some.inj hs⟩

/-- What holds of the child of a thread. -/
theorem Good.waiting (h : Good D S G I) (hx : (S.threads e).place.child = some x) :
    x ≠ e ∧ (∀ y, y ≠ e → (S.threads y).place.child ≠ some x) ∧ S.threads x = CowFork.idle ∧
      FaultOk S.kern G x none ∧ (S.kern.envs x).envStatus = .notRunnable ∧ ¬ Started S.kern x := by
  obtain ⟨hst, hne⟩ := (h.place e).asleep hx
  have hi := h.idle x (Or.inl hst)
  have hf := h.fault x
  rw [hi] at hf
  exact ⟨hne, fun y hy hyx => hy (h.single y e x hyx hx), hi, hf, hst, fun hs => hs.2 hst⟩

/-- A call puts one entry of the child. -/
theorem Good.putChild (h : Good D S G I) (hc : OnCpu S.kern c e) (hfl : (S.threads e).fault = none)
    (hx : (S.threads e).place.child = some x) (hs : Sound D t) (ho : t.envs = S.kern.envs)
    (hput : (frames S.kern).Puts (frames t) x p y) (hag : Agrees temp (frames t) G' I')
    (hheld : G'.held = G.held)
    (hlent : ∀ z q, z ≠ x → (G'.lent z q ↔ G.lent z q)) (hI : ∀ z q, z ≠ x → I' z q = I z q)
    (pl : Place) (hpl : PlaceOk t G' I' e pl)
    (hch : ∀ x, pl.child = some x → (S.threads e).place.child = some x) :
    Moved D S e ⟨t, Function.update S.threads e ⟨pl, none⟩⟩ G' I' := by
  obtain ⟨hne, hothers, hi, hfx, hst, hns⟩ := h.waiting hx
  have hheld0 := h.fault_none hfl
  have hslot : ∀ z q, z ≠ x → (frames t).slot z q = (frames S.kern).slot z q :=
    fun z q hz => hput.rest z q fun hx => hz hx.1
  have hstx : (t.envs x).envStatus = .notRunnable := by
    rw [ho]
    exact hst
  refine h.move (h.running hc) hs hag (X := (· = x)) (fun z hz => ?_) (fun z _ hz => ⟨fun q =>
    hslot z q hz, by rw [hheld], fun q => hlent z q hz, fun q => by rw [hI z q hz],
    .of_eq (by rw [ho])⟩) (fun z _ hz q g a hq _ => hput.mapped_of_rest (fun hx => hz hx.1) hq)
    (fun q hq => absurd ((hlent e q hne.symm).mp hq) (h.not_lent hc hfl)) (fun hste => ?_)
    ((congrFun hheld e).trans hheld0) hpl fun x hx' => Or.inl (hch x hx')
  · subst hz
    exact ⟨hne, hothers, hi, (congrFun hheld z).trans hfx, fun q _ => hstx, hns⟩
  · rw [ho, h.running hc] at hste
    exact absurd hste (by simp)

/-! ### `sys_exofork` and the calls around the loop -/

/-- `set_pgfault_handler` gives the environment an exception stack. -/
theorem Good.handler (h : Good D S G I) (hc : OnCpu S.kern c e) (hth : S.threads e = ⟨.handler, none⟩)
    (hmem : PagesFree S.kern (1 + tablesMissing S.kern e Fork.uxstackPage))
    (hrun : perform upcall c (.alloc 0 Fork.uxstackPage (pteU ||| pteW ||| pteP)) S.kern = .ok r t) :
    r = .ok 0 ∧ Moved D S e ⟨t, Function.update S.threads e ⟨.upcall, none⟩⟩ G
      (I.after (.zeroed e (pageOf Fork.uxstackPage))) := by
  have hfl : (S.threads e).fault = none := by rw [hth]
  have hheld := h.fault_none hfl
  obtain ⟨rfl, hs, ho, g, hfresh, hzero, hput⟩ := h.kern.alloc hc (Fork.lookupEnv_self ..)
    (h.kern.dir hc) (by decide) (by decide) (by decide) (by decide) (by decide) (h.kern.sole hc) hmem hrun
  refine ⟨rfl, h.put hc hs ho hput (h.agrees.fresh hput hfresh (h.not_lent hc hfl)
    rfl (fun _ _ => rfl) (fun _ _ hn => setPage_of_ne hn) (Or.inl ⟨hheld, hheld, ?_⟩))
    (fun _ _ _ => Iff.rfl) (fun q hq => absurd hq (h.not_lent hc hfl))
    (fun _ _ => rfl) (fun z hz q => setPage_of_ne fun hx => hz hx.1) hheld trivial
    fun x hx => by cases hx⟩
  rw [Memory.after, setPage_self]
  exact congrArg some (congrArg (Copy.mk true) hzero.symm)

/-- A call that only writes into a record. -/
theorem Good.record (h : Good D S G I) (hc : OnCpu S.kern c e) (hfl : (S.threads e).fault = none)
    (hl : lookupEnv S.kern e envid true = some x)
    (hrun : perform upcall c (.setUpcall envid) S.kern = .ok r t) (pl : Place)
    (hpl : ∀ {t}, PlaceOk t G I e (S.threads e).place → PlaceOk t G I e pl)
    (hch : ∀ x, pl.child = some x → (S.threads e).place.child = some x) :
    r = .ok 0 ∧ Moved D S e ⟨t, Function.update S.threads e ⟨pl, none⟩⟩ G I := by
  obtain ⟨rfl, hs, hp, hm, hcpus, hst⟩ := h.kern.setUpcall hc hl hrun
  obtain ⟨hsame, hun⟩ := h.same hs hp hm hst
  have hg : Moved D S e { S with kern := t } G I := ⟨hsame, fun y _ _ => hun y⟩
  exact ⟨rfl, hg.trans (hg.good.goto (hc.of_cpus hcpus) (fun hb => by
    rw [show (S.threads e).fault = none from hfl] at hb
    exact hb) (hg.good.fault_none hfl)
    (hpl (hg.good.place e)) hch)⟩

/-- `sys_exofork`. -/
theorem Good.exofork (h : Good D S G I) (hc : OnCpu S.kern c e) (hth : S.threads e = ⟨.exofork, none⟩)
    (hmem : PagesFree S.kern 1) (hfree : S.kern.envFreeList ≠ none)
    (hrun : perform upcall c .exofork S.kern = .ok r t) :
    ∃ id, r = .ok id ∧ id.slt 0 = false ∧ id ≠ 0 ∧ ∃ G',
      Moved D S e ⟨t, Function.update (Function.update S.threads e ⟨.scan id 0, none⟩) (envx id) CowFork.idle⟩
        G' (I.after (.born (envx id))) := by
  obtain ⟨x, id, rfl, hslt, hne0, hs, hb⟩ := h.kern.exofork hc hmem hfree hrun
  have hfl : (S.threads e).fault = none := by rw [hth]
  have hheld0 := h.fault_none hfl
  have hxe : x ≠ e := by
    rintro rfl
    have hb := hb.before
    rw [h.running hc] at hb
    cases hb
  have hidle := h.idle x (Or.inr hb.before)
  refine ⟨id, rfl, hslt, hne0, ?_⟩
  rw [hb.index]
  have hthreads : Function.update (Function.update S.threads e ⟨.scan id 0, none⟩) x CowFork.idle =
      Function.update S.threads e ⟨.scan id 0, none⟩ := by
    rw [← hidle, ← Function.update_of_ne hxe (⟨.scan id 0, none⟩ : Thread) S.threads]
    exact Function.update_eq_self ..
  rw [hthreads]
  set G' : Loans := ⟨fun z q => z ≠ x ∧ G.lent z q, fun z => if z = x then none else G.held z⟩ with hG
  have hlent : ∀ z q, z ≠ x → (G'.lent z q ↔ G.lent z q) := fun z q hz => and_iff_right hz
  have hheld : ∀ z, z ≠ x → G'.held z = G.held z := fun z hz => by simp only [hG, if_neg hz]
  have hself : ∀ q, ¬ G'.lent x q := fun q hl => hl.1 rfl
  have hnone : G'.held x = none := by simp only [hG, if_true]
  have hI : ∀ z q, z ≠ x → I.after (.born x) z q = I z q := fun z q hz => by
    rw [Memory.after, Function.update_of_ne hz]
  have hIx : ∀ q, I.after (.born x) x q = none := fun q => by rw [Memory.after, Function.update_self]
  refine ⟨G', h.move (h.running hc) hs (h.agrees.clear hb.empty (fun z q hz => hb.slot z hz q) hb.data
    hlent hnone hheld hIx hI) (X := (· = x)) (fun z hz => ?_)
    (fun z _ hz => ⟨hb.slot z hz, hheld z hz, fun q => hlent z q hz, fun q => by rw [hI z q hz],
      .of_eq (hb.envs z hz)⟩) (fun z _ hz q g a hq _ => hb.data g ⟨z, q, a, (hb.slot z hz q).trans hq⟩)
    (fun q hq => absurd hq.2 (h.not_lent hc hfl)) (fun hst => ?_)
    ((hheld e hxe.symm).trans hheld0) ?_ fun z hz => Or.inr ?_⟩
  · subst hz
    refine ⟨hxe, fun y _ hy => ?_, hidle, hnone, fun q hq => absurd hq (hself q),
      fun hst => hst.1 hb.before⟩
    have hst := ((h.place y).asleep hy).1
    rw [hb.before] at hst
    cases hst
  · rw [hb.envs e hxe.symm, h.running hc] at hst
    exact absurd hst (by simp)
  · have hix := hb.index
    refine ⟨by rw [hix]; exact hb.child, by rw [hix]; exact hb.status,
      fun n hn => absurd hn (Nat.not_lt_zero n), fun n _ _ => by rw [hix]; exact hIx _,
      fun q hq => hself q (by rwa [hix] at hq)⟩
  · exact (Option.some.inj hz).symm.trans hb.index

/-! ### The loop -/

theorem Builds.next (h : Builds S.kern G I e envid n P)
    (hn : n < pgnum ustacktop → (I (envx envid) (nth n)).map Copy.writable =
      (I e (nth n)).map Copy.writable) : Builds S.kern G I e envid (n + 1) P := by
  refine ⟨h.child, h.asleep, fun m hm hl => ?_, fun m hm => h.rest m (by omega), h.lent⟩
  rcases Nat.lt_succ_iff_lt_or_eq.mp hm with hm | rfl
  · exact h.copied m hm hl
  · exact hn hl

theorem entryAccess_isSome : (entryAccess w).isSome ↔ w &&& pteP ≠ 0 ∧ w &&& pteU ≠ 0 := by
  unfold entryAccess
  split
  · rename_i hw
    exact iff_of_true rfl hw
  · rename_i hw
    exact iff_of_false (by simp) hw

theorem access_ne_readOnly : (if w &&& pteW ≠ 0 then Access.own
    else if w &&& pteCow ≠ 0 then .cow else .readOnly) ≠ .readOnly ↔
      w &&& pteW ≠ 0 ∨ w &&& pteCow ≠ 0 := by
  split
  · rename_i hw
    exact iff_of_true (by simp) (Or.inl hw)
  · rename_i hw
    split
    · rename_i hc
      exact iff_of_true (by simp) (Or.inr hc)
    · rename_i hc
      exact iff_of_false (fun hx => hx rfl) (not_or.mpr ⟨hw, hc⟩)

/-- `fork` copies the pages that private memory has. -/
theorem Good.present_iff (h : Good D S G I) (pn : Nat) (hc : OnCpu S.kern c e)
    (hfl : (S.threads e).fault = none) :
    (pdeAt S.kern (some e) (pdx (Fork.pageVa pn)) &&& pteP ≠ 0 ∧
      pteOf S.kern e (Fork.pageVa pn) &&& pteP ≠ 0 ∧ pteOf S.kern e (Fork.pageVa pn) &&& pteU ≠ 0) ↔
      ∃ z, I e (nth pn) = some z := by
  have hshown := h.shown hc hfl (nth pn)
  have hslot : (∃ z, I e (nth pn) = some z) ↔
      pteOf S.kern e (Fork.pageVa pn) &&& pteP ≠ 0 ∧ pteOf S.kern e (Fork.pageVa pn) &&& pteU ≠ 0 := by
    rw [hshown, Frames.shown, nth, slot_pageOf, ← entryAccess_isSome, ← Option.isSome_iff_exists,
      Option.isSome_map]
  rw [hslot]
  refine ⟨And.right, fun hw => ⟨fun hpde => hw.1 ?_, hw⟩⟩
  have htab : tabFrame S.kern (some e) (pdx (Fork.pageVa pn)) = none := by
    unfold tabFrame
    split
    · exact entryFrame_eq_none.mpr hpde
    · rfl
  rw [pteOf, pteAt_of_no_tab htab]
  exact BitVec.zero_and

/-- The loop looks at page `pn`. -/
theorem Good.scan (h : Good D S G I) (hc : OnCpu S.kern c e)
    (hth : S.threads e = ⟨.scan envid pn, none⟩) (hadv : S.advance c e = some (T, o)) :
    o = .quiet ∧ Moved D S e T G I := by
  have hfl : (S.threads e).fault = none := by rw [hth]
  have hb : Builds S.kern G I e envid pn fun _ => False := by
    have hp := h.place e
    rw [hth] at hp
    exact hp
  have hgo : ∀ pl : Place, PlaceOk S.kern G I e pl → (∀ x, pl.child = some x → envx envid = x) →
      Moved D S e (S.setThread e ⟨pl, none⟩) G I := fun pl hpl hch =>
    h.goto hc (by rw [hfl]; exact False.elim) (h.fault_none hfl) hpl fun x hx => by
      rw [hth, ← hch x hx]; rfl
  have hiff := h.present_iff pn hc hfl
  simp only [Sys.advance, hth] at hadv
  split at hadv
  · rename_i hpn
    split at hadv
    · -- a page that user code has
      rename_i hpage
      cases hadv
      exact ⟨rfl, hgo _ ⟨hpn, hiff.mp hpage, hb⟩ fun x hx => Option.some.inj hx⟩
    · rename_i hpage
      cases hadv
      refine ⟨rfl, hgo (.scan envid (pn + 1)) (hb.next fun _ => ?_) fun x hx => Option.some.inj hx⟩
      have hno : I e (nth pn) = none :=
        Option.eq_none_iff_forall_ne_some.mpr fun z hz => hpage (hiff.mpr ⟨z, hz⟩)
      rw [hno, hb.rest pn (Nat.le_refl _) hpn]
  · rename_i hpn
    cases hadv
    refine ⟨rfl, hgo (.stack envid) ⟨hb.child, hb.asleep, fun m hm => hb.copied m (by omega),
      fun m hm hl => absurd hl (by omega), hb.lent⟩ fun x hx => Option.some.inj hx⟩

/-- `duppage` reads the entry. -/
theorem Good.enter (h : Good D S G I) (hc : OnCpu S.kern c e)
    (hth : S.threads e = ⟨.enter envid pn, none⟩) (hadv : S.advance c e = some (T, o)) :
    o = .quiet ∧ Moved D S e T G I := by
  have hfl : (S.threads e).fault = none := by rw [hth]
  obtain ⟨hpn, ⟨z, hz⟩, hb⟩ : PlaceOk S.kern G I e (.enter envid pn) := by
    have hp := h.place e
    rw [hth] at hp
    exact hp
  simp only [Sys.advance, hth] at hadv
  cases hadv
  refine ⟨rfl, h.goto hc (by rw [hfl]; exact False.elim) (h.fault_none hfl)
    ⟨hpn, ⟨z, hz, ?_⟩, (h.kern.plain e _ _).notShared, hb⟩ fun x hx => by rw [hth]; exact hx⟩
  obtain ⟨f, a, hs, rfl⟩ := h.slot_of_page hc hfl hz
  rw [nth, slot_pageOf] at hs
  obtain ⟨-, -, ha⟩ := entryAccess_eq_some.mp hs
  rw [decide_eq_true_iff, ← ha]
  exact access_ne_readOnly

/-! ### `duppage` -/

theorem dupPerm_eq (hs : pte &&& pteShare = 0) : dupPerm pte =
    if pte &&& pteW ≠ 0 ∨ pte &&& pteCow ≠ 0 then Fork.cowPerm else pteU ||| pteP := by
  rw [dupPerm, if_neg (not_not.mpr hs)]

theorem dupPerm_ok (hs : pte &&& pteShare = 0) : permOk (dupPerm pte) = true ∧
    dupPerm pte &&& pteW = 0 ∧ dupPerm pte &&& pteShare = 0 := by
  rw [dupPerm_eq hs]
  split
  · decide
  · decide

theorem not_above (hpn : pn < pgnum ustacktop) : ¬ Above (pageOf (Fork.pageVa pn)) := by
  rw [above_pageOf, Fork.pgnum_pageVa hpn]
  omega

/-- The child gets the parent's frame for a page that the parent does not own. -/
theorem Good.inherit (h : Good D S G I) (hc : OnCpu S.kern c e) (hfl : (S.threads e).fault = none)
    (hch : (S.threads e).place.child = some (envx envid)) (hpn : pn < pgnum ustacktop)
    (hb : Builds S.kern G I e envid pn fun _ => False) {a a' : Access}
    (hs : (frames S.kern).slot e (nth pn) = some (f, a)) (ha : a ≠ .own) (ha' : a' ≠ .own)
    (haa : a' = .readOnly ↔ a = .readOnly) {z : Copy Page} (hz : I e (nth pn) = some z)
    (hst : Sound D t) (ho : t.envs = S.kern.envs)
    (hput : (frames S.kern).Puts (frames t) (envx envid) (nth pn) (some (f, a'))) {pl : Place}
    (hpl : Builds t G (I.after (.copied e (envx envid) (nth pn))) e envid (pn + 1) (fun _ => False) →
      PlaceOk t G (I.after (.copied e (envx envid) (nth pn))) e pl)
    (hplc : pl.child = some (envx envid)) :
    Moved D S e ⟨t, Function.update S.threads e ⟨pl, none⟩⟩ G
      (I.after (.copied e (envx envid) (nth pn))) := by
  obtain ⟨hne, -, -, hfx, -, -⟩ := h.waiting hch
  have hnl : ¬ G.lent e (nth pn) := h.not_lent hc hfl
  have hnlx : ¬ G.lent (envx envid) (nth pn) := hb.lent _
  have hI : ∀ y q, ¬ (y = envx envid ∧ q = nth pn) →
      I.after (.copied e (envx envid) (nth pn)) y q = I y q := fun _ _ hn => setPage_of_ne hn
  have hIx : I.after (.copied e (envx envid) (nth pn)) (envx envid) (nth pn) = I e (nth pn) :=
    setPage_self
  have hdata := hput.mapped_of_rest (fun hx => hne hx.1.symm) hs
  have hag : Agrees temp (frames t) G (I.after (.copied e (envx envid) (nth pn))) := by
    refine h.agrees.remap hput (fun g hg => ?_) (fun q hq => ?_) rfl (fun _ _ _ => Iff.rfl) hI
      (Or.inr ⟨hnlx, ?_, fun g b hg y q _ => ?_⟩)
    · cases hg
      exact ha' rfl
    · rw [show G.held (envx envid) = none from hfx] at hq
      cases hq
    · rw [hIx, h.agrees.contents hs hnl (by rw [h.fault_none hfl]; simp), shown_of_slot hput.here,
        hdata]
      simp only [ne_eq, haa]
    · cases hg
      exact h.agrees.shared hs hnl ha y q
  have hbt : Builds t G (I.after (.copied e (envx envid) (nth pn))) e envid (pn + 1)
      fun _ => False := by
    obtain ⟨d, hd⟩ := hb.child
    refine ⟨⟨d, child_stays hd (.of_eq (by rw [ho])) (.of_eq (by rw [ho]))⟩, by
      rw [ho]; exact hb.asleep, fun m hm hl => ?_, fun m hm hl => ?_, hb.lent⟩
    · rw [hI e _ fun hx => hne hx.1.symm]
      rcases Nat.lt_succ_iff_lt_or_eq.mp hm with hm | rfl
      · rw [hI _ _ fun hx => absurd ((nth_inj hl hpn).mp hx.2) (by omega)]
        exact hb.copied m hm hl
      · rw [hIx]
    · rw [hI _ _ fun hx => absurd ((nth_inj hl hpn).mp hx.2) (by omega)]
      exact hb.rest m (by omega) hl
  refine h.putChild hc hfl hch hst ho hput hag rfl (fun _ _ _ => Iff.rfl)
    (fun y q hy => hI y q fun hx => hy hx.1) pl (hpl hbt) fun y hy => ?_
  rw [← hy, hplc]
  exact hch

/-- The child gets the parent's frame for a page that the parent owns. -/
theorem Good.lend (h : Good D S G I) (hc : OnCpu S.kern c e) (hfl : (S.threads e).fault = none)
    (hch : (S.threads e).place.child = some (envx envid)) (hpn : pn < pgnum ustacktop)
    (hb : Builds S.kern G I e envid pn fun _ => False)
    (hs : (frames S.kern).slot e (nth pn) = some (f, .own)) (hwas : was &&& pteW ≠ 0)
    (hst : Sound D t) (ho : t.envs = S.kern.envs)
    (hput : (frames S.kern).Puts (frames t) (envx envid) (nth pn) (some (f, .cow))) :
    ∃ G', Moved D S e ⟨t, Function.update S.threads e ⟨.own envid pn was, none⟩⟩ G' I := by
  obtain ⟨hne, -, -, hfx, -⟩ := h.waiting hch
  have hown := h.owned hs (by rw [h.fault_none hfl]; simp)
  set G' : Loans := ⟨fun y q => G.lent y q ∨ (y = envx envid ∧ q = nth pn), G.held⟩ with hG
  have hlent : ∀ y q, ¬ (y = envx envid ∧ q = nth pn) → (G'.lent y q ↔ G.lent y q) :=
    fun y q hn => by simp only [hG, hn, or_false]
  have hself : G'.lent (envx envid) (nth pn) := Or.inr ⟨rfl, rfl⟩
  have hag : Agrees temp (frames t) G' I := by
    refine h.agrees.remap hput (fun g hg => by cases hg) (fun q hq => ?_) rfl hlent (fun _ _ _ => rfl)
      (Or.inl ⟨hself, hb.rest pn (Nat.le_refl _) hpn⟩)
    rw [show G.held (envx envid) = none from hfx] at hq
    cases hq
  obtain ⟨d, hd⟩ := hb.child
  have hbt : Builds t G' I e envid pn (· = nth pn) :=
    ⟨⟨d, child_stays hd (.of_eq (by rw [ho])) (.of_eq (by rw [ho]))⟩, by
      rw [ho]; exact hb.asleep, hb.copied, hb.rest, fun q hq => hq.elim
        (fun hq => (hb.lent q hq).elim) fun hq => hq.2⟩
  have hplace : PlaceOk t G' I e (.own envid pn was) := by
    refine ⟨hpn, ⟨_, hown, rfl⟩, ?_⟩
    rw [if_pos hwas]
    exact ⟨hbt, hself, f, (hput.rest e _ fun hx => hne hx.1.symm).trans hs, hput.here⟩
  refine ⟨G', h.putChild hc hfl hch hst ho hput hag rfl
    (fun y q hy => hlent y q fun hx => hy hx.1) (fun _ _ _ => rfl) _ hplace fun y hy => ?_⟩
  rw [← hy]
  exact hch

/-- How a system call that returned looks. -/
theorem matched_answer (hth : S.threads e = th) (ho : th.occurs S.kern e r = o)
    (hnb : ∀ x, o ≠ .born x) (hal : I.Allows o)
    (hnext : th.next (pteOf S.kern e (Fork.pageVa th.place.page)) r = th')
    (hg : Moved D S e ⟨t, Function.update S.threads e th'⟩ G' (I.after o)) :
    Matched D S e I (S.answer e r t).1 (S.answer e r t).2 := by
  simp only [Sys.answer, hth, ho, hnext]
  cases o with
  | born x => exact absurd rfl (hnb x)
  | _ => exact ⟨hal, G', hg⟩

/-- The first `sys_page_map` of `duppage` changes one entry, of the child. -/
theorem Good.dup_puts (h : Good D S G I) (hc : OnCpu S.kern c e)
    (hth : S.threads e = ⟨.dup envid pn pte, none⟩)
    (hcnt : (Request.map (Fork.pageVa pn) envid (Fork.pageVa pn) (dupPerm pte)).Counted S.kern e)
    (hmem : ∀ dst, lookupEnv S.kern e envid true = some dst →
      PagesFree S.kern (tablesMissing S.kern dst (Fork.pageVa pn)))
    (hrun : perform upcall c (.map (Fork.pageVa pn) envid (Fork.pageVa pn) (dupPerm pte)) S.kern =
      .ok r t) :
    r = .ok 0 ∧ Sound D t ∧ t.envs = S.kern.envs ∧ envx envid ≠ e ∧ ∃ f a,
      (frames S.kern).slot e (nth pn) = some (f, a) ∧
      I e (nth pn) = some ⟨decide (a ≠ .readOnly), S.kern.mem f⟩ ∧
      (frames S.kern).Puts (frames t) (envx envid) (nth pn)
        (some (f, if dupPerm pte &&& pteCow ≠ 0 then .cow else .readOnly)) := by
  obtain ⟨hpn, ⟨z, hz, -⟩, hshare, hb⟩ : PlaceOk S.kern G I e (.dup envid pn pte) := by
    have hp := h.place e
    rw [hth] at hp
    exact hp
  obtain ⟨d, hd⟩ := hb.child
  obtain ⟨f, a, hs, rfl⟩ := h.slot_of_page hc (by rw [hth]) hz
  obtain ⟨hok, hw0, hs0⟩ := dupPerm_ok hshare
  have hva := Fork.vaOk_pageVa hpn
  obtain ⟨rfl, hst, ho, hput⟩ := h.kern.map hc hd.look hd.dir hs ⟨hva, hva⟩ hok hw0 hs0 (Or.inl rfl)
    (fun _ hab => absurd hab (not_above hpn)) (h.kern.waits (by rw [hb.asleep]; simp))
    (hcnt f (mappedAt_of_slot hs)) (hmem _ hd.look) hrun
  exact ⟨rfl, hst, ho, hd.ne, f, a, hs, hz, hput⟩

/-- The first `sys_page_map` of `duppage`. -/
theorem Good.dup (h : Good D S G I) (hc : OnCpu S.kern c e)
    (hth : S.threads e = ⟨.dup envid pn pte, none⟩)
    (hcnt : (Request.map (Fork.pageVa pn) envid (Fork.pageVa pn) (dupPerm pte)).Counted S.kern e)
    (hmem : ∀ dst, lookupEnv S.kern e envid true = some dst →
      PagesFree S.kern (tablesMissing S.kern dst (Fork.pageVa pn)))
    (hrun : perform upcall c (.map (Fork.pageVa pn) envid (Fork.pageVa pn) (dupPerm pte)) S.kern =
      .ok r t) :
    Matched D S e I (S.answer e r t).1 (S.answer e r t).2 := by
  have hfl : (S.threads e).fault = none := by rw [hth]
  obtain ⟨hpn, ⟨z, hz, hzw⟩, hshare, hb⟩ : PlaceOk S.kern G I e (.dup envid pn pte) := by
    have hp := h.place e
    rw [hth] at hp
    exact hp
  have hch : (S.threads e).place.child = some (envx envid) := by rw [hth]; rfl
  obtain ⟨rfl, hst, ho, hne, f, a, hs, hza, hput⟩ := h.dup_puts hc hth hcnt hmem hrun
  replace hza := Option.some.inj (hz.symm.trans hza)
  have hacc := slot_pageOf.symm.trans hs
  have hW : pteOf S.kern e (Fork.pageVa pn) &&& pteW ≠ 0 ↔ a = .own := by
    obtain ⟨-, -, ha⟩ := entryAccess_eq_some.mp hacc
    rw [← ha]
    split
    · rename_i hW
      exact iff_of_true hW rfl
    · rename_i hW
      refine iff_of_false hW ?_
      split
      · simp
      · simp
  have hzw' : a ≠ .readOnly ↔ pte &&& pteW ≠ 0 ∨ pte &&& pteCow ≠ 0 := by
    rw [← hzw, hza, decide_eq_true_iff]
  by_cases hwr : pte &&& pteW ≠ 0 ∨ pte &&& pteCow ≠ 0
  · have hperm : dupPerm pte = Fork.cowPerm := by rw [dupPerm_eq hshare, if_pos hwr]
    rw [hperm, if_pos (by decide)] at hput
    have hocc : ∀ o, (if pteOf S.kern e (Fork.pageVa pn) &&& pteW ≠ 0 then Occurs.quiet
        else .copied e (envx envid) (nth pn)) = o →
        (Thread.occurs S.kern e (.ok 0) ⟨.dup envid pn pte, none⟩) = o := fun o ho => by
      simp only [Thread.occurs, Place.occurs]
      rw [if_neg (not_not.mpr hshare), if_pos hwr]
      exact ho
    have hnext : Thread.next (pteOf S.kern e (Fork.pageVa pn)) (.ok 0) ⟨.dup envid pn pte, none⟩ =
        ⟨.own envid pn (pteOf S.kern e (Fork.pageVa pn)), none⟩ := by
      simp only [Thread.next, Place.next]
      rw [if_neg (not_not.mpr hshare), if_pos hwr]
    by_cases hown : pteOf S.kern e (Fork.pageVa pn) &&& pteW ≠ 0
    · obtain rfl := hW.mp hown
      obtain ⟨G', hg⟩ := h.lend hc hfl hch hpn hb hs hown hst ho hput
      exact matched_answer hth (hocc _ (if_pos hown)) (fun x hx => by cases hx) trivial hnext hg
    · have hno : a ≠ .own := fun hx => hown (hW.mpr hx)
      refine matched_answer hth (hocc _ (if_neg hown)) (fun x hx => by cases hx) trivial hnext
        (h.inherit hc hfl hch hpn hb hs hno (by simp) (iff_of_false (by simp) (hzw'.mpr hwr)) hz hst ho
          hput (fun hbt => ⟨hpn, ⟨z, ?_, hzw.mpr hwr⟩, by rw [if_neg hown]; exact hbt⟩) rfl)
      rw [Memory.after, setPage_of_ne fun hx => hne hx.1.symm]
      exact hz
  · have hperm : dupPerm pte = pteU ||| pteP := by rw [dupPerm_eq hshare, if_neg hwr]
    rw [hperm, if_neg (by decide)] at hput
    have hro : a = .readOnly := by
      by_contra hx
      exact hwr (hzw'.mp hx)
    have hocc : Thread.occurs S.kern e (.ok 0) ⟨.dup envid pn pte, none⟩ =
        .copied e (envx envid) (nth pn) := by
      simp only [Thread.occurs, Place.occurs]
      rw [if_neg (not_not.mpr hshare), if_neg hwr]
      rfl
    have hnext : Thread.next (pteOf S.kern e (Fork.pageVa pn)) (.ok 0) ⟨.dup envid pn pte, none⟩ =
        ⟨.scan envid (pn + 1), none⟩ := by
      simp only [Thread.next, Place.next]
      rw [if_neg (not_not.mpr hshare), if_neg hwr]
    exact matched_answer hth hocc (fun x hx => by cases hx) trivial hnext
      (h.inherit hc hfl hch hpn hb hs (by rw [hro]; simp) (by simp) (by simp [hro]) hz hst ho hput id rfl)

/-- The parent's own entry becomes copy-on-write, whoever owned the frame. -/
theorem Good.demote (h : Good D S G I) (hc : OnCpu S.kern c e) (hfl : (S.threads e).fault = none)
    {a : Access} (hs : (frames S.kern).slot e p = some (f, a)) (ha : a ≠ .readOnly)
    (hput : (frames S.kern).Puts (frames t) e p (some (f, .cow))) :
    Agrees temp (frames t) G I := by
  have hheld := h.fault_none hfl
  have hnl : ¬ G.lent e p := h.not_lent hc hfl
  cases a with
  | readOnly => exact absurd rfl ha
  | own => exact h.agrees.protect hs hput hheld
  | cow =>
    refine h.agrees.remap hput (fun g hg => by cases hg) (fun q hq => ?_) rfl (fun _ _ _ => Iff.rfl)
      (fun _ _ _ => rfl) (Or.inr ⟨hnl, ?_, fun g b hg y q _ => ?_⟩)
    · rw [hheld] at hq
      cases hq
    · rw [h.agrees.contents hs hnl (by rw [hheld]; simp), shown_of_slot hput.here,
        hput.data f ⟨e, p, _, hs⟩ ⟨e, p, _, hput.here⟩]
    · cases hg
      exact h.agrees.shared hs hnl (by simp) y q

/-- The parent gives up its page, and the child has a copy of it from now on. -/
theorem Good.settle (h : Good D S G I) (hc : OnCpu S.kern c e) (hfl : (S.threads e).fault = none)
    (hch : (S.threads e).place.child = some (envx envid)) (hpn : pn < pgnum ustacktop)
    (hb : Builds S.kern G I e envid pn (· = nth pn)) (hlend : Lends S.kern G e (envx envid) (nth pn))
    (hst : Sound D t) (ho : t.envs = S.kern.envs)
    (hput : ∀ f, (frames S.kern).slot e (nth pn) = some (f, .own) →
      (frames S.kern).Puts (frames t) e (nth pn) (some (f, .cow))) :
    ∃ G', Moved D S e ⟨t, Function.update S.threads e ⟨.scan envid (pn + 1), none⟩⟩ G'
      (I.after (.copied e (envx envid) (nth pn))) := by
  obtain ⟨hne, hothers, hidle, hfx, hstx, hns⟩ := h.waiting hch
  have hheld := h.fault_none hfl
  obtain ⟨hlx, f, hs, hsx⟩ := hlend
  replace hput := hput f hs
  have hown := h.owned hs (by rw [hheld]; simp)
  have hag := h.demote hc hfl hs (by simp) hput
  have hslot : ∀ y q, y ≠ e → (frames t).slot y q = (frames S.kern).slot y q :=
    fun y q hy => hput.rest y q fun hx => hy hx.1
  have hsxt := (hslot _ (nth pn) hne).trans hsx
  have hself : (frames t).Puts (frames t) (envx envid) (nth pn) (some (f, .cow)) :=
    ⟨hsxt, fun _ _ _ => rfl, fun _ _ _ => rfl⟩
  set G' : Loans := ⟨fun y q => G.lent y q ∧ ¬ (y = envx envid ∧ q = nth pn), G.held⟩ with hG
  have hlent : ∀ y q, ¬ (y = envx envid ∧ q = nth pn) → (G'.lent y q ↔ G.lent y q) :=
    fun y q hn => by simp only [hG, hn, not_false_iff, and_true]
  have hnl : ¬ G'.lent (envx envid) (nth pn) := fun hl => hl.2 ⟨rfl, rfl⟩
  have hI : ∀ y q, ¬ (y = envx envid ∧ q = nth pn) →
      I.after (.copied e (envx envid) (nth pn)) y q = I y q := fun _ _ hn => setPage_of_ne hn
  have hIx : I.after (.copied e (envx envid) (nth pn)) (envx envid) (nth pn) = I e (nth pn) :=
    setPage_self
  have hnle : ¬ G.lent e (nth pn) := h.not_lent hc hfl
  have hag' : Agrees temp (frames t) G' (I.after (.copied e (envx envid) (nth pn))) := by
    refine hag.remap hself (fun g hg => by cases hg) (fun q hq => ?_) rfl hlent hI
      (Or.inr ⟨hnl, ?_, fun g b hg y q _ => ?_⟩)
    · rw [show G.held (envx envid) = none from hfx] at hq
      cases hq
    · rw [hIx, hown, shown_of_slot hsxt, hput.data f ⟨e, nth pn, _, hs⟩ ⟨e, nth pn, _, hput.here⟩]
      rfl
    · cases hg
      exact hag.shared hput.here hnle (by simp) y q
  obtain ⟨d, hd⟩ := hb.child
  have hbt : Builds t G' (I.after (.copied e (envx envid) (nth pn))) e envid (pn + 1)
      fun _ => False := by
    refine ⟨⟨d, child_stays hd (.of_eq (by rw [ho])) (.of_eq (by rw [ho]))⟩, by
      rw [ho]; exact hb.asleep, fun m hm hl => ?_, fun m hm hl => ?_, fun q hq => ?_⟩
    · rw [hI e _ fun hx => hne hx.1.symm]
      rcases Nat.lt_succ_iff_lt_or_eq.mp hm with hm | rfl
      · rw [hI _ _ fun hx => absurd ((nth_inj hl hpn).mp hx.2) (by omega)]
        exact hb.copied m hm hl
      · rw [hIx]
    · rw [hI _ _ fun hx => absurd ((nth_inj hl hpn).mp hx.2) (by omega)]
      exact hb.rest m (by omega) hl
    · exact hq.2 ⟨rfl, hb.lent q hq.1⟩
  refine ⟨G', h.move (h.running hc) hst hag' (X := (· = envx envid)) (fun z hz => ?_)
    (fun z hze hz => ⟨fun q => hslot z q hze, rfl, fun q => hlent z q fun hx => hz hx.1,
      fun q => by rw [hI z q fun hx => hz hx.1], .of_eq (by rw [ho])⟩)
    (fun z hze _ q g a hq _ => hput.mapped_of_rest (fun hx => hze hx.1) hq)
    (fun q hq => absurd hq.1 (h.not_lent hc hfl)) (fun hste => ?_) hheld hbt
    fun z hz => Or.inr (Option.some.inj hz).symm⟩
  · subst hz
    exact ⟨hne, hothers, hidle, hfx, fun q _ => by rw [ho]; exact hstx, hns⟩
  · rw [ho, h.running hc] at hste
    exact absurd hste (by simp)

/-- The second `sys_page_map` of `duppage` marks the parent's own entry. -/
theorem Good.own_puts (h : Good D S G I) (hc : OnCpu S.kern c e)
    (hth : S.threads e = ⟨.own envid pn was, none⟩)
    (hcnt : (Request.map (Fork.pageVa pn) 0 (Fork.pageVa pn) Fork.cowPerm).Counted S.kern e)
    (hmem : PagesFree S.kern (tablesMissing S.kern e (Fork.pageVa pn)))
    (hrun : perform upcall c (.map (Fork.pageVa pn) 0 (Fork.pageVa pn) Fork.cowPerm) S.kern =
      .ok r t) :
    r = .ok 0 ∧ Sound D t ∧ t.envs = S.kern.envs ∧ ∃ f a,
      (frames S.kern).slot e (nth pn) = some (f, a) ∧ a ≠ .readOnly ∧
      I e (nth pn) = some ⟨true, S.kern.mem f⟩ ∧
      (frames S.kern).Puts (frames t) e (nth pn) (some (f, .cow)) := by
  obtain ⟨hpn, ⟨z, hz, hzw⟩, -⟩ : PlaceOk S.kern G I e (.own envid pn was) := by
    have hp := h.place e
    rw [hth] at hp
    exact hp
  obtain ⟨f, a, hs, rfl⟩ := h.slot_of_page hc (by rw [hth]) hz
  have ha : a ≠ .readOnly := by simpa using hzw
  have hva := Fork.vaOk_pageVa hpn
  obtain ⟨rfl, hst, ho, hput⟩ := h.kern.map hc (Fork.lookupEnv_self ..) (h.kern.dir hc) hs ⟨hva, hva⟩
    (by decide) (by decide) (by decide) (Or.inl rfl) (fun _ hab => absurd hab (not_above hpn))
    (h.kern.sole hc) (hcnt f (mappedAt_of_slot hs)) hmem hrun
  rw [if_pos (by decide)] at hput
  exact ⟨rfl, hst, ho, f, a, hs, ha, by rw [hz, decide_eq_true ha], hput⟩

/-- The second `sys_page_map` of `duppage`. -/
theorem Good.own (h : Good D S G I) (hc : OnCpu S.kern c e)
    (hth : S.threads e = ⟨.own envid pn was, none⟩)
    (hcnt : (Request.map (Fork.pageVa pn) 0 (Fork.pageVa pn) Fork.cowPerm).Counted S.kern e)
    (hmem : PagesFree S.kern (tablesMissing S.kern e (Fork.pageVa pn)))
    (hrun : perform upcall c (.map (Fork.pageVa pn) 0 (Fork.pageVa pn) Fork.cowPerm) S.kern =
      .ok r t) :
    Matched D S e I (S.answer e r t).1 (S.answer e r t).2 := by
  have hfl : (S.threads e).fault = none := by rw [hth]
  obtain ⟨hpn, -, hb⟩ : PlaceOk S.kern G I e (.own envid pn was) := by
    have hp := h.place e
    rw [hth] at hp
    exact hp
  have hch : (S.threads e).place.child = some (envx envid) := by rw [hth]; rfl
  obtain ⟨rfl, hst, ho, f, a, hs, ha, hz, hput⟩ := h.own_puts hc hth hcnt hmem hrun
  have hnext : Thread.next (pteOf S.kern e (Fork.pageVa 0)) (.ok 0) ⟨.own envid pn was, none⟩ =
    ⟨.scan envid (pn + 1), none⟩ := rfl
  by_cases hwas : was &&& pteW ≠ 0
  · rw [if_pos hwas] at hb
    obtain ⟨G', hg⟩ := h.settle hc hfl hch hpn hb.1 hb.2 hst ho fun g hg => by
      rw [hs] at hg
      cases hg
      exact hput
    have hocc : Thread.occurs S.kern e (.ok 0) ⟨.own envid pn was, none⟩ =
      .copied e (envx envid) (nth pn) := if_pos hwas
    exact matched_answer hth hocc (fun x hx => by cases hx) trivial hnext hg
  · rw [if_neg hwas] at hb
    have hocc : Thread.occurs S.kern e (.ok 0) ⟨.own envid pn was, none⟩ = .quiet := if_neg hwas
    have hne := (h.waiting hch).1
    have hk : Kept S.kern t G G I I (envx envid) := ⟨fun q => hput.rest _ q fun hx => hne hx.1, rfl,
      fun _ => Iff.rfl, fun _ => rfl, .of_eq (by rw [ho])⟩
    have hbt : Builds t G I e envid (pn + 1) fun _ => False :=
      hb.frame (.of_eq (by rw [ho])) (fun _ => rfl) hk
    exact matched_answer hth hocc (fun x hx => by cases hx) trivial hnext
      (h.put hc hst ho hput (h.demote hc hfl hs ha hput) (fun _ _ _ => Iff.rfl)
        (fun q hq => absurd hq (h.not_lent hc hfl)) (fun _ _ => rfl) (fun _ _ _ => rfl)
        (h.fault_none hfl) hbt fun x hx => by rw [hth]; exact hx)

/-! ### The end of `fork` -/

/-- The child gets an exception stack. -/
theorem Good.stack (h : Good D S G I) (hc : OnCpu S.kern c e)
    (hth : S.threads e = ⟨.stack envid, none⟩)
    (hmem : ∀ dst, lookupEnv S.kern e envid true = some dst →
      PagesFree S.kern (1 + tablesMissing S.kern dst Fork.uxstackPage))
    (hrun : perform upcall c (.alloc envid Fork.uxstackPage (pteP ||| pteW ||| pteU)) S.kern =
      .ok r t) :
    Matched D S e I (S.answer e r t).1 (S.answer e r t).2 := by
  have hfl : (S.threads e).fault = none := by rw [hth]
  have hb : Builds S.kern G I e envid (pgnum ustacktop) fun _ => False := by
    have hp := h.place e
    rw [hth] at hp
    exact hp
  have hch : (S.threads e).place.child = some (envx envid) := by rw [hth]; rfl
  obtain ⟨d, hd⟩ := hb.child
  obtain ⟨hne, -, -, hfx, -⟩ := h.waiting hch
  obtain ⟨rfl, hst, ho, g, hfresh, hzero, hput⟩ := h.kern.alloc hc hd.look hd.dir (by decide)
    (by decide) (by decide) (by decide) (by decide) (h.kern.waits (by rw [hb.asleep]; simp))
    (hmem _ hd.look) hrun
  have hI : ∀ y q, ¬ (y = envx envid ∧ q = pageOf Fork.uxstackPage) →
      I.after (.zeroed (envx envid) (pageOf Fork.uxstackPage)) y q = I y q :=
    fun _ _ hn => setPage_of_ne hn
  have hag : Agrees temp (frames t) G (I.after (.zeroed (envx envid) (pageOf Fork.uxstackPage))) := by
    refine h.agrees.fresh hput hfresh (hb.lent _) rfl (fun _ _ => rfl) hI (Or.inl ⟨hfx, hfx, ?_⟩)
    rw [Memory.after, setPage_self]
    exact congrArg some (congrArg (Copy.mk true) hzero.symm)
  have hnth : ∀ m, m < pgnum ustacktop → nth m ≠ pageOf Fork.uxstackPage := fun m hm hx => by
    have hpg := pageOf_eq.mp hx
    rw [Fork.pgnum_pageVa hm] at hpg
    have := Fork.uxstackPage_pgnum
    omega
  have hbt : Builds t G (I.after (.zeroed (envx envid) (pageOf Fork.uxstackPage))) e envid
      (pgnum ustacktop) fun _ => False := by
    refine ⟨⟨d, child_stays hd (.of_eq (by rw [ho])) (.of_eq (by rw [ho]))⟩, by
      rw [ho]; exact hb.asleep, fun m hm hl => ?_, fun m hm hl => absurd hl (by omega), hb.lent⟩
    rw [hI e _ fun hx => hne hx.1.symm, hI _ _ fun hx => hnth m hl hx.2]
    exact hb.copied m hm hl
  exact matched_answer hth rfl (fun x hx => by cases hx) trivial rfl
    (h.putChild hc hfl hch hst ho hput hag rfl (fun _ _ _ => Iff.rfl)
      (fun y q hy => hI y q fun hx => hy hx.1) (.childUpcall envid) hbt fun y hy => by
        rw [hth]; exact hy)

/-- The child may run. -/
theorem Good.start (h : Good D S G I) (hc : OnCpu S.kern c e)
    (hth : S.threads e = ⟨.start envid, none⟩)
    (hrun : perform upcall c (.setRunnable envid) S.kern = .ok r t) :
    Matched D S e I (S.answer e r t).1 (S.answer e r t).2 := by
  have hfl : (S.threads e).fault = none := by rw [hth]
  have hb : Builds S.kern G I e envid (pgnum ustacktop) fun _ => False := by
    have hp := h.place e
    rw [hth] at hp
    exact hp
  have hch : (S.threads e).place.child = some (envx envid) := by rw [hth]; rfl
  obtain ⟨d, hd⟩ := hb.child
  obtain ⟨hne, hothers, hidle, hfx, hstx, hns⟩ := h.waiting hch
  obtain ⟨rfl, hst, hpte, hm, henvs, -⟩ := h.kern.setRunnable hc hd.look hstx hrun
  have hslot : (frames t).slot = (frames S.kern).slot := slot_of_pteAt hpte
  have hall : I.Allows (.started e (envx envid)) := fun n hn => hb.copied n hn hn
  have hfr : frames t = frames S.kern := frames_eq hpte hm
  have hnext : Thread.next (pteOf S.kern e (Fork.pageVa 0)) (.ok 0) ⟨.start envid, none⟩ =
    ⟨.program, none⟩ := rfl
  refine matched_answer hth rfl (fun x hx => by cases hx) hall hnext
    (h.move (h.running hc) hst (hfr ▸ h.agrees) (X := (· = envx envid)) (fun z hz => ?_)
      (fun z _ hz => ⟨fun q => by rw [hslot], rfl, fun _ => Iff.rfl, fun _ => rfl,
        .of_eq (henvs z hz)⟩) (fun _ _ _ _ _ _ _ _ => by rw [hm])
      (fun q hq => absurd hq (h.not_lent hc hfl)) (fun hste => ?_) (h.fault_none hfl) trivial
      fun z hz => by cases hz)
  · subst hz
    exact ⟨hne, hothers, hidle, hfx, fun q hq => (hb.lent q hq).elim, hns⟩
  · rw [henvs e hne.symm, h.running hc] at hste
    exact absurd hste (by simp)

end CowFork

end Jos
