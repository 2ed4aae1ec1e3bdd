import Jos.CowSteps

/-!
  The steps of `pgfault`, against private memory.

  `pgfault` keeps the old frame at `PFTEMP`, puts a new one at the page, and copies; meanwhile the page
  is held, and private memory stays as it is. -/

namespace Jos

open Lib Lib.Cow

namespace CowFork

variable {D : Prop} {upcall w : Word} {S T : Sys} {G G' : Loans} {I I' : Memory} {c : CpuIdx} {e : EnvIdx}
  {va a : Word} {o : Occurs} {p : PageNo} {t : KState} {th : Thread} {k : Nat}
  {x : Option (Nat × Access)} {r : Except Err Word}

theorem page_ext {v w : Page} (h : ∀ i < pgsize, v.byte i = w.byte i) : v = w := by
  funext j
  refine BitVec.eq_of_getLsbD_eq fun n hn => ?_
  have hj := j.isLt
  have hi : 4 * j.val + n / 8 < pgsize := by
    have hp : pgsize = 4096 := rfl
    omega
  have hb := congrArg (fun b : Byte => b.getLsbD (n % 8)) (h _ hi)
  have hdiv : (4 * j.val + n / 8) / 4 = j.val := by omega
  have hmod : (4 * j.val + n / 8) % 4 = n / 8 := by omega
  have hidx : (Fin.ofNat 1024 j.val : Idx) = j := Fin.ext (by simp)
  have hlt : n % 8 < 8 := Nat.mod_lt _ (by decide)
  have hn' : 8 * (n / 8) + n % 8 = n := Nat.div_add_mod n 8
  simpa only [Page.byte, byteOf, hdiv, hmod, hidx, BitVec.getLsbD_extractLsb', hlt, decide_true,
    Bool.true_and, hn'] using hb

/-- A call puts one entry of `e`. -/
theorem Good.put (h : Good D S G I) (hc : OnCpu S.kern c e) (hs : Sound D t)
    (ho : t.envs = S.kern.envs)
    (hput : (frames S.kern).Puts (frames t) e p x) (hag : Agrees temp (frames t) G' I')
    (hlent : ∀ z, z ≠ e → ∀ q, G'.lent z q ↔ G.lent z q)
    (hself : ∀ q, G'.lent e q → q = temp ∧ Busy th.fault) (hheld : ∀ z, z ≠ e → G'.held z = G.held z)
    (hI : ∀ z, z ≠ e → ∀ q, I' z q = I z q) (hf : FaultOk t G' e th.fault)
    (hp : PlaceOk t G' I' e th.place)
    (hx : ∀ x, th.place.child = some x → (S.threads e).place.child = some x) :
    Moved D S e ⟨t, Function.update S.threads e th⟩ G' I' := by
  have hslot : ∀ z, z ≠ e → ∀ q, (frames t).slot z q = (frames S.kern).slot z q :=
    fun z hz q => hput.rest z q fun hx => hz hx.1
  refine h.move (h.running hc) hs hag (X := fun _ => False) (fun _ hx => hx.elim)
    (fun z hz _ => ⟨hslot z hz, hheld z hz, hlent z hz, fun q => by rw [hI z hz q],
      .of_eq (by rw [ho])⟩) (fun z hz _ q f a hq _ => hput.mapped_of_rest (fun hx => hz hx.1) hq)
    hself (fun hst => ?_) hf hp fun x hx' => Or.inl (hx x hx')
  rw [ho, h.running hc] at hst
  exact absurd hst (by simp)

/-- An entry that is not owned is replaced while `fork` is anywhere. -/
theorem Good.put_place (h : Good D S G I) (ho : t.envs = S.kern.envs)
    (hput : (frames S.kern).Puts (frames t) e p x) (hno : ∀ f, (frames S.kern).slot e p ≠ some (f, .own))
    (hlent : ∀ z, z ≠ e → ∀ q, G'.lent z q ↔ G.lent z q) (hheld : ∀ z, z ≠ e → G'.held z = G.held z)
    (hI : ∀ z, z ≠ e → ∀ q, I' z q = I z q)
    (hw : ∀ q, (I' e q).map Copy.writable = (I e q).map Copy.writable) :
    PlaceOk t G' I' e (S.threads e).place := by
  refine (h.place e).frame (.of_eq (by rw [ho])) hw (fun q f hq => ?_) fun z hz => ?_
  · rw [hput.rest e q fun hx => hno f (hx.2 ▸ hq)]
    exact hq
  · have hne := ((h.place e).asleep hz).2
    exact ⟨fun q => hput.rest z q fun hx => hne hx.1, hheld z hne, hlent z hne,
      fun q => by rw [hI z hne q], .of_eq (by rw [ho])⟩

/-- `sys_page_map` to `PFTEMP`. -/
theorem Good.faultMap (h : Good D S G I) (hc : OnCpu S.kern c e)
    (hfl : (S.threads e).fault = some (.map a))
    (hcnt : (Request.map a 0 pftemp (pteU ||| pteP)).Counted S.kern e)
    (hmem : PagesFree S.kern (tablesMissing S.kern e pftemp))
    (hrun : perform upcall c (.map a 0 pftemp (pteU ||| pteP)) S.kern = .ok r t) :
    r = .ok 0 ∧ ∃ G',
      Moved D S e ⟨t, Function.update S.threads e ⟨(S.threads e).place, some (.alloc a)⟩⟩ G' I := by
  have hfault := h.fault e
  rw [hfl] at hfault
  obtain ⟨hsv, hheld, hnone, f, hf⟩ := hfault
  obtain ⟨rfl, hs, ho, hput⟩ := h.kern.map hc (Fork.lookupEnv_self ..) (h.kern.dir hc) hf
    ⟨hsv.2, by decide⟩ (by decide) (by decide) (by decide) (Or.inr rfl) (fun _ _ => by decide)
    (h.kern.sole hc) (hcnt f (mappedAt_of_slot hf)) hmem hrun
  have hro : (frames S.kern).Puts (frames t) e temp (some (f, .readOnly)) := hput
  have hne : pageOf a ≠ temp := fun hx => by
    rw [hx, hnone] at hf
    cases hf
  have hnl : ∀ q, ¬ G.lent e q := fun q hl => by
    have hb := (h.lent_temp hc hl).2
    rw [hfl] at hb
    exact hb
  have hunused : I e temp = none := by
    rw [h.agrees.shows e temp (hnl _) (by rw [hheld]; simp), Frames.shown, hnone]
    rfl
  set G' : Loans := ⟨fun y q => G.lent y q ∨ (y = e ∧ q = temp), G.held⟩ with hG
  have hlent : ∀ y q, ¬ (y = e ∧ q = temp) → (G'.lent y q ↔ G.lent y q) := fun y q hn => by
    simp only [hG, hn, or_false]
  have hself : G'.lent e temp := Or.inr ⟨rfl, rfl⟩
  have hother : ∀ z, z ≠ e → ∀ q, G'.lent z q ↔ G.lent z q := fun z hz q => hlent z q fun hx => hz hx.1
  refine ⟨rfl, G', h.put hc hs ho hro (h.agrees.remap hro (by simp) (by simp [hheld]) rfl
    hlent (fun _ _ _ => rfl) (Or.inl ⟨hself, hunused⟩)) hother
    (fun q hq => ⟨(hq.resolve_left (hnl q)).2, trivial⟩) (fun _ _ => rfl) (fun _ _ _ => rfl)
    ⟨hsv, hheld, hself, f, ?_, hro.here⟩
    (h.put_place ho hro (fun g hg => ?_) hother (fun _ _ => rfl) (fun _ _ _ => rfl) fun _ => rfl)
    fun x hx => hx⟩
  · rw [hro.rest e _ fun hx => hne hx.2]
    exact hf
  · rw [hnone] at hg
    cases hg

/-- `sys_page_alloc` of a page of its own. -/
theorem Good.faultAlloc (h : Good D S G I) (hc : OnCpu S.kern c e)
    (hfl : (S.threads e).fault = some (.alloc a))
    (hmem : PagesFree S.kern (1 + tablesMissing S.kern e a))
    (hrun : perform upcall c (.alloc 0 a (pteW ||| pteU ||| pteP)) S.kern = .ok r t) :
    r = .ok 0 ∧ ∃ G',
      Moved D S e ⟨t, Function.update S.threads e ⟨(S.threads e).place, some (.copy a 0)⟩⟩ G' I := by
  have hfault := h.fault e
  rw [hfl] at hfault
  obtain ⟨hsv, hheld, hlt, f, hf, ht⟩ := hfault
  obtain ⟨rfl, hs, ho, g, hfresh, -, hput⟩ := h.kern.alloc hc (Fork.lookupEnv_self ..) (h.kern.dir hc)
    hsv.2 (by decide) (by decide) (by decide) (by decide) (h.kern.sole hc) hmem hrun
  have hne : pageOf a ≠ temp := fun hx => by
    rw [hx, ht] at hf
    cases hf
  set G' : Loans := ⟨G.lent, Function.update G.held e (some (pageOf a))⟩
  have hself : G'.held e = some (pageOf a) := Function.update_self ..
  have hheld' : ∀ z, z ≠ e → G'.held z = G.held z := fun z hz => Function.update_of_ne hz _ _
  have hnl : ¬ G.lent e (pageOf a) := fun hl => hne (h.lent_temp hc hl).1
  refine ⟨rfl, G', h.put hc hs ho hput (h.agrees.fresh hput hfresh hnl rfl hheld' (fun _ _ _ => rfl)
    (Or.inr ⟨hself, hheld, hne, hlt, rfl, f, hf, ht⟩)) (fun _ _ _ => Iff.rfl)
    (fun q hq => ⟨(h.lent_temp hc hq).1, trivial⟩) hheld' (fun _ _ _ => rfl)
    ⟨hsv, Nat.zero_le _, hself, g, f, hput.here, ?_, fun i hi => absurd hi (Nat.not_lt_zero i)⟩
    (h.put_place ho hput (fun f' hf' => ?_) (fun _ _ _ => Iff.rfl) hheld' (fun _ _ _ => rfl)
      fun _ => rfl)
    fun x hx => hx⟩
  · rw [hput.rest e temp fun hx => hne hx.2.symm]
    exact ht
  · rw [hf] at hf'
    cases hf'

/-- A byte of a page below `UTOP`. -/
theorem byte_of_page (hva : vaOk a = true) (hk : k < pgsize) :
    a + BitVec.ofNat 32 k < utop ∧ pageOf (a + BitVec.ofNat 32 k) = pageOf a ∧
      pgoff (a + BitVec.ofNat 32 k) = k := by
  simp only [vaOk, Bool.and_eq_true, decide_eq_true_eq] at hva
  obtain ⟨hlt, hoff⟩ := hva
  unfold pgoff at hoff
  have hutop : utop.toNat = 4096 * 977920 := by decide
  have hp : pgsize = 4096 := rfl
  rw [BitVec.lt_def] at hlt
  have hn : (a + BitVec.ofNat 32 k).toNat = a.toNat + k := toNat_add_ofNat (by omega)
  refine ⟨by rw [BitVec.lt_def]; omega, pageOf_eq.mpr ?_, ?_⟩
  · unfold pgnum
    omega
  · unfold pgoff
    omega

/-- One byte of `memmove`. -/
theorem Good.faultCopy (h : Good D S G I) (hc : OnCpu S.kern c e)
    (hfl : (S.threads e).fault = some (.copy a k)) (hk : k < pgsize)
    (hadv : S.advance c e = some (T, o)) : o = .quiet ∧ Moved D S e T G I := by
  have hfault := h.fault e
  rw [hfl] at hfault
  obtain ⟨hsv, -, hheld, g, f, hg, hf, hb⟩ := hfault
  obtain ⟨hlt, hpage, hoff⟩ := byte_of_page hsv.2 hk
  obtain ⟨hltt, hpaget, -⟩ := byte_of_page (a := pftemp) (by decide) hk
  have hread : userAccess S.kern c userRead (pftemp + BitVec.ofNat 32 k) = some f := by
    rw [h.kern.tables.read (h.kern.dir hc) hltt, hpaget]
    exact congrArg _ hf
  have hwrite : userAccess S.kern c userWrite (a + BitVec.ofNat 32 k) = some g :=
    (h.kern.tables.write (h.kern.dir hc) hlt).mpr (by rw [hpage]; exact hg)
  simp only [Sys.advance, hfl, hread, hwrite] at hadv
  cases hadv
  set v : Page := (S.kern.mem g).setByte (pgoff (a + BitVec.ofNat 32 k)) ((S.kern.mem f).byte k)
  have hfg : f ≠ g := by
    rintro rfl
    obtain ⟨f', hf', hsh, -⟩ := (h.agrees.copying e _ hheld).old
    rw [hf] at hf'
    cases hf'
    exact hsh e _ hg
  have hmf : (S.kern.setFrame g v).mem f = S.kern.mem f := by
    rw [KState.setFrame_mem, Function.update_of_ne hfg]
  have hmg : (S.kern.setFrame g v).mem g = v := by rw [KState.setFrame_mem, Function.update_self]
  have hslot := (h.kern.store hg v).2
  refine ⟨rfl, h.poke hc hg v (fun _ _ _ => rfl) (Or.inl ⟨hheld, rfl⟩)
    (fun _ => trivial) ⟨hsv, hk, hheld, g, f, ?_, ?_, fun i hi => ?_⟩ rfl⟩
  · rw [hslot]
    exact hg
  · rw [hslot]
    exact hf
  · have hp : pgsize = 4096 := rfl
    rw [hmf, hmg, Page.byte_setByte _ (by omega) (by omega), hoff]
    split
    · rename_i hik
      rw [hik]
    · exact hb i (by omega)

/-- `sys_page_unmap` of `PFTEMP`, when the copy is complete. -/
theorem Good.faultUnmap (h : Good D S G I) (hc : OnCpu S.kern c e)
    (hfl : (S.threads e).fault = some (.copy a k)) (hk : ¬ k < pgsize)
    (hrun : perform upcall c (.unmap pftemp) S.kern = .ok r t) :
    r = .ok 0 ∧ ∃ G', Moved D S e ⟨t, Function.update S.threads e ⟨(S.threads e).place, none⟩⟩ G' I := by
  have hfault := h.fault e
  rw [hfl] at hfault
  obtain ⟨hsv, hle, hheld, g, f, hg, hf, hb⟩ := hfault
  obtain ⟨rfl, hs, ho, hput⟩ := h.kern.unmap hc (by decide) (h.kern.sole hc) hrun
  have hunput : (frames S.kern).Puts (frames t) e temp none := hput
  have hlt := (h.agrees.copying e _ hheld).lent
  have hhide := h.agrees.hides e temp hlt
  -- the copy is complete, and `PFTEMP` is a page like any other again
  set G₁ : Loans := ⟨G.lent, Function.update G.held e none⟩
  set G' : Loans := ⟨fun y q => G.lent y q ∧ ¬ (y = e ∧ q = temp), G₁.held⟩ with hG
  have hself : G'.held e = none := Function.update_self ..
  have hheld' : ∀ z, z ≠ e → G'.held z = G.held z := fun z hz => Function.update_of_ne hz _ _
  have hlent : ∀ y q, ¬ (y = e ∧ q = temp) → (G'.lent y q ↔ G.lent y q) := fun y q hn => by
    simp only [hG, hn, not_false_iff, and_true]
  have hother : ∀ z, z ≠ e → ∀ q, G'.lent z q ↔ G.lent z q := fun z hz q => hlent z q fun hx => hz hx.1
  have heq : S.kern.mem g = S.kern.mem f := page_ext fun i hi => hb i (by omega)
  have hrel : Agrees temp (frames S.kern) G₁ I := h.agrees.release hheld hg hf heq rfl hself hheld'
  have hnone : I e temp = (frames t).shown e temp := by
    rw [hhide.1, Frames.shown, hunput.here]
    rfl
  exact ⟨rfl, G', h.put hc hs ho hunput (hrel.remap hunput (by simp) (by simp [G₁]) rfl
    hlent (fun _ _ _ => rfl) (Or.inr ⟨fun hl => hl.2 ⟨rfl, rfl⟩, hnone, by simp⟩)) hother
    (fun q hq => absurd ⟨rfl, (h.lent_temp hc hq.1).1⟩ hq.2) hheld' (fun _ _ _ => rfl) hself
    (h.put_place ho hunput hhide.2 hother hheld' (fun _ _ _ => rfl) fun _ => rfl) fun x hx => hx⟩

end CowFork

end Jos
