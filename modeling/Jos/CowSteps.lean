import Jos.CowThreads
import Jos.Fault

/-!
  Steps of the program, of `pgfault`, and of the kernel's scheduler, against private memory. -/

namespace Jos

open Lib Lib.Cow

namespace CowFork

variable {D : Prop} {upcall : Word} {S T : Sys} {G : Loans} {I I' : Memory} {c : CpuIdx} {e : EnvIdx}
  {va a : Word} {b : Byte} {o : Occurs} {p : PageNo} {f : Nat} {t : KState} {th : Thread}

/-- Private memory takes the step of `e` as well, and no other started environment notices it. -/
def Matched (D : Prop) (S : Sys) (e : EnvIdx) (I : Memory) (T : Sys) (o : Occurs) : Prop :=
  I.Allows o ∧ ∃ G, Moved D S e T G (I.after o)

theorem Good.running (h : Good D S G I) (hc : OnCpu S.kern c e) :
    (S.kern.envs e).envStatus = .running := h.kern.running hc

/-- What runs has nothing but `PFTEMP` lent, and that in `pgfault`. -/
theorem Good.lent_temp (h : Good D S G I) (hc : OnCpu S.kern c e) (hl : G.lent e p) :
    p = temp ∧ Busy (S.threads e).fault := by
  refine (h.lent e p hl).resolve_right ?_
  rw [h.running hc]
  simp

theorem Good.not_lent (h : Good D S G I) (hc : OnCpu S.kern c e) (hfl : (S.threads e).fault = none) :
    ¬ G.lent e p := fun hl => by
  have hb := (h.lent_temp hc hl).2
  rw [hfl] at hb
  exact hb

theorem Good.fault_none (h : Good D S G I) (hfl : (S.threads e).fault = none) : G.held e = none := by
  have hf := h.fault e
  rw [hfl] at hf
  exact hf

/-- What user code does not find is not present. -/
theorem Sound.unmapped {s : KState} (h : Sound D s) (hs : (frames s).slot e (pageOf va) = none) :
    mappedAt s e va = none := by
  refine Option.eq_none_iff_forall_ne_some.mpr fun f hm => ?_
  have hp := (entryFrame_eq_some.mp hm).1
  have hx := slot_pageOf.trans (entryAccess_eq_some.mpr ⟨⟨hp, (h.plain e _ _).user hp⟩, rfl, rfl⟩)
  rw [hs] at hx
  cases hx

/-- Without a fault, private memory is what the tables show. -/
theorem Good.shown (h : Good D S G I) (hc : OnCpu S.kern c e) (hf : (S.threads e).fault = none)
    (p : PageNo) : I e p = (frames S.kern).shown e p :=
  h.agrees.shows e p (h.not_lent hc hf) (by rw [h.fault_none hf]; simp)

/-- So it is on the pages that a thread may use while `pgfault` runs. -/
theorem Good.shown_at (h : Good D S G I) (hc : OnCpu S.kern c e) (hr : (S.threads e).Reaches va) :
    G.held e ≠ some (pageOf va) ∧ I e (pageOf va) = (frames S.kern).shown e (pageOf va) := by
  rcases hr.2.2 with hf | hst
  · exact ⟨by rw [h.fault_none hf]; simp, h.shown hc hf _⟩
  -- `pgfault` works below the top of the stack
  have hlow : ∀ {a : Word}, a < ustacktop → pageOf a ≠ pageOf va := by
    intro a ha hx
    have hpn := pageOf_eq.mp hx
    have hst' : pgnum ustacktop * 4096 = ustacktop.toNat := by decide
    rw [BitVec.lt_def] at ha
    rw [BitVec.le_def] at hst
    unfold pgnum at hpn hst'
    omega
  have hheld : G.held e ≠ some (pageOf va) := by
    intro hh
    have hfault := h.fault e
    cases hfl : (S.threads e).fault with
    | none =>
      rw [h.fault_none hfl] at hh
      cases hh
    | some fl =>
      rw [hfl] at hfault
      cases fl with
      | map a =>
        rw [hfault.2.1] at hh
        cases hh
      | alloc a =>
        rw [hfault.2.1] at hh
        cases hh
      | copy a k =>
        obtain ⟨⟨ha, -⟩, -, hx, -⟩ := hfault
        exact hlow ha (Option.some.inj (hx.symm.trans hh))
  exact ⟨hheld, h.agrees.shows e _ (fun hx => hlow (show pftemp < ustacktop by decide)
    (h.lent_temp hc hx).1.symm) hheld⟩

theorem Good.owned (h : Good D S G I) (hs : (frames S.kern).slot e p = some (f, .own))
    (hh : G.held e ≠ some p) : I e p = some ⟨true, S.kern.mem f⟩ :=
  h.agrees.contents hs (fun hl => (h.agrees.hides e p hl).2 f hs) hh

/-- A thread goes on without touching anything. -/
theorem Good.goto (h : Good D S G I) (hc : OnCpu S.kern c e)
    (hb : Busy (S.threads e).fault → Busy th.fault) (hf : FaultOk S.kern G e th.fault)
    (hp : PlaceOk S.kern G I e th.place)
    (hx : ∀ x, th.place.child = some x → (S.threads e).place.child = some x) :
    Moved D S e (S.setThread e th) G I := by
  refine h.move (h.running hc) h.kern h.agrees (X := fun _ => False) (fun _ hx => hx.elim)
    (fun z _ _ => .refl _ _ _ z) (fun _ _ _ _ _ _ _ _ => rfl)
    (fun p hl => (h.lent_temp hc hl).imp_right hb) (fun hst => ?_) hf hp fun x hx' => Or.inl (hx x hx')
  rw [h.running hc] at hst
  exact absurd hst (by simp)

/-- The library panics. -/
theorem Good.panic (h : Good D S G I) (hc : OnCpu S.kern c e) :
    Moved D S e (S.setThread e ⟨.panicked, (S.threads e).fault⟩) G I :=
  h.goto hc id (h.fault e) trivial fun x hx => by cases hx

theorem frames_eq {s : KState} (hp : pteAt t = pteAt s) (hm : t.mem = s.mem) :
    frames t = frames s := by
  rw [frames, frames, hp, hm]

/-- The kernel does something that no page table, no page and no identity shows. -/
theorem Good.same (h : Good D S G I) (hs : Sound D t) (hp : pteAt t = pteAt S.kern)
    (hm : t.mem = S.kern.mem) (hst : ∀ y, Stays S.kern t y) :
    Good D { S with kern := t } G I ∧ ∀ y, Untouched S.kern t y := by
  have hslot : (frames t).slot = (frames S.kern).slot := slot_of_pteAt hp
  have hfr : frames t = frames S.kern := frames_eq hp hm
  have hk : ∀ y, Kept S.kern t G G I I y := fun y =>
    ⟨fun p => by rw [hslot], rfl, fun _ => Iff.rfl, fun _ => rfl, hst y⟩
  refine ⟨⟨hs, hfr ▸ h.agrees, fun y p hl => (h.lent y p hl).imp_right (hst y).asleep.mpr,
    fun y hy => h.idle y (hy.imp (hst y).asleep.mp (hst y).free.mp), fun y => ?_, fun y => ?_,
    h.single⟩, fun y => ⟨(hk y).slot, fun _ _ _ _ => by rw [hm], hst y⟩⟩
  · exact (h.fault y).frame h.agrees (hk y) fun _ _ _ _ _ => by rw [hm]
  · exact (h.place y).frame (hst y) (fun _ => rfl) (fun p f hf => by rw [hslot]; exact hf)
      fun x _ => hk x

/-- `e` writes to a frame of its own. -/
theorem Good.poke (h : Good D S G I) (hc : OnCpu S.kern c e)
    (hs : (frames S.kern).slot e p = some (f, .own)) (v : Page)
    (hI : ∀ e' p', ¬ (e' = e ∧ p' = p) → I' e' p' = I e' p')
    (hnew : (G.held e = some p ∧ I' e p = I e p) ∨ (G.held e ≠ some p ∧ I' e p = some ⟨true, v⟩))
    (hb : Busy (S.threads e).fault → Busy th.fault) (hf : FaultOk (S.kern.setFrame f v) G e th.fault)
    (hpl : th.place = (S.threads e).place) :
    Moved D S e ⟨S.kern.setFrame f v, Function.update S.threads e th⟩ G I' := by
  obtain ⟨hsound, hslot⟩ := h.kern.store hs v
  have hmem : ∀ g, g ≠ f → (S.kern.setFrame f v).mem g = S.kern.mem g := fun g hg => by
    rw [KState.setFrame_mem, Function.update_of_ne hg]
  have hself : (S.kern.setFrame f v).mem f = v := by rw [KState.setFrame_mem, Function.update_self]
  have hpage : ∀ q, (I' e q).map Copy.writable = (I e q).map Copy.writable := by
    intro q
    by_cases hq : q = p
    · subst hq
      rcases hnew with hx | hx
      · rw [hx.2]
      · rw [hx.2, h.owned hs hx.1]
        rfl
    · rw [hI e q fun hx => hq hx.2]
  have hkept : ∀ z, z ≠ e → Kept S.kern (S.kern.setFrame f v) G G I I' z := fun z hz =>
    ⟨fun q => by rw [hslot], rfl, fun _ => Iff.rfl, fun q => by rw [hI z q fun hx => hz hx.1],
      .of_eq rfl⟩
  refine h.move (h.running hc) hsound (h.agrees.poke hs hslot hmem hI ?_) (X := fun _ => False)
    (fun _ hx => hx.elim) (fun z hz _ => hkept z hz) (fun z hz _ q g a hg hga => hmem g ?_)
    (fun p hl => (h.lent_temp hc hl).imp_right hb) (fun hst => ?_) hf ?_ fun x hx => Or.inl (hpl ▸ hx)
  · exact hnew.imp_right fun hx => ⟨hx.1, by rw [hx.2]; exact congrArg _ (congrArg _ hself.symm)⟩
  · rintro rfl
    rcases hga with rfl | hsh
    · exact hz (h.agrees.sole_own hs hg).1
    · exact hsh e p hs
  · have hrun : ((S.kern.setFrame f v).envs e).envStatus = .running := h.running hc
    rw [hrun] at hst
    exact absurd hst (by simp)
  · rw [hpl]
    refine (h.place e).frame (.of_eq rfl) hpage (fun q g hg => by rw [hslot]; exact hg) fun x hx => ?_
    exact hkept x ((h.place e).asleep hx).2

/-! ### Loads and stores -/

theorem setPage_of_ne {e' : EnvIdx} {p' : PageNo} {x : Option (Copy Page)}
    (hn : ¬ (e' = e ∧ p' = p)) : I.setPage e p x e' p' = I e' p' := by
  unfold Memory.setPage
  by_cases he : e' = e
  · subst he
    rw [Function.update_self, Function.update_of_ne fun hp => hn ⟨rfl, hp⟩]
  · rw [Function.update_of_ne he]

theorem setPage_self {x : Option (Copy Page)} : I.setPage e p x e p = x := by
  rw [Memory.setPage, Function.update_self, Function.update_self]

/-- Nothing happens. -/
theorem Good.stay (h : Good D S G I) : Moved D S e S G I :=
  ⟨h, fun y _ _ => ⟨fun _ => rfl, fun _ _ _ _ => rfl, .refl _ y⟩⟩

theorem Good.load (h : Good D S G I) (hc : OnCpu S.kern c e)
    (hact : S.act upcall c e (.load va) = some (T, o)) : Matched D S e I T o := by
  simp only [Sys.act] at hact
  split at hact
  swap
  · cases hact
  rename_i hreach
  have hshown := (h.shown_at hc hreach).2
  rw [h.kern.tables.read (h.kern.dir hc) hreach.2.1] at hact
  cases hs : (frames S.kern).slot e (pageOf va) with
  | none =>
    simp only [hs, Option.map_none] at hact
    cases hact
    refine ⟨?_, G, h.panic hc⟩
    show none = I.read e va
    rw [Memory.read, hshown, Frames.shown, hs]
    rfl
  | some x =>
    obtain ⟨f, a⟩ := x
    simp only [hs, Option.map_some] at hact
    cases hact
    refine ⟨?_, G, h.stay⟩
    show some ((S.kern.mem f).byte (pgoff va)) = I.read e va
    rw [Memory.read, hshown, shown_of_slot hs]
    rfl

/-- A store that finds the page writable. -/
theorem Good.write (h : Good D S G I) (hc : OnCpu S.kern c e)
    (hs : (frames S.kern).slot e (pageOf va) = some (f, .own)) (hh : G.held e ≠ some (pageOf va)) :
    Matched D S e I (S.storeTo f va b) (.write e va b) := by
  have hown := h.owned hs hh
  refine ⟨⟨_, hown, rfl⟩, G, ?_⟩
  have hthreads : Function.update S.threads e (S.threads e) = S.threads := Function.update_eq_self ..
  have hgood : Moved D S e ⟨_, Function.update S.threads e (S.threads e)⟩ G
      (I.after (.write e va b)) :=
    h.poke hc hs ((S.kern.mem f).setByte (pgoff va) b) (fun _ _ hn => setPage_of_ne hn)
    (Or.inr ⟨hh, by rw [Memory.after, setPage_self, hown]; rfl⟩) id ?_ rfl
  · rw [hthreads] at hgood
    exact hgood
  have hslot := (h.kern.store hs ((S.kern.mem f).setByte (pgoff va) b)).2
  have hk : Kept S.kern (S.kern.setFrame f ((S.kern.mem f).setByte (pgoff va) b)) G G I I e :=
    ⟨fun p => by rw [hslot], rfl, fun _ => Iff.rfl, fun _ => rfl, .of_eq rfl⟩
  refine (h.fault e).frame h.agrees hk fun q g a hg hx => ?_
  rw [KState.setFrame_mem, Function.update_of_ne]
  rintro rfl
  rcases hx with ⟨rfl, hq⟩ | hsh
  · exact hh ((h.agrees.sole_own hs hg).2 ▸ hq)
  · exact hsh e _ hs

/-- Entries that are marked copy-on-write. -/
theorem Sound.marked {s : KState} (h : Sound D s) (hcow : pteOf s e va &&& pteCow ≠ 0) :
    ∃ f a, (frames s).slot e (pageOf va) = some (f, a) ∧ a ≠ .readOnly := by
  have hp : pteOf s e va &&& pteP ≠ 0 := by
    rcases h.inv.core.entries e (pdx va) (ptx va) with h0 | ⟨f, perm, hw, -⟩
    · rw [pteOf, h0] at hcow
      exact absurd (BitVec.zero_and) hcow
    · rw [pteOf, hw]
      intro h0
      exact present_or _ h0
  refine ⟨_, _, slot_pageOf.trans (entryAccess_eq_some.mpr ⟨⟨hp, (h.plain e _ _).user hp⟩, rfl, rfl⟩), ?_⟩
  split
  · simp
  · simp

theorem not_cow {s : KState} (h : pteOf s e va &&& pteCow = 0) :
    (frames s).slot e (pageOf va) ≠ some (f, .cow) := by
  intro hs
  rw [slot_pageOf] at hs
  obtain ⟨-, -, ha⟩ := entryAccess_eq_some.mp hs
  split at ha
  · cases ha
  · rw [if_neg (not_not.mpr h)] at ha
    cases ha

theorem served_rounddown (h : va < ustacktop) : Served (rounddown va) := by
  have hr := rounddown_toNat va
  have hst : ustacktop.toNat < utop.toNat := by decide
  rw [BitVec.lt_def] at h
  have hlt : rounddown va < ustacktop := by
    rw [BitVec.lt_def]
    omega
  refine ⟨hlt, ?_⟩
  simp only [vaOk, Bool.and_eq_true, decide_eq_true_eq, pgoff]
  rw [BitVec.lt_def] at hlt ⊢
  exact ⟨by omega, decide_eq_true (by omega)⟩

theorem Good.store (h : Good D S G I) (hc : OnCpu S.kern c e)
    (htemp : userAccess S.kern c userWrite va = none → pteOf S.kern e va &&& pteCow ≠ 0 →
      mappedAt S.kern e pftemp = none)
    (hact : S.act upcall c e (.store va b) = some (T, o)) : Matched D S e I T o := by
  simp only [Sys.act] at hact
  split at hact
  swap
  · cases hact
  rename_i hreach
  obtain ⟨hheld, hshown⟩ := h.shown_at hc hreach
  have hwrite := fun f => h.kern.tables.write (f := f) (h.kern.dir hc) hreach.2.1
  cases hw : userAccess S.kern c userWrite va with
  | some f =>
    simp only [hw] at hact
    cases hact
    exact h.write hc ((hwrite f).mp hw) hheld
  | none =>
    have hno : ∀ f, (frames S.kern).slot e (pageOf va) ≠ some (f, .own) := fun f hs => by
      rw [(hwrite f).mpr hs] at hw
      cases hw
    simp only [hw] at hact
    split at hact
    · -- the page is not marked copy-on-write, and `pgfault` panics
      rename_i hcow
      cases hact
      refine ⟨?_, G, h.panic hc⟩
      rintro ⟨x, hx, hxw⟩
      rw [hshown] at hx
      cases hs : (frames S.kern).slot e (pageOf va) with
      | none =>
        rw [Frames.shown, hs] at hx
        cases hx
      | some y =>
        obtain ⟨f, a⟩ := y
        rw [shown_of_slot hs] at hx
        cases hx
        cases a with
        | readOnly => simp at hxw
        | cow => exact not_cow hcow hs
        | own => exact hno f hs
    · rename_i hcow
      split at hact
      swap
      · cases hact
      rename_i hlow
      cases hact
      have hnone : (S.threads e).fault = none := hreach.2.2.resolve_right fun hst => by
        rw [BitVec.le_def] at hst
        rw [BitVec.lt_def] at hlow
        omega
      have hunused : (frames S.kern).slot e temp = none := by
        cases hs : (frames S.kern).slot e temp with
        | none => rfl
        | some x =>
          have hmapped := htemp hw hcow
          rw [mappedAt_of_slot (f := x.1) (a := x.2) hs] at hmapped
          cases hmapped
      obtain ⟨f, a, hs, ha⟩ := h.kern.marked hcow
      have hround : pageOf (rounddown va) = pageOf va := pageOf_eq.mpr (Fork.pgnum_rounddown va)
      refine ⟨trivial, G, h.goto hc (fun hb => ?_)
        ⟨served_rounddown hlow, h.fault_none hnone, hunused, f, ?_⟩ (h.place e) fun x hx => hx⟩
      · rw [hnone] at hb
        exact hb.elim
      cases a with
      | readOnly => exact absurd rfl ha
      | cow => rw [hround]; exact hs
      | own => exact absurd hs (hno f)

/-- The program calls `fork`. -/
theorem Good.fork {first : Bool} (h : Good D S G I) (hc : OnCpu S.kern c e)
    (hact : S.act upcall c e (.fork first) = some (T, o)) : Matched D S e I T o := by
  simp only [Sys.act] at hact
  split at hact
  swap
  · cases hact
  rename_i hidle
  cases hact
  have hf := h.fault e
  rw [hidle] at hf
  refine ⟨trivial, G, h.goto hc (by rw [hidle]; exact id) hf ?_ fun x hx => ?_⟩
  · cases first with
    | true => exact trivial
    | false => exact trivial
  · cases first with
    | true => cases hx
    | false => cases hx

/-! ### Leaving -/

theorem Good.exit (h : Good D S G I) (hc : OnCpu S.kern c e)
    (hact : S.act upcall c e .exit = some (T, o)) : Matched D S e I T o := by
  simp only [Sys.act] at hact
  split at hact
  swap
  · cases hact
  rename_i t hrun
  cases hact
  obtain ⟨hs, hg⟩ := h.kern.exit hc hrun
  set G' : Loans := ⟨fun y p => y ≠ e ∧ G.lent y p, fun y => if y = e then none else G.held y⟩ with hG
  have hlent : ∀ y p, y ≠ e → (G'.lent y p ↔ G.lent y p) := fun y p hy => and_iff_right hy
  have hheld : ∀ y, y ≠ e → G'.held y = G.held y := fun y hy => by simp only [hG, if_neg hy]
  have hself : ∀ p, ¬ G'.lent e p := fun p hl => hl.1 rfl
  have hnone : G'.held e = none := by simp only [hG, if_true]
  have hI : ∀ y p, y ≠ e → Function.update I e (fun _ => none) y p = I y p := fun y p hy => by
    rw [Function.update_of_ne hy]
  refine ⟨trivial, G', h.move (h.running hc) hs (h.agrees.clear hg.empty (fun y p hy => hg.slot y hy p)
    hg.data hlent hnone hheld (fun p => by rw [Memory.after, Function.update_self]) hI)
    (X := fun _ => False) (fun _ hx => hx.elim) (fun z hz _ => ⟨hg.slot z hz, hheld z hz,
      fun p => hlent z p hz, fun p => by rw [Memory.after, hI z p hz], hg.stays z hz⟩)
    (fun z hz _ p f a hf _ => hg.data f ⟨z, p, a, (hg.slot z hz p).trans hf⟩)
    (fun p hl => absurd hl (hself p)) (fun _ => rfl) hnone trivial fun x hx => by cases hx⟩

theorem yields_of_enter {s : KState} (h : enter (schedYield c) s = some t) : Yields c s t := by
  have hwp := schedYield_wp (c := c) (s := s) (Q := fun _ _ => True) (R := Yields c s) fun _ h => h
  exact leaves_leave.mp (hwp.error (enter_eq_some.mp h))

theorem Good.yield (h : Good D S G I) (hstep : S.step upcall c .yield = some (T, o)) :
    I.Allows o ∧ ∃ G, Good D T G (I.after o) ∧ ∀ y, Untouched S.kern T.kern y := by
  simp only [Sys.step] at hstep
  split at hstep
  · cases hstep
  obtain ⟨t, ht, hT⟩ := Option.map_eq_some_iff.mp hstep
  cases hT
  have hy := yields_of_enter ht
  obtain ⟨hg, hothers⟩ := h.same (h.kern.yield hy) hy.pteAt hy.mem (stays_of_yields hy)
  exact ⟨trivial, G, hg, hothers⟩

end CowFork

end Jos
