import Jos.CowEnvs

/-!
  What is known of a thread between two steps.

  While `pgfault` runs, the frames at the page and at `PFTEMP` are known. While `fork` runs, the child
  waits, and the pages that went through the loop are the same for parent and child in private
  memory. Steps of other environments keep all this (`Kept`). -/

namespace Jos

open Lib Lib.Cow

namespace CowFork

/-- `PFTEMP`. -/
def temp : PageNo := pageOf pftemp

abbrev Loans := Ghost EnvIdx PageNo

/-- The page with number `pn`. -/
def nth (pn : Nat) : PageNo := pageOf (Fork.pageVa pn)

theorem nth_inj {n m : Nat} (hn : n < pgnum ustacktop) (hm : m < pgnum ustacktop) :
    nth n = nth m ↔ n = m := by
  rw [nth, nth, pageOf_eq, Fork.pgnum_pageVa hn, Fork.pgnum_pageVa hm]

/-- The child that a thread works on. -/
def Place.child : Place → Option EnvIdx
  | .scan envid _ => some (envx envid)
  | .enter envid _ => some (envx envid)
  | .dup envid _ _ => some (envx envid)
  | .own envid _ _ => some (envx envid)
  | .stack envid => some (envx envid)
  | .childUpcall envid => some (envx envid)
  | .start envid => some (envx envid)
  | _ => none

/-- An address of a page where `pgfault` helps. -/
def Served (addr : Word) : Prop := addr < ustacktop ∧ vaOk addr = true

/-- `pgfault` has mapped `PFTEMP`. -/
def Busy : Option Fault → Prop
  | some (.alloc _) => True
  | some (.copy _ _) => True
  | _ => False

def FaultOk (s : KState) (G : Loans) (e : EnvIdx) : Option Fault → Prop
  | none => G.held e = none
  | some (.map a) => Served a ∧ G.held e = none ∧ (frames s).slot e temp = none ∧
      ∃ f, (frames s).slot e (pageOf a) = some (f, .cow)
  | some (.alloc a) => Served a ∧ G.held e = none ∧ G.lent e temp ∧ ∃ f,
      (frames s).slot e (pageOf a) = some (f, .cow) ∧ (frames s).slot e temp = some (f, .readOnly)
  | some (.copy a k) => Served a ∧ k ≤ pgsize ∧ G.held e = some (pageOf a) ∧ ∃ g f,
      (frames s).slot e (pageOf a) = some (g, .own) ∧ (frames s).slot e temp = some (f, .readOnly) ∧
      ∀ i < k, (s.mem g).byte i = (s.mem f).byte i

/-- `e` prepares its child. The first `n` pages went through the loop; the pages `P` are lent. -/
structure Builds (s : KState) (G : Loans) (I : Memory) (e : EnvIdx) (envid : Word) (n : Nat)
    (P : PageNo → Prop) : Prop where
  child : ∃ d, Fork.Child e (envx envid) d envid s
  asleep : (s.envs (envx envid)).envStatus = .notRunnable
  copied : ∀ pn < n, pn < pgnum ustacktop →
    (I (envx envid) (nth pn)).map Copy.writable = (I e (nth pn)).map Copy.writable
  rest : ∀ pn, n ≤ pn → pn < pgnum ustacktop → I (envx envid) (nth pn) = none
  lent : ∀ p, G.lent (envx envid) p → P p

/-- Between the two system calls of `duppage` for a page that the parent had to itself: both have the
    frame, and only the parent may write to it. -/
structure Lends (s : KState) (G : Loans) (e x : EnvIdx) (p : PageNo) : Prop where
  lent : G.lent x p
  frame : ∃ f, (frames s).slot e p = some (f, .own) ∧ (frames s).slot x p = some (f, .cow)

def PlaceOk (s : KState) (G : Loans) (I : Memory) (e : EnvIdx) : Place → Prop
  | .scan envid pn => Builds s G I e envid pn fun _ => False
  | .enter envid pn => pn < pgnum ustacktop ∧ (∃ x, I e (nth pn) = some x) ∧
      Builds s G I e envid pn fun _ => False
  | .dup envid pn pte => pn < pgnum ustacktop ∧ (∃ x, I e (nth pn) = some x ∧
      (x.writable = true ↔ pte &&& pteW ≠ 0 ∨ pte &&& pteCow ≠ 0)) ∧ pte &&& pteShare = 0 ∧
      Builds s G I e envid pn fun _ => False
  | .own envid pn was => pn < pgnum ustacktop ∧ (∃ x, I e (nth pn) = some x ∧ x.writable = true) ∧
      if was &&& pteW ≠ 0 then
        Builds s G I e envid pn (· = nth pn) ∧ Lends s G e (envx envid) (nth pn)
      else Builds s G I e envid (pn + 1) fun _ => False
  | .stack envid => Builds s G I e envid (pgnum ustacktop) fun _ => False
  | .childUpcall envid => Builds s G I e envid (pgnum ustacktop) fun _ => False
  | .start envid => Builds s G I e envid (pgnum ustacktop) fun _ => False
  | _ => True

/-! ### Steps that do not concern a thread -/

/-- The pages of `y`, what they are used for, and its record stay. -/
structure Kept (s t : KState) (G G' : Loans) (I I' : Memory) (y : EnvIdx) : Prop where
  slot : ∀ p, (frames t).slot y p = (frames s).slot y p
  held : G'.held y = G.held y
  lent : ∀ p, G'.lent y p ↔ G.lent y p
  page : ∀ p, (I' y p).map Copy.writable = (I y p).map Copy.writable
  stays : Stays s t y

variable {s t : KState} {G G' : Loans} {I I' : Memory} {e x : EnvIdx} {envid : Word} {n d : Nat}
  {P : PageNo → Prop}

theorem Stays.refl (s : KState) (x : EnvIdx) : Stays s s x := ⟨rfl, rfl, rfl, Iff.rfl, Iff.rfl⟩

theorem Kept.refl (s : KState) (G : Loans) (I : Memory) (y : EnvIdx) : Kept s s G G I I y :=
  ⟨fun _ => rfl, rfl, fun _ => Iff.rfl, fun _ => rfl, .refl s y⟩

theorem child_stays (h : Fork.Child e x d envid s) (he : Stays s t e) (hx : Stays s t x) :
    Fork.Child e x d envid t := by
  refine ⟨hx.dir.trans h.dir, ?_, h.ne⟩
  have hl := h.look
  unfold lookupEnv at hl ⊢
  by_cases h0 : envid = 0
  · rw [if_pos h0] at hl
    exact absurd (Option.some.inj hl).symm h.ne
  rw [if_neg h0] at hl ⊢
  split at hl
  · cases hl
  rename_i hlive
  split at hl
  · cases hl
  rename_i hfam
  have hxe : envx envid = x := Option.some.inj hl
  rw [hxe] at hlive hfam ⊢
  have hlive' : ¬ ((t.envs x).envStatus = .free ∨ (t.envs x).envId ≠ envid) := by
    rw [hx.free, hx.id]
    exact hlive
  have hfam' : ¬ (true = true ∧ x ≠ e ∧ (t.envs x).envParentId ≠ (t.envs e).envId) := by
    rw [hx.parent, he.id]
    exact hfam
  rw [if_neg hlive', if_neg hfam']

theorem Builds.frame (h : Builds s G I e envid n P) (he : Stays s t e)
    (hp : ∀ p, (I' e p).map Copy.writable = (I e p).map Copy.writable)
    (hx : Kept s t G G' I I' (envx envid)) : Builds t G' I' e envid n P := by
  obtain ⟨d, hd⟩ := h.child
  refine ⟨⟨d, child_stays hd he hx.stays⟩, hx.stays.asleep.mpr h.asleep, fun pn hn hl => ?_,
    fun pn hn hl => ?_, fun p hl => h.lent p ((hx.lent p).mp hl)⟩
  · rw [hx.page, hp]
    exact h.copied pn hn hl
  · have hno := hx.page (nth pn)
    rw [h.rest pn hn hl] at hno
    exact Option.map_eq_none_iff.mp hno

/-- The right to write to a page stays. -/
theorem writable_of_map {p : PageNo} {z : Copy Page}
    (hp : (I' e p).map Copy.writable = (I e p).map Copy.writable) (hz : I e p = some z) :
    ∃ z', I' e p = some z' ∧ z'.writable = z.writable := by
  rw [hz] at hp
  obtain ⟨z', hz', hw⟩ := Option.map_eq_some_iff.mp hp
  exact ⟨z', hz', hw⟩

theorem PlaceOk.frame {pl : Place} (h : PlaceOk s G I e pl) (he : Stays s t e)
    (hp : ∀ p, (I' e p).map Copy.writable = (I e p).map Copy.writable)
    (hown : ∀ p f, (frames s).slot e p = some (f, .own) → (frames t).slot e p = some (f, .own))
    (hx : ∀ x, pl.child = some x → Kept s t G G' I I' x) : PlaceOk t G' I' e pl := by
  cases pl with
  | scan envid pn => exact Builds.frame h he hp (hx _ rfl)
  | enter envid pn =>
    obtain ⟨hn, ⟨z, hz⟩, hb⟩ := h
    obtain ⟨z', hz', -⟩ := writable_of_map (hp _) hz
    exact ⟨hn, ⟨z', hz'⟩, hb.frame he hp (hx _ rfl)⟩
  | dup envid pn pte =>
    obtain ⟨hn, ⟨z, hz, hw⟩, hs, hb⟩ := h
    obtain ⟨z', hz', hzz⟩ := writable_of_map (hp _) hz
    exact ⟨hn, ⟨z', hz', by rw [hzz, hw]⟩, hs, hb.frame he hp (hx _ rfl)⟩
  | own envid pn was =>
    obtain ⟨hn, ⟨z, hz, hw⟩, hb⟩ := h
    obtain ⟨z', hz', hzz⟩ := writable_of_map (hp _) hz
    refine ⟨hn, ⟨z', hz', hzz.trans hw⟩, ?_⟩
    have hk := hx _ rfl
    by_cases hlend : was &&& pteW ≠ 0
    · rw [if_pos hlend] at hb ⊢
      obtain ⟨hb, hl, f, hf, hfx⟩ := hb
      exact ⟨hb.frame he hp hk, (hk.lent _).mpr hl, f, hown _ f hf, (hk.slot _).trans hfx⟩
    · rw [if_neg hlend] at hb ⊢
      exact hb.frame he hp hk
  | stack envid => exact Builds.frame h he hp (hx _ rfl)
  | childUpcall envid => exact Builds.frame h he hp (hx _ rfl)
  | start envid => exact Builds.frame h he hp (hx _ rfl)
  | program => exact h
  | handler => exact h
  | upcall => exact h
  | exofork => exact h
  | panicked => exact h

/-- The child of a thread waits, and is another environment. -/
theorem PlaceOk.asleep {pl : Place} (h : PlaceOk s G I e pl) (hx : pl.child = some x) :
    (s.envs x).envStatus = .notRunnable ∧ x ≠ e := by
  have hb : ∀ {envid n P}, Builds s G I e envid n P → some (envx envid) = some x →
      (s.envs x).envStatus = .notRunnable ∧ x ≠ e := by
    intro envid n P hb hx
    cases hx
    obtain ⟨d, hd⟩ := hb.child
    exact ⟨hb.asleep, hd.ne⟩
  cases pl with
  | scan envid pn => exact hb h hx
  | enter envid pn => exact hb h.2.2 hx
  | dup envid pn pte => exact hb h.2.2.2 hx
  | own envid pn was =>
    have hw := h.2.2
    split at hw
    · exact hb hw.1 hx
    · exact hb hw hx
  | stack envid => exact hb h hx
  | childUpcall envid => exact hb h hx
  | start envid => exact hb h hx
  | program => cases hx
  | handler => cases hx
  | upcall => cases hx
  | exofork => cases hx
  | panicked => cases hx

/-- `pgfault` goes on as if nothing had happened, when the frames that it uses keep what they hold. -/
theorem FaultOk.frame {fl : Option Fault} (h : FaultOk s G e fl) (ha : Agrees temp (frames s) G I)
    (hk : Kept s t G G' I I' e) (hdata : ∀ p f a, (frames s).slot e p = some (f, a) →
      a = .own ∧ G.held e = some p ∨ (frames s).Shared f → t.mem f = s.mem f) :
    FaultOk t G' e fl := by
  cases fl with
  | none => exact hk.held.trans h
  | some fl =>
    cases fl with
    | map a =>
      obtain ⟨hs, hh, ht, f, hf⟩ := h
      exact ⟨hs, hk.held.trans hh, (hk.slot _).trans ht, f, (hk.slot _).trans hf⟩
    | alloc a =>
      obtain ⟨hs, hh, hl, f, hf, ht⟩ := h
      exact ⟨hs, hk.held.trans hh, (hk.lent _).mpr hl, f, (hk.slot _).trans hf, (hk.slot _).trans ht⟩
    | copy a k =>
      obtain ⟨hs, hle, hh, g, f, hg, hf, hb⟩ := h
      obtain ⟨f', hf', hsh, -⟩ := (ha.copying e _ hh).old
      obtain rfl : f' = f := by
        rw [hf] at hf'
        cases hf'
        rfl
      refine ⟨hs, hle, hk.held.trans hh, g, f', (hk.slot _).trans hg, (hk.slot _).trans hf,
        fun i hi => ?_⟩
      rw [hdata _ g _ hg (Or.inl ⟨rfl, hh⟩), hdata _ f' _ hf (Or.inr hsh)]
      exact hb i hi

/-! ### All threads -/

/-- What holds between two steps: the kernel's tables stand for private memory, and all threads are
    where they say they are. -/
structure Good (D : Prop) (S : Sys) (G : Loans) (I : Memory) : Prop where
  kern : Sound D S.kern
  agrees : Agrees temp (frames S.kern) G I
  lent : ∀ e p, G.lent e p → (p = temp ∧ Busy (S.threads e).fault) ∨
    (S.kern.envs e).envStatus = .notRunnable
  idle : ∀ e, (S.kern.envs e).envStatus = .notRunnable ∨ (S.kern.envs e).envStatus = .free →
    S.threads e = CowFork.idle
  fault : ∀ e, FaultOk S.kern G e (S.threads e).fault
  place : ∀ e, PlaceOk S.kern G I e (S.threads e).place
  single : ∀ e e' x, (S.threads e).place.child = some x → (S.threads e').place.child = some x → e = e'

/-- An environment that has been started, and has not ended. -/
def Started (s : KState) (y : EnvIdx) : Prop :=
  (s.envs y).envStatus ≠ .free ∧ (s.envs y).envStatus ≠ .notRunnable

/-- The pages of `y`, what is on them, and its record stay. -/
structure Untouched (s t : KState) (y : EnvIdx) : Prop where
  slot : ∀ p, (frames t).slot y p = (frames s).slot y p
  data : ∀ p f a, (frames s).slot y p = some (f, a) → t.mem f = s.mem f
  stays : Stays s t y

/-- A step of `e` to `T`, which no other started environment notices. -/
structure Moved (D : Prop) (S : Sys) (e : EnvIdx) (T : Sys) (G : Loans) (I : Memory) : Prop where
  good : Good D T G I
  others : ∀ y, y ≠ e → Started S.kern y → Untouched S.kern T.kern y

variable {D : Prop} {S T U : Sys} {th : Thread} {y : EnvIdx} {p : PageNo} {f : Nat} {a : Access}
  {u : KState}

theorem Stays.trans (h : Stays s t y) (h' : Stays t u y) : Stays s u y :=
  ⟨h'.id.trans h.id, h'.parent.trans h.parent, h'.dir.trans h.dir, h'.free.trans h.free,
    h'.asleep.trans h.asleep⟩

theorem Started.stays (h : Started s y) (hs : Stays s t y) : Started t y :=
  ⟨fun hx => h.1 (hs.free.mp hx), fun hx => h.2 (hs.asleep.mp hx)⟩

theorem Untouched.trans (h : Untouched s t y) (h' : Untouched t u y) : Untouched s u y :=
  ⟨fun p => (h'.slot p).trans (h.slot p), fun p f a hf =>
    (h'.data p f a ((h.slot p).trans hf)).trans (h.data p f a hf), h.stays.trans h'.stays⟩

theorem Moved.trans (h : Moved D S e T G I) (h' : Moved D T e U G' I') : Moved D S e U G' I' :=
  ⟨h'.good, fun y hy hst =>
    (h.others y hy hst).trans (h'.others y hy (hst.stays (h.others y hy hst).stays))⟩

/-- Only a started environment itself writes to the frames that it has. -/
theorem Good.own_or_shared (h : Good D S G I) (hy : Started S.kern y)
    (hs : (frames S.kern).slot y p = some (f, a)) : a = .own ∨ (frames S.kern).Shared f := by
  by_cases ha : a = .own
  · exact Or.inl ha
  have hlent : ∀ q, G.lent y q → q = temp ∧ Busy (S.threads y).fault :=
    fun q hq => (h.lent y q hq).resolve_right hy.2
  by_cases hl : G.lent y p
  swap
  · exact Or.inr (h.agrees.shared hs hl ha)
  -- the old frame of the page that `pgfault` serves
  obtain ⟨rfl, hbusy⟩ := hlent p hl
  have hfault := h.fault y
  cases hfl : (S.threads y).fault with
  | none =>
    rw [hfl] at hbusy
    exact hbusy.elim
  | some fl =>
    rw [hfl] at hfault hbusy
    cases fl with
    | map a => exact hbusy.elim
    | alloc b =>
      obtain ⟨-, -, -, g, hg, ht⟩ := hfault
      rw [ht] at hs
      cases hs
      refine Or.inr (h.agrees.shared hg (fun hl => ?_) (by simp))
      rw [(hlent _ hl).1, ht] at hg
      cases hg
    | copy b k =>
      obtain ⟨-, -, hheld, -⟩ := hfault
      obtain ⟨g, hg, hsh, -⟩ := (h.agrees.copying y _ hheld).old
      rw [hg] at hs
      cases hs
      exact Or.inr hsh

/-- The other threads, when `e` takes a step that concerns itself and `X` only. -/
theorem Good.others (h : Good D S G I) (hrun : (S.kern.envs e).envStatus = .running)
    {X : EnvIdx → Prop} (hX : ∀ x, X x → ∀ y, y ≠ e → (S.threads y).place.child ≠ some x)
    (hkept : ∀ z, z ≠ e → ¬ X z → Kept S.kern t G G' I I' z)
    (hdata : ∀ z, z ≠ e → ¬ X z → ∀ p f a, (frames S.kern).slot z p = some (f, a) →
      a = .own ∨ (frames S.kern).Shared f → t.mem f = S.kern.mem f)
    {y : EnvIdx} (hy : y ≠ e) (hyX : ¬ X y) :
    FaultOk t G' y (S.threads y).fault ∧ PlaceOk t G' I' y (S.threads y).place := by
  have hk := hkept y hy hyX
  refine ⟨(h.fault y).frame h.agrees hk fun p f a hf hx => hdata y hy hyX p f a hf (hx.imp_left And.left),
    (h.place y).frame hk.stays hk.page (fun p f hf => (hk.slot p).trans hf) fun x hx =>
     hkept x ?_ fun hxX => hX x hxX y hy hx⟩
  rintro rfl
  rw [((h.place y).asleep hx).1] at hrun
  cases hrun

/-- A step of `e` that concerns itself and `X` only. -/
theorem Good.move (h : Good D S G I) (hrun : (S.kern.envs e).envStatus = .running)
    (hs : Sound D t) (hag : Agrees temp (frames t) G' I') {X : EnvIdx → Prop}
    (hX : ∀ x, X x → x ≠ e ∧ (∀ y, y ≠ e → (S.threads y).place.child ≠ some x) ∧
      S.threads x = CowFork.idle ∧ FaultOk t G' x none ∧
      (∀ p, G'.lent x p → (t.envs x).envStatus = .notRunnable) ∧ ¬ Started S.kern x)
    (hkept : ∀ z, z ≠ e → ¬ X z → Kept S.kern t G G' I I' z)
    (hdata : ∀ z, z ≠ e → ¬ X z → ∀ p f a, (frames S.kern).slot z p = some (f, a) →
      a = .own ∨ (frames S.kern).Shared f → t.mem f = S.kern.mem f)
    (hlent : ∀ p, G'.lent e p → p = temp ∧ Busy th.fault)
    (hidle : (t.envs e).envStatus = .notRunnable ∨ (t.envs e).envStatus = .free → th = CowFork.idle)
    (hfault : FaultOk t G' e th.fault) (hplace : PlaceOk t G' I' e th.place)
    (hsingle : ∀ x, th.place.child = some x → (S.threads e).place.child = some x ∨ X x) :
    Moved D S e ⟨t, Function.update S.threads e th⟩ G' I' := by
  have hoth := fun {y} (hy : y ≠ e) (hyX : ¬ X y) =>
    h.others hrun (fun x hx => (hX x hx).2.1) hkept hdata hy hyX
  have hth : ∀ {y}, y ≠ e → Function.update S.threads e th y = S.threads y :=
    fun hy => Function.update_of_ne hy _ _
  have hsing : ∀ y y' x, y ≠ e → (S.threads y).place.child = some x →
      ¬ (y' = e ∧ th.place.child = some x) := by
    rintro y y' x hy hx ⟨-, hx'⟩
    rcases hsingle x hx' with ho | ho
    · exact hy (h.single y e x hx ho)
    · exact (hX x ho).2.1 y hy hx
  refine ⟨⟨hs, hag, fun y p hl => ?_, fun y hy => ?_, fun y => ?_, fun y => ?_,
    fun y y' x hx hx' => ?_⟩, fun y hy hst => ?_⟩
  · by_cases hye : y = e
    · subst hye
      simp only [Function.update_self]
      exact Or.inl (hlent p hl)
    by_cases hyX : X y
    · exact Or.inr ((hX y hyX).2.2.2.2.1 p hl)
    · have hk := hkept y hye hyX
      simp only [hth hye]
      exact (h.lent y p ((hk.lent p).mp hl)).imp_right hk.stays.asleep.mpr
  · by_cases hye : y = e
    · subst hye
      simp only [Function.update_self]
      exact hidle hy
    simp only [hth hye]
    by_cases hyX : X y
    · exact (hX y hyX).2.2.1
    · have hk := hkept y hye hyX
      exact h.idle y (hy.imp hk.stays.asleep.mp hk.stays.free.mp)
  · by_cases hye : y = e
    · subst hye
      simp only [Function.update_self]
      exact hfault
    simp only [hth hye]
    by_cases hyX : X y
    · obtain ⟨-, -, hi, hf, -⟩ := hX y hyX
      rw [hi]
      exact hf
    · exact (hoth hye hyX).1
  · by_cases hye : y = e
    · subst hye
      simp only [Function.update_self]
      exact hplace
    simp only [hth hye]
    by_cases hyX : X y
    · rw [(hX y hyX).2.2.1]
      exact trivial
    · exact (hoth hye hyX).2
  · by_cases hye : y = e
    · by_cases hye' : y' = e
      · rw [hye, hye']
      · simp only [hye, Function.update_self] at hx
        simp only [hth hye'] at hx'
        exact absurd ⟨rfl, hx⟩ (hsing y' e x hye' hx')
    · simp only [hth hye] at hx
      by_cases hye' : y' = e
      · simp only [hye', Function.update_self] at hx'
        exact absurd ⟨rfl, hx'⟩ (hsing y e x hye hx)
      · simp only [hth hye'] at hx'
        exact h.single y y' x hx hx'
  · have hyX : ¬ X y := fun hx => (hX y hx).2.2.2.2.2 hst
    have hk := hkept y hy hyX
    exact ⟨hk.slot, fun p f a hf => hdata y hy hyX p f a hf (h.own_or_shared hst hf), hk.stays⟩

end CowFork

end Jos
