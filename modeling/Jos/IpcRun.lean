import Jos.IpcCards
import Jos.TwoCpus

/-!
  Environments that communicate through `lib/ipc.c` are processes that hand over values.

  A message passes when `sys_ipc_try_send` succeeds: from then on the sender only has to look at its
  result, and the receiver only at fields that nobody changes before it receives again. -/

namespace Jos

open Lib RefCount Rendezvous

namespace Ipc

variable {ω σ : Type}

/-- What a thread amounts to among the processes, with the card of its environment. -/
def Thread.shown (text : Text ω σ) (d : Card) (th : Thread σ) : σ :=
  match th.place, text th.prog with
  | .trySend, .send _ _ next => if d.eax = 0 then next else th.prog
  | .recv, .recv next => if d.recving then th.prog else next d.value d.src
  | .stored, .recv next => next d.value d.src
  | .storedFrom _, .recv next => next d.value d.src
  | .exofork, .fork parent child =>
    if d.eax.slt 0 then th.prog else if d.eax = 0 then child else parent d.eax
  | .cputs, .print _ next => next
  | _, _ => th.prog

/-- The child that a thread is about to start. -/
def Thread.child (d : Card) (th : Thread σ) : Option Word :=
  match th.place with
  | .copying envid => some envid
  | .exofork => if d.eax.slt 0 ∨ d.eax = 0 then none else some d.eax
  | _ => none

/-- The processes that threads with these cards amount to. -/
def procsOf (text : Text ω σ) (C : Cards) (Th : Threads σ) : Procs Word σ := fun w =>
  (C (envx w)).bind fun d => if d.envId = w then some ((Th (envx w)).shown text d) else none

def procs (text : Text ω σ) (N : Net σ) : Procs Word σ := procsOf text (cards N.kern) N.threads

/-- A thread and its card: it waits for a message only in `ipc_recv`, and then finds 0. -/
structure Fits (text : Text ω σ) (e : EnvIdx) (d : Card) (th : Thread σ) : Prop where
  id : envx d.envId = e
  recving : d.recving = true → th.place = .recv
  recv : th.place = .recv → (∃ next, text th.prog = .recv next) ∧ (d.recving = false → d.eax = 0)
  src : ∀ src, th.place = .storedFrom src → src = d.src
  paging : th.paging ≠ .no → th.place.waits = false
  this : th.thisenv = e ∨ th.place = .newborn ∨ th.place = .getenvid ∨
    th.place = .exofork ∧ d.eax = 0
  getenvid : th.place = .getenvid → d.eax = d.envId

/-- `id` is a child that was not started. -/
structure Embryo (C : Cards) (Th : Threads σ) (id : Word) : Prop where
  nonzero : id ≠ 0
  place : (Th (envx id)).place = .exofork
  card : ∃ b, C (envx id) = some b ∧ b.envId = id ∧ b.stopped = true ∧ b.recving = false ∧ b.eax = 0

structure Consistent (text : Text ω σ) (C : Cards) (Th : Threads σ) : Prop where
  fits : ∀ e d, C e = some d → Fits text e d (Th e)
  child : ∀ e d id, C e = some d → (Th e).child d = some id → Embryo C Th id
  sole : ∀ e e' d d' id, C e = some d → C e' = some d' → (Th e).child d = some id →
    (Th e').child d' = some id → e = e'

/-- Nobody is about to start `e`. -/
def Unclaimed (C : Cards) (Th : Threads σ) (e : EnvIdx) : Prop :=
  ∀ y d id, C y = some d → (Th y).child d = some id → envx id ≠ e

/-- The invariant of the system. -/
structure NetInv (text : Text ω σ) (N : Net σ) : Prop where
  mail : MailInv N.kern
  awake : Awake N.kern
  threads : Consistent text (cards N.kern) N.threads

/-- The processes that boot leaves behind, one for each program. -/
def bootProcs (init : EnvIdx → σ) (p : BootParams) : Procs Word σ := fun w =>
  if (envx w).val < p.images.length ∧ w = 4096 ||| BitVec.ofNat 32 (envx w).val then
    some (init (envx w))
  else none

/-- No two processes have the same slot of `envs`. -/
def Slots (M : Procs Word σ) : Prop :=
  ∀ w w', M w ≠ none → M w' ≠ none → envx w = envx w' → w = w'

/-- One step among the processes, or none, with the same output. -/
def Follows (text : Text ω σ) (M M' : Procs Word σ) (out : List (Word × ω)) : Prop :=
  M' = M ∧ out = [] ∨ ∃ l, Rendezvous.Step text M l M' ∧ l.out = out

section

variable {text : Text ω σ} {C : Cards} {Th : Threads σ} {e x : EnvIdx} {d d' b : Card}
  {th th' : Thread σ} {w : Word}

/-! ### Cards and threads -/

theorem procsOf_set (hid : envx d.envId = e) (h : ∀ b, C e = some b → b.envId = d.envId) :
    procsOf text (C.set e (some d)) (Function.update Th e th) =
      (procsOf text C Th).set d.envId (some (th.shown text d)) := by
  funext w
  rcases eq_or_ne w d.envId with rfl | hw
  · simp [procsOf, hid]
  rw [Procs.set_of_ne _ hw]
  rcases eq_or_ne (envx w) e with he | he
  · subst he
    cases hc : C (envx w) with
    | none => simp [procsOf, hc, Ne.symm hw]
    | some b => simp [procsOf, hc, h b hc, Ne.symm hw]
  · simp only [procsOf, Cards.set_of_ne _ he, Function.update_of_ne he]

theorem procsOf_remove (hid : envx d.envId = e) (h : C e = some d) :
    procsOf text (C.set e none) (Function.update Th e th) =
      (procsOf text C Th).set d.envId none := by
  funext w
  rcases eq_or_ne w d.envId with rfl | hw
  · simp [procsOf, hid]
  rw [Procs.set_of_ne _ hw]
  rcases eq_or_ne (envx w) e with he | he
  · subst he
    simp [procsOf, h, Ne.symm hw]
  · simp only [procsOf, Cards.set_of_ne _ he, Function.update_of_ne he]

theorem procsOf_self (hid : envx d.envId = e) (h : C e = some d) :
    procsOf text C Th d.envId = some ((Th e).shown text d) := by
  simp [procsOf, hid, h]

theorem Procs.set_get {ν σ : Type} [DecidableEq ν] (M : Procs ν σ) {i : ν} {p : Option σ}
    (h : M i = p) : M.set i p = M := by
  rw [← h]
  exact Function.update_eq_self ..

/-- What runs, or waits for a message, is started already. -/
theorem Consistent.unclaimed (h : Consistent text C Th) (hd : C e = some d)
    (hst : d.stopped = false ∨ d.recving = true) : Unclaimed C Th e := by
  rintro y dy id hy hc rfl
  obtain ⟨b, hb, -, h1, h2, -⟩ := (h.child y dy id hy hc).card
  obtain rfl := Option.some.inj (hb.symm.trans hd)
  rcases hst with hst | hst
  · rw [h1] at hst
    cases hst
  · rw [h2] at hst
    cases hst

theorem Embryo.frame {id : Word} (h : Embryo C Th id) (he : envx id ≠ e) {o : Option Card} :
    Embryo (C.set e o) (Function.update Th e th) id := by
  obtain ⟨h0, hp, b, hb⟩ := h
  exact ⟨h0, by rw [Function.update_of_ne he]; exact hp, b, by rw [Cards.set_of_ne _ he]; exact hb⟩

/-- One environment changes, or is new. -/
theorem Consistent.set (h : Consistent text C Th) (hun : Unclaimed C Th e)
    (hfit : Fits text e d th) (hchild : ∀ id, th.child d = some id → envx id ≠ e ∧ Embryo C Th id ∧
      ∀ y dy, y ≠ e → C y = some dy → (Th y).child dy ≠ some id) :
    Consistent text (C.set e (some d)) (Function.update Th e th) := by
  have hself : ∀ {dy}, C.set e (some d) e = some dy → dy = d := fun hy => by
    rw [Cards.set_self] at hy
    exact (Option.some.inj hy).symm
  refine ⟨fun y dy hy => ?_, fun y dy id hy hc => ?_, fun y y' dy dy' id hy hy' hc hc' => ?_⟩
  · rcases eq_or_ne y e with rfl | hne
    · rw [hself hy, Function.update_self]
      exact hfit
    · rw [Cards.set_of_ne _ hne] at hy
      rw [Function.update_of_ne hne]
      exact h.fits y dy hy
  · rcases eq_or_ne y e with rfl | hne
    · rw [hself hy, Function.update_self] at hc
      obtain ⟨h1, h2, -⟩ := hchild id hc
      exact h2.frame h1
    · rw [Cards.set_of_ne _ hne] at hy
      rw [Function.update_of_ne hne] at hc
      exact (h.child y dy id hy hc).frame (hun y dy id hy hc)
  · rcases eq_or_ne y e with rfl | hne <;> rcases eq_or_ne y' y with rfl | hne'
    · rfl
    · rw [hself hy, Function.update_self] at hc
      rw [Cards.set_of_ne _ hne'] at hy'
      rw [Function.update_of_ne hne'] at hc'
      exact absurd hc' ((hchild id hc).2.2 y' dy' hne' hy')
    · rfl
    · rw [Cards.set_of_ne _ hne] at hy
      rw [Function.update_of_ne hne] at hc
      rcases eq_or_ne y' e with rfl | hne2
      · rw [hself hy', Function.update_self] at hc'
        exact absurd hc ((hchild id hc').2.2 y dy hne hy)
      · rw [Cards.set_of_ne _ hne2] at hy'
        rw [Function.update_of_ne hne2] at hc'
        exact h.sole y y' dy dy' id hy hy' hc hc'

/-- One environment changes, and is about to start nobody but whom it was about to start. -/
theorem Consistent.change (h : Consistent text C Th) (hd : C e = some d') (hun : Unclaimed C Th e)
    (hfit : Fits text e d th) (hchild : th.child d = none ∨ th.child d = (Th e).child d') :
    Consistent text (C.set e (some d)) (Function.update Th e th) := by
  refine h.set hun hfit fun id hid => ?_
  rcases hchild with hn | hn
  · rw [hid] at hn
    cases hn
  · rw [hid] at hn
    refine ⟨hun e d' id hd hn.symm, h.child e d' id hd hn.symm, fun y dy hy hdy hc => ?_⟩
    exact hy (h.sole y e dy d' id hdy hd hc hn.symm)

theorem Consistent.remove (h : Consistent text C Th) (hun : Unclaimed C Th e) :
    Consistent text (C.set e none) (Function.update Th e th) := by
  have hne : ∀ {y dy}, C.set e none y = some dy → y ≠ e ∧ C y = some dy := by
    intro y dy hy
    rcases eq_or_ne y e with rfl | hne
    · rw [Cards.set_self] at hy
      cases hy
    · rw [Cards.set_of_ne _ hne] at hy
      exact ⟨hne, hy⟩
  refine ⟨fun y dy hy => ?_, fun y dy id hy hc => ?_, fun y y' dy dy' id hy hy' hc hc' => ?_⟩
  · obtain ⟨h1, h2⟩ := hne hy
    rw [Function.update_of_ne h1]
    exact h.fits y dy h2
  · obtain ⟨h1, h2⟩ := hne hy
    rw [Function.update_of_ne h1] at hc
    exact (h.child y dy id h2 hc).frame (hun y dy id h2 hc)
  · obtain ⟨h1, h2⟩ := hne hy
    obtain ⟨h3, h4⟩ := hne hy'
    rw [Function.update_of_ne h1] at hc
    rw [Function.update_of_ne h3] at hc'
    exact h.sole y y' dy dy' id h2 h4 hc hc'

/-! ### Between two system calls -/

variable {s : KState}

/-- Where nothing is asked of the card but that the environment does not wait for a message. -/
theorem Fits.plain (hid : envx d.envId = e) (hno : d.recving = false) (hthis : th.thisenv = e)
    (hp : th.paging ≠ .no → th.place.waits = false) (h1 : th.place ≠ .recv)
    (h2 : th.place ≠ .getenvid) (h3 : ∀ src, th.place ≠ .storedFrom src) : Fits text e d th :=
  ⟨hid, by simp [hno], fun h => absurd h h1, fun src h => absurd h (h3 src), hp, Or.inl hthis,
    fun h => absurd h h2⟩

/-- A thread that looks at the result of a call amounts to the same process. -/
theorem Fits.resume (h : Fits text e d th) (hd : cards s e = some d) (hno : d.recving = false)
    (hp : th.paging = .no) (hr : th.resume text s (eaxOf s e) = some th') : Fits text e d th' ∧
      th'.shown text d = th.shown text d ∧ (th'.child d = none ∨ th'.child d = th.child d) := by
  have heax : eaxOf s e = d.eax := by rw [cards_eq hd]
  have hval : (s.envs e).envIpcValue = d.value := by rw [cards_eq hd]
  have hsrc : (s.envs e).envIpcFrom = d.src := by rw [cards_eq hd]
  rw [heax] at hr
  obtain ⟨prog, place, paging, this⟩ := th
  obtain ⟨hid, -, hrecv, hstored, -, hthis, hget⟩ := h
  simp only at hp hrecv hstored hthis hget
  subst hp
  cases place with
  | program => cases hr
  | notRecv => cases hr
  | copying envid => cases hr
  | newborn => cases hr
  | panicked => cases hr
  | trySend =>
    have hthis : this = e := by simpa using hthis
    cases ht : text prog with
    | send dst v next =>
      simp only [Thread.resume, ht] at hr
      split at hr
      · rename_i h0
        cases hr
        exact ⟨.plain hid hno hthis (by simp) (by simp) (by simp) (by simp),
          by simp only [Thread.shown, ht, if_pos h0], Or.inl rfl⟩
      · rename_i h0
        split at hr <;> cases hr <;>
          exact ⟨.plain hid hno hthis (by simp) (by simp) (by simp) (by simp),
            by simp only [Thread.shown, ht, if_neg h0], Or.inl rfl⟩
    | _ => simp [Thread.resume, ht] at hr
  | yielded =>
    cases hr
    have hthis : this = e := by simpa using hthis
    exact ⟨.plain hid hno hthis (by simp) (by simp) (by simp) (by simp), rfl, Or.inl rfl⟩
  | recv =>
    have hthis : this = e := by simpa using hthis
    obtain ⟨⟨next, ht⟩, hzero⟩ := hrecv rfl
    simp only [Thread.resume, ht, hzero hno] at hr
    cases hr
    exact ⟨.plain hid hno hthis (by simp) (by simp) (by simp) (by simp),
      by simp [Thread.shown, ht, hno], Or.inl rfl⟩
  | stored =>
    have hthis : this = e := by simpa using hthis
    subst hthis
    cases hr
    refine ⟨⟨hid, by simp [hno], by simp, ?_, by simp, Or.inl rfl, by simp⟩, ?_, Or.inl rfl⟩
    · rintro src h
      cases h
      exact hsrc
    · cases ht : text prog <;> simp [Thread.shown, ht]
  | storedFrom src =>
    have hthis : this = e := by simpa using hthis
    subst hthis
    obtain rfl := hstored src rfl
    cases ht : text prog with
    | recv next =>
      simp only [Thread.resume, ht, hval] at hr
      cases hr
      exact ⟨.plain hid hno rfl (by simp) (by simp) (by simp) (by simp),
        by simp [Thread.shown, ht], Or.inl rfl⟩
    | _ => simp [Thread.resume, ht] at hr
  | exofork =>
    have hthis : this = e ∨ d.eax = 0 := by simpa using hthis
    cases ht : text prog with
    | fork parent child =>
      simp only [Thread.resume, ht] at hr
      split at hr
      · -- the library panics
        rename_i hneg
        cases hr
        have h0 : d.eax ≠ 0 := by
          rintro h0
          rw [h0] at hneg
          exact absurd hneg (by decide)
        exact ⟨.plain hid hno (hthis.resolve_right h0) (by simp) (by simp) (by simp) (by simp),
          by simp only [Thread.shown, ht, if_pos hneg], Or.inl rfl⟩
      · rename_i hneg
        split at hr
        · -- the child
          rename_i h0
          cases hr
          exact ⟨⟨hid, by simp [hno], by simp, by simp, by simp, Or.inr (Or.inl rfl), by simp⟩,
            by simp only [Thread.shown, ht, if_neg hneg, if_pos h0], Or.inl rfl⟩
        · -- the parent
          rename_i h0
          cases hr
          exact ⟨.plain hid hno (hthis.resolve_right h0) (by simp) (by simp) (by simp) (by simp),
            by simp only [Thread.shown, ht, if_neg hneg, if_neg h0],
            Or.inr (by simp only [Thread.child, if_neg (not_or.mpr ⟨hneg, h0⟩)])⟩
    | _ => simp [Thread.resume, ht] at hr
  | start envid =>
    cases hr
    have hthis : this = e := by simpa using hthis
    by_cases h0 : d.eax = 0
    · simp only [if_pos h0]
      exact ⟨.plain hid hno hthis (by simp) (by simp) (by simp) (by simp), rfl, Or.inl rfl⟩
    · simp only [if_neg h0]
      exact ⟨.plain hid hno hthis (by simp) (by simp) (by simp) (by simp), rfl, Or.inl rfl⟩
  | getenvid =>
    cases hr
    have hthis : envx d.eax = e := by rw [hget rfl, hid]
    exact ⟨.plain hid hno hthis (by simp) (by simp) (by simp) (by simp), rfl, Or.inl rfl⟩
  | cputs =>
    have hthis : this = e := by simpa using hthis
    cases ht : text prog with
    | print w next =>
      simp only [Thread.resume, ht] at hr
      cases hr
      exact ⟨.plain hid hno hthis (by simp) (by simp) (by simp) (by simp),
        by simp [Thread.shown, ht], Or.inl rfl⟩
    | _ => simp [Thread.resume, ht] at hr

/-! ### System calls -/

/-- The calls of `Place.makes`. -/
inductive Made (text : Text ω σ) (th : Thread σ) (call : Call) : Place → Prop
  | send {dst v : Word} {next : σ} : th.place = .program → text th.prog = .send dst v next →
      call = ⟨11, dst, v, -1, 0, 0⟩ → Made text th call .trySend
  | recv {next : Word → Word → σ} : th.place = .program → text th.prog = .recv next →
      call = ⟨12, -1, 0, 0, 0, 0⟩ → Made text th call .recv
  | fork {parent : Word → σ} {child : σ} : th.place = .program → text th.prog = .fork parent child →
      call.no = 7 → Made text th call .exofork
  | print {w : ω} {next : σ} : th.place = .program → text th.prog = .print w next → call.no = 0 →
      Made text th call .cputs
  | exit : th.place = .program → text th.prog = .exit → call = ⟨3, 0, 0, 0, 0, 0⟩ →
      Made text th call .program
  | yield : th.place = .notRecv → call = ⟨10, 0, 0, 0, 0, 0⟩ → Made text th call .yielded
  | start {id : Word} : th.place = .copying id → call = ⟨8, id, 2, 0, 0, 0⟩ →
      Made text th call (.start id)
  | getenvid : th.place = .newborn → call = ⟨2, 0, 0, 0, 0, 0⟩ → Made text th call .getenvid
  | panicked : th.place = .panicked → call.no = 0 ∨ call.no = 2 → Made text th call .panicked

theorem Place.made {call : Call} {place : Place} (h : th.place.makes text th.prog call = some place) :
    Made text th call place := by
  obtain ⟨prog, pl, paging, this⟩ := th
  unfold Place.makes at h
  cases pl with
  | program =>
    cases ht : text prog with
    | send dst v next =>
      simp only [ht, Option.ite_none_right_eq_some, Option.some.injEq] at h
      obtain ⟨hc, rfl⟩ := h
      exact .send rfl ht hc
    | recv next =>
      simp only [ht, Option.ite_none_right_eq_some, Option.some.injEq] at h
      obtain ⟨hc, rfl⟩ := h
      exact .recv rfl ht hc
    | fork parent child =>
      simp only [ht, Option.ite_none_right_eq_some, Option.some.injEq] at h
      obtain ⟨hc, rfl⟩ := h
      exact .fork rfl ht hc
    | print w next =>
      simp only [ht, Option.ite_none_right_eq_some, Option.some.injEq] at h
      obtain ⟨hc, rfl⟩ := h
      exact .print rfl ht hc
    | exit =>
      simp only [ht, Option.ite_none_right_eq_some, Option.some.injEq] at h
      obtain ⟨hc, rfl⟩ := h
      exact .exit rfl ht hc
  | notRecv =>
    simp only [Option.ite_none_right_eq_some, Option.some.injEq] at h
    obtain ⟨hc, rfl⟩ := h
    exact .yield rfl hc
  | copying id =>
    simp only [Option.ite_none_right_eq_some, Option.some.injEq] at h
    obtain ⟨hc, rfl⟩ := h
    exact .start rfl hc
  | newborn =>
    simp only [Option.ite_none_right_eq_some, Option.some.injEq] at h
    obtain ⟨hc, rfl⟩ := h
    exact .getenvid rfl hc
  | panicked =>
    simp only [Option.ite_none_right_eq_some, Option.some.injEq] at h
    obtain ⟨hc, rfl⟩ := h
    exact .panicked rfl hc
  | _ => cases h

theorem Made.makes {call : Call} {place : Place} (h : Made text th call place) (hp : th.paging = .no) :
    th.makes text call = some place := by
  obtain ⟨prog, pl, paging, this⟩ := th
  unfold Thread.makes
  rw [if_neg (by rw [hp]; simp)]
  unfold Place.makes
  cases h with
  | send hpl ht hc =>
    cases hpl
    simp only [ht, if_pos hc]
  | recv hpl ht hc =>
    cases hpl
    simp only [ht, if_pos hc]
  | fork hpl ht hc =>
    cases hpl
    simp only [ht, if_pos hc]
  | print hpl ht hc =>
    cases hpl
    simp only [ht, if_pos hc]
  | exit hpl ht hc =>
    cases hpl
    simp only [ht, if_pos hc]
  | yield hpl hc =>
    cases hpl
    exact if_pos hc
  | start hpl hc =>
    cases hpl
    exact if_pos hc
  | getenvid hpl hc =>
    cases hpl
    exact if_pos hc
  | panicked hpl hc =>
    cases hpl
    exact if_pos hc

/-- A result that nobody looks for. -/
theorem Fits.withEax (h : Fits text e d th) (hw : th.place.waits = false) :
    Fits text e (d.withEax w) th ∧ th.shown text (d.withEax w) = th.shown text d ∧
      th.child (d.withEax w) = th.child d := by
  obtain ⟨prog, place, paging, this⟩ := th
  obtain ⟨hid, hrecving, -, hstored, hpaging, hthis, -⟩ := h
  refine ⟨⟨hid, hrecving, ?_, hstored, hpaging, ?_, ?_⟩, ?_, ?_⟩
  · rintro rfl
    cases hw
  · rcases hthis with h | h | h | ⟨rfl, -⟩
    · exact Or.inl h
    · exact Or.inr (Or.inl h)
    · exact Or.inr (Or.inr (Or.inl h))
    · cases hw
  · rintro rfl
    cases hw
  · cases place <;> cases hw <;> cases ht : text prog <;> simp only [Thread.shown, ht] <;> rfl
  · cases place <;> cases hw <;> rfl

theorem Threads.called_of_ne {place : Place} {r : Word} (h : place ≠ .exofork) :
    Threads.called Th e place r = Function.update Th e { Th e with place := place } :=
  if_neg fun hc => h hc.1

/-- One environment changes and amounts to the same process. -/
theorem Consistent.same (h : Consistent text C Th) (hd : C e = some d) (hun : Unclaimed C Th e)
    (hfit : Fits text e d' th) (hid : d'.envId = d.envId)
    (hchild : th.child d' = none ∨ th.child d' = (Th e).child d)
    (hsh : th.shown text d' = (Th e).shown text d) :
    Consistent text (C.set e (some d')) (Function.update Th e th) ∧
      procsOf text (C.set e (some d')) (Function.update Th e th) = procsOf text C Th := by
  refine ⟨h.change hd hun hfit hchild, ?_⟩
  rw [procsOf_set hfit.id fun b hb => by rw [Option.some.inj (hb.symm.trans hd), hid], hsh, hid]
  exact Procs.set_get _ (procsOf_self (h.fits e d hd).id hd)

theorem Consistent.quiet (h : Consistent text C Th) (hd : C e = some d) (hun : Unclaimed C Th e)
    (hfit : Fits text e d' th) (hid : d'.envId = d.envId)
    (hchild : th.child d' = none ∨ th.child d' = (Th e).child d)
    (hsh : th.shown text d' = (Th e).shown text d) :
    Consistent text (C.set e (some d')) (Function.update Th e th) ∧
      Follows text (procsOf text C Th)
        (procsOf text (C.set e (some d')) (Function.update Th e th)) [] := by
  obtain ⟨h1, h2⟩ := h.same hd hun hfit hid hchild hsh
  exact ⟨h1, Or.inl ⟨h2, rfl⟩⟩

/-- A call that only returned a result. -/
theorem Consistent.answered {call : Call} {place : Place} (h : Consistent text C Th)
    (hd : C e = some d) (hun : Unclaimed C Th e) (hno : d.recving = false)
    (hpg : (Th e).paging = .no) (hmk : Made text (Th e) call place)
    (h2 : call.no = 2 → w = d.envId) (h7 : call.no = 7 → w.slt 0 = true) (h11 : call.no = 11 → w ≠ 0)
    (h12 : call.no ≠ 12) :
    Consistent text (C.set e (some (d.withEax w))) (Threads.called Th e place w) ∧
      Follows text (procsOf text C Th)
        (procsOf text (C.set e (some (d.withEax w))) (Threads.called Th e place w))
        (((Th e).prints text place).toList.map fun x => (d.envId, x)) := by
  have hf := h.fits e d hd
  have hcalled : (place = .exofork → w.slt 0 = true) →
      Threads.called Th e place w = Function.update Th e { Th e with place := place } := by
    intro hx
    refine if_neg fun hc => hc.2.1 (hx hc.1)
  have hthis : ∀ pl, (Th e).place = pl → pl.waits = false → pl ≠ .newborn → (Th e).thisenv = e := by
    intro pl hpl hw hnb
    rcases hf.this with ht | ht | ht | ht
    · exact ht
    · exact absurd (hpl.symm.trans ht) hnb
    · rw [← hpl, ht] at hw
      cases hw
    · rw [← hpl, ht.1] at hw
      cases hw
  have hplain : ∀ {pl}, (Th e).place = pl → pl.waits = false → pl ≠ .newborn → place ≠ .recv →
      place ≠ .getenvid → (∀ src, place ≠ .storedFrom src) →
      Fits text e (d.withEax w) { Th e with place := place } := fun hpl hw hnb h1 h3 h4 =>
    .plain hf.id hno (hthis _ hpl hw hnb) (by simp [hpg]) h1 h3 h4
  cases hmk with
  | send hp ht hc =>
    rw [hcalled (by simp)]
    have hw0 : ¬ w = 0 := h11 (by rw [hc])
    refine h.quiet hd hun (hplain hp rfl (by simp) (by simp) (by simp) (by simp)) rfl (Or.inl rfl) ?_
    simp only [Thread.shown, hp, ht, Card.withEax]
    exact if_neg hw0
  | recv hp ht hc => exact absurd (by rw [hc]) h12
  | fork hp ht hc =>
    have hneg := h7 hc
    rw [hcalled fun _ => hneg]
    refine h.quiet hd hun (hplain hp rfl (by simp) (by simp) (by simp) (by simp)) rfl (Or.inl ?_) ?_
    · exact if_pos (Or.inl hneg)
    · simp only [Thread.shown, hp, ht, Card.withEax]
      exact if_pos hneg
  | @print x next hp ht hc =>
    rw [hcalled (by simp)]
    have hfit : Fits text e (d.withEax w) { Th e with place := .cputs } :=
      hplain hp rfl (by simp) (by simp) (by simp) (by simp)
    refine ⟨h.change hd hun hfit (Or.inl rfl), Or.inr ⟨.print d.envId x, ?_, ?_⟩⟩
    · rw [procsOf_set hfit.id fun b hb => by rw [Option.some.inj (hb.symm.trans hd)]; rfl]
      have hsh : Thread.shown text (d.withEax w) { Th e with place := .cputs } = next := by
        simp only [Thread.shown, ht]
      rw [hsh]
      refine .print (procsOf_self hf.id hd) ?_
      simp only [Thread.shown, hp, ht]
    · simp [Rendezvous.Label.out, Thread.prints, ht]
  | exit hp ht hc =>
    rw [hcalled (by simp)]
    refine h.quiet hd hun (hplain hp rfl (by simp) (by simp) (by simp) (by simp)) rfl (Or.inl rfl) ?_
    simp only [Thread.shown, hp, ht]
  | yield hp hc =>
    rw [hcalled (by simp)]
    refine h.quiet hd hun (hplain hp rfl (by simp) (by simp) (by simp) (by simp)) rfl (Or.inl rfl) ?_
    simp only [Thread.shown, hp]
  | start hp hc =>
    rw [hcalled (by simp)]
    refine h.quiet hd hun (hplain hp rfl (by simp) (by simp) (by simp) (by simp)) rfl (Or.inl rfl) ?_
    simp only [Thread.shown, hp]
  | getenvid hp hc =>
    rw [hcalled (by simp)]
    refine h.quiet hd hun ⟨hf.id, by simp [Card.withEax, hno], by simp, by simp, by simp [hpg],
      Or.inr (Or.inr (Or.inl rfl)), fun _ => h2 (by rw [hc])⟩ rfl (Or.inl rfl) ?_
    simp only [Thread.shown, hp]
  | panicked hp hc =>
    rw [hcalled (by simp)]
    refine h.quiet hd hun (hplain hp rfl (by simp) (by simp) (by simp) (by simp)) rfl (Or.inl rfl) ?_
    simp only [Thread.shown, hp]

theorem Procs.set_comm {ν σ : Type} [DecidableEq ν] (M : Procs ν σ) {i j : ν} (h : i ≠ j)
    (p q : Option σ) : (M.set i p).set j q = (M.set j q).set i p := Function.update_comm h ..

theorem Cards.set_comm (C : Cards) (h : e ≠ x) (o o' : Option Card) :
    (C.set e o).set x o' = (C.set x o').set e o := Function.update_comm h ..

/-- `sys_exofork` made an environment. -/
theorem Consistent.born {parent : Word → σ} {child : σ} (h : Consistent text C Th)
    (hd : C e = some d) (hst : d.stopped = false) (hno : d.recving = false)
    (hpg : (Th e).paging = .no) (hp : (Th e).place = .program)
    (ht : text (Th e).prog = .fork parent child) (hx : C x = none) (hbx : envx b.envId = x)
    (hpos : b.envId.slt 0 = false) (h0 : b.envId ≠ 0) (hbr : b.recving = false) (hbe : b.eax = 0)
    (hbs : b.stopped = true) :
    Consistent text ((C.set e (some (d.withEax b.envId))).set x (some b))
        (Threads.called Th e .exofork b.envId) ∧
      Follows text (procsOf text C Th) (procsOf text
        ((C.set e (some (d.withEax b.envId))).set x (some b))
        (Threads.called Th e .exofork b.envId)) [] := by
  have hf := h.fits e d hd
  have hne : e ≠ x := by
    rintro rfl
    rw [hd] at hx
    cases hx
  have hthis : (Th e).thisenv = e := by simpa [hp] using hf.this
  have hneg : ¬ b.envId.slt 0 = true := by
    rw [hpos]
    decide
  set th : Thread σ := { Th e with place := .exofork } with hth
  have hcalled : Threads.called Th e .exofork b.envId =
      Function.update (Function.update Th x th) e th := by
    refine (if_pos ⟨rfl, hneg, h0⟩).trans ?_
    rw [hbx]
    exact Function.update_comm hne ..
  rw [hcalled, Cards.set_comm C hne]
  have hnone : th.child b = none := if_pos (Or.inr hbe)
  have hunx : Unclaimed C Th x := by
    rintro y dy id hy hc rfl
    obtain ⟨b', hb', -⟩ := (h.child y dy id hy hc).card
    rw [hx] at hb'
    cases hb'
  have hfitx : Fits text x b th := ⟨hbx, by simp [hbr], by simp [hth], by simp [hth],
    by simp [hth, hpg], Or.inr (Or.inr (Or.inr ⟨rfl, hbe⟩)), by simp [hth]⟩
  have h1 := h.set hunx hfitx fun id hid => by
    rw [hnone] at hid
    cases hid
  have hd1 : C.set x (some b) e = some d := by rw [Cards.set_of_ne _ hne, hd]
  have hfite : Fits text e (d.withEax b.envId) th :=
    .plain hf.id hno hthis (by simp [hth, hpg]) (by simp [hth]) (by simp [hth]) (by simp [hth])
  have hchild : th.child (d.withEax b.envId) = some b.envId :=
    if_neg (not_or.mpr ⟨hneg, h0⟩)
  refine ⟨h1.set (h1.unclaimed hd1 (Or.inl hst)) hfite fun id hid => ?_,
    Or.inr ⟨.born d.envId b.envId, ?_, rfl⟩⟩
  · obtain rfl := Option.some.inj (hchild.symm.trans hid)
    rw [hbx]
    refine ⟨hne.symm, ⟨h0, ?_, b, ?_, rfl, hbs, hbr, hbe⟩, fun y dy hy hdy hc => ?_⟩
    · rw [hbx, Function.update_self]
    · rw [hbx, Cards.set_self]
    · rcases eq_or_ne y x with rfl | hyx
      · rw [Cards.set_self] at hdy
        obtain rfl := Option.some.inj hdy
        rw [Function.update_self, hnone] at hc
        cases hc
      · rw [Cards.set_of_ne _ hyx] at hdy
        rw [Function.update_of_ne hyx] at hc
        exact hunx y dy b.envId hdy hc hbx
  · have hids : d.envId ≠ b.envId := fun hx => hne (by rw [← hf.id, hx, hbx])
    have hshx : th.shown text b = child := by
      have hneg : ¬ b.eax.slt 0 := by rw [hbe]; decide
      simp only [Thread.shown, hth, ht, if_neg hneg, if_pos hbe]
    have hshe : th.shown text (d.withEax b.envId) = parent b.envId := by
      simp only [Thread.shown, hth, ht, Card.withEax]
      exact (if_neg hneg).trans (if_neg h0)
    have hM1 : procsOf text (C.set x (some b)) (Function.update Th x th) =
        (procsOf text C Th).set b.envId (some child) := by
      rw [← hshx]
      refine procsOf_set hbx fun y hy => ?_
      rw [hx] at hy
      cases hy
    have hM2 : procsOf text ((C.set x (some b)).set e (some (d.withEax b.envId)))
        (Function.update (Function.update Th x th) e th) =
        ((procsOf text C Th).set d.envId (some (parent b.envId))).set b.envId (some child) := by
      rw [Procs.set_comm _ hids, ← hM1, ← hshe]
      exact procsOf_set hfite.id fun y hy => by rw [Option.some.inj (hy.symm.trans hd1)]; rfl
    rw [hM2]
    refine .born (procsOf_self hf.id hd) ?_ ?_
    · simp only [Thread.shown, hp, ht]
    · simp only [procsOf, hbx, hx]
      rfl

/-- A message reached `x`. -/
theorem Consistent.sent {v : Word} {next : σ} (h : Consistent text C Th) (hd : C e = some d)
    (hst : d.stopped = false) (hno : d.recving = false) (hpg : (Th e).paging = .no)
    (hp : (Th e).place = .program) (ht : text (Th e).prog = .send b.envId v next)
    (hb : C x = some b) (hne : x ≠ e) (hbr : b.recving = true) (r : Word) :
    Consistent text ((C.set x (some ⟨b.envId, false, v, d.envId, 0, false⟩)).set e
        (some (d.withEax 0))) (Threads.called Th e .trySend r) ∧
      Follows text (procsOf text C Th) (procsOf text
        ((C.set x (some ⟨b.envId, false, v, d.envId, 0, false⟩)).set e (some (d.withEax 0)))
        (Threads.called Th e .trySend r)) [] := by
  have hf := h.fits e d hd
  have hfx := h.fits x b hb
  have hpx := hfx.recving hbr
  obtain ⟨⟨get, htx⟩, -⟩ := hfx.recv hpx
  have hthis : (Th e).thisenv = e := by simpa [hp] using hf.this
  set b' : Card := ⟨b.envId, false, v, d.envId, 0, false⟩ with hb'
  have hcalled : Threads.called Th e .trySend r =
      Function.update Th e { Th e with place := .trySend } := Threads.called_of_ne (by simp)
  rw [hcalled]
  have hfitx : Fits text x b' (Th x) := ⟨hfx.id, by simp [hb'], fun _ => ⟨⟨get, htx⟩, fun _ => rfl⟩,
    by simp [hpx], hfx.paging, by simpa [hpx] using hfx.this, by simp [hpx]⟩
  have hchildx : (Th x).child b' = none := by simp only [Thread.child, hpx]
  have h1 := h.change hb (h.unclaimed hb (Or.inr hbr)) hfitx (Or.inl hchildx)
  rw [Function.update_eq_self] at h1
  have hM1 : procsOf text (C.set x (some b')) Th =
      (procsOf text C Th).set b.envId (some (get v d.envId)) := by
    have hset : procsOf text (C.set x (some b')) (Function.update Th x (Th x)) = _ :=
      procsOf_set hfitx.id fun y hy => by rw [Option.some.inj (hy.symm.trans hb)]
    rw [Function.update_eq_self] at hset
    rw [hset]
    simp only [Thread.shown, hpx, htx, hb']
    rfl
  have hd1 : C.set x (some b') e = some d := by rw [Cards.set_of_ne _ hne.symm, hd]
  have hfite : Fits text e (d.withEax 0) { Th e with place := .trySend } :=
    .plain hf.id hno hthis (by simp [hpg]) (by simp) (by simp) (by simp)
  refine ⟨h1.change hd1 (h1.unclaimed hd1 (Or.inl hst)) hfite (Or.inl rfl),
    Or.inr ⟨.pass d.envId b.envId v, ?_, rfl⟩⟩
  have hids : d.envId ≠ b.envId := fun hx => hne (by rw [← hfx.id, ← hx, hf.id])
  have hshe : Thread.shown text (d.withEax 0) { Th e with place := .trySend } = next := by
    simp only [Thread.shown, ht, Card.withEax]
    rfl
  have hM2 : procsOf text ((C.set x (some b')).set e (some (d.withEax 0)))
      (Function.update Th e { Th e with place := .trySend }) =
      ((procsOf text C Th).set d.envId (some next)).set b.envId (some (get v d.envId)) := by
    rw [Procs.set_comm _ hids, ← hM1, ← hshe]
    exact procsOf_set hfite.id fun y hy => by rw [Option.some.inj (hy.symm.trans hd1)]; rfl
  rw [hM2]
  refine .pass (procsOf_self hf.id hd) ?_ (procsOf_self hfx.id hb) ?_
  · simp only [Thread.shown, hp, ht]
  · simp only [Thread.shown, hpx, htx, hbr, if_pos]

/-- A child was given its status. -/
theorem Consistent.started {id : Word} {z : Bool} (h : Consistent text C Th) (hd : C e = some d)
    (hst : d.stopped = false) (hno : d.recving = false) (hpg : (Th e).paging = .no)
    (hp : (Th e).place = .copying id) (hb : C x = some b) (hx : envx id = x) (hne : x ≠ e)
    (r : Word) :
    Consistent text ((C.set x (some { b with stopped := z })).set e (some (d.withEax w)))
        (Threads.called Th e (.start id) r) ∧
      Follows text (procsOf text C Th) (procsOf text
        ((C.set x (some { b with stopped := z })).set e (some (d.withEax w)))
        (Threads.called Th e (.start id) r)) [] := by
  have hf := h.fits e d hd
  have hthis : (Th e).thisenv = e := by simpa [hp] using hf.this
  have hchild : (Th e).child d = some id := by simp only [Thread.child, hp]
  obtain ⟨-, hplace, b', hb', hbid, -, hbr, hbe⟩ := h.child e d id hd hchild
  rw [hx] at hplace hb'
  obtain rfl := Option.some.inj (hb'.symm.trans hb)
  rw [Threads.called_of_ne (by simp), Cards.set_comm C hne]
  have hfite : Fits text e (d.withEax w) { Th e with place := .start id } :=
    .plain hf.id hno hthis (by simp [hpg]) (by simp) (by simp) (by simp)
  obtain ⟨h1, hM1⟩ := h.same hd (h.unclaimed hd (Or.inl hst)) hfite rfl (Or.inl rfl)
    (by simp only [Thread.shown, hp])
  have hb1 : C.set e (some (d.withEax w)) x = some b' := by rw [Cards.set_of_ne _ hne, hb]
  have hTx : Function.update Th e { Th e with place := .start id } x = Th x :=
    Function.update_of_ne hne ..
  have hunx : Unclaimed (C.set e (some (d.withEax w)))
      (Function.update Th e { Th e with place := .start id }) x := by
    rintro y dy id' hy hc hid'
    rcases eq_or_ne y e with rfl | hye
    · rw [Function.update_self] at hc
      cases hc
    rw [Cards.set_of_ne _ hye] at hy
    rw [Function.update_of_ne hye] at hc
    obtain ⟨-, -, b'', hb'', hbid', -⟩ := h.child y dy id' hy hc
    rw [hid'] at hb''
    obtain rfl := Option.some.inj (hb''.symm.trans hb)
    exact hye (h.sole y e dy d id' hy hd hc (hbid' ▸ hbid ▸ hchild))
  have hfx := h.fits x b' hb
  have hfitx : Fits text x { b' with stopped := z } (Th x) :=
    ⟨hfx.id, hfx.recving, hfx.recv, hfx.src, hfx.paging, hfx.this, hfx.getenvid⟩
  obtain ⟨h2, hM2⟩ := h1.same hb1 hunx hfitx rfl
    (Or.inl (by simp only [Thread.child, hplace]; exact if_pos (Or.inr hbe)))
    (by rw [hTx]; rfl)
  rw [← hTx, Function.update_eq_self] at h2 hM2
  exact ⟨h2, Or.inl ⟨hM2.trans hM1, rfl⟩⟩

/-- `e` has begun to wait for a message. -/
theorem Consistent.received {next : Word → Word → σ} {v : Word} (h : Consistent text C Th)
    (hd : C e = some d) (hst : d.stopped = false) (hpg : (Th e).paging = .no)
    (hp : (Th e).place = .program) (ht : text (Th e).prog = .recv next) (r : Word) :
    Consistent text (C.set e (some ⟨d.envId, true, 0, 0, v, true⟩)) (Threads.called Th e .recv r) ∧
      Follows text (procsOf text C Th) (procsOf text
        (C.set e (some ⟨d.envId, true, 0, 0, v, true⟩)) (Threads.called Th e .recv r)) [] := by
  have hf := h.fits e d hd
  have hthis : (Th e).thisenv = e := by simpa [hp] using hf.this
  rw [Threads.called_of_ne (by simp)]
  refine h.quiet hd (h.unclaimed hd (Or.inl hst)) ⟨hf.id, by simp, fun _ => ⟨⟨next, ht⟩, by simp⟩,
    by simp, by simp [hpg], Or.inl hthis, by simp⟩ rfl (Or.inl rfl) ?_
  simp only [Thread.shown, hp, ht, if_pos]

/-- The program of `e` is over. -/
theorem Consistent.died (h : Consistent text C Th) (hd : C e = some d) (hst : d.stopped = false)
    (hp : (Th e).place = .program) (ht : text (Th e).prog = .exit) (th : Thread σ) :
    Consistent text (C.set e none) (Function.update Th e th) ∧
      Follows text (procsOf text C Th) (procsOf text (C.set e none) (Function.update Th e th)) [] := by
  have hf := h.fits e d hd
  refine ⟨h.remove (h.unclaimed hd (Or.inl hst)), Or.inr ⟨.gone d.envId, ?_, rfl⟩⟩
  rw [procsOf_remove hf.id hd]
  refine .gone (procsOf_self hf.id hd) ?_
  simp only [Thread.shown, hp, ht]

/-- A call that concerns only the caller, and that it does not wait for in its place. -/
theorem Consistent.paged {tf : Trapframe} {C' : Cards} (h : Consistent text C Th) (hd : C e = some d)
    (hst : d.stopped = false) (hpw : (Th e).place.waits = false) (heff : CallEffect C e d tf C')
    (hn : (Call.ofTf tf).no ≠ 7 ∧ (Call.ofTf tf).no ≠ 8 ∧ (Call.ofTf tf).no ≠ 11 ∧
      (Call.ofTf tf).no ≠ 12)
    (hex : C' e = none → (Th e).place = .program ∧ text (Th e).prog = .exit) (p : Paging) :
    Consistent text C' (Function.update Th e { Th e with paging := p }) ∧
      Follows text (procsOf text C Th)
        (procsOf text C' (Function.update Th e { Th e with paging := p })) [] := by
  cases heff with
  | @quiet w hC _ _ _ _ =>
    subst hC
    obtain ⟨h1, h2, h3⟩ := (h.fits e d hd).withEax (w := w) hpw
    exact h.quiet hd (h.unclaimed hd (Or.inl hst)) ⟨h1.id, h1.recving, h1.recv, h1.src,
      fun _ => hpw, h1.this, h1.getenvid⟩ rfl (Or.inr h3) h2
  | died hC =>
    subst hC
    obtain ⟨hp, ht⟩ := hex (Cards.set_self ..)
    exact h.died hd hst hp ht _
  | born h7 => exact absurd h7 hn.1
  | started h8 => exact absurd h8 hn.2.1
  | received h12 => exact absurd h12 hn.2.2.2
  | sent h11 => exact absurd h11 hn.2.2.1

/-- What the number of a call says about the thread that makes it. -/
theorem Made.by_no {call : Call} {place : Place} (h : Made text th call place) :
    (call.no = 7 → th.place = .program ∧ place = .exofork ∧
      ∃ parent child, text th.prog = .fork parent child) ∧
    (call.no = 8 → th.place = .copying call.a1 ∧ place = .start call.a1) ∧
    (call.no = 11 → th.place = .program ∧ place = .trySend ∧
      ∃ next, text th.prog = .send call.a1 call.a2 next) ∧
    (call.no = 12 → th.place = .program ∧ place = .recv ∧ ∃ next, text th.prog = .recv next) := by
  cases h with
  | send hp ht hc => simp [hc, hp, ht]
  | recv hp ht hc => simp [hc, hp, ht]
  | fork hp ht hc => simp [hc, hp, ht]
  | print _ _ hc => simp [hc]
  | exit _ _ hc => simp [hc]
  | yield _ hc => simp [hc]
  | start hp hc => simp [hc, hp]
  | getenvid _ hc => simp [hc]
  | panicked _ hc => rcases hc with hc | hc <;> simp [hc]

/-- One system call of the library. -/
theorem Consistent.called {tf : Trapframe} {place : Place} {C' : Cards} {r : Word}
    (h : Consistent text C Th) (hd : C e = some d) (hst : d.stopped = false)
    (hno : d.recving = false) (hpg : (Th e).paging = .no)
    (hmk : Made text (Th e) (Call.ofTf tf) place) (heff : CallEffect C e d tf C')
    (hr : ∀ d', C' e = some d' → d'.eax = r)
    (hex : C' e = none → (Th e).place = .program ∧ text (Th e).prog = .exit) :
    Consistent text C' (Threads.called Th e place r) ∧
      Follows text (procsOf text C Th) (procsOf text C' (Threads.called Th e place r))
        (((Th e).prints text place).toList.map fun x => (d.envId, x)) := by
  have hun := h.unclaimed hd (Or.inl hst)
  cases heff with
  | @quiet w hC h2 h7 h11 h12 =>
    subst hC
    obtain rfl : w = r := hr _ (Cards.set_self ..)
    exact h.answered hd hun hno hpg hmk h2 h7 h11 h12
  | died hC =>
    subst hC
    obtain ⟨hp, ht⟩ := hex (Cards.set_self ..)
    cases hmk with
    | exit _ _ _ =>
      rw [Threads.called_of_ne (by simp)]
      exact h.died hd hst hp ht _
    | send _ ht' _ => cases ht.symm.trans ht'
    | recv _ ht' _ => cases ht.symm.trans ht'
    | fork _ ht' _ => cases ht.symm.trans ht'
    | print _ ht' _ => cases ht.symm.trans ht'
    | yield hp' _ => cases hp.symm.trans hp'
    | start hp' _ => cases hp.symm.trans hp'
    | getenvid hp' _ => cases hp.symm.trans hp'
    | panicked hp' _ => cases hp.symm.trans hp'
  | @born x b h7 hx hbx hpos h0 hbr hbe hbs hC =>
    subst hC
    obtain ⟨hp, rfl, parent, child, ht⟩ := hmk.by_no.1 h7
    have hne : e ≠ x := by
      rintro rfl
      rw [hd] at hx
      cases hx
    obtain rfl : b.envId = r := hr (d.withEax b.envId) (by
      rw [Cards.set_of_ne _ hne, Cards.set_self])
    exact h.born hd hst hno hpg hp ht hx hbx hpos h0 hbr hbe hbs
  | started h8 hb hx _ hne hC =>
    subst hC
    obtain ⟨hp, rfl⟩ := hmk.by_no.2.1 h8
    exact h.started hd hst hno hpg hp hb hx hne r
  | received h12 hC =>
    subst hC
    obtain ⟨hp, rfl, next, ht⟩ := hmk.by_no.2.2.2 h12
    exact h.received hd hst hpg hp ht r
  | sent h11 hb _ hid hne hbr hC =>
    subst hC
    obtain ⟨hp, rfl, next, ht⟩ := hmk.by_no.2.2.1 h11
    exact h.sent hd hst hno hpg hp (hid ▸ ht) hb hne hbr r

/-! ### The kernel -/

variable {N T : Net σ} {c k : CpuIdx} {t : KState} {tf : Trapframe} {inp : Input} {call : Call}

/-- The call is one of the library, made where the thread is. -/
def FromLib (text : Text ω σ) (th : Thread σ) (call : Call) : Prop :=
  th.place.pages call = true ∨ (call.no = 0 ∨ call.no = 2) ∨ ∃ place, Made text th call place

theorem Place.pageCall_of_pages {place : Place} (h : place.pages call = true) :
    pageCall call = true := by
  simp only [Place.pages, Bool.and_eq_true] at h
  exact h.1

theorem FromLib.facts (h : FromLib text th call) : (call.no = 3 → call.a1 = 0) ∧
    (call.no = 8 → th.place = .copying call.a1) ∧ (call.no = 11 → call.a3 = -1) ∧
    (call.no = 12 → call.a1 = -1) := by
  rcases h with h | h | ⟨place, h⟩
  · have h := Place.pageCall_of_pages h
    simp only [pageCall, Bool.or_eq_true, beq_iff_eq] at h
    refine ⟨?_, ?_, ?_, ?_⟩ <;> intro hn <;> omega
  · refine ⟨?_, ?_, ?_, ?_⟩ <;> intro hn <;> omega
  · cases h with
    | send _ _ hc => simp [hc]
    | recv _ _ hc => simp [hc]
    | fork _ _ hc => simp [hc]
    | print _ _ hc => simp [hc]
    | exit _ _ hc => simp [hc]
    | yield _ hc => simp [hc]
    | start hp hc => simp [hc, hp]
    | getenvid _ hc => simp [hc]
    | panicked _ hc => rcases hc with hc | hc <;> simp [hc]

/-- What it asks for about pages is about itself, or about the child that it copies pages to. -/
theorem FromLib.paged (h : FromLib text th call) (hp : pageCall call = true) :
    pagedEnv call = 0 ∨ th.place = .copying (pagedEnv call) := by
  rcases h with h | h | ⟨place, h⟩
  · simpa [Place.pages, hp] using h
  all_goals simp only [pageCall, Bool.or_eq_true, beq_iff_eq] at hp
  · omega
  · cases h with
    | send _ _ hc => simp [hc] at hp
    | recv _ _ hc => simp [hc] at hp
    | fork _ _ hc => omega
    | print _ _ hc => omega
    | exit _ _ hc => simp [hc] at hp
    | yield _ hc => simp [hc] at hp
    | start _ hc => simp [hc] at hp
    | getenvid _ hc => simp [hc] at hp
    | panicked _ hc => omega

/-- What a CPU executes runs and waits for nothing. -/
theorem NetInv.running (h : NetInv text N) (hk : Executes N.kern c e) (hd : cards N.kern e = some d) :
    d.stopped = false ∧ d.recving = false := by
  have hrun := h.awake c e hk
  have hb := h.mail.not_blocked hk
  rw [cards_eq hd]
  refine ⟨by simp [hrun], ?_⟩
  cases hr : (N.kern.envs e).envIpcRecving with
  | false => rfl
  | true => exact absurd ⟨by rw [hrun]; simp, hr⟩ hb

/-- The environment that a thread is about to start. -/
theorem NetInv.embryo (h : NetInv text N) (hd : cards N.kern e = some d)
    (hp : (N.threads e).place = .copying w) : w ≠ 0 ∧
      (N.kern.envs (envx w)).envStatus = .notRunnable ∧
      (N.kern.envs (envx w)).envIpcRecving = false := by
  obtain ⟨h0, -, b, hb, -, hst, hr, -⟩ :=
    h.threads.child e d w hd (by simp only [Thread.child, hp])
  rw [cards_eq hb] at hst hr
  exact ⟨h0, by simpa using hst, hr⟩

/-- A call of the library does not aim at what another CPU executes. -/
theorem NetInv.spares (h : NetInv text N) (hk : Executes N.kern c e) (hf : FromLib text (N.threads e) call)
    (hkc : k ≠ c) (hx : Executes N.kern k x) : ¬ Disturbs N.kern e call x := by
  have hlive : (N.kern.envs e).envStatus ≠ .free := by
    rw [h.awake c e hk]
    simp
  obtain ⟨d, hd⟩ := cards_of_live hlive
  have hxe : x ≠ e := by
    rintro rfl
    exact hkc (h.mail.exclusive.sole k c x trivial trivial hx.1 hk.1 hx.2 hk.2)
  rintro (⟨h3, hl⟩ | ⟨h8, hl⟩ | ⟨-, hl, hr⟩)
  · rw [hf.facts.1 h3] at hl
    exact hxe (Option.some.inj hl).symm
  · obtain ⟨h0, hst, -⟩ := h.embryo hd (hf.facts.2.1 h8)
    obtain ⟨hxi, -⟩ := lookup_card hlive h0 hl
    rw [hxi, h.awake k x hx] at hst
    cases hst
  · exact h.mail.not_blocked hx ⟨lookupEnv_live hlive hl, hr⟩

/-- Nor does it change mappings of what another CPU executes. -/
theorem NetInv.keepsMappings (h : NetInv text N) (hk : Executes N.kern c e)
    (hf : FromLib text (N.threads e) call) (hp : pageCall call = true)
    (hl : lookupEnv N.kern e (pagedEnv call) true = some x) : ¬ Elsewhere N.kern c x := by
  have hlive : (N.kern.envs e).envStatus ≠ .free := by
    rw [h.awake c e hk]
    simp
  obtain ⟨d, hd⟩ := cards_of_live hlive
  rintro ⟨k, hkc, hm, hc⟩
  rcases hf.paged hp with h0 | hcopy
  · rw [h0] at hl
    obtain rfl := Option.some.inj hl
    exact hkc (h.mail.exclusive.sole k c _ trivial trivial hm hk.1 hc hk.2)
  · obtain ⟨h0, hst, -⟩ := h.embryo hd hcopy
    obtain ⟨hx, -⟩ := lookup_card hlive h0 hl
    rw [hx, h.awake k x ⟨hm, hc⟩] at hst
    cases hst

theorem NetInv.leavesBlocked (h : NetInv text N) (hk : Executes N.kern c e)
    (hf : tf.tfTrapno = tSyscall → FromLib text (N.threads e) (Call.ofTf tf))
    (hcount : ∀ y va f, tf.tfTrapno = tSyscall → (Call.ofTf tf).no = 5 →
      (Call.ofTf tf).Inserts (saved c e tf N.kern) e y va f →
      ((saved c e tf N.kern).pages f).ppRef ≠ 65535 ∨
        target (saved c e tf N.kern) (.pte y (pdx va) (ptx va)) = some f) :
    LeavesBlocked N.kern (c, .trap inp tf) := by
  have hlive : (N.kern.envs e).envStatus ≠ .free := by
    rw [h.awake c e hk]
    simp
  obtain ⟨d, hd⟩ := cards_of_live hlive
  have hcur : ∀ {y}, InUser N.kern c y → y = e := fun hu =>
    Option.some.inj (hu.current.symm.trans hk.2)
  refine ⟨⟨?_, .inl trivial, ?_⟩, ?_⟩
  · rintro inp' tf' cur x hev hu hno ⟨k, hkc, hm, hc⟩
    cases hev
    obtain rfl := hcur hu
    have hno' := h.spares hk (hf hno) hkc ⟨hm, hc⟩
    refine ⟨fun hw => hno' ?_, fun hw => hno' (Or.inl hw.1)⟩
    rcases hw with ⟨h8, hl, -⟩ | hs
    · exact Or.inr (Or.inl ⟨h8, hl⟩)
    · exact Or.inr (Or.inr hs)
  · rintro inp' tf' cur hev hu hno
    cases hev
    obtain rfl := hcur hu
    obtain ⟨h3, h8, h11, h12⟩ := (hf hno).facts
    have hnopage : ∀ y, ¬ (Call.ofTf tf).SendsPage (saved c cur tf N.kern) cur y := by
      rintro y ⟨hn, -, -, hlt, -⟩
      rw [h11 hn] at hlt
      exact absurd hlt (by decide)
    have hkeep : pageCall (Call.ofTf tf) = true → ∀ {y}, lookupEnv (saved c cur tf N.kern) cur
        (pagedEnv (Call.ofTf tf)) true = some y → ¬ Elsewhere (saved c cur tf N.kern) c y :=
      fun hp y hl hE => h.keepsMappings hk (hf hno) hp ((saved_lookup _ _ _).symm.trans hl)
        ((elsewhere_saved tf y).mp hE)
    refine ⟨?_, fun y hy => absurd hy (hnopage y), fun y va f hi => ?_, fun _ y hd => ?_⟩
    · rintro y ⟨hn, hl⟩
      rw [h3 hn] at hl
      obtain rfl := Option.some.inj hl
      right
      rintro ⟨k, hkc, hm, hc⟩
      rw [saved_mode] at hm
      rw [saved_curenv] at hc
      exact hkc (h.mail.exclusive.sole k c _ trivial trivial hm hk.1 hc hk.2)
    · cases hi with
      | map hn h1 h2 h3 h4 h5 => exact hcount y _ f hno hn (.map hn h1 h2 h3 h4 h5)
      | send hs _ => exact absurd hs (hnopage y)
    · cases hd with
      | alloc hn hl =>
        exact hkeep (by simp [pageCall, hn]) (by rw [pagedEnv, if_neg (by omega)]; exact hl)
      | unmap hn hl =>
        exact hkeep (by simp [pageCall, hn]) (by rw [pagedEnv, if_neg (by omega)]; exact hl)
      | insert hi =>
        cases hi with
        | map hn _ hl => exact hkeep (by simp [pageCall, hn]) (by rw [pagedEnv, if_pos hn]; exact hl)
        | send hs _ => exact absurd hs (hnopage y)
  · rintro cur call x ⟨inp', tf', hev, hu, hno, rfl⟩ ⟨⟨hn, hl⟩, -, hb⟩
    cases hev
    obtain rfl := hcur hu
    obtain ⟨h0, -, hr⟩ := h.embryo hd ((hf hno).facts.2.1 hn)
    obtain ⟨hxi, -⟩ := lookup_card hlive h0 hl
    rw [hxi, hb.2] at hr
    cases hr

theorem FromLib.modest (h : NetInv text N) (hd : cards N.kern e = some d)
    (hk : Executes N.kern c e) (hf : FromLib text (N.threads e) call) : Modest N.kern e call := by
  obtain ⟨h3, h8, h11, h12⟩ := hf.facts
  refine ⟨h3, fun hn => ?_, h11, h12⟩
  obtain ⟨h0, hst, -⟩ := h.embryo hd (h8 hn)
  refine ⟨h0, fun hx => ?_⟩
  rw [hx, h.awake c e hk] at hst
  cases hst

/-- The kernel's part of a step. -/
theorem NetInv.kernel {ev : Event} (h : NetInv text N) (hst : Jos.Step N.kern (c, ev) t)
    (hok : ∀ inp tf e, ev = .trap inp tf → Executes N.kern c e → LeavesBlocked N.kern (c, ev) ∧
      (tf.tfTrapno = tSyscall → FromLib text (N.threads e) (Call.ofTf tf))) :
    MailInv t ∧ Awake t := by
  have huser : ∀ {inp tf cur}, ev = .trap inp tf → InUser N.kern c cur → Executes N.kern c cur :=
    fun _ hu => ⟨hu.mode, hu.current⟩
  have hlb : LeavesBlocked N.kern (c, ev) := by
    refine ⟨⟨?_, .inl trivial, ?_⟩, ?_⟩
    · intro inp tf cur x hev hu
      exact (hok inp tf cur hev (huser hev hu)).1.1.1 inp tf cur x hev hu
    · intro inp tf cur hev hu
      exact (hok inp tf cur hev (huser hev hu)).1.1.2.2 inp tf cur hev hu
    · rintro cur call x ⟨inp, tf, hev, hu, hno, hcall⟩
      exact (hok inp tf cur hev (huser hev hu)).1.2 cur call x ⟨inp, tf, hev, hu, hno, hcall⟩
  refine ⟨h.mail.step hlb hst, h.awake.step h.mail.exclusive hst ?_⟩
  intro inp tf cur y k hev hu hno hkc hx
  exact h.spares (huser hev hu) ((hok inp tf cur hev (huser hev hu)).2 hno) hkc hx

theorem Net.enters_kern {out : List (Word × ω)} (h : N.enters text e tf t = some (T, out)) :
    T.kern = t := by
  unfold Net.enters at h
  simp only at h
  split at h
  · split at h
    · cases h
    · split at h
      · cases h
        rfl
      · rw [Option.map_eq_some_iff] at h
        obtain ⟨place, -, hT⟩ := h
        cases hT
        rfl
  · split at h
    · cases h
    · cases h
      rfl

/-- A kernel entry of a thread. -/
theorem NetInv.enters {out : List (Word × ω)} (h : NetInv text N) (hk : Executes N.kern c e)
    (hst : Jos.Step N.kern (c, .trap inp tf) t) (hen : N.enters text e tf t = some (T, out))
    (hcount : ∀ y va f, tf.tfTrapno = tSyscall → (Call.ofTf tf).no = 5 →
      (Call.ofTf tf).Inserts (saved c e tf N.kern) e y va f →
      ((saved c e tf N.kern).pages f).ppRef ≠ 65535 ∨
        target (saved c e tf N.kern) (.pte y (pdx va) (ptx va)) = some f)
    (hdead : (t.envs e).envStatus = .free → AtExit text N e) :
    NetInv text T ∧ Follows text (procs text N) (procs text T) out := by
  have hlive : (N.kern.envs e).envStatus ≠ .free := by
    rw [h.awake c e hk]
    simp
  obtain ⟨d, hd⟩ := cards_of_live hlive
  obtain ⟨hstop, hno⟩ := h.running hk hd
  have hun := h.threads.unclaimed hd (Or.inl hstop)
  have hf := h.threads.fits e d hd
  have hu : InUser N.kern c e := ⟨hk.1, hk.2, by rw [h.awake c e hk]; simp⟩
  have hdead' : cards t e = none → AtExit text N e := fun hn => hdead (cards_eq_none.mp hn)
  have hker : (tf.tfTrapno = tSyscall → FromLib text (N.threads e) (Call.ofTf tf)) →
      MailInv t ∧ Awake t := fun hfl => h.kernel hst fun inp' tf' y hev hy => by
    cases hev
    obtain rfl := Option.some.inj (hy.2.symm.trans hk.2)
    exact ⟨h.leavesBlocked hk hfl hcount, hfl⟩
  unfold Net.enters at hen
  simp only at hen
  split at hen
  · -- a system call
    rename_i hsys
    split at hen
    · cases hen
    rename_i hw
    obtain ⟨hpg, hpw⟩ : (N.threads e).paging ≠ .called ∧ (N.threads e).place.waits = false := by
      simpa [Thread.waits] using hw
    have hcalled : ∀ {place r}, place = (N.threads e).place →
        N.threads.called e place r = N.threads := by
      rintro place r rfl
      rw [Threads.called_of_ne fun hx => by rw [hx] at hpw; cases hpw]
      exact Function.update_eq_self ..
    split at hen
    · -- about pages
      rename_i hpage
      cases hen
      have hfl : FromLib text (N.threads e) (Call.ofTf tf) := Or.inl hpage
      have hpage := Place.pageCall_of_pages hpage
      obtain ⟨hm, ha⟩ := hker fun _ => hfl
      have heff := call_effect h.mail hu hsys (hfl.modest h hd hk) hd hst
      simp only [pageCall, Bool.or_eq_true, beq_iff_eq] at hpage
      have hpaged := h.threads.paged hd hstop hpw heff (by omega) hdead'
      have hT : ∃ p, N.threads.paged e = Function.update N.threads e { N.threads e with paging := p } := by
        unfold Threads.paged
        split
        · exact ⟨(N.threads e).paging, (Function.update_eq_self ..).symm⟩
        · exact ⟨.called, rfl⟩
      obtain ⟨p, hp⟩ := hT
      rw [hp]
      exact ⟨⟨hm, ha, (hpaged p).1⟩, (hpaged p).2⟩
    · rw [Option.map_eq_some_iff] at hen
      obtain ⟨place, hmk, hT⟩ := hen
      cases hT
      unfold Thread.makes at hmk
      split at hmk
      · -- the message of a panic
        rename_i hfail
        split at hmk
        · rename_i hno
          cases hmk
          have hfl : FromLib text (N.threads e) (Call.ofTf tf) := Or.inr (Or.inl hno)
          obtain ⟨hm, ha⟩ := hker fun _ => hfl
          have heff := call_effect h.mail hu hsys (hfl.modest h hd hk) hd hst
          obtain ⟨h4, h5⟩ := h.threads.paged hd hstop hpw heff (by omega) hdead' (N.threads e).paging
          rw [Function.update_eq_self] at h4 h5
          have hout : (N.threads e).prints text (N.threads e).place = none := by
            unfold Thread.prints
            split
            · rename_i hx
              rw [hx] at hpw
              cases hpw
            · rfl
          rw [hcalled rfl, hout]
          exact ⟨⟨hm, ha, h4⟩, h5⟩
        · cases hmk
      rename_i hfail
      have hpg' : (N.threads e).paging = .no := by
        cases hx : (N.threads e).paging with
        | no => rfl
        | called => exact absurd hx hpg
        | failed => exact absurd hx hfail
      have hmade := Place.made hmk
      have hfl : FromLib text (N.threads e) (Call.ofTf tf) := Or.inr (Or.inr ⟨place, hmade⟩)
      obtain ⟨hm, ha⟩ := hker fun _ => hfl
      obtain ⟨h4, h5⟩ := h.threads.called (r := eaxOf t e) hd hstop hno hpg' hmade
        (call_effect h.mail hu hsys (hfl.modest h hd hk) hd hst) (fun d' hd' => by rw [cards_eq hd'])
        hdead'
      have hid : (N.kern.envs e).envId = d.envId := by rw [cards_eq hd]
      rw [hid]
      exact ⟨⟨hm, ha, h4⟩, h5⟩
  · -- an interrupt or a page fault
    rename_i hsys
    split at hen
    · cases hen
    rename_i hw
    cases hen
    obtain ⟨hm, ha⟩ := hker fun hx => absurd hx hsys
    rcases trap_cards h.awake hk hsys hd hst with hC | hC
    · by_cases hwait : (N.threads e).waits = true
      · have heax : tf.tfRegs.regEax = d.eax := by
          have hx : tf.tfRegs.regEax = eaxOf N.kern e := not_not.mp fun hx => hw ⟨hwait, hx⟩
          rw [hx, cards_eq hd]
        have hsame : cards t = cards N.kern := by
          rw [hC, heax, show d.withEax d.eax = d from rfl, ← hd, Cards.set_get]
        exact ⟨⟨hm, ha, by rw [hsame]; exact h.threads⟩,
          Or.inl ⟨by simp only [procs, hsame], rfl⟩⟩
      · obtain ⟨-, hpw⟩ : (N.threads e).paging ≠ .called ∧ (N.threads e).place.waits = false := by
          simpa [Thread.waits] using hwait
        obtain ⟨h1, h2, h3⟩ := hf.withEax (w := tf.tfRegs.regEax) hpw
        obtain ⟨h4, h5⟩ := h.threads.quiet hd hun h1 rfl (Or.inr h3) h2
        rw [← hC, Function.update_eq_self] at h4 h5
        exact ⟨⟨hm, ha, h4⟩, h5⟩
    · obtain ⟨hp, ht⟩ := hdead' (by rw [hC, Cards.set_self])
      obtain ⟨h4, h5⟩ := h.threads.died hd hstop hp ht (N.threads e)
      rw [← hC, Function.update_eq_self] at h4 h5
      exact ⟨⟨hm, ha, h4⟩, h5⟩

/-- A step of a thread between system calls. -/
theorem NetInv.local (h : NetInv text N) (hk : Executes N.kern c e) (hd : cards N.kern e = some d)
    (hf : Fits text e d th) (hchild : th.child d = none ∨ th.child d = (N.threads e).child d)
    (hsh : th.shown text d = (N.threads e).shown text d) :
    NetInv text (N.setThread e th) ∧ Follows text (procs text N) (procs text (N.setThread e th)) [] := by
  obtain ⟨hstop, -⟩ := h.running hk hd
  obtain ⟨h4, h5⟩ := h.threads.quiet hd (h.threads.unclaimed hd (Or.inl hstop)) hf rfl hchild hsh
  have hsame : (cards N.kern).set e (some d) = cards N.kern := by rw [← hd, Cards.set_get]
  rw [hsame] at h4 h5
  exact ⟨⟨h.mail, h.awake, h4⟩, h5⟩

/-- Every step keeps the invariant, and the processes follow it. -/
theorem NetInv.step {l : Label ω} (h : NetInv text N) (hok : Smooth text N l)
    (hst : Step text N l T) : NetInv text T ∧ Follows text (procs text N) (procs text T) l.out := by
  obtain ⟨c, act, out⟩ := l
  have hwhole := hst
  unfold Step Net.step at hst
  cases act with
  | kernel ev =>
    simp only [Option.bind_eq_some_iff] at hst
    obtain ⟨t, hker, hT⟩ := hst
    have hstk : Jos.Step N.kern (c, ev) t := hker
    cases hut : userTrap N.kern c ev with
    | none =>
      rw [hut] at hT
      simp only [Option.some.injEq, Prod.mk.injEq] at hT
      obtain ⟨rfl, rfl⟩ := hT
      have hnone : ∀ {inp tf e}, ev = .trap inp tf → ¬ Executes N.kern c e := by
        rintro inp tf e rfl hk
        simp [userTrap, hk.1, hk.2] at hut
      obtain ⟨hm, ha⟩ := h.kernel hstk fun inp tf e hev hk => absurd hk (hnone hev)
      have hsame := other_cards hut h.mail.inv hstk
      exact ⟨⟨hm, ha, by rw [hsame]; exact h.threads⟩, Or.inl ⟨by simp only [procs, hsame], rfl⟩⟩
    | some x =>
      obtain ⟨e, tf⟩ := x
      rw [hut] at hT
      obtain ⟨inp, rfl, hk⟩ : ∃ inp, ev = .trap inp tf ∧ Executes N.kern c e := by
        unfold userTrap at hut
        split at hut
        · rename_i inp tf'
          split at hut
          · rename_i hmode
            rw [Option.map_eq_some_iff] at hut
            obtain ⟨y, hy, hx⟩ := hut
            cases hx
            exact ⟨inp, rfl, hmode, hy⟩
          · cases hut
        · cases hut
      have hrun := h.awake c e hk
      have hTk : T.kern = t := Net.enters_kern hT
      refine h.enters hk hstk hT (fun y va f hsys hn hi => ?_) fun hfree => ?_
      · exact hok.counted inp tf e y va f rfl ⟨hk.1, hk.2, by rw [hrun]; simp⟩ hsys hn hi
      · exact hok.spared T e hwhole (by rw [hrun]; simp) (by rw [hTk]; exact hfree)
  | go =>
    simp only at hst
    split at hst
    · rename_i hmode
      rw [Option.bind_eq_some_iff] at hst
      obtain ⟨e, he, hst⟩ := hst
      have hk : Executes N.kern c e := ⟨hmode, he⟩
      obtain ⟨d, hd⟩ := cards_of_live (s := N.kern) (e := e) (by rw [h.awake c e hk]; simp)
      have hf := h.threads.fits e d hd
      cases hpg : (N.threads e).paging with
      | no =>
        simp only [hpg, Option.map_eq_some_iff] at hst
        obtain ⟨th, hth, hx⟩ := hst
        cases hx
        obtain ⟨h1, h2, h3⟩ := hf.resume hd (h.running hk hd).2 hpg hth
        exact h.local hk hd h1 h3 h2
      | called =>
        simp only [hpg] at hst
        cases hst
        exact h.local hk hd ⟨hf.id, hf.recving, hf.recv, hf.src, by simp, hf.this, hf.getenvid⟩
          (Or.inr rfl) rfl
      | failed => simp [hpg] at hst
    · cases hst
  | panic =>
    simp only at hst
    split at hst
    · rename_i hmode
      rw [Option.bind_eq_some_iff] at hst
      obtain ⟨e, he, hst⟩ := hst
      have hk : Executes N.kern c e := ⟨hmode, he⟩
      obtain ⟨d, hd⟩ := cards_of_live (s := N.kern) (e := e) (by rw [h.awake c e hk]; simp)
      have hf := h.threads.fits e d hd
      split at hst
      · rename_i hpg
        cases hst
        exact h.local hk hd ⟨hf.id, hf.recving, hf.recv, hf.src,
          fun _ => hf.paging (by rw [hpg.1]; simp), hf.this, hf.getenvid⟩ (Or.inr rfl) rfl
      · cases hst
    · cases hst

/-! ### Whole runs -/

theorem procsOf_slots : Slots (procsOf text C Th) := by
  have hsome : ∀ {w}, procsOf text C Th w ≠ none → ∃ d, C (envx w) = some d ∧ d.envId = w := by
    intro w hw
    unfold procsOf at hw
    cases hc : C (envx w) with
    | none => simp [hc] at hw
    | some d =>
      refine ⟨d, rfl, ?_⟩
      by_contra hne
      simp [hc, hne] at hw
  intro w w' hw hw' hx
  obtain ⟨d, hd, rfl⟩ := hsome hw
  obtain ⟨d', hd', rfl⟩ := hsome hw'
  rw [hx, hd'] at hd
  rw [Option.some.inj hd]

/-- The processes follow every run. -/
theorem NetInv.run {ls : List (Label ω)} (h : NetInv text N)
    (hr : Run (restrict (Smooth text) (Step text)) N ls T) :
    ∃ ls', Run (restrict (fun M _ => Slots M) (Rendezvous.Step text)) (procs text N) ls'
        (procs text T) ∧ ls'.flatMap Rendezvous.Label.out = ls.flatMap Label.out := by
  refine hr.simulates (I := NetInv text) (fun S l U hS hst => (hS.step hst.1 hst.2).1)
    (fun S l U hS hst => ?_) h
  rcases (hS.step hst.1 hst.2).2 with hsame | ⟨l', hl', ho⟩
  · exact Or.inl hsame
  · exact Or.inr ⟨l', ⟨procsOf_slots, hl'⟩, ho⟩

theorem bootId (e : EnvIdx) : envx (4096 ||| BitVec.ofNat 32 e.val) = e := envx_or_slot 4 e rfl

variable {init : EnvIdx → σ} {p : BootParams}

/-- A program that boot loaded has a card; other slots are free. -/
theorem Launched.card (h : Launched init p N) (e : EnvIdx) :
    (e.val < p.images.length → ∃ d, cards N.kern e = some d ∧
      d.envId = 4096 ||| BitVec.ofNat 32 e.val ∧ d.recving = false) ∧
    (¬ e.val < p.images.length → cards N.kern e = none) := by
  have hb := boot_booted h.boot
  have hcard : ∀ {v : Env}, BootEnv e v → (N.kern.envs e).envStatus ≠ .free →
      (N.kern.envs e).envId = v.envId → (N.kern.envs e).envIpcRecving = v.envIpcRecving →
      ∃ d, cards N.kern e = some d ∧ d.envId = 4096 ||| BitVec.ofNat 32 e.val ∧
        d.recving = false := by
    intro v hv hlive hid hr
    obtain ⟨d, hd⟩ := cards_of_live hlive
    refine ⟨d, hd, ?_, ?_⟩
    · rw [cards_eq hd, ← hv.envId, ← hid]
    · rw [cards_eq hd, ← hv.recving, ← hr]
  rcases eq_or_ne e 0 with rfl | hne
  · obtain ⟨v, hv, h0⟩ := hb.first
    exact ⟨fun _ => hcard hv (by rw [h0]; simp) (by rw [h0]) (by rw [h0]),
      fun hn => absurd (List.length_pos_iff.mpr hb.some_image) hn⟩
  · have henv := hb.envs e hne
    split at henv
    · rename_i hlt
      exact ⟨fun _ => hcard henv (by rw [henv.status]; simp) rfl rfl, fun hn => absurd hlt hn⟩
    · rename_i hlt
      refine ⟨fun hn => absurd hn hlt, fun _ => cards_eq_none.mpr ?_⟩
      rw [henv]
      rfl

theorem Launched.inv (h : Launched init p N) : NetInv text N := by
  have hb := boot_booted h.boot
  refine ⟨hb.mailInv, fun k e hk => ?_, ⟨fun e d hd => ?_, fun e d id hd hc => ?_,
    fun e e' d d' id hd hd' hc => ?_⟩⟩
  · obtain rfl : k = p.bsp := by
      by_contra hne
      exact (hb.others k hne).1 hk.1
    obtain ⟨v, -, h0⟩ := hb.first
    obtain rfl := Option.some.inj (hk.2.symm.trans hb.bsp.2)
    rw [h0]
  · rw [h.threads e]
    obtain ⟨h1, h2⟩ := h.card e
    by_cases hlt : e.val < p.images.length
    · obtain ⟨d', hd', hid, hr⟩ := h1 hlt
      obtain rfl := Option.some.inj (hd.symm.trans hd')
      exact ⟨by rw [hid, bootId], by simp [hr], by simp, by simp, by simp, Or.inr (Or.inl rfl),
        by simp⟩
    · rw [h2 hlt] at hd
      cases hd
  · rw [h.threads e] at hc
    cases hc
  · rw [h.threads e] at hc
    cases hc

theorem Launched.procs (h : Launched init p N) : procs text N = bootProcs init p := by
  funext w
  obtain ⟨h1, h2⟩ := h.card (envx w)
  unfold Ipc.procs procsOf bootProcs
  by_cases hlt : (envx w).val < p.images.length
  · obtain ⟨d, hd, hid, -⟩ := h1 hlt
    rw [hd, Option.bind_some, hid, h.threads]
    by_cases hw : w = 4096 ||| BitVec.ofNat 32 (envx w).val
    · rw [if_pos hw.symm, if_pos ⟨hlt, hw⟩]
      simp only [Thread.shown]
    · rw [if_neg (Ne.symm hw), if_neg fun hx => hw hx.2]
  · rw [h2 hlt, if_neg fun hx => hlt hx.1]
    rfl

end

theorem Smooth.intro {text : Text ω σ} {N T : Net σ} {l : Label ω} (hst : Step text N l T)
    (hlive : ∀ e, (N.kern.envs e).envStatus ≠ .free → (T.kern.envs e).envStatus ≠ .free)
    (hno : ∀ inp tf, l.act = .kernel (.trap inp tf) → (Call.ofTf tf).no ≠ 5) : Smooth text N l := by
  refine ⟨fun T' e hst' he hfree => absurd hfree ?_, fun inp tf e d va f ha _ _ h5 _ =>
    absurd h5 (hno inp tf ha)⟩
  unfold Step at hst hst'
  rw [hst] at hst'
  obtain rfl : T = T' := congrArg Prod.fst (Option.some.inj hst')
  exact hlive e he

/-! ### A parent and its child on two CPUs -/

section

variable {text : Text ω σ} {N : Net σ} {c : CpuIdx} {e : EnvIdx} {t : KState} {st : EnvStatus}
  {inp : Input} {tf : Trapframe} {th th' : Thread σ} {place : Place}

theorem Pair.live {s t : KState} (h : ParentOn s) (ht : Pair t st) (hst : st ≠ .free) (e : EnvIdx)
    (he : (s.envs e).envStatus ≠ .free) : (t.envs e).envStatus ≠ .free := by
  rcases eq_or_ne e 0 with rfl | h0
  · rw [ht.running]
    simp
  rcases eq_or_ne e 1 with rfl | h1
  · rwa [ht.status]
  · have hv : e.val ≠ 0 := fun hx => h0 (Fin.ext hx)
    have hv1 : e.val ≠ 1 := fun hx => h1 (Fin.ext hx)
    exact absurd (h.rest e (by omega)) he

variable (text) in
/-- A system call that comes next in the library. -/
theorem smooth_enter (hu : InUser N.kern c e) (hst : Jos.Step N.kern (c, .trap inp tf) t)
    (hth : N.threads e = th) (htr : tf.tfTrapno = tSyscall) (hw : th.waits = false)
    (hpg : th.place.pages (Call.ofTf tf) = false) (hm : Made text th (Call.ofTf tf) place)
    (hpag : th.paging = .no) (hno : (Call.ofTf tf).no ≠ 5)
    (hlive : ∀ x, (N.kern.envs x).envStatus ≠ .free → (t.envs x).envStatus ≠ .free) :
    restrict (Smooth text) (Step text) N
      ⟨c, .kernel (.trap inp tf), (th.prints text place).toList.map fun w =>
        ((N.kern.envs e).envId, w)⟩ ⟨t, N.threads.called e place (eaxOf t e)⟩ := by
  subst hth
  have hut : userTrap N.kern c (.trap inp tf) = some (e, tf) := by
    simp [userTrap, hu.mode, hu.current]
  have hstep : Jos.step c (.trap inp tf) N.kern = some t := hst
  have h : Step text N ⟨c, .kernel (.trap inp tf), ((N.threads e).prints text place).toList.map
      fun w => ((N.kern.envs e).envId, w)⟩ ⟨t, N.threads.called e place (eaxOf t e)⟩ := by
    simp only [Step, Net.step, hstep, Option.bind_some, hut, Net.enters, if_pos htr, hw, hpg, hm.makes hpag,
      Bool.false_eq_true, if_false, Option.map_some]
  exact ⟨.intro h hlive fun _ _ ha => by cases ha; exact hno, h⟩

variable (text) in
theorem smooth_call (hu : InUser N.kern c e) (hst : Jos.Step N.kern (c, .trap inp tf) t)
    (hth : N.threads e = th) (htr : tf.tfTrapno = tSyscall) (hw : th.waits = false)
    (hpg : th.place.pages (Call.ofTf tf) = false) (hm : Made text th (Call.ofTf tf) place)
    (hpag : th.paging = .no) (hno : (Call.ofTf tf).no ≠ 5)
    (hlive : ∀ x, (N.kern.envs x).envStatus ≠ .free → (t.envs x).envStatus ≠ .free)
    (hplace : place ≠ .exofork) :
    ∃ T, restrict (Smooth text) (Step text) N
      ⟨c, .kernel (.trap inp tf), (th.prints text place).toList.map fun w =>
        ((N.kern.envs e).envId, w)⟩ T ∧ T.kern = t ∧ T.threads e = { th with place := place } ∧
      ∀ x, x ≠ e → T.threads x = N.threads x := by
  refine ⟨_, smooth_enter text hu hst hth htr hw hpg hm hpag hno hlive, rfl, ?_, fun x hx => ?_⟩
  · simp only [Threads.called_of_ne hplace, Function.update_self, hth]
  · simp only [Threads.called_of_ne hplace, Function.update_of_ne hx]

variable (text) in
/-- `sys_exofork`, with `r` as the id of the child. -/
theorem smooth_fork {r : Word} (hu : InUser N.kern c e) (hst : Jos.Step N.kern (c, .trap inp tf) t)
    (hth : N.threads e = th) (htr : tf.tfTrapno = tSyscall) (hw : th.waits = false)
    (hm : Made text th (Call.ofTf tf) .exofork) (hpag : th.paging = .no)
    (hlive : ∀ x, (N.kern.envs x).envStatus ≠ .free → (t.envs x).envStatus ≠ .free)
    (hr : eaxOf t e = r) (h0 : ¬ r.slt 0) (hne : envx r ≠ e) (hz : r ≠ 0) :
    ∃ T, restrict (Smooth text) (Step text) N ⟨c, .kernel (.trap inp tf), []⟩ T ∧ T.kern = t ∧
      T.threads e = { th with place := .exofork } ∧
      T.threads (envx r) = { th with place := .exofork } := by
  have hno : (Call.ofTf tf).no = 7 := by
    cases hm with
    | fork _ _ hno => exact hno
  have hpg : th.place.pages (Call.ofTf tf) = false := by simp [Place.pages, pageCall, hno]
  have hcalled : N.threads.called e .exofork (eaxOf t e) = Function.update
      (Function.update N.threads e { th with place := .exofork }) (envx r)
      { th with place := .exofork } := by
    subst hth hr
    exact if_pos ⟨rfl, h0, hz⟩
  refine ⟨_, smooth_enter text hu hst hth htr hw hpg hm hpag (by rw [hno]; decide) hlive, rfl, ?_, ?_⟩
  · show N.threads.called e .exofork (eaxOf t e) e = _
    rw [hcalled, Function.update_of_ne hne.symm, Function.update_self]
  · show N.threads.called e .exofork (eaxOf t e) (envx r) = _
    rw [hcalled, Function.update_self]

variable (text) in
/-- The library looks at the result of a call, or at a field of `thisenv`. -/
theorem smooth_go (hu : InUser N.kern c e) (hth : N.threads e = th) (hpg : th.paging = .no)
    (hr : th.resume text N.kern (eaxOf N.kern e) = some th') :
    ∃ T, restrict (Smooth text) (Step text) N ⟨c, .go, []⟩ T ∧ T.kern = N.kern ∧
      T.threads e = th' ∧ ∀ x, x ≠ e → T.threads x = N.threads x := by
  subst hth
  have h : Step text N ⟨c, .go, []⟩ (N.setThread e th') := by
    simp only [Step, Net.step, if_pos hu.mode, hu.current, Option.bind_some, hpg, hr,
      Option.map_some]
  exact ⟨_, ⟨.intro h (fun _ he => he) fun _ _ ha => (by cases ha), h⟩, rfl,
    Function.update_self .., fun x hx => Function.update_of_ne hx ..⟩

variable (text) in
/-- A kernel entry that no thread makes. -/
theorem smooth_other {ev : Event} (hst : Jos.Step N.kern (c, ev) t)
    (hut : userTrap N.kern c ev = none) (hno : ∀ inp tf, ev = .trap inp tf → (Call.ofTf tf).no ≠ 5)
    (hlive : ∀ x, (N.kern.envs x).envStatus ≠ .free → (t.envs x).envStatus ≠ .free) :
    restrict (Smooth text) (Step text) N ⟨c, .kernel ev, []⟩ ⟨t, N.threads⟩ := by
  have hstep : Jos.step c ev N.kern = some t := hst
  have h : Step text N ⟨c, .kernel ev, []⟩ ⟨t, N.threads⟩ := by
    simp only [Step, Net.step, hstep, Option.bind_some, hut]
  exact ⟨.intro h hlive fun inp tf ha => hno inp tf (by cases ha; rfl), h⟩

/-- `libmain` of the only program sets `thisenv`, and the program forks. -/
theorem forks_child {init : EnvIdx → σ} {parent : Word → σ} {child : σ}
    (hfork : text (init 0) = .fork parent child) : ∃ N T ls, Launched init oneProgram N ∧
    Run (restrict (Smooth text) (Step text)) N ls T ∧ ls.flatMap Label.out = [] ∧
    Pair T.kern .runnable ∧ Waits1 T.kern ∧ eaxOf T.kern 1 = 0 ∧
    T.threads 0 = ⟨parent 4097, .program, .no, 0⟩ ∧ T.threads 1 = ⟨init 0, .exofork, .no, 0⟩ := by
  obtain ⟨s, hboot, h⟩ := oneProgram_boot
  set N : Net σ := ⟨s, fun e => ⟨init e, .newborn, .no, 0⟩⟩ with hN
  -- `sys_getenvid`
  obtain ⟨s1, hs1, h1, hans1, henvs1⟩ := h.learns .plain
  have hlive1 : ∀ x, (s.envs x).envStatus ≠ .free → (s1.envs x).envStatus ≠ .free := by
    intro x hx
    rcases eq_or_ne x 0 with rfl | h0
    · rw [h1.running]
      simp
    · rw [henvs1 x h0]
      exact hx
  obtain ⟨N1, hr1, rfl, ht1, -⟩ := smooth_call text (N := N) h.user hs1 rfl rfl rfl rfl
    (.getenvid rfl rfl) rfl (by decide) hlive1 (by simp)
  obtain ⟨N2, hr2, hk2, ht2, -⟩ := smooth_go text h1.user ht1 rfl rfl
  rw [← hk2] at h1
  rw [show envx (eaxOf N1.kern 0) = 0 by rw [eaxOf, hans1.eax]; rfl] at ht2
  -- `sys_exofork`
  obtain ⟨s3, L, hs3, h3, -, -, -, -, hw3, hans3, heax3⟩ := h1.forks .plain
  obtain ⟨N3, hr3, rfl, ht3, hc3⟩ := smooth_fork text h1.user hs3 ht2 rfl rfl (.fork rfl hfork rfl) rfl
    (Pair.live h1.toParentOn h3 (by simp)) hans3.eax (by decide) (by decide) (by decide)
  have hgo4 : Thread.resume text N3.kern (eaxOf N3.kern 0) ⟨init 0, .exofork, .no, 0⟩ =
      some ⟨parent 4097, .copying 4097, .no, 0⟩ := by
    rw [eaxOf, hans3.eax]
    simp only [Thread.resume, hfork]
    rfl
  obtain ⟨N4, hr4, hk4, ht4, ho4⟩ := smooth_go text h3.user ht3 rfl hgo4
  rw [← hk4] at h3 hw3
  -- `sys_env_set_status`
  obtain ⟨s5, hs5, h5, henv5, -, -, hans5⟩ := h3.setsStatus .plain (by simp) (w := 2) rfl
  obtain ⟨N5, hr5, rfl, ht5, ho5⟩ := smooth_call text h3.user hs5 ht4 rfl rfl rfl
    (.start rfl rfl) rfl (show 8 ≠ 5 by decide) (Pair.live h3.toParentOn h5 (by simp)) (by simp)
  have hgo6 : Thread.resume text N5.kern (eaxOf N5.kern 0) ⟨parent 4097, .start 4097, .no, 0⟩ =
      some ⟨parent 4097, .program, .no, 0⟩ := by
    rw [eaxOf, hans5.eax]
    rfl
  obtain ⟨N6, hr6, hk6, ht6, ho6⟩ := smooth_go text h5.user ht5 rfl hgo6
  have hcpu5 : N5.kern.cpus 1 = N4.kern.cpus 1 := step_cpus_of_ne hs5 (by decide)
  have hw5 : Waits1 N5.kern :=
    ⟨by rw [hcpu5]; exact hw3.1, by rw [KState.curenv, hcpu5]; exact hw3.2⟩
  refine ⟨N, N6, _, ⟨hboot, fun _ => rfl⟩, .cons hr1 (.cons hr2 (.cons hr3 (.cons hr4 (.cons hr5
    (.single hr6))))), rfl, hk6 ▸ h5, hk6 ▸ hw5, ?_, ht6, ?_⟩
  · rw [hk6, eaxOf, henv5]
    show (N4.kern.envs 1).envTf.tfRegs.regEax = 0
    rw [hk4]
    exact heax3
  · rw [ho6 1 (by decide), ho5 1 (by decide), ho4 1 (by decide)]
    exact hc3

/-- The child, which CPU 1 takes, waits for a message. -/
theorem child_takes {parent : Thread σ} {p child : σ} {f : Word → σ} {got : Word → Word → σ}
    (h : Pair N.kern .runnable) (hw : Waits1 N.kern) (h0 : eaxOf N.kern 1 = 0)
    (hp : N.threads 0 = parent) (hc : N.threads 1 = ⟨p, .exofork, .no, 0⟩)
    (hfork : text p = .fork f child) (hrecv : text child = .recv got) :
    ∃ T ls, Run (restrict (Smooth text) (Step text)) N ls T ∧ ls.flatMap Label.out = [] ∧
      ChildWaits T.kern (-1) ∧ T.kern.cpus 1 = ⟨.halted, none, .halted⟩ ∧
      T.threads 0 = parent ∧ T.threads 1 = ⟨child, .recv, .no, 1⟩ := by
  obtain ⟨s1, hs1, h1, hu1, -, -, henv1, -⟩ := h.starts hw
  have hr1 := smooth_other text hs1 rfl (fun _ _ hx => by cases hx)
    (Pair.live h.toParentOn h1 (by simp))
  set N1 : Net σ := ⟨s1, N.threads⟩ with hN1
  have hgo2 : Thread.resume text N1.kern (eaxOf N1.kern 1) ⟨p, .exofork, .no, 0⟩ =
      some ⟨child, .newborn, .no, 0⟩ := by
    have hx : eaxOf N1.kern 1 = 0 := by
      rw [← h0]
      show (s1.envs 1).envTf.tfRegs.regEax = _
      rw [henv1]
      rfl
    rw [hx]
    simp only [Thread.resume, hfork]
    rfl
  obtain ⟨N2, hr2, hk2, ht2, ho2⟩ := smooth_go text (N := N1) hu1 hc rfl hgo2
  rw [show N1.kern = s1 from rfl] at hk2
  rw [← hk2] at h1 hu1
  -- `sys_getenvid`
  have hcur : (saved 1 1 (callFrame 2 0 0 0) N2.kern).curenv 1 = some 1 :=
    (saved_curenv _ 1).trans hu1.current
  obtain ⟨s3, hs3, h3, hu3, hans3, -⟩ := h1.answers hu1 .plain (callFrame 2 0 0 0) rfl
    (callFrame_ebp _ _ _ _) rfl (by decide) (getenvid_run hcur .plain)
  obtain ⟨N3, hr3, rfl, ht3, ho3⟩ := smooth_call text hu1 hs3 ht2 rfl rfl rfl
    (.getenvid rfl rfl) rfl (by decide) (Pair.live h1.toParentOn h3 (by simp)) (by simp)
  obtain ⟨N4, hr4, hk4, ht4, ho4⟩ := smooth_go text hu3 ht3 rfl rfl
  have hid : envx (eaxOf N3.kern 1) = 1 := by
    rw [eaxOf, hans3.eax, (saved_ids N2.kern 1 1 (callFrame 2 0 0 0) 1).2.1, h1.childId]
    rfl
  rw [hid] at ht4
  rw [← hk4] at h3 hu3
  -- `sys_ipc_recv`
  have hva : ¬ ((-1 : Word) < utop ∧ pgoff (-1) ≠ 0) := by decide
  obtain ⟨s5, hs5, h5, -, hcpu5, -⟩ := h3.receives hu3 .plain hva
  obtain ⟨N5, hr5, rfl, ht5, ho5⟩ := smooth_call text hu3 hs5 ht4 rfl rfl rfl
    (.recv rfl hrecv rfl) rfl (show 12 ≠ 5 by decide) (Pair.live h3.toParentOn h5.toPair (by simp))
    (by simp)
  refine ⟨N5, _, .cons hr1 (.cons hr2 (.cons hr3 (.cons hr4 (.single hr5)))), rfl, h5, hcpu5, ?_, ht5⟩
  rw [ho5 0 (by decide), ho4 0 (by decide), ho3 0 (by decide), ho2 0 (by decide)]
  exact hp

/-- The parent sends it a value. The child prints what it makes of that. -/
theorem child_prints {p next child p' : σ} {v : Word} {w : ω} {got : Word → Word → σ}
    (h : ChildWaits N.kern (-1)) (hw : N.kern.cpus 1 = ⟨.halted, none, .halted⟩)
    (hp : N.threads 0 = ⟨p, .program, .no, 0⟩) (hc : N.threads 1 = ⟨child, .recv, .no, 1⟩)
    (hsend : text p = .send 4097 v next) (hrecv : text child = .recv got)
    (hprint : text (got v 4096) = .print w p') :
    ∃ T ls, Run (restrict (Smooth text) (Step text)) N ls T ∧ ls.flatMap Label.out = [(4097, w)] := by
  -- `sys_ipc_try_send`
  obtain ⟨s1, hs1, h1, heax1, hfrom1, hval1, hans1⟩ := h.gets v .plain
  obtain ⟨N1, hr1, rfl, ht1, ho1⟩ := smooth_call text h.user hs1 hp rfl rfl rfl
    (.send rfl hsend rfl) rfl (show 11 ≠ 5 by decide) (Pair.live h.toParentOn h1 (by simp)) (by simp)
  have hcpu1 : N1.kern.cpus 1 = ⟨.halted, none, .halted⟩ := by
    rw [step_cpus_of_ne hs1 (by decide)]
    exact hw
  -- CPU 1 takes the child again
  obtain ⟨s2, hs2, h2, hu2, henv2, -⟩ := h1.wakes hcpu1 .plain
  have hut : userTrap N1.kern 1 (.trap .plain wakeFrame) = none := by simp [userTrap, hcpu1]
  have hr2 := smooth_other text hs2 hut (fun _ _ hx => by cases hx; decide)
    (Pair.live h1.toParentOn h2 (by simp))
  set N2 : Net σ := ⟨s2, N1.threads⟩ with hN2
  have hc2 : N2.threads 1 = ⟨child, .recv, .no, 1⟩ := (ho1 1 (by decide)).trans hc
  have hgo3 : Thread.resume text N2.kern (eaxOf N2.kern 1) ⟨child, .recv, .no, 1⟩ =
      some ⟨child, .stored, .no, 1⟩ := by
    have hx : eaxOf N2.kern 1 = 0 := by
      rw [← heax1]
      show (s2.envs 1).envTf.tfRegs.regEax = _
      rw [henv2]
    rw [hx]
    simp only [Thread.resume, hrecv]
    rfl
  obtain ⟨N3, hr3, hk3, ht3, ho3⟩ := smooth_go text (N := N2) hu2 hc2 rfl hgo3
  have hgo4 : Thread.resume text N3.kern (eaxOf N3.kern 1) ⟨child, .stored, .no, 1⟩ =
      some ⟨child, .storedFrom 4096, .no, 1⟩ := by
    have hx : (N3.kern.envs 1).envIpcFrom = 4096 := by
      rw [hk3, ← hfrom1]
      show (s2.envs 1).envIpcFrom = _
      rw [henv2]
    simp only [Thread.resume, hx]
  obtain ⟨N4, hr4, hk4, ht4, ho4⟩ := smooth_go text (by rw [hk3]; exact hu2) ht3 rfl hgo4
  have hgo5 : Thread.resume text N4.kern (eaxOf N4.kern 1) ⟨child, .storedFrom 4096, .no, 1⟩ =
      some ⟨got v 4096, .program, .no, 1⟩ := by
    have hx : (N4.kern.envs 1).envIpcValue = v := by
      rw [hk4, hk3, ← hval1]
      show (s2.envs 1).envIpcValue = _
      rw [henv2]
    simp only [Thread.resume, hrecv, hx]
  obtain ⟨N5, hr5, hk5, ht5, ho5⟩ := smooth_go text (by rw [hk4, hk3]; exact hu2) ht4 rfl hgo5
  have hk : N5.kern = s2 := hk5.trans (hk4.trans hk3)
  rw [← hk] at h2 hu2
  -- `sys_cputs`
  have hcur : (saved 1 1 (callFrame 0 0 0 0) N5.kern).curenv 1 = some 1 :=
    (saved_curenv _ 1).trans hu2.current
  obtain ⟨Le, hLe⟩ := h2.inv.core.envs
  have hdir : ((saved 1 1 (callFrame 0 0 0 0) N5.kern).envs 1).envPgdir ≠ none := by
    rw [(saved_alike _).dir]
    exact eligible_dir hLe (Or.inr h2.status)
  obtain ⟨s6, hs6, h6, -, -, -⟩ := h2.answers hu2 .plain (callFrame 0 0 0 0) rfl
    (callFrame_ebp _ _ _ _) rfl (by decide) (cputs_run hcur hdir .plain)
  obtain ⟨N6, hr6, -, -, -⟩ := smooth_call text hu2 hs6 ht5 rfl rfl rfl
    (.print rfl hprint rfl) rfl (by decide) (Pair.live h2.toParentOn h6 (by simp)) (by simp)
  have hout : Thread.prints text ⟨got v 4096, .program, .no, 1⟩ .cputs = some w := by
    simp only [Thread.prints, hprint]
  rw [hout, h2.childId] at hr6
  exact ⟨N6, _, .cons hr1 (.cons hr2 (.cons hr3 (.cons hr4 (.cons hr5 (.single hr6))))), rfl⟩

/-- A parent hands a value to its child, which prints what it makes of it. -/
theorem hands_over (text : Text ω σ) (init : EnvIdx → σ) {parent : Word → σ} {child next p' : σ}
    {v : Word} {w : ω} {got : Word → Word → σ} (hfork : text (init 0) = .fork parent child)
    (hsend : text (parent 4097) = .send 4097 v next) (hrecv : text child = .recv got)
    (hprint : text (got v 4096) = .print w p') : ∃ N T ls, Launched init oneProgram N ∧
    Run (restrict (Smooth text) (Step text)) N ls T ∧ ls.flatMap Label.out = [(4097, w)] := by
  obtain ⟨N, N1, ls1, hL, hr1, ho1, h1, hw1, heax1, hp1, hc1⟩ := forks_child hfork
  obtain ⟨N2, ls2, hr2, ho2, h2, hw2, hp2, hc2⟩ := child_takes h1 hw1 heax1 hp1 hc1 hfork hrecv
  obtain ⟨T, ls3, hr3, ho3⟩ := child_prints h2 hw2 hp2 hc2 hsend hrecv hprint
  refine ⟨N, T, _, hL, (hr1.append hr2).append hr3, ?_⟩
  rw [List.flatMap_append, List.flatMap_append, ho1, ho2, ho3]
  rfl

end

/-- In every run, environments whose programs communicate through `ipc_send` and `ipc_recv` behave
    like processes that hand over values: there is a run of those, from the programs that boot loaded,
    in which the same is printed in the same order by the same processes. A value is handed over in
    one step, from the process that sends it to the process with the id that it was sent to. -/
theorem ipc_refines_rendezvous {text : Text ω σ} {init : EnvIdx → σ} {p : BootParams} {N T : Net σ}
    {ls : List (Label ω)} (h : Launched init p N)
    (hr : Run (restrict (Smooth text) (Step text)) N ls T) :
    ∃ ls', Run (restrict (fun M _ => Slots M) (Rendezvous.Step text)) (bootProcs init p) ls'
        (procs text T) ∧ ls'.flatMap Rendezvous.Label.out = ls.flatMap Label.out := by
  rw [← h.procs]
  exact h.inv.run hr

/-- A program that forks a child and hands it a number, which the child prints. -/
inductive Hand where
  | start
  | give (id : Word)
  | take
  | got (v : Word)
  | done

def handOver : Text Word Hand
  | .start => .fork .give .take
  | .give id => .send id 7 .done
  | .take => .recv fun v _ => .got v
  | .got v => .print v .done
  | .done => .exit

theorem ipc_refines_rendezvous_demo : ∃ (N T : Net Hand) (ls : List (Label Word)),
    Launched (fun _ => .start) oneProgram N ∧
    Run (restrict (Smooth handOver) (Step handOver)) N ls T ∧ ls.flatMap Label.out = [(4097, 7)] ∧
    ∃ ls', Run (restrict (fun M _ => Slots M) (Rendezvous.Step handOver))
        (bootProcs (fun _ => .start) oneProgram) ls' (procs handOver T) ∧
      ls'.flatMap Rendezvous.Label.out = ls.flatMap Label.out := by
  obtain ⟨N, T, ls, hL, hr, ho⟩ := hands_over handOver (fun _ => .start) rfl rfl rfl rfl
  exact ⟨N, T, ls, hL, hr, ho, ipc_refines_rendezvous hL hr⟩

end Ipc

end Jos
