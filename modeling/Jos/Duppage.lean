import Jos.Fork

/-!
  What `duppage` does to one page, and the loop of `fork` to all of them (`lib/fork.c`). -/

namespace Jos

open Lib RefCount

namespace Fork

/-! ### One page -/

/-- The permissions that the child should get for a page that the parent has with entry `w`. -/
def childPerm (w : Word) : Word :=
  if w &&& pteShare ≠ 0 then w &&& pteSyscall
  else if w &&& pteW ≠ 0 ∨ w &&& pteCow ≠ 0 then cowPerm
  else pteU ||| pteP

/-- A page that user code may read. -/
def UserPage (w : Word) : Prop := w &&& pteP ≠ 0 ∧ w &&& pteU ≠ 0

instance (w : Word) : Decidable (UserPage w) := by
  unfold UserPage
  infer_instance

/-- The permissions with which `duppage` maps a page where it drops the error. -/
def droppedPerm (w : Word) : Option Word :=
  if w &&& pteShare ≠ 0 then some pteSyscall
  else if w &&& pteW ≠ 0 ∨ w &&& pteCow ≠ 0 then none
  else some (pteU ||| pteP)

/-- The child has the page as the parent had it. -/
def Inherited (s : KState) (cur child : EnvIdx) (x : Dup) : Prop :=
  ∀ f, mappedAt x.moment cur (pageVa x.pn) = some f →
    Shows s child (pageVa x.pn) f (childPerm (pteOf x.moment cur (pageVa x.pn)))

/-- The parent's page, if the two share it copy-on-write, is read-only or a private copy. -/
def Marked (s : KState) (cur : EnvIdx) (x : Dup) : Prop :=
  childPerm (pteOf x.moment cur (pageVa x.pn)) = cowPerm →
    mappedAt x.moment cur (pageVa x.pn) ≠ none →
    (∃ f, Shows s cur (pageVa x.pn) f cowPerm) ∨ ∃ f, Own s cur (pageVa x.pn) f

/-- What `duppage` relies on: a shared page has all of `PTE_SYSCALL`, and where the error of
    `sys_page_map` is dropped, there is memory for a page table if the child needs one. -/
def Dupable (cur child : EnvIdx) (x : Dup) : Prop :=
  mappedAt x.moment cur (pageVa x.pn) ≠ none →
    (x.pte &&& pteShare ≠ 0 → pteOf x.moment cur (pageVa x.pn) &&& pteSyscall = pteSyscall) ∧
    (x.pte &&& pteShare ≠ 0 ∨ (x.pte &&& pteW = 0 ∧ x.pte &&& pteCow = 0) →
      x.moment.pageFreeList ≠ none ∨ tabFrame x.moment (some child) (pdx (pageVa x.pn)) ≠ none)

section

variable {c : CpuIdx} {cur child : EnvIdx} {d d' : Nat} {u v : User} {s t r s0 : KState}
  {va envid : Word} {pn n : Nat} {x : Dup}

/-- Page `pn` apart, only stores happened, and private copies stay. -/
structure Apart (s t : KState) (cur child : EnvIdx) (pn : Nat) : Prop where
  child : ∀ b, pgnum b ≠ pn → pteOf t child b = pteOf s child b
  mine : ∀ b, b < utop → pgnum b ≠ pn → pgnum b ≠ pgnum pftemp → pteOf t cur b = pteOf s cur b ∨
    (pteOf s cur b &&& pteCow ≠ 0 ∧ ∃ f, Own t cur b f)
  own : ∀ b, b < utop → pgnum b ≠ pn → pgnum b ≠ pgnum pftemp → ∀ f, Own s cur b f → Own t cur b f

theorem Apart.trans (h : Apart s t cur child pn) (h' : Apart t r cur child pn) :
    Apart s r cur child pn := by
  refine ⟨fun b hb => (h'.child b hb).trans (h.child b hb),
    fun b hlt hb htemp => ?_, fun b hlt hb htemp f hf => ?_⟩
  · rcases h.mine b hlt hb htemp with h1 | ⟨hcow, f, hf⟩
    · rw [← h1]
      exact h'.mine b hlt hb htemp
    · exact Or.inr ⟨hcow, f, h'.own b hlt hb htemp f hf⟩
  · exact h'.own b hlt hb htemp f (h.own b hlt hb htemp f hf)

theorem flags_of_shows {e : EnvIdx} {a perm m : Word} {f : Nat} (h : Shows s e a f perm)
    (hm : 0xFFF &&& m = m) : pteOf s e a &&& m = perm &&& m := by
  have h0 : page2pa f &&& m = 0 := by
    rw [← hm, ← BitVec.and_assoc, page2pa_flags]
    exact BitVec.zero_and
  have hor : (page2pa f ||| perm) &&& m = (page2pa f &&& m) ||| (perm &&& m) := by
    ext x
    simp only [BitVec.getElem_or, BitVec.getElem_and]
    cases (page2pa f)[x] <;> cases perm[x] <;> cases m[x] <;> rfl
  rw [h.entry, hor, h0]
  exact BitVec.zero_or

theorem Own.not_cow {a : Word} {f : Nat} (h : Own s cur a f) : pteOf s cur a &&& pteCow = 0 :=
  (flags_of_shows h.shows (by decide)).trans (by decide)

theorem Own.childPerm {a : Word} {f : Nat} (h : Own s cur a f) :
    childPerm (pteOf s cur a) = cowPerm := by
  have h1 := flags_of_shows (m := pteShare) h.shows (by decide)
  have h2 := flags_of_shows (m := pteW) h.shows (by decide)
  unfold Fork.childPerm
  rw [h1, h2, if_neg (by decide), if_pos (Or.inl (by decide))]

/-- Two permissions that one entry shows are the same. -/
theorem Shows_unique {e : EnvIdx} {a p q : Word} {f g : Nat} (hp : Shows s e a f p)
    (hq : Shows s e a g q) (h1 : 0xFFF &&& p = p) (h2 : 0xFFF &&& q = q) : p = q := by
  have h3 := flags_of_shows (m := 0xFFF) hp (by decide)
  have h4 := flags_of_shows (m := 0xFFF) hq (by decide)
  rw [h3, BitVec.and_comm, h1, BitVec.and_comm, h2] at h4
  exact h4

theorem Own.keeps {a : Word} {f : Nat} (h : Own s cur a f) (hst : Aged s t cur) (ha : a < utop)
    (htemp : pgnum a ≠ pgnum pftemp) : Own t cur a f := by
  rcases hst.mine a ha htemp with h1 | ⟨hcow, -⟩
  · exact h.aged hst h1
  · exact absurd h.not_cow hcow

theorem Aged.apart (h : Aged s t cur) (hne : child ≠ cur) : Apart s t cur child pn :=
  ⟨fun _ _ => h.other child hne _ _, fun b hb _ htemp => h.mine b hb htemp,
    fun _ hb _ htemp _ hf => hf.keeps h hb htemp⟩

/-- `sys_page_map` of page `pn` to where it is in the parent, or in the child. -/
theorem Sets.apart {e : EnvIdx} {perm : Word} {f : Nat} (h : Sets s t e va)
    (hpn : pgnum va = pn) (hf : mappedAt s cur va = some f)
    (hshow : Shows t e va f perm) : Apart s t cur child pn := by
  have haway : ∀ x b, pgnum b ≠ pn → pteOf t x b = pteOf s x b := fun x b hb =>
    h.rest x _ _ fun hy => hb ((at_iff.mp hy.2).trans hpn)
  refine ⟨haway child, fun b _ hb _ => Or.inl (haway cur b hb),
    fun b _ hb _ g hg => hg.sets h (fun hx => hb (hx.2.symm.trans hpn)) fun hx => ?_⟩
  obtain rfl := Option.some.inj (hshow.frame.symm.trans hx)
  exact hb ((hg.sole cur va hf).2.symm.trans hpn)

/-- The child that `sys_exofork` made. -/
structure Child (cur child : EnvIdx) (d' : Nat) (envid : Word) (s : KState) : Prop where
  dir : (s.envs child).envPgdir = some d'
  look : lookupEnv s cur envid true = some child
  ne : child ≠ cur

theorem Child.of_only (h : Child cur child d' envid s) (ho : PmOnly s t) :
    Child cur child d' envid t := by
  refine ⟨by rw [ho.envs]; exact h.dir, ?_, h.ne⟩
  have hl := h.look
  unfold lookupEnv at hl ⊢
  rw [ho.envs]
  exact hl

/-! ### The scratch page -/

/-- What the scratch page of `pgfault` has to do with the loop, whose first `n` turns are over; `s0`
    is the state when `fork` was called. A run of `pgfault` before the turn of that page takes the
    page away from the child, a later one from the parent. -/
structure Scratch (cur : EnvIdx) (s0 : KState) (n : Nat) (u : User) : Prop where
  gone : Gone cur u
  kept : u.faults = [] → n ≤ pgnum pftemp → pteOf u.kern cur pftemp = pteOf s0 cur pftemp
  within : ∀ done ∈ u.faults, done ⊆ u.dups
  read : ∀ x ∈ u.dups, x.pn = pgnum pftemp → UserPage (pteOf s0 cur pftemp) ∧
    ((pteOf x.moment cur pftemp = pteOf s0 cur pftemp ∧ ∀ done ∈ u.faults, x ∈ done) ∨
      (mappedAt x.moment cur pftemp = none ∧ ∃ done ∈ u.faults, ∀ y ∈ done, y.pn ≠ pgnum pftemp))
  all : pgnum pftemp < n → UserPage (pteOf s0 cur pftemp) →
    (∀ done ∈ u.faults, ∃ x ∈ done, x.pn = pgnum pftemp) → ∃ x ∈ u.dups, x.pn = pgnum pftemp
  marked : u.faults = [] → pgnum pftemp < n → UserPage (pteOf s0 cur pftemp) →
    childPerm (pteOf s0 cur pftemp) = cowPerm → ∃ f, Shows u.kern cur pftemp f cowPerm

/-- Stores of the parent, and system calls for other pages. -/
theorem Scratch.goes (h : Scratch cur s0 n u) (hgo : Goes u v) (htemp : TempAged cur u v) :
    Scratch cur s0 n v := by
  refine ⟨htemp.gone h.gone, fun hq hn => (htemp.quiet hq).trans (h.kept (hgo.quiet hq) hn),
    fun done hd => ?_, fun x hx hpn => ?_, fun hn hu hall => ?_, fun hq hn hu hcow => ?_⟩
  · rw [hgo.dups]
    rcases hgo.newer done hd with hd | rfl
    · exact h.within done hd
    · exact List.Subset.refl _
  · rw [hgo.dups] at hx
    obtain ⟨hu, hread⟩ := h.read x hx hpn
    refine ⟨hu, ?_⟩
    rcases hread with ⟨hsame, hin⟩ | ⟨hnone, done, hd, hearly⟩
    · refine Or.inl ⟨hsame, fun done hd => ?_⟩
      rcases hgo.newer done hd with hd | rfl
      · exact hin done hd
      · exact hx
    · exact Or.inr ⟨hnone, done, hgo.older hd, hearly⟩
  · rw [hgo.dups]
    exact h.all hn hu fun done hd => hall done (hgo.older hd)
  · obtain ⟨f, hf⟩ := h.marked (hgo.quiet hq) hn hu hcow
    exact ⟨f, shows_of_pteOf (htemp.quiet hq) hf⟩

/-- A page is noted. -/
theorem Scratch.note (h : Scratch cur s0 n u) (hlt : ∀ y ∈ u.dups, y.pn < n) (hx : x.pn = n)
    (hm : x.moment = u.kern) (hu : n = pgnum pftemp → UserPage (pteOf s0 cur pftemp)) :
    Scratch cur s0 n { u with dups := u.dups ++ [x] } := by
  refine ⟨h.gone, h.kept, fun done hd => List.subset_append_of_subset_left _ (h.within done hd),
    fun y hy hpn => ?_, fun hn hu' hall => ?_, h.marked⟩
  · rcases List.mem_append.mp hy with hy | hy
    · exact h.read y hy hpn
    obtain rfl := List.mem_singleton.mp hy
    have hn : n = pgnum pftemp := hx.symm.trans hpn
    refine ⟨hu hn, ?_⟩
    rw [hm]
    by_cases hq : u.faults = []
    · exact Or.inl ⟨h.kept hq hn.le, by simp [hq]⟩
    · -- a page fault before its turn
      obtain ⟨done, hd⟩ := List.exists_mem_of_ne_nil _ hq
      refine Or.inr ⟨h.gone hq, done, hd, fun z hz => ?_⟩
      exact hn ▸ (hlt z (h.within done hd hz)).ne
  · obtain ⟨y, hy, hpn⟩ := h.all hn hu' hall
    exact ⟨y, List.mem_append_left _ hy, hpn⟩

/-- The end of a turn. -/
theorem Scratch.turn (h : Scratch cur s0 n u)
    (hall : n = pgnum pftemp → UserPage (pteOf s0 cur pftemp) →
      (∀ done ∈ u.faults, ∃ x ∈ done, x.pn = pgnum pftemp) → ∃ x ∈ u.dups, x.pn = pgnum pftemp)
    (hmark : n = pgnum pftemp → u.faults = [] → UserPage (pteOf s0 cur pftemp) →
      childPerm (pteOf s0 cur pftemp) = cowPerm → ∃ f, Shows u.kern cur pftemp f cowPerm) :
    Scratch cur s0 (n + 1) u := by
  refine ⟨h.gone, fun hq hn => h.kept hq (Nat.le_of_succ_le hn), h.within, h.read,
    fun hn hu hd => ?_, fun hq hn hu hcow => ?_⟩
  · rcases Nat.lt_succ_iff_lt_or_eq.mp hn with hn | hn
    · exact h.all hn hu hd
    · exact hall hn.symm hu hd
  · rcases Nat.lt_succ_iff_lt_or_eq.mp hn with hn | hn
    · exact h.marked hq hn hu hcow
    · exact hmark hn.symm hq hu hcow

theorem pageVa_toNat (h : pn < pgnum ustacktop) : (pageVa pn).toNat = pn * 4096 := by
  have hn : pgnum ustacktop = 0xEEBFE := by decide
  have hp : pgsize = 4096 := rfl
  rw [pageVa, hp, BitVec.toNat_ofNat, Nat.mod_eq_of_lt (by omega)]

theorem pgnum_pageVa (h : pn < pgnum ustacktop) : pgnum (pageVa pn) = pn := by
  rw [pgnum, pageVa_toNat h, Nat.mul_div_cancel _ (by decide)]

theorem vaOk_pageVa (h : pn < pgnum ustacktop) : vaOk (pageVa pn) = true := by
  have hn : pgnum ustacktop = 0xEEBFE := by decide
  have hutop : utop.toNat = 0xEEC00000 := by decide
  have hval := pageVa_toNat h
  simp only [vaOk, Bool.and_eq_true, decide_eq_true_eq]
  refine ⟨?_, ?_⟩
  · rw [BitVec.lt_def]
    omega
  · unfold pgoff
    omega

theorem freeList_none {L : List Nat} (h : PageInv s L ∅) : s.pageFreeList = none ↔ L = [] := by
  rw [h.chain.head_eq]
  exact List.head?_eq_none_iff

theorem childPerm_low (w : Word) : 0xFFF &&& childPerm w = childPerm w := by
  unfold childPerm
  split
  · rw [BitVec.and_comm w, ← BitVec.and_assoc]
    congr 1
  · split <;> decide

theorem pageVa_lt (h : n < pgnum ustacktop) : pageVa n < utop := by
  have hn : pgnum ustacktop = 0xEEBFE := by decide
  have hutop : utop.toNat = 0xEEC00000 := by decide
  rw [BitVec.lt_def, pageVa_toNat h]
  omega

theorem childPerm_eq_syscall {w : Word} :
    childPerm w = pteSyscall ↔ w &&& pteSyscall = pteSyscall := by
  have hin : pteSyscall &&& pteShare = pteShare := by decide
  unfold childPerm
  constructor
  · intro h
    split at h
    · exact h
    · split at h
      · exact absurd h (by decide)
      · exact absurd h (by decide)
  · intro h
    have hs : w &&& pteShare = pteShare := by
      rw [← hin, ← BitVec.and_assoc, h]
    rw [if_pos (by rw [hs]; decide)]
    exact h

/-- The parent's entry when the page is mapped, against the one that `duppage` read. -/
theorem Aged.entry (h : Aged s t cur) {a : Word} (ha : a < utop) (hm : mappedAt t cur a ≠ none) :
    pteOf t cur a = pteOf s cur a ∨
      (pteOf s cur a &&& pteCow ≠ 0 ∧ ∃ f, Own t cur a f) := by
  by_cases htemp : pgnum a = pgnum pftemp
  · exact Or.inl ((h.temp a htemp).resolve_right hm)
  · exact h.mine a ha htemp

/-! ### What `duppage` does -/

theorem aboutToMap_ok {w : Point → List (Word × Byte)} {pte : Word}
    (h : aboutToMap c cur w pn pte u = .ok () v) : ∃ x : User,
      stores c cur (w (.dup pn)) u = .ok () x ∧
      v = { x with dups := x.dups ++ [⟨pn, pte, x.kern⟩] } := by
  obtain ⟨_, x, hx, h⟩ := bind_eq_ok h
  rw [run_modify] at h
  cases h
  exact ⟨x, hx, rfl⟩

/-- The two ways through `duppage`: one call whose error is dropped, or two that have to succeed. -/
theorem duppage_cases {w : Point → List (Word × Byte)}
    (h : duppage c cur w envid pn u = .ok () v) : ∃ a m : User, ∃ x : Dup,
      stores c cur (w (.enter pn)) u = .ok () a ∧ stores c cur (w (.dup pn)) a = .ok () m ∧
      x = ⟨pn, pteOf a.kern cur (pageVa pn), m.kern⟩ ∧
      ((∃ perm r, droppedPerm x.pte = some perm ∧ pageMap c (pageVa pn) envid (pageVa pn) perm
          { m with dups := m.dups ++ [x] } = .ok r v) ∨
        (droppedPerm x.pte = none ∧ ∃ m1 m2 : User, ∃ r1 r2 : Word,
          pageMap c (pageVa pn) envid (pageVa pn) cowPerm
            { m with dups := m.dups ++ [x] } = .ok (.ok r1) m1 ∧
          stores c cur (w (.own pn)) m1 = .ok () m2 ∧
          pageMap c (pageVa pn) 0 (pageVa pn) cowPerm m2 = .ok (.ok r2) v)) := by
  obtain ⟨_, a, hstores, h⟩ := bind_eq_ok h
  obtain ⟨_, _, h0, h⟩ := bind_eq_ok h
  cases h0
  obtain ⟨_, b, habout, h⟩ := bind_eq_ok h
  obtain ⟨m, hstores', rfl⟩ := aboutToMap_ok habout
  refine ⟨a, m, _, hstores, hstores', rfl, ?_⟩
  unfold droppedPerm
  by_cases hshare : pteOf a.kern cur (pageVa pn) &&& pteShare ≠ 0
  · rw [if_pos hshare] at h ⊢
    obtain ⟨r, v', hcall, h⟩ := bind_eq_ok h
    cases h
    exact Or.inl ⟨_, r, rfl, hcall⟩
  rw [if_neg hshare] at h ⊢
  by_cases hcow : pteOf a.kern cur (pageVa pn) &&& pteW ≠ 0 ∨
      pteOf a.kern cur (pageVa pn) &&& pteCow ≠ 0
  · rw [if_pos hcow] at h ⊢
    obtain ⟨_, m1, hmap1, h⟩ := bind_eq_ok h
    obtain ⟨_, m2, hown, hmap2⟩ := bind_eq_ok h
    obtain ⟨r1, hmap1⟩ := need_ok hmap1
    obtain ⟨r2, hmap2⟩ := need_ok hmap2
    exact Or.inr ⟨rfl, m1, m2, r1, r2, hmap1, hown, hmap2⟩
  · rw [if_neg hcow] at h ⊢
    obtain ⟨r, v', hcall, h⟩ := bind_eq_ok h
    cases h
    exact Or.inl ⟨_, r, rfl, hcall⟩

/-- What holds when `duppage` makes its first system call, in `m`. -/
structure Moment (c : CpuIdx) (cur child : EnvIdx) (d d' : Nat) (envid : Word) (u m : User)
    (x : Dup) : Prop where
  now : x.moment = m.kern
  bound : x.pn < pgnum ustacktop
  parent : Parent c cur d m.kern
  forked : Child cur child d' envid m.kern
  aged : Aged u.kern m.kern cur
  empty : mappedAt m.kern child (pageVa x.pn) = none
  entry : mappedAt m.kern cur (pageVa x.pn) ≠ none →
    pteOf m.kern cur (pageVa x.pn) = x.pte ∨
      (x.pte &&& pteCow ≠ 0 ∧ ∃ f, Own m.kern cur (pageVa x.pn) f)
  noted : x ∈ m.dups
  scratch : ∀ s0, Scratch cur s0 x.pn u → (∀ y ∈ u.dups, y.pn < x.pn) →
    (x.pn = pgnum pftemp → UserPage (pteOf s0 cur pftemp)) → Scratch cur s0 x.pn m ∧
      (x.pn = pgnum pftemp → m.faults = [] → x.pte = pteOf s0 cur pftemp)

/-- What `duppage` did. -/
structure Dupped (c : CpuIdx) (cur child : EnvIdx) (d : Nat) (u v : User) (x : Dup) : Prop where
  parent : Parent c cur d v.kern
  pm : PmOnly u.kern v.kern
  before : Aged u.kern x.moment cur
  apart : Apart u.kern v.kern cur child x.pn
  inherited : Inherited v.kern cur child x ↔ Dupable cur child x
  only : mappedAt v.kern child (pageVa x.pn) ≠ none → mappedAt x.moment cur (pageVa x.pn) ≠ none
  marked : Dupable cur child x → Marked v.kern cur x
  scratch : ∀ s0, Scratch cur s0 x.pn u → (∀ y ∈ u.dups, y.pn < x.pn) →
    (x.pn = pgnum pftemp → UserPage (pteOf s0 cur pftemp)) → Scratch cur s0 (x.pn + 1) v

theorem pageVa_pftemp : pageVa (pgnum pftemp) = pftemp := by decide

theorem moment_ok {w : Point → List (Word × Byte)} {a m : User}
    (henter : stores c cur (w (.enter pn)) u = .ok () a)
    (hdup : stores c cur (w (.dup pn)) a = .ok () m)
    (hx : x = ⟨pn, pteOf a.kern cur (pageVa pn), m.kern⟩) (hpn : pn < pgnum ustacktop)
    (hfit : Fits cur m.calls) (hp : Parent c cur d u.kern) (hc : Child cur child d' envid u.kern)
    (hempty : mappedAt u.kern child (pageVa pn) = none) :
    Moment c cur child d d' envid u { m with dups := m.dups ++ [x] } x := by
  subst hx
  obtain ⟨hgo, hage⟩ := stores_ok (d := d) henter
  obtain ⟨hgo', hage'⟩ := stores_ok (d := d) hdup
  obtain ⟨hpa, hua, hta⟩ := hage (hfit.of_goes hgo') hp
  obtain ⟨hpm, ham, htm⟩ := hage' hfit hpa
  have hum := hua.trans ham
  refine ⟨rfl, hpn, hpm, hc.of_only hum.only, hum,
    (congrArg entryFrame (hum.other child hc.ne _ _)).trans hempty, ham.entry (pageVa_lt hpn),
    List.mem_append_right _ (List.mem_singleton_self _), fun s0 hs hlt hu => ?_⟩
  have hsa : Scratch cur s0 pn a := hs.goes hgo hta
  have hdups : m.dups = u.dups := (hgo.trans hgo').dups
  refine ⟨(hsa.goes hgo' htm).note (by rw [hdups]; exact hlt) rfl rfl hu, fun htemp hq => ?_⟩
  have hsame := hsa.kept (hgo'.quiet hq) htemp.le
  rw [← hsame]
  show pteOf a.kern cur (pageVa pn) = _
  rw [show pn = pgnum pftemp from htemp, pageVa_pftemp]

theorem droppedPerm_spec {w perm : Word} (h : droppedPerm w = some perm) :
    permOk perm = true ∧ 0xFFF &&& perm = perm ∧ childPerm w ≠ cowPerm ∧
      (w &&& pteShare ≠ 0 ∧ perm = pteSyscall ∨
        w &&& pteShare = 0 ∧ (w &&& pteW = 0 ∧ w &&& pteCow = 0) ∧ perm = pteU ||| pteP) := by
  unfold droppedPerm at h
  by_cases hshare : w &&& pteShare ≠ 0
  · rw [if_pos hshare] at h
    cases h
    refine ⟨by decide, by decide, fun hcow => ?_, Or.inl ⟨hshare, rfl⟩⟩
    -- the bit `PTE_SHARE` stays
    rw [childPerm, if_pos hshare] at hcow
    have hbit := congrArg (· &&& pteShare) hcow
    have hin : pteSyscall &&& pteShare = pteShare := by decide
    simp only [BitVec.and_assoc, hin] at hbit
    exact hshare (hbit.trans (by decide))
  rw [if_neg hshare] at h
  by_cases hcow : w &&& pteW ≠ 0 ∨ w &&& pteCow ≠ 0
  · rw [if_pos hcow] at h
    cases h
  · rw [if_neg hcow] at h
    cases h
    have hchild : childPerm w = pteU ||| pteP := (if_neg hshare).trans (if_neg hcow)
    rw [not_or, not_not, not_not] at hcow
    exact ⟨by decide, by decide, by rw [hchild]; decide,
      Or.inr ⟨not_not.mp hshare, hcow, rfl⟩⟩

theorem droppedPerm_none {w : Word} (h : droppedPerm w = none) :
    w &&& pteShare = 0 ∧ (w &&& pteW ≠ 0 ∨ w &&& pteCow ≠ 0) := by
  unfold droppedPerm at h
  split at h
  · cases h
  rename_i hshare
  split at h
  · rename_i hcow
    exact ⟨not_not.mp hshare, hcow⟩
  · cases h

theorem childPerm_of_none {w : Word} (h : droppedPerm w = none) : childPerm w = cowPerm := by
  obtain ⟨hshare, hcow⟩ := droppedPerm_none h
  exact (if_neg (not_not.mpr hshare)).trans (if_pos hcow)

/-- The permissions of a dropped call are the right ones exactly if a shared page has them all. -/
theorem Moment.perm {m : User} (h : Moment c cur child d d' envid u m x) {perm : Word}
    (hperm : droppedPerm x.pte = some perm) (hm : mappedAt x.moment cur (pageVa x.pn) ≠ none) :
    ((x.pte &&& pteShare ≠ 0 → pteOf x.moment cur (pageVa x.pn) &&& pteSyscall = pteSyscall) ↔
        childPerm (pteOf x.moment cur (pageVa x.pn)) = perm) ∧
      (childPerm (pteOf x.moment cur (pageVa x.pn)) = perm →
        ¬ (pteOf x.moment cur (pageVa x.pn) &&& pteW = 0 ∧ perm &&& pteW ≠ 0)) := by
  obtain ⟨-, -, -, ⟨hshare, rfl⟩ | ⟨hshare, hro, rfl⟩⟩ := droppedPerm_spec hperm
  · refine ⟨(imp_iff_right hshare).trans childPerm_eq_syscall.symm, fun hcp hno => ?_⟩
    have hw : pteSyscall &&& pteW = pteW := by decide
    have hin := congrArg (· &&& pteW) (childPerm_eq_syscall.mp hcp)
    simp only [BitVec.and_assoc, hw] at hin
    rw [hin] at hno
    exact absurd hno.1 (by decide)
  · refine ⟨iff_of_true (fun hx => absurd hshare hx) ?_, fun _ hno => absurd hno.2 (by decide)⟩
    have hsame : pteOf x.moment cur (pageVa x.pn) = x.pte := by
      rw [h.now] at hm ⊢
      exact (h.entry hm).resolve_right fun hy => hy.1 hro.2
    rw [hsame]
    refine (if_neg (not_not.mpr hshare)).trans (if_neg ?_)
    rw [not_or, not_not, not_not]
    exact hro

/-- `sys_page_map` into the child does not touch the parent's scratch page. -/
theorem Sets.tempAged {e : EnvIdx} (h : Sets u.kern v.kern e va) (hf : v.faults = u.faults)
    (hne : ¬ (e = cur ∧ pgnum va = pgnum pftemp)) : TempAged cur u v :=
  .of_pteOf hf (h.rest cur _ _ fun hy => hne ⟨hy.1.symm, (at_iff.mp hy.2).symm⟩)

/-- One of the two calls whose errors `duppage` drops. -/
theorem dropped_ok {m : User} {perm : Word} {r : Except Err Word}
    (h : Moment c cur child d d' envid u m x) (hperm : droppedPerm x.pte = some perm)
    (hcall : pageMap c (pageVa x.pn) envid (pageVa x.pn) perm m = .ok r v)
    (hfit : Fits cur v.calls) : Dupped c cur child d u v x := by
  obtain ⟨hrun, hgo, hat⟩ := pageMap_ok hcall
  have hfaults := pageMap_faults hcall
  obtain ⟨hok, hlow, hnot, hclass⟩ := droppedPerm_spec hperm
  obtain ⟨L, hL⟩ := h.parent.page
  have hne := h.forked.ne
  have hnow := h.now
  -- the class of the page is not copy-on-write, so that nothing is to be marked
  have hmarked : Dupable cur child x → Marked v.kern cur x := by
    intro hd hcow hm
    have hcp := (h.perm hperm hm).1.mp (hd hm).1
    rw [hcp] at hcow
    obtain ⟨-, rfl⟩ | ⟨-, -, rfl⟩ := hclass
    · exact absurd hcow (by decide)
    · exact absurd hcow (by decide)
  have hscratch : TempAged cur m v → ∀ s0, Scratch cur s0 x.pn u → (∀ y ∈ u.dups, y.pn < x.pn) →
      (x.pn = pgnum pftemp → UserPage (pteOf s0 cur pftemp)) → Scratch cur s0 (x.pn + 1) v := by
    intro htemp s0 hs hlt hu
    obtain ⟨hm, hread⟩ := h.scratch s0 hs hlt hu
    refine (hm.goes hgo htemp).turn (fun hx _ _ => ⟨x, hgo.dups ▸ h.noted, hx⟩)
      fun hx hq _ hcow => absurd hcow ?_
    rw [← hread hx (hgo.quiet hq)]
    exact hnot
  rcases sysPageMap_sets hL h.parent.running (lookupEnv_self ..) h.forked.look h.parent.dir.1
    h.forked.dir hrun with ⟨_, -, hsame, hwhy⟩ | ⟨f, -, hmay, hf, hshow, hset, hmem⟩
  · refine ⟨hsame ▸ h.parent, hsame ▸ h.aged.only, hnow ▸ h.aged, hsame ▸ h.aged.apart hne,
      ⟨fun hin hm => ?_, fun hd f hf => ?_⟩, fun hm => absurd (hsame ▸ h.empty) hm, hmarked,
      hscratch (.of_pteOf hfaults (by rw [hsame]))⟩
    · obtain ⟨f, hf⟩ := Option.ne_none_iff_exists'.mp hm
      have hmap := (hin f hf).frame
      rw [hsame, h.empty] at hmap
      cases hmap
    · -- the call could only fail for want of a page table
      have hm : mappedAt x.moment cur (pageVa x.pn) ≠ none := by rw [hf]; simp
      obtain ⟨h1, h2⟩ := hd hm
      obtain ⟨hbits, hwrite⟩ := h.perm hperm hm
      rw [hnow] at hm hwrite hbits h1 h2
      obtain ⟨hnil, htab⟩ := hwhy ⟨⟨vaOk_pageVa h.bound, vaOk_pageVa h.bound⟩, hok, hm,
        hwrite (hbits.mp h1)⟩
      rcases h2 (hclass.imp And.left fun hx => hx.2.1) with h3 | h3
      · exact absurd ((freeList_none hL).mpr hnil) h3
      · exact absurd htab h3
  · have hs := hset (Or.inl (hfit _ hat f hf))
    have hf' : mappedAt x.moment cur (pageVa x.pn) = some f := by rw [hnow]; exact hf
    have hm : mappedAt x.moment cur (pageVa x.pn) ≠ none := by rw [hf']; simp
    obtain ⟨hbits, -⟩ := h.perm hperm hm
    refine ⟨h.parent.sets hs, h.aged.only.trans hs.only, hnow ▸ h.aged,
      (h.aged.apart hne).trans (hs.apart (pgnum_pageVa h.bound) hf hshow),
      ⟨fun hin _ => ⟨hbits.mpr ?_, fun _ => ?_⟩, fun hd g hg => ?_⟩, fun _ => hm, hmarked,
      hscratch (hs.tempAged hfaults fun hx => hne hx.1)⟩
    · exact Shows_unique (hin f hf') hshow (childPerm_low _) hlow
    · by_contra hx
      rw [not_or, not_not, not_not, hnow] at hx
      exact hmem ⟨(freeList_none hL).mp hx.1, hx.2⟩
    · obtain rfl := Option.some.inj (hf'.symm.trans hg)
      rw [hbits.mp (hd hm).1]
      exact hshow

/-- The two calls for a page that is shared copy-on-write. -/
theorem cow_ok {w : Point → List (Word × Byte)} {m m1 m2 : User} {r1 r2 : Word}
    (h : Moment c cur child d d' envid u m x) (hclass : droppedPerm x.pte = none)
    (hcall1 : pageMap c (pageVa x.pn) envid (pageVa x.pn) cowPerm m = .ok (.ok r1) m1)
    (hown : stores c cur (w (.own x.pn)) m1 = .ok () m2)
    (hcall2 : pageMap c (pageVa x.pn) 0 (pageVa x.pn) cowPerm m2 = .ok (.ok r2) v)
    (hfit : Fits cur v.calls) : Dupped c cur child d u v x := by
  obtain ⟨hrun1, hgo1, hat⟩ := pageMap_ok hcall1
  obtain ⟨hgo2, hage2⟩ := stores_ok (d := d) hown
  obtain ⟨hrun2, hgo3, -⟩ := pageMap_ok hcall2
  have hfaults1 := pageMap_faults hcall1
  have hfaults3 := pageMap_faults hcall2
  have hnow := h.now
  have hne := h.forked.ne
  obtain ⟨L, hL⟩ := h.parent.page
  rcases sysPageMap_sets hL h.parent.running (lookupEnv_self ..) h.forked.look h.parent.dir.1
    h.forked.dir hrun1 with ⟨_, hno, -⟩ | ⟨f, -, -, hf, hshow, hset, -⟩
  · cases hno
  have hs1 := hset (Or.inl (hfit _ ((hgo2.trans hgo3).calls hat) f hf))
  obtain ⟨hp2, h12, htemp⟩ := hage2 (hfit.of_goes hgo3) (h.parent.sets hs1)
  obtain ⟨L2, hL2⟩ := hp2.page
  rcases sysPageMap_sets hL2 hp2.running (lookupEnv_self ..) (lookupEnv_self ..) hp2.dir.1
    hp2.dir.1 hrun2 with ⟨_, hno, -⟩ | ⟨g, -, -, hg, hshow', hset', -⟩
  · cases hno
  have hs2 := hset' (Or.inr hg)
  have hf' : mappedAt x.moment cur (pageVa x.pn) = some f := by rw [hnow]; exact hf
  have hpage := pgnum_pageVa h.bound
  have hkeeps : Dupable cur child x := by
    obtain ⟨hshare, hcow⟩ := droppedPerm_none hclass
    refine fun _ => ⟨fun hx => absurd hshare hx, fun hx => ?_⟩
    rcases hx with hx | ⟨h1, h2⟩
    · exact absurd hshare hx
    · exact absurd hcow (by rw [not_or, not_not, not_not]; exact ⟨h1, h2⟩)
  have hperm : childPerm (pteOf x.moment cur (pageVa x.pn)) = cowPerm := by
    rcases h.entry (by rw [hf]; simp) with he | ⟨-, k, hk⟩
    · rw [hnow, he]
      exact childPerm_of_none hclass
    · rw [hnow]
      exact hk.childPerm
  have hinh : Inherited v.kern cur child x := by
    intro k hk
    obtain rfl := Option.some.inj (hf'.symm.trans hk)
    rw [hperm]
    exact shows_of_pteOf ((hs2.other hne _ _).trans (h12.other child hne _ _)) hshow
  have hap := ((h.aged.apart hne).trans (hs1.apart hpage hf hshow)).trans (h12.apart hne)
  refine ⟨hp2.sets hs2, ((h.aged.only.trans hs1.only).trans h12.only).trans hs2.only,
    hnow ▸ h.aged, hap.trans (hs2.apart hpage hg hshow'), iff_of_true hinh hkeeps,
    fun _ => by rw [hf']; simp, fun _ _ _ => Or.inl ⟨g, hshow'⟩, fun s0 hs hlt hu => ?_⟩
  obtain ⟨hm, -⟩ := h.scratch s0 hs hlt hu
  have hsc2 := (hm.goes hgo1 (hs1.tempAged hfaults1 fun hx => hne hx.1)).goes hgo2 htemp
  have hnoted : x ∈ v.dups := by
    rw [hgo3.dups, hgo2.dups, hgo1.dups]
    exact h.noted
  by_cases hx : x.pn = pgnum pftemp
  swap
  · exact (hsc2.goes hgo3 (hs2.tempAged hfaults3 fun hy => hx (hpage.symm.trans hy.2))).turn
      (fun hy => absurd hy hx) fun hy => absurd hy hx
  -- the scratch page itself: it could not be mapped again after a page fault
  rw [hx, pageVa_pftemp] at hg hshow'
  have hq : m2.faults = [] := by
    by_contra hq
    rw [hsc2.gone hq] at hg
    cases hg
  have hdups : v.dups = m2.dups := hgo3.dups
  rw [← hfaults3] at hq
  refine ⟨fun hv => absurd hq hv, fun _ hn => absurd hn (by omega), ?_, fun y hy hpn => ?_,
    fun _ _ _ => ⟨x, hnoted, hx⟩, fun _ _ _ _ => ⟨g, hshow'⟩⟩
  · simp [hq]
  · have hread := hsc2.read y (hdups ▸ hy) hpn
    rw [← hfaults3] at hread
    exact hread

theorem duppage_ok (child : EnvIdx) (d d' : Nat) {w : Point → List (Word × Byte)}
    (h : duppage c cur w envid pn u = .ok () v)
    (hpn : pn < pgnum ustacktop) :
    ∃ x : Dup, x.pn = pn ∧ u.calls ⊆ v.calls ∧ v.dups = u.dups ++ [x] ∧
      (Fits cur v.calls → Parent c cur d u.kern → Child cur child d' envid u.kern →
        mappedAt u.kern child (pageVa pn) = none → Dupped c cur child d u v x) := by
  obtain ⟨a, m, x, henter, hdup, hx, hbranch⟩ := duppage_cases h
  have hpage : x.pn = pn := by rw [hx]
  have hgo := (stores_ok (d := d) henter).1.trans (stores_ok (d := d) hdup).1
  rcases hbranch with ⟨perm, r, hperm, hcall⟩ | ⟨hclass, m1, m2, r1, r2, hcall1, hown, hcall2⟩
  · have hgo' := (pageMap_ok hcall).2.1
    refine ⟨x, hpage, List.Subset.trans hgo.calls hgo'.calls, hgo'.dups.trans (by
      show m.dups ++ [x] = _
      rw [hgo.dups]), fun hfit hp hc hempty => ?_⟩
    have hmoment := moment_ok henter hdup hx hpn (fun k hk => hfit k (hgo'.calls hk)) hp hc hempty
    rw [← hpage] at hcall
    exact dropped_ok hmoment hperm hcall hfit
  · have hgo' := ((pageMap_ok hcall1).2.1.trans (stores_ok (d := d) hown).1).trans
      (pageMap_ok hcall2).2.1
    refine ⟨x, hpage, List.Subset.trans hgo.calls hgo'.calls, hgo'.dups.trans (by
      show m.dups ++ [x] = _
      rw [hgo.dups]), fun hfit hp hc hempty => ?_⟩
    have hmoment := moment_ok henter hdup hx hpn (fun k hk => hfit k (hgo'.calls hk)) hp hc hempty
    rw [← hpage] at hcall1 hown hcall2
    exact cow_ok hmoment hclass hcall1 hown hcall2 hfit

end

/-! ### The loop of `fork` -/

/-- The parent's entry for `b` in `t` is that in `s`, or it was copy-on-write and has become a
    private copy. -/
def SameOrOwn (s t : KState) (cur : EnvIdx) (b : Word) : Prop :=
  pteOf t cur b = pteOf s cur b ∨ (pteOf s cur b &&& pteCow ≠ 0 ∧ ∃ f, Own t cur b f)

/-- The first `n` pages are done; `s0` is the state when `fork` was called. -/
structure Scanned (c : CpuIdx) (cur child : EnvIdx) (d d' : Nat) (envid : Word) (s0 : KState)
    (n : Nat) (s : KState) (dups : List Dup) : Prop where
  parent : Parent c cur d s
  forked : Child cur child d' envid s
  numbers : ∀ x ∈ dups, x.pn < n
  inherited : ∀ x ∈ dups, Inherited s cur child x ↔ Dupable cur child x
  marked : ∀ x ∈ dups, x.pn ≠ pgnum pftemp → Dupable cur child x → Marked s cur x
  only : ∀ b, mappedAt s child b ≠ none →
    ∃ x ∈ dups, x.pn = pgnum b ∧ mappedAt x.moment cur b ≠ none
  later : ∀ b, b < utop → n ≤ pgnum b → pgnum b < pgnum ustacktop → pgnum b ≠ pgnum pftemp →
    SameOrOwn s0 s cur b
  all : ∀ b, pgnum b < n → pgnum b ≠ pgnum pftemp → UserPage (pteOf s0 cur b) →
    ∃ x ∈ dups, x.pn = pgnum b ∧ SameOrOwn s0 x.moment cur b

section

variable {c : CpuIdx} {cur child : EnvIdx} {d d' : Nat} {u v : User} {s t s0 : KState}
  {envid : Word} {n : Nat} {dups new : List Dup} {x : Dup}

theorem UserPage.mapped {e : EnvIdx} {b : Word} (h : UserPage (pteOf s e b)) :
    mappedAt s e b ≠ none := fun hx => h.1 (entryFrame_eq_none.mp hx)

theorem Own.userPage {b : Word} {f : Nat} (h : Own s cur b f) : UserPage (pteOf s cur b) := by
  have h1 := flags_of_shows (m := pteP) h.shows (by decide)
  have h2 := flags_of_shows (m := pteU) h.shows (by decide)
  exact ⟨by rw [h1]; decide, by rw [h2]; decide⟩

theorem SameOrOwn.userPage {b : Word} (h : SameOrOwn s t cur b) (hu : UserPage (pteOf s cur b)) :
    UserPage (pteOf t cur b) := by
  rcases h with h | ⟨-, f, hf⟩
  · rw [h]
    exact hu
  · exact hf.userPage

theorem SameOrOwn.apart {r : KState} {b : Word} (h : SameOrOwn s t cur b)
    (hap : Apart t r cur child n) (hb : b < utop) (hn : pgnum b ≠ n)
    (htemp : pgnum b ≠ pgnum pftemp) : SameOrOwn s r cur b := by
  rcases h with h | ⟨hcow, f, hf⟩
  · rcases hap.mine b hb hn htemp with h1 | h1
    · exact Or.inl (h1.trans h)
    · rw [h] at h1
      exact Or.inr h1
  · exact Or.inr ⟨hcow, f, hap.own b hb hn htemp f hf⟩

theorem SameOrOwn.aged {r : KState} {b : Word} (h : SameOrOwn s t cur b) (hst : Aged t r cur)
    (hb : b < utop) (htemp : pgnum b ≠ pgnum pftemp) : SameOrOwn s r cur b := by
  rcases h with h | ⟨hcow, f, hf⟩
  · rcases hst.mine b hb htemp with h1 | h1
    · exact Or.inl (h1.trans h)
    · rw [h] at h1
      exact Or.inr h1
  · exact Or.inr ⟨hcow, f, hf.keeps hst hb htemp⟩

theorem Inherited.congr (h : pteOf t child (pageVa x.pn) = pteOf s child (pageVa x.pn)) :
    Inherited t cur child x ↔ Inherited s cur child x :=
  ⟨fun hi f hf => shows_of_pteOf h.symm (hi f hf), fun hi f hf => shows_of_pteOf h (hi f hf)⟩

theorem Marked.apart (h : Marked s cur x) (hap : Apart s t cur child n) (hx : x.pn ≠ n)
    (hlt : x.pn < pgnum ustacktop) (htemp : x.pn ≠ pgnum pftemp) : Marked t cur x := by
  intro hcow hm
  have hpage := pgnum_pageVa hlt
  have hva := pageVa_lt hlt
  rcases h hcow hm with ⟨f, hf⟩ | ⟨f, hf⟩
  · rcases hap.mine _ hva (by rw [hpage]; exact hx) (by rw [hpage]; exact htemp) with h1 | ⟨-, h1⟩
    · exact Or.inl ⟨f, shows_of_pteOf h1 hf⟩
    · exact Or.inr h1
  · exact Or.inr ⟨f, hap.own _ hva (by rw [hpage]; exact hx) (by rw [hpage]; exact htemp) f hf⟩

/-- One turn of the loop, with or without a page for the child. -/
theorem Scanned.next (h : Scanned c cur child d d' envid s0 n s dups) (hn : n < pgnum ustacktop)
    (hp : Parent c cur d t) (ho : PmOnly s t) (hap : Apart s t cur child n)
    (hnew : ∀ x ∈ new, x.pn = n ∧ (Inherited t cur child x ↔ Dupable cur child x) ∧
      (Dupable cur child x → Marked t cur x))
    (honly : mappedAt t child (pageVa n) ≠ none →
      ∃ x ∈ new, mappedAt x.moment cur (pageVa n) ≠ none)
    (hall : n ≠ pgnum pftemp → UserPage (pteOf s0 cur (pageVa n)) →
      ∃ x ∈ new, SameOrOwn s0 x.moment cur (pageVa n)) :
    Scanned c cur child d d' envid s0 (n + 1) t (dups ++ new) := by
  have hpage := pgnum_pageVa hn
  refine ⟨hp, h.forked.of_only ho, fun x hx => ?_, fun x hx => ?_, fun x hx => ?_,
    fun b hb => ?_, fun b hb hle hst htemp => ?_, fun b hb htemp hu => ?_⟩
  · rcases List.mem_append.mp hx with hx | hx
    · exact Nat.lt_succ_of_lt (h.numbers x hx)
    · rw [(hnew x hx).1]
      exact Nat.lt_succ_self n
  · rcases List.mem_append.mp hx with hx | hx
    · have hlt := h.numbers x hx
      have hpx : pgnum (pageVa x.pn) = x.pn := pgnum_pageVa (by omega)
      rw [Inherited.congr (hap.child _ (by rw [hpx]; omega))]
      exact h.inherited x hx
    · exact (hnew x hx).2.1
  · rcases List.mem_append.mp hx with hx | hx
    · have hlt := h.numbers x hx
      exact fun htemp hd => (h.marked x hx htemp hd).apart hap (by omega) (by omega) htemp
    · exact fun _ => (hnew x hx).2.2
  · by_cases hbn : pgnum b = n
    · have hb' : pgnum b = pgnum (pageVa n) := hbn.trans hpage.symm
      rw [mappedAt_page hb'] at hb
      obtain ⟨x, hx, hm⟩ := honly hb
      exact ⟨x, List.mem_append_right _ hx, (hnew x hx).1.trans hbn.symm, by
        rw [mappedAt_page hb']; exact hm⟩
    · rw [mappedAt_of_pteOf (hap.child b hbn)] at hb
      obtain ⟨x, hx, hm⟩ := h.only b hb
      exact ⟨x, List.mem_append_left _ hx, hm⟩
  · exact (h.later b hb (by omega) hst htemp).apart hap hb (by omega) htemp
  · by_cases hbn : pgnum b = n
    · have hb' : pgnum b = pgnum (pageVa n) := hbn.trans hpage.symm
      rw [pteOf_page hb'] at hu
      obtain ⟨x, hx, hs⟩ := hall (by rw [← hbn]; exact htemp) hu
      refine ⟨x, List.mem_append_right _ hx, (hnew x hx).1.trans hbn.symm, ?_⟩
      rcases hs with hs | ⟨hcow, f, hf⟩
      · exact Or.inl (by rw [pteOf_page hb', pteOf_page hb']; exact hs)
      · exact Or.inr ⟨by rw [pteOf_page hb']; exact hcow, f, hf.page hb'⟩
    · obtain ⟨x, hx, hs⟩ := h.all b (by omega) htemp hu
      exact ⟨x, List.mem_append_left _ hx, hs⟩

/-- A mapped page has a page table. -/
theorem pde_of_pte {e : EnvIdx} {b : Word} (h : pteOf s e b &&& pteP ≠ 0) :
    pdeAt s (some e) (pdx b) &&& pteP ≠ 0 := by
  intro hp
  refine h ?_
  have htab : tabFrame s (some e) (pdx b) = none := by
    unfold tabFrame
    rw [entryFrame_eq_none.mpr hp, ite_self]
  rw [pteOf, pteAt_of_no_tab htab]
  exact BitVec.zero_and

theorem Scanned.empty (h : Scanned c cur child d d' envid s0 n s dups) (hn : n < pgnum ustacktop) :
    mappedAt s child (pageVa n) = none := by
  by_contra hm
  obtain ⟨x, hx, hpn, -⟩ := h.only _ hm
  have hlt := h.numbers x hx
  rw [pgnum_pageVa hn] at hpn
  omega

/-- The loop reads the entry of the scratch page as it was. -/
theorem Scratch.userPage (h : Scratch cur s0 n u) (hn : n = pgnum pftemp)
    (hu : UserPage (pteOf u.kern cur (pageVa n))) : UserPage (pteOf s0 cur pftemp) := by
  rw [hn, pageVa_pftemp] at hu
  have hq : u.faults = [] := by
    by_contra hq
    exact hu.mapped (h.gone hq)
  rw [← h.kept hq hn.le]
  exact hu

/-- A turn without a page for the child. -/
theorem Scratch.skip (h : Scratch cur s0 n u) (hlt : ∀ y ∈ u.dups, y.pn < n)
    (hu : ¬ UserPage (pteOf u.kern cur (pageVa n))) : Scratch cur s0 (n + 1) u := by
  have hkept : n = pgnum pftemp → u.faults = [] → ¬ UserPage (pteOf s0 cur pftemp) := by
    intro hn hq
    rw [hn, pageVa_pftemp, h.kept hq hn.le] at hu
    exact hu
  refine h.turn (fun hn hs0 hall => ?_) fun hn hq hs0 => absurd hs0 (hkept hn hq)
  by_cases hq : u.faults = []
  · exact absurd hs0 (hkept hn hq)
  · -- a page fault before, and it was before the turn of this page
    obtain ⟨done, hd⟩ := List.exists_mem_of_ne_nil _ hq
    obtain ⟨x, hx, hpn⟩ := hall done hd
    exact absurd (hlt x (h.within done hd hx)) (by omega)

theorem scan_ok (child : EnvIdx) (d d' : Nat) (s0 : KState) {w : Point → List (Word × Byte)} :
    ∀ {n : Nat} {v : User}, n ≤ pgnum ustacktop →
    scan c cur w envid n u = .ok () v → u.calls ⊆ v.calls ∧
      (Fits cur v.calls → Scanned c cur child d d' envid s0 0 u.kern u.dups → Scratch cur s0 0 u →
        Scanned c cur child d d' envid s0 n v.kern v.dups ∧ Scratch cur s0 n v)
  | 0, _, _, h => by
    cases h
    exact ⟨List.Subset.refl _, fun _ hs hs' => ⟨hs, hs'⟩⟩
  | n + 1, v, hn, h => by
    obtain ⟨_, a, hscan, h⟩ := bind_eq_ok h
    obtain ⟨_, b, hstores, h⟩ := bind_eq_ok h
    obtain ⟨_, _, h0, h⟩ := bind_eq_ok h
    cases h0
    obtain ⟨_, _, h0, h⟩ := bind_eq_ok h
    cases h0
    obtain ⟨_, _, h0, h⟩ := bind_eq_ok h
    cases h0
    obtain ⟨hsub, hprev⟩ := scan_ok child d d' s0 (Nat.le_of_succ_le hn) hscan
    obtain ⟨hgo, hage⟩ := stores_ok (d := d) hstores
    have hlt : n < pgnum ustacktop := hn
    have hpage := pgnum_pageVa hlt
    have hva := pageVa_lt hlt
    have hmid : Fits cur b.calls → Scanned c cur child d d' envid s0 0 u.kern u.dups →
        Scratch cur s0 0 u → Scanned c cur child d d' envid s0 n a.kern b.dups ∧
          Parent c cur d b.kern ∧ Aged a.kern b.kern cur ∧ Scratch cur s0 n b ∧
          mappedAt b.kern child (pageVa n) = none ∧
          (n ≠ pgnum pftemp → SameOrOwn s0 b.kern cur (pageVa n)) := by
      intro hfit hs hs'
      obtain ⟨ha, hsa⟩ := hprev (hfit.of_goes hgo) hs hs'
      obtain ⟨hpb, hab, htb⟩ := hage hfit ha.parent
      refine ⟨by rw [hgo.dups]; exact ha, hpb, hab, hsa.goes hgo htb, (congrArg entryFrame
        (hab.other child ha.forked.ne _ _)).trans (ha.empty hlt), fun htemp => ?_⟩
      have htemp' : pgnum (pageVa n) ≠ pgnum pftemp := by rw [hpage]; exact htemp
      exact (ha.later _ hva hpage.ge (by rw [hpage]; exact hlt) htemp').aged hab hva htemp'
    by_cases hcheck : pdeAt b.kern (some cur) (pdx (pageVa n)) &&& pteP ≠ 0 ∧
        pteOf b.kern cur (pageVa n) &&& pteP ≠ 0 ∧ pteOf b.kern cur (pageVa n) &&& pteU ≠ 0
    · rw [if_pos hcheck] at h
      obtain ⟨x, hpn, hsub', hdups, hdup⟩ := duppage_ok child d d' h hlt
      refine ⟨List.Subset.trans hsub (List.Subset.trans hgo.calls hsub'), fun hfit hs hs' => ?_⟩
      obtain ⟨ha, hpb, hab, hsb, hempty, hsame⟩ := hmid (fun k hk => hfit k (hsub' hk)) hs hs'
      have hx := hdup hfit hpb (ha.forked.of_only hab.only) hempty
      have hap := hx.apart
      have honly := hx.only
      rw [hpn] at hap honly
      refine ⟨?_, hpn ▸ hx.scratch s0 (hpn ▸ hsb) (hpn ▸ ha.numbers) fun htemp =>
        hsb.userPage (hpn ▸ htemp) hcheck.2⟩
      rw [hdups]
      refine ha.next hlt hx.parent (hab.only.trans hx.pm)
        ((hab.apart ha.forked.ne).trans hap) (fun y hy => ?_)
        (fun hm => ⟨x, List.mem_singleton_self x, honly hm⟩) fun htemp _ =>
        ⟨x, List.mem_singleton_self x,
          (hsame htemp).aged hx.before hva (by rw [hpage]; exact htemp)⟩
      obtain rfl := List.mem_singleton.mp hy
      exact ⟨hpn, hx.inherited, hx.marked⟩
    · rw [if_neg hcheck] at h
      cases h
      refine ⟨List.Subset.trans hsub hgo.calls, fun hfit hs hs' => ?_⟩
      obtain ⟨ha, hpb, hab, hsb, hempty, hsame⟩ := hmid hfit hs hs'
      -- a page that is still as it was has been passed over only if user code cannot read it
      have hread : UserPage (pteOf v.kern cur (pageVa n)) → False := fun hu =>
        hcheck ⟨pde_of_pte hu.1, hu⟩
      refine ⟨?_, hsb.skip ha.numbers hread⟩
      rw [← List.append_nil v.dups]
      exact ha.next hlt hpb hab.only (hab.apart ha.forked.ne)
        (fun y hy => absurd hy List.not_mem_nil) (fun hm => absurd hempty hm)
        fun htemp hu => absurd ((hsame htemp).userPage hu) hread

end

end Fork

end Jos
