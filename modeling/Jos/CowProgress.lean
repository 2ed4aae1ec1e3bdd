import Mathlib.Order.Interval.Finset.Nat
import Jos.CowRun

/-!
  `fork` and `pgfault` come to an end, when a CPU is left to them and there is memory.

  Every system call of theirs returns (`Sound.returns`), so that a thread always has a next step; the
  loops of `fork` and of the copy in `pgfault` are followed by induction. -/

namespace Jos

open Lib Lib.Cow

namespace CowFork

variable {upcall : Word} {S T : Sys} {G G' : Loans} {I : Memory} {c : CpuIdx} {e : EnvIdx}
  {s t u : KState} {L L' : List Nat} {k n : Nat} {q : Request} {r : Except Err Word}

/-! ### Free pages -/

theorem tablesMissing_le (s : KState) (x : EnvIdx) (va : Word) : tablesMissing s x va ≤ 1 := by
  unfold tablesMissing
  split
  · exact Nat.le_refl 1
  · exact Nat.zero_le 1

theorem PagesFree.mono {m : Nat} (h : PagesFree s m) (hn : n ≤ m) : PagesFree s n :=
  h.imp fun _ hL => ⟨hL.1, Nat.le_trans hn hL.2⟩

/-- From `s` to `t` at most `k` free pages were used up. -/
def Costs (k : Nat) (s t : KState) : Prop := ∀ n, PagesFree s (n + k) → PagesFree t n

theorem Costs.of_page (h : PageInv s L ∅) (h' : PageInv t L' ∅) (hlen : L.length ≤ L'.length + k) :
    Costs k s t := by
  intro n hn
  have := hn.length h
  exact ⟨L', h'.chain, by omega⟩

theorem Costs.of_eq (hp : t.pages = s.pages) (hf : t.pageFreeList = s.pageFreeList) : Costs k s t := by
  rintro n ⟨L, hL, hn⟩
  exact ⟨L, by rw [hp, hf]; exact hL, by omega⟩

theorem Costs.refl (s : KState) : Costs k s s := .of_eq rfl rfl

/-- What a system call uses up at most. -/
def Request.cost : Request → Nat
  | .map _ _ _ _ => 1
  | .alloc _ _ _ => 2
  | .exofork => 1
  | _ => 0

/-! ### Every call returns -/

/-- What a call leaves behind: the CPUs run what they ran, at most `k` pages were used up, and what
    could run can run, with environments in `P` at most besides. -/
structure Leaves (k : Nat) (P : EnvIdx → Prop) (s t : KState) : Prop where
  cpus : t.cpus = s.cpus
  cost : Costs k s t
  runnable : ∀ y, (t.envs y).envStatus = .runnable → (s.envs y).envStatus = .runnable ∨ P y
  kept : ∀ y, (s.envs y).envStatus = .runnable → (t.envs y).envStatus = .runnable

theorem Leaves.refl {P : EnvIdx → Prop} (s : KState) : CowFork.Leaves k P s s :=
  ⟨rfl, .refl s, fun _ => Or.inl, fun _ hy => hy⟩

theorem Leaves.of_pm {P : EnvIdx → Prop} (h : PmOnly s t) (hc : Costs k s t) :
    CowFork.Leaves k P s t :=
  ⟨h.cpus, hc, fun _ hy => Or.inl (h.envs ▸ hy), fun _ hy => h.envs ▸ hy⟩

theorem Leaves.of_setEnv {P : EnvIdx → Prop} {x : EnvIdx} {v : Env}
    (hv : v.envStatus = .runnable → (s.envs x).envStatus = .runnable ∨ P x)
    (hk : (s.envs x).envStatus = .runnable → v.envStatus = .runnable) :
    CowFork.Leaves k P s (s.setEnv x v) := by
  refine ⟨rfl, .of_eq rfl rfl, fun y hy => ?_, fun y hy => ?_⟩
  · rcases eq_or_ne y x with rfl | hne
    · simp only [KState.setEnv, Function.update_self] at hy
      exact hv hy
    · rw [setEnv_envs_of_ne hne] at hy
      exact Or.inl hy
  · rcases eq_or_ne y x with rfl | hne
    · simp only [KState.setEnv, Function.update_self]
      exact hk hy
    · rw [setEnv_envs_of_ne hne]
      exact hy

/-- The environment that a call makes runnable. -/
def Request.Wakes (s : KState) (e : EnvIdx) (q : Request) (y : EnvIdx) : Prop :=
  ∃ envid, q = .setRunnable envid ∧ lookupEnv s e envid true = some y

theorem Sound.live (h : Sound True s) (hc : OnCpu s c e) {envid : Word} {x : EnvIdx}
    (hl : lookupEnv s e envid true = some x) : ∃ d, (s.envs x).envPgdir = some d :=
  h.inv.core.dir_of_live (lookupEnv_live (by rw [h.running hc]; simp) hl)

section

variable {P : EnvIdx → Prop}

theorem Sound.map_returns (h : Sound True s) (hc : OnCpu s c e) (srcva envid dstva perm : Word) :
    ∃ r t, sysPageMap c 0 srcva envid dstva perm s = .ok r t ∧ CowFork.Leaves 1 P s t := by
  obtain ⟨L, hL⟩ := h.page
  have hd := h.dir hc
  have hself : lookupEnv s e 0 true = some e := Fork.lookupEnv_self ..
  cases hl : lookupEnv s e envid true with
  | none =>
    refine ⟨.error .badEnv, s, ?_, .refl s⟩
    simp only [sysPageMap, run_bind, envid2env_run hc.current, hself, hl, run_pure]
  | some x =>
    obtain ⟨d', hd'⟩ := h.live hc hl
    by_cases hmay : MayMap s e srcva dstva perm
    swap
    · exact ⟨_, s, sysPageMap_inval hL hc.current hself hl hd hmay, .refl s⟩
    rcases sysPageMap_run hL hc.current hself hl hd hd' hmay with ⟨-, hr⟩ | ⟨-, f, t, hr, hf, hmap⟩
    · exact ⟨_, s, hr, .refl s⟩
    · have hent : entryFrame (page2pa f ||| perm ||| pteP) = some f :=
        entryFrame_insert (by have := (hL.lt_window (insertable hL hf).1).2; omega)
          (perm_of_permOk hmay.bits)
      obtain ⟨L', hL', hlen⟩ := hmap.inv hent (Or.inl (h.room trivial hf))
      rw [Finset.erase_empty] at hL'
      exact ⟨_, t, hr, .of_pm hmap.edit.only (.of_page hL hL' (hlen L hL))⟩

theorem Sound.alloc_returns (h : Sound True s) (hc : OnCpu s c e) {envid va perm : Word}
    (haff : (Request.alloc envid va perm).Affordable s e) :
    ∃ r t, sysPageAlloc c envid va perm s = .ok r t ∧ CowFork.Leaves 2 P s t := by
  obtain ⟨L, hL⟩ := h.page
  cases hl : lookupEnv s e envid true with
  | none =>
    refine ⟨.error .badEnv, s, ?_, .refl s⟩
    simp only [sysPageAlloc, run_bind, envid2env_run hc.current, hl, run_pure]
  | some x =>
    obtain ⟨d, hd⟩ := h.live hc hl
    have hlen := (haff x hl).length hL
    by_cases hva : vaOk va = true
    swap
    · refine ⟨.error .inval, s, ?_, .refl s⟩
      rw [Bool.not_eq_true] at hva
      simp only [sysPageAlloc, run_bind, envid2env_run hc.current, hl, if_pos hva, run_pure]
    by_cases hperm : permOk perm = true
    swap
    · refine ⟨.error .inval, s, ?_, .refl s⟩
      rw [Bool.not_eq_true] at hperm
      simp only [sysPageAlloc, run_bind, envid2env_run hc.current, hl, hva, Bool.true_eq_false, if_false,
        if_pos hperm, run_pure]
    rcases sysPageAlloc_run hL hc.current hl hd hva hperm with
      ⟨hnil, -⟩ | ⟨u, -, hlt, -⟩ | ⟨f, m, u, L', -, hr, rfl, hm, hmap⟩
    · rw [hnil] at hlen
      exact absurd hlen (by simp)
    · exact absurd hlen (by omega)
    · have hent : entryFrame (page2pa f ||| perm ||| pteP) = some f :=
        entryFrame_insert (by have := (hm.inv.lt_window hm.managed).2; omega) (perm_of_permOk hperm)
      obtain ⟨L2, hL2, hlen2⟩ := hmap.inv hent (Or.inl (by rw [hm.unused]; decide))
      rw [Finset.erase_singleton] at hL2
      refine ⟨_, u, hr, .of_pm (hm.only.trans hmap.edit.only) (.of_page hL hL2 ?_)⟩
      have := hlen2 L' hm.inv
      rw [List.length_cons]
      omega

theorem Sound.unmap_returns (h : Sound True s) (hc : OnCpu s c e) (va : Word) :
    ∃ r t, sysPageUnmap c 0 va s = .ok r t ∧ CowFork.Leaves 0 P s t := by
  obtain ⟨L, hL⟩ := h.page
  have hd := h.dir hc
  have hself : lookupEnv s e 0 true = some e := Fork.lookupEnv_self ..
  by_cases hva : vaOk va = false
  · refine ⟨.error .inval, s, ?_, .refl s⟩
    simp only [sysPageUnmap, run_bind, envid2env_run hc.current, hself, if_pos hva, run_pure]
  have hpg : getPgdir e s = .ok (s.cr3 c) s := getPgdir_run hd
  rcases pageRemove_spec c hL hd (pdx_of_vaOk (by simpa using hva)) with ⟨-, hr⟩ | ⟨f, u, -, hr, hun⟩
  · refine ⟨.ok 0, s, ?_, .refl s⟩
    simp only [sysPageUnmap, run_bind, envid2env_run hc.current, hself, if_neg hva, hpg, hr, run_pure]
  · refine ⟨.ok 0, u, ?_, .of_pm hun.edit.only (.of_page hL hun.inv ?_)⟩
    · simp only [sysPageUnmap, run_bind, envid2env_run hc.current, hself, if_neg hva, hpg, hr, run_pure]
    · split
      · rw [List.length_cons]
        omega
      · omega

theorem Sound.exofork_returns (h : Sound True s) (hc : OnCpu s c e) :
    ∃ r t, sysExofork c s = .ok r t ∧ CowFork.Leaves 1 P s t := by
  rcases (h.inv.mid c).envAlloc (s.envs e).envId with
    ⟨-, err, hr⟩ | ⟨x, p, t, hr, -, hcr, hbefore, L, hL, hL'⟩
  · refine ⟨.error err, s, ?_, .refl s⟩
    simp only [sysExofork, run_bind, getCurenv_run hc.current, run_get, hr, run_pure]
  · have hlen : Costs 1 s t := .of_page hL hL' (by rw [List.length_cons])
    set v : Env := { t.envs x with
      envStatus := .notRunnable, envTf := (t.envs e).envTf.withEax 0 } with hv
    refine ⟨.ok ((t.setEnv x v).envs x).envId, t.setEnv x v, ?_, hcr.cpus, fun n hn => hlen n hn,
      fun y hy => Or.inl ?_, fun y hy => ?_⟩
    · simp only [sysExofork, run_bind, getCurenv_run hc.current, run_get, hr, run_modify, run_pure, hv]
    · rcases eq_or_ne y x with rfl | hne
      · simp only [KState.setEnv, Function.update_self, hv] at hy
        cases hy
      · rwa [setEnv_envs_of_ne hne, hcr.envs, Function.update_of_ne hne] at hy
    · have hne : y ≠ x := by
        rintro rfl
        rw [hbefore] at hy
        cases hy
      rwa [setEnv_envs_of_ne hne, hcr.envs, Function.update_of_ne hne]

theorem setUpcall_returns (hc : OnCpu s c e) (envid : Word) :
    ∃ r t, sysEnvSetPgfaultUpcall c envid upcall s = .ok r t ∧ CowFork.Leaves 0 P s t := by
  cases hl : lookupEnv s e envid true with
  | none =>
    refine ⟨.error .badEnv, s, ?_, .refl s⟩
    simp only [sysEnvSetPgfaultUpcall, run_bind, envid2env_run hc.current, hl, run_pure]
  | some x =>
    refine ⟨.ok 0, s.setEnv x { s.envs x with envPgfaultUpcall := upcall }, ?_, .of_setEnv Or.inl id⟩
    simp only [sysEnvSetPgfaultUpcall, run_bind, envid2env_run hc.current, hl, run_modify, run_pure]

theorem setRunnable_returns (hc : OnCpu s c e) (envid : Word) :
    ∃ r t, sysEnvSetStatus c envid 2 s = .ok r t ∧
      CowFork.Leaves 0 ((Request.setRunnable envid).Wakes s e) s t := by
  have h2 : statusOfWord 2 = some .runnable := by decide
  cases hl : lookupEnv s e envid true with
  | none =>
    refine ⟨.error .badEnv, s, ?_, .refl s⟩
    simp only [sysEnvSetStatus, h2, run_bind, envid2env_run hc.current, hl, run_pure]
  | some x =>
    refine ⟨.ok 0, s.setEnv x { s.envs x with envStatus := .runnable }, ?_,
      .of_setEnv (fun _ => Or.inr ⟨envid, rfl, hl⟩) fun _ => rfl⟩
    simp only [sysEnvSetStatus, h2, run_bind, envid2env_run hc.current, hl, run_modify, run_pure]

end

/-- Every call returns. -/
theorem Sound.returns (h : Sound True s) (upcall : Word) (hc : OnCpu s c e) (haff : q.Affordable s e) :
    ∃ r t, perform upcall c q s = .ok r t ∧ CowFork.Leaves q.cost (q.Wakes s e) s t := by
  have hcall : ∃ r t, q.call upcall c s = .ok r t ∧ CowFork.Leaves q.cost (q.Wakes s e) s t := by
    cases q with
    | map srcva envid dstva perm => exact h.map_returns hc ..
    | alloc envid va perm => exact h.alloc_returns hc haff
    | unmap va => exact h.unmap_returns hc va
    | exofork => exact h.exofork_returns hc
    | setUpcall envid => exact setUpcall_returns hc envid
    | setRunnable envid => exact setRunnable_returns hc envid
  obtain ⟨r, t, hr, hl⟩ := hcall
  refine ⟨r, reload c t, ?_, hl.cpus, fun n hn => hl.cost n hn, hl.runnable, hl.kept⟩
  simp only [perform, run_bind, hr, run_modify, run_pure]

/-! ### One step after the other -/

/-- CPU `c` is left to `e`, which gets from `S` to `T`, uses up at most `k` pages, and makes nobody
    but `P` runnable. -/
structure Goes (upcall : Word) (c : CpuIdx) (e : EnvIdx) (k : Nat) (P : EnvIdx → Prop) (S : Sys)
    (ls : List Label) (T : Sys) : Prop where
  run : Run (restrict Within (Step upcall)) S ls T
  alone : ∀ l ∈ ls, l.cpu = c ∧ l.act ≠ .yield
  cpus : T.kern.cpus = S.kern.cpus
  cost : Costs k S.kern T.kern
  runnable : ∀ y, (T.kern.envs y).envStatus = .runnable → (S.kern.envs y).envStatus = .runnable ∨ P y
  kept : ∀ y, (S.kern.envs y).envStatus = .runnable → (T.kern.envs y).envStatus = .runnable
  threads : ∀ y, y ≠ e → T.threads y = S.threads y

variable {j : Nat} {ls ls' : List Label} {U : Sys} {th : Thread} {o : Occurs} {envid : Word} {pn : Nat}
  {pl : Place} {a : Word} {P : EnvIdx → Prop}

theorem Goes.refl (S : Sys) : Goes upcall c e k P S [] S :=
  ⟨.nil S, fun _ hl => (by cases hl), rfl, .refl _, fun _ => Or.inl, fun _ hy => hy, fun _ _ => rfl⟩

theorem Goes.trans (h : Goes upcall c e k P S ls T) (h' : Goes upcall c e j P T ls' U) :
    Goes upcall c e (k + j) P S (ls ++ ls') U := by
  refine ⟨h.run.append h'.run, fun l hl => (List.mem_append.mp hl).elim (h.alone l) (h'.alone l),
    h'.cpus.trans h.cpus, fun n hn => h'.cost n (h.cost (n + j) ?_), fun y hy => ?_,
    fun y hy => h'.kept y (h.kept y hy), fun y hy => (h'.threads y hy).trans (h.threads y hy)⟩
  · rwa [Nat.add_assoc, Nat.add_comm j]
  · exact (h'.runnable y hy).elim (h.runnable y) Or.inr

theorem Goes.mono (h : Goes upcall c e k P S ls T) (hk : k ≤ j) : Goes upcall c e j P S ls T :=
  ⟨h.run, h.alone, h.cpus, fun n hn => h.cost n (hn.mono (by omega)), h.runnable, h.kept, h.threads⟩

theorem Goes.weaken {Q : EnvIdx → Prop} (h : Goes upcall c e k P S ls T) (hP : ∀ y, P y → Q y) :
    Goes upcall c e k Q S ls T :=
  ⟨h.run, h.alone, h.cpus, h.cost, fun y hy => (h.runnable y hy).imp_right (hP y), h.kept, h.threads⟩

/-- Only `sys_exofork` makes an environment. -/
theorem occurs_born {s : KState} {x : EnvIdx} (h : th.occurs s e r = .born x) :
    th = ⟨.exofork, none⟩ := by
  obtain ⟨pl, fl⟩ := th
  cases fl with
  | some fl =>
    cases r with
    | ok id => cases h
    | error err => cases h
  | none =>
    cases pl with
    | exofork => rfl
    | dup envid pn pte =>
      simp only [Thread.occurs, Place.occurs] at h
      split at h
      · cases h
      · split at h
        · cases r with
          | error err => cases h
          | ok id =>
            simp only at h
            split at h
            · cases h
            · cases h
        · cases h
    | own envid pn was =>
      cases r with
      | error err => cases h
      | ok id =>
        simp only [Thread.occurs, Place.occurs] at h
        split at h
        · cases h
        · cases h
    | _ =>
      cases r with
      | error err => cases h
      | ok id => cases h

theorem Sound.spares_go (h : Sound True S.kern) : Spares S ⟨c, .go, o⟩ :=
  ⟨fun _ _ _ ha => (by cases ha), fun _ q _ _ _ => h.counted trivial q⟩

/-- A system call of `fork` or `pgfault` returns, and its thread goes on. -/
theorem Good.call (h : Good True S G I) (upcall : Word) (P : EnvIdx → Prop) (hc : OnCpu S.kern c e)
    (hth : S.threads e = th)
    (hpl : th.place ≠ .panicked) (hq : th.request = some q) (haff : q.Affordable S.kern e)
    (hnb : th ≠ ⟨.exofork, none⟩)
    (hw : ∀ y, q.Wakes S.kern e y → P y) :
    ∃ r t G', perform upcall c q S.kern = .ok r t ∧ I.Allows (th.occurs S.kern e r) ∧
      Good True ⟨t, Function.update S.threads e (th.next (pteOf S.kern e (Fork.pageVa th.place.page)) r)⟩ G'
        (I.after (th.occurs S.kern e r)) ∧
      Goes upcall c e q.cost P S [⟨c, .go, th.occurs S.kern e r⟩]
        ⟨t, Function.update S.threads e
          (th.next (pteOf S.kern e (Fork.pageVa th.place.page)) r)⟩ := by
  obtain ⟨r, t, hp, hl⟩ := h.kern.returns upcall hc haff
  have hans : S.answer e r t = (⟨t, Function.update S.threads e
      (th.next (pteOf S.kern e (Fork.pageVa th.place.page)) r)⟩, th.occurs S.kern e r) := by
    simp only [Sys.answer, hth]
    split
    · rename_i x hx
      exact absurd (occurs_born hx) hnb
    · rfl
  have hact : S.act upcall c e .go = some (S.answer e r t) := by
    simp only [Sys.act, hth, if_neg hpl, hq, hp]
  rw [hans] at hact
  obtain ⟨hal, G', hg⟩ := h.act hc ⟨fun _ _ ha => (by cases ha), fun q' _ hq' => by
    rw [hth, hq] at hq'
    cases hq'
    exact ⟨haff, h.kern.counted trivial q⟩⟩ hact
  refine ⟨r, t, G', hp, hal, hg.good, .single ⟨⟨fun e' q' _ hc' hq' => ?_, h.kern.spares_go⟩, ?_⟩,
    fun l hl => ?_, hl.cpus, hl.cost, fun y hy => (hl.runnable y hy).imp_right (hw y), hl.kept,
    fun y hy => Function.update_of_ne hy _ _⟩
  · obtain rfl := Option.some.inj (hc.current.symm.trans hc')
    rw [hth, hq] at hq'
    cases hq'
    exact haff
  · simp only [Step, Sys.step, Sys.user, hc.current, hc.mode, if_true, hact]
  · obtain rfl := List.mem_singleton.mp hl
    exact ⟨rfl, by simp⟩

/-- Only the thread of `e` and the contents of pages change. -/
structure Inside (e : EnvIdx) (S T : Sys) : Prop where
  cpus : T.kern.cpus = S.kern.cpus
  envs : T.kern.envs = S.kern.envs
  pages : T.kern.pages = S.kern.pages
  pageFreeList : T.kern.pageFreeList = S.kern.pageFreeList
  threads : ∀ y, y ≠ e → T.threads y = S.threads y

theorem inside_setThread : Inside e S (S.setThread e th) :=
  ⟨rfl, rfl, rfl, rfl, fun _ hy => Function.update_of_ne hy _ _⟩

/-- A step between two system calls. -/
theorem Good.between (h : Good True S G I) (upcall : Word) (P : EnvIdx → Prop) (hc : OnCpu S.kern c e)
    (hpl : (S.threads e).place ≠ .panicked)
    (hq : (S.threads e).request = none) (hadv : S.advance c e = some (T, o))
    (hk : Inside e S T) :
    ∃ G', Good True T G' (I.after o) ∧ Goes upcall c e 0 P S [⟨c, .go, o⟩] T := by
  have hact : S.act upcall c e .go = some (T, o) := by
    simp only [Sys.act, if_neg hpl, hq, hadv]
  obtain ⟨-, G', hg⟩ := h.act hc ⟨fun _ _ ha => (by cases ha), fun q' _ hq' => by
    rw [hq] at hq'
    cases hq'⟩ hact
  refine ⟨G', hg.good, .single ⟨⟨fun e' q' _ hc' hq' => ?_, h.kern.spares_go⟩, ?_⟩, fun l hl => ?_, hk.cpus,
    .of_eq hk.pages hk.pageFreeList, fun y hy => Or.inl (hk.envs ▸ hy), fun y hy => hk.envs ▸ hy,
    hk.threads⟩
  · obtain rfl := Option.some.inj (hc.current.symm.trans hc')
    rw [hq] at hq'
    cases hq'
  · simp only [Step, Sys.step, Sys.user, hc.current, hc.mode, if_true, hact]
  · obtain rfl := List.mem_singleton.mp hl
    exact ⟨rfl, by simp⟩

/-! ### `pgfault` -/

theorem advance_copy (hth : S.threads e = ⟨pl, some (.copy a j)⟩) :
    ∃ T o, S.advance c e = some (T, o) ∧
      (o = .broke e ∨ T.threads e = ⟨pl, some (.copy a (j + 1))⟩ ∧ Inside e S T) := by
  simp only [Sys.advance, hth]
  split
  · exact ⟨_, _, rfl, Or.inr ⟨Function.update_self .., rfl, rfl, rfl, rfl,
      fun _ hy => Function.update_of_ne hy _ _⟩⟩
  · exact ⟨_, _, rfl, Or.inl rfl⟩

/-- Nothing of these steps is seen from outside. -/
def Silent (ls : List Label) : Prop := ∀ l ∈ ls, l.occurs = .quiet

theorem Silent.append (h : Silent ls) (h' : Silent ls') : Silent (ls ++ ls') :=
  fun l hl => (List.mem_append.mp hl).elim (h l) (h' l)

theorem silent_single {A : Act} : Silent [⟨c, A, .quiet⟩] := fun l hl => by
  obtain rfl := List.mem_singleton.mp hl
  rfl

theorem Silent.after (h : Silent ls) : (ls.map Label.occurs).foldl Memory.after I = I := by
  induction ls with
  | nil => rfl
  | cons l ls ih =>
    rw [List.map_cons, List.foldl_cons, h l (List.mem_cons_self ..)]
    exact ih fun l hl => h l (List.mem_cons_of_mem _ hl)

/-- The copy is completed. -/
theorem Good.copies (h : Good True S G I) (upcall : Word) (P : EnvIdx → Prop) (hc : OnCpu S.kern c e)
    (hpl : pl ≠ .panicked)
    (hth : S.threads e = ⟨pl, some (.copy a j)⟩) (hj : j ≤ pgsize) :
    ∃ ls T G', Goes upcall c e 0 P S ls T ∧ Silent ls ∧ Good True T G' I ∧
      T.threads e = ⟨pl, some (.copy a pgsize)⟩ := by
  induction hn : pgsize - j generalizing S G j with
  | zero =>
    obtain rfl : j = pgsize := by omega
    exact ⟨[], S, G, .refl S, fun _ hl => (by cases hl), h, hth⟩
  | succ n ih =>
    have hlt : j < pgsize := by omega
    have hq : (S.threads e).request = none := by
      rw [hth]
      exact if_pos hlt
    obtain ⟨T, o, hadv, hT⟩ := advance_copy (c := c) hth
    obtain ⟨rfl, -⟩ := h.faultCopy hc (by rw [hth]) hlt hadv
    obtain ⟨hthT, hkern⟩ := hT.resolve_left (by simp)
    obtain ⟨G1, hg, hgo⟩ := h.between upcall P hc (by rw [hth]; exact hpl) hq hadv hkern
    obtain ⟨ls, U, G2, hgo', hs, hg', hthU⟩ := ih hg (hc.of_cpus hkern.cpus) hthT hlt (by omega)
    exact ⟨_, U, G2, hgo.trans hgo', silent_single.append hs, hg', hthU⟩

/-- A page of the loop: it is there for parent and child, and copy-on-write where it was writable. -/
theorem Good.page_copied (h : Good True S G I) (upcall : Word) (P : EnvIdx → Prop) (hc : OnCpu S.kern c e)
    (hth : S.threads e = ⟨.enter envid pn, none⟩) (hmem : PagesFree S.kern 2) :
    ∃ ls T G', Goes upcall c e 2 P S ls T ∧ Good True T G' (I.after (.copied e (envx envid) (nth pn))) ∧
      T.threads e = ⟨.scan envid (pn + 1), none⟩ ∧
      .copied e (envx envid) (nth pn) ∈ ls.map Label.occurs ∧
      (∀ z, I e (nth pn) = some z → z.writable = true →
        ∃ f, (frames T.kern).slot e (nth pn) = some (f, .cow)) ∧
      ∀ q, q ≠ nth pn → (frames T.kern).slot e q = (frames S.kern).slot e q := by
  obtain ⟨hpn, ⟨z, hz⟩, hb⟩ : PlaceOk S.kern G I e (.enter envid pn) := by
    have hp := h.place e
    rw [hth] at hp
    exact hp
  -- `duppage` reads the entry
  set pte := pteOf S.kern e (Fork.pageVa pn) with hpte
  obtain ⟨G1, hg1, hgo1⟩ := h.between (o := .quiet)
    (T := S.setThread e ⟨.dup envid pn pte, none⟩) upcall P hc (by rw [hth]; simp) (by rw [hth]; rfl)
    (by simp only [Sys.advance, hth, hpte]) inside_setThread
  set S1 := S.setThread e ⟨.dup envid pn pte, none⟩ with hS1
  have hth1 : S1.threads e = ⟨.dup envid pn pte, none⟩ := Function.update_self ..
  have hc1 : OnCpu S1.kern c e := hc
  -- the two calls
  have hmap : ∀ x va, PagesFree S.kern (tablesMissing S1.kern x va) :=
    fun x va => hmem.mono (Nat.le_trans (tablesMissing_le ..) (by omega))
  obtain ⟨r, t, G2, hp, -, hg2, hgo2⟩ := hg1.call
    (q := .map (Fork.pageVa pn) envid (Fork.pageVa pn) (dupPerm pte)) upcall P hc1 hth1 (by simp) rfl
    (fun x _ => hmap x _) (by simp) fun y hw => by obtain ⟨_, hq, -⟩ := hw; cases hq
  obtain ⟨rfl, -, -, hne, f, a, hs, -, hput⟩ := hg1.dup_puts hc1 hth1
    (hg1.kern.counted trivial _) (fun x _ => hmap x _) hp
  have hmine : ∀ q, (frames t).slot e q = (frames S.kern).slot e q :=
    fun q => hput.rest e q fun hx => hne hx.1.symm
  obtain ⟨-, ⟨z', hz', hzw⟩, hshare, -⟩ : PlaceOk S1.kern G1 I e (.dup envid pn pte) := by
    have hp := hg1.place e
    rw [hth1] at hp
    exact hp
  obtain rfl := Option.some.inj (hz.symm.trans hz')
  by_cases hwr : pte &&& pteW ≠ 0 ∨ pte &&& pteCow ≠ 0
  swap
  · have hocc : Thread.occurs S1.kern e (.ok 0) ⟨.dup envid pn pte, none⟩ =
        .copied e (envx envid) (nth pn) := by
      simp only [Thread.occurs, Place.occurs]
      rw [if_neg (not_not.mpr hshare), if_neg hwr]
      rfl
    rw [hocc] at hg2 hgo2
    refine ⟨_, _, G2, (hgo1.trans hgo2).mono (show 0 + 1 ≤ 2 by decide), hg2, ?_, by simp,
      fun z'' hz'' hw => ?_,
      fun q _ => hmine q⟩
    · simp only [Function.update_self, Thread.next, Place.next]
      rw [if_neg (not_not.mpr hshare), if_neg hwr]
    · obtain rfl := Option.some.inj (hz.symm.trans hz'')
      exact absurd (hzw.mp hw) hwr
  have hnext : Thread.next (pteOf S1.kern e (Fork.pageVa pn)) (.ok 0) ⟨.dup envid pn pte, none⟩ =
      ⟨.own envid pn pte, none⟩ := by
    simp only [Thread.next, Place.next]
    rw [if_neg (not_not.mpr hshare), if_pos hwr]
    rfl
  set o := Thread.occurs S1.kern e (.ok 0) ⟨.dup envid pn pte, none⟩ with ho
  set S2 : Sys := ⟨t, _⟩
  have hth2 : S2.threads e = ⟨.own envid pn pte, none⟩ := (Function.update_self ..).trans hnext
  have hc2 : OnCpu S2.kern c e := hc1.of_cpus hgo2.cpus
  have hfree2 : PagesFree S2.kern (tablesMissing S2.kern e (Fork.pageVa pn)) :=
    (hgo2.cost 1 (hgo1.cost 2 hmem)).mono (tablesMissing_le ..)
  obtain ⟨r, u, G3, hp, -, hg3, hgo3⟩ := hg2.call
    (q := .map (Fork.pageVa pn) 0 (Fork.pageVa pn) Fork.cowPerm) upcall P hc2 hth2 (by simp) rfl
    (fun x hx => by
      obtain rfl := Option.some.inj ((Fork.lookupEnv_self ..).symm.trans hx)
      exact hfree2) (by simp) fun y hw => by obtain ⟨_, hq, -⟩ := hw; cases hq
  obtain ⟨rfl, -, -, g, b, -, -, -, hput2⟩ := hg2.own_puts hc2 hth2
    (hg2.kern.counted trivial _) hfree2 hp
  -- one of the two calls is the one that copies the page
  have hocc : (o = .copied e (envx envid) (nth pn) ∧
        Thread.occurs S2.kern e (.ok 0) ⟨.own envid pn pte, none⟩ = .quiet) ∨
      o = .quiet ∧ Thread.occurs S2.kern e (.ok 0) ⟨.own envid pn pte, none⟩ =
        .copied e (envx envid) (nth pn) := by
    by_cases hW : pte &&& pteW ≠ 0
    · refine Or.inr ⟨?_, if_pos hW⟩
      simp only [ho, Thread.occurs, Place.occurs]
      rw [if_neg (not_not.mpr hshare), if_pos hwr]
      exact if_pos hW
    · refine Or.inl ⟨?_, if_neg hW⟩
      simp only [ho, Thread.occurs, Place.occurs]
      rw [if_neg (not_not.mpr hshare), if_pos hwr]
      exact if_neg hW
  refine ⟨_, _, G3, (hgo1.trans hgo2).trans hgo3, ?_, Function.update_self .., ?_,
    fun _ _ _ => ⟨g, hput2.here⟩, fun q hq => (hput2.rest e q fun hx => hq hx.2).trans (hmine q)⟩
  · rcases hocc with ⟨h1, h2⟩ | ⟨h1, h2⟩
    · rw [h1, h2] at hg3
      exact hg3
    · rw [h1, h2] at hg3
      exact hg3
  · rcases hocc with ⟨h1, -⟩ | ⟨-, h2⟩
    · simp [h1]
    · exact List.mem_map.mpr ⟨_, List.mem_append_right _ (List.mem_singleton_self _), h2⟩

/-- The pages from `pn` on that the loop has to copy. -/
def toCopy (I : Memory) (e : EnvIdx) (pn : Nat) : Finset Nat :=
  (Finset.Ico pn (pgnum ustacktop)).filter fun m => (I e (nth m)).isSome

theorem toCopy_of_none (h : I e (nth pn) = none) : toCopy I e pn = toCopy I e (pn + 1) := by
  ext m
  simp only [toCopy, Finset.mem_filter, Finset.mem_Ico]
  refine ⟨fun hm => ⟨⟨Nat.lt_of_le_of_ne hm.1.1 ?_, hm.1.2⟩, hm.2⟩, fun hm => ⟨⟨by omega, hm.1.2⟩, hm.2⟩⟩
  rintro rfl
  rw [h] at hm
  exact absurd hm.2 (by simp)

theorem card_toCopy_of_some {z : Copy Page} (h : I e (nth pn) = some z) (hpn : pn < pgnum ustacktop) :
    (toCopy I e pn).card = (toCopy I e (pn + 1)).card + 1 := by
  have hins : toCopy I e pn = insert pn (toCopy I e (pn + 1)) := by
    ext m
    simp only [toCopy, Finset.mem_insert, Finset.mem_filter, Finset.mem_Ico]
    refine ⟨fun hm => ?_, ?_⟩
    · by_cases hx : m = pn
      · exact Or.inl hx
      · exact Or.inr ⟨⟨by omega, hm.1.2⟩, hm.2⟩
    · rintro (rfl | hm)
      · exact ⟨⟨Nat.le_refl _, hpn⟩, by rw [h]; rfl⟩
      · exact ⟨⟨by omega, hm.1.2⟩, hm.2⟩
  rw [hins, Finset.card_insert_of_notMem]
  simp only [toCopy, Finset.mem_filter, Finset.mem_Ico]
  omega

theorem toCopy_congr {J : Memory} (h : ∀ m < pgnum ustacktop, J e (nth m) = I e (nth m)) :
    toCopy J e pn = toCopy I e pn :=
  Finset.filter_congr fun m hm => by rw [h m (Finset.mem_Ico.mp hm).2]

/-- The loop went from `S` with private memory `I` to `T` with `J`, from page `pn` on. -/
structure Looped (S T : Sys) (I J : Memory) (e x : EnvIdx) (ls : List Label) (pn : Nat) : Prop where
  mine : ∀ q, J e q = I e q
  same : ∀ m, pn ≤ m → m < pgnum ustacktop → J x (nth m) = I e (nth m)
  rest : ∀ m < pn, m < pgnum ustacktop → J x (nth m) = I x (nth m)
  told : ∀ m z, pn ≤ m → m < pgnum ustacktop → I e (nth m) = some z →
    .copied e x (nth m) ∈ ls.map Label.occurs
  cow : ∀ m z, pn ≤ m → m < pgnum ustacktop → I e (nth m) = some z → z.writable = true →
    ∃ f, (frames T.kern).slot e (nth m) = some (f, .cow)
  slots : ∀ q, (∀ m, pn ≤ m → m < pgnum ustacktop → q ≠ nth m) →
    (frames T.kern).slot e q = (frames S.kern).slot e q

/-- A page that is not there is passed over. -/
theorem Looped.skips {S1 : Sys} {x : EnvIdx} {l : Label} {ls : List Label} {J : Memory}
    (hl : Looped S1 T I J e x ls (pn + 1)) (hs : S1.kern = S.kern) (hno : I e (nth pn) = none)
    (hx : I x (nth pn) = none) : Looped S T I J e x (l :: ls) pn := by
  have habsent : ∀ z, I e (nth pn) ≠ some z := fun z hz => by
    rw [hno] at hz
    cases hz
  refine ⟨hl.mine, fun m hm hlt => ?_, fun m hm hlt => hl.rest m (by omega) hlt,
    fun m z hm hlt hz => ?_, fun m z hm hlt hz => ?_, fun q hq => ?_⟩
  · rcases Nat.lt_or_eq_of_le hm with hm | rfl
    · exact hl.same m hm hlt
    · rw [hl.rest pn (Nat.lt_succ_self _) hlt, hno]
      exact hx
  · rcases Nat.lt_or_eq_of_le hm with hm | rfl
    · exact List.mem_cons_of_mem _ (hl.told m z hm hlt hz)
    · exact absurd hz (habsent z)
  · rcases Nat.lt_or_eq_of_le hm with hm | rfl
    · exact hl.cow m z hm hlt hz
    · exact absurd hz (habsent z)
  · rw [← hs]
    exact hl.slots q fun m hm => hq m (by omega)

/-- What `duppage` did to the first page stays until the loop ends. -/
theorem Looped.copies {S2 : Sys} {x : EnvIdx} {ls1 ls : List Label} {J : Memory}
    (hl : Looped S2 T (I.after (.copied e x (nth pn))) J e x ls (pn + 1)) (hne : x ≠ e)
    (hpn : pn < pgnum ustacktop) (htold : .copied e x (nth pn) ∈ ls1.map Label.occurs)
    (hcow : ∀ z, I e (nth pn) = some z → z.writable = true →
      ∃ f, (frames S2.kern).slot e (nth pn) = some (f, .cow))
    (hslots : ∀ q, q ≠ nth pn → (frames S2.kern).slot e q = (frames S.kern).slot e q) :
    Looped S T I J e x (ls1 ++ ls) pn := by
  set I2 := I.after (.copied e x (nth pn)) with hI2
  have hmine : ∀ q, I2 e q = I e q := fun q => setPage_of_ne fun hx => hne hx.1.symm
  have hhere : I2 x (nth pn) = I e (nth pn) := setPage_self
  have hother : ∀ m, m ≠ pn → m < pgnum ustacktop → I2 x (nth m) = I x (nth m) :=
    fun m hm hlt => setPage_of_ne fun hx => hm ((nth_inj hlt hpn).mp hx.2)
  refine ⟨fun q => (hl.mine q).trans (hmine q), fun m hm hlt => ?_, fun m hm hlt => ?_,
    fun m z hm hlt hz => ?_, fun m z hm hlt hz hw => ?_, fun q hq => ?_⟩
  · rcases Nat.lt_or_eq_of_le hm with hm | rfl
    · exact (hl.same m hm hlt).trans (hmine _)
    · exact (hl.rest pn (Nat.lt_succ_self _) hlt).trans hhere
  · exact (hl.rest m (by omega) hlt).trans (hother m (by omega) hlt)
  · rw [List.map_append]
    rcases Nat.lt_or_eq_of_le hm with hm | rfl
    · exact List.mem_append_right _ (hl.told m z hm hlt ((hmine _).trans hz))
    · exact List.mem_append_left _ htold
  · rcases Nat.lt_or_eq_of_le hm with hm | rfl
    · exact hl.cow m z hm hlt ((hmine _).trans hz) hw
    · obtain ⟨f, hf⟩ := hcow z hz hw
      have hlater : ∀ m, pn + 1 ≤ m → m < pgnum ustacktop → nth pn ≠ nth m :=
        fun m hm hlm hx => absurd ((nth_inj hlt hlm).mp hx) (by omega)
      exact ⟨f, (hl.slots _ hlater).trans hf⟩
  · exact (hl.slots q fun m hm => hq m (by omega)).trans (hslots q (hq pn (Nat.le_refl _) hpn))

/-- The loop comes to its end. -/
theorem Good.loop_ends (h : Good True S G I) (upcall : Word) (P : EnvIdx → Prop) (hc : OnCpu S.kern c e)
    (hth : S.threads e = ⟨.scan envid pn, none⟩) (hle : pn ≤ pgnum ustacktop)
    (hmem : PagesFree S.kern (2 * (toCopy I e pn).card)) :
    ∃ ls T G' J, Goes upcall c e (2 * (toCopy I e pn).card) P S ls T ∧ Good True T G' J ∧
      T.threads e = ⟨.stack envid, none⟩ ∧ Looped S T I J e (envx envid) ls pn := by
  induction hn : pgnum ustacktop - pn generalizing S G I pn with
  | zero =>
    obtain rfl : pn = pgnum ustacktop := by omega
    obtain ⟨G1, hg, hgo⟩ := h.between (o := .quiet)
      (T := S.setThread e ⟨.stack envid, none⟩) upcall P hc (by rw [hth]; simp) (by rw [hth]; rfl)
      (by simp only [Sys.advance, hth, Nat.lt_irrefl, if_false]) inside_setThread
    exact ⟨_, _, G1, I, hgo.mono (Nat.zero_le _), hg, Function.update_self ..,
      ⟨fun _ => rfl, fun m hm hl => absurd hl (by omega), fun _ _ _ => rfl,
        fun m z hm hl => absurd hl (by omega), fun m z hm hl => absurd hl (by omega), fun _ _ => rfl⟩⟩
  | succ n ih =>
    have hpn : pn < pgnum ustacktop := by omega
    have hiff := h.present_iff pn hc (by rw [hth])
    have hpl : (S.threads e).place ≠ .panicked := by rw [hth]; simp
    have hne : (envx envid) ≠ e := by
      have hx : (S.threads e).place.child = some (envx envid) := by rw [hth]; rfl
      exact ((h.place e).asleep hx).2
    by_cases hpage : ∃ z, I e (nth pn) = some z
    swap
    · -- no page here
      have hno : I e (nth pn) = none :=
        Option.eq_none_iff_forall_ne_some.mpr fun z hz => hpage ⟨z, hz⟩
      obtain ⟨G1, hg, hgo⟩ := h.between (o := .quiet)
        (T := S.setThread e ⟨.scan envid (pn + 1), none⟩) upcall P hc hpl (by rw [hth]; rfl)
        (by simp only [Sys.advance, hth, if_pos hpn, if_neg fun hx => hpage (hiff.mp hx)])
        inside_setThread
      have hchild : I (envx envid) (nth pn) = none := by
        have hb := h.place e
        rw [hth] at hb
        exact Builds.rest hb pn (Nat.le_refl _) hpn
      rw [toCopy_of_none hno] at hmem ⊢
      obtain ⟨ls, T, G2, J, hgo2, hg2, hth2, hl⟩ := ih (I := I) hg hc
        (Function.update_self ..) hpn hmem (by omega)
      exact ⟨_, T, G2, J, (hgo.trans hgo2).mono (by omega), hg2, hth2, hl.skips rfl hno hchild⟩
    · obtain ⟨z, hz⟩ := hpage
      have hcard := card_toCopy_of_some hz hpn
      obtain ⟨G1, hg1, hgo1⟩ := h.between (o := .quiet)
        (T := S.setThread e ⟨.enter envid pn, none⟩) upcall P hc hpl (by rw [hth]; rfl)
        (by simp only [Sys.advance, hth, if_pos hpn, if_pos (hiff.mpr ⟨z, hz⟩)]) inside_setThread
      obtain ⟨ls2, S2, G2, hgo2, hg2, hth2, htold, hcow, hslots⟩ :=
        Good.page_copied (I := I) hg1 upcall P hc (Function.update_self ..)
          (hmem.mono (by omega))
      have hcongr : toCopy (I.after (.copied e (envx envid) (nth pn))) e (pn + 1) =
          toCopy I e (pn + 1) :=
        toCopy_congr fun m _ => setPage_of_ne fun hx => hne hx.1.symm
      have hgo12 := hgo1.trans hgo2
      obtain ⟨ls, T, G3, J, hgo3, hg3, hth3, hl⟩ := ih hg2 (hc.of_cpus hgo12.cpus) hth2 hpn
        (by rw [hcongr]; exact hgo12.cost _ (hmem.mono (by omega))) (by omega)
      rw [hcongr] at hgo3
      refine ⟨_, T, G3, J, (hgo12.trans hgo3).mono (by omega), hg3, hth3,
        hl.copies hne hpn ?_ hcow hslots⟩
      rw [List.map_append]
      exact List.mem_append_right _ htold

/-! ### The whole of `fork` -/

/-- The last three calls: the child may run. -/
theorem Good.child_starts (h : Good True S G I) (upcall : Word) (hc : OnCpu S.kern c e)
    (hth : S.threads e = ⟨.stack envid, none⟩) (hmem : PagesFree S.kern 2) :
    ∃ ls T G', Goes upcall c e 2 (· = envx envid) S ls T ∧
      Good True T G' (I.after (.zeroed (envx envid) (pageOf Fork.uxstackPage))) ∧ T.threads e = CowFork.idle ∧
      .started e (envx envid) ∈ ls.map Label.occurs ∧
      (T.kern.envs (envx envid)).envStatus = .runnable ∧
      (frames T.kern).slot e = (frames S.kern).slot e := by
  have hb : Builds S.kern G I e envid (pgnum ustacktop) fun _ => False := by
    have hp := h.place e
    rw [hth] at hp
    exact hp
  obtain ⟨d, hd⟩ := hb.child
  have haff : ∀ dst, lookupEnv S.kern e envid true = some dst →
      PagesFree S.kern (1 + tablesMissing S.kern dst Fork.uxstackPage) := fun dst _ =>
    hmem.mono (by have := tablesMissing_le S.kern dst Fork.uxstackPage; omega)
  obtain ⟨r, t, G1, hp, -, hg1, hgo1⟩ := h.call
    (q := .alloc envid Fork.uxstackPage (pteP ||| pteW ||| pteU)) upcall (· = envx envid) hc hth
    (by simp) rfl haff (by simp)
    fun y hw => by obtain ⟨_, hq, -⟩ := hw; cases hq
  obtain ⟨rfl, -, henvs, g, -, -, hput⟩ := h.kern.alloc hc hd.look hd.dir (by decide) (by decide)
    (by decide) (by decide) (by decide) (h.kern.waits (by rw [hb.asleep]; simp)) (haff _ hd.look) hp
  set I1 := I.after (.zeroed (envx envid) (pageOf Fork.uxstackPage)) with hI1
  set S1 : Sys := ⟨t, _⟩
  have hth1 : S1.threads e = ⟨.childUpcall envid, none⟩ := Function.update_self ..
  have hc1 : OnCpu S1.kern c e := hc.of_cpus hgo1.cpus
  have hslot1 : (frames S1.kern).slot e = (frames S.kern).slot e :=
    funext fun q => hput.rest e q fun hx => hd.ne hx.1.symm
  have hb1 : Builds S1.kern G1 I1 e envid (pgnum ustacktop) fun _ => False := by
    have hp := hg1.place e
    rw [hth1] at hp
    exact hp
  obtain ⟨d1, hd1⟩ := hb1.child
  obtain ⟨r, u, G2, hp, -, hg2, hgo2⟩ := hg1.call (q := .setUpcall envid) upcall (· = envx envid) hc1 hth1
    (by simp) rfl trivial (by simp) fun y hw => by obtain ⟨_, hq, -⟩ := hw; cases hq
  obtain ⟨rfl, -, hpte, -⟩ := hg1.kern.setUpcall hc1 hd1.look hp
  set S2 : Sys := ⟨u, _⟩
  have hth2 : S2.threads e = ⟨.start envid, none⟩ := Function.update_self ..
  have hc2 : OnCpu S2.kern c e := hc1.of_cpus hgo2.cpus
  have hslot2 : (frames S2.kern).slot e = (frames S1.kern).slot e :=
    congrFun (slot_of_pteAt hpte) e
  have hb2 : Builds S2.kern G2 I1 e envid (pgnum ustacktop) fun _ => False := by
    have hp := hg2.place e
    rw [hth2] at hp
    exact hp
  obtain ⟨d2, hd2⟩ := hb2.child
  obtain ⟨r, v, G3, hp, -, hg3, hgo3⟩ := Good.call (I := I1) (q := .setRunnable envid) hg2
    upcall (· = envx envid) hc2 hth2 (by simp) rfl trivial (by simp) fun y hw => by
      obtain ⟨id, hq, hl⟩ := hw
      cases hq
      exact (Option.some.inj (hd2.look.symm.trans hl)).symm
  obtain ⟨rfl, -, hpte, -, -, hst⟩ := hg2.kern.setRunnable hc2 hd2.look hb2.asleep hp
  refine ⟨_, _, G3, (hgo1.trans hgo2).trans hgo3, hg3, Function.update_self .., ?_, hst,
    (congrFun (slot_of_pteAt hpte) e).trans (hslot2.trans hslot1)⟩
  exact List.mem_map.mpr ⟨_, List.mem_append_right _ (List.mem_singleton_self _), rfl⟩

theorem Sound.free_env (h : Sound True s) {y : EnvIdx} (hy : (s.envs y).envStatus = .free) :
    s.envFreeList ≠ none := by
  obtain ⟨Le, hLe⟩ := h.inv.core.envs
  have hin := (hLe.free y).mpr hy
  rw [hLe.chain.head_eq]
  cases Le with
  | nil => cases hin
  | cons x L => simp

/-- `sys_exofork` makes the child. -/
theorem Good.child_born (h : Good True S G I) (upcall : Word) (P : EnvIdx → Prop) (hc : OnCpu S.kern c e)
    (hth : S.threads e = ⟨.exofork, none⟩) {y : EnvIdx} (hy : (S.kern.envs y).envStatus = .free)
    (hmem : PagesFree S.kern 1) :
    ∃ id ls T G', Goes upcall c e 1 P S ls T ∧ Good True T G' (I.after (.born (envx id))) ∧
      T.threads e = ⟨.scan id 0, none⟩ ∧ envx id ≠ e := by
  have hfree := h.kern.free_env hy
  have haff : Request.exofork.Affordable S.kern e := ⟨hmem, hfree⟩
  obtain ⟨r, t, hp, hl⟩ := h.kern.returns upcall hc haff
  obtain ⟨id, rfl, hslt, hne0, G', hg⟩ := h.exofork hc hth hmem hfree hp
  have hocc : Thread.occurs S.kern e (.ok id) ⟨.exofork, none⟩ = .born (envx id) := by
    simp only [Thread.occurs, Place.occurs, hslt, hne0, or_self, Bool.false_eq_true, if_false]
  have hnext : Thread.next (pteOf S.kern e (Fork.pageVa 0)) (.ok id) ⟨.exofork, none⟩ =
      ⟨.scan id 0, none⟩ := by
    simp only [Thread.next, Place.next, retCode, hslt, hne0, Bool.false_eq_true, if_false]
  have hact : S.act upcall c e .go = some (S.answer e (.ok id) t) := by
    simp only [Sys.act, hth, Thread.request, Place.request, hp]
    rfl
  simp only [Sys.answer, hth, hocc, Place.page, hnext] at hact
  have hbefore : (S.kern.envs (envx id)).envStatus = .free := by
    obtain ⟨x, id', hid, -, -, -, hb⟩ := h.kern.exofork hc hmem hfree hp
    cases hid
    rw [hb.index]
    exact hb.before
  have hxe : envx id ≠ e := by
    rintro hx
    rw [hx, h.running hc] at hbefore
    cases hbefore
  refine ⟨id, [⟨c, .go, .born (envx id)⟩], ⟨t, _⟩, G',
    ⟨.single ⟨⟨fun e' q' _ hc' hq' => ?_, h.kern.spares_go⟩, ?_⟩, fun l hl => ?_, hl.cpus, hl.cost,
    fun y hy => (hl.runnable y hy).imp_right fun hx => ?_, hl.kept,
    fun y hy => ?_⟩, hg.good, ?_, hxe⟩
  · obtain rfl := Option.some.inj (hc.current.symm.trans hc')
    rw [hth] at hq'
    cases hq'
    exact haff
  · simp only [Step, Sys.step, Sys.user, hc.current, hc.mode, if_true, hact]
  · obtain rfl := List.mem_singleton.mp hl
    exact ⟨rfl, by simp⟩
  · obtain ⟨_, hq, -⟩ := hx
    cases hq
  · by_cases hyx : y = envx id
    · -- the slot was free
      subst hyx
      refine (Function.update_self ..).trans (h.idle _ (Or.inr ?_)).symm
      exact hbefore
    · exact (Function.update_of_ne hyx _ _).trans (Function.update_of_ne hy _ _)
  · exact (Function.update_of_ne hxe.symm _ _).trans (Function.update_self ..)

/-- The pages that the loop of `fork` looks at are not the exception stack. -/
theorem nth_ne_uxstack {m : Nat} (hm : m < pgnum ustacktop) : nth m ≠ pageOf Fork.uxstackPage := by
  intro hx
  have hpg := pageOf_eq.mp hx
  rw [Fork.pgnum_pageVa hm] at hpg
  have := Fork.uxstackPage_pgnum
  omega

/-- `fork` returns in the parent: the child may run, it has all the pages of the parent, and the
    pages that were writable are copy-on-write. -/
theorem Good.fork_returns (h : Good True S G I) (upcall : Word) (hc : OnCpu S.kern c e)
    (hth : S.threads e = ⟨.handler, none⟩) {y : EnvIdx} (hy : (S.kern.envs y).envStatus = .free)
    (hmem : PagesFree S.kern (2 * (toCopy I e 0).card + 5)) :
    ∃ x ls T G' J, Goes upcall c e (2 * (toCopy I e 0).card + 5) (· = x) S ls T ∧ Good True T G' J ∧
      T.threads e = CowFork.idle ∧ x ≠ e ∧ (T.kern.envs x).envStatus = .runnable ∧
      (∀ m < pgnum ustacktop, J e (nth m) = I e (nth m) ∧ J x (nth m) = I e (nth m)) ∧
      ∀ m z, m < pgnum ustacktop → I e (nth m) = some z →
        [.copied e x (nth m), .started e x].Sublist (ls.map Label.occurs) ∧
        (z.writable = true → ∃ f, (frames T.kern).slot e (nth m) = some (f, .cow)) := by
  -- `set_pgfault_handler`
  have haff : (Request.alloc 0 Fork.uxstackPage (pteU ||| pteW ||| pteP)).Affordable S.kern e :=
    fun x _ => hmem.mono (by have := tablesMissing_le S.kern x Fork.uxstackPage; omega)
  obtain ⟨r, t, G1, hp, hal, hg1, hgo1⟩ := h.call upcall (fun _ => False) hc hth (by simp) rfl
    haff (by simp)
    fun y hw => by obtain ⟨_, hq, -⟩ := hw; cases hq
  cases r with
  | error err => exact hal.elim
  | ok v =>
  have henvs : t.envs = S.kern.envs :=
    (h.kern.alloc hc (Fork.lookupEnv_self ..) (h.kern.dir hc) (by decide) (by decide) (by decide)
      (by decide) (by decide) (h.kern.sole hc) (haff _ (Fork.lookupEnv_self ..)) hp).2.2.1
  set S1 : Sys := ⟨t, _⟩
  set I1 := I.after (.zeroed e (pageOf Fork.uxstackPage)) with hI1
  have hI1e : ∀ m < pgnum ustacktop, I1 e (nth m) = I e (nth m) :=
    fun m hm => setPage_of_ne fun hx => nth_ne_uxstack hm hx.2
  have hth1 : S1.threads e = ⟨.upcall, none⟩ := Function.update_self ..
  have hc1 : OnCpu S1.kern c e := hc.of_cpus hgo1.cpus
  obtain ⟨r, u, G2, hp, -, hg2, hgo2⟩ := Good.call (I := I1) hg1 upcall (fun _ => False) hc1 hth1 (by simp)
    rfl trivial (by simp) fun y hw => by obtain ⟨_, hq, -⟩ := hw; cases hq
  obtain ⟨-, -, -, -, -, hst⟩ := hg1.kern.setUpcall hc1 (Fork.lookupEnv_self ..) hp
  set S2 : Sys := ⟨u, _⟩
  have hth2 : S2.threads e = ⟨.exofork, none⟩ := Function.update_self ..
  have hc2 : OnCpu S2.kern c e := hc1.of_cpus hgo2.cpus
  have hy2 : (S2.kern.envs y).envStatus = .free := (hst y).free.mpr (by
    show (t.envs y).envStatus = .free
    rw [henvs]
    exact hy)
  have hgo12 := hgo1.trans hgo2
  -- `sys_exofork`, the loop, and the end
  obtain ⟨id, ls3, S3, G3, hgo3, hg3, hth3, hxe⟩ :=
    Good.child_born (I := I1) hg2 upcall (fun _ => False) hc2
    hth2 hy2 ((hgo12.cost (2 * (toCopy I e 0).card + 3) hmem).mono (by omega))
  set I3 := I1.after (.born (envx id)) with hI3
  have hI3e : ∀ m < pgnum ustacktop, I3 e (nth m) = I e (nth m) := fun m hm =>
    (congrFun (Function.update_of_ne hxe.symm _ _) _).trans (hI1e m hm)
  have hcopy : toCopy I3 e 0 = toCopy I e 0 := toCopy_congr hI3e
  have hgo123 := hgo12.trans hgo3
  have hc3 : OnCpu S3.kern c e := hc.of_cpus hgo123.cpus
  obtain ⟨ls4, S4, G4, J, hgo4, hg4, hth4, hl⟩ := hg3.loop_ends upcall (fun _ => False) hc3 hth3
    (Nat.zero_le _) (by
      rw [hcopy]
      exact (hgo123.cost (2 * (toCopy I e 0).card + 2) hmem).mono (by omega))
  rw [hcopy] at hgo4
  have hgo1234 := hgo123.trans hgo4
  obtain ⟨ls5, T, G5, hgo5, hg5, hth5, hstart, hrun, hslot⟩ := hg4.child_starts upcall
    (hc3.of_cpus hgo4.cpus) hth4 (hgo1234.cost 2 (hmem.mono (by
      show 2 + (2 + 0 + 1 + 2 * (toCopy I e 0).card) ≤ _
      omega)))
  refine ⟨envx id, _, T, G5, _, ((hgo1234.weaken fun _ hx => hx.elim).trans hgo5).mono ?_, hg5, hth5,
    hxe, hrun, fun m hm => ⟨?_, ?_⟩,
    fun m z hm hz => ⟨?_, fun hw => ?_⟩⟩
  · show 2 + 0 + 1 + 2 * (toCopy I e 0).card + 2 ≤ _
    omega
  · exact (setPage_of_ne fun hx => hxe hx.1.symm).trans ((hl.mine _).trans (hI3e m hm))
  · exact (setPage_of_ne fun hx => nth_ne_uxstack hm hx.2).trans
      ((hl.same m (Nat.zero_le _) hm).trans (hI3e m hm))
  · rw [List.map_append, List.map_append]
    exact List.Sublist.append (List.singleton_sublist.mpr (List.mem_append_right _
      (hl.told m z (Nat.zero_le _) hm ((hI3e m hm).trans hz)))) (List.singleton_sublist.mpr hstart)
  · obtain ⟨f, hf⟩ := hl.cow m z (Nat.zero_le _) hm ((hI3e m hm).trans hz) hw
    exact ⟨f, (congrFun hslot _).trans hf⟩

end CowFork

end Jos
