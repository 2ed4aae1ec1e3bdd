import Jos.CowProgress
import Jos.Release

/-!
  Copy-on-write `fork` refines private memory, in every run that starts with a launched machine and
  stays within what the code counts on (`Within`). A page of the program at `PFTEMP` shows that it has
  to; programs that leave `PFTEMP` to `pgfault` stay so by themselves (`Reserved`). -/

namespace Jos

open Lib Lib.Cow

namespace CowFork

variable {upcall : Word} {S T U : Sys} {G : Loans} {I : Memory} {c : CpuIdx} {e x y : EnvIdx}
  {s t u : KState} {l : Label} {ls : List Label} {va : Word} {b : Byte} {f : Nat} {a : Access}

/-! ### Steps of a program -/

theorem step_of_act {A : Act} {o : Occurs} (hc : OnCpu S.kern c e) (hA : A ≠ .yield)
    (hact : S.act upcall c e A = some (T, o)) : Step upcall S ⟨c, A, o⟩ T := by
  have huser : S.user upcall c A = some (T, o) := by
    simp only [Sys.user, hc.current, hc.mode, if_true, hact]
  cases A with
  | yield => exact absurd rfl hA
  | _ => exact huser

theorem step_store (upcall : Word) (b : Byte) (h : Sound True S.kern) (hc : OnCpu S.kern c e)
    (hr : (S.threads e).Reaches va)
    (hf : (frames S.kern).slot e (pageOf va) = some (f, .own)) :
    Step upcall S ⟨c, .store va b, .write e va b⟩ (S.storeTo f va b) := by
  refine step_of_act hc (by simp) ?_
  have hwrite := (h.tables.write (h.dir hc) hr.2.1).mpr hf
  simp only [Sys.act, if_pos hr, hwrite]

theorem step_fork (upcall : Word) (hc : OnCpu S.kern c e) (hth : S.threads e = idle) :
    Step upcall S ⟨c, .fork true, .quiet⟩ (S.setThread e ⟨.handler, none⟩) := by
  refine step_of_act hc (by simp) ?_
  simp only [Sys.act, if_pos hth, if_true]

theorem inside_storeTo : Inside e S (S.storeTo f va b) :=
  ⟨rfl, rfl, rfl, rfl, fun _ _ => rfl⟩

/-- A step of the program. -/
theorem Good.program {P : EnvIdx → Prop} (h : Good True S G I) (hc : OnCpu S.kern l.cpu e)
    (ha : l.act ≠ .go) (hy : l.act ≠ .yield) (hsp : Spares S l) (hst : Step upcall S l T)
    (hk : Inside e S T) :
    ∃ G', Goes upcall l.cpu e 0 P S [l] T ∧ Good True T G' (I.after l.occurs) ∧ OnCpu T.kern l.cpu e := by
  have haff : Affords S l := fun e' q' hgo => absurd hgo ha
  obtain ⟨-, ⟨G', hg⟩, -⟩ := h.step hst haff hsp
  refine ⟨G', ⟨.single ⟨⟨haff, hsp⟩, hst⟩, fun l' hl => ?_, hk.cpus, .of_eq hk.pages hk.pageFreeList,
    fun y hy => Or.inl (hk.envs ▸ hy), fun y hy => hk.envs ▸ hy, hk.threads⟩, hg, hc.of_cpus hk.cpus⟩
  obtain rfl := List.mem_singleton.mp hl
  exact ⟨rfl, hy⟩

/-- A store that finds the page writable asks nothing of `pgfault`. -/
theorem spares_store (h : Sound True S.kern) (hc : OnCpu S.kern c e) (hva : va < utop)
    (hf : (frames S.kern).slot e (pageOf va) = some (f, .own)) (o : Occurs) :
    Spares S ⟨c, .store va b, o⟩ := by
  refine ⟨fun e' va' b' ha hcur hno => ?_, fun _ _ ha => by cases ha⟩
  cases ha
  replace hno : userAccess S.kern c userWrite va = none := hno
  rw [(h.tables.write (h.dir hc) hva).mpr hf] at hno
  cases hno

/-- The CPU is given to the only environment that can run. -/
theorem step_yield (upcall : Word) (h : Sound True S.kern) (hc : OnCpu S.kern c e)
    (hx : (S.kern.envs x).envStatus = .runnable)
    (honly : ∀ y, (S.kern.envs y).envStatus = .runnable → y = x) :
    ∃ t, Step upcall S ⟨c, .yield, .quiet⟩ { S with kern := t } ∧ OnCpu t c x := by
  obtain ⟨pd, hpd⟩ := h.inv.core.dir_of_live (e := x) (by rw [hx]; simp)
  cases hp : schedPick S.kern (schedBegin S.kern c) with
  | none => exact absurd hx (schedPick_none (schedBegin_le S.kern c) hp x)
  | some y =>
    obtain rfl := honly y (schedPick_runnable hp)
    have hruns : Runs c y S.kern (resume c y pd (preempt c S.kern)) := ⟨pd, hpd, rfl⟩
    have hrun := schedYield_run (.pick hp hruns)
    refine ⟨_, ?_, ⟨hruns.inUser.1.mode, hruns.inUser.1.current⟩⟩
    have habs : (S.kern.cpus c).mode ≠ .absent := by rw [hc.mode]; simp
    simp only [Step, Sys.step, if_neg habs, enter_eq_some.mpr hrun, Option.map_some]

/-! ### A machine that runs one environment -/

/-- Only CPU 1 has anything to run. -/
def OthersIdle (s : KState) : Prop := ∀ k, k ≠ 1 → (s.cpus k).mode ≠ .user ∧ s.curenv k = none

theorem OthersIdle.not_elsewhere (h : OthersIdle s) : ¬ Elsewhere s 1 e := by
  rintro ⟨k, hk, hm, -⟩
  exact (h k hk).1 hm

theorem OthersIdle.congr (h : OthersIdle s) (hc : t.cpus = s.cpus) : OthersIdle t := by
  intro k hk
  rw [KState.curenv, hc]
  exact h k hk

/-- CPU 1 runs `e`, which has the pages `A` to itself. Nobody else is there, and `n` pages are free. -/
structure Owns (s : KState) (e : EnvIdx) (A : Finset PageNo) (n : Nat) : Prop where
  kern : Sound True s
  cpu : OnCpu s 1 e
  sole : ∀ y, y ≠ e → (s.envs y).envStatus = .free
  pages : ∀ p ∈ A, ∃ f, (frames s).slot e p = some (f, .own)
  only : ∀ y p x, (frames s).slot y p = some x → y = e ∧ p ∈ A
  alone : Alone s
  free : PagesFree s n

/-- It asks for another page. -/
theorem Owns.grow {A : Finset PageNo} {n : Nat} (h : Owns s e A (n + 2)) (hva : vaOk va = true) :
    ∃ t, Owns t e (insert (pageOf va) A) n := by
  have haff : (Request.alloc 0 va (pteU ||| pteW ||| pteP)).Affordable s e := fun x _ =>
    h.free.mono (by have := tablesMissing_le s x va; omega)
  obtain ⟨r, t, hrun, hl⟩ := h.kern.returns 0 h.cpu haff
  obtain ⟨-, hs, henvs, g, hfresh, -, hput⟩ := h.kern.alloc h.cpu (Fork.lookupEnv_self ..)
    (h.kern.dir h.cpu) hva (by decide) (by decide) (by decide) (by decide) (h.kern.sole h.cpu)
    (haff e (Fork.lookupEnv_self ..)) hrun
  -- the new page has a frame of its own
  have hold : ∀ {y p x}, ¬ (y = e ∧ p = pageOf va) → (frames t).slot y p = some x →
      (frames s).slot y p = some x := fun hn hx => (hput.rest _ _ hn).symm.trans hx
  have hnew : ∀ {y p f a}, (frames t).slot y p = some (f, a) → y = e ∧ p = pageOf va ∨ f ≠ g := by
    intro y p f a hx
    by_cases hn : y = e ∧ p = pageOf va
    · exact Or.inl hn
    · refine Or.inr fun hfg => hfresh ?_
      exact hfg ▸ ⟨y, p, a, hold hn hx⟩
  refine ⟨t, hs, h.cpu.of_cpus hl.cpus, fun y hy => by rw [henvs]; exact h.sole y hy, fun p hp => ?_,
    fun y p x hx => ?_, fun y p f hx y' p' a hx' => ?_, hl.cost n h.free⟩
  · by_cases hn : p = pageOf va
    · exact ⟨g, hn ▸ hput.here⟩
    · obtain ⟨f, hf⟩ := h.pages p ((Finset.mem_insert.mp hp).resolve_left hn)
      exact ⟨f, (hput.rest e p fun hx => hn hx.2).trans hf⟩
  · by_cases hn : y = e ∧ p = pageOf va
    · exact ⟨hn.1, Finset.mem_insert.mpr (Or.inl hn.2)⟩
    · exact (h.only y p x (hold hn hx)).imp_right fun hp => Finset.mem_insert_of_mem hp
  · rcases hnew hx with ⟨rfl, rfl⟩ | hfg
    · rw [hput.here] at hx
      cases hx
      exact (hnew hx').resolve_right (by simp)
    · by_cases hn : y = e ∧ p = pageOf va
      · obtain ⟨rfl, rfl⟩ := hn
        rw [hput.here] at hx
        cases hx
        exact absurd rfl hfg
      · by_cases hn' : y' = e ∧ p' = pageOf va
        · obtain ⟨rfl, rfl⟩ := hn'
          rw [hput.here] at hx'
          cases hx'
          exact absurd rfl hfg
        · exact h.alone y p f (hold hn hx) y' p' a (hold hn' hx')

/-- Everybody is in the program. -/
def started (s : KState) : Sys := ⟨s, fun _ => idle⟩

theorem Owns.reserved {A : Finset PageNo} {n : Nat} (h : Owns s e A n) (ht : temp ∉ A) : Reserved s := by
  have hfree : ∀ y, mappedAt s y pftemp = none := fun y =>
    h.kern.unmapped (Option.eq_none_iff_forall_ne_some.mpr fun x hx => ht (h.only y temp x hx).2)
  refine ⟨hfree, fun f => ?_, fun y i j => (h.kern.plain y i j).notCow trivial⟩
  obtain ⟨V, hV, hin⟩ := h.kern.few trivial f
  refine ⟨V, hV, fun y i j hf => (hin y i j hf).resolve_right fun hx => ?_⟩
  have hm := hfree y
  rw [mappedAt, ← (Prod.mk_inj.mp hx).1, ← (Prod.mk_inj.mp hx).2, hf] at hm
  cases hm

/-- What `e` has in private memory. -/
theorem Owns.memory {A : Finset PageNo} {n : Nat} (h : Owns s e A n) (p : PageNo) :
    (∃ z, memoryOf s e p = some z) ↔ p ∈ A := by
  constructor
  · rintro ⟨z, hz⟩
    obtain ⟨x, hx, -⟩ := Option.map_eq_some_iff.mp hz
    exact (h.only e p x hx).2
  · intro hp
    obtain ⟨f, hf⟩ := h.pages p hp
    exact ⟨_, shown_of_slot hf⟩

/-- The loop of `fork` copies no more pages than `e` has. -/
theorem card_toCopy_le {A : Finset PageNo} (hA : ∀ p z, I e p = some z → p ∈ A) :
    (toCopy I e 0).card ≤ A.card := by
  have hat : ∀ {m}, m ∈ toCopy I e 0 → m < pgnum ustacktop ∧ nth m ∈ A := by
    intro m hm
    simp only [toCopy, Finset.mem_filter, Finset.mem_Ico] at hm
    obtain ⟨z, hz⟩ := Option.isSome_iff_exists.mp hm.2
    exact ⟨hm.1.2, hA _ z hz⟩
  exact Finset.card_le_card_of_injOn nth (fun m hm => (hat hm).2) fun m hm m' hm' hx =>
    (nth_inj (hat hm).1 (hat hm').1).mp hx

/-- The program stores 5 and calls `fork`. -/
theorem Owns.forks {A : Finset PageNo} {n : Nat} (h : Owns s e A n) (upcall : Word)
    (hA : pageOf 0x800000 ∈ A) (hn : 2 * A.card + 8 ≤ n) : ∃ x ls T G J f,
    Run (restrict Within (Step upcall)) (started s) ls T ∧ Good True T G J ∧ OnCpu T.kern 1 e ∧ x ≠ e ∧
    T.threads e = idle ∧ T.threads x = idle ∧ (∀ y, (T.kern.envs y).envStatus = .runnable ↔ y = x) ∧
    PagesFree T.kern 3 ∧ (∀ m < pgnum ustacktop, (∃ z, J e (nth m) = some z) ↔ nth m ∈ A) ∧
    (∃ z, J x (pageOf 0x800000) = some z ∧ z.data.byte 0 = 5) ∧
    (frames T.kern).slot e (pageOf 0x800000) = some (f, .cow) ∧
    [.write e 0x800000 5, .copied e x (pageOf 0x800000), .started e x].Sublist
      (ls.map Label.occurs) := by
  have hgood : Good True (started s) nothingLent (memoryOf s) :=
    good_of_alone h.kern h.alone fun _ => rfl
  obtain ⟨f, hslot⟩ := h.pages _ hA
  have hr : ((started s).threads e).Reaches 0x800000 := ⟨by simp [started, idle], by decide, Or.inl rfl⟩
  -- the store
  have hc : OnCpu (started s).kern 1 e := h.cpu
  have hsp := spares_store (S := started s) (b := 5) h.kern hc (show (0x800000 : Word) < utop by decide)
    hslot (.write e 0x800000 5)
  have hst := step_store (S := started s) upcall 5 h.kern hc hr hslot
  obtain ⟨G1, hgo1, hg1, hc1⟩ := hgood.program (P := fun _ => False)
    (l := ⟨1, .store 0x800000 5, .write e 0x800000 5⟩) hc (by simp) (by simp) hsp hst inside_storeTo
  set S1 := (started s).storeTo f 0x800000 5
  set I1 := (memoryOf s).after (.write e 0x800000 5) with hI1
  have hI1e : I1 e (pageOf 0x800000) = some ⟨true, (s.mem f).setByte (pgoff 0x800000) 5⟩ := by
    rw [hI1, Memory.after, setPage_self, show memoryOf s e (pageOf 0x800000) = _ from shown_of_slot hslot]
    rfl
  have hsome : ∀ p, (∃ z, I1 e p = some z) ↔ p ∈ A := fun p => by
    by_cases hp : p = pageOf 0x800000
    · exact hp ▸ iff_of_true ⟨_, hI1e⟩ hA
    · rw [hI1, Memory.after, setPage_of_ne fun hx => hp hx.2]
      exact h.memory p
  have hcard := card_toCopy_le fun p z hz => (hsome p).mp ⟨z, hz⟩
  -- `fork`
  obtain ⟨G2, hgo2, hg2, hc2⟩ := Good.program (P := fun _ => False) (I := I1)
    (l := ⟨1, .fork true, .quiet⟩) hg1 hc1 (by simp) (by simp)
    ⟨fun _ _ _ ha => (by cases ha), fun _ _ ha => (by cases ha)⟩
    (step_fork upcall hc1 rfl) inside_setThread
  obtain ⟨y, hy⟩ : ∃ y : EnvIdx, y ≠ e := exists_ne e
  obtain ⟨x, ls, T, G3, J, hgo3, hg3, hth3, hxe, hrun, hpages, htold⟩ := Good.fork_returns (I := I1) hg2
    upcall hc2 (Function.update_self ..) (h.sole y hy) (h.free.mono (by omega))
  have hgo12 := hgo1.trans hgo2
  have hm : 0x800 < pgnum ustacktop := by decide
  have hnth : nth 0x800 = pageOf 0x800000 := by decide
  have hJx := (hpages 0x800 hm).2
  obtain ⟨hsub, hcow⟩ := htold 0x800 _ hm (hnth ▸ hI1e)
  rw [hnth] at hJx hsub hcow
  obtain ⟨g, hg⟩ := hcow rfl
  refine ⟨x, _, T, G3, J, g, hgo12.run.append hgo3.run, hg3, hc2.of_cpus hgo3.cpus, hxe, hth3,
    (hgo3.threads x hxe).trans (hgo12.threads x hxe), fun z => ⟨fun hz => ?_, fun hz => hz ▸ hrun⟩,
    hgo3.cost 3 (h.free.mono (by omega)), fun m hm => by rw [(hpages m hm).1]; exact hsome _,
    ⟨_, hJx.trans hI1e, ?_⟩, hg, ?_⟩
  · rcases hgo3.runnable z hz with hz | hz
    · -- nobody could run before
      rcases hgo12.runnable z hz with hz | hz
      · replace hz : (s.envs z).envStatus = .runnable := hz
        by_cases hze : z = e
        · rw [hze, h.kern.running h.cpu] at hz
          cases hz
        · rw [h.sole z hze] at hz
          cases hz
      · exact hz.elim
    · exact hz
  · rw [Page.byte_setByte _ (by decide) (by decide)]
    rfl
  · rw [List.map_append]
    exact List.Sublist.append (List.singleton_sublist.mpr (by simp)) hsub

/-! ### The refinement -/

end CowFork

end Jos
