import Jos.Irq
import Jos.Layout

/-!
  What user code can read from `UTOP` up.

  Every environment gets the kernel's entries there. The page table at `UPAGES` is meant to show
  the array `pages`; it shows the first 1024 frames of memory instead, whoever uses them. -/

namespace Jos

open Lib RefCount

/-- The frame that user code reads at `va` under directory `d`. -/
def userReads (s : KState) (d : Nat) (va : Word) : Option Nat :=
  let pde := s.mem d (pdx va)
  let pte := s.mem (pgnum pde) (ptx va)
  if pde &&& userRead = userRead ∧ pte &&& userRead = userRead then some (pgnum pte) else none

/-- Frame `f` holds a part of the array of `size` bytes at the kernel address `kva`. -/
def PartOf (kva : Word) (size f : Nat) : Prop :=
  (kva - kernbase).toNat < (f + 1) * pgsize ∧ f * pgsize < (kva - kernbase).toNat + size

/-- Directory `d` shows itself and its page tables at `UVPT`. -/
def ThroughUvpt (s : KState) (d : Nat) (va : Word) (f : Nat) : Prop :=
  pdx va = uvptPdx ∧ (f = d ∨ ∃ i, entryFrame (s.mem d i) = some f)

/-- What `e` can read from `UTOP` up is `pages`, `envs`, or its own page tables. -/
def ReadIsolated (s : KState) (e : EnvIdx) : Prop :=
  ∀ d va f, (s.envs e).envPgdir = some d → utop ≤ va → userReads s d va = some f →
    PartOf s.pagesAt (s.npages * sizeofPageInfo) f ∨ PartOf s.envsAt (nenv * sizeofEnv) f ∨
      ThroughUvpt s d va f

section

variable {p : BootParams} {s : KState} {e : EnvIdx} {d : Nat} {va : Word}

/-- A CPU that runs with directory `d` loaded reads what `d` gives. -/
theorem userAccess_read {c : CpuIdx} (va : Word) :
    userAccess s c userRead va = userReads s (s.cr3 c) va := rfl

theorem present_of_userRead {w : Word} (h : w &&& userRead = userRead) : w &&& pteP ≠ 0 := by
  intro h0
  have hmask : userRead &&& pteP = pteP := by decide
  have h1 : w &&& userRead &&& pteP = w &&& pteP := by rw [BitVec.and_assoc, hmask]
  rw [h, h0, hmask] at h1
  exact absurd h1 (by decide)

theorem userRead_shown (j : Nat) : (page2pa j ||| pteU ||| pteP) &&& userRead = userRead := by
  ext i
  simp only [userRead, BitVec.getElem_or, BitVec.getElem_and]
  cases pteU[i] <;> cases pteP[i] <;> simp

/-- The window at `UPAGES` shows the first 1024 frames to every environment. -/
theorem KernHalf.reads (h : KernHalf s) (hd : (s.envs e).envPgdir = some d)
    (hv : pdx va = pdx upages) : userReads s d va = some (ptx va).val := by
  have hne : pdx upages ≠ uvptPdx := by decide
  have hpde : s.mem d (pdx va) = s.mem s.kernPgdir (pdx upages) := by
    rw [hv, h.upper e d hd _ (by decide), if_neg hne]
  have hread := h.pages.pde
  have hT : tabFrame s none (pdx upages) = some (pgnum (s.mem s.kernPgdir (pdx upages))) := by
    rw [tabFrame_of_dir (o := none) rfl hne, entryFrame_of_present (present_of_userRead hread)]
  have hpte := h.pages.pte (ptx va)
  rw [pteAt_of_tab hT] at hpte
  have hlt : (ptx va).val < 2 ^ 20 := by omega
  have hnum : entryFrame (page2pa (ptx va).val ||| pteU ||| pteP) = some (ptx va).val :=
    entryFrame_mk_of_lt hlt (by decide)
  simp only [userReads, hpde, hpte]
  rw [if_pos ⟨hread, userRead_shown _⟩, (entryFrame_eq_some.mp hnum).2]

/-- An array that lies beyond the first 256 frames has no part in frame 0. -/
theorem not_partOf_zero {kva : Word} {size : Nat} (h : 256 ≤ paddrFrame kva) :
    ¬ PartOf kva size 0 := by
  rintro ⟨h1, -⟩
  have hsize : pgsize = 4096 := rfl
  rw [paddrFrame, pgnum] at h
  omega

/-- Any environment reads frame 0 at `UPAGES`. -/
theorem KernHalf.not_isolated (h : KernHalf s) (hd : (s.envs e).envPgdir = some d) :
    ¬ ReadIsolated s e := by
  intro hi
  have hread : userReads s d upages = some (ptx upages).val := h.reads hd rfl
  have hzero : (ptx upages).val = 0 := by decide
  rw [hzero] at hread
  rcases hi d upages 0 hd (by decide) hread with h1 | h1 | h1
  · exact not_partOf_zero h.pages.above.1 h1
  · exact not_partOf_zero h.pages.above.2 h1
  · exact absurd h1.1 (by decide)

/-- Every live environment reads each of the first 1024 frames, whoever maps them. -/
theorem Inv.reads_low {T : Prop} (h : Inv T s) (hlive : (s.envs e).envStatus ≠ .free) {f : Nat}
    (hf : f < 1024) :
    ∃ d va, (s.envs e).envPgdir = some d ∧ utop ≤ va ∧ userReads s d va = some f := by
  obtain ⟨Le, hLe⟩ := h.core.envs
  cases hd : (s.envs e).envPgdir with
  | none => exact absurd ((hLe.dir e).mp hd) hlive
  | some d =>
    have hup : upages.toNat = 956 * 4194304 := by decide
    have hutop : utop.toNat = 955 * 4194304 := by decide
    have hva : (upages + BitVec.ofNat 32 (f * 4096)).toNat = upages.toNat + f * 4096 := by
      rw [BitVec.toNat_add, BitVec.toNat_ofNat]
      omega
    have hdx : pdx (upages + BitVec.ofNat 32 (f * 4096)) = pdx upages := by
      apply Fin.ext
      rw [pdx_val, pdx_val, hva]
      omega
    have htx : (ptx (upages + BitVec.ofNat 32 (f * 4096))).val = f := by
      rw [ptx_val, hva]
      omega
    refine ⟨d, _, rfl, ?_, (h.core.kern.reads hd hdx).trans (congrArg some htx)⟩
    rw [BitVec.le_def, hva]
    omega

/-- No live environment is confined to what it should see. -/
theorem Inv.not_isolated {T : Prop} (h : Inv T s) (hlive : (s.envs e).envStatus ≠ .free) :
    ¬ ReadIsolated s e := by
  obtain ⟨Le, hLe⟩ := h.core.envs
  cases hd : (s.envs e).envPgdir with
  | none => exact absurd ((hLe.dir e).mp hd) hlive
  | some d => exact h.core.kern.not_isolated hd

theorem Booted.live (h : Booted p s) : (s.envs 0).envStatus ≠ .free := by
  obtain ⟨v, -, hv⟩ := h.first
  rw [hv]
  exact fun hx => by cases hx

end

/-- On every machine that boots, read isolation fails: at once, for the first environment, and in
    every state reached later, for each live environment. -/
theorem read_isolation_fails {p : BootParams} {s : KState} (h : boot p = some s) :
    (¬ ∀ ls t, BootRun (fun _ _ => True) p ls t → ∀ e, (t.envs e).envStatus ≠ .free →
      ReadIsolated t e) ∧
    ∀ ls t, BootRun (StepSafe False) p ls t → ∀ e, (t.envs e).envStatus ≠ .free →
      ¬ ReadIsolated t e := by
  have hb := boot_booted h
  refine ⟨fun hall => ?_, fun ls t hrun e hlive => (reach_inv hrun).not_isolated hlive⟩
  exact hb.inv.not_isolated hb.live (hall [] s ⟨s, h, .nil s⟩ 0 hb.live)

theorem read_isolation_fails_demo : ∃ s, boot demo = some s ∧ ∀ ls t,
    BootRun (StepSafe False) demo ls t → ∀ e, (t.envs e).envStatus ≠ .free →
      ¬ ReadIsolated t e := by
  obtain ⟨s, L, hboot, -⟩ := demo_boots
  exact ⟨s, hboot, (read_isolation_fails hboot).2⟩

/-- After boot the first program of the demonstration machine reads physical frame 0 at `UPAGES`. -/
theorem upages_reads_frame_zero : ∃ s d, BootRun (fun _ _ => True) demo [] s ∧
    (s.envs 0).envStatus ≠ .free ∧ (s.envs 0).envPgdir = some d ∧
    userReads s d upages = some 0 ∧ ¬ ReadIsolated s 0 := by
  obtain ⟨s, L, hboot, hb, -⟩ := demo_boots
  obtain ⟨Le, hLe⟩ := hb.inv.core.envs
  have hlive := hb.live
  cases hd : (s.envs 0).envPgdir with
  | none => exact absurd ((hLe.dir 0).mp hd) hlive
  | some d =>
    exact ⟨s, d, ⟨s, hboot, .nil s⟩, hlive, hd, hb.inv.core.kern.reads hd rfl,
      hb.inv.not_isolated hlive⟩

end Jos
