import Jos.BootInv

/-!
  Failed system calls.

  Each call checks and acquires before it commits anything, and the one call that fails after it
  took a page gives the page back. `Undone` is the little that may have happened: the page taken
  and given back was zeroed. -/

namespace Jos

open Lib RefCount

/-- Nothing happened, or the first free page was zeroed. -/
def Undone (s t : KState) : Prop :=
  t = s ∨ ∃ f, s.pageFreeList = some f ∧ t = s.setFrame f fun _ => 0

/-- The outcome of a call: on an error everything is undone, and a result is not negative. -/
def Atomic (s : KState) (r : Except Err Word) (t : KState) : Prop :=
  match r with
  | .error _ => Undone s t
  | .ok w => w.msb = false

/-- A call that does not return is of no concern here. -/
def AnyStop (_ : Stop) (_ : KState) : Prop := True

@[simp] theorem anyStop (x : Stop) (t : KState) : AnyStop x t := trivial

@[simp] theorem atomic_error {s : KState} {err : Err} : Atomic s (.error err) s := Or.inl rfl

@[simp] theorem atomic_zero {s t : KState} : Atomic s (.ok 0#32) t := rfl

section

variable {c : CpuIdx} {s : KState}

theorem wp_anything {α : Type} (x : K α) : wp x (fun _ _ => True) AnyStop s := by
  cases h : x s with
  | ok a t => exact (wp_ok h).mpr trivial
  | error e t => exact (wp_error h).mpr trivial

theorem envid2env_same {envid : Word} {chk : Bool} :
    wp (envid2env c envid chk) (fun _ t => t = s) AnyStop s := by
  unfold envid2env
  simp only [wp_bind, wp_get]
  cases s.curenv c with
  | none => simp
  | some cur =>
    simp only [wp_ite, wp_pure]
    simp

theorem getCurenv_same : wp (getCurenv c) (fun _ t => t = s) AnyStop s := by
  unfold getCurenv
  simp only [wp_bind, wp_get]
  cases s.curenv c with
  | none => simp
  | some cur => simp

theorem getPgdir_same {e : EnvIdx} : wp (getPgdir e) (fun _ t => t = s) AnyStop s := by
  unfold getPgdir
  simp only [wp_bind, wp_get]
  cases (s.envs e).envPgdir with
  | none => simp
  | some d => simp

theorem kaddr_same {pa : Word} : wp (kaddr pa) (fun _ t => t = s) AnyStop s := by
  unfold kaddr
  simp only [wp_bind, wp_get, wp_ite, wp_throw, wp_pure, anyStop, implies_true, and_self]

theorem pa2page_same {pa : Word} : wp (pa2page pa) (fun _ t => t = s) AnyStop s := by
  unfold pa2page
  simp only [wp_bind, wp_get, wp_ite, wp_throw, wp_pure, anyStop, implies_true, and_self]

theorem tableEntry_same {d : Nat} {va : Word} :
    wp (tableEntry d va) (fun r t => t = s ∧ r ≠ none) AnyStop s := by
  unfold tableEntry
  simp only [wp_bind, wp_get]
  refine kaddr_same.mono ?_ fun _ _ _ => trivial
  rintro f t rfl
  simp

/-- `page_alloc` fails only on an empty list. -/
theorem pageAlloc_same {zero : Bool} :
    wp (pageAlloc zero) (fun r t => r = none → t = s) AnyStop s := by
  unfold pageAlloc
  simp only [wp_bind, wp_get]
  cases s.pageFreeList with
  | none => exact (wp_pure _).mpr fun _ => rfl
  | some f =>
    rw [wp_bind, wp_set]
    refine wp_ite.mpr ⟨fun _ => ?_, fun _ => (wp_pure _).mpr fun hx => by cases hx⟩
    refine wp.bind (Q := fun _ _ => True) (wp_anything _) fun g t _ => ?_
    rw [wp_bind, wp_modify, wp_pure]
    intro hx
    cases hx

/-- `pgdir_walk` without a result changed nothing. -/
theorem pgdirWalk_same {d : Nat} {va : Word} {create : Bool} :
    wp (pgdirWalk d va create) (fun r t => r = none ∨ create = false → t = s) AnyStop s := by
  unfold pgdirWalk
  simp only [wp_bind, wp_get, wp_ite]
  refine ⟨fun _ => ⟨fun hc => ?_, fun _ => (wp_pure _).mpr fun _ => rfl⟩, fun _ => ?_⟩
  · refine pageAlloc_same.mono ?_ fun _ _ _ => trivial
    rintro (_ | f) t ht
    · exact (wp_pure _).mpr fun _ => ht rfl
    · unfold ppIncref
      simp only [wp_bind, wp_modify]
      refine tableEntry_same.mono ?_ fun _ _ _ => trivial
      rintro r u ⟨-, hr⟩ (hn | hf)
      · exact absurd hn hr
      · rw [hc] at hf
        cases hf
  · refine tableEntry_same.mono ?_ fun _ _ _ => trivial
    rintro r u ⟨rfl, -⟩ -
    rfl

theorem pageLookup_same {d : Nat} {va : Word} :
    wp (pageLookup d va) (fun _ t => t = s) AnyStop s := by
  unfold pageLookup
  rw [wp_bind]
  refine pgdirWalk_same.mono ?_ fun _ _ _ => trivial
  intro r t ht
  obtain rfl := ht (Or.inr rfl)
  cases r with
  | none => simp
  | some pte =>
    simp only [wp_bind, wp_get, wp_ite, wp_pure, implies_true, true_and]
    intro _
    exact pa2page_same.mono (fun _ _ h => h) fun _ _ _ => trivial

/-- A failed `page_insert` changed nothing. -/
theorem pageInsert_same {d pp : Nat} {va perm : Word} :
    wp (pageInsert c d pp va perm) (fun r t => (∃ err, r = .error err) → t = s) AnyStop s := by
  unfold pageInsert
  rw [wp_bind]
  refine pgdirWalk_same.mono ?_ fun _ _ _ => trivial
  intro r t ht
  cases r with
  | none =>
    obtain rfl := ht (Or.inl rfl)
    exact (wp_pure _).mpr fun _ => rfl
  | some entry =>
    refine wp.bind (Q := fun _ _ => True) (wp_anything _) fun _ u _ => ?_
    have done : ∀ v, wp (do
        modify fun s => s.poke entry.1 entry.2 (page2pa pp ||| perm ||| pteP)
        return .ok () : K (Except Err Unit)) (fun r t => (∃ err, r = .error err) → t = s)
        AnyStop v := by
      intro v
      rw [wp_bind, wp_modify, wp_pure]
      rintro ⟨err, herr⟩
      cases herr
    rw [wp_bind, wp_get]
    refine wp_ite.mpr ⟨fun _ => ?_, fun _ => done u⟩
    refine wp.bind (Q := fun _ _ => True) (wp_anything _) fun _ v _ => ?_
    exact wp.bind (Q := fun _ _ => True) (wp_anything _) fun _ v _ => done v

/-- A page that was taken and given back. -/
theorem push_pop_setFrame {f : Nat} (hf : s.pageFreeList = some f) (p : Page) :
    ((s.pop f).setFrame f p).push f = s.setFrame f p := by
  have hpages : Function.update (Function.update s.pages f { s.pages f with ppLink := none }) f
      { s.pages f with ppLink := (s.pages f).ppLink } = s.pages := by
    rw [Function.update_idem]
    exact Function.update_eq_self f s.pages
  unfold KState.push KState.pop KState.setFrame KState.setPage KState.fill
  simp only [Function.update_self, hpages, hf]

/-! ### The calls -/

theorem sysPageAlloc_atomic {L : List Nat} {envid va perm : Word} (h : PageInv s L ∅) :
    wp (sysPageAlloc c envid va perm) (Atomic s) AnyStop s := by
  unfold sysPageAlloc
  rw [wp_bind]
  refine envid2env_same.mono ?_ fun _ _ _ => trivial
  rintro (err | e) t rfl
  · simp
  simp only [wp_ite, wp_pure, atomic_error, implies_true, true_and]
  rintro - -
  cases L with
  | nil =>
    rw [wp_bind, wp_ok (pageAlloc_nil h true)]
    simp
  | cons f L =>
    rw [wp_bind, wp_ok (pageAlloc_cons h true)]
    simp only [if_true, wp_bind]
    set m := (t.pop f).setFrame f fun _ => 0 with hm
    refine getPgdir_same.mono ?_ fun _ _ _ => trivial
    rintro d u hu
    subst hu
    refine pageInsert_same.mono ?_ fun _ _ _ => trivial
    rintro (err | -) v hv
    · obtain rfl := hv ⟨err, rfl⟩
      have hfree := h.counted.ref_free (List.mem_cons_self (a := f) (l := L))
      have hp : (m.pages f).ppRef = 0 ∧ (m.pages f).ppLink = none := by
        rw [hm]
        simp [KState.pop, KState.setPage, hfree]
      simp only [wp_bind]
      rw [wp_ok (pageFree_run hp.1 hp.2), wp_pure, hm, push_pop_setFrame h.chain.1]
      exact Or.inr ⟨f, h.chain.1, rfl⟩
    · simp

theorem sysPageMap_atomic {a1 a2 a3 a4 a5 : Word} :
    wp (sysPageMap c a1 a2 a3 a4 a5) (Atomic s) AnyStop s := by
  unfold sysPageMap
  rw [wp_bind]
  refine envid2env_same.mono ?_ fun _ _ _ => trivial
  rintro (err | src) t rfl
  · simp
  simp only [wp_bind]
  refine envid2env_same.mono ?_ fun _ _ _ => trivial
  rintro (err | dst) u rfl
  · simp
  simp only [wp_ite, wp_pure, atomic_error, implies_true, true_and, wp_bind]
  rintro - -
  refine getPgdir_same.mono ?_ fun _ _ _ => trivial
  rintro d t rfl
  refine pageLookup_same.mono ?_ fun _ _ _ => trivial
  rintro (_ | ⟨pp, pte⟩) u rfl
  · simp
  simp only [wp_bind, wp_get, wp_ite, wp_pure, atomic_error, implies_true, true_and]
  rintro -
  refine getPgdir_same.mono ?_ fun _ _ _ => trivial
  rintro d' t rfl
  refine pageInsert_same.mono ?_ fun _ _ _ => trivial
  rintro (err | -) v hv
  · obtain rfl := hv ⟨err, rfl⟩
    simp
  · simp

theorem sysPageUnmap_atomic {envid va : Word} :
    wp (sysPageUnmap c envid va) (Atomic s) AnyStop s := by
  unfold sysPageUnmap
  rw [wp_bind]
  refine envid2env_same.mono ?_ fun _ _ _ => trivial
  rintro (err | e) t rfl
  · simp
  simp only [wp_ite, wp_pure, atomic_error, implies_true, true_and]
  rintro -
  refine wp.bind (Q := fun _ _ => True) (wp_anything _) fun d u _ => ?_
  refine wp.bind (Q := fun _ _ => True) (wp_anything _) fun _ v _ => ?_
  simp

theorem sysEnvSetStatus_atomic {envid status : Word} :
    wp (sysEnvSetStatus c envid status) (Atomic s) AnyStop s := by
  unfold sysEnvSetStatus
  cases statusOfWord status with
  | none => simp
  | some st =>
    simp only [wp_bind]
    refine envid2env_same.mono ?_ fun _ _ _ => trivial
    rintro (err | e) t rfl
    · simp
    · simp only [wp_bind, wp_modify, wp_pure]
      exact atomic_zero

theorem sysEnvSetPgfaultUpcall_atomic {envid func : Word} :
    wp (sysEnvSetPgfaultUpcall c envid func) (Atomic s) AnyStop s := by
  unfold sysEnvSetPgfaultUpcall
  simp only [wp_bind]
  refine envid2env_same.mono ?_ fun _ _ _ => trivial
  rintro (err | e) t rfl
  · simp
  · simp only [wp_bind, wp_modify, wp_pure]
    exact atomic_zero

theorem sysIpcRecv_atomic {dstva : Word} : wp (sysIpcRecv c dstva) (Atomic s) AnyStop s := by
  unfold sysIpcRecv
  simp only [wp_ite, wp_pure, atomic_error, implies_true, true_and]
  rintro -
  refine wp.bind (Q := fun _ _ => True) (wp_anything _) fun cur t _ => ?_
  rw [wp_bind, wp_modify]
  refine wp.bind (Q := fun _ _ => True) (wp_anything _) fun _ u _ => ?_
  simp

/-- The page part of a send fails before it maps anything. -/
theorem ipcSendPage_same {inp : Input} {e : EnvIdx} {srcva perm : Word} :
    wp (ipcSendPage c inp e srcva perm) (fun r t => (∃ err, r = .error err) → t = s) AnyStop s := by
  have hsame : ∀ {t : KState} {err : Err}, t = s →
      wp (return .error err : K (Except Err Unit)) (fun r t => (∃ err, r = .error err) → t = s)
        AnyStop t := fun ht => (wp_pure _).mpr fun _ => ht
  unfold ipcSendPage
  rw [wp_bind]
  refine getCurenv_same.mono ?_ fun _ _ _ => trivial
  rintro cur t rfl
  rw [wp_bind]
  refine getPgdir_same.mono ?_ fun _ _ _ => trivial
  rintro d u rfl
  rw [wp_bind]
  refine pageLookup_same.mono ?_ fun _ _ _ => trivial
  rintro (_ | ⟨pg, pte⟩) t rfl
  · refine wp_ite.mpr ⟨fun _ => hsame rfl, fun _ => ?_⟩
    cases inp.strayPte with
    | none => simp
    | some w => exact hsame rfl
  · refine wp_ite.mpr ⟨fun _ => hsame rfl, fun _ => ?_⟩
    simp only [wp_bind, wp_get]
    refine wp_ite.mpr ⟨fun _ => hsame rfl, fun _ => wp_ite.mpr ⟨fun _ => hsame rfl, fun _ =>
      wp_ite.mpr ⟨fun _ => ?_, fun _ => (wp_pure _).mpr fun hx => absurd hx (by simp)⟩⟩⟩
    rw [wp_bind]
    refine getPgdir_same.mono ?_ fun _ _ _ => trivial
    rintro d' u rfl
    rw [wp_bind]
    refine pageInsert_same.mono ?_ fun _ _ _ => trivial
    rintro (err | -) v hv
    · exact hsame (hv ⟨err, rfl⟩)
    · simp only [wp_bind, wp_modify, wp_pure]
      exact fun hx => absurd hx (by simp)

theorem sysIpcTrySend_atomic {inp : Input} {a1 a2 a3 a4 : Word} :
    wp (sysIpcTrySend c inp a1 a2 a3 a4) (Atomic s) AnyStop s := by
  unfold sysIpcTrySend
  rw [wp_bind]
  refine envid2env_same.mono ?_ fun _ _ _ => trivial
  rintro (err | env) t rfl
  · exact (wp_pure _).mpr atomic_error
  -- a message that was not refused is delivered
  have finish : ∀ (r : Except Err Unit) u, ((∃ err, r = .error err) → u = t) →
      wp (sysIpcTrySendRest c env a2 r) (Atomic t) AnyStop u := by
    rintro (err | -) u hu
    · obtain rfl := hu ⟨err, rfl⟩
      exact (wp_pure _).mpr atomic_error
    · exact wp.bind (Q := fun _ _ => True) (wp_anything _) fun _ v _ => (wp_pure _).mpr atomic_zero
  simp only [wp_bind, wp_get]
  refine wp_ite.mpr ⟨fun _ => (wp_pure _).mpr atomic_error, fun _ => ?_⟩
  refine wp_ite.mpr ⟨fun _ => ?_, fun _ => ?_⟩ <;> rw [wp_bind]
  · exact ipcSendPage_same.mono finish fun _ _ _ => trivial
  · exact (wp_pure _).mpr (finish (.ok ()) t fun _ => rfl)

theorem nextGeneration_ne_zero (id : Word) (e : EnvIdx) :
    nextGeneration id ||| BitVec.ofNat 32 e.val ≠ 0 := by
  have hg : nextGeneration id ≠ 0 := by
    unfold nextGeneration
    simp only
    split
    · decide
    · rename_i hpos
      intro h0
      exact hpos (by rw [h0]; decide)
  exact fun h0 => hg (BitVec.or_eq_zero_iff.mp h0).1

/-- The ids that `env_alloc` hands out are not negative. -/
theorem nextGeneration_msb (id : Word) (e : EnvIdx) :
    (nextGeneration id ||| BitVec.ofNat 32 e.val).msb = false := by
  have he : (BitVec.ofNat 32 e.val).msb = false := by
    have := e.isLt
    rw [BitVec.msb_eq_decide, BitVec.toNat_ofNat]
    simp only [decide_eq_false_iff_not, not_le]
    omega
  have hg : (nextGeneration id).msb = false := by
    unfold nextGeneration
    simp only
    split
    · rfl
    · rename_i hpos
      rw [BitVec.msb_eq_toInt]
      simp only [BitVec.sle, decide_eq_true_eq, not_le] at hpos
      have h0 : (0 : Word).toInt = 0 := rfl
      simp only [decide_eq_false_iff_not, not_lt]
      omega
  rw [BitVec.msb_or, hg, he]
  rfl

theorem envAlloc_same {parent : Word} : wp (envAlloc parent) (fun r t => match r with
    | .error _ => t = s
    | .ok e => (t.envs e).envId.msb = false) AnyStop s := by
  unfold envAlloc
  rw [wp_bind, wp_get]
  cases s.envFreeList with
  | none => exact (wp_pure _).mpr rfl
  | some e =>
    have hset : wp (envSetupVm e) (fun r t => (∃ err, r = .error err) → t = s) AnyStop s := by
      unfold envSetupVm
      rw [wp_bind]
      refine pageAlloc_same.mono ?_ fun _ _ _ => trivial
      rintro (_ | p) t ht
      · exact (wp_pure _).mpr fun _ => ht rfl
      · refine wp.bind (Q := fun _ _ => True) (wp_anything _) fun g u _ => ?_
        rw [wp_bind, wp_modify]
        refine wp.bind (Q := fun _ _ => True) (wp_anything _) fun _ v _ => ?_
        rw [wp_bind, wp_modify, wp_pure]
        exact fun hx => nomatch hx
    rw [wp_bind]
    refine hset.mono ?_ fun _ _ _ => trivial
    rintro (err | -) t ht
    · exact (wp_pure _).mpr (ht ⟨err, rfl⟩)
    · simp only [wp_bind, wp_modify, wp_pure]
      show ((Function.update t.envs e _) e).envId.msb = false
      rw [Function.update_self]
      exact nextGeneration_msb _ e

theorem sysExofork_atomic : wp (sysExofork c) (Atomic s) AnyStop s := by
  unfold sysExofork
  rw [wp_bind]
  refine getCurenv_same.mono ?_ fun _ _ _ => trivial
  rintro cur t rfl
  rw [wp_bind, wp_get, wp_bind]
  refine envAlloc_same.mono ?_ fun _ _ _ => trivial
  rintro (err | e) u hu
  · obtain rfl := hu
    exact (wp_pure _).mpr atomic_error
  · simp only [wp_bind, wp_modify, wp_get, wp_pure]
    show ((Function.update u.envs e _) e).envId.msb = false
    rw [Function.update_self]
    exact hu

/-- The system calls that report failure by a negative value. -/
def MayFail (no : Nat) : Prop := no ∈ [4, 5, 6, 7, 8, 9, 11, 12]

/-- A call that returns a negative value is undone. -/
theorem syscall_undone {L : List Nat} {inp : Input} {no a1 a2 a3 a4 a5 : Word} (h : PageInv s L ∅)
    (hno : MayFail no.toNat) : wp (syscall c inp no a1 a2 a3 a4 a5)
      (fun r t => r.msb = true → Undone s t) AnyStop s := by
  have ret : ∀ {x : K (Except Err Word)}, wp x (Atomic s) AnyStop s →
      wp (do return retCode (← x)) (fun r t => r.msb = true → Undone s t) AnyStop s := by
    intro x hx
    refine hx.bind ?_
    rintro (err | w) t ht
    · exact (wp_pure _).mpr fun _ => ht
    · refine (wp_pure _).mpr fun hneg => ?_
      rw [show retCode (.ok w) = w from rfl, show w.msb = false from ht] at hneg
      cases hneg
  unfold syscall
  generalize no.toNat = n at hno
  simp only [MayFail, List.mem_cons, List.not_mem_nil, or_false] at hno
  rcases hno with rfl | rfl | rfl | rfl | rfl | rfl | rfl | rfl
  · exact ret (sysPageAlloc_atomic h)
  · exact ret sysPageMap_atomic
  · exact ret sysPageUnmap_atomic
  · exact ret sysExofork_atomic
  · exact ret sysEnvSetStatus_atomic
  · exact ret sysEnvSetPgfaultUpcall_atomic
  · exact ret sysIpcTrySend_atomic
  · exact ret sysIpcRecv_atomic

end

/-- Nothing that environments or the allocators can observe has changed. -/
structure NoTrace (s t : KState) : Prop where
  /-- Every field of every environment: status, ids, IPC fields, registers, upcall. -/
  envs : t.envs = s.envs
  envFreeList : t.envFreeList = s.envFreeList
  /-- Address translations: every word of every directory and page table. -/
  pde : ∀ o d i, dirFrame s o = some d → dirFrame t o = some d ∧ t.mem d i = s.mem d i
  pte : ∀ o i j, tabFrame t o i = tabFrame s o i ∧ pteAt t o i j = pteAt s o i j
  /-- Every counter and every link of the free list. -/
  pages : t.pages = s.pages
  freeList : t.pageFreeList = s.pageFreeList

theorem Undone.noTrace {s t : KState} {L : List Nat} (h : Undone s t) (hL : PageInv s L ∅) :
    NoTrace s t := by
  rcases h with rfl | ⟨f, hf, rfl⟩
  · exact ⟨rfl, rfl, fun _ _ _ hd => ⟨hd, rfl⟩, fun _ _ _ => ⟨rfl, rfl⟩, rfl, rfl⟩
  · have hfL : f ∈ L := by
      cases L with
      | nil => rw [show s.pageFreeList = none from hL.chain] at hf; cases hf
      | cons g L =>
        rw [hL.chain.1] at hf
        exact Option.some.inj hf ▸ List.mem_cons_self ..
    have hnt := hL.notTable_of_free hfL
    refine ⟨rfl, rfl, fun o d i hd => ⟨hd, ?_⟩, fun o i j => ?_, rfl, rfl⟩
    · have hne : d ≠ f := fun he => hnt.not_dir o (he ▸ hd)
      rw [KState.setFrame_mem, Function.update_of_ne hne]
    · rw [hnt.pteAt_setFrame, tabFrame_setFrame fun o => hnt.not_dir o]
      exact ⟨rfl, rfl⟩

/-- A system call that returns a negative value leaves no trace. -/
theorem failed_call_leaves_no_trace {c : CpuIdx} {s t : KState} {L : List Nat} {inp : Input}
    {no a1 a2 a3 a4 a5 r : Word} (h : PageInv s L ∅) (hno : MayFail no.toNat)
    (hrun : syscall c inp no a1 a2 a3 a4 a5 s = .ok r t) (hneg : r.msb = true) : NoTrace s t :=
  ((syscall_undone h hno).ok hrun hneg).noTrace h

/-- The first program of the demonstration machine asks for a status that does not exist. -/
theorem failed_call_leaves_no_trace_demo :
    ∃ s L, boot demo = some s ∧ PageInv s L ∅ ∧
      syscall 1 .plain 8 0 7 0 0 0 s = .ok (-3) s ∧ NoTrace s s := by
  obtain ⟨s, L, hboot, -, hL, -⟩ := demo_boots
  have hrun : syscall 1 .plain 8 0 7 0 0 0 s = .ok (-3) s := rfl
  exact ⟨s, L, hboot, hL, hrun, failed_call_leaves_no_trace hL
    (show (8 : Word).toNat ∈ [4, 5, 6, 7, 8, 9, 11, 12] by decide) hrun (by decide)⟩

end Jos
