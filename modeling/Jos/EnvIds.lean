import Jos.Effect
import Jos.Release
import Jos.Lib.Transition

/-!
  Environment ids (`env_init`, `env_alloc`, `env_free` and `envid2env` in `kern/env.c`).

  An id packs the index of its slot with a generation, which stays in the slot when the environment
  is freed. The generations run through the positive multiples of 4096 and start over after the
  largest one, so an id comes back in its slot after `idPeriod` allocations and not before. -/

namespace Jos

open Lib

/-- The number of generations. -/
def idPeriod : Nat := 2 ^ 19 - 1

/-- The id that the `n`-th allocation of slot `e` hands out, and 0 before the first. -/
def idAt (e : EnvIdx) : Nat → Word
  | 0 => 0
  | n + 1 => BitVec.ofNat 32 (4096 * (n % idPeriod + 1) + e.val)

section Arithmetic

variable (e : EnvIdx) (n : Nat)

theorem idAt_succ :
    idAt e (n + 1) = BitVec.ofNat 32 (4096 * (n % idPeriod + 1) + e.val) := rfl

theorem idAt_toNat : (idAt e (n + 1)).toNat = 4096 * (n % idPeriod + 1) + e.val := by
  have hn : n % idPeriod < idPeriod := Nat.mod_lt _ (by decide)
  have hp : idPeriod = 524287 := rfl
  have he := e.isLt
  rw [idAt, BitVec.toNat_ofNat]
  omega

theorem idAt_pos : 0 < (idAt e (n + 1)).toInt := by
  have hn : n % idPeriod < idPeriod := Nat.mod_lt _ (by decide)
  have hp : idPeriod = 524287 := rfl
  have he := e.isLt
  rw [BitVec.toInt_eq_toNat_cond, idAt_toNat]
  split <;> omega

theorem envx_idAt : envx (idAt e (n + 1)) = e := by
  apply Fin.ext
  have he := e.isLt
  rw [envx, idAt_toNat]
  simp only [Fin.ofNat]
  omega

theorem idAt_ne_zero : idAt e (n + 1) ≠ 0 := by
  intro h
  have := idAt_pos e n
  rw [h] at this
  exact absurd this (by decide)

variable {n}

/-- Two allocations of a slot hand out one id only if a multiple of the period lies between them. -/
theorem idAt_inj {m : Nat} (hmn : m < n) (hn : n < m + idPeriod) :
    idAt e (m + 1) ≠ idAt e (n + 1) := by
  intro h
  have ht := congrArg BitVec.toNat h
  rw [idAt_toNat, idAt_toNat] at ht
  have hmod : m % idPeriod = n % idPeriod := by omega
  have hp : idPeriod = 524287 := rfl
  rw [hp] at hmod hn
  omega

end Arithmetic

/-- Clearing the index bits. -/
theorem and_not_index (x : Word) : (x &&& ~~~(1023 : Word)).toNat = x.toNat / 1024 * 1024 := by
  have hs : x &&& ~~~(1023 : Word) = (x >>> 10) <<< 10 := by
    ext i hi
    have hbit : (1023 : Word)[i] = decide (i < 10) := by
      show (BitVec.ofNat 32 (2 ^ 10 - 1))[i] = decide (i < 10)
      rw [← BitVec.getLsbD_eq_getElem, BitVec.getLsbD_ofNat, Nat.testBit_two_pow_sub_one]
      simp [hi]
    rw [BitVec.getElem_and, BitVec.getElem_not, hbit, BitVec.getElem_shiftLeft]
    by_cases h10 : i < 10
    · simp [h10]
    · have hi' : 10 + (i - 10) = i := by omega
      simp [h10, hi', BitVec.getLsbD_eq_getElem hi]
  have := x.isLt
  rw [hs, BitVec.toNat_shiftLeft, BitVec.toNat_ushiftRight, Nat.shiftRight_eq_div_pow,
    Nat.shiftLeft_eq]
  omega

theorem envx_or_slot (k : Nat) (e : EnvIdx) {g : Word}
    (hg : g.toNat = 1024 * k) : envx (g ||| BitVec.ofNat 32 e.val) = e := by
  have he := e.isLt
  have hor := Nat.two_pow_add_eq_or_of_lt (i := 10) he k
  have hk' : 2 ^ 10 * k = 1024 * k := by omega
  rw [hk'] at hor
  apply Fin.ext
  rw [envx, BitVec.toNat_or, BitVec.toNat_ofNat, hg, Nat.mod_eq_of_lt (by omega : e.val < 2 ^ 32),
    ← hor]
  simp only [Fin.ofNat]
  omega

/-- `env_alloc` puts the slot into the id. -/
theorem envx_nextGeneration (id : Word) (e : EnvIdx) :
    envx (nextGeneration id ||| BitVec.ofNat 32 e.val) = e := by
  unfold nextGeneration
  simp only
  split
  · exact envx_or_slot 4 e rfl
  · have hlt := (id + 4096).isLt
    exact envx_or_slot ((id + 4096).toNat / 1024) e (by rw [and_not_index]; omega)

/-- Putting the index of a slot into a generation. -/
theorem generation_or (k : Nat) (hk : 4096 * k < 2 ^ 32) (e : EnvIdx) :
    BitVec.ofNat 32 (4096 * k) ||| BitVec.ofNat 32 e.val = BitVec.ofNat 32 (4096 * k + e.val) := by
  apply BitVec.eq_of_toNat_eq
  have he := e.isLt
  have hor := Nat.two_pow_add_eq_or_of_lt (i := 10) he (4 * k)
  have hk' : 2 ^ 10 * (4 * k) = 4096 * k := by omega
  rw [hk'] at hor
  rw [BitVec.toNat_or, BitVec.toNat_ofNat, BitVec.toNat_ofNat, BitVec.toNat_ofNat,
    Nat.mod_eq_of_lt hk, Nat.mod_eq_of_lt (by omega : e.val < 2 ^ 32), ← hor]
  omega

/-- `env_alloc` hands out the ids of a slot one after the other. -/
theorem nextGeneration_idAt (e : EnvIdx) (n : Nat) :
    nextGeneration (idAt e n) ||| BitVec.ofNat 32 e.val = idAt e (n + 1) := by
  have hp : idPeriod = 524287 := rfl
  have he := e.isLt
  cases n with
  | zero =>
    have h0 : nextGeneration 0 = BitVec.ofNat 32 (4096 * 1) := by decide
    rw [idAt, h0, generation_or 1 (by omega)]
    rfl
  | succ n =>
    have hn : n % idPeriod < idPeriod := Nat.mod_lt _ (by decide)
    have hsum : ((idAt e (n + 1) + 4096) &&& ~~~(1023 : Word)).toNat = 4096 * (n % idPeriod + 2) := by
      rw [and_not_index, BitVec.toNat_add, idAt_toNat]
      have h4096 : (4096 : Word).toNat = 4096 := rfl
      rw [h4096]
      omega
    rw [idAt_succ e (n + 1)]
    by_cases hlast : n % idPeriod + 1 = idPeriod
    · -- The generation after the largest one would be negative.
      have hsle : ((idAt e (n + 1) + 4096) &&& ~~~(1023 : Word)).sle 0 = true := by
        rw [BitVec.sle_eq_decide, decide_eq_true_eq, BitVec.toInt_eq_toNat_cond, hsum]
        have h0 : (0 : Word).toInt = 0 := rfl
        rw [h0]
        split <;> omega
      have hgen : nextGeneration (idAt e (n + 1)) = BitVec.ofNat 32 (4096 * 1) := by
        unfold nextGeneration
        simp only [hsle, if_true]
        rfl
      have hmod : (n + 1) % idPeriod = 0 := by rw [hp] at hlast ⊢; omega
      rw [hgen, generation_or 1 (by omega), hmod]
    · have hsle : ((idAt e (n + 1) + 4096) &&& ~~~(1023 : Word)).sle 0 = false := by
        rw [BitVec.sle_eq_decide, decide_eq_false_iff_not, BitVec.toInt_eq_toNat_cond, hsum]
        have h0 : (0 : Word).toInt = 0 := rfl
        rw [h0]
        split <;> omega
      have hgen : nextGeneration (idAt e (n + 1)) = BitVec.ofNat 32 (4096 * (n % idPeriod + 2)) := by
        unfold nextGeneration
        simp only [hsle]
        apply BitVec.eq_of_toNat_eq
        rw [if_neg (by simp), hsum, BitVec.toNat_ofNat]
        omega
      have hmod : (n + 1) % idPeriod = n % idPeriod + 1 := by
        rw [hp] at hlast ⊢
        omega
      rw [hgen, generation_or _ (by omega), hmod]

/-! ### Sequences of allocations -/

/-- A successful call of `env_alloc` or `env_free` with the slot and the id it is about, or code
    that leaves the ids and the list of free slots alone. -/
inductive EnvCall where
  | alloc (e : EnvIdx) (id : Word)
  | free (e : EnvIdx) (id : Word)
  | other

inductive EnvStep : KState → EnvCall → KState → Prop
  | alloc {s t : KState} {parent : Word} {e : EnvIdx} :
      envAlloc parent s = .ok (.ok e) t → EnvStep s (.alloc e (t.envs e).envId) t
  | free {s t : KState} {c : CpuIdx} {e : EnvIdx} :
      envFree c e s = .ok () t → EnvStep s (.free e (s.envs e).envId) t
  | other {s t : KState} : t.envFreeList = s.envFreeList →
      (∀ x, (t.envs x).envId = (s.envs x).envId ∧ (t.envs x).envLink = (s.envs x).envLink ∧
        (t.envs x).envPgdir = (s.envs x).envPgdir ∧
        ((t.envs x).envStatus = .free ↔ (s.envs x).envStatus = .free)) → EnvStep s .other t

/-- The ids that a sequence of calls hands out for slot `e`. -/
def idsOf (e : EnvIdx) : List EnvCall → List Word
  | [] => []
  | .alloc x id :: calls => if x = e then id :: idsOf e calls else idsOf e calls
  | _ :: calls => idsOf e calls

/-- Slot `e` has been allocated `n e` times. -/
structure Allotted (n : EnvIdx → Nat) (s : KState) : Prop where
  id : ∀ e, (s.envs e).envId = idAt e (n e)
  used : ∀ e, (s.envs e).envStatus ≠ .free → 0 < n e
  list : ∃ Le, EnvList s Le

section

variable {s t : KState} {n : EnvIdx → Nat} {e : EnvIdx}

theorem allotted_init {u : KState} (h : envInit u = .ok () s) : Allotted (fun _ => 0) s := by
  cases h
  exact ⟨fun _ => rfl, fun _ hs => absurd rfl hs, _, envList_empty rfl rfl⟩

/-- The slot that `env_alloc` takes was free, and its id is the next one of the slot. -/
theorem Allotted.alloc {parent : Word} (h : Allotted n s)
    (hs : envAlloc parent s = .ok (.ok e) t) :
    (s.envs e).envStatus = .free ∧ (t.envs e).envId = idAt e (n e + 1) ∧
      Allotted (Function.update n e (n e + 1)) t := by
  obtain ⟨Le, hLe⟩ := h.list
  obtain ⟨hf, p, hsame⟩ := (envAlloc_effect (R := fun _ => True)).ok hs
  have henvs : t.envs = Function.update s.envs e (newEnv s e parent p) := hsame.envs
  obtain ⟨Lt, rfl, hLt⟩ := hLe.take hf henvs (by simp [newEnv]) (by simp [newEnv]) hsame.free
  have hid : (t.envs e).envId = idAt e (n e + 1) := by
    rw [henvs, Function.update_self, ← nextGeneration_idAt, ← h.id e]
    rfl
  refine ⟨(hLe.free e).mp (List.mem_cons_self ..), hid, fun x => ?_, fun x hx => ?_, Lt, hLt⟩
  · rcases eq_or_ne x e with rfl | hne
    · rw [hid, Function.update_self]
    · rw [henvs, Function.update_of_ne hne, Function.update_of_ne hne, h.id x]
  · rcases eq_or_ne x e with rfl | hne
    · rw [Function.update_self]
      exact Nat.succ_pos _
    · rw [henvs, Function.update_of_ne hne] at hx
      rw [Function.update_of_ne hne]
      exact h.used x hx

/-- `env_free` needs a page directory, so it frees a live environment; the id stays in the slot. -/
theorem Allotted.free {c : CpuIdx} (h : Allotted n s) (hs : envFree c e s = .ok () t) :
    (s.envs e).envStatus ≠ .free ∧ (t.envs e).envStatus = .free ∧ Allotted n t := by
  obtain ⟨Le, hLe⟩ := h.list
  have hsame : SameEnvs (freed e s) t := (envFree_effect (R := fun _ => True)).ok hs
  have hlive : (s.envs e).envStatus ≠ .free := by
    rintro hfree
    have hd := (hLe.dir e).mpr hfree
    simp only [envFree, run_bind, run_get, run_ite, hd] at hs
    split at hs <;> cases hs
  have henvs : t.envs = Function.update s.envs e { s.envs e with
    envPgdir := none, envStatus := .free, envLink := s.envFreeList } := hsame.envs
  have hLt := hLe.give hlive henvs rfl rfl rfl hsame.free
  refine ⟨hlive, by rw [henvs, Function.update_self], fun x => ?_, fun x hx => ?_, _, hLt⟩
  · rcases eq_or_ne x e with rfl | hne
    · rw [henvs, Function.update_self]
      exact h.id x
    · rw [henvs, Function.update_of_ne hne, h.id x]
  · rcases eq_or_ne x e with rfl | hne
    · exact h.used x hlive
    · rw [henvs, Function.update_of_ne hne] at hx
      exact h.used x hx

theorem Allotted.step {call : EnvCall} (h : Allotted n s) (hs : EnvStep s call t) :
    Allotted (fun e => n e + (idsOf e [call]).length) t ∧
      ∀ e, ∀ x ∈ idsOf e [call], x = idAt e (n e + 1) := by
  cases hs with
  | @alloc _ _ e hs =>
    obtain ⟨-, hid, ht⟩ := h.alloc hs
    have hn : (fun x => n x + (idsOf x [.alloc e (t.envs e).envId]).length)
        = Function.update n e (n e + 1) := by
      funext x
      rcases eq_or_ne x e with rfl | hne
      · simp [idsOf]
      · simp [idsOf, hne, hne.symm]
    rw [hn]
    refine ⟨ht, fun x y hy => ?_⟩
    rcases eq_or_ne e x with rfl | hne
    · simp only [idsOf, if_true, List.mem_singleton] at hy
      rw [hy, hid]
    · simp [idsOf, hne] at hy
  | free hs => exact ⟨(h.free hs).2.2, fun _ _ hx => absurd hx (List.not_mem_nil)⟩
  | other hl hx =>
    obtain ⟨Le, hLe⟩ := h.list
    refine ⟨⟨fun e => (hx e).1.trans (h.id e), fun e he => h.used e ?_, Le, ?_⟩,
      fun _ _ hm => absurd hm (List.not_mem_nil)⟩
    · exact fun hf => he ((hx e).2.2.2.mpr hf)
    · exact hLe.congr hl (fun e => (hx e).2.2.1) (fun e => (hx e).2.1) fun e => (hx e).2.2.2

theorem idsOf_cons (e : EnvIdx) (call : EnvCall) (calls : List EnvCall) :
    idsOf e (call :: calls) = idsOf e [call] ++ idsOf e calls := by
  cases call with
  | alloc x id =>
    simp only [idsOf]
    split <;> rfl
  | free x id => rfl
  | other => rfl

/-- Each slot hands out its ids in their order. -/
theorem Allotted.run {calls : List EnvCall} (hr : Run EnvStep s calls t) (h : Allotted n s) :
    Allotted (fun e => n e + (idsOf e calls).length) t ∧
      ∀ e i x, (idsOf e calls)[i]? = some x → x = idAt e (n e + i + 1) := by
  induction hr generalizing n with
  | nil s => exact ⟨h, fun e i x hx => by simp [idsOf] at hx⟩
  | @cons _ _ _ call calls hst _ ih =>
    obtain ⟨hstep, hids⟩ := h.step hst
    obtain ⟨hrun, hlater⟩ := ih hstep
    refine ⟨?_, fun e i x hx => ?_⟩
    · have hn : (fun e => n e + (idsOf e (call :: calls)).length)
          = fun e => n e + (idsOf e [call]).length + (idsOf e calls).length := by
        funext e
        rw [idsOf_cons, List.length_append, Nat.add_assoc]
      rw [hn]
      exact hrun
    · rw [idsOf_cons] at hx
      rcases lt_or_ge i (idsOf e [call]).length with hi | hi
      · rw [List.getElem?_append_left hi] at hx
        have hone : (idsOf e [call]).length ≤ 1 := by
          cases call with
          | alloc y id => simp only [idsOf]; split <;> simp
          | free y id => simp [idsOf]
          | other => simp [idsOf]
        obtain rfl : i = 0 := by omega
        exact hids e x (List.mem_of_getElem? hx)
      · rw [List.getElem?_append_right hi] at hx
        rw [hlater e _ x hx]
        congr 1
        omega

/-- A free slot stays free until it is allocated. -/
theorem run_stays_free {calls : List EnvCall} (hr : Run EnvStep s calls t) (h : Allotted n s)
    (hf : (s.envs e).envStatus = .free) (hno : idsOf e calls = []) :
    (t.envs e).envStatus = .free := by
  induction hr generalizing n with
  | nil s => exact hf
  | @cons s m u call calls hst _ ih =>
    rw [idsOf_cons, List.append_eq_nil_iff] at hno
    refine ih (h.step hst).1 ?_ hno.2
    cases hst with
    | @alloc _ _ x hs =>
      obtain ⟨-, p, hsame⟩ := (envAlloc_effect (R := fun _ => True)).ok hs
      have hxe : x ≠ e := by
        rintro rfl
        simp [idsOf] at hno
      have henvs : m.envs = Function.update s.envs x _ := hsame.envs
      rw [henvs, Function.update_of_ne hxe.symm]
      exact hf
    | @free _ _ x hs =>
      obtain ⟨hlive, -, -⟩ := h.free hs
      have hxe : e ≠ x := by
        rintro rfl
        exact hlive hf
      have henvs : m.envs = Function.update s.envs x _ :=
        ((envFree_effect (R := fun _ => True)).ok hs).envs
      rw [henvs, Function.update_of_ne hxe]
      exact hf
    | other hl hx => exact (hx e).2.2.2.mpr hf

/-- A stale id is not found. -/
theorem envid2env_stale {c : CpuIdx} {id : Word} {chk : Bool} (hc : s.curenv c ≠ none)
    (h0 : id ≠ 0) (hs : (s.envs (envx id)).envStatus = .free ∨ (s.envs (envx id)).envId ≠ id) :
    envid2env c id chk s = .ok (.error .badEnv) s := by
  simp only [envid2env, run_bind, run_get]
  cases hcur : s.curenv c with
  | none => exact absurd hcur hc
  | some cur =>
    simp only [run_ite]
    rw [if_neg h0, if_pos hs]
    rfl

end

/-- Whatever sequence of successful `env_alloc` and `env_free` calls follows `env_init`: an id is
    positive, names the free slot it was made for, and is no other environment's; a slot does not
    repeat an id within `2 ^ 19 - 1` allocations; and the id of a freed environment is refused
    until its slot has been allocated that often again. -/
theorem env_ids_fresh {u s t : KState} {calls : List EnvCall} (hinit : envInit u = .ok () s)
    (hr : Run EnvStep s calls t) :
    (∀ e id v, EnvStep t (.alloc e id) v → 0 < id.toInt ∧ envx id = e ∧
      (t.envs e).envStatus = .free ∧
      ∀ x, x ≠ e → (v.envs x).envStatus ≠ .free → (v.envs x).envId ≠ id) ∧
    (∀ e i j id, i < j → j < i + (2 ^ 19 - 1) → (idsOf e calls)[i]? = some id →
      (idsOf e calls)[j]? ≠ some id) ∧
    ∀ e id pre post, calls = pre ++ .free e id :: post → (idsOf e post).length < 2 ^ 19 - 1 →
      ∀ c chk, t.curenv c ≠ none → envid2env c id chk t = .ok (.error .badEnv) t := by
  have hall := allotted_init hinit
  refine ⟨fun e id v hv => ?_, fun e i j id hij hj hi hj' => ?_, ?_⟩
  · obtain ⟨ht, -⟩ := hall.run hr
    cases hv with
    | alloc hs =>
      obtain ⟨hfree, hid, hv⟩ := ht.alloc hs
      refine ⟨by rw [hid]; exact idAt_pos _ _, by rw [hid, envx_idAt], hfree, fun x hne hlive => ?_⟩
      -- Ids of different slots differ in their index part.
      rw [hid, hv.id x]
      have hpos := hv.used x hlive
      obtain ⟨k, hk⟩ := Nat.exists_eq_succ_of_ne_zero hpos.ne'
      rw [hk]
      rintro heq
      have hx := congrArg envx heq
      rw [Nat.succ_eq_add_one, envx_idAt, envx_idAt] at hx
      exact hne hx
  · obtain ⟨-, hids⟩ := hall.run hr
    rw [hids e i id hi] at hj'
    exact idAt_inj e (by omega : 0 + i < 0 + j) (by have := hj; simp only [idPeriod]; omega)
      (hids e j _ hj')
  · rintro e id pre post rfl hlen c chk hcur
    obtain ⟨s1, hpre, hrest⟩ := hr.of_append
    obtain ⟨h1, -⟩ := hall.run hpre
    cases hrest with
    | @cons _ s2 _ _ _ hst hpost =>
      cases hst with
      | free hs =>
        obtain ⟨hlive, hfree, h2⟩ := h1.free hs
        obtain ⟨k, hk⟩ := Nat.exists_eq_succ_of_ne_zero (h1.used e hlive).ne'
        have hid : (s1.envs e).envId = idAt e (k + 1) := by rw [h1.id e, hk]
        have ht := (h2.run hpost).1.id e
        rw [hid]
        refine envid2env_stale hcur (idAt_ne_zero e k) ?_
        rw [envx_idAt]
        cases hm : (idsOf e post).length with
        | zero => exact Or.inl (run_stays_free hpost h2 hfree (List.length_eq_zero_iff.mp hm))
        | succ m =>
          refine Or.inr ?_
          have hnext : k.succ + (m + 1) = k + (m + 1) + 1 := by omega
          rw [ht, hk, hm, hnext]
          exact (idAt_inj e (by omega : k < k + (m + 1)) (by simp only [idPeriod]; omega)).symm

/-- `env_alloc` succeeds while there are free pages and slots. -/
theorem alloc_step {L : List Nat} (hL : PageInv s L ∅) (hf : s.envFreeList = some e) (hne : L ≠ [])
    (hd : (s.envs e).envPgdir = none) : ∃ t p L', EnvStep s (.alloc e (t.envs e).envId) t ∧
      PageInv t L' ∅ ∧ L.length = L'.length + 1 ∧ (t.envs e).envPgdir = some p := by
  rcases envAlloc_spec hL 0 with ⟨hnone | hnil, -⟩ | ⟨e', p, m, t, hrun, hcr, -, -, -, -, L', rfl, hL'⟩
  · rw [hf] at hnone
    cases hnone
  · exact absurd hnil hne
  obtain rfl : e = e' := Option.some.inj (hf.symm.trans hcr.head)
  refine ⟨t, p, L', .alloc hrun, hL' hd, rfl, ?_⟩
  rw [hcr.envs, Function.update_self]
  rfl

/-- After `env_init`, the first slot is taken, freed and taken again. -/
theorem env_ids_fresh_first : ∃ u s t, envInit u = .ok () s ∧
    Run EnvStep s [.alloc 0 4096, .free 0 4096, .alloc 0 8192] t ∧
    (∀ e id v, EnvStep t (.alloc e id) v → 0 < id.toInt ∧ envx id = e ∧
      (t.envs e).envStatus = .free ∧
      ∀ x, x ≠ e → (v.envs x).envStatus ≠ .free → (v.envs x).envId ≠ id) ∧
    ∀ c chk, t.curenv c ≠ none → envid2env c 4096 chk t = .ok (.error .badEnv) t := by
  obtain ⟨u, s, L, hinit, hf, hL, hlen⟩ := demo_inits
  have hs : Allotted (fun _ => 0) s := allotted_init hinit
  have hd : (s.envs 0).envPgdir = none := by
    cases hinit
    rfl
  obtain ⟨t1, d, L1, hst1, hL1, hlen1, hd1⟩ := alloc_step hL hf (by rintro rfl; simp at hlen) hd
  obtain ⟨t2, hrun2, hgone, L2, hL2⟩ := envFree_spec 0 hL1 hd1
  have hst2 : EnvStep t1 (.free 0 (t1.envs 0).envId) t2 := .free hrun2
  have hlen2 := length_le_of_gone hgone hL1 hL2
  have henv2 : t2.envs 0 = { t1.envs 0 with
      envPgdir := none, envStatus := .free, envLink := t1.envFreeList } := by
    rw [hgone.envs, Function.update_self]
  obtain ⟨t3, -, -, hst3, -⟩ := alloc_step hL2 hgone.envFreeList
    (by rintro rfl; rw [List.length_nil] at hlen2; omega) (by rw [henv2])
  have hr : Run EnvStep s _ t3 := .cons hst1 (.cons hst2 (.single hst3))
  have hid1 : (t1.envs 0).envId = 4096 := (hs.run (.single hst1)).2 0 0 _ rfl
  have hid3 : (t3.envs 0).envId = 8192 := (hs.run hr).2 0 1 _ rfl
  rw [hid1, hid3] at hr
  obtain ⟨h1, -, h3⟩ := env_ids_fresh hinit hr
  exact ⟨u, s, t3, hinit, hr, h1, h3 0 4096 [.alloc 0 4096] [.alloc 0 8192] rfl (by decide)⟩

end Jos
