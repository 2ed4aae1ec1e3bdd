import Jos.Entry

/-!
  What kernel entries do to environments and CPUs, whatever the page tables look like.

  Code that works on pages leaves both alone (`PmOnly`). The rest of a system call changes one
  environment; `CallDone` and `CallLeft` list the cases. -/

namespace Jos

open Lib RefCount

/-- Environments, CPUs and the list of free environments are the same. -/
structure SameEnvs (s t : KState) : Prop where
  envs : t.envs = s.envs
  cpus : t.cpus = s.cpus
  free : t.envFreeList = s.envFreeList

theorem SameEnvs.refl (s : KState) : SameEnvs s s := ⟨rfl, rfl, rfl⟩

theorem SameEnvs.trans {s t u : KState} (h : SameEnvs s t) (h' : SameEnvs t u) : SameEnvs s u :=
  ⟨h'.envs.trans h.envs, h'.cpus.trans h.cpus, h'.free.trans h.free⟩

theorem PmOnly.sameEnvs {s t : KState} (h : PmOnly s t) : SameEnvs s t :=
  ⟨h.envs, h.cpus, h.envFreeList⟩

theorem SameEnvs.curenv {s t : KState} (h : SameEnvs s t) : t.curenv = s.curenv := by
  funext c
  simp [KState.curenv, h.cpus]

theorem SameEnvs.setEnv {s t : KState} (h : SameEnvs s t) (e : EnvIdx) (v : Env) :
    SameEnvs (s.setEnv e v) (t.setEnv e v) :=
  ⟨by simp [KState.setEnv, h.envs], h.cpus, h.free⟩

/-- The same for a new value that is computed from the environments. -/
theorem SameEnvs.update {s t : KState} (h : SameEnvs s t) (e : EnvIdx)
    (v : (EnvIdx → Env) → Env) : SameEnvs (s.setEnv e (v s.envs)) (t.setEnv e (v t.envs)) := by
  rw [h.envs]
  exact h.setEnv e _

section

variable {c : CpuIdx} {s : KState} {R : KState → Prop} {α β : Type}

/-- The rule for code that only works on pages. -/
theorem wp.pm {x : K α} {f : α → K β} (hx : wp x (fun _ t => PmOnly s t) (Leaves R) s)
    (hf : ∀ a t, PmOnly s t → wp (f a) (fun _ u => PmOnly t u) (Leaves R) t) :
    wp (x >>= f) (fun _ u => PmOnly s u) (Leaves R) s :=
  hx.bind fun a t ht => (hf a t ht).mono (fun _ _ hu => ht.trans hu) fun _ _ hR => hR

theorem pm_pure (a : α) : wp (pure a : K α) (fun _ t => PmOnly s t) (Leaves R) s :=
  (wp_pure _).mpr (.refl s)

theorem kaddr_pm {pa : Word} : wp (kaddr pa) (fun _ t => PmOnly s t) (Leaves R) s :=
  kaddr_wp.mono (fun _ _ ht => ht.1 ▸ .refl s) fun _ _ hR => hR

theorem pa2page_pm {pa : Word} : wp (pa2page pa) (fun _ t => PmOnly s t) (Leaves R) s := by
  unfold pa2page
  simp only [wp_bind, wp_get, wp_ite, wp_throw, wp_pure]
  exact ⟨fun _ => by simp, fun _ => .refl s⟩

theorem pageAlloc_pm {zero : Bool} : wp (pageAlloc zero) (fun _ t => PmOnly s t) (Leaves R) s := by
  unfold pageAlloc
  rw [wp_bind, wp_get]
  cases hf : s.pageFreeList with
  | none => exact pm_pure none
  | some f =>
    have h0 : PmOnly s (s.pop f) := .pop s f
    rw [wp_bind, wp_set]
    refine wp_ite.mpr ⟨fun _ => ?_, fun _ => (wp_pure _).mpr h0⟩
    rw [wp_bind]
    refine kaddr_pm.mono (fun g t ht => ?_) fun _ _ hR => hR
    rw [wp_bind, wp_modify, wp_pure]
    exact h0.trans (ht.trans (.setFrame t g _))

theorem pageFree_pm {pp : Nat} : wp (pageFree pp) (fun _ t => PmOnly s t) (Leaves R) s := by
  unfold pageFree
  simp only [wp_bind, wp_get, wp_ite, wp_throw, wp_set]
  exact ⟨fun _ => by simp, fun _ => ⟨fun _ => by simp, fun _ => .push s pp⟩⟩

theorem ppIncref_pm {pp : Nat} : wp (ppIncref pp) (fun _ t => PmOnly s t) (Leaves R) s :=
  (wp_modify _).mpr (.incref s pp)

theorem pageDecref_pm {pp : Nat} : wp (pageDecref pp) (fun _ t => PmOnly s t) (Leaves R) s := by
  unfold pageDecref
  rw [wp_bind, wp_modify, wp_bind, wp_get]
  refine wp_ite.mpr ⟨fun _ => ?_, fun _ => (wp_pure _).mpr rfl⟩
  exact pageFree_pm.mono (fun _ t ht => PmOnly.trans rfl ht) fun _ _ hR => hR

theorem tableEntry_pm {d : Nat} {va : Word} :
    wp (tableEntry d va) (fun _ t => PmOnly s t) (Leaves R) s := by
  unfold tableEntry
  rw [wp_bind, wp_get]
  exact wp.pm kaddr_pm fun _ _ _ => pm_pure _

theorem pgdirWalk_pm {d : Nat} {va : Word} {create : Bool} :
    wp (pgdirWalk d va create) (fun _ t => PmOnly s t) (Leaves R) s := by
  unfold pgdirWalk
  rw [wp_bind, wp_get]
  refine wp_ite.mpr ⟨fun _ => wp_ite.mpr ⟨fun _ => ?_, fun _ => pm_pure _⟩, fun _ => tableEntry_pm⟩
  refine wp.pm pageAlloc_pm ?_
  rintro (_ | f) t -
  · exact pm_pure _
  refine wp.pm ppIncref_pm fun _ u _ => ?_
  exact wp.pm ((wp_modify _).mpr (.poke u d _ _)) fun _ _ _ => tableEntry_pm

theorem tlbInvalidate_pm {d : Nat} {va : Word} :
    wp (tlbInvalidate c d va) (fun _ t => PmOnly s t) (Leaves R) s := by
  unfold tlbInvalidate
  rw [wp_bind, wp_get]
  cases s.curenv c with
  | none => exact (wp_set _).mpr rfl
  | some e => exact wp_ite.mpr ⟨fun _ => (wp_set _).mpr rfl, fun _ => pm_pure _⟩

theorem pageLookup_pm {d : Nat} {va : Word} :
    wp (pageLookup d va) (fun _ t => PmOnly s t) (Leaves R) s := by
  unfold pageLookup
  refine wp.pm pgdirWalk_pm ?_
  rintro (_ | pte) t -
  · exact pm_pure _
  rw [wp_bind, wp_get]
  refine wp_ite.mpr ⟨fun _ => pm_pure _, fun _ => ?_⟩
  exact wp.pm pa2page_pm fun _ _ _ => pm_pure _

theorem pageRemove_pm {d : Nat} {va : Word} :
    wp (pageRemove c d va) (fun _ t => PmOnly s t) (Leaves R) s := by
  unfold pageRemove
  refine wp.pm pageLookup_pm ?_
  rintro (_ | ⟨pp, pte⟩) t -
  · exact pm_pure _
  refine wp.pm pageDecref_pm fun _ u _ => ?_
  exact wp.pm tlbInvalidate_pm fun _ v _ => (wp_modify _).mpr (.poke v pte.1 pte.2 0)

theorem pageInsert_pm {d pp : Nat} {va perm : Word} :
    wp (pageInsert c d pp va perm) (fun _ t => PmOnly s t) (Leaves R) s := by
  unfold pageInsert
  refine wp.pm pgdirWalk_pm ?_
  rintro (_ | pte) t -
  · exact pm_pure _
  refine wp.pm ppIncref_pm fun _ u _ => ?_
  have fin : ∀ v, wp (do
      modify fun s => s.poke pte.1 pte.2 (page2pa pp ||| perm ||| pteP)
      return .ok () : K (Except Err Unit)) (fun _ w => PmOnly v w) (Leaves R) v := fun v =>
    wp.pm ((wp_modify _).mpr (.poke v pte.1 pte.2 _)) fun _ _ _ => pm_pure _
  rw [wp_bind, wp_get]
  refine wp_ite.mpr ⟨fun _ => ?_, fun _ => fin u⟩
  refine wp.pm tlbInvalidate_pm fun _ v _ => ?_
  exact wp.pm pageRemove_pm fun _ w _ => fin w

theorem storeBytes_pm : ∀ {bs : List Byte} {va : Word} {s : KState},
    wp (storeBytes c va bs) (fun _ t => PmOnly s t) (Leaves R) s
  | [], _, s => pm_pure _
  | b :: bs, va, s => by
    unfold storeBytes
    refine wp.pm ?_ fun _ _ _ => storeBytes_pm
    unfold storeByte
    rw [wp_bind, wp_get]
    cases walk s.mem (s.cr3 c) (pgnum va) with
    | none => simp
    | some f => exact (wp_set _).mpr (.setFrame s f _)

theorem storeBytesCached_pm {inp : Input} : ∀ {bs : List Byte} {va : Word} {s : KState},
    wp (storeBytesCached c inp va bs) (fun _ t => PmOnly s t) (Leaves R) s
  | [], _, s => pm_pure _
  | b :: bs, va, s => by
    unfold storeBytesCached
    rw [wp_bind, wp_get]
    cases writeFrame s c inp (pgnum va) with
    | none => simp
    | some f =>
      rw [wp_bind, wp_set]
      exact storeBytesCached_pm.mono (fun _ _ h => (PmOnly.setFrame s f _).trans h) fun _ _ hR => hR

/-! ### `env_free` -/

/-- Environment `e` back on the free list. -/
def freed (e : EnvIdx) (s : KState) : KState :=
  { s.setEnv e { s.envs e with
      envPgdir := none, envStatus := .free, envLink := s.envFreeList } with envFreeList := some e }

theorem envFreePte_pm {d pt : Nat} {i j : Idx} :
    wp (envFreePte c d pt i j) (fun _ t => PmOnly s t) (Leaves R) s := by
  unfold envFreePte
  rw [wp_bind, wp_get]
  exact wp_ite.mpr ⟨fun _ => pageRemove_pm, fun _ => pm_pure _⟩

theorem forM_pm {γ : Type} {f : γ → K PUnit} {l : List γ}
    (hf : ∀ a t, wp (f a) (fun _ u => PmOnly t u) (Leaves R) t) :
    wp (l.forM f) (fun _ t => PmOnly s t) (Leaves R) s :=
  wp.forM (I := fun _ t => PmOnly s t) (fun a _ t ht => (hf a t).mono (fun _ _ hu => ht.trans hu)
    fun _ _ hR => hR) (.refl s)

theorem envFreePde_pm {d : Nat} {i : Idx} :
    wp (envFreePde c d i) (fun _ t => PmOnly s t) (Leaves R) s := by
  unfold envFreePde
  rw [wp_bind, wp_get]
  refine wp_ite.mpr ⟨fun _ => ?_, fun _ => pm_pure _⟩
  refine wp.pm kaddr_pm fun pt t _ => ?_
  refine wp.pm (forM_pm fun _ _ => envFreePte_pm) fun _ u _ => ?_
  refine wp.pm ((wp_modify _).mpr (.poke u d i 0)) fun _ v _ => ?_
  exact wp.pm pa2page_pm fun _ _ _ => pageDecref_pm

theorem envFree_effect {e : EnvIdx} :
    wp (envFree c e) (fun _ t => SameEnvs (freed e s) t) (Leaves R) s := by
  have body : ∀ s', SameEnvs s s' → wp (envFreeRest c e (s.envs e).envPgdir)
      (fun _ t => SameEnvs (freed e s) t) (Leaves R) s' := by
    intro s' hs
    cases (s.envs e).envPgdir with
    | none => simp [envFreeRest]
    | some pd =>
      simp only [envFreeRest]
      rw [wp_bind]
      refine (forM_pm fun _ _ => envFreePde_pm).mono (fun _ t ht => ?_) fun _ _ hR => hR
      rw [wp_bind, wp_modify, wp_bind]
      refine pa2page_pm.mono (fun g u hu => ?_) fun _ _ hR => hR
      rw [wp_bind]
      refine pageDecref_pm.mono (fun _ v hv => ?_) fun _ _ hR => hR
      rw [wp_modify]
      have h1 := hs.trans ht.sameEnvs
      have h2 := (h1.setEnv e { t.envs e with envPgdir := none }).trans (hu.trans hv).sameEnvs
      refine ⟨?_, h2.cpus, rfl⟩
      simp only [freed, KState.setEnv, h2.envs, h2.free, h1.envs, Function.update_self,
        Function.update_idem]
  unfold envFree
  rw [wp_bind, wp_get]
  refine wp_ite.mpr ⟨fun _ => ?_, fun _ => body s (.refl s)⟩
  rw [wp_bind, wp_set]
  exact body _ ⟨rfl, rfl, rfl⟩

/-! ### System calls -/

/-- The child that `sys_exofork` makes of slot `e`, with the page `p` as directory. -/
def forked (s : KState) (cur e : EnvIdx) (p : Nat) : KState :=
  let s : KState := { s.setEnv e (newEnv s e (s.envs cur).envId p) with
    envFreeList := (s.envs e).envLink }
  s.setEnv e { s.envs e with
    envStatus := .notRunnable, envTf := (s.envs cur).envTf.withEax 0 }

/-- A receiver that was sent a message, with `perm` as the permission that it finds. -/
def delivered (s : KState) (cur e : EnvIdx) (value perm : Word) : KState :=
  s.setEnv e { s.envs e with
    envIpcPerm := perm
    envIpcRecving := false
    envIpcFrom := (s.envs cur).envId
    envIpcValue := value
    envStatus := .runnable
    envTf := (s.envs e).envTf.withEax 0 }

/-- The caller of `sys_ipc_recv`, waiting. -/
def receiving (s : KState) (cur : EnvIdx) (dstva : Word) : KState :=
  s.setEnv cur { s.envs cur with
    envIpcRecving := true
    envIpcDstva := dstva
    envIpcValue := 0
    envIpcFrom := 0
    envIpcPerm := 0
    envStatus := .notRunnable }

/-- What a system call that returns did to environments. -/
inductive CallDone (s : KState) (c : CpuIdx) (cur : EnvIdx) (call : Call) (t : KState) : Prop
  | nothing : SameEnvs s t → CallDone s c cur call t
  | marked {e : EnvIdx} : call.Destroys s cur e → (s.envs e).envStatus = .running →
      s.curenv c ≠ some e → SameEnvs (s.setEnv e { s.envs e with envStatus := .dying }) t →
      CallDone s c cur call t
  | freed {e : EnvIdx} : call.Destroys s cur e → (s.envs e).envStatus ≠ .running →
      s.curenv c ≠ some e → SameEnvs (freed e s) t → CallDone s c cur call t
  | forked {e : EnvIdx} {p : Nat} : call.no = 7 → s.envFreeList = some e →
      SameEnvs (forked s cur e p) t → CallDone s c cur call t
  | status {e : EnvIdx} {st : EnvStatus} : call.no = 8 → lookupEnv s cur call.a1 true = some e →
      statusOfWord call.a2 = some st → SameEnvs (s.setEnv e { s.envs e with envStatus := st }) t →
      CallDone s c cur call t
  | upcall {e : EnvIdx} : call.no = 9 → lookupEnv s cur call.a1 true = some e →
      SameEnvs (s.setEnv e { s.envs e with envPgfaultUpcall := call.a2 }) t →
      CallDone s c cur call t
  | sent {e : EnvIdx} {perm : Word} : call.no = 11 → lookupEnv s cur call.a1 false = some e →
      (s.envs e).envIpcRecving = true → SameEnvs (delivered s cur e call.a2 perm) t →
      CallDone s c cur call t

/-- How a system call ends that does not return. -/
inductive CallLeft (s : KState) (c : CpuIdx) (cur : EnvIdx) (call : Call) (t : KState) : Prop
  | died {u : KState} : call.Destroys s cur cur ∨ call.no = 0 → SameEnvs (Jos.freed cur s) u →
      Yields c (u.setCurenv c none) t → CallLeft s c cur call t
  | yielded : call.no = 10 → Yields c s t → CallLeft s c cur call t
  | received : call.no = 12 → Yields c (receiving s cur call.a1) t → CallLeft s c cur call t

variable {cur : EnvIdx}

/-- `env_alloc` fills the head of the free list, or fails. -/
theorem envAlloc_effect {parent : Word} : wp (envAlloc parent) (fun r t => match r with
    | .error _ => SameEnvs s t
    | .ok e => s.envFreeList = some e ∧ ∃ p, SameEnvs
        { s.setEnv e (newEnv s e parent p) with envFreeList := (s.envs e).envLink } t)
    (Leaves R) s := by
  unfold envAlloc
  rw [wp_bind, wp_get]
  cases hf : s.envFreeList with
  | none => exact (wp_pure _).mpr (.refl s)
  | some e =>
    simp only
    unfold envSetupVm
    rw [wp_bind, wp_bind]
    refine pageAlloc_pm.mono ?_ fun _ _ hR => hR
    rintro (_ | p) t ht
    · simp only [wp_pure]
      exact ht.sameEnvs
    simp only
    rw [wp_bind]
    refine kaddr_pm.mono (fun q u hu => ?_) fun _ _ hR => hR
    have hsame := (ht.trans hu).sameEnvs
    rw [wp_bind, wp_modify, wp_bind]
    refine ppIncref_pm.mono (fun _ v hv => ?_) fun _ _ hR => hR
    simp only [wp_bind, wp_modify, wp_pure]
    refine ⟨trivial, q, ?_, ?_, ?_⟩
    · simp only [KState.setEnv, KState.setFrame_envs, hv.envs, hsame.envs, Function.update_self,
        Function.update_idem]
      rfl
    · exact (hv.cpus).trans hsame.cpus
    · simp only [KState.setEnv, KState.setFrame_envs, hv.envs, hsame.envs, Function.update_self]

/-- `env_destroy`: marked, freed, or freed on the CPU that runs it. -/
theorem envDestroy_effect {e : EnvIdx} : wp (envDestroy c e)
    (fun _ t => s.curenv c ≠ some e ∧
      ((s.envs e).envStatus = .running ∧ t = s.setEnv e { s.envs e with envStatus := .dying } ∨
      (s.envs e).envStatus ≠ .running ∧ SameEnvs (freed e s) t))
    (Leaves fun t => s.curenv c = some e ∧ ∃ u, SameEnvs (freed e s) u ∧
      Yields c (u.setCurenv c none) t) s := by
  unfold envDestroy
  rw [wp_bind, wp_get]
  refine wp_ite.mpr ⟨fun hr => (wp_set _).mpr ⟨hr.2, Or.inl ⟨hr.1, rfl⟩⟩, fun hr => ?_⟩
  rw [wp_bind]
  refine envFree_effect.mono (fun _ t ht => ?_) fun _ _ hR => hR
  have hcur : t.curenv c = s.curenv c := congrFun ht.curenv c
  rw [wp_bind, wp_get]
  refine wp_ite.mpr ⟨fun hc => ?_, fun hc => ?_⟩
  · rw [wp_bind, wp_set]
    exact schedYield_wp fun u hu => ⟨hcur ▸ hc, t, ht, hu⟩
  · rw [hcur] at hc
    exact (wp_pure _).mpr ⟨hc, Or.inr ⟨fun hs => hr ⟨hs, hc⟩, ht⟩⟩

theorem getPgdir_pm {e : EnvIdx} : wp (getPgdir e) (fun _ t => PmOnly s t) (Leaves R) s :=
  getPgdir_wp fun _ _ => .refl s

/-- A call that looked up an environment goes on in the same state. -/
theorem envid2env_bind {envid : Word} {chk : Bool} (hc : s.curenv c = some cur)
    {f : Except Err EnvIdx → K α} {Q : α → KState → Prop} {X : Stop → KState → Prop}
    (hbad : lookupEnv s cur envid chk = none → wp (f (.error .badEnv)) Q X s)
    (hok : ∀ e, lookupEnv s cur envid chk = some e → wp (f (.ok e)) Q X s) :
    wp (envid2env c envid chk >>= f) Q X s := by
  rw [wp_bind, wp_ok (envid2env_run hc envid chk)]
  cases hl : lookupEnv s cur envid chk with
  | none => exact hbad hl
  | some e => exact hok e hl

theorem sysPageAlloc_pm (hc : s.curenv c = some cur) {envid va perm : Word} :
    wp (sysPageAlloc c envid va perm) (fun _ t => PmOnly s t) (Leaves R) s := by
  unfold sysPageAlloc
  refine envid2env_bind hc (fun _ => pm_pure _) fun e _ => ?_
  refine wp_ite.mpr ⟨fun _ => pm_pure _, fun _ => wp_ite.mpr ⟨fun _ => pm_pure _, fun _ => ?_⟩⟩
  refine wp.pm pageAlloc_pm ?_
  rintro (_ | pi) t -
  · exact pm_pure _
  refine wp.pm getPgdir_pm fun d u _ => wp.pm pageInsert_pm ?_
  rintro (err | -) v -
  · exact wp.pm pageFree_pm fun _ _ _ => pm_pure _
  · exact pm_pure _

theorem sysPageMap_pm (hc : s.curenv c = some cur) {a1 a2 a3 a4 a5 : Word} :
    wp (sysPageMap c a1 a2 a3 a4 a5) (fun _ t => PmOnly s t) (Leaves R) s := by
  unfold sysPageMap
  refine envid2env_bind hc (fun _ => pm_pure _) fun src _ => ?_
  refine envid2env_bind hc (fun _ => pm_pure _) fun dst _ => ?_
  refine wp_ite.mpr ⟨fun _ => pm_pure _, fun _ => wp_ite.mpr ⟨fun _ => pm_pure _, fun _ => ?_⟩⟩
  refine wp.pm getPgdir_pm fun d t _ => wp.pm pageLookup_pm ?_
  rintro (_ | ⟨pp, pte⟩) u -
  · exact pm_pure _
  rw [wp_bind, wp_get]
  refine wp_ite.mpr ⟨fun _ => pm_pure _, fun _ => ?_⟩
  refine wp.pm getPgdir_pm fun d' v _ => wp.pm pageInsert_pm ?_
  rintro (err | -) w - <;> exact pm_pure _

theorem sysPageUnmap_pm (hc : s.curenv c = some cur) {envid va : Word} :
    wp (sysPageUnmap c envid va) (fun _ t => PmOnly s t) (Leaves R) s := by
  unfold sysPageUnmap
  refine envid2env_bind hc (fun _ => pm_pure _) fun e _ => ?_
  refine wp_ite.mpr ⟨fun _ => pm_pure _, fun _ => ?_⟩
  refine wp.pm getPgdir_pm fun d t _ => ?_
  exact wp.pm pageRemove_pm fun _ _ _ => pm_pure _

/-- What the page part of a send does to environments: it sets at most the receiver's
    `env_ipc_perm`. -/
def SendPart (s : KState) (e : EnvIdx) : Except Err Unit → KState → Prop
  | .error _, t => SameEnvs s t
  | .ok _, t => ∃ p, SameEnvs (s.setEnv e { s.envs e with envIpcPerm := p }) t

theorem ipcSendPage_effect (hc : s.curenv c = some cur) {inp : Input} {e : EnvIdx}
    {srcva perm : Word} : wp (ipcSendPage c inp e srcva perm) (SendPart s e) (Leaves R) s := by
  have keep : ∀ {t : KState}, SameEnvs s t →
      SameEnvs (s.setEnv e { s.envs e with envIpcPerm := (s.envs e).envIpcPerm }) t := by
    intro t ht
    have hself : s.setEnv e { s.envs e with envIpcPerm := (s.envs e).envIpcPerm } = s := by
      simp [KState.setEnv]
    rwa [hself]
  unfold ipcSendPage
  rw [wp_bind, wp_ok (getCurenv_run hc), wp_bind]
  refine getPgdir_pm.mono (fun d t ht => ?_) fun _ _ hR => hR
  rw [wp_bind]
  refine pageLookup_pm.mono (fun r u hu => ?_) fun _ _ hR => hR
  have hsame := (ht.trans hu).sameEnvs
  refine wp_ite.mpr ⟨fun _ => (wp_pure _).mpr hsame, fun _ => ?_⟩
  rcases r with _ | ⟨pg, pte⟩
  · cases inp.strayPte with
    | none => simp
    | some _ => exact (wp_pure _).mpr hsame
  simp only
  rw [wp_bind, wp_get]
  refine wp_ite.mpr ⟨fun _ => (wp_pure _).mpr hsame, fun _ => wp_ite.mpr ⟨fun _ =>
    (wp_pure _).mpr hsame, fun _ => wp_ite.mpr ⟨fun _ => ?_, fun _ =>
      (wp_pure _).mpr ⟨_, keep hsame⟩⟩⟩⟩
  rw [wp_bind]
  refine getPgdir_pm.mono (fun d' v hv => ?_) fun _ _ hR => hR
  rw [wp_bind]
  refine pageInsert_pm.mono (fun r w hw => ?_) fun _ _ hR => hR
  have hsame' := hsame.trans (hv.trans hw).sameEnvs
  cases r with
  | error err => exact (wp_pure _).mpr hsame'
  | ok _ =>
    simp only [wp_bind, wp_modify, wp_pure]
    refine ⟨perm, ?_⟩
    have := hsame'.setEnv e { s.envs e with envIpcPerm := perm }
    rwa [show s.envs e = w.envs e by rw [hsame'.envs]] at this ⊢

/-- A call that turns its result into a word. -/
theorem ret_effect {call : Call} {x : K (Except Err Word)}
    (hx : wp x (fun _ t => CallDone s c cur call t) (Leaves (CallLeft s c cur call)) s) :
    wp (do return retCode (← x)) (fun _ t => CallDone s c cur call t)
      (Leaves (CallLeft s c cur call)) s :=
  hx.bind fun _ _ ht => (wp_pure _).mpr ht

theorem sysCputs_effect (hc : s.curenv c = some cur) {a1 a2 a3 a4 a5 : Word} :
    wp (sysCputs c a1 a2) (fun _ t => CallDone s c cur ⟨0, a1, a2, a3, a4, a5⟩ t)
      (Leaves (CallLeft s c cur ⟨0, a1, a2, a3, a4, a5⟩)) s := by
  unfold sysCputs userMemAssert
  rw [wp_bind, wp_ok (getCurenv_run hc), wp_bind]
  refine userMemCheck_wp.mono (fun r t ht => ?_) fun x t hR hx => hR hx
  obtain ⟨a, rfl⟩ := ht
  cases r with
  | ok _ => exact (wp_pure _).mpr (.nothing ⟨rfl, rfl, rfl⟩)
  | error err =>
    refine envDestroy_effect.mono (fun _ t ht => absurd hc ht.1) fun x t hR hx => ?_
    obtain ⟨-, u, hu, hy⟩ := hR hx
    exact .died (Or.inr rfl) ⟨hu.envs, hu.cpus, hu.free⟩ hy

theorem sysEnvDestroy_effect (hc : s.curenv c = some cur) {a1 a2 a3 a4 a5 : Word} :
    wp (sysEnvDestroy c a1) (fun _ t => CallDone s c cur ⟨3, a1, a2, a3, a4, a5⟩ t)
      (Leaves (CallLeft s c cur ⟨3, a1, a2, a3, a4, a5⟩)) s := by
  unfold sysEnvDestroy
  refine envid2env_bind hc (fun _ => (wp_pure _).mpr (.nothing (.refl s))) fun e hl => ?_
  have hd : (Call.mk 3 a1 a2 a3 a4 a5).Destroys s cur e := ⟨rfl, hl⟩
  rw [wp_bind]
  refine envDestroy_effect.mono (fun _ t ht => (wp_pure _).mpr ?_) fun x t hR hx => ?_
  · rcases ht with ⟨hne, ⟨hr, rfl⟩ | ⟨hr, ht⟩⟩
    · exact .marked hd hr hne (.refl _)
    · exact .freed hd hr hne ht
  · obtain ⟨hcur, u, hu, hy⟩ := hR hx
    obtain rfl : cur = e := Option.some.inj (hc.symm.trans hcur)
    exact .died (Or.inl hd) hu hy

theorem sysExofork_effect (hc : s.curenv c = some cur) {a1 a2 a3 a4 a5 : Word} :
    wp (sysExofork c) (fun _ t => CallDone s c cur ⟨7, a1, a2, a3, a4, a5⟩ t) (Leaves R) s := by
  unfold sysExofork
  rw [wp_bind, wp_ok (getCurenv_run hc), wp_bind, wp_get, wp_bind]
  refine envAlloc_effect.mono (fun r t ht => ?_) fun _ _ hR => hR
  cases r with
  | error err => exact (wp_pure _).mpr (.nothing ht)
  | ok e =>
    obtain ⟨hf, p, ht⟩ := ht
    simp only [wp_bind, wp_modify, wp_get, wp_pure]
    exact .forked (p := p) rfl hf (ht.update e fun envs => { envs e with
      envStatus := .notRunnable, envTf := (envs cur).envTf.withEax 0 })

theorem sysEnvSetStatus_effect (hc : s.curenv c = some cur) {a1 a2 a3 a4 a5 : Word} :
    wp (sysEnvSetStatus c a1 a2) (fun _ t => CallDone s c cur ⟨8, a1, a2, a3, a4, a5⟩ t)
      (Leaves R) s := by
  unfold sysEnvSetStatus
  cases hst : statusOfWord a2 with
  | none => exact (wp_pure _).mpr (.nothing (.refl s))
  | some st =>
    refine envid2env_bind hc (fun _ => (wp_pure _).mpr (.nothing (.refl s))) fun e hl => ?_
    simp only [wp_bind, wp_modify, wp_pure]
    exact .status rfl hl hst (.refl _)

theorem sysEnvSetPgfaultUpcall_effect (hc : s.curenv c = some cur) {a1 a2 a3 a4 a5 : Word} :
    wp (sysEnvSetPgfaultUpcall c a1 a2) (fun _ t => CallDone s c cur ⟨9, a1, a2, a3, a4, a5⟩ t)
      (Leaves R) s := by
  unfold sysEnvSetPgfaultUpcall
  refine envid2env_bind hc (fun _ => (wp_pure _).mpr (.nothing (.refl s))) fun e hl => ?_
  simp only [wp_bind, wp_modify, wp_pure]
  exact .upcall rfl hl (.refl _)

theorem sysIpcTrySend_effect (hc : s.curenv c = some cur) {inp : Input} {a1 a2 a3 a4 a5 : Word} :
    wp (sysIpcTrySend c inp a1 a2 a3 a4) (fun _ t => CallDone s c cur ⟨11, a1, a2, a3, a4, a5⟩ t)
      (Leaves R) s := by
  unfold sysIpcTrySend
  refine envid2env_bind hc (fun _ => (wp_pure _).mpr (.nothing (.refl s))) fun e hl => ?_
  rw [wp_bind, wp_get]
  refine wp_ite.mpr ⟨fun _ => (wp_pure _).mpr (.nothing (.refl s)), fun hrecv => ?_⟩
  have hrecv' : (s.envs e).envIpcRecving = true := by simpa using hrecv
  have finish : ∀ (r : Except Err Unit) t, SendPart s e r t →
      wp (sysIpcTrySendRest c e a2 r)
        (fun _ t => CallDone s c cur ⟨11, a1, a2, a3, a4, a5⟩ t) (Leaves R) t := by
    rintro (err | x) t ht
    · exact (wp_pure _).mpr (.nothing ht)
    · obtain ⟨p, ht⟩ := ht
      have hct : t.curenv c = some cur := (congrFun ht.curenv c).trans hc
      simp only [sysIpcTrySendRest, ipcDeliver]
      rw [wp_bind, wp_bind, wp_ok (getCurenv_run hct)]
      simp only [wp_modify, wp_pure]
      have hu := ht.update e fun envs => { envs e with
        envIpcRecving := false
        envIpcFrom := (envs cur).envId
        envIpcValue := a2
        envStatus := .runnable
        envTf := (envs e).envTf.withEax 0 }
      have hid : ((s.setEnv e { s.envs e with envIpcPerm := p }).envs cur).envId
          = (s.envs cur).envId := by
        by_cases hx : cur = e
        · subst hx
          simp [KState.setEnv]
        · simp [KState.setEnv, hx]
      have heq : (s.setEnv e { s.envs e with envIpcPerm := p }).setEnv e {
          (s.setEnv e { s.envs e with envIpcPerm := p }).envs e with
          envIpcRecving := false
          envIpcFrom := ((s.setEnv e { s.envs e with envIpcPerm := p }).envs cur).envId
          envIpcValue := a2
          envStatus := .runnable
          envTf := ((s.setEnv e { s.envs e with envIpcPerm := p }).envs e).envTf.withEax 0 }
          = delivered s cur e a2 p := by
        rw [hid]
        simp [KState.setEnv, delivered, Function.update_idem]
      rw [heq] at hu
      exact .sent rfl hl hrecv' hu
  refine wp_ite.mpr ⟨fun _ => ?_, fun _ => ?_⟩ <;> rw [wp_bind]
  · exact (ipcSendPage_effect hc).mono finish fun _ _ hR => hR
  · refine (wp_pure _).mpr (finish (.ok ()) s ⟨(s.envs e).envIpcPerm, ?_⟩)
    simp only [KState.setEnv, Function.update_eq_self]
    exact .refl s

theorem sysIpcRecv_effect (hc : s.curenv c = some cur) {a1 a2 a3 a4 a5 : Word} :
    wp (sysIpcRecv c a1) (fun _ t => CallDone s c cur ⟨12, a1, a2, a3, a4, a5⟩ t)
      (Leaves (CallLeft s c cur ⟨12, a1, a2, a3, a4, a5⟩)) s := by
  unfold sysIpcRecv
  refine wp_ite.mpr ⟨fun _ => (wp_pure _).mpr (.nothing (.refl s)), fun _ => ?_⟩
  rw [wp_bind, wp_ok (getCurenv_run hc), wp_bind, wp_modify, wp_bind]
  exact schedYield_wp fun t ht => .received rfl ht

/-- What system calls do to environments. -/
theorem syscall_effect {inp : Input} (call : Call) {w : Word} (hw : w.toNat = call.no)
    (hc : s.curenv c = some cur) :
    wp (syscall c inp w call.a1 call.a2 call.a3 call.a4 call.a5)
      (fun _ t => CallDone s c cur call t) (Leaves (CallLeft s c cur call)) s := by
  obtain ⟨no, a1, a2, a3, a4, a5⟩ := call
  have pm : ∀ {x : K (Except Err Word)}, wp x (fun _ t => PmOnly s t)
      (Leaves (CallLeft s c cur ⟨no, a1, a2, a3, a4, a5⟩)) s →
      wp (do return retCode (← x)) (fun _ t => CallDone s c cur ⟨no, a1, a2, a3, a4, a5⟩ t)
        (Leaves (CallLeft s c cur ⟨no, a1, a2, a3, a4, a5⟩)) s :=
    fun hx => ret_effect (hx.mono (fun _ _ ht => .nothing ht.sameEnvs) fun _ _ hR => hR)
  unfold syscall
  simp only at hw ⊢
  rw [hw]
  split
  · exact (sysCputs_effect hc).bind fun _ t ht => (wp_pure _).mpr ht
  · exact (wp_pure _).mpr (.nothing (.refl s))
  · unfold sysGetenvid
    rw [wp_bind, wp_ok (getCurenv_run hc)]
    simp only [wp_bind, wp_get, wp_pure]
    exact .nothing (.refl s)
  · exact ret_effect (sysEnvDestroy_effect hc)
  · exact pm (sysPageAlloc_pm hc)
  · exact pm (sysPageMap_pm hc)
  · exact pm (sysPageUnmap_pm hc)
  · exact ret_effect (sysExofork_effect hc)
  · exact ret_effect (sysEnvSetStatus_effect hc)
  · exact ret_effect (sysEnvSetPgfaultUpcall_effect hc)
  · rw [wp_bind]
    exact schedYield_wp fun t ht => .yielded rfl ht
  · exact ret_effect (sysIpcTrySend_effect hc)
  · exact ret_effect (sysIpcRecv_effect hc)
  · exact (wp_pure _).mpr (.nothing (.refl s))

/-! ### Traps -/

/-- The frame for the upcall was pushed. -/
def faulted (cur : EnvIdx) (tf : Trapframe) (s : KState) : KState :=
  s.setEnv cur { s.envs cur with
    envTf := { tf with tfEip := (s.envs cur).envPgfaultUpcall, tfEsp := utfAddr tf.tfEsp } }

/-- What a kernel entry through a trap does to environments and CPUs, if the CPU leaves the kernel
    in state `t`. -/
inductive TrapEffect (s : KState) (c : CpuIdx) (tf : Trapframe) (t : KState) : Prop
  | collected {cur : EnvIdx} {u : KState} : (s.cpus c).mode = .user → s.curenv c = some cur →
      (s.envs cur).envStatus = .dying → SameEnvs (freed cur (started c s)) u →
      Yields c (u.setCurenv c none) t → TrapEffect s c tf t
  | faulted {cur : EnvIdx} {u : KState} : (s.cpus c).mode = .user → s.curenv c = some cur →
      (s.envs cur).envStatus ≠ .dying → tf.tfTrapno = tPgflt →
      (s.envs cur).envPgfaultUpcall ≠ 0 → SameEnvs (faulted cur tf (started c s)) u →
      Runs c cur u t → TrapEffect s c tf t
  | killed {cur : EnvIdx} {u : KState} : (s.cpus c).mode = .user → s.curenv c = some cur →
      (s.envs cur).envStatus ≠ .dying → tf.tfTrapno ≠ tSyscall → tf.tfTrapno ≠ irqTimer →
      SameEnvs (freed cur (saved c cur tf s)) u → Yields c (u.setCurenv c none) t →
      TrapEffect s c tf t
  | called {cur : EnvIdx} {u : KState} {w : Word} : (s.cpus c).mode = .user →
      s.curenv c = some cur → (s.envs cur).envStatus ≠ .dying → tf.tfTrapno = tSyscall →
      CallDone (saved c cur tf s) c cur (Call.ofTf tf) u →
      Returns c (u.setEnv cur { u.envs cur with envTf := (u.envs cur).envTf.withEax w }) t →
      TrapEffect s c tf t
  | left {cur : EnvIdx} : (s.cpus c).mode = .user → s.curenv c = some cur →
      (s.envs cur).envStatus ≠ .dying → tf.tfTrapno = tSyscall →
      CallLeft (saved c cur tf s) c cur (Call.ofTf tf) t → TrapEffect s c tf t
  | timer {cur : EnvIdx} : (s.cpus c).mode = .user → s.curenv c = some cur →
      (s.envs cur).envStatus ≠ .dying → tf.tfTrapno = irqTimer → Yields c (saved c cur tf s) t →
      TrapEffect s c tf t
  | woken : (s.cpus c).mode = .halted → tf.tfTrapno = irqTimer → Yields c (started c s) t →
      TrapEffect s c tf t

/-- `env_destroy` of the current environment does not return. -/
theorem envDestroy_cur_effect {u : KState} {Q : Unit → KState → Prop} (hu : SameEnvs s u)
    (hc : s.curenv c = some cur) : wp (envDestroy c cur) Q (Leaves fun t => ∃ v,
      SameEnvs (freed cur s) v ∧ Yields c (v.setCurenv c none) t) u := by
  have hcu : u.curenv c = some cur := (congrFun hu.curenv c).trans hc
  refine envDestroy_effect.mono (fun _ t ht => absurd hcu ht.1) fun x t hR hx => ?_
  obtain ⟨-, v, hv, hy⟩ := hR hx
  refine ⟨v, SameEnvs.trans (t := freed cur u) ⟨?_, hu.cpus, rfl⟩ hv, hy⟩
  simp only [freed, KState.setEnv, hu.envs, hu.free]

theorem pageFaultHandler_effect {inp : Input} {tf : Trapframe} {Q : Unit → KState → Prop}
    (hm : (s.cpus c).mode = .user) (hc : s.curenv c = some cur)
    (hnd : (s.envs cur).envStatus ≠ .dying) (hno : tf.tfTrapno = tPgflt) :
    wp (pageFaultHandler c inp tf) Q (Leaves (TrapEffect s c tf)) (saved c cur tf s) := by
  have hc' : (saved c cur tf s).curenv c = some cur := (saved_curenv tf c).trans hc
  have hkill : ∀ {t : KState}, (∃ v, SameEnvs (freed cur (saved c cur tf s)) v ∧
      Yields c (v.setCurenv c none) t) → TrapEffect s c tf t := by
    rintro t ⟨v, hv, hy⟩
    exact .killed hm hc hnd (by rw [hno]; decide) (by rw [hno]; decide) hv hy
  unfold pageFaultHandler
  refine wp_ite.mpr ⟨fun _ => by simp [wp_bind], fun _ => ?_⟩
  rw [wp_bind, wp_ok (getCurenv_run hc'), wp_bind, wp_get]
  refine wp_ite.mpr ⟨fun hup => ?_, fun _ =>
    (envDestroy_cur_effect (.refl _) hc').mono (fun _ _ h => h) fun x t hR hx => hkill (hR hx)⟩
  unfold userMemAssert
  rw [wp_bind, wp_bind]
  refine userMemCheck_wp.mono (fun r t ht => ?_) fun x t hR hx => hR hx
  obtain ⟨a, rfl⟩ := ht
  have hsame : SameEnvs (saved c cur tf s) { saved c cur tf s with userMemCheckAddr := a } :=
    ⟨rfl, rfl, rfl⟩
  cases r with
  | error err =>
    exact (envDestroy_cur_effect hsame hc').mono (fun _ _ h => h) fun x t hR hx => hkill (hR hx)
  | ok _ =>
    rw [wp_pure, wp_bind]
    refine storeBytesCached_pm.mono (fun _ u hu => ?_) fun _ _ hR => hR
    rw [wp_bind, wp_modify, wp_bind]
    refine envRun_wp fun t ht => .faulted hm hc hnd hno ?_ ?_ ht
    · simpa [saved, KState.setEnv, KState.setCpu] using hup
    · have hset := (hsame.trans hu.sameEnvs).update cur fun envs => { envs cur with
        envTf := { (envs cur).envTf with
          tfEip := (envs cur).envPgfaultUpcall, tfEsp := utfAddr tf.tfEsp } }
      have hcur : (saved c cur tf s).envs cur = { s.envs cur with envTf := tf } := by
        simp [saved, KState.setEnv, KState.setCpu]
      have hsaved : (saved c cur tf s).envs = Function.update s.envs cur
        { s.envs cur with envTf := tf } := rfl
      have hpre : SameEnvs (Jos.faulted cur tf (started c s)) ((saved c cur tf s).setEnv cur
          { (saved c cur tf s).envs cur with
            envTf := { ((saved c cur tf s).envs cur).envTf with
              tfEip := ((saved c cur tf s).envs cur).envPgfaultUpcall
              tfEsp := utfAddr tf.tfEsp } }) := by
        refine ⟨?_, rfl, rfl⟩
        simp only [KState.setEnv, hcur, hsaved, Function.update_idem]
        rfl
      exact hpre.trans hset

theorem trapDispatch_effect {inp : Input} {tf : Trapframe} (hm : (s.cpus c).mode = .user)
    (hc : s.curenv c = some cur) (hnd : (s.envs cur).envStatus ≠ .dying) :
    wp (trapDispatch c inp tf) (fun _ t => wp (trapReturn c) (fun _ _ => False)
      (Leaves (TrapEffect s c tf)) t) (Leaves (TrapEffect s c tf)) (saved c cur tf s) := by
  have hc' : (saved c cur tf s).curenv c = some cur := (saved_curenv tf c).trans hc
  unfold trapDispatch
  refine wp_ite.mpr ⟨fun hno => pageFaultHandler_effect hm hc hnd hno, fun h1 => ?_⟩
  refine wp_ite.mpr ⟨fun _ => by simp, fun h2 => ?_⟩
  refine wp_ite.mpr ⟨fun hno => ?_, fun h3 => ?_⟩
  · rw [wp_bind, wp_ok (getCurenv_run hc'), wp_bind]
    refine (syscall_effect (Call.ofTf tf) rfl hc').mono (fun w u hu => ?_) fun x t hR hx =>
      .left hm hc hnd hno (hR hx)
    rw [wp_modify]
    exact trapReturn_wp fun t ht => .called hm hc hnd hno hu ht
  refine wp_ite.mpr ⟨fun hno => schedYield_wp fun t hy => .timer hm hc hnd hno hy, fun h4 => ?_⟩
  refine wp_ite.mpr ⟨fun _ => by simp, fun _ => ?_⟩
  rw [wp_bind, wp_ok (getCurenv_run hc')]
  refine (envDestroy_cur_effect (.refl _) hc').mono (fun _ _ h => h) fun x t hR hx => ?_
  obtain ⟨v, hv, hy⟩ := hR hx
  exact .killed hm hc hnd h3 h4 hv hy

theorem trap_effect {inp : Input} {tf : Trapframe} (ha : TrapAllowed s c tf) :
    wp (trap c inp tf) (fun _ _ => False) (Leaves (TrapEffect s c tf)) s := by
  unfold trap
  simp only [wp_bind, wp_modify]
  rcases ha with ⟨hm, hcs⟩ | ⟨hm, hcs, hirq⟩
  · -- from user mode
    refine wp_ite.mpr ⟨fun _ => ?_, fun hx => absurd (cs_user hcs) hx⟩
    cases hc : s.curenv c with
    | none =>
      unfold getCurenv
      simp only [wp_bind, wp_get, curenv_started hc]
      simp
    | some cur =>
      rw [wp_bind, wp_ok (getCurenv_run (curenv_started hc)), wp_bind]
      refine getCallerPcs_wp (by simp) fun _ => ?_
      rw [wp_bind, wp_get]
      refine wp_ite.mpr ⟨fun hdy => ?_, fun hnd => ?_⟩
      · rw [wp_bind]
        refine envFree_effect.mono (fun _ u hu => ?_) fun x t hR hx => hR hx
        simp only [wp_bind, wp_modify]
        exact schedYield_wp fun t hy => .collected hm hc hdy hu hy
      · simp only [wp_bind, wp_modify]
        exact trapDispatch_effect hm hc hnd
  · -- an interrupt that wakes a halted CPU
    have h3 : ¬ tf.tfCs &&& 3 = 3 := by
      rw [hcs]
      decide
    obtain ⟨h1, h2, h4⟩ := ne_of_irq hirq
    simp only [if_neg h3, trapDispatch, if_neg h1, if_neg h2, if_neg h4, wp_bind]
    refine wp_ite.mpr ⟨fun ht => schedYield_wp fun t hy => .woken hm ht hy, fun _ => ?_⟩
    rw [if_pos hcs]
    simp

/-- What a step of the system does to environments and CPUs. -/
inductive StepEffect (s : KState) (c : CpuIdx) (t : KState) : Event → Prop
  | trap {inp : Input} {tf : Trapframe} : TrapAllowed s c tf → TrapEffect s c tf t →
      StepEffect s c t (.trap inp tf)
  | store {va : Word} {b : Byte} {via : Option Nat} : (s.cpus c).mode = .user → PmOnly s t →
      StepEffect s c t (.store va b via)
  | start : (s.cpus c).mode = .starting → Yields c s t → StepEffect s c t .start

theorem step_effect {ev : Event} {t : KState} (h : Step s (c, ev) t) : StepEffect s c t ev := by
  unfold Step step at h
  cases ev with
  | trap inp tf =>
    simp only at h
    split at h
    · rename_i ha
      exact .trap ha ((trap_effect ha).error (enter_eq_some.mp h) rfl)
    · cases h
  | store va b via =>
    simp only at h
    split at h
    · rename_i hm
      split at h
      · cases h
      · rename_i f _
        split at h
        · cases h
          exact .store hm (.setFrame s f _)
        · cases h
    · cases h
  | start =>
    simp only at h
    split at h
    · rename_i hm
      have hwp : wp (schedYield c) (fun _ _ => False) (Leaves (Yields c s)) s :=
        schedYield_wp fun _ hy => hy
      exact .start hm (hwp.error (enter_eq_some.mp h) rfl)
    · cases h

end

end Jos
