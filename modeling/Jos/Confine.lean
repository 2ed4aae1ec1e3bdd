import Jos.Effect
import Jos.BootInv

/-!
  What a system call leaves alone.

  `CallDone` says which environment a call changes. The page tables are followed here: an edit of
  one environment's tables changes no entry of another one. -/

namespace Jos

open Lib RefCount

/-- The caller or a child of it. -/
def Family (s : KState) (cur x : EnvIdx) : Prop :=
  x = cur ∨ (s.envs x).envStatus ≠ .free ∧ (s.envs x).envParentId = (s.envs cur).envId

/-- The slot that `sys_exofork` fills. -/
def Creates (s : KState) (call : Call) (x : EnvIdx) : Prop := call.no = 7 ∧ s.envFreeList = some x

/-- `sys_ipc_try_send` to `x`, which is receiving. -/
def SendsTo (s : KState) (cur : EnvIdx) (call : Call) (x : EnvIdx) : Prop :=
  call.no = 11 ∧ lookupEnv s cur call.a1 false = some x ∧ (s.envs x).envIpcRecving = true

/-- The entries below `UTOP` that a call may change. -/
def MayEdit (s : KState) (cur : EnvIdx) (call : Call) (x : EnvIdx) (i j : Idx) : Prop :=
  Family s cur x ∨ Creates s call x ∨
    SendsTo s cur call x ∧ At (s.envs x).envIpcDstva i j

/-- No other entry differs. -/
def Confined (s : KState) (cur : EnvIdx) (call : Call) (t : KState) : Prop :=
  ∀ x i j, ¬ MayEdit s cur call x i j → pteAt t (some x) i j = pteAt s (some x) i j

/-- The calls that can change entry `j` of table `i` of `x`. -/
inductive EditsEntry (s : KState) (cur : EnvIdx) (call : Call) (x : EnvIdx) (i j : Idx) : Prop
  | alloc : call.no = 4 → lookupEnv s cur call.a1 true = some x → At call.a2 i j →
      EditsEntry s cur call x i j
  | map : call.no = 5 → lookupEnv s cur call.a3 true = some x → At call.a4 i j →
      EditsEntry s cur call x i j
  | unmap : call.no = 6 → lookupEnv s cur call.a1 true = some x → At call.a2 i j →
      EditsEntry s cur call x i j
  | send : SendsTo s cur call x → At (s.envs x).envIpcDstva i j → EditsEntry s cur call x i j
  | fork : Creates s call x → EditsEntry s cur call x i j
  | destroy : call.Destroys s cur x → EditsEntry s cur call x i j
  | exit : call.no = 0 → x = cur → EditsEntry s cur call x i j

/-- The call changed no other entry. -/
def OnlyEdits (s : KState) (cur : EnvIdx) (call : Call) (t : KState) : Prop :=
  ∀ x i j, ¬ EditsEntry s cur call x i j → pteAt t (some x) i j = pteAt s (some x) i j

/-- What `envid2env` finds with its check is the caller or a child. -/
theorem lookupEnv_family {s : KState} {cur e : EnvIdx} {envid : Word}
    (h : lookupEnv s cur envid true = some e) : Family s cur e := by
  unfold lookupEnv at h
  split at h
  · cases h
    exact Or.inl rfl
  split at h
  · cases h
  rename_i hn
  split at h
  · cases h
  rename_i hp
  cases h
  by_cases hx : envx envid = cur
  · exact Or.inl hx
  · refine Or.inr ⟨fun hf => hn (Or.inl hf), ?_⟩
    by_contra hne
    exact hp ⟨rfl, hx, hne⟩

section

variable {c : CpuIdx} {cur : EnvIdx} {s : KState} {L : List Nat} {R : KState → Prop} {call : Call}

/-- Such calls are on the caller or a child, create `x`, or send to it. -/
theorem EditsEntry.may {x : EnvIdx} {i j : Idx} (h : EditsEntry s cur call x i j) :
    MayEdit s cur call x i j := by
  cases h with
  | alloc _ hl _ => exact Or.inl (lookupEnv_family hl)
  | map _ hl _ => exact Or.inl (lookupEnv_family hl)
  | unmap _ hl _ => exact Or.inl (lookupEnv_family hl)
  | send hs hat => exact Or.inr (Or.inr ⟨hs, hat⟩)
  | fork hc => exact Or.inr (Or.inl hc)
  | destroy hd => exact Or.inl (lookupEnv_family hd.2)
  | exit _ hx => exact Or.inl (Or.inl hx)

theorem OnlyEdits.confined {t : KState} (h : OnlyEdits s cur call t) : Confined s cur call t :=
  fun x i j hx => h x i j fun he => hx he.may

theorem OnlyEdits.of_eq {t : KState} (h : pteAt t = pteAt s) : OnlyEdits s cur call t :=
  fun x i j _ => by rw [h]

theorem onlyEdits_refl : OnlyEdits s cur call s := .of_eq rfl

/-- An edit that the call makes. -/
theorem OnlyEdits.of_edited {m t : KState} {e : EnvIdx} {P : Idx → Idx → Prop}
    (hm : pteAt m = pteAt s) (h : Edited (some e) P m t)
    (he : ∀ i j, P i j → EditsEntry s cur call e i j) : OnlyEdits s cur call t := by
  intro x i j hx
  rw [← hm]
  refine h.pte (some x) i j ?_
  rintro ⟨hxe, hP⟩
  obtain rfl : x = e := Option.some.inj hxe
  exact hx (he i j hP)

/-- An update that leaves memory and page directories alone. -/
theorem pteAt_setEnv {e : EnvIdx} {v : Env} (hv : v.envPgdir = (s.envs e).envPgdir) :
    pteAt (s.setEnv e v) = pteAt s := by
  have hd : ∀ x, ((s.setEnv e v).envs x).envPgdir = (s.envs x).envPgdir := by
    intro x
    by_cases hx : x = e
    · subst hx
      simp [KState.setEnv, hv]
    · simp [KState.setEnv, hx]
  exact (tables_congr (s := s) (t := s.setEnv e v) rfl hd rfl).2

theorem OnlyEdits.setEnv {t : KState} (h : OnlyEdits s cur call t) {e : EnvIdx} {v : Env}
    (hv : v.envPgdir = (t.envs e).envPgdir) : OnlyEdits s cur call (t.setEnv e v) :=
  fun x i j hx => by rw [pteAt_setEnv hv, h x i j hx]

theorem pteAt_setCpu (v : CpuInfo) : pteAt (s.setCpu c v) = pteAt s :=
  (Alike.setCpu s c v).tables.2

/-- `page_alloc` took `f` off the list, which leaves `L`; it is in hand. -/
structure Taken (zero : Bool) (s t : KState) (f : Nat) (L : List Nat) : Prop where
  only : PmOnly s t
  tables : tabFrame t = tabFrame s ∧ pteAt t = pteAt s
  inv : PageInv t L {f}
  managed : Managed t f
  notFree : f ∉ L
  notTable : NotTable t f
  unused : (t.pages f).ppRef = 0
  zeroed : zero = true → t.mem f = fun _ => 0
  mem : ∀ g, g ≠ f → t.mem g = s.mem g

/-- It can be given back. -/
theorem Taken.free {zero : Bool} {t : KState} {f : Nat} (h : Taken zero s t f L) :
    pageFree f t = .ok () (t.push f) :=
  pageFree_run h.unused (h.inv.unlinked f h.managed h.notFree)

theorem PageInv.alloc (h : PageInv s L ∅) (zero : Bool) :
    (L = [] ∧ pageAlloc zero s = .ok none s) ∨
      ∃ f t L', L = f :: L' ∧ pageAlloc zero s = .ok (some f) t ∧ Taken zero s t f L' := by
  cases L with
  | nil => exact Or.inl ⟨rfl, pageAlloc_nil h zero⟩
  | cons f L =>
    have hfL : f ∈ f :: L := List.mem_cons_self ..
    have hP : PageInv (s.pop f) L {f} := h.pop
    have hntp : NotTable (s.pop f) f := hP.notTable_of_held (Finset.mem_singleton_self f)
    have hpop := tables_congr (s := s) (t := s.pop f) rfl (fun _ => rfl) rfl
    have h0 : ((s.pop f).pages f).ppRef = 0 := by
      have : (s.pages f).ppRef = 0 := h.counted.ref_free hfL
      simp [KState.pop, KState.setPage, this]
    refine Or.inr ⟨f, _, L, rfl, pageAlloc_cons h zero, ?_⟩
    cases zero with
    | false =>
      exact ⟨.pop s f, hpop, hP, h.counted.managed f hfL, (List.nodup_cons.mp h.counted.nodup).1,
        hntp, h0, fun hz => absurd hz Bool.false_ne_true, fun _ _ => rfl⟩
    | true =>
      have hP' := hP.setFrame hntp fun _ => 0
      rw [if_pos rfl]
      refine ⟨(PmOnly.pop s f).trans (.setFrame _ _ _),
        ⟨(tabFrame_setFrame hntp.not_dir _).trans hpop.1, (hntp.pteAt_setFrame _).trans hpop.2⟩,
        hP', h.counted.managed f hfL, (List.nodup_cons.mp h.counted.nodup).1,
        hP'.notTable_of_held (Finset.mem_singleton_self f), h0, fun _ => by simp, fun g hg => ?_⟩
      simp [hg, KState.pop, KState.setPage]

theorem sysPageAlloc_edits (h : PageInv s L ∅) (hc : s.curenv c = some cur)
    {envid va perm a4 a5 : Word} : wp (sysPageAlloc c envid va perm)
      (fun _ t => OnlyEdits s cur ⟨4, envid, va, perm, a4, a5⟩ t) (Leaves R) s := by
  unfold sysPageAlloc
  refine envid2env_bind hc (fun _ => (wp_pure _).mpr onlyEdits_refl) fun e hl => ?_
  refine wp_ite.mpr ⟨fun _ => (wp_pure _).mpr onlyEdits_refl, fun hva => ?_⟩
  refine wp_ite.mpr ⟨fun _ => (wp_pure _).mpr onlyEdits_refl, fun _ => ?_⟩
  have hva' : vaOk va = true := by simpa using hva
  rcases h.alloc true with ⟨-, hrun⟩ | ⟨f, m, L', -, hrun, hm⟩
  · rw [wp_bind, wp_ok hrun]
    exact (wp_pure _).mpr onlyEdits_refl
  rw [wp_bind, wp_ok hrun, wp_bind]
  refine getPgdir_wp fun d hd => ?_
  rw [wp_bind]
  rcases pageInsert_spec c perm hm.inv hd (pdx_of_vaOk hva') hm.managed hm.notFree hm.notTable with
    ⟨-, -, hins⟩ | ⟨t, hins, hmap⟩
  · rw [wp_ok hins]
    rw [wp_bind, wp_ok hm.free, wp_pure]
    refine .of_eq ?_
    rw [← hm.tables.2]
    exact (tables_congr (s := m) (t := m.push f) rfl (fun _ => rfl) rfl).2
  · rw [wp_ok hins, wp_pure]
    exact .of_edited hm.tables.2 hmap.edit fun _ _ hat => .alloc rfl hl hat

theorem sysPageMap_edits (h : PageInv s L ∅) (hc : s.curenv c = some cur)
    {a1 a2 a3 a4 a5 : Word} :
    wp (sysPageMap c a1 a2 a3 a4 a5) (fun _ t => OnlyEdits s cur ⟨5, a1, a2, a3, a4, a5⟩ t)
      (Leaves R) s := by
  have stop : ∀ err : Err, wp (return .error err : K (Except Err Word))
      (fun _ t => OnlyEdits s cur ⟨5, a1, a2, a3, a4, a5⟩ t) (Leaves R) s := fun _ => (wp_pure _).mpr onlyEdits_refl
  unfold sysPageMap
  refine envid2env_bind hc (fun _ => stop _) fun src _ => ?_
  refine envid2env_bind hc (fun _ => stop _) fun dst hl => ?_
  refine wp_ite.mpr ⟨fun _ => stop _, fun hva => wp_ite.mpr ⟨fun _ => stop _, fun _ => ?_⟩⟩
  simp only [not_or, Bool.not_eq_false] at hva
  rw [wp_bind]
  refine getPgdir_wp fun d hd => ?_
  rw [wp_bind]
  rcases pageLookup_run h hd (pdx_of_vaOk hva.1) with ⟨-, hrun⟩ | ⟨f, T, hf, -, hrun, -⟩
  · rw [wp_ok hrun]
    exact stop _
  rw [wp_ok hrun]
  simp only [wp_bind, wp_get]
  refine wp_ite.mpr ⟨fun _ => stop _, fun _ => ?_⟩
  rw [wp_bind]
  refine getPgdir_wp fun d' hd' => ?_
  obtain ⟨hM, hfree, hnt⟩ := insertable h hf
  rw [wp_bind]
  rcases pageInsert_spec c a5 h hd' (pdx_of_vaOk hva.2) hM (hfree L h) hnt with
    ⟨-, -, hins⟩ | ⟨t, hins, hmap⟩
  · rw [wp_ok hins]
    exact stop _
  · rw [wp_ok hins, wp_pure]
    exact .of_edited rfl hmap.edit fun _ _ hat => .map rfl hl hat

theorem sysPageUnmap_edits (h : PageInv s L ∅) (hc : s.curenv c = some cur)
    {envid va a3 a4 a5 : Word} : wp (sysPageUnmap c envid va)
      (fun _ t => OnlyEdits s cur ⟨6, envid, va, a3, a4, a5⟩ t) (Leaves R) s := by
  unfold sysPageUnmap
  refine envid2env_bind hc (fun _ => (wp_pure _).mpr onlyEdits_refl) fun e hl => ?_
  refine wp_ite.mpr ⟨fun _ => (wp_pure _).mpr onlyEdits_refl, fun hva => ?_⟩
  have hva' : vaOk va = true := by simpa using hva
  rw [wp_bind]
  refine getPgdir_wp fun d hd => ?_
  rw [wp_bind]
  rcases pageRemove_spec c h hd (pdx_of_vaOk hva') with ⟨-, hrun⟩ | ⟨f, t, -, hrun, hun⟩
  · rw [wp_ok hrun, wp_pure]
    exact onlyEdits_refl
  · rw [wp_ok hrun, wp_pure]
    exact .of_edited rfl hun.edit fun _ _ hat => .unmap rfl hl hat

/-- The page part of a send: one entry of the receiver. -/
theorem ipcSendPage_edits (h : PageInv s L ∅) (hc : s.curenv c = some cur) {inp : Input}
    {e : EnvIdx} {srcva perm : Word} (hsrc : srcva < utop) (he : SendsTo s cur call e) :
    wp (ipcSendPage c inp e srcva perm)
      (fun _ t => t.curenv c = some cur ∧ OnlyEdits s cur call t) (Leaves R) s := by
  have stop : ∀ r : Except Err Unit, wp (return r : K (Except Err Unit))
      (fun _ t => t.curenv c = some cur ∧ OnlyEdits s cur call t) (Leaves R) s :=
    fun _ => (wp_pure _).mpr ⟨hc, onlyEdits_refl⟩
  unfold ipcSendPage
  rw [wp_bind, wp_ok (getCurenv_run hc), wp_bind]
  refine getPgdir_wp fun d hd => ?_
  rw [wp_bind]
  rcases pageLookup_run h hd (pdx_lt_utopPdx.mpr hsrc) with ⟨-, hrun⟩ | ⟨f, T, hf, -, hrun, -⟩
  · rw [wp_ok hrun]
    refine wp_ite.mpr ⟨fun _ => stop _, fun _ => ?_⟩
    cases inp.strayPte with
    | none => simp
    | some w => exact stop _
  rw [wp_ok hrun]
  refine wp_ite.mpr ⟨fun _ => stop _, fun _ => ?_⟩
  simp only [wp_bind, wp_get]
  refine wp_ite.mpr ⟨fun _ => stop _, fun _ => wp_ite.mpr ⟨fun _ => stop _, fun _ =>
    wp_ite.mpr ⟨fun hdst => ?_, fun _ => stop _⟩⟩⟩
  rw [wp_bind]
  refine getPgdir_wp fun d' hd' => ?_
  obtain ⟨hM, hfree, hnt⟩ := insertable h hf
  rw [wp_bind]
  rcases pageInsert_spec c perm h hd' (pdx_lt_utopPdx.mpr hdst) hM (hfree L h) hnt with
    ⟨-, -, hins⟩ | ⟨t, hins, hmap⟩
  · rw [wp_ok hins]
    exact stop _
  · rw [wp_ok hins]
    simp only [wp_bind, wp_modify, wp_pure]
    refine ⟨(congrFun hmap.edit.only.curenv c).trans hc, fun x i j hx => ?_⟩
    have hset : pteAt (t.setEnv e { t.envs e with envIpcPerm := perm }) = pteAt t :=
      pteAt_setEnv rfl
    rw [hset]
    refine hmap.edit.pte (some x) i j ?_
    rintro ⟨hxe, hat⟩
    obtain rfl : x = e := Option.some.inj hxe
    exact hx (.send he hat)

theorem sysIpcTrySend_edits (h : PageInv s L ∅) (hc : s.curenv c = some cur) {inp : Input}
    {a1 a2 a3 a4 a5 : Word} : wp (sysIpcTrySend c inp a1 a2 a3 a4)
      (fun _ t => OnlyEdits s cur ⟨11, a1, a2, a3, a4, a5⟩ t) (Leaves R) s := by
  unfold sysIpcTrySend
  refine envid2env_bind hc (fun _ => (wp_pure _).mpr onlyEdits_refl) fun e hl => ?_
  rw [wp_bind, wp_get]
  refine wp_ite.mpr ⟨fun _ => (wp_pure _).mpr onlyEdits_refl, fun hrecv => ?_⟩
  have he : SendsTo s cur ⟨11, a1, a2, a3, a4, a5⟩ e := ⟨rfl, hl, by simpa using hrecv⟩
  have finish : ∀ (r : Except Err Unit) t, t.curenv c = some cur ∧
      OnlyEdits s cur ⟨11, a1, a2, a3, a4, a5⟩ t → wp (sysIpcTrySendRest c e a2 r)
        (fun _ t => OnlyEdits s cur ⟨11, a1, a2, a3, a4, a5⟩ t) (Leaves R) t := by
    rintro (err | x) t ⟨hct, ht⟩
    · exact (wp_pure _).mpr ht
    · simp only [sysIpcTrySendRest, ipcDeliver]
      rw [wp_bind, wp_bind, wp_ok (getCurenv_run hct)]
      simp only [wp_modify, wp_pure]
      exact ht.setEnv rfl
  refine wp_ite.mpr ⟨fun hsrc => ?_, fun _ => ?_⟩ <;> rw [wp_bind]
  · exact (ipcSendPage_edits h hc hsrc he).mono finish fun _ _ hR => hR
  · exact (wp_pure _).mpr (finish (.ok ()) s ⟨hc, onlyEdits_refl⟩)

theorem sysExofork_edits (h : PageInv s L ∅) (hc : s.curenv c = some cur)
    {a1 a2 a3 a4 a5 : Word} : wp (sysExofork c)
      (fun _ t => OnlyEdits s cur ⟨7, a1, a2, a3, a4, a5⟩ t) (Leaves R) s := by
  unfold sysExofork
  rw [wp_bind, wp_ok (getCurenv_run hc), wp_bind, wp_get, wp_bind]
  rcases envAlloc_spec h (s.envs cur).envId with ⟨-, err, hrun⟩ | ⟨e, p, m, t, hrun, hcr, -⟩
  · rw [wp_ok hrun]
    exact (wp_pure _).mpr onlyEdits_refl
  · rw [wp_ok hrun]
    simp only [wp_bind, wp_modify, wp_get, wp_pure]
    have hconf : OnlyEdits s cur ⟨7, a1, a2, a3, a4, a5⟩ t := by
      intro x i j hx
      refine (hcr.tables (some x) fun hxe => hx (.fork ⟨rfl, ?_⟩)).2.1 i j
      rw [hcr.head, Option.some.inj hxe]
    exact hconf.setEnv rfl

/-- Only page tables of `e` differ. -/
def Apart (e : EnvIdx) (s t : KState) : Prop :=
  ∀ o i j, o ≠ some e → pteAt t o i j = pteAt s o i j

theorem Apart.onlyEdits {t : KState} {e : EnvIdx} (h : Apart e s t)
    (he : ∀ i j, EditsEntry s cur call e i j) : OnlyEdits s cur call t := by
  intro x i j hx
  refine h (some x) i j ?_
  intro hxe
  obtain rfl : x = e := Option.some.inj hxe
  exact hx (he i j)

theorem Apart.confined {t : KState} {e : EnvIdx} (h : Apart e s t) (he : Family s cur e) :
    Confined s cur call t := by
  intro x i j hx
  refine h (some x) i j ?_
  intro hxe
  obtain rfl : x = e := Option.some.inj hxe
  exact hx (Or.inl he)

theorem Apart.of_eq {t : KState} {e : EnvIdx} (h : pteAt t = pteAt s) : Apart e s t :=
  fun o i j _ => by rw [h]

theorem Apart.trans {t u : KState} {e : EnvIdx} (h : Apart e s t) (h' : Apart e t u) : Apart e s u :=
  fun o i j ho => (h' o i j ho).trans (h o i j ho)

theorem envFree_apart {e : EnvIdx} (h : PageInv s L ∅) :
    wp (envFree c e) (fun _ t => Apart e s t) (Leaves R) s := by
  cases hd : (s.envs e).envPgdir with
  | none =>
    unfold envFree
    simp only [wp_bind, wp_get, wp_ite, wp_set, hd]
    exact ⟨fun _ => by simp, fun _ => by simp⟩
  | some d =>
    obtain ⟨t, hrun, hg, -⟩ := envFree_spec c h hd
    exact (wp_ok hrun).mpr fun o i j ho => hg.pte o i j ho

theorem Runs.pteAt {e : EnvIdx} {t : KState} (h : Runs c e s t) : pteAt t = pteAt s := by
  obtain ⟨pd, -, rfl⟩ := h
  have hp : Jos.pteAt (preempt c s) = Jos.pteAt s := preempt_alike.tables.2
  rw [← hp]
  have hd : ∀ x, ((resume c e pd (preempt c s)).envs x).envPgdir
      = ((preempt c s).envs x).envPgdir := by
    intro x
    rw [resume_envs]
    split
    · rename_i hx
      rw [hx]
    · rfl
  exact (tables_congr (s := preempt c s) (t := resume c e pd (preempt c s)) rfl hd rfl).2

theorem Yields.pteAt {t : KState} (h : Yields c s t) : pteAt t = pteAt s := by
  cases h with
  | pick _ hr => exact hr.pteAt
  | stay _ _ _ hr => exact hr.pteAt
  | halt _ _ _ => exact (tables_congr (s := s) (t := halted c s) rfl (fun _ => rfl) rfl).2

theorem Returns.pteAt {t : KState} (h : Returns c s t) : pteAt t = pteAt s := by
  cases h with
  | stay _ _ hr => exact hr.pteAt
  | yield _ hy => exact hy.pteAt

theorem OnlyEdits.yields {t u : KState} (h : OnlyEdits s cur call t) (hy : Yields c t u) :
    OnlyEdits s cur call u := fun x i j hx => by rw [hy.pteAt, h x i j hx]

theorem envDestroy_apart {e : EnvIdx} (h : PageInv s L ∅) :
    wp (envDestroy c e) (fun _ t => Apart e s t) (Leaves (Apart e s)) s := by
  unfold envDestroy
  rw [wp_bind, wp_get]
  refine wp_ite.mpr ⟨fun _ => (wp_set _).mpr (.of_eq (pteAt_setEnv rfl)), fun _ => ?_⟩
  rw [wp_bind]
  refine (envFree_apart h).mono (fun _ t ht => ?_) fun _ _ hR => hR
  rw [wp_bind, wp_get]
  refine wp_ite.mpr ⟨fun _ => ?_, fun _ => (wp_pure _).mpr ht⟩
  rw [wp_bind, wp_set]
  refine schedYield_wp fun u hu => ht.trans (.of_eq ?_)
  exact hu.pteAt.trans (pteAt_setCpu _)

theorem envDestroy_edits (call : Call) {e : EnvIdx} (h : PageInv s L ∅)
    (he : ∀ i j, EditsEntry s cur call e i j) :
    wp (envDestroy c e) (fun _ t => OnlyEdits s cur call t) (Leaves (OnlyEdits s cur call)) s :=
  (envDestroy_apart h).mono (fun _ _ ht => ht.onlyEdits he)
    fun _ _ hR hx => (hR hx).onlyEdits he

/-- What system calls do to page tables. -/
theorem syscall_edits {inp : Input} (call : Call) {w : Word} (h : PageInv s L ∅)
    (hw : w.toNat = call.no) (hc : s.curenv c = some cur) :
    wp (syscall c inp w call.a1 call.a2 call.a3 call.a4 call.a5)
      (fun _ t => OnlyEdits s cur call t) (Leaves (OnlyEdits s cur call)) s := by
  obtain ⟨no, a1, a2, a3, a4, a5⟩ := call
  have ret : ∀ {x : K (Except Err Word)}, wp x
      (fun _ t => OnlyEdits s cur ⟨no, a1, a2, a3, a4, a5⟩ t)
      (Leaves (OnlyEdits s cur ⟨no, a1, a2, a3, a4, a5⟩)) s →
      wp (do return retCode (← x)) (fun _ t => OnlyEdits s cur ⟨no, a1, a2, a3, a4, a5⟩ t)
        (Leaves (OnlyEdits s cur ⟨no, a1, a2, a3, a4, a5⟩)) s :=
    fun hx => hx.bind fun _ _ ht => (wp_pure _).mpr ht
  unfold syscall
  simp only at hw ⊢
  rw [hw]
  split
  · -- `sys_cputs` destroys the caller if its string cannot be read
    unfold sysCputs userMemAssert
    rw [wp_bind, wp_bind, wp_ok (getCurenv_run hc), wp_bind]
    refine userMemCheck_wp.mono (fun r t ht => ?_) fun _ _ hR => hR
    obtain ⟨a, rfl⟩ := ht
    have hP : PageInv { s with userMemCheckAddr := a } L ∅ :=
      pageInv_congr h rfl (fun _ => rfl) rfl rfl ⟨rfl, rfl, rfl, rfl, rfl⟩
    have heq : pteAt { s with userMemCheckAddr := a } = pteAt s :=
      (tables_congr (s := s) (t := { s with userMemCheckAddr := a }) rfl (fun _ => rfl) rfl).2
    have hconf : ∀ {t : KState}, OnlyEdits { s with userMemCheckAddr := a } cur
        ⟨0, a1, a2, a3, a4, a5⟩ t → OnlyEdits s cur ⟨0, a1, a2, a3, a4, a5⟩ t := by
      intro t ht x i j hx
      rw [← heq]
      refine ht x i j fun he => hx ?_
      cases he with
      | exit hno hxc => exact .exit hno hxc
      | send hs _ => cases hs.1
      | fork hf => cases hf.1
      | destroy hd => cases hd.1
      | alloc hno => cases hno
      | map hno => cases hno
      | unmap hno => cases hno
    cases r with
    | ok _ => exact (wp_pure _).mpr ((wp_pure _).mpr (.of_eq heq))
    | error err =>
      exact (envDestroy_edits ⟨0, a1, a2, a3, a4, a5⟩ hP fun _ _ => .exit rfl rfl).mono
        (fun _ t ht => (wp_pure _).mpr (hconf ht)) fun x t hR hx => hconf (hR hx)
  · exact (wp_pure _).mpr onlyEdits_refl
  · unfold sysGetenvid
    rw [wp_bind, wp_ok (getCurenv_run hc)]
    simp only [wp_bind, wp_get, wp_pure]
    exact onlyEdits_refl
  · refine ret ?_
    unfold sysEnvDestroy
    refine envid2env_bind hc (fun _ => (wp_pure _).mpr onlyEdits_refl) fun e hl => ?_
    rw [wp_bind]
    exact (envDestroy_edits _ h fun _ _ => .destroy ⟨rfl, hl⟩).mono
      (fun _ t ht => (wp_pure _).mpr ht) fun _ _ hR => hR
  · exact ret (sysPageAlloc_edits h hc)
  · exact ret (sysPageMap_edits h hc)
  · exact ret (sysPageUnmap_edits h hc)
  · exact ret (sysExofork_edits h hc)
  · refine ret ?_
    unfold sysEnvSetStatus
    cases statusOfWord a2 with
    | none => exact (wp_pure _).mpr onlyEdits_refl
    | some st =>
      refine envid2env_bind hc (fun _ => (wp_pure _).mpr onlyEdits_refl) fun e _ => ?_
      simp only [wp_bind, wp_modify, wp_pure]
      exact onlyEdits_refl.setEnv rfl
  · refine ret ?_
    unfold sysEnvSetPgfaultUpcall
    refine envid2env_bind hc (fun _ => (wp_pure _).mpr onlyEdits_refl) fun e _ => ?_
    simp only [wp_bind, wp_modify, wp_pure]
    exact onlyEdits_refl.setEnv rfl
  · rw [wp_bind]
    exact schedYield_wp fun t ht => onlyEdits_refl.yields ht
  · exact ret (sysIpcTrySend_edits h hc)
  · refine ret ?_
    unfold sysIpcRecv
    refine wp_ite.mpr ⟨fun _ => (wp_pure _).mpr onlyEdits_refl, fun _ => ?_⟩
    rw [wp_bind, wp_ok (getCurenv_run hc), wp_bind, wp_modify, wp_bind]
    have hrecv : OnlyEdits s cur ⟨12, a1, a2, a3, a4, a5⟩ (receiving s cur a1) :=
      onlyEdits_refl.setEnv rfl
    exact schedYield_wp fun t ht => hrecv.yields ht
  · exact (wp_pure _).mpr onlyEdits_refl

/-! ### The whole entry -/

theorem saved_envs (tf : Trapframe) (x : EnvIdx) : (saved c cur tf s).envs x =
    if x = cur then { s.envs cur with envTf := tf } else s.envs x := by
  by_cases hx : x = cur
  · subst hx
    simp [saved, KState.setEnv, KState.setCpu]
  · simp [saved, KState.setEnv, KState.setCpu, hx]

/-- Saving the frame changes nothing that decides who may be touched. -/
theorem saved_ids (s : KState) (c : CpuIdx) (cur : EnvIdx) (tf : Trapframe) (x : EnvIdx) :
    ((saved c cur tf s).envs x).envStatus = (s.envs x).envStatus ∧
    ((saved c cur tf s).envs x).envId = (s.envs x).envId ∧
    ((saved c cur tf s).envs x).envParentId = (s.envs x).envParentId ∧
    ((saved c cur tf s).envs x).envIpcRecving = (s.envs x).envIpcRecving ∧
    ((saved c cur tf s).envs x).envIpcDstva = (s.envs x).envIpcDstva := by
  rw [saved_envs]
  split
  · rename_i hx
    rw [hx]
    exact ⟨rfl, rfl, rfl, rfl, rfl⟩
  · exact ⟨rfl, rfl, rfl, rfl, rfl⟩

theorem saved_lookup (tf : Trapframe) (envid : Word) (chk : Bool) :
    lookupEnv (saved c cur tf s) cur envid chk = lookupEnv s cur envid chk := by
  obtain ⟨h1, h2, h3, -, -⟩ := saved_ids s c cur tf (envx envid)
  have h4 := (saved_ids s c cur tf cur).2.1
  unfold lookupEnv
  rw [h1, h2, h3, h4]

theorem saved_family (tf : Trapframe) (x : EnvIdx) :
    Family (saved c cur tf s) cur x ↔ Family s cur x := by
  obtain ⟨h1, -, h3, -, -⟩ := saved_ids s c cur tf x
  have h4 := (saved_ids s c cur tf cur).2.1
  unfold Family
  rw [h1, h3, h4]

theorem saved_sendsTo (tf : Trapframe) (x : EnvIdx) :
    SendsTo (saved c cur tf s) cur call x ↔ SendsTo s cur call x := by
  unfold SendsTo
  rw [saved_lookup, (saved_ids s c cur tf x).2.2.2.1]

theorem saved_edits (tf : Trapframe) {t : KState}
    (h : OnlyEdits (saved c cur tf s) cur call t) : OnlyEdits s cur call t := by
  intro x i j hx
  have hp : pteAt (saved c cur tf s) = pteAt s := (saved_alike tf).tables.2
  rw [← hp]
  refine h x i j fun hm => hx ?_
  cases hm with
  | alloc hno hl hat => exact .alloc hno ((saved_lookup tf _ _).symm.trans hl) hat
  | map hno hl hat => exact .map hno ((saved_lookup tf _ _).symm.trans hl) hat
  | unmap hno hl hat => exact .unmap hno ((saved_lookup tf _ _).symm.trans hl) hat
  | send hs hat =>
    rw [(saved_ids s c cur tf x).2.2.2.2] at hat
    exact .send ((saved_sendsTo tf x).mp hs) hat
  | fork hf => exact .fork hf
  | destroy hd => exact .destroy ⟨hd.1, (saved_lookup tf _ _).symm.trans hd.2⟩
  | exit hno hxc => exact .exit hno hxc

/-- The dispatch of a system call, up to the return to user mode. -/
theorem trapDispatch_edits {inp : Input} {tf : Trapframe} (h : PageInv s L ∅)
    (hc : s.curenv c = some cur) (hsys : tf.tfTrapno = tSyscall) :
    wp (trapDispatch c inp tf) (fun _ t => wp (trapReturn c) (fun _ _ => False)
      (Leaves (OnlyEdits s cur (Call.ofTf tf))) t) (Leaves (OnlyEdits s cur (Call.ofTf tf))) s := by
  unfold trapDispatch
  rw [if_neg (by rw [hsys]; decide), if_neg (by rw [hsys]; decide), if_pos hsys, wp_bind,
    wp_ok (getCurenv_run hc), wp_bind]
  refine (syscall_edits (Call.ofTf tf) h rfl hc).mono (fun w u hu => ?_) fun _ _ hR => hR
  rw [wp_modify]
  have hset : OnlyEdits s cur (Call.ofTf tf)
      (u.setEnv cur { u.envs cur with envTf := (u.envs cur).envTf.withEax w }) := hu.setEnv rfl
  refine trapReturn_wp fun t ht x i j hx => ?_
  rw [ht.pteAt, hset x i j hx]

/-- A trap for a system call of a caller that is not marked. -/
theorem trap_edits {inp : Input} {tf : Trapframe} (h : PageInv s L ∅) (hcs : tf.tfCs = gdUt ||| 3)
    (hc : s.curenv c = some cur) (hnd : (s.envs cur).envStatus ≠ .dying)
    (hsys : tf.tfTrapno = tSyscall) :
    wp (trap c inp tf) (fun _ _ => False) (Leaves (OnlyEdits s cur (Call.ofTf tf))) s := by
  have ha : Alike s (saved c cur tf s) := saved_alike tf
  have hP : PageInv (saved c cur tf s) L ∅ :=
    pageInv_congr h ha.mem ha.dir ha.pages ha.freeList ha.limits
  refine trap_user_wp hcs hc hnd (by simp) ?_
  rw [wp_bind]
  exact (trapDispatch_edits hP ((saved_curenv tf c).trans hc) hsys).mono
    (fun _ t ht => ht.mono (fun _ _ hf => hf) fun x u hR hx => saved_edits tf (hR hx))
    fun x t hR hx => saved_edits tf (hR hx)

/-- A trap of the caller for a system call. -/
theorem trap_confined {inp : Input} {tf : Trapframe} (h : PageInv s L ∅)
    (hcs : tf.tfCs = gdUt ||| 3) (hc : s.curenv c = some cur) (hsys : tf.tfTrapno = tSyscall) :
    wp (trap c inp tf) (fun _ _ => False) (Leaves (Confined s cur (Call.ofTf tf))) s := by
  by_cases hnd : (s.envs cur).envStatus = .dying
  · have hs : Alike s (started c s) := Alike.setCpu s c _
    have hP : PageInv (started c s) L ∅ :=
      pageInv_congr h hs.mem hs.dir hs.pages hs.freeList hs.limits
    unfold trap
    simp only [wp_bind, wp_modify]
    refine wp_ite.mpr ⟨fun _ => ?_, fun hx => absurd (cs_user hcs) hx⟩
    rw [wp_bind, wp_ok (getCurenv_run (curenv_started hc)), wp_bind]
    refine getCallerPcs_wp (by simp) fun _ => ?_
    rw [wp_bind, wp_get]
    refine wp_ite.mpr ⟨fun _ => ?_, fun hx => absurd hnd hx⟩
    rw [wp_bind]
    refine (envFree_apart hP).mono (fun _ u hu => ?_) fun _ _ hR => hR
    simp only [wp_bind, wp_modify]
    refine schedYield_wp fun t hy x i j hx => ?_
    have hset : pteAt (u.setCurenv c none) = pteAt u := pteAt_setCpu _
    have hconf : Confined (started c s) cur (Call.ofTf tf) u := hu.confined (Or.inl rfl)
    rw [hy.pteAt, hset, hconf x i j hx, hs.tables.2]
  · exact (trap_edits h hcs hc hnd hsys).mono (fun _ _ hf => hf) fun _ _ hR hx => (hR hx).confined

/-! ### Records of environments -/

/-- What scheduling may change of an environment. The status changes only if it is chosen. -/
structure Scheduled (v w : Env) : Prop where
  rest : w = { v with
    envStatus := w.envStatus, envRuns := w.envRuns, envCpunum := w.envCpunum }
  status : w.envStatus = v.envStatus ∨ v.envStatus = .runnable ∧ w.envStatus = .running

theorem Scheduled.refl (v : Env) : Scheduled v v := ⟨rfl, Or.inl rfl⟩

theorem schedPick_runnable {n : Nat} {e : EnvIdx} (h : schedPick s n = some e) :
    (s.envs e).envStatus = .runnable := by
  have := List.find?_some h
  simpa using this

/-- `env_run` leaves all others alone, but for the one it takes off the CPU. -/
theorem Runs.scheduled {e x : EnvIdx} {t : KState} (h : Runs c e s t) (hx : s.curenv c ≠ some x)
    (he : x = e → (s.envs e).envStatus = .runnable) : Scheduled (s.envs x) (t.envs x) := by
  obtain ⟨pd, -, rfl⟩ := h
  have hp : (preempt c s).envs x = s.envs x := by
    rw [preempt_envs, if_neg fun hx' => hx hx'.1]
  rw [resume_envs]
  split
  · rename_i hxe
    subst hxe
    rw [hp]
    exact ⟨rfl, Or.inr ⟨he rfl, rfl⟩⟩
  · rw [hp]
    exact .refl _

theorem Yields.scheduled {x : EnvIdx} {t : KState} (h : Yields c s t) (hx : s.curenv c ≠ some x) :
    Scheduled (s.envs x) (t.envs x) := by
  cases h with
  | pick hp hr => exact hr.scheduled hx fun _ => schedPick_runnable hp
  | stay _ hc _ hr => exact hr.scheduled hx fun hxe => absurd (hxe ▸ hc) hx
  | halt _ _ _ => exact .refl _

theorem Returns.scheduled {x : EnvIdx} {t : KState} (h : Returns c s t) (hx : s.curenv c ≠ some x) :
    Scheduled (s.envs x) (t.envs x) := by
  cases h with
  | stay hc _ hr => exact hr.scheduled hx fun hxe => absurd (hxe ▸ hc) hx
  | yield _ hy => exact hy.scheduled hx

/-- A receiver once it was sent to: its IPC fields, its status and the saved `eax` are new. -/
def SentEnv (v w : Env) : Prop := ∃ v' : Env, Scheduled v' w ∧ v' = { v with
  envIpcRecving := false
  envIpcFrom := v'.envIpcFrom
  envIpcValue := v'.envIpcValue
  envIpcPerm := v'.envIpcPerm
  envStatus := .runnable
  envTf := v.envTf.withEax 0 }

/-- Outside the caller's family and the child that it creates, a call changes a receiver that it
    sends to, and nothing else. -/
structure Untouched (s t : KState) (x : EnvIdx) : Prop where
  env : Scheduled (s.envs x) (t.envs x)
  pages : ∀ i j, pteAt t (some x) i j = pteAt s (some x) i j

/-- A receiver may get a message, and one new mapping. -/
structure SentAtMost (s t : KState) (x : EnvIdx) : Prop where
  env : Scheduled (s.envs x) (t.envs x) ∨ SentEnv (s.envs x) (t.envs x)
  pages : ∀ i j, ¬ At (s.envs x).envIpcDstva i j → pteAt t (some x) i j = pteAt s (some x) i j

/-- A call that returns: the records of all others. -/
theorem CallDone.others {t : KState} (h : CallDone s c cur call t) {x : EnvIdx}
    (hf : ¬ Family s cur x) (hcr : ¬ Creates s call x) : t.envs x = s.envs x ∨
      SendsTo s cur call x ∧ ∃ value perm, t.envs x = (delivered s cur x value perm).envs x := by
  have other : ∀ {e : EnvIdx} {v : Env}, Family s cur e → (s.setEnv e v).envs x = s.envs x := by
    intro e v he
    have hxe : x ≠ e := by
      rintro rfl
      exact hf he
    simp [KState.setEnv, hxe]
  cases h with
  | nothing h => exact Or.inl (congrFun h.envs x)
  | marked hd _ _ h =>
    exact Or.inl ((congrFun h.envs x).trans (other (lookupEnv_family hd.2)))
  | freed hd _ _ h =>
    exact Or.inl ((congrFun h.envs x).trans (other (lookupEnv_family hd.2)))
  | @forked e p hno hhead h =>
    have hxe : x ≠ e := by
      rintro rfl
      exact hcr ⟨hno, hhead⟩
    refine Or.inl ((congrFun h.envs x).trans ?_)
    simp [Jos.forked, KState.setEnv, hxe]
  | status _ hl _ h => exact Or.inl ((congrFun h.envs x).trans (other (lookupEnv_family hl)))
  | upcall _ hl h => exact Or.inl ((congrFun h.envs x).trans (other (lookupEnv_family hl)))
  | @sent e perm hno hl hr h =>
    by_cases hxe : x = e
    · subst hxe
      exact Or.inr ⟨⟨hno, hl, hr⟩, _, perm, congrFun h.envs x⟩
    · refine Or.inl ((congrFun h.envs x).trans ?_)
      simp [delivered, KState.setEnv, hxe]

theorem CallDone.cpus {t : KState} (h : CallDone s c cur call t) : t.cpus = s.cpus := by
  cases h with
  | nothing h => exact h.cpus
  | marked _ _ _ h => exact h.cpus
  | freed _ _ _ h => exact h.cpus
  | forked _ _ h => exact h.cpus
  | status _ _ _ h => exact h.cpus
  | upcall _ _ h => exact h.cpus
  | sent _ _ _ h => exact h.cpus

theorem freed_envs {e x : EnvIdx} (hx : x ≠ e) : (freed e s).envs x = s.envs x := by
  simp [freed, KState.setEnv, hx]

/-- The death of the caller, and the choice of another environment. -/
theorem Yields.after_death {t u : KState} (hu : SameEnvs (freed cur s) u)
    (hy : Yields c (u.setCurenv c none) t) {x : EnvIdx} (hx : x ≠ cur) :
    Scheduled (s.envs x) (t.envs x) := by
  have hnone : (u.setCurenv c none).curenv c ≠ some x := by
    simp [KState.curenv, KState.setCurenv, KState.setCpu]
  have hsch := hy.scheduled hnone
  have henv : (u.setCurenv c none).envs x = s.envs x := by
    show u.envs x = _
    rw [hu.envs, freed_envs hx]
  rwa [henv] at hsch

/-- The records of all others after a system call. -/
theorem trap_others {tf : Trapframe} {t : KState} (h : TrapEffect s c tf t)
    (hm : (s.cpus c).mode = .user) (hc : s.curenv c = some cur) (hsys : tf.tfTrapno = tSyscall)
    {x : EnvIdx} (hf : ¬ Family s cur x) (hcr : ¬ Creates s (Call.ofTf tf) x) :
    Scheduled (s.envs x) (t.envs x) ∨
      SendsTo s cur (Call.ofTf tf) x ∧ SentEnv (s.envs x) (t.envs x) := by
  have hx : x ≠ cur := fun hx => hf (Or.inl hx)
  have hxc : s.curenv c ≠ some x := fun hx' => hx (Option.some.inj (hc.symm.trans hx')).symm
  have hsav : (saved c cur tf s).envs x = s.envs x := by rw [saved_envs, if_neg hx]
  have hstart : (started c s).envs x = s.envs x := rfl
  have same : ∀ {cur' : EnvIdx}, s.curenv c = some cur' → cur' = cur := fun hc' =>
    Option.some.inj (hc'.symm.trans hc)
  cases h with
  | collected _ hc' _ hu hy =>
    obtain rfl := same hc'
    exact Or.inl (hstart ▸ Yields.after_death hu hy hx)
  | faulted _ _ _ hno => exact absurd (hno.symm.trans hsys) (by decide)
  | killed _ _ _ hno => exact absurd hsys hno
  | @called cur' u w _ hc' _ _ hd hr =>
    obtain rfl := same hc'
    have hset : (u.setEnv cur' { u.envs cur' with envTf := (u.envs cur').envTf.withEax w }).envs x
        = u.envs x := by simp [KState.setEnv, hx]
    have hcur : (u.setEnv cur' { u.envs cur' with
        envTf := (u.envs cur').envTf.withEax w }).curenv c ≠ some x := by
      have hcpu : (u.cpus c).cpuEnv = s.curenv c := by
        rw [hd.cpus]
        exact saved_curenv tf c
      show (u.cpus c).cpuEnv ≠ some x
      rw [hcpu]
      exact hxc
    have hsch := hr.scheduled hcur
    rw [hset] at hsch
    rcases hd.others (mt (saved_family tf x).mp hf) hcr with heq | ⟨hs, value, perm, heq⟩
    · rw [heq, hsav] at hsch
      exact Or.inl hsch
    · refine Or.inr ⟨(saved_sendsTo tf x).mp hs, u.envs x, hsch, ?_⟩
      rw [heq]
      simp [delivered, KState.setEnv, hsav]
  | @left cur' _ hc' _ _ hl =>
    obtain rfl := same hc'
    cases hl with
    | died _ hu hy => exact Or.inl (hsav ▸ Yields.after_death hu hy hx)
    | yielded _ hy =>
      have hsch := hy.scheduled (x := x) (by rw [saved_curenv]; exact hxc)
      rw [hsav] at hsch
      exact Or.inl hsch
    | received _ hy =>
      have hcur : (receiving (saved c cur' tf s) cur' (Call.ofTf tf).a1).curenv c ≠ some x := by
        show (saved c cur' tf s).curenv c ≠ some x
        rw [saved_curenv]
        exact hxc
      have hsch := hy.scheduled hcur
      have hrec : (receiving (saved c cur' tf s) cur' (Call.ofTf tf).a1).envs x = s.envs x := by
        simp [receiving, KState.setEnv, hx, hsav]
      rw [hrec] at hsch
      exact Or.inl hsch
  | timer _ _ _ hno => exact absurd (hno.symm.trans hsys) (by decide)
  | woken hm' => exact absurd (hm.symm.trans hm') (by decide)

/-- What a system call of `cur` may change: the caller and its children, the child that it
    creates, one entry and the record of a receiver, and what scheduling changes of the others. -/
theorem syscall_authority {inp : Input} {tf : Trapframe} {t : KState} (h : PageInv s L ∅)
    (hstep : Step s (c, .trap inp tf) t) (hm : (s.cpus c).mode = .user)
    (hc : s.curenv c = some cur) (hsys : tf.tfTrapno = tSyscall) (x : EnvIdx) :
    Family s cur x ∨ Creates s (Call.ofTf tf) x ∨
      (SendsTo s cur (Call.ofTf tf) x ∧ SentAtMost s t x) ∨ Untouched s t x := by
  by_cases hf : Family s cur x
  · exact Or.inl hf
  by_cases hcr : Creates s (Call.ofTf tf) x
  · exact Or.inr (Or.inl hcr)
  refine Or.inr (Or.inr ?_)
  cases step_effect hstep with
  | trap ha heff =>
    have hcs : tf.tfCs = gdUt ||| 3 := by
      rcases ha with ⟨-, hcs⟩ | ⟨hm', -⟩
      · exact hcs
      · exact absurd (hm.symm.trans hm') (by decide)
    have hrun : trap c inp tf s = .error .leave t := by
      unfold Step step at hstep
      simp only at hstep
      rw [if_pos ha] at hstep
      exact enter_eq_some.mp hstep
    have hconf : Confined s cur (Call.ofTf tf) t :=
      (trap_confined h hcs hc hsys).error hrun rfl
    have hpages : ∀ i j, ¬ (SendsTo s cur (Call.ofTf tf) x ∧ At (s.envs x).envIpcDstva i j) →
        pteAt t (some x) i j = pteAt s (some x) i j := by
      refine fun i j hno => hconf x i j ?_
      rintro (hx | hx | hx)
      · exact hf hx
      · exact hcr hx
      · exact hno hx
    by_cases hs : SendsTo s cur (Call.ofTf tf) x
    · refine Or.inl ⟨hs, ?_, fun i j hat => hpages i j fun hx => hat hx.2⟩
      exact (trap_others heff hm hc hsys hf hcr).imp_right fun hx => hx.2
    · refine Or.inr ⟨?_, fun i j => hpages i j fun hx => hs hx.1⟩
      exact (trap_others heff hm hc hsys hf hcr).resolve_right fun hx => hs hx.1

end

/-- The trap frame of a call of `sys_yield`. -/
def yieldFrame : Trapframe := { Trapframe.zero with
  tfRegs := { PushRegs.zero with regEax := 10 }, tfTrapno := tSyscall, tfCs := gdUt ||| 3 }

theorem schedPick_head {s : KState} {n : Nat}
    (h : (s.envs (Fin.ofNat 1024 n)).envStatus = .runnable) :
    schedPick s n = some (Fin.ofNat 1024 n) := by
  have hr : List.range nenv = 0 :: (List.range 1023).map Nat.succ := List.range_succ_eq_map
  unfold schedPick
  rw [hr, List.map_cons, List.find?_cons_of_pos (by simpa using h)]
  rfl

/-- A call of `sys_yield` leaves the kernel like `sched_yield` does. -/
theorem step_yield {s t : KState} {c : CpuIdx} {cur : EnvIdx} {inp : Input}
    (hm : (s.cpus c).mode = .user) (hc : s.curenv c = some cur)
    (hnd : (s.envs cur).envStatus ≠ .dying) (hy : Yields c (saved c cur yieldFrame s) t) :
    Step s (c, .trap inp yieldFrame) t := by
  have hc' : (saved c cur yieldFrame s).curenv c = some cur := (saved_curenv _ c).trans hc
  have hdisp : trapDispatch c inp yieldFrame (saved c cur yieldFrame s) = .error .leave t := by
    have hrun : syscall c inp 10 0 0 0 0 0 (saved c cur yieldFrame s) = .error .leave t := by
      have hy' := schedYield_run hy
      simp only [syscall]
      rw [show (10 : Word).toNat = 10 from rfl]
      simp only [run_bind, hy']
    unfold trapDispatch
    rw [if_neg (by decide), if_neg (by decide), if_pos (by decide)]
    simp only [run_bind, getCurenv_run hc']
    rw [show syscall c inp yieldFrame.tfRegs.regEax yieldFrame.tfRegs.regEdx
      yieldFrame.tfRegs.regEcx yieldFrame.tfRegs.regEbx yieldFrame.tfRegs.regEdi
      yieldFrame.tfRegs.regEsi (saved c cur yieldFrame s) = .error .leave t from hrun]
  have htrap : trap c inp yieldFrame s = .error .leave t := by
    rw [trap_user rfl hc (.of_lt (by decide)) hnd, run_bind, hdisp]
  have ha : TrapAllowed s c yieldFrame := Or.inl ⟨hm, rfl⟩
  unfold Step step
  simp only
  rw [if_pos ha]
  exact enter_eq_some.mpr htrap

/-- On the demonstration machine the first program yields, and the second one runs. -/
theorem demo_yield : ∃ s t L, PageInv s L ∅ ∧ Step s (1, .trap .plain yieldFrame) t ∧
    (s.cpus 1).mode = .user ∧ s.curenv 1 = some 0 ∧ ¬ Family s 0 1 ∧
    (s.envs 1).envCpunum = 0 ∧ (t.envs 1).envCpunum = 1 := by
  obtain ⟨s, L, -, hb, hL, -⟩ := demo_boots
  obtain ⟨hm, hc⟩ := hb.bsp
  obtain ⟨v, hv, h0⟩ := hb.first
  have h1 : BootEnv 1 (s.envs 1) := by
    have hbe := hb.envs 1 (by decide)
    rwa [if_pos (by decide)] at hbe
  have hid : (s.envs 0).envId = 4096 := by
    rw [h0]
    exact hv.envId
  obtain ⟨Le, hLe⟩ := hb.inv.core.envs
  obtain ⟨d, hd⟩ : ∃ d, (s.envs 1).envPgdir = some d :=
    Option.ne_none_iff_exists'.mp fun hn => by
      have := (hLe.dir 1).mp hn
      rw [h1.status] at this
      cases this
  have hS : (saved 1 0 yieldFrame s).envs 1 = s.envs 1 := by
    rw [saved_envs, if_neg (by decide)]
  have hc' : (saved 1 0 yieldFrame s).curenv 1 = some 0 := (saved_curenv _ 1).trans hc
  have hbegin : schedBegin (saved 1 0 yieldFrame s) 1 = 1 := by
    unfold schedBegin
    rw [hc']
    simp only
    rw [(saved_ids s 1 0 yieldFrame 0).2.1, hid]
    decide
  have hpick : schedPick (saved 1 0 yieldFrame s) (schedBegin (saved 1 0 yieldFrame s) 1)
      = some 1 := by
    rw [hbegin]
    refine schedPick_head (n := 1) ?_
    show ((saved 1 0 yieldFrame s).envs 1).envStatus = _
    rw [hS]
    exact h1.status
  have hruns : Runs 1 1 (saved 1 0 yieldFrame s)
      (resume 1 1 d (preempt 1 (saved 1 0 yieldFrame s))) := ⟨d, by rw [hS]; exact hd, rfl⟩
  refine ⟨s, _, L, hL, step_yield hm hc (by rw [h0]; simp) (.pick hpick hruns), hm, hc, ?_,
    h1.cpunum, ?_⟩
  · rintro (hx | ⟨-, hp⟩)
    · exact absurd hx (by decide)
    · rw [h1.parent, hid] at hp
      exact absurd hp (by decide)
  · rw [resume_envs, if_pos rfl]

/-- The call of `sys_yield` on the demonstration machine. -/
theorem syscall_authority_demo : ∃ s t L, PageInv s L ∅ ∧
    Step s (1, .trap .plain yieldFrame) t ∧ ∀ x, Family s 0 x ∨
      Creates s (Call.ofTf yieldFrame) x ∨
      (SendsTo s 0 (Call.ofTf yieldFrame) x ∧ SentAtMost s t x) ∨ Untouched s t x := by
  obtain ⟨s, t, L, hL, hstep, hm, hc, -⟩ := demo_yield
  exact ⟨s, t, L, hL, hstep, syscall_authority hL hstep hm hc rfl⟩

/-- Scheduling changes one more field of an environment that is chosen: `env_cpunum`. -/
theorem yield_sets_cpunum : ¬ ∀ (s t : KState) (L : List Nat) (c : CpuIdx) (cur x : EnvIdx)
    (inp : Input) (tf : Trapframe), PageInv s L ∅ → Step s (c, .trap inp tf) t →
    (s.cpus c).mode = .user → s.curenv c = some cur → tf.tfTrapno = tSyscall →
    Family s cur x ∨ Creates s (Call.ofTf tf) x ∨ SendsTo s cur (Call.ofTf tf) x ∨
      t.envs x = { s.envs x with
        envStatus := (t.envs x).envStatus, envRuns := (t.envs x).envRuns } := by
  intro hall
  obtain ⟨s, t, L, hL, hstep, hm, hc, hf, h0, h1⟩ := demo_yield
  rcases hall s t L 1 0 1 _ _ hL hstep hm hc rfl with hx | ⟨hx, -⟩ | ⟨hx, -⟩ | hx
  · exact hf hx
  · exact absurd hx (by decide)
  · exact absurd hx (by decide)
  · have hcpu := congrArg Env.envCpunum hx
    rw [h1] at hcpu
    exact absurd (hcpu.trans h0) (by decide)

end Jos
