import Jos.EnvMem
import Jos.System

/-!
  The invariant of the kernel's data.

  `Core` is about memory and the environments and holds whenever kernel code is between two of its
  operations. `CpuOk` ties a CPU in user mode to the environment it runs. While CPU `c` is in the
  kernel only the other CPUs have to meet it (`Mid`). The parameter `T` says whether cached
  translations are tracked as well. -/

namespace Jos

open Lib RefCount

/-- A page-table entry as system calls make them: empty, or a page with permissions inside
    `PTE_SYSCALL`. -/
def UserEntry (w : Word) : Prop :=
  w = 0 ∨ ∃ f perm, w = page2pa f ||| perm ||| pteP ∧ perm &&& ~~~pteSyscall = 0

/-- What the kernel's tables hold at `UPAGES`: user code may read the first 1024 frames there. The
    kernel's arrays lie beyond the first 256 frames. -/
structure PagesMap (s : KState) : Prop where
  above : 256 ≤ paddrFrame s.pagesAt ∧ 256 ≤ paddrFrame s.envsAt
  pde : s.mem s.kernPgdir (pdx upages) &&& userRead = userRead
  pte : ∀ j : Idx, pteAt s none (pdx upages) j = page2pa j.val ||| pteU ||| pteP

/-- The part of the address space from `UTOP` up: every directory has the kernel's entries there
    but for its own `UVPT`, and the kernel's page tables let user code write nothing. -/
structure KernHalf (s : KState) : Prop where
  upper : ∀ e d, (s.envs e).envPgdir = some d → ∀ i, utopPdx ≤ i →
    s.mem d i = if i = uvptPdx then page2pa d ||| pteP ||| pteU else s.mem s.kernPgdir i
  noWrite : ∀ i j, utopPdx ≤ i → pteAt s none i j &&& userWrite ≠ userWrite
  pages : PagesMap s

/-- `env_free_list` is the chain `Le` of the free slots, and exactly the free slots have no page
    directory. -/
structure EnvList (s : KState) (Le : List EnvIdx) : Prop where
  chain : Chain (fun e => (s.envs e).envLink) s.envFreeList Le
  nodup : Le.Nodup
  free : ∀ e, e ∈ Le ↔ (s.envs e).envStatus = .free
  dir : ∀ e, (s.envs e).envPgdir = none ↔ (s.envs e).envStatus = .free

structure Core (H : Finset Nat) (s : KState) : Prop where
  page : ∃ L, PageInv s L H
  entries : ∀ e i j, UserEntry (pteAt s (some e) i j)
  kern : KernHalf s
  envs : ∃ Le, EnvList s Le

/-- A CPU in user mode runs a live environment on its page directory. -/
structure CpuOk (T : Prop) (s : KState) (k : CpuIdx) : Prop where
  running : (s.cpus k).mode = .user →
    ∃ e, s.curenv k = some e ∧ (s.envs e).envPgdir = some (s.cr3 k)
  fresh : T → (s.cpus k).mode = .user → Fresh k s

/-- What holds while CPU `c` executes kernel code with the pages `H` in hand. -/
structure Mid (T : Prop) (c : CpuIdx) (H : Finset Nat) (s : KState) : Prop where
  core : Core H s
  others : ∀ k, k ≠ c → CpuOk T s k

/-- What holds whenever no CPU executes kernel code. -/
structure Inv (T : Prop) (s : KState) : Prop where
  core : Core ∅ s
  cpus : ∀ k, CpuOk T s k

/-- Another CPU in user mode runs `e`. -/
def Elsewhere (s : KState) (c : CpuIdx) (e : EnvIdx) : Prop :=
  ∃ k, k ≠ c ∧ (s.cpus k).mode = .user ∧ s.curenv k = some e

instance (s : KState) (c : CpuIdx) (e : EnvIdx) : Decidable (Elsewhere s c e) :=
  inferInstanceAs (Decidable (∃ k, k ≠ c ∧ (s.cpus k).mode = .user ∧ s.curenv k = some e))

theorem Inv.mid {T : Prop} {s : KState} (h : Inv T s) (c : CpuIdx) : Mid T c ∅ s :=
  ⟨h.core, fun k _ => h.cpus k⟩

/-! ### Permissions -/

theorem perm_lt {perm : Word} (h : perm &&& ~~~pteSyscall = 0) : perm.toNat < 4096 := by
  have hp : perm = perm &&& pteSyscall := by
    have : perm = (perm &&& pteSyscall) ||| (perm &&& ~~~pteSyscall) := by
      ext i
      simp only [BitVec.getElem_or, BitVec.getElem_and, BitVec.getElem_not]
      cases perm[i] <;> cases pteSyscall[i] <;> rfl
    rw [h] at this
    simpa using this
  rw [hp, BitVec.toNat_and]
  exact lt_of_le_of_lt Nat.and_le_right (by decide)

/-- The entry `page_insert` makes with permissions inside `PTE_SYSCALL` maps the page itself. -/
theorem entryFrame_insert {f : Nat} {perm : Word} (hp : f < 2 ^ 20)
    (h : perm &&& ~~~pteSyscall = 0) : entryFrame (page2pa f ||| perm ||| pteP) = some f :=
  entryFrame_mk_of_lt hp (perm_lt h)

/-- The flags of a present user entry are inside `PTE_SYSCALL`. -/
theorem UserEntry.flags {w : Word} (h : UserEntry w) : w &&& 0xFFF &&& ~~~pteSyscall = 0 := by
  rcases h with rfl | ⟨f, perm, rfl, hp⟩
  · rfl
  · have h1 := page2pa_flags f
    have h2 : pteP &&& ~~~pteSyscall = 0 := by decide
    have : (page2pa f ||| perm ||| pteP) &&& 0xFFF &&& ~~~pteSyscall
        = (page2pa f &&& 0xFFF &&& ~~~pteSyscall) ||| (perm &&& ~~~pteSyscall &&& 0xFFF) |||
          (pteP &&& ~~~pteSyscall &&& 0xFFF) := by
      ext i
      simp only [BitVec.getElem_or, BitVec.getElem_and, BitVec.getElem_not]
      cases (page2pa f)[i] <;> cases perm[i] <;> cases pteP[i] <;> cases (0xFFF : Word)[i] <;>
        cases pteSyscall[i] <;> rfl
    rw [this, h1, hp, h2]
    simp

/-! ### Updates that leave memory and the tables alone -/

theorem pageInv_congr {s t : KState} {L : List Nat} {H : Finset Nat} (h : PageInv s L H)
    (hm : t.mem = s.mem) (hd : ∀ e, (t.envs e).envPgdir = (s.envs e).envPgdir)
    (hp : t.pages = s.pages) (hf : t.pageFreeList = s.pageFreeList) (hl : SameLimits s t) :
    PageInv t L H :=
  h.congr (target_congr hd hl.kernPgdir hm) hp hf hl.npages hl.nextfree hl.kernPgdir

/-- The directory pointers and memory determine every table. -/
theorem tables_congr {s t : KState} (hm : t.mem = s.mem)
    (hd : ∀ e, (t.envs e).envPgdir = (s.envs e).envPgdir) (hk : t.kernPgdir = s.kernPgdir) :
    tabFrame t = tabFrame s ∧ pteAt t = pteAt s := by
  have h : ∀ o, dirFrame t o = dirFrame s o := by
    intro o; cases o <;> simp [dirFrame, hd, hk]
  have := fun o => owner_congr (h o) (fun d _ => by rw [hm]) (fun _ _ _ => by rw [hm])
  exact ⟨funext fun o => funext fun i => (this o).1 i,
    funext fun o => funext fun i => funext fun j => (this o).2 i j⟩

/-- Updates of fields that the invariant does not read. -/
structure Alike (s t : KState) : Prop where
  mem : t.mem = s.mem
  pages : t.pages = s.pages
  freeList : t.pageFreeList = s.pageFreeList
  limits : SameLimits s t
  envFreeList : t.envFreeList = s.envFreeList
  dir : ∀ e, (t.envs e).envPgdir = (s.envs e).envPgdir
  link : ∀ e, (t.envs e).envLink = (s.envs e).envLink
  free : ∀ e, (t.envs e).envStatus = .free ↔ (s.envs e).envStatus = .free

theorem Alike.tables {s t : KState} (h : Alike s t) : tabFrame t = tabFrame s ∧ pteAt t = pteAt s :=
  tables_congr h.mem h.dir h.limits.kernPgdir

theorem Alike.target {s t : KState} (h : Alike s t) : target t = target s :=
  target_congr h.dir h.limits.kernPgdir h.mem

theorem Alike.refl (s : KState) : Alike s s :=
  ⟨rfl, rfl, rfl, ⟨rfl, rfl, rfl, rfl, rfl⟩, rfl, fun _ => rfl, fun _ => rfl, fun _ => Iff.rfl⟩

theorem Alike.trans {s t u : KState} (h : Alike s t) (h' : Alike t u) : Alike s u :=
  ⟨h'.mem.trans h.mem, h'.pages.trans h.pages, h'.freeList.trans h.freeList,
    h.limits.trans h'.limits, h'.envFreeList.trans h.envFreeList,
    fun e => (h'.dir e).trans (h.dir e), fun e => (h'.link e).trans (h.link e),
    fun e => (h'.free e).trans (h.free e)⟩

theorem Alike.setEnv {s : KState} {e : EnvIdx} {v : Env} (hd : v.envPgdir = (s.envs e).envPgdir)
    (hl : v.envLink = (s.envs e).envLink)
    (hs : v.envStatus = .free ↔ (s.envs e).envStatus = .free) : Alike s (s.setEnv e v) := by
  refine ⟨rfl, rfl, rfl, ⟨rfl, rfl, rfl, rfl, rfl⟩, rfl, fun x => ?_, fun x => ?_, fun x => ?_⟩ <;>
    by_cases hx : x = e
  all_goals first
    | (subst hx; simp [KState.setEnv, hd, hl, hs])
    | simp [KState.setEnv, hx]

theorem Alike.setCpu (s : KState) (k : CpuIdx) (v : CpuInfo) : Alike s (s.setCpu k v) :=
  ⟨rfl, rfl, rfl, ⟨rfl, rfl, rfl, rfl, rfl⟩, rfl, fun _ => rfl, fun _ => rfl, fun _ => Iff.rfl⟩

theorem Alike.lcr3 (s : KState) (k : CpuIdx) (d : Nat) : Alike s (s.lcr3 k d) :=
  ⟨rfl, rfl, rfl, ⟨rfl, rfl, rfl, rfl, rfl⟩, rfl, fun _ => rfl, fun _ => rfl, fun _ => Iff.rfl⟩

theorem PagesMap.congr {s t : KState} (h : PagesMap s) (hl : SameLimits s t)
    (hm : t.mem s.kernPgdir = s.mem s.kernPgdir)
    (hp : ∀ i j, pteAt t none i j = pteAt s none i j) : PagesMap t :=
  ⟨by rw [hl.pagesAt, hl.envsAt]; exact h.above, by rw [hl.kernPgdir, hm]; exact h.pde,
    fun j => by rw [hp]; exact h.pte j⟩

theorem KernHalf.congr {s t : KState} (h : KernHalf s)
    (hd : ∀ e d, (t.envs e).envPgdir = some d → (s.envs e).envPgdir = some d)
    (hl : SameLimits s t) (hm : t.mem s.kernPgdir = s.mem s.kernPgdir)
    (hu : ∀ e d i, (s.envs e).envPgdir = some d → utopPdx ≤ i → t.mem d i = s.mem d i)
    (hp : ∀ i j, pteAt t none i j = pteAt s none i j) : KernHalf t := by
  refine ⟨fun e d he i hi => ?_, fun i j hi => by rw [hp]; exact h.noWrite i j hi,
    h.pages.congr hl hm hp⟩
  rw [hu e d i (hd e d he) hi, hl.kernPgdir, hm]
  exact h.upper e d (hd e d he) i hi

theorem EnvList.congr {s t : KState} {Le : List EnvIdx} (h : EnvList s Le)
    (hf : t.envFreeList = s.envFreeList) (hd : ∀ e, (t.envs e).envPgdir = (s.envs e).envPgdir)
    (hl : ∀ e, (t.envs e).envLink = (s.envs e).envLink)
    (hs : ∀ e, (t.envs e).envStatus = .free ↔ (s.envs e).envStatus = .free) : EnvList t Le := by
  refine ⟨?_, h.nodup, fun e => by rw [hs]; exact h.free e, fun e => by rw [hd, hs]; exact h.dir e⟩
  rw [hf]
  exact h.chain.congr fun e _ => hl e

theorem Core.dir_of_live {H : Finset Nat} {s : KState} {e : EnvIdx} (h : Core H s)
    (hl : (s.envs e).envStatus ≠ .free) : ∃ d, (s.envs e).envPgdir = some d := by
  obtain ⟨Le, hLe⟩ := h.envs
  exact Option.ne_none_iff_exists'.mp fun hn => hl ((hLe.dir e).mp hn)

/-- Taking the first free slot into use. -/
theorem EnvList.take {s t : KState} {Le : List EnvIdx} {e : EnvIdx} {v : Env} (h : EnvList s Le)
    (hf : s.envFreeList = some e) (ht : t.envs = Function.update s.envs e v)
    (hv : v.envStatus ≠ .free) (hd : v.envPgdir ≠ none) (hl : t.envFreeList = (s.envs e).envLink) :
    ∃ Lt, Le = e :: Lt ∧ EnvList t Lt := by
  have hh := h.chain.head_eq
  rw [hf] at hh
  cases Le with
  | nil => cases hh
  | cons x Lt =>
    cases hh
    obtain ⟨heL, hnd⟩ := List.nodup_cons.mp h.nodup
    have he : t.envs e = v := by rw [ht, Function.update_self]
    have hne : ∀ x, x ≠ e → t.envs x = s.envs x := fun x hx => by
      rw [ht, Function.update_of_ne hx]
    refine ⟨Lt, rfl, ?_, hnd, fun x => ?_, fun x => ?_⟩
    · rw [hl]
      refine h.chain.2.congr fun x hx => ?_
      rw [hne x fun hxe => heL (hxe ▸ hx)]
    · by_cases hx : x = e
      · subst hx
        rw [he]
        exact ⟨fun hm => absurd hm heL, fun hs => absurd hs hv⟩
      · rw [hne x hx, ← h.free x]
        simp [hx]
    · by_cases hx : x = e
      · subst hx
        rw [he]
        exact ⟨fun hn => absurd hn hd, fun hs => absurd hs hv⟩
      · rw [hne x hx]
        exact h.dir x

/-- Giving a slot in use back. -/
theorem EnvList.give {s t : KState} {Le : List EnvIdx} {e : EnvIdx} {v : Env} (h : EnvList s Le)
    (hlive : (s.envs e).envStatus ≠ .free) (ht : t.envs = Function.update s.envs e v)
    (hv : v.envStatus = .free) (hd : v.envPgdir = none) (hl : v.envLink = s.envFreeList)
    (hf : t.envFreeList = some e) : EnvList t (e :: Le) := by
  have heL : e ∉ Le := fun hm => hlive ((h.free e).mp hm)
  have he : t.envs e = v := by rw [ht, Function.update_self]
  have hne : ∀ x, x ≠ e → t.envs x = s.envs x := fun x hx => by
    rw [ht, Function.update_of_ne hx]
  refine ⟨⟨hf, ?_⟩, List.nodup_cons.mpr ⟨heL, h.nodup⟩, fun x => ?_, fun x => ?_⟩
  · show Chain (fun e => (t.envs e).envLink) (t.envs e).envLink Le
    rw [he, hl]
    refine h.chain.congr fun x hx => ?_
    rw [hne x fun hxe => heL (hxe ▸ hx)]
  · by_cases hx : x = e
    · subst hx; rw [he]; simp [hv]
    · rw [hne x hx, ← h.free x]; simp [hx]
  · by_cases hx : x = e
    · subst hx; rw [he]; simp [hv, hd]
    · rw [hne x hx]; exact h.dir x

theorem Core.alike {s t : KState} {H : Finset Nat} (h : Core H s) (ha : Alike s t) : Core H t := by
  obtain ⟨L, hL⟩ := h.page
  obtain ⟨Le, hLe⟩ := h.envs
  obtain ⟨-, hpte⟩ := ha.tables
  exact ⟨⟨L, pageInv_congr hL ha.mem ha.dir ha.pages ha.freeList ha.limits⟩,
    fun e i j => by rw [hpte]; exact h.entries e i j,
    h.kern.congr (fun e d he => by rw [← ha.dir]; exact he) ha.limits (by rw [ha.mem])
      (fun e d i _ _ => by rw [ha.mem]) (fun i j => by rw [hpte]),
    ⟨Le, hLe.congr ha.envFreeList ha.dir ha.link ha.free⟩⟩

theorem CpuOk.alike {T : Prop} {s t : KState} {k : CpuIdx} (h : CpuOk T s k) (ha : Alike s t)
    (hc : t.cpus k = s.cpus k) (hr : t.cr3 k = s.cr3 k) (ht : t.tlb k = s.tlb k) :
    CpuOk T t k := by
  refine ⟨fun hu => ?_, fun hT hu => ?_⟩
  · rw [hc] at hu
    obtain ⟨e, he, hd⟩ := h.running hu
    exact ⟨e, by unfold KState.curenv at he ⊢; rw [hc]; exact he, by rw [ha.dir, hr]; exact hd⟩
  · rw [hc] at hu
    exact (h.fresh hT hu).congr (fun e he => ⟨by rw [ha.dir, hr] at he; exact he,
      fun i j => by rw [ha.target]⟩) ht

/-- An update of environments, or of the CPU that is in the kernel. -/
theorem Mid.alike {T : Prop} {c : CpuIdx} {s t : KState} {H : Finset Nat} (h : Mid T c H s)
    (ha : Alike s t) (hc : ∀ k, k ≠ c → t.cpus k = s.cpus k ∧ t.cr3 k = s.cr3 k ∧ t.tlb k = s.tlb k) :
    Mid T c H t :=
  ⟨h.core.alike ha, fun k hk => (h.others k hk).alike ha (hc k hk).1 (hc k hk).2.1 (hc k hk).2.2⟩

theorem Mid.setEnv {T : Prop} {c : CpuIdx} {s : KState} {H : Finset Nat} (h : Mid T c H s)
    {e : EnvIdx} {v : Env} (hd : v.envPgdir = (s.envs e).envPgdir)
    (hl : v.envLink = (s.envs e).envLink)
    (hs : v.envStatus = .free ↔ (s.envs e).envStatus = .free) : Mid T c H (s.setEnv e v) :=
  h.alike (.setEnv hd hl hs) fun _ _ => ⟨rfl, rfl, rfl⟩

theorem Mid.setCpu {T : Prop} {c : CpuIdx} {s : KState} {H : Finset Nat} (h : Mid T c H s)
    (v : CpuInfo) : Mid T c H (s.setCpu c v) :=
  h.alike (.setCpu s c v) fun _ hk => ⟨Function.update_of_ne hk _ _, rfl, rfl⟩

theorem Mid.lcr3 {T : Prop} {c : CpuIdx} {s : KState} {H : Finset Nat} (h : Mid T c H s)
    (d : Nat) : Mid T c H (s.lcr3 c d) :=
  h.alike (.lcr3 s c d) fun _ hk =>
    ⟨rfl, Function.update_of_ne hk _ _, Function.update_of_ne hk _ _⟩

/-! ### Edits of page tables -/

section Edit

variable {T : Prop} {c : CpuIdx} {s t : KState} {H H' : Finset Nat} {e : EnvIdx}

theorem Core.edited {P : Idx → Idx → Prop} (h : Core H s) (hE : Edited (some e) P s t)
    (hinv : ∃ L, PageInv t L H') (hent : ∀ i j, P i j → UserEntry (pteAt t (some e) i j)) :
    Core H' t := by
  obtain ⟨Le, hLe⟩ := h.envs
  refine ⟨hinv, fun e' i j => ?_, ?_, ⟨Le, hLe.congr hE.only.envFreeList (fun _ => by
    rw [hE.only.envs]) (fun _ => by rw [hE.only.envs]) (fun _ => by rw [hE.only.envs])⟩⟩
  · by_cases hP : e' = e ∧ P i j
    · obtain ⟨rfl, hP⟩ := hP
      exact hent i j hP
    · rw [hE.pte (some e') i j fun hx => hP ⟨Option.some.inj hx.1, hx.2⟩]
      exact h.entries e' i j
  · refine h.kern.congr (fun e d he => by rw [← hE.only.envs]; exact he) hE.only.limits ?_ ?_ ?_
    · funext i
      exact hE.pde none s.kernPgdir i rfl fun hx => by cases hx.1
    · intro e' d i hd hi
      refine hE.pde (some e') d i hd fun hx => ?_
      obtain ⟨he, ho⟩ := hx
      cases he
      exact absurd hi (not_le.mpr ho)
    · intro i j
      exact hE.pte none i j fun hx => by cases hx.1

theorem CpuOk.pmOnly {k : CpuIdx} (h : CpuOk T s k) (ho : PmOnly s t)
    (hf : T → (s.cpus k).mode = .user → Fresh k s → Fresh k t) : CpuOk T t k := by
  refine ⟨fun hu => ?_, fun hT hu => ?_⟩
  · rw [ho.cpus] at hu
    obtain ⟨e, he, hd⟩ := h.running hu
    exact ⟨e, by rw [ho.curenv]; exact he, by rw [ho.envs, ho.cr3]; exact hd⟩
  · rw [ho.cpus] at hu
    exact hf hT hu (h.fresh hT hu)

/-- The directory that a CPU in user mode has loaded belongs to the environment it runs only. -/
theorem CpuOk.dir_unique {k : CpuIdx} (h : CpuOk T s k) (hs : Separate s)
    (hu : (s.cpus k).mode = .user) {x : EnvIdx} (hd : (s.envs x).envPgdir = some (s.cr3 k)) :
    s.curenv k = some x := by
  obtain ⟨e, he, hde⟩ := h.running hu
  have := hs.dir_inj (o := some e) (q := some x) hde hd
  rw [he, Option.some.inj this]

/-- An edit of the tables of `e`. If cached translations are tracked and another CPU runs `e`,
    nothing that was mapped may have changed. -/
theorem Mid.edited {P : Idx → Idx → Prop} (h : Mid T c H s) (hE : Edited (some e) P s t)
    (hw : TlbWithin s t) (hinv : ∃ L, PageInv t L H')
    (hent : ∀ i j, P i j → UserEntry (pteAt t (some e) i j))
    (hkeep : T → Elsewhere s c e → ∀ i j g,
      target s (.pte e i j) = some g → target t (.pte e i j) = some g) : Mid T c H' t := by
  obtain ⟨L, hL⟩ := h.core.page
  refine ⟨h.core.edited hE hinv hent, fun k hk => (h.others k hk).pmOnly hE.only ?_⟩
  intro hT hu hf
  refine hf.of_within hw hE.only fun e' hd i j g hg => ?_
  have hcur := (h.others k hk).dir_unique hL.separate hu hd
  by_cases he : e' = e
  · subst he
    exact hkeep hT ⟨k, hk, hu, hcur⟩ i j g hg
  · have := hE.pte (some e') i j fun hx => he (Option.some.inj hx.1)
    simpa only [target, this] using hg

/-! ### Writes to data -/

theorem Core.setFrame {f : Nat} (h : Core H s) (hf : NotTable s f) (p : Page) :
    Core H (s.setFrame f p) := by
  obtain ⟨L, hL⟩ := h.page
  obtain ⟨Le, hLe⟩ := h.envs
  refine ⟨⟨L, hL.setFrame hf p⟩, fun e i j => by rw [hf.pteAt_setFrame]; exact h.entries e i j, ?_,
    ⟨Le, hLe.congr rfl (fun _ => rfl) (fun _ => rfl) fun _ => Iff.rfl⟩⟩
  refine h.kern.congr (fun _ _ he => he) (PmOnly.setFrame s f p).limits ?_ ?_ fun i j => by rw [hf.pteAt_setFrame]
  · rw [KState.setFrame_mem, Function.update_of_ne (Ne.symm hf.1)]
  · intro e d i hd _
    have hne : d ≠ f := fun hx => hf.not_dir (some e) (hx ▸ hd)
    rw [KState.setFrame_mem, Function.update_of_ne hne]

theorem CpuOk.setFrame {f : Nat} {k : CpuIdx} (h : CpuOk T s k) (hf : NotTable s f) (p : Page) :
    CpuOk T (s.setFrame f p) k :=
  h.pmOnly (.setFrame s f p) fun _ _ hfr => hfr.of_within (.setFrame _ _ _) (.setFrame _ _ _)
    fun e _ i j g hg => by rw [hf.target_setFrame]; exact hg

theorem Mid.setFrame {f : Nat} (h : Mid T c H s) (hf : NotTable s f) (p : Page) :
    Mid T c H (s.setFrame f p) :=
  ⟨h.core.setFrame hf p, fun k hk => (h.others k hk).setFrame hf p⟩

theorem Inv.setFrame {f : Nat} (h : Inv T s) (hf : NotTable s f) (p : Page) :
    Inv T (s.setFrame f p) :=
  ⟨h.core.setFrame hf p, fun k => (h.cpus k).setFrame hf p⟩

end Edit

end Jos
