import Jos.Mmu

/-!
  The multiprocessor configuration table (`kern/mpconfig.c`).

  The table says how many entries it has and how long it is, and nothing compares the two. A
  processor entry with the boot flag makes `bootcpu` point at `cpus[ncpu]` before the test whether
  there is room for one more. -/

namespace Jos

namespace MpConfig

def ncpuMax : Nat := 8

def mpprocBoot : Byte := 0x02

def mpproc : Byte := 0x00
def mpbus : Byte := 0x01
def mpioapic : Byte := 0x02
def mpiointr : Byte := 0x03
def mplintr : Byte := 0x04

def cpuStarted : Word := 1

/-- Messages on the console. -/
inductive Note where
  | defaultConfig
  | signature
  | checksum
  | version (v : Byte)
  | extChecksum
  | tooMany (apicid : Byte)
  | unknownType (type : Byte)
  | notFound
  | found (boot : Byte) (ncpu : Nat)
  | imcr

section

variable (mem : Nat → Byte)

def word16 (a : Nat) : Nat := (mem a).toNat + 256 * (mem (a + 1)).toNat

def word32 (a : Nat) : Word := mem (a + 3) ++ mem (a + 2) ++ mem (a + 1) ++ mem a

def sum (addr len : Nat) : Byte := (List.range len).foldl (fun s i => s + mem (addr + i)) 0

/-- `memcmp(addr, text, 4) == 0`. -/
def sigIs (addr : Nat) (text : List Byte) : Bool :=
  (List.range 4).map (fun i => mem (addr + i)) == text

/-- `"_MP_"`. -/
def mpSig : List Byte := [0x5F, 0x4D, 0x50, 0x5F]

/-- `"PCMP"`. -/
def confSig : List Byte := [0x50, 0x43, 0x4D, 0x50]

/-- `mpsearch1`: a floating pointer structure in `len` bytes, a multiple of its size. -/
def mpsearch1 (a len : Nat) : Option Nat :=
  ((List.range (len / 16)).map fun i => a + 16 * i).find? fun mp =>
    sigIs mem mp mpSig && sum mem mp 16 == 0

def mpsearch : Option Nat :=
  let p := word16 mem (0x400 + 0x0E)
  let first := if p ≠ 0 then mpsearch1 mem (p * 16) 1024
    else mpsearch1 mem ((word16 mem (0x400 + 0x13) * 1024 + (2 ^ 32 - 1024)) % 2 ^ 32) 1024
  match first with
  | some mp => some mp
  | none => mpsearch1 mem 0xF0000 0x10000

def confLength (conf : Nat) : Nat := word16 mem (conf + 4)

def confEntry (conf : Nat) : Nat := word16 mem (conf + 34)

/-- `mpconfig`: the floating pointer structure and the table, if it is accepted. -/
def mpconfig : Except (List Note) (Nat × Nat) :=
  match mpsearch mem with
  | none => .error []
  | some mp =>
    if word32 mem (mp + 4) = 0 ∨ mem (mp + 11) ≠ 0 then .error [.defaultConfig]
    else
      let conf := (word32 mem (mp + 4)).toNat
      if ¬ sigIs mem conf confSig then .error [.signature]
      else if sum mem conf (confLength mem conf) ≠ 0 then .error [.checksum]
      else if mem (conf + 6) ≠ 1 ∧ mem (conf + 6) ≠ 4 then .error [.version (mem (conf + 6))]
      else if sum mem (conf + confLength mem conf) (word16 mem (conf + 40)) + mem (conf + 42) ≠ 0 then
        .error [.extChecksum]
      else .ok (mp, conf)

end

structure CpuInfo where
  cpuId : Byte
  cpuStatus : Word

/-- What `mp_init` sets, the addresses that it reads through `p`, and what it puts out. -/
structure Smp where
  cpus : Nat → CpuInfo
  bootcpu : Nat
  ismp : Bool
  ncpu : Nat
  lapicaddr : Word
  reads : List Nat
  notes : List Note
  outs : List (Nat × Byte)

/-- Before `mp_init`. -/
def Smp.init : Smp := ⟨fun _ => ⟨0, 0⟩, 0, false, 0, 0, [], [], []⟩

section

variable (mem : Nat → Byte)

/-- `proc->flags & MPPROC_BOOT`. -/
def Boot (p : Nat) : Prop := mem (p + 3) &&& mpprocBoot ≠ 0

instance (p : Nat) : Decidable (Boot mem p) := inferInstanceAs (Decidable (_ ≠ _))

/-- A byte is read. -/
def Smp.read (s : Smp) (a : Nat) : Smp := { s with reads := s.reads ++ [a] }

/-- `bootcpu = &cpus[ncpu]` for the boot processor. -/
def Smp.markBoot (s : Smp) (p : Nat) : Smp :=
  { s.read (p + 3) with bootcpu := if Boot mem p then s.ncpu else s.bootcpu }

/-- One more processor, if there is room. -/
def Smp.addCpu (s : Smp) (p : Nat) : Smp :=
  if s.ncpu < ncpuMax then
    { s with cpus := Function.update s.cpus s.ncpu
               { s.cpus s.ncpu with cpuId := BitVec.ofNat 8 s.ncpu }
             ncpu := s.ncpu + 1 }
  else { s.read (p + 1) with notes := s.notes ++ [.tooMany (mem (p + 1))] }

/-- The four types of entries that are skipped. -/
def Skipped (p : Nat) : Prop :=
  mem p = mpbus ∨ mem p = mpioapic ∨ mem p = mpiointr ∨ mem p = mplintr

instance (p : Nat) : Decidable (Skipped mem p) := inferInstanceAs (Decidable (_ ∨ _))

/-- The loop over `n` entries from `p` on. -/
def entries : Nat → Nat → Smp → Smp
  | 0, _, s => s
  | n + 1, p, s =>
    let s := s.read p
    if mem p = mpproc then entries n (p + 20) ((s.markBoot mem p).addCpu mem p)
    else if Skipped mem p then entries n (p + 8) s
    else { s with ismp := false, notes := s.notes ++ [.unknownType (mem p)] }

/-- `bootcpu->cpu_status = CPU_STARTED` -/
def Smp.startBoot (s : Smp) : Smp :=
  { s with cpus := Function.update s.cpus s.bootcpu
             { s.cpus s.bootcpu with cpuStatus := cpuStarted } }

/-- What `mp_init` does after the loop, where reading port 0x23 yields `port`. -/
def Smp.conclude (s : Smp) (mp : Nat) (port : Byte) : Smp :=
  if ¬ s.ismp then
    { s.startBoot with ncpu := 1, lapicaddr := 0, notes := s.notes ++ [.notFound] }
  else if mem (mp + 12) ≠ 0 then
    { s.startBoot with notes := s.notes ++ [.found (s.cpus s.bootcpu).cpuId s.ncpu, .imcr]
                       outs := s.outs ++ [(0x22, 0x70), (0x23, port ||| 1)] }
  else { s.startBoot with notes := s.notes ++ [.found (s.cpus s.bootcpu).cpuId s.ncpu] }

/-- `mp_init`. -/
def mpInit (port : Byte) (s : Smp) : Smp :=
  let s := { s with bootcpu := 0 }
  match mpconfig mem with
  | .error notes => { s with notes := s.notes ++ notes }
  | .ok (mp, conf) =>
    let s := { s with ismp := true, lapicaddr := word32 mem (conf + 36) }
    (entries mem (confEntry mem conf) (conf + 44) s).conclude mem mp port

/-! ### What the table says -/

/-- Where the first `n` entries from `p` on are, up to the first one of an unknown type. -/
def positions : Nat → Nat → List Nat
  | 0, _ => []
  | n + 1, p =>
    p :: if mem p = mpproc then positions n (p + 20)
      else if Skipped mem p then positions n (p + 8) else []

/-- The processor entries among these. -/
def procs (n p : Nat) : List Nat := (positions mem n p).filter fun q => mem q = mpproc

/-- All types are known. -/
def AllKnown (n p : Nat) : Prop := ∀ q ∈ positions mem n p, mem q = mpproc ∨ Skipped mem q

/-- The last byte of an entry that `mp_init` looks at. -/
def lastRead (q : Nat) : Nat := if mem q = mpproc then q + 3 else q

end

variable {mem : Nat → Byte} {s : Smp}

@[simp] theorem read_ncpu (a : Nat) : (s.read a).ncpu = s.ncpu := rfl

@[simp] theorem read_bootcpu (a : Nat) : (s.read a).bootcpu = s.bootcpu := rfl

@[simp] theorem markBoot_ncpu (p : Nat) : (s.markBoot mem p).ncpu = s.ncpu := rfl

@[simp] theorem markBoot_ismp (p : Nat) : (s.markBoot mem p).ismp = s.ismp := rfl

@[simp] theorem markBoot_cpus (p : Nat) : (s.markBoot mem p).cpus = s.cpus := rfl

variable (mem s) in
theorem addCpu_ncpu (p : Nat) (h : s.ncpu ≤ ncpuMax) :
    (s.addCpu mem p).ncpu = min (s.ncpu + 1) ncpuMax := by
  unfold Smp.addCpu
  split
  · exact (Nat.min_eq_left ‹_›).symm
  · show s.ncpu = _
    omega

@[simp] theorem addCpu_ismp (p : Nat) : (s.addCpu mem p).ismp = s.ismp := by
  unfold Smp.addCpu
  split <;> rfl

@[simp] theorem addCpu_bootcpu (p : Nat) : (s.addCpu mem p).bootcpu = s.bootcpu := by
  unfold Smp.addCpu
  split <;> rfl

theorem procs_cons_proc {n p : Nat} (h : mem p = mpproc) :
    procs mem (n + 1) p = p :: procs mem n (p + 20) := by
  rw [procs, positions, if_pos h, List.filter_cons_of_pos (by simpa using h)]
  rfl

theorem procs_cons_skipped {n p : Nat} (h : mem p ≠ mpproc) (hs : Skipped mem p) :
    procs mem (n + 1) p = procs mem n (p + 8) := by
  rw [procs, positions, if_neg h, if_pos hs, List.filter_cons_of_neg (by simpa using h)]
  rfl

theorem procs_cons_unknown {n p : Nat} (h : mem p ≠ mpproc) (hs : ¬ Skipped mem p) :
    procs mem (n + 1) p = [] := by
  rw [procs, positions, if_neg h, if_neg hs, List.filter_cons_of_neg (by simpa using h)]
  rfl

/-! ### What the loop leaves -/

/-- How many processors are registered. -/
theorem entries_ncpu (n : Nat) : ∀ (p : Nat) (s : Smp), s.ncpu ≤ ncpuMax →
    (entries mem n p s).ncpu = min (s.ncpu + (procs mem n p).length) ncpuMax := by
  induction n with
  | zero =>
    intro p s hs
    exact (Nat.min_eq_left hs).symm
  | succ n ih =>
    intro p s hs
    rcases eq_or_ne (mem p) mpproc with hp | hp
    · have hn := addCpu_ncpu mem ((s.read p).markBoot mem p)
        p hs
      rw [markBoot_ncpu, read_ncpu] at hn
      rw [entries, if_pos hp, ih _ _ (by rw [hn]; exact Nat.min_le_right _ _), hn,
        procs_cons_proc hp, List.length_cons]
      omega
    · rcases Decidable.em (Skipped mem p) with hk | hk
      · rw [entries, if_neg hp, if_pos hk, ih _ (s.read p) hs, procs_cons_skipped hp hk]
        rfl
      · rw [entries, if_neg hp, if_neg hk, procs_cons_unknown hp hk]
        exact (Nat.min_eq_left hs).symm

/-- The registered processors have their index for an identifier. -/
def Numbered (s : Smp) : Prop := ∀ i < s.ncpu, (s.cpus i).cpuId = BitVec.ofNat 8 i

theorem Numbered.addCpu {p : Nat} (h : Numbered s) : Numbered (s.addCpu mem p) := by
  unfold Smp.addCpu
  split
  · intro i hi
    rcases eq_or_ne i s.ncpu with rfl | hne
    · show (Function.update s.cpus s.ncpu _ s.ncpu).cpuId = _
      rw [Function.update_self]
    · show (Function.update s.cpus s.ncpu _ i).cpuId = _
      rw [Function.update_of_ne hne]
      exact h i (by dsimp only at hi; omega)
  · exact h

theorem entries_numbered (n : Nat) : ∀ (p : Nat) (s : Smp), Numbered s →
    Numbered (entries mem n p s) := by
  induction n with
  | zero => exact fun _ _ h => h
  | succ n ih =>
    intro p s hs
    rw [entries]
    split
    · exact ih _ _ (Numbered.addCpu hs)
    · split
      · exact ih _ _ hs
      · exact hs

/-- `ismp` tells whether all types were known. -/
theorem entries_ismp (n : Nat) : ∀ (p : Nat) (s : Smp), s.ismp = true →
    ((entries mem n p s).ismp = true ↔ AllKnown mem n p) := by
  induction n with
  | zero =>
    intro p s hs
    exact iff_of_true hs fun q hq => absurd hq List.not_mem_nil
  | succ n ih =>
    intro p s hs
    rw [entries]
    rcases eq_or_ne (mem p) mpproc with hp | hp
    · rw [if_pos hp, ih _ _ (by rw [addCpu_ismp, markBoot_ismp]; exact hs), AllKnown, AllKnown,
        positions, if_pos hp, List.forall_mem_cons]
      exact (and_iff_right (.inl hp)).symm
    · rcases Decidable.em (Skipped mem p) with hk | hk
      · rw [if_neg hp, if_pos hk, ih _ (s.read p) hs, AllKnown, AllKnown, positions, if_neg hp, if_pos hk,
          List.forall_mem_cons]
        exact (and_iff_right (.inr hk)).symm
      · rw [if_neg hp, if_neg hk]
        refine iff_of_false Bool.false_ne_true fun h => ?_
        rcases h p List.mem_cons_self with h | h
        · exact hp h
        · exact hk h

/-- Every address read lies below `e`. -/
def ReadsBelow (s : Smp) (e : Nat) : Prop := ∀ a ∈ s.reads, a < e

theorem readsBelow_read {a e : Nat} : ReadsBelow (s.read a) e ↔ (ReadsBelow s e ∧ a < e) := by
  unfold ReadsBelow Smp.read
  simp only [List.mem_append, List.mem_singleton, or_imp, forall_and, forall_eq]

theorem readsBelow_addCpu {p e : Nat} :
    ReadsBelow (((s.read p).markBoot mem p).addCpu mem p) e ↔
      ReadsBelow s e ∧ p + 3 < e := by
  have hmark : ReadsBelow ((s.read p).markBoot mem p) e ↔ ReadsBelow s e ∧ p + 3 < e := by
    have h : ReadsBelow ((s.read p).markBoot mem p) e ↔ ReadsBelow ((s.read p).read (p + 3)) e :=
      Iff.rfl
    rw [h, readsBelow_read, readsBelow_read, and_assoc]
    exact and_congr_right fun _ => ⟨And.right, fun h => ⟨by omega, h⟩⟩
  unfold Smp.addCpu
  split
  · exact hmark
  · have h : ReadsBelow (((s.read p).markBoot mem p).read (p + 1)) e ↔ _ := readsBelow_read
    refine h.trans ?_
    rw [hmark, and_assoc]
    exact and_congr_right fun _ => ⟨And.left, fun h => ⟨h, by omega⟩⟩

theorem entries_reads (e n : Nat) : ∀ (p : Nat) (s : Smp),
    ReadsBelow (entries mem n p s) e ↔
      (ReadsBelow s e ∧ ∀ q ∈ positions mem n p, lastRead mem q < e) := by
  induction n with
  | zero =>
    intro p s
    exact (and_iff_left fun q hq => absurd hq List.not_mem_nil).symm
  | succ n ih =>
    intro p s
    rw [entries, positions, List.forall_mem_cons]
    rcases eq_or_ne (mem p) mpproc with hp | hp
    · rw [if_pos hp, if_pos hp, ih, readsBelow_addCpu, lastRead, if_pos hp, and_assoc]
    · rw [if_neg hp, if_neg hp, lastRead, if_neg hp, ← and_assoc, ← readsBelow_read]
      rcases Decidable.em (Skipped mem p) with hk | hk
      · rw [if_pos hk, if_pos hk, ih]
      · rw [if_neg hk, if_neg hk]
        exact (and_iff_left fun q hq => absurd hq List.not_mem_nil).symm

/-- With all places taken, `bootcpu` is past the end or stays where it is. -/
theorem entries_boot_full (n : Nat) : ∀ (p : Nat) (s : Smp), s.ncpu = ncpuMax →
    ((entries mem n p s).bootcpu < ncpuMax ↔
      (s.bootcpu < ncpuMax ∧ ∀ q ∈ procs mem n p, ¬ Boot mem q)) := by
  induction n with
  | zero =>
    intro p s _
    exact (and_iff_left fun q hq => absurd hq List.not_mem_nil).symm
  | succ n ih =>
    intro p s hs
    rw [entries]
    rcases eq_or_ne (mem p) mpproc with hp | hp
    · have hn := addCpu_ncpu mem ((s.read p).markBoot mem p)
        p hs.le
      rw [if_pos hp, ih _ _ (by rw [hn, markBoot_ncpu, read_ncpu, hs]; rfl), addCpu_bootcpu, procs_cons_proc hp,
        List.forall_mem_cons, ← and_assoc]
      refine and_congr_left fun _ => ?_
      rw [Smp.markBoot, read_ncpu, read_bootcpu]
      dsimp only
      split
      · rw [hs]
        exact iff_of_false (Nat.lt_irrefl _) fun h => h.2 ‹_›
      · exact (and_iff_left ‹_›).symm
    · rcases Decidable.em (Skipped mem p) with hk | hk
      · rw [if_neg hp, if_pos hk, ih _ (s.read p) hs, procs_cons_skipped hp hk]
        rfl
      · rw [if_neg hp, if_neg hk, procs_cons_unknown hp hk]
        exact (and_iff_left fun q hq => absurd hq List.not_mem_nil).symm

/-- `bootcpu` stays in `cpus` when no processor beyond the places has the boot flag. -/
theorem entries_boot (n : Nat) : ∀ (p : Nat) (s : Smp), s.ncpu ≤ ncpuMax → s.bootcpu < ncpuMax →
    ((entries mem n p s).bootcpu < ncpuMax ↔
      ∀ q ∈ (procs mem n p).drop (ncpuMax - s.ncpu), ¬ Boot mem q) := by
  induction n with
  | zero =>
    intro p s _ hb
    exact iff_of_true hb fun q hq => absurd (List.mem_of_mem_drop hq) List.not_mem_nil
  | succ n ih =>
    intro p s hs hb
    rcases hs.eq_or_lt with heq | hlt
    · rw [entries_boot_full (n + 1) p s heq, heq, Nat.sub_self, List.drop_zero]
      exact and_iff_right hb
    rw [entries]
    rcases eq_or_ne (mem p) mpproc with hp | hp
    · have hn := addCpu_ncpu mem ((s.read p).markBoot mem p)
        p hs
      rw [markBoot_ncpu, read_ncpu, Nat.min_eq_left hlt] at hn
      have hsub : ncpuMax - s.ncpu = (ncpuMax - (s.ncpu + 1)) + 1 := by omega
      rw [if_pos hp, ih _ _ (by rw [hn]; exact hlt) ?_, hn, procs_cons_proc hp, hsub,
        List.drop_succ_cons]
      rw [addCpu_bootcpu, Smp.markBoot, read_ncpu, read_bootcpu]
      dsimp only
      split
      · exact hlt
      · exact hb
    · rcases Decidable.em (Skipped mem p) with hk | hk
      · rw [if_neg hp, if_pos hk, ih _ (s.read p) hs hb, procs_cons_skipped hp hk]
        rfl
      · rw [if_neg hp, if_neg hk, procs_cons_unknown hp hk]
        exact iff_of_true hb fun q hq => absurd (List.mem_of_mem_drop hq) List.not_mem_nil

/-! ### `mp_init` -/

/-- What parsing an accepted table at `conf` should be: no entry is read past the end of the table,
    the processors are registered as far as there are places, an unknown type leaves one processor,
    and the boot processor has a place. -/
structure Confined (mem : Nat → Byte) (conf : Nat) (t : Smp) : Prop where
  inside : ReadsBelow t (conf + confLength mem conf)
  registered : AllKnown mem (confEntry mem conf) (conf + 44) →
    t.ncpu = min (procs mem (confEntry mem conf) (conf + 44)).length ncpuMax ∧ Numbered t
  fallback : ¬ AllKnown mem (confEntry mem conf) (conf + 44) → t.ncpu = 1
  boot : t.bootcpu < ncpuMax

theorem startBoot_cpuId (i : Nat) : (s.startBoot.cpus i).cpuId = (s.cpus i).cpuId := by
  rcases eq_or_ne i s.bootcpu with rfl | hne
  · dsimp only [Smp.startBoot]
    rw [Function.update_self]
  · dsimp only [Smp.startBoot]
    rw [Function.update_of_ne hne]

variable (mem s) in
/-- What `mp_init` makes of the loop. -/
theorem conclude_spec (mp : Nat) (port : Byte) :
    (s.conclude mem mp port).reads = s.reads ∧ (s.conclude mem mp port).bootcpu = s.bootcpu ∧
      (s.conclude mem mp port).ncpu = (if s.ismp then s.ncpu else 1) ∧
      ∀ i, ((s.conclude mem mp port).cpus i).cpuId = (s.cpus i).cpuId := by
  unfold Smp.conclude
  split
  · rename_i hs
    exact ⟨rfl, rfl, rfl, startBoot_cpuId⟩
  · rename_i hs
    split
    · exact ⟨rfl, rfl, (if_pos (not_not.mp hs)).symm, startBoot_cpuId⟩
    · exact ⟨rfl, rfl, (if_pos (not_not.mp hs)).symm, startBoot_cpuId⟩

/-- The table is parsed as it should be exactly when its entries end within it and no processor past
    the eighth is the boot processor. -/
theorem mpInit_confined_iff (mem : Nat → Byte) (port : Byte) (mp conf : Nat)
    (h : mpconfig mem = .ok (mp, conf)) :
    Confined mem conf (mpInit mem port .init) ↔
      (∀ q ∈ positions mem (confEntry mem conf) (conf + 44),
        lastRead mem q < conf + confLength mem conf) ∧
      ∀ q ∈ (procs mem (confEntry mem conf) (conf + 44)).drop ncpuMax, ¬ Boot mem q := by
  have hout : mpInit mem port .init = (entries mem (confEntry mem conf) (conf + 44)
      { Smp.init with ismp := true, lapicaddr := word32 mem (conf + 36) }).conclude mem mp port := by
    rw [mpInit, h]
    rfl
  generalize hs : entries mem (confEntry mem conf) (conf + 44)
    { Smp.init with ismp := true, lapicaddr := word32 mem (conf + 36) } = s at hout
  obtain ⟨hreads, hboot, hncpu, hids⟩ := conclude_spec mem s mp port
  rw [← hout] at hreads hboot hncpu hids
  have hread : ReadsBelow (mpInit mem port .init) (conf + confLength mem conf) ↔
      ∀ q ∈ positions mem (confEntry mem conf) (conf + 44),
        lastRead mem q < conf + confLength mem conf := by
    rw [ReadsBelow, hreads, ← hs]
    refine (entries_reads _ _ _ _).trans (and_iff_right ?_)
    exact fun a ha => absurd ha List.not_mem_nil
  have hplace : (mpInit mem port .init).bootcpu < ncpuMax ↔
      ∀ q ∈ (procs mem (confEntry mem conf) (conf + 44)).drop ncpuMax, ¬ Boot mem q := by
    rw [hboot, ← hs]
    exact entries_boot _ _ _ (Nat.zero_le _) (Nat.zero_lt_succ 7)
  have hknown : s.ismp = true ↔ AllKnown mem (confEntry mem conf) (conf + 44) := by
    rw [← hs]
    exact entries_ismp _ _ _ rfl
  constructor
  · rintro ⟨hinside, _, _, hb⟩
    exact ⟨hread.mp hinside, hplace.mp hb⟩
  · rintro ⟨hinside, hb⟩
    refine ⟨hread.mpr hinside, fun hk => ?_, fun hk => ?_, hplace.mpr hb⟩
    · have hnum : Numbered s := by
        rw [← hs]
        exact entries_numbered _ _ _ fun i hi => absurd hi (Nat.not_lt_zero i)
      rw [if_pos (hknown.mpr hk)] at hncpu
      refine ⟨?_, fun i hi => ?_⟩
      · rw [hncpu, ← hs, entries_ncpu _ _ _ (Nat.zero_le _)]
        exact congrArg (min · ncpuMax) (Nat.zero_add _)
      · rw [hids]
        exact hnum i (hncpu ▸ hi)
    · rw [hncpu, if_neg fun hc => hk (hknown.mp hc)]

/-- A table with a processor entry for each of the `flags`. -/
def table (length count check : Byte) (flags : List Byte) : List Byte :=
  [0x50, 0x43, 0x4D, 0x50, length, 0, 1, check] ++ List.replicate 26 0 ++
    [count, 0, 0, 0, 0xE0, 0xFE, 0, 0, 0, 0] ++
    flags.flatMap fun f => [0, 0, 0x14, f] ++ List.replicate 16 0

/-- The BIOS memory that leads to a table at `0x2000`. -/
def bios (conf : List Byte) : Nat → Byte := fun a =>
  if a = 0x40F then 0x01
  else if a < 0x1000 then 0
  else if a < 0x1010 then
    [0x5F, 0x4D, 0x50, 0x5F, 0, 0x20, 0, 0, 1, 4, 0x80, 0, 0, 0, 0, 0].getD (a - 0x1000) 0
  else if a < 0x2000 then 0
  else conf.getD (a - 0x2000) 0

set_option maxRecDepth 8000 in
/-- Nine processors, the third of them the boot processor: eight of them are registered. -/
theorem mpInit_confined_iff_nine :
    mpconfig (bios (table 224 9 0x49 [1, 1, 3, 1, 1, 1, 1, 1, 1])) = .ok (0x1000, 0x2000) ∧
    Confined (bios (table 224 9 0x49 [1, 1, 3, 1, 1, 1, 1, 1, 1])) 0x2000
      (mpInit (bios (table 224 9 0x49 [1, 1, 3, 1, 1, 1, 1, 1, 1])) 0 .init) ∧
    (mpInit (bios (table 224 9 0x49 [1, 1, 3, 1, 1, 1, 1, 1, 1])) 0 .init).ncpu = 8 ∧
    (mpInit (bios (table 224 9 0x49 [1, 1, 3, 1, 1, 1, 1, 1, 1])) 0 .init).bootcpu = 2 := by
  have h : mpconfig (bios (table 224 9 0x49 [1, 1, 3, 1, 1, 1, 1, 1, 1])) = .ok (0x1000, 0x2000) :=
    rfl
  exact ⟨h, (mpInit_confined_iff _ 0 _ _ h).mpr (by decide), rfl, rfl⟩

set_option maxRecDepth 8000 in
/-- Nine processors, the last of them the boot processor: `bootcpu` points past `cpus`. -/
theorem ninth_processor_boots :
    mpconfig (bios (table 224 9 0x49 [1, 1, 1, 1, 1, 1, 1, 1, 3])) = .ok (0x1000, 0x2000) ∧
    ¬ Confined (bios (table 224 9 0x49 [1, 1, 1, 1, 1, 1, 1, 1, 3])) 0x2000
      (mpInit (bios (table 224 9 0x49 [1, 1, 1, 1, 1, 1, 1, 1, 3])) 0 .init) := by
  have hb : (mpInit (bios (table 224 9 0x49 [1, 1, 1, 1, 1, 1, 1, 1, 3])) 0 .init).bootcpu = 8 := rfl
  refine ⟨rfl, fun h => ?_⟩
  have := h.boot
  rw [hb] at this
  exact absurd this (by decide)

end MpConfig

end Jos
