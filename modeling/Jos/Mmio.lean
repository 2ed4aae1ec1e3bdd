import Jos.Layout
import Jos.Lib.Transition

/-!
  Reservations of device memory (`mmio_map_region` in `kern/pmap.c`).

  The region that is mapped starts at the page of `pa`, and so does the address that is returned:
  the offset of `pa` in its page is lost. The test against `MMIOLIM` is made on a sum that may wrap
  around. -/

namespace Jos

open Lib RefCount

/-- A call of `mmio_map_region` with the address it returned. -/
structure MmioCall where
  pa : Word
  size : Word
  base : Word

def MmioStep (s : KState) (call : MmioCall) (t : KState) : Prop :=
  mmioMapRegion call.pa call.size s = .ok call.base t

namespace MmioCall

/-- The region is not empty and lies in the physical address space. -/
def Valid (call : MmioCall) : Prop :=
  0 < call.size.toNat ∧ call.pa.toNat + call.size.toNat ≤ 2 ^ 32

/-- The device starts on a page, and the test against `MMIOLIM` does not wrap. -/
def Sound (s : KState) (call : MmioCall) : Prop :=
  call.pa.toNat % 4096 = 0 ∧ s.mmioBase.toNat + call.size.toNat + 4096 ≤ 2 ^ 32

/-- Page `v` belongs to the reserved range. -/
def Page (call : MmioCall) (v : Nat) : Prop :=
  pgnum call.base ≤ v ∧ v * 4096 < call.base.toNat + call.size.toNat

/-- The pages that the region touches. -/
def pages (call : MmioCall) : Nat :=
  (call.pa.toNat + call.size.toNat + 4095) / 4096 - call.pa.toNat / 4096

/-- The sum that is tested against `MMIOLIM` does not wrap. -/
def Fits (s : KState) (call : MmioCall) : Prop := s.mmioBase.toNat + call.pages * 4096 < 2 ^ 32

end MmioCall

/-- In the kernel's directory `va` leads to device address `pa`: for the kernel only, writable, not
    cached and written through. -/
structure DeviceAt (s : KState) (va pa : Word) : Prop where
  leads : Leads s va pa pteW pteU
  uncached : entryOf s s.kernPgdir (pdx va) (ptx va) &&& (ptePcd ||| ptePwt) = ptePcd ||| ptePwt

/-- What the calls made between `s` and `t` promise. The page at `UVPT` shows the page tables
    themselves. -/
structure Reserved (s : KState) (calls : List MmioCall) (t : KState) : Prop where
  maps : ∀ call ∈ calls, ∀ k, k < call.size.toNat →
    DeviceAt t (call.base + BitVec.ofNat 32 k) (call.pa + BitVec.ofNat 32 k)
  disjoint : calls.Pairwise fun c d => ∀ v, c.Page v → ¬ d.Page v
  inside : ∀ call ∈ calls, mmiobase.toNat ≤ call.base.toNat ∧
    call.base.toNat + call.size.toNat ≤ mmiolim.toNat
  outside : ∀ i j : Idx, i ≠ uvptPdx → (∀ call ∈ calls, ¬ call.Page (i.val * 1024 + j.val)) →
    entryOf t t.kernPgdir i j = entryOf s s.kernPgdir i j

section

variable {s t : KState} {call : MmioCall} {calls : List MmioCall} {C : Prop} {k : ℕ}

theorem mmio_region_words (hv : call.Valid) :
    (roundup (call.pa + call.size) - rounddown call.pa).toNat = call.pages * 4096 % 2 ^ 32 := by
  obtain ⟨hpos, hle⟩ := hv
  have hpa := call.pa.isLt
  rw [BitVec.toNat_sub, roundup, rounddown_toNat, rounddown_toNat, BitVec.toNat_add,
    BitVec.toNat_add, MmioCall.pages]
  have hpg : (BitVec.ofNat 32 (pgsize - 1)).toNat = 4095 := by decide
  rw [hpg]
  omega

/-- The address returned is where the reservations have come to. -/
theorem mmioStep_base (h : MmioStep s call t) : call.base = s.mmioBase := by
  simp only [MmioStep, mmioMapRegion, run_bind, run_get, run_ite] at h
  split at h
  · cases h
  · split at h
    · injection h with h1
      exact h1.symm
    · cases h

/-- A call whose test does not wrap maps the pages of its region and no others. -/
theorem mmioStep_maps (h : Booting False k s) (hv : call.Valid) (hf : call.Fits s)
    (hs : MmioStep s call t) : Booting False k t ∧
      BootStep (fun v => pgnum s.mmioBase ≤ v ∧ v < pgnum s.mmioBase + call.pages) s t ∧
      MapsRegion s.mmioBase (rounddown call.pa) (ptePcd ||| ptePwt ||| pteW) call.pages t ∧
      t.mmioBase.toNat = s.mmioBase.toNat + call.pages * 4096 := by
  unfold MmioCall.Fits at hf
  have hsize := mmio_region_words hv
  rw [Nat.mod_eq_of_lt (by omega)] at hsize
  exact ((mmioMapRegion_maps call.pa call.size h hsize hf False.elim).ok hs).2

/-- What calls whose tests do not wrap have done. -/
structure Granted (s : KState) (calls : List MmioCall) (t : KState) : Prop where
  step : BootStep (fun v => pgnum s.mmioBase ≤ v ∧ v < pgnum t.mmioBase) s t
  grow : s.mmioBase.toNat ≤ t.mmioBase.toNat
  each : ∀ call ∈ calls, s.mmioBase.toNat ≤ call.base.toNat ∧
    call.base.toNat + call.pages * 4096 ≤ t.mmioBase.toNat ∧ call.base.toNat % 4096 = 0 ∧
    MapsRegion call.base (rounddown call.pa) (ptePcd ||| ptePwt ||| pteW) call.pages t
  apart : calls.Pairwise fun c d => c.base.toNat + c.pages * 4096 ≤ d.base.toNat
  cover : ∀ v, pgnum s.mmioBase ≤ v → v < pgnum t.mmioBase →
    ∃ call ∈ calls, pgnum call.base ≤ v ∧ v < pgnum call.base + call.pages

/-- Each call reserves the pages behind those of the calls before it. -/
theorem granted (hr : Run (restrict (fun s call => call.Fits s) MmioStep) s calls t)
    (h : Booting False k s) (hv : ∀ call ∈ calls, call.Valid) :
    Booting False k t ∧ Granted s calls t := by
  induction hr with
  | nil s =>
    refine ⟨h, ⟨.refl _ s, le_refl _, fun c hc => ?_, .nil, fun v h1 h2 => by omega⟩⟩
    cases hc
  | @cons s m t call calls hst hrest ih =>
    obtain ⟨hm, hstep, hmap, hbase⟩ :=
      mmioStep_maps h (hv call (List.mem_cons_self ..)) hst.1 hst.2
    obtain ⟨ht, hg⟩ := ih hm fun c hc => hv c (List.mem_cons_of_mem _ hc)
    have hcb := mmioStep_base hst.2
    have halign := h.mmio.2.2
    have hgrow := hg.grow
    have hpg : pgnum s.mmioBase = s.mmioBase.toNat / 4096 := rfl
    have hpm : pgnum m.mmioBase = pgnum s.mmioBase + call.pages := by
      rw [pgnum, hbase, pgnum]
      omega
    have hpt : pgnum t.mmioBase = t.mmioBase.toNat / 4096 := rfl
    have hpm' : pgnum m.mmioBase = m.mmioBase.toNat / 4096 := rfl
    refine ⟨ht, ⟨(hstep.mono fun v hv => by omega).trans (hg.step.mono fun v hv => by omega),
      by omega, fun c hc => ?_, List.pairwise_cons.mpr ⟨fun c hc => ?_, hg.apart⟩,
      fun v h1 h2 => ?_⟩⟩
    · rcases List.mem_cons.mp hc with rfl | hc
      · rw [hcb]
        refine ⟨le_refl _, by omega, halign, fun i j h1 h2 => ?_⟩
        rw [hg.step.pte i j fun hx => by omega]
        exact hmap i j h1 h2
      · obtain ⟨h1, h2, h3, h4⟩ := hg.each c hc
        exact ⟨by omega, h2, h3, h4⟩
    · rw [hcb]
      have := (hg.each c hc).1
      omega
    · by_cases hlt : v < pgnum m.mmioBase
      · refine ⟨call, List.mem_cons_self .., ?_⟩
        rw [hcb]
        omega
      · obtain ⟨c, hc, hcv⟩ := hg.cover v (by omega) h2
        exact ⟨c, List.mem_cons_of_mem _ hc, hcv⟩

/-- The bytes of a mapped region lead to the bytes from the start of its first page on. -/
theorem MapsRegion.deviceAt {base pa : Word} {n : Nat} (hb : Booting False k t)
    (h : MapsRegion base pa (ptePcd ||| ptePwt ||| pteW) n t) (hal : base.toNat % 4096 = 0)
    (hpa : pa.toNat % 4096 = 0) (hlo : mmiobase.toNat ≤ base.toNat)
    (hhi : base.toNat + n * 4096 ≤ mmiolim.toNat) (hle : pa.toNat + n * 4096 ≤ 2 ^ 32) {x : Nat}
    (hx : x < n * 4096) :
    DeviceAt t (base + BitVec.ofNat 32 x) (pa + BitVec.ofNat 32 x) := by
  have hmb : mmiobase.toNat = 0xEF800000 := by decide
  have hml : mmiolim.toNat = 0xEFC00000 := by decide
  have huv : uvptPdx.val = 957 := by decide
  set va := base + BitVec.ofNat 32 x with hva
  have hvan : va.toNat = base.toNat + x := by
    rw [hva, BitVec.toNat_add, BitVec.toNat_ofNat]
    omega
  have hi : pdx va ≠ uvptPdx := by
    rintro heq
    have := congrArg Fin.val heq
    rw [pdx_val, huv, hvan] at this
    omega
  have hpage : pgnum va = pgnum base + x / 4096 := by
    rw [pgnum, hvan, pgnum]
    omega
  set f := pa.toNat / 4096 + x / 4096 with hf
  have hframe : pa + BitVec.ofNat 32 (x / 4096 * 4096) = page2pa f := by
    apply BitVec.eq_of_toNat_eq
    rw [BitVec.toNat_add, BitVec.toNat_ofNat, page2pa, BitVec.toNat_ofNat]
    omega
  have hpte : pteAt t none (pdx va) (ptx va)
      = page2pa f ||| (ptePcd ||| ptePwt ||| pteW) ||| pteP := by
    have hentry := h (pdx va) (ptx va) (by rw [← pgnum_eq, hpage]; omega)
      (by rw [← pgnum_eq, hpage]; omega)
    rw [hentry, regionEntry, ← pgnum_eq, hpage, Nat.add_sub_cancel_left, hframe]
  have halign : (page2pa f).toNat % 4096 = 0 := by
    rw [page2pa, BitVec.toNat_ofNat]
    omega
  have hent : entryOf t t.kernPgdir (pdx va) (ptx va)
      = page2pa f ||| (ptePcd ||| ptePwt ||| pteW) ||| pteP := (entryOf_kern hi).trans hpte
  -- the directory entry allows everything
  obtain ⟨T, hT⟩ : ∃ T, t.mem t.kernPgdir (pdx va) = page2pa T ||| pteP ||| pteW ||| pteU := by
    refine (hb.pdes (pdx va) hi).resolve_left fun h0 => ?_
    have hnt : tabFrame t none (pdx va) = none := by
      rw [tabFrame_of_dir (o := none) rfl hi, h0]
      exact entryFrame_zero
    rw [pteAt_of_no_tab hnt] at hpte
    have := present_or (page2pa f ||| (ptePcd ||| ptePwt ||| pteW))
    rw [← hpte] at this
    exact this rfl
  have hTal : (page2pa T).toNat % 4096 = 0 := by
    rw [page2pa, BitVec.toNat_ofNat]
    omega
  have hpde : ∀ m : Word, 0xFFF &&& m = m →
      t.mem t.kernPgdir (pdx va) &&& m = (pteW ||| pteU ||| pteP) &&& m := by
    intro m hm
    rw [hT, show page2pa T ||| pteP ||| pteW ||| pteU = page2pa T ||| (pteW ||| pteU) ||| pteP by
      ext x; simp only [BitVec.getElem_or]; cases (page2pa T)[x] <;> cases pteP[x] <;> simp]
    exact entry_flags hTal hm
  have hflags : ∀ m : Word, 0xFFF &&& m = m → entryOf t t.kernPgdir (pdx va) (ptx va) &&& m
      = (ptePcd ||| ptePwt ||| pteW ||| pteP) &&& m := by
    intro m hm
    rw [hent]
    exact entry_flags halign hm
  have hrights : ∀ m : Word, 0xFFF &&& m = m → rights t t.kernPgdir va &&& m =
      ((pteW ||| pteU ||| pteP) &&& m) &&& ((ptePcd ||| ptePwt ||| pteW ||| pteP) &&& m) := by
    intro m hm
    rw [← hpde m hm, ← hflags m hm, rights]
    ext x
    simp only [BitVec.getElem_and]
    cases m[x] <;> simp
  refine ⟨⟨?_, ?_, ?_⟩, ?_⟩
  · have hfr : entryFrame (page2pa f ||| (ptePcd ||| ptePwt ||| pteW) ||| pteP) = some f :=
      entryFrame_mk_of_lt (by omega) (by decide)
    rw [translate, hent, hfr]
    refine congrArg some (BitVec.eq_of_toNat_eq ?_)
    rw [BitVec.toNat_add, BitVec.toNat_add, page2pa, BitVec.toNat_ofNat, BitVec.toNat_ofNat,
      BitVec.toNat_ofNat, pgoff, hvan]
    omega
  · rw [hrights pteW (by decide)]
    decide
  · rw [hrights pteU (by decide)]
    decide
  · rw [hflags (ptePcd ||| ptePwt) (by decide)]
    decide

theorem MmioCall.Sound.fits (h : call.Sound s) (hv : call.Valid) : call.Fits s := by
  obtain ⟨hal, hle⟩ := h
  obtain ⟨hpos, -⟩ := hv
  unfold MmioCall.Fits MmioCall.pages
  omega

/-- The pages of a region that starts on a page are those of its range. -/
theorem MmioCall.pages_eq (hal : call.pa.toNat % 4096 = 0) :
    call.pages = (call.size.toNat + 4095) / 4096 := by
  unfold MmioCall.pages
  omega

/-- Calls for page-aligned devices keep what `mmio_map_region` promises. -/
theorem Granted.reserved (hg : Granted s calls t) (h : Booting False k s) (ht : Booting False k t)
    (hv : ∀ call ∈ calls, call.Valid) (hal : ∀ call ∈ calls, call.pa.toNat % 4096 = 0) :
    Reserved s calls t := by
  have hlo := h.mmio.1
  have hhi := ht.mmio.2.1
  refine ⟨fun c hc x hx => ?_, ?_, fun c hc => ?_, fun i j hi hout => ?_⟩
  · obtain ⟨h1, h2, h3, h4⟩ := hg.each c hc
    have hp := MmioCall.pages_eq (hal c hc)
    have hle := (hv c hc).2
    have hdown : rounddown c.pa = c.pa := by
      apply BitVec.eq_of_toNat_eq
      rw [rounddown_toNat]
      have := hal c hc
      omega
    rw [hdown] at h4
    have := hal c hc
    exact h4.deviceAt ht h3 (hal c hc) (by omega) (by omega) (by omega) (by omega)
  · refine hg.apart.imp_of_mem fun {c d} hc hd hcd v hcv hdv => ?_
    obtain ⟨-, -, h3, -⟩ := hg.each c hc
    have hp := MmioCall.pages_eq (hal c hc)
    have hpc : pgnum c.base = c.base.toNat / 4096 := rfl
    have hpd : pgnum d.base = d.base.toNat / 4096 := rfl
    unfold MmioCall.Page at hcv hdv
    omega
  · obtain ⟨h1, h2, -, -⟩ := hg.each c hc
    have hp := MmioCall.pages_eq (hal c hc)
    omega
  · rw [entryOf_kern hi, entryOf_kern hi]
    refine hg.step.pte i j fun hx => ?_
    obtain ⟨c, hc, hcv⟩ := hg.cover _ hx.1 hx.2
    have hp := MmioCall.pages_eq (hal c hc)
    obtain ⟨-, -, h3, -⟩ := hg.each c hc
    have hpos := (hv c hc).1
    have hpc : pgnum c.base = c.base.toNat / 4096 := rfl
    exact hout c hc ⟨hcv.1, by omega⟩

/-- A promise kept is kept by an address on the first page of the device. -/
theorem Granted.aligned (hg : Granted s calls t) (h : Booting False k s) (ht : Booting False k t)
    (hv : ∀ call ∈ calls, call.Valid) (hres : Reserved s calls t) :
    ∀ call ∈ calls, call.pa.toNat % 4096 = 0 := by
  intro c hc
  have hlo := h.mmio.1
  have hhi := ht.mmio.2.1
  obtain ⟨h1, h2, h3, h4⟩ := hg.each c hc
  obtain ⟨hpos, hle⟩ := hv c hc
  have hdown := rounddown_toNat c.pa
  have hpages : 0 < c.pages ∧ (rounddown c.pa).toNat + c.pages * 4096 ≤ 2 ^ 32 := by
    unfold MmioCall.pages
    omega
  have hfirst := (h4.deviceAt ht h3 (by omega) (by omega) (by omega) hpages.2
    (by omega : 0 < c.pages * 4096)).leads.leads
  rw [(hres.maps c hc 0 hpos).leads.leads] at hfirst
  have hpa : c.pa = rounddown c.pa := by
    have := Option.some.inj hfirst
    rwa [BitVec.add_zero, BitVec.add_zero] at this
  have := congrArg BitVec.toNat hpa
  omega

/-- Calls that meet the condition start on pages, and their tests do not wrap. -/
theorem sound_fits (hr : Run (restrict (fun s call => call.Sound s) MmioStep) s calls t)
    (hv : ∀ call ∈ calls, call.Valid) :
    Run (restrict (fun s call => call.Fits s) MmioStep) s calls t ∧
      ∀ call ∈ calls, call.pa.toNat % 4096 = 0 := by
  induction hr with
  | nil s => exact ⟨.nil s, by simp⟩
  | @cons s m t call calls hst hrest ih =>
    obtain ⟨hok, hstep⟩ := hst
    obtain ⟨hrun, hal⟩ := ih fun c hc => hv c (List.mem_cons_of_mem _ hc)
    refine ⟨.cons ⟨hok.fits (hv call (List.mem_cons_self ..)), hstep⟩ hrun, fun c hc => ?_⟩
    rcases List.mem_cons.mp hc with rfl | hc
    · exact hok.1
    · exact hal c hc

/-- A range that ends below `MMIOLIM` was tested without wrapping. -/
theorem Reserved.fits (hres : Reserved s calls t) (hv : ∀ call ∈ calls, call.Valid) {call : MmioCall}
    (hc : call ∈ calls) {u v : KState} (hs : MmioStep u call v) : call.Fits u := by
  have hml : mmiolim.toNat = 0xEFC00000 := by decide
  have hin := (hres.inside call hc).2
  rw [mmioStep_base hs] at hin
  have := (hv call hc).2
  unfold MmioCall.Fits MmioCall.pages
  omega

theorem Reserved.granted (hres : Reserved s calls t) (hr : Run MmioStep s calls t)
    (hv : ∀ call ∈ calls, call.Valid) :
    Run (restrict (fun s call => call.Fits s) MmioStep) s calls t :=
  hr.restrict_of fun _ _ _ hs hc => hres.fits hv hc hs

end

/-- For every sequence of calls of `mmio_map_region` that return, made while the kernel boots: what
    the function promises holds of all of them exactly if each device starts on a page and no sum
    tested against `MMIOLIM` wraps. -/
theorem mmio_reserved_iff {s t : KState} {calls : List MmioCall} {k : ℕ} (h : Booting False k s)
    (hr : Run MmioStep s calls t) (hv : ∀ call ∈ calls, call.Valid) :
    Reserved s calls t ↔ Run (restrict (fun s call => call.Sound s) MmioStep) s calls t := by
  constructor
  · intro hres
    have hfits := hres.granted hr hv
    obtain ⟨ht, hg⟩ := granted hfits h hv
    have hal := hg.aligned h ht hv hres
    refine hr.restrict_of fun u call v hs hc => ⟨hal call hc, ?_⟩
    have hml : mmiolim.toNat = 0xEFC00000 := by decide
    have hin := (hres.inside call hc).2
    rw [mmioStep_base hs] at hin
    omega
  · intro hsound
    obtain ⟨hfits, hal⟩ := sound_fits hsound hv
    obtain ⟨ht, hg⟩ := granted hfits h hv
    exact hg.reserved h ht hv hal

/-! ### The demonstration machine -/

/-- Before anything is mapped, the demonstration machine grants a region of one page. -/
theorem demo_reserves (pa size : Word)
    (hpage : (roundup (pa + size) - rounddown pa).toNat = 4096) (hpos : 0 < size.toNat)
    (hle : pa.toNat + size.toNat ≤ 2 ^ 32) :
    ∃ s t base, Booting False 3 s ∧ Run MmioStep s [⟨pa, size, base⟩] t ∧
      ∀ call ∈ [(⟨pa, size, base⟩ : MmioCall)], call.Valid := by
  have hw : detectMemory demo = 32768 := by decide
  obtain ⟨s, hs, hbase⟩ : ∃ s, Booting True 3 s ∧ s.mmioBase = mmiobase := by
    have harr := memInitArrays_wp (C := True) demo fun _ => ⟨by omega, by omega⟩
    cases hrun : memInitArrays demo (startState demo) with
    | error x t => exact absurd trivial (harr.error hrun).2
    | ok u s1 =>
      have h1 := harr.ok hrun
      have hpg := pageInit_wp (C := True) h1 fun _ => ⟨by omega, by omega⟩
      cases hrun2 : pageInit demo s1 with
      | error x t => exact absurd trivial (hpg.error hrun2).2
      | ok u s2 =>
        have h2 := hpg.ok hrun2
        exact ⟨s2, h2.booting h1 (by rw [h1.npages]; omega) (fun _ => by omega) (by omega),
          by rw [h2.loop.only.mmioBase, h1.mmio]⟩
  have hmb : mmiobase.toNat = 0xEF800000 := by decide
  have hml : mmiolim.toNat = 0xEFC00000 := by decide
  have hmap := mmioMapRegion_maps pa size hs (n := 1) (by omega) (by rw [hbase]; omega)
    fun _ => by rw [hbase]; omega
  obtain ⟨L, hL, -⟩ := hs.page
  cases hrun : mmioMapRegion pa size s with
  | error x t => exact absurd trivial (hmap.error hrun).2
  | ok va t =>
    exact ⟨s, t, va, ⟨⟨L, hL, False.elim⟩, hs.envs, hs.cpus, hs.flags, hs.pdes, hs.mmio⟩,
      .single hrun, fun call hc => by rw [List.mem_singleton.mp hc]; exact ⟨hpos, hle⟩⟩

/-- The registers of the local APIC are reserved on the demonstration machine. -/
theorem mmio_reserved_iff_demo : ∃ s t base, Booting False 3 s ∧
    Run MmioStep s [⟨0xFEE00000, 4096, base⟩] t ∧
    (Reserved s [⟨0xFEE00000, 4096, base⟩] t ↔
      Run (restrict (fun s call => call.Sound s) MmioStep) s [⟨0xFEE00000, 4096, base⟩] t) := by
  obtain ⟨s, t, base, h, hr, hv⟩ :=
    demo_reserves 0xFEE00000 4096 (by decide) (by decide) (by decide)
  exact ⟨s, t, base, h, hr, mmio_reserved_iff h hr hv⟩

/-- Registers 16 bytes into a page: the address returned leads to the start of the page. -/
theorem mmio_offset_lost : ∃ s t base, Booting False 3 s ∧
    Run MmioStep s [⟨0xFEE00010, 4, base⟩] t ∧
    (∀ call ∈ [(⟨0xFEE00010, 4, base⟩ : MmioCall)], call.Valid) ∧
    ¬ Reserved s [⟨0xFEE00010, 4, base⟩] t := by
  obtain ⟨s, t, base, h, hr, hv⟩ :=
    demo_reserves 0xFEE00010 4 (by decide) (by decide) (by decide)
  refine ⟨s, t, base, h, hr, hv, fun hres => ?_⟩
  have hfits := hres.granted hr hv
  obtain ⟨ht, hg⟩ := granted hfits h hv
  have hal := hg.aligned h ht hv hres _ (List.mem_singleton.mpr rfl)
  exact absurd (show (0xFEE00010 : Word).toNat % 4096 = 0 from hal) (by decide)

end Jos
