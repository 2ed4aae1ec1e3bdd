import Jos.Memmove

/-!
  The text screen (`cga_putc` in `kern/console.c`).

  The screen is an array of 25 rows of 80 cells, and the cursor an index into it. No character takes
  the cursor further than to the row after the last one, and then the screen scrolls. So the code
  does what a terminal does that keeps rows and columns apart. -/

namespace Jos

open Lib.Ia32 Memmove

namespace Screen

/-- A character in the low byte, and its colours. -/
abbrev Cell := BitVec 16

def crtRows : Nat := 25
def crtCols : Nat := 80
def crtSize : Nat := crtRows * crtCols

/-- `crt_buf` and `crt_pos`, what the display controller was told of the cursor, and the indices of
    `crt_buf` written so far. -/
structure Crt where
  buf : Nat → Cell
  pos : BitVec 16
  cursor : Byte × Byte
  writes : List Nat

/-- `crt_buf[i] = v`. -/
def Crt.store (s : Crt) (i : Nat) (v : Cell) : Crt :=
  { s with buf := Function.update s.buf i v, writes := s.writes ++ [i] }

/-- `memmove(crt_buf, crt_buf + CRT_COLS, (CRT_SIZE - CRT_COLS) * sizeof(uint16_t))`. -/
def Crt.moveUp (s : Crt) : Crt :=
  { s with buf := fun i => if i < crtSize - crtCols then s.buf (i + crtCols) else s.buf i
           writes := s.writes ++ List.range (crtSize - crtCols) }

/-- `0x0700 | ' '`. -/
def blank : Cell := 0x0700 ||| 0x20

/-- The loop over the last row. -/
def Crt.blankLast (s : Crt) : Crt :=
  (List.range' (crtSize - crtCols) crtCols).foldl (fun s i => s.store i blank) s

/-- What follows the switch: the screen scrolls if the cursor is past it. -/
def Crt.scroll (s : Crt) : Crt :=
  if crtSize ≤ s.pos.toNat then
    let s := s.moveUp.blankLast
    { s with pos := s.pos - 80 }
  else s

/-- The display controller is told where the cursor is. -/
def Crt.blink (s : Crt) : Crt :=
  { s with cursor := ((s.pos >>> 8).setWidth 8, s.pos.setWidth 8) }

/-- White on black, if `c` says nothing about colours. -/
def attributed (c : Word) : Word := if c &&& ~~~0xFF = 0 then c ||| 0x0700 else c

mutual

/-- `cga_putc`. -/
def cgaPutc (c : Word) (s : Crt) : Crt :=
  let a := attributed c
  let s :=
    if a &&& 0xFF = 0x08 then
      if 0 < s.pos then
        let s := { s with pos := s.pos - 1 }
        s.store s.pos.toNat ((a &&& ~~~0xFF ||| 0x20).setWidth 16)
      else s
    else if a &&& 0xFF = 0x0A then
      let s := { s with pos := s.pos + 80 }
      { s with pos := s.pos - s.pos % 80 }
    else if a &&& 0xFF = 0x0D then { s with pos := s.pos - s.pos % 80 }
    else if a &&& 0xFF = 0x09 then
      consPutc 0x20 (consPutc 0x20 (consPutc 0x20 (consPutc 0x20 (consPutc 0x20 s))))
    else { s.store s.pos.toNat (a.setWidth 16) with pos := s.pos + 1 }
  s.scroll.blink
termination_by if attributed c &&& 0xFF = 0x09 then 2 else 0
decreasing_by
  all_goals
    rename_i h
    have ha : attributed c &&& 0xFF = 0x09 := h
    rw [if_pos ha, if_neg (by decide : ¬ attributed 0x20 &&& 0xFF = 0x09)]
    decide

/-- `cons_putc`. The serial and the parallel port get the character as well. -/
def consPutc (c : Word) (s : Crt) : Crt := cgaPutc c s
termination_by if attributed c &&& 0xFF = 0x09 then 3 else 1
decreasing_by split <;> decide

end

/-- Cell `i` of the array at address `a`, low byte first. -/
def cellAt (m : Mem) (a : Word) (i : Nat) : Cell :=
  m (a + BitVec.ofNat 32 (2 * i + 1)) ++ m (a + BitVec.ofNat 32 (2 * i))

/-- The call of `memmove` moves the rows up, wherever the array lies in memory. -/
theorem memmove_moveUp (t : Strings) (a : Word) (ha : a.toNat + 4000 ≤ 2 ^ 32) {s : Crt}
    (hbuf : ∀ i, i < crtSize → s.buf i = cellAt t.mem a i) {i : Nat} (hi : i < crtSize) :
    s.moveUp.buf i = cellAt (memmove t a (a + 160) 3840).2.mem a i := by
  have hi' : i < 2000 := hi
  have h160 : (a + 160).toNat = a.toNat + 160 := by bv_omega
  have h3840 : (3840 : Word).toNat = 3840 := rfl
  have hmem : (memmove t a (a + 160) 3840).2.mem = t.mem.moved a (a + 160) 0 3840 :=
    asm_mem t (by rw [h160, h3840]; omega) (by rw [h3840]; omega) _ (path_fits a (a + 160) 3840)
  have hc : Copies t.mem (t.mem.moved a (a + 160) 0 3840) a (a + 160) 3840 :=
    moved_copies (d := a) (n := 3840) t.mem (a + 160) (by rw [h3840]; omega)
  show (if i < 1920 then s.buf (i + 80) else s.buf i) = _
  rw [hmem, cellAt]
  by_cases hlt : i < 1920
  · have hfrom : ∀ j, a + 160 + BitVec.ofNat 32 j = a + BitVec.ofNat 32 (j + 160) := fun j => by
      bv_omega
    rw [if_pos hlt, hbuf (i + 80) (by show _ < 2000; omega), hc.inside (2 * i + 1) (by rw [h3840]; omega),
      hc.inside (2 * i) (by rw [h3840]; omega), hfrom, hfrom, cellAt]
    congr 4
  · have hoff : ∀ j, j < 4000 → (a + BitVec.ofNat 32 j).toNat = a.toNat + j := fun j hj => by
      bv_omega
    have hout : ∀ j, 3840 ≤ j → j < 4000 → t.mem.moved a (a + 160) 0 3840 (a + BitVec.ofNat 32 j) =
        t.mem (a + BitVec.ofNat 32 j) := fun j hj hj' =>
      hc.outside _ (by rw [hoff j hj', h3840]; omega)
    rw [if_neg hlt, hbuf i hi, hout _ (by omega) (by omega), hout _ (by omega) (by omega), cellAt]

/-- After every call the display controller knows the cursor. -/
theorem cgaPutc_cursor (c : Word) (s : Crt) : (cgaPutc c s).cursor =
    (((cgaPutc c s).pos >>> 8).setWidth 8, (cgaPutc c s).pos.setWidth 8) := by
  rw [cgaPutc]
  rfl

/-! ### The reference terminal -/

/-- Rows and columns, with the cursor on one of the cells. -/
structure Term where
  screen : Fin 25 → Fin 80 → Cell
  row : Fin 25
  col : Fin 80

/-- To the next row. From the last one, every row moves up by one and the last becomes blank. -/
def Term.lineFeed (t : Term) : Term :=
  if h : t.row.val + 1 < 25 then { t with row := ⟨t.row.val + 1, h⟩ }
  else { t with screen := fun r k =>
    if h : r.val + 1 < 25 then t.screen ⟨r.val + 1, h⟩ k else blank }

/-- The cell under the cursor changes. -/
def Term.set (t : Term) (v : Cell) : Term :=
  { t with screen := Function.update t.screen t.row (Function.update (t.screen t.row) t.col v) }

/-- A cell is written, and the cursor moves on. -/
def Term.write (t : Term) (v : Cell) : Term :=
  if h : t.col.val + 1 < 80 then { t.set v with col := ⟨t.col.val + 1, h⟩ }
  else { t.set v with col := 0 }.lineFeed

/-- The cursor moves back and erases, also from the start of a row to the end of the one above. -/
def Term.back (t : Term) (v : Cell) : Term :=
  if 0 < t.col.val then { t with col := t.col - 1 }.set v
  else if 0 < t.row.val then { t with row := t.row - 1, col := 79 }.set v
  else t

/-- What a terminal is told to do. -/
inductive Key where
  | char (v : Cell)
  | back (v : Cell)
  | newline
  | home
  | tab

/-- The reference terminal. A tab is five blanks. -/
def Term.key (t : Term) : Key → Term
  | .char v => t.write v
  | .back v => t.back v
  | .newline => { t with col := 0 }.lineFeed
  | .home => { t with col := 0 }
  | .tab => ((((t.write blank).write blank).write blank).write blank).write blank

/-- What the switch takes a character for. -/
def keyOf (c : Word) : Key :=
  let a := attributed c
  if a &&& 0xFF = 0x08 then .back ((a &&& ~~~0xFF ||| 0x20).setWidth 16)
  else if a &&& 0xFF = 0x0A then .newline
  else if a &&& 0xFF = 0x0D then .home
  else if a &&& 0xFF = 0x09 then .tab
  else .char (a.setWidth 16)

/-- `crt_buf` holds the screen `f` and the cursor is at `p`; no index past the end was written. -/
structure Draws (s : Crt) (f : Fin 25 → Fin 80 → Cell) (p : Nat) : Prop where
  cells : ∀ (r : Fin 25) (k : Fin 80), s.buf (80 * r.val + k.val) = f r k
  pos : s.pos.toNat = p
  writes : ∀ i ∈ s.writes, i < crtSize

/-- The screen looks as on the terminal, cursor included. -/
def Shows (s : Crt) (t : Term) : Prop := Draws s t.screen (80 * t.row.val + t.col.val)

section

variable {s : Crt} {t : Term} {f : Fin 25 → Fin 80 → Cell} {p : Nat}

theorem foldl_store (v : Cell) : ∀ (l : List Nat) (s : Crt),
    (l.foldl (fun s i => s.store i v) s).pos = s.pos ∧
    (l.foldl (fun s i => s.store i v) s).writes = s.writes ++ l ∧
    ∀ i, (l.foldl (fun s i => s.store i v) s).buf i = if i ∈ l then v else s.buf i
  | [], s => ⟨rfl, (List.append_nil _).symm, fun i => by simp⟩
  | j :: l, s => by
    obtain ⟨h1, h2, h3⟩ := foldl_store v l (s.store j v)
    refine ⟨h1, ?_, fun i => ?_⟩
    · rw [List.foldl_cons, h2]
      simp [Crt.store]
    · rw [List.foldl_cons, h3]
      rcases eq_or_ne i j with rfl | hne
      · simp [Crt.store]
      · simp [Crt.store, hne]

theorem Draws.blink (h : Draws s f p) : Draws s.blink f p := ⟨h.cells, h.pos, h.writes⟩

theorem Draws.store (h : Draws s f p) (r : Fin 25) (k : Fin 80) (v : Cell) :
    Draws (s.store (80 * r.val + k.val) v) (Function.update f r (Function.update (f r) k v)) p := by
  refine ⟨fun r' k' => ?_, h.pos, fun i hi => ?_⟩
  · have hr := r.isLt
    have hk := k.isLt
    have hr' := r'.isLt
    have hk' := k'.isLt
    by_cases hrr : r' = r
    · subst hrr
      rw [Function.update_self]
      by_cases hkk : k' = k
      · subst hkk
        simp [Crt.store]
      · have hne : 80 * r'.val + k'.val ≠ 80 * r'.val + k.val := by omega
        rw [Function.update_of_ne hkk, ← h.cells r' k']
        exact Function.update_of_ne hne _ _
    · have hne : 80 * r'.val + k'.val ≠ 80 * r.val + k.val := by
        have : r'.val ≠ r.val := fun hx => hrr (Fin.ext hx)
        omega
      rw [Function.update_of_ne hrr, ← h.cells r' k']
      exact Function.update_of_ne hne _ _
  · rcases List.mem_append.mp hi with hw | hone
    · exact h.writes i hw
    · obtain rfl := List.mem_singleton.mp hone
      have hr := r.isLt
      have hk := k.isLt
      show _ < 2000
      omega

/-- With the cursor on the screen nothing happens. -/
theorem Draws.stay (h : Draws s f p) (hp : p < 2000) : s.scroll = s := by
  have hlt : ¬ crtSize ≤ s.pos.toNat := by
    rw [h.pos]
    exact Nat.not_le.mpr hp
  rw [Crt.scroll, if_neg hlt]

theorem scroll_eq (h : crtSize ≤ s.pos.toNat) : s.scroll.pos = s.pos - 80 ∧
    s.scroll.writes = s.writes ++ List.range 1920 ++ List.range' 1920 80 ∧
    ∀ i, s.scroll.buf i = if i ∈ List.range' 1920 80 then blank
      else if i < 1920 then s.buf (i + 80) else s.buf i := by
  obtain ⟨h1, h2, h3⟩ := foldl_store blank (List.range' 1920 80) s.moveUp
  rw [Crt.scroll, if_pos h]
  exact ⟨congrArg (· - 80) h1, h2, h3⟩

/-- From past the last row, the picture moves up. -/
theorem Draws.scroll {k : Nat} (h : Draws s f (2000 + k)) (hk : k < 80) :
    Draws s.scroll (fun r j => if h : r.val + 1 < 25 then f ⟨r.val + 1, h⟩ j else blank)
      (1920 + k) := by
  have hp := h.pos
  obtain ⟨h1, h2, h3⟩ := scroll_eq (s := s) (by rw [hp]; exact Nat.le_add_right 2000 k)
  refine ⟨fun r j => ?_, by rw [h1]; bv_omega, fun i hi => ?_⟩
  · have hj := j.isLt
    have hr := r.isLt
    rw [h3]
    by_cases hlast : r.val + 1 < 25
    · have hcell : 80 * r.val + j.val + 80 = 80 * (r.val + 1) + j.val := by omega
      rw [if_neg (by rw [List.mem_range'_1]; omega), if_pos (by omega), dif_pos hlast, hcell]
      exact h.cells ⟨r.val + 1, hlast⟩ j
    · rw [if_pos (by rw [List.mem_range'_1]; omega), dif_neg hlast]
  · rw [h2] at hi
    show i < 2000
    rcases List.mem_append.mp hi with hi | hi
    · rcases List.mem_append.mp hi with hw | hi
      · exact h.writes i hw
      · have := List.mem_range.mp hi
        omega
    · have := List.mem_range'_1.mp hi
      omega

/-- The cursor goes to the next row and the screen scrolls if there is none. -/
theorem Draws.lineFeed (h : Draws s t.screen (80 * (t.row.val + 1) + t.col.val)) :
    Shows s.scroll t.lineFeed := by
  have hr := t.row.isLt
  have hk := t.col.isLt
  unfold Term.lineFeed
  split
  · rename_i hlt
    rw [h.stay (by omega)]
    exact h
  · rename_i hlast
    have hp : 80 * (t.row.val + 1) + t.col.val = 2000 + t.col.val := by omega
    rw [hp] at h
    have hs := h.scroll hk
    have hq : 80 * t.row.val + t.col.val = 1920 + t.col.val := by omega
    unfold Shows
    rwa [hq]

theorem Shows.stay (h : Shows s t) : s.scroll = s := by
  have hr := t.row.isLt
  have hk := t.col.isLt
  exact Draws.stay h (by omega)

theorem Shows.write (h : Shows s t) (v : Cell) :
    Shows { s.store s.pos.toNat v with pos := s.pos + 1 }.scroll (t.write v) := by
  have hr := t.row.isLt
  have hk := t.col.isLt
  have hp : s.pos.toNat = 80 * t.row.val + t.col.val := h.pos
  have hst := Draws.store h t.row t.col v
  rw [← hp] at hst
  have hnext : Draws { s.store s.pos.toNat v with pos := s.pos + 1 } (t.set v).screen
      (80 * t.row.val + (t.col.val + 1)) :=
    ⟨hst.cells, by dsimp only; bv_omega, hst.writes⟩
  unfold Term.write
  split
  · rw [hnext.stay (by omega)]
    exact hnext
  · rename_i hlast
    refine Draws.lineFeed (t := { t.set v with col := 0 }) ?_
    have hq : 80 * (t.row.val + 1) + (0 : Fin 80).val = 80 * t.row.val + (t.col.val + 1) := by
      show 80 * (t.row.val + 1) + 0 = _
      omega
    show Draws _ _ (80 * (t.row.val + 1) + (0 : Fin 80).val)
    rw [hq]
    exact hnext

/-- `crt_pos -= crt_pos % CRT_COLS`. -/
theorem toNat_home {q : BitVec 16} {r k : Nat} (hq : q.toNat = 80 * r + k) (hk : k < 80) :
    (q - q % 80).toNat = 80 * r := by
  have h80 : (80 : BitVec 16).toNat = 80 := rfl
  have hlt := q.isLt
  rw [BitVec.toNat_sub, BitVec.toNat_umod, h80]
  omega

theorem Shows.home (h : Shows s t) :
    Shows { s with pos := s.pos - s.pos % 80 } { t with col := 0 } := by
  exact ⟨h.cells, toNat_home h.pos t.col.isLt, h.writes⟩

theorem Shows.newline (h : Shows s t) :
    Shows { s with pos := s.pos + 80 - (s.pos + 80) % 80 }.scroll { t with col := 0 }.lineFeed := by
  have hr := t.row.isLt
  have hk := t.col.isLt
  have hp : s.pos.toNat = 80 * t.row.val + t.col.val := h.pos
  have hq : (s.pos + 80).toNat = 80 * (t.row.val + 1) + t.col.val := by bv_omega
  exact Draws.lineFeed (t := { t with col := 0 }) ⟨h.cells, toNat_home hq hk, h.writes⟩

/-- A cell is erased that the cursor goes back to. -/
theorem Draws.erase (h : Draws s t.screen (80 * t.row.val + t.col.val + 1)) (v : Cell) :
    Shows ({ s with pos := s.pos - 1 }.store (s.pos - 1).toNat v) (t.set v) := by
  have hr := t.row.isLt
  have hk := t.col.isLt
  have hp := h.pos
  have hq : (s.pos - 1).toNat = 80 * t.row.val + t.col.val := by bv_omega
  have hback : Draws { s with pos := s.pos - 1 } t.screen (80 * t.row.val + t.col.val) :=
    ⟨h.cells, hq, h.writes⟩
  have hst := hback.store t.row t.col v
  rw [← hq] at hst
  exact ⟨hst.cells, hq, hst.writes⟩

theorem Shows.back (h : Shows s t) (v : Cell) :
    Shows (if 0 < s.pos then { s with pos := s.pos - 1 }.store (s.pos - 1).toNat v else s)
      (t.back v) := by
  have hr := t.row.isLt
  have hk := t.col.isLt
  have hp : s.pos.toNat = 80 * t.row.val + t.col.val := h.pos
  unfold Term.back
  by_cases hcol : 0 < t.col.val
  · have hpos : 0 < s.pos := by bv_omega
    rw [if_pos hpos, if_pos hcol]
    refine Draws.erase (t := { t with col := t.col - 1 }) ⟨h.cells, ?_, h.writes⟩ v
    have hpred : (t.col - 1).val = t.col.val - 1 := Fin.val_sub_one_of_ne_zero (by
      rintro hx
      simp [hx] at hcol)
    dsimp only
    omega
  rw [if_neg hcol]
  by_cases hrow : 0 < t.row.val
  · have hpos : 0 < s.pos := by bv_omega
    rw [if_pos hpos, if_pos hrow]
    refine Draws.erase (t := { t with row := t.row - 1, col := 79 }) ⟨h.cells, ?_, h.writes⟩ v
    have hpred : (t.row - 1).val = t.row.val - 1 := Fin.val_sub_one_of_ne_zero (by
      rintro hx
      simp [hx] at hrow)
    show s.pos.toNat = 80 * (t.row - 1).val + 79 + 1
    omega
  · have hpos : ¬ 0 < s.pos := by bv_omega
    rw [if_neg hpos, if_neg hrow]
    exact h

theorem cgaPutc_plain (h : Shows s t) {c : Word} (hc : attributed c &&& 0xFF ≠ 0x09) :
    Shows (cgaPutc c s) (t.key (keyOf c)) := by
  rw [cgaPutc]
  unfold keyOf
  dsimp only
  refine Draws.blink ?_
  by_cases h8 : attributed c &&& 0xFF = 0x08
  · rw [if_pos h8, if_pos h8]
    have hb := h.back ((attributed c &&& ~~~0xFF ||| 0x20).setWidth 16)
    rw [hb.stay]
    exact hb
  rw [if_neg h8, if_neg h8]
  by_cases hn : attributed c &&& 0xFF = 0x0A
  · rw [if_pos hn, if_pos hn]
    exact h.newline
  rw [if_neg hn, if_neg hn]
  by_cases hr : attributed c &&& 0xFF = 0x0D
  · rw [if_pos hr, if_pos hr]
    have hh := h.home
    rw [hh.stay]
    exact hh
  rw [if_neg hr, if_neg hr, if_neg hc, if_neg hc]
  exact h.write _

/-- `cga_putc` does what the reference terminal does. -/
theorem cgaPutc_shows (h : Shows s t) (c : Word) : Shows (cgaPutc c s) (t.key (keyOf c)) := by
  by_cases h9 : attributed c &&& 0xFF = 0x09
  · -- a tab is five blanks, each of which may scroll
    have hspace : ∀ {s : Crt} {t : Term}, Shows s t → Shows (consPutc 0x20 s) (t.write blank) := by
      intro s t h
      rw [consPutc]
      exact cgaPutc_plain h (by decide)
    have h5 := hspace (hspace (hspace (hspace (hspace h))))
    have hkey : keyOf c = .tab := by
      unfold keyOf
      dsimp only
      rw [h9]
      rfl
    rw [cgaPutc, hkey]
    dsimp only
    rw [h9, if_neg (by decide), if_neg (by decide), if_neg (by decide), if_pos rfl, h5.stay]
    exact Draws.blink h5
  · exact cgaPutc_plain h h9

end

/-- The screen as rows. -/
def Crt.term (s : Crt) (h : s.pos.toNat < crtSize) : Term where
  screen r k := s.buf (80 * r.val + k.val)
  row := ⟨s.pos.toNat / 80, by
    have : s.pos.toNat < 2000 := h
    omega⟩
  col := ⟨s.pos.toNat % 80, by omega⟩

/-- A sequence of calls. -/
def Crt.putcs (s : Crt) (cs : List Word) : Crt := cs.foldl (fun s c => cgaPutc c s) s

def Term.keys (t : Term) (cs : List Word) : Term := cs.foldl (fun t c => t.key (keyOf c)) t

theorem putcs_shows : ∀ (cs : List Word) {s : Crt} {t : Term}, Shows s t →
    Shows (s.putcs cs) (t.keys cs)
  | [], _, _, h => h
  | c :: cs, _, _, h => putcs_shows cs (cgaPutc_shows h c)

/-- After every sequence of calls the cursor is on the screen, nothing was written past it, and it
    looks as on the reference terminal. -/
theorem cga_putc_refines (buf : Nat → Cell) (pos : BitVec 16) (cursor : Byte × Byte)
    (h : pos.toNat < crtSize) (cs : List Word) :
    let s := Crt.putcs ⟨buf, pos, cursor, []⟩ cs
    let t := (Crt.term ⟨buf, pos, cursor, []⟩ h).keys cs
    s.pos.toNat < crtSize ∧ (∀ i ∈ s.writes, i < crtSize) ∧
      s.pos.toNat = 80 * t.row.val + t.col.val ∧
      ∀ (r : Fin 25) (k : Fin 80), s.buf (80 * r.val + k.val) = t.screen r k := by
  intro s t
  have hstart : Shows ⟨buf, pos, cursor, []⟩ (Crt.term ⟨buf, pos, cursor, []⟩ h) :=
    ⟨fun _ _ => rfl, (Nat.div_add_mod pos.toNat 80).symm, fun i hi => (nomatch hi)⟩
  have hs : Shows s t := putcs_shows cs hstart
  have hr := t.row.isLt
  have hk := t.col.isLt
  refine ⟨?_, hs.writes, hs.pos, hs.cells⟩
  rw [hs.pos]
  show _ < 2000
  omega

/-- A tab in the last cell of the screen. -/
theorem cga_putc_refines_tab :
    (Crt.putcs ⟨fun _ => blank, 1999, (0, 0), []⟩ [0x09]).pos.toNat < crtSize :=
  (cga_putc_refines (fun _ => blank) 1999 (0, 0) (by decide) [0x09]).1

end Screen

end Jos
