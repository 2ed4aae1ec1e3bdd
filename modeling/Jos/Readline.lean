import Jos.Screen

/-!
  Line editing (`readline` in `lib/readline.c`).

  A backspace or a DEL erases if there is a character to erase; both tests stand in one condition. On
  an empty buffer a DEL falls through to the next branch and is kept, since it is not below a
  blank. -/

namespace Jos

namespace Readline

open Screen

def buflen : Nat := 1024

/-- `buf` and `i`, the arguments of `cputchar` so far, and the indices of `buf` written so far. -/
structure Line where
  buf : Nat → Byte
  i : Nat
  echo : List Int
  writes : List Nat

/-- What `readline` returns: `buf`, or a null pointer after a message about the error. -/
inductive Ret where
  | buf
  | null (c : Int)
  deriving DecidableEq

/-- Both consoles answer that they are one. -/
def iscons (_fdnum : Int) : Int := 1

def Line.cputchar (t : Line) (echoing c : Int) : Line :=
  if echoing ≠ 0 then { t with echo := t.echo ++ [c] } else t

/-- `buf[i] = c`. -/
def Line.store (t : Line) (c : Byte) : Line :=
  { t with buf := Function.update t.buf t.i c, writes := t.writes ++ [t.i] }

/-- The loop of `readline`, on what `getchar` returns. It waits when there is nothing more. -/
def loop (echoing : Int) : List Int → Line → Option (Ret × Line)
  | [], _ => none
  | c :: cs, t =>
    if c < 0 then some (.null c, t)
    else if (c = 0x08 ∨ c = 0x7F) ∧ 0 < t.i then
      let t := t.cputchar echoing 0x08
      loop echoing cs { t with i := t.i - 1 }
    else if 0x20 ≤ c ∧ t.i < buflen - 1 then
      let t := (t.cputchar echoing c).store (BitVec.ofInt 8 c)
      loop echoing cs { t with i := t.i + 1 }
    else if c = 0x0A ∨ c = 0x0D then some (.buf, (t.cputchar echoing 0x0A).store 0)
    else loop echoing cs t

/-- `readline`, with what the last call left in `buf`. -/
def readline (prompt : Option (List Byte)) (buf : Nat → Byte) (input : List Int) :
    Option (Ret × Line) :=
  loop (iscons 0) input ⟨buf, 0, (prompt.getD []).map BitVec.toInt, []⟩

/-- Characters as `getchar` returns them: the console's buffer is one of bytes. -/
def chars (input : List Byte) : List Int := input.map fun c => (c.toNat : Int)

/-- Newline or carriage return. -/
def Ends (c : Byte) : Prop := c = 0x0A ∨ c = 0x0D

instance (c : Byte) : Decidable (Ends c) := inferInstanceAs (Decidable (_ ∨ _))

/-- What is typed before the line ends. -/
def typed (input : List Byte) : List Byte := input.takeWhile fun c => ¬ Ends c

/-- Backspace or DEL. -/
def Erases (c : Byte) : Prop := c = 0x08 ∨ c = 0x7F

instance (c : Byte) : Decidable (Erases c) := inferInstanceAs (Decidable (_ ∨ _))

/-! ### Line editing as it should be -/

def edit (line : List Byte) (c : Byte) : List Byte :=
  if Erases c then line.dropLast
  else if 0x20 ≤ c.toNat ∧ line.length < buflen - 1 then line ++ [c]
  else line

/-- A buffer holds the text as a string. -/
structure Holds (buf : Nat → Byte) (text : List Byte) : Prop where
  char : ∀ j (h : j < text.length), buf j = text[j]
  nul : buf text.length = 0

/-- The cursor is at the end of what is on the screen. -/
structure Fresh (s : Crt) : Prop where
  pos : s.pos.toNat < crtSize
  blank : ∀ j, s.pos.toNat ≤ j → j < crtSize → s.buf j = blank

/-- A character in white on black. -/
def glyph (c : Byte) : Cell := (attributed (c.setWidth 32)).setWidth 16

/-- From where the cursor of `s` was, the screen shows the text and nothing else; everything before
    it is as it was. It may all have moved up by some rows. -/
structure Displays (s s' : Crt) (up start : Nat) (text : List Byte) : Prop where
  origin : s.pos.toNat = start + 80 * up
  fits : start + text.length ≤ crtSize
  before : ∀ j, j < start → s'.buf j = s.buf (j + 80 * up)
  cells : ∀ j (h : j < text.length), s'.buf (start + j) = glyph text[j]
  after : ∀ j, start + text.length ≤ j → j < crtSize → s'.buf j = blank

/-- The call returns the line as edited, stays inside `buf`, and what it echoes after the prompt
    shows that line. -/
def Edits (prompt : Option (List Byte)) (buf : Nat → Byte) (input : List Byte) : Prop :=
  ∃ t, readline prompt buf (chars input) = some (.buf, t) ∧ (∀ j ∈ t.writes, j < buflen) ∧
    Holds t.buf ((typed input).foldl edit []) ∧
    ∃ e, t.echo = (prompt.getD []).map BitVec.toInt ++ e ∧ ∀ s, Fresh s → ∃ up start,
      Displays s (s.putcs (e.map (BitVec.ofInt 32))) up start ((typed input).foldl edit [])

/-- How many characters are in the buffer after another one was typed. -/
def fill (n : Nat) (c : Byte) : Nat :=
  if Erases c ∧ 0 < n then n - 1
  else if 0x20 ≤ c.toNat ∧ n < buflen - 1 then n + 1
  else n

/-- Every DEL that is typed into an empty buffer is erased again. -/
def Clean (l : List Byte) : Prop :=
  ∀ pre post, l = pre ++ 0x7F :: post → pre.foldl fill 0 = 0 →
    ∃ q, q <+: post ∧ q.foldl fill 1 = 0

/-! ### The line that the code keeps -/

/-- What the loop does to the characters in the buffer. -/
def keep (line : List Byte) (c : Byte) : List Byte :=
  if Erases c ∧ 0 < line.length then line.dropLast
  else if 0x20 ≤ c.toNat ∧ line.length < buflen - 1 then line ++ [c]
  else line

section

variable {k line : List Byte} {c : Byte} {l : List Byte}

theorem length_keep (k : List Byte) (c : Byte) : (keep k c).length = fill k.length c := by
  unfold keep fill
  split
  · rw [List.length_dropLast]
  · split
    · rw [List.length_append, List.length_singleton]
    · rfl

theorem length_foldl_keep : ∀ (l k : List Byte), (l.foldl keep k).length = l.foldl fill k.length
  | [], _ => rfl
  | c :: l, k => by
    rw [List.foldl_cons, List.foldl_cons, length_foldl_keep l, length_keep]

theorem foldl_keep_eq_nil : l.foldl keep k = [] ↔ l.foldl fill k.length = 0 := by
  rw [← length_foldl_keep, List.length_eq_zero_iff]

/-- Only a DEL on an empty buffer makes a difference. -/
theorem keep_eq_edit (h : k ≠ [] ∨ c ≠ 0x7F) : keep k c = edit k c := by
  unfold keep edit
  by_cases he : Erases c
  · by_cases hk : k = []
    · subst hk
      have h8 : c = 0x08 := he.resolve_right (h.resolve_left fun hx => hx rfl)
      subst h8
      rfl
    · rw [if_pos ⟨he, List.length_pos_iff.mpr hk⟩, if_pos he]
  · rw [if_neg (c := Erases c ∧ 0 < k.length) fun hx => he hx.1, if_neg he]

/-- As long as the buffer does not run empty. -/
theorem foldl_keep_eq_edit : ∀ {l k : List Byte}, (∀ q, q <+: l → q.foldl keep k ≠ []) →
    l.foldl keep k = l.foldl edit k
  | [], _, _ => rfl
  | c :: l, k, h => by
    have hk : k ≠ [] := h [] List.nil_prefix
    rw [List.foldl_cons, List.foldl_cons, ← keep_eq_edit (Or.inl hk)]
    exact foldl_keep_eq_edit fun q hq => h (c :: q) (List.cons_prefix_cons.mpr ⟨rfl, hq⟩)

theorem length_edit_le (h : line.length ≤ k.length) :
    (edit line c).length ≤ (keep k c).length := by
  rw [length_keep]
  unfold edit fill
  by_cases he : Erases c
  · rw [if_pos he, List.length_dropLast]
    split
    · omega
    · split <;> omega
  · rw [if_neg he, if_neg (c := Erases c ∧ 0 < k.length) fun hx => he hx.1]
    by_cases hc : 0x20 ≤ c.toNat
    · simp only [hc, true_and]
      split
      · rw [List.length_append, List.length_singleton]
        split <;> omega
      · split <;> omega
    · simpa only [hc, false_and, if_false] using h

theorem length_foldl_edit_le : ∀ {l line k : List Byte}, line.length ≤ k.length →
    (l.foldl edit line).length ≤ (l.foldl keep k).length
  | [], _, _, h => h
  | _ :: l, _, _, h => length_foldl_edit_le (l := l) (length_edit_le h)

/-- Once the code's buffer is empty, there is no difference left. -/
theorem foldl_edit_eq_nil (h : line.length ≤ k.length) (hk : l.foldl keep k = []) :
    l.foldl edit line = [] := by
  have hle := length_foldl_edit_le (l := l) h
  rw [hk] at hle
  exact List.length_eq_zero_iff.mp (Nat.le_zero.mp hle)

theorem Clean.drop {q : List Byte} (h : Clean (q ++ l)) (hq : q.foldl fill 0 = 0) : Clean l := by
  intro pre post hl hpre
  refine h (q ++ pre) post (by rw [hl, List.append_assoc]) ?_
  rw [List.foldl_append, hq, hpre]

theorem Clean.foldl_keep : ∀ {l : List Byte}, Clean l → l.foldl keep [] = l.foldl edit []
  | [], _ => rfl
  | c :: l, h => by
    by_cases hempty : ∃ q, q <+: c :: l ∧ q ≠ [] ∧ q.foldl keep [] = []
    · -- from the next point where the buffer is empty, all starts over
      obtain ⟨q, ⟨r, hr⟩, hne, hq⟩ := hempty
      have hedit : q.foldl edit [] = [] := foldl_edit_eq_nil le_rfl hq
      have hrest : Clean r := Clean.drop (hr ▸ h) (foldl_keep_eq_nil (k := []).mp hq)
      have hlen : r.length < (c :: l).length := by
        rw [← hr, List.length_append]
        have := List.length_pos_iff.mpr hne
        omega
      rw [← hr, List.foldl_append, List.foldl_append, hq, hedit]
      exact Clean.foldl_keep hrest
    · have hstays : ∀ q, q <+: l → q.foldl keep (keep [] c) ≠ [] := fun q hq hx =>
        hempty ⟨c :: q, List.cons_prefix_cons.mpr ⟨rfl, hq⟩, List.cons_ne_nil _ _, hx⟩
      have hdel : c ≠ 0x7F := by
        rintro rfl
        obtain ⟨q, hq, hx⟩ := h [] l rfl rfl
        exact hstays q hq (foldl_keep_eq_nil (k := keep [] 0x7F).mpr hx)
      rw [List.foldl_cons, List.foldl_cons, foldl_keep_eq_edit hstays, keep_eq_edit (Or.inr hdel)]
termination_by l => l.length
decreasing_by exact hlen

/-- What stands first in the buffer stays until the buffer is empty. -/
theorem head_foldl_keep : ∀ {l k : List Byte}, (∀ q, q <+: l → q.foldl keep k ≠ []) →
    (l.foldl keep k).head? = k.head?
  | [], _, _ => rfl
  | c :: l, k, h => by
    have hk : k ≠ [] := h [] List.nil_prefix
    have hnext : keep k c ≠ [] := h [c] (List.cons_prefix_cons.mpr ⟨rfl, List.nil_prefix⟩)
    have hhead : (keep k c).head? = k.head? := by
      unfold keep at hnext ⊢
      split at hnext
      · rename_i he
        rw [if_pos he]
        obtain ⟨x, k, rfl⟩ := List.exists_cons_of_ne_nil hk
        cases k with
        | nil => exact absurd rfl hnext
        | cons y k => rfl
      · rename_i he
        rw [if_neg he]
        split
        · rw [List.head?_append_of_ne_nil _ hk]
        · rfl
    rw [List.foldl_cons, head_foldl_keep fun q hq => h (c :: q) (List.cons_prefix_cons.mpr ⟨rfl, hq⟩)]
    exact hhead

theorem mem_edit {x : Byte} (h : x ∈ edit line c) : x ∈ line ∨ 0x20 ≤ x.toNat ∧ x ≠ 0x7F := by
  unfold edit at h
  split at h
  · exact Or.inl (List.mem_of_mem_dropLast h)
  · rename_i he
    split at h
    · rename_i hc
      refine (List.mem_append.mp h).imp_right fun h => ?_
      obtain rfl := List.mem_singleton.mp h
      exact ⟨hc.1, fun hd => he (Or.inr hd)⟩
    · exact Or.inl h

/-- A line that is edited properly has no control characters. -/
theorem mem_foldl_edit (l : List Byte) : ∀ x ∈ l.foldl edit [], 0x20 ≤ x.toNat ∧ x ≠ 0x7F := by
  refine List.foldlRecOn (motive := fun k => ∀ x ∈ k, 0x20 ≤ x.toNat ∧ x ≠ 0x7F) l edit ?_ ?_
  · exact fun x hx => absurd hx List.not_mem_nil
  · exact fun k hk c _ x hx => (mem_edit hx).elim (hk x) id

theorem mem_keep {x : Byte} (h : x ∈ keep k c) : x ∈ k ∨ 0x20 ≤ x.toNat := by
  by_cases hd : k ≠ [] ∨ c ≠ 0x7F
  · rw [keep_eq_edit hd] at h
    exact (mem_edit h).imp_right And.left
  · obtain ⟨rfl, rfl⟩ : k = [] ∧ c = 0x7F := by
      simpa only [not_or, not_not] using hd
    obtain rfl := List.mem_singleton.mp h
    exact Or.inr (by decide)

theorem mem_foldl_keep (l : List Byte) : ∀ x ∈ l.foldl keep [], 0x20 ≤ x.toNat := by
  refine List.foldlRecOn (motive := fun k => ∀ x ∈ k, 0x20 ≤ x.toNat) l keep ?_ ?_
  · exact fun x hx => absurd hx List.not_mem_nil
  · exact fun k hk c _ x hx => (mem_keep hx).elim (hk x) id

theorem foldl_keep_ne (h : ¬ Clean l) : l.foldl keep [] ≠ l.foldl edit [] := by
  unfold Clean at h
  simp only [not_forall, not_exists, not_and, exists_prop] at h
  obtain ⟨pre, post, rfl, hpre, hpost⟩ := h
  have hk : pre.foldl keep [] = [] := foldl_keep_eq_nil (k := []).mpr hpre
  have hstays : ∀ q, q <+: post → q.foldl keep [0x7F] ≠ [] := fun q hq hx =>
    hpost q hq (foldl_keep_eq_nil (k := [0x7F]).mp hx)
  have hhead := head_foldl_keep hstays
  intro heq
  rw [List.foldl_append, List.foldl_cons, hk] at heq
  have hone : keep [] 0x7F = [0x7F] := by decide
  rw [hone] at heq
  rw [heq] at hhead
  have hmem := List.mem_of_mem_head? hhead
  exact (mem_foldl_edit _ _ hmem).2 rfl

theorem foldl_keep_eq_iff : l.foldl keep [] = l.foldl edit [] ↔ Clean l :=
  ⟨fun h => not_not.mp fun hc => foldl_keep_ne hc h, Clean.foldl_keep⟩

end

/-! ### On the screen -/

/-- The line is on the screen up to the cursor. -/
structure Echoed (s s' : Crt) (up start : Nat) (line : List Byte) : Prop
    extends Displays s s' up start line where
  pos : s'.pos.toNat = start + line.length
  lt : s'.pos.toNat < crtSize

section

variable {s s' : Crt} {up start : Nat} {k : List Byte} {c : Byte}

theorem setWidth_and (c : Byte) : c.setWidth 32 &&& ~~~(0xFF : Word) = 0 := by
  ext i hi
  have hff : (0xFF : Word)[i] = decide (i < 8) := by
    show (BitVec.ofNat 32 (2 ^ 8 - 1))[i] = decide (i < 8)
    rw [← BitVec.getLsbD_eq_getElem, BitVec.getLsbD_ofNat, Nat.testBit_two_pow_sub_one]
    simp [hi]
  simp only [BitVec.getElem_and, BitVec.getElem_not, BitVec.getElem_setWidth, hff]
  by_cases h8 : i < 8
  · simp [h8]
  · simp [BitVec.getLsbD_of_ge c i (by omega)]

/-- A character of one byte is white on black. -/
theorem attributed_char (c : Byte) : attributed (c.setWidth 32) = c.setWidth 32 ||| 0x0700 :=
  if_pos (setWidth_and c)

theorem attributed_low (c : Byte) : attributed (c.setWidth 32) &&& 0xFF = c.setWidth 32 := by
  have hx : (0x0700 : Word) &&& 0xFF = 0 := by decide
  rw [attributed_char]
  have h1 : (c.setWidth 32 ||| 0x0700) &&& (0xFF : Word) =
      (c.setWidth 32 &&& 0xFF) ||| (0x0700 &&& 0xFF) := by
    ext i hi
    simp only [BitVec.getElem_and, BitVec.getElem_or]
    cases (c.setWidth 32)[i] <;> cases (0x0700 : Word)[i] <;> cases (0xFF : Word)[i] <;> rfl
  have h2 : c.setWidth 32 = (c.setWidth 32 &&& 0xFF) ||| (c.setWidth 32 &&& ~~~(0xFF : Word)) := by
    ext i hi
    simp only [BitVec.getElem_and, BitVec.getElem_or, BitVec.getElem_not]
    cases (c.setWidth 32)[i] <;> cases (0xFF : Word)[i] <;> rfl
  rw [setWidth_and] at h2
  rw [h1, hx]
  simpa using h2.symm

/-- What is on the screen moves up if the cursor is past it. -/
theorem Displays.scroll (h : Displays s s' up start k) (hs : 2000 ≤ s'.pos.toNat → 80 ≤ start)
    (hp : s'.pos.toNat < 2080) (hstart : start ≤ s'.pos.toNat) :
    ∃ up' start', Displays s s'.scroll up' start' k ∧
      s'.scroll.pos.toNat = start' + (s'.pos.toNat - start) ∧ s'.scroll.pos.toNat < crtSize := by
  by_cases hle : crtSize ≤ s'.pos.toNat
  · have hle' : 2000 ≤ s'.pos.toNat := hle
    have h80 := hs hle'
    have horig := h.origin
    have hfits : start + k.length ≤ 2000 := h.fits
    obtain ⟨h1, -, h3⟩ := scroll_eq hle
    have hup : ∀ j, j < 1920 → s'.scroll.buf j = s'.buf (j + 80) := fun j hj => by
      rw [h3, if_neg (by rw [List.mem_range'_1]; omega), if_pos hj]
    have hpos : s'.scroll.pos.toNat = s'.pos.toNat - 80 := by
      rw [h1]
      bv_omega
    refine ⟨up + 1, start - 80, ⟨by omega, ?_, fun j hj => ?_, fun j hj => ?_, fun j hj hj' => ?_⟩,
      by omega, ?_⟩
    · show _ ≤ 2000
      omega
    · rw [hup j (by omega), h.before (j + 80) (by omega)]
      congr 1
      omega
    · rw [hup _ (by omega), ← h.cells j hj]
      congr 1
      omega
    · have hj'' : j < 2000 := hj'
      by_cases hlast : 1920 ≤ j
      · rw [h3, if_pos (by rw [List.mem_range'_1]; omega)]
      · rw [hup j (by omega)]
        exact h.after (j + 80) (by omega) (by show _ < 2000; omega)
    · show _ < 2000
      omega
  · have hstay : s'.scroll = s' := if_neg hle
    rw [hstay]
    exact ⟨up, start, h, by omega, by omega⟩

theorem Displays.blink (h : Displays s s' up start k) : Displays s s'.blink up start k :=
  ⟨h.origin, h.fits, h.before, h.cells, h.after⟩

/-- A character is echoed. -/
theorem Echoed.char (h : Echoed s s' up start k) (hk : k.length < buflen - 1)
    (hc : 0x20 ≤ c.toNat) :
    ∃ up' start', Echoed s (cgaPutc (c.setWidth 32) s') up' start' (k ++ [c]) := by
  have hpos := h.pos
  have hlt : s'.pos.toNat < 2000 := h.lt
  have hk' : k.length < 1023 := hk
  have hcn : (c.setWidth 32).toNat = c.toNat := by
    rw [BitVec.toNat_setWidth]
    have := c.isLt
    exact Nat.mod_eq_of_lt (by omega)
  have hne : ∀ w : Word, w.toNat < 0x20 → ¬ attributed (c.setWidth 32) &&& 0xFF = w := by
    intro w hw hx
    rw [attributed_low] at hx
    rw [← hx, hcn] at hw
    omega
  have hnext : (s'.pos + 1).toNat = start + k.length + 1 := by bv_omega
  have hm : Displays s { s'.store s'.pos.toNat (glyph c) with pos := s'.pos + 1 } up start
      (k ++ [c]) := by
    have hbuf : ∀ j, j ≠ s'.pos.toNat →
        (s'.store s'.pos.toNat (glyph c)).buf j = s'.buf j := fun j hj =>
      Function.update_of_ne hj _ _
    refine ⟨h.origin, ?_, fun j hj => ?_, fun j hj => ?_, fun j hj hj' => ?_⟩
    · rw [List.length_append, List.length_singleton]
      show _ ≤ 2000
      omega
    · exact (hbuf j (by omega)).trans (h.before j hj)
    · rw [List.length_append, List.length_singleton] at hj
      by_cases hlast : j < k.length
      · rw [List.getElem_append_left hlast]
        exact (hbuf _ (by omega)).trans (h.cells j hlast)
      · obtain rfl : j = k.length := by omega
        rw [List.getElem_append_right le_rfl, ← hpos]
        simp [Crt.store]
    · rw [List.length_append, List.length_singleton] at hj
      exact (hbuf j (by omega)).trans (h.after j (by omega) hj')
  have hput : cgaPutc (c.setWidth 32) s' =
      { s'.store s'.pos.toNat (glyph c) with pos := s'.pos + 1 }.scroll.blink := by
    rw [cgaPutc]
    dsimp only
    rw [if_neg (hne _ (by decide)), if_neg (hne _ (by decide)), if_neg (hne _ (by decide)),
      if_neg (hne _ (by decide))]
    rfl
  obtain ⟨up', start', hd, hp, hl⟩ := hm.scroll (fun hx => by dsimp only at hx; omega)
    (by dsimp only; omega) (by dsimp only; omega)
  rw [hput]
  refine ⟨up', start', hd.blink, ?_, hl⟩
  show ({ s'.store s'.pos.toNat (glyph c) with pos := s'.pos + 1 }.scroll).pos.toNat = _
  rw [hp, List.length_append, List.length_singleton]
  dsimp only
  omega

/-- A backspace is echoed. -/
theorem Echoed.back (h : Echoed s s' up start k) (hk : 0 < k.length) :
    Echoed s (cgaPutc 0x08 s') up start k.dropLast := by
  have hpos := h.pos
  have hlt : s'.pos.toNat < 2000 := h.lt
  have hprev : (s'.pos - 1).toNat = start + (k.length - 1) := by bv_omega
  have hput : cgaPutc 0x08 s' =
      ({ s' with pos := s'.pos - 1 }.store (s'.pos - 1).toNat blank).scroll.blink := by
    have hc : attributed 0x08 = 0x0708 := by decide
    have hp : 0 < s'.pos := by bv_omega
    rw [cgaPutc, hc]
    dsimp only
    rw [if_pos (by decide), if_pos hp]
    rfl
  have hstay : ({ s' with pos := s'.pos - 1 }.store (s'.pos - 1).toNat blank).scroll =
      { s' with pos := s'.pos - 1 }.store (s'.pos - 1).toNat blank := by
    refine if_neg ?_
    show ¬ 2000 ≤ (s'.pos - 1).toNat
    omega
  have hbuf : ∀ j, j ≠ (s'.pos - 1).toNat →
      ({ s' with pos := s'.pos - 1 }.store (s'.pos - 1).toNat blank).buf j = s'.buf j := fun j hj =>
    Function.update_of_ne hj _ _
  have hlen : k.dropLast.length = k.length - 1 := List.length_dropLast
  have hfits : start + k.length ≤ 2000 := h.fits
  rw [hput, hstay]
  refine ⟨⟨h.origin, ?_, fun j hj => ?_, fun j hj => ?_, fun j hj hj' => ?_⟩, ?_, ?_⟩
  · rw [hlen]
    show _ ≤ 2000
    omega
  · exact (hbuf j (by omega)).trans (h.before j hj)
  · rw [hlen] at hj
    rw [List.getElem_dropLast]
    exact (hbuf _ (by omega)).trans (h.cells j (by omega))
  · rw [hlen] at hj
    rcases eq_or_ne j (s'.pos - 1).toNat with rfl | hne
    · exact Function.update_self _ _ _
    · exact (hbuf j hne).trans (h.after j (by omega) hj')
  · rw [hlen]
    exact hprev
  · show (s'.pos - 1).toNat < 2000
    omega

/-- A newline is echoed. -/
theorem Echoed.newline (h : Echoed s s' up start k) (hk : k.length ≤ buflen - 1) :
    ∃ up' start', Displays s (cgaPutc 0x0A s') up' start' k := by
  have hpos := h.pos
  have hlt : s'.pos.toNat < 2000 := h.lt
  have hk' : k.length ≤ 1023 := hk
  have hput : cgaPutc 0x0A s' =
      { s' with pos := s'.pos + 80 - (s'.pos + 80) % 80 }.scroll.blink := by
    have hc : attributed 0x0A = 0x070A := by decide
    rw [cgaPutc, hc]
    dsimp only
    rw [if_neg (by decide), if_pos (by decide)]
  have hq : (s'.pos + 80).toNat = 80 * (s'.pos.toNat / 80 + 1) + s'.pos.toNat % 80 := by bv_omega
  have hrow := toNat_home hq (Nat.mod_lt _ (by decide))
  have hm : Displays s { s' with pos := s'.pos + 80 - (s'.pos + 80) % 80 } up start k :=
    ⟨h.origin, h.fits, h.before, h.cells, h.after⟩
  obtain ⟨up', start', hd, -, -⟩ := hm.scroll (fun hx => by dsimp only at hx; omega)
    (by dsimp only; omega) (by dsimp only; omega)
  rw [hput]
  exact ⟨up', start', hd.blink⟩

end

/-! ### The loop -/

/-- The characters of `k` are in the buffer. -/
structure Keeps (t : Line) (k : List Byte) : Prop where
  i : t.i = k.length
  fits : k.length ≤ buflen - 1
  char : ∀ j (h : j < k.length), t.buf j = k[j]
  writes : ∀ j ∈ t.writes, j < buflen

/-- What is echoed for a character. -/
def echoOf (k : List Byte) (c : Byte) : List Int :=
  if Erases c ∧ 0 < k.length then [0x08]
  else if 0x20 ≤ c.toNat ∧ k.length < buflen - 1 then [(c.toNat : Int)]
  else []

section

variable {t : Line} {k l : List Byte} {c : Byte} {buf : Nat → Byte}

theorem char_eq_iff (c d : Byte) : c = d ↔ (c.toNat : Int) = (d.toNat : Int) := by
  rw [Int.ofNat_inj, BitVec.toNat_inj]

theorem erases_iff (c : Byte) : Erases c ↔ (c.toNat : Int) = 0x08 ∨ (c.toNat : Int) = 0x7F :=
  or_congr (char_eq_iff c 0x08) (char_eq_iff c 0x7F)

theorem ends_iff (c : Byte) : Ends c ↔ (c.toNat : Int) = 0x0A ∨ (c.toNat : Int) = 0x0D :=
  or_congr (char_eq_iff c 0x0A) (char_eq_iff c 0x0D)

theorem ofInt_char (c : Byte) : BitVec.ofInt 32 (c.toNat : Int) = c.setWidth 32 := by
  apply BitVec.eq_of_toNat_eq
  have := c.isLt
  simp

/-- One character that does not end the line. -/
theorem Keeps.key (h : Keeps t k) (hc : ¬ Ends c) (cs : List Int) :
    ∃ t', loop 1 ((c.toNat : Int) :: cs) t = loop 1 cs t' ∧ Keeps t' (keep k c) ∧
      t'.echo = t.echo ++ echoOf k c := by
  have hneg : ¬ (c.toNat : Int) < 0 := by omega
  have hend : ¬ ((c.toNat : Int) = 0x0A ∨ (c.toNat : Int) = 0x0D) := fun hx => hc ((ends_iff c).mpr hx)
  have hfits := h.fits
  have herase : ((c.toNat : Int) = 0x08 ∨ (c.toNat : Int) = 0x7F) ∧ 0 < t.i ↔
      Erases c ∧ 0 < k.length := by
    rw [erases_iff, h.i]
  have hprint : (0x20 : Int) ≤ c.toNat ∧ t.i < buflen - 1 ↔
      0x20 ≤ c.toNat ∧ k.length < buflen - 1 := by
    rw [h.i]
    omega
  rw [loop, if_neg hneg]
  unfold keep echoOf
  by_cases he : Erases c ∧ 0 < k.length
  · rw [if_pos (herase.mpr he), if_pos he, if_pos he]
    refine ⟨_, rfl, ⟨?_, ?_, fun j hj => ?_, h.writes⟩, rfl⟩
    · rw [List.length_dropLast]
      exact congrArg (· - 1) h.i
    · rw [List.length_dropLast]
      omega
    · rw [List.length_dropLast] at hj
      rw [List.getElem_dropLast]
      exact h.char j (by omega)
  rw [if_neg fun hx => he (herase.mp hx), if_neg he, if_neg he]
  by_cases hp : 0x20 ≤ c.toNat ∧ k.length < buflen - 1
  · rw [if_pos (hprint.mpr hp), if_pos hp, if_pos hp]
    have hlen : (k ++ [c]).length = k.length + 1 := List.length_append
    have hi : t.i + 1 = (k ++ [c]).length := by rw [hlen, h.i]
    refine ⟨_, rfl, ⟨hi, by rw [hlen]; omega, fun j hj => ?_, fun j hj => ?_⟩, rfl⟩
    · rw [hlen] at hj
      show Function.update t.buf t.i (BitVec.ofInt 8 (c.toNat : Int)) j = _
      rw [h.i]
      by_cases hlast : j < k.length
      · rw [Function.update_of_ne (by omega), List.getElem_append_left hlast]
        exact h.char j hlast
      · obtain rfl : j = k.length := by omega
        rw [Function.update_self, List.getElem_append_right le_rfl]
        simp
    · rcases List.mem_append.mp hj with hj | hj
      · exact h.writes j hj
      · obtain rfl := List.mem_singleton.mp hj
        show t.i < buflen
        rw [h.i]
        omega
  · rw [if_neg fun hx => hp (hprint.mp hx), if_neg hp, if_neg hp, if_neg hend]
    exact ⟨t, rfl, h, (List.append_nil _).symm⟩

/-- The newline or carriage return. -/
theorem Keeps.done (h : Keeps t k) (hc : Ends c) (cs : List Int) :
    ∃ t', loop 1 ((c.toNat : Int) :: cs) t = some (.buf, t') ∧ Holds t'.buf k ∧
      (∀ j ∈ t'.writes, j < buflen) ∧ t'.echo = t.echo ++ [0x0A] := by
  have hneg : ¬ (c.toNat : Int) < 0 := by omega
  have hend := (ends_iff c).mp hc
  have hfits : k.length ≤ 1023 := h.fits
  have he : ¬ (((c.toNat : Int) = 0x08 ∨ (c.toNat : Int) = 0x7F) ∧ 0 < t.i) := by omega
  have hp : ¬ ((0x20 : Int) ≤ c.toNat ∧ t.i < buflen - 1) := by omega
  rw [loop, if_neg hneg, if_neg he, if_neg hp, if_pos hend]
  refine ⟨_, rfl, ⟨fun j hj => ?_, ?_⟩, fun j hj => ?_, rfl⟩
  · show Function.update t.buf t.i 0 j = _
    rw [h.i, Function.update_of_ne (by omega)]
    exact h.char j hj
  · show Function.update t.buf t.i 0 k.length = 0
    rw [h.i, Function.update_self]
  · rcases List.mem_append.mp hj with hj | hj
    · exact h.writes j hj
    · obtain rfl := List.mem_singleton.mp hj
      show t.i < 1024
      rw [h.i]
      omega

theorem Echoed.key {s s' : Crt} {up start : Nat} (h : Echoed s s' up start k) (c : Byte) :
    ∃ up' start', Echoed s (s'.putcs ((echoOf k c).map (BitVec.ofInt 32))) up' start' (keep k c) := by
  unfold echoOf keep
  by_cases he : Erases c ∧ 0 < k.length
  · rw [if_pos he, if_pos he]
    exact ⟨up, start, h.back he.2⟩
  rw [if_neg he, if_neg he]
  by_cases hp : 0x20 ≤ c.toNat ∧ k.length < buflen - 1
  · rw [if_pos hp, if_pos hp]
    have hput : s'.putcs ([(c.toNat : Int)].map (BitVec.ofInt 32)) = cgaPutc (c.setWidth 32) s' := by
      rw [List.map_singleton, ofInt_char]
      rfl
    rw [hput]
    exact h.char hp.2 hp.1
  · rw [if_neg hp, if_neg hp]
    exact ⟨up, start, h⟩

theorem putcs_append (s : Crt) (l l' : List Word) : s.putcs (l ++ l') = (s.putcs l).putcs l' :=
  List.foldl_append

/-- The rest of a call: the line is finished, and the screen shows it. -/
theorem Keeps.finish : ∀ {l : List Byte} {k : List Byte} {t : Line}, Keeps t k →
    (∀ x ∈ l, ¬ Ends x) → Ends c → ∀ cs : List Byte, ∃ t' e,
      loop 1 (chars (l ++ c :: cs)) t = some (.buf, t') ∧ Holds t'.buf (l.foldl keep k) ∧
      (∀ j ∈ t'.writes, j < buflen) ∧ t'.echo = t.echo ++ e ∧
      ∀ s s' up start, Echoed s s' up start k →
        ∃ up' start', Displays s (s'.putcs (e.map (BitVec.ofInt 32))) up' start' (l.foldl keep k)
  | [], k, t, h, _, hc, cs => by
    obtain ⟨t', hrun, hholds, hw, he⟩ := h.done hc (chars cs)
    exact ⟨t', [0x0A], hrun, hholds, hw, he, fun s s' up start hs => hs.newline h.fits⟩
  | x :: l, k, t, h, hl, hc, cs => by
    obtain ⟨t1, hrun, h1, he1⟩ := h.key (hl x (List.mem_cons_self ..)) (chars (l ++ c :: cs))
    obtain ⟨t', e, hrun', hholds, hw, he, hshow⟩ :=
      h1.finish (fun y hy => hl y (List.mem_cons_of_mem _ hy)) hc cs
    refine ⟨t', echoOf k x ++ e, hrun.trans hrun', hholds, hw, ?_, fun s s' up start hs => ?_⟩
    · rw [he, he1, List.append_assoc]
    · obtain ⟨up1, start1, hs1⟩ := hs.key x
      rw [List.map_append, putcs_append]
      exact hshow s _ up1 start1 hs1

theorem typed_append : ∀ {input : List Byte}, (∃ c ∈ input, Ends c) →
    ∃ c cs, input = typed input ++ c :: cs ∧ Ends c
  | [], h => by
    obtain ⟨_, hc, -⟩ := h
    nomatch hc
  | x :: input, h => by
    by_cases hx : Ends x
    · refine ⟨x, input, ?_, hx⟩
      simp [typed, hx]
    · obtain ⟨c, hc, he⟩ := h
      have hc' : c ∈ input := (List.mem_cons.mp hc).resolve_left fun hcx => hx (hcx ▸ he)
      obtain ⟨d, cs, hin, hd⟩ := typed_append ⟨c, hc', he⟩
      refine ⟨d, cs, ?_, hd⟩
      simpa [typed, hx] using hin

theorem not_ends_typed {input : List Byte} : ∀ x ∈ typed input, ¬ Ends x := fun x hx =>
  of_decide_eq_true (List.all_eq_true.mp List.all_takeWhile x hx)

theorem Fresh.echoed {s : Crt} (h : Fresh s) : Echoed s s 0 s.pos.toNat [] :=
  ⟨⟨rfl, h.pos.le, fun _ _ => rfl, fun _ hj => absurd hj (Nat.not_lt_zero _), h.blank⟩, rfl, h.pos⟩

/-- What a call does, with the line that the code keeps. -/
theorem readline_keeps (prompt : Option (List Byte)) (buf : Nat → Byte) {input : List Byte}
    (h : ∃ c ∈ input, Ends c) :
    ∃ t, readline prompt buf (chars input) = some (.buf, t) ∧ (∀ j ∈ t.writes, j < buflen) ∧
      Holds t.buf ((typed input).foldl keep []) ∧
      ∃ e, t.echo = (prompt.getD []).map BitVec.toInt ++ e ∧ ∀ s, Fresh s → ∃ up start,
        Displays s (s.putcs (e.map (BitVec.ofInt 32))) up start ((typed input).foldl keep []) := by
  obtain ⟨c, cs, hin, hc⟩ := typed_append h
  have hstart : Keeps ⟨buf, 0, (prompt.getD []).map BitVec.toInt, []⟩ [] :=
    ⟨rfl, Nat.zero_le _, fun _ hj => absurd hj (Nat.not_lt_zero _),
      fun _ hj => absurd hj List.not_mem_nil⟩
  obtain ⟨t, e, hrun, hholds, hw, he, hshow⟩ := hstart.finish not_ends_typed hc cs
  rw [← hin] at hrun
  exact ⟨t, hrun, hw, hholds, e, he, fun s hs => hshow s s _ _ hs.echoed⟩

theorem Holds.unique {k' : List Byte} (h : Holds buf k) (h' : Holds buf k')
    (hk : ∀ x ∈ k, 0x20 ≤ x.toNat) (hk' : ∀ x ∈ k', 0x20 ≤ x.toNat) : k = k' := by
  have hlt : ∀ {k k' : List Byte}, Holds buf k → Holds buf k' → (∀ x ∈ k', 0x20 ≤ x.toNat) →
      k'.length ≤ k.length := by
    intro k k' h h' hk'
    by_contra hlen
    have hx := hk' _ (List.getElem_mem (Nat.lt_of_not_le hlen))
    rw [← h'.char, h.nul] at hx
    exact absurd hx (by decide)
  refine List.ext_getElem (le_antisymm (hlt h' h hk) (hlt h h' hk')) fun j hj hj' => ?_
  rw [← h.char j hj, h'.char j hj']

theorem edits_iff_keep (prompt : Option (List Byte)) (buf : Nat → Byte) {input : List Byte}
    (h : ∃ c ∈ input, Ends c) :
    Edits prompt buf input ↔ (typed input).foldl keep [] = (typed input).foldl edit [] := by
  obtain ⟨t, hrun, hw, hholds, he⟩ := readline_keeps prompt buf h
  constructor
  · rintro ⟨t', hrun', -, hholds', -⟩
    obtain rfl : t = t' := congrArg Prod.snd (Option.some.inj (hrun.symm.trans hrun'))
    exact hholds.unique hholds' (mem_foldl_keep _) fun x hx => (mem_foldl_edit _ x hx).1
  · intro heq
    rw [heq] at hholds he
    exact ⟨t, hrun, hw, hholds, he⟩

/-- A line is edited properly exactly if each DEL on an empty buffer is erased again. -/
theorem readline_edits_iff (prompt : Option (List Byte)) (buf : Nat → Byte) (input : List Byte)
    (h : ∃ c ∈ input, Ends c) : Edits prompt buf input ↔ Clean (typed input) := by
  rw [edits_iff_keep prompt buf h]
  exact foldl_keep_eq_iff

/-- Two characters, one of them erased. -/
theorem readline_edits_iff_erased :
    Edits none (fun _ => 0) [0x61, 0x62, 0x08, 0x0A] ↔ Clean [0x61, 0x62, 0x08] :=
  readline_edits_iff none (fun _ => 0) [0x61, 0x62, 0x08, 0x0A] ⟨0x0A, by decide, by decide⟩

/-- A DEL alone is the line that is returned. -/
theorem not_edits_del : ¬ ∀ (prompt : Option (List Byte)) (buf : Nat → Byte) (input : List Byte),
    (∃ c ∈ input, Ends c) → Edits prompt buf input := by
  intro h
  have hend : ∃ c ∈ ([0x7F, 0x0A] : List Byte), Ends c := ⟨0x0A, by decide, by decide⟩
  have hkeep := (edits_iff_keep none (fun _ => 0) hend).mp (h none _ _ hend)
  exact absurd hkeep (by decide)

end

end Readline

end Jos
