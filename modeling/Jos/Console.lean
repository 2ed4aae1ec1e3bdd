import Jos.Mmu
import Mathlib.Data.List.Range

/-!
  The console input buffer (`cons_intr` and `cons_getc` in `kern/console.c`).

  The ring is empty when `rpos = wpos`, and nothing tests whether it is full. A character that
  arrives while `CONSBUFSIZE - 1` are waiting makes it look empty, so all of them are lost, although
  they are still stored. -/

namespace Jos

namespace Console

def consbufsize : Nat := 512

/-- `struct cons`. -/
structure Cons where
  buf : Nat → Byte
  rpos : Nat
  wpos : Nat

def Cons.init : Cons := ⟨fun _ => 0, 0, 0⟩

/-- The body of the loop of `cons_intr`, for a character. -/
def Cons.put (t : Cons) (c : Byte) : Cons :=
  { t with buf := Function.update t.buf t.wpos c
           wpos := if t.wpos + 1 = consbufsize then 0 else t.wpos + 1 }

/-- `cons_intr`, where `proc` returns the characters `cs` before it returns -1. -/
def consIntr (t : Cons) (cs : List Byte) : Cons :=
  cs.foldl (fun t c => if c = 0 then t else t.put c) t

/-- The end of `cons_getc`: the next character from the buffer. -/
def Cons.grab (t : Cons) : Byte × Cons :=
  if t.rpos ≠ t.wpos then
    (t.buf t.rpos, { t with rpos := if t.rpos + 1 = consbufsize then 0 else t.rpos + 1 })
  else (0, t)

/-- `cons_getc`, when polling yields the characters `serial` and `kbd`. -/
def consGetc (t : Cons) (serial kbd : List Byte) : Byte × Cons :=
  (consIntr (consIntr t serial) kbd).grab

/-- What happens to the console: an interrupt of one of the devices, or a call of `cons_getc`. -/
inductive Event where
  | intr (cs : List Byte)
  | getc (serial kbd : List Byte)

def Cons.step (t : Cons) : Event → Cons
  | .intr cs => consIntr t cs
  | .getc serial kbd => (consGetc t serial kbd).2

/-- The buffer has no room: one more character and it looks empty. -/
def Cons.Full (t : Cons) : Prop := (t.wpos + 1) % consbufsize = t.rpos

/-- What is waiting between `rpos` and `wpos`. -/
def Cons.contents (t : Cons) : List Byte :=
  (List.range ((t.wpos + consbufsize - t.rpos) % consbufsize)).map
    fun i => t.buf ((t.rpos + i) % consbufsize)

/-! ### The history of the console -/

/-- The console and its history: the characters received, the number of the one in each slot, the
    numbers of those that `cons_getc` returned, and all that it returned. -/
structure Hist where
  cons : Cons
  received : List Byte
  tag : Nat → Option Nat
  fetched : List Nat
  answers : List Byte

def Hist.init : Hist := ⟨.init, [], fun _ => none, [], []⟩

/-- A device hands over a byte, or `cons_getc` looks into the buffer. -/
inductive Moment where
  | char (c : Byte)
  | grab

def Hist.put (h : Hist) (c : Byte) : Hist :=
  { h with cons := h.cons.put c
           received := h.received ++ [c]
           tag := Function.update h.tag h.cons.wpos (some h.received.length) }

def Hist.grab (h : Hist) : Hist :=
  { h with cons := h.cons.grab.2
           fetched := h.fetched ++
             if h.cons.rpos ≠ h.cons.wpos then (h.tag h.cons.rpos).toList else []
           answers := h.answers ++ [h.cons.grab.1] }

def Hist.step (h : Hist) : Moment → Hist
  | .char c => if c = 0 then h else h.put c
  | .grab => h.grab

def after (l : List Moment) : Hist := l.foldl Hist.step .init

def Event.moments : Event → List Moment
  | .intr cs => cs.map .char
  | .getc serial kbd => (serial ++ kbd).map .char ++ [.grab]

def moments (es : List Event) : List Moment := es.flatMap Event.moments

/-- The characters that were returned. -/
def Hist.returned (h : Hist) : List Byte := h.answers.filter (· ≠ 0)

/-- A received character stands in the buffer and was not returned. -/
def Hist.StoredUnread (h : Hist) : Prop :=
  ∃ i < consbufsize, ∃ k, h.tag i = some k ∧ k ∉ h.fetched

/-- `P` holds whenever a character is stored. -/
def Along (P : Hist → Prop) (l : List Moment) : Prop :=
  ∀ pre c post, l = pre ++ .char c :: post → c ≠ 0 → P (after pre)

/-- Fewer than `CONSBUFSIZE - 1` of the received characters were not returned yet. -/
def Hist.Spare (h : Hist) : Prop := h.received.length - h.returned.length < consbufsize - 1

theorem after_append (l : List Moment) (m : Moment) : after (l ++ [m]) = (after l).step m := by
  rw [after, List.foldl_append]
  rfl

theorem Along.init {P : Hist → Prop} {l : List Moment} {m : Moment} (h : Along P (l ++ [m])) :
    Along P l := by
  intro pre c post hl hc
  exact h pre c (post ++ [m]) (by rw [hl, List.append_assoc, List.cons_append]) hc

theorem Along.last {P : Hist → Prop} {l : List Moment} {c : Byte} (h : Along P (l ++ [.char c]))
    (hc : c ≠ 0) : P (after l) :=
  h l c [] rfl hc

/-- The history does not change what the console does. -/
theorem foldl_chars (cs : List Byte) : ∀ h : Hist,
    ((cs.map Moment.char).foldl Hist.step h).cons = consIntr h.cons cs := by
  induction cs with
  | nil => intro h; rfl
  | cons c cs ih =>
    intro h
    rw [List.map_cons, List.foldl_cons, ih, consIntr, consIntr, List.foldl_cons]
    congr 1
    rw [Hist.step]
    split <;> rfl

theorem foldl_event (e : Event) (h : Hist) :
    (e.moments.foldl Hist.step h).cons = h.cons.step e := by
  rcases e with cs | ⟨serial, kbd⟩
  · exact foldl_chars cs h
  · have h1 : consIntr h.cons (serial ++ kbd) = consIntr (consIntr h.cons serial) kbd :=
      List.foldl_append
    rw [Event.moments, List.foldl_append, Cons.step, consGetc, ← h1, ← foldl_chars]
    rfl

theorem foldl_moments (es : List Event) : ∀ h : Hist,
    ((moments es).foldl Hist.step h).cons = es.foldl Cons.step h.cons := by
  induction es with
  | nil => intro h; rfl
  | cons e es ih =>
    intro h
    rw [moments, List.flatMap_cons, List.foldl_append, List.foldl_cons, ← foldl_event e h]
    exact ih _

theorem chars_answers (cs : List Byte) : ∀ h : Hist,
    ((cs.map Moment.char).foldl Hist.step h).answers = h.answers := by
  induction cs with
  | nil => intro h; rfl
  | cons c cs ih =>
    intro h
    rw [List.map_cons, List.foldl_cons, ih, Hist.step]
    split <;> rfl

/-- What a call of `cons_getc` returns is what is noted. -/
theorem answers_getc (es : List Event) (serial kbd : List Byte) :
    (after (moments (es ++ [.getc serial kbd]))).answers = (after (moments es)).answers ++
      [(consGetc (es.foldl Cons.step .init) serial kbd).1] := by
  have h1 : moments (es ++ [.getc serial kbd]) =
      moments es ++ (serial ++ kbd).map Moment.char ++ [.grab] := by
    rw [moments, List.flatMap_append, List.flatMap_singleton, Event.moments, List.append_assoc]
    rfl
  have hcons : (after (moments es)).cons = es.foldl Cons.step .init := foldl_moments es _
  have h2 : consIntr (es.foldl Cons.step .init) (serial ++ kbd) =
      consIntr (consIntr (es.foldl Cons.step .init) serial) kbd := List.foldl_append
  rw [h1, after_append, consGetc, ← h2, ← hcons, ← foldl_chars, after, List.foldl_append]
  show _ ++ [_] = _
  rw [chars_answers]
  rfl

/-! ### The ring as the end of what was received -/

/-- The characters from number `r` on are waiting, and fewer than `r` were returned, in order. -/
structure Inv (h : Hist) (r : Nat) : Prop where
  start : r ≤ h.received.length
  short : h.received.length - r < consbufsize
  rpos : h.cons.rpos = r % consbufsize
  wpos : h.cons.wpos = h.received.length % consbufsize
  stored : ∀ k, k < h.received.length → h.received.length ≤ k + consbufsize →
    h.received[k]? = some (h.cons.buf (k % consbufsize)) ∧ h.tag (k % consbufsize) = some k
  tags : ∀ i k, h.tag i = some k → k < h.received.length
  chars : ∀ c ∈ h.received, c ≠ 0
  below : ∀ k ∈ h.fetched, k < r
  order : h.returned.Sublist (h.received.take r)

variable {h : Hist} {r : Nat}

@[simp] theorem put_received (h : Hist) (c : Byte) : (h.put c).received = h.received ++ [c] := rfl

@[simp] theorem put_returned (h : Hist) (c : Byte) : (h.put c).returned = h.returned := rfl

@[simp] theorem put_tag (h : Hist) (c : Byte) :
    (h.put c).tag = Function.update h.tag h.cons.wpos (some h.received.length) := rfl

@[simp] theorem put_buf (h : Hist) (c : Byte) :
    (h.put c).cons.buf = Function.update h.cons.buf h.cons.wpos c := rfl

@[simp] theorem put_rpos (h : Hist) (c : Byte) : (h.put c).cons.rpos = h.cons.rpos := rfl

@[simp] theorem put_wpos (h : Hist) (c : Byte) :
    (h.put c).cons.wpos = if h.cons.wpos + 1 = consbufsize then 0 else h.cons.wpos + 1 := rfl

theorem next_mod (k : Nat) : (if k % 512 + 1 = 512 then 0 else k % 512 + 1) = (k + 1) % 512 := by
  split <;> omega

/-- A character arrives: it waits too, or all are lost. -/
theorem Inv.put (hi : Inv h r) {c : Byte} (hc : c ≠ 0) :
    Inv (h.put c) (if h.received.length - r < consbufsize - 1 then r else h.received.length + 1) := by
  have hlen : (h.put c).received.length = h.received.length + 1 := List.length_append
  have hs := hi.start
  have hsh := hi.short
  have hr := hi.rpos
  unfold consbufsize at hsh hr
  refine { start := ?_, short := ?_, rpos := ?_, wpos := ?_, stored := ?_, tags := ?_,
           chars := ?_, below := ?_, order := ?_ }
  · rw [hlen]
    split <;> omega
  · rw [hlen]
    unfold consbufsize
    split <;> omega
  · rw [put_rpos, hi.rpos]
    unfold consbufsize
    split <;> omega
  · rw [hlen, put_wpos, hi.wpos]
    exact next_mod _
  · intro k hk hw
    rw [hlen] at hk hw
    rcases Nat.lt_succ_iff_lt_or_eq.mp hk with hlt | rfl
    · have hne : k % consbufsize ≠ h.cons.wpos := by
        rw [hi.wpos]
        unfold consbufsize at hw ⊢
        omega
      obtain ⟨h1, h2⟩ := hi.stored k hlt (by omega)
      rw [put_buf, put_tag, put_received, Function.update_of_ne hne, Function.update_of_ne hne,
        List.getElem?_append_left hlt]
      exact ⟨h1, h2⟩
    · rw [put_buf, put_tag, put_received, ← hi.wpos, Function.update_self, Function.update_self,
        List.getElem?_concat_length]
      exact ⟨rfl, rfl⟩
  · intro i k hk
    rw [hlen]
    rcases eq_or_ne i h.cons.wpos with rfl | hne
    · rw [put_tag, Function.update_self, Option.some_inj] at hk
      exact hk ▸ Nat.lt_succ_self _
    · rw [put_tag, Function.update_of_ne hne] at hk
      exact Nat.lt_succ_of_lt (hi.tags i k hk)
  · intro b hb
    rcases List.mem_append.mp hb with hb | hb
    · exact hi.chars b hb
    · rwa [List.mem_singleton.mp hb]
  · intro k hk
    have := hi.below k hk
    split <;> omega
  · rw [put_returned, put_received]
    have hle : (h.received ++ [c]).take r = h.received.take r := List.take_append_of_le_length hs
    refine (hle ▸ hi.order).trans (List.take_prefix_take_left ?_).sublist
    split <;> omega

/-- `cons_getc` finds the buffer empty. -/
theorem Inv.grab_of_eq (hi : Inv h r) (hr : r = h.received.length) :
    h.grab = { h with answers := h.answers ++ [0] } := by
  have he : ¬ h.cons.rpos ≠ h.cons.wpos := by rw [hi.rpos, hi.wpos, hr]; exact not_not.2 rfl
  have hg : h.cons.grab = (0, h.cons) := if_neg he
  rw [Hist.grab, hg, if_neg he, List.append_nil]

/-- `cons_getc` returns the character that waits longest. -/
theorem Inv.grab_of_lt (hi : Inv h r) (hr : r < h.received.length) :
    h.grab = { h with
      cons := { h.cons with
        rpos := if h.cons.rpos + 1 = consbufsize then 0 else h.cons.rpos + 1 }
      fetched := h.fetched ++ [r]
      answers := h.answers ++ [h.received[r]] } := by
  have hsh := hi.short
  have hne : h.cons.rpos ≠ h.cons.wpos := by
    rw [hi.rpos, hi.wpos]
    unfold consbufsize at hsh ⊢
    omega
  obtain ⟨hb, ht⟩ := hi.stored r hr (by omega)
  rw [← hi.rpos] at hb ht
  rw [List.getElem?_eq_getElem hr, Option.some_inj] at hb
  rw [Hist.grab, Cons.grab, if_pos hne, if_pos hne, ht, hb]
  rfl

theorem returned_of_eq (hi : Inv h r) (hr : r = h.received.length) :
    h.grab.returned = h.returned := by
  rw [hi.grab_of_eq hr, Hist.returned, List.filter_append]
  exact List.append_nil _

theorem returned_of_lt (hi : Inv h r) (hr : r < h.received.length) :
    h.grab.returned = h.returned ++ [h.received[r]] := by
  have hnz : h.received[r] ≠ 0 := hi.chars _ (List.getElem_mem hr)
  rw [hi.grab_of_lt hr, Hist.returned, List.filter_append,
    List.filter_cons_of_pos (by simpa using hnz)]
  rfl

theorem Inv.grab_empty (hi : Inv h r) (hr : r = h.received.length) : Inv h.grab r := by
  have hret := returned_of_eq hi hr
  rw [hi.grab_of_eq hr] at hret ⊢
  exact { hi with order := hret ▸ hi.order }

theorem Inv.grab_next (hi : Inv h r) (hr : r < h.received.length) : Inv h.grab (r + 1) := by
  have hret := returned_of_lt hi hr
  have hsh := hi.short
  rw [hi.grab_of_lt hr] at hret ⊢
  refine { hi with start := hr, short := ?_, rpos := ?_, below := ?_, order := ?_ }
  · show h.received.length - (r + 1) < consbufsize
    omega
  · show (if h.cons.rpos + 1 = consbufsize then 0 else h.cons.rpos + 1) = (r + 1) % consbufsize
    rw [hi.rpos]
    exact next_mod r
  · intro k hk
    rcases List.mem_append.mp hk with hk | hk
    · exact Nat.lt_succ_of_lt (hi.below k hk)
    · rw [List.mem_singleton.mp hk]
      exact Nat.lt_succ_self r
  · rw [hret]
    show (h.returned ++ [h.received[r]]).Sublist (h.received.take (r + 1))
    rw [List.take_succ_eq_append_getElem hr]
    exact hi.order.append_right _

/-- Every run. -/
theorem inv_after (l : List Moment) : ∃ r, Inv (after l) r := by
  induction l using List.reverseRecOn with
  | nil =>
    exact ⟨0, { start := le_rfl, short := Nat.succ_pos _, rpos := rfl, wpos := rfl,
                stored := fun k hk => absurd hk (Nat.not_lt_zero k)
                tags := fun _ _ hk => nomatch hk
                chars := fun c hc => absurd hc List.not_mem_nil
                below := fun k hk => absurd hk List.not_mem_nil
                order := List.nil_sublist _ }⟩
  | append_singleton l m ih =>
    obtain ⟨r, hi⟩ := ih
    rw [after_append]
    rcases m with c | _
    · rcases eq_or_ne c 0 with hc | hc
      · exact ⟨r, by rwa [Hist.step, if_pos hc]⟩
      · exact ⟨_, by rw [Hist.step, if_neg hc]; exact hi.put hc⟩
    · rcases hi.start.eq_or_lt with hr | hr
      · exact ⟨r, hi.grab_empty hr⟩
      · exact ⟨r + 1, hi.grab_next hr⟩

/-- The buffer holds what waits. -/
theorem Inv.contents (hi : Inv h r) : h.cons.contents = h.received.drop r := by
  have hs := hi.start
  have hsh := hi.short
  unfold consbufsize at hsh
  have hn : (h.cons.wpos + consbufsize - h.cons.rpos) % consbufsize = h.received.length - r := by
    rw [hi.wpos, hi.rpos]
    unfold consbufsize
    omega
  apply List.ext_getElem?
  intro i
  rw [Cons.contents, hn, List.getElem?_map, List.getElem?_drop]
  rcases Nat.lt_or_ge i (h.received.length - r) with hlt | hge
  · have hmod : (h.cons.rpos + i) % consbufsize = (r + i) % consbufsize := by
      rw [hi.rpos, Nat.mod_add_mod]
    rw [List.getElem?_range hlt, Option.map_some, hmod]
    exact (hi.stored (r + i) (by omega) (by unfold consbufsize; omega)).1.symm
  · rw [List.getElem?_eq_none (by simpa using hge), List.getElem?_eq_none (by omega)]
    rfl

/-- Nothing was lost: what was returned is the beginning of what was received. -/
structure Calm (h : Hist) (r : Nat) : Prop extends Inv h r where
  all : h.fetched = List.range r
  same : h.returned = h.received.take r

/-- As long as every character finds room, nothing is lost. -/
theorem calm_after {P : Hist → Prop}
    (hP : ∀ h r, Calm h r → P h → h.received.length - r < consbufsize - 1) :
    ∀ l, Along P l → ∃ r, Calm (after l) r := by
  intro l
  induction l using List.reverseRecOn with
  | nil =>
    intro _
    obtain ⟨r, hi⟩ := inv_after []
    have hr : r = 0 := Nat.le_zero.mp hi.start
    subst hr
    exact ⟨0, hi, rfl, rfl⟩
  | append_singleton l m ih =>
    intro hl
    obtain ⟨r, hi⟩ := ih hl.init
    rw [after_append]
    rcases m with c | _
    · rcases eq_or_ne c 0 with hc | hc
      · exact ⟨r, by rwa [Hist.step, if_pos hc]⟩
      · rcases hl with hl
        have hput := hi.put hc
        rw [if_pos (hP _ r hi (hl.last hc))] at hput
        rw [Hist.step, if_neg hc]
        exact ⟨r, hput, hi.all,
          hi.same.trans (List.take_append_of_le_length hi.start).symm⟩
    · rcases hi.start.eq_or_lt with hr | hr
      · refine ⟨r, hi.grab_empty hr, ?_, ?_⟩
        · rw [Hist.step, hi.grab_of_eq hr]
          exact hi.all
        · rw [Hist.step, returned_of_eq hi.toInv hr, hi.grab_of_eq hr]
          exact hi.same
      · refine ⟨r + 1, hi.grab_next hr, ?_, ?_⟩
        · rw [Hist.step, hi.grab_of_lt hr, List.range_succ, ← hi.all]
        · rw [Hist.step, returned_of_lt hi.toInv hr, hi.grab_of_lt hr, hi.same,
            List.take_succ_eq_append_getElem hr]

/-- A ring with room. -/
theorem Inv.not_full (hi : Inv h r) (hf : ¬ h.cons.Full) :
    h.received.length - r < consbufsize - 1 := by
  have hs := hi.start
  have hsh := hi.short
  rw [Cons.Full, hi.rpos, hi.wpos] at hf
  unfold consbufsize at hsh hf ⊢
  omega

theorem Calm.spare (hi : Calm h r) (hs : h.Spare) : h.received.length - r < consbufsize - 1 := by
  rw [Hist.Spare, hi.same, List.length_take, Nat.min_eq_left hi.start] at hs
  exact hs

/-- A buffer that `cons_getc` finds empty, when nothing was lost: nothing unread is stored. -/
theorem Calm.none_unread (hi : Calm h r) (h0 : h.grab.answers.getLast? = some 0) :
    ¬ h.grab.StoredUnread := by
  rcases hi.start.eq_or_lt with hr | hr
  · rw [hi.grab_of_eq hr]
    rintro ⟨i, _, k, ht, hk⟩
    have hlt : k < h.received.length := hi.tags i k ht
    rw [← hr] at hlt
    exact hk (hi.all ▸ List.mem_range.mpr hlt)
  · rw [hi.grab_of_lt hr, List.getLast?_concat, Option.some_inj] at h0
    exact absurd h0 (hi.chars _ (List.getElem_mem hr))

/-- One more character in a ring without room: it looks empty, although it is full. -/
theorem Inv.overrun (hi : Inv h r) (hf : h.cons.Full) {c : Byte} (hc : c ≠ 0) :
    (h.put c).grab.answers.getLast? = some 0 ∧ (h.put c).grab.StoredUnread := by
  have hput := hi.put hc
  have hfull : ¬ h.received.length - r < consbufsize - 1 := by
    rw [Cons.Full, hi.rpos, hi.wpos] at hf
    have hsh := hi.short
    have hs := hi.start
    unfold consbufsize at hf hsh ⊢
    omega
  rw [if_neg hfull] at hput
  have hlen : h.received.length + 1 = (h.put c).received.length := by
    rw [put_received, List.length_append]
    rfl
  rw [hput.grab_of_eq hlen]
  refine ⟨List.getLast?_concat, h.cons.wpos, ?_, h.received.length, ?_, fun hk => ?_⟩
  · rw [hi.wpos]
    exact Nat.mod_lt _ (by decide)
  · exact Function.update_self _ _ _
  · have := hi.below _ hk
    have := hi.start
    omega

/-- The buffer is a queue. Its positions stay in range, and what `cons_getc` returns comes in order.
    Nothing is lost while at most `CONSBUFSIZE - 1` characters are unread, and as long as no character
    arrives at a full ring, 0 means that nothing unread is stored. The first one that does breaks
    that at the next call. -/
theorem console_fifo (es : List Event) :
    (after (moments es)).cons = es.foldl Cons.step .init ∧
    (∀ serial kbd, (after (moments (es ++ [.getc serial kbd]))).answers =
      (after (moments es)).answers ++ [(consGetc (es.foldl Cons.step .init) serial kbd).1]) ∧
    ∀ l, l <+: moments es →
      ((after l).cons.rpos < consbufsize ∧ (after l).cons.wpos < consbufsize) ∧
      (after l).returned.Sublist (after l).received ∧
      (Along Hist.Spare l → (after l).received = (after l).returned ++ (after l).cons.contents) ∧
      (Along (fun h => ¬ h.cons.Full) l → ∀ l', l = l' ++ [.grab] →
        (after l).answers.getLast? = some 0 → ¬ (after l).StoredUnread) ∧
      (∀ l' c, l = l' ++ [.char c, .grab] → c ≠ 0 → (after l').cons.Full →
        (after l).answers.getLast? = some 0 ∧ (after l).StoredUnread) := by
  refine ⟨foldl_moments es _, answers_getc es, fun l _ => ?_⟩
  obtain ⟨r, hi⟩ := inv_after l
  refine ⟨⟨?_, ?_⟩, hi.order.trans (List.take_sublist _ _), ?_, ?_, ?_⟩
  · rw [hi.rpos]
    exact Nat.mod_lt _ (by decide)
  · rw [hi.wpos]
    exact Nat.mod_lt _ (by decide)
  · intro hl
    obtain ⟨q, hq⟩ := calm_after (fun _ _ hi hs => hi.spare hs) l hl
    rw [hq.contents, hq.same, List.take_append_drop]
  · rintro hl l' rfl
    obtain ⟨q, hq⟩ := calm_after (fun _ _ hi hf => hi.not_full hf) l' hl.init
    rw [after_append]
    exact hq.none_unread
  · rintro l' c rfl hc hf
    obtain ⟨q, hq⟩ := inv_after l'
    have hsplit : l' ++ [.char c, .grab] = (l' ++ [.char c]) ++ [.grab] := by
      rw [List.append_assoc]
      rfl
    rw [hsplit, after_append, after_append, Hist.step, Hist.step, if_neg hc]
    exact hq.overrun hf hc

/-- The first characters, before any call. -/
theorem typed : ∀ n, n ≤ 511 → Inv (after (List.replicate n (.char 0x61))) 0 ∧
    (after (List.replicate n (.char 0x61))).received.length = n
  | 0, _ => by
    obtain ⟨r, hi⟩ := inv_after []
    have hr : r = 0 := Nat.le_zero.mp hi.start
    subst hr
    exact ⟨hi, rfl⟩
  | n + 1, hn => by
    obtain ⟨hi, hlen⟩ := typed n (by omega)
    have hput := hi.put (c := 0x61) (by decide)
    rw [hlen, if_pos (by unfold consbufsize; omega)] at hput
    rw [List.replicate_succ', after_append, Hist.step, if_neg (by decide)]
    exact ⟨hput, by rw [put_received, List.length_append, hlen]; rfl⟩

/-- 512 characters arrive before the first call. -/
theorem buffer_looks_empty : ¬ ∀ (es : List Event) (l : List Moment), l ++ [.grab] <+: moments es →
    (after (l ++ [.grab])).answers.getLast? = some 0 → ¬ (after (l ++ [.grab])).StoredUnread := by
  intro hclaim
  obtain ⟨hi, hlen⟩ := typed 511 le_rfl
  have hfull : (after (List.replicate 511 (.char 0x61))).cons.Full := by
    rw [Cons.Full, hi.rpos, hi.wpos, hlen]
    rfl
  have hput : after (List.replicate 512 (.char 0x61)) =
      (after (List.replicate 511 (.char 0x61))).put 0x61 := by
    rw [List.replicate_succ', after_append]
    rfl
  obtain ⟨h0, hs⟩ := hi.overrun hfull (c := 0x61) (by decide)
  refine hclaim [.intr (List.replicate 512 0x61), .getc [] []] (List.replicate 512 (.char 0x61))
    ?_ ?_ ?_
  · rw [moments, List.flatMap_cons, Event.moments, List.map_replicate]
    exact List.prefix_rfl
  · rw [after_append, hput]
    exact h0
  · rw [after_append, hput]
    exact hs

end Console

end Jos
