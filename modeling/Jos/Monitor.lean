import Jos.Readline

/-!
  The command line of the monitor (`runcmd` in `kern/monitor.c`).

  The line is cut up in place: white space is overwritten with NULs, and `argv` points into the line.
  A literal is the list of its characters without the NUL. `argv` is on the stack, away from the line. -/

namespace Jos

namespace Monitor

def maxargs : Nat := 16

/-- `WHITESPACE`. -/
def whitespace : List Byte := [0x09, 0x0D, 0x0A, 0x20]

/-- The functions of the commands. -/
inductive Func where
  | monHelp
  | monKerninfo
  deriving DecidableEq

structure Command where
  name : List Byte
  func : Func

/-- `help` and `kerninfo`. -/
def commands : List Command :=
  [⟨[0x68, 0x65, 0x6C, 0x70], .monHelp⟩,
   ⟨[0x6B, 0x65, 0x72, 0x6E, 0x69, 0x6E, 0x66, 0x6F], .monKerninfo⟩]

/-- `strchr` on a literal: the index of the character. The NUL at the end is not found. -/
def strchr : List Byte → Byte → Option Nat
  | [], _ => none
  | d :: s, c => if d = c then some 0 else (strchr s c).map (· + 1)

/-- `strcmp` of the string at `p` and a literal. -/
def strcmp (mem : Nat → Byte) : Nat → List Byte → Int
  | p, [] => (mem p).toNat
  | p, c :: q =>
    if mem p ≠ 0 ∧ mem p = c then strcmp mem (p + 1) q else (mem p).toNat - c.toNat

/-- The local variables of `runcmd`, the addresses written so far and the indices of `argv` written
    so far. -/
structure Parse where
  mem : Nat → Byte
  buf : Nat
  argc : Nat
  argv : Nat → Nat
  writes : List Nat
  stores : List Nat

/-- `*buf++ = 0`. -/
def Parse.cut (s : Parse) : Parse :=
  { s with mem := Function.update s.mem s.buf 0, buf := s.buf + 1, writes := s.writes ++ [s.buf] }

/-- `argv[argc] = p`. -/
def Parse.setArg (s : Parse) (p : Nat) : Parse :=
  { s with argv := Function.update s.argv s.argc p, stores := s.stores ++ [s.argc] }

def gobble : Nat → Parse → Option Parse
  | 0, _ => none
  | n + 1, s =>
    if s.mem s.buf ≠ 0 ∧ (strchr whitespace (s.mem s.buf)).isSome then gobble n s.cut else some s

def scan : Nat → Parse → Option Parse
  | 0, _ => none
  | n + 1, s =>
    if s.mem s.buf ≠ 0 ∧ ¬ (strchr whitespace (s.mem s.buf)).isSome then
      scan n { s with buf := s.buf + 1 }
    else some s

/-- The loop of `runcmd`: whether it ends at the end of the line, and not for too many arguments. -/
def parse : Nat → Parse → Option (Bool × Parse)
  | 0, _ => none
  | n + 1, s => do
    let s ← gobble n s
    if s.mem s.buf = 0 then return (true, s)
    if s.argc = maxargs - 1 then return (false, s)
    let s := s.setArg s.buf
    let s ← scan n { s with argc := s.argc + 1 }
    parse n s

/-- How `runcmd` ends: for an empty line, with one of its two messages, or with a call. -/
inductive Outcome where
  | nothing
  | tooMany (max : Nat)
  | unknown (name : Nat)
  | call (func : Func) (argc : Nat) (argv : Nat → Nat)

/-- `runcmd`, with what is on the stack in the place of `argv`. -/
def runcmd (fuel : Nat) (mem : Nat → Byte) (argv : Nat → Nat) (buf : Nat) :
    Option (Outcome × Parse) := do
  let s : Parse := ⟨mem, buf, 0, argv, [], []⟩
  let (all, s) ← parse fuel (s.setArg 0)
  if ¬ all then return (.tooMany maxargs, s)
  let s := s.setArg 0
  if s.argc = 0 then return (.nothing, s)
  match commands.find? fun c => strcmp s.mem (s.argv 0) c.name = 0 with
  | some c => return (.call c.func s.argc s.argv, s)
  | none => return (.unknown (s.argv 0), s)

/-! ### What a command should get -/

/-- Tab, CR, LF or space. -/
def Space (c : Byte) : Prop := c = 0x09 ∨ c = 0x0D ∨ c = 0x0A ∨ c = 0x20

instance (c : Byte) : Decidable (Space c) := inferInstanceAs (Decidable (_ ∨ _))

/-- The maximal runs of characters that are no white space. -/
def words (l : List Byte) : List (List Byte) := (l.splitOnP fun c => Space c).filter (· ≠ [])

/-- The string at an address. -/
def StrAt (mem : Nat → Byte) : Nat → List Byte → Prop
  | p, [] => mem p = 0
  | p, c :: s => mem p = c ∧ StrAt mem (p + 1) s

/-- `argv` is a line of words, with a null pointer behind them. -/
structure Args (s : Parse) (ws : List (List Byte)) : Prop where
  argc : s.argc = ws.length
  argv : ∀ k (h : k < ws.length), StrAt s.mem (s.argv k) ws[k]
  null : s.argv s.argc = 0

/-- The first word names the command. -/
def dispatch (s : Parse) : List (List Byte) → Outcome
  | [] => .nothing
  | w :: _ =>
    match commands.find? fun c => c.name = w with
    | some c => .call c.func s.argc s.argv
    | none => .unknown (s.argv 0)

/-- What `runcmd` does with the line at `buf`. -/
structure Splits (mem : Nat → Byte) (buf : Nat) (line : List Byte) (o : Outcome) (s : Parse) :
    Prop where
  writes : ∀ a ∈ s.writes, buf ≤ a ∧ a < buf + line.length
  mem : ∀ a, ¬ (buf ≤ a ∧ a < buf + line.length) → s.mem a = mem a
  stores : ∀ k ∈ s.stores, k < maxargs
  few : (words line).length ≤ maxargs - 1 → Args s (words line) ∧ o = dispatch s (words line)
  many : maxargs - 1 < (words line).length → o = .tooMany maxargs

/-- A line without the white space at its start. -/
def skip (l : List Byte) : List Byte := l.dropWhile fun c => Space c

/-- The characters up to the next white space, and the rest of the line. -/
def word (l : List Byte) : List Byte := l.takeWhile fun c => ¬ Space c
def rest (l : List Byte) : List Byte := l.dropWhile fun c => ¬ Space c

section

variable {mem mem' : Nat → Byte} {c : Byte} {l w : List Byte} {n p : Nat} {s : Parse}

/-! ### Words -/

theorem skip_cons_of_space (h : Space c) : skip (c :: l) = skip l := by simp [skip, h]

theorem skip_cons (h : ¬ Space c) : skip (c :: l) = c :: l := by simp [skip, h]

theorem word_cons_of_space (h : Space c) : word (c :: l) = [] := by simp [word, h]

theorem word_cons (h : ¬ Space c) : word (c :: l) = c :: word l := by simp [word, h]

theorem rest_cons_of_space (h : Space c) : rest (c :: l) = c :: l := by simp [rest, h]

theorem rest_cons (h : ¬ Space c) : rest (c :: l) = rest l := by simp [rest, h]

theorem word_append_rest (l : List Byte) : word l ++ rest l = l := List.takeWhile_append_dropWhile

theorem not_space_word : ∀ x ∈ word l, decide (Space x) = false := fun x hx =>
  decide_eq_false (of_decide_eq_true (List.all_eq_true.mp List.all_takeWhile x hx))

theorem head_skip : ∀ {l : List Byte}, ∀ x ∈ (skip l).head?, ¬ Space x
  | [], x, hx => nomatch hx
  | c :: l, x, hx => by
    by_cases h : Space c
    · rw [skip_cons_of_space h] at hx
      exact head_skip x hx
    · rw [skip_cons h] at hx
      obtain rfl := Option.some.inj hx
      exact h

theorem head_rest : ∀ {l : List Byte}, ∀ x ∈ (rest l).head?, Space x
  | [], x, hx => nomatch hx
  | c :: l, x, hx => by
    by_cases h : Space c
    · rw [rest_cons_of_space h] at hx
      obtain rfl := Option.some.inj hx
      exact h
    · rw [rest_cons h] at hx
      exact head_rest x hx

theorem words_space (h : Space c) : words (c :: l) = words l := by
  unfold words
  rw [List.splitOnP_cons_eq_if_modifyHead, if_pos (decide_eq_true h),
    List.filter_cons_of_neg (by simp)]

theorem words_skip : ∀ l : List Byte, words (skip l) = words l
  | [] => rfl
  | c :: l => by
    by_cases h : Space c
    · rw [skip_cons_of_space h, words_skip l, words_space h]
    · rw [skip_cons h]

/-- The first word. -/
theorem words_cons (h : ¬ Space c) : words (c :: l) = word (c :: l) :: words (rest (c :: l)) := by
  have happ := word_append_rest (c :: l)
  have hw : ∀ x ∈ word (c :: l), decide (Space x) = false := not_space_word
  have hne : word (c :: l) ≠ [] := by
    rw [word_cons h]
    exact List.cons_ne_nil _ _
  have hhead : ∀ x ∈ (rest (c :: l)).head?, Space x := head_rest
  generalize word (c :: l) = w at happ hw hne ⊢
  generalize rest (c :: l) = r at happ hhead ⊢
  rw [← happ]
  cases r with
  | nil =>
    unfold words
    rw [List.append_nil, List.splitOnP_eq_singleton hw,
      List.filter_cons_of_pos (by simpa using hne)]
    rfl
  | cons d r =>
    have hd : Space d := hhead d rfl
    rw [words_space hd]
    unfold words
    rw [List.splitOnP_append_cons_of_forall_mem hw _ (decide_eq_true hd),
      List.filter_cons_of_pos (by simpa using hne)]

theorem sublist_of_words {ws : List (List Byte)} (h : words l = w :: ws) : w.Sublist l := by
  rw [← words_skip] at h
  cases hk : skip l with
  | nil =>
    rw [hk] at h
    exact absurd h.symm (List.cons_ne_nil _ _)
  | cons c r =>
    have hc : ¬ Space c := head_skip c (by rw [hk]; rfl)
    rw [hk, words_cons hc] at h
    obtain rfl := (List.cons.inj h).1
    exact (List.takeWhile_sublist _).trans (hk ▸ List.dropWhile_sublist _)

/-! ### Strings -/

theorem isSome_strchr : (strchr whitespace c).isSome ↔ Space c := by
  unfold whitespace Space
  simp only [strchr]
  split_ifs <;> simp_all [eq_comm]

theorem StrAt.congr : ∀ {l : List Byte} {p : Nat},
    (∀ a, p ≤ a → a ≤ p + l.length → mem' a = mem a) → StrAt mem p l → StrAt mem' p l
  | [], p, h, hs => (h p le_rfl le_rfl).trans hs
  | c :: l, p, h, hs => by
    rw [List.length_cons] at h
    exact ⟨(h p le_rfl (by omega)).trans hs.1,
      StrAt.congr (fun a ha ha' => h a (by omega) (by omega)) hs.2⟩

/-- What stands in front of a NUL is a string. -/
theorem StrAt.front : ∀ {l r : List Byte} {p : Nat}, StrAt mem p (l ++ r) →
    (∀ a, p ≤ a → a < p + l.length → mem' a = mem a) → mem' (p + l.length) = 0 → StrAt mem' p l
  | [], _, _, _, _, h0 => h0
  | c :: l, r, p, hs, h, h0 => by
    rw [List.length_cons] at h h0
    refine ⟨(h p le_rfl (by omega)).trans hs.1,
      StrAt.front hs.2 (fun a ha ha' => h a (by omega) (by omega)) ?_⟩
    rw [← h0]
    congr 1
    omega

theorem strcmp_eq_zero : ∀ {q w : List Byte} {p : Nat}, StrAt mem p w → 0 ∉ w → 0 ∉ q →
    (strcmp mem p q = 0 ↔ w = q)
  | [], [], p, hs, _, _ => by
    have h0 : mem p = 0 := hs
    simp [strcmp, h0]
  | [], d :: w, p, hs, hw, _ => by
    have hd : d ≠ 0 := fun h => hw (h ▸ List.mem_cons_self ..)
    have hp : (mem p).toNat ≠ 0 := by
      rw [hs.1]
      exact fun h => hd (BitVec.eq_of_toNat_eq h)
    simp only [strcmp, reduceCtorEq, iff_false]
    omega
  | c :: q, [], p, hs, _, hq => by
    have hc : c ≠ 0 := fun h => hq (h ▸ List.mem_cons_self ..)
    have h0 : mem p = 0 := hs
    have hcn : c.toNat ≠ 0 := fun h => hc (BitVec.eq_of_toNat_eq h)
    rw [strcmp, if_neg (fun h => h.1 h0), h0]
    simp only [reduceCtorEq, iff_false]
    show ¬ ((0 : Nat) : Int) - c.toNat = 0
    omega
  | c :: q, d :: w, p, hs, hw, hq => by
    have hd : d ≠ 0 := fun h => hw (h ▸ List.mem_cons_self ..)
    rw [strcmp, hs.1]
    by_cases hcd : d = c
    · rw [if_pos ⟨hd, hcd⟩, hcd, List.cons_inj_right]
      exact strcmp_eq_zero hs.2 (fun h => hw (List.mem_cons_of_mem _ h))
        (fun h => hq (List.mem_cons_of_mem _ h))
    · have hne : (d.toNat : Int) ≠ c.toNat := fun h =>
        hcd (BitVec.eq_of_toNat_eq (Int.ofNat_inj.mp h))
      rw [if_neg fun h => hcd h.2]
      simp only [List.cons.injEq, hcd, false_and, iff_false]
      omega

/-! ### The loops -/

/-- White space is gobbled: `l` is what is left of the line before, `skip l` after it. -/
structure Gobbled (s t : Parse) (l : List Byte) : Prop where
  buf : t.buf + (skip l).length = s.buf + l.length
  line : StrAt t.mem t.buf (skip l)
  zero : ∀ a, s.buf ≤ a → a < t.buf → t.mem a = 0
  mem : ∀ a, ¬ (s.buf ≤ a ∧ a < t.buf) → t.mem a = s.mem a
  writes : ∀ a ∈ t.writes, a ∈ s.writes ∨ s.buf ≤ a ∧ a < t.buf
  argc : t.argc = s.argc
  argv : t.argv = s.argv
  stores : t.stores = s.stores

theorem length_skip_le (l : List Byte) : (skip l).length ≤ l.length :=
  (List.dropWhile_sublist _).length_le

theorem Gobbled.le {t : Parse} (h : Gobbled s t l) : s.buf ≤ t.buf := by
  have := h.buf
  have := length_skip_le l
  omega

theorem gobble_run : ∀ {l : List Byte} {s : Parse} {n : Nat}, StrAt s.mem s.buf l → 0 ∉ l →
    l.length < n → ∃ t, gobble n s = some t ∧ Gobbled s t l
  | _, _, 0, _, _, hn => absurd hn (Nat.not_lt_zero _)
  | [], s, n + 1, hs, _, _ =>
    ⟨s, if_neg fun h => h.1 hs, rfl, hs, fun a h h' => absurd h' (Nat.not_lt_of_le h), fun _ _ => rfl,
      fun _ ha => Or.inl ha, rfl, rfl, rfl⟩
  | c :: l, s, n + 1, hs, h0, hn => by
    have hc : c ≠ 0 := fun h => h0 (h ▸ List.mem_cons_self ..)
    rw [gobble, hs.1]
    by_cases h : Space c
    · have hs' : StrAt s.cut.mem s.cut.buf l :=
        StrAt.congr (fun a ha _ => Function.update_of_ne (Nat.ne_of_gt ha) _ _) hs.2
      obtain ⟨t, ht, hg⟩ := gobble_run hs' (fun h => h0 (List.mem_cons_of_mem _ h))
        (Nat.lt_of_succ_lt_succ hn)
      have hle : s.buf + 1 ≤ t.buf := hg.le
      have hbuf : t.buf + (skip l).length = s.buf + 1 + l.length := hg.buf
      have hfirst : t.mem s.buf = 0 :=
        (hg.mem s.buf fun h => absurd h.1 (Nat.not_succ_le_self _)).trans (Function.update_self _ _ _)
      have hskip : skip (c :: l) = skip l := skip_cons_of_space h
      rw [if_pos ⟨hc, isSome_strchr.mpr h⟩]
      refine ⟨t, ht, ?_, hskip ▸ hg.line, fun a ha ha' => ?_, fun a ha => ?_, fun a ha => ?_, hg.argc,
        hg.argv, hg.stores⟩
      · rw [hskip, List.length_cons]
        omega
      · rcases Nat.eq_or_lt_of_le ha with rfl | ha
        · exact hfirst
        · exact hg.zero a ha ha'
      · have hne : a ≠ s.buf := by
          rintro rfl
          exact ha ⟨le_rfl, hle⟩
        exact (hg.mem a fun h => ha ⟨Nat.le_of_succ_le h.1, h.2⟩).trans (Function.update_of_ne hne _ _)
      · rcases hg.writes a ha with ha | ha
        · rcases List.mem_append.mp ha with ha | ha
          · exact Or.inl ha
          · obtain rfl := List.mem_singleton.mp ha
            exact Or.inr ⟨le_rfl, hle⟩
        · exact Or.inr ⟨Nat.le_of_succ_le ha.1, ha.2⟩
    · have hskip : skip (c :: l) = c :: l := skip_cons h
      rw [if_neg fun hx => h (isSome_strchr.mp hx.2)]
      exact ⟨s, rfl, by rw [hskip], by rwa [hskip], fun a h h' => absurd h' (Nat.not_lt_of_le h),
        fun _ _ => rfl, fun _ ha => Or.inl ha, rfl, rfl, rfl⟩

theorem scan_run : ∀ {l : List Byte} {s : Parse} {n : Nat}, StrAt s.mem s.buf l → 0 ∉ l →
    l.length < n → scan n s = some { s with buf := s.buf + (word l).length }
  | _, _, 0, _, _, hn => absurd hn (Nat.not_lt_zero _)
  | [], s, n + 1, hs, _, _ => if_neg fun h => h.1 hs
  | c :: l, s, n + 1, hs, h0, hn => by
    have hc : c ≠ 0 := fun h => h0 (h ▸ List.mem_cons_self ..)
    rw [scan, hs.1]
    by_cases h : Space c
    · rw [if_neg fun hx => hx.2 (isSome_strchr.mpr h), word_cons_of_space h]
      rfl
    · rw [if_pos ⟨hc, fun hx => h (isSome_strchr.mp hx)⟩, word_cons h,
        scan_run (s := { s with buf := s.buf + 1 }) hs.2 (fun h => h0 (List.mem_cons_of_mem _ h))
          (Nat.lt_of_succ_lt_succ hn), List.length_cons]
      dsimp only
      rw [Nat.add_assoc, Nat.add_comm 1]

theorem StrAt.drop : ∀ {l r : List Byte} {p : Nat}, StrAt mem p (l ++ r) →
    StrAt mem (p + l.length) r
  | [], _, _, h => h
  | c :: l, r, p, h => by
    have hr := StrAt.drop h.2
    rwa [Nat.add_assoc, Nat.add_comm 1] at hr

/-- Parsing the rest `l` of a line leaves alone all that is in front of it, and the arguments so far;
    white space at its start becomes a NUL. -/
structure Parsed (s t : Parse) (l : List Byte) : Prop where
  writes : ∀ a ∈ t.writes, a ∈ s.writes ∨ s.buf ≤ a ∧ a < s.buf + l.length
  mem : ∀ a, ¬ (s.buf ≤ a ∧ a < s.buf + l.length) → t.mem a = s.mem a
  first : (∀ x ∈ l.head?, Space x) → t.mem s.buf = 0
  argv : ∀ k, k < s.argc → t.argv k = s.argv k
  stores : ∀ k ∈ t.stores, k ∈ s.stores ∨ k < maxargs

/-- What it adds to the arguments. -/
structure Adds (s t : Parse) (ws : List (List Byte)) : Prop where
  argc : t.argc = s.argc + ws.length
  argv : ∀ k (h : k < ws.length), StrAt t.mem (t.argv (s.argc + k)) ws[k]

theorem Gobbled.parsed {t : Parse} (h : Gobbled s t l) (hs : StrAt s.mem s.buf l) :
    Parsed s t l := by
  have hle := h.le
  have hbuf := h.buf
  refine ⟨fun a ha => (h.writes a ha).imp_right fun ha => ⟨ha.1, by omega⟩,
    fun a ha => h.mem a fun hx => ha ⟨hx.1, by omega⟩, fun hfirst => ?_, fun k _ => by rw [h.argv],
    fun k hk => Or.inl (h.stores ▸ hk)⟩
  cases l with
  | nil =>
    have hstay : t.buf = s.buf := hbuf
    exact hstay ▸ h.line
  | cons c l =>
    have hskip := skip_cons_of_space (l := l) (hfirst c rfl)
    have hlen := length_skip_le l
    rw [hskip, List.length_cons] at hbuf
    exact h.zero s.buf le_rfl (by omega)

/-- From the first word on: it stays in place, and what is parsed behind it ends it. -/
theorem Parsed.word {t u : Parse} (hs : StrAt s.mem s.buf l) (h : Parsed t u (rest l))
    (hmem : t.mem = s.mem) (hbuf : t.buf = s.buf + (word l).length) :
    StrAt u.mem s.buf (word l) := by
  refine StrAt.front (r := rest l) (word_append_rest l ▸ hs) (fun a _ ha' => ?_) ?_
  · rw [h.mem a (by omega), hmem]
  · rw [← hbuf]
    exact h.first head_rest

/-- The next word is saved, and scanned past. -/
def Parse.save (s : Parse) (w : List Byte) : Parse :=
  { s.setArg s.buf with argc := s.argc + 1, buf := s.buf + w.length }

/-- The white space, a word and what is parsed behind it. -/
theorem Gobbled.step {t v : Parse} (hg : Gobbled s t l) (hs : StrAt s.mem s.buf l)
    (hne : 0 < (word (skip l)).length) (hle : t.argc < maxargs)
    (h : Parsed (t.save (word (skip l))) v (rest (skip l))) : Parsed s v l := by
  have hp := hg.parsed hs
  have hbuf := hg.buf
  have hle' := hg.le
  have hlen := congrArg List.length (word_append_rest (skip l))
  rw [List.length_append] at hlen
  have hmem : ∀ a, ¬ (t.buf + (word (skip l)).length ≤ a ∧
      a < t.buf + (word (skip l)).length + (rest (skip l)).length) → v.mem a = t.mem a := h.mem
  refine ⟨fun a ha => ?_, fun a ha => ?_, fun hfirst => ?_, fun k hk => ?_, fun k hk => ?_⟩
  · rcases h.writes a ha with ha | ha
    · exact hp.writes a ha
    · have ha' : t.buf + (word (skip l)).length ≤ a ∧
          a < t.buf + (word (skip l)).length + (rest (skip l)).length := ha
      exact Or.inr ⟨by omega, by omega⟩
  · rw [hmem a fun hx => ha ⟨by omega, by omega⟩]
    exact hp.mem a ha
  · rw [hmem s.buf fun hx => absurd hx.1 (by omega)]
    exact hp.first hfirst
  · have hkt : k < t.argc := hg.argc ▸ hk
    rw [h.argv k (Nat.lt_succ_of_lt hkt)]
    exact (Function.update_of_ne (Nat.ne_of_lt hkt) _ _).trans (hp.argv k hk)
  · rcases h.stores k hk with hk | hk
    · rcases List.mem_append.mp hk with hk | hk
      · exact hp.stores k hk
      · obtain rfl := List.mem_singleton.mp hk
        exact Or.inr hle
    · exact Or.inr hk

theorem Gobbled.adds {t v : Parse} (hg : Gobbled s t l) {ws : List (List Byte)}
    (hp : Parsed (t.save (word (skip l))) v (rest (skip l)))
    (h : Adds (t.save (word (skip l))) v ws) : Adds s v (word (skip l) :: ws) := by
  have hargc : (t.save (word (skip l))).argc = s.argc + 1 := congrArg (· + 1) hg.argc
  refine ⟨?_, fun k hk => ?_⟩
  · rw [h.argc, hargc, List.length_cons]
    omega
  · cases k with
    | zero =>
      have hfirst : v.argv s.argc = t.buf := by
        rw [hp.argv _ (by omega), ← hg.argc]
        exact Function.update_self _ _ _
      show StrAt v.mem (v.argv s.argc) (word (skip l))
      rw [hfirst]
      exact hp.word hg.line rfl rfl
    | succ k =>
      have hk' := h.argv k (Nat.lt_of_succ_lt_succ hk)
      rw [hargc, Nat.add_assoc, Nat.add_comm 1] at hk'
      exact hk'

theorem parse_run : ∀ {n : Nat} {l : List Byte} {s : Parse}, StrAt s.mem s.buf l → 0 ∉ l →
    l.length + 2 ≤ n → s.argc ≤ maxargs - 1 →
    ∃ b t, parse n s = some (b, t) ∧ Parsed s t l ∧
      (b = true ↔ s.argc + (words l).length ≤ maxargs - 1) ∧ (b = true → Adds s t (words l))
  | 0, _, _, _, _, hn, _ => absurd hn (Nat.not_succ_le_zero _)
  | n + 1, l, s, hs, h0, hn, hle => by
    obtain ⟨t, ht, hg⟩ := gobble_run (n := n) hs h0 (by omega)
    have hp := hg.parsed hs
    have hline := hg.line
    have hargc := hg.argc
    rw [parse, ht, ← words_skip]
    by_cases hk : skip l = []
    · have h0' : t.mem t.buf = 0 := by
        rw [hk] at hline
        exact hline
      rw [hk]
      exact ⟨true, t, if_pos h0', hp, ⟨fun _ => hle, fun _ => rfl⟩,
        fun _ => ⟨hargc, fun k h => absurd h (Nat.not_lt_zero _)⟩⟩
    obtain ⟨c, r, hcr⟩ := List.exists_cons_of_ne_nil hk
    have hc : ¬ Space c := head_skip c (by rw [hcr]; rfl)
    have hw : words (skip l) = word (skip l) :: words (rest (skip l)) := by
      rw [hcr]
      exact words_cons hc
    have hne : 0 < (word (skip l)).length := by
      rw [hcr, word_cons hc]
      exact Nat.succ_pos _
    have hlen := congrArg List.length (word_append_rest (skip l))
    rw [List.length_append] at hlen
    have hlen' := length_skip_le l
    have h0s : 0 ∉ skip l := fun h => h0 ((List.dropWhile_sublist _).subset h)
    have h0' : ¬ t.mem t.buf = 0 := by
      rw [hcr] at hline h0s
      exact fun h => h0s (h ▸ hline.1 ▸ List.mem_cons_self ..)
    by_cases hmax : t.argc = maxargs - 1
    · refine ⟨false, t, (if_neg h0').trans (if_pos hmax), hp, ⟨fun h => (nomatch h), fun h => ?_⟩,
        fun h => nomatch h⟩
      rw [hw, List.length_cons] at h
      omega
    · have hscan : scan n { t.setArg t.buf with argc := t.argc + 1 } =
          some (t.save (word (skip l))) :=
        scan_run (s := { t.setArg t.buf with argc := t.argc + 1 }) hline h0s (by omega)
      have hrest : StrAt t.mem (t.buf + (word (skip l)).length) (rest (skip l)) :=
        StrAt.drop ((word_append_rest (skip l)).symm ▸ hline)
      obtain ⟨b, v, hv, hpv, hb, hadd⟩ := parse_run (n := n) (s := t.save (word (skip l))) hrest
        (fun h => h0s ((List.dropWhile_sublist _).subset h)) (by omega)
        (show t.argc + 1 ≤ maxargs - 1 by omega)
      have hb' : (t.save (word (skip l))).argc + (words (rest (skip l))).length ≤ maxargs - 1 ↔
          s.argc + (words (skip l)).length ≤ maxargs - 1 := by
        rw [hw, List.length_cons]
        show t.argc + 1 + _ ≤ _ ↔ _
        omega
      refine ⟨b, v, ?_, hg.step hs hne (by omega) hpv, hb.trans hb', fun hbt => ?_⟩
      · refine (if_neg h0').trans ((if_neg hmax).trans ?_)
        exact (congrArg (· >>= fun s => parse n s) hscan).trans hv
      · rw [hw]
        exact hg.adds hpv (hadd hbt)

theorem not_mem_name : ∀ c ∈ commands, 0 ∉ c.name := by decide

theorem find_eq (hs : StrAt mem p w) (h0 : 0 ∉ w) :
    (commands.find? fun c => strcmp mem p c.name = 0) = commands.find? fun c => c.name = w := by
  have heq : ∀ c ∈ commands, decide (strcmp mem p c.name = 0) = decide (c.name = w) := fun c hc => by
    rw [decide_eq_decide, strcmp_eq_zero hs h0 (not_mem_name c hc)]
    exact eq_comm
  unfold commands at heq ⊢
  rw [List.find?_cons, List.find?_cons, List.find?_cons, List.find?_cons,
    heq _ (List.mem_cons_self ..), heq _ (List.mem_cons_of_mem _ (List.mem_cons_self ..))]
  rfl

/-- What is done when all is parsed. -/
theorem Args.dispatch {ws : List (List Byte)} (h : Args s ws) (h0 : ∀ w, ws.head? = some w → 0 ∉ w) :
    (if s.argc = 0 then some (Outcome.nothing, s) else
      match commands.find? fun c => strcmp s.mem (s.argv 0) c.name = 0 with
      | some c => some (.call c.func s.argc s.argv, s)
      | none => some (.unknown (s.argv 0), s)) = some (dispatch s ws, s) := by
  cases ws with
  | nil => exact if_pos h.argc
  | cons w ws =>
    have hne : ¬ s.argc = 0 := by
      rw [h.argc]
      exact Nat.succ_ne_zero _
    have hfirst : StrAt s.mem (s.argv 0) w := h.argv 0 (Nat.succ_pos _)
    rw [if_neg hne, find_eq hfirst (h0 w rfl), Monitor.dispatch]
    cases commands.find? fun c => c.name = w with
    | some c => rfl
    | none => rfl

/-- `runcmd` splits every line into its words, or reports that there are too many. -/
theorem runcmd_splits (mem : Nat → Byte) (argv : Nat → Nat) (buf : Nat) (line : List Byte)
    (h : StrAt mem buf line) (h0 : 0 ∉ line) (fuel : Nat) (hfuel : line.length + 2 ≤ fuel) :
    ∃ o s, runcmd fuel mem argv buf = some (o, s) ∧ Splits mem buf line o s := by
  have hstart : StrAt ((⟨mem, buf, 0, argv, [], []⟩ : Parse).setArg 0).mem buf line := h
  obtain ⟨b, t, ht, hp, hb, hadd⟩ := parse_run hstart h0 hfuel (Nat.zero_le _)
  have hwrites : ∀ a ∈ t.writes, buf ≤ a ∧ a < buf + line.length := fun a ha =>
    (hp.writes a ha).resolve_left List.not_mem_nil
  have hstores : ∀ k ∈ t.stores, k < maxargs := fun k hk => by
    rcases hp.stores k hk with hk | hk
    · obtain rfl := List.mem_singleton.mp hk
      exact Nat.succ_pos _
    · exact hk
  have hb' : b = true ↔ (words line).length ≤ maxargs - 1 := by
    rw [hb]
    show 0 + _ ≤ _ ↔ _
    rw [Nat.zero_add]
  rw [runcmd, ht]
  cases b with
  | false =>
    have hmany : ¬ (words line).length ≤ maxargs - 1 := fun h => nomatch hb'.mpr h
    exact ⟨_, _, rfl, hwrites, hp.mem, hstores, fun h => absurd h hmany, fun _ => rfl⟩
  | true =>
    have ha := hadd rfl
    have hfew := hb'.mp rfl
    have hargc : t.argc = (words line).length := ha.argc.trans (Nat.zero_add _)
    have hargs : Args (t.setArg 0) (words line) := by
      refine ⟨hargc, fun k hk => ?_, Function.update_self _ _ _⟩
      have hk' := ha.argv k hk
      rw [show ((⟨mem, buf, 0, argv, [], []⟩ : Parse).setArg 0).argc + k = k from Nat.zero_add k] at hk'
      show StrAt t.mem (Function.update t.argv t.argc 0 k) _
      rwa [Function.update_of_ne (by omega)]
    refine ⟨dispatch (t.setArg 0) (words line), t.setArg 0, ?_, hwrites, hp.mem, fun k hk => ?_,
      fun _ => ⟨hargs, rfl⟩, fun h => absurd hfew (Nat.not_le_of_lt h)⟩
    · refine hargs.dispatch fun w hw hmem => ?_
      obtain ⟨ws, hws⟩ := List.head?_eq_some_iff.mp hw
      exact h0 ((sublist_of_words hws).subset hmem)
    · rcases List.mem_append.mp hk with hk | hk
      · exact hstores k hk
      · obtain rfl := List.mem_singleton.mp hk
        show t.argc < 16
        have : (words line).length ≤ 15 := hfew
        omega

/-- A blank and `help`, at the start of memory. -/
theorem runcmd_splits_help :
    ∃ o s, runcmd 7 (fun a => [0x20, 0x68, 0x65, 0x6C, 0x70].getD a 0) (fun _ => 0) 0 =
        some (o, s) ∧
      Splits (fun a => [0x20, 0x68, 0x65, 0x6C, 0x70].getD a 0) 0
        [0x20, 0x68, 0x65, 0x6C, 0x70] o s := by
  have h : StrAt (fun a => [0x20, 0x68, 0x65, 0x6C, 0x70].getD a 0) 0
      [0x20, 0x68, 0x65, 0x6C, 0x70] := ⟨rfl, rfl, rfl, rfl, rfl, rfl⟩
  exact runcmd_splits _ (fun _ => 0) 0 _ h (by decide) 7 (by decide)

end

end Monitor

end Jos
