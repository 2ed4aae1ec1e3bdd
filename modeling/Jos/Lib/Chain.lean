import Mathlib.Logic.Function.Basic
import Mathlib.Data.List.Basic
import Mathlib.Data.List.FinRange

/-!
  Singly linked lists threaded through a `next` field.

  `Chain next h l` says that following `next` from the head pointer `h` visits exactly the nodes of
  `l`, in order, and then reaches the null pointer. -/

namespace Jos.Lib

variable {α : Type*}

/-- The nodes reached from the head pointer `h` are `l`, and the last one's link is null. -/
def Chain (next : α → Option α) : Option α → List α → Prop
  | h, [] => h = none
  | h, a :: l => h = some a ∧ Chain next (next a) l

theorem Chain.head_eq {next : α → Option α} {h : Option α} :
    ∀ {l : List α}, Chain next h l → h = l.head?
  | [], hc => hc
  | _ :: _, hc => hc.1

/-- The nodes of a chain depend only on the head pointer and the links. -/
theorem Chain.unique {next : α → Option α} :
    ∀ {h : Option α} {l l' : List α}, Chain next h l → Chain next h l' → l = l'
  | _, [], [], _, _ => rfl
  | _, [], _ :: _, hl, hl' => by rw [Chain] at hl; rw [hl] at hl'; exact absurd hl'.1 (by simp)
  | _, _ :: _, [], hl, hl' => by rw [Chain] at hl'; rw [hl'] at hl; exact absurd hl.1 (by simp)
  | _, a :: l, b :: l', ⟨ha, hl⟩, ⟨hb, hl'⟩ => by
      obtain rfl : a = b := Option.some.inj (ha.symm.trans hb)
      rw [Chain.unique hl hl']

/-- The nodes of a chain determine the head pointer and the links on it. -/
theorem Chain.links_eq {n n' : α → Option α} : ∀ {h h' : Option α} {l : List α},
    Chain n h l → Chain n' h' l → h = h' ∧ ∀ a ∈ l, n a = n' a
  | _, _, [], hl, hl' => ⟨hl.trans hl'.symm, fun _ ha => absurd ha (List.not_mem_nil)⟩
  | _, _, a :: l, ⟨ha, hl⟩, ⟨ha', hl'⟩ => by
      obtain ⟨hnext, hrest⟩ := hl.links_eq hl'
      refine ⟨ha.trans ha'.symm, fun b hb => ?_⟩
      rcases List.mem_cons.mp hb with rfl | hb
      · exact hnext
      · exact hrest b hb

/-- Links off the chain may change. -/
theorem Chain.congr {n n' : α → Option α} :
    ∀ {h : Option α} {l : List α}, Chain n h l → (∀ a ∈ l, n' a = n a) → Chain n' h l
  | _, [], hl, _ => hl
  | _, a :: l, ⟨ha, hl⟩, heq => by
      refine ⟨ha, ?_⟩
      rw [heq a (List.mem_cons_self ..)]
      exact Chain.congr hl fun b hb => heq b (List.mem_cons_of_mem a hb)

/-- Linking a node that is not on the chain in front of it. -/
theorem Chain.push [DecidableEq α] {next : α → Option α} {h : Option α} {l : List α} {a : α}
    (hl : Chain next h l) (ha : a ∉ l) : Chain (Function.update next a h) (some a) (a :: l) := by
  refine ⟨rfl, ?_⟩
  rw [Function.update_self]
  refine hl.congr fun b hb => ?_
  have hba : b ≠ a := fun e => ha (e ▸ hb)
  rw [Function.update_of_ne hba]

/-- The nodes of an array from index `i` on, each linked to the next. -/
theorem Chain.drop_finRange {N : ℕ} {next : Fin N → Option (Fin N)}
    (hs : ∀ (e : Fin N) (h : e.val + 1 < N), next e = some ⟨e.val + 1, h⟩)
    (hn : ∀ e : Fin N, e.val + 1 = N → next e = none) :
    ∀ (n i : ℕ) (h : i < N), i + n + 1 = N →
      Chain next (some ⟨i, h⟩) ((List.finRange N).drop i)
  | n, i, h, hi => by
    rw [List.drop_eq_getElem_cons (by simpa using h), List.getElem_finRange, Fin.cast_mk]
    refine ⟨rfl, ?_⟩
    cases n with
    | zero =>
      rw [hn ⟨i, h⟩ hi, List.drop_of_length_le (by simp; omega)]
      rfl
    | succ n =>
      have h' : i + 1 < N := by omega
      rw [hs ⟨i, h⟩ h']
      exact Chain.drop_finRange hs hn n (i + 1) h' (by omega)

/-- An array whose nodes are linked in order. -/
theorem Chain.finRange {N : ℕ} {next : Fin N → Option (Fin N)} (h0 : 0 < N)
    (hs : ∀ (e : Fin N) (h : e.val + 1 < N), next e = some ⟨e.val + 1, h⟩)
    (hn : ∀ e : Fin N, e.val + 1 = N → next e = none) :
    Chain next (some ⟨0, h0⟩) (List.finRange N) := by
  have := Chain.drop_finRange hs hn (N - 1) 0 h0 (by omega)
  rwa [List.drop_zero] at this

/-! ### Lists under construction

A list that is built through a pointer to its last link: `Path m p l q` says that the pointers
stored in `m`, from place `p` on, lead through the nodes of `l` to the place `q` where the next
pointer goes. -/

/-- Where a pointer is stored: in a variable, or in the link of a node. -/
inductive Place (ρ α : Type*) where
  | root (r : ρ)
  | link (a : α)
  deriving DecidableEq

variable {ρ : Type*}

def Path (m : Place ρ α → Option α) : Place ρ α → List α → Place ρ α → Prop
  | p, [], q => p = q
  | p, a :: l, q => m p = some a ∧ Path m (.link a) l q

/-- The place at the end is where the path began, or a link on it. -/
theorem Path.end_mem {m : Place ρ α → Option α} : ∀ {p q : Place ρ α} {l : List α},
    Path m p l q → q = p ∨ ∃ a ∈ l, q = .link a
  | _, _, [], h => Or.inl h.symm
  | _, _, a :: _, ⟨_, h⟩ => by
    rcases h.end_mem with rfl | ⟨b, hb, rfl⟩
    · exact Or.inr ⟨a, List.mem_cons_self .., rfl⟩
    · exact Or.inr ⟨b, List.mem_cons_of_mem a hb, rfl⟩

/-- Pointers that are not followed may change. -/
theorem Path.congr {m m' : Place ρ α → Option α} : ∀ {p q : Place ρ α} {l : List α},
    Path m p l q → (l ≠ [] → m' p = m p) → (∀ a ∈ l, .link a ≠ q → m' (.link a) = m (.link a)) →
      l.Nodup → Path m' p l q
  | _, _, [], h, _, _, _ => h
  | p, q, [a], ⟨ha, h⟩, hp, _, _ => ⟨(hp (by simp)).trans ha, h⟩
  | p, q, a :: b :: l, ⟨ha, h⟩, hp, hl, hn => by
    obtain ⟨hab, hn⟩ := List.nodup_cons.mp hn
    refine ⟨(hp (by simp)).trans ha, h.congr (fun _ => hl a (List.mem_cons_self ..) ?_)
      (fun c hc => hl c (List.mem_cons_of_mem a hc)) hn⟩
    rintro heq
    rcases h.2.end_mem with rfl | ⟨c, hc, rfl⟩
    · cases heq
      exact hab (List.mem_cons_self ..)
    · cases heq
      exact hab (List.mem_cons_of_mem b hc)

/-- The place at the end of a path may be written. -/
theorem Path.write [DecidableEq ρ] [DecidableEq α] {m : Place ρ α → Option α} {r : ρ}
    {q : Place ρ α} {l : List α} (h : Path m (.root r) l q) (hn : l.Nodup) (v : Option α) :
    Path (Function.update m q v) (.root r) l q := by
  refine h.congr (fun hl => Function.update_of_ne ?_ _ _)
    (fun a _ hne => Function.update_of_ne hne _ _) hn
  cases l with
  | nil => exact absurd rfl hl
  | cons a l =>
    rcases h.2.end_mem with rfl | ⟨b, -, rfl⟩ <;> simp

/-- One more node. -/
theorem Path.snoc {m : Place ρ α → Option α} {a : α} : ∀ {p q : Place ρ α} {l : List α},
    Path m p l q → m q = some a → Path m p (l ++ [a]) (.link a)
  | _, _, [], rfl, ha => ⟨ha, rfl⟩
  | _, _, _ :: _, ⟨hb, h⟩, ha => ⟨hb, h.snoc ha⟩

/-- A path followed by a chain. -/
theorem Path.chain {m : Place ρ α → Option α} {l' : List α} : ∀ {p q : Place ρ α} {l : List α},
    Path m p l q → Chain (fun a => m (.link a)) (m q) l' →
      Chain (fun a => m (.link a)) (m p) (l ++ l')
  | _, _, [], rfl, hc => hc
  | _, _, _ :: _, ⟨hb, h⟩, hc => ⟨hb, h.chain hc⟩

end Jos.Lib
