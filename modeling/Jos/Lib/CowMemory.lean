import Mathlib.Logic.Function.Basic

/-!
  Memory shared copy on write, against memory that is copied at once.

  Parties reach frames through entries. An entry owns its frame, or it lets its party read the frame
  only; of the latter some stand for pages that the party may write to once it has a copy. `Agrees`
  relates this to private pages. There are two exceptions: a page that is lent has an entry but no
  contents yet, and a page that is being copied has its contents in the frame that its party keeps
  at `temp` meanwhile, which is lent for that. -/

namespace Jos.Lib.Cow

variable {E P F V : Type*}

inductive Access where | readOnly | cow | own
  deriving DecidableEq

/-- The entries of each party, and what the frames hold. -/
structure Frames (E P F V : Type*) where
  slot : E → P → Option (F × Access)
  data : F → V

/-- A page of private memory. -/
@[ext] structure Copy (V : Type*) where
  writable : Bool
  data : V

/-- Private memory, page by page. -/
abbrev Private (E P V : Type*) := E → P → Option (Copy V)

namespace Frames

/-- What a party finds at a page. -/
def shown (m : Frames E P F V) (e : E) (p : P) : Option (Copy V) :=
  (m.slot e p).map fun x => ⟨decide (x.2 ≠ .readOnly), m.data x.1⟩

/-- Some entry has the frame. -/
def Mapped (m : Frames E P F V) (f : F) : Prop := ∃ e p a, m.slot e p = some (f, a)

/-- The frame is owned by no entry. -/
def Shared (m : Frames E P F V) (f : F) : Prop := ∀ e p, m.slot e p ≠ some (f, .own)

/-- `x` is entered at one page. Frames that stay mapped keep what they hold. -/
structure Puts (m m' : Frames E P F V) (e : E) (p : P) (x : Option (F × Access)) : Prop where
  here : m'.slot e p = x
  rest : ∀ e' p', ¬ (e' = e ∧ p' = p) → m'.slot e' p' = m.slot e' p'
  data : ∀ f, m.Mapped f → m'.Mapped f → m'.data f = m.data f

end Frames

open Frames

/-- Which pages are lent, and which page each party is about to copy. -/
structure Ghost (E P : Type*) where
  lent : E → P → Prop
  held : E → Option P

/-- A page that is being copied: its party owns the new frame, and keeps the old one. -/
structure Copying (temp : P) (m : Frames E P F V) (G : Ghost E P) (I : Private E P V) (e : E) (p : P) :
    Prop where
  ne : p ≠ temp
  lent : G.lent e temp
  kept : ¬ G.lent e p
  new : ∃ g, m.slot e p = some (g, .own)
  old : ∃ f, m.slot e temp = some (f, .readOnly) ∧ m.Shared f ∧ I e p = some ⟨true, m.data f⟩

/-- Entries and frames stand for private memory. -/
structure Agrees (temp : P) (m : Frames E P F V) (G : Ghost E P) (I : Private E P V) : Prop where
  shows : ∀ e p, ¬ G.lent e p → G.held e ≠ some p → I e p = m.shown e p
  hides : ∀ e p, G.lent e p → I e p = none ∧ ∀ f, m.slot e p ≠ some (f, .own)
  sole : ∀ e p f, m.slot e p = some (f, .own) → ∀ e' p' a, m.slot e' p' = some (f, a) →
    (e' = e ∧ p' = p) ∨ G.lent e' p'
  copying : ∀ e p, G.held e = some p → Copying temp m G I e p

section

variable {temp : P} {m m' : Frames E P F V} {G : Ghost E P} {I : Private E P V} {e : E} {p : P}
  {f g : F} {x : Option (F × Access)}

theorem shown_of_slot {a : Access} (h : m.slot e p = some (f, a)) :
    m.shown e p = some ⟨decide (a ≠ .readOnly), m.data f⟩ := by
  rw [shown, h]
  rfl

theorem Agrees.contents (h : Agrees temp m G I) {a : Access} (hs : m.slot e p = some (f, a))
    (hl : ¬ G.lent e p) (hh : G.held e ≠ some p) :
    I e p = some ⟨decide (a ≠ .readOnly), m.data f⟩ :=
  (h.shows e p hl hh).trans (shown_of_slot hs)

/-- Nobody owns a frame that some page has without owning it. -/
theorem Agrees.shared (h : Agrees temp m G I) {a : Access} (hs : m.slot e p = some (f, a))
    (hl : ¬ G.lent e p) (ha : a ≠ .own) : m.Shared f := by
  intro e' p' hown
  rcases h.sole e' p' f hown e p a hs with ⟨rfl, rfl⟩ | hx
  · rw [hs] at hown
    cases hown
    exact ha rfl
  · exact hl hx

/-- An owner's own entry apart, nobody owns its frame. -/
theorem Agrees.sole_own (h : Agrees temp m G I) (hs : m.slot e p = some (f, .own)) {e' : E} {p' : P}
    (ho : m.slot e' p' = some (f, .own)) : e' = e ∧ p' = p :=
  (h.sole e p f hs e' p' _ ho).resolve_right fun hx => (h.hides e' p' hx).2 f ho

namespace Frames.Puts

theorem mapped_of_rest (h : m.Puts m' e p x) {e' : E} {p' : P} {a : Access}
    (hn : ¬ (e' = e ∧ p' = p)) (hs : m.slot e' p' = some (f, a)) : m'.data f = m.data f :=
  h.data f ⟨e', p', a, hs⟩ ⟨e', p', a, (h.rest e' p' hn).trans hs⟩

theorem shown_rest (h : m.Puts m' e p x) {e' : E} {p' : P} (hn : ¬ (e' = e ∧ p' = p)) :
    m'.shown e' p' = m.shown e' p' := by
  unfold shown
  rw [h.rest e' p' hn]
  cases hs : m.slot e' p' with
  | none => rfl
  | some y =>
    obtain ⟨f, a⟩ := y
    simp only [Option.map_some, h.mapped_of_rest hn hs]

end Frames.Puts

/-- What an entry is put for: a page without contents, or one that has what the entry shows. -/
def Meant (m m' : Frames E P F V) (G' : Ghost E P) (I' : Private E P V) (e : E) (p : P)
    (x : Option (F × Access)) : Prop :=
  (G'.lent e p ∧ I' e p = none) ∨ ¬ G'.lent e p ∧ I' e p = m'.shown e p ∧
    ∀ f a, x = some (f, a) → ∀ e' p', ¬ (e' = e ∧ p' = p) → m.slot e' p' ≠ some (f, .own)

/-- An entry that does not own its frame is put. -/
theorem Agrees.remap (h : Agrees temp m G I) (hput : m.Puts m' e p x)
    (hx : ∀ f, x ≠ some (f, .own)) (hheld : ∀ q, G.held e = some q → p ≠ q ∧ p ≠ temp)
    {G' : Ghost E P} {I' : Private E P V} (hG : G'.held = G.held)
    (hlent : ∀ e' p', ¬ (e' = e ∧ p' = p) → (G'.lent e' p' ↔ G.lent e' p'))
    (hI : ∀ e' p', ¬ (e' = e ∧ p' = p) → I' e' p' = I e' p') (hm : Meant m m' G' I' e p x) :
    Agrees temp m' G' I' := by
  have howns : ∀ {e' p' f}, m'.slot e' p' = some (f, .own) →
      ¬ (e' = e ∧ p' = p) ∧ m.slot e' p' = some (f, .own) := by
    intro e' p' f hs
    have hn : ¬ (e' = e ∧ p' = p) := by
      rintro ⟨rfl, rfl⟩
      exact hx f (hput.here.symm.trans hs)
    exact ⟨hn, (hput.rest e' p' hn).symm.trans hs⟩
  refine ⟨fun e' p' hl hh => ?_, fun e' p' hl => ?_, fun e' p' f hs e2 p2 a hs2 => ?_,
    fun e' q hq => ?_⟩
  · by_cases hn : e' = e ∧ p' = p
    · obtain ⟨rfl, rfl⟩ := hn
      rcases hm with hm | hm
      · exact absurd hm.1 hl
      · exact hm.2.1
    · rw [hI e' p' hn, hput.shown_rest hn]
      exact h.shows e' p' (fun hx => hl ((hlent e' p' hn).mpr hx)) (hG ▸ hh)
  · by_cases hn : e' = e ∧ p' = p
    · obtain ⟨rfl, rfl⟩ := hn
      rcases hm with hm | hm
      · exact ⟨hm.2, fun f => by rw [hput.here]; exact hx f⟩
      · exact absurd hl hm.1
    · rw [hI e' p' hn, hput.rest e' p' hn]
      exact h.hides e' p' ((hlent e' p' hn).mp hl)
  · obtain ⟨hn, hs⟩ := howns hs
    by_cases hn2 : e2 = e ∧ p2 = p
    · obtain ⟨rfl, rfl⟩ := hn2
      rcases hm with hm | hm
      · exact Or.inr hm.1
      · exact absurd hs (hm.2.2 f a (hput.here.symm.trans hs2) e' p' hn)
    · rw [hput.rest e2 p2 hn2] at hs2
      exact (h.sole e' p' f hs e2 p2 a hs2).imp id (hlent e2 p2 hn2).mpr
  · rw [hG] at hq
    have hc := h.copying e' q hq
    have hn : ∀ p', p' = q ∨ p' = temp → ¬ (e' = e ∧ p' = p) := by
      rintro p' hp' ⟨rfl, rfl⟩
      obtain ⟨h1, h2⟩ := hheld q hq
      exact hp'.elim h1 h2
    obtain ⟨g, hg⟩ := hc.new
    obtain ⟨f, hf, hsh, hi⟩ := hc.old
    refine ⟨hc.ne, (hlent e' temp (hn temp (.inr rfl))).mpr hc.lent,
      fun hl => hc.kept ((hlent e' q (hn q (.inl rfl))).mp hl),
      ⟨g, (hput.rest e' q (hn q (.inl rfl))).trans hg⟩, f,
      (hput.rest e' temp (hn temp (.inr rfl))).trans hf, fun e2 p2 ho => hsh e2 p2 (howns ho).2, ?_⟩
    rw [hI e' q (hn q (.inl rfl)), hi, hput.mapped_of_rest (hn temp (.inr rfl)) hf]

/-- The owner gives up its ownership and keeps what it has. -/
theorem Agrees.protect (h : Agrees temp m G I) (hs : m.slot e p = some (f, .own))
    (hput : m.Puts m' e p (some (f, .cow))) (hheld : G.held e = none) : Agrees temp m' G I := by
  have hl : ¬ G.lent e p := fun hx => (h.hides e p hx).2 f hs
  refine h.remap hput (fun g hg => by cases hg) (fun q hq => by rw [hheld] at hq; cases hq) rfl
    (fun _ _ _ => Iff.rfl) (fun _ _ _ => rfl) (Or.inr ⟨hl, ?_, fun g a hg e' p' hn ho => ?_⟩)
  · rw [h.contents hs hl (by rw [hheld]; simp), shown_of_slot hput.here,
      hput.data f ⟨e, p, _, hs⟩ ⟨e, p, _, hput.here⟩]
    rfl
  · cases hg
    exact hn (h.sole_own hs ho)

/-- Ownership of a frame that nothing had is put, with the contents that the page then has. -/
theorem Agrees.fresh (h : Agrees temp m G I) (hput : m.Puts m' e p (some (g, .own)))
    (hg : ¬ m.Mapped g) (hl : ¬ G.lent e p) {G' : Ghost E P} {I' : Private E P V}
    (hlent : G'.lent = G.lent) (hheld : ∀ e', e' ≠ e → G'.held e' = G.held e')
    (hI : ∀ e' p', ¬ (e' = e ∧ p' = p) → I' e' p' = I e' p')
    (hnew : (G'.held e = none ∧ G.held e = none ∧ I' e p = some ⟨true, m'.data g⟩) ∨
      (G'.held e = some p ∧ G.held e = none ∧ p ≠ temp ∧ G.lent e temp ∧ I' e p = I e p ∧
        ∃ f, m.slot e p = some (f, .cow) ∧ m.slot e temp = some (f, .readOnly))) :
    Agrees temp m' G' I' := by
  have hnone : G.held e = none := hnew.elim (fun hx => hx.2.1) fun hx => hx.2.1
  have hother : ∀ {e' p' a}, ¬ (e' = e ∧ p' = p) → m.slot e' p' ≠ some (g, a) :=
    fun _ hs => hg ⟨_, _, _, hs⟩
  have howns : ∀ {e' p' f}, f ≠ g → m'.slot e' p' = some (f, .own) →
      m.slot e' p' = some (f, .own) := by
    intro e' p' f hf hs
    by_cases hn : e' = e ∧ p' = p
    · obtain ⟨rfl, rfl⟩ := hn
      rw [hput.here] at hs
      cases hs
      exact absurd rfl hf
    · exact (hput.rest e' p' hn).symm.trans hs
  refine ⟨fun e' p' hl' hh => ?_, fun e' p' hl' => ?_, fun e' p' f hs e2 p2 a hs2 => ?_,
    fun e' q hq => ?_⟩
  · by_cases hn : e' = e ∧ p' = p
    · obtain ⟨rfl, rfl⟩ := hn
      rcases hnew with hx | hx
      · rw [hx.2.2, shown_of_slot hput.here]
        rfl
      · exact absurd hx.1 hh
    · rw [hI e' p' hn, hput.shown_rest hn]
      refine h.shows e' p' (hlent ▸ hl') fun hh' => ?_
      by_cases he : e' = e
      · rw [he, hnone] at hh'
        cases hh'
      · exact hh ((hheld e' he).trans hh')
  · rw [hlent] at hl'
    have hn : ¬ (e' = e ∧ p' = p) := by
      rintro ⟨rfl, rfl⟩
      exact hl hl'
    rw [hI e' p' hn, hput.rest e' p' hn]
    exact h.hides e' p' hl'
  · rw [hlent]
    by_cases hn : e' = e ∧ p' = p
    · obtain ⟨rfl, rfl⟩ := hn
      rw [hput.here] at hs
      cases hs
      by_contra hx
      have hn2 : ¬ (e2 = e' ∧ p2 = p') := fun hy => hx (Or.inl hy)
      exact hother hn2 ((hput.rest e2 p2 hn2).symm.trans hs2)
    · have hs' := (hput.rest e' p' hn).symm.trans hs
      by_cases hn2 : e2 = e ∧ p2 = p
      · obtain ⟨rfl, rfl⟩ := hn2
        rw [hput.here] at hs2
        cases hs2
        exact absurd hs' (hother hn)
      · exact h.sole e' p' f hs' e2 p2 a ((hput.rest e2 p2 hn2).symm.trans hs2)
  · by_cases he : e' = e
    · subst he
      rcases hnew with hx | ⟨hh, -, hpt, hlt, hi, f, hf, hft⟩
      · rw [hx.1] at hq
        cases hq
      obtain rfl := Option.some.inj (hh.symm.trans hq)
      have hnt : ¬ (e' = e' ∧ temp = p) := fun hy => hpt hy.2.symm
      have hfg : f ≠ g := by
        rintro rfl
        exact hg ⟨_, _, _, hf⟩
      have hshare := h.shared hf hl (by simp)
      refine ⟨hpt, hlent ▸ hlt, hlent ▸ hl, ⟨g, hput.here⟩, f, (hput.rest e' temp hnt).trans hft,
        fun e2 p2 ho => hshare e2 p2 (howns hfg ho), ?_⟩
      rw [hi, h.contents hf hl (by rw [hnone]; simp), hput.mapped_of_rest hnt hft]
      rfl
    · rw [hheld e' he] at hq
      have hc := h.copying e' q hq
      have hn : ∀ p', ¬ (e' = e ∧ p' = p) := fun p' hy => he hy.1
      obtain ⟨g', hg'⟩ := hc.new
      obtain ⟨f, hf, hsh, hi⟩ := hc.old
      refine ⟨hc.ne, hlent ▸ hc.lent, hlent ▸ hc.kept, ⟨g', (hput.rest e' q (hn q)).trans hg'⟩, f,
        (hput.rest e' temp (hn temp)).trans hf, fun e2 p2 ho => hsh e2 p2 (howns ?_ ho), ?_⟩
      · rintro rfl
        exact hg ⟨_, _, _, hf⟩
      · rw [hI e' q (hn q), hi, hput.mapped_of_rest (hn temp) hf]

/-- An owner writes to its frame: to its page, or to the copy that it is making. -/
theorem Agrees.poke (h : Agrees temp m G I) (hs : m.slot e p = some (f, .own))
    (hslot : m'.slot = m.slot) (hdata : ∀ g, g ≠ f → m'.data g = m.data g) {I' : Private E P V}
    (hI : ∀ e' p', ¬ (e' = e ∧ p' = p) → I' e' p' = I e' p')
    (hnew : (G.held e = some p ∧ I' e p = I e p) ∨
      (G.held e ≠ some p ∧ I' e p = some ⟨true, m'.data f⟩)) :
    Agrees temp m' G I' := by
  have hl : ¬ G.lent e p := fun hx => (h.hides e p hx).2 f hs
  refine ⟨fun e' p' hl' hh => ?_, fun e' p' hl' => ?_, by rw [hslot]; exact h.sole,
    fun e' q hq => ?_⟩
  · by_cases hn : e' = e ∧ p' = p
    · obtain ⟨rfl, rfl⟩ := hn
      rcases hnew with hx | hx
      · exact absurd hx.1 hh
      · rw [hx.2, shown_of_slot (by rw [hslot]; exact hs)]
        rfl
    · rw [hI e' p' hn, h.shows e' p' hl' hh, shown, shown, hslot]
      cases hs' : m.slot e' p' with
      | none => rfl
      | some y =>
        obtain ⟨g, a⟩ := y
        have hgf : g ≠ f := by
          rintro rfl
          exact (h.sole e p g hs e' p' a hs').elim hn hl'
        simp only [Option.map_some, hdata g hgf]
  · have hn : ¬ (e' = e ∧ p' = p) := by
      rintro ⟨rfl, rfl⟩
      exact hl hl'
    rw [hI e' p' hn, hslot]
    exact h.hides e' p' hl'
  · have hc := h.copying e' q hq
    obtain ⟨f', hf', hsh, hi⟩ := hc.old
    have hff : f' ≠ f := by
      rintro rfl
      exact hsh e p hs
    have hiq : I' e' q = I e' q := by
      by_cases hn : e' = e ∧ q = p
      · obtain ⟨rfl, rfl⟩ := hn
        exact (hnew.resolve_right fun hx => hx.1 hq).2
      · exact hI e' q hn
    refine ⟨hc.ne, hc.lent, hc.kept, by rw [hslot]; exact hc.new, f', by rw [hslot]; exact hf',
      fun e2 p2 => by rw [hslot]; exact hsh e2 p2, ?_⟩
    rw [hiq, hi, hdata f' hff]

/-- The copy is complete. -/
theorem Agrees.release (h : Agrees temp m G I) (hheld : G.held e = some p)
    (hs : m.slot e p = some (g, .own)) (hf : m.slot e temp = some (f, .readOnly))
    (heq : m.data g = m.data f) {G' : Ghost E P} (hlent : G'.lent = G.lent)
    (hnone : G'.held e = none) (hother : ∀ e', e' ≠ e → G'.held e' = G.held e') :
    Agrees temp m G' I := by
  have hc := h.copying e p hheld
  refine ⟨fun e' p' hl hh => ?_, by rw [hlent]; exact h.hides, by rw [hlent]; exact h.sole,
    fun e' q hq => ?_⟩
  · by_cases hn : e' = e ∧ p' = p
    · obtain ⟨rfl, rfl⟩ := hn
      obtain ⟨f', hf', -, hi⟩ := hc.old
      rw [hf] at hf'
      cases hf'
      rw [hi, shown_of_slot hs, heq]
      rfl
    · refine h.shows e' p' (hlent ▸ hl) fun hh' => ?_
      by_cases he : e' = e
      · subst he
        exact hn ⟨rfl, Option.some.inj (hh'.symm.trans hheld)⟩
      · exact hh ((hother e' he).trans hh')
  · have he : e' ≠ e := by
      rintro rfl
      rw [hnone] at hq
      cases hq
    have hc' := h.copying e' q ((hother e' he).symm.trans hq)
    exact ⟨hc'.ne, hlent ▸ hc'.lent, hlent ▸ hc'.kept, hc'.new, hc'.old⟩

/-- A party has no entries any more, or not yet. -/
theorem Agrees.clear (h : Agrees temp m G I) (hgone : ∀ p, m'.slot e p = none)
    (hrest : ∀ e' p', e' ≠ e → m'.slot e' p' = m.slot e' p')
    (hdata : ∀ f, m'.Mapped f → m'.data f = m.data f) {G' : Ghost E P} {I' : Private E P V}
    (hlent : ∀ e' p', e' ≠ e → (G'.lent e' p' ↔ G.lent e' p')) (hnone : G'.held e = none)
    (hheld : ∀ e', e' ≠ e → G'.held e' = G.held e')
    (hIe : ∀ p, I' e p = none) (hI : ∀ e' p', e' ≠ e → I' e' p' = I e' p') :
    Agrees temp m' G' I' := by
  have hne : ∀ {e' p' y}, m'.slot e' p' = some y → e' ≠ e ∧ m.slot e' p' = some y := by
    intro e' p' y hs
    have he : e' ≠ e := by
      rintro rfl
      rw [hgone] at hs
      cases hs
    exact ⟨he, (hrest e' p' he).symm.trans hs⟩
  refine ⟨fun e' p' hl hh => ?_, fun e' p' hl => ?_, fun e' p' f hs e2 p2 a hs2 => ?_,
    fun e' q hq => ?_⟩
  · by_cases he : e' = e
    · subst he
      rw [hIe, shown, hgone]
      rfl
    · rw [hI e' p' he, h.shows e' p' (fun hx => hl ((hlent e' p' he).mpr hx))
        (hheld e' he ▸ hh), shown, shown, hrest e' p' he]
      cases hs : m.slot e' p' with
      | none => rfl
      | some y =>
        obtain ⟨f, a⟩ := y
        simp only [Option.map_some, hdata f ⟨e', p', a, (hrest e' p' he).trans hs⟩]
  · by_cases he : e' = e
    · subst he
      exact ⟨hIe p', fun f => by rw [hgone]; simp⟩
    · rw [hI e' p' he, hrest e' p' he]
      exact h.hides e' p' ((hlent e' p' he).mp hl)
  · obtain ⟨-, hs⟩ := hne hs
    obtain ⟨he2, hs2⟩ := hne hs2
    exact (h.sole e' p' f hs e2 p2 a hs2).imp id (hlent e2 p2 he2).mpr
  · have he : e' ≠ e := by
      rintro rfl
      rw [hnone] at hq
      cases hq
    have hc := h.copying e' q ((hheld e' he).symm.trans hq)
    obtain ⟨g, hg⟩ := hc.new
    obtain ⟨f, hf, hsh, hi⟩ := hc.old
    have hf' := (hrest e' temp he).trans hf
    refine ⟨hc.ne, (hlent e' temp he).mpr hc.lent, fun hl => hc.kept ((hlent e' q he).mp hl),
      ⟨g, (hrest e' q he).trans hg⟩, f, hf',
      fun e2 p2 ho => hsh e2 p2 (hne ho).2, ?_⟩
    rw [hI e' q he, hi, hdata f ⟨e', temp, _, hf'⟩]

end

end Jos.Lib.Cow
