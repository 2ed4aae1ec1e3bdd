import Jos.System
import Jos.Lib.RefCount
import Jos.Lib.Chain
import Mathlib.Tactic.DeriveFintype

/-!
  References to physical pages.

  The references that `pp_ref` counts are held in slots: the page directory pointer of an
  environment, the directory entries that name page tables, and the page-table entries below
  `UTOP`. `target s` is the table of these references in a state; it is read off the words in
  memory. `PageInv` ties it to the counters and the free list. -/

namespace Jos

open Lib RefCount

/-- Owner of a page directory: an environment, or the kernel. -/
abbrev Owner := Option EnvIdx

/-- A place that holds a counted reference to a page. -/
inductive Slot where
  | dir (e : EnvIdx)
  | tab (o : Owner) (i : Idx)
  | pte (e : EnvIdx) (i j : Idx)
  deriving DecidableEq, Fintype

/-- Slots whose target is used as a page directory or a page table. -/
def Slot.IsTable : Slot → Prop
  | .dir _ => True
  | .tab _ _ => True
  | .pte _ _ _ => False

/-- The directory entries that an owner counts: an environment its own ones below `UTOP`, the
    kernel all but the recursive one. Entries copied from the kernel's are counted there. -/
def Owns : Owner → Idx → Prop
  | some _, i => i < utopPdx
  | none, i => i ≠ uvptPdx

instance (o : Owner) (i : Idx) : Decidable (Owns o i) := by
  cases o <;> unfold Owns <;> infer_instance

/-- Frame of an owner's page directory. -/
def dirFrame (s : KState) : Owner → Option Nat
  | none => some s.kernPgdir
  | some e => (s.envs e).envPgdir

/-- An owner's directory entry; 0 without a directory. -/
def pdeAt (s : KState) (o : Owner) (i : Idx) : Word :=
  match dirFrame s o with
  | none => 0
  | some d => s.mem d i

/-- The page table that an owned directory entry names. -/
def tabFrame (s : KState) (o : Owner) (i : Idx) : Option Nat :=
  if Owns o i then entryFrame (pdeAt s o i) else none

/-- An owner's page-table entry for table `i`, entry `j`; 0 without a table. -/
def pteAt (s : KState) (o : Owner) (i j : Idx) : Word :=
  match tabFrame s o i with
  | none => 0
  | some t => s.mem t j

/-- What each slot refers to. -/
def target (s : KState) : Slot → Option Nat
  | .dir e => (s.envs e).envPgdir
  | .tab o i => tabFrame s o i
  | .pte e i j => entryFrame (pteAt s (some e) i j)

/-- The page allocator is consistent: the free list is the chain `L`, counters are exact, frames in
    use as page directories and page tables are referred to once, and the code that is running
    holds the unreferenced frames `H` in hand. -/
structure PageInv (s : KState) (L : List Nat) (H : Finset Nat) : Prop where
  chain : Chain (fun f => (s.pages f).ppLink) s.pageFreeList L
  unlinked : ∀ f, Managed s f → f ∉ L → (s.pages f).ppLink = none
  counted : Counted (target s) (fun f => (s.pages f).ppRef) L H (Managed s)
  sole : Sole Slot.IsTable (target s)
  kern : ¬ Managed s s.kernPgdir
  window : s.npages ≤ 65536

/-! ### States that agree on what slots refer to -/

/-- `target` reads the page directory pointers, the kernel's directory, and memory. -/
theorem target_congr {s t : KState} (he : ∀ e, (t.envs e).envPgdir = (s.envs e).envPgdir)
    (hk : t.kernPgdir = s.kernPgdir) (hm : t.mem = s.mem) : target t = target s := by
  have hd : dirFrame t = dirFrame s := by
    funext o; cases o <;> simp [dirFrame, he, hk]
  have hp : pdeAt t = pdeAt s := by funext o i; simp [pdeAt, hd, hm]
  have ht : tabFrame t = tabFrame s := by funext o i; simp [tabFrame, hp]
  funext r
  cases r <;> simp [target, pteAt, he, ht, hm]

/-- Apart from slots, `PageInv` reads the page array, the free list and the boot-time limits. -/
theorem PageInv.congr {s t : KState} {L : List Nat} {H : Finset Nat} (h : PageInv s L H)
    (ht : target t = target s) (hp : t.pages = s.pages) (hf : t.pageFreeList = s.pageFreeList)
    (hn : t.npages = s.npages) (hx : t.nextfree = s.nextfree) (hk : t.kernPgdir = s.kernPgdir) :
    PageInv t L H := by
  have hM : Managed t = Managed s := by funext f; simp [Managed, hn, hx]
  exact ⟨by rw [hp, hf]; exact h.chain, by rw [hM, hp]; exact h.unlinked,
    by rw [ht, hp, hM]; exact h.counted, by rw [ht]; exact h.sole, by rw [hM, hk]; exact h.kern,
    by rw [hn]; exact h.window⟩

end Jos
