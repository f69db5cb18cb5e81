import Mathlib.Data.List.FinRange
import Mathlib.Data.List.Perm.Basic
import Mathlib.Data.List.Pairwise

/-! # Radix trees over digit strings

    Items of a type `α` carry a string of digits in `Fin k`; `digit d a` is
    the `d`-th one. A radix tree splits a list of items on one digit after
    another until each branch holds at most one item.

    `Splits digit d l t` says that `t` is the tree of the list `l` from
    depth `d` on. It is a relation and not a function because a list with
    two items of equal digits has no tree. The tree does not depend on the
    order of the list (`Splits.perm`, `Splits.unique`), it holds exactly the
    items of the list (`Splits.items_perm`), and a tree in canonical form is
    the tree of its own items (`Canonical.splits`). -/

namespace Lib

/-- A `k`-way tree with items at its leaves. -/
inductive Radix (k : Nat) (α : Type) where
  | empty
  | leaf (a : α)
  | node (kids : Fin k → Radix k α)

namespace Radix

variable {k : Nat} {α : Type}

/-- The items in slot order. -/
def items : Radix k α → List α
  | empty => []
  | leaf a => [a]
  | node kids => (List.finRange k).flatMap fun i => (kids i).items

/-- `t` is the radix tree of `l` from depth `d` on. -/
def Splits (digit : Nat → α → Fin k) : Nat → List α → Radix k α → Prop
  | _, l, empty => l = []
  | _, l, leaf a => l = [a]
  | d, l, node kids =>
    2 ≤ l.length ∧ ∀ i, Splits digit (d + 1) (l.filter fun a => digit d a = i) (kids i)

/-- The tree of `l` whose root is a node however few items there are. -/
def SplitsRoot (digit : Nat → α → Fin k) (l : List α) (kids : Fin k → Radix k α) : Prop :=
  ∀ i, Splits digit 1 (l.filter fun a => digit 0 a = i) (kids i)

/-- Every item sits in the slot its digit names, and a node below the root
    holds at least two items. -/
def Canonical (digit : Nat → α → Fin k) : Nat → Radix k α → Prop
  | _, empty => True
  | _, leaf _ => True
  | d, node kids =>
    2 ≤ (node kids).items.length ∧
      ∀ i, (∀ a ∈ (kids i).items, digit d a = i) ∧ Canonical digit (d + 1) (kids i)

def CanonicalRoot (digit : Nat → α → Fin k) (kids : Fin k → Radix k α) : Prop :=
  ∀ i, (∀ a ∈ (kids i).items, digit 0 a = i) ∧ Canonical digit 1 (kids i)

variable {digit : Nat → α → Fin k}

/-! ## Splitting a list by one digit -/

/-- If only slot `i` contributes, the slots together give that slot. -/
theorem flatMap_finRange_pick {β : Type} (f : Fin k → List β) (i : Fin k)
    (h : ∀ j, j ≠ i → f j = []) : (List.finRange k).flatMap f = f i := by
  have hpick : ∀ is : List (Fin k), is.Nodup → i ∈ is → is.flatMap f = f i := by
    intro is hnd hmem
    induction is with
    | nil => cases hmem
    | cons j is ih =>
      have hnd' := List.nodup_cons.mp hnd
      by_cases hj : j = i
      · have hrest : is.flatMap f = [] := by
          rw [List.flatMap_eq_nil_iff]
          intro j' hj'
          exact h j' fun he => hnd'.1 (hj ▸ he ▸ hj')
        rw [List.flatMap_cons, hrest, hj, List.append_nil]
      · have hmem' : i ∈ is := by
          cases hmem with
          | head => exact absurd rfl hj
          | tail _ h => exact h
        rw [List.flatMap_cons, h j hj, List.nil_append, ih hnd'.2 hmem']
  exact hpick _ (List.nodup_finRange k) (List.mem_finRange i)

/-- The buckets of a list, one after the other, hold the items of the list. -/
theorem flatMap_filter_perm (f : α → Fin k) (l : List α) :
    ((List.finRange k).flatMap fun i => l.filter fun a => f a = i).Perm l := by
  induction l with
  | nil => simp
  | cons a l ih =>
    have hsplit : ∀ i, (a :: l).filter (fun b => f b = i) =
        (if f a = i then [a] else []) ++ l.filter (fun b => f b = i) := by
      intro i
      by_cases hi : f a = i <;> simp [hi]
    have hone : (List.finRange k).flatMap (fun i => if f a = i then [a] else []) = [a] := by
      rw [flatMap_finRange_pick _ (f a) fun j hj => if_neg fun h => hj h.symm, if_pos rfl]
    simp only [hsplit]
    calc (List.finRange k).flatMap (fun i => (if f a = i then [a] else []) ++
          l.filter (fun b => f b = i))
        |>.Perm ((List.finRange k).flatMap (fun i => if f a = i then [a] else []) ++
          (List.finRange k).flatMap fun i => l.filter fun b => f b = i) :=
          (List.flatMap_append_perm _ _ _).symm
      _ = a :: (List.finRange k).flatMap fun i => l.filter fun b => f b = i := by rw [hone]; rfl
      _ |>.Perm (a :: l) := ih.cons a

/-! ## The tree of a list -/

/-- The tree holds the items of the list. -/
theorem Splits.items_perm {t : Radix k α} {d : Nat} {l : List α} (h : Splits digit d l t) :
    t.items.Perm l := by
  induction t generalizing d l with
  | empty =>
    cases h
    exact List.Perm.refl _
  | leaf a =>
    cases h
    exact List.Perm.refl _
  | node kids ih =>
    obtain ⟨-, hkids⟩ := h
    have hslots : (node kids).items.Perm
        ((List.finRange k).flatMap fun i => l.filter fun a => digit d a = i) :=
      List.Perm.flatMap_left _ fun i _ => ih i (hkids i)
    exact hslots.trans (flatMap_filter_perm _ l)

theorem SplitsRoot.items_perm {l : List α} {kids : Fin k → Radix k α}
    (h : SplitsRoot digit l kids) : (node kids).items.Perm l := by
  have hslots : (node kids).items.Perm
      ((List.finRange k).flatMap fun i => l.filter fun a => digit 0 a = i) :=
    List.Perm.flatMap_left _ fun i _ => (h i).items_perm
  exact hslots.trans (flatMap_filter_perm _ l)

/-- The order of the list does not matter. -/
theorem Splits.perm {t : Radix k α} {d : Nat} {l l' : List α} (h : Splits digit d l t)
    (hp : l.Perm l') : Splits digit d l' t := by
  induction t generalizing d l l' with
  | empty =>
    cases h
    exact hp.symm.eq_nil
  | leaf a =>
    cases h
    exact hp.symm.eq_singleton
  | node kids ih =>
    obtain ⟨hlen, hkids⟩ := h
    exact ⟨hp.length_eq ▸ hlen, fun i => ih i (hkids i) (hp.filter _)⟩

theorem SplitsRoot.perm {l l' : List α} {kids : Fin k → Radix k α} (h : SplitsRoot digit l kids)
    (hp : l.Perm l') : SplitsRoot digit l' kids :=
  fun i => (h i).perm (hp.filter _)

/-- A list has at most one tree. -/
theorem Splits.unique {t t' : Radix k α} {d : Nat} {l : List α} (h : Splits digit d l t)
    (h' : Splits digit d l t') : t = t' := by
  induction t generalizing d l t' with
  | empty =>
    cases h
    cases t' with
    | empty => rfl
    | leaf a => cases h'
    | node kids => exact absurd h'.1 (by simp)
  | leaf a =>
    cases h
    cases t' with
    | empty => cases h'
    | leaf b => cases h'; rfl
    | node kids => exact absurd h'.1 (by simp)
  | node kids ih =>
    obtain ⟨hlen, hkids⟩ := h
    cases t' with
    | empty => cases h'; simp at hlen
    | leaf a => cases h'; simp at hlen
    | node kids' =>
      have heq : kids = kids' := funext fun i => ih i (hkids i) (h'.2 i)
      rw [heq]

/-! ## Canonical trees -/

/-- Filtering the items of a node by digit finds one slot's items. -/
theorem items_filter {kids : Fin k → Radix k α} {f : α → Fin k}
    (h : ∀ i, ∀ a ∈ (kids i).items, f a = i) (i : Fin k) :
    (node kids).items.filter (fun a => f a = i) = (kids i).items := by
  have hslot : ∀ j, (kids j).items.filter (fun a => f a = i) =
      if j = i then (kids i).items else [] := by
    intro j
    by_cases hj : j = i
    · subst hj
      rw [if_pos rfl, List.filter_eq_self]
      intro a ha
      exact decide_eq_true (h j a ha)
    · rw [if_neg hj, List.filter_eq_nil_iff]
      intro a ha hfa
      exact hj ((h j a ha).symm.trans (of_decide_eq_true hfa))
  show ((List.finRange k).flatMap fun j => (kids j).items).filter _ = _
  rw [List.filter_flatMap]
  simp only [hslot]
  rw [flatMap_finRange_pick _ i fun j hj => if_neg hj, if_pos rfl]

/-- A canonical tree is the tree of its own items. -/
theorem Canonical.splits {t : Radix k α} {d : Nat} (h : Canonical digit d t) :
    Splits digit d t.items t := by
  induction t generalizing d with
  | empty => rfl
  | leaf a => rfl
  | node kids ih =>
    obtain ⟨hlen, hkids⟩ := h
    refine ⟨hlen, fun i => ?_⟩
    rw [items_filter fun j => (hkids j).1]
    exact ih i (hkids i).2

theorem CanonicalRoot.splits {kids : Fin k → Radix k α} (h : CanonicalRoot digit kids) :
    SplitsRoot digit (node kids).items kids := by
  intro i
  rw [items_filter fun j => (h j).1]
  exact (h i).2.splits

/-- And the tree of a list is in canonical form. -/
theorem Splits.canonical {t : Radix k α} {d : Nat} {l : List α} (h : Splits digit d l t) :
    Canonical digit d t := by
  induction t generalizing d l with
  | empty => trivial
  | leaf a => trivial
  | node kids ih =>
    refine ⟨h.items_perm.length_eq ▸ h.1, fun i => ⟨fun a ha => ?_, ih i (h.2 i)⟩⟩
    have hmem := (h.2 i).items_perm.mem_iff.mp ha
    exact of_decide_eq_true (List.mem_filter.mp hmem).2

theorem SplitsRoot.canonical {l : List α} {kids : Fin k → Radix k α}
    (h : SplitsRoot digit l kids) : CanonicalRoot digit kids := by
  refine fun i => ⟨fun a ha => ?_, (h i).canonical⟩
  have hmem := (h i).items_perm.mem_iff.mp ha
  exact of_decide_eq_true (List.mem_filter.mp hmem).2

/-! ## Depth -/

/-- Items that have a tree from depth `d` on differ, two by two, in a digit
    from there on. -/
theorem Splits.pairwise {t : Radix k α} {d : Nat} {l : List α} (h : Splits digit d l t) :
    l.Pairwise fun a b => ∃ e, d ≤ e ∧ digit e a ≠ digit e b := by
  induction t generalizing d l with
  | empty =>
    cases h
    exact List.Pairwise.nil
  | leaf a =>
    cases h
    exact List.pairwise_singleton _ a
  | node kids ih =>
    obtain ⟨-, hkids⟩ := h
    rw [List.pairwise_iff_forall_sublist]
    intro a b hab
    by_cases hdigit : digit d a = digit d b
    · -- Both go to one slot, and differ below it.
      have hslot : [a, b].Sublist (l.filter fun c => digit d c = digit d b) := by
        have hfilter := hab.filter fun c => decide (digit d c = digit d b)
        simpa [hdigit] using hfilter
      obtain ⟨e, he, hne⟩ :=
        List.pairwise_iff_forall_sublist.mp (ih (digit d b) (hkids (digit d b))) hslot
      exact ⟨e, by omega, hne⟩
    · exact ⟨d, Nat.le_refl d, hdigit⟩

theorem SplitsRoot.pairwise {l : List α} {kids : Fin k → Radix k α}
    (h : SplitsRoot digit l kids) : l.Pairwise fun a b => ∃ e, digit e a ≠ digit e b := by
  rw [List.pairwise_iff_forall_sublist]
  intro a b hab
  by_cases hdigit : digit 0 a = digit 0 b
  · have hslot : [a, b].Sublist (l.filter fun c => digit 0 c = digit 0 b) := by
      have hfilter := hab.filter fun c => decide (digit 0 c = digit 0 b)
      simpa [hdigit] using hfilter
    obtain ⟨e, -, hne⟩ := List.pairwise_iff_forall_sublist.mp (h (digit 0 b)).pairwise hslot
    exact ⟨e, hne⟩
  · exact ⟨0, hdigit⟩

end Radix

end Lib
