import Mathlib.Data.List.Sort
import Mathlib.Data.List.Nodup

/-! # Sorting by a key

    A list sorted by a key of its elements. Elements with one key stay in
    the order they had (`insertionSort_key_stable`). When no key occurs
    twice, the result depends on the elements alone and not on the order
    they came in (`insertionSort_key_perm`). -/

namespace Lib

variable {α κ : Type} [LinearOrder κ] (key : α → κ)

/-- Sorted by key: every element is followed by elements of no smaller key. -/
theorem insertionSort_key_pairwise (l : List α) :
    (l.insertionSort fun a b => key a ≤ key b).Pairwise fun a b => key a ≤ key b := by
  have htotal : Std.Total fun a b : α => key a ≤ key b := ⟨fun a b => le_total (key a) (key b)⟩
  have htrans : IsTrans α fun a b => key a ≤ key b := ⟨fun _ _ _ => le_trans⟩
  exact List.pairwise_insertionSort _ l

/-- `s` is `l` in the order of the keys, and of the elements with one key
    none has overtaken another. -/
structure StablySorted (l s : List α) : Prop where
  perm : s.Perm l
  ordered : s.Pairwise fun a b => key a ≤ key b
  stable : ∀ k, (s.filter fun a => key a = k) = l.filter fun a => key a = k

theorem insertionSort_key_stable (l : List α) :
    StablySorted key l (l.insertionSort fun a b => key a ≤ key b) where
  perm := List.perm_insertionSort _ l
  ordered := insertionSort_key_pairwise key l
  stable k := by
    have hkey : ∀ a ∈ l.filter (fun a => key a = k), key a = k := fun a ha =>
      of_decide_eq_true (List.mem_filter.mp ha).2
    have heq : (l.filter fun a => key a = k).Pairwise fun a b => key a ≤ key b := by
      rw [List.pairwise_iff_forall_sublist]
      intro a b hab
      rw [hkey a (hab.subset (by simp)), hkey b (hab.subset (by simp))]
    -- Elements with one key are in order, so they stay a part of the list.
    have hsub := (List.sublist_insertionSort heq List.filter_sublist).filter fun a => key a = k
    rw [List.filter_filter] at hsub
    simp only [Bool.and_self] at hsub
    refine (hsub.eq_of_length ?_).symm
    exact ((List.perm_insertionSort (fun a b => key a ≤ key b) l).filter _).length_eq.symm

variable {key}

theorem insertionSort_key_perm {l l' : List α} (hp : l.Perm l') (hnd : (l.map key).Nodup) :
    (l.insertionSort fun a b => key a ≤ key b) = l'.insertionSort fun a b => key a ≤ key b := by
  have hl := List.perm_insertionSort (fun a b : α => key a ≤ key b) l
  have hl' := List.perm_insertionSort (fun a b : α => key a ≤ key b) l'
  apply List.Perm.eq_of_pairwise _ (insertionSort_key_pairwise key l)
    (insertionSort_key_pairwise key l') (hl.trans (hp.trans hl'.symm))
  intro a b ha hb hab hba
  exact List.inj_on_of_nodup_map hnd (hl.mem_iff.mp ha) (hp.mem_iff.mpr (hl'.mem_iff.mp hb))
    (le_antisymm hab hba)

/-- Sorting and then selecting is selecting and then sorting. -/
theorem filter_insertionSort_key (p : α → Bool) {l : List α} (hnd : (l.map key).Nodup) :
    (l.insertionSort fun a b => key a ≤ key b).filter p =
      (l.filter p).insertionSort fun a b => key a ≤ key b := by
  have hl := List.perm_insertionSort (fun a b : α => key a ≤ key b) l
  have hf := List.perm_insertionSort (fun a b : α => key a ≤ key b) (l.filter p)
  apply List.Perm.eq_of_pairwise _ ((insertionSort_key_pairwise key l).filter p)
    (insertionSort_key_pairwise key (l.filter p)) ((hl.filter p).trans hf.symm)
  intro a b ha hb hab hba
  have hal := hl.mem_iff.mp (List.mem_filter.mp ha).1
  have hbl := (List.mem_filter.mp (hf.mem_iff.mp hb)).1
  exact List.inj_on_of_nodup_map hnd hal hbl (le_antisymm hab hba)

end Lib
