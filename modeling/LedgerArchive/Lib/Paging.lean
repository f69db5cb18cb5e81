import Mathlib.Data.List.Basic

/-! # Paging

    A long answer is fetched page by page: each page starts behind the last
    row of the one before, and an empty page ends the answer. When a page is
    a nonempty beginning of what is left (`Paged`), the pages put together
    are the whole answer (`pages_eq`). On rows in strict order, what is left
    behind a row is what comes after it (`filter_behind`). -/

namespace Lib

variable {α μ : Type}

/-- Fetch pages from a marker on until an empty one comes back. The first
    argument bounds their number. -/
def pages (fetch : Option μ → List α) (mark : α → μ) : Nat → Option μ → Option (List α)
  | 0, _ => none
  | fuel + 1, marker =>
    match (fetch marker).getLast? with
    | none => some []
    | some last => (pages fetch mark fuel (some (mark last))).map (fetch marker ++ ·)

/-- `rest` is what is left behind a marker, and `fetch` returns a page of
    it. -/
structure Paged (fetch : Option μ → List α) (mark : α → μ) (rest : Option μ → List α) : Prop where
  nonempty : ∀ marker, fetch marker = [] → rest marker = []
  next : ∀ marker last, (fetch marker).getLast? = some last →
    rest marker = fetch marker ++ rest (some (mark last))

variable {fetch rest : Option μ → List α} {mark : α → μ}

/-- The pages are what is left, cut into pieces. -/
theorem pages_eq (h : Paged fetch mark rest) {fuel : Nat} {marker : Option μ}
    (hfuel : (rest marker).length < fuel) : pages fetch mark fuel marker = some (rest marker) := by
  induction fuel generalizing marker with
  | zero => exact absurd hfuel (Nat.not_lt_zero _)
  | succ fuel ih =>
    unfold pages
    cases hlast : (fetch marker).getLast? with
    | none =>
      rw [h.nonempty marker (List.getLast?_eq_none_iff.mp hlast)]
    | some last =>
      have hne : fetch marker ≠ [] := by
        intro hnil
        rw [hnil] at hlast
        cases hlast
      have hrest := h.next marker last hlast
      have hpos := List.length_pos_of_ne_nil hne
      rw [hrest, List.length_append] at hfuel
      dsimp only
      rw [ih (by omega), Option.map_some, ← hrest]

/-- In a strict order the rows after the last one of a beginning are the
    others. -/
theorem filter_behind {r : α → α → Prop} (hasymm : ∀ a b, r a b → ¬ r b a) {front back : List α}
    {last : α} {p : α → Bool} (hp : ∀ a, p a = true ↔ r last a)
    (hsorted : (front ++ back).Pairwise r) (hlast : front.getLast? = some last) :
    (front ++ back).filter p = back := by
  obtain ⟨init, rfl⟩ := List.getLast?_eq_some_iff.mp hlast
  obtain ⟨hfront, -, hcross⟩ := List.pairwise_append.mp hsorted
  rw [List.filter_append]
  have hno : (init ++ [last]).filter p = [] := by
    rw [List.filter_eq_nil_iff]
    intro a ha hpa
    have hla := (hp a).mp hpa
    rcases List.mem_append.mp ha with ha | ha
    · exact hasymm _ _ hla ((List.pairwise_append.mp hfront).2.2 a ha last List.mem_cons_self)
    · rw [List.mem_singleton.mp ha] at hla
      exact hasymm _ _ hla hla
  have hall : back.filter p = back := by
    rw [List.filter_eq_self]
    intro b hb
    exact (hp b).mpr (hcross last (List.mem_append_right _ List.mem_cons_self) b hb)
  rw [hno, hall, List.nil_append]

end Lib
