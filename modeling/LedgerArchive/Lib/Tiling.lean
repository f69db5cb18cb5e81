import Mathlib.Data.List.Basic
import Mathlib.Data.List.Range

/-! # Tilings

    Ranges of numbers next to each other, in order, with no gap and no
    overlap. A range is anything that has a first number and the number
    behind its last one; none is empty. -/

namespace Lib

variable {α : Type} {first next : α → Nat} {lo mid hi : Nat} {l m : List α}

/-- The ranges of the list tile the numbers from `lo` to below `hi`. -/
def Tiles (first next : α → Nat) : Nat → List α → Nat → Prop
  | lo, [], hi => lo = hi
  | lo, a :: l, hi => first a = lo ∧ first a < next a ∧ Tiles first next (next a) l hi

theorem Tiles.append (h : Tiles first next lo l mid) (h' : Tiles first next mid m hi) :
    Tiles first next lo (l ++ m) hi := by
  induction l generalizing lo with
  | nil =>
    obtain rfl : lo = mid := h
    exact h'
  | cons a l ih =>
    obtain ⟨hfirst, hne, hrest⟩ := h
    exact ⟨hfirst, hne, ih hrest⟩

/-- One more range behind the others. -/
theorem Tiles.concat {a : α} (h : Tiles first next lo l (first a)) (ha : first a < next a) :
    Tiles first next lo (l ++ [a]) (next a) :=
  h.append ⟨rfl, ha, rfl⟩

theorem Tiles.le (h : Tiles first next lo l hi) : lo ≤ hi := by
  induction l generalizing lo with
  | nil => exact le_of_eq h
  | cons a l ih =>
    obtain ⟨hfirst, hne, hrest⟩ := h
    have := ih hrest
    omega

/-- No range goes beyond the end. -/
theorem Tiles.of_mem {a : α} (h : Tiles first next lo l hi) (ha : a ∈ l) :
    first a < next a ∧ next a ≤ hi := by
  induction l generalizing lo with
  | nil => cases ha
  | cons b l ih =>
    obtain ⟨hfirst, hne, hrest⟩ := h
    rcases List.mem_cons.mp ha with rfl | ha
    · exact ⟨hne, hrest.le⟩
    · exact ih hrest ha

/-- No tile begins before the range does. -/
theorem Tiles.le_of_mem {a : α} (h : Tiles first next lo l hi) (ha : a ∈ l) : lo ≤ first a := by
  induction l generalizing lo with
  | nil => cases ha
  | cons b l ih =>
    obtain ⟨hfirst, hne, hrest⟩ := h
    rcases List.mem_cons.mp ha with rfl | ha
    · exact le_of_eq hfirst.symm
    · have hlater := ih hrest ha
      omega

/-- Some tile ends where the tiling does. -/
theorem Tiles.exists_next_eq {a : α} (h : Tiles first next lo l hi) (ha : a ∈ l) :
    ∃ b ∈ l, next b = hi := by
  induction l generalizing lo a with
  | nil => cases ha
  | cons b l ih =>
    obtain ⟨-, -, hrest⟩ := h
    cases l with
    | nil => exact ⟨b, List.mem_cons_self, hrest⟩
    | cons c l =>
      obtain ⟨x, hx, heq⟩ := ih hrest List.mem_cons_self
      exact ⟨x, List.mem_cons_of_mem b hx, heq⟩

/-- No two tiles begin at the same number. -/
theorem Tiles.first_nodup (h : Tiles first next lo l hi) : (l.map first).Nodup := by
  induction l generalizing lo with
  | nil => exact List.nodup_nil
  | cons a l ih =>
    obtain ⟨-, hne, hrest⟩ := h
    rw [List.map_cons, List.nodup_cons]
    refine ⟨fun hmem => ?_, ih hrest⟩
    obtain ⟨b, hb, heq⟩ := List.mem_map.mp hmem
    have hlater := hrest.le_of_mem hb
    omega

/-- Of two tilings of the same numbers neither begins the other, if the
    label of a range tells where the range ends. -/
theorem Tiles.eq_of_prefix {β : Type} {label : α → β} (h : Tiles first next lo l hi)
    (h' : Tiles first next lo m hi) (hbegins : l.map label <+: m.map label)
    (hlabel : ∀ a ∈ l, ∀ b ∈ m, label a = label b → next a = next b) :
    l.map label = m.map label := by
  induction l generalizing lo m with
  | nil =>
    obtain rfl : lo = hi := h
    cases m with
    | nil => rfl
    | cons b m =>
      obtain ⟨hfirst, hne, hrest⟩ := h'
      have := hrest.le
      omega
  | cons a l ih =>
    cases m with
    | nil => exact absurd (List.prefix_nil.mp hbegins) (by simp)
    | cons b m =>
      obtain ⟨-, -, hrest⟩ := h
      obtain ⟨-, -, hrest'⟩ := h'
      rw [List.map_cons, List.map_cons, List.cons_prefix_cons] at hbegins
      rw [hlabel a List.mem_cons_self b List.mem_cons_self hbegins.1] at hrest
      rw [List.map_cons, List.map_cons, hbegins.1]
      congr 1
      exact ih hrest hrest' hbegins.2 fun x hx y hy =>
        hlabel x (List.mem_cons_of_mem _ hx) y (List.mem_cons_of_mem _ hy)

/-- The numbers of the ranges, one range after the other, are all the
    numbers, once each and in order. -/
theorem Tiles.numbers (h : Tiles first next lo l hi) :
    (l.flatMap fun a => List.range' (first a) (next a - first a)) = List.range' lo (hi - lo) := by
  induction l generalizing lo with
  | nil =>
    obtain rfl : lo = hi := h
    simp
  | cons a l ih =>
    obtain ⟨hfirst, hne, hrest⟩ := h
    have hle := hrest.le
    have hfrom : next a = first a + (next a - first a) := by omega
    have hcount : hi - first a = (next a - first a) + (hi - next a) := by omega
    rw [List.flatMap_cons, ih hrest, ← hfirst, hcount, ← List.range'_append_1, ← hfrom]

end Lib
