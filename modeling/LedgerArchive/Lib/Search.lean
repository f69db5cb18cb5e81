import LedgerArchive.Lib.Walk

/-! # Searches that remember where they have been

    A search from `root` is done with some names and has others pending.
    In whatever order it takes them, it is under way (`Search`) while it has
    met nothing that `root` does not reach, and has met what the names it is
    done with refer to. With nothing pending it is done with exactly what
    `root` reaches (`Search.finished`). -/

namespace Lib

variable {H : Type} {succ : H → Option (List H)} {root h : H} {done pending pending' cs : List H}

structure Search (succ : H → Option (List H)) (root : H) (done pending : List H) : Prop where
  once : done.Nodup
  root_met : root ∈ done ∨ root ∈ pending
  reached : ∀ x, x ∈ done ∨ x ∈ pending → Reaches succ root x
  closed : ∀ x ∈ done, ∃ cs, succ x = some cs ∧ ∀ c ∈ cs, c ∈ done ∨ c ∈ pending

namespace Search

theorem start (succ : H → Option (List H)) (root : H) : Search succ root [] [root] where
  once := List.nodup_nil
  root_met := .inr List.mem_cons_self
  reached := by
    intro x hx
    have hroot : x = root := by simpa using hx
    exact hroot ▸ .refl
  closed := fun x hx => absurd hx List.not_mem_nil

/-- A pending name that is done with is dropped. -/
theorem skip (hs : Search succ root done (h :: pending)) (hh : h ∈ done) :
    Search succ root done pending := by
  have hdrop : ∀ x, x ∈ done ∨ x ∈ h :: pending → x ∈ done ∨ x ∈ pending := by
    intro x hx
    by_cases hxh : x = h
    · exact .inl (hxh ▸ hh)
    · simpa [hxh] using hx
  have hkeep : ∀ x, x ∈ done ∨ x ∈ pending → x ∈ done ∨ x ∈ h :: pending :=
    fun x hx => hx.imp_right (List.mem_cons_of_mem h)
  exact ⟨hs.once, hdrop root hs.root_met, fun x hx => hs.reached x (hkeep x hx), fun x hx => by
    obtain ⟨cs, hcs, hmet⟩ := hs.closed x hx
    exact ⟨cs, hcs, fun c hc => hdrop c (hmet c hc)⟩⟩

/-- A pending name is read, and what it refers to is pending unless it was
    met before. -/
theorem visit (hs : Search succ root done (h :: pending)) (hh : h ∉ done) (hcs : succ h = some cs)
    (hfrom : ∀ x ∈ pending', x ∈ pending ∨ x ∈ cs)
    (hmet : ∀ x, x ∈ pending ∨ x ∈ cs → x ∈ done ++ [h] ∨ x ∈ pending') :
    Search succ root (done ++ [h]) pending' := by
  have hreach : Reaches succ root h := hs.reached h (.inr List.mem_cons_self)
  have hkeep : ∀ x, x ∈ done ∨ x ∈ h :: pending → x ∈ done ++ [h] ∨ x ∈ pending' := by
    intro x hx
    rcases hx with hx | hx
    · exact .inl (List.mem_append_left _ hx)
    · by_cases hxh : x = h
      · exact .inl (List.mem_append_right _ (by simp [hxh]))
      · exact hmet x (.inl (by simpa [hxh] using hx))
  refine ⟨?_, hkeep root hs.root_met, ?_, ?_⟩
  · exact List.nodup_append.mpr ⟨hs.once, List.nodup_singleton h, fun a ha b hb hab => by
      rw [List.mem_singleton.mp hb] at hab
      exact hh (hab ▸ ha)⟩
  · intro x hx
    rcases hx with hx | hx
    · rcases List.mem_append.mp hx with hx | hx
      · exact hs.reached x (.inl hx)
      · rw [List.mem_singleton.mp hx]
        exact hreach
    · rcases hfrom x hx with hx | hx
      · exact hs.reached x (.inr (List.mem_cons_of_mem h hx))
      · exact hreach.tail ⟨cs, hcs, hx⟩
  · intro x hx
    rcases List.mem_append.mp hx with hx | hx
    · obtain ⟨cs', hcs', hall⟩ := hs.closed x hx
      exact ⟨cs', hcs', fun c hc => hkeep c (hall c hc)⟩
    · rw [List.mem_singleton.mp hx]
      exact ⟨cs, hcs, fun c hc => hmet c (.inr hc)⟩

/-- A finished search is done with what the root reaches. -/
theorem finished (hs : Search succ root done []) :
    (∀ x, x ∈ done ↔ Reaches succ root x) ∧ ∀ x, Reaches succ root x → (succ x).isSome := by
  have hmem : ∀ x, x ∈ done ↔ Reaches succ root x := by
    intro x
    constructor
    · intro hx
      exact hs.reached x (.inl hx)
    · intro hr
      induction hr with
      | refl => simpa using hs.root_met
      | @tail a b _ href ih =>
        obtain ⟨cs, hcs, hb⟩ := href
        obtain ⟨cs', hcs', hall⟩ := hs.closed a ih
        rw [hcs, Option.some.injEq] at hcs'
        subst hcs'
        simpa using hall b hb
  refine ⟨hmem, fun x hx => ?_⟩
  obtain ⟨cs, hcs, -⟩ := hs.closed x ((hmem x).mpr hx)
  rw [hcs]
  rfl

end Search

end Lib
