import Mathlib.Data.List.Perm.Subperm
import Mathlib.Data.List.Nodup
import Mathlib.Data.Finset.Card
import Mathlib.Logic.Relation
import Mathlib.Order.Lattice.Nat

/-! # Walks over nodes that name each other

    Nodes stored under names of a type `H` refer to one another by name.
    `succ h` is the list of names that the node under `h` refers to, or
    `none` when there is no such node or it cannot be read.

    `Walks succ stack visit` is a depth-first walk without a memory of
    where it has been: it pops a name, reads the node and pushes what it
    refers to, until the stack is empty. `visit` lists the names in the
    order they are popped, a name once for each position it has in the
    unfolded tree.

    A walk that comes to its end visits exactly what the stack reaches
    (`Walks.mem_iff`), has read every node it visits (`Walks.closed`), and
    visits the same names whatever the order of the references
    (`Walks.reorder`). -/

namespace Lib

variable {H : Type}

/-! ## References -/

/-- The node under `a` refers to `b`. -/
def Refers (succ : H → Option (List H)) (a b : H) : Prop :=
  ∃ cs, succ a = some cs ∧ b ∈ cs

/-- `b` is found from `a` by following references. -/
def Reaches (succ : H → Option (List H)) : H → H → Prop :=
  Relation.ReflTransGen (Refers succ)

inductive Walks (succ : H → Option (List H)) : List H → List H → Prop where
  | done : Walks succ [] []
  | step {h : H} {cs stack visit : List H} (hs : succ h = some cs)
      (hw : Walks succ (cs ++ stack) visit) : Walks succ (h :: stack) (h :: visit)

/-- `n` references lead from `a` to `b`. -/
inductive ReachesIn (succ : H → Option (List H)) (a : H) : Nat → H → Prop where
  | refl : ReachesIn succ a 0 a
  | tail {n : Nat} {b c : H} (h : ReachesIn succ a n b) (hr : Refers succ b c) :
      ReachesIn succ a (n + 1) c

theorem reaches_iff_in {succ : H → Option (List H)} {a b : H} :
    Reaches succ a b ↔ ∃ n, ReachesIn succ a n b := by
  constructor
  · intro h
    induction h with
    | refl => exact ⟨0, .refl⟩
    | tail _ hr ih =>
      obtain ⟨n, hn⟩ := ih
      exact ⟨n + 1, .tail hn hr⟩
  · rintro ⟨n, h⟩
    induction h with
    | refl => exact .refl
    | tail _ hr ih => exact .tail ih hr

/-- A set of names is what `root` reaches exactly when `root` is in it, no
    reference leads out of it, and every other member is referred to from
    a lower level. -/
theorem held_iff_reaches_iff {succ : H → Option (List H)} {held : H → Prop} {root : H} :
    (∀ h, held h ↔ Reaches succ root h) ↔
      held root ∧ (∀ a b, held a → Refers succ a b → held b) ∧
        ∃ level : H → Nat, ∀ h, held h → h ≠ root →
          ∃ p, held p ∧ Refers succ p h ∧ level p < level h := by
  classical
  constructor
  · intro hheld
    refine ⟨(hheld root).mpr .refl, ?_, ?_⟩
    · intro a b ha hr
      exact (hheld b).mpr (.tail ((hheld a).mp ha) hr)
    · -- The level of a name is the length of a shortest path to it.
      obtain ⟨level, hin, hmin⟩ : ∃ level : H → Nat,
          (∀ h, Reaches succ root h → ReachesIn succ root (level h) h) ∧
            ∀ h n, ReachesIn succ root n h → level h ≤ n :=
        ⟨fun h => sInf {n | ReachesIn succ root n h}, fun h hr => Nat.sInf_mem (reaches_iff_in.mp hr),
          fun h n hn => Nat.sInf_le hn⟩
      refine ⟨level, fun h hh hne => ?_⟩
      have hpath := hin h ((hheld h).mp hh)
      generalize hn : level h = n at hpath
      cases hpath with
      | refl => exact absurd rfl hne
      | @tail m p _ hp hr =>
        refine ⟨p, (hheld p).mpr (reaches_iff_in.mpr ⟨m, hp⟩), hr, ?_⟩
        have hle : level p ≤ m := hmin p m hp
        omega
  · rintro ⟨hroot, hclosed, level, hlevel⟩ h
    constructor
    · intro hh
      induction hn : level h using Nat.strong_induction_on generalizing h with
      | _ n ih =>
        by_cases hne : h = root
        · exact hne ▸ .refl
        · obtain ⟨p, hp, hr, hlt⟩ := hlevel h hh hne
          exact .tail (ih (level p) (hn ▸ hlt) p hp rfl) hr
    · intro hr
      induction hr with
      | refl => exact hroot
      | tail _ href ih => exact hclosed _ _ ih href

namespace Walks

variable {succ succ' : H → Option (List H)} {stack stack' visit visit' : List H}

/-! ## Taking a walk apart -/

theorem append (h : Walks succ stack visit) (h' : Walks succ stack' visit') :
    Walks succ (stack ++ stack') (visit ++ visit') := by
  induction h with
  | done => exact h'
  | step hs _ ih =>
    rw [List.append_assoc] at ih
    exact .step hs ih

/-- A walk finishes with the top part of the stack before it starts with
    the rest. -/
theorem split (h : Walks succ (stack ++ stack') visit) :
    ∃ v v', visit = v ++ v' ∧ Walks succ stack v ∧ Walks succ stack' v' := by
  generalize hst : stack ++ stack' = st at h
  induction h generalizing stack with
  | done =>
    obtain ⟨h1, h2⟩ := List.append_eq_nil_iff.mp hst
    subst h1; subst h2
    exact ⟨[], [], rfl, .done, .done⟩
  | @step a cs rest v hs hw ih =>
    cases stack with
    | nil =>
      rw [List.nil_append] at hst
      exact ⟨[], a :: v, rfl, .done, hst ▸ .step hs hw⟩
    | cons b s =>
      rw [List.cons_append, List.cons.injEq] at hst
      obtain ⟨rfl, hrest⟩ := hst
      obtain ⟨v1, v2, hv, h1, h2⟩ := @ih (cs ++ s) (by rw [List.append_assoc, hrest])
      exact ⟨b :: v1, v2, by rw [hv]; rfl, .step hs h1, h2⟩

theorem cons_iff {h : H} :
    Walks succ (h :: stack) visit ↔
      ∃ v v', visit = v ++ v' ∧ Walks succ [h] v ∧ Walks succ stack v' := by
  constructor
  · intro hw
    have hw' : Walks succ ([h] ++ stack) visit := hw
    exact hw'.split
  · rintro ⟨v, v', hv, h1, h2⟩
    rw [hv]
    exact h1.append h2

theorem single_iff {h : H} :
    Walks succ [h] visit ↔ ∃ cs v, succ h = some cs ∧ Walks succ cs v ∧ visit = h :: v := by
  constructor
  · intro hw
    cases hw with
    | step hs hw =>
      rw [List.append_nil] at hw
      exact ⟨_, _, hs, hw, rfl⟩
  · rintro ⟨cs, v, hs, hw, hv⟩
    subst hv
    exact .step hs (by rwa [List.append_nil])

theorem unique (h : Walks succ stack visit) (h' : Walks succ stack visit') : visit = visit' := by
  induction h generalizing visit' with
  | done =>
    cases h'
    rfl
  | step hs _ ih =>
    cases h' with
    | step hs' hw' =>
      rw [hs, Option.some.injEq] at hs'
      subst hs'
      rw [ih hw']

/-! ## What a walk visits -/

theorem stack_subset (h : Walks succ stack visit) : ∀ x ∈ stack, x ∈ visit := by
  induction h with
  | done => intro x hx; exact hx
  | step _ _ ih =>
    intro x hx
    rcases List.mem_cons.mp hx with hx | hx
    · exact hx ▸ List.mem_cons_self
    · exact List.mem_cons_of_mem _ (ih x (List.mem_append_right _ hx))

/-- Every node a walk visits can be read, and the walk visits what it
    refers to. -/
theorem closed (h : Walks succ stack visit) :
    ∀ x ∈ visit, ∃ cs, succ x = some cs ∧ ∀ c ∈ cs, c ∈ visit := by
  induction h with
  | done => intro x hx; cases hx
  | @step a cs rest v hs hw ih =>
    intro x hx
    rcases List.mem_cons.mp hx with hx | hx
    · subst hx
      refine ⟨cs, hs, fun c hc => List.mem_cons_of_mem _ ?_⟩
      exact hw.stack_subset c (List.mem_append_left _ hc)
    · obtain ⟨cs', hs', hsub⟩ := ih x hx
      exact ⟨cs', hs', fun c hc => List.mem_cons_of_mem _ (hsub c hc)⟩

theorem mem_of_reaches (h : Walks succ stack visit) {a b : H} (ha : a ∈ visit)
    (hr : Reaches succ a b) : b ∈ visit := by
  induction hr with
  | refl => exact ha
  | tail _ href ih =>
    obtain ⟨cs, hs, hb⟩ := href
    obtain ⟨cs', hs', hsub⟩ := h.closed _ ih
    rw [hs, Option.some.injEq] at hs'
    exact hsub _ (hs' ▸ hb)

/-- A walk visits exactly what its stack reaches. -/
theorem mem_iff (h : Walks succ stack visit) {x : H} :
    x ∈ visit ↔ ∃ a ∈ stack, Reaches succ a x := by
  constructor
  · intro hx
    induction h with
    | done => cases hx
    | @step a cs rest v hs hw ih =>
      rcases List.mem_cons.mp hx with hx | hx
      · exact ⟨a, List.mem_cons_self, hx ▸ .refl⟩
      · obtain ⟨b, hb, hr⟩ := ih hx
        rcases List.mem_append.mp hb with hb | hb
        · exact ⟨a, List.mem_cons_self, .head ⟨cs, hs, hb⟩ hr⟩
        · exact ⟨b, List.mem_cons_of_mem _ hb, hr⟩
  · rintro ⟨a, ha, hr⟩
    exact h.mem_of_reaches (h.stack_subset a ha) hr

theorem mem_root_iff {root x : H} (h : Walks succ [root] visit) :
    x ∈ visit ↔ Reaches succ root x := by
  rw [h.mem_iff]
  simp

/-- Below every node a walk visits there is a walk of its own. -/
theorem sub_walk (h : Walks succ stack visit) :
    ∀ x ∈ visit, ∃ v, Walks succ [x] v ∧ v.Sublist visit := by
  induction h with
  | done => intro x hx; cases hx
  | @step a cs rest v hs hw ih =>
    intro x hx
    rcases List.mem_cons.mp hx with hx | hx
    · subst hx
      obtain ⟨v1, v2, hv, h1, -⟩ := hw.split
      refine ⟨x :: v1, single_iff.mpr ⟨cs, v1, hs, h1, rfl⟩, ?_⟩
      rw [hv]
      exact (List.sublist_append_left v1 v2).cons_cons x
    · obtain ⟨v', hv', hsub⟩ := ih x hx
      exact ⟨v', hv', hsub.cons a⟩

/-- The walk below a reference is part of the walk below the node, without
    the node itself: references lead down. -/
theorem sub_walk_refers {a b : H} (h : Walks succ [a] visit) (hr : Refers succ a b) :
    ∃ v, Walks succ [b] v ∧ (a :: v).Sublist visit := by
  obtain ⟨cs, v, hs, hw, hv⟩ := single_iff.mp h
  obtain ⟨cs', hs', hb⟩ := hr
  rw [hs, Option.some.injEq] at hs'
  subst hs'
  obtain ⟨v', hv', hsub⟩ := hw.sub_walk b (hw.stack_subset b hb)
  exact ⟨v', hv', hv ▸ hsub.cons_cons a⟩

/-! ## Changing the nodes or the order -/

/-- A walk looks at nothing but the nodes it visits. -/
theorem congr (h : Walks succ stack visit) (hs : ∀ x ∈ visit, succ' x = succ x) :
    Walks succ' stack visit := by
  induction h with
  | done => exact .done
  | @step a cs rest v hsa _ ih =>
    have ha : succ' a = some cs := by rw [hs a List.mem_cons_self, hsa]
    exact .step ha (ih fun x hx => hs x (List.mem_cons_of_mem _ hx))

theorem perm_stack (h : Walks succ stack visit) (hp : stack.Perm stack') :
    ∃ v, Walks succ stack' v ∧ v.Perm visit := by
  induction hp generalizing visit with
  | nil => exact ⟨visit, h, .refl _⟩
  | cons a _ ih =>
    obtain ⟨v1, v2, hv, h1, h2⟩ := cons_iff.mp h
    obtain ⟨v, hw, hvp⟩ := ih h2
    exact ⟨v1 ++ v, cons_iff.mpr ⟨v1, v, rfl, h1, hw⟩, hv ▸ hvp.append_left v1⟩
  | swap a b l =>
    obtain ⟨v1, v', hv, h1, h'⟩ := cons_iff.mp h
    obtain ⟨v2, v3, hv', h2, h3⟩ := cons_iff.mp h'
    refine ⟨v2 ++ (v1 ++ v3), cons_iff.mpr ⟨_, _, rfl, h2, cons_iff.mpr ⟨_, _, rfl, h1, h3⟩⟩, ?_⟩
    rw [hv, hv', ← List.append_assoc, ← List.append_assoc]
    exact List.perm_append_comm.append_right v3
  | trans _ _ ih1 ih2 =>
    obtain ⟨v, hw, hvp⟩ := ih1 h
    obtain ⟨v', hw', hvp'⟩ := ih2 hw
    exact ⟨v', hw', hvp'.trans hvp⟩

/-- The order in which a node lists its references changes the order of
    the visit only. -/
theorem reorder (succ' : H → Option (List H)) (h : Walks succ stack visit)
    (hs : ∀ x ∈ visit, ∀ cs, succ x = some cs → ∃ cs', succ' x = some cs' ∧ cs'.Perm cs)
    (hp : stack.Perm stack') : ∃ v, Walks succ' stack' v ∧ v.Perm visit := by
  have hsame : ∃ v, Walks succ' stack v ∧ v.Perm visit := by
    clear hp
    induction h with
    | done => exact ⟨[], .done, .refl _⟩
    | @step a cs rest v hsa _ ih =>
      obtain ⟨v', hw', hvp⟩ := ih fun x hx => hs x (List.mem_cons_of_mem _ hx)
      obtain ⟨cs', hs', hcp⟩ := hs a List.mem_cons_self cs hsa
      obtain ⟨v'', hw'', hvp'⟩ := hw'.perm_stack (hcp.symm.append_right rest)
      exact ⟨a :: v'', .step hs' hw'', (hvp'.trans hvp).cons a⟩
  obtain ⟨v, hw, hvp⟩ := hsame
  obtain ⟨v', hw', hvp'⟩ := hw.perm_stack hp
  exact ⟨v', hw', hvp'.trans hvp⟩

/-! ## Counting -/

/-- A walk inside a finite set that makes as many visits as the set has
    elements visits all of it, unless it visits a node twice. -/
theorem covers_iff_nodup [DecidableEq H] {held : Finset H} (hsub : ∀ x ∈ visit, x ∈ held)
    (hcount : visit.length = held.card) : (∀ x ∈ held, x ∈ visit) ↔ visit.Nodup := by
  have hle : visit.toFinset ⊆ held := fun x hx => hsub x (List.mem_toFinset.mp hx)
  constructor
  · intro hall
    have heq : visit.toFinset = held :=
      Finset.Subset.antisymm hle fun x hx => List.mem_toFinset.mpr (hall x hx)
    have hcard : (visit : Multiset H).toFinset.card = Multiset.card (visit : Multiset H) := by
      rw [Multiset.coe_card, hcount, ← heq]
      rfl
    exact Multiset.coe_nodup.mp (Multiset.toFinset_card_eq_card_iff_nodup.mp hcard)
  · intro hnd x hx
    have heq : visit.toFinset = held := by
      apply Finset.eq_of_subset_of_card_le hle
      rw [List.toFinset_card_of_nodup hnd, hcount]
    exact List.mem_toFinset.mp (heq ▸ hx)

end Walks

end Lib
