import LedgerArchive.Lib.Walk
import Mathlib.Data.Fintype.Card
import Mathlib.Data.Set.Finite.Basic

/-! # Walks that do not end

    A walk without a memory of where it has been ends in one of two ways:
    the stack runs empty, or a name comes up that cannot be read (`Ends`).
    It goes on for ever when it gets into a node that leads back to itself
    before it meets a name it cannot read.

    Which of the two comes first depends on the order of the references.
    `LeadsTo succ p c` says that a walk that has read `p` gets to `c`: the
    trees under the references in front of `c` are whole. Over finitely many
    nodes the walk from `x` ends exactly when no way along `LeadsTo` from
    `x` runs into a circle (`ends_iff`). -/

namespace Lib

variable {H : Type} {succ : H → Option (List H)}

/-! ## Relations on finite sets -/

/-- A finite set on which a relation has no circles has a last element. -/
theorem exists_last_of_acyclic {r : H → H → Prop} {s : Set H} (hfin : s.Finite)
    (hne : s.Nonempty) (hacyclic : ∀ x ∈ s, ¬ Relation.TransGen r x x) :
    ∃ m ∈ s, ∀ y ∈ s, ¬ r m y := by
  have hfinite : Finite s := hfin
  have htrans : IsTrans s (fun b a => Relation.TransGen r a.1 b.1) :=
    ⟨fun a b c hab hbc => hbc.trans hab⟩
  have hirrefl : Std.Irrefl (fun b a : s => Relation.TransGen r a.1 b.1) :=
    ⟨fun a => hacyclic a.1 a.2⟩
  have hwf := Finite.wellFounded_of_trans_of_irrefl (fun b a : s => Relation.TransGen r a.1 b.1)
  obtain ⟨x, hx⟩ := hne
  obtain ⟨m, -, hm⟩ := hwf.has_min Set.univ ⟨⟨x, hx⟩, trivial⟩
  refine ⟨m.1, m.2, fun y hy hr => ?_⟩
  exact hm ⟨y, hy⟩ trivial (.single hr)

/-- Along a relation without circles on a finite set, what holds of a
    member whenever it holds of all that follow it holds of every member. -/
theorem induction_of_acyclic {r : H → H → Prop} {s : Set H} {P : H → Prop} (hfin : s.Finite)
    (hacyclic : ∀ x ∈ s, ¬ Relation.TransGen r x x) (hclosed : ∀ x ∈ s, ∀ y, r x y → y ∈ s)
    (hstep : ∀ x ∈ s, (∀ y, r x y → P y) → P x) : ∀ x ∈ s, P x := by
  by_contra hnot
  push Not at hnot
  obtain ⟨x, hx, hPx⟩ := hnot
  obtain ⟨m, ⟨hm, hPm⟩, hlast⟩ :=
    exists_last_of_acyclic (r := r) (s := {x | x ∈ s ∧ ¬ P x}) (hfin.subset fun _ h => h.1)
      ⟨x, hx, hPx⟩ fun x hx => hacyclic x hx.1
  apply hPm
  apply hstep m hm
  intro y hy
  by_contra hPy
  exact hlast y ⟨hclosed m hm y hy, hPy⟩ hy

/-- A member that can be followed only so far is in no circle. -/
theorem not_circle_of_acc {r : H → H → Prop} {a : H} (h : Acc (flip r) a) :
    ¬ Relation.TransGen r a a := by
  induction h with
  | intro x _ ih =>
    intro hcircle
    obtain ⟨y, hxy, hyx⟩ := Relation.TransGen.head'_iff.mp hcircle
    exact ih y hxy (.tail' hyx hxy)

/-- A relation with finitely many steps can be followed from `a` only so
    far, unless it gets into a circle. -/
theorem acc_iff_no_circle {r : H → H → Prop} (hfin : {a | ∃ b, r a b}.Finite) {a : H} :
    Acc (flip r) a ↔ ∀ b, Relation.ReflTransGen r a b → ¬ Relation.TransGen r b b := by
  constructor
  · intro hacc b hab
    have haccb : Acc (flip r) b := by
      induction hab with
      | refl => exact hacc
      | tail _ hbc ih => exact ih.inv hbc
    exact not_circle_of_acc haccb
  · intro hfree
    by_contra hnot
    -- Among the members that can be followed for ever, one has no next.
    obtain ⟨m, ⟨ham, hm⟩, hlast⟩ := exists_last_of_acyclic (r := r)
      (s := {x | Relation.ReflTransGen r a x ∧ ¬ Acc (flip r) x})
      (hfin.subset fun x hx => by
        by_contra hnone
        exact hx.2 ⟨x, fun y hy => absurd ⟨y, hy⟩ hnone⟩)
      ⟨a, .refl, hnot⟩ fun x hx => hfree x hx.1
    apply hm
    constructor
    intro y hy
    by_contra hynot
    exact hlast y ⟨ham.tail hy, hynot⟩ hy

/-! ## Whole trees -/

/-- Everything below `d` can be read, and nothing there leads back to
    itself. -/
def Whole (succ : H → Option (List H)) (d : H) : Prop :=
  ∀ x, Reaches succ d x → (succ x).isSome ∧ ¬ Relation.TransGen (Refers succ) x x

/-- Every step down makes the walk shorter. -/
theorem Walks.shorter {a b : H} {visit : List H} (h : Walks succ [a] visit)
    (hr : Relation.TransGen (Refers succ) a b) :
    ∃ v, Walks succ [b] v ∧ v.length < visit.length := by
  induction hr with
  | single hr =>
    obtain ⟨v, hv, hsub⟩ := h.sub_walk_refers hr
    exact ⟨v, hv, hsub.length_le⟩
  | tail _ hr ih =>
    obtain ⟨v, hv, hlt⟩ := ih
    obtain ⟨v', hv', hsub⟩ := hv.sub_walk_refers hr
    have hle : (_ :: v').length ≤ v.length := hsub.length_le
    rw [List.length_cons] at hle
    exact ⟨v', hv', by omega⟩

theorem Walks.whole {d : H} {visit : List H} (h : Walks succ [d] visit) : Whole succ d := by
  intro x hx
  have hmem : x ∈ visit := h.mem_root_iff.mpr hx
  refine ⟨?_, fun hcircle => ?_⟩
  · obtain ⟨cs, hcs, -⟩ := h.closed x hmem
    rw [hcs]
    rfl
  · obtain ⟨v, hv, -⟩ := h.sub_walk x hmem
    obtain ⟨v', hv', hlt⟩ := hv.shorter hcircle
    rw [hv.unique hv'] at hlt
    omega

/-- A stack is walked when each of its names is. -/
theorem walks_of_each {stack : List H} (h : ∀ d ∈ stack, ∃ v, Walks succ [d] v) :
    ∃ v, Walks succ stack v := by
  induction stack with
  | nil => exact ⟨[], .done⟩
  | cons d stack ih =>
    obtain ⟨v, hv⟩ := h d List.mem_cons_self
    obtain ⟨v', hv'⟩ := ih fun e he => h e (List.mem_cons_of_mem _ he)
    exact ⟨v ++ v', Walks.cons_iff.mpr ⟨v, v', rfl, hv, hv'⟩⟩

theorem Walks.each {stack visit : List H} (h : Walks succ stack visit) :
    ∀ d ∈ stack, ∃ v, Walks succ [d] v := by
  intro d hd
  obtain ⟨v, hv, -⟩ := h.sub_walk d (h.stack_subset d hd)
  exact ⟨v, hv⟩

/-- Over finitely many nodes, the whole trees are those that are walked. -/
theorem whole_iff_walks (hfin : {x | (succ x).isSome}.Finite) {d : H} :
    Whole succ d ↔ ∃ v, Walks succ [d] v := by
  constructor
  · intro hwhole
    have hwalks : ∀ x ∈ {x | Reaches succ d x}, ∃ v, Walks succ [x] v := by
      refine induction_of_acyclic (r := Refers succ) (s := {x | Reaches succ d x})
        (hfin.subset fun x hx => (hwhole x hx).1) (fun x hx => (hwhole x hx).2)
        (fun x hx y hr => Relation.ReflTransGen.tail hx hr) ?_
      intro x hx hkids
      obtain ⟨cs, hcs⟩ := Option.isSome_iff_exists.mp (hwhole x hx).1
      obtain ⟨v, hv⟩ := walks_of_each fun c hc => hkids c ⟨cs, hcs, hc⟩
      exact ⟨x :: v, Walks.single_iff.mpr ⟨cs, v, hcs, hv, rfl⟩⟩
    exact hwalks d .refl
  · rintro ⟨v, hv⟩
    exact hv.whole

/-! ## Walks that end -/

/-- The walk over `stack` comes to an end: at an empty stack or at a name
    that cannot be read. -/
inductive Ends (succ : H → Option (List H)) : List H → Prop where
  | done : Ends succ []
  | missing {h : H} {stack : List H} (hs : succ h = none) : Ends succ (h :: stack)
  | step {h : H} {cs stack : List H} (hs : succ h = some cs) (he : Ends succ (cs ++ stack)) :
      Ends succ (h :: stack)

theorem Walks.ends_append {stack stack' visit : List H} (h : Walks succ stack visit)
    (he : Ends succ stack') : Ends succ (stack ++ stack') := by
  induction h with
  | done => exact he
  | step hs _ ih =>
    rw [List.append_assoc] at ih
    exact .step hs ih

/-- A walk that ends without having walked all of its stack ends whatever
    else is on the stack. -/
theorem Ends.walks_or {stack : List H} (h : Ends succ stack) :
    (∃ v, Walks succ stack v) ∨ ∀ rest, Ends succ (stack ++ rest) := by
  induction h with
  | done => exact .inl ⟨[], .done⟩
  | missing hs => exact .inr fun rest => .missing hs
  | @step h cs stack hs _ ih =>
    rcases ih with ⟨v, hv⟩ | hrest
    · exact .inl ⟨_, .step hs hv⟩
    · refine .inr fun rest => .step hs ?_
      show Ends succ (cs ++ (stack ++ rest))
      rw [← List.append_assoc]
      exact hrest rest

/-! ## Circles -/

/-- A walk that has read `p` gets to `c`: what it pushes before `c` is
    whole. -/
def LeadsTo (succ : H → Option (List H)) (p c : H) : Prop :=
  ∃ before after, succ p = some (before ++ c :: after) ∧ ∀ d ∈ before, Whole succ d

/-- The walk from `x` gets to a node from which it gets to that node
    again. -/
def Trapped (succ : H → Option (List H)) (x : H) : Prop :=
  ∃ y, Relation.ReflTransGen (LeadsTo succ) x y ∧ Relation.TransGen (LeadsTo succ) y y

theorem LeadsTo.refers {p c : H} (h : LeadsTo succ p c) : Refers succ p c := by
  obtain ⟨before, after, hs, -⟩ := h
  exact ⟨_, hs, by simp⟩

theorem Trapped.circle {x : H} (h : Trapped succ x) :
    ∃ y, Relation.TransGen (Refers succ) y y := by
  obtain ⟨y, -, hy⟩ := h
  exact ⟨y, hy.lift id fun _ _ => LeadsTo.refers⟩

/-- A trapped walk has a next step, after which it is still trapped. -/
theorem Trapped.next {x : H} (h : Trapped succ x) : ∃ c, LeadsTo succ x c ∧ Trapped succ c := by
  obtain ⟨y, hxy, hyy⟩ := h
  rcases Relation.ReflTransGen.cases_head hxy with rfl | ⟨c, hxc, hcy⟩
  · obtain ⟨c, hxc, hcx⟩ := Relation.TransGen.head'_iff.mp hyy
    exact ⟨c, hxc, x, hcx, hyy⟩
  · exact ⟨c, hxc, y, hcy, hyy⟩

/-- A walk that gets to a trapped name does not end. -/
theorem not_ends_of_trapped (hfin : {x | (succ x).isSome}.Finite) {stack before after : List H}
    {c : H} (hstack : stack = before ++ c :: after) (hbefore : ∀ d ∈ before, ∃ v, Walks succ [d] v)
    (hc : Trapped succ c) : ¬ Ends succ stack := by
  intro he
  induction he generalizing before after c with
  | done => simp at hstack
  | @missing h rest hs =>
    cases before with
    | nil =>
      obtain ⟨rfl, -⟩ := List.cons.inj hstack
      obtain ⟨c', ⟨b, a, hs', -⟩, -⟩ := hc.next
      rw [hs] at hs'
      cases hs'
    | cons d before =>
      obtain ⟨rfl, -⟩ := List.cons.inj hstack
      obtain ⟨v, hv⟩ := hbefore h List.mem_cons_self
      obtain ⟨cs, v', hs', -⟩ := Walks.single_iff.mp hv
      rw [hs] at hs'
      cases hs'
  | @step h cs rest hs _ ih =>
    cases before with
    | nil =>
      -- The trapped name itself is read: its next step is trapped.
      obtain ⟨rfl, rfl⟩ := List.cons.inj hstack
      obtain ⟨c', ⟨b, a, hs', hb⟩, hc'⟩ := hc.next
      rw [hs, Option.some.injEq] at hs'
      refine @ih b (a ++ rest) c' ?_
        (fun d hd => (whole_iff_walks hfin).mp (hb d hd)) hc'
      rw [hs', List.append_assoc, List.cons_append]
    | cons d before =>
      -- A name in front of it is read: what it pushes is walked, too.
      obtain ⟨rfl, rfl⟩ := List.cons.inj hstack
      obtain ⟨v, hv⟩ := hbefore h List.mem_cons_self
      obtain ⟨cs', v', hs', hv', -⟩ := Walks.single_iff.mp hv
      rw [hs, Option.some.injEq] at hs'
      subst hs'
      refine @ih (cs ++ before) after c (by rw [List.append_assoc]; rfl) ?_ hc
      intro e he
      rcases List.mem_append.mp he with he | he
      · exact hv'.each e he
      · exact hbefore e (List.mem_cons_of_mem _ he)

/-- A walk that does not end gets to one name of its stack from which it
    does not end. -/
theorem exists_endless_of_not_ends {stack : List H} (h : ¬ Ends succ stack) :
    ∃ before c after, stack = before ++ c :: after ∧ (∀ d ∈ before, ∃ v, Walks succ [d] v) ∧
      ¬ Ends succ [c] := by
  induction stack with
  | nil => exact absurd .done h
  | cons d stack ih =>
    by_cases hd : Ends succ [d]
    · rcases hd.walks_or with ⟨v, hv⟩ | hrest
      · have hstack : ¬ Ends succ stack := fun he => h (hv.ends_append he)
        obtain ⟨before, c, after, hsplit, hbefore, hc⟩ := ih hstack
        refine ⟨d :: before, c, after, by rw [hsplit]; rfl, ?_, hc⟩
        intro e he
        rcases List.mem_cons.mp he with he | he
        · exact he ▸ ⟨v, hv⟩
        · exact hbefore e he
      · exact absurd (hrest stack) h
    · exact ⟨[], d, stack, rfl, by simp, hd⟩

theorem exists_leadsTo_of_not_ends {x : H} (h : ¬ Ends succ [x]) :
    ∃ c, LeadsTo succ x c ∧ ¬ Ends succ [c] := by
  cases hs : succ x with
  | none => exact absurd (.missing hs) h
  | some cs =>
    have hcs : ¬ Ends succ cs := fun he => h (.step hs (by rwa [List.append_nil]))
    obtain ⟨before, c, after, hsplit, hbefore, hc⟩ := exists_endless_of_not_ends hcs
    refine ⟨c, ⟨before, after, by rw [hs, hsplit], fun d hd => ?_⟩, hc⟩
    obtain ⟨v, hv⟩ := hbefore d hd
    exact hv.whole

/-- Over finitely many nodes, a walk ends unless it is trapped. -/
theorem ends_iff (hfin : {x | (succ x).isSome}.Finite) {x : H} :
    Ends succ [x] ↔ ¬ Trapped succ x := by
  constructor
  · intro he htrapped
    exact @not_ends_of_trapped _ _ hfin [x] [] [] x rfl (by simp) htrapped he
  · intro hfree
    by_contra hends
    -- Among the names the walk gets to without ending, one has no next.
    obtain ⟨m, ⟨hxm, hm⟩, hlast⟩ := exists_last_of_acyclic (r := LeadsTo succ)
      (s := {y | Relation.ReflTransGen (LeadsTo succ) x y ∧ ¬ Ends succ [y]})
      (hfin.subset (by
        rintro y ⟨-, hy⟩
        obtain ⟨c, ⟨b, a, hs, -⟩, -⟩ := exists_leadsTo_of_not_ends hy
        show (succ y).isSome
        rw [hs]
        rfl))
      ⟨x, .refl, hends⟩ fun y hy hcircle => hfree ⟨y, hy.1, hcircle⟩
    obtain ⟨c, hmc, hc⟩ := exists_leadsTo_of_not_ends hm
    exact hlast c ⟨hxm.tail hmc, hc⟩ hmc

end Lib
