import LedgerArchive.Lib.Endless
import Mathlib.Data.Set.Card

/-! # Positions in a graph

    `At succ a p b` says that following the references numbered by the path
    `p`, from `a` on, leads to `b`. A walk that keeps no memory visits a node
    once for each of its positions (`Walks.positions_encard`). So it visits
    no node twice exactly when no node has two positions, and a node that
    leads back to itself has infinitely many. -/

namespace Lib

variable {H : Type} {succ : H → Option (List H)} {a b : H}

/-- The path `p` leads from `a` to `b`. -/
def At (succ : H → Option (List H)) : H → List ℕ → H → Prop
  | a, [], b => a = b
  | a, i :: p, b => ∃ cs c, succ a = some cs ∧ cs[i]? = some c ∧ At succ c p b

/-- All paths that lead somewhere from `a`. -/
def positions (succ : H → Option (List H)) (a : H) : Set (List ℕ) := {p | ∃ b, At succ a p b}

/-- No node has two positions below `a`. -/
def Unshared (succ : H → Option (List H)) (a : H) : Prop :=
  ∀ p q b, At succ a p b → At succ a q b → p = q

theorem At.append {c : H} {p q : List ℕ} (h : At succ a p b) (h' : At succ b q c) :
    At succ a (p ++ q) c := by
  induction p generalizing a with
  | nil =>
    rw [show a = b from h]
    exact h'
  | cons i p ih =>
    obtain ⟨cs, d, hcs, hd, hp⟩ := h
    exact ⟨cs, d, hcs, hd, ih hp⟩

/-- A path leads to one node only. -/
theorem At.unique {b' : H} {p : List ℕ} (h : At succ a p b) (h' : At succ a p b') : b = b' := by
  induction p generalizing a with
  | nil =>
    rw [← show a = b from h, ← show a = b' from h']
  | cons i p ih =>
    obtain ⟨cs, c, hcs, hc, hp⟩ := h
    obtain ⟨cs', c', hcs', hc', hp'⟩ := h'
    rw [hcs, Option.some.injEq] at hcs'
    subst hcs'
    rw [hc, Option.some.injEq] at hc'
    subst hc'
    exact ih hp hp'

theorem refers_iff_at : Refers succ a b ↔ ∃ i, At succ a [i] b := by
  constructor
  · rintro ⟨cs, hcs, hb⟩
    obtain ⟨i, hi⟩ := List.mem_iff_getElem?.mp hb
    exact ⟨i, cs, b, hcs, hi, rfl⟩
  · rintro ⟨i, cs, c, hcs, hc, hcb⟩
    rw [show c = b from hcb] at hc
    exact ⟨cs, hcs, List.mem_iff_getElem?.mpr ⟨i, hc⟩⟩

/-- A node that leads back to itself does so along a nonempty path. -/
theorem exists_at_of_transGen (h : Relation.TransGen (Refers succ) a b) :
    ∃ p, p ≠ [] ∧ At succ a p b := by
  induction h with
  | single hr =>
    obtain ⟨i, hi⟩ := refers_iff_at.mp hr
    exact ⟨[i], by simp, hi⟩
  | tail _ hr ih =>
    obtain ⟨p, hne, hp⟩ := ih
    obtain ⟨i, hi⟩ := refers_iff_at.mp hr
    exact ⟨p ++ [i], by simp, hp.append hi⟩

theorem reaches_iff_at : Reaches succ a b ↔ ∃ p, At succ a p b := by
  constructor
  · intro h
    rcases Relation.reflTransGen_iff_eq_or_transGen.mp h with rfl | h
    · exact ⟨[], rfl⟩
    · obtain ⟨p, -, hp⟩ := exists_at_of_transGen h
      exact ⟨p, hp⟩
  · rintro ⟨p, hp⟩
    induction p generalizing a with
    | nil =>
      rw [show a = b from hp]
      exact .refl
    | cons i p ih =>
      obtain ⟨cs, c, hcs, hc, hp⟩ := hp
      exact .head ⟨cs, hcs, List.mem_iff_getElem?.mpr ⟨i, hc⟩⟩ (ih hp)

/-! ## Circles -/

/-- Round and round: every number of rounds is another path. -/
theorem positions_infinite_of_circle {x : H} (hax : Reaches succ a x)
    (hx : Relation.TransGen (Refers succ) x x) : (positions succ a).Infinite := by
  obtain ⟨p, hp⟩ := reaches_iff_at.mp hax
  obtain ⟨q, hne, hq⟩ := exists_at_of_transGen hx
  have hrounds : ∀ n, At succ x (List.replicate n q).flatten x := by
    intro n
    induction n with
    | zero => exact rfl
    | succ n ih =>
      rw [List.replicate_succ, List.flatten_cons]
      exact hq.append ih
  refine Set.infinite_of_injective_forall_mem (f := fun n => p ++ (List.replicate n q).flatten) ?_
    fun n => ⟨x, hp.append (hrounds n)⟩
  intro m n hmn
  have hlen := congrArg List.length (List.append_cancel_left hmn)
  simp only [List.length_flatten, List.map_replicate, List.sum_replicate_nat] at hlen
  exact Nat.eq_of_mul_eq_mul_right (List.length_pos_of_ne_nil hne) hlen

theorem not_unshared_of_circle {x : H} (hax : Reaches succ a x)
    (hx : Relation.TransGen (Refers succ) x x) : ¬ Unshared succ a := by
  intro hun
  obtain ⟨p, hp⟩ := reaches_iff_at.mp hax
  obtain ⟨q, hne, hq⟩ := exists_at_of_transGen hx
  have heq := hun p (p ++ q) x hp (hp.append hq)
  exact hne (List.append_right_eq_self.mp heq.symm)

/-! ## Walks -/

/-- Where the walk over the references `cs ++ stack` is in the walk over
    `h :: stack`, when `h` refers to `cs`. -/
def place (n : ℕ) : List ℕ → List ℕ
  | [] => []
  | i :: p => if i < n then 0 :: i :: p else (i - n + 1) :: p

theorem place_inj {n i j : ℕ} {p q : List ℕ} (h : place n (i :: p) = place n (j :: q)) :
    i :: p = j :: q := by
  simp only [place] at h
  by_cases hi : i < n
  · by_cases hj : j < n
    · rw [if_pos hi, if_pos hj] at h
      exact (List.cons.inj h).2
    · rw [if_pos hi, if_neg hj] at h
      have := (List.cons.inj h).1
      omega
  · by_cases hj : j < n
    · rw [if_neg hi, if_pos hj] at h
      have := (List.cons.inj h).1
      omega
    · rw [if_neg hi, if_neg hj] at h
      obtain ⟨hij, hpq⟩ := List.cons.inj h
      rw [hpq, show i = j by omega]

/-- The visits of a walk over a stack, each with its position: the index in
    the stack and the path from there. -/
theorem Walks.placed {stack visit : List H} (hw : Walks succ stack visit) :
    ∃ l : List (List ℕ × H), l.map Prod.snd = visit ∧ (l.map Prod.fst).Nodup ∧
      ∀ p b, (p, b) ∈ l ↔ ∃ i q a, p = i :: q ∧ stack[i]? = some a ∧ At succ a q b := by
  induction hw with
  | done => exact ⟨[], rfl, List.nodup_nil, by simp⟩
  | @step h cs stack v hs _ ih =>
    obtain ⟨l, hvisit, hnd, hat⟩ := ih
    have hplaced : ∀ x ∈ l, ∃ i q, x.1 = i :: q := by
      intro x hx
      obtain ⟨i, q, -, hp, -, -⟩ := (hat x.1 x.2).mp hx
      exact ⟨i, q, hp⟩
    -- The walk goes on with the children of `h` in front of the stack, and
    -- `place` gives their visits the paths below `h`.
    refine ⟨([0], h) :: l.map fun x => (place cs.length x.1, x.2), ?_, ?_, ?_⟩
    · rw [List.map_cons, List.map_map, ← hvisit]
      rfl
    · rw [List.map_cons, List.map_map, List.nodup_cons]
      constructor
      · intro hmem
        obtain ⟨x, hx, hzero⟩ := List.mem_map.mp hmem
        obtain ⟨i, q, hp⟩ := hplaced x hx
        have hzero : place cs.length x.1 = [0] := hzero
        rw [hp, place] at hzero
        split at hzero
        · simp at hzero
        · simp at hzero
      · refine List.Nodup.map_on ?_ (List.Nodup.of_map _ hnd)
        intro x hx y hy hxy
        obtain ⟨i, q, hp⟩ := hplaced x hx
        obtain ⟨j, r, hp'⟩ := hplaced y hy
        have hxy : place cs.length x.1 = place cs.length y.1 := hxy
        rw [hp, hp'] at hxy
        have hfst : x.1 = y.1 := by rw [hp, hp', place_inj hxy]
        exact List.inj_on_of_nodup_map hnd hx hy hfst
    · intro p b
      rw [List.mem_cons, List.mem_map]
      constructor
      · rintro (hhead | ⟨⟨p', b'⟩, hx, hpb⟩)
        · obtain ⟨rfl, rfl⟩ := Prod.mk.inj hhead
          exact ⟨0, [], b, rfl, rfl, rfl⟩
        · obtain ⟨rfl, rfl⟩ := Prod.mk.inj hpb
          obtain ⟨i, q, d, rfl, hi, hq⟩ := (hat p' b').mp hx
          by_cases hlt : i < cs.length
          · rw [List.getElem?_append_left hlt] at hi
            exact ⟨0, i :: q, h, by simp [place, hlt], rfl, cs, d, hs, hi, hq⟩
          · rw [List.getElem?_append_right (by omega)] at hi
            exact ⟨i - cs.length + 1, q, d, by simp [place, hlt], hi, hq⟩
      · rintro ⟨i, q, d, rfl, hi, hq⟩
        cases i with
        | zero =>
          -- At `h`, or below it and so on the stack of the rest.
          rw [List.getElem?_cons_zero, Option.some.injEq] at hi
          subst hi
          cases q with
          | nil => exact .inl (by rw [show h = b from hq])
          | cons j q =>
            obtain ⟨cs', c, hs', hc, hq⟩ := hq
            rw [hs, Option.some.injEq] at hs'
            subst hs'
            have hlt : j < cs.length := (List.getElem?_eq_some_iff.mp hc).1
            refine .inr ⟨(j :: q, b), (hat _ _).mpr ⟨j, q, c, rfl, ?_, hq⟩, by simp [place, hlt]⟩
            rw [List.getElem?_append_left hlt]
            exact hc
        | succ i =>
          rw [List.getElem?_cons_succ] at hi
          refine .inr ⟨((i + cs.length) :: q, b), (hat _ _).mpr ⟨_, q, d, rfl, ?_, hq⟩, ?_⟩
          · rw [List.getElem?_append_right (by omega), Nat.add_sub_cancel]
            exact hi
          · simp [place]

/-- The visits of a walk from `a`, each with its position. -/
theorem Walks.at_list {visit : List H} (hw : Walks succ [a] visit) :
    ∃ l : List (List ℕ × H), l.map Prod.snd = visit ∧ (l.map Prod.fst).Nodup ∧
      ∀ p b, (p, b) ∈ l ↔ At succ a p b := by
  obtain ⟨l, hvisit, hnd, hat⟩ := hw.placed
  have hhead : ∀ x ∈ l, x.1 = 0 :: x.1.tail := by
    intro x hx
    obtain ⟨i, q, d, hp, hi, -⟩ := (hat x.1 x.2).mp hx
    cases i with
    | zero => rw [hp]; rfl
    | succ i => simp at hi
  refine ⟨l.map fun x => (x.1.tail, x.2), ?_, ?_, ?_⟩
  · rw [List.map_map, ← hvisit]
    rfl
  · rw [List.map_map]
    refine List.Nodup.map_on ?_ (List.Nodup.of_map _ hnd)
    intro x hx y hy hxy
    have hxy : x.1.tail = y.1.tail := hxy
    have hfst : x.1 = y.1 := by rw [hhead x hx, hhead y hy, hxy]
    exact List.inj_on_of_nodup_map hnd hx hy hfst
  · intro p b
    rw [List.mem_map]
    constructor
    · rintro ⟨⟨p', b'⟩, hx, hpb⟩
      obtain ⟨rfl, rfl⟩ := Prod.mk.inj hpb
      obtain ⟨i, q, d, rfl, hi, hq⟩ := (hat p' b').mp hx
      cases i with
      | zero =>
        rw [List.getElem?_cons_zero, Option.some.injEq] at hi
        exact hi ▸ hq
      | succ i => simp at hi
    · intro hp
      exact ⟨(0 :: p, b), (hat _ _).mpr ⟨0, p, a, rfl, rfl, hp⟩, rfl⟩

/-- A walk makes a visit for each position. -/
theorem Walks.positions_encard {visit : List H} (hw : Walks succ [a] visit) :
    (positions succ a).encard = visit.length := by
  obtain ⟨l, hvisit, hnd, hat⟩ := hw.at_list
  have hset : positions succ a = ((l.map Prod.fst).toFinset : Set (List ℕ)) := by
    ext p
    rw [List.coe_toFinset]
    constructor
    · rintro ⟨b, hb⟩
      exact List.mem_map.mpr ⟨(p, b), (hat p b).mpr hb, rfl⟩
    · intro hp
      obtain ⟨⟨p, b⟩, hx, rfl⟩ := List.mem_map.mp hp
      exact ⟨b, (hat p b).mp hx⟩
  rw [hset, Set.encard_coe_eq_coe_finsetCard, List.toFinset_card_of_nodup hnd, List.length_map,
    ← hvisit, List.length_map]

/-- A walk visits no node twice if no node has two positions. -/
theorem Walks.nodup_iff_unshared {visit : List H} (hw : Walks succ [a] visit) :
    visit.Nodup ↔ Unshared succ a := by
  obtain ⟨l, hvisit, hnd, hat⟩ := hw.at_list
  rw [← hvisit]
  constructor
  · intro hnd' p q b hp hq
    have heq := List.inj_on_of_nodup_map hnd' ((hat p b).mpr hp) ((hat q b).mpr hq) rfl
    exact congrArg Prod.fst heq
  · intro hun
    refine List.Nodup.map_on ?_ (List.Nodup.of_map _ hnd)
    rintro ⟨p, b⟩ hx ⟨q, b'⟩ hy (rfl : b = b')
    rw [hun p q b ((hat p b).mp hx) ((hat q b).mp hy)]

end Lib
