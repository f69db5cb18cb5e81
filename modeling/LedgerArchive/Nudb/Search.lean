import LedgerArchive.Lib.Search
import LedgerArchive.Nudb.Collect
import Mathlib.Data.Set.Card
import Mathlib.Data.Fintype.Pi

/-! # The two walks on any store

    Both walks remember the hashes they have met. On any store, with nodes
    that share children or lie on a cycle, each of them returns the nodes
    that the root reaches, once each, and fails when one of those cannot be
    read. Only the order differs. -/

namespace LedgerArchive

open Lib

variable {get_node : Hash256 → Except Error SHAMapNode} {root : Hash256}

/-- What lookups return, as a store. -/
def store_of (get_node : Hash256 → Except Error SHAMapNode) : Store :=
  fun h => (get_node h).toOption

theorem store_of_eq_some {h : Hash256} {n : SHAMapNode} :
    store_of get_node h = some n ↔ get_node h = .ok n :=
  toOption_eq_some

theorem store_of_refs {h : Hash256} {n : SHAMapNode} {cs : List Hash256} (hget : get_node h = .ok n)
    (hrefs : n.refs = some cs) : (store_of get_node).refs h = some cs := by
  unfold Store.refs
  rw [store_of_eq_some.mpr hget]
  exact hrefs

/-- A node is returned under the hash it is looked up by. -/
def Named (get_node : Hash256 → Except Error SHAMapNode) : Prop :=
  ∀ h n, get_node h = .ok n → n.hash = h

/-- The state of a walk: the nodes it has read, and the hashes pending. -/
structure Walking (get_node : Hash256 → Except Error SHAMapNode) (root : Hash256)
    (result : List SHAMapNode) (pending : List Hash256) : Prop where
  search : Search (store_of get_node).refs root (result.map SHAMapNode.hash) pending
  read : ∀ n ∈ result, get_node n.hash = .ok n

theorem Walking.start (get_node : Hash256 → Except Error SHAMapNode) (root : Hash256) :
    Walking get_node root [] [root] :=
  ⟨Search.start _ root, fun _ hn => absurd hn List.not_mem_nil⟩

theorem Walking.visit {result : List SHAMapNode} {h : Hash256} {pending pending' cs : List Hash256}
    {node : SHAMapNode} (hn : Named get_node) (hw : Walking get_node root result (h :: pending))
    (hh : h ∉ result.map SHAMapNode.hash) (hget : get_node h = .ok node)
    (hrefs : node.refs = some cs) (hfrom : ∀ x ∈ pending', x ∈ pending ∨ x ∈ cs)
    (hmet : ∀ x, x ∈ pending ∨ x ∈ cs → x ∈ result.map SHAMapNode.hash ++ [h] ∨ x ∈ pending') :
    Walking get_node root (result ++ [node]) pending' := by
  have hhash := hn h node hget
  refine ⟨?_, ?_⟩
  · rw [List.map_append, List.map_singleton, hhash]
    exact hw.search.visit hh (store_of_refs hget hrefs) hfrom hmet
  · intro n hmem
    rcases List.mem_append.mp hmem with hmem | hmem
    · exact hw.read n hmem
    · rw [List.mem_singleton.mp hmem, hhash]
      exact hget

/-! ## Nodes that cannot be read -/

/-- Looking the node up, or parsing it, fails with `e`. -/
def Unread (get_node : Hash256 → Except Error SHAMapNode) (h : Hash256) (e : Error) : Prop :=
  get_node h = .error e ∨ ∃ node, get_node h = .ok node ∧ node.node_type.is_inner = true ∧
    from_shamap (InnerNode.from_node node) = .error e

theorem read_or_unread (get_node : Hash256 → Except Error SHAMapNode) (h : Hash256) :
    (∃ node cs, get_node h = .ok node ∧ node.refs = some cs) ∨ ∃ e, Unread get_node h e := by
  cases hget : get_node h with
  | error e => exact .inr ⟨e, .inl hget⟩
  | ok node =>
    by_cases hin : node.node_type.is_inner = true
    · cases hparse : from_shamap (InnerNode.from_node node) with
      | error e => exact .inr ⟨e, .inr ⟨node, hget, hin, hparse⟩⟩
      | ok inner =>
        have hrefs := (SHAMapNode.refs_inner hin).mpr ⟨inner, from_shamap_eq_ok.mp hparse, rfl⟩
        exact .inl ⟨node, _, rfl, hrefs⟩
    · exact .inl ⟨node, [], rfl, SHAMapNode.refs_leaf (by simpa using hin)⟩

theorem Unread.refs_eq_none {h : Hash256} {e : Error} (hu : Unread get_node h e) :
    (store_of get_node).refs h = none := by
  cases hrefs : (store_of get_node).refs h with
  | none => rfl
  | some cs =>
    obtain ⟨node, hnode, hcs⟩ := Option.bind_eq_some_iff.mp hrefs
    have hget := store_of_eq_some.mp hnode
    rcases hu with herr | ⟨node', hget', hin, hparse⟩
    · rw [hget] at herr
      cases herr
    · rw [hget, Except.ok.injEq] at hget'
      subst hget'
      obtain ⟨inner, hinner, -⟩ := (SHAMapNode.refs_inner hin).mp hcs
      rw [from_shamap_eq_ok.mpr hinner] at hparse
      cases hparse

/-! ## The serial walk -/

/-- One node of the serial walk. -/
theorem collect_reachable_loop_visit {fuel : Nat} {h : Hash256} {stack visited : List Hash256}
    {result : List SHAMapNode} {node : SHAMapNode} {cs : List Hash256} (hh : h ∉ visited)
    (hget : get_node h = .ok node) (hrefs : node.refs = some cs) :
    collect_reachable_loop get_node (fuel + 1) (h :: stack) visited result =
      collect_reachable_loop get_node fuel
        ((cs.filter fun child => child ∉ h :: visited).reverse ++ stack) (h :: visited)
        (result ++ [node]) := by
  rw [collect_reachable_loop, if_neg hh, bind_of_ok hget]
  by_cases hin : node.node_type.is_inner = true
  · obtain ⟨inner, hinner, rfl⟩ := (SHAMapNode.refs_inner hin).mp hrefs
    rw [if_pos hin, bind_of_ok (from_shamap_eq_ok.mpr hinner)]
  · rw [SHAMapNode.refs_leaf (by simpa using hin), Option.some.injEq] at hrefs
    rw [if_neg hin, ← hrefs]
    rfl

theorem collect_reachable_loop_unread {fuel : Nat} {h : Hash256} {stack visited : List Hash256}
    {result : List SHAMapNode} {e : Error} (hh : h ∉ visited) (hu : Unread get_node h e) :
    collect_reachable_loop get_node (fuel + 1) (h :: stack) visited result = .error e := by
  rw [collect_reachable_loop, if_neg hh]
  rcases hu with herr | ⟨node, hget, hin, hparse⟩
  · rw [herr]
    rfl
  · rw [bind_of_ok hget, if_pos hin, hparse]
    rfl

theorem collect_reachable_loop_walking {fuel : Nat} {stack visited : List Hash256}
    {result nodes : List SHAMapNode} (hn : Named get_node) (hw : Walking get_node root result stack)
    (hv : ∀ h, h ∈ visited ↔ h ∈ result.map SHAMapNode.hash)
    (hrun : collect_reachable_loop get_node fuel stack visited result = .ok nodes) :
    Walking get_node root nodes [] := by
  induction fuel generalizing stack visited result with
  | zero => cases hrun
  | succ fuel ih =>
    cases stack with
    | nil =>
      rw [← Except.ok.inj hrun]
      exact hw
    | cons h stack =>
      by_cases hh : h ∈ visited
      · -- The walk marks a node when it is popped, so a hash can be on the
        -- stack twice. The second time it is dropped.
        rw [collect_reachable_loop, if_pos hh] at hrun
        exact ih ⟨hw.search.skip ((hv h).mp hh), hw.read⟩ hv hrun
      · rcases read_or_unread get_node h with ⟨node, cs, hget, hrefs⟩ | ⟨e, hu⟩
        swap
        · rw [collect_reachable_loop_unread hh hu] at hrun
          cases hrun
        rw [collect_reachable_loop_visit hh hget hrefs] at hrun
        have hhash := hn h node hget
        have hnew : h ∉ result.map SHAMapNode.hash := fun hc => hh ((hv h).mpr hc)
        have hv' : ∀ x, x ∈ h :: visited ↔ x ∈ (result ++ [node]).map SHAMapNode.hash := by
          intro x
          simp [hv, hhash, or_comm]
        apply ih _ hv' hrun
        -- The children that are not pushed have been visited.
        apply hw.visit hn hnew hget hrefs
        · intro x hx
          rcases List.mem_append.mp hx with hx | hx
          · exact .inr (List.mem_filter.mp (List.mem_reverse.mp hx)).1
          · exact .inl hx
        · intro x hx
          by_cases hseen : x ∈ h :: visited
          · have := (hv' x).mp hseen
            rw [List.map_append, List.map_singleton, hhash] at this
            exact .inl this
          · refine .inr (hx.elim (List.mem_append_right _) fun hx => List.mem_append_left _ ?_)
            exact List.mem_reverse.mpr (List.mem_filter.mpr ⟨hx, by simpa using hseen⟩)

theorem collect_reachable_walking {fuel : Nat} {nodes : List SHAMapNode} (hn : Named get_node)
    (hrun : collect_reachable get_node fuel root = .ok nodes) : Walking get_node root nodes [] :=
  collect_reachable_loop_walking hn (Walking.start get_node root) (fun _ => by simp) hrun

/-! ## The walk by levels -/

/-- What pushing the children of a node adds: those not met before. -/
structure Pushed (l l' : Level) (cs new : List Hash256) : Prop where
  next_frontier : l'.next_frontier = l.next_frontier ++ new
  visited : ∀ x, x ∈ l'.visited ↔ x ∈ l.visited ∨ x ∈ new
  result : l'.result = l.result
  once : new.Nodup
  fresh : ∀ x ∈ new, x ∈ cs ∧ x ∉ l.visited
  met : ∀ c ∈ cs, c ∈ l'.visited

theorem push_pushed (l : Level) (c : Hash256) :
    ∃ new, Pushed l (l.push c) [c] new := by
  unfold Level.push
  by_cases hc : c ∈ l.visited
  · rw [if_pos hc]
    exact ⟨[], by simp, by simp, rfl, List.nodup_nil, by simp, by simpa using hc⟩
  · rw [if_neg hc]
    exact ⟨[c], by simp, by simp [or_comm], rfl, List.nodup_singleton c, by simpa using hc, by simp⟩

theorem children_pushed (l : Level) (cs : List Hash256) :
    ∃ new, Pushed l (cs.foldl Level.push l) cs new := by
  induction cs generalizing l with
  | nil => exact ⟨[], by simp, by simp, rfl, List.nodup_nil, by simp, by simp⟩
  | cons c cs ih =>
    obtain ⟨new, hp⟩ := push_pushed l c
    obtain ⟨new', hp'⟩ := ih (l.push c)
    refine ⟨new ++ new', ?_, ?_, ?_, ?_, ?_, ?_⟩
    · rw [List.foldl_cons, hp'.next_frontier, hp.next_frontier, List.append_assoc]
    · intro x
      rw [List.foldl_cons, hp'.visited, hp.visited, List.mem_append, or_assoc]
    · rw [List.foldl_cons, hp'.result, hp.result]
    · exact List.nodup_append.mpr ⟨hp.once, hp'.once, fun a ha b hb hab =>
        (hp'.fresh b hb).2 ((hp.visited b).mpr (.inr (hab ▸ ha)))⟩
    · intro x hx
      rcases List.mem_append.mp hx with hx | hx
      · obtain ⟨hxc, hnew⟩ := hp.fresh x hx
        exact ⟨List.mem_cons.mpr (.inl (List.mem_singleton.mp hxc)), hnew⟩
      · obtain ⟨hxc, hnew⟩ := hp'.fresh x hx
        exact ⟨List.mem_cons_of_mem c hxc, fun hc => hnew ((hp.visited x).mpr (.inl hc))⟩
    · intro x hx
      rcases List.mem_cons.mp hx with hx | hx
      · rw [List.foldl_cons, hp'.visited]
        exact .inl (hx ▸ hp.met c List.mem_cons_self)
      · exact hp'.met x hx

/-- One fetched node of a level. -/
def level_step (get_node : Hash256 → Except Error SHAMapNode) (l : Level) (hash : Hash256) :
    Except Error Level := do
  let node ← get_node hash
  l.node node

theorem level_step_ok {l l' : Level} {h : Hash256} :
    level_step get_node l h = .ok l' ↔ ∃ node cs, get_node h = .ok node ∧ node.refs = some cs ∧
      l' = { cs.foldl Level.push l with result := (cs.foldl Level.push l).result ++ [node] } := by
  unfold level_step Level.node
  rw [bind_eq_ok]
  constructor
  · rintro ⟨node, hget, hrun⟩
    by_cases hin : node.node_type.is_inner = true
    · rw [if_pos hin, bind_eq_ok] at hrun
      obtain ⟨inner, hinner, hrun⟩ := hrun
      exact ⟨node, inner.child_hashes, hget,
        (SHAMapNode.refs_inner hin).mpr ⟨inner, from_shamap_eq_ok.mp hinner, rfl⟩,
        (pure_eq_ok.mp hrun).symm⟩
    · rw [if_neg hin, Except.ok.injEq] at hrun
      exact ⟨node, [], hget, SHAMapNode.refs_leaf (by simpa using hin), hrun.symm⟩
  · rintro ⟨node, cs, hget, hrefs, rfl⟩
    refine ⟨node, hget, ?_⟩
    by_cases hin : node.node_type.is_inner = true
    · obtain ⟨inner, hinner, rfl⟩ := (SHAMapNode.refs_inner hin).mp hrefs
      rw [if_pos hin, bind_of_ok (from_shamap_eq_ok.mpr hinner)]
      rfl
    · rw [SHAMapNode.refs_leaf (by simpa using hin), Option.some.injEq] at hrefs
      rw [if_neg hin, ← hrefs]
      rfl

/-- The state inside a level, with `todo` of its frontier left. A hash is
    visited when it is met. -/
structure InLevel (get_node : Hash256 → Except Error SHAMapNode) (root : Hash256) (l : Level)
    (todo : List Hash256) : Prop where
  walking : Walking get_node root l.result (todo ++ l.next_frontier)
  once : (l.result.map SHAMapNode.hash ++ (todo ++ l.next_frontier)).Nodup
  visited : ∀ x, x ∈ l.visited ↔ x ∈ l.result.map SHAMapNode.hash ++ (todo ++ l.next_frontier)

theorem level_step_inLevel {l l' : Level} {h : Hash256} {todo : List Hash256}
    (hn : Named get_node) (hl : InLevel get_node root l (h :: todo))
    (hstep : level_step get_node l h = .ok l') : InLevel get_node root l' todo := by
  obtain ⟨node, cs, hget, hrefs, rfl⟩ := level_step_ok.mp hstep
  obtain ⟨new, hp⟩ := children_pushed l cs
  have hhash := hn h node hget
  obtain ⟨hdone, hpending, hdisjoint⟩ := List.nodup_append.mp hl.once
  have hnew : h ∉ l.result.map SHAMapNode.hash := fun hc =>
    hdisjoint h hc h List.mem_cons_self rfl
  have hresult : (l.result ++ [node]).map SHAMapNode.hash =
      l.result.map SHAMapNode.hash ++ [h] := by
    rw [List.map_append, List.map_singleton, hhash]
  -- The old names in their new places, and behind them the new ones.
  have hplaces : (l.result ++ [node]).map SHAMapNode.hash ++
      (todo ++ (l.next_frontier ++ new)) =
      (l.result.map SHAMapNode.hash ++ (h :: todo ++ l.next_frontier)) ++ new := by
    rw [hresult]
    simp
  refine ⟨?_, ?_, ?_⟩
  · show Walking get_node root ((cs.foldl Level.push l).result ++ [node])
      (todo ++ (cs.foldl Level.push l).next_frontier)
    rw [hp.result, hp.next_frontier]
    apply hl.walking.visit hn hnew hget hrefs
    · intro x hx
      rw [← List.append_assoc] at hx
      exact (List.mem_append.mp hx).imp id fun hx => (hp.fresh x hx).1
    · intro x hx
      rw [← List.append_assoc]
      rcases hx with hx | hx
      · exact .inr (List.mem_append_left new hx)
      · rcases (hp.visited x).mp (hp.met x hx) with hseen | hseen
        · have hplace := (hl.visited x).mp hseen
          simp only [List.cons_append, List.mem_append, List.mem_cons] at hplace ⊢
          tauto
        · exact .inr (List.mem_append_right _ hseen)
  · show ((((cs.foldl Level.push l).result ++ [node]).map SHAMapNode.hash) ++
      (todo ++ (cs.foldl Level.push l).next_frontier)).Nodup
    rw [hp.result, hp.next_frontier, hplaces]
    exact List.nodup_append.mpr ⟨hl.once, hp.once, fun a ha b hb hab =>
      (hp.fresh b hb).2 ((hl.visited b).mpr (hab ▸ ha))⟩
  · intro x
    show x ∈ (cs.foldl Level.push l).visited ↔
      x ∈ ((cs.foldl Level.push l).result ++ [node]).map SHAMapNode.hash ++
        (todo ++ (cs.foldl Level.push l).next_frontier)
    rw [hp.result, hp.next_frontier, hplaces, hp.visited, hl.visited]
    exact List.mem_append.symm

theorem level_inLevel {l l' : Level} {todo : List Hash256} (hn : Named get_node)
    (hl : InLevel get_node root l todo) (hrun : todo.foldlM (level_step get_node) l = .ok l') :
    InLevel get_node root l' [] := by
  induction todo generalizing l with
  | nil => exact foldlM_nil_ok.mp hrun ▸ hl
  | cons h todo ih =>
    obtain ⟨l₁, hstep, hrun⟩ := foldlM_cons_ok.mp hrun
    exact ih (level_step_inLevel hn hl hstep) hrun

theorem collect_level_loop_cons {fuel : Nat} {h : Hash256} {frontier visited : List Hash256}
    {result : List SHAMapNode} :
    collect_level_loop get_node (fuel + 1) (h :: frontier) visited result =
      (do
        let l ← (h :: frontier).foldlM (level_step get_node)
          { visited, next_frontier := [], result }
        collect_level_loop get_node fuel l.next_frontier l.visited l.result) :=
  rfl

/-- The frontier of a level becomes what is left to do in the next one. -/
theorem InLevel.next {l : Level} (hl : InLevel get_node root l []) :
    InLevel get_node root { l with next_frontier := [] } l.next_frontier := by
  obtain ⟨hw, honce, hv⟩ := hl
  rw [List.nil_append] at hw honce
  refine ⟨?_, ?_, ?_⟩
  · show Walking get_node root l.result (l.next_frontier ++ [])
    rw [List.append_nil]
    exact hw
  · show (l.result.map SHAMapNode.hash ++ (l.next_frontier ++ [])).Nodup
    rw [List.append_nil]
    exact honce
  · intro x
    show x ∈ l.visited ↔ x ∈ l.result.map SHAMapNode.hash ++ (l.next_frontier ++ [])
    rw [List.append_nil]
    exact hv x

theorem collect_level_loop_walking {fuel : Nat} {frontier visited : List Hash256}
    {result nodes : List SHAMapNode} (hn : Named get_node)
    (hl : InLevel get_node root { visited, next_frontier := [], result } frontier)
    (hrun : collect_level_loop get_node fuel frontier visited result = .ok nodes) :
    Walking get_node root nodes [] := by
  induction fuel generalizing frontier visited result with
  | zero => cases hrun
  | succ fuel ih =>
    cases frontier with
    | nil =>
      rw [← Except.ok.inj hrun]
      exact hl.walking
    | cons h frontier =>
      rw [collect_level_loop_cons] at hrun
      obtain ⟨l, hlevel, hrun⟩ := bind_eq_ok.mp hrun
      exact ih (level_inLevel hn hl hlevel).next hrun

theorem InLevel.start (get_node : Hash256 → Except Error SHAMapNode) (root : Hash256) :
    InLevel get_node root { visited := [root], next_frontier := [], result := [] } [root] :=
  ⟨Walking.start get_node root, List.nodup_singleton root, fun _ => Iff.rfl⟩

/-- Both walks return what the root reaches. -/
theorem collect_reachable_concurrent_walking {fuel concurrency : Nat} {nodes : List SHAMapNode}
    (hn : Named get_node)
    (hrun : collect_reachable_concurrent get_node fuel root concurrency = .ok nodes) :
    Walking get_node root nodes [] := by
  unfold collect_reachable_concurrent at hrun
  split at hrun
  · exact collect_reachable_walking hn hrun
  · exact collect_level_loop_walking hn (InLevel.start get_node root) hrun

/-- What two finished walks have collected makes the same map. -/
theorem Walking.state_eq {nodes nodes' : List SHAMapNode} (hw : Walking get_node root nodes [])
    (hw' : Walking get_node root nodes' []) : checkpoint_state nodes = checkpoint_state nodes' := by
  have hlookup : ∀ {nodes : List SHAMapNode}, Walking get_node root nodes [] → ∀ h n,
      (checkpoint_state nodes).lookup h = some n ↔
        Reaches (store_of get_node).refs root h ∧ get_node h = .ok n := by
    intro nodes hw h n
    obtain ⟨hmem, -⟩ := hw.search.finished
    constructor
    · intro hl
      have hhash := keyed_checkpoint nodes h n hl
      have hn := lookup_checkpoint_mem hl
      rw [← hhash]
      exact ⟨(hmem n.hash).mp (List.mem_map_of_mem hn), hw.read n hn⟩
    · rintro ⟨hr, hget⟩
      obtain ⟨m, hm, rfl⟩ := List.mem_map.mp ((hmem h).mpr hr)
      obtain ⟨m', hm', hhash, hl⟩ := lookup_insert_nodes_of_mem ∅ hm
      have hread := hw.read m' hm'
      rw [hhash, hget, Except.ok.injEq] at hread
      rw [hread]
      exact hl
  apply Finmap.ext_lookup
  intro h
  apply Option.ext
  intro n
  rw [hlookup hw, hlookup hw']

/-! ## Both walks come to their end -/

instance : Finite Hash256 :=
  Finite.of_injective (fun (h : Hash256) (i : Fin 32) =>
    (h.bytes.get ⟨i.val, h.length_eq.symm ▸ i.isLt⟩).toBitVec.toFin) fun a b hab => by
    apply Hash256.bytes_inj
    apply List.ext_getElem
    · rw [a.length_eq, b.length_eq]
    · intro i hi hi'
      have hat := congrFun hab ⟨i, a.length_eq ▸ hi⟩
      exact UInt8.toBitVec_inj.mp (BitVec.toFin_inj.mp hat)

/-- The hashes not met yet. -/
noncomputable def unmet (visited : List Hash256) : Nat := {h | h ∉ visited}.ncard

theorem unmet_lt {visited visited' : List Hash256} {h : Hash256} (hsub : visited ⊆ visited')
    (hh : h ∉ visited) (hh' : h ∈ visited') : unmet visited' < unmet visited := by
  apply Set.ncard_lt_ncard _ (Set.toFinite _)
  constructor
  · intro x hx hc
    exact hx (hsub hc)
  · intro hall
    exact hall hh hh'

/-- Everything below `h` can be read. -/
def ReadableBelow (get_node : Hash256 → Except Error SHAMapNode) (h : Hash256) : Prop :=
  ∀ x, Reaches (store_of get_node).refs h x → ((store_of get_node).refs x).isSome

theorem ReadableBelow.node {h : Hash256} (hr : ReadableBelow get_node h) :
    ∃ node cs, get_node h = .ok node ∧ node.refs = some cs ∧ ∀ c ∈ cs, ReadableBelow get_node c := by
  obtain ⟨cs, hcs⟩ := Option.isSome_iff_exists.mp (hr h .refl)
  obtain ⟨node, hnode, hrefs⟩ := Option.bind_eq_some_iff.mp hcs
  exact ⟨node, cs, store_of_eq_some.mp hnode, hrefs,
    fun c hc x hx => hr x (.head ⟨cs, hcs, hc⟩ hx)⟩

theorem Unread.not_readable {h : Hash256} {e : Error} (hu : Unread get_node h e) :
    ¬ ReadableBelow get_node h := by
  intro hr
  have hsome := hr h .refl
  rw [hu.refs_eq_none] at hsome
  cases hsome

theorem level_step_unread {l : Level} {h : Hash256} {e : Error} (hu : Unread get_node h e) :
    level_step get_node l h = .error e := by
  unfold level_step
  rcases hu with herr | ⟨node, hget, hin, hparse⟩
  · rw [herr]
    rfl
  · rw [bind_of_ok hget, Level.node, if_pos hin, hparse]
    rfl

section Ends

-- The hashes a walk may come to: with one of them also those below it.
variable {R : Hash256 → Prop}

/-- What a walk ends in, with every number of steps from some number on:
    nodes, or the error of a node it cannot read. -/
def EndsIn (get_node : Hash256 → Except Error SHAMapNode) (R : Hash256 → Prop)
    (run : Nat → Except Error (List SHAMapNode)) : Prop :=
  ∃ fuel₀, ∀ fuel ≥ fuel₀, (∃ nodes, run fuel = .ok nodes) ∨
    ∃ h e, R h ∧ Unread get_node h e ∧ run fuel = .error e

/-- One more step in front of a walk that ends. -/
theorem EndsIn.step {run run' : Nat → Except Error (List SHAMapNode)} (he : EndsIn get_node R run)
    (hstep : ∀ fuel, run' (fuel + 1) = run fuel) : EndsIn get_node R run' := by
  obtain ⟨fuel₀, hends⟩ := he
  refine ⟨fuel₀ + 1, fun fuel hfuel => ?_⟩
  obtain ⟨m, rfl⟩ := Nat.exists_eq_add_of_le' (show 1 ≤ fuel by omega)
  rw [hstep]
  exact hends m (by omega)

theorem EndsIn.error {run : Nat → Except Error (List SHAMapNode)} {h : Hash256} {e : Error} (hR : R h)
    (hu : Unread get_node h e) (hrun : ∀ fuel, run (fuel + 1) = .error e) :
    EndsIn get_node R run := by
  refine ⟨1, fun fuel hfuel => .inr ⟨h, e, hR, hu, ?_⟩⟩
  obtain ⟨m, rfl⟩ := Nat.exists_eq_add_of_le' hfuel
  exact hrun m

theorem EndsIn.exists_ok {run : Nat → Except Error (List SHAMapNode)} (he : EndsIn get_node R run)
    (hread : ∀ h, R h → ReadableBelow get_node h) : ∃ fuel nodes, run fuel = .ok nodes := by
  obtain ⟨fuel₀, hends⟩ := he
  rcases hends fuel₀ le_rfl with ⟨nodes, hrun⟩ | ⟨h, e, hR, hu, -⟩
  · exact ⟨fuel₀, nodes, hrun⟩
  · exact absurd (hread h hR) hu.not_readable

theorem collect_reachable_loop_ends {stack visited : List Hash256} {result : List SHAMapNode}
    (hR : ∀ h cs, R h → (store_of get_node).refs h = some cs → ∀ c ∈ cs, R c)
    (hstack : ∀ h ∈ stack, R h) :
    EndsIn get_node R fun fuel => collect_reachable_loop get_node fuel stack visited result := by
  -- Every node read is met for the first time; between two of them the
  -- stack shrinks.
  induction hm : unmet visited using Nat.strong_induction_on generalizing stack visited result with
  | _ m ih =>
    induction stack with
    | nil =>
      refine ⟨1, fun fuel hfuel => .inl ⟨result, ?_⟩⟩
      obtain ⟨m, rfl⟩ := Nat.exists_eq_add_of_le' hfuel
      rfl
    | cons h stack ihstack =>
      by_cases hh : h ∈ visited
      · refine (ihstack fun x hx => hstack x (List.mem_cons_of_mem h hx)).step fun fuel => ?_
        rw [collect_reachable_loop, if_pos hh]
      · have hRh := hstack h List.mem_cons_self
        rcases read_or_unread get_node h with ⟨node, cs, hget, hrefs⟩ | ⟨e, hu⟩
        · have hlt : unmet (h :: visited) < m :=
            hm ▸ unmet_lt (List.subset_cons_self h visited) hh List.mem_cons_self
          have hkids := hR h cs hRh (store_of_refs hget hrefs)
          have hrest := @ih _ hlt
            ((cs.filter fun child => child ∉ h :: visited).reverse ++ stack) (h :: visited)
            (result ++ [node]) (by
              intro x hx
              rcases List.mem_append.mp hx with hx | hx
              · exact hkids x (List.mem_filter.mp (List.mem_reverse.mp hx)).1
              · exact hstack x (List.mem_cons_of_mem h hx)) rfl
          exact hrest.step fun fuel => collect_reachable_loop_visit hh hget hrefs
        · exact EndsIn.error hRh hu fun fuel => collect_reachable_loop_unread hh hu

/-- A level ends, and what it finds is new. -/
theorem level_ends {l : Level} {todo : List Hash256}
    (hR : ∀ h cs, R h → (store_of get_node).refs h = some cs → ∀ c ∈ cs, R c)
    (htodo : ∀ h ∈ todo, R h) :
    (∃ l' new, todo.foldlM (level_step get_node) l = .ok l' ∧
      l'.next_frontier = l.next_frontier ++ new ∧ l.visited ⊆ l'.visited ∧
      ∀ x ∈ new, R x ∧ x ∉ l.visited ∧ x ∈ l'.visited) ∨
    ∃ h e, R h ∧ Unread get_node h e ∧ todo.foldlM (level_step get_node) l = .error e := by
  induction todo generalizing l with
  | nil => exact .inl ⟨l, [], rfl, (List.append_nil _).symm, fun _ hx => hx, by simp⟩
  | cons h todo ih =>
    have hRh := htodo h List.mem_cons_self
    rw [List.foldlM_cons]
    rcases read_or_unread get_node h with ⟨node, cs, hget, hrefs⟩ | ⟨e, hu⟩
    · obtain ⟨new, hp⟩ := children_pushed l cs
      rw [bind_of_ok (level_step_ok.mpr ⟨node, cs, hget, hrefs, rfl⟩)]
      -- What the rest of the level finds is new to the marks that `h` has left.
      rcases @ih { cs.foldl Level.push l with result := (cs.foldl Level.push l).result ++ [node] }
        (fun x hx => htodo x (List.mem_cons_of_mem h hx)) with
        ⟨l', new', hrun, hnext, hsub, hnew⟩ | herr
      · refine .inl ⟨l', new ++ new', hrun, ?_, ?_, ?_⟩
        · rw [hnext]
          show (cs.foldl Level.push l).next_frontier ++ new' = _
          rw [hp.next_frontier, List.append_assoc]
        · intro x hx
          exact hsub ((hp.visited x).mpr (.inl hx))
        · intro x hx
          rcases List.mem_append.mp hx with hx | hx
          · obtain ⟨hxc, hfresh⟩ := hp.fresh x hx
            exact ⟨hR h cs hRh (store_of_refs hget hrefs) x hxc, hfresh,
              hsub ((hp.visited x).mpr (.inr hx))⟩
          · obtain ⟨hread, hfresh, hin⟩ := hnew x hx
            exact ⟨hread, fun hc => hfresh ((hp.visited x).mpr (.inl hc)), hin⟩
      · exact .inr herr
    · rw [level_step_unread hu]
      exact .inr ⟨h, e, hRh, hu, rfl⟩

theorem collect_level_loop_ends {frontier visited : List Hash256} {result : List SHAMapNode}
    (hR : ∀ h cs, R h → (store_of get_node).refs h = some cs → ∀ c ∈ cs, R c)
    (hfrontier : ∀ h ∈ frontier, R h) :
    EndsIn get_node R fun fuel => collect_level_loop get_node fuel frontier visited result := by
  -- A level that is not the last one meets new hashes.
  induction hm : unmet visited using Nat.strong_induction_on generalizing frontier visited result with
  | _ m ih =>
    cases frontier with
    | nil =>
      refine ⟨1, fun fuel hfuel => .inl ⟨result, ?_⟩⟩
      obtain ⟨m, rfl⟩ := Nat.exists_eq_add_of_le' hfuel
      rfl
    | cons h frontier =>
      rcases @level_ends get_node R { visited, next_frontier := [], result } (h :: frontier) hR
        hfrontier with ⟨l, new, hlevel, hnext, hsub, hnew⟩ | ⟨x, e, hRx, hu, hlevel⟩
      · rw [List.nil_append] at hnext
        have hround := fun fuel => @collect_level_loop_cons get_node fuel h frontier visited result
        have hrest : EndsIn get_node R fun fuel =>
            collect_level_loop get_node fuel l.next_frontier l.visited l.result := by
          cases hcase : new with
          | nil =>
            refine ⟨1, fun fuel hfuel => .inl ⟨l.result, ?_⟩⟩
            obtain ⟨m, rfl⟩ := Nat.exists_eq_add_of_le' hfuel
            rw [hnext, hcase]
            rfl
          | cons x rest =>
            obtain ⟨-, hfresh, hin⟩ := hnew x (by rw [hcase]; exact List.mem_cons_self)
            have hlt : unmet l.visited < m := hm ▸ unmet_lt hsub hfresh hin
            exact @ih _ hlt l.next_frontier l.visited l.result
              (fun y hy => (hnew y (hnext ▸ hy)).1) rfl
        refine hrest.step fun fuel => ?_
        rw [hround, bind_of_ok hlevel]
      · refine EndsIn.error hRx hu fun fuel => ?_
        rw [collect_level_loop_cons, hlevel]
        rfl

/-- Both walks come to their end, on every store. -/
theorem collect_reachable_concurrent_ends (root : Hash256) (concurrency : Nat)
    (hR : ∀ h cs, R h → (store_of get_node).refs h = some cs → ∀ c ∈ cs, R c) (hroot : R root) :
    EndsIn get_node R fun fuel => collect_reachable_concurrent get_node fuel root concurrency := by
  have hstack : ∀ h ∈ [root], R h := fun h hh => List.mem_singleton.mp hh ▸ hroot
  unfold collect_reachable_concurrent
  split
  · exact collect_reachable_loop_ends hR hstack
  · exact collect_level_loop_ends hR hstack

end Ends

/-- On a readable tree the walk returns nodes at every level of
    concurrency. -/
theorem collect_reachable_concurrent_exists (hr : ReadableBelow get_node root) (concurrency : Nat) :
    ∃ fuel nodes, collect_reachable_concurrent get_node fuel root concurrency = .ok nodes := by
  refine (collect_reachable_concurrent_ends root concurrency (R := ReadableBelow get_node) ?_ hr).exists_ok
    fun _ h => h
  intro h cs hread hcs c hc x hx
  exact hread x (.head ⟨cs, hcs, hc⟩ hx)

/-! ## The two walks agree -/

/-- What a finished walk is: the nodes the root reaches, once each, if all
    of them can be read, and otherwise the error of one that cannot. -/
def WalkOf (get_node : Hash256 → Except Error SHAMapNode) (root : Hash256) :
    Except Error (List SHAMapNode) → Prop
  | .ok nodes => ReadableBelow get_node root ∧ (nodes.map SHAMapNode.hash).Nodup ∧
      ∀ n, n ∈ nodes ↔ Reaches (store_of get_node).refs root n.hash ∧ get_node n.hash = .ok n
  | .error e => ∃ h, Reaches (store_of get_node).refs root h ∧ Unread get_node h e

theorem collect_reachable_concurrent_walkOf (hn : Named get_node) (root : Hash256)
    (concurrency : Nat) : ∃ fuel₀, ∀ fuel ≥ fuel₀,
      WalkOf get_node root (collect_reachable_concurrent get_node fuel root concurrency) := by
  obtain ⟨fuel₀, hends⟩ := collect_reachable_concurrent_ends root concurrency
    (R := Reaches (store_of get_node).refs root) (fun h cs hh hcs c hc => .tail hh ⟨cs, hcs, hc⟩) .refl
  dsimp only at hends
  refine ⟨fuel₀, fun fuel hfuel => ?_⟩
  rcases hends fuel hfuel with ⟨nodes, hrun⟩ | ⟨h, e, hreach, hu, hrun⟩
  · have hw := collect_reachable_concurrent_walking hn hrun
    obtain ⟨hmem, hread⟩ := hw.search.finished
    rw [hrun]
    refine ⟨hread, hw.search.once, fun n => ⟨fun hin => ?_, fun ⟨hreach, hget⟩ => ?_⟩⟩
    · exact ⟨(hmem n.hash).mp (List.mem_map_of_mem hin), hw.read n hin⟩
    · obtain ⟨m, hm, hhash⟩ := List.mem_map.mp ((hmem n.hash).mpr hreach)
      have hread := hw.read m hm
      rw [hhash, hget, Except.ok.injEq] at hread
      exact hread ▸ hm
  · rw [hrun]
    exact ⟨h, hreach, hu⟩

/-- Whether a walk fails is decided by the store alone. -/
theorem WalkOf.error_iff {res : Except Error (List SHAMapNode)} (hw : WalkOf get_node root res) :
    (∃ e, res = .error e) ↔ ∃ h e, Reaches (store_of get_node).refs root h ∧ Unread get_node h e := by
  cases res with
  | ok nodes =>
    constructor
    · rintro ⟨e, he⟩
      cases he
    · rintro ⟨h, e, hreach, hu⟩
      have hsome := hw.1 h hreach
      rw [hu.refs_eq_none] at hsome
      cases hsome
  | error e =>
    obtain ⟨h, hreach, hu⟩ := hw
    exact ⟨fun _ => ⟨h, e, hreach, hu⟩, fun _ => ⟨e, rfl⟩⟩

/-- On every store the serial walk and the walk by levels fail together,
    when a node that the root reaches cannot be read. Otherwise both return
    the nodes that the root reaches, each exactly once. -/
theorem walks_agree (xxh64 : Bytes → UInt64 → UInt64) (lz4_decompress : Bytes → Nat → Option Bytes)
    (lookups : Nat) (r : NuDBReader) (root : Hash256) (concurrency : Nat) :
    ∃ fuel₀, ∀ fuel ≥ fuel₀,
      let get_node := r.get_node xxh64 lz4_decompress lookups
      let serial := collect_reachable get_node fuel root
      let concurrent := collect_reachable_concurrent get_node fuel root concurrency
      ((∃ e, concurrent = .error e) ↔ ∃ e, serial = .error e) ∧
      ((∃ e, serial = .error e) ↔
        ∃ h e, Reaches (store_of get_node).refs root h ∧ Unread get_node h e) ∧
      ∀ nodes, concurrent = .ok nodes → ∃ nodes', serial = .ok nodes' ∧ nodes.Perm nodes' ∧
        nodes.Nodup ∧
        ∀ n, n ∈ nodes ↔ Reaches (store_of get_node).refs root n.hash ∧ get_node n.hash = .ok n := by
  have hn : Named (r.get_node xxh64 lz4_decompress lookups) := fun h n hget =>
    NuDBReader.get_node_hash hget
  obtain ⟨fuel₁, hserial⟩ := collect_reachable_concurrent_walkOf hn root 1
  obtain ⟨fuel₂, hlevels⟩ := collect_reachable_concurrent_walkOf hn root concurrency
  refine ⟨max fuel₁ fuel₂, fun fuel hfuel => ?_⟩
  have hs : WalkOf _ root (collect_reachable _ fuel root) :=
    hserial fuel (le_trans (le_max_left _ _) hfuel)
  have hl := hlevels fuel (le_trans (le_max_right _ _) hfuel)
  refine ⟨hl.error_iff.trans hs.error_iff.symm, hs.error_iff, fun nodes hnodes => ?_⟩
  rw [hnodes] at hl
  obtain ⟨hread, honce, hmem⟩ := hl
  cases hrun : collect_reachable (r.get_node xxh64 lz4_decompress lookups) fuel root with
  | error e =>
    rw [hrun] at hs
    obtain ⟨h, hreach, hu⟩ := hs
    have hsome := hread h hreach
    rw [hu.refs_eq_none] at hsome
    cases hsome
  | ok nodes' =>
    rw [hrun] at hs
    obtain ⟨-, honce', hmem'⟩ := hs
    refine ⟨nodes', rfl, ?_, honce.of_map _, hmem⟩
    exact (List.perm_ext_iff_of_nodup (honce.of_map _) (honce'.of_map _)).mpr
      fun n => (hmem n).trans (hmem' n).symm

end LedgerArchive
