import LedgerArchive.Nudb.Reader
import LedgerArchive.Common.StateMap
import LedgerArchive.Lib.Walk

/-! # What the collectors collect

    A tree in a store is a walk over the stored nodes (`TreeAt`). On a tree
    that holds no hash at two positions each collector returns every node
    of the tree once, whatever the order it goes in. -/

namespace LedgerArchive

open Lib

/-! ## Stores and trees -/

/-- What a store holds under each hash. -/
abbrev Store := Hash256 → Option SHAMapNode

/-- The references of the stored node under `h`. -/
def Store.refs (store : Store) (h : Hash256) : Option (List Hash256) :=
  (store h).bind SHAMapNode.refs

/-- `visit` lists the nodes of the tree under `root`, a node once for each
    of its positions. The zero hash names the empty tree. -/
def TreeAt (store : Store) (root : Hash256) (visit : List Hash256) : Prop :=
  (root = ZERO_HASH ∧ visit = []) ∨ (root ≠ ZERO_HASH ∧ Walks store.refs [root] visit)

/-- The hashes of the tree under `root`. -/
def Reachable (store : Store) (root h : Hash256) : Prop :=
  root ≠ ZERO_HASH ∧ Reaches store.refs root h

/-- Lookups of the listed hashes return what the store holds. -/
def Serves (get_node : Hash256 → Except Error SHAMapNode) (store : Store)
    (visit : List Hash256) : Prop :=
  ∀ h ∈ visit, ∀ n, store h = some n → get_node h = .ok n ∧ n.hash = h

variable {get_node : Hash256 → Except Error SHAMapNode} {store : Store}
  {root h : Hash256} {visit visit' : List Hash256}

theorem Serves.subset (hs : Serves get_node store visit) (hsub : visit' ⊆ visit) :
    Serves get_node store visit' :=
  fun h hh => hs h (hsub hh)

theorem TreeAt.unique (h : TreeAt store root visit) (h' : TreeAt store root visit') :
    visit = visit' := by
  rcases h with ⟨hz, hv⟩ | ⟨hnz, hw⟩
  · rcases h' with ⟨_, hv'⟩ | ⟨hnz', _⟩
    · rw [hv, hv']
    · exact absurd hz hnz'
  · rcases h' with ⟨hz', _⟩ | ⟨_, hw'⟩
    · exact absurd hz' hnz
    · exact hw.unique hw'

theorem TreeAt.mem_iff (ht : TreeAt store root visit) : h ∈ visit ↔ Reachable store root h := by
  rcases ht with ⟨hz, rfl⟩ | ⟨hnz, hw⟩
  · constructor
    · intro hh
      cases hh
    · rintro ⟨hnz, _⟩
      exact absurd hz hnz
  · rw [hw.mem_root_iff]
    exact ⟨fun hr => ⟨hnz, hr⟩, fun hr => hr.2⟩

/-- A nonempty tree is a node and the trees below it. -/
theorem TreeAt.node (ht : TreeAt store root visit) (hnz : root ≠ ZERO_HASH) :
    ∃ node cs v, store root = some node ∧ node.refs = some cs ∧ Walks store.refs cs v ∧
      visit = root :: v := by
  rcases ht with ⟨hz, _⟩ | ⟨_, hw⟩
  · exact absurd hz hnz
  · obtain ⟨cs, v, hs, hw, hv⟩ := Walks.single_iff.mp hw
    obtain ⟨node, hn, hrefs⟩ := Option.bind_eq_some_iff.mp hs
    exact ⟨node, cs, v, hn, hrefs, hw, hv⟩

/-- The walk over the children of a node, slot by slot. -/
theorem walks_slot {children : Fin 16 → Option Hash256} (hnz : ∀ i, children i ≠ some ZERO_HASH)
    {i : Fin 16} {l : List (Fin 16)} (hw : Walks store.refs ((i :: l).filterMap children) visit) :
    ∃ v v', visit = v ++ v' ∧ TreeAt store ((children i).getD ZERO_HASH) v ∧
      Walks store.refs (l.filterMap children) v' := by
  cases hc : children i with
  | none =>
    rw [List.filterMap_cons_none hc] at hw
    exact ⟨[], visit, rfl, .inl ⟨rfl, rfl⟩, hw⟩
  | some c =>
    rw [List.filterMap_cons_some hc] at hw
    obtain ⟨v, v', hv, hw1, hw2⟩ := Walks.cons_iff.mp hw
    refine ⟨v, v', hv, .inr ⟨?_, hw1⟩, hw2⟩
    intro hz
    have hzero : c = ZERO_HASH := hz
    exact hnz i (hc.trans (congrArg some hzero))

theorem ne_zero_of_refs {node : SHAMapNode} {cs : List Hash256} (hrefs : node.refs = some cs)
    {c : Hash256} (hc : c ∈ cs) : c ≠ ZERO_HASH :=
  fun hz => SHAMapNode.refs_nonzero hrefs (hz ▸ hc)

/-! ## The serial walk -/

/-- `nodes` are the stored nodes of the listed hashes. -/
structure Collected (store : Store) (nodes : List SHAMapNode) (visit : List Hash256) : Prop where
  perm : (nodes.map SHAMapNode.hash).Perm visit
  stored : ∀ n ∈ nodes, store n.hash = some n

/-- The references of a stored node, the last slot first: the order in
    which the stack is popped. -/
def Store.refs_reversed (store : Store) (h : Hash256) : Option (List Hash256) :=
  (store.refs h).map List.reverse

theorem collect_reachable_loop_ok {fuel : Nat} {stack visited : List Hash256}
    {result : List SHAMapNode} (hw : Walks store.refs_reversed stack visit)
    (hs : Serves get_node store visit) (hnd : visit.Nodup) (hnew : ∀ h ∈ visit, h ∉ visited)
    (hfuel : visit.length < fuel) :
    ∃ nodes, collect_reachable_loop get_node fuel stack visited result = .ok (result ++ nodes) ∧
      nodes.map SHAMapNode.hash = visit ∧ ∀ n ∈ nodes, store n.hash = some n := by
  induction fuel generalizing stack visited result visit with
  | zero => omega
  | succ fuel ih =>
    cases hw with
    | done => exact ⟨[], by simp [collect_reachable_loop], rfl, fun n hn => by cases hn⟩
    | @step h cs stack v hs' hw =>
      obtain ⟨cs', hcs', rfl⟩ := Option.map_eq_some_iff.mp hs'
      obtain ⟨node, hn, hrefs⟩ := Option.bind_eq_some_iff.mp hcs'
      obtain ⟨hget, rfl⟩ := hs h List.mem_cons_self node hn
      obtain ⟨hhere, hrest⟩ := List.nodup_cons.mp hnd
      rw [List.length_cons] at hfuel
      -- What is left to visit has not been visited, `h` included.
      have hnew' : ∀ x ∈ v, x ∉ node.hash :: visited := by
        intro x hx hmem
        rcases List.mem_cons.mp hmem with rfl | hmem
        · exact hhere hx
        · exact hnew x (List.mem_cons_of_mem _ hx) hmem
      obtain ⟨nodes, hloop, hhash, hst⟩ := @ih v _ (node.hash :: visited) (result ++ [node]) hw
        (hs.subset (List.subset_cons_self _ _)) hrest hnew' (by omega)
      refine ⟨node :: nodes, ?_, by rw [List.map_cons, hhash], ?_⟩
      · unfold collect_reachable_loop
        rw [if_neg (hnew node.hash List.mem_cons_self)]
        refine bind_eq_ok.mpr ⟨node, hget, ?_⟩
        have hcons : result ++ node :: nodes = result ++ [node] ++ nodes := by simp
        by_cases hin : node.node_type.is_inner = true
        · obtain ⟨inner, hparse, rfl⟩ := (SHAMapNode.refs_inner hin).mp hrefs
          have hfresh : (inner.child_hashes.filter fun child => child ∉ node.hash :: visited) =
              inner.child_hashes := by
            refine List.filter_eq_self.mpr fun c hc => decide_eq_true ?_
            exact hnew' c (hw.stack_subset c (List.mem_append_left _ (List.mem_reverse.mpr hc)))
          rw [if_pos hin]
          refine bind_eq_ok.mpr ⟨inner, from_shamap_eq_ok.mpr hparse, ?_⟩
          rw [hfresh, hcons]
          exact hloop
        · rw [SHAMapNode.refs_leaf (by simpa using hin), Option.some.injEq] at hrefs
          subst hrefs
          rw [if_neg hin, hcons]
          exact hloop
      · intro n hmem
        rcases List.mem_cons.mp hmem with rfl | hmem
        · exact hn
        · exact hst n hmem

theorem walks_reversed {stack : List Hash256} (hw : Walks store.refs stack visit) :
    ∃ v, Walks store.refs_reversed stack v ∧ v.Perm visit := by
  refine hw.reorder store.refs_reversed (fun x _ cs hcs => ?_) (.refl _)
  exact ⟨cs.reverse, by simp [Store.refs_reversed, hcs], List.reverse_perm cs⟩

theorem collect_reachable_ok {fuel : Nat} (hw : Walks store.refs [root] visit)
    (hs : Serves get_node store visit) (hnd : visit.Nodup) (hfuel : visit.length < fuel) :
    ∃ nodes, collect_reachable get_node fuel root = .ok nodes ∧ Collected store nodes visit := by
  obtain ⟨v, hv, hperm⟩ := walks_reversed hw
  have hs' : Serves get_node store v := hs.subset fun x hx => hperm.mem_iff.mp hx
  have hlen : v.length < fuel := by
    rw [hperm.length_eq]
    exact hfuel
  obtain ⟨nodes, hloop, hhash, hst⟩ := @collect_reachable_loop_ok get_node store v fuel [root] [] []
    hv hs' (hperm.nodup_iff.mpr hnd) (fun h _ => List.not_mem_nil) hlen
  exact ⟨nodes, hloop, hhash ▸ hperm, hst⟩

end LedgerArchive
