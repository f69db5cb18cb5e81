import LedgerArchive.Import.Checkpoint
import LedgerArchive.Lib.Positions

/-! # What the check of a tree decides

    `check_tree_complete` counts visits and compares the count with the size
    of the map. With every node at one position this decides whether the map
    is the tree under the root. With a node at two positions the map may be
    the tree and have fewer nodes than visits, or have as many extra nodes
    as there are visits too many (`tree_complete_iff`). -/

namespace LedgerArchive

open Lib

/-- The check comes to its end with `Ok`. -/
def TreeComplete (what : String) (root : Hash256) (state : StateMap) : Prop :=
  ∃ fuel, check_tree_complete fuel what root state = .ok ()

/-- Every node below `root` is in the map, and the map has no other. -/
def ExactTree (root : Hash256) (state : StateMap) : Prop :=
  ∀ h, Reaches state.refs root h ↔ h ∈ state

/-- The count cannot mislead: a node below the root is missing, or no node
    has two positions, or a node of the map is out of reach and the map is
    not as large as the number of positions. -/
def Countable (root : Hash256) (state : StateMap) : Prop :=
  (∀ h, Reaches state.refs root h → h ∈ state) →
    Unshared state.refs root ∨
      ((∃ h ∈ state, ¬ Reaches state.refs root h) ∧
        (positions state.refs root).encard ≠ state.keys.card)

variable {what : String} {root : Hash256} {state : StateMap}

theorem treeComplete_iff :
    TreeComplete what root state ↔
      ∃ visit, Walks state.refs [root] visit ∧ visit.length = state.keys.card := by
  unfold TreeComplete
  simp only [check_tree_complete_ok]
  constructor
  · rintro ⟨fuel, visit, hw, hcount, -⟩
    exact ⟨visit, hw, hcount⟩
  · rintro ⟨visit, hw, hcount⟩
    exact ⟨visit.length + 1, visit, hw, hcount, Nat.lt_succ_self _⟩

/-- Every inner node of the map parses. -/
def Parses (state : StateMap) : Prop :=
  ∀ h n, state.lookup h = some n → n.node_type.is_inner = true →
    ∃ inner, InnerNode.from_node n = .ok inner

theorem Parses.isSome_refs (hparse : Parses state) {h : Hash256} (hh : h ∈ state) :
    (state.refs h).isSome := by
  obtain ⟨n, hl⟩ := Finmap.mem_iff.mp hh
  unfold StateMap.refs
  rw [hl, Option.bind_some]
  by_cases hin : n.node_type.is_inner = true
  · obtain ⟨inner, hinner⟩ := hparse h n hl hin
    rw [(SHAMapNode.refs_inner hin).mpr ⟨inner, hinner, rfl⟩]
    rfl
  · rw [SHAMapNode.refs_leaf (by simpa using hin)]
    rfl

theorem refs_mem_state {h : Hash256} (hs : (state.refs h).isSome) : h ∈ state := by
  obtain ⟨cs, hcs⟩ := Option.isSome_iff_exists.mp hs
  obtain ⟨n, hl, -⟩ := StateMap.refs_eq_some.mp hcs
  exact Finmap.mem_of_lookup_eq_some hl

theorem refs_finite (state : StateMap) : {h | (state.refs h).isSome}.Finite :=
  state.keys.finite_toSet.subset fun _ hs => Finmap.mem_keys.mpr (refs_mem_state hs)

/-- A walk reads nodes of the map only. -/
theorem walk_mem_state {visit : List Hash256} (hw : Walks state.refs [root] visit) :
    ∀ h ∈ visit, h ∈ state := by
  intro h hh
  obtain ⟨cs, hcs, -⟩ := hw.closed h hh
  exact refs_mem_state (by rw [hcs]; rfl)

/-- The check decides whether the map is the tree, exactly on the maps on
    which the count cannot mislead. -/
theorem tree_complete_iff (hparse : Parses state) :
    (TreeComplete what root state ↔ ExactTree root state) ↔ Countable root state := by
  rw [treeComplete_iff]
  by_cases hclosed : ∀ h, Reaches state.refs root h → h ∈ state
  · by_cases hwalks : ∃ visit, Walks state.refs [root] visit
    · -- The walk ends. The count says that it makes as many visits as the map
      -- has nodes, and that means "no stray node" when no visit is repeated.
      obtain ⟨visit, hw⟩ := hwalks
      have hcount : (∃ v, Walks state.refs [root] v ∧ v.length = state.keys.card) ↔
          visit.length = state.keys.card :=
        ⟨fun ⟨v, hv, hlen⟩ => hw.unique hv ▸ hlen, fun hlen => ⟨visit, hw, hlen⟩⟩
      have hexact : ExactTree root state ↔ ∀ h ∈ state, h ∈ visit := by
        unfold ExactTree
        simp only [← hw.mem_root_iff]
        exact ⟨fun h x => (h x).mpr, fun h x => ⟨walk_mem_state hw x, h x⟩⟩
      have hextra : (∃ h ∈ state, ¬ Reaches state.refs root h) ↔ ¬ ∀ h ∈ state, h ∈ visit := by
        simp only [← hw.mem_root_iff]
        push Not
        rfl
      have hkeys : ∀ h ∈ visit, h ∈ state.keys := fun h hh =>
        Finmap.mem_keys.mpr (walk_mem_state hw h hh)
      have hcovers : visit.length = state.keys.card →
          ((∀ h ∈ state, h ∈ visit) ↔ visit.Nodup) := by
        intro hlen
        rw [← Walks.covers_iff_nodup hkeys hlen]
        simp only [Finmap.mem_keys]
      have htree : visit.Nodup → (∀ h ∈ state, h ∈ visit) → visit.length = state.keys.card := by
        intro hnd hall
        rw [← List.toFinset_card_of_nodup hnd]
        congr 1
        ext h
        rw [List.mem_toFinset, Finmap.mem_keys]
        exact ⟨walk_mem_state hw h, hall h⟩
      unfold Countable
      rw [hcount, hexact, hextra, hw.positions_encard, ← hw.nodup_iff_unshared, ne_eq, Nat.cast_inj]
      tauto
    · -- A circle: the walk goes on for ever, and no count is reached.
      have hwhole := (whole_iff_walks (refs_finite state)).not.mpr hwalks
      unfold Whole at hwhole
      push Not at hwhole
      obtain ⟨x, hx, hcircle⟩ := hwhole
      have hcircle := hcircle (hparse.isSome_refs (hclosed x hx))
      have hnever : ¬ ∃ visit, Walks state.refs [root] visit ∧ visit.length = state.keys.card :=
        fun ⟨visit, hw, _⟩ => hwalks ⟨visit, hw⟩
      have hshared := not_unshared_of_circle hx hcircle
      have hinfinite : (positions state.refs root).encard ≠ state.keys.card := by
        rw [(positions_infinite_of_circle hx hcircle).encard_eq]
        exact ENat.top_ne_natCast _
      have hexact : ExactTree root state ↔ ¬ ∃ h ∈ state, ¬ Reaches state.refs root h := by
        unfold ExactTree
        push Not
        exact ⟨fun h x => (h x).mpr, fun h x => ⟨hclosed x, h x⟩⟩
      unfold Countable
      rw [hexact, eq_false hnever, eq_false hshared, eq_true hinfinite, eq_true hclosed,
        false_iff, not_not, forall_const, false_or, and_true]
  · -- A node is missing: the walk fails, and the map is not the tree.
    have hnever : ¬ ∃ visit, Walks state.refs [root] visit ∧ visit.length = state.keys.card := by
      rintro ⟨visit, hw, -⟩
      exact hclosed fun h hr => walk_mem_state hw h (hw.mem_root_iff.mpr hr)
    have hnot : ¬ ExactTree root state := fun h => hclosed fun x => (h x).mp
    unfold Countable
    rw [eq_false hnever, eq_false hnot, eq_false hclosed]
    tauto

/-! ## A node at two positions -/

/-- The content of an inner node with the account in its first two slots. -/
def twice_content : Bytes := lone_account.hash.bytes ++ lone_account.hash.bytes ++
  List.replicate 448 0

def twice_hash : Hash256 := sha2_sha512half (HASH_PREFIX_INNER_NODE ++ twice_content)

/-- An account that the root does not reach. -/
def stray_account : SHAMapNode := ⟨sha2_sha512half [2], .AccountState, [2]⟩

def twice_nodes : List SHAMapNode :=
  [⟨twice_hash, .Inner, twice_content⟩, lone_account, stray_account]

/-- The tree under the root, and one node more. -/
def twice_state : StateMap := checkpoint_state twice_nodes

/-- The nodes parse and hash to their keys, the hashes differ, and the walk
    passes without the third node. -/
theorem twice_facts :
    (∀ n ∈ twice_nodes, n.node_type.is_inner = true →
        (InnerNode.from_node n).toOption.isSome = true) ∧
      twice_state.refs twice_hash = some [lone_account.hash, lone_account.hash] ∧
      twice_state.refs lone_account.hash = some [] ∧
      (stray_account.hash ≠ twice_hash ∧ stray_account.hash ≠ lone_account.hash) ∧
      verify_state_nodes sha2_sha512half twice_nodes = .ok () ∧
      ((twice_nodes.map hash_input).map sha2_sha512half).Nodup ∧
      (check_tree_complete 4 "checkpoint" twice_hash twice_state).toOption.isSome = true ∧
      stray_account.hash ∈ twice_state := by
  decide +kernel

theorem twice_state_parses : Parses twice_state := by
  obtain ⟨hall, -⟩ := twice_facts
  intro h n hl hin
  exact exists_ok_of_isSome (hall n (lookup_checkpoint_mem hl) hin)

theorem stray_account_unreached : ¬ Reaches twice_state.refs twice_hash stray_account.hash := by
  obtain ⟨-, hroot, hleaf, hne, -⟩ := twice_facts
  intro hr
  have hbelow : ∀ h, Reaches twice_state.refs twice_hash h → h = twice_hash ∨ h = lone_account.hash := by
    intro h hh
    induction hh with
    | refl => exact .inl rfl
    | tail _ href ih =>
      obtain ⟨cs, hcs, hc⟩ := href
      rcases ih with rfl | rfl
      · rw [hroot, Option.some.injEq] at hcs
        subst hcs
        exact .inr (by simpa using hc)
      · rw [hleaf, Option.some.injEq] at hcs
        subst hcs
        cases hc
  rcases hbelow _ hr with heq | heq
  · exact hne.1 heq
  · exact hne.2 heq

/-- Three nodes, three visits: the map passes, and one of its nodes is out
    of reach. Every node hashes to its key, and the hashes are different. -/
theorem stray_account_accepted :
    Keyed twice_state ∧ Parses twice_state ∧
      (∀ h n, twice_state.lookup h = some n → recompute_node_hash sha2_sha512half n = h) ∧
      Set.InjOn sha2_sha512half (node_inputs twice_nodes) ∧
      TreeComplete "checkpoint" twice_hash twice_state ∧
      ¬ ExactTree twice_hash twice_state := by
  obtain ⟨-, -, -, -, hrehash, hnodup, hcomplete, hheld⟩ := twice_facts
  refine ⟨keyed_checkpoint _, twice_state_parses, ?_, ?_, ?_, ?_⟩
  · intro h n hl
    rw [verify_state_nodes_ok.mp hrehash n (lookup_checkpoint_mem hl)]
    exact keyed_checkpoint _ h n hl
  · apply injOn_of_nodup (twice_nodes.map hash_input)
    · rintro x ⟨n, hn, rfl⟩
      exact List.mem_map_of_mem hn
    · exact hnodup
  · obtain ⟨u, hu⟩ := @exists_ok_of_isSome Error Unit
      (check_tree_complete 4 "checkpoint" twice_hash twice_state) hcomplete
    exact ⟨4, hu⟩
  · intro hexact
    exact stray_account_unreached ((hexact stray_account.hash).mpr hheld)

theorem tree_complete_iff_twice :
    (TreeComplete "checkpoint" twice_hash twice_state ↔ ExactTree twice_hash twice_state) ↔
      Countable twice_hash twice_state :=
  tree_complete_iff twice_state_parses

end LedgerArchive
