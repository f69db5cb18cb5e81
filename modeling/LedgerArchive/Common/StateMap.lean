import LedgerArchive.Common.Shamap
import Mathlib.Data.Finmap

/-! # The account state as a map

    Exporter and importer both keep the state tree of the current ledger as
    a map from hash to node, and move it to the next ledger by removing the
    hashes a diff deletes and then inserting the nodes it adds. -/

namespace LedgerArchive

/-- `HashMap<Hash256, SHAMapNode>`. -/
abbrev StateMap := Finmap fun _ : Hash256 => SHAMapNode

/-- Insert nodes under their hashes: a later node replaces an earlier one. -/
def insert_nodes (state : StateMap) (nodes : List SHAMapNode) : StateMap :=
  nodes.foldl (fun s n => s.insert n.hash n) state

def remove_hashes (state : StateMap) (hashes : List Hash256) : StateMap :=
  hashes.foldl (fun s h => s.erase h) state

/-- New state = (old state - deleted) + added. -/
def apply_diff (state : StateMap) (diff : SHAMapDiff) : StateMap :=
  insert_nodes (remove_hashes state diff.deleted) diff.added

/-- The state map of a checkpoint. -/
def checkpoint_state (nodes : List SHAMapNode) : StateMap :=
  insert_nodes ∅ nodes

/-- What a node refers to: its children, when it is an inner node that
    parses, and nothing when it is a leaf. -/
def SHAMapNode.refs (node : SHAMapNode) : Option (List Hash256) :=
  if node.node_type.is_inner then
    match InnerNode.from_node node with
    | .ok inner => some inner.child_hashes
    | .error _ => none
  else some []

/-- The references of the node held under `h`. -/
def StateMap.refs (state : StateMap) (h : Hash256) : Option (List Hash256) :=
  (state.lookup h).bind SHAMapNode.refs

variable {state : StateMap} {nodes : List SHAMapNode} {hashes : List Hash256} {diff : SHAMapDiff}
  {h : Hash256} {n : SHAMapNode}

/-! ## Lookups -/

/-- The last node inserted under a hash is the one held. -/
theorem lookup_insert_nodes (state : StateMap) (nodes : List SHAMapNode) (h : Hash256) :
    (insert_nodes state nodes).lookup h =
      (nodes.reverse.find? fun n => n.hash = h).or (state.lookup h) := by
  unfold insert_nodes
  induction nodes generalizing state with
  | nil => simp
  | cons n nodes ih =>
    rw [List.foldl_cons, ih, List.reverse_cons, List.find?_append, Option.or_assoc]
    congr 1
    by_cases hn : n.hash = h
    · subst hn
      simp [Finmap.lookup_insert]
    · have hne : h ≠ n.hash := fun hc => hn hc.symm
      rw [Finmap.lookup_insert_of_ne _ hne]
      simp [hn]

theorem lookup_insert_nodes_cases (hl : (insert_nodes state nodes).lookup h = some n) :
    (n ∈ nodes ∧ n.hash = h) ∨ (state.lookup h = some n ∧ ∀ m ∈ nodes, m.hash ≠ h) := by
  rw [lookup_insert_nodes, Option.or_eq_some_iff] at hl
  rcases hl with hl | ⟨hnone, hl⟩
  · have hmem := List.mem_of_find?_eq_some hl
    have hhash := List.find?_some hl
    exact .inl ⟨List.mem_reverse.mp hmem, of_decide_eq_true hhash⟩
  · refine .inr ⟨hl, fun m hm hmh => ?_⟩
    have := List.find?_eq_none.mp hnone m (List.mem_reverse.mpr hm)
    simp [hmh] at this

theorem lookup_insert_nodes_of_mem (state : StateMap) (hn : n ∈ nodes) :
    ∃ m ∈ nodes, m.hash = n.hash ∧ (insert_nodes state nodes).lookup n.hash = some m := by
  rw [lookup_insert_nodes]
  cases hf : nodes.reverse.find? fun m => m.hash = n.hash with
  | none =>
    have := List.find?_eq_none.mp hf n (List.mem_reverse.mpr hn)
    simp at this
  | some m =>
    have hmem := List.mem_of_find?_eq_some hf
    have hhash := List.find?_some hf
    exact ⟨m, List.mem_reverse.mp hmem, of_decide_eq_true hhash, rfl⟩

theorem lookup_insert_nodes_of_not_mem (hn : ∀ m ∈ nodes, m.hash ≠ h) :
    (insert_nodes state nodes).lookup h = state.lookup h := by
  rw [lookup_insert_nodes]
  have hnone : nodes.reverse.find? (fun m => m.hash = h) = none := by
    rw [List.find?_eq_none]
    intro m hm
    simpa using hn m (List.mem_reverse.mp hm)
  rw [hnone, Option.none_or]

theorem mem_insert_nodes :
    h ∈ insert_nodes state nodes ↔ h ∈ state ∨ ∃ n ∈ nodes, n.hash = h := by
  constructor
  · intro hm
    obtain ⟨n, hn⟩ := Finmap.mem_iff.mp hm
    rcases lookup_insert_nodes_cases hn with ⟨hmem, hhash⟩ | ⟨hold, -⟩
    · exact .inr ⟨n, hmem, hhash⟩
    · exact .inl (Finmap.mem_of_lookup_eq_some hold)
  · intro hm
    by_cases hin : ∃ n ∈ nodes, n.hash = h
    · obtain ⟨n, hn, rfl⟩ := hin
      obtain ⟨m, -, -, hl⟩ := lookup_insert_nodes_of_mem state hn
      exact Finmap.mem_of_lookup_eq_some hl
    · have hold : h ∈ state := hm.resolve_right hin
      have hne : ∀ m ∈ nodes, m.hash ≠ h := fun m hm hc => hin ⟨m, hm, hc⟩
      rw [← Finmap.lookup_isSome, lookup_insert_nodes_of_not_mem hne, Finmap.lookup_isSome]
      exact hold

theorem lookup_remove_hashes :
    (remove_hashes state hashes).lookup h = if h ∈ hashes then none else state.lookup h := by
  unfold remove_hashes
  induction hashes generalizing state with
  | nil => simp
  | cons a hashes ih =>
    rw [List.foldl_cons, ih]
    by_cases ha : h = a
    · subst ha
      simp [Finmap.lookup_erase]
    · by_cases hin : h ∈ hashes
      · simp [hin]
      · simp [hin, ha, Finmap.lookup_erase_ne ha]

theorem mem_remove_hashes : h ∈ remove_hashes state hashes ↔ h ∈ state ∧ h ∉ hashes := by
  rw [← Finmap.lookup_isSome, lookup_remove_hashes]
  by_cases hin : h ∈ hashes
  · simp [hin]
  · simp [hin, Finmap.lookup_isSome]

/-! ## Applying a diff -/

theorem mem_apply_diff :
    h ∈ apply_diff state diff ↔ (h ∈ state ∧ h ∉ diff.deleted) ∨ ∃ n ∈ diff.added, n.hash = h := by
  unfold apply_diff
  rw [mem_insert_nodes, mem_remove_hashes]

/-- A node of the new state is an added one, or an old one that was neither
    removed nor replaced. -/
theorem lookup_apply_diff_cases (hl : (apply_diff state diff).lookup h = some n) :
    (n ∈ diff.added ∧ n.hash = h) ∨
      (state.lookup h = some n ∧ h ∉ diff.deleted ∧ ∀ m ∈ diff.added, m.hash ≠ h) := by
  rcases lookup_insert_nodes_cases hl with hadd | ⟨hold, hne⟩
  · exact .inl hadd
  · rw [lookup_remove_hashes] at hold
    split at hold
    · cases hold
    · next hdel => exact .inr ⟨hold, hdel, hne⟩

/-! ## States whose nodes sit under their own hash -/

def Keyed (state : StateMap) : Prop :=
  ∀ h n, state.lookup h = some n → n.hash = h

theorem keyed_checkpoint (nodes : List SHAMapNode) : Keyed (checkpoint_state nodes) := by
  intro h n hl
  rcases lookup_insert_nodes_cases hl with ⟨-, hhash⟩ | ⟨hold, -⟩
  · exact hhash
  · rw [Finmap.lookup_empty] at hold
    cases hold

theorem Keyed.apply_diff (hk : Keyed state) (diff : SHAMapDiff) : Keyed (apply_diff state diff) := by
  intro h n hl
  rcases lookup_apply_diff_cases hl with ⟨-, hhash⟩ | ⟨hold, -⟩
  · exact hhash
  · exact hk h n hold

theorem lookup_checkpoint_mem (hl : (checkpoint_state nodes).lookup h = some n) : n ∈ nodes := by
  rcases lookup_insert_nodes_cases hl with ⟨hmem, -⟩ | ⟨hold, -⟩
  · exact hmem
  · rw [Finmap.lookup_empty] at hold
    cases hold

theorem mem_checkpoint : h ∈ checkpoint_state nodes ↔ ∃ n ∈ nodes, n.hash = h := by
  unfold checkpoint_state
  rw [mem_insert_nodes]
  simp [Finmap.notMem_empty]

/-! ## References -/

/-- A leaf refers to nothing. -/
theorem SHAMapNode.refs_leaf (ht : n.node_type.is_inner = false) : n.refs = some [] := by
  simp [refs, ht]

theorem SHAMapNode.refs_inner (ht : n.node_type.is_inner = true) {cs : List Hash256} :
    n.refs = some cs ↔ ∃ inner, InnerNode.from_node n = .ok inner ∧ cs = inner.child_hashes := by
  unfold refs
  rw [if_pos ht]
  cases InnerNode.from_node n with
  | error e => simp
  | ok inner => simp [eq_comm]

/-- A node that refers to something is an inner node. -/
theorem SHAMapNode.is_inner_of_refs {cs : List Hash256} {c : Hash256} (hr : n.refs = some cs)
    (hc : c ∈ cs) : n.node_type.is_inner = true := by
  by_contra ht
  rw [refs_leaf (by simpa using ht)] at hr
  cases hr
  cases hc

/-- No node refers to the zero hash. -/
theorem SHAMapNode.refs_nonzero {cs : List Hash256} (hr : n.refs = some cs) : ZERO_HASH ∉ cs := by
  by_cases ht : n.node_type.is_inner = true
  · obtain ⟨inner, hin, rfl⟩ := (refs_inner ht).mp hr
    intro hz
    obtain ⟨i, hi⟩ := InnerNode.mem_child_hashes.mp hz
    exact InnerNode.from_node_nonzero hin i hi
  · rw [refs_leaf (by simpa using ht)] at hr
    cases hr
    simp

theorem StateMap.refs_eq_some {cs : List Hash256} :
    StateMap.refs state h = some cs ↔ ∃ n, state.lookup h = some n ∧ n.refs = some cs := by
  unfold StateMap.refs
  rw [Option.bind_eq_some_iff]

end LedgerArchive
