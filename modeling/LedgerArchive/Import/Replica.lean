import LedgerArchive.Export.Source
import LedgerArchive.Import.Order

/-! # Copies of trees

    A list of nodes that are all nodes of a store (`Drawn`) is a store of
    its own, which agrees with the first one on the hashes it has. Trees
    whose nodes are among them can be read from them: state trees
    (`Drawn.treeAt`), and transaction trees, whose nodes are rebuilt from
    the records (`StoredTxns.within`). -/

namespace LedgerArchive

open Lib

variable {sha512half : Bytes → Hash256} {store : Store} {nodes : List SHAMapNode}
  {xxh64 : Bytes → UInt64 → UInt64} {lz4 : Bytes → Nat → Option Bytes}

/-! ## Nodes of a store -/

/-- The nodes are nodes of the store. -/
def Drawn (store : Store) (nodes : List SHAMapNode) : Prop :=
  ∀ n ∈ nodes, store n.hash = some n

/-- Such nodes agree where they have one hash. -/
theorem Drawn.nodes_store (hd : Drawn store nodes) {h : Hash256} {n : SHAMapNode} :
    nodes_store nodes h = some n ↔ n ∈ nodes ∧ n.hash = h := by
  unfold LedgerArchive.nodes_store
  constructor
  · intro hfind
    exact ⟨List.mem_of_find?_eq_some hfind, by simpa using List.find?_some hfind⟩
  · rintro ⟨hn, rfl⟩
    cases hfind : nodes.find? fun k => k.hash = n.hash with
    | none =>
      have hno := List.find?_eq_none.mp hfind n hn
      simp at hno
    | some m =>
      have hm := hd m (List.mem_of_find?_eq_some hfind)
      have hhash : m.hash = n.hash := by simpa using List.find?_some hfind
      rw [hhash, hd n hn] at hm
      exact hm.symm

/-- A node that is found there is the one in the store. -/
theorem Drawn.found (hd : Drawn store nodes) {h : Hash256} {n : SHAMapNode}
    (hn : LedgerArchive.nodes_store nodes h = some n) : store h = some n := by
  obtain ⟨hmem, rfl⟩ := hd.nodes_store.mp hn
  exact hd n hmem

theorem Drawn.eq_store (hd : Drawn store nodes) {h : Hash256}
    (hh : h ∈ nodes.map SHAMapNode.hash) : LedgerArchive.nodes_store nodes h = store h := by
  obtain ⟨n, hn, rfl⟩ := List.mem_map.mp hh
  rw [hd n hn]
  exact hd.nodes_store.mpr ⟨hn, rfl⟩

/-- A tree of the store whose nodes are among them. -/
theorem Drawn.treeAt (hd : Drawn store nodes) {root : Hash256} {visit : List Hash256}
    (ht : TreeAt store root visit) (hsub : visit ⊆ nodes.map SHAMapNode.hash) :
    TreeAt (LedgerArchive.nodes_store nodes) root visit := by
  rcases ht with ⟨hz, hempty⟩ | ⟨hne, hw⟩
  · exact .inl ⟨hz, hempty⟩
  · refine .inr ⟨hne, hw.congr fun x hx => ?_⟩
    unfold Store.refs
    rw [hd.eq_store (hsub hx)]

/-! ## Lookups among nodes -/

/-- Lookups in a list of nodes. What is not there is left unanswered. -/
def lookup_of (nodes : List SHAMapNode) (h : Hash256) : Except Error SHAMapNode :=
  ok_or (nodes_store nodes h) .fuel

theorem lookup_of_ok {h : Hash256} {n : SHAMapNode} :
    lookup_of nodes h = .ok n ↔ nodes_store nodes h = some n := ok_or_eq_ok

theorem lookup_of_named (nodes : List SHAMapNode) : Named (lookup_of nodes) := by
  intro h n hget
  simpa using List.find?_some (lookup_of_ok.mp hget)

theorem lookup_of_serves (nodes : List SHAMapNode) (visit : List Hash256) :
    Serves (lookup_of nodes) (nodes_store nodes) visit :=
  fun h _ n hn => ⟨lookup_of_ok.mpr hn, lookup_of_named nodes h n (lookup_of_ok.mpr hn)⟩

theorem Answers.trans {a b c : Hash256 → Except Error SHAMapNode} (hab : Answers a b)
    (hbc : Answers b c) : Answers a c := by
  refine ⟨fun h n hget => hbc.found h n (hab.found h n hget), fun h e hget he => ?_⟩
  obtain ⟨e', he', hget'⟩ := hab.missed h e hget he
  exact hbc.missed h e' hget' he'

/-- A reader that has the nodes answers these lookups. -/
theorem lookup_of_answers {r : NuDBReader} (hr : r.Holds xxh64 lz4 (nodes_store nodes)) :
    ∃ fuel, Answers (lookup_of nodes) (r.get_node xxh64 lz4 fuel) := by
  obtain ⟨fuel, hserves⟩ := exists_serves hr (nodes.map SHAMapNode.hash)
  refine ⟨fuel, fun h n hget => ?_, fun h e hget he => ?_⟩
  · have hn := lookup_of_ok.mp hget
    have hmem : h ∈ nodes.map SHAMapNode.hash :=
      nodes_store_isSome.mp (Option.isSome_iff_exists.mpr ⟨n, hn⟩)
    exact (hserves fuel (le_refl _) h hmem n hn).1
  · exfalso
    unfold lookup_of at hget
    cases hn : nodes_store nodes h with
    | none =>
      rw [hn] at hget
      exact he (Except.error.inj hget).symm
    | some n =>
      rw [hn] at hget
      cases hget

/-- The source itself has the nodes. -/
theorem Drawn.holds (hd : Drawn store nodes) {r : NuDBReader} (hr : r.Holds xxh64 lz4 store) :
    r.Holds xxh64 lz4 (LedgerArchive.nodes_store nodes) :=
  fun h n hn => hr h n (hd.found hn)

/-! ## Transaction trees -/

/-- The leaves of transaction trees are stored as transactions. -/
def TxLeavesTyped (store : Store) : Prop :=
  ∀ h n tx, store h = some n → n.node_type.is_inner = false → parse_tx_leaf n.content = .ok tx →
    n.node_type = .TransactionWithMeta

/-- Nodes under their hashes, of the types that NuDB values have. -/
structure TypedStore (store : Store) : Prop where
  named : ∀ h n, store h = some n → n.hash = h
  exported : ∀ h n, store h = some n → n.node_type.is_exported = true
  full : ∀ h n, store h = some n → n.node_type = .Inner → n.content.length = 512
  tx_leaf : TxLeavesTyped store

/-- What a reader finds is typed. -/
theorem TxLeavesTyped.typed (htx : TxLeavesTyped store) {r : NuDBReader}
    (hr : r.Holds xxh64 lz4 store) : TypedStore store := by
  have hget : ∀ h n, store h = some n → ∃ fuel, r.get_node xxh64 lz4 fuel h = .ok n := by
    intro h n hn
    obtain ⟨fuel, hfuel⟩ := hr h n hn
    exact ⟨fuel, hfuel fuel (le_refl fuel)⟩
  refine ⟨?_, ?_, ?_, htx⟩
  · intro h n hn
    obtain ⟨fuel, hn⟩ := hget h n hn
    exact NuDBReader.get_node_hash hn
  · intro h n hn
    obtain ⟨fuel, hn⟩ := hget h n hn
    exact (NuDBReader.get_node_exported hn).1
  · intro h n hn
    obtain ⟨fuel, hn⟩ := hget h n hn
    exact (NuDBReader.get_node_exported hn).2

/-- The slots of a content of 512 bytes, back to back. -/
theorem flatMap_slot_bytes {content : Bytes} (h : content.length = 512) :
    (List.finRange 16).flatMap (InnerNode.slot_bytes content) = content := by
  have htake : ∀ k, (List.range k).flatMap (fun i => (content.drop (i * 32)).take 32) =
      content.take (k * 32) := by
    intro k
    induction k with
    | zero => rfl
    | succ k ih =>
      rw [List.range_succ, List.flatMap_append, ih, List.flatMap_singleton, Nat.succ_mul,
        List.take_add]
  have hrange := htake 16
  rw [← List.map_coe_finRange_eq_range, List.flatMap_map, List.take_of_length_le (by omega)] at hrange
  exact hrange

/-- A full node is made of its slots. -/
theorem InnerNode.from_full_bytes_slots {content : Bytes} {inner : InnerNode}
    (h : InnerNode.from_full_bytes content = .ok inner) :
    inner.slots.flatMap Hash256.bytes = content := by
  obtain ⟨hlen, hslots⟩ := InnerNode.from_full_bytes_ok h
  have hslot : ∀ i, ((inner.children i).getD ZERO_HASH).bytes = InnerNode.slot_bytes content i := by
    intro i
    have hbytes : (InnerNode.slot_bytes content i).length = 32 := by
      unfold InnerNode.slot_bytes
      rw [List.length_take, List.length_drop, hlen]
      have hi := i.isLt
      omega
    rw [hslots i, ← Hash256.bytes_ofBytes hbytes]
    split
    · rw [Option.getD_some, Hash256.ofBytes_bytes]
    · next hz =>
      rw [not_not, Hash256.ofBytes_bytes] at hz
      rw [Option.getD_none, hz]
  unfold InnerNode.slots
  rw [List.flatMap_map]
  simp only [hslot]
  exact flatMap_slot_bytes hlen

/-- A node of a rebuilt tree is one of a subtree, or the one on top. -/
theorem tree_nodes_node {kids : Fin 16 → Radix 16 TxRecord} {n : SHAMapNode}
    (hn : n ∈ tree_nodes sha512half (.node kids)) :
    (∃ i, n ∈ tree_nodes sha512half (kids i)) ∨
      n = inner_node sha512half ((List.finRange 16).map fun i => tree_hash sha512half (kids i)) := by
  unfold tree_nodes at hn ⊢
  rcases List.mem_append.mp hn with hn | hn
  · obtain ⟨tx, htx, rfl⟩ := List.mem_map.mp hn
    obtain ⟨i, -, hi⟩ := List.mem_flatMap.mp htx
    exact .inl ⟨i, List.mem_append_left _ (List.mem_map_of_mem hi)⟩
  · rcases List.mem_append.mp hn with hn | hn
    · obtain ⟨i, -, hi⟩ := List.mem_flatMap.mp hn
      exact .inl ⟨i, List.mem_append_right _ hi⟩
    · exact .inr (List.mem_singleton.mp hn)

/-- The nodes that are rebuilt for a stored tree are the stored ones. -/
theorem StoredTree.drawn (hs : TypedStore store) {t : Radix 16 TxRecord} {h : Hash256}
    (ht : StoredTree sha512half store t h) :
    ∀ n ∈ tree_nodes sha512half t, store n.hash = some n ∧ n.hash ≠ ZERO_HASH := by
  induction t generalizing h with
  | empty =>
    intro n hn
    cases hn
  | leaf tx =>
    obtain ⟨hne, n, hn, hout, hparse, hh⟩ := ht
    have hcontent := (parse_tx_leaf_iff.mp hparse).1
    -- Its type, hash and content are those of the stored node.
    have heq : n = tx_leaf sha512half tx := by
      have htype := hs.tx_leaf h n tx hn hout hparse
      have hname := hs.named h n hn
      obtain ⟨hash, node_type, content⟩ := n
      simp only at htype hname hcontent hh
      rw [htype, hname, hcontent, hh, hcontent]
      rfl
    intro m hm
    have hm : m = tx_leaf sha512half tx := by
      simpa [tree_nodes, tree_inner_nodes, Radix.items] using hm
    rw [hm, ← heq, hs.named h n hn]
    exact ⟨hn, hne⟩
  | node kids ih =>
    obtain ⟨hne, n, inner, hn, hin, hh, hkids⟩ := ht
    -- The slots are read off the content, and nothing else is in it.
    have heq : n = inner_node sha512half inner.slots := by
      have htype : n.node_type = .Inner :=
        NodeType.inner_of_exported (hs.exported h n hn) (InnerNode.from_node_is_inner hin)
      have hname := hs.named h n hn
      unfold InnerNode.from_node at hin
      rw [htype] at hin
      have hslots := InnerNode.from_full_bytes_slots hin
      obtain ⟨hash, node_type, content⟩ := n
      simp only at htype hname hslots
      rw [htype, hname, hh]
      unfold inner_node
      rw [hslots]
    have hslots : inner.slots = (List.finRange 16).map fun i => tree_hash sha512half (kids i) :=
      List.map_congr_left fun i _ => (hkids i).hash_eq
    intro m hm
    rcases tree_nodes_node hm with ⟨i, hi⟩ | hm
    · exact ih i (hkids i) m hi
    · rw [hm, ← hslots, ← heq, hs.named h n hn]
      exact ⟨hn, hne⟩

variable {txns txns' : List TxRecord} {root : Hash256}

theorem StoredTxTree.tx_nodes {kids : Fin 16 → Radix 16 TxRecord}
    (h : StoredTxTree sha512half store root kids) (hp : txns.Perm (Radix.node kids).items)
    {n : SHAMapNode} :
    n ∈ tx_nodes sha512half txns ↔ n ∈ tree_nodes sha512half (.node kids) := by
  have htree := h.treeOf.perm hp.symm
  obtain ⟨⟨root', built⟩, hbuild⟩ := @build_tx_tree_of_distinct sha512half txns htree.nodup
  obtain ⟨t, ht, -, hbuilt⟩ := build_tx_tree_ok hbuild
  obtain rfl := ht.unique htree
  rw [tx_nodes_eq hbuild, hbuilt]
  unfold tree_nodes
  rw [List.mem_append, List.mem_append, (hp.map _).mem_iff]

/-- Rebuilding the transactions of a ledger makes nodes of the store. -/
theorem StoredTxns.drawn (hs : TypedStore store) (h : StoredTxns sha512half store root txns)
    (hp : txns'.Perm txns) : Drawn store (tx_nodes sha512half txns') := by
  rcases h with ⟨rfl, rfl⟩ | ⟨kids, hstored, rfl⟩
  · rw [hp.eq_nil]
    exact List.forall_mem_nil _
  · intro n hn
    rw [hstored.tx_nodes (hp.trans (sort_txns_perm _))] at hn
    exact (hstored.stored.drawn hs n hn).1

/-- A list of nodes that has them has the transactions. -/
theorem StoredTxns.within (hs : TypedStore store) (hd : Drawn store nodes)
    (h : StoredTxns sha512half store root txns) (hp : txns'.Perm txns)
    (hsub : LedgerArchive.tx_nodes sha512half txns' ⊆ nodes) :
    StoredTxns sha512half (nodes_store nodes) root txns := by
  rcases h with h | ⟨kids, hstored, rfl⟩
  · exact .inl h
  · have hnodes : ∀ n ∈ tree_nodes sha512half (.node kids), n ∈ nodes := by
      intro n hn
      exact hsub ((hstored.tx_nodes (hp.trans (sort_txns_perm _))).mpr hn)
    have htree : StoredTree sha512half (nodes_store nodes) (.node kids)
        (tree_hash sha512half (.node kids)) := by
      apply StoredTree.of_nodes
      · exact fun n hn => hd.nodes_store.mpr ⟨hnodes n hn, rfl⟩
      · exact fun n hn => (hstored.stored.drawn hs n hn).2
      · exact hstored.stored.encodable
    rw [← hstored.stored.hash_eq] at htree
    exact .inr ⟨kids, ⟨htree, hstored.canonical, hstored.nonempty⟩, rfl⟩

end LedgerArchive
