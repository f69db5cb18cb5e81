import LedgerArchive.Import.Replay
import LedgerArchive.Nudb.RoundTrip

/-! # Nodes in the sink

    The nodes a sink has written are closed: the children of every inner
    node among them are among them (`Servable`). The nodes of a transaction
    tree are closed (`build_tx_tree_servable`), and a batch of nodes that
    fit keeps the sink closed (`SinkHolds.batch`). -/

namespace LedgerArchive

open Lib

/-! ## Closed sets of nodes -/

/-- The node can be stored and read back, hashes to its own hash, and its
    children are known. -/
structure Fits (sha512half : Bytes → Hash256) (known : Hash256 → Prop) (n : SHAMapNode) : Prop where
  exported : n.node_type.is_exported = true
  full : n.node_type = .Inner → n.content.length = 512
  rehash : recompute_node_hash sha512half n = n.hash
  children : ∀ cs, n.refs = some cs → ∀ c ∈ cs, known c

/-- A list of nodes that holds the children of its nodes. -/
def Servable (sha512half : Bytes → Hash256) (nodes : List SHAMapNode) : Prop :=
  ∀ n ∈ nodes, Fits sha512half (fun h => h ∈ nodes.map SHAMapNode.hash) n

variable {sha512half : Bytes → Hash256} {xxh64 : Bytes → UInt64 → UInt64} {τ : Type}

theorem Fits.mono {known known' : Hash256 → Prop} {n : SHAMapNode} (h : Fits sha512half known n)
    (hk : ∀ a, known a → known' a) : Fits sha512half known' n :=
  ⟨h.exported, h.full, h.rehash, fun cs hcs c hc => hk c (h.children cs hcs c hc)⟩

/-! ## Transaction trees -/

/-- The children of an inner node are the hashes it was made of, without
    the zero hash. -/
theorem refs_inner_node {hashes : List Hash256} (hlen : hashes.length = 16) {cs : List Hash256}
    (hcs : (inner_node sha512half hashes).refs = some cs) {c : Hash256} (hc : c ∈ cs) :
    c ∈ hashes ∧ c ≠ ZERO_HASH := by
  obtain ⟨inner, hin, rfl⟩ := (SHAMapNode.refs_inner rfl).mp hcs
  obtain ⟨i, hi⟩ := InnerNode.mem_child_hashes.mp hc
  have hlt : i.val < hashes.length := by omega
  have hslot := slot_bytes_flatMap (List.getElem?_eq_getElem hlt)
  have hchild := (InnerNode.from_full_bytes_ok hin).2 i
  unfold inner_node at hchild
  rw [hslot, Hash256.ofBytes_bytes, hi] at hchild
  split at hchild
  · next hz =>
    rw [Option.some.inj hchild]
    exact ⟨List.getElem_mem hlt, hz⟩
  · cases hchild

theorem tree_hash_mem {t : Radix 16 TxRecord} (hz : tree_hash sha512half t ≠ ZERO_HASH) :
    tree_hash sha512half t ∈ (tree_nodes sha512half t).map SHAMapNode.hash := by
  cases t with
  | empty => exact absurd rfl hz
  | leaf tx => simp [tree_nodes, tree_hash, Radix.items]
  | node kids => simp [tree_nodes, tree_hash, tree_inner_nodes]

/-- The nodes of a transaction tree are closed. -/
theorem tree_nodes_servable (t : Radix 16 TxRecord) :
    Servable sha512half (tree_nodes sha512half t) := by
  induction t with
  | empty => intro n hn; cases hn
  | leaf tx =>
    intro n hn
    have hn : n = tx_leaf sha512half tx := by simpa [tree_nodes, Radix.items, tree_inner_nodes] using hn
    subst hn
    refine ⟨rfl, fun h => (by cases h), rfl, fun cs hcs c hc => ?_⟩
    rw [SHAMapNode.refs_leaf rfl] at hcs
    cases hcs
    cases hc
  | node kids ih =>
    intro n hn
    have hkid : ∀ {i}, n ∈ tree_nodes sha512half (kids i) → Fits sha512half (fun h => h ∈
        (tree_nodes sha512half (.node kids)).map SHAMapNode.hash) n := by
      intro i hi
      exact (ih i n hi).mono fun a ha => List.map_subset _ (tree_nodes_kid i) ha
    -- A leaf, an inner node below, or the node itself.
    unfold tree_nodes at hn
    rcases List.mem_append.mp hn with hn | hn
    · obtain ⟨tx, htx, rfl⟩ := List.mem_map.mp hn
      obtain ⟨i, _, hi⟩ := List.mem_flatMap.mp htx
      exact hkid (List.mem_append_left _ (List.mem_map_of_mem hi))
    · rcases List.mem_append.mp hn with hn | hn
      · obtain ⟨i, _, hi⟩ := List.mem_flatMap.mp hn
        exact hkid (List.mem_append_right _ hi)
      · rw [List.mem_singleton.mp hn]
        refine ⟨rfl, fun _ => inner_node_length (by simp), rfl, fun cs hcs c hc => ?_⟩
        obtain ⟨hmem, hz⟩ := refs_inner_node (by simp) hcs hc
        obtain ⟨i, _, rfl⟩ := List.mem_map.mp hmem
        exact List.map_subset _ (tree_nodes_kid i) (tree_hash_mem hz)

/-- The nodes `build_tx_tree` returns are closed, and its root is among
    them unless there are no transactions. -/
theorem build_tx_tree_servable {txns : List TxRecord} {root : Hash256} {nodes : List SHAMapNode}
    (h : build_tx_tree sha512half txns = .ok (root, nodes)) :
    Servable sha512half nodes ∧ (root ≠ ZERO_HASH → root ∈ nodes.map SHAMapNode.hash) := by
  obtain ⟨t, ht, rfl, rfl⟩ := build_tx_tree_ok h
  have hsame : ∀ n, n ∈ txns.map (tx_leaf sha512half) ++ tree_inner_nodes sha512half t ↔
      n ∈ tree_nodes sha512half t := by
    intro n
    unfold tree_nodes
    rw [List.mem_append, List.mem_append, (ht.items_perm.map (tx_leaf sha512half)).mem_iff]
  have hmap : ∀ a, a ∈ (tree_nodes sha512half t).map SHAMapNode.hash →
      a ∈ (txns.map (tx_leaf sha512half) ++ tree_inner_nodes sha512half t).map SHAMapNode.hash :=
    fun a ha => List.map_subset _ (fun n hn => (hsame n).mpr hn) ha
  exact ⟨fun n hn => (tree_nodes_servable t n ((hsame n).mp hn)).mono hmap,
    fun hz => hmap _ (tree_hash_mem hz)⟩

/-! ## The sink -/

/-- `nodes` are the nodes written so far, each hash once. -/
structure SinkHolds (xxh64 : Bytes → UInt64 → UInt64) (sha512half : Bytes → Hash256)
    (sink : NuDbSink) (nodes : List SHAMapNode) : Prop where
  stored : Stored xxh64 sink (encode_calls nodes)
  servable : Servable sha512half nodes

theorem nodes_store_isSome {nodes : List SHAMapNode} {h : Hash256} :
    (nodes_store nodes h).isSome ↔ h ∈ nodes.map SHAMapNode.hash := by
  unfold nodes_store
  rw [List.find?_isSome, List.mem_map]
  simp

theorem Stored.mem_seen {sink : NuDbSink} {nodes : List SHAMapNode}
    (hs : Stored xxh64 sink (encode_calls nodes)) {h : Hash256} :
    h ∈ sink.seen ↔ h ∈ nodes.map SHAMapNode.hash := by
  rw [hs.seen, lookup_encode_calls, Option.isSome_map, nodes_store_isSome]

/-- A batch sent to the sink: it writes the nodes that are new, each as it
    is listed first. -/
theorem sink_nodes_stored {out out' : Outputs NuDbSink τ} {nodes batch : List SHAMapNode}
    (hs : Stored xxh64 out.sink (encode_calls nodes))
    (h : sink_nodes (NuDbSink.node_sink xxh64) out batch = .ok out') :
    ∃ more, Stored xxh64 out'.sink (encode_calls (nodes ++ more)) ∧ out'.txdb = out.txdb ∧
      (∀ n ∈ batch, n.hash ∈ (nodes ++ more).map SHAMapNode.hash) ∧
      ∀ m ∈ more, m.hash ∉ nodes.map SHAMapNode.hash ∧
        batch.find? (fun n => n.hash = m.hash) = some m := by
  induction batch generalizing out nodes with
  | nil =>
    have hout := foldlM_nil_ok.mp h
    subst hout
    refine ⟨[], ?_, rfl, ?_, ?_⟩
    · rwa [List.append_nil]
    · intro n hn; cases hn
    · intro m hm; cases hm
  | cons n batch ih =>
    obtain ⟨out₁, hsink, hrest⟩ := foldlM_cons_ok.mp h
    by_cases hseen : n.hash ∈ out.sink.seen
    · -- Held already: nothing is written.
      have hout : out₁.sink = out.sink ∧ out₁.txdb = out.txdb := by
        unfold sink_node at hsink
        have hc : (NuDbSink.node_sink xxh64).contains out.sink n.hash = true :=
          List.contains_iff_mem.mpr hseen
        simp only [hc, if_true, Except.ok.injEq] at hsink
        rw [← hsink]
        exact ⟨rfl, rfl⟩
      have hknown := hs.mem_seen.mp hseen
      obtain ⟨more, hs', htx, hall, hmore⟩ := ih (hout.1 ▸ hs) hrest
      refine ⟨more, hs', htx.trans hout.2, ?_, ?_⟩
      · intro m hm
        rcases List.mem_cons.mp hm with rfl | hm
        · rw [List.map_append]
          exact List.mem_append_left _ hknown
        · exact hall m hm
      · intro m hm
        obtain ⟨hnew, hfind⟩ := hmore m hm
        have hne : n.hash ≠ m.hash := fun hc => hnew (hc ▸ hknown)
        refine ⟨hnew, ?_⟩
        rw [List.find?_cons_of_neg (by simpa using hne)]
        exact hfind
    · -- New: written with the value of this node.
      have hout : out₁.sink = out.sink.write_node xxh64 n.hash
          (encode_wire_to_value n.content n.node_type) ∧ out₁.txdb = out.txdb := by
        unfold sink_node at hsink
        have hc : (NuDbSink.node_sink xxh64).contains out.sink n.hash = false := by
          rw [← Bool.not_eq_true]
          exact fun hc => hseen (List.contains_iff_mem.mp hc)
        simp only [hc] at hsink
        obtain ⟨sink, hw, hsink⟩ := bind_eq_ok.mp hsink
        rw [pure_eq_ok] at hsink
        rw [← hsink]
        exact ⟨(Except.ok.inj hw).symm, rfl⟩
      have hs₁ : Stored xxh64 out₁.sink (encode_calls (nodes ++ [n])) := by
        rw [hout.1]
        unfold encode_calls
        rw [List.map_append]
        exact hs.write_node _ _
      obtain ⟨more, hs', htx, hall, hmore⟩ := ih hs₁ hrest
      rw [List.append_assoc] at hs' hall
      refine ⟨n :: more, hs', htx.trans hout.2, ?_, ?_⟩
      · intro m hm
        rcases List.mem_cons.mp hm with rfl | hm
        · simp
        · exact hall m hm
      · intro m hm
        rcases List.mem_cons.mp hm with rfl | hm
        · refine ⟨fun hc => hseen (hs.mem_seen.mpr hc), ?_⟩
          simp
        · obtain ⟨hnew, hfind⟩ := hmore m hm
          rw [List.map_append, List.mem_append, not_or] at hnew
          have hne : n.hash ≠ m.hash := fun hc => hnew.2 (by simp [hc])
          refine ⟨hnew.1, ?_⟩
          rw [List.find?_cons_of_neg (by simpa using hne)]
          exact hfind

/-- A batch whose nodes fit, as they are listed first, keeps what has been
    written closed. -/
theorem SinkHolds.batch {out out' : Outputs NuDbSink τ} {nodes batch : List SHAMapNode}
    (hs : SinkHolds xxh64 sha512half out.sink nodes)
    (h : sink_nodes (NuDbSink.node_sink xxh64) out batch = .ok out')
    (hfits : ∀ m, batch.find? (fun n => n.hash = m.hash) = some m →
      Fits sha512half (fun a => a ∈ nodes.map SHAMapNode.hash ∨ a ∈ batch.map SHAMapNode.hash) m) :
    ∃ nodes', SinkHolds xxh64 sha512half out'.sink nodes' ∧ out'.txdb = out.txdb ∧
      nodes ⊆ nodes' ∧ ∀ n ∈ batch, n.hash ∈ nodes'.map SHAMapNode.hash := by
  obtain ⟨more, hstored, htx, hall, hmore⟩ := sink_nodes_stored hs.stored h
  have hmono : ∀ a, a ∈ nodes.map SHAMapNode.hash → a ∈ (nodes ++ more).map SHAMapNode.hash :=
    fun a ha => List.map_subset _ (List.subset_append_left nodes more) ha
  refine ⟨nodes ++ more, ⟨hstored, fun n hn => ?_⟩, htx, List.subset_append_left _ _, hall⟩
  rcases List.mem_append.mp hn with hn | hn
  · exact (hs.servable n hn).mono hmono
  · refine (hfits n (hmore n hn).2).mono fun a ha => ?_
    rcases ha with ha | ha
    · exact hmono a ha
    · obtain ⟨m, hm, rfl⟩ := List.mem_map.mp ha
      exact hall m hm

end LedgerArchive
