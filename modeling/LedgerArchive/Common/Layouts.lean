import LedgerArchive.Common.Written

/-! # The two chunk layouts

    A chunk can be written as a v2 file in one piece (`serialize_chunk`) or
    streamed as a v3 file (`ChunkWriter`). Both are read back as the chunk
    in sorted order, with their own chunk hash, if its lengths and counts
    fit the fields they are narrowed to (`both_layouts_round_trip`). The
    encoders succeed on other chunks as well, and what they write then is
    never read back (`encoders_read_back_iff`). -/

namespace LedgerArchive

open Lib

variable {sha512half : Bytes → Hash256}

/-! ## What a reader returns fits its fields -/

theorem read_exact_length {n : Nat} {used a : Bytes} (h : (read_exact n).Reads used a) :
    a.length = n := (read_exact_reads.mp h).2

theorem read_node_narrow {n : SHAMapNode} {used : Bytes} (h : read_node.Reads used n) :
    n.Narrow := by
  unfold read_node at h
  obtain ⟨hash, _, _, -, -, h⟩ := Get.reads_bind.mp h
  obtain ⟨type_byte, _, _, -, -, h⟩ := Get.reads_bind.mp h
  split at h
  · exact absurd h Get.not_reads_fail
  · obtain ⟨len, _, _, -, -, h⟩ := Get.reads_bind.mp h
    obtain ⟨content, _, _, -, hcontent, h⟩ := Get.reads_bind.mp h
    obtain ⟨rfl, -⟩ := Get.reads_pure.mp h
    show content.length < 2 ^ 16
    rw [read_exact_length hcontent]
    exact len.toNat_lt

/-- A counted list with a four byte count. -/
theorem read_counted_narrow {α : Type} {g : Get ChunkError α} {count : UInt32} {used : Bytes}
    {as : List α} (h : (Get.times count.toNat g).Reads used as) : as.length < 2 ^ 32 := by
  rw [(Get.reads_times h).1]
  exact count.toNat_lt

theorem read_node_list_narrow {nodes : List SHAMapNode} {used : Bytes}
    (h : read_node_list.Reads used nodes) : nodes.length < 2 ^ 32 ∧ ∀ n ∈ nodes, n.Narrow := by
  unfold read_node_list at h
  obtain ⟨count, _, _, -, -, h⟩ := Get.reads_bind.mp h
  refine ⟨read_counted_narrow h, fun n hn => ?_⟩
  obtain ⟨u, hu⟩ := (Get.reads_times h).2 n hn
  exact read_node_narrow hu

theorem read_delta_narrow {d : LedgerDelta} {used : Bytes} (h : read_delta.Reads used d) :
    d.Narrow := by
  unfold read_delta at h
  obtain ⟨seq, _, _, -, -, h⟩ := Get.reads_bind.mp h
  obtain ⟨added_count, _, _, -, -, h⟩ := Get.reads_bind.mp h
  obtain ⟨added, _, _, -, hadded, h⟩ := Get.reads_bind.mp h
  obtain ⟨deleted_count, _, _, -, -, h⟩ := Get.reads_bind.mp h
  obtain ⟨deleted, _, _, -, hdeleted, h⟩ := Get.reads_bind.mp h
  obtain ⟨rfl, -⟩ := Get.reads_pure.mp h
  refine ⟨read_counted_narrow hadded, fun n hn => ?_, read_counted_narrow hdeleted⟩
  obtain ⟨u, hu⟩ := (Get.reads_times hadded).2 n hn
  exact read_node_narrow hu

theorem read_tx_narrow {tx : TxRecord} {used : Bytes} (h : read_tx.Reads used tx) : tx.Narrow := by
  unfold read_tx at h
  obtain ⟨hash, _, _, -, -, h⟩ := Get.reads_bind.mp h
  obtain ⟨tx_len, _, _, -, -, h⟩ := Get.reads_bind.mp h
  obtain ⟨tx_blob, _, _, -, htx, h⟩ := Get.reads_bind.mp h
  obtain ⟨meta_len, _, _, -, -, h⟩ := Get.reads_bind.mp h
  obtain ⟨meta_blob, _, _, -, hmeta, h⟩ := Get.reads_bind.mp h
  obtain ⟨rfl, -⟩ := Get.reads_pure.mp h
  constructor
  · show tx_blob.length < 2 ^ 32
    rw [read_exact_length htx]
    exact tx_len.toNat_lt
  · show meta_blob.length < 2 ^ 32
    rw [read_exact_length hmeta]
    exact meta_len.toNat_lt

theorem read_tx_map_narrow {m : TxMap} {used : Bytes} (h : read_tx_map.Reads used m) :
    m.Narrow := by
  unfold read_tx_map at h
  -- Eight fixed fields stand before the count.
  obtain ⟨_, _, _, -, -, h⟩ := Get.reads_bind.mp h
  obtain ⟨_, _, _, -, -, h⟩ := Get.reads_bind.mp h
  obtain ⟨_, _, _, -, -, h⟩ := Get.reads_bind.mp h
  obtain ⟨_, _, _, -, -, h⟩ := Get.reads_bind.mp h
  obtain ⟨_, _, _, -, -, h⟩ := Get.reads_bind.mp h
  obtain ⟨_, _, _, -, -, h⟩ := Get.reads_bind.mp h
  obtain ⟨_, _, _, -, -, h⟩ := Get.reads_bind.mp h
  obtain ⟨_, _, _, -, -, h⟩ := Get.reads_bind.mp h
  obtain ⟨tx_count, _, _, -, -, h⟩ := Get.reads_bind.mp h
  obtain ⟨txns, _, _, -, htxns, h⟩ := Get.reads_bind.mp h
  obtain ⟨rfl, -⟩ := Get.reads_pure.mp h
  obtain ⟨hlen, hall⟩ := Get.reads_times htxns
  constructor
  · show txns.length < 2 ^ 16
    rw [hlen]
    exact tx_count.toNat_lt
  · intro tx htx
    obtain ⟨u, hu⟩ := hall tx htx
    exact read_tx_narrow hu

/-! ## The records of a chunk -/

/-- The lengths and counts of the chunk's records fit their fields. -/
structure Chunk.Narrow (c : Chunk) : Prop where
  count : c.checkpoint.length < 2 ^ 32
  checkpoint : ∀ n ∈ c.checkpoint, n.Narrow
  deltas : ∀ d ∈ c.deltas, d.Narrow
  tx_maps : ∀ m ∈ c.tx_maps, m.Narrow

instance (c : Chunk) : Decidable c.Narrow :=
  decidable_of_iff (c.checkpoint.length < 2 ^ 32 ∧ (∀ n ∈ c.checkpoint, n.Narrow) ∧
      (∀ d ∈ c.deltas, d.Narrow) ∧ ∀ m ∈ c.tx_maps, m.Narrow)
    ⟨fun h => ⟨h.1, h.2.1, h.2.2.1, h.2.2.2⟩,
      fun h => ⟨h.count, h.checkpoint, h.deltas, h.tx_maps⟩⟩

/-- The chunk in the order in which it is written. -/
def Chunk.sorted (c : Chunk) : Chunk :=
  { c with
    checkpoint := sort_nodes c.checkpoint
    deltas := c.deltas.map LedgerDelta.sorted
    tx_maps := c.tx_maps.map TxMap.sorted }

/-- What sorting a chunk does: each list of nodes is in the order of their
    hashes, each list of deleted hashes in order, and the transactions of a
    ledger in the order of their hashes; nothing else changes. -/
structure Chunk.SortedTo (c s : Chunk) : Prop where
  same : s = { c with checkpoint := s.checkpoint, deltas := s.deltas, tx_maps := s.tx_maps }
  checkpoint : StablySorted SHAMapNode.hash c.checkpoint s.checkpoint
  deltas : List.Forall₂ (fun d d' : LedgerDelta => d'.ledger_seq = d.ledger_seq ∧
    StablySorted SHAMapNode.hash d.diff.added d'.diff.added ∧
    StablySorted id d.diff.deleted d'.diff.deleted) c.deltas s.deltas
  tx_maps : List.Forall₂ (fun m m' : TxMap => m' = { m with txns := m'.txns } ∧
    StablySorted TxRecord.tx_hash m.txns m'.txns) c.tx_maps s.tx_maps

theorem Chunk.sorted_to (c : Chunk) : c.SortedTo c.sorted where
  same := rfl
  checkpoint := sort_nodes_sorted c.checkpoint
  deltas := by
    refine List.forall₂_map_right_iff.mpr (List.forall₂_same.mpr fun d _ => ?_)
    exact ⟨rfl, sort_nodes_sorted d.diff.added, sort_hashes_sorted d.diff.deleted⟩
  tx_maps := by
    refine List.forall₂_map_right_iff.mpr (List.forall₂_same.mpr fun m _ => ?_)
    exact ⟨rfl, sort_txns_sorted m.txns⟩

theorem sort_nodes_narrow {nodes : List SHAMapNode} :
    ((sort_nodes nodes).length < 2 ^ 32 ∧ ∀ n ∈ sort_nodes nodes, n.Narrow) ↔
      nodes.length < 2 ^ 32 ∧ ∀ n ∈ nodes, n.Narrow := by
  rw [(sort_nodes_perm nodes).length_eq]
  simp only [(sort_nodes_perm nodes).mem_iff]

theorem LedgerDelta.sorted_narrow {d : LedgerDelta} : d.sorted.Narrow ↔ d.Narrow := by
  constructor
  · rintro ⟨hcount, hadded, hdeleted⟩
    obtain ⟨hcount, hadded⟩ := sort_nodes_narrow.mp ⟨hcount, hadded⟩
    refine ⟨hcount, hadded, ?_⟩
    rw [← (sort_hashes_perm d.diff.deleted).length_eq]
    exact hdeleted
  · rintro ⟨hcount, hadded, hdeleted⟩
    obtain ⟨hcount, hadded⟩ := sort_nodes_narrow.mpr ⟨hcount, hadded⟩
    refine ⟨hcount, hadded, ?_⟩
    show (sort_hashes d.diff.deleted).length < 2 ^ 32
    rw [(sort_hashes_perm d.diff.deleted).length_eq]
    exact hdeleted

theorem TxMap.sorted_narrow {m : TxMap} : m.sorted.Narrow ↔ m.Narrow := by
  have hmem : ∀ tx, tx ∈ m.sorted.txns ↔ tx ∈ m.txns :=
    fun tx => (sort_txns_perm m.txns).mem_iff
  have hlen : m.sorted.txns.length = m.txns.length := (sort_txns_perm m.txns).length_eq
  constructor
  · rintro ⟨hcount, htxns⟩
    exact ⟨hlen ▸ hcount, fun tx htx => htxns tx ((hmem tx).mpr htx)⟩
  · rintro ⟨hcount, htxns⟩
    exact ⟨hlen.symm ▸ hcount, fun tx htx => htxns tx ((hmem tx).mp htx)⟩

theorem Chunk.sorted_narrow {c : Chunk} : c.sorted.Narrow ↔ c.Narrow := by
  have hnodes := @sort_nodes_narrow c.checkpoint
  constructor
  · rintro ⟨hcount, hcheckpoint, hdeltas, hmaps⟩
    obtain ⟨hcount, hcheckpoint⟩ := hnodes.mp ⟨hcount, hcheckpoint⟩
    exact ⟨hcount, hcheckpoint,
      fun d hd => LedgerDelta.sorted_narrow.mp (hdeltas _ (List.mem_map_of_mem hd)),
      fun m hm => TxMap.sorted_narrow.mp (hmaps _ (List.mem_map_of_mem hm))⟩
  · rintro ⟨hcount, hcheckpoint, hdeltas, hmaps⟩
    obtain ⟨hcount, hcheckpoint⟩ := hnodes.mpr ⟨hcount, hcheckpoint⟩
    refine ⟨hcount, hcheckpoint, fun d hd => ?_, fun m hm => ?_⟩
    · obtain ⟨d', hd', rfl⟩ := List.mem_map.mp hd
      exact LedgerDelta.sorted_narrow.mpr (hdeltas d' hd')
    · obtain ⟨m', hm', rfl⟩ := List.mem_map.mp hm
      exact TxMap.sorted_narrow.mpr (hmaps m' hm')

/-! ## Bodies -/

/-- The header a chunk is written with. -/
def Chunk.header (c : Chunk) (chunk_hash : Hash256) : ChunkHeader :=
  { network_id := c.network_id, start_ledger := c.start_ledger, end_ledger := c.end_ledger,
    checkpoint_hash := c.checkpoint_hash, stored_chunk_hash := chunk_hash }

/-- There are as many deltas and TX maps as the header's range asks for. -/
structure Chunk.Counted (c : Chunk) : Prop where
  deltas : c.deltas.length = (c.end_ledger - c.start_ledger).toNat
  tx_maps : c.tx_maps.length = c.deltas.length + 1

/-- The v2 body reads back as the sorted chunk. -/
theorem serialize_body_reads {c : Chunk} (hn : c.Narrow) (hc : c.Counted) (chunk_hash : Hash256) :
    (read_body FORMAT_VERSION (c.header chunk_hash)).Reads (serialize_body c)
      { c.sorted with chunk_hash } := by
  have hversion : ¬ FORMAT_VERSION = FORMAT_VERSION_STREAMED := by decide
  have hdeltas : (c.header chunk_hash).delta_count = c.deltas.length := hc.deltas.symm
  have hfooter : read_footer.Reads MAGIC_FOOTER () := rfl
  unfold read_body serialize_body read_deltas_tx_maps
  rw [if_neg hversion, hdeltas, ← hc.tx_maps, List.append_assoc, List.append_assoc]
  refine (read_node_list_reads hn.count hn.checkpoint).bind ?_
  rw [← List.append_assoc]
  refine Get.Reads.bind (a := (c.deltas.map LedgerDelta.sorted, c.tx_maps.map TxMap.sorted)) ?_ ?_
  · exact (read_map_reads fun d hd => read_delta_reads (hn.deltas d hd)).bind
      (reads_then_pure (read_map_reads fun m hm => read_tx_map_reads (hn.tx_maps m hm)) rfl)
  · exact reads_then_pure hfooter rfl

/-- Whatever a body is read as is narrow and has the header's counts. -/
theorem read_body_narrow {version : UInt8} {h : ChunkHeader} {used : Bytes} {c : Chunk}
    (hr : (read_body version h).Reads used c) : c.Narrow ∧ c.Counted := by
  obtain ⟨hdeltas, hmaps⟩ := read_body_counts hr
  unfold read_body at hr
  obtain ⟨nodes, _, _, -, hnodes, hr⟩ := Get.reads_bind.mp hr
  obtain ⟨⟨deltas, tx_maps⟩, _, _, -, hdt, hr⟩ := Get.reads_bind.mp hr
  obtain ⟨_, _, _, -, -, hr⟩ := Get.reads_bind.mp hr
  obtain ⟨rfl, -⟩ := Get.reads_pure.mp hr
  obtain ⟨hcount, hcheckpoint⟩ := read_node_list_narrow hnodes
  suffices h : (∀ d ∈ deltas, d.Narrow) ∧ ∀ m ∈ tx_maps, m.Narrow from
    ⟨⟨hcount, hcheckpoint, h.1, h.2⟩, ⟨hdeltas, hmaps.trans (by rw [hdeltas])⟩⟩
  unfold read_deltas_tx_maps at hdt
  split at hdt
  · obtain ⟨first, _, _, -, hfirst, hdt⟩ := Get.reads_bind.mp hdt
    obtain ⟨pairs, _, _, -, hpairs, hdt⟩ := Get.reads_bind.mp hdt
    obtain ⟨heq, -⟩ := Get.reads_pure.mp hdt
    obtain ⟨rfl, rfl⟩ := Prod.mk.inj heq
    have hpair : ∀ p ∈ pairs, p.1.Narrow ∧ p.2.Narrow := by
      intro p hp
      obtain ⟨u, hu⟩ := (Get.reads_times hpairs).2 p hp
      obtain ⟨d, _, _, -, hd, hu⟩ := Get.reads_bind.mp hu
      obtain ⟨m, _, _, -, hm, hu⟩ := Get.reads_bind.mp hu
      obtain ⟨rfl, -⟩ := Get.reads_pure.mp hu
      exact ⟨read_delta_narrow hd, read_tx_map_narrow hm⟩
    constructor
    · intro d hd
      obtain ⟨p, hp, rfl⟩ := List.mem_map.mp hd
      exact (hpair p hp).1
    · intro m hm
      rcases List.mem_cons.mp hm with rfl | hm
      · exact read_tx_map_narrow hfirst
      · obtain ⟨p, hp, rfl⟩ := List.mem_map.mp hm
        exact (hpair p hp).2
  · obtain ⟨ds, _, _, -, hds, hdt⟩ := Get.reads_bind.mp hdt
    obtain ⟨ms, _, _, -, hms, hdt⟩ := Get.reads_bind.mp hdt
    obtain ⟨heq, -⟩ := Get.reads_pure.mp hdt
    obtain ⟨rfl, rfl⟩ := Prod.mk.inj heq
    constructor
    · intro d hd
      obtain ⟨u, hu⟩ := (Get.reads_times hds).2 d hd
      exact read_delta_narrow hu
    · intro m hm
      obtain ⟨u, hu⟩ := (Get.reads_times hms).2 m hm
      exact read_tx_map_narrow hu

/-! ## Whole files -/

/-- The 81 bytes of a header. -/
def ChunkHeader.bytes (version : UInt8) (h : ChunkHeader) : Bytes :=
  MAGIC_HEADER ++ [version] ++ toBE 4 h.network_id.toNat ++ toBE 4 h.start_ledger.toNat ++
    toBE 4 h.end_ledger.toNat ++ h.checkpoint_hash.bytes ++ h.stored_chunk_hash.bytes

theorem ChunkHeader.bytes_length (version : UInt8) (h : ChunkHeader) :
    (h.bytes version).length = 81 := by
  unfold bytes
  simp [MAGIC_HEADER, Hash256.length_eq]

/-- Parsing a file behind its header. -/
theorem deserialize_chunk_header {version : UInt8} {h : ChunkHeader} {r : Bytes} {c : Chunk}
    (hv : version = FORMAT_VERSION ∨ version = FORMAT_VERSION_STREAMED) :
    deserialize_chunk sha512half (h.bytes version ++ r) = .ok c ↔
      sha512half r = h.stored_chunk_hash ∧ ∃ rest, (read_body version h).run r = .ok (c, rest) := by
  let fields := toBE 4 h.network_id.toNat ++ (toBE 4 h.start_ledger.toNat ++
    (toBE 4 h.end_ledger.toNat ++ (h.checkpoint_hash.bytes ++ h.stored_chunk_hash.bytes)))
  have hmagic : (read_exact 4).run (h.bytes version ++ r) =
      .ok (MAGIC_HEADER, [version] ++ (fields ++ r)) := by
    have hfile : h.bytes version ++ r = MAGIC_HEADER ++ ([version] ++ (fields ++ r)) := by
      unfold ChunkHeader.bytes
      simp only [fields, List.append_assoc]
    have hread : (read_exact 4).Reads MAGIC_HEADER MAGIC_HEADER :=
      read_exact_reads.mpr ⟨rfl, rfl⟩
    rw [hfile]
    exact hread.run_append _
  have hversion : read_u8.run ([version] ++ (fields ++ r)) = .ok (version, fields ++ r) :=
    Get.Reads.run_append (read_u8_reads.mpr rfl) _
  have hfields : read_header_fields.run (fields ++ r) = .ok (h, r) :=
    (read_header_fields_reads h).run_append r
  have hknown : ¬ (version ≠ FORMAT_VERSION ∧ version ≠ FORMAT_VERSION_STREAMED) := by
    rintro ⟨h1, h2⟩
    exact hv.elim h1 h2
  constructor
  · intro hok
    obtain ⟨p, hp, hok⟩ := bind_eq_ok.mp hok
    obtain rfl := Except.ok.inj (hmagic.symm.trans hp)
    obtain ⟨_, -, hok⟩ := bind_eq_ok.mp hok
    obtain ⟨p, hp, hok⟩ := bind_eq_ok.mp hok
    obtain rfl := Except.ok.inj (hversion.symm.trans hp)
    obtain ⟨_, -, hok⟩ := bind_eq_ok.mp hok
    obtain ⟨p, hp, hok⟩ := bind_eq_ok.mp hok
    obtain rfl := Except.ok.inj (hfields.symm.trans hp)
    obtain ⟨_, hhash, hok⟩ := bind_eq_ok.mp hok
    obtain ⟨⟨c', rest⟩, hbody, hok⟩ := bind_eq_ok.mp hok
    obtain rfl := pure_eq_ok.mp hok
    exact ⟨not_not.mp (bail_if_eq_ok.mp hhash), rest, hbody⟩
  · rintro ⟨hhash, rest, hbody⟩
    refine bind_eq_ok.mpr ⟨_, hmagic, bind_eq_ok.mpr ⟨(), bail_if_eq_ok.mpr (by simp), ?_⟩⟩
    refine bind_eq_ok.mpr ⟨_, hversion, bind_eq_ok.mpr ⟨(), bail_if_eq_ok.mpr hknown, ?_⟩⟩
    refine bind_eq_ok.mpr ⟨_, hfields, bind_eq_ok.mpr ⟨(), bail_if_eq_ok.mpr ?_, ?_⟩⟩
    · exact not_not.mpr hhash
    · exact bind_eq_ok.mpr ⟨(c, rest), hbody, rfl⟩

/-- The v2 file of a chunk. -/
theorem serialize_chunk_eq (c : Chunk) :
    serialize_chunk sha512half c =
      (c.header (sha512half (serialize_body c))).bytes FORMAT_VERSION ++ serialize_body c := rfl

/-- The chunk as `deserialize_chunk` should return it: in sorted order and
    with the hash of what stands behind the header. -/
def Chunk.read_back (sha512half : Bytes → Hash256) (c : Chunk) (file : Bytes) : Chunk :=
  { c.sorted with chunk_hash := sha512half (file.drop 81) }

theorem serialize_chunk_drop (c : Chunk) :
    (serialize_chunk sha512half c).drop 81 = serialize_body c := by
  rw [serialize_chunk_eq]
  exact List.drop_left' (ChunkHeader.bytes_length _ _)

/-- A v2 file is read back exactly when the chunk fits the format. -/
theorem serialize_chunk_read_back_iff {c : Chunk} :
    deserialize_chunk sha512half (serialize_chunk sha512half c) =
        .ok (c.read_back sha512half (serialize_chunk sha512half c)) ↔
      c.Narrow ∧ c.Counted := by
  unfold Chunk.read_back
  rw [serialize_chunk_drop, serialize_chunk_eq, deserialize_chunk_header (.inl rfl)]
  constructor
  · rintro ⟨-, rest, hbody⟩
    obtain ⟨used, -, hreads⟩ := Get.run_eq_ok_iff.mp hbody
    obtain ⟨hn, hc⟩ := read_body_narrow hreads
    refine ⟨Chunk.sorted_narrow.mp ⟨hn.count, hn.checkpoint, hn.deltas, hn.tx_maps⟩, ?_, ?_⟩
    · have hdeltas := hc.deltas
      unfold Chunk.sorted at hdeltas
      rwa [List.length_map] at hdeltas
    · have hmaps := hc.tx_maps
      unfold Chunk.sorted at hmaps
      rwa [List.length_map, List.length_map] at hmaps
  · rintro ⟨hn, hc⟩
    refine ⟨rfl, [], ?_⟩
    exact serialize_body_reads hn hc (sha512half (serialize_body c))

/-! ## The streamed file -/

/-- The pieces of a chunk written through `ChunkWriter` in v3 order. -/
def Chunk.write_stream (c : Chunk) : ChunkWriter :=
  let w := (ChunkWriter.create c.network_id c.start_ledger c.end_ledger
    c.checkpoint_hash).write_checkpoint c.checkpoint
  let w := match c.tx_maps.head? with
    | some first => w.write_tx_map first
    | none => w
  (c.deltas.zip c.tx_maps.tail).foldl (fun w p => (w.write_delta p.1).write_tx_map p.2) w

theorem ChunkWriter.Wrote.write_pairs {w : ChunkWriter} {h : ChunkHeader} {written : Bytes}
    (hw : w.Wrote h written) (pairs : List (LedgerDelta × TxMap)) :
    (pairs.foldl (fun w p => (w.write_delta p.1).write_tx_map p.2) w).Wrote h
      (written ++ pairs.flatMap fun p => LedgerArchive.write_delta p.1 ++
        LedgerArchive.write_tx_map p.2) := by
  induction pairs generalizing w written with
  | nil =>
    rw [List.flatMap_nil, List.append_nil]
    exact hw
  | cons p pairs ih =>
    have hstep := (hw.write_delta p.1).write_tx_map p.2
    rw [List.append_assoc] at hstep
    rw [List.flatMap_cons, ← List.append_assoc]
    exact ih hstep

variable {c : Chunk} {first : TxMap} {later : List TxMap}

theorem write_stream_wrote (hmaps : c.tx_maps = first :: later) (chunk_hash : Hash256) :
    c.write_stream.Wrote (c.header chunk_hash)
      (written_body c.checkpoint first (c.deltas.zip later)) := by
  have hw := (((ChunkWriter.create_wrote (c.header chunk_hash)).write_checkpoint
    c.checkpoint).write_tx_map first).write_pairs (c.deltas.zip later)
  rw [List.nil_append] at hw
  unfold Chunk.write_stream
  rw [hmaps]
  exact hw

/-- What is written of a chunk in pieces is the chunk in sorted order. -/
theorem written_chunk_eq_sorted (hmaps : c.tx_maps = first :: later)
    (hlen : later.length = c.deltas.length) (chunk_hash : Hash256) :
    (c.header chunk_hash).written_chunk c.checkpoint first (c.deltas.zip later) =
      { c.sorted with chunk_hash } := by
  have hdeltas : ((c.deltas.zip later).map fun p => (p.1.sorted, p.2.sorted)).map Prod.fst =
      c.deltas.map LedgerDelta.sorted := by
    rw [List.map_map]
    show (c.deltas.zip later).map (LedgerDelta.sorted ∘ Prod.fst) = _
    rw [← List.map_map, List.map_fst_zip (by omega)]
  have hlater : ((c.deltas.zip later).map fun p => (p.1.sorted, p.2.sorted)).map Prod.snd =
      later.map TxMap.sorted := by
    rw [List.map_map]
    show (c.deltas.zip later).map (TxMap.sorted ∘ Prod.snd) = _
    rw [← List.map_map, List.map_snd_zip (by omega)]
  unfold ChunkHeader.written_chunk ChunkHeader.streamed_chunk Chunk.sorted Chunk.header
  rw [hdeltas, hlater, hmaps]
  rfl

theorem Chunk.Narrow.parts (hn : c.Narrow) (hmaps : c.tx_maps = first :: later) :
    NarrowParts c.checkpoint first (c.deltas.zip later) := by
  refine ⟨hn.count, hn.checkpoint, hn.tx_maps first (by rw [hmaps]; exact List.mem_cons_self),
    fun p hp => ?_⟩
  obtain ⟨hd, hm⟩ := List.of_mem_zip hp
  exact ⟨hn.deltas p.1 hd, hn.tx_maps p.2 (by rw [hmaps]; exact List.mem_cons_of_mem _ hm)⟩

/-- The layout of the streamed file. -/
theorem write_stream_layout (hn : c.Narrow) (hc : c.Counted) :
    ∃ body, Layout (c.write_stream.finish sha512half).2 (c.header (sha512half body)) body []
        { c.sorted with chunk_hash := sha512half body } ∧
      (c.write_stream.finish sha512half).1 = sha512half body ∧
      (c.write_stream.finish sha512half).2.drop 81 = body := by
  obtain ⟨first, later, hmaps⟩ : ∃ first later, c.tx_maps = first :: later := by
    have hpos := hc.tx_maps
    cases hm : c.tx_maps with
    | nil => rw [hm] at hpos; simp at hpos
    | cons first later => exact ⟨first, later, rfl⟩
  have hlen : later.length = c.deltas.length := by
    have hcount := hc.tx_maps
    rw [hmaps] at hcount
    simpa using hcount
  let body := written_body c.checkpoint first (c.deltas.zip later) ++ MAGIC_FOOTER
  have hw := write_stream_wrote hmaps (sha512half body)
  have hcount : (c.header (sha512half body)).delta_count = (c.deltas.zip later).length := by
    rw [List.length_zip, hlen, Nat.min_self]
    exact hc.deltas.symm
  refine ⟨body, ?_, ?_, ?_⟩
  · rw [← written_chunk_eq_sorted hmaps hlen]
    exact hw.layout (hn.parts hmaps) hcount rfl
  · obtain ⟨-, hhasher, -⟩ := hw.body MAGIC_FOOTER
    show sha512half (c.write_stream.body MAGIC_FOOTER).hasher = _
    rw [hhasher]
  · rw [hw.finish]
    refine List.drop_left' ?_
    rw [List.length_append, Hash256.length_eq]
    show (c.header (sha512half body)).front.length + 32 = 81
    unfold ChunkHeader.front
    simp [MAGIC_HEADER, Hash256.length_eq]

theorem write_stream_read_back (hn : c.Narrow) (hc : c.Counted) :
    deserialize_chunk sha512half (c.write_stream.finish sha512half).2 =
      .ok (c.read_back sha512half (c.write_stream.finish sha512half).2) := by
  obtain ⟨body, hl, -, hdrop⟩ := @write_stream_layout sha512half c hn hc
  unfold Chunk.read_back
  rw [hdrop]
  exact (deserialize_chunk_ok hl.version).mpr ⟨_, _, _, hl, by rw [List.append_nil]; rfl⟩

/-! ## Both layouts -/

/-- Both layouts of a chunk are read back as the same chunk in sorted
    order. Each is returned with the hash of everything behind its header,
    which for the streamed file is the hash `finish` returns. -/
theorem both_layouts_round_trip (c : Chunk) (hrange : c.start_ledger ≤ c.end_ledger)
    (hdeltas : c.deltas.length = c.end_ledger.toNat - c.start_ledger.toNat)
    (hmaps : c.tx_maps.length = c.end_ledger.toNat - c.start_ledger.toNat + 1) (hn : c.Narrow) :
    deserialize_chunk sha512half (serialize_chunk sha512half c) =
        .ok { c.sorted with chunk_hash := sha512half ((serialize_chunk sha512half c).drop 81) } ∧
      deserialize_chunk sha512half (c.write_stream.finish sha512half).2 =
        .ok { c.sorted with chunk_hash := (c.write_stream.finish sha512half).1 } ∧
      (c.write_stream.finish sha512half).1 =
        sha512half ((c.write_stream.finish sha512half).2.drop 81) ∧
      c.SortedTo c.sorted := by
  have hc : c.Counted :=
    ⟨by rw [hdeltas, UInt32.toNat_sub_of_le _ _ hrange], by rw [hmaps, hdeltas]⟩
  obtain ⟨body, -, hfin, hdrop⟩ := @write_stream_layout sha512half c hn hc
  have hstream := @write_stream_read_back sha512half c hn hc
  refine ⟨serialize_chunk_read_back_iff.mpr ⟨hn, hc⟩, ?_, ?_, c.sorted_to⟩
  · rw [hstream, hfin]
    unfold Chunk.read_back
    rw [hdrop]
  · rw [hfin, hdrop]

/-- Two ledgers. The second adds an account and has one transaction. -/
def small_chunk : Chunk :=
  { network_id := 1, start_ledger := 7, end_ledger := 8, checkpoint_hash := ZERO_HASH,
    chunk_hash := ZERO_HASH
    checkpoint := [⟨Hash256.ofBytes [2], .AccountState, [2]⟩, ⟨Hash256.ofBytes [1], .AccountState, [1]⟩]
    deltas := [{ ledger_seq := 8, diff :=
      { added := [⟨Hash256.ofBytes [3], .AccountState, [3]⟩], deleted := [Hash256.ofBytes [1]] } }]
    tx_maps := [empty_tx_map 7 ZERO_HASH ZERO_HASH,
      { empty_tx_map 8 ZERO_HASH ZERO_HASH with txns := [⟨Hash256.ofBytes [9], [1, 2], [3]⟩] }] }

theorem both_layouts_round_trip_small_chunk :
    deserialize_chunk sha2_sha512half (serialize_chunk sha2_sha512half small_chunk) =
        .ok { small_chunk.sorted with
          chunk_hash := sha2_sha512half ((serialize_chunk sha2_sha512half small_chunk).drop 81) } ∧
      deserialize_chunk sha2_sha512half (small_chunk.write_stream.finish sha2_sha512half).2 =
        .ok { small_chunk.sorted with
          chunk_hash := (small_chunk.write_stream.finish sha2_sha512half).1 } ∧
      (small_chunk.write_stream.finish sha2_sha512half).1 =
        sha2_sha512half ((small_chunk.write_stream.finish sha2_sha512half).2.drop 81) ∧
      small_chunk.SortedTo small_chunk.sorted :=
  both_layouts_round_trip small_chunk (by decide) (by decide) (by decide) (by decide)

/-! ## What the encoders accept -/

/-- The bytes added to `w` to get `w'` read back as `a`, whatever follows
    them. -/
def ReadsBack {α : Type} (g : Get ChunkError α) (w w' : ChunkWriter) (a : α) : Prop :=
  ∃ emitted, w'.inner = w.inner ++ emitted ∧ ∀ rest, g.run (emitted ++ rest) = .ok (a, rest)

theorem reads_back_body_iff {α : Type} {g : Get ChunkError α} {w : ChunkWriter} {buf : Bytes}
    {a : α} : ReadsBack g w (w.body buf) a ↔ g.Reads buf a := by
  rw [Get.reads_iff_run_append]
  constructor
  · rintro ⟨emitted, hinner, hrun⟩
    have heq : buf = emitted := List.append_cancel_left hinner
    rw [heq]
    exact hrun
  · intro hrun
    exact ⟨buf, rfl, hrun⟩

theorem checkpoint_read_back_iff {w : ChunkWriter} {nodes : List SHAMapNode} :
    ReadsBack read_node_list w (w.write_checkpoint nodes) (sort_nodes nodes) ↔
      nodes.length < 2 ^ 32 ∧ ∀ n ∈ nodes, n.Narrow := by
  rw [ChunkWriter.write_checkpoint_eq, reads_back_body_iff]
  constructor
  · intro h
    exact sort_nodes_narrow.mp (read_node_list_narrow h)
  · rintro ⟨hcount, hnarrow⟩
    exact read_node_list_reads hcount hnarrow

theorem delta_read_back_iff {w : ChunkWriter} {d : LedgerDelta} :
    ReadsBack read_delta w (w.write_delta d) d.sorted ↔ d.Narrow := by
  unfold ChunkWriter.write_delta
  rw [reads_back_body_iff]
  constructor
  · intro h
    exact LedgerDelta.sorted_narrow.mp (read_delta_narrow h)
  · exact read_delta_reads

theorem tx_map_read_back_iff {w : ChunkWriter} {m : TxMap} :
    ReadsBack read_tx_map w (w.write_tx_map m) m.sorted ↔ m.Narrow := by
  unfold ChunkWriter.write_tx_map
  rw [reads_back_body_iff]
  constructor
  · intro h
    exact TxMap.sorted_narrow.mp (read_tx_map_narrow h)
  · exact read_tx_map_reads

/-- The encoders succeed on everything. What they write reads back as what
    was written exactly when its lengths and counts fit their fields. -/
theorem encoders_read_back_iff (sha512half : Bytes → Hash256) (w : ChunkWriter)
    (nodes : List SHAMapNode) (d : LedgerDelta) (m : TxMap) (c : Chunk) :
    (ReadsBack read_node_list w (w.write_checkpoint nodes) (sort_nodes nodes) ↔
        nodes.length < 2 ^ 32 ∧ ∀ n ∈ nodes, n.Narrow) ∧
      (ReadsBack read_delta w (w.write_delta d) d.sorted ↔ d.Narrow) ∧
      (ReadsBack read_tx_map w (w.write_tx_map m) m.sorted ↔ m.Narrow) ∧
      (deserialize_chunk sha512half (serialize_chunk sha512half c) =
          .ok (c.read_back sha512half (serialize_chunk sha512half c)) ↔
        c.Narrow ∧ c.Counted) :=
  ⟨checkpoint_read_back_iff, delta_read_back_iff, tx_map_read_back_iff,
    serialize_chunk_read_back_iff⟩

/-- A node of 65536 bytes. -/
def wide_node : SHAMapNode := ⟨ZERO_HASH, .AccountState, List.replicate 65536 0⟩

/-- It is written with a length of zero, and its content is then read as
    what follows. -/
theorem wide_node_not_read_back :
    ¬ ReadsBack read_node_list (ChunkWriter.create 1 7 7 ZERO_HASH)
      ((ChunkWriter.create 1 7 7 ZERO_HASH).write_checkpoint [wide_node])
      (sort_nodes [wide_node]) := by
  rw [checkpoint_read_back_iff]
  rintro ⟨-, hnarrow⟩
  have hlen : wide_node.content.length < 2 ^ 16 := hnarrow wide_node List.mem_cons_self
  have hwide : wide_node.content.length = 65536 := List.length_replicate
  omega

end LedgerArchive
