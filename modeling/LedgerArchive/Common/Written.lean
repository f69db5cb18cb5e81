import LedgerArchive.Common.TwoReaders
import LedgerArchive.Lib.SortBy

/-! # Written chunks

    A file that `ChunkWriter` has finished has the v3 layout: what the
    readers decode is what was written, with nodes, hashes and transactions
    in sorted order. The lengths and counts have to fit the fields they are
    narrowed to. -/

namespace LedgerArchive

open Lib

variable {sha512half : Bytes → Hash256}

/-! ## Fields -/

theorem read_field_reads {α : Type} {n : Nat} {b : Bytes} (f : Bytes → α) (h : b.length = n) :
    (do let b ← read_exact n; pure (f b) : Get ChunkError α).Reads b (f b) := by
  have hread : (read_exact n).Reads b b := read_exact_reads.mpr ⟨rfl, h⟩
  have hbind := hread.bind (f := fun b => pure (f b)) (Get.Reads.pure (f b))
  rwa [List.append_nil] at hbind

theorem read_u16be_reads {n : Nat} (h : n < 2 ^ 16) :
    read_u16be.Reads (toBE 2 n) (UInt16.ofNat n) := by
  have hread := read_field_reads (fun b => UInt16.ofNat (ofBE b)) (toBE_length 2 n)
  rwa [ofBE_toBE_of_lt h] at hread

theorem read_u32be_count_reads {n : Nat} (h : n < 2 ^ 32) :
    read_u32be.Reads (toBE 4 n) (UInt32.ofNat n) := by
  have hread := read_field_reads (fun b => UInt32.ofNat (ofBE b)) (toBE_length 4 n)
  rwa [ofBE_toBE_of_lt h] at hread

theorem read_u32be_reads (v : UInt32) : read_u32be.Reads (toBE 4 v.toNat) v := by
  have hread := read_u32be_count_reads v.toNat_lt
  rwa [UInt32.ofNat_toNat] at hread

theorem read_u64be_reads (v : UInt64) : read_u64be.Reads (toBE 8 v.toNat) v := by
  have hread := read_field_reads (fun b => UInt64.ofNat (ofBE b)) (toBE_length 8 v.toNat)
  rwa [ofBE_toBE_of_lt v.toNat_lt, UInt64.ofNat_toNat] at hread

theorem read_hash_reads (h : Hash256) : read_hash.Reads h.bytes h := by
  have hread := read_field_reads Hash256.ofBytes h.length_eq
  rwa [Hash256.ofBytes_bytes] at hread

/-- A value and a last pure step. -/
theorem reads_then_pure {α β : Type} {g : Get ChunkError α} {used : Bytes} {a : α} {b : β}
    {f : α → β} (hg : g.Reads used a) (hb : f a = b) :
    (do let a ← g; pure (f a) : Get ChunkError β).Reads used b := by
  have hbind := hg.bind (f := fun a => pure (f a)) (Get.Reads.pure (f a))
  rwa [List.append_nil, hb] at hbind

/-! ## Records -/

/-- The content length fits its field. -/
def SHAMapNode.Narrow (n : SHAMapNode) : Prop := n.content.length < 2 ^ 16

instance (n : SHAMapNode) : Decidable n.Narrow :=
  inferInstanceAs (Decidable (n.content.length < 2 ^ 16))

structure LedgerDelta.Narrow (d : LedgerDelta) : Prop where
  added_count : d.diff.added.length < 2 ^ 32
  added : ∀ n ∈ d.diff.added, n.Narrow
  deleted_count : d.diff.deleted.length < 2 ^ 32

structure TxRecord.Narrow (tx : TxRecord) : Prop where
  tx_blob : tx.tx_blob.length < 2 ^ 32
  meta_blob : tx.meta_blob.length < 2 ^ 32

structure TxMap.Narrow (m : TxMap) : Prop where
  tx_count : m.txns.length < 2 ^ 16
  txns : ∀ tx ∈ m.txns, tx.Narrow

instance (d : LedgerDelta) : Decidable d.Narrow :=
  decidable_of_iff (d.diff.added.length < 2 ^ 32 ∧ (∀ n ∈ d.diff.added, n.Narrow) ∧
      d.diff.deleted.length < 2 ^ 32)
    ⟨fun h => ⟨h.1, h.2.1, h.2.2⟩, fun h => ⟨h.added_count, h.added, h.deleted_count⟩⟩

instance (tx : TxRecord) : Decidable tx.Narrow :=
  decidable_of_iff (tx.tx_blob.length < 2 ^ 32 ∧ tx.meta_blob.length < 2 ^ 32)
    ⟨fun h => ⟨h.1, h.2⟩, fun h => ⟨h.tx_blob, h.meta_blob⟩⟩

instance (m : TxMap) : Decidable m.Narrow :=
  decidable_of_iff (m.txns.length < 2 ^ 16 ∧ ∀ tx ∈ m.txns, tx.Narrow)
    ⟨fun h => ⟨h.1, h.2⟩, fun h => ⟨h.tx_count, h.txns⟩⟩

/-- The delta as it is written. -/
def LedgerDelta.sorted (d : LedgerDelta) : LedgerDelta :=
  { d with diff := { added := sort_nodes d.diff.added, deleted := sort_hashes d.diff.deleted } }

def TxMap.sorted (m : TxMap) : TxMap := { m with txns := sort_txns m.txns }

theorem sort_nodes_sorted (nodes : List SHAMapNode) :
    StablySorted SHAMapNode.hash nodes (sort_nodes nodes) :=
  insertionSort_key_stable SHAMapNode.hash nodes

theorem sort_hashes_sorted (hashes : List Hash256) :
    StablySorted id hashes (sort_hashes hashes) :=
  insertionSort_key_stable id hashes

theorem sort_txns_sorted (txns : List TxRecord) :
    StablySorted TxRecord.tx_hash txns (sort_txns txns) :=
  insertionSort_key_stable TxRecord.tx_hash txns

theorem sort_nodes_perm (nodes : List SHAMapNode) : (sort_nodes nodes).Perm nodes :=
  (sort_nodes_sorted nodes).perm

theorem sort_hashes_perm (hashes : List Hash256) : (sort_hashes hashes).Perm hashes :=
  (sort_hashes_sorted hashes).perm

theorem sort_txns_perm (txns : List TxRecord) : (sort_txns txns).Perm txns :=
  (sort_txns_sorted txns).perm

theorem read_node_reads {n : SHAMapNode} (h : n.Narrow) : read_node.Reads (write_node n) n := by
  have hlen : (UInt16.ofNat n.content.length).toNat = n.content.length :=
    UInt16.toNat_ofNat_of_lt' h
  unfold read_node write_node
  rw [List.append_assoc, List.append_assoc]
  refine (read_hash_reads n.hash).bind ((read_u8_reads.mpr rfl).bind ?_)
  rw [NodeType.try_from_to_u8]
  refine (read_u16be_reads h).bind ?_
  rw [hlen]
  exact reads_then_pure (read_exact_reads.mpr ⟨rfl, rfl⟩) rfl

/-- A counted list. -/
theorem read_times_reads {α β : Type} {n : Nat} {l : List α} {g : Get ChunkError α}
    {write : α → Bytes} {f : List α → Get ChunkError β} {v : Bytes} {b : β} (hn : l.length = n)
    (hg : ∀ a ∈ l, g.Reads (write a) a) (hf : (f l).Reads v b) :
    (do let as ← Get.times n g; f as : Get ChunkError β).Reads (l.flatMap write ++ v) b := by
  subst hn
  exact (Get.Reads.times l hg).bind hf

theorem read_node_list_reads {nodes : List SHAMapNode} (hcount : nodes.length < 2 ^ 32)
    (h : ∀ n ∈ nodes, n.Narrow) :
    read_node_list.Reads (write_node_list nodes) (sort_nodes nodes) := by
  have hn : (UInt32.ofNat nodes.length).toNat = nodes.length := UInt32.toNat_ofNat_of_lt' hcount
  unfold read_node_list write_node_list
  refine (read_u32be_count_reads hcount).bind ?_
  rw [hn, ← (sort_nodes_perm nodes).length_eq]
  exact Get.Reads.times _ fun n hmem => read_node_reads (h n ((sort_nodes_perm nodes).mem_iff.mp hmem))

theorem read_delta_reads {d : LedgerDelta} (h : d.Narrow) :
    read_delta.Reads (write_delta d) d.sorted := by
  have hadded : (UInt32.ofNat d.diff.added.length).toNat = d.diff.added.length :=
    UInt32.toNat_ofNat_of_lt' h.added_count
  have hdeleted : (UInt32.ofNat d.diff.deleted.length).toNat = d.diff.deleted.length :=
    UInt32.toNat_ofNat_of_lt' h.deleted_count
  unfold read_delta write_delta
  simp only [List.append_assoc]
  refine (read_u32be_reads d.ledger_seq).bind ((read_u32be_count_reads h.added_count).bind ?_)
  refine read_times_reads (by rw [hadded]; exact (sort_nodes_perm _).length_eq) (fun n hn =>
    read_node_reads (h.added n ((sort_nodes_perm _).mem_iff.mp hn))) ?_
  refine (read_u32be_count_reads h.deleted_count).bind ?_
  rw [hdeleted, ← (sort_hashes_perm d.diff.deleted).length_eq]
  exact reads_then_pure (Get.Reads.times _ fun a _ => read_hash_reads a) rfl

theorem read_tx_reads {tx : TxRecord} (h : tx.Narrow) : read_tx.Reads (write_tx tx) tx := by
  have htx : (UInt32.ofNat tx.tx_blob.length).toNat = tx.tx_blob.length :=
    UInt32.toNat_ofNat_of_lt' h.tx_blob
  have hmeta : (UInt32.ofNat tx.meta_blob.length).toNat = tx.meta_blob.length :=
    UInt32.toNat_ofNat_of_lt' h.meta_blob
  unfold read_tx write_tx
  simp only [List.append_assoc]
  refine (read_hash_reads tx.tx_hash).bind ((read_u32be_count_reads h.tx_blob).bind ?_)
  rw [htx]
  refine (read_exact_reads.mpr ⟨rfl, rfl⟩).bind ((read_u32be_count_reads h.meta_blob).bind ?_)
  rw [hmeta]
  exact reads_then_pure (read_exact_reads.mpr ⟨rfl, rfl⟩) rfl

theorem read_tx_map_reads {m : TxMap} (h : m.Narrow) :
    read_tx_map.Reads (write_tx_map m) m.sorted := by
  have hcount : (UInt16.ofNat m.txns.length).toNat = m.txns.length :=
    UInt16.toNat_ofNat_of_lt' h.tx_count
  unfold read_tx_map write_tx_map
  simp only [List.append_assoc]
  refine (read_u32be_reads m.ledger_seq).bind ?_
  refine (read_hash_reads m.ledger_hash).bind ((read_hash_reads m.account_hash).bind ?_)
  refine (read_u64be_reads m.drops).bind ((read_u32be_reads m.parent_close_time).bind ?_)
  refine (read_u32be_reads m.close_time).bind ((read_u8_reads.mpr rfl).bind ?_)
  refine (read_u8_reads.mpr rfl).bind ((read_u16be_reads h.tx_count).bind ?_)
  rw [hcount, ← (sort_txns_perm m.txns).length_eq]
  exact reads_then_pure (Get.Reads.times _ fun tx htx =>
    read_tx_reads (h.txns tx ((sort_txns_perm m.txns).mem_iff.mp htx))) rfl

/-! ## The writer -/

/-- The bytes in front of the chunk hash. -/
def ChunkHeader.front (h : ChunkHeader) : Bytes :=
  MAGIC_HEADER ++ [FORMAT_VERSION_STREAMED] ++ toBE 4 h.network_id.toNat ++
    toBE 4 h.start_ledger.toNat ++ toBE 4 h.end_ledger.toNat ++ h.checkpoint_hash.bytes

/-- The writer has written `body` behind the header. -/
structure ChunkWriter.Wrote (w : ChunkWriter) (h : ChunkHeader) (body : Bytes) : Prop where
  inner : w.inner = h.front ++ ZERO_HASH.bytes ++ body
  hasher : w.hasher = body
  offset : w.chunk_hash_offset = h.front.length

namespace ChunkWriter

variable {w : ChunkWriter} {h : ChunkHeader} {written : Bytes}

theorem create_wrote (h : ChunkHeader) :
    (create h.network_id h.start_ledger h.end_ledger h.checkpoint_hash).Wrote h [] :=
  ⟨(List.append_nil _).symm, rfl, rfl⟩

theorem Wrote.body (hw : w.Wrote h written) (buf : Bytes) : (w.body buf).Wrote h (written ++ buf) := by
  refine ⟨?_, ?_, hw.offset⟩
  · show w.inner ++ buf = _
    rw [hw.inner, List.append_assoc]
  · show w.hasher ++ buf = _
    rw [hw.hasher]

@[simp] theorem body_nil (w : ChunkWriter) : w.body [] = w := by
  unfold ChunkWriter.body
  rw [List.append_nil, List.append_nil]

@[simp] theorem body_body (w : ChunkWriter) (a b : Bytes) : (w.body a).body b = w.body (a ++ b) := by
  unfold ChunkWriter.body
  simp only [List.append_assoc]

/-- A checkpoint is written node by node, which makes the node list. -/
theorem write_checkpoint_eq (w : ChunkWriter) (nodes : List SHAMapNode) :
    w.write_checkpoint nodes = w.body (write_node_list nodes) := by
  have hfold : ∀ (l : List SHAMapNode) (w : ChunkWriter),
      l.foldl (fun w node => w.body (write_node node)) w = w.body (l.flatMap write_node) := by
    intro l
    induction l with
    | nil =>
      intro w
      rw [List.flatMap_nil, body_nil]
      rfl
    | cons n l ih =>
      intro w
      rw [List.foldl_cons, ih, body_body, List.flatMap_cons]
  unfold ChunkWriter.write_checkpoint write_node_list
  rw [hfold, body_body]

theorem Wrote.write_checkpoint (hw : w.Wrote h written) (nodes : List SHAMapNode) :
    (w.write_checkpoint nodes).Wrote h (written ++ write_node_list nodes) := by
  rw [write_checkpoint_eq]
  exact hw.body _

theorem Wrote.write_tx_map (hw : w.Wrote h written) (m : TxMap) :
    (w.write_tx_map m).Wrote h (written ++ LedgerArchive.write_tx_map m) := hw.body _

theorem Wrote.write_delta (hw : w.Wrote h written) (d : LedgerDelta) :
    (w.write_delta d).Wrote h (written ++ LedgerArchive.write_delta d) := hw.body _

/-- The finished file: the chunk hash stands in the place kept for it. -/
theorem Wrote.finish (hw : w.Wrote h written) :
    (w.finish sha512half).2 =
      h.front ++ (sha512half (written ++ MAGIC_FOOTER)).bytes ++ (written ++ MAGIC_FOOTER) := by
  obtain ⟨hinner, hhasher, hoffset⟩ := hw.body MAGIC_FOOTER
  show (w.body MAGIC_FOOTER).inner.take (w.body MAGIC_FOOTER).chunk_hash_offset ++
    (sha512half (w.body MAGIC_FOOTER).hasher).bytes ++
    (w.body MAGIC_FOOTER).inner.drop ((w.body MAGIC_FOOTER).chunk_hash_offset + 32) = _
  have hlen : (h.front ++ ZERO_HASH.bytes).length = h.front.length + 32 := by
    rw [List.length_append, ZERO_HASH.length_eq]
  rw [hinner, hhasher, hoffset, List.drop_left' hlen, List.append_assoc h.front,
    List.take_left' rfl]

end ChunkWriter

/-! ## The layout of a written file -/

/-- What stands between the header and the footer. -/
def written_body (checkpoint : List SHAMapNode) (first : TxMap)
    (pairs : List (LedgerDelta × TxMap)) : Bytes :=
  write_node_list checkpoint ++ write_tx_map first ++
    pairs.flatMap fun p => write_delta p.1 ++ write_tx_map p.2

/-- The chunk that was written, in the order it was written in. -/
def ChunkHeader.written_chunk (h : ChunkHeader) (checkpoint : List SHAMapNode) (first : TxMap)
    (pairs : List (LedgerDelta × TxMap)) : Chunk :=
  h.streamed_chunk (sort_nodes checkpoint) first.sorted
    (pairs.map fun p => (p.1.sorted, p.2.sorted))

structure NarrowParts (checkpoint : List SHAMapNode) (first : TxMap)
    (pairs : List (LedgerDelta × TxMap)) : Prop where
  count : checkpoint.length < 2 ^ 32
  checkpoint : ∀ n ∈ checkpoint, n.Narrow
  first : first.Narrow
  pairs : ∀ p ∈ pairs, p.1.Narrow ∧ p.2.Narrow

theorem read_header_fields_reads (h : ChunkHeader) :
    read_header_fields.Reads (toBE 4 h.network_id.toNat ++ (toBE 4 h.start_ledger.toNat ++
      (toBE 4 h.end_ledger.toNat ++ (h.checkpoint_hash.bytes ++ h.stored_chunk_hash.bytes)))) h := by
  unfold read_header_fields
  refine (read_u32be_reads h.network_id).bind ((read_u32be_reads h.start_ledger).bind ?_)
  refine (read_u32be_reads h.end_ledger).bind ((read_hash_reads h.checkpoint_hash).bind ?_)
  exact reads_then_pure (read_hash_reads h.stored_chunk_hash) rfl

theorem read_map_reads {α : Type} {g : Get ChunkError α} {write : α → Bytes} {sorted : α → α}
    {as : List α} (h : ∀ a ∈ as, g.Reads (write a) (sorted a)) :
    (Get.times as.length g).Reads (as.flatMap write) (as.map sorted) := by
  induction as with
  | nil => exact Get.Reads.pure []
  | cons a as ih =>
    rw [List.length_cons, List.flatMap_cons, List.map_cons]
    exact (h a List.mem_cons_self).bind
      (reads_then_pure (ih fun b hb => h b (List.mem_cons_of_mem _ hb)) rfl)

theorem read_pair_reads {p : LedgerDelta × TxMap} (hd : p.1.Narrow) (hm : p.2.Narrow) :
    read_delta_tx_map.Reads (write_delta p.1 ++ write_tx_map p.2) (p.1.sorted, p.2.sorted) :=
  (read_delta_reads hd).bind (reads_then_pure (read_tx_map_reads hm) rfl)

theorem read_body_reads {h : ChunkHeader} {checkpoint : List SHAMapNode} {first : TxMap}
    {pairs : List (LedgerDelta × TxMap)} (hn : NarrowParts checkpoint first pairs)
    (hcount : h.delta_count = pairs.length) :
    (read_body FORMAT_VERSION_STREAMED h).Reads
      (written_body checkpoint first pairs ++ MAGIC_FOOTER)
      (h.written_chunk checkpoint first pairs) := by
  have hfooter : read_footer.Reads MAGIC_FOOTER () := rfl
  unfold read_body written_body read_deltas_tx_maps
  rw [if_pos rfl, hcount, List.append_assoc, List.append_assoc]
  refine (read_node_list_reads hn.count hn.checkpoint).bind ?_
  rw [← List.append_assoc]
  refine Get.Reads.bind (a := ((pairs.map fun p => (p.1.sorted, p.2.sorted)).map Prod.fst,
    first.sorted :: (pairs.map fun p => (p.1.sorted, p.2.sorted)).map Prod.snd)) ?_ ?_
  · exact (read_tx_map_reads hn.first).bind (reads_then_pure (read_map_reads fun p hp =>
      read_pair_reads (hn.pairs p hp).1 (hn.pairs p hp).2) rfl)
  · exact reads_then_pure hfooter rfl

/-- A finished file has the v3 layout of what was written, and its chunk
    hash is that of its body. -/
theorem ChunkWriter.Wrote.layout {w : ChunkWriter} {h : ChunkHeader}
    {checkpoint : List SHAMapNode} {first : TxMap} {pairs : List (LedgerDelta × TxMap)}
    (hw : w.Wrote h (written_body checkpoint first pairs))
    (hn : NarrowParts checkpoint first pairs) (hcount : h.delta_count = pairs.length)
    (hhash : h.stored_chunk_hash =
      sha512half (written_body checkpoint first pairs ++ MAGIC_FOOTER)) :
    Layout (w.finish sha512half).2 h (written_body checkpoint first pairs ++ MAGIC_FOOTER) []
      (h.written_chunk checkpoint first pairs) := by
  refine ⟨⟨_, ?_, read_header_fields_reads h⟩, read_body_reads hn hcount⟩
  rw [hw.finish, ← hhash]
  unfold ChunkHeader.front
  simp only [List.append_assoc, List.append_nil]

end LedgerArchive
