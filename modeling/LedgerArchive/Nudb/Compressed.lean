import LedgerArchive.Nudb.Codecs
import LedgerArchive.Nudb.Transactions

/-! # Compressed inner nodes

    A compressed inner node lists its children as entries of a hash and a
    slot. It is parsed into the same children as the full node
    (`compressed_same_children`). It is hashed and stored as it stands,
    though, and `encode_wire_to_value` puts its content where the reader
    expects the 512 bytes of a full node, so neither its hash nor what is
    read back is that of the full node (`compressed_never_same`). -/

namespace LedgerArchive

open Lib

/-! ## The two forms -/

/-- The content of a compressed inner node. -/
def compressed_content (entries : List (Hash256 × Fin 16)) : Bytes :=
  entries.flatMap fun e => e.1.bytes ++ [UInt8.ofNat e.2.val]

/-- The hash of each slot: that of the entry for it. -/
def entry_slots (entries : List (Hash256 × Fin 16)) (s : Fin 16) : Hash256 :=
  ((entries.find? fun e => e.2 = s).map Prod.fst).getD ZERO_HASH

def full_inner (hash : Hash256) (entries : List (Hash256 × Fin 16)) : SHAMapNode :=
  { hash, node_type := .Inner, content := slots_content (entry_slots entries) }

def compressed_inner (hash : Hash256) (entries : List (Hash256 × Fin 16)) : SHAMapNode :=
  { hash, node_type := .CompressedInner, content := compressed_content entries }

/-- `k` stands for the same inner node as its full form `f`: the same
    children, the same hash, and the wire bytes of `f` when it is stored and
    read back. -/
structure SameInner (sha512half : Bytes → Hash256) (lz4_decompress : Bytes → Nat → Option Bytes)
    (f k : SHAMapNode) : Prop where
  children : ∃ inner, InnerNode.from_node f = .ok inner ∧ InnerNode.from_node k = .ok inner
  hash : recompute_node_hash sha512half f = recompute_node_hash sha512half k
  stored : ∀ n ∈ [f, k], decode_value_to_wire lz4_decompress
    (encode_wire_to_value n.content n.node_type) = some f.to_wire_bytes

/-! ## The children -/

theorem compressed_content_length (entries : List (Hash256 × Fin 16)) :
    (compressed_content entries).length = 33 * entries.length := by
  unfold compressed_content
  induction entries with
  | nil => rfl
  | cons e entries ih =>
    rw [List.flatMap_cons, List.length_append, ih, List.length_append, e.1.length_eq,
      List.length_singleton, List.length_cons]
    omega

/-- Distinct slots: there are at most 16 entries. -/
theorem entries_length_le {entries : List (Hash256 × Fin 16)}
    (hslots : (entries.map Prod.snd).Nodup) : entries.length ≤ 16 := by
  have := hslots.length_le_card
  simpa using this

/-- The entry loop sets the slots of the entries and leaves the others. -/
theorem compressed_entries_content {entries : List (Hash256 × Fin 16)}
    (hslots : (entries.map Prod.snd).Nodup) (hchild : ∀ e ∈ entries, e.1 ≠ ZERO_HASH)
    (children : Fin 16 → Option Hash256) :
    InnerNode.compressed_entries entries.length (compressed_content entries) children =
      .ok fun s => ((entries.find? fun e => e.2 = s).map Prod.fst).or (children s) := by
  induction entries generalizing children with
  | nil => simp [InnerNode.compressed_entries]
  | cons e entries ih =>
    obtain ⟨hash, pos⟩ := e
    rw [List.map_cons, List.nodup_cons] at hslots
    have hcontent : compressed_content ((hash, pos) :: entries) =
        hash.bytes ++ UInt8.ofNat pos.val :: compressed_content entries := by
      simp [compressed_content]
    have hpos : (UInt8.ofNat pos.val).toNat = pos.val := ofNat_toNat_of_lt (by omega)
    have hbyte : (hash.bytes ++ UInt8.ofNat pos.val :: compressed_content entries).getD 32 0 =
        UInt8.ofNat pos.val := by
      rw [List.getD_eq_getElem?_getD, List.getElem?_append_right (by rw [hash.length_eq]),
        hash.length_eq]
      rfl
    have hrest : (hash.bytes ++ UInt8.ofNat pos.val :: compressed_content entries).drop 33 =
        compressed_content entries := by
      have hlen : (hash.bytes ++ [UInt8.ofNat pos.val]).length = 33 := by
        rw [List.length_append, hash.length_eq]
        rfl
      rw [← List.singleton_append, ← List.append_assoc]
      exact List.drop_left' hlen
    have hhash : hash ≠ ZERO_HASH := hchild _ List.mem_cons_self
    rw [List.length_cons, hcontent, InnerNode.compressed_entries, hbyte, hpos, hrest,
      List.take_left' hash.length_eq, Hash256.ofBytes_bytes]
    simp only [pos.isLt, dite_true, if_pos hhash]
    rw [ih hslots.2 fun e he => hchild e (List.mem_cons_of_mem _ he)]
    congr 1
    funext s
    -- `find?` takes the first entry for a slot, the loop keeps the last one.
    by_cases hs : pos = s
    · -- No later entry is for this slot.
      have hnone : entries.find? (fun e => e.2 = s) = none := by
        rw [List.find?_eq_none]
        intro e he hes
        have hslot : e.2 = pos := (of_decide_eq_true hes).trans hs.symm
        exact hslots.1 (List.mem_map.mpr ⟨e, he, hslot⟩)
      rw [hnone, List.find?_cons_of_pos (by simpa using hs)]
      simp [← hs]
    · rw [List.find?_cons_of_neg (by simpa using hs), Function.update_of_ne (Ne.symm hs)]

/-- Both forms are parsed into the same children. -/
theorem compressed_same_children {entries : List (Hash256 × Fin 16)} (hash : Hash256)
    (hslots : (entries.map Prod.snd).Nodup) (hchild : ∀ e ∈ entries, e.1 ≠ ZERO_HASH) :
    ∃ inner, InnerNode.from_node (full_inner hash entries) = .ok inner ∧
      InnerNode.from_node (compressed_inner hash entries) = .ok inner := by
  have hle := entries_length_le hslots
  have hcompressed : InnerNode.from_node (compressed_inner hash entries) =
      .ok ⟨fun s => (entries.find? fun e => e.2 = s).map Prod.fst⟩ := by
    show InnerNode.from_compressed_bytes (compressed_content entries) = _
    unfold InnerNode.from_compressed_bytes
    rw [compressed_content_length, if_neg (by omega), Nat.mul_div_cancel_left _ (by omega),
      compressed_entries_content hslots hchild]
    simp [Except.map]
  obtain ⟨inner, hin, hinner⟩ := @from_node_inner_node (fun _ => hash) (entry_slots entries)
  have hfull : InnerNode.from_node (full_inner hash entries) = .ok inner := by
    rw [← hin]
    refine InnerNode.from_node_congr rfl ?_
    show slots_content (entry_slots entries) =
      ((List.finRange 16).map (entry_slots entries)).flatMap Hash256.bytes
    rw [List.flatMap_map]
    rfl
  have hsame : inner = ⟨fun s => (entries.find? fun e => e.2 = s).map Prod.fst⟩ := by
    obtain ⟨children⟩ := inner
    congr 1
    funext s
    have hs : (children s).getD ZERO_HASH =
        ((entries.find? fun e => e.2 = s).map Prod.fst).getD ZERO_HASH := hinner s
    -- The two differ at most in how they say "empty": by no child or by a
    -- zero one. Neither side has a zero child.
    have hz : children s ≠ some ZERO_HASH := InnerNode.from_node_nonzero hin s
    cases hc : children s with
    | none =>
      rw [hc] at hs
      cases hfind : entries.find? fun e => e.2 = s with
      | none => rfl
      | some e =>
        rw [hfind] at hs
        exact absurd hs.symm (hchild e (List.mem_of_find?_eq_some hfind))
    | some h =>
      rw [hc] at hs hz
      cases hfind : entries.find? fun e => e.2 = s with
      | none =>
        rw [hfind] at hs
        exact absurd (congrArg some hs) hz
      | some e =>
        rw [hfind] at hs
        exact congrArg some hs
  exact ⟨_, hsame ▸ hfull, hcompressed⟩

/-! ## Hash and store -/

/-- A compressed content is never as long as a full one. -/
theorem compressed_hash_input_ne (hash : Hash256) (entries : List (Hash256 × Fin 16)) :
    hash_input (full_inner hash entries) ≠ hash_input (compressed_inner hash entries) := by
  intro h
  have hlen : (slots_content (entry_slots entries)).length = (compressed_content entries).length :=
    congrArg List.length (List.append_cancel_left h)
  rw [slots_content_length, compressed_content_length] at hlen
  omega

/-- With an empty slot, the value stored for a compressed node is too short
    for a full node, and nothing is read back. -/
theorem compressed_not_read_back (lz4_decompress : Bytes → Nat → Option Bytes) (hash : Hash256)
    {entries : List (Hash256 × Fin 16)} (hlen : entries.length < 16) :
    decode_value_to_wire lz4_decompress (encode_wire_to_value (compressed_inner hash entries).content
      (compressed_inner hash entries).node_type) = none := by
  have hshort : (List.replicate 8 (0 : UInt8) ++ [NOTYPE_UNKNOWN] ++
      (HASH_PREFIX_INNER_NODE ++ compressed_content entries)).length < 525 := by
    simp only [List.length_append, List.length_replicate, compressed_content_length,
      HASH_PREFIX_INNER_NODE, List.length_cons, List.length_nil]
    omega
  show decode_value_to_wire lz4_decompress ([CODEC_RAW] ++ List.replicate 8 0 ++ [NOTYPE_UNKNOWN] ++
    HASH_PREFIX_INNER_NODE ++ compressed_content entries) = none
  rw [List.append_assoc _ HASH_PREFIX_INNER_NODE, decode_value_to_wire_raw]
  simp only [encoded_blob_to_wire, if_pos hshort]
  split
  · rfl
  · rfl

/-- The two forms have the same children and never the same hash. -/
theorem compressed_never_same {sha512half : Bytes → Hash256}
    (lz4_decompress : Bytes → Nat → Option Bytes) (hash : Hash256)
    {entries : List (Hash256 × Fin 16)} (hslots : (entries.map Prod.snd).Nodup)
    (hchild : ∀ e ∈ entries, e.1 ≠ ZERO_HASH)
    (hinj : Set.InjOn sha512half
      {hash_input (full_inner hash entries), hash_input (compressed_inner hash entries)}) :
    (∃ inner, InnerNode.from_node (full_inner hash entries) = .ok inner ∧
      InnerNode.from_node (compressed_inner hash entries) = .ok inner) ∧
    ¬ SameInner sha512half lz4_decompress (full_inner hash entries)
        (compressed_inner hash entries) := by
  refine ⟨compressed_same_children hash hslots hchild, fun hsame => ?_⟩
  exact compressed_hash_input_ne hash entries (hinj (.inl rfl) (.inr rfl) hsame.hash)

/-- A node with the one child `01 00 .. 00` in slot 5. -/
def one_entry : List (Hash256 × Fin 16) := [(Hash256.ofBytes [1], 5)]

theorem one_entry_not_same :
    ¬ SameInner sha2_sha512half lz4_literals (full_inner ZERO_HASH one_entry)
        (compressed_inner ZERO_HASH one_entry) := by
  intro hsame
  have h := hsame.stored _ (List.mem_cons_of_mem _ List.mem_cons_self)
  rw [compressed_not_read_back _ _ (by decide)] at h
  cases h

theorem compressed_never_same_one_entry :
    (∃ inner, InnerNode.from_node (full_inner ZERO_HASH one_entry) = .ok inner ∧
      InnerNode.from_node (compressed_inner ZERO_HASH one_entry) = .ok inner) ∧
    ¬ SameInner sha2_sha512half lz4_literals (full_inner ZERO_HASH one_entry)
        (compressed_inner ZERO_HASH one_entry) :=
  compressed_never_same lz4_literals ZERO_HASH (by decide) (by decide)
    (Set.injOn_pair.mpr fun h => absurd h (by decide +kernel))

end LedgerArchive
