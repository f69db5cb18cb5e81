import LedgerArchive.Nudb.Dat

/-! # The four codecs (`NUDB_FORMAT.md`)

    A store may hold one inner node in four ways: full, sparse, raw and
    compressed with LZ4. This module writes the four values down from the
    16 hashes of the node, the zero hash standing for an empty slot, and
    shows that they all decode to the same wire bytes (`codecs_agree`). -/

namespace LedgerArchive

open Lib

/-! ## The values -/

/-- The 16 hashes back to back. -/
def slots_content (slots : Fin 16 → Hash256) : Bytes :=
  (List.finRange 16).flatMap fun s => (slots s).bytes

theorem slots_content_length (slots : Fin 16 → Hash256) : (slots_content slots).length = 512 := by
  unfold slots_content
  rw [List.length_flatMap]
  simp [Hash256.length_eq]

/-- The bit of slot `s`; slot 0 has the highest one. -/
def slot_bit (s : Fin 16) : UInt16 := 0x8000 >>> UInt16.ofNat s

/-- The bits of the slots that are not empty. -/
def sparse_mask (slots : Fin 16 → Hash256) : UInt16 :=
  (List.finRange 16).foldl (fun mask s => if slots s ≠ ZERO_HASH then mask ||| slot_bit s else mask) 0

/-- The hashes of the slots that are not empty, in the order of the slots. -/
def sparse_hashes (slots : Fin 16 → Hash256) (l : List (Fin 16)) : Bytes :=
  (l.filter fun s => slots s ≠ ZERO_HASH).flatMap fun s => (slots s).bytes

def sparse_value (slots : Fin 16 → Hash256) : Bytes :=
  [CODEC_SPARSE_INNER] ++ toBE 2 (sparse_mask slots).toNat ++ sparse_hashes slots (List.finRange 16)

def full_value (slots : Fin 16 → Hash256) : Bytes :=
  [CODEC_FULL_INNER] ++ slots_content slots

/-- The LEB128 varint of a number: seven bits a byte, low bits first, the
    high bit set on all bytes but the last. -/
def leb128 (n : Nat) : Bytes :=
  if n < 128 then [UInt8.ofNat n] else UInt8.ofNat (n % 128 + 128) :: leb128 (n / 128)

/-- The LZ4 value of a blob. -/
def lz4_value (lz4_compress : Bytes → Bytes) (blob : Bytes) : Bytes :=
  [CODEC_LZ4] ++ leb128 blob.length ++ lz4_compress blob

/-! ## Varints -/

/-- The low seven bits of a byte, moved up to a place where the result has
    no bits yet, add up. -/
theorem varint_step {result byte : Nat} {shift : Nat} (hr : result < 2 ^ shift)
    (hfit : result + byte % 128 * 2 ^ shift < 2 ^ 64) (hs : shift < 64) (hb : byte < 256) :
    UInt64.ofNat result ||| ((UInt8.ofNat byte &&& 0x7F).toUInt64 <<< UInt64.ofNat shift) =
      UInt64.ofNat (result + byte % 128 * 2 ^ shift) := by
  have hlow : (UInt8.ofNat byte &&& 0x7F).toNat = byte % 128 := by
    rw [UInt8.toNat_and, UInt8.toNat_ofNat']
    have := Nat.and_two_pow_sub_one_eq_mod byte 7
    rw [Nat.mod_eq_of_lt hb]
    simpa using this
  have hup : ((UInt8.ofNat byte &&& 0x7F).toUInt64 <<< UInt64.ofNat shift).toNat =
      2 ^ shift * (byte % 128) := by
    rw [UInt64.toNat_shiftLeft, UInt8.toNat_toUInt64, hlow, UInt64.toNat_ofNat',
      Nat.mod_eq_of_lt (show shift < 2 ^ 64 by omega), Nat.mod_eq_of_lt hs, Nat.shiftLeft_eq,
      Nat.mul_comm, Nat.mod_eq_of_lt]
    rw [Nat.mul_comm]
    omega
  apply UInt64.toNat_inj.mp
  rw [UInt64.toNat_or, hup, UInt64.toNat_ofNat', UInt64.toNat_ofNat', Nat.mod_eq_of_lt hfit,
    Nat.mod_eq_of_lt (show result < 2 ^ 64 by omega), Nat.or_comm, ← Nat.two_pow_add_eq_or_of_lt hr,
    Nat.mul_comm, Nat.add_comm]

theorem varint_last {byte : Nat} (hb : byte < 256) :
    UInt8.ofNat byte &&& 0x80 = 0 ↔ byte < 128 := by
  have hall : ∀ b : Fin 256, (UInt8.ofNat b.val &&& 0x80 = 0 ↔ b.val < 128) := by decide +kernel
  exact hall ⟨byte, hb⟩

/-- Reading a varint with `result` read so far. -/
theorem read_varint_loop_leb128 (n : Nat) {i result shift : Nat} (rest : Bytes)
    (hr : result < 2 ^ shift) (hfit : result + n * 2 ^ shift < 2 ^ 64) (hs : shift < 64) :
    read_varint_loop (leb128 n ++ rest) i (UInt64.ofNat result) shift =
      some (UInt64.ofNat (result + n * 2 ^ shift), i + (leb128 n).length) := by
  induction n using Nat.strong_induction_on generalizing i result shift with
  | _ n ih =>
    rw [leb128]
    by_cases hn : n < 128
    · have hmod : n % 128 = n := Nat.mod_eq_of_lt hn
      rw [if_pos hn, List.singleton_append, read_varint_loop, varint_step hr (by rw [hmod]; exact hfit)
        hs (by omega), if_pos ((varint_last (by omega)).mpr hn), hmod]
      rfl
    · have hmod : (n % 128 + 128) % 128 = n % 128 := by omega
      have hsplit : n * 2 ^ shift = n % 128 * 2 ^ shift + n / 128 * 2 ^ (shift + 7) := by
        rw [Nat.pow_add, ← Nat.mul_assoc, Nat.mul_right_comm, ← Nat.add_mul]
        congr 1
        omega
      have hnext : result + n % 128 * 2 ^ shift < 2 ^ (shift + 7) := by
        have : n % 128 * 2 ^ shift ≤ 127 * 2 ^ shift := Nat.mul_le_mul_right _ (by omega)
        rw [Nat.pow_add]
        omega
      -- A further byte is read only where the value still has bits.
      have hroom : shift + 7 < 64 := by
        have hone : 1 * 2 ^ (shift + 7) ≤ n / 128 * 2 ^ (shift + 7) :=
          Nat.mul_le_mul_right _ (by omega)
        exact (Nat.pow_lt_pow_iff_right (a := 2) (by omega)).mp (by omega)
      rw [if_neg hn, List.cons_append, read_varint_loop, varint_step hr (by rw [hmod]; omega) hs
        (by omega), if_neg (by rw [varint_last (by omega)]; omega), if_neg (by omega), hmod,
        ih (n / 128) (by omega) hnext (by omega) hroom, hsplit, List.length_cons, Nat.add_assoc]
      simp only [Nat.add_assoc, Nat.add_comm 1]

/-- A varint reads back, whatever stands behind it. -/
theorem read_varint_leb128 {n : Nat} (hn : n < 2 ^ 64) (rest : Bytes) :
    read_varint (leb128 n ++ rest) = some (UInt64.ofNat n, (leb128 n).length) := by
  have h := @read_varint_loop_leb128 n 0 0 0 rest (by omega) (by omega) (by omega)
  simpa [read_varint] using h

/-! ## The mask -/

theorem slot_bit_and (s t : Fin 16) : slot_bit s &&& slot_bit t ≠ 0 ↔ s = t := by
  revert s t
  decide

theorem foldl_mask_bit (slots : Fin 16 → Hash256) (t : Fin 16) (l : List (Fin 16)) (mask : UInt16) :
    (l.foldl (fun mask s => if slots s ≠ ZERO_HASH then mask ||| slot_bit s else mask) mask) &&&
        slot_bit t ≠ 0 ↔
      mask &&& slot_bit t ≠ 0 ∨ (t ∈ l ∧ slots t ≠ ZERO_HASH) := by
  induction l generalizing mask with
  | nil => simp
  | cons s l ih =>
    rw [List.foldl_cons, ih]
    by_cases hs : slots s = ZERO_HASH
    · rw [if_neg (by simp [hs])]
      have hts : t = s → slots t = ZERO_HASH := fun h => h ▸ hs
      grind
    · have hor : (mask ||| slot_bit s) &&& slot_bit t ≠ 0 ↔ mask &&& slot_bit t ≠ 0 ∨ s = t := by
        have hdistrib : (mask ||| slot_bit s) &&& slot_bit t =
            mask &&& slot_bit t ||| slot_bit s &&& slot_bit t :=
          UInt16.toBitVec_inj.mp BitVec.and_or_distrib_right
        rw [hdistrib, ← slot_bit_and s t, ne_eq, UInt16.or_eq_zero_iff]
        tauto
      rw [if_pos hs, hor]
      grind

/-- The mask has the bit of a slot if and only if the slot is in use. -/
theorem sparse_mask_bit (slots : Fin 16 → Hash256) (s : Fin 16) :
    sparse_mask slots &&& slot_bit s ≠ 0 ↔ slots s ≠ ZERO_HASH := by
  unfold sparse_mask
  rw [foldl_mask_bit]
  simp

theorem count_ones_sparse_mask (slots : Fin 16 → Hash256) :
    count_ones (sparse_mask slots) = ((List.finRange 16).filter fun s => slots s ≠ ZERO_HASH).length := by
  have hslots : (do let s ← List.finRange 16; pure s.val) = (List.finRange 16).map Fin.val := rfl
  unfold count_ones
  rw [hslots, List.filter_map, List.length_map]
  refine congrArg List.length (List.filter_congr fun s _ => ?_)
  exact decide_eq_decide.mpr (sparse_mask_bit slots s)

theorem sparse_hashes_length (slots : Fin 16 → Hash256) (l : List (Fin 16)) :
    (sparse_hashes slots l).length = (l.filter fun s => slots s ≠ ZERO_HASH).length * 32 := by
  unfold sparse_hashes
  rw [List.length_flatMap]
  simp [Hash256.length_eq]

/-- The packed index moves on with the slots in use only, so every hash
    comes back to its own slot. -/
theorem sparse_slots_hashes (slots : Fin 16 → Hash256) (l : List (Fin 16)) :
    sparse_slots (sparse_mask slots) l (sparse_hashes slots l) =
      l.flatMap fun s => (slots s).bytes := by
  induction l with
  | nil => rfl
  | cons s l ih =>
    rw [List.flatMap_cons, sparse_slots]
    by_cases hs : slots s = ZERO_HASH
    · have hbit : ¬ (sparse_mask slots &&& (0x8000 >>> UInt16.ofNat s) ≠ 0) := by
        intro h
        exact (sparse_mask_bit slots s).mp h hs
      have hskip : sparse_hashes slots (s :: l) = sparse_hashes slots l := by
        simp [sparse_hashes, hs]
      rw [if_neg hbit, hskip, ih, hs]
      rfl
    · have hpack : sparse_hashes slots (s :: l) = (slots s).bytes ++ sparse_hashes slots l := by
        simp [sparse_hashes, hs]
      have hbit : sparse_mask slots &&& (0x8000 >>> UInt16.ofNat s) ≠ 0 :=
        (sparse_mask_bit slots s).mpr hs
      rw [if_pos hbit, hpack, List.take_left' (slots s).length_eq,
        List.drop_left' (slots s).length_eq, ih]

/-! ## The four values decode alike -/

section Lz4

variable (lz4_decompress : Bytes → Nat → Option Bytes)

theorem decode_sparse_codec (b : Bytes) :
    decode_value_to_wire lz4_decompress (CODEC_SPARSE_INNER :: b) =
      decode_sparse_inner (CODEC_SPARSE_INNER :: b) := rfl

theorem decode_lz4_codec (b : Bytes) :
    decode_value_to_wire lz4_decompress (CODEC_LZ4 :: b) =
      decode_lz4 lz4_decompress (CODEC_LZ4 :: b) := rfl

theorem decode_raw_codec (b : Bytes) :
    decode_value_to_wire lz4_decompress (CODEC_RAW :: b) = encoded_blob_to_wire b := rfl

theorem decode_full_value (slots : Fin 16 → Hash256) :
    decode_value_to_wire lz4_decompress (full_value slots) =
      some (slots_content slots ++ [NodeType.Inner.to_u8]) := by
  simp [decode_value_to_wire, full_value, decode_full_inner, slots_content_length]

/-- A sparse value decodes only if it has as many hashes as its mask has
    bits. -/
theorem decode_sparse (mask : UInt16) (hashes : Bytes) :
    decode_value_to_wire lz4_decompress ([CODEC_SPARSE_INNER] ++ toBE 2 mask.toNat ++ hashes) =
      if hashes.length = count_ones mask * 32
      then some (sparse_slots mask (List.finRange 16) hashes ++ [NodeType.Inner.to_u8])
      else none := by
  have hmask : UInt16.ofNat (ofBE (toBE 2 mask.toNat)) = mask := by
    rw [ofBE_toBE_of_lt mask.toNat_lt, UInt16.ofNat_toNat]
  have htake : ((toBE 2 mask.toNat ++ hashes).take 2) = toBE 2 mask.toNat :=
    List.take_left' (toBE_length 2 _)
  have hdrop : ((toBE 2 mask.toNat ++ hashes).drop 2) = hashes :=
    List.drop_left' (toBE_length 2 _)
  rw [List.append_assoc, List.singleton_append, decode_sparse_codec, decode_sparse_inner]
  simp only [List.drop_succ_cons, List.drop_zero, List.length_cons, List.length_append, toBE_length,
    htake, hdrop, hmask]
  rw [if_neg (by omega)]
  by_cases hlen : hashes.length = count_ones mask * 32
  · rw [if_pos hlen, if_neg (by omega)]
  · rw [if_neg hlen, if_pos (by omega)]

theorem decode_sparse_value (slots : Fin 16 → Hash256) :
    decode_value_to_wire lz4_decompress (sparse_value slots) =
      some (slots_content slots ++ [NodeType.Inner.to_u8]) := by
  unfold sparse_value
  rw [decode_sparse, if_pos (by rw [sparse_hashes_length, count_ones_sparse_mask]), sparse_slots_hashes]
  rfl

/-- A value cut before the end of its mask. -/
theorem decode_sparse_short {head : Bytes} (h : head.length < 2) :
    decode_value_to_wire lz4_decompress ([CODEC_SPARSE_INNER] ++ head) = none := by
  rw [List.singleton_append, decode_sparse_codec, decode_sparse_inner,
    if_pos (by rw [List.length_cons]; omega)]

/-- An LZ4 value decodes as the raw value of the blob it holds. -/
theorem decode_lz4_value {lz4_compress : Bytes → Bytes} {blob : Bytes}
    (hlz4 : lz4_decompress (lz4_compress blob) blob.length = some blob)
    (hlen : blob.length < 2 ^ 64) :
    decode_value_to_wire lz4_decompress (lz4_value lz4_compress blob) =
      decode_value_to_wire lz4_decompress ([CODEC_RAW] ++ blob) := by
  have hsize : (UInt64.ofNat blob.length).toNat = blob.length := by
    rw [UInt64.toNat_ofNat', Nat.mod_eq_of_lt hlen]
  have hdata : (leb128 blob.length ++ lz4_compress blob).drop (leb128 blob.length).length =
      lz4_compress blob := List.drop_left
  have hlz : decode_value_to_wire lz4_decompress (lz4_value lz4_compress blob) =
      encoded_blob_to_wire blob := by
    unfold lz4_value
    rw [List.append_assoc, List.singleton_append, decode_lz4_codec, decode_lz4]
    simp only [List.drop_succ_cons, List.drop_zero, Nat.add_comm 1, read_varint_leb128 hlen]
    simp [hdata, hsize, hlz4]
  rw [hlz, List.singleton_append, decode_raw_codec]

end Lz4

/-- The `EncodedBlob` of an inner node: what `encode_wire_to_value` writes
    behind the codec byte. -/
def inner_blob (slots : Fin 16 → Hash256) : Bytes :=
  (encode_wire_to_value (slots_content slots) .Inner).drop 1

theorem inner_blob_length (slots : Fin 16 → Hash256) : (inner_blob slots).length = 525 := by
  simp [inner_blob, encode_wire_to_value, slots_content_length, HASH_PREFIX_INNER_NODE]

/-- The four values of an inner node decode to the same wire bytes, and a
    sparse value whose length does not fit its mask does not decode. -/
theorem codecs_agree (lz4_decompress : Bytes → Nat → Option Bytes) (lz4_compress : Bytes → Bytes)
    (hlz4 : ∀ blob, lz4_decompress (lz4_compress blob) blob.length = some blob) :
    (∀ slots : Fin 16 → Hash256, ∀ value ∈ [sparse_value slots, full_value slots,
        encode_wire_to_value (slots_content slots) .Inner, lz4_value lz4_compress (inner_blob slots)],
      decode_value_to_wire lz4_decompress value =
        some (slots_content slots ++ [NodeType.Inner.to_u8])) ∧
    (∀ (mask : UInt16) (hashes : Bytes), hashes.length ≠ count_ones mask * 32 →
      decode_value_to_wire lz4_decompress ([CODEC_SPARSE_INNER] ++ toBE 2 mask.toNat ++ hashes) =
        none) ∧
    ∀ head : Bytes, head.length < 2 →
      decode_value_to_wire lz4_decompress ([CODEC_SPARSE_INNER] ++ head) = none := by
  have hraw : ∀ slots, decode_value_to_wire lz4_decompress
      (encode_wire_to_value (slots_content slots) .Inner) =
        some (slots_content slots ++ [NodeType.Inner.to_u8]) := fun slots =>
    decode_encode_wire _ rfl fun _ => slots_content_length slots
  have hlz : ∀ slots, decode_value_to_wire lz4_decompress
      (lz4_value lz4_compress (inner_blob slots)) =
        some (slots_content slots ++ [NodeType.Inner.to_u8]) := by
    intro slots
    rw [decode_lz4_value lz4_decompress (hlz4 _) (by rw [inner_blob_length]; omega)]
    -- What was compressed is the raw value behind its codec byte.
    exact hraw slots
  refine ⟨fun slots value hv => ?_, fun mask hashes h => ?_, fun head h => ?_⟩
  · simp only [List.mem_cons, List.not_mem_nil, or_false] at hv
    rcases hv with rfl | rfl | rfl | rfl
    · exact decode_sparse_value lz4_decompress slots
    · exact decode_full_value lz4_decompress slots
    · exact hraw slots
    · exact hlz slots
  · rw [decode_sparse, if_neg h]
  · exact decode_sparse_short lz4_decompress h

/-- What stands before the data in an LZ4 block that is one run of `n`
    literals: the token and the length bytes. -/
def lz4_literals_head (n : Nat) : Bytes :=
  if n < 15 then [UInt8.ofNat (n * 16)]
  else [0xF0] ++ List.replicate ((n - 15) / 255) 255 ++ [UInt8.ofNat ((n - 15) % 255)]

/-- Decompression of such blocks; `none` for any other. -/
def lz4_literals (data : Bytes) (n : Nat) : Option Bytes :=
  if data.take (lz4_literals_head n).length = lz4_literals_head n ∧
      data.length = (lz4_literals_head n).length + n
  then some (data.drop (lz4_literals_head n).length) else none

theorem lz4_literals_run (blob : Bytes) :
    lz4_literals (lz4_literals_head blob.length ++ blob) blob.length = some blob := by
  unfold lz4_literals
  rw [if_pos ⟨List.take_left, List.length_append⟩, List.drop_left]

theorem codecs_agree_literals :
    decode_value_to_wire lz4_literals
      (lz4_value (fun blob => lz4_literals_head blob.length ++ blob)
        (inner_blob fun s => if s = 3 then Hash256.ofBytes [1] else ZERO_HASH)) =
      some (slots_content (fun s => if s = 3 then Hash256.ofBytes [1] else ZERO_HASH) ++
        [NodeType.Inner.to_u8]) :=
  (codecs_agree lz4_literals (fun blob => lz4_literals_head blob.length ++ blob)
    lz4_literals_run).1 _ _ (by simp)

end LedgerArchive
