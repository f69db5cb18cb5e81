import LedgerArchive.Lib.Log
import LedgerArchive.Nudb.RoundTrip
import Mathlib.Data.Finmap

/-! # Scanning a data file (`scan_dat`, `xrla-nudb/src/dat.rs`)

    The scan reads the `.dat` file from its first record to its end, without
    the key file. It stops at the end of the file, inside a record that is
    cut off, and at a size of zero or above 65536. Behind the records a
    finished store has the spill records, which start with six zero bytes
    and so end the scan. The warnings and the progress report are left
    out. -/

namespace LedgerArchive

open Lib

/-- `HashMap<Hash256, Vec<u8>>`. -/
abbrev WireMap := Finmap fun _ : Hash256 => Bytes

/-- One record off the front of the file. -/
def next_record (rest : Bytes) : Option ((Hash256 × Bytes) × Bytes) := do
  let field ← readAt rest 0 6
  let val_size := ofBE field
  if val_size = 0 then none
  else if val_size > 65536 then none
  else do
    let key ← readAt rest 6 KEY_SIZE
    let value ← readAt rest (6 + KEY_SIZE) val_size
    pure ((Hash256.ofBytes key, value), rest.drop (6 + KEY_SIZE + val_size))

section Lz4

variable (lz4_decompress : Bytes → Nat → Option Bytes)

/-- A value that does not decode is skipped. -/
def insert_wire (map : WireMap) (record : Hash256 × Bytes) : WireMap :=
  match decode_value_to_wire lz4_decompress record.2 with
  | some wire => map.insert record.1 wire
  | none => map

/-- The loop of `scan_dat`. The first argument bounds the number of
    records. -/
def scan_dat_loop : Nat → Bytes → WireMap → WireMap
  | 0, _, map => map
  | n + 1, rest, map =>
    match next_record rest with
    | none => map
    | some (record, rest) => scan_dat_loop n rest (insert_wire lz4_decompress map record)

def scan_dat (dat : Bytes) : Except Error WireMap := do
  let magic ← read_exact_at dat 0 8
  bail_if (magic ≠ DAT_MAGIC) (.bail "invalid NuDB magic")
  let hdr ← read_exact_at dat 8 84
  let key_size := ofBE ((hdr.drop 18).take 2)
  bail_if (key_size ≠ KEY_SIZE) (.bail s!"expected key_size=32, got {key_size}")
  pure (scan_dat_loop lz4_decompress dat.length (dat.drop DAT_HEADER_SIZE) ∅)

end Lz4

variable {lz4 : Bytes → Nat → Option Bytes} {xxh64 : Bytes → UInt64 → UInt64}

/-! ## Records -/

/-- A record as `write_node` appends it. -/
def record_bytes (c : Hash256 × Bytes) : Bytes := toBE 6 c.2.length ++ c.1.bytes ++ c.2

/-- The sizes that the scan accepts. -/
def SizedRecord (c : Hash256 × Bytes) : Prop := 0 < c.2.length ∧ c.2.length ≤ 65536

instance : DecidablePred SizedRecord :=
  fun c => inferInstanceAs (Decidable (0 < c.2.length ∧ c.2.length ≤ 65536))

theorem record_bytes_length (c : Hash256 × Bytes) :
    (record_bytes c).length = 6 + KEY_SIZE + c.2.length := by
  unfold record_bytes
  simp only [List.length_append, toBE_length, c.1.length_eq]
  rfl

theorem next_record_eq (b : Bytes) :
    next_record b =
      if 6 ≤ b.length ∧ (0 < ofBE (b.take 6) ∧ ofBE (b.take 6) ≤ 65536) ∧
          6 + KEY_SIZE + ofBE (b.take 6) ≤ b.length then
        some ((Hash256.ofBytes ((b.drop 6).take KEY_SIZE),
          (b.drop (6 + KEY_SIZE)).take (ofBE (b.take 6))),
          b.drop (6 + KEY_SIZE + ofBE (b.take 6)))
      else none := by
  unfold next_record
  by_cases h6 : 6 ≤ b.length
  · have hfield : readAt b 0 6 = some (b.take 6) := by
      unfold readAt
      rw [if_pos (by omega), List.drop_zero]
    rw [hfield, Option.bind_eq_bind, Option.bind_some]
    by_cases hzero : ofBE (b.take 6) = 0
    · rw [if_pos hzero, if_neg (by omega)]
    · rw [if_neg hzero]
      by_cases hbig : ofBE (b.take 6) > 65536
      · rw [if_pos hbig, if_neg (by omega)]
      · rw [if_neg hbig]
        -- The key and the value are there together, or the value is cut off.
        by_cases hfull : 6 + KEY_SIZE + ofBE (b.take 6) ≤ b.length
        · have hkey : readAt b 6 KEY_SIZE = some ((b.drop 6).take KEY_SIZE) := by
            unfold readAt
            rw [if_pos (by omega)]
          have hvalue : readAt b (6 + KEY_SIZE) (ofBE (b.take 6)) =
              some ((b.drop (6 + KEY_SIZE)).take (ofBE (b.take 6))) := by
            unfold readAt
            rw [if_pos hfull]
          rw [hkey, hvalue, if_pos ⟨h6, ⟨by omega, by omega⟩, hfull⟩]
          rfl
        · have hvalue : readAt b (6 + KEY_SIZE) (ofBE (b.take 6)) = none := by
            unfold readAt
            rw [if_neg hfull]
          rw [hvalue, if_neg fun h => hfull h.2.2]
          cases readAt b 6 KEY_SIZE with
          | none => rfl
          | some key => rfl
  · have hfield : readAt b 0 6 = none := by
      unfold readAt
      rw [if_neg (by omega)]
    rw [hfield, if_neg fun h => h6 h.1]
    rfl

/-- The size field of a record, whole or cut off behind it. -/
theorem size_field {c : Hash256 × Bytes} (hlen : c.2.length < 2 ^ 48) (rest : Bytes) :
    ofBE ((record_bytes c ++ rest).take 6) = c.2.length := by
  unfold record_bytes
  rw [List.append_assoc, List.append_assoc, List.take_append_of_le_length (by rw [toBE_length]),
    List.take_of_length_le (by rw [toBE_length])]
  exact ofBE_toBE_of_lt (by omega)

/-- The writer's records are framed as the scan reads them. -/
theorem framing {records : List (Hash256 × Bytes)} (hlen : ∀ c ∈ records, c.2.length < 2 ^ 48) :
    Framing record_bytes SizedRecord next_record records where
  read c hc rest hs := by
    have hsize := size_field (hlen c hc) rest
    have hbytes := record_bytes_length c
    rw [next_record_eq, hsize, List.length_append, hbytes,
      if_pos ⟨by omega, ⟨hs.1, hs.2⟩, by omega⟩]
    have hkey : ((record_bytes c ++ rest).drop 6).take KEY_SIZE = c.1.bytes := by
      unfold record_bytes
      rw [List.append_assoc, List.append_assoc, List.drop_left' (toBE_length 6 _)]
      exact List.take_left' c.1.length_eq
    have hvalue : ((record_bytes c ++ rest).drop (6 + KEY_SIZE)).take c.2.length = c.2 := by
      have hhead : (toBE 6 c.2.length ++ c.1.bytes).length = 6 + KEY_SIZE := by
        rw [List.length_append, toBE_length, c.1.length_eq]
        rfl
      unfold record_bytes
      rw [List.append_assoc, List.drop_left' hhead]
      exact List.take_left
    rw [hkey, hvalue, Hash256.ofBytes_bytes, List.drop_left' hbytes]
  refuse c hc rest hs := by
    rw [next_record_eq, size_field (hlen c hc) rest, if_neg fun h => hs h.2.1]
  short c hc n hn := by
    rw [record_bytes_length] at hn
    rw [next_record_eq, if_neg]
    rintro ⟨h6, -, hfull⟩
    have htake : n ≤ (record_bytes c).length := by
      rw [record_bytes_length]
      omega
    rw [List.length_take, Nat.min_eq_left htake] at h6 hfull
    -- The size field is whole, so it names more bytes than there are.
    have hsize := size_field (hlen c hc) []
    rw [List.append_nil] at hsize
    rw [List.take_take, Nat.min_eq_left h6, hsize] at hfull
    omega

theorem scan_dat_loop_eq (n : Nat) (rest : Bytes) (map : WireMap) :
    scan_dat_loop lz4 n rest map = (scan next_record n rest).foldl (insert_wire lz4) map := by
  induction n generalizing rest map with
  | zero => rfl
  | succ n ih =>
    unfold scan_dat_loop scan
    cases next_record rest with
    | none => rfl
    | some r => exact ih r.2 _

/-- The scan maps each key of the records it comes to to its decoded
    value. -/
theorem lookup_insert_wires {records : List (Hash256 × Bytes)}
    (hnd : (records.map Prod.fst).Nodup) {map : WireMap} {h : Hash256}
    (hfresh : ∀ c ∈ records, c.1 ∉ map) {wire : Bytes} :
    (records.foldl (insert_wire lz4) map).lookup h = some wire ↔
      map.lookup h = some wire ∨
        ∃ v, (h, v) ∈ records ∧ decode_value_to_wire lz4 v = some wire := by
  induction records generalizing map with
  | nil => simp
  | cons c records ih =>
    obtain ⟨hc, hfresh'⟩ := List.forall_mem_cons.mp hfresh
    rw [List.map_cons] at hnd
    obtain ⟨hnew, hnd⟩ := List.nodup_cons.mp hnd
    -- What one record changes.
    have hstep : ∀ k, (insert_wire lz4 map c).lookup k = some wire ↔
        map.lookup k = some wire ∨ (k = c.1 ∧ decode_value_to_wire lz4 c.2 = some wire) := by
      intro k
      unfold insert_wire
      cases hdec : decode_value_to_wire lz4 c.2 with
      | none => simp
      | some w =>
        by_cases hk : k = c.1
        · subst hk
          have hnone : map.lookup c.1 = none := Finmap.lookup_eq_none.mpr hc
          simp [Finmap.lookup_insert, hnone]
        · simp [Finmap.lookup_insert_of_ne _ hk, hk]
    -- The keys of the other records are still free.
    have hkept : ∀ d ∈ records, d.1 ∉ insert_wire lz4 map c := by
      intro d hd hmem
      unfold insert_wire at hmem
      split at hmem
      · rcases Finmap.mem_insert.mp hmem with heq | hmem
        · exact hnew (heq ▸ List.mem_map_of_mem hd)
        · exact hfresh' d hd hmem
      · exact hfresh' d hd hmem
    rw [List.foldl_cons, ih hnd hkept, hstep, or_assoc]
    apply or_congr_right
    constructor
    · rintro (⟨rfl, hdec⟩ | ⟨v, hv, hdec⟩)
      · exact ⟨c.2, List.mem_cons_self, hdec⟩
      · exact ⟨v, List.mem_cons_of_mem _ hv, hdec⟩
    · rintro ⟨v, hv, hdec⟩
      rcases List.mem_cons.mp hv with rfl | hv
      · exact .inl ⟨rfl, hdec⟩
      · exact .inr ⟨v, hv, hdec⟩

/-! ## The file of a sink -/

/-- The calls that a sink writes a record for: the first with each hash. -/
def written_calls (calls : List (Hash256 × Bytes)) : List (Hash256 × Bytes) :=
  calls.foldl (fun l c => if c.1 ∈ l.map Prod.fst then l else l ++ [c]) []

theorem written_calls_snoc (calls : List (Hash256 × Bytes)) (c : Hash256 × Bytes) :
    written_calls (calls ++ [c]) =
      if c.1 ∈ (written_calls calls).map Prod.fst then written_calls calls
      else written_calls calls ++ [c] := by
  unfold written_calls
  rw [List.foldl_append, List.foldl_cons, List.foldl_nil]

theorem written_calls_nodup (calls : List (Hash256 × Bytes)) :
    ((written_calls calls).map Prod.fst).Nodup := by
  induction calls using List.reverseRecOn with
  | nil => exact List.nodup_nil
  | append_singleton calls c ih =>
    rw [written_calls_snoc]
    split
    · exact ih
    · next hnew =>
      rw [List.map_append, List.map_singleton]
      exact List.nodup_append.mpr ⟨ih, List.nodup_singleton _, fun a ha b hb hab => by
        rw [List.mem_singleton] at hb
        exact hnew (hb ▸ hab ▸ ha)⟩

theorem lookup_eq_some_iff_written {calls : List (Hash256 × Bytes)} {h : Hash256} {v : Bytes} :
    calls.lookup h = some v ↔ (h, v) ∈ written_calls calls := by
  induction calls using List.reverseRecOn generalizing h v with
  | nil =>
    constructor
    · intro hv
      cases hv
    · intro hv
      cases hv
  | append_singleton calls c ih =>
    obtain ⟨k, w⟩ := c
    have hkeys : k ∈ (written_calls calls).map Prod.fst ↔ ∃ u, calls.lookup k = some u := by
      constructor
      · intro hk
        obtain ⟨⟨_, u⟩, hmem, rfl⟩ := List.mem_map.mp hk
        exact ⟨u, ih.mpr hmem⟩
      · rintro ⟨u, hu⟩
        exact List.mem_map.mpr ⟨(k, u), ih.mp hu, rfl⟩
    rw [lookup_snoc, written_calls_snoc, Option.or_eq_some_iff, ih]
    by_cases hk : k ∈ (written_calls calls).map Prod.fst
    · -- A hash written before keeps its value.
      rw [if_pos hk, or_iff_left]
      rintro ⟨hnone, hv⟩
      split at hv
      · next heq =>
        obtain ⟨u, hu⟩ := hkeys.mp hk
        rw [heq, hu] at hnone
        cases hnone
      · cases hv
    · rw [if_neg hk, List.mem_append, List.mem_singleton]
      apply or_congr_right
      rw [Prod.mk.injEq]
      constructor
      · rintro ⟨-, hv⟩
        split at hv
        · next heq => exact ⟨heq, (Option.some.inj hv).symm⟩
        · cases hv
      · rintro ⟨rfl, rfl⟩
        rw [if_pos rfl]
        refine ⟨Option.eq_none_iff_forall_ne_some.mpr fun u hu => hk (hkeys.mpr ⟨u, hu⟩), rfl⟩

theorem write_nodes_snoc (s : NuDbSink) (calls : List (Hash256 × Bytes)) (c : Hash256 × Bytes) :
    s.write_nodes xxh64 (calls ++ [c]) = (s.write_nodes xxh64 calls).write_node xxh64 c.1 c.2 := by
  unfold NuDbSink.write_nodes
  rw [List.foldl_append, List.foldl_cons, List.foldl_nil]

/-- The records stand in the order in which they were written. -/
theorem write_nodes_dat (calls : List (Hash256 × Bytes)) :
    (NuDbSink.create.write_nodes xxh64 calls).dat =
      write_dat_header SINK_VERSION SINK_UID SINK_APPNUM ++
        (written_calls calls).flatMap record_bytes := by
  induction calls using List.reverseRecOn with
  | nil =>
    show write_dat_header SINK_VERSION SINK_UID SINK_APPNUM = _ ++ []
    rw [List.append_nil]
  | append_singleton calls c ih =>
    have hs : Stored xxh64 (NuDbSink.create.write_nodes xxh64 calls) calls :=
      stored_create.write_nodes calls
    -- The sink has seen the hashes that it has written a record for.
    have hseen : c.1 ∈ (NuDbSink.create.write_nodes xxh64 calls).seen ↔
        c.1 ∈ (written_calls calls).map Prod.fst := by
      rw [hs.seen, Option.isSome_iff_exists]
      constructor
      · rintro ⟨v, hv⟩
        exact List.mem_map.mpr ⟨(c.1, v), lookup_eq_some_iff_written.mp hv, rfl⟩
      · intro hmem
        obtain ⟨⟨_, v⟩, hv, rfl⟩ := List.mem_map.mp hmem
        exact ⟨v, lookup_eq_some_iff_written.mpr hv⟩
    rw [write_nodes_snoc, written_calls_snoc]
    unfold NuDbSink.write_node
    by_cases hmem : c.1 ∈ (written_calls calls).map Prod.fst
    · rw [if_pos (hseen.mpr hmem), if_pos hmem, ih]
    · rw [if_neg fun h => hmem (hseen.mp h), if_neg hmem, List.flatMap_append,
        List.flatMap_singleton, ih]
      unfold record_bytes
      simp only [List.append_assoc]

/-! ## Behind the records -/

/-- What a scan does not take for a record, wherever it is cut off. -/
def Blank (b : Bytes) : Prop := b = [] ∨ List.replicate 6 0 <+: b

theorem Blank.append {a b : Bytes} (ha : Blank a) (hb : Blank b) : Blank (a ++ b) := by
  rcases ha with rfl | ha
  · exact hb
  · exact .inr (ha.trans (List.prefix_append a b))

theorem Blank.next_record {b : Bytes} (hb : Blank b) (k : Nat) : next_record (b.take k) = none := by
  rw [next_record_eq, if_neg]
  rintro ⟨h6, ⟨hpos, -⟩, -⟩
  rcases hb with rfl | ⟨t, rfl⟩
  · simp at h6
  · rw [List.length_take] at h6
    rw [List.take_take, Nat.min_eq_left (by omega), List.take_left' (by simp)] at hpos
    exact absurd hpos (by decide)

theorem write_spill_dat (s : SpillState) (chunk : List PlacedEntry) :
    ∃ more, (write_spill s chunk).dat = s.dat ++ more ∧ Blank more :=
  ⟨List.replicate 6 0 ++ (toBE 2 (BUCKET_HEADER + chunk.length * ENTRY_SIZE) ++
      write_bucket_into (BUCKET_HEADER + chunk.length * ENTRY_SIZE) chunk s.next_spill), by
    unfold write_spill
    simp only [List.append_assoc], .inr (List.prefix_append _ _)⟩

theorem write_spill_chain_dat (dat : Bytes) (offset : Nat) (overflow : List PlacedEntry) :
    ∃ more, (write_spill_chain dat offset overflow).dat = dat ++ more ∧ Blank more := by
  unfold write_spill_chain
  rw [List.foldl_reverse]
  induction chunks BUCKET_CAPACITY overflow with
  | nil => exact ⟨[], (List.append_nil dat).symm, .inl rfl⟩
  | cons chunk rest ih =>
    obtain ⟨more, hmore, hblank⟩ := ih
    obtain ⟨last, hlast, hblank'⟩ := write_spill_dat (rest.foldr (fun c s => write_spill s c)
      { dat, offset, next_spill := 0 }) chunk
    refine ⟨more ++ last, ?_, hblank.append hblank'⟩
    rw [List.foldr_cons, hlast, hmore, List.append_assoc]

/-- Finishing appends nothing that a scan takes for a record. -/
theorem write_buckets_dat (table : List (List PlacedEntry)) (dat : Bytes) (offset : Nat) :
    ∃ more, (NuDbSink.write_buckets table dat offset).2 = dat ++ more ∧ Blank more := by
  induction table generalizing dat offset with
  | nil => exact ⟨[], (List.append_nil dat).symm, .inl rfl⟩
  | cons bucket table ih =>
    let sorted := bucket.insertionSort fun a b => a.nhash ≤ b.nhash
    let spill := write_spill_chain dat offset (sorted.drop BUCKET_CAPACITY)
    obtain ⟨more, hmore, hblank⟩ := write_spill_chain_dat dat offset (sorted.drop BUCKET_CAPACITY)
    obtain ⟨last, hlast, hblank'⟩ := ih spill.dat spill.offset
    refine ⟨more ++ last, ?_, hblank.append hblank'⟩
    show (NuDbSink.write_buckets table spill.dat spill.offset).2 = _
    rw [hlast, hmore, List.append_assoc]

/-! ## Scanning a store -/

theorem write_dat_header_eq :
    ∃ fields, write_dat_header SINK_VERSION SINK_UID SINK_APPNUM = DAT_MAGIC ++ fields ∧
      fields.length = 84 ∧ ofBE ((fields.drop 18).take 2) = KEY_SIZE :=
  ⟨toBE 2 SINK_VERSION ++ toBE 8 SINK_UID ++ toBE 8 SINK_APPNUM ++ toBE 2 KEY_SIZE ++
    List.replicate 64 0, by simp only [write_dat_header, List.append_assoc], by decide, by decide⟩

theorem write_dat_header_length :
    (write_dat_header SINK_VERSION SINK_UID SINK_APPNUM).length = DAT_HEADER_SIZE := by decide

/-- Behind a header that is whole the scan starts. -/
theorem scan_dat_header (rest : Bytes) :
    scan_dat lz4 (write_dat_header SINK_VERSION SINK_UID SINK_APPNUM ++ rest) =
      .ok (scan_dat_loop lz4 (DAT_HEADER_SIZE + rest.length) rest ∅) := by
  obtain ⟨fields, hheader, hlen, hsize⟩ := write_dat_header_eq
  have hmagic : read_exact_at (DAT_MAGIC ++ fields ++ rest) 0 8 = .ok DAT_MAGIC :=
    read_exact_at_of_hasAt ⟨[], fields ++ rest, by simp, rfl⟩ rfl
  have hfields : read_exact_at (DAT_MAGIC ++ fields ++ rest) 8 84 = .ok fields :=
    read_exact_at_of_hasAt ⟨DAT_MAGIC, rest, rfl, rfl⟩ hlen
  have hdrop : (DAT_MAGIC ++ fields ++ rest).drop DAT_HEADER_SIZE = rest := by
    apply List.drop_left'
    rw [← hheader, write_dat_header_length]
  have htotal : (DAT_MAGIC ++ fields ++ rest).length = DAT_HEADER_SIZE + rest.length := by
    rw [← hheader, List.length_append, write_dat_header_length]
  rw [hheader]
  unfold scan_dat
  simp only [hmagic, hfields, hdrop, htotal, hsize, bail_if, Bind.bind, Except.bind, ne_eq,
    not_true_eq_false, if_false]
  rfl

/-- A file without a whole header does not open. -/
theorem scan_dat_short {dat : Bytes} (h : dat.length < DAT_HEADER_SIZE) :
    ∃ e, scan_dat lz4 dat = .error e := by
  have hhdr : read_exact_at dat 8 84 = .error (.bail "failed to fill whole buffer") := by
    unfold read_exact_at readAt
    rw [if_neg (by unfold DAT_HEADER_SIZE at h; omega)]
    rfl
  unfold scan_dat
  cases read_exact_at dat 0 8 with
  | error e => exact ⟨e, rfl⟩
  | ok magic =>
    by_cases hmagic : magic ≠ DAT_MAGIC
    · refine ⟨.bail "invalid NuDB magic", ?_⟩
      simp only [bail_if, if_pos hmagic, Bind.bind, Except.bind]
    · refine ⟨.bail "failed to fill whole buffer", ?_⟩
      simp only [bail_if, if_neg hmagic, hhdr, Bind.bind, Except.bind]

/-- The map of the records that stand whole before the cut. -/
def scanned (lz4_decompress : Bytes → Nat → Option Bytes) (cut : Nat)
    (records : List (Hash256 × Bytes)) : WireMap :=
  (reached record_bytes SizedRecord (cut - DAT_HEADER_SIZE) records).foldl
    (insert_wire lz4_decompress) ∅

/-- What a scan finds in the first `cut` bytes of a store. -/
theorem scan_dat_take {records : List (Hash256 × Bytes)} {more : Bytes} {cut : Nat}
    (hlen : ∀ c ∈ records, c.2.length < 2 ^ 48) (hmore : Blank more)
    (hcut : DAT_HEADER_SIZE ≤ cut) :
    scan_dat lz4 ((write_dat_header SINK_VERSION SINK_UID SINK_APPNUM ++
        (records.flatMap record_bytes ++ more)).take cut) =
      .ok (scanned lz4 cut records) := by
  unfold scanned
  rw [List.take_append, write_dat_header_length,
    List.take_of_length_le (by rw [write_dat_header_length]; exact hcut), scan_dat_header,
    scan_dat_loop_eq, (framing hlen).scan_take hmore.next_record]
  have hcount := @reached_length _ record_bytes SizedRecord _ records (cut - DAT_HEADER_SIZE)
    fun c _ => by rw [record_bytes_length]; omega
  rw [List.length_take, List.length_append]
  unfold DAT_HEADER_SIZE at *
  omega

theorem lookup_scanned {calls : List (Hash256 × Bytes)} {cut : Nat} {h : Hash256} {wire : Bytes} :
    (scanned lz4 cut (written_calls calls)).lookup h = some wire ↔
      ∃ v, (h, v) ∈ reached record_bytes SizedRecord (cut - DAT_HEADER_SIZE) (written_calls calls) ∧
        decode_value_to_wire lz4 v = some wire := by
  have hnd := (written_calls_nodup calls).sublist
    ((@reached_begins _ record_bytes SizedRecord _ _ (cut - DAT_HEADER_SIZE)).sublist.map Prod.fst)
  unfold scanned
  rw [lookup_insert_wires hnd fun c _ => Finmap.notMem_empty]
  simp

/-- The data file of a finished store. -/
theorem finish_dat {calls : List (Hash256 × Bytes)} {dat key : Bytes}
    (hfin : (NuDbSink.create.write_nodes xxh64 calls).finish xxh64 = (dat, key)) :
    ∃ more, dat = write_dat_header SINK_VERSION SINK_UID SINK_APPNUM ++
      ((written_calls calls).flatMap record_bytes ++ more) ∧ Blank more := by
  obtain ⟨more, hmore, hblank⟩ := write_buckets_dat
    (NuDbSink.create.write_nodes xxh64 calls).buckets
    (NuDbSink.create.write_nodes xxh64 calls).dat
    (NuDbSink.create.write_nodes xxh64 calls).offset
  refine ⟨more, ?_, hblank⟩
  rw [← List.append_assoc, ← @write_nodes_dat xxh64, ← hmore]
  exact (congrArg Prod.fst hfin).symm

/-- The sizes of the records of a file below 2^48 bytes. -/
theorem written_sizes {calls : List (Hash256 × Bytes)} {dat header more : Bytes}
    (hlaid : dat = header ++ ((written_calls calls).flatMap record_bytes ++ more))
    (hdat : dat.length < 2 ^ 48) : ∀ c ∈ written_calls calls, c.2.length < 2 ^ 48 := by
  intro c hc
  have hsub : (record_bytes c).length ≤ ((written_calls calls).flatMap record_bytes).length :=
    (List.sublist_flatten_of_mem (List.mem_map_of_mem hc)).length_le
  rw [record_bytes_length] at hsub
  rw [hlaid, List.length_append, List.length_append] at hdat
  omega

/-- The reader of one shard answers with the shard's decoded value. -/
theorem get_wire_of_fetch {fuel : Nat} {shard : Shard} {h : Hash256} {found : Option Bytes}
    (hfetch : shard.fetch xxh64 fuel h = .ok found) :
    NuDBReader.get_wire xxh64 lz4 fuel { shards := [shard] } h =
      .ok (found.bind (decode_value_to_wire lz4)) := by
  show NuDBReader.get_wire_loop xxh64 lz4 fuel h [shard] = _
  unfold NuDBReader.get_wire_loop
  rw [hfetch]
  simp only [Bind.bind, Except.bind]
  cases found.bind (decode_value_to_wire lz4) with
  | none => rfl
  | some wire => rfl

/-- Wherever the data file of a store is cut off behind its header, a scan
    finds the decoded value of each record that stands whole before the cut
    with no empty and no oversized value before it, and nothing else. What
    it finds is what the key file leads to, and if no value is empty or
    oversized, the scan of the whole file finds all that the key file leads
    to. -/
theorem scan_dat_exact (xxh64 : Bytes → UInt64 → UInt64) (lz4 : Bytes → Nat → Option Bytes)
    (calls : List (Hash256 × Bytes)) (dat key : Bytes)
    (hfin : (NuDbSink.create.write_nodes xxh64 calls).finish xxh64 = (dat, key))
    (hdat : dat.length < 2 ^ 48) (hkey : key.length < 2 ^ 48) :
    ∃ reader, NuDBReader.open_single (dat, key) = .ok reader ∧ ∀ cut,
      (cut < DAT_HEADER_SIZE → ∃ e, scan_dat lz4 (dat.take cut) = .error e) ∧
      (DAT_HEADER_SIZE ≤ cut → ∃ map, scan_dat lz4 (dat.take cut) = .ok map ∧
        (∀ h wire, map.lookup h = some wire ↔ ∃ before v,
          before ++ [(h, v)] <+: written_calls calls ∧
          (∀ c ∈ before ++ [(h, v)], SizedRecord c) ∧
          DAT_HEADER_SIZE + ((before ++ [(h, v)]).flatMap record_bytes).length ≤ cut ∧
          decode_value_to_wire lz4 v = some wire) ∧
        (∀ h wire, map.lookup h = some wire → ∃ fuel₀, ∀ fuel ≥ fuel₀,
          reader.get_wire xxh64 lz4 fuel h = .ok (some wire)) ∧
        (dat.length ≤ cut → (∀ c ∈ written_calls calls, SizedRecord c) →
          ∀ h, ∃ fuel₀, ∀ fuel ≥ fuel₀,
            reader.get_wire xxh64 lz4 fuel h = .ok (map.lookup h))) := by
  have hs : Stored xxh64 (NuDbSink.create.write_nodes xxh64 calls) calls :=
    stored_create.write_nodes calls
  have hf := finish_finished hs.offset_eq hfin
  let shard := finished_shard (NuDbSink.create.write_nodes xxh64 calls) dat key
  have hopen : NuDBReader.open_single (dat, key) = .ok { shards := [shard] } := by
    simp [shard, NuDBReader.open_single, NuDBReader.open, hf.open_eq hkey, bail_if, Bind.bind,
      Except.bind, Pure.pure, Except.pure]
  -- What the key file leads to.
  have hget : ∀ h, ∃ fuel₀, ∀ fuel ≥ fuel₀, NuDBReader.get_wire xxh64 lz4 fuel
      { shards := [shard] } h = .ok ((calls.lookup h).bind (decode_value_to_wire lz4)) := by
    intro h
    obtain ⟨fuel₀, hfetch⟩ := hs.fetch hf hdat h
    exact ⟨fuel₀, fun fuel hfuel => get_wire_of_fetch (hfetch fuel hfuel)⟩
  -- The records stand behind the header, and spilled buckets behind them.
  obtain ⟨more, hlaid, hmore⟩ := finish_dat hfin
  refine ⟨_, hopen, fun cut => ⟨fun hcut => ?_, fun hcut =>
    ⟨scanned lz4 cut (written_calls calls), ?_, fun h wire => ?_, fun h wire hwire => ?_,
      fun hend hall h => ?_⟩⟩⟩
  · apply scan_dat_short
    rw [List.length_take]
    omega
  · rw [hlaid]
    exact scan_dat_take (written_sizes hlaid hdat) hmore hcut
  · rw [lookup_scanned]
    constructor
    · rintro ⟨v, hv, hdec⟩
      obtain ⟨before, hpre, hread, hlen⟩ := mem_reached.mp hv
      exact ⟨before, v, hpre, hread, by omega, hdec⟩
    · rintro ⟨before, v, hpre, hread, hlen, hdec⟩
      exact ⟨v, mem_reached.mpr ⟨before, hpre, hread, by omega⟩, hdec⟩
  · obtain ⟨v, hv, hdec⟩ := lookup_scanned.mp hwire
    obtain ⟨fuel₀, hfound⟩ := hget h
    rw [lookup_eq_some_iff_written.mpr (reached_begins.subset hv), Option.bind_some, hdec] at hfound
    exact ⟨fuel₀, hfound⟩
  · -- No record ends the scan, so it comes to all of them.
    have hwhole : reached record_bytes SizedRecord (cut - DAT_HEADER_SIZE) (written_calls calls) =
        written_calls calls := by
      apply reached_eq_self hall
      rw [hlaid, List.length_append, write_dat_header_length, List.length_append] at hend
      omega
    obtain ⟨fuel₀, hfound⟩ := hget h
    refine ⟨fuel₀, fun fuel hfuel => (hfound fuel hfuel).trans (congrArg Except.ok ?_)⟩
    apply Option.ext
    intro wire
    rw [lookup_scanned, hwhole, Option.bind_eq_some_iff]
    simp only [lookup_eq_some_iff_written]

/-- The second value is empty: the scan does not come to the third. -/
def hidden_calls : List (Hash256 × Bytes) :=
  [(Hash256.ofBytes [1], encode_wire_to_value [7, 7] .AccountState), (Hash256.ofBytes [2], []),
    (Hash256.ofBytes [3], encode_wire_to_value [8] .AccountState)]

theorem scan_dat_exact_hidden :
    ∃ dat key, (NuDbSink.create.write_nodes Xxh64.digest hidden_calls).finish Xxh64.digest =
        (dat, key) ∧
      ∃ reader, NuDBReader.open_single (dat, key) = .ok reader ∧ ∀ cut,
        (cut < DAT_HEADER_SIZE → ∃ e, scan_dat (fun _ _ => none) (dat.take cut) = .error e) ∧
        (DAT_HEADER_SIZE ≤ cut → ∃ map, scan_dat (fun _ _ => none) (dat.take cut) = .ok map ∧
          (∀ h wire, map.lookup h = some wire ↔ ∃ before v,
            before ++ [(h, v)] <+: written_calls hidden_calls ∧
            (∀ c ∈ before ++ [(h, v)], SizedRecord c) ∧
            DAT_HEADER_SIZE + ((before ++ [(h, v)]).flatMap record_bytes).length ≤ cut ∧
            decode_value_to_wire (fun _ _ => none) v = some wire) ∧
          (∀ h wire, map.lookup h = some wire → ∃ fuel₀, ∀ fuel ≥ fuel₀,
            reader.get_wire Xxh64.digest (fun _ _ => none) fuel h = .ok (some wire)) ∧
          (dat.length ≤ cut → (∀ c ∈ written_calls hidden_calls, SizedRecord c) →
            ∀ h, ∃ fuel₀, ∀ fuel ≥ fuel₀,
              reader.get_wire Xxh64.digest (fun _ _ => none) fuel h = .ok (map.lookup h))) :=
  ⟨_, _, rfl, scan_dat_exact Xxh64.digest _ hidden_calls _ _ rfl
    (by decide +kernel) (by decide +kernel)⟩

end LedgerArchive
