import LedgerArchive.Lib.Xxh64
import LedgerArchive.Nudb.Writer
import LedgerArchive.Nudb.Lookup
import LedgerArchive.Nudb.Reader

/-! # What is written can be fetched

    The invariant of a sink is `Stored`: each placed entry points at the
    record of a hash and its first value. Finishing puts every entry in the
    bucket of its hash, in the block or in the chain behind it
    (`write_buckets_spec`), and that is where the reader looks. -/

namespace LedgerArchive

open Lib

variable {xxh64 : Bytes → UInt64 → UInt64}

/-! ## The sink -/

/-- The sink after the calls `calls`: a hash keeps the value of the first
    call that named it. -/
structure Stored (xxh64 : Bytes → UInt64 → UInt64) (s : NuDbSink)
    (calls : List (Hash256 × Bytes)) : Prop where
  offset_eq : s.offset = s.dat.length
  seen : ∀ h, h ∈ s.seen ↔ (calls.lookup h).isSome
  records : ∀ e ∈ s.placed, ∃ h v, calls.lookup h = some v ∧ Records xxh64 s.dat e (h, v)
  placed : ∀ h v, calls.lookup h = some v → ∃ e ∈ s.placed, Records xxh64 s.dat e (h, v)

theorem stored_create : Stored xxh64 NuDbSink.create [] where
  offset_eq := by decide
  seen h := by simp [NuDbSink.create]
  records e he := by cases he
  placed h v hv := by cases hv

theorem lookup_snoc (calls : List (Hash256 × Bytes)) (h k : Hash256) (v : Bytes) :
    (calls ++ [(h, v)]).lookup k = (calls.lookup k).or (if k = h then some v else none) := by
  rw [List.lookup_append, List.lookup_cons]
  by_cases hk : k = h
  · simp [hk]
  · simp [beq_false_of_ne hk, if_neg hk]

/-- Writing a node keeps the invariant. -/
theorem Stored.write_node {s : NuDbSink} {calls : List (Hash256 × Bytes)}
    (hs : Stored xxh64 s calls) (h : Hash256) (v : Bytes) :
    Stored xxh64 (s.write_node xxh64 h v) (calls ++ [(h, v)]) := by
  unfold NuDbSink.write_node
  by_cases hseen : h ∈ s.seen
  · -- A hash written before: neither the sink nor what it stores changes.
    rw [if_pos hseen]
    have hsame : ∀ k, (calls ++ [(h, v)]).lookup k = calls.lookup k := by
      intro k
      rw [lookup_snoc]
      by_cases hk : k = h
      · obtain ⟨w, hw⟩ := Option.isSome_iff_exists.mp ((hs.seen h).mp hseen)
        rw [hk, hw, Option.some_or]
      · rw [if_neg hk, Option.or_none]
    exact ⟨hs.offset_eq, fun k => by rw [hsame]; exact hs.seen k,
      fun e he => by
        obtain ⟨k, w, hk, hr⟩ := hs.records e he
        exact ⟨k, w, by rw [hsame]; exact hk, hr⟩,
      fun k w hk => hs.placed k w (by rw [← hsame]; exact hk)⟩
  · rw [if_neg hseen]
    have hnew : calls.lookup h = none := by
      by_contra hne
      exact hseen ((hs.seen h).mpr (Option.isSome_iff_ne_none.mpr hne))
    have hdat : s.dat ++ toBE 6 v.length ++ h.bytes ++ v =
        s.dat ++ (toBE 6 v.length ++ h.bytes ++ v) := by simp
    have hrec : Records xxh64 (s.dat ++ toBE 6 v.length ++ h.bytes ++ v)
        { nhash := nhash_of xxh64 SINK_SALT h, offset := s.offset, size := v.length } (h, v) := by
      refine ⟨rfl, rfl, ?_⟩
      rw [hdat]
      show HasAt _ s.offset _
      rw [hs.offset_eq]
      exact HasAt.last _ _
    refine ⟨?_, ?_, ?_, ?_⟩
    · simp only [hs.offset_eq, List.length_append, toBE_length, h.length_eq, KEY_SIZE]
      omega
    · intro k
      rw [lookup_snoc, Option.isSome_or, List.mem_cons, hs.seen k]
      by_cases hk : k = h
      · simp [hk]
      · simp [hk]
    · intro e he
      rcases List.mem_append.mp he with he | he
      · obtain ⟨k, w, hk, hr⟩ := hs.records e he
        refine ⟨k, w, ?_, ?_⟩
        · rw [lookup_snoc, hk, Option.some_or]
        · rw [hdat]
          exact hr.append _
      · rw [List.mem_singleton.mp he]
        refine ⟨h, v, ?_, hrec⟩
        rw [lookup_snoc, hnew, if_pos rfl, Option.none_or]
    · intro k w hk
      rw [lookup_snoc, Option.or_eq_some_iff] at hk
      rcases hk with hk | ⟨_, hk⟩
      · obtain ⟨e, he, hr⟩ := hs.placed k w hk
        refine ⟨e, List.mem_append_left _ he, ?_⟩
        rw [hdat]
        exact hr.append _
      · by_cases hkh : k = h
        · rw [if_pos hkh, Option.some.injEq] at hk
          rw [hkh, ← hk]
          exact ⟨_, List.mem_append_right _ (List.mem_singleton.mpr rfl), hrec⟩
        · rw [if_neg hkh] at hk
          cases hk

/-- A sequence of `write_node` calls. -/
def NuDbSink.write_nodes (xxh64 : Bytes → UInt64 → UInt64) (s : NuDbSink)
    (calls : List (Hash256 × Bytes)) : NuDbSink :=
  calls.foldl (fun s c => s.write_node xxh64 c.1 c.2) s

theorem Stored.write_nodes {s : NuDbSink} {before : List (Hash256 × Bytes)}
    (hs : Stored xxh64 s before) (calls : List (Hash256 × Bytes)) :
    Stored xxh64 (s.write_nodes xxh64 calls) (before ++ calls) := by
  induction calls generalizing s before with
  | nil =>
    rw [List.append_nil]
    exact hs
  | cons c calls ih =>
    have := ih (hs.write_node c.1 c.2)
    rwa [List.append_assoc] at this

/-! ## Chains -/

theorem chunks_loop_spec {α : Type} {n : Nat} (hn : 0 < n) {k : Nat} {l : List α}
    (hk : l.length ≤ k) :
    (chunks_loop k n l).flatten = l ∧ ∀ c ∈ chunks_loop k n l, c.length ≤ n := by
  induction k generalizing l with
  | zero =>
    rw [List.length_eq_zero_iff.mp (Nat.le_zero.mp hk)]
    exact ⟨rfl, fun c hc => by cases hc⟩
  | succ k ih =>
    cases l with
    | nil => exact ⟨rfl, fun c hc => by cases hc⟩
    | cons a l =>
      have hdrop : ((a :: l).drop n).length ≤ k := by
        rw [List.length_drop]
        omega
      obtain ⟨hflat, hlen⟩ := ih hdrop
      unfold chunks_loop
      refine ⟨?_, ?_⟩
      · rw [List.flatten_cons, hflat, List.take_append_drop]
      · intro c hc
        rcases List.mem_cons.mp hc with rfl | hc
        · exact List.length_take_le n _
        · exact hlen c hc

/-- The file behind `dat` holds the chain of `entries`. -/
structure SpillHolds (dat : Bytes) (s : SpillState) (entries : List PlacedEntry) : Prop where
  offset_eq : s.offset = s.dat.length
  grown : ∃ more, s.dat = dat ++ more
  chain : Chain s.dat s.next_spill entries

/-- Writing a piece in front of a chain makes a longer chain. -/
theorem SpillHolds.write_spill {dat : Bytes} {s : SpillState} {chunk rest : List PlacedEntry}
    (hs : SpillHolds dat s rest) (hlen : chunk.length ≤ BUCKET_CAPACITY) :
    SpillHolds dat (write_spill s chunk) (chunk ++ rest) := by
  have hbody : write_bucket_into (BUCKET_HEADER + chunk.length * ENTRY_SIZE) chunk s.next_spill =
      bucket_bytes chunk s.next_spill := by
    unfold write_bucket_into
    simp [bucket_bytes_length]
  have hwrite : LedgerArchive.write_spill s chunk =
      { dat := s.dat ++ List.replicate 6 0 ++ toBE 2 (BUCKET_HEADER + chunk.length * ENTRY_SIZE) ++
          bucket_bytes chunk s.next_spill,
        offset := s.offset + 8 + (BUCKET_HEADER + chunk.length * ENTRY_SIZE),
        next_spill := s.offset + 8 } := by
    rw [← hbody]
    rfl
  obtain ⟨more, hmore⟩ := hs.grown
  rw [hwrite]
  refine ⟨?_, ⟨more ++ (List.replicate 6 0 ++ toBE 2 (BUCKET_HEADER + chunk.length * ENTRY_SIZE) ++
    bucket_bytes chunk s.next_spill), ?_⟩, ?_⟩
  · simp only [hs.offset_eq, List.length_append, List.length_replicate, toBE_length,
      bucket_bytes_length]
  · simp [hmore]
  · have hat := HasAt.last (s.dat ++ List.replicate 6 0 ++
      toBE 2 (BUCKET_HEADER + chunk.length * ENTRY_SIZE)) (bucket_bytes chunk s.next_spill)
    simp only [List.length_append, List.length_replicate, toBE_length, ← hs.offset_eq] at hat
    have hrest := hs.chain.append (List.replicate 6 0 ++
      (toBE 2 (BUCKET_HEADER + chunk.length * ENTRY_SIZE) ++ bucket_bytes chunk s.next_spill))
    rw [← List.append_assoc, ← List.append_assoc] at hrest
    exact Chain.piece (Nat.succ_ne_zero _) hlen hat hrest

/-- The overflow of a bucket is held by the chain written for it. -/
theorem write_spill_chain_spec {dat : Bytes} {offset : Nat} (hoff : offset = dat.length)
    (overflow : List PlacedEntry) :
    SpillHolds dat (write_spill_chain dat offset overflow) overflow := by
  have hcap : 0 < BUCKET_CAPACITY := by decide
  obtain ⟨hflat, hlen⟩ := chunks_loop_spec hcap (Nat.le_refl overflow.length)
  -- Induction on the pieces, from the last one written to the first.
  have hpieces : ∀ pieces : List (List PlacedEntry),
      (∀ c ∈ pieces, c.length ≤ BUCKET_CAPACITY) →
      SpillHolds dat (pieces.reverse.foldl write_spill { dat, offset, next_spill := 0 })
        pieces.flatten := by
    intro pieces hpieces
    rw [List.foldl_reverse]
    induction pieces with
    | nil => exact ⟨hoff, ⟨[], (List.append_nil _).symm⟩, .done⟩
    | cons c pieces ih =>
      rw [List.foldr_cons, List.flatten_cons]
      exact (ih fun d hd => hpieces d (List.mem_cons_of_mem _ hd)).write_spill
        (hpieces c List.mem_cons_self)
  have := hpieces _ hlen
  rwa [hflat] at this

/-! ## The bucket table -/

/-- Where a finished bucket stands: a block of the key file, and the chain
    behind it in the data file. -/
structure Placed (dat : Bytes) (block : Bytes) (bucket : List PlacedEntry) : Prop where
  split : ∃ chunk rest spill, block = write_bucket_block chunk spill ∧
    chunk.length ≤ BUCKET_CAPACITY ∧ Chain dat spill rest ∧ (chunk ++ rest).Perm bucket

theorem Placed.append {dat block : Bytes} {bucket : List PlacedEntry} (h : Placed dat block bucket)
    (more : Bytes) : Placed (dat ++ more) block bucket := by
  obtain ⟨chunk, rest, spill, hblock, hlen, hchain, hperm⟩ := h.split
  exact ⟨chunk, rest, spill, hblock, hlen, hchain.append more, hperm⟩

/-- Writing the buckets only appends to the data file, and places each
    bucket in the block of its index. -/
theorem write_buckets_spec {table : List (List PlacedEntry)} {dat : Bytes} {offset : Nat}
    (hoff : offset = dat.length) :
    (∃ more, (NuDbSink.write_buckets table dat offset).2 = dat ++ more) ∧
      List.Forall₂ (Placed (NuDbSink.write_buckets table dat offset).2)
        (NuDbSink.write_buckets table dat offset).1 table := by
  induction table generalizing dat offset with
  | nil => exact ⟨⟨[], (List.append_nil _).symm⟩, .nil⟩
  | cons bucket table ih =>
    let sorted := bucket.insertionSort fun a b => a.nhash ≤ b.nhash
    let spill := write_spill_chain dat offset (sorted.drop BUCKET_CAPACITY)
    have hspill : SpillHolds dat spill (sorted.drop BUCKET_CAPACITY) :=
      write_spill_chain_spec hoff _
    obtain ⟨⟨more, hmore⟩, hrest⟩ := ih hspill.offset_eq
    obtain ⟨front, hfront⟩ := hspill.grown
    have hwrite : NuDbSink.write_buckets (bucket :: table) dat offset =
        (write_bucket_block (sorted.take BUCKET_CAPACITY) spill.next_spill ::
          (NuDbSink.write_buckets table spill.dat spill.offset).1,
        (NuDbSink.write_buckets table spill.dat spill.offset).2) := rfl
    have hhead : Placed spill.dat
        (write_bucket_block (sorted.take BUCKET_CAPACITY) spill.next_spill) bucket := by
      refine ⟨_, _, _, rfl, List.length_take_le _ _, hspill.chain, ?_⟩
      rw [List.take_append_drop]
      exact List.perm_insertionSort _ bucket
    rw [hwrite]
    refine ⟨⟨front ++ more, ?_⟩, ?_⟩
    · rw [hmore, hfront, List.append_assoc]
    · refine .cons ?_ hrest
      rw [hmore]
      exact hhead.append more

/-- Pushing each element to the slot `f` names sorts a list into slots. -/
theorem foldl_modify_getElem? {α : Type} (f : α → Nat) (l : List α) (table : List (List α))
    (i : Nat) :
    (l.foldl (fun table e => table.modify (f e) fun slot => slot ++ [e]) table)[i]? =
      table[i]?.map fun slot => slot ++ l.filter fun e => f e = i := by
  induction l generalizing table with
  | nil => simp
  | cons e l ih =>
    rw [List.foldl_cons, ih, List.getElem?_modify, Option.map_eq_map, Option.map_map]
    by_cases he : f e = i
    · simp [he, Function.comp_def]
    · simp [he, Function.comp_def]

variable {s : NuDbSink}

/-- The bucket of a hash holds the entries placed there. -/
theorem buckets_getElem? {i : Nat} (hi : i < s.num_buckets) :
    s.buckets[i]? = some (s.placed.filter fun e =>
      bucket_of (modulus_for s.num_buckets) s.num_buckets e.nhash = i) := by
  unfold NuDbSink.buckets
  rw [foldl_modify_getElem?, List.getElem?_replicate, if_pos hi]
  simp

theorem buckets_length : s.buckets.length = s.num_buckets := by
  unfold NuDbSink.buckets
  have hfold : ∀ (l : List PlacedEntry) (table : List (List PlacedEntry)) (f : PlacedEntry → Nat),
      (l.foldl (fun table e => table.modify (f e) fun slot => slot ++ [e]) table).length =
        table.length := by
    intro l table f
    induction l generalizing table with
    | nil => rfl
    | cons e l ih => rw [List.foldl_cons, ih, List.length_modify]
  rw [hfold, List.length_replicate]

theorem num_buckets_pos : 0 < s.num_buckets := by
  unfold NuDbSink.num_buckets
  omega

/-! ## Opening the store -/

/-- The fields of a key header, without its padding. -/
theorem write_key_header_eq (version uid appnum : Nat) (salt : UInt64) :
    ∃ pepper, write_key_header xxh64 version uid appnum salt =
      (KEY_MAGIC ++ toBE 2 version ++ toBE 8 uid ++ toBE 8 appnum ++ toBE 2 KEY_SIZE ++
        toBE 8 salt.toNat ++ toBE 8 pepper ++ toBE 2 BLOCK_SIZE ++ toBE 2 0x8000 ++
        List.replicate 16 0) ++ List.replicate (BLOCK_SIZE - 64) 0 := by
  refine ⟨(xxh64 (toBE 8 salt.toNat).reverse salt).toNat, ?_⟩
  have hpad : ∀ hdr : Bytes, hdr.length = 48 →
      hdr ++ List.replicate (BLOCK_SIZE - hdr.length) 0 =
        (hdr ++ List.replicate 16 0) ++ List.replicate (BLOCK_SIZE - 64) 0 := by
    intro hdr hlen
    rw [hlen, List.append_assoc, List.replicate_append_replicate]
    rfl
  exact hpad _ (by simp [KEY_MAGIC])

theorem write_key_header_length (version uid appnum : Nat) (salt : UInt64) :
    (write_key_header xxh64 version uid appnum salt).length = BLOCK_SIZE := by
  obtain ⟨pepper, hhdr⟩ := @write_key_header_eq xxh64 version uid appnum salt
  rw [hhdr, List.length_append, List.length_replicate]
  simp only [List.length_append, toBE_length, List.length_replicate, KEY_MAGIC]
  rfl

/-- A header with the right fields opens. -/
theorem open_of_header {dat key hdr : Bytes} {salt : UInt64} {block_size : Nat}
    (hread : read_exact_at key 0 64 = .ok hdr) (hmagic : hdr.take 8 = KEY_MAGIC)
    (hkey : ofBE ((hdr.drop 26).take 2) = 32)
    (hsalt : UInt64.ofNat (ofBE ((hdr.drop 28).take 8)) = salt)
    (hblock : ofBE ((hdr.drop 44).take 2) = block_size) (hpos : block_size ≠ 0) {n : Nat}
    (hn : (key.length + 2 ^ 64 - block_size) % 2 ^ 64 / block_size = n) :
    Shard.open dat key =
      .ok { dat, key, salt, block_size, num_buckets := n, modulus := modulus_for n } := by
  unfold Shard.open
  rw [hread]
  simp only [Bind.bind, Except.bind, bail_if, hmagic, hkey, hsalt, hblock, hn, ne_eq,
    not_true_eq_false, if_false, if_neg hpos]
  rfl

/-- A key file of a header and `n` blocks opens as a shard of `n` buckets. -/
theorem open_key_file {dat blocks : Bytes} {version uid appnum n : Nat} {salt : UInt64}
    (hn : blocks.length = n * BLOCK_SIZE) (hlen : blocks.length < 2 ^ 48) :
    Shard.open dat (write_key_header xxh64 version uid appnum salt ++ blocks) =
      .ok { dat, key := write_key_header xxh64 version uid appnum salt ++ blocks, salt,
            block_size := BLOCK_SIZE, num_buckets := n, modulus := modulus_for n } := by
  obtain ⟨pepper, hhdr⟩ := @write_key_header_eq xxh64 version uid appnum salt
  have hread : read_exact_at (write_key_header xxh64 version uid appnum salt ++ blocks) 0 64 =
      .ok (KEY_MAGIC ++ toBE 2 version ++ toBE 8 uid ++ toBE 8 appnum ++ toBE 2 KEY_SIZE ++
        toBE 8 salt.toNat ++ toBE 8 pepper ++ toBE 2 BLOCK_SIZE ++ toBE 2 0x8000 ++
        List.replicate 16 0) := by
    rw [hhdr, List.append_assoc]
    exact read_exact_at_of_hasAt ⟨[], _, by rw [List.nil_append], rfl⟩ (by simp [KEY_MAGIC])
  have hpos : BLOCK_SIZE ≠ 0 := by decide
  have hbuckets : ((write_key_header xxh64 version uid appnum salt ++ blocks).length + 2 ^ 64 -
      BLOCK_SIZE) % 2 ^ 64 / BLOCK_SIZE = n := by
    rw [List.length_append, write_key_header_length]
    have hwrap : (BLOCK_SIZE + blocks.length + 2 ^ 64 - BLOCK_SIZE) % 2 ^ 64 = blocks.length := by
      omega
    rw [hwrap, hn, Nat.mul_div_cancel _ (Nat.pos_of_ne_zero hpos)]
  -- The header's fields stand at fixed offsets.
  refine open_of_header hread rfl ?_ ?_ ?_ hpos hbuckets
  · show ofBE (toBE 2 KEY_SIZE) = 32
    decide
  · show UInt64.ofNat (ofBE (toBE 8 salt.toNat)) = salt
    rw [ofBE_toBE_of_lt salt.toNat_lt, UInt64.ofNat_toNat]
  · show ofBE (toBE 2 BLOCK_SIZE) = BLOCK_SIZE
    decide

/-! ## Fetching -/

theorem write_bucket_block_length {chunk : List PlacedEntry} (hlen : chunk.length ≤ BUCKET_CAPACITY)
    (spill : Nat) : (write_bucket_block chunk spill).length = BLOCK_SIZE := by
  have hcap : BUCKET_HEADER + BUCKET_CAPACITY * ENTRY_SIZE ≤ BLOCK_SIZE := by decide
  have hmul : chunk.length * ENTRY_SIZE ≤ BUCKET_CAPACITY * ENTRY_SIZE :=
    Nat.mul_le_mul_right _ hlen
  unfold write_bucket_block write_bucket_into
  rw [List.length_append, List.length_replicate, bucket_bytes_length]
  omega

theorem Placed.block_length {dat block : Bytes} {bucket : List PlacedEntry}
    (h : Placed dat block bucket) : block.length = BLOCK_SIZE := by
  obtain ⟨chunk, rest, spill, rfl, hlen, -, -⟩ := h.split
  exact write_bucket_block_length hlen spill

/-- A bucket that holds the entries of the key is searched with success. -/
theorem Placed.fetch_loop {s : Shard} {key : Hash256} {block : Bytes} {bucket : List PlacedEntry}
    {expected : Option Bytes} (h : Placed s.dat block bucket) (hsalt : s.salt = SINK_SALT)
    (hdat : s.dat.length < 2 ^ 48) (hr : Readable xxh64 s.dat key bucket expected)
    (hall : ∀ v, expected = some v → ∃ e ∈ bucket, Records xxh64 s.dat e (key, v)) :
    ∃ fuel₀, ∀ fuel ≥ fuel₀,
      s.fetch_loop key (nhash_of xxh64 s.salt key) fuel block = .ok expected := by
  obtain ⟨chunk, rest, spill, rfl, hlen, hchain, hperm⟩ := h.split
  have hb : HasAt (write_bucket_block chunk spill) 0 (bucket_bytes chunk spill) :=
    ⟨[], _, by rw [List.nil_append]; rfl, rfl⟩
  have hr' : Readable xxh64 s.dat key (chunk ++ rest) expected :=
    ⟨fun e he => hr.records e (hperm.mem_iff.mp he), fun e he => hr.value e (hperm.mem_iff.mp he)⟩
  obtain ⟨fuel₀, found, hfinds, hloop⟩ := fetch_loop_chain hsalt hdat hchain hlen hb hr'
  -- Whatever the lookup finds is what was expected.
  have hfound : found = expected := by
    rcases hfinds with ⟨hf, _, _⟩ | ⟨hf, hnot⟩
    · exact hf
    · cases expected with
      | none => exact hf
      | some v =>
        obtain ⟨e, he, hrec⟩ := hall v rfl
        exact absurd ⟨e, hperm.mem_iff.mpr he, v, hrec⟩ hnot
  exact ⟨fuel₀, fun fuel hfuel => hfound ▸ hloop fuel hfuel⟩

/-- The files a sink finishes to: the data only grows, and the key file
    holds a block for every bucket. -/
structure Finished (xxh64 : Bytes → UInt64 → UInt64) (s : NuDbSink) (dat key : Bytes)
    (blocks : List Bytes) : Prop where
  grown : ∃ more, dat = s.dat ++ more
  key_eq : key = write_key_header xxh64 SINK_VERSION SINK_UID SINK_APPNUM SINK_SALT ++
    blocks.flatten
  count : blocks.length = s.num_buckets
  placed : ∀ i block, blocks[i]? = some block → Placed dat block (s.placed.filter fun e =>
    bucket_of (modulus_for s.num_buckets) s.num_buckets e.nhash = i)

theorem finish_finished {s : NuDbSink} {dat key : Bytes} (hoff : s.offset = s.dat.length)
    (hfin : s.finish xxh64 = (dat, key)) :
    Finished xxh64 s dat key (NuDbSink.write_buckets s.buckets s.dat s.offset).1 := by
  obtain ⟨⟨more, hmore⟩, hplaced⟩ := @write_buckets_spec s.buckets s.dat s.offset hoff
  have hdat : (NuDbSink.write_buckets s.buckets s.dat s.offset).2 = dat := congrArg Prod.fst hfin
  rw [hdat] at hmore hplaced
  obtain ⟨hcount, hget⟩ := List.forall₂_iff_get.mp hplaced
  have hlen : s.buckets.length = s.num_buckets := buckets_length
  refine ⟨⟨more, hmore⟩, (congrArg Prod.snd hfin).symm, hcount.trans hlen, fun i block hi => ?_⟩
  obtain ⟨hlt, rfl⟩ := List.getElem?_eq_some_iff.mp hi
  have hlt' : i < s.buckets.length := by omega
  have hbucket := @buckets_getElem? s i (by omega)
  rw [List.getElem?_eq_getElem hlt', Option.some.injEq] at hbucket
  have hat := hget i hlt hlt'
  rw [List.get_eq_getElem, List.get_eq_getElem, hbucket] at hat
  exact hat

variable {s : NuDbSink} {dat key : Bytes} {blocks : List Bytes}

theorem Finished.block_length (hf : Finished xxh64 s dat key blocks) :
    ∀ b ∈ blocks, b.length = BLOCK_SIZE := by
  intro b hb
  obtain ⟨i, hi⟩ := List.getElem?_of_mem hb
  exact (hf.placed i b hi).block_length

/-- The shard the finished files open as. -/
def finished_shard (s : NuDbSink) (dat key : Bytes) : Shard :=
  { dat, key, salt := SINK_SALT, block_size := BLOCK_SIZE, num_buckets := s.num_buckets,
    modulus := modulus_for s.num_buckets }

theorem Finished.open_eq (hf : Finished xxh64 s dat key blocks) (hlen : key.length < 2 ^ 48) :
    Shard.open dat key = .ok (finished_shard s dat key) := by
  have hflat : blocks.flatten.length = s.num_buckets * BLOCK_SIZE := by
    rw [HasAt.flatten_length hf.block_length, hf.count]
  have hfile : key.length = BLOCK_SIZE + blocks.flatten.length := by
    rw [hf.key_eq, List.length_append, write_key_header_length]
  unfold finished_shard
  rw [hf.key_eq]
  exact open_key_file hflat (by omega)

/-- The block of bucket `b` is read from the key file. -/
theorem Finished.read_block (hf : Finished xxh64 s dat key blocks) {b : Nat} {block : Bytes}
    (hb : blocks[b]? = some block) :
    read_exact_at key (BLOCK_SIZE * (b + 1)) BLOCK_SIZE = .ok block := by
  have hseg := @HasAt.flatten
    (write_key_header xxh64 SINK_VERSION SINK_UID SINK_APPNUM SINK_SALT) blocks BLOCK_SIZE
    hf.block_length b block hb
  rw [← hf.key_eq, write_key_header_length] at hseg
  have hoff : BLOCK_SIZE * (b + 1) = BLOCK_SIZE + b * BLOCK_SIZE := by ring
  rw [hoff]
  exact read_exact_at_of_hasAt hseg (hf.placed b block hb).block_length

/-- The entries placed in a bucket are readable, and those of a hash are in
    its own bucket. -/
theorem Stored.readable {calls : List (Hash256 × Bytes)} (hs : Stored xxh64 s calls)
    (hgrown : ∃ more, dat = s.dat ++ more) (h : Hash256) {b : Nat}
    (hb : bucket_of (modulus_for s.num_buckets) s.num_buckets (nhash_of xxh64 SINK_SALT h) = b) :
    Readable xxh64 dat h (s.placed.filter fun e =>
        bucket_of (modulus_for s.num_buckets) s.num_buckets e.nhash = b) (calls.lookup h) ∧
      ∀ v, calls.lookup h = some v → ∃ e ∈ s.placed.filter (fun e =>
        bucket_of (modulus_for s.num_buckets) s.num_buckets e.nhash = b),
        Records xxh64 dat e (h, v) := by
  obtain ⟨more, rfl⟩ := hgrown
  refine ⟨⟨fun e he => ?_, fun e he v hv => ?_⟩, fun v hv => ?_⟩
  · obtain ⟨k, v, _, hr⟩ := hs.records e (List.mem_of_mem_filter he)
    exact ⟨(k, v), hr.append more⟩
  · obtain ⟨k, w, hk, hr⟩ := hs.records e (List.mem_of_mem_filter he)
    obtain ⟨rfl, rfl⟩ := hv.unique (hr.append more)
    exact hk
  · obtain ⟨e, he, hr⟩ := hs.placed h v hv
    refine ⟨e, List.mem_filter.mpr ⟨he, ?_⟩, hr.append more⟩
    rw [hr.nhash, hb]
    exact decide_eq_true rfl

/-- From the finished files every hash is fetched with the value of the
    first call that named it. -/
theorem Stored.fetch {calls : List (Hash256 × Bytes)} (hs : Stored xxh64 s calls)
    (hf : Finished xxh64 s dat key blocks) (hdat : dat.length < 2 ^ 48) (h : Hash256) :
    ∃ fuel₀, ∀ fuel ≥ fuel₀,
      (finished_shard s dat key).fetch xxh64 fuel h = .ok (calls.lookup h) := by
  let b := bucket_of (modulus_for s.num_buckets) s.num_buckets (nhash_of xxh64 SINK_SALT h)
  have hb : b < blocks.length := by
    rw [hf.count]
    exact bucket_of_lt num_buckets_pos _
  have hblock := List.getElem?_eq_getElem hb
  obtain ⟨hr, hall⟩ := hs.readable hf.grown h (show _ = b from rfl)
  obtain ⟨fuel₀, hloop⟩ := (hf.placed b _ hblock).fetch_loop (s := finished_shard s dat key)
    rfl hdat hr hall
  refine ⟨fuel₀, fun fuel hfuel => ?_⟩
  show (do
    let block ← read_exact_at key (BLOCK_SIZE * (b + 1)) BLOCK_SIZE
    (finished_shard s dat key).fetch_loop h (nhash_of xxh64 SINK_SALT h) fuel block) = _
  rw [hf.read_block hblock]
  exact hloop fuel hfuel

/-! ## Reading nodes -/

/-- A shard that returns an encoded node gives the node back. -/
theorem get_node_of_fetch {lz4 : Bytes → Nat → Option Bytes} {fuel : Nat} {shard : Shard}
    {h : Hash256} {content : Bytes} {t : NodeType} (ht : t.is_exported = true)
    (hlen : t = .Inner → content.length = 512)
    (hfetch : shard.fetch xxh64 fuel h = .ok (some (encode_wire_to_value content t))) :
    NuDBReader.get_node xxh64 lz4 fuel { shards := [shard] } h = .ok ⟨h, t, content⟩ := by
  have hwire : NuDBReader.get_wire xxh64 lz4 fuel { shards := [shard] } h =
      .ok (some (content ++ [t.to_u8])) := by
    show NuDBReader.get_wire_loop xxh64 lz4 fuel h [shard] = _
    unfold NuDBReader.get_wire_loop
    rw [hfetch]
    simp only [Bind.bind, Except.bind, Option.bind_some, decode_encode_wire lz4 ht hlen]
    rfl
  unfold NuDBReader.get_node
  rw [hwire]
  simp only [Bind.bind, Except.bind, ok_or, SHAMapNode.from_wire_bytes_append]
  rfl

/-- What a list of nodes holds: the first node under each hash. -/
def nodes_store (nodes : List SHAMapNode) (h : Hash256) : Option SHAMapNode :=
  nodes.find? fun n => n.hash = h

/-- The calls that write the nodes. -/
def encode_calls (nodes : List SHAMapNode) : List (Hash256 × Bytes) :=
  nodes.map fun n => (n.hash, encode_wire_to_value n.content n.node_type)

/-- The files of the store written from `nodes`. -/
def written_files (xxh64 : Bytes → UInt64 → UInt64) (nodes : List SHAMapNode) : Bytes × Bytes :=
  (NuDbSink.create.write_nodes xxh64 (encode_calls nodes)).finish xxh64

/-- The reader of that store. -/
def written_reader (xxh64 : Bytes → UInt64 → UInt64) (nodes : List SHAMapNode) : NuDBReader :=
  { shards := [finished_shard (NuDbSink.create.write_nodes xxh64 (encode_calls nodes))
      (written_files xxh64 nodes).1 (written_files xxh64 nodes).2] }

theorem lookup_encode_calls (nodes : List SHAMapNode) (h : Hash256) :
    (encode_calls nodes).lookup h =
      (nodes_store nodes h).map fun n => encode_wire_to_value n.content n.node_type := by
  unfold encode_calls nodes_store
  induction nodes with
  | nil => rfl
  | cons n nodes ih =>
    rw [List.map_cons, List.lookup_cons, List.find?_cons, ih]
    by_cases hn : n.hash = h
    · simp [hn]
    · have hne : (h == n.hash) = false := beq_false_of_ne fun hc => hn hc.symm
      simp [hn, hne]

/-- A store written from nodes of the exported types holds them. -/
theorem written_reader_holds (xxh64 : Bytes → UInt64 → UInt64) (lz4 : Bytes → Nat → Option Bytes)
    (nodes : List SHAMapNode) (ht : ∀ n ∈ nodes, n.node_type.is_exported = true ∧
      (n.node_type = .Inner → n.content.length = 512))
    (hdat : (written_files xxh64 nodes).1.length < 2 ^ 48) :
    (written_reader xxh64 nodes).Holds xxh64 lz4 (nodes_store nodes) := by
  have hs : Stored xxh64 (NuDbSink.create.write_nodes xxh64 (encode_calls nodes))
      (encode_calls nodes) := stored_create.write_nodes _
  have hf := @finish_finished xxh64 _ (written_files xxh64 nodes).1 (written_files xxh64 nodes).2
    hs.offset_eq rfl
  intro h n hn
  have hfind : (nodes.find? fun n => n.hash = h) = some n := hn
  have hmem : n ∈ nodes := List.mem_of_find?_eq_some hfind
  have hhash := List.find?_some hfind
  rw [decide_eq_true_eq] at hhash
  subst hhash
  obtain ⟨fuel₀, hfetch⟩ := hs.fetch hf hdat n.hash
  refine ⟨fuel₀, fun fuel hfuel => ?_⟩
  refine get_node_of_fetch (ht n hmem).1 (ht n hmem).2 ?_
  rw [hfetch fuel hfuel, lookup_encode_calls, hn]
  rfl

/-- The store written by a sequence of `write_node` calls opens, returns
    for every hash the value of the first call that named it, and gives
    back every encoded node. -/
theorem written_store_round_trips (xxh64 : Bytes → UInt64 → UInt64)
    (lz4 : Bytes → Nat → Option Bytes) (calls : List (Hash256 × Bytes)) (dat key : Bytes)
    (hfin : (NuDbSink.create.write_nodes xxh64 calls).finish xxh64 = (dat, key))
    (hdat : dat.length < 2 ^ 48) (hkey : key.length < 2 ^ 48) :
    ∃ shard reader, Shard.open dat key = .ok shard ∧
      NuDBReader.open_single (dat, key) = .ok reader ∧
      (∀ h, ∃ fuel₀, ∀ fuel ≥ fuel₀, shard.fetch xxh64 fuel h = .ok (calls.lookup h)) ∧
      ∀ h content t, calls.lookup h = some (encode_wire_to_value content t) →
        t.is_exported = true → (t = .Inner → content.length = 512) →
        ∃ fuel₀, ∀ fuel ≥ fuel₀, reader.get_node xxh64 lz4 fuel h = .ok ⟨h, t, content⟩ := by
  have hs : Stored xxh64 (NuDbSink.create.write_nodes xxh64 calls) calls :=
    stored_create.write_nodes calls
  have hf := finish_finished hs.offset_eq hfin
  have hopen := hf.open_eq hkey
  have hfetch := hs.fetch hf hdat
  let shard := finished_shard (NuDbSink.create.write_nodes xxh64 calls) dat key
  refine ⟨shard, { shards := [shard] }, hopen, ?_, hfetch, ?_⟩
  · simp [shard, NuDBReader.open_single, NuDBReader.open, hopen, bail_if, Bind.bind, Except.bind,
      Pure.pure, Except.pure]
  · intro h content t hv ht hlen
    obtain ⟨fuel₀, hfetch⟩ := hfetch h
    refine ⟨fuel₀, fun fuel hfuel => get_node_of_fetch ht hlen ?_⟩
    rw [hfetch fuel hfuel, hv]

/-- Two hashes, one of them written twice. -/
def three_calls : List (Hash256 × Bytes) :=
  [(Hash256.ofBytes [1], encode_wire_to_value [7, 7] .AccountState),
    (Hash256.ofBytes [2], [5]), (Hash256.ofBytes [1], [9])]

theorem written_store_round_trips_three_calls :
    ∃ dat key, (NuDbSink.create.write_nodes Xxh64.digest three_calls).finish Xxh64.digest =
        (dat, key) ∧
      ∃ shard reader, Shard.open dat key = .ok shard ∧
        NuDBReader.open_single (dat, key) = .ok reader ∧
        (∀ h, ∃ fuel₀, ∀ fuel ≥ fuel₀,
          shard.fetch Xxh64.digest fuel h = .ok (three_calls.lookup h)) ∧
        ∀ h content t, three_calls.lookup h = some (encode_wire_to_value content t) →
          t.is_exported = true → (t = .Inner → content.length = 512) →
          ∃ fuel₀, ∀ fuel ≥ fuel₀,
            reader.get_node Xxh64.digest (fun _ _ => none) fuel h = .ok ⟨h, t, content⟩ :=
  ⟨_, _, rfl, written_store_round_trips Xxh64.digest _ three_calls _ _ rfl
    (by decide +kernel) (by decide +kernel)⟩

end LedgerArchive
