import LedgerArchive.Nudb.Writer
import Mathlib.Data.List.Forall2

/-! # Looking a key up

    What stands where in the two files of a store: each entry points at its
    record (`Records`), each bucket is followed by its chain of spill
    records (`Chain`), and appending to the data file moves nothing. A
    lookup walks the chain and finds the entry whose record carries the key
    (`fetch_loop_chain`). -/

namespace LedgerArchive

open Lib

/-! ## Records and chains -/

/-- The entry points at the record of `hv` in `dat`. -/
structure Records (xxh64 : Bytes → UInt64 → UInt64) (dat : Bytes) (e : PlacedEntry)
    (hv : Hash256 × Bytes) : Prop where
  nhash : e.nhash = nhash_of xxh64 SINK_SALT hv.1
  size : e.size = hv.2.length
  held : HasAt dat e.offset (toBE 6 hv.2.length ++ hv.1.bytes ++ hv.2)

/-- `entries` stand in the chain of spill records that starts at `spill`. -/
inductive Chain (dat : Bytes) : Nat → List PlacedEntry → Prop where
  | done : Chain dat 0 []
  | piece {spill next : Nat} {chunk rest : List PlacedEntry} (hne : spill ≠ 0)
      (hlen : chunk.length ≤ BUCKET_CAPACITY) (hat : HasAt dat spill (bucket_bytes chunk next))
      (hrest : Chain dat next rest) : Chain dat spill (chunk ++ rest)

variable {xxh64 : Bytes → UInt64 → UInt64} {dat : Bytes}

theorem Records.append {e : PlacedEntry} {hv : Hash256 × Bytes} (h : Records xxh64 dat e hv)
    (more : Bytes) : Records xxh64 (dat ++ more) e hv :=
  ⟨h.nhash, h.size, h.held.append more⟩

theorem Chain.append {spill : Nat} {entries : List PlacedEntry} (h : Chain dat spill entries)
    (more : Bytes) : Chain (dat ++ more) spill entries := by
  induction h with
  | done => exact .done
  | piece hne hlen hat _ ih => exact .piece hne hlen (hat.append more) ih

/-- An entry points at one record only. -/
theorem Records.unique {e : PlacedEntry} {h h' : Hash256} {v v' : Bytes}
    (hr : Records xxh64 dat e (h, v)) (hr' : Records xxh64 dat e (h', v')) : h = h' ∧ v = v' := by
  have hlen : v.length = v'.length := hr.size.symm.trans hr'.size
  have h1 := hr.held.readAt
  have h2 := hr'.held.readAt
  have hsame : (toBE 6 v.length ++ h.bytes ++ v).length =
      (toBE 6 v'.length ++ h'.bytes ++ v').length := by
    simp [h.length_eq, h'.length_eq, hlen]
  simp only at h1 h2
  rw [hsame, h2, Option.some.injEq] at h1
  obtain ⟨hhead, hv⟩ := List.append_inj h1.symm (by simp [h.length_eq, h'.length_eq])
  obtain ⟨-, hb⟩ := List.append_inj hhead (by simp)
  exact ⟨Hash256.bytes_inj hb, hv⟩

theorem bucket_bytes_length (entries : List PlacedEntry) (spill : Nat) :
    (bucket_bytes entries spill).length = BUCKET_HEADER + entries.length * ENTRY_SIZE := by
  unfold bucket_bytes
  have hentries : (entries.flatMap fun e =>
      toBE 6 e.offset ++ toBE 6 e.size ++ toBE 6 e.nhash).length = entries.length * ENTRY_SIZE := by
    induction entries with
    | nil => rfl
    | cons e entries ih =>
      rw [List.flatMap_cons, List.length_append, ih, List.length_cons, ENTRY_SIZE]
      simp only [List.length_append, toBE_length]
      omega
  rw [List.length_append, List.length_append, hentries]
  simp [BUCKET_HEADER]

/-- A chain starts inside the file. -/
theorem Chain.spill_lt {spill : Nat} {entries : List PlacedEntry} (h : Chain dat spill entries)
    (hdat : dat.length < 2 ^ 48) : spill < 2 ^ 48 := by
  cases h with
  | done => omega
  | piece _ _ hat _ =>
    have := hat.le_length
    rw [bucket_bytes_length] at this
    omega

/-! ## Reading a bucket -/

theorem slice_of_hasAt {block seg : Bytes} {off n : Nat} (h : HasAt block off seg)
    (hn : seg.length = n) : slice block off n = .ok seg := by
  unfold slice
  rw [← hn, h.readAt]
  rfl

theorem read_exact_at_of_hasAt {file seg : Bytes} {off n : Nat} (h : HasAt file off seg)
    (hn : seg.length = n) : read_exact_at file off n = .ok seg := by
  unfold read_exact_at
  rw [← hn, h.readAt]
  rfl

/-- The fields of entry `pre.length` of a bucket. -/
theorem bucket_entry_at {block : Bytes} {pre suf : List PlacedEntry} {e : PlacedEntry} {next : Nat}
    (hb : HasAt block 0 (bucket_bytes (pre ++ e :: suf) next)) :
    HasAt block (BUCKET_HEADER + pre.length * ENTRY_SIZE) (toBE 6 e.offset) ∧
      HasAt block (BUCKET_HEADER + pre.length * ENTRY_SIZE + 6) (toBE 6 e.size) ∧
      HasAt block (BUCKET_HEADER + pre.length * ENTRY_SIZE + 12) (toBE 6 e.nhash) := by
  have hsplit : bucket_bytes (pre ++ e :: suf) next =
      (toBE 2 (pre ++ e :: suf).length ++ toBE 6 next ++
        pre.flatMap fun e => toBE 6 e.offset ++ toBE 6 e.size ++ toBE 6 e.nhash) ++
      ((toBE 6 e.offset ++ toBE 6 e.size ++ toBE 6 e.nhash) ++
        suf.flatMap fun e => toBE 6 e.offset ++ toBE 6 e.size ++ toBE 6 e.nhash) := by
    unfold bucket_bytes
    simp
  have hlen : (toBE 2 (pre ++ e :: suf).length ++ toBE 6 next ++
      pre.flatMap fun e => toBE 6 e.offset ++ toBE 6 e.size ++ toBE 6 e.nhash).length =
      BUCKET_HEADER + pre.length * ENTRY_SIZE := by
    have := bucket_bytes_length pre next
    simpa [bucket_bytes] using this
  rw [hsplit] at hb
  have hentry := hb.back.front
  rw [hlen, Nat.zero_add] at hentry
  have hsize := hentry.front.back
  have hnhash := hentry.back
  simp only [toBE_length, List.length_append] at hsize hnhash
  exact ⟨hentry.front.front, hsize, hnhash⟩

/-- The outcome of looking for `key` in `entries`: the expected value when
    one of them records the key, nothing otherwise. -/
def Finds (xxh64 : Bytes → UInt64 → UInt64) (dat : Bytes) (key : Hash256)
    (entries : List PlacedEntry) (expected found : Option Bytes) : Prop :=
  (found = expected ∧ expected.isSome ∧ ∃ e ∈ entries, ∃ v, Records xxh64 dat e (key, v)) ∨
    (found = none ∧ ¬ ∃ e ∈ entries, ∃ v, Records xxh64 dat e (key, v))

/-- What the lookups below assume of a bucket's entries: each points at a
    record, and those of the key at the expected value. -/
structure Readable (xxh64 : Bytes → UInt64 → UInt64) (dat : Bytes) (key : Hash256)
    (entries : List PlacedEntry) (expected : Option Bytes) : Prop where
  records : ∀ e ∈ entries, ∃ hv, Records xxh64 dat e hv
  value : ∀ e ∈ entries, ∀ v, Records xxh64 dat e (key, v) → expected = some v

theorem Records.fields_lt {e : PlacedEntry} {hv : Hash256 × Bytes} (h : Records xxh64 dat e hv)
    (hdat : dat.length < 2 ^ 48) :
    e.offset < 256 ^ 6 ∧ e.size < 256 ^ 6 ∧ e.nhash < 256 ^ 6 := by
  have hle := h.held.le_length
  simp only [List.length_append, toBE_length, hv.1.length_eq] at hle
  have hpow : (256 : Nat) ^ 6 = 2 ^ 48 := by decide
  rw [hpow, h.size, h.nhash]
  refine ⟨by omega, by omega, ?_⟩
  unfold nhash_of
  rw [UInt64.toNat_shiftRight]
  have hlt := (xxh64 hv.1.bytes SINK_SALT).toNat_lt
  have h16 : (16 : UInt64).toNat % 64 = 16 := by decide
  rw [h16, Nat.shiftRight_eq_div_pow]
  omega

/-- Scanning the entries of a block. -/
theorem scan_entries_finds {s : Shard} {key : Hash256} {block : Bytes} {next : Nat}
    {expected : Option Bytes} (hsalt : s.salt = SINK_SALT) (hdat : s.dat.length < 2 ^ 48)
    {pre suf : List PlacedEntry} (hb : HasAt block 0 (bucket_bytes (pre ++ suf) next))
    (hr : Readable xxh64 s.dat key suf expected) :
    ∃ found, s.scan_entries key (nhash_of xxh64 s.salt key) block suf.length pre.length = .ok found ∧
      Finds xxh64 s.dat key suf expected found := by
  induction suf generalizing pre with
  | nil => exact ⟨none, rfl, .inr ⟨rfl, by simp⟩⟩
  | cons e suf ih =>
    obtain ⟨hoff, hsize, hnhash⟩ := bucket_entry_at hb
    obtain ⟨⟨h, v⟩, hrec⟩ := hr.records e List.mem_cons_self
    obtain ⟨hlo, hls, hln⟩ := hrec.fields_lt hdat
    -- The rest of the block, for an entry that is passed over.
    have hrest : ¬ (∃ v, Records xxh64 s.dat e (key, v)) →
        ∃ found, s.scan_entries key (nhash_of xxh64 s.salt key) block suf.length (pre.length + 1) =
          .ok found ∧ Finds xxh64 s.dat key (e :: suf) expected found := by
      intro hnot
      have hb' : HasAt block 0 (bucket_bytes ((pre ++ [e]) ++ suf) next) := by
        rw [List.append_assoc]
        exact hb
      have hr' : Readable xxh64 s.dat key suf expected :=
        ⟨fun e' he' => hr.records e' (List.mem_cons_of_mem _ he'),
          fun e' he' => hr.value e' (List.mem_cons_of_mem _ he')⟩
      obtain ⟨found, hscan, hfinds⟩ := ih hb' hr'
      rw [List.length_append, List.length_singleton] at hscan
      refine ⟨found, hscan, ?_⟩
      rcases hfinds with ⟨hf, hsome, e', he', hv⟩ | ⟨hf, hnone⟩
      · exact .inl ⟨hf, hsome, e', List.mem_cons_of_mem _ he', hv⟩
      · refine .inr ⟨hf, ?_⟩
        rintro ⟨e', he', hv⟩
        rcases List.mem_cons.mp he' with rfl | he'
        · exact hnot hv
        · exact hnone ⟨e', he', hv⟩
    rw [List.length_cons]
    unfold Shard.scan_entries
    simp only [slice_of_hasAt hnhash (toBE_length 6 _), slice_of_hasAt hoff (toBE_length 6 _),
      slice_of_hasAt hsize (toBE_length 6 _), Bind.bind, Except.bind, ofBE_toBE_of_lt hln,
      ofBE_toBE_of_lt hlo, ofBE_toBE_of_lt hls]
    by_cases hhash : e.nhash = nhash_of xxh64 s.salt key
    · rw [if_neg (not_not.mpr hhash)]
      have hhead : (toBE 6 v.length ++ h.bytes).length = REC_HEADER := by
        simp [h.length_eq, REC_HEADER]
      rw [read_exact_at_of_hasAt hrec.held.front hhead]
      have hkey : ((toBE 6 v.length ++ h.bytes).drop 6).take 32 = h.bytes := by
        rw [List.drop_left' (toBE_length 6 _), List.take_of_length_le (by rw [h.length_eq])]
      simp only [hkey]
      by_cases hk : h.bytes = key.bytes
      · rw [if_pos hk]
        have hhk : h = key := Hash256.bytes_inj hk
        subst hhk
        have hval := hrec.held.back
        rw [hhead] at hval
        rw [read_exact_at_of_hasAt hval hrec.size.symm]
        have hexp := hr.value e List.mem_cons_self v hrec
        refine ⟨some v, rfl, .inl ⟨hexp.symm, ?_, e, List.mem_cons_self, v, hrec⟩⟩
        rw [hexp]
        rfl
      · rw [if_neg hk]
        apply hrest
        rintro ⟨v', hrec'⟩
        exact hk (by rw [(hrec.unique hrec').1])
    · rw [if_pos hhash]
      apply hrest
      rintro ⟨v', hrec'⟩
      rw [hsalt] at hhash
      exact hhash hrec'.nhash

/-! ## Following a chain -/

/-- The header of a bucket. -/
theorem bucket_header_at {file : Bytes} {off : Nat} {entries : List PlacedEntry} {next : Nat}
    (hb : HasAt file off (bucket_bytes entries next)) :
    HasAt file off (toBE 2 entries.length) ∧ HasAt file (off + 2) (toBE 6 next) := by
  unfold bucket_bytes at hb
  have hspill := hb.front.back
  rw [toBE_length] at hspill
  exact ⟨hb.front.front, hspill⟩

theorem Finds.append_none {key : Hash256} {chunk rest : List PlacedEntry}
    {expected found : Option Bytes} (hc : Finds xxh64 dat key chunk expected none)
    (hr : Finds xxh64 dat key rest expected found) :
    Finds xxh64 dat key (chunk ++ rest) expected found := by
  have hnone : ¬ ∃ e ∈ chunk, ∃ v, Records xxh64 dat e (key, v) := by
    rcases hc with ⟨hf, hsome, _⟩ | ⟨_, hnot⟩
    · rw [← hf] at hsome
      cases hsome
    · exact hnot
  rcases hr with ⟨hf, hsome, e, he, hv⟩ | ⟨hf, hnot⟩
  · exact .inl ⟨hf, hsome, e, List.mem_append_right _ he, hv⟩
  · refine .inr ⟨hf, ?_⟩
    rintro ⟨e, he, hv⟩
    rcases List.mem_append.mp he with he | he
    · exact hnone ⟨e, he, hv⟩
    · exact hnot ⟨e, he, hv⟩

theorem Finds.append_some {key : Hash256} {chunk rest : List PlacedEntry}
    {expected : Option Bytes} {val : Bytes} (hc : Finds xxh64 dat key chunk expected (some val)) :
    Finds xxh64 dat key (chunk ++ rest) expected (some val) := by
  rcases hc with ⟨hf, hsome, e, he, hv⟩ | ⟨hf, _⟩
  · exact .inl ⟨hf, hsome, e, List.mem_append_left _ he, hv⟩
  · cases hf

theorem Readable.left {key : Hash256} {chunk rest : List PlacedEntry} {expected : Option Bytes}
    (h : Readable xxh64 dat key (chunk ++ rest) expected) :
    Readable xxh64 dat key chunk expected :=
  ⟨fun e he => h.records e (List.mem_append_left _ he),
    fun e he => h.value e (List.mem_append_left _ he)⟩

theorem Readable.right {key : Hash256} {chunk rest : List PlacedEntry} {expected : Option Bytes}
    (h : Readable xxh64 dat key (chunk ++ rest) expected) :
    Readable xxh64 dat key rest expected :=
  ⟨fun e he => h.records e (List.mem_append_right _ he),
    fun e he => h.value e (List.mem_append_right _ he)⟩

/-- One round of the loop: what the block holds for the key, or the next
    piece of the chain. -/
theorem fetch_loop_round {s : Shard} {key : Hash256} {spill : Nat} {chunk : List PlacedEntry}
    {block : Bytes} {expected : Option Bytes} (hsalt : s.salt = SINK_SALT)
    (hdat : s.dat.length < 2 ^ 48) (hlen : chunk.length ≤ BUCKET_CAPACITY)
    (hspill : spill < 2 ^ 48) (hb : HasAt block 0 (bucket_bytes chunk spill))
    (hr : Readable xxh64 s.dat key chunk expected) :
    ∃ found, Finds xxh64 s.dat key chunk expected found ∧ ∀ fuel,
      s.fetch_loop key (nhash_of xxh64 s.salt key) (fuel + 1) block =
        match found with
        | some val => .ok (some val)
        | none =>
          if spill = 0 then .ok none
          else (do
            let head ← read_exact_at s.dat spill BUCKET_HEADER
            let scount := ofBE (head.take 2)
            let body ← read_exact_at s.dat spill (BUCKET_HEADER + scount * ENTRY_SIZE)
            s.fetch_loop key (nhash_of xxh64 s.salt key) fuel body) := by
  obtain ⟨hcount, hnext⟩ := bucket_header_at hb
  have hb' : HasAt block 0 (bucket_bytes ([] ++ chunk) spill) := hb
  obtain ⟨found, hscan, hfinds⟩ := scan_entries_finds hsalt hdat hb' hr
  refine ⟨found, hfinds, fun fuel => ?_⟩
  have h227 : BUCKET_CAPACITY = 227 := by decide
  have hlt2 : chunk.length < 256 ^ 2 := by omega
  have hlt6 : spill < 256 ^ 6 := by omega
  rw [List.length_nil] at hscan
  rw [Shard.fetch_loop, slice_of_hasAt hcount (toBE_length 2 _),
    slice_of_hasAt hnext (toBE_length 6 _)]
  simp only [Bind.bind, Except.bind, ofBE_toBE_of_lt hlt2, ofBE_toBE_of_lt hlt6, hscan]
  rfl

/-- The next piece of a chain is read whole. -/
theorem read_spill {file : Bytes} {spill next : Nat} {chunk : List PlacedEntry}
    (hlen : chunk.length ≤ BUCKET_CAPACITY) (hat : HasAt file spill (bucket_bytes chunk next)) :
    ∃ head, read_exact_at file spill BUCKET_HEADER = .ok head ∧
      read_exact_at file spill (BUCKET_HEADER + ofBE (head.take 2) * ENTRY_SIZE) =
        .ok (bucket_bytes chunk next) := by
  have h227 : BUCKET_CAPACITY = 227 := by decide
  have hlt2 : chunk.length < 256 ^ 2 := by omega
  have hhead : HasAt file spill (toBE 2 chunk.length ++ toBE 6 next) := by
    unfold bucket_bytes at hat
    exact hat.front
  refine ⟨_, read_exact_at_of_hasAt hhead (by simp [BUCKET_HEADER]), ?_⟩
  rw [List.take_left' (toBE_length 2 _), ofBE_toBE_of_lt hlt2]
  exact read_exact_at_of_hasAt hat (bucket_bytes_length chunk next)

/-- A block followed by a chain: the lookup returns what is recorded for
    the key in the block or in the chain, given a round for each piece. -/
theorem fetch_loop_chain {s : Shard} {key : Hash256} {spill : Nat} {rest : List PlacedEntry}
    (hsalt : s.salt = SINK_SALT) (hdat : s.dat.length < 2 ^ 48) (hchain : Chain s.dat spill rest)
    {chunk : List PlacedEntry} {block : Bytes} {expected : Option Bytes}
    (hlen : chunk.length ≤ BUCKET_CAPACITY) (hb : HasAt block 0 (bucket_bytes chunk spill))
    (hr : Readable xxh64 s.dat key (chunk ++ rest) expected) :
    ∃ fuel₀ found, Finds xxh64 s.dat key (chunk ++ rest) expected found ∧ ∀ fuel ≥ fuel₀,
      s.fetch_loop key (nhash_of xxh64 s.salt key) fuel block = .ok found := by
  have hspill := hchain.spill_lt hdat
  induction hchain generalizing chunk block with
  | done =>
    obtain ⟨found, hfinds, hround⟩ := fetch_loop_round hsalt hdat hlen hspill hb hr.left
    rw [List.append_nil]
    refine ⟨1, found, hfinds, fun fuel hfuel => ?_⟩
    obtain ⟨fuel, rfl⟩ := Nat.exists_eq_add_of_le' hfuel
    rw [hround]
    cases found with
    | some val => rfl
    | none => rfl
  | @piece spill next chunk' rest hne hlen' hat hrest ih =>
    obtain ⟨found, hfinds, hround⟩ := fetch_loop_round hsalt hdat hlen hspill hb hr.left
    cases found with
    | some val =>
      refine ⟨1, some val, hfinds.append_some, fun fuel hfuel => ?_⟩
      obtain ⟨fuel, rfl⟩ := Nat.exists_eq_add_of_le' hfuel
      exact hround fuel
    | none =>
      -- The body of the next piece is a block of its own.
      have hbody : HasAt (bucket_bytes chunk' next) 0 (bucket_bytes chunk' next) :=
        ⟨[], [], by simp, rfl⟩
      obtain ⟨fuel₀, found, hfinds', hloop⟩ := ih hlen' hbody hr.right (hrest.spill_lt hdat)
      obtain ⟨head, hread, hwhole⟩ := read_spill hlen' hat
      refine ⟨fuel₀ + 1, found, hfinds.append_none hfinds', fun fuel hfuel => ?_⟩
      obtain ⟨fuel, rfl⟩ := Nat.exists_eq_add_of_le' (show 1 ≤ fuel by omega)
      rw [hround]
      simp only [hread, hwhole, Bind.bind, Except.bind, if_neg hne]
      exact hloop fuel (by omega)

end LedgerArchive
