import LedgerArchive.Lib.Checked
import LedgerArchive.Common.Layouts
import LedgerArchive.Import.Main
import LedgerArchive.Index.Build

/-! # Damaged chunk headers

    The two ledger numbers of a header are not covered by the chunk hash.
    `deserialize_chunk` and `ChunkReader::open` subtract them, and three
    callers also add one. The functions below are those of the reader, the
    importer and the indexer with this arithmetic checked, as in a build
    with overflow checks; otherwise they are the same (`Agrees`).

    `header_safe_iff` says for which files none of them overflows. -/

namespace LedgerArchive

open Lib

/-! ## The functions with checked arithmetic -/

/-- `end_ledger - start_ledger + 1`. -/
def ledger_count (start_ledger end_ledger : UInt32) : Checked Error UInt32 := do
  let n ← checked_sub end_ledger start_ledger
  checked_add n 1

/-- `Chunk::ledger_count`. -/
def Chunk.ledger_count (chunk : Chunk) : Checked Error UInt32 :=
  LedgerArchive.ledger_count chunk.start_ledger chunk.end_ledger

section Checked

variable (sha512half : Bytes → Hash256)

def deserialize_chunk_checked (data : Bytes) : Checked Error Chunk := do
  let (magic, r) ← from_chunk ((read_exact 4).run data)
  bail_if (magic ≠ MAGIC_HEADER) (Error.chunk .invalid_magic)
  let (version, r) ← from_chunk (read_u8.run r)
  bail_if (version ≠ FORMAT_VERSION ∧ version ≠ FORMAT_VERSION_STREAMED)
    (Error.chunk (.unsupported_version version))
  let (h, r) ← from_chunk (read_header_fields.run r)
  let actual_hash := sha512half r
  bail_if (actual_hash ≠ h.stored_chunk_hash)
    (Error.chunk (.hash_mismatch (hex_encode h.stored_chunk_hash) (hex_encode actual_hash)))
  let (checkpoint, r) ← from_chunk (read_node_list.run r)
  let delta_count ← checked_sub h.end_ledger h.start_ledger
  let ((deltas, tx_maps), r) ← from_chunk ((read_deltas_tx_maps version delta_count.toNat).run r)
  let _ ← from_chunk (read_footer.run r)
  pure { network_id := h.network_id, start_ledger := h.start_ledger,
         end_ledger := h.end_ledger, checkpoint_hash := h.checkpoint_hash,
         chunk_hash := h.stored_chunk_hash, checkpoint, deltas, tx_maps }

def ChunkReader.open_checked (file : Bytes) : Checked Error ChunkReader := do
  let (magic, r) ← from_chunk ((read_exact 4).run file)
  bail_if (magic ≠ MAGIC_HEADER) (Error.chunk .invalid_magic)
  let (version, r) ← from_chunk (read_u8.run r)
  bail_if (version ≠ FORMAT_VERSION_STREAMED) (Error.bail
    s!"ChunkReader only streams format v3 chunks; this file is v{version.toNat} — use deserialize_chunk instead")
  let (h, r) ← from_chunk (read_header_fields.run r)
  let deltas_remaining ← checked_sub h.end_ledger h.start_ledger
  pure { inner := ⟨r, []⟩, header := h, deltas_remaining := deltas_remaining.toNat }

/-- `with_context`, which has no error to describe when there is an
    overflow. -/
def with_context_checked {α : Type} (text : String) (x : Checked Error α) : Checked Error α :=
  ExceptT.mk (x.run.map (with_context text))

/-- `build_index`: the header's arithmetic comes first, and the rest is
    left as it is. -/
def build_index_checked (exists_ force : Bool) (chunk_path out_path : String) (file : Bytes) :
    Checked Error (IndexFile × BuildReport) := do
  bail_if (exists_ = true ∧ force = false)
    (Error.bail s!"{out_path} already exists (use --force to replace it)")
  let reader ← with_context_checked s!"opening chunk {chunk_path}" (ChunkReader.open_checked file)
  let _total_ledgers ← ledger_count reader.header.start_ledger reader.header.end_ledger
  build_index sha512half exists_ force chunk_path out_path file

variable {σ τ : Type} (S : NodeSink σ) (T : TxDb τ)

/-- `replay_chunk_streaming`: the message with the number of ledgers comes
    first, and the rest is left as it is. -/
def replay_chunk_streaming_checked (fuel : Nat) (file : Bytes) (verify : Bool)
    (out : Outputs σ τ) : Checked Error (ReplayResult × Outputs σ τ) := do
  let reader ← ChunkReader.open_checked file
  let _count ← ledger_count reader.header.start_ledger reader.header.end_ledger
  replay_chunk_streaming S T sha512half fuel file verify out

/-- One chunk file of an import. A v2 file is parsed, and the number of its
    ledgers is printed before it is replayed. -/
def import_chunk_checked (fuel : Nat) (verify : Bool) (file : Bytes) (out : Outputs σ τ) :
    Checked Error (ReplayResult × Outputs σ τ) := do
  let version ← detect_version file
  if version = FORMAT_VERSION_STREAMED then
    replay_chunk_streaming_checked sha512half S T fuel file verify out
  else do
    let chunk ← deserialize_chunk_checked sha512half file
    let _count ← chunk.ledger_count
    replay_chunk S T sha512half fuel chunk verify out

end Checked

/-! ## Where they do not overflow they are the same -/

section Agreement

open Checked

variable {sha512half : Bytes → Hash256}

theorem from_chunk_bind {α β : Type} (x : Except ChunkError α) (f : α → Except ChunkError β) :
    from_chunk (x >>= f) = from_chunk x >>= fun a => from_chunk (f a) := by
  cases x <;> rfl

theorem from_chunk_bail_if (p : Prop) [Decidable p] (e : ChunkError) :
    from_chunk (bail_if p e) = bail_if p (.chunk e) := by
  unfold bail_if
  split <;> rfl

theorem open_agrees (file : Bytes) :
    Agrees (ChunkReader.open_checked file) (ChunkReader.open file) := by
  unfold ChunkReader.open_checked ChunkReader.open
  refine .lift_bind fun _ _ => .lift_bind fun _ _ => .lift_bind fun _ _ => .lift_bind fun _ _ =>
    .lift_bind fun p _ => ?_
  exact .sub_bind fun _ => agrees_pure _

/-- The body of a file, read part by part. -/
theorem from_chunk_read_body (version : UInt8) (h : ChunkHeader) (r : Bytes) :
    from_chunk ((read_body version h).run r) = (do
      let (checkpoint, r) ← from_chunk (read_node_list.run r)
      let ((deltas, tx_maps), r) ← from_chunk ((read_deltas_tx_maps version h.delta_count).run r)
      let (_, r) ← from_chunk (read_footer.run r)
      pure ({ network_id := h.network_id, start_ledger := h.start_ledger,
              end_ledger := h.end_ledger, checkpoint_hash := h.checkpoint_hash,
              chunk_hash := h.stored_chunk_hash, checkpoint, deltas, tx_maps }, r)) := by
  unfold read_body
  rw [Get.run_bind]
  cases read_node_list.run r with
  | error e => rfl
  | ok p =>
    show from_chunk (Get.run _ p.2) = _
    rw [Get.run_bind]
    cases hd : (read_deltas_tx_maps version h.delta_count).run p.2 with
    | error e => simp [from_chunk, Except.bind, Bind.bind, hd]
    | ok q =>
      show from_chunk (Get.run _ q.2) = _
      rw [Get.run_bind]
      cases hf : read_footer.run q.2 with
      | error e => simp [from_chunk, Except.bind, Bind.bind, hd, hf]
      | ok u => simp [from_chunk, Except.bind, Bind.bind, Pure.pure, Except.pure, hd, hf]

theorem deserialize_chunk_agrees (data : Bytes) :
    Agrees (deserialize_chunk_checked sha512half data)
      (from_chunk (deserialize_chunk sha512half data)) := by
  unfold deserialize_chunk_checked deserialize_chunk
  simp only [from_chunk_bind, from_chunk_bail_if]
  refine .lift_bind fun _ _ => .lift_bind fun _ _ => .lift_bind fun v _ => .lift_bind fun _ _ =>
    .lift_bind fun p _ => .lift_bind fun _ _ => ?_
  rw [from_chunk_read_body]
  simp only [bind_assoc]
  refine .lift_bind fun _ _ => .sub_bind fun _ => ?_
  exact .lift_bind fun _ _ => .lift_bind fun _ _ => agrees_pure _

/-- Counting the ledgers in passing. -/
theorem count_bind_agrees {α : Type} (start_ledger end_ledger : UInt32) (y : Except Error α) :
    Agrees (ledger_count start_ledger end_ledger >>= fun _ => (liftM y : Checked Error α)) y := by
  unfold ledger_count
  simp only [bind_assoc]
  exact .sub_bind fun _ => .add_bind (agrees_lift y)

theorem with_context_agrees {α : Type} (text : String) {x : Checked Error α} {y : Except Error α}
    (h : Agrees x y) : Agrees (with_context_checked text x) (with_context text y) := by
  unfold Agrees Overflows with_context_checked at *
  rcases h with h | h
  · simp [h]
  · simp [h]

theorem build_index_agrees (exists_ force : Bool) (chunk_path out_path : String) (file : Bytes) :
    Agrees (build_index_checked sha512half exists_ force chunk_path out_path file)
      (build_index sha512half exists_ force chunk_path out_path file) := by
  unfold build_index_checked
  generalize hy : build_index sha512half exists_ force chunk_path out_path file = y
  unfold build_index at hy
  subst hy
  refine (agrees_lift _).first fun _ hfree => ?_
  rw [bind_of_ok hfree]
  exact (with_context_agrees _ (open_agrees file)).first fun c _ => count_bind_agrees _ _ _

variable {σ τ : Type} (S : NodeSink σ) (T : TxDb τ)

theorem replay_chunk_streaming_agrees (fuel : Nat) (file : Bytes) (verify : Bool)
    (out : Outputs σ τ) :
    Agrees (replay_chunk_streaming_checked sha512half S T fuel file verify out)
      (replay_chunk_streaming S T sha512half fuel file verify out) := by
  unfold replay_chunk_streaming_checked
  generalize hy : replay_chunk_streaming S T sha512half fuel file verify out = y
  unfold replay_chunk_streaming at hy
  subst hy
  exact (open_agrees file).first fun c _ => count_bind_agrees _ _ _

theorem import_chunk_agrees (fuel : Nat) (verify : Bool) (file : Bytes) (out : Outputs σ τ) :
    Agrees (import_chunk_checked sha512half S T fuel verify file out)
      (import_chunk S T sha512half fuel verify file out) := by
  unfold import_chunk_checked import_chunk
  refine .lift_bind fun version _ => ?_
  split
  · exact replay_chunk_streaming_agrees S T fuel file verify out
  · exact (deserialize_chunk_agrees file).bind fun chunk _ => count_bind_agrees _ _ _

end Agreement

/-! ## Where they overflow -/

section Overflows

open Checked

variable {sha512half : Bytes → Hash256}

/-- The file starts with a header: the magic, the version and the fields. -/
def HeaderAt (file : Bytes) (version : UInt8) (h : ChunkHeader) (body : Bytes) : Prop :=
  ∃ fields, file = MAGIC_HEADER ++ [version] ++ fields ++ body ∧ read_header_fields.Reads fields h

/-- The header as the readers read it: the magic, the version byte, the
    fields. -/
theorem header_at_iff {file : Bytes} {version : UInt8} {h : ChunkHeader} {body : Bytes} :
    HeaderAt file version h body ↔ ∃ r r', (read_exact 4).run file = .ok (MAGIC_HEADER, r) ∧
      read_u8.run r = .ok (version, r') ∧ read_header_fields.run r' = .ok (h, body) := by
  unfold HeaderAt
  simp only [Get.run_eq_ok_iff, read_exact_reads, read_u8_reads]
  constructor
  · intro hat
    obtain ⟨fields, hfile, hreads⟩ := hat
    refine ⟨[version] ++ fields ++ body, fields ++ body, ⟨MAGIC_HEADER, ?_, rfl, rfl⟩,
      ⟨[version], ?_, rfl⟩, fields, rfl, hreads⟩
    · rw [hfile]
      simp
    · simp
  · intro hruns
    obtain ⟨r, r', ⟨u, hfile, hu, -⟩, ⟨u', hr, hu'⟩, fields, hr', hreads⟩ := hruns
    refine ⟨fields, ?_, hreads⟩
    rw [hfile, hu, hr, hu', hr']
    simp

theorem open_overflows_iff {file : Bytes} : (ChunkReader.open_checked file).Overflows ↔
    ∃ h body, HeaderAt file FORMAT_VERSION_STREAMED h body ∧ h.end_ledger < h.start_ledger := by
  unfold ChunkReader.open_checked
  simp only [overflows_lift_bind, overflows_sub_bind, not_overflows_pure, and_false, or_false,
    bail_if_eq_ok, from_chunk_eq_ok, Prod.exists, not_not, header_at_iff, UInt32.not_le]
  constructor
  · intro hover
    obtain ⟨_, r, hmagic, _, rfl, _, r', hversion, _, rfl, h, body, hfields, hlt⟩ := hover
    exact ⟨h, body, ⟨r, r', hmagic, hversion, hfields⟩, hlt⟩
  · intro hat
    obtain ⟨h, body, ⟨r, r', hmagic, hversion, hfields⟩, hlt⟩ := hat
    exact ⟨_, r, hmagic, (), rfl, _, r', hversion, (), rfl, h, body, hfields, hlt⟩

theorem deserialize_overflows_iff {data : Bytes} :
    (deserialize_chunk_checked sha512half data).Overflows ↔
      ∃ version h body, (version = FORMAT_VERSION ∨ version = FORMAT_VERSION_STREAMED) ∧
        HeaderAt data version h body ∧ sha512half body = h.stored_chunk_hash ∧
        (∃ nodes, read_node_list.run body = .ok nodes) ∧ h.end_ledger < h.start_ledger := by
  unfold deserialize_chunk_checked
  simp only [overflows_lift_bind, overflows_sub_bind, not_overflows_pure, and_false, exists_false,
    or_false, bail_if_eq_ok, from_chunk_eq_ok, Prod.exists, not_not, header_at_iff, not_and_or,
    UInt32.not_le]
  constructor
  · intro hover
    obtain ⟨_, r, hmagic, _, rfl, version, r', hread, _, hversion, h, body, hfields, _, hhash, nodes,
      rest, hnodes, hlt⟩ := hover
    exact ⟨version, h, body, hversion, ⟨r, r', hmagic, hread, hfields⟩, hhash, ⟨nodes, rest, hnodes⟩,
      hlt⟩
  · intro hat
    obtain ⟨version, h, body, hversion, ⟨r, r', hmagic, hread, hfields⟩, hhash, ⟨nodes, rest, hnodes⟩,
      hlt⟩ := hat
    exact ⟨_, r, hmagic, (), rfl, version, r', hread, (), hversion, h, body, hfields, (), hhash, nodes,
      rest, hnodes, hlt⟩

/-- The numbers are the wrong way round, or they span all of `u32`. -/
theorem ledger_count_overflows_iff {start_ledger end_ledger : UInt32} :
    (ledger_count start_ledger end_ledger).Overflows ↔
      end_ledger < start_ledger ∨ (start_ledger = 0 ∧ end_ledger = 0xFFFFFFFF) := by
  unfold ledger_count
  rw [overflows_sub_bind, overflows_add, UInt32.not_le]
  apply or_congr_right
  constructor
  · intro hover
    obtain ⟨hle, hbig⟩ := hover
    rw [UInt32.toNat_sub_of_le _ _ hle] at hbig
    have hend := end_ledger.toNat_lt
    have hone : (1 : UInt32).toNat = 1 := rfl
    -- Only the difference between 0 and the largest number has no successor.
    constructor
    · apply UInt32.toNat.inj
      show _ = 0
      omega
    · apply UInt32.toNat.inj
      show _ = 4294967295
      omega
  · intro hall
    obtain ⟨rfl, rfl⟩ := hall
    exact ⟨by decide, by decide⟩

/-- A file has one header. -/
theorem HeaderAt.unique {file : Bytes} {version version' : UInt8} {h h' : ChunkHeader}
    {body body' : Bytes} (hat : HeaderAt file version h body)
    (hat' : HeaderAt file version' h' body') : version = version' ∧ h = h' ∧ body = body' := by
  obtain ⟨r, r₁, hmagic, hversion, hfields⟩ := header_at_iff.mp hat
  obtain ⟨s, s₁, hmagic', hversion', hfields'⟩ := header_at_iff.mp hat'
  rw [hmagic, Except.ok.injEq, Prod.mk.injEq] at hmagic'
  obtain ⟨-, rfl⟩ := hmagic'
  rw [hversion, Except.ok.injEq, Prod.mk.injEq] at hversion'
  obtain ⟨rfl, rfl⟩ := hversion'
  rw [hfields, Except.ok.injEq, Prod.mk.injEq] at hfields'
  obtain ⟨rfl, rfl⟩ := hfields'
  exact ⟨rfl, rfl, rfl⟩

theorem open_header {file : Bytes} {c : ChunkReader} (h : ChunkReader.open file = .ok c) :
    ∃ body, HeaderAt file FORMAT_VERSION_STREAMED c.header body := by
  obtain ⟨fields, header, body, hfile, hreads, rfl⟩ := ChunkReader.open_ok.mp h
  exact ⟨body, fields, hfile, hreads⟩

theorem HeaderAt.open {file : Bytes} {h : ChunkHeader} {body : Bytes}
    (hat : HeaderAt file FORMAT_VERSION_STREAMED h body) :
    ∃ c, ChunkReader.open file = .ok c ∧ c.header = h := by
  obtain ⟨fields, hfile, hreads⟩ := hat
  exact ⟨_, ChunkReader.open_ok.mpr ⟨fields, h, body, hfile, hreads, rfl⟩, rfl⟩

/-- Behind `ChunkReader::open` two callers count the ledgers. -/
theorem open_count_overflows_iff {α : Type} {file : Bytes} {f : ChunkReader → Except Error α} :
    (do let reader ← ChunkReader.open_checked file
        let _ ← ledger_count reader.header.start_ledger reader.header.end_ledger
        liftM (f reader) : Checked Error α).Overflows ↔
      ∃ h body, HeaderAt file FORMAT_VERSION_STREAMED h body ∧
        (ledger_count h.start_ledger h.end_ledger).Overflows := by
  simp only [overflows_bind, not_overflows_lift, and_false, exists_false, or_false]
  constructor
  · intro hover
    rcases hover with hopen | ⟨c, hc, hcount⟩
    · obtain ⟨h, body, hat, hlt⟩ := open_overflows_iff.mp hopen
      exact ⟨h, body, hat, ledger_count_overflows_iff.mpr (.inl hlt)⟩
    · obtain ⟨body, hat⟩ := open_header ((open_agrees file).run_eq_some.mp hc).2
      exact ⟨c.header, body, hat, hcount⟩
  · intro hbad
    obtain ⟨h, body, hat, hcount⟩ := hbad
    by_cases hopen : (ChunkReader.open_checked file).Overflows
    · exact .inl hopen
    · obtain ⟨c, hc, rfl⟩ := hat.open
      exact .inr ⟨c, (open_agrees file).run_eq_some.mpr ⟨hopen, hc⟩, hcount⟩

/-- A text changes nothing for what comes behind it. -/
theorem overflows_with_context_bind {α β : Type} {text : String} {x : Checked Error α}
    {f : α → Checked Error β} :
    (with_context_checked text x >>= f).Overflows ↔ (x >>= f).Overflows := by
  rw [overflows_bind, overflows_bind]
  unfold Overflows with_context_checked
  simp

theorem build_index_overflows_iff {exists_ force : Bool} {chunk_path out_path : String} {file : Bytes} :
    (build_index_checked sha512half exists_ force chunk_path out_path file).Overflows ↔
      ¬ (exists_ = true ∧ force = false) ∧ ∃ h body, HeaderAt file FORMAT_VERSION_STREAMED h body ∧
        (ledger_count h.start_ledger h.end_ledger).Overflows := by
  unfold build_index_checked
  rw [overflows_lift_bind, overflows_with_context_bind, open_count_overflows_iff]
  simp only [bail_if_eq_ok, exists_const]

variable {σ τ : Type} {S : NodeSink σ} {T : TxDb τ}

theorem replay_chunk_streaming_overflows_iff {fuel : Nat} {file : Bytes} {verify : Bool}
    {out : Outputs σ τ} :
    (replay_chunk_streaming_checked sha512half S T fuel file verify out).Overflows ↔
      ∃ h body, HeaderAt file FORMAT_VERSION_STREAMED h body ∧
        (ledger_count h.start_ledger h.end_ledger).Overflows :=
  open_count_overflows_iff

/-- The version byte is that of the header. -/
theorem HeaderAt.detect_version {file : Bytes} {version : UInt8} {h : ChunkHeader} {body : Bytes}
    (hat : HeaderAt file version h body) : LedgerArchive.detect_version file = .ok version := by
  obtain ⟨fields, rfl, -⟩ := hat
  have hread : readAt (MAGIC_HEADER ++ [version] ++ fields ++ body) 0 5 =
      some (MAGIC_HEADER ++ [version]) := by
    unfold readAt
    rw [if_pos (by simp [MAGIC_HEADER]), List.drop_zero, List.append_assoc]
    exact congrArg some (List.take_left' (by simp [MAGIC_HEADER]))
  unfold LedgerArchive.detect_version read_exact_at
  rw [hread]
  rfl

/-- A file that parses: its hash is right and its body can be read. -/
theorem deserialize_chunk_ok_iff {data : Bytes} {chunk : Chunk} :
    deserialize_chunk sha512half data = .ok chunk ↔
      ∃ version h body, (version = FORMAT_VERSION ∨ version = FORMAT_VERSION_STREAMED) ∧
        HeaderAt data version h body ∧ sha512half body = h.stored_chunk_hash ∧
        ∃ rest, (read_body version h).run body = .ok (chunk, rest) := by
  unfold deserialize_chunk
  simp only [bind_eq_ok, bail_if_eq_ok, pure_eq_ok, Prod.exists, not_not, header_at_iff, not_and_or]
  constructor
  · intro hok
    obtain ⟨_, r, hmagic, _, rfl, version, r', hread, _, hversion, h, body, hfields, _, hhash, _,
      rest, hbody, rfl⟩ := hok
    exact ⟨version, h, body, hversion, ⟨r, r', hmagic, hread, hfields⟩, hhash, rest, hbody⟩
  · intro hparts
    obtain ⟨version, h, body, hversion, ⟨r, r', hmagic, hread, hfields⟩, hhash, rest, hbody⟩ := hparts
    exact ⟨_, r, hmagic, (), rfl, version, r', hread, (), hversion, h, body, hfields, (), hhash, _,
      rest, hbody, rfl⟩

/-- The chunk has the ledger numbers of its header. -/
theorem read_body_ledgers {version : UInt8} {h : ChunkHeader} {body rest : Bytes} {chunk : Chunk}
    (hread : (read_body version h).run body = .ok (chunk, rest)) :
    chunk.start_ledger = h.start_ledger ∧ chunk.end_ledger = h.end_ledger := by
  obtain ⟨used, -, hreads⟩ := Get.run_eq_ok_iff.mp hread
  unfold read_body at hreads
  obtain ⟨nodes, _, _, -, -, hreads⟩ := Get.reads_bind.mp hreads
  obtain ⟨_, _, _, -, -, hreads⟩ := Get.reads_bind.mp hreads
  obtain ⟨_, _, _, -, -, hreads⟩ := Get.reads_bind.mp hreads
  obtain ⟨rfl, -⟩ := Get.reads_pure.mp hreads
  exact ⟨rfl, rfl⟩

/-- Of a file that another build parses, the number of ledgers is asked
    for. -/
theorem parsed_count_overflows_iff {α : Type} {data : Bytes} {f : Chunk → Except Error α} :
    (do let chunk ← deserialize_chunk_checked sha512half data
        let _ ← chunk.ledger_count
        liftM (f chunk) : Checked Error α).Overflows ↔
      (deserialize_chunk_checked sha512half data).Overflows ∨
        ∃ chunk, deserialize_chunk sha512half data = .ok chunk ∧
          (LedgerArchive.ledger_count chunk.start_ledger chunk.end_ledger).Overflows := by
  simp only [overflows_bind, not_overflows_lift, and_false, exists_false, or_false]
  constructor
  · intro hover
    rcases hover with hparse | ⟨chunk, hchunk, hcount⟩
    · exact .inl hparse
    · have hok := ((deserialize_chunk_agrees data).run_eq_some.mp hchunk).2
      exact .inr ⟨chunk, from_chunk_eq_ok.mp hok, hcount⟩
  · intro hbad
    by_cases hparse : (deserialize_chunk_checked sha512half data).Overflows
    · exact .inl hparse
    · rcases hbad with hbad | ⟨chunk, hok, hcount⟩
      · exact .inl hbad
      · have hrun := (deserialize_chunk_agrees data).run_eq_some.mpr
          ⟨hparse, from_chunk_eq_ok.mpr hok⟩
        exact .inr ⟨chunk, hrun, hcount⟩

/-! ## The headers without overflow -/

/-- The numbers are in order, and their span can be counted in `u32`. -/
def ChunkHeader.Countable (h : ChunkHeader) : Prop :=
  h.start_ledger ≤ h.end_ledger ∧ ¬ (h.start_ledger = 0 ∧ h.end_ledger = 0xFFFFFFFF)

/-- A v3 header is used as it is. The numbers of a v2 header are used once
    the chunk hash is right: the smaller is subtracted behind the
    checkpoint, and the ledgers are counted behind the footer. -/
structure HeaderCountable (sha512half : Bytes → Hash256) (file : Bytes) : Prop where
  streamed : ∀ h body, HeaderAt file FORMAT_VERSION_STREAMED h body → h.Countable
  checkpoint : ∀ h body, HeaderAt file FORMAT_VERSION h body →
    sha512half body = h.stored_chunk_hash → (∃ p, read_node_list.run body = .ok p) →
    h.start_ledger ≤ h.end_ledger
  parsed : ∀ h body, HeaderAt file FORMAT_VERSION h body →
    sha512half body = h.stored_chunk_hash → (∃ p, (read_body FORMAT_VERSION h).run body = .ok p) →
    h.Countable

/-- None of the readers of the file overflows. -/
structure HeaderSafe (sha512half : Bytes → Hash256) (file : Bytes) : Prop where
  deserialize : ¬ (deserialize_chunk_checked sha512half file).Overflows
  «open» : ¬ (ChunkReader.open_checked file).Overflows
  build : ∀ exists_ force chunk_path out_path,
    ¬ (build_index_checked sha512half exists_ force chunk_path out_path file).Overflows
  replay : ∀ {σ τ : Type} (S : NodeSink σ) (T : TxDb τ) fuel verify out,
    ¬ (replay_chunk_streaming_checked sha512half S T fuel file verify out).Overflows
  «import» : ∀ {σ τ : Type} (S : NodeSink σ) (T : TxDb τ) fuel verify out,
    ¬ (import_chunk_checked sha512half S T fuel verify file out).Overflows

theorem countable_iff {h : ChunkHeader} :
    h.Countable ↔ ¬ (ledger_count h.start_ledger h.end_ledger).Overflows := by
  unfold ChunkHeader.Countable
  rw [ledger_count_overflows_iff, not_or, UInt32.not_lt]

theorem versions_distinct : FORMAT_VERSION ≠ FORMAT_VERSION_STREAMED := by decide

/-- A v2 file whose header is in order is parsed and counted. -/
theorem HeaderCountable.parsed_count {file : Bytes} (hc : HeaderCountable sha512half file)
    {chunk : Chunk} (hok : deserialize_chunk sha512half file = .ok chunk) :
    ¬ (ledger_count chunk.start_ledger chunk.end_ledger).Overflows := by
  obtain ⟨version, h, body, hversion, hat, hhash, rest, hbody⟩ := deserialize_chunk_ok_iff.mp hok
  obtain ⟨hstart, hend⟩ := read_body_ledgers hbody
  rw [hstart, hend, ← countable_iff]
  rcases hversion with rfl | rfl
  · exact hc.parsed h body hat hhash ⟨_, hbody⟩
  · exact hc.streamed h body hat

theorem HeaderCountable.deserialize {file : Bytes} (hc : HeaderCountable sha512half file) :
    ¬ (deserialize_chunk_checked sha512half file).Overflows := by
  rw [deserialize_overflows_iff]
  intro hover
  obtain ⟨version, h, body, hversion, hat, hhash, hnodes, hlt⟩ := hover
  rcases hversion with rfl | rfl
  · exact UInt32.not_lt.mpr (hc.checkpoint h body hat hhash hnodes) hlt
  · exact UInt32.not_lt.mpr (hc.streamed h body hat).1 hlt

/-- No header that `ChunkReader::open` accepts is counted wrongly. -/
theorem HeaderCountable.count {file : Bytes} (hc : HeaderCountable sha512half file) :
    ¬ ∃ h body, HeaderAt file FORMAT_VERSION_STREAMED h body ∧
      (ledger_count h.start_ledger h.end_ledger).Overflows := by
  intro hover
  obtain ⟨h, body, hat, hcount⟩ := hover
  exact countable_iff.mp (hc.streamed h body hat) hcount

theorem HeaderCountable.safe {file : Bytes} (hc : HeaderCountable sha512half file) :
    HeaderSafe sha512half file where
  deserialize := hc.deserialize
  «open» := by
    rw [open_overflows_iff]
    intro hover
    obtain ⟨h, body, hat, hlt⟩ := hover
    exact UInt32.not_lt.mpr (hc.streamed h body hat).1 hlt
  build exists_ force chunk_path out_path := by
    rw [build_index_overflows_iff]
    exact fun hover => hc.count hover.2
  replay S T fuel verify out := by
    rw [replay_chunk_streaming_overflows_iff]
    exact hc.count
  «import» S T fuel verify out := by
    unfold import_chunk_checked
    rw [overflows_lift_bind]
    intro hover
    obtain ⟨version, -, hover⟩ := hover
    -- A streamed file is replayed as it is read. One of v2 is parsed whole
    -- and counted from the parsed header.
    split at hover
    · exact hc.count (replay_chunk_streaming_overflows_iff.mp hover)
    · rcases parsed_count_overflows_iff.mp hover with hparse | ⟨chunk, hok, hcount⟩
      · exact hc.deserialize hparse
      · exact hc.parsed_count hok hcount

theorem HeaderSafe.countable {file : Bytes} (hs : HeaderSafe sha512half file) :
    HeaderCountable sha512half file where
  streamed h body hat := by
    have hbuild := hs.build false false "" ""
    rw [build_index_overflows_iff] at hbuild
    rw [countable_iff]
    intro hcount
    exact hbuild ⟨by simp, h, body, hat, hcount⟩
  checkpoint h body hat hhash hnodes := by
    have hparse := hs.deserialize
    rw [deserialize_overflows_iff] at hparse
    apply UInt32.not_lt.mp
    intro hlt
    exact hparse ⟨_, h, body, .inl rfl, hat, hhash, hnodes, hlt⟩
  parsed h body hat hhash hbody := by
    obtain ⟨⟨chunk, rest⟩, hbody⟩ := hbody
    -- Any outputs do: the null sink, and no transaction database.
    have himport := hs.import NullSink NoTxDb 0 false ⟨(), none, []⟩
    unfold import_chunk_checked at himport
    rw [overflows_lift_bind] at himport
    rw [countable_iff]
    intro hcount
    apply himport
    refine ⟨_, hat.detect_version, ?_⟩
    rw [if_neg versions_distinct]
    obtain ⟨hstart, hend⟩ := read_body_ledgers hbody
    refine parsed_count_overflows_iff.mpr (.inr ⟨chunk, ?_, ?_⟩)
    · exact deserialize_chunk_ok_iff.mpr ⟨_, h, body, .inl rfl, hat, hhash, rest, hbody⟩
    · rw [hstart, hend]
      exact hcount

/-- The readers of a file stay within `u32` exactly when the ledger numbers
    of its header are in order and can be counted. -/
theorem header_safe_iff (sha512half : Bytes → Hash256) (file : Bytes) :
    HeaderSafe sha512half file ↔ HeaderCountable sha512half file := by
  constructor
  · intro hs
    exact hs.countable
  · intro hc
    exact hc.safe

/-- A header whose numbers are the wrong way round, with nothing behind
    it. -/
def swapped_header : Bytes :=
  ChunkHeader.bytes FORMAT_VERSION_STREAMED ⟨0, 1, 0, ZERO_HASH, ZERO_HASH⟩

theorem swapped_header_overflows : ¬ HeaderSafe sha2_sha512half swapped_header := by
  intro hs
  have hopen : (ChunkReader.open_checked swapped_header).Overflows := by decide +kernel
  exact hs.open hopen

end Overflows

end LedgerArchive
