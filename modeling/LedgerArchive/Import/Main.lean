import LedgerArchive.Import.Refinement
import LedgerArchive.Nudb.Writer

/-! # Importing chunk files (`xrla-import/src/main.rs`, `main`)

    One sink takes the nodes of all chunk files of an invocation, in order;
    a node that an earlier file has written is not written again. A v3 file
    is streamed, any other one is parsed first. -/

namespace LedgerArchive

open Lib

/-- The version byte, from the first five bytes of the file. -/
def detect_version (file : Bytes) : Except Error UInt8 := do
  let buf ← read_exact_at file 0 5
  pure (buf.getD 4 0)

section Import

variable {σ τ : Type} (S : NodeSink σ) (T : TxDb τ) (sha512half : Bytes → Hash256)

def import_chunk (fuel : Nat) (verify : Bool) (file : Bytes) (out : Outputs σ τ) :
    Except Error (ReplayResult × Outputs σ τ) := do
  let version ← detect_version file
  if version = FORMAT_VERSION_STREAMED then
    replay_chunk_streaming S T sha512half fuel file verify out
  else do
    let chunk ← from_chunk (deserialize_chunk sha512half file)
    replay_chunk S T sha512half fuel chunk verify out

/-- The chunk loop: the rows of all chunks, and the outputs. -/
def import_chunks (fuel : Nat) (verify : Bool) (files : List Bytes) (out : Outputs σ τ) :
    Except Error (List LedgerDbRow × Outputs σ τ) :=
  files.foldlM (fun (acc : List LedgerDbRow × Outputs σ τ) file => do
    let (replay, out) ← import_chunk S T sha512half fuel verify file acc.2
    pure (acc.1 ++ replay.ledger_rows, out)) ([], out)

end Import

/-- An import into a fresh store without a transaction database: the rows
    for `ledger.db`, and the `.dat` and `.key` files. -/
def import_main (xxh64 : Bytes → UInt64 → UInt64) (sha512half : Bytes → Hash256) (fuel : Nat)
    (verify : Bool) (files : List Bytes) : Except Error (List LedgerDbRow × Bytes × Bytes) := do
  let (rows, out) ← import_chunks (NuDbSink.node_sink xxh64) NoTxDb sha512half fuel verify files
    { sink := NuDbSink.create, txdb := none, calls := [] }
  pure (rows, out.sink.finish xxh64)

/-! ## The chunks of the files -/

/-- The chunk that a file holds: laid out as a v3 file is, or parsed. -/
def FileHolds (sha512half : Bytes → Hash256) (file : Bytes) (chunk : Chunk) : Prop :=
  if file[4]? = some FORMAT_VERSION_STREAMED then ∃ h body rest, Layout file h body rest chunk
  else deserialize_chunk sha512half file = .ok chunk

theorem FileHolds.unique {sha512half : Bytes → Hash256} {file : Bytes} {a b : Chunk}
    (ha : FileHolds sha512half file a) (hb : FileHolds sha512half file b) : a = b := by
  unfold FileHolds at ha hb
  by_cases hv : file[4]? = some FORMAT_VERSION_STREAMED
  · rw [if_pos hv] at ha hb
    obtain ⟨h, body, rest, hl⟩ := ha
    obtain ⟨h', body', rest', hl'⟩ := hb
    exact (hl.unique hl').2.2.2
  · rw [if_neg hv] at ha hb
    exact Except.ok.inj (ha.symm.trans hb)

theorem detect_version_ok {file : Bytes} {v : UInt8} (h : detect_version file = .ok v) :
    file[4]? = some v := by
  obtain ⟨buf, hread, hv⟩ := bind_eq_ok.mp h
  unfold read_exact_at at hread
  rw [ok_or_eq_ok] at hread
  unfold readAt at hread
  rw [pure_eq_ok] at hv
  split at hread
  · next hlen =>
    simp only [Option.some.injEq, List.drop_zero] at hread
    subst hread
    have h4 : 4 < file.length := by omega
    rw [List.getD_eq_getElem?_getD, List.getElem?_take_of_lt (by omega),
      List.getElem?_eq_getElem h4, Option.getD_some] at hv
    rw [List.getElem?_eq_getElem h4, hv]
  · cases hread

variable {σ τ : Type} {S : NodeSink σ} {T : TxDb τ} {sha512half : Bytes → Hash256}

/-- Importing a file replays the chunk it holds. -/
theorem import_chunk_ok {fuel : Nat} {verify : Bool} {file : Bytes} {out : Outputs σ τ}
    {res : ReplayResult × Outputs σ τ}
    (h : import_chunk S T sha512half fuel verify file out = .ok res) :
    ∃ chunk, FileHolds sha512half file chunk ∧ Replays S T sha512half verify out chunk res := by
  unfold import_chunk at h
  obtain ⟨v, hv, h⟩ := bind_eq_ok.mp h
  have hv4 := detect_version_ok hv
  by_cases h3 : v = FORMAT_VERSION_STREAMED
  · rw [if_pos h3] at h
    obtain ⟨header, body, rest, chunk, hl, _, _⟩ := replay_chunk_streaming_ok.mp h
    refine ⟨chunk, ?_, .streamed fuel file header body rest hl h⟩
    unfold FileHolds
    rw [if_pos (by rw [hv4, h3])]
    exact ⟨header, body, rest, hl⟩
  · rw [if_neg h3] at h
    obtain ⟨chunk, hparse, h⟩ := bind_eq_ok.mp h
    rw [from_chunk_eq_ok] at hparse
    refine ⟨chunk, ?_, .buffered fuel (deserialize_chunk_length hparse) h⟩
    unfold FileHolds
    rw [if_neg fun hc => h3 (Option.some.inj (hv4.symm.trans hc))]
    exact hparse

end LedgerArchive
