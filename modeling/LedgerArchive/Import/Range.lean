import LedgerArchive.Common.Layouts
import LedgerArchive.Import.Checkpoint

/-! # The ledgers a verified chunk covers

    Replay compares the sequence number of each TX map with that of its
    delta. It compares nothing with the header: the header is outside the
    chunk hash, and the first ledger's number and hash are taken as given.
    A verified chunk covers the range its header names exactly when the
    header and the deltas agree with that range (`covers_range_iff`). -/

namespace LedgerArchive

open Lib

/-- The TX maps number the ledgers from `start_ledger` to `end_ledger` one
    by one, and the header names the first one's hash. -/
structure CoversRange (chunk : Chunk) : Prop where
  first : ∀ m, chunk.tx_maps[0]? = some m → m.ledger_seq = chunk.start_ledger
  next : ∀ i m m', chunk.tx_maps[i]? = some m → chunk.tx_maps[i + 1]? = some m' →
    m'.ledger_seq = m.ledger_seq + 1
  last : ∀ m, chunk.tx_maps.getLast? = some m → m.ledger_seq = chunk.end_ledger
  checkpoint_hash : ∀ m, chunk.tx_maps[0]? = some m → chunk.checkpoint_hash = m.ledger_hash

/-- What replay does not compare: the header with the first TX map, the
    deltas' sequence numbers with the header's range, and the range with the
    number of deltas. The last one holds of every chunk a reader returns. -/
structure HeaderAgrees (chunk : Chunk) : Prop where
  start_ledger : ∀ m, chunk.tx_maps[0]? = some m → m.ledger_seq = chunk.start_ledger
  checkpoint_hash : ∀ m, chunk.tx_maps[0]? = some m → chunk.checkpoint_hash = m.ledger_hash
  deltas : ∀ i d, chunk.deltas[i]? = some d →
    d.ledger_seq = chunk.start_ledger + UInt32.ofNat (i + 1)
  count : chunk.end_ledger = chunk.start_ledger + UInt32.ofNat chunk.deltas.length

theorem Chunk.Counted.range {chunk : Chunk} (hc : chunk.Counted) :
    chunk.end_ledger = chunk.start_ledger + UInt32.ofNat chunk.deltas.length := by
  rw [hc.deltas, UInt32.ofNat_toNat, UInt32.add_comm, UInt32.sub_add_cancel]

variable {σ τ : Type} {S : NodeSink σ} {T : TxDb τ} {sha512half : Bytes → Hash256}
  {out : Outputs σ τ} {chunk : Chunk} {res : ReplayResult × Outputs σ τ}

/-- Replay's own check: a TX map carries the number of its delta. -/
theorem Replays.seq_of_delta (h : Replays S T sha512half true out chunk res) {i : Nat}
    {d : LedgerDelta} {m : TxMap} (hd : chunk.deltas[i]? = some d)
    (hm : chunk.tx_maps[i + 1]? = some m) : m.ledger_seq = d.ledger_seq := by
  obtain ⟨hlen, fuel, cp, out₁, r₀, r₁, hsteps⟩ := h.steps
  obtain ⟨prev, m', -, hm', r, r', _, _, _, _, hv, -, -⟩ := hsteps.ledger hlen hd
  rw [hm, Option.some.injEq] at hm'
  rw [hm']
  exact hv.seq

/-- Counting up from the first TX map. -/
theorem CoversRange.seq_at (hc : CoversRange chunk) {i : Nat} {m : TxMap}
    (hm : chunk.tx_maps[i]? = some m) : m.ledger_seq = chunk.start_ledger + UInt32.ofNat i := by
  induction i generalizing m with
  | zero =>
    rw [hc.first m hm]
    exact (UInt32.add_zero _).symm
  | succ i ih =>
    have hi : i < chunk.tx_maps.length := by
      have hlt := (List.getElem?_eq_some_iff.mp hm).1
      omega
    have hprev : chunk.tx_maps[i]? = some chunk.tx_maps[i] := List.getElem?_eq_getElem hi
    rw [hc.next i _ m hprev hm, ih hprev, UInt32.ofNat_add, UInt32.add_assoc]
    rfl

/-- A verified chunk covers the ledgers it says it covers exactly when the
    header and the deltas agree with the range. -/
theorem covers_range_iff (h : Replays S T sha512half true out chunk res) :
    CoversRange chunk ↔ HeaderAgrees chunk := by
  obtain ⟨hlen, -⟩ := h.steps
  have hlast : chunk.tx_maps.getLast? = chunk.tx_maps[chunk.deltas.length]? := by
    rw [List.getLast?_eq_getElem?, hlen, Nat.add_sub_cancel]
  have hmap : ∀ i, i < chunk.deltas.length + 1 → ∃ m, chunk.tx_maps[i]? = some m := by
    intro i hi
    exact ⟨chunk.tx_maps[i], List.getElem?_eq_getElem (by omega)⟩
  constructor
  · intro hc
    refine ⟨hc.first, hc.checkpoint_hash, ?_, ?_⟩
    · intro i d hd
      have hi := (List.getElem?_eq_some_iff.mp hd).1
      obtain ⟨m, hm⟩ := hmap (i + 1) (by omega)
      rw [← h.seq_of_delta hd hm]
      exact hc.seq_at hm
    · obtain ⟨m, hm⟩ := hmap chunk.deltas.length (by omega)
      rw [← hc.last m (hlast.trans hm)]
      exact hc.seq_at hm
  · intro ha
    -- Each TX map but the first has the number of its delta.
    have hseq : ∀ i m, chunk.tx_maps[i]? = some m →
        m.ledger_seq = chunk.start_ledger + UInt32.ofNat i := by
      intro i m hm
      cases i with
      | zero =>
        rw [ha.start_ledger m hm]
        exact (UInt32.add_zero _).symm
      | succ i =>
        have hi : i < chunk.deltas.length := by
          have hlt := (List.getElem?_eq_some_iff.mp hm).1
          omega
        have hd : chunk.deltas[i]? = some chunk.deltas[i] := List.getElem?_eq_getElem hi
        rw [h.seq_of_delta hd hm]
        exact ha.deltas i _ hd
    refine ⟨ha.start_ledger, ?_, ?_, ha.checkpoint_hash⟩
    · intro i m m' hm hm'
      rw [hseq i m hm, hseq (i + 1) m' hm', UInt32.ofNat_add, UInt32.add_assoc]
      rfl
    · intro m hm
      rw [hlast] at hm
      rw [hseq _ m hm, ha.count]

/-! ## A chunk with another header -/

/-- One ledger, number 7, under a header that says 100. -/
def misnumbered_chunk : Chunk :=
  { chunk_of_checkpoint [lone_account] lone_account.hash with start_ledger := 100, end_ledger := 100 }

theorem misnumbered_chunk_replays :
    ∃ res, Replays NullSink NoTxDb sha2_sha512half true ⟨(), none, []⟩ misnumbered_chunk res :=
  replays_of_isSome 2 rfl (by decide +kernel)

/-- It is accepted, with a header a reader accepts too, and covers another
    ledger. -/
theorem misnumbered_chunk_accepted :
    (∃ res, Replays NullSink NoTxDb sha2_sha512half true ⟨(), none, []⟩ misnumbered_chunk res) ∧
      misnumbered_chunk.Counted ∧ ¬ CoversRange misnumbered_chunk := by
  refine ⟨misnumbered_chunk_replays, ⟨rfl, rfl⟩, fun hc => ?_⟩
  have hseq : (7 : UInt32) = 100 := hc.first _ rfl
  cases hseq

theorem covers_range_iff_misnumbered :
    CoversRange misnumbered_chunk ↔ HeaderAgrees misnumbered_chunk := by
  obtain ⟨res, hres⟩ := misnumbered_chunk_replays
  exact covers_range_iff hres

end LedgerArchive
