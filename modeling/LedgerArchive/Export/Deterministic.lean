import LedgerArchive.Common.Written
import LedgerArchive.Export.Batches
import LedgerArchive.Lib.SortBy
import LedgerArchive.Nudb.Answers
import LedgerArchive.Nudb.RoundTrip
import Mathlib.Data.Finset.Sort

/-! # Exports do not depend on the timing

    The concurrency level decides the order of the first walk and how the
    ledgers are grouped, and a `HashMap` is iterated in any order. None of
    this reaches the files: checkpoints are sorted by hash, the walks find
    the same nodes, and batches are ledgers one after the other
    (`export_deterministic`). The exception is a batch whose last number
    wraps around (`export_level_matters`). -/

namespace LedgerArchive

open Lib

variable {sha512half : Bytes → Hash256} {args : Args} {order : MapOrder}
  {get_node get_node' : Hash256 → Except Error SHAMapNode} {fuel fuel' : Nat}
  {ledger_db : LedgerIndex}

/-! ## Iteration order -/

/-- The nodes of a map, in any order: no hash comes twice. -/
theorem entries_hash_nodup {state : StateMap} (hk : Keyed state) {nodes : List SHAMapNode}
    (hnodes : (nodes : Multiset SHAMapNode) = state.entries.map Sigma.snd) :
    (nodes.map SHAMapNode.hash).Nodup := by
  have hkeys : (nodes.map SHAMapNode.hash : Multiset Hash256) = state.entries.map Sigma.fst := by
    rw [← Multiset.map_coe, hnodes, Multiset.map_map]
    apply Multiset.map_congr rfl
    intro entry hentry
    exact hk entry.1 entry.2 (Finmap.lookup_eq_some_iff.mpr hentry)
  have hnodup : (state.entries.map Sigma.fst).Nodup := state.keys.nodup
  rw [← hkeys] at hnodup
  exact Multiset.coe_nodup.mp hnodup

theorem values_hash_nodup {state : StateMap} (hk : Keyed state) (k : Nat) :
    ((order.values k state).map SHAMapNode.hash).Nodup :=
  entries_hash_nodup hk (order.values_perm k state)

theorem values_perm_values (order order' : MapOrder) (k : Nat) (state : StateMap) :
    (order.values k state).Perm (order'.values k state) := by
  apply Multiset.coe_eq_coe.mp
  rw [order.values_perm, order'.values_perm]

/-- The checkpoint is sorted by hash, so the order of iteration is lost. -/
theorem create_chunk_order (order' : MapOrder) {state : StateMap} (hk : Keyed state) (k : Nat) (chunk_start : UInt32)
    (ledger_hash : Hash256) (tx_map : TxMap) :
    create_chunk args order k state chunk_start ledger_hash tx_map =
      create_chunk args order' k state chunk_start ledger_hash tx_map := by
  have hperm := values_perm_values order order' k state
  have hsorted : sort_nodes (order.values k state) = sort_nodes (order'.values k state) :=
    insertionSort_key_perm hperm (values_hash_nodup hk k)
  unfold create_chunk ChunkWriter.write_checkpoint
  rw [hsorted, hperm.length_eq]

theorem export_ledger_order (order' : MapOrder) {e : Export} (hk : Keyed e.state) (seq : UInt32) (info : LedgerInfo)
    (ledger_hash : Hash256) (d : SHAMapDiff) :
    export_ledger sha512half args order get_node fuel e seq info ledger_hash d =
      export_ledger sha512half args order' get_node fuel e seq info ledger_hash d := by
  have hcreate := @create_chunk_order args order order' _ (hk.apply_diff d)
  unfold export_ledger
  simp only [hcreate]

theorem export_next_keyed {e e' : Export} {seq : UInt32} (hk : Keyed e.state)
    (h : export_next sha512half args order get_node fuel ledger_db e seq = .ok e') :
    Keyed e'.state := by
  obtain ⟨info, -, h⟩ := bind_eq_ok.mp h
  obtain ⟨ledger_hash, -, h⟩ := bind_eq_ok.mp h
  obtain ⟨d, -, h⟩ := bind_eq_ok.mp h
  rw [(export_ledger_ok h).1]
  exact hk.apply_diff d

/-! ## Stores and rounds -/

theorem ledger_txns_within (ha : Answers get_node get_node') (hf : fuel ≤ fuel') (info : LedgerInfo)
    (seq : UInt32) :
    Within (ledger_txns get_node fuel info seq) (ledger_txns get_node' fuel' info seq) := by
  intro txns h
  unfold ledger_txns at h ⊢
  rw [with_context_eq_ok] at h ⊢
  exact collect_transactions_within ha hf info.tx_hash txns h

theorem export_next_within (order' : MapOrder) (ha : Answers get_node get_node')
    (hf : fuel ≤ fuel') {e : Export} (hk : Keyed e.state) (seq : UInt32) :
    Within (export_next sha512half args order get_node fuel ledger_db e seq)
      (export_next sha512half args order' get_node' fuel' ledger_db e seq) := by
  apply (Within.refl _).bind
  intro info _
  apply (Within.refl _).bind
  intro ledger_hash _
  apply (diff_within ha hf _ _).bind
  intro d _
  rw [export_ledger_order order' hk]
  apply (ledger_txns_within ha hf info seq).bind
  intro txns _
  exact Within.refl _

/-- Ledgers one after the other: what one store and one order give, another
    store with the same nodes and another order give too. -/
theorem export_all_within (order' : MapOrder) (ha : Answers get_node get_node')
    (hf : fuel ≤ fuel') {e e' : Export} (hk : Keyed e.state) {seqs : List UInt32}
    (h : seqs.foldlM (export_next sha512half args order get_node fuel ledger_db) e = .ok e') :
    seqs.foldlM (export_next sha512half args order' get_node' fuel' ledger_db) e = .ok e' := by
  induction seqs generalizing e with
  | nil => exact h
  | cons seq seqs ih =>
    obtain ⟨e₁, hnext, h⟩ := foldlM_cons_ok.mp h
    exact foldlM_cons_ok.mpr ⟨e₁, export_next_within order' ha hf hk seq e₁ hnext,
      ih (export_next_keyed hk hnext) h⟩

theorem export_start_keyed {concurrency : Nat} {e : Export}
    (h : export_start sha512half args order get_node fuel ledger_db concurrency = .ok e) :
    Keyed e.state := by
  unfold export_start at h
  simp only [bind_eq_ok, pure_eq_ok] at h
  obtain ⟨info, -, ledger_hash, -, nodes, -, txns, -, rfl⟩ := h
  exact keyed_checkpoint nodes

/-- The start at another level of concurrency, with rounds enough. -/
theorem export_start_level (order' : MapOrder) (concurrency' : Nat)
    (ha : Answers get_node get_node') (hn : Named get_node') {concurrency : Nat} {e : Export}
    (h : export_start sha512half args order get_node fuel ledger_db concurrency = .ok e) :
    ∃ fuel₀, ∀ fuel' ≥ fuel₀,
      export_start sha512half args order' get_node' fuel' ledger_db concurrency' = .ok e := by
  unfold export_start at h
  simp only [bind_eq_ok, pure_eq_ok] at h
  obtain ⟨info, hinfo, ledger_hash, hhash, nodes, hnodes, txns, htxns, rfl⟩ := h
  have hwalk := collect_reachable_concurrent_walking hn
    (collect_reachable_concurrent_within ha le_rfl _ _ nodes hnodes)
  have hread : ReadableBelow get_node' info.account_hash := hwalk.search.finished.2
  obtain ⟨rounds, nodes', hnodes'⟩ := collect_reachable_concurrent_exists hread concurrency'
  have hstate := hwalk.state_eq (collect_reachable_concurrent_walking hn hnodes')
  refine ⟨max rounds fuel, fun fuel' hf => ?_⟩
  have hcollect := collect_reachable_concurrent_within (Answers.refl get_node')
    (show rounds ≤ fuel' from le_trans (le_max_left _ _) hf) _ _ nodes' hnodes'
  have htxns' := ledger_txns_within ha (show fuel ≤ fuel' from le_trans (le_max_right _ _) hf)
    info args.start txns htxns
  unfold export_start
  simp only [bind_eq_ok, pure_eq_ok]
  refine ⟨info, hinfo, ledger_hash, hhash, nodes', hcollect, txns, htxns', ?_⟩
  rw [← hstate, create_chunk_order order (keyed_checkpoint nodes)]

theorem export_loop_within (ha : Answers get_node get_node') (hf : fuel ≤ fuel') {batch : UInt32}
    {n n' : Nat} (hn : n ≤ n') (seq : UInt32) {e e' : Export} (hk : Keyed e.state)
    (h : export_loop sha512half args order get_node fuel ledger_db batch n seq e = .ok e') :
    export_loop sha512half args order get_node' fuel' ledger_db batch n' seq e = .ok e' := by
  induction n generalizing n' seq e with
  | zero => cases h
  | succ n ih =>
    obtain ⟨n', rfl⟩ : ∃ k, n' = k + 1 := ⟨n' - 1, by omega⟩
    unfold export_loop at h ⊢
    split at h
    · next hle =>
      obtain ⟨e₁, hbatch, h⟩ := bind_eq_ok.mp h
      have hall := export_batch_ok.mp hbatch
      have hk₁ : Keyed e₁.state := by
        apply foldlM_invariant (P := fun e : Export => Keyed e.state) _ hk hall
        intro e seq e' _ hk h
        exact export_next_keyed hk h
      rw [if_pos hle]
      exact bind_eq_ok.mpr ⟨e₁, export_batch_ok.mpr (export_all_within order ha hf hk hall),
        ih (by omega) _ hk₁ h⟩
    · next hlt =>
      rw [if_neg hlt]
      exact h

/-! ## Runs -/

theorem export_main_ok {concurrency : Nat} {files : List ChunkFile} :
    export_main sha512half args order get_node fuel ledger_db concurrency = .ok files ↔
      ¬ args.end ≤ args.start ∧ args.chunk_size ≠ 0 ∧ ∃ e e',
        export_start sha512half args order get_node fuel ledger_db concurrency = .ok e ∧
        export_loop sha512half args order get_node fuel ledger_db (batch_size concurrency) fuel
          (args.start + 1) e = .ok e' ∧ e'.finish_chunk sha512half args = files := by
  unfold export_main
  rw [bail_if_bind_ok, bail_if_bind_ok]
  simp only [bind_eq_ok, pure_eq_ok]
  constructor
  · rintro ⟨hrange, hsize, e, hstart, e', hloop, hfiles⟩
    exact ⟨hrange, hsize, e, e', hstart, hloop, hfiles⟩
  · rintro ⟨hrange, hsize, e, e', hstart, hloop, hfiles⟩
    exact ⟨hrange, hsize, e, hstart, e', hloop, hfiles⟩

/-- No batch's last number wraps around at this level of concurrency. -/
def Unwrapped (args : Args) (concurrency : Nat) : Prop :=
  NoWrap args (batch_size concurrency) (args.start.toNat + 1)

theorem export_start_within (ha : Answers get_node get_node') (hf : fuel ≤ fuel')
    (concurrency : Nat) :
    Within (export_start sha512half args order get_node fuel ledger_db concurrency)
      (export_start sha512half args order get_node' fuel' ledger_db concurrency) := by
  intro e h
  unfold export_start at h ⊢
  simp only [bind_eq_ok, pure_eq_ok] at h ⊢
  obtain ⟨info, hinfo, ledger_hash, hhash, nodes, hnodes, txns, htxns, he⟩ := h
  exact ⟨info, hinfo, ledger_hash, hhash, nodes,
    collect_reachable_concurrent_within ha hf _ _ nodes hnodes, txns,
    ledger_txns_within ha hf info args.start txns htxns, he⟩

theorem export_main_within (ha : Answers get_node get_node') (hf : fuel ≤ fuel')
    (concurrency : Nat) :
    Within (export_main sha512half args order get_node fuel ledger_db concurrency)
      (export_main sha512half args order get_node' fuel' ledger_db concurrency) := by
  intro files h
  obtain ⟨hrange, hsize, e, e', hstart, hloop, hfiles⟩ := export_main_ok.mp h
  exact export_main_ok.mpr ⟨hrange, hsize, e, e', export_start_within ha hf concurrency e hstart,
    export_loop_within ha hf hf _ (export_start_keyed hstart) hloop, hfiles⟩

/-- One direction, between two stores seen through their lookups. -/
theorem export_main_level (order' : MapOrder) (ha : Answers get_node get_node')
    (hn : Named get_node') {concurrency concurrency' : Nat} (hw : Unwrapped args concurrency)
    (hw' : Unwrapped args concurrency') {files : List ChunkFile}
    (h : export_main sha512half args order get_node fuel ledger_db concurrency = .ok files) :
    ∃ fuel', export_main sha512half args order' get_node' fuel' ledger_db concurrency' =
      .ok files := by
  obtain ⟨hrange, hsize, e, e', hstart, hloop, hfiles⟩ := export_main_ok.mp h
  have hkeyed := export_start_keyed hstart
  have hlast : args.end.toNat ≠ 2 ^ 32 - 1 := fun hlast => export_loop_of_last hlast hloop
  have hfirst := toNat_succ_of_lt (UInt32.not_le.mp hrange)
  have hw : NoWrap args (batch_size concurrency) (args.start + 1).toNat := hfirst ▸ hw
  have hw' : NoWrap args (batch_size concurrency') (args.start + 1).toNat := hfirst ▸ hw'
  -- The loop is the ledgers one by one, which is the other loop.
  have hall := (export_loop_iff hw hlast).mp ⟨fuel, hloop⟩
  have hall' := export_all_within order' ha le_rfl hkeyed hall
  obtain ⟨rounds, hloop'⟩ := (export_loop_iff hw' hlast).mpr hall'
  obtain ⟨fuel₀, hstart'⟩ := export_start_level order' concurrency' ha hn hstart
  have hle : fuel₀ ≤ max fuel₀ (max rounds fuel) ∧ rounds ≤ max fuel₀ (max rounds fuel) ∧
      fuel ≤ max fuel₀ (max rounds fuel) := by omega
  exact ⟨_, export_main_ok.mpr ⟨hrange, hsize, e, e', hstart' _ hle.1,
    export_loop_within (Answers.refl get_node') hle.2.2 hle.2.1 _ hkeyed hloop', hfiles⟩⟩

section Readers

variable (xxh64 : Bytes → UInt64 → UInt64) (lz4 : Bytes → Nat → Option Bytes)

/-- A run of the exporter on a store comes to its end with these files. -/
def Exports (sha512half : Bytes → Hash256) (args : Args) (ledger_db : LedgerIndex) (r : NuDBReader)
    (concurrency : Nat) (order : MapOrder) (files : List ChunkFile) : Prop :=
  ∃ fuel, export_main sha512half args order (r.get_node xxh64 lz4 fuel) fuel ledger_db concurrency =
    .ok files

variable {xxh64 lz4}

theorem Exports.other {r r' : NuDBReader} (hs : SameNodes xxh64 lz4 r r') (order' : MapOrder)
    {concurrency concurrency' : Nat} (hw : Unwrapped args concurrency)
    (hw' : Unwrapped args concurrency') {files : List ChunkFile}
    (h : Exports xxh64 lz4 sha512half args ledger_db r concurrency order files) :
    Exports xxh64 lz4 sha512half args ledger_db r' concurrency' order' files := by
  obtain ⟨fuel, h⟩ := h
  obtain ⟨fuel', ha⟩ := hs.answers fuel
  have hn : Named (r'.get_node xxh64 lz4 fuel') := fun h n hget => NuDBReader.get_node_hash hget
  obtain ⟨fuel₀, h'⟩ := export_main_level order' ha hn hw hw' h
  -- The rounds of the lookups and those of the walks are raised to one bound.
  exact ⟨max fuel₀ fuel', export_main_within (get_node_answers r' (le_max_right fuel₀ fuel'))
    (le_max_left fuel₀ fuel') concurrency' files h'⟩

theorem Exports.unique {r : NuDBReader} {concurrency : Nat} {files files' : List ChunkFile}
    (h : Exports xxh64 lz4 sha512half args ledger_db r concurrency order files)
    (h' : Exports xxh64 lz4 sha512half args ledger_db r concurrency order files') :
    files = files' := by
  obtain ⟨fuel, h⟩ := h
  obtain ⟨fuel', h'⟩ := h'
  have hle : fuel ≤ max fuel fuel' := le_max_left fuel fuel'
  have hle' : fuel' ≤ max fuel fuel' := le_max_right fuel fuel'
  have hfiles := export_main_within (get_node_answers r hle) hle concurrency files h
  have hfiles' := export_main_within (get_node_answers r hle') hle' concurrency files' h'
  exact Except.ok.inj (hfiles.symm.trans hfiles')

/-- Two runs over the same rows, on stores with the same nodes, at any two
    levels of concurrency at which no batch wraps around and with any orders
    of iteration: if one comes to its end so does the other, with the same
    files. -/
theorem export_deterministic {r r' : NuDBReader} (hs : SameNodes xxh64 lz4 r r')
    {concurrency concurrency' : Nat} (hw : Unwrapped args concurrency)
    (hw' : Unwrapped args concurrency') (order order' : MapOrder) :
    (∀ files, Exports xxh64 lz4 sha512half args ledger_db r concurrency order files ↔
        Exports xxh64 lz4 sha512half args ledger_db r' concurrency' order' files) ∧
      ∀ files files', Exports xxh64 lz4 sha512half args ledger_db r concurrency order files →
        Exports xxh64 lz4 sha512half args ledger_db r' concurrency' order' files' →
        files = files' := by
  constructor
  · intro files
    constructor
    · intro h
      exact h.other hs order' hw hw'
    · intro h
      exact h.other hs.symm order hw' hw
  · intro files files' h h'
    exact (h.other hs order' hw hw').unique h'

end Readers

/-! ## Runs near the last ledger number -/

/-- The nodes in the order of their keys. -/
def by_hash : MapOrder where
  values _ state := state.keys.sort.filterMap state.lookup
  values_perm _ state := by
    rw [← Multiset.filterMap_coe, Finset.sort_eq]
    show (state.entries.map Sigma.fst).filterMap state.lookup = _
    have hentries : ∀ entries : Multiset (Sigma fun _ : Hash256 => SHAMapNode),
        (∀ entry ∈ entries, state.lookup entry.1 = some entry.2) →
          (entries.map Sigma.fst).filterMap state.lookup = entries.map Sigma.snd := by
      intro entries
      induction entries using Multiset.induction_on with
      | empty => intro _; rfl
      | cons entry entries ih =>
        intro h
        rw [Multiset.map_cons, Multiset.filterMap_cons_some (fun a => state.lookup a) _ _
          (h entry (Multiset.mem_cons_self _ _)), ih fun x hx => h x (Multiset.mem_cons_of_mem hx),
          Multiset.map_cons]
    exact hentries _ fun entry hentry => Finmap.lookup_eq_some_iff.mpr hentry

/-- The other way round. -/
def by_hash_reversed : MapOrder where
  values k state := (by_hash.values k state).reverse
  values_perm k state := by
    rw [Multiset.coe_reverse]
    exact by_hash.values_perm k state

/-- A store of one leaf. -/
def leaf_reader : NuDBReader :=
  written_reader Xxh64.digest [⟨Hash256.ofBytes [1], .AccountState, [1]⟩]

/-- An empty ledger whose state is that leaf. -/
def leaf_info (seq : UInt32) : LedgerInfo :=
  let info : LedgerInfo :=
    { ledger_hash := ZERO_HASH, account_hash := Hash256.ofBytes [1], tx_hash := ZERO_HASH,
      parent_hash := ZERO_HASH, total_coins := 0, closing_time := 0, prev_closing_time := 0,
      close_time_resolution := 10, close_flags := 0 }
  { info with ledger_hash := calculate_ledger_hash sha2_sha512half (info.hash_input seq) }

def LedgerInfo.row (info : LedgerInfo) : LedgerRow :=
  { ledger_hash := hex_encode info.ledger_hash, account_set_hash := hex_encode info.account_hash,
    trans_set_hash := hex_encode info.tx_hash, prev_hash := hex_encode info.parent_hash,
    total_coins := info.total_coins, closing_time := info.closing_time,
    prev_closing_time := info.prev_closing_time, close_time_res := info.close_time_resolution,
    close_flags := info.close_flags }

/-- The two digits of a byte. -/
def hex_digits (b : UInt8) : List Char :=
  [Nat.digitChar (b.toNat / 16), Nat.digitChar (b.toNat % 16)]

theorem hex_encode_toList (h : Hash256) : (hex_encode h).toList = h.bytes.flatMap hex_digits := by
  unfold hex_encode
  simp only [String.toList_join, List.flatMap_def, List.map_map]
  congr 1
  apply List.map_congr_left
  intro b _
  simp [hex_digits]

/-- Two digits a byte. -/
theorem hex_pairs_digits {digit : Nat → UInt8}
    (hdigit : ∀ n < 16, hex_digit (Char.ofUInt8 (digit n)) = some n) (b : Bytes) (i : Nat) :
    hex_pairs (b.flatMap fun a => [digit (a.toNat / 16), digit (a.toNat % 16)]) i = .ok b := by
  induction b generalizing i with
  | nil => rfl
  | cons a b ih =>
    have hmax := a.toNat_lt
    have hhi := hdigit (a.toNat / 16) (by omega)
    have hlo := hdigit (a.toNat % 16) (by omega)
    have hbyte : a.toNat / 16 * 16 + a.toNat % 16 = a.toNat := by omega
    show hex_pairs (digit (a.toNat / 16) :: digit (a.toNat % 16) ::
      b.flatMap fun a => [digit (a.toNat / 16), digit (a.toNat % 16)]) i = _
    unfold hex_pairs hex_val
    rw [hhi, hlo, ih]
    show Except.ok (UInt8.ofNat (a.toNat / 16 * 16 + a.toNat % 16) :: b) = _
    rw [hbyte, UInt8.ofNat_toNat]

/-- Digits in small letters or in capitals read back. -/
theorem hex_decode_digits {digit : Nat → Char}
    (hdigit : ∀ n < 16, String.utf8EncodeChar (digit n) = [UInt8.ofNat (digit n).toNat] ∧
      hex_digit (Char.ofUInt8 (UInt8.ofNat (digit n).toNat)) = some n) (b : Bytes) :
    hex_decode (b.flatMap fun a => [digit (a.toNat / 16), digit (a.toNat % 16)]) = .ok b := by
  have htext : (b.flatMap fun a => [digit (a.toNat / 16), digit (a.toNat % 16)]).flatMap
        String.utf8EncodeChar =
      b.flatMap fun a => [UInt8.ofNat (digit (a.toNat / 16)).toNat,
        UInt8.ofNat (digit (a.toNat % 16)).toNat] := by
    rw [List.flatMap_assoc]
    congr 1
    funext a
    have hmax := a.toNat_lt
    rw [List.flatMap_cons, List.flatMap_singleton, (hdigit (a.toNat / 16) (by omega)).1,
      (hdigit (a.toNat % 16) (by omega)).1, List.singleton_append]
  unfold hex_decode
  rw [htext]
  refine bail_if_bind_ok.mpr ⟨?_, hex_pairs_digits (fun n hn => (hdigit n hn).2) b 0⟩
  simp

/-- There is nothing to trim without whitespace. -/
theorem trim_eq_self {s : List Char} (h : ∀ c ∈ s, is_whitespace c = false) : trim s = s := by
  have hdrop : ∀ t : List Char, (∀ c ∈ t, is_whitespace c = false) → t.dropWhile is_whitespace = t := by
    intro t ht
    cases t with
    | nil => rfl
    | cons c t =>
      rw [List.dropWhile_cons_of_neg]
      simp [ht c List.mem_cons_self]
  unfold trim
  rw [hdrop s h, hdrop s.reverse fun c hc => h c (List.mem_reverse.mp hc), List.reverse_reverse]

theorem parse_hash_digits {digit : Nat → Char}
    (hdigit : ∀ n < 16, String.utf8EncodeChar (digit n) = [UInt8.ofNat (digit n).toNat] ∧
      hex_digit (Char.ofUInt8 (UInt8.ofNat (digit n).toNat)) = some n)
    (hclean : ∀ n < 16, is_whitespace (digit n) = false) {s : String} {h : Hash256}
    (hs : s.toList = h.bytes.flatMap fun b => [digit (b.toNat / 16), digit (b.toNat % 16)]) :
    parse_hash s = .ok h := by
  have htrim : trim s.toList = s.toList := by
    apply trim_eq_self
    intro c hc
    rw [hs] at hc
    obtain ⟨b, -, hc⟩ := List.mem_flatMap.mp hc
    have hmax := b.toNat_lt
    rcases List.mem_pair.mp hc with rfl | rfl
    · exact hclean _ (by omega)
    · exact hclean _ (by omega)
  unfold parse_hash
  rw [htrim, hs, hex_decode_digits hdigit]
  refine bind_eq_ok.mpr ⟨h.bytes, rfl, ?_⟩
  rw [bail_if_bind_ok, pure_eq_ok, Hash256.ofBytes_bytes]
  exact ⟨not_not.mpr h.length_eq, rfl⟩

theorem parse_hash_hex_encode (h : Hash256) : parse_hash (hex_encode h) = .ok h :=
  parse_hash_digits (by decide) (by decide) (hex_encode_toList h)

/-- A row reads back as what it was made from. -/
theorem LedgerIndex.get_row {seq : UInt32} {info : LedgerInfo}
    (h : ledger_db seq = some info.row) : ledger_db.get seq = .ok info := by
  unfold LedgerIndex.get
  rw [h]
  apply bind_eq_ok.mpr ⟨info.row, rfl, _⟩
  simp only [LedgerInfo.row, parse_hash_hex_encode]
  rfl

/-- Rows of the ledgers from `first` to `last`. -/
def leaf_rows (first last : UInt32) : LedgerIndex :=
  fun seq => if first ≤ seq ∧ seq ≤ last then some (leaf_info seq).row else none

/-- The two ledgers before the last number there is. -/
def late_args : Args :=
  { start := 4294967293, «end» := 4294967294, network_id := 1, chunk_size := 10 }

def late_rows : LedgerIndex := leaf_rows 4294967293 4294967294

/-- Ledger 30 has no row. -/
theorem late_export_missing {n : Nat} {e e' : Export} :
    export_loop sha2_sha512half late_args order get_node fuel late_rows 32 n 30 e ≠ .ok e' := by
  intro h
  cases n with
  | zero => cases h
  | succ n =>
    unfold export_loop at h
    rw [if_pos (by decide)] at h
    obtain ⟨e₁, hbatch, -⟩ := bind_eq_ok.mp h
    have hall := export_batch_ok.mp hbatch
    rw [show batch_seqs 30 (min (30 + 32 - 1) late_args.end) = 30 :: batch_seqs 31 61 from by
      decide] at hall
    obtain ⟨e₂, hnext, -⟩ := foldlM_cons_ok.mp hall
    obtain ⟨info, hinfo, -⟩ := bind_eq_ok.mp hnext
    obtain ⟨row, hrow, -⟩ := bind_eq_ok.mp hinfo
    rw [ok_or_eq_ok, show late_rows 30 = none from by decide] at hrow
    cases hrow

/-- One ledger at a time the export comes to its end. In batches of 32 the
    first batch's last number wraps around to 29, and the next ledger to be
    exported is number 30. -/
theorem export_level_matters :
    (∃ files, Exports Xxh64.digest (fun _ _ => none) sha2_sha512half late_args late_rows leaf_reader
        1 by_hash files) ∧
      ¬ ∃ files, Exports Xxh64.digest (fun _ _ => none) sha2_sha512half late_args late_rows
        leaf_reader 32 by_hash files := by
  constructor
  · have hserial : (export_main sha2_sha512half late_args by_hash
        (leaf_reader.get_node Xxh64.digest (fun _ _ => none) 5) 5 late_rows 1).toOption.isSome =
        true := by
      decide +kernel
    obtain ⟨files, hfiles⟩ := exists_ok_of_isSome hserial
    exact ⟨files, 5, hfiles⟩
  · rintro ⟨files, fuel, h⟩
    obtain ⟨-, -, e, e', -, hloop, -⟩ := export_main_ok.mp h
    cases fuel with
    | zero => cases hloop
    | succ fuel =>
      unfold export_loop at hloop
      rw [if_pos (by decide)] at hloop
      obtain ⟨e₁, -, hloop⟩ := bind_eq_ok.mp hloop
      exact late_export_missing hloop

/-- A state of two accounts under a root. -/
def fork_nodes : List SHAMapNode :=
  [⟨Hash256.ofBytes [3], .Inner, (Hash256.ofBytes [1]).bytes ++ (Hash256.ofBytes [2]).bytes ++
      List.replicate 448 0⟩,
    ⟨Hash256.ofBytes [1], .AccountState, [1]⟩, ⟨Hash256.ofBytes [2], .AccountState, [2]⟩]

def fork_reader : NuDBReader := written_reader Xxh64.digest fork_nodes

/-- An empty ledger with that state. -/
def fork_info (seq : UInt32) : LedgerInfo :=
  let info : LedgerInfo := { leaf_info seq with account_hash := Hash256.ofBytes [3] }
  { info with ledger_hash := calculate_ledger_hash sha2_sha512half (info.hash_input seq) }

def fork_rows : LedgerIndex :=
  fun seq => if 7 ≤ seq ∧ seq ≤ 9 then some (fork_info seq).row else none

def three_args : Args := { start := 7, «end» := 9, network_id := 1, chunk_size := 2 }

theorem fork_export : (export_main sha2_sha512half three_args by_hash
    (fork_reader.get_node Xxh64.digest (fun _ _ => none) 5) 5 fork_rows 1).toOption.isSome = true := by
  decide +kernel

/-- Three ledgers in two chunks, one at a time and four at a time, with the
    nodes of the map in one order and the other way round. -/
theorem export_deterministic_three_ledgers :
    let run := Exports Xxh64.digest (fun _ _ => none) sha2_sha512half three_args fork_rows fork_reader
    (∃ files, run 1 by_hash files) ∧
      (∀ files, run 1 by_hash files ↔ run 4 by_hash_reversed files) ∧
      ∀ files files', run 1 by_hash files → run 4 by_hash_reversed files' → files = files' := by
  have hone : (batch_size 1).toNat = 1 := by decide
  have hfour : (batch_size 4).toNat = 4 := by decide
  have hend : (9 : UInt32).toNat = 9 := by decide
  obtain ⟨files, hfiles⟩ := exists_ok_of_isSome fork_export
  refine ⟨⟨files, 5, hfiles⟩, export_deterministic (fun _ _ => Iff.rfl) ?_ ?_ _ _⟩
  · refine ⟨by decide, fun k hk => ?_⟩
    rw [hone] at hk ⊢
    have hk : (7 : UInt32).toNat + 1 + k * 1 ≤ (9 : UInt32).toNat := hk
    rw [hend] at hk
    show (7 : UInt32).toNat + 1 + k * 1 + 1 ≤ 2 ^ 32
    omega
  · refine ⟨by decide, fun k hk => ?_⟩
    rw [hfour] at hk ⊢
    have hk : (7 : UInt32).toNat + 1 + k * 4 ≤ (9 : UInt32).toNat := hk
    rw [hend] at hk
    show (7 : UInt32).toNat + 1 + k * 4 + 4 ≤ 2 ^ 32
    omega

end LedgerArchive
