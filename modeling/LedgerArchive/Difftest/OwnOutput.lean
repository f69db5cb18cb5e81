import LedgerArchive.Difftest.Compare
import LedgerArchive.Import.LedgerDb
import LedgerArchive.Index.TwoWriters

/-! # The importer's database against the index

    A chunk is imported with `--txdb` and indexed. The two outputs come from
    separate programs, and the comparison of the one with the other passes
    on every range, as long as few enough ledgers in it are empty and only
    pseudo-transactions affect no account (`difftest_own_output`). -/

namespace LedgerArchive.Difftest

open Lib

variable {sha256 sha512half : Bytes → Hash256}

/-! ## Ids -/

/-- The byte of a digit in capitals. -/
def upper_byte (n : Nat) : UInt8 := UInt8.ofNat (Nat.digitChar n).toUpper.toNat

theorem upper_byte_digit {n : Nat} (h : n < 16) :
    hex_digit (Char.ofNat (upper_byte n).toNat) = some n ∧ upper_byte n ≠ 0x2B ∧
      (upper_byte n).toNat < 128 ∧ Char.ofUInt8 (upper_byte n) = (Nat.digitChar n).toUpper := by
  have hall : ∀ n < 16, hex_digit (Char.ofNat (upper_byte n).toNat) = some n ∧
      upper_byte n ≠ 0x2B ∧ (upper_byte n).toNat < 128 ∧
      Char.ofUInt8 (upper_byte n) = (Nat.digitChar n).toUpper := by
    decide
  exact hall n h

def upper_bytes (b : UInt8) : Bytes := [upper_byte (b.toNat / 16), upper_byte (b.toNat % 16)]

theorem upper_bytes_ascii {bytes : Bytes} : ∀ c ∈ bytes.flatMap upper_bytes, c.toNat < 128 := by
  intro c hc
  obtain ⟨b, -, hc⟩ := List.mem_flatMap.mp hc
  have hmax := b.toNat_lt
  rcases List.mem_pair.mp hc with rfl | rfl
  · exact (upper_byte_digit (by omega)).2.2.1
  · exact (upper_byte_digit (by omega)).2.2.1

theorem as_bytes_hex_encode_upper (h : Hash256) :
    as_bytes (hex_encode_upper h) = h.bytes.flatMap upper_bytes := by
  have htext : hex_encode_upper h =
      String.ofList ((h.bytes.flatMap upper_bytes).map Char.ofUInt8) := by
    apply String.toList_injective
    rw [hex_encode_upper_toList, String.toList_ofList, List.map_flatMap, List.map_flatMap]
    congr 1
    funext b
    have hmax := b.toNat_lt
    simp only [hex_digits, upper_bytes, List.map_cons, List.map_nil,
      (upper_byte_digit (show b.toNat / 16 < 16 by omega)).2.2.2,
      (upper_byte_digit (show b.toNat % 16 < 16 by omega)).2.2.2]
  rw [htext, as_bytes_collect upper_bytes_ascii]

theorem continuation_ascii {b : UInt8} (h : b.toNat < 128) : continuation b = false := by
  unfold continuation
  have hlow : ¬ (0x80 : UInt8) ≤ b := by
    rw [UInt8.le_iff_toNat_le]
    show ¬ 128 ≤ b.toNat
    omega
  simp [hlow]

theorem decode_pairs_upper (s : String) (bytes : Bytes) :
    decode_pairs s (bytes.flatMap upper_bytes) = .ok bytes := by
  induction bytes with
  | nil => rfl
  | cons b bytes ih =>
    have hmax := b.toNat_lt
    obtain ⟨hhigh, hsign, hascii, -⟩ := upper_byte_digit (show b.toNat / 16 < 16 by omega)
    obtain ⟨hlow, -, -, -⟩ := upper_byte_digit (show b.toNat % 16 < 16 by omega)
    -- A pair never ends within a character, as all of them are ASCII.
    have hnext : ((bytes.flatMap upper_bytes).head?.any continuation) = false := by
      cases hhead : (bytes.flatMap upper_bytes).head? with
      | none => rfl
      | some c =>
        rw [Option.any_some]
        exact continuation_ascii (upper_bytes_ascii c (List.mem_of_mem_head? hhead))
    have hbyte : from_str_radix (upper_byte (b.toNat / 16)) (upper_byte (b.toNat % 16)) =
        some b := by
      unfold from_str_radix
      rw [hlow, hhigh, Option.bind_eq_bind, Option.bind_some, if_neg hsign]
      show some (UInt8.ofNat (b.toNat / 16 * 16 + b.toNat % 16)) = some b
      rw [Nat.div_add_mod' b.toNat 16, UInt8.ofNat_toNat]
    rw [List.flatMap_cons]
    show decode_pairs s (_ :: _ :: bytes.flatMap upper_bytes) = _
    unfold decode_pairs
    rw [bail_if_neg (by simp [continuation_ascii hascii, hnext]),
      bind_of_ok (ok_or_eq_ok.mpr hbyte), bind_of_ok ih]
    rfl

theorem hex_decode_upper (h : Hash256) : hex_decode (hex_encode_upper h) = .ok h.bytes := by
  have hlen : (h.bytes.flatMap upper_bytes).length = 64 := by
    rw [List.length_flatMap]
    show (h.bytes.map fun _ => 2).sum = 64
    rw [List.map_const', List.sum_replicate, h.length_eq]
    rfl
  unfold hex_decode
  dsimp only
  rw [as_bytes_hex_encode_upper, bail_if_neg (by rw [hlen]; decide)]
  exact decode_pairs_upper _ _

theorem locate_bytes (ix : Index) (hash : Hash256) :
    locate ix hash.bytes = ix.locate_tx hash := by
  unfold locate Index.locate_tx
  have hsame : (fun r : TxLocator => decide (r.tx_hash.bytes = hash.bytes)) =
      fun r => decide (r.tx_hash = hash) := by
    funext r
    exact decide_eq_decide.mpr ⟨fun h => Hash256.bytes_inj h, fun h => by rw [h]⟩
  rw [hsame]

/-! ## The rows of both outputs -/

/-- The transactions of ledgers, each with the number of its ledger. -/
def numbered_txns (tx_maps : List TxMap) : List (UInt32 × TxRecord) :=
  tx_maps.flatMap fun m => m.txns.map fun t => (m.ledger_seq, t)

theorem flatMap_numbered {β : Type} (tx_maps : List TxMap) (f : UInt32 → TxRecord → List β) :
    ((numbered_txns tx_maps).flatMap fun p => f p.1 p.2) =
      tx_maps.flatMap fun m => m.txns.flatMap (f m.ledger_seq) := by
  unfold numbered_txns
  rw [List.flatMap_assoc]
  congr 1
  funext m
  rw [List.flatMap_map]

theorem mem_numbered_txns {tx_maps : List TxMap} {p : UInt32 × TxRecord} :
    p ∈ numbered_txns tx_maps ↔ ∃ m ∈ tx_maps, ∃ t ∈ m.txns, (m.ledger_seq, t) = p := by
  unfold numbered_txns
  simp only [List.mem_flatMap, List.mem_map]

/-- The database and the index hold the rows of the same transactions. -/
structure OwnOutput (sha256 : Bytes → Hash256) (txns : List (UInt32 × TxRecord))
    (db : TransactionDb) (ix : Index) : Prop where
  ids : (txns.map fun p => p.2.tx_hash).Nodup
  decodable : ∀ p ∈ txns, ∃ rows, transaction_rows sha256 p.1 p.2 = .ok rows
  stored : db.transactions.rows = txns.filterMap fun p => transaction_of sha256 p.1 p.2
  history : db.account_transactions = txns.flatMap fun p => account_rows sha256 p.1 p.2
  entries : ix.file.account_tx.rows = txns.flatMap fun p => tx_rows p.1 p.2
  located : ∀ p ∈ txns, ∃ n, tx_index p.2 = some n ∧ ix.locate_tx p.2.tx_hash = some (p.1, n)

/-- The columns of a transaction's row. -/
theorem transaction_of_columns {seq : UInt32} {t : TxRecord} {tx : Transaction}
    (h : transaction_of sha256 seq t = some tx) :
    tx.trans_id = hex_encode_upper t.tx_hash ∧ tx.ledger_seq = seq ∧ tx.txn_meta = t.meta_blob := by
  obtain ⟨rows, hrows, rfl⟩ := Option.map_eq_some_iff.mp h
  have hrows := toOption_eq_some.mp hrows
  unfold transaction_rows at hrows
  obtain ⟨f, -, hrows⟩ := bind_eq_ok.mp hrows
  obtain ⟨name, -, hrows⟩ := bind_eq_ok.mp hrows
  obtain ⟨summary, -, hrows⟩ := bind_eq_ok.mp hrows
  rw [← pure_eq_ok.mp hrows]
  exact ⟨rfl, rfl, rfl⟩

namespace OwnOutput

variable {txns : List (UInt32 × TxRecord)} {db : TransactionDb} {ix : Index} {args : Args}
  (ho : OwnOutput sha256 txns db ix)

include ho

theorem ids_upper : (txns.map fun p => hex_encode_upper p.2.tx_hash).Nodup := by
  have hmap := ho.ids.map fun _ _ => hex_encode_upper_inj
  rwa [List.map_map] at hmap

/-- The history of a transaction is its rows. -/
theorem rows_of_eq {p : UInt32 × TxRecord} (hp : p ∈ txns) :
    rows_of db (hex_encode_upper p.2.tx_hash) = account_rows sha256 p.1 p.2 := by
  unfold rows_of
  rw [ho.history]
  refine @Table.filter_flatMap_key _ _ AccountTransaction.trans_id _ _ _
    (fun p => hex_encode_upper p.2.tx_hash) ho.ids_upper _ (fun q _ r hr => ?_) p hp
  obtain ⟨a, -, rfl⟩ := List.mem_map.mp hr
  rfl

/-- So are its rows in the index, when its ledger is in the range. -/
theorem index_rows_eq {p : UInt32 × TxRecord} (hp : p ∈ txns) (hrange : in_range args p.1 = true) :
    index_rows ix args (hex_encode_upper p.2.tx_hash) = tx_rows p.1 p.2 := by
  have hcolumns : ∀ (q : UInt32 × TxRecord), ∀ r ∈ tx_rows q.1 q.2,
      r.tx_hash = q.2.tx_hash ∧ r.ledger_seq = q.1 := by
    intro q r hr
    unfold tx_rows at hr
    split at hr
    · obtain ⟨a, -, rfl⟩ := List.mem_map.mp hr
      exact ⟨rfl, rfl⟩
    · cases hr
  -- No other transaction has this id.
  have hmine : (txns.flatMap fun q => tx_rows q.1 q.2).filter (fun r =>
      hex_encode_upper r.tx_hash = hex_encode_upper p.2.tx_hash) = tx_rows p.1 p.2 := by
    refine @Table.filter_flatMap_key _ _ (fun r : AccountTx => hex_encode_upper r.tx_hash) _ _ _
      (fun p => hex_encode_upper p.2.tx_hash) ho.ids_upper _ (fun q _ r hr => ?_) p hp
    rw [(hcolumns q r hr).1]
  unfold index_rows
  rw [ho.entries, List.filter_filter]
  have hboth : ∀ l : List AccountTx, l.filter (fun r =>
      decide (hex_encode_upper r.tx_hash = hex_encode_upper p.2.tx_hash) &&
        in_range args r.ledger_seq) =
      (l.filter fun r => hex_encode_upper r.tx_hash = hex_encode_upper p.2.tx_hash).filter
        fun r => in_range args r.ledger_seq := by
    intro l
    rw [List.filter_filter]
    congr 1
    funext r
    exact Bool.and_comm _ _
  rw [hboth, hmine, List.filter_eq_self]
  intro r hr
  rw [(hcolumns p r hr).2]
  exact hrange

/-- The rows of the database in the range are those of the transactions. -/
theorem mem_transactions {tx : Transaction} : tx ∈ transactions db args ↔
    ∃ p ∈ txns, in_range args p.1 = true ∧ transaction_of sha256 p.1 p.2 = some tx := by
  rw [(transactions_perm db args).mem_iff, List.mem_filter, ho.stored, List.mem_filterMap]
  constructor
  · rintro ⟨⟨p, hp, htx⟩, hrange⟩
    rw [(transaction_of_columns htx).2.1] at hrange
    exact ⟨p, hp, hrange, htx⟩
  · rintro ⟨p, hp, hrange, htx⟩
    refine ⟨⟨p, hp, htx⟩, ?_⟩
    rw [(transaction_of_columns htx).2.1]
    exact hrange

theorem rule_matches_iff {p : UInt32 × TxRecord} (hp : p ∈ txns) {tx : Transaction}
    (htx : transaction_of sha256 p.1 p.2 = some tx) :
    (∃ summary, RuleMatches sha256 db tx summary) ↔
      (affected_accounts p.2 = [] → tx.trans_type ∈ PSEUDO_TYPES) := by
  obtain ⟨hid, -, hmeta⟩ := transaction_of_columns htx
  obtain ⟨rows, hrows⟩ := ho.decodable p hp
  obtain ⟨-, -, summary, hsummary⟩ := transaction_rows_ok hrows
  obtain ⟨n, hn, -⟩ := ho.located p hp
  have haffected : affected_accounts p.2 = summary.affected_accounts := by
    unfold affected_accounts
    rw [hsummary]
  have hindex : summary.transaction_index = some n := by
    unfold tx_index at hn
    rwa [hsummary] at hn
  -- The importer writes a row for each affected account.
  have hnil : account_rows sha256 p.1 p.2 = [] ↔ affected_accounts p.2 = [] := by
    unfold account_rows
    exact List.map_eq_nil_iff
  constructor
  · rintro ⟨summary', hm⟩ hnone
    apply hm.someone
    rw [hid, ho.rows_of_eq hp, hnil]
    exact hnone
  · intro hpseudo
    refine ⟨summary, by rw [hmeta, hsummary], ?_, ?_, ?_⟩
    · rw [hid, ho.rows_of_eq hp, ← haffected]
      unfold account_rows addresses
      rw [List.map_map]
      rfl
    · intro r hr
      rw [hid, ho.rows_of_eq hp] at hr
      obtain ⟨a, -, rfl⟩ := List.mem_map.mp hr
      show tx_index p.2 ≠ none ∧ tx_index p.2 = _
      rw [hn, hindex]
      exact ⟨Option.some_ne_none n, rfl⟩
    · intro hnone
      rw [hid, ho.rows_of_eq hp, hnil] at hnone
      exact hpseudo hnone

theorem entry_matches {p : UInt32 × TxRecord} (hp : p ∈ txns) {tx : Transaction}
    (hrange : in_range args p.1 = true) (htx : transaction_of sha256 p.1 p.2 = some tx) :
    EntryMatches sha256 db ix args tx := by
  obtain ⟨hid, hseq, -⟩ := transaction_of_columns htx
  obtain ⟨n, hn, hlocated⟩ := ho.located p hp
  have hnumber : ∀ r ∈ account_rows sha256 p.1 p.2, r.txn_seq = some n := by
    intro r hr
    obtain ⟨a, -, rfl⟩ := List.mem_map.mp hr
    exact hn
  have htx_rows : tx_rows p.1 p.2 = (affected_accounts p.2).map fun a =>
      { account_id := a, ledger_seq := p.1, txn_seq := n, tx_hash := p.2.tx_hash } := by
    unfold tx_rows
    rw [hn]
  refine ⟨?_, ?_, ?_, ?_⟩
  · intro r hr
    rw [hid, ho.rows_of_eq hp] at hr
    rw [hnumber r hr]
    exact Option.some_ne_none n
  · rw [hid, ho.rows_of_eq hp, ho.index_rows_eq hp hrange, htx_rows]
    unfold account_rows addresses
    rw [List.map_map, List.map_map, List.map_map]
    rfl
  · intro r hr
    rw [hid, ho.index_rows_eq hp hrange, htx_rows] at hr
    obtain ⟨a, -, rfl⟩ := List.mem_map.mp (List.mem_of_getLast? hr)
    refine ⟨hseq.symm, fun q hq => ?_⟩
    rw [hid, ho.rows_of_eq hp] at hq
    exact hnumber q (List.mem_of_getLast? hq)
  · refine ⟨p.2.tx_hash.bytes, by rw [hid, hex_decode_upper], n, ?_, fun q hq => ?_⟩
    · rw [locate_bytes, hlocated, hseq]
    · rw [hid, ho.rows_of_eq hp] at hq
      exact hnumber q (List.mem_of_getLast? hq)

theorem index_matches : IndexMatches sha256 db ix args where
  entries := by
    intro tx htx
    obtain ⟨p, hp, hrange, htx⟩ := ho.mem_transactions.mp htx
    exact ho.entry_matches hp hrange htx
  only := by
    intro r hr hrange
    rw [ho.entries] at hr
    obtain ⟨p, hp, hr⟩ := List.mem_flatMap.mp hr
    obtain ⟨rows, hrows⟩ := ho.decodable p hp
    have htx : transaction_of sha256 p.1 p.2 = some rows.1 := transaction_of_ok hrows
    obtain ⟨n, hn, -⟩ := ho.located p hp
    unfold tx_rows at hr
    rw [hn] at hr
    obtain ⟨a, -, rfl⟩ := List.mem_map.mp hr
    exact ⟨rows.1, ho.mem_transactions.mpr ⟨p, hp, hrange, htx⟩, (transaction_of_columns htx).1⟩

end OwnOutput

/-! ## From a chunk file -/

/-- The outputs of the importer and of the indexer for one file. -/
theorem own_output {xxh64 : Bytes → UInt64 → UInt64} {fuel : Nat} {verify exists_ : Bool}
    {dest : String} {file : Bytes} {rows : List LedgerDbRow} {store : Bytes × Bytes}
    {db : TransactionDb} {taken force : Bool} {chunk_path out_path : String} {index_file : IndexFile}
    {report : BuildReport}
    (himport : import_main_txdb sha256 xxh64 sha512half fuel verify exists_ dest [file] =
      .ok (rows, store, db))
    (hbuild : build_index sha512half taken force chunk_path out_path file = .ok (index_file, report)) :
    ∃ chunk ix, FileHolds sha512half file chunk ∧ Index.open out_path index_file = .ok ix ∧
      OwnOutput sha256 (numbered_txns chunk.tx_maps) db ix := by
  obtain ⟨chunks, hchunks, sink, hsink, rfl⟩ := import_main_txdb_ok himport
  obtain ⟨header, body, rest, chunk, s, ix, hl, hopen, hi, hledgers, -⟩ := built_index hbuild
  obtain ⟨chunk', hheld, rfl⟩ : ∃ c, FileHolds sha512half file c ∧ chunks = [c] := by
    cases hchunks with
    | cons h hnil =>
      cases hnil
      exact ⟨_, h, rfl⟩
  have hsame : FileHolds sha512half file chunk := by
    unfold FileHolds
    rw [if_pos hl.version]
    exact ⟨header, body, rest, hl⟩
  obtain rfl := hheld.unique hsame
  rw [List.flatMap_singleton] at hsink
  -- The indexer located every transaction, and the importer decoded it.
  have hlocated : ∀ p ∈ numbered_txns chunk'.tx_maps,
      ∃ n, tx_index p.2 = some n ∧ ix.locate_tx p.2.tx_hash = some (p.1, n) := by
    intro p hp
    obtain ⟨m, hm, t, ht, rfl⟩ := mem_numbered_txns.mp hp
    exact hi.located hledgers hm ht
  have hdecodable : ∀ p ∈ numbered_txns chunk'.tx_maps,
      ∃ rows, transaction_rows sha256 p.1 p.2 = .ok rows := by
    intro p hp
    obtain ⟨m, hm, t, ht, rfl⟩ := mem_numbered_txns.mp hp
    exact hsink.decodable m hm t ht
  -- No id comes twice: it would come twice in the locator.
  have hids : ((numbered_txns chunk'.tx_maps).map fun p => p.2.tx_hash).Nodup := by
    have hloc : s.loc.rows = (numbered_txns chunk'.tx_maps).filterMap fun p =>
        tx_location p.1 p.2 := by
      rw [hledgers.loc, List.filterMap_eq_flatMap_toList,
        flatMap_numbered chunk'.tx_maps fun seq t => (tx_location seq t).toList]
      show [] ++ _ = _
      rw [List.nil_append]
      congr 1
      funext m
      exact List.filterMap_eq_flatMap_toList _ _
    have hprimary := s.loc.primary
    rw [hloc, List.map_filterMap] at hprimary
    rw [← List.filterMap_eq_map]
    convert hprimary using 1
    apply List.filterMap_congr
    intro p hp
    obtain ⟨n, hn, -⟩ := hlocated p hp
    unfold tx_location
    rw [hn]
    rfl
  refine ⟨chunk', ix, hheld, hopen, hids, hdecodable, ?_, ?_, ?_, hlocated⟩
  · have hbatch : chunk'.tx_maps.flatMap (ledger_transactions sha256) =
        (numbered_txns chunk'.tx_maps).filterMap fun p => transaction_of sha256 p.1 p.2 := by
      rw [List.filterMap_eq_flatMap_toList,
        flatMap_numbered chunk'.tx_maps fun seq t => (transaction_of sha256 seq t).toList]
      congr 1
      funext m
      exact List.filterMap_eq_flatMap_toList _ _
    -- The ids are the keys of the table, so no row replaces another.
    have hkeys : ((numbered_txns chunk'.tx_maps).filterMap fun p =>
        transaction_of sha256 p.1 p.2).map Transaction.trans_id =
        (numbered_txns chunk'.tx_maps).map fun p => hex_encode_upper p.2.tx_hash := by
      rw [List.map_filterMap, ← List.filterMap_eq_map]
      apply List.filterMap_congr
      intro p hp
      obtain ⟨rows, hrows⟩ := hdecodable p hp
      rw [transaction_of_ok hrows, Option.map_some, (transaction_rows_ok hrows).1]
      rfl
    have hupper := hids.map fun _ _ => hex_encode_upper_inj
    rw [List.map_map] at hupper
    have hstart : TxDbSink.fresh.transactions.rows = [] := rfl
    show sink.transactions.rows = _
    rw [hsink.transactions, hbatch, Table.foldl_replace_rows, hstart, List.nil_append]
    rw [hstart, List.map_nil, List.nil_append, hkeys]
    exact hupper
  · show sink.account_transactions = _
    rw [hsink.accounts, flatMap_numbered chunk'.tx_maps fun seq t => account_rows sha256 seq t]
    rfl
  · rw [hi.acct, hledgers.acct, flatMap_numbered chunk'.tx_maps fun seq t => tx_rows seq t]
    rfl

/-- Only pseudo-transactions of the range affect no account. -/
def NobodyIsPseudo (sha256 : Bytes → Hash256) (chunk : Chunk) (args : Args) : Prop :=
  ∀ m ∈ chunk.tx_maps, in_range args m.ledger_seq = true → ∀ t ∈ m.txns,
    affected_accounts t = [] → ∀ tx, transaction_of sha256 m.ledger_seq t = some tx →
      tx.trans_type ∈ PSEUDO_TYPES

/-- The importer's database passes the comparison, alone and against the
    index of the same chunk, on every range in which few enough ledgers are
    empty and only pseudo-transactions affect no account. -/
theorem difftest_own_output {xxh64 : Bytes → UInt64 → UInt64} {fuel : Nat} {verify exists_ : Bool}
    {dest : String} {file : Bytes} {rows : List LedgerDbRow} {store : Bytes × Bytes}
    {db : TransactionDb} {taken force : Bool} {chunk_path out_path : String} {index_file : IndexFile}
    {report : BuildReport}
    (himport : import_main_txdb sha256 xxh64 sha512half fuel verify exists_ dest [file] =
      .ok (rows, store, db))
    (hbuild : build_index sha512half taken force chunk_path out_path file = .ok (index_file, report)) :
    ∃ chunk, FileHolds sha512half file chunk ∧
      ∀ (args : Args) (index : Option (String × IndexFile)),
        (index = none ∨ index = some (out_path, index_file)) →
          (difftest sha256 db index args = .ok () ↔
            args.from ≤ args.«to» ∧ Covered db args ∧ NobodyIsPseudo sha256 chunk args) := by
  obtain ⟨chunk, ix, hheld, hopen, ho⟩ := own_output himport hbuild
  refine ⟨chunk, hheld, fun args index hindex => ?_⟩
  have hix : ∀ path file', index = some (path, file') →
      ∃ ix, Index.open path file' = .ok ix ∧ IndexMatches sha256 db ix args := by
    intro path file' heq
    rcases hindex with rfl | rfl
    · cases heq
    · cases heq
      exact ⟨ix, hopen, ho.index_matches⟩
  rw [difftest_ok_iff]
  refine and_congr_right fun _ => and_congr_right fun _ => ?_
  constructor
  · rintro ⟨hrule, -⟩ m hm hrange t ht hnone tx htx
    have hp : (m.ledger_seq, t) ∈ numbered_txns chunk.tx_maps :=
      mem_numbered_txns.mpr ⟨m, hm, t, ht, rfl⟩
    exact (ho.rule_matches_iff hp htx).mp
      (hrule tx (ho.mem_transactions.mpr ⟨_, hp, hrange, htx⟩)) hnone
  · intro hpseudo
    refine ⟨fun tx htx => ?_, hix⟩
    obtain ⟨p, hp, hrange, htx⟩ := ho.mem_transactions.mp htx
    obtain ⟨m, hm, t, ht, rfl⟩ := mem_numbered_txns.mp hp
    exact (ho.rule_matches_iff hp htx).mpr fun hnone => hpseudo m hm hrange t ht hnone tx htx

theorem paid_file_indexed :
    (build_index sha2_sha512half false false "7.xrla" "7.idx" paid_file).toOption.isSome = true := by
  decide +kernel

theorem difftest_own_output_paid : ∃ rows store db index_file report,
    paid_import [paid_file] = .ok (rows, store, db) ∧
      build_index sha2_sha512half false false "7.xrla" "7.idx" paid_file = .ok (index_file, report) ∧
      ∃ chunk, FileHolds sha2_sha512half paid_file chunk ∧
        ∀ (args : Args) (index : Option (String × IndexFile)),
          (index = none ∨ index = some ("7.idx", index_file)) →
            (difftest sha2_sha256 db index args = .ok () ↔
              args.from ≤ args.«to» ∧ Covered db args ∧ NobodyIsPseudo sha2_sha256 chunk args) := by
  obtain ⟨⟨rows, store, db⟩, himport⟩ := exists_ok_of_isSome paid_file_accepted
  obtain ⟨⟨index_file, report⟩, hbuild⟩ := exists_ok_of_isSome paid_file_indexed
  exact ⟨rows, store, db, index_file, report, himport, hbuild, difftest_own_output himport hbuild⟩

end LedgerArchive.Difftest
