import LedgerArchive.Import.TxDb
import LedgerArchive.Import.Verified

/-! # The two writers of account history

    `write_ledger` and `index_ledger` write the rows of the same ledger, one
    for xrpld and one for the index of the chunk. Only the second one looks
    at the numbers of the transactions and refuses an id that comes twice.
    The rows agree when there is nothing to refuse, and then only
    (`writers_agree_iff`). -/

namespace LedgerArchive

open Lib

variable {sha256 sha512half : Bytes → Hash256}

/-! ## Agreement -/

/-- A row of `account_tx` as a row of `AccountTransactions`. -/
def AccountTx.to_history (sha256 : Bytes → Hash256) (r : AccountTx) : AccountTransaction :=
  { trans_id := hex_encode_upper r.tx_hash,
    account := account_id_to_classic_address sha256 r.account_id, ledger_seq := r.ledger_seq,
    txn_seq := some r.txn_seq }

/-- The sink expects the ledger next and has not indexed any of it. -/
structure Sink.ReadyFor (s : Sink) (m : TxMap) : Prop where
  next : m.ledger_seq = s.start_ledger + s.ledgers
  acct : ∀ r ∈ s.acct.rows, r.ledger_seq ≠ m.ledger_seq
  loc : ∀ r ∈ s.loc.rows, ∀ t ∈ m.txns, r.tx_hash ≠ t.tx_hash

/-- The rows that `write_ledger` inserts are those of the index, and they
    number the transactions from zero on. -/
structure WritersAgree (sha256 sha512half : Bytes → Hash256) (m : TxMap)
    (inserted : List AccountTransaction) : Prop where
  same_rows : ∀ s : Sink, s.ReadyFor m → ∃ s' rows, index_ledger sha512half s m = .ok s' ∧
    s'.acct.rows = s.acct.rows ++ rows ∧ inserted = rows.map (AccountTx.to_history sha256)
  numbered : ∃ ns : List UInt32, (ns.map UInt32.toNat).Perm (List.range m.txns.length) ∧
    inserted = (m.txns.zip ns).flatMap fun (t, n) => (affected_accounts t).map fun a =>
      { trans_id := hex_encode_upper t.tx_hash,
        account := account_id_to_classic_address sha256 a, ledger_seq := m.ledger_seq,
        txn_seq := some n }

/-- The metadata numbers the transactions of the ledger from zero on, and no
    two have the same id. -/
structure WellNumbered (m : TxMap) : Prop where
  indices : ∃ ns : List UInt32, m.txns.map tx_index = ns.map some ∧
    (ns.map UInt32.toNat).Perm (List.range m.txns.length)
  ids : (m.txns.map TxRecord.tx_hash).Nodup

/-! ## The index of a well-numbered ledger -/

theorem index_accounts_exists {seq n : UInt32} {t : TxRecord} {accounts : List AccountID} {s : Sink}
    (hnd : accounts.Nodup)
    (hnew : ∀ r ∈ s.acct.rows, ¬ (r.ledger_seq = seq ∧ r.txn_seq = n ∧ r.account_id ∈ accounts)) :
    ∃ s', index_accounts seq n t accounts s = .ok s' := by
  unfold index_accounts
  induction accounts generalizing s with
  | nil => exact ⟨s, foldlM_nil_ok.mpr rfl⟩
  | cons a accounts ih =>
    obtain ⟨ha, hrest⟩ := List.nodup_cons.mp hnd
    let row : AccountTx := { account_id := a, ledger_seq := seq, txn_seq := n, tx_hash := t.tx_hash }
    have hkey : row.key ∉ s.acct.rows.map AccountTx.key := by
      intro hmem
      obtain ⟨r, hr, heq⟩ := List.mem_map.mp hmem
      unfold AccountTx.key at heq
      rw [Prod.mk.injEq, Prod.mk.injEq] at heq
      obtain ⟨haccount, hseq, hn⟩ := heq
      refine hnew r hr ⟨hseq, hn, ?_⟩
      rw [haccount]
      exact List.mem_cons_self
    obtain ⟨acct, hinsert⟩ := Table.exists_insert hkey
    have hrows := Table.insert_rows hinsert
    obtain ⟨s', hs'⟩ := @ih { s with acct, rows := s.rows + 1 } hrest (by
      intro r hr
      have hr' : r ∈ acct.rows := hr
      rw [hrows, List.mem_append, List.mem_singleton] at hr'
      rintro ⟨hseq, hn, hmem⟩
      rcases hr' with hr' | rfl
      · exact hnew r hr' ⟨hseq, hn, List.mem_cons_of_mem _ hmem⟩
      · exact ha hmem)
    exact ⟨s', foldlM_cons_ok.mpr ⟨_, bind_eq_ok.mpr ⟨acct, ok_or_eq_ok.mpr hinsert, rfl⟩, hs'⟩⟩

/-- A transaction that can be indexed: authentic, with readable metadata
    that numbers it. -/
structure Indexable (sha512half : Bytes → Hash256) (t : TxRecord) (n : UInt32) : Prop where
  authentic : calculate_tx_id sha512half t.tx_blob = t.tx_hash
  decoded : ∃ summary, summarize_meta t.meta_blob = .ok summary
  number : tx_index t = some n

theorem index_transaction_exists {seq n : UInt32} {t : TxRecord} {s : Sink}
    (ht : Indexable sha512half t n)
    (hacct : ∀ r ∈ s.acct.rows, ¬ (r.ledger_seq = seq ∧ r.txn_seq = n))
    (hloc : ∀ r ∈ s.loc.rows, r.tx_hash ≠ t.tx_hash) :
    ∃ s', index_transaction sha512half seq s t = .ok s' := by
  obtain ⟨summary, hsummary⟩ := ht.decoded
  have hn : summary.transaction_index = some n := by
    have hnumber := ht.number
    unfold tx_index at hnumber
    rw [hsummary] at hnumber
    exact hnumber
  have hnd : summary.affected_accounts.Nodup := by
    have hnodup := affected_accounts_nodup t
    unfold affected_accounts at hnodup
    rw [hsummary] at hnodup
    exact hnodup
  obtain ⟨s₁, hs₁⟩ := @index_accounts_exists seq n t summary.affected_accounts
    { s with indices := s.indices ++ [n] } hnd fun r hr h => hacct r hr ⟨h.1, h.2.1⟩
  obtain ⟨acct, rows, rfl, -⟩ := index_accounts_ok hs₁
  obtain ⟨loc, hinsert⟩ := @Table.exists_insert _ _ TxLocator.tx_hash _ s.loc
    { tx_hash := t.tx_hash, ledger_seq := seq, txn_seq := n } (by
      intro hmem
      obtain ⟨r, hr, heq⟩ := List.mem_map.mp hmem
      exact hloc r hr heq)
  unfold index_transaction
  rw [bail_if_neg (not_not.mpr ht.authentic), bind_of_ok (with_context_eq_ok.mpr hsummary),
    bind_of_ok (ok_or_eq_ok.mpr hn), bind_of_ok hs₁, bind_of_ok (ok_or_eq_ok.mpr hinsert)]
  exact ⟨_, rfl⟩

/-- Each transaction is indexed when the numbers and the ids are new and no
    two of them are the same. -/
theorem index_transactions_exists {seq : UInt32} {txns : List TxRecord} {ns : List UInt32} {s : Sink}
    (htxns : List.Forall₂ (Indexable sha512half) txns ns) (hns : ns.Nodup)
    (hids : (txns.map TxRecord.tx_hash).Nodup)
    (hacct : ∀ r ∈ s.acct.rows, r.ledger_seq = seq → r.txn_seq ∉ ns)
    (hloc : ∀ r ∈ s.loc.rows, r.tx_hash ∉ txns.map TxRecord.tx_hash) :
    ∃ s', txns.foldlM (index_transaction sha512half seq) s = .ok s' := by
  induction htxns generalizing s with
  | nil => exact ⟨s, foldlM_nil_ok.mpr rfl⟩
  | @cons t n txns ns ht htxns ih =>
    obtain ⟨hn, hns⟩ := List.nodup_cons.mp hns
    rw [List.map_cons] at hids hloc
    obtain ⟨hid, hids⟩ := List.nodup_cons.mp hids
    obtain ⟨s₁, hs₁⟩ := @index_transaction_exists _ seq n t s ht
      (fun r hr h => hacct r hr h.1 (h.2 ▸ List.mem_cons_self))
      (fun r hr h => hloc r hr (h ▸ List.mem_cons_self))
    have hindexed := index_transaction_ok hs₁
    obtain ⟨s', hs'⟩ := @ih s₁ hns hids (by
      intro r hr hseq hmem
      rw [hindexed.acct, List.mem_append, List.flatMap_singleton] at hr
      rcases hr with hr | hr
      · exact hacct r hr hseq (List.mem_cons_of_mem _ hmem)
      · unfold tx_rows at hr
        rw [ht.number] at hr
        obtain ⟨a, -, rfl⟩ := List.mem_map.mp hr
        exact hn hmem) (by
      intro r hr hmem
      rw [hindexed.loc, List.mem_append] at hr
      rcases hr with hr | hr
      · exact hloc r hr (List.mem_cons_of_mem _ hmem)
      · unfold tx_location at hr
        rw [List.filterMap_cons, ht.number] at hr
        rw [List.mem_singleton.mp hr] at hmem
        exact hid hmem)
    exact ⟨s', foldlM_cons_ok.mpr ⟨s₁, hs₁, hs'⟩⟩

/-- Numbers from zero on, in whatever order, pass the check. -/
theorem check_indices_of_perm {seq : UInt32} {indices : List UInt32}
    (h : (indices.map UInt32.toNat).Perm (List.range indices.length)) :
    check_indices seq indices = .ok () := by
  have hsorted : (indices.insertionSort fun a b => a.toNat ≤ b.toNat).map UInt32.toNat =
      List.range indices.length := by
    have hperm := (List.perm_insertionSort (fun a b : UInt32 => a.toNat ≤ b.toNat) indices).map
      UInt32.toNat
    have hle := List.pairwise_map.mpr (insertionSort_key_pairwise UInt32.toNat indices)
    exact (hperm.trans h).eq_of_pairwise' hle (List.pairwise_le_range)
  unfold check_indices
  rw [forM_eq_ok]
  rintro ⟨n, i⟩ hmem
  have hget := List.mem_zipIdx_iff_getElem?.mp hmem
  have hat : (List.range indices.length)[i]? = some n.toNat := by
    rw [← hsorted, List.getElem?_map, hget, Option.map_some]
  obtain ⟨hlt, hi⟩ := List.getElem?_eq_some_iff.mp hat
  rw [List.getElem_range] at hi
  rw [bail_if_eq_ok, ← hi]
  exact not_not.mpr rfl

theorem indexables {txns : List TxRecord} {ns : List UInt32} (hns : txns.map tx_index = ns.map some)
    (hauth : ∀ t ∈ txns, calculate_tx_id sha512half t.tx_blob = t.tx_hash)
    (hdecoded : ∀ t ∈ txns, ∃ summary, summarize_meta t.meta_blob = .ok summary) :
    List.Forall₂ (Indexable sha512half) txns ns := by
  induction txns generalizing ns with
  | nil =>
    rw [List.map_eq_nil_iff.mp hns.symm]
    exact .nil
  | cons t txns ih =>
    cases ns with
    | nil => cases hns
    | cons n ns =>
      rw [List.forall_mem_cons] at hauth hdecoded
      rw [List.map_cons, List.map_cons, List.cons.injEq] at hns
      exact .cons ⟨hauth.1, hdecoded.1, hns.1⟩ (ih hns.2 hauth.2 hdecoded.2)

theorem index_ledger_exists {m : TxMap} {s : Sink} (hm : WellNumbered m) (hs : s.ReadyFor m)
    (hauth : ∀ t ∈ m.txns, calculate_tx_id sha512half t.tx_blob = t.tx_hash)
    (hdecoded : ∀ t ∈ m.txns, ∃ summary, summarize_meta t.meta_blob = .ok summary) :
    ∃ s', index_ledger sha512half s m = .ok s' := by
  obtain ⟨ns, hns, hperm⟩ := hm.indices
  have hlength : m.txns.length = ns.length := by
    simpa using congrArg List.length hns
  have hnodup : ns.Nodup := List.Nodup.of_map UInt32.toNat (hperm.nodup_iff.mpr List.nodup_range)
  have htxns := indexables hns hauth hdecoded
  obtain ⟨s₁, hs₁⟩ := @index_transactions_exists _ m.ledger_seq _ _ { s with indices := [] }
    htxns hnodup hm.ids (fun r hr hseq => absurd hseq (hs.acct r hr)) (by
      intro r hr hmem
      obtain ⟨t, ht, heq⟩ := List.mem_map.mp hmem
      exact hs.loc r hr t ht heq.symm)
  have hindices : s₁.indices = ns := by
    obtain ⟨ns', hns', heq⟩ := (index_transactions_ok hs₁).indices
    rw [heq]
    exact List.map_injective_iff.mpr (Option.some_injective _) (hns'.symm.trans hns)
  unfold index_ledger
  rw [bail_if_neg (not_not.mpr hs.next), bind_of_ok hs₁, hindices,
    bind_of_ok (check_indices_of_perm (hlength ▸ hperm))]
  exact ⟨_, rfl⟩

/-! ## The rows of both -/

theorem tx_rows_history {seq n : UInt32} {t : TxRecord} (h : tx_index t = some n) :
    (tx_rows seq t).map (AccountTx.to_history sha256) = account_rows sha256 seq t := by
  unfold tx_rows account_rows
  rw [h, List.map_map]
  rfl

theorem numbered_rows {seq : UInt32} {txns : List TxRecord} {ns : List UInt32}
    (h : txns.map tx_index = ns.map some) :
    (txns.flatMap (tx_rows seq)).map (AccountTx.to_history sha256) =
        txns.flatMap (account_rows sha256 seq) ∧
      txns.flatMap (account_rows sha256 seq) =
        (txns.zip ns).flatMap fun (t, n) => (affected_accounts t).map fun a =>
          { trans_id := hex_encode_upper t.tx_hash,
            account := account_id_to_classic_address sha256 a, ledger_seq := seq,
            txn_seq := some n } := by
  induction txns generalizing ns with
  | nil => exact ⟨rfl, rfl⟩
  | cons t txns ih =>
    cases ns with
    | nil => cases h
    | cons n ns =>
      rw [List.map_cons, List.map_cons, List.cons.injEq] at h
      obtain ⟨ht, hrest⟩ := h
      obtain ⟨hindex, hzip⟩ := ih hrest
      refine ⟨?_, ?_⟩
      · rw [List.flatMap_cons, List.map_append, tx_rows_history ht, hindex, List.flatMap_cons]
      · rw [List.zip_cons_cons, List.flatMap_cons, List.flatMap_cons, ← hzip]
        unfold account_rows
        rw [ht]

theorem Sink.new_ready (m : TxMap) : (Sink.new m.ledger_seq).ReadyFor m where
  next := (UInt32.add_zero _).symm
  acct := fun _ hr => absurd hr List.not_mem_nil
  loc := fun _ hr => absurd hr List.not_mem_nil

/-- A ledger that the index takes is well numbered. -/
theorem well_numbered_of_index {m : TxMap} {s' : Sink}
    (h : index_ledger sha512half (Sink.new m.ledger_seq) m = .ok s') : WellNumbered m := by
  obtain ⟨-, -, hindexed, hnumbers⟩ := index_ledger_ok h
  obtain ⟨ns, hns, hindices⟩ := hindexed.indices
  have hall : s'.indices = ns := hindices
  have hlength : m.txns.length = ns.length := by
    simpa using congrArg List.length hns
  refine ⟨⟨ns, hns, ?_⟩, ?_⟩
  · rw [hlength, ← hall]
    exact hnumbers
  · have hloc : s'.loc.rows = m.txns.filterMap (tx_location m.ledger_seq) := hindexed.loc
    have hids : (m.txns.filterMap (tx_location m.ledger_seq)).map TxLocator.tx_hash =
        m.txns.map TxRecord.tx_hash := by
      rw [List.map_filterMap, ← List.filterMap_eq_map]
      apply List.filterMap_congr
      intro t ht
      have hmem : tx_index t ∈ ns.map some := hns ▸ List.mem_map_of_mem ht
      obtain ⟨n, -, hn⟩ := List.mem_map.mp hmem
      unfold tx_location
      rw [← hn]
      rfl
    rw [← hids, ← hloc]
    exact s'.loc.primary

/-- On an authentic ledger that the transaction database takes, the two
    writers agree if and only if the ledger is well numbered. -/
theorem writers_agree_iff {m : TxMap} {db db' : TxDbSink}
    (hauth : verify_txns_authentic sha512half m = .ok ())
    (hwrite : db.write_ledger sha256 m = .ok db') :
    ∃ inserted, db'.account_transactions = db.account_transactions ++ inserted ∧
      (WritersAgree sha256 sha512half m inserted ↔ WellNumbered m) := by
  have hholds := write_ledger_ok hwrite
  have hinserted : db'.account_transactions =
      db.account_transactions ++ m.txns.flatMap (account_rows sha256 m.ledger_seq) := by
    rw [hholds.accounts, List.flatMap_singleton]
    rfl
  have hdecoded : ∀ t ∈ m.txns, ∃ summary, summarize_meta t.meta_blob = .ok summary := by
    intro t ht
    obtain ⟨rows, hrows⟩ := hholds.decodable m (List.mem_singleton_self m) t ht
    exact (transaction_rows_ok hrows).2.2
  have hauthentic := verify_txns_authentic_ok.mp hauth
  refine ⟨_, hinserted, fun h => ?_, fun hm => ⟨fun s hs => ?_, ?_⟩⟩
  · obtain ⟨s', -, hindex, -, -⟩ := h.same_rows _ (Sink.new_ready m)
    exact well_numbered_of_index hindex
  · obtain ⟨s', hs'⟩ := index_ledger_exists hm hs hauthentic hdecoded
    obtain ⟨ns, hns, -⟩ := hm.indices
    exact ⟨s', _, hs', (index_ledger_ok hs').2.2.1.acct, (numbered_rows hns).1.symm⟩
  · obtain ⟨ns, hns, hperm⟩ := hm.indices
    exact ⟨ns, hperm, (numbered_rows hns).2⟩

theorem nine_ledger_accepted :
    verify_txns_authentic sha2_sha512half (payment_ledger ZERO_HASH nine_meta) = .ok () ∧
      (TxDbSink.fresh.write_ledger sha2_sha256 (payment_ledger ZERO_HASH nine_meta)).toOption.isSome = true := by
  decide +kernel

theorem nine_ledger_numbered : WellNumbered (payment_ledger ZERO_HASH nine_meta) :=
  ⟨⟨[0], by decide +kernel, by decide⟩, by decide +kernel⟩

theorem writers_agree_nine :
    ∃ db', TxDbSink.fresh.write_ledger sha2_sha256 (payment_ledger ZERO_HASH nine_meta) = .ok db' ∧
      ∃ inserted, db'.account_transactions = [] ++ inserted ∧
        WritersAgree sha2_sha256 sha2_sha512half (payment_ledger ZERO_HASH nine_meta) inserted := by
  obtain ⟨hauth, haccepted⟩ := nine_ledger_accepted
  obtain ⟨db', hdb'⟩ := exists_ok_of_isSome haccepted
  obtain ⟨inserted, hinserted, hiff⟩ := writers_agree_iff hauth hdb'
  exact ⟨db', hdb', inserted, hinserted, hiff.mpr nine_ledger_numbered⟩

/-- The same metadata without its number. -/
def unnumbered_meta : Bytes := nine_meta.drop 6

theorem unnumbered_ledger_accepted :
    verify_txns_authentic sha2_sha512half (payment_ledger ZERO_HASH unnumbered_meta) = .ok () ∧
      (TxDbSink.fresh.write_ledger sha2_sha256 (payment_ledger ZERO_HASH unnumbered_meta)).toOption.isSome =
        true ∧
      (index_ledger sha2_sha512half (Sink.new 7) (payment_ledger ZERO_HASH unnumbered_meta)).toOption.isSome =
        false := by
  decide +kernel

/-- The transaction database takes it, with a row without a number; the
    index does not. -/
theorem writers_disagree_unnumbered :
    verify_txns_authentic sha2_sha512half (payment_ledger ZERO_HASH unnumbered_meta) = .ok () ∧
      ∃ db', TxDbSink.fresh.write_ledger sha2_sha256 (payment_ledger ZERO_HASH unnumbered_meta) = .ok db' ∧
        ∀ inserted, db'.account_transactions = [] ++ inserted →
          ¬ WritersAgree sha2_sha256 sha2_sha512half (payment_ledger ZERO_HASH unnumbered_meta) inserted := by
  obtain ⟨hauth, haccepted, hrefused⟩ := unnumbered_ledger_accepted
  obtain ⟨db', hdb'⟩ := exists_ok_of_isSome haccepted
  refine ⟨hauth, db', hdb', fun inserted _ hagree => ?_⟩
  obtain ⟨s', -, hindex, -, -⟩ := hagree.same_rows _ (Sink.new_ready _)
  have hnew : index_ledger sha2_sha512half (Sink.new 7) (payment_ledger ZERO_HASH unnumbered_meta) = .ok s' :=
    hindex
  rw [hnew] at hrefused
  cases hrefused

end LedgerArchive
