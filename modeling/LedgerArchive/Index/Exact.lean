import LedgerArchive.Common.Layouts
import LedgerArchive.Index.Build
import Mathlib

/-! # The index of a chunk is exact

    What `build_index` has written when it returns: a row for each account
    that the metadata of a transaction affects, in the ledger and under the
    number of that transaction, and nothing else. `IndexExact` says the same
    of the queries. The one thing in it that depends on the file is the
    range of ledgers: the arithmetic on it wraps (`index_exact_iff`). -/

namespace LedgerArchive

open Lib

/-! ## The transactions of a chunk -/

/-- The number of a transaction in its ledger, from the metadata. -/
def tx_index (t : TxRecord) : Option UInt32 :=
  match summarize_meta t.meta_blob with
  | .ok summary => summary.transaction_index
  | .error _ => none

/-- The accounts that the metadata affects. -/
def affected_accounts (t : TxRecord) : List AccountID :=
  match summarize_meta t.meta_blob with
  | .ok summary => summary.affected_accounts
  | .error _ => []

theorem affected_accounts_nodup (t : TxRecord) : (affected_accounts t).Nodup := by
  unfold affected_accounts
  split
  · next summary h =>
    unfold summarize_meta at h
    obtain ⟨s, -, h⟩ := bind_eq_ok.mp h
    obtain ⟨-, h⟩ := bail_if_bind_ok.mp h
    rw [← pure_eq_ok.mp h]
    exact Finset.sort_nodup _ _
  · exact List.nodup_nil

/-- What a query for an account and a range has to say of a transaction. -/
def match_row (account : AccountID) (min max : UInt32) (m : TxMap) (t : TxRecord) :
    Option AccountTxRow :=
  if min ≤ m.ledger_seq ∧ m.ledger_seq ≤ max ∧ account ∈ affected_accounts t then
    (tx_index t).map fun n => { ledger_seq := m.ledger_seq, txn_seq := n, tx_hash := t.tx_hash }
  else none

/-- The matches in the whole chunk, in file order. -/
def Chunk.matching (chunk : Chunk) (account : AccountID) (min max : UInt32) : List AccountTxRow :=
  chunk.tx_maps.flatMap fun m => m.txns.filterMap (match_row account min max m)

/-- The order of the ledgers and, in a ledger, of the transactions. -/
def AccountTxRow.before (a b : AccountTxRow) : Prop :=
  a.ledger_seq < b.ledger_seq ∨ a.ledger_seq = b.ledger_seq ∧ a.txn_seq < b.txn_seq

/-- Every query answers from the chunk, and the chunk is what an index can
    be made of. -/
structure IndexExact (sha512half : Bytes → Hash256) (chunk : Chunk) (index : Index) : Prop where
  account_tx : ∀ account min max limit forward,
    (chunk.matching account min max).length ≤ limit →
      (index.account_tx account min max limit forward none).Perm (chunk.matching account min max) ∧
      (index.account_tx account min max limit forward none).Pairwise fun a b =>
        if forward then a.before b else b.before a
  located : ∀ m ∈ chunk.tx_maps, ∀ t ∈ m.txns, ∃ n, tx_index t = some n ∧
    index.locate_tx t.tx_hash = some (m.ledger_seq, n)
  not_located : ∀ hash, (∀ m ∈ chunk.tx_maps, ∀ t ∈ m.txns, t.tx_hash ≠ hash) →
    index.locate_tx hash = none
  authentic : ∀ m ∈ chunk.tx_maps, ∀ t ∈ m.txns, calculate_tx_id sha512half t.tx_blob = t.tx_hash
  ledgers : chunk.tx_maps.map (fun m => m.ledger_seq.toNat) =
    List.Ico chunk.start_ledger.toNat (chunk.end_ledger.toNat + 1)
  indices : ∀ m ∈ chunk.tx_maps, ∃ indices : List UInt32, m.txns.map tx_index = indices.map some ∧
    (indices.map UInt32.toNat).Perm (List.range m.txns.length)

/-! ## What the loops have written -/

variable {sha512half : Bytes → Hash256}

/-- The rows of a transaction. -/
def tx_rows (seq : UInt32) (t : TxRecord) : List AccountTx :=
  match tx_index t with
  | some n => (affected_accounts t).map fun account =>
      { account_id := account, ledger_seq := seq, txn_seq := n, tx_hash := t.tx_hash }
  | none => []

def tx_location (seq : UInt32) (t : TxRecord) : Option TxLocator :=
  (tx_index t).map fun n => { tx_hash := t.tx_hash, ledger_seq := seq, txn_seq := n }

/-- `s'` is `s` with the transactions indexed as those of ledger `seq`. -/
structure Indexed (sha512half : Bytes → Hash256) (seq : UInt32) (txns : List TxRecord)
    (s s' : Sink) : Prop where
  authentic : ∀ t ∈ txns, calculate_tx_id sha512half t.tx_blob = t.tx_hash
  indices : ∃ ns : List UInt32, txns.map tx_index = ns.map some ∧ s'.indices = s.indices ++ ns
  acct : s'.acct.rows = s.acct.rows ++ txns.flatMap (tx_rows seq)
  loc : s'.loc.rows = s.loc.rows ++ txns.filterMap (tx_location seq)
  start_ledger : s'.start_ledger = s.start_ledger
  ledgers : s'.ledgers = s.ledgers

theorem Indexed.nil (seq : UInt32) (s : Sink) : Indexed sha512half seq [] s s where
  authentic := fun _ ht => absurd ht List.not_mem_nil
  indices := ⟨[], rfl, (List.append_nil _).symm⟩
  acct := (List.append_nil _).symm
  loc := (List.append_nil _).symm
  start_ledger := rfl
  ledgers := rfl

theorem Indexed.append {seq : UInt32} {txns txns' : List TxRecord} {s s' s'' : Sink}
    (h : Indexed sha512half seq txns s s') (h' : Indexed sha512half seq txns' s' s'') :
    Indexed sha512half seq (txns ++ txns') s s'' := by
  obtain ⟨ns, hns, hindices⟩ := h.indices
  obtain ⟨ns', hns', hindices'⟩ := h'.indices
  refine ⟨?_, ⟨ns ++ ns', ?_, ?_⟩, ?_, ?_, h'.start_ledger.trans h.start_ledger,
    h'.ledgers.trans h.ledgers⟩
  · intro t ht
    exact (List.mem_append.mp ht).elim (h.authentic t) (h'.authentic t)
  · rw [List.map_append, List.map_append, hns, hns']
  · rw [hindices', hindices, List.append_assoc]
  · rw [h'.acct, h.acct, List.flatMap_append, List.append_assoc]
  · rw [h'.loc, h.loc, List.filterMap_append, List.append_assoc]

/-- The rows of the affected accounts are appended; nothing else changes
    but their count. -/
theorem index_accounts_ok {seq n : UInt32} {t : TxRecord} {accounts : List AccountID} {s s' : Sink}
    (h : index_accounts seq n t accounts s = .ok s') :
    ∃ acct rows, s' = { s with acct, rows } ∧
      acct.rows = s.acct.rows ++ accounts.map fun account =>
        { account_id := account, ledger_seq := seq, txn_seq := n, tx_hash := t.tx_hash } := by
  unfold index_accounts at h
  induction accounts generalizing s with
  | nil =>
    rw [foldlM_nil_ok] at h
    exact ⟨s.acct, s.rows, h.symm, (List.append_nil _).symm⟩
  | cons account accounts ih =>
    obtain ⟨s₁, h₁, h⟩ := foldlM_cons_ok.mp h
    obtain ⟨acct₁, hinsert, h₁⟩ := bind_eq_ok.mp h₁
    have hrows := Table.insert_rows (ok_or_eq_ok.mp hinsert)
    rw [← pure_eq_ok.mp h₁] at h
    obtain ⟨acct, rows, hs', hacct⟩ := ih h
    refine ⟨acct, rows, hs', ?_⟩
    rw [hacct]
    show acct₁.rows ++ _ = _
    rw [hrows, List.append_assoc, List.singleton_append, List.map_cons]

theorem index_transaction_ok {seq : UInt32} {t : TxRecord} {s s' : Sink}
    (h : index_transaction sha512half seq s t = .ok s') : Indexed sha512half seq [t] s s' := by
  unfold index_transaction at h
  obtain ⟨hid, h⟩ := bail_if_bind_ok.mp h
  obtain ⟨summary, hsummary, h⟩ := bind_eq_ok.mp h
  obtain ⟨n, hn, h⟩ := bind_eq_ok.mp h
  obtain ⟨s₁, hs₁, h⟩ := bind_eq_ok.mp h
  obtain ⟨loc, hloc, h⟩ := bind_eq_ok.mp h
  rw [with_context_eq_ok] at hsummary
  rw [ok_or_eq_ok] at hn
  obtain ⟨acct, rows, rfl, hacct⟩ := index_accounts_ok hs₁
  have hlocated := Table.insert_rows (ok_or_eq_ok.mp hloc)
  have hindex : tx_index t = some n := by
    unfold tx_index
    rw [hsummary]
    exact hn
  have haffected : affected_accounts t = summary.affected_accounts := by
    unfold affected_accounts
    rw [hsummary]
  rw [← pure_eq_ok.mp h]
  refine ⟨?_, ⟨[n], ?_, rfl⟩, ?_, ?_, rfl, rfl⟩
  · intro t' ht'
    rw [List.mem_singleton.mp ht']
    exact not_not.mp hid
  · rw [List.map_singleton, List.map_singleton, hindex]
  · rw [List.flatMap_singleton, tx_rows, hindex, haffected]
    exact hacct
  · rw [List.filterMap_cons, tx_location, hindex]
    exact hlocated

theorem index_transactions_ok {seq : UInt32} {txns : List TxRecord} {s s' : Sink}
    (h : txns.foldlM (index_transaction sha512half seq) s = .ok s') :
    Indexed sha512half seq txns s s' := by
  induction txns generalizing s with
  | nil =>
    rw [foldlM_nil_ok.mp h]
    exact Indexed.nil seq s'
  | cons t txns ih =>
    obtain ⟨s₁, h₁, h⟩ := foldlM_cons_ok.mp h
    exact (index_transaction_ok h₁).append (ih h)

/-- The numbers that pass are those from zero on, in some order. -/
theorem check_indices_ok {seq : UInt32} {indices : List UInt32}
    (h : check_indices seq indices = .ok ()) :
    (indices.map UInt32.toNat).Perm (List.range indices.length) := by
  unfold check_indices at h
  rw [forM_eq_ok] at h
  have hperm := List.perm_insertionSort (fun a b : UInt32 => a.toNat ≤ b.toNat) indices
  have hsorted : (indices.insertionSort fun a b => a.toNat ≤ b.toNat).map UInt32.toNat =
      List.range indices.length := by
    apply List.ext_getElem
    · rw [List.length_map, hperm.length_eq, List.length_range]
    · intro i hi hi'
      rw [List.getElem_map, List.getElem_range]
      rw [List.length_map] at hi
      have hat := List.getElem?_eq_getElem hi
      exact not_not.mp (bail_if_eq_ok.mp (h (_, i) (List.mem_zipIdx_iff_getElem?.mpr hat)))
  rw [← hsorted]
  exact (hperm.map UInt32.toNat).symm

theorem index_ledger_ok {m : TxMap} {s s' : Sink} (h : index_ledger sha512half s m = .ok s') :
    m.ledger_seq = s.start_ledger + s.ledgers ∧ s'.ledgers = s.ledgers + 1 ∧
      Indexed sha512half m.ledger_seq m.txns { s with indices := [] } { s' with ledgers := s.ledgers } ∧
      (s'.indices.map UInt32.toNat).Perm (List.range s'.indices.length) := by
  unfold index_ledger at h
  obtain ⟨hseq, h⟩ := bail_if_bind_ok.mp h
  obtain ⟨s₁, h₁, h⟩ := bind_eq_ok.mp h
  obtain ⟨u, hcheck, h⟩ := bind_eq_ok.mp h
  have hindexed := index_transactions_ok h₁
  have hs' := pure_eq_ok.mp h
  have hback : { s' with ledgers := s.ledgers } = s₁ := by
    rw [← hs', ← hindexed.ledgers]
  refine ⟨not_not.mp hseq, ?_, ?_, ?_⟩
  · rw [← hs', hindexed.ledgers]
  · rw [hback]
    exact hindexed
  · rw [← hs']
    exact check_indices_ok hcheck

/-- `s'` is `s` with all the ledgers indexed. -/
structure LedgersIndexed (sha512half : Bytes → Hash256) (tx_maps : List TxMap) (s s' : Sink) :
    Prop where
  authentic : ∀ m ∈ tx_maps, ∀ t ∈ m.txns, calculate_tx_id sha512half t.tx_blob = t.tx_hash
  indices : ∀ m ∈ tx_maps, ∃ indices : List UInt32, m.txns.map tx_index = indices.map some ∧
    (indices.map UInt32.toNat).Perm (List.range m.txns.length)
  acct : s'.acct.rows = s.acct.rows ++ tx_maps.flatMap fun m => m.txns.flatMap (tx_rows m.ledger_seq)
  loc : s'.loc.rows = s.loc.rows ++
    tx_maps.flatMap fun m => m.txns.filterMap (tx_location m.ledger_seq)
  numbered : ∀ i m, tx_maps[i]? = some m →
    m.ledger_seq = s.start_ledger + (s.ledgers + UInt32.ofNat i)

theorem index_ledgers_ok {tx_maps : List TxMap} {s s' : Sink}
    (h : tx_maps.foldlM (index_ledger sha512half) s = .ok s') :
    LedgersIndexed sha512half tx_maps s s' := by
  induction tx_maps generalizing s with
  | nil =>
    rw [foldlM_nil_ok.mp h]
    exact ⟨by simp, by simp, by simp, by simp, by simp⟩
  | cons m tx_maps ih =>
    obtain ⟨s₁, h₁, h⟩ := foldlM_cons_ok.mp h
    obtain ⟨hseq, hledgers, hm, hnumbers⟩ := index_ledger_ok h₁
    have hrest := ih h
    refine ⟨?_, ?_, ?_, ?_, ?_⟩
    · intro m' hm'
      rcases List.mem_cons.mp hm' with rfl | hm'
      · exact hm.authentic
      · exact hrest.authentic m' hm'
    · intro m' hm'
      rcases List.mem_cons.mp hm' with rfl | hm'
      · obtain ⟨ns, hns, hindices⟩ := hm.indices
        have hall : s₁.indices = ns := hindices
        have hlen : m'.txns.length = ns.length := by
          simpa using congrArg List.length hns
        refine ⟨ns, hns, ?_⟩
        rw [hlen, ← hall]
        exact hnumbers
      · exact hrest.indices m' hm'
    · rw [hrest.acct, List.flatMap_cons, ← List.append_assoc]
      exact congrArg (· ++ _) hm.acct
    · rw [hrest.loc, List.flatMap_cons, ← List.append_assoc]
      exact congrArg (· ++ _) hm.loc
    · intro i m' hm'
      have hstart : s₁.start_ledger = s.start_ledger := hm.start_ledger
      cases i with
      | zero =>
        have hfirst : m = m' := Option.some.inj hm'
        rw [← hfirst, hseq]
        exact congrArg _ (UInt32.add_zero _).symm
      | succ i =>
        have hnext : UInt32.ofNat (i + 1) = 1 + UInt32.ofNat i := by
          rw [Nat.add_comm, UInt32.ofNat_add]
          rfl
        rw [hrest.numbered i m' hm', hstart, hledgers, UInt32.add_assoc, hnext]

/-! ## Building -/

/-- A run of `build_index` that returns: the file is a chunk, and its
    ledgers were indexed one after the other. -/
theorem build_index_ok {exists_ force : Bool} {chunk_path out_path : String} {file : Bytes}
    {index_file : IndexFile} {report : BuildReport}
    (h : build_index sha512half exists_ force chunk_path out_path file = .ok (index_file, report)) :
    ∃ header body rest chunk s, Layout file header body rest chunk ∧
      chunk.tx_maps.foldlM (index_ledger sha512half) (Sink.new chunk.start_ledger) = .ok s ∧
      index_file = { info := index_info report, account_tx := s.acct, tx_locator := s.loc } := by
  unfold build_index ChunkReader.read_checkpoint_tx_map at h
  simp only [bind_eq_ok, bail_if_eq_ok, pure_eq_ok, with_context_eq_ok, Prod.exists,
    Prod.mk.injEq] at h
  obtain ⟨-, -, c, hopen, _, c₁, hcp, cp, c₂, ⟨cp', r₂, htx, hcpeq, hc₂⟩, s₁, hfirst, s, c₃, hloop,
    -, -, u, hfin, hfile, hreport⟩ := h
  subst hcpeq; subst hc₂
  obtain ⟨nodes, r₁, hnodes, -, hc₁⟩ := ChunkReader.read_checkpoint_ok.mp hcp
  obtain ⟨pairs, r₃, hpairs, hfold, hc₃⟩ :=
    (ChunkReader.for_each_delta_ok (Nat.lt_succ_self _)).mp hloop
  obtain ⟨⟨rest, body⟩, hfooter, -⟩ := ChunkReader.finish_ok.mp hfin
  obtain ⟨fields, header, rest', -, -, hc⟩ := ChunkReader.open_ok.mp hopen
  subst hc₃; subst hc₁; subst hc
  refine ⟨header, body, rest, header.streamed_chunk nodes cp' pairs, s,
    layout_iff.mpr ⟨_, hopen, rfl, rfl, HashingReader.read_body_ok.mpr
      ⟨nodes, r₁, cp', r₂, pairs, r₃, hnodes, htx, hpairs, hfooter, rfl⟩⟩, ?_, ?_⟩
  · show (cp' :: pairs.map Prod.snd).foldlM (index_ledger sha512half) _ = _
    rw [foldlM_cons_ok]
    exact ⟨s₁, hfirst, by rw [List.foldlM_map]; exact hfold⟩
  · rw [← hfile, ← hreport]

/-! ## Queries -/

/-- What has just been built opens. -/
theorem Index.open_built (path : String) {file : IndexFile} {report : BuildReport}
    (hinfo : file.info = index_info report) :
    ∃ index, Index.open path file = .ok index ∧ index.file = file := by
  have hget : ∀ k v, (index_info report).rows.lookup k = some v → Index.get path file k = .ok v := by
    intro k v h
    unfold Index.get
    rw [hinfo, ok_or_eq_ok, h]
  have hnum : ∀ k n, (index_info report).rows.lookup k = some (toString n) →
      Index.num path file k = .ok n := by
    intro k n h
    unfold Index.num
    rw [bind_of_ok (hget k _ h), ok_or_eq_ok]
    exact Nat.toNat?_repr n
  unfold Index.open
  rw [bind_of_ok (hget "complete" _ rfl), bail_if_neg (by decide),
    bind_of_ok (hget "schema_version" _ rfl), bail_if_neg (by decide),
    bind_of_ok (hget "rule_id" _ rfl), bail_if_neg (by decide),
    bind_of_ok (hnum "network_id" _ rfl), bind_of_ok (hnum "start_ledger" _ rfl),
    bind_of_ok (hnum "end_ledger" _ rfl), bind_of_ok (hget "chunk_hash" _ rfl),
    bind_of_ok (hnum "ledgers" _ rfl), bind_of_ok (hnum "transactions" _ rfl),
    bind_of_ok (hnum "rows" _ rfl)]
  exact ⟨_, rfl, rfl⟩

/-- The columns of a row that a query returns. -/
def AccountTx.row (r : AccountTx) : AccountTxRow :=
  { ledger_seq := r.ledger_seq, txn_seq := r.txn_seq, tx_hash := r.tx_hash }

/-- `WHERE` of a query from the first page on. -/
def AccountTx.Selected (account : AccountID) (min max : UInt32) (r : AccountTx) : Bool :=
  decide (r.account_id = account ∧ min ≤ r.ledger_seq ∧ r.ledger_seq ≤ max)

theorem Index.account_tx_eq (index : Index) {account : AccountID} {min max : UInt32} {limit : Nat}
    {forward : Bool}
    (hlimit : (index.file.account_tx.rows.filter (AccountTx.Selected account min max)).length ≤ limit) :
    index.account_tx account min max limit forward none =
      (index.file.account_tx.select (AccountTx.Selected account min max) seq_order forward).map
        AccountTx.row := by
  have hperm : (index.file.account_tx.select (AccountTx.Selected account min max) seq_order
      forward).Perm (index.file.account_tx.rows.filter (AccountTx.Selected account min max)) :=
    index.file.account_tx.select_perm forward
  unfold Index.account_tx
  split
  · next h =>
    -- A limit of zero is that of a query without matches.
    have hempty : (index.file.account_tx.rows.filter
        (AccountTx.Selected account min max)).length = 0 := by omega
    rw [List.length_eq_zero_iff.mp hempty, List.perm_nil] at hperm
    rw [hperm, List.map_nil]
  · have hall : sql_limit limit (index.file.account_tx.select (AccountTx.Selected account min max)
        seq_order forward) = index.file.account_tx.select (AccountTx.Selected account min max)
          seq_order forward := by
      unfold sql_limit
      split
      · exact List.take_of_length_le (hperm.length_eq.trans_le hlimit)
      · rfl
    have hwhere : (fun r : AccountTx => decide (r.account_id = account ∧ min ≤ r.ledger_seq ∧
        r.ledger_seq ≤ max ∧ after_marker forward r none)) = AccountTx.Selected account min max := by
      funext r
      simp [AccountTx.Selected, after_marker]
    rw [hwhere]
    show (sql_limit limit _).map AccountTx.row = _
    rw [hall]

/-- Of the rows of a transaction a query finds one or none. -/
theorem tx_rows_matching (account : AccountID) (min max : UInt32) (m : TxMap) (t : TxRecord) :
    ((tx_rows m.ledger_seq t).filter (AccountTx.Selected account min max)).map AccountTx.row =
      (match_row account min max m t).toList := by
  unfold tx_rows match_row
  cases hn : tx_index t with
  | none => simp
  | some n =>
    simp only [List.filter_map, Option.map_some]
    by_cases hrange : min ≤ m.ledger_seq ∧ m.ledger_seq ≤ max
    · have heq : (AccountTx.Selected account min max ∘ fun a => (⟨a, m.ledger_seq, n, t.tx_hash⟩ :
          AccountTx)) = fun a => decide (a = account) := by
        funext a
        simp [AccountTx.Selected, hrange]
      rw [heq]
      by_cases ha : account ∈ affected_accounts t
      · have hone : (affected_accounts t).filter (fun a => decide (a = account)) = [account] := by
          rw [List.filter_eq, List.count_eq_one_of_mem (affected_accounts_nodup t) ha]
          rfl
        rw [hone, if_pos ⟨hrange.1, hrange.2, ha⟩]
        rfl
      · have hno : (affected_accounts t).filter (fun a => decide (a = account)) = [] := by
          rw [List.filter_eq, List.count_eq_zero_of_not_mem ha]
          rfl
        rw [hno, if_neg fun h => ha h.2.2]
        rfl
    · have hno : (AccountTx.Selected account min max ∘ fun a => (⟨a, m.ledger_seq, n, t.tx_hash⟩ :
          AccountTx)) = fun _ => false := by
        funext a
        have : ¬ (a = account ∧ min ≤ m.ledger_seq ∧ m.ledger_seq ≤ max) := fun h => hrange h.2
        simp [AccountTx.Selected, this]
      rw [hno, if_neg fun h => hrange ⟨h.1, h.2.1⟩]
      simp

/-- The rows of a chunk that a query selects are the matches. -/
theorem rows_matching (chunk : Chunk) (account : AccountID) (min max : UInt32) :
    ((chunk.tx_maps.flatMap fun m => m.txns.flatMap (tx_rows m.ledger_seq)).filter
      (AccountTx.Selected account min max)).map AccountTx.row = chunk.matching account min max := by
  unfold Chunk.matching
  rw [List.filter_flatMap, List.map_flatMap]
  congr 1
  funext m
  rw [List.filter_flatMap, List.map_flatMap, List.filterMap_eq_flatMap_toList]
  congr 1
  funext t
  exact tx_rows_matching account min max m t

theorem seq_order_lt {a b : AccountTx} : Index.seq_order a < Index.seq_order b ↔ a.row.before b.row := by
  unfold Index.seq_order AccountTxRow.before
  rw [Prod.Lex.toLex_lt_toLex, UInt32.lt_iff_toNat_lt, UInt32.lt_iff_toNat_lt, UInt32.toNat_inj]
  rfl

/-- The primary key tells the rows of one account apart by ledger and
    number. -/
theorem selected_seq_nodup (t : Table AccountTx.key) (account : AccountID) (min max : UInt32) :
    ((t.rows.filter (AccountTx.Selected account min max)).map Index.seq_order).Nodup := by
  have hkeys := (List.pairwise_map.mp t.primary).filter (AccountTx.Selected account min max)
  have haccount : ∀ r ∈ t.rows.filter (AccountTx.Selected account min max),
      r.account_id = account := by
    intro r hr
    have hsel := (List.mem_filter.mp hr).2
    exact (of_decide_eq_true hsel).1
  apply List.pairwise_map.mpr
  apply List.Pairwise.imp_of_mem _ hkeys
  intro a b ha hb hne heq
  apply hne
  unfold Index.seq_order at heq
  obtain ⟨hledger, hseq⟩ := Prod.mk.inj (toLex.injective heq)
  unfold AccountTx.key
  rw [haccount a ha, haccount b hb, UInt32.toNat_inj.mp hledger, UInt32.toNat_inj.mp hseq]

/-- A query whose limit is not reached returns the selected rows in order. -/
theorem Index.account_tx_sorted (index : Index) {account : AccountID} {min max : UInt32}
    {limit : Nat} {forward : Bool}
    (hlimit : (index.file.account_tx.rows.filter (AccountTx.Selected account min max)).length ≤ limit) :
    (index.account_tx account min max limit forward none).Perm
        ((index.file.account_tx.rows.filter (AccountTx.Selected account min max)).map
          AccountTx.row) ∧
      (index.account_tx account min max limit forward none).Pairwise fun a b =>
        if forward then a.before b else b.before a := by
  have hnodup := selected_seq_nodup index.file.account_tx account min max
  rw [index.account_tx_eq hlimit]
  refine ⟨(index.file.account_tx.select_perm forward).map AccountTx.row, List.pairwise_map.mpr ?_⟩
  cases forward with
  | true => exact (index.file.account_tx.select_ascending hnodup).imp seq_order_lt.mp
  | false => exact (index.file.account_tx.select_descending hnodup).imp seq_order_lt.mp

/-! ## What the index of a chunk answers -/

section Answers

variable {chunk : Chunk} {s : Sink} {index : Index}

/-- The index holds what the loop over the ledgers has written. -/
structure Holds (index : Index) (s : Sink) : Prop where
  acct : index.file.account_tx = s.acct
  loc : index.file.tx_locator = s.loc

theorem Holds.account_tx (hi : Holds index s)
    (hl : LedgersIndexed sha512half chunk.tx_maps (Sink.new chunk.start_ledger) s)
    (account : AccountID) (min max : UInt32) {limit : Nat} (forward : Bool)
    (hlimit : (chunk.matching account min max).length ≤ limit) :
    (index.account_tx account min max limit forward none).Perm (chunk.matching account min max) ∧
      (index.account_tx account min max limit forward none).Pairwise fun a b =>
        if forward then a.before b else b.before a := by
  have hrows : index.file.account_tx.rows =
      chunk.tx_maps.flatMap fun m => m.txns.flatMap (tx_rows m.ledger_seq) := by
    rw [hi.acct, hl.acct]
    rfl
  have hmatch := rows_matching chunk account min max
  rw [← hrows] at hmatch
  rw [← hmatch] at hlimit ⊢
  exact index.account_tx_sorted (List.length_map AccountTx.row ▸ hlimit)

theorem Holds.mem_locator (hi : Holds index s)
    (hl : LedgersIndexed sha512half chunk.tx_maps (Sink.new chunk.start_ledger) s) {r : TxLocator} :
    r ∈ index.file.tx_locator.rows ↔
      ∃ m ∈ chunk.tx_maps, ∃ t ∈ m.txns, tx_location m.ledger_seq t = some r := by
  have hrows : index.file.tx_locator.rows =
      chunk.tx_maps.flatMap fun m => m.txns.filterMap (tx_location m.ledger_seq) := by
    rw [hi.loc, hl.loc]
    rfl
  simp only [hrows, List.mem_flatMap, List.mem_filterMap]

theorem Holds.located (hi : Holds index s)
    (hl : LedgersIndexed sha512half chunk.tx_maps (Sink.new chunk.start_ledger) s) {m : TxMap}
    (hm : m ∈ chunk.tx_maps) {t : TxRecord} (ht : t ∈ m.txns) :
    ∃ n, tx_index t = some n ∧ index.locate_tx t.tx_hash = some (m.ledger_seq, n) := by
  obtain ⟨indices, hindices, -⟩ := hl.indices m hm
  have hnumbered : tx_index t ∈ indices.map some := hindices ▸ List.mem_map_of_mem ht
  obtain ⟨n, -, hn⟩ := List.mem_map.mp hnumbered
  have hmem := (hi.mem_locator hl).mpr ⟨m, hm, t, ht, by rw [tx_location, ← hn, Option.map_some]⟩
  have hfind := Table.find_key hmem
  exact ⟨n, hn.symm, by rw [Index.locate_tx, hfind]; rfl⟩

theorem Holds.not_located (hi : Holds index s)
    (hl : LedgersIndexed sha512half chunk.tx_maps (Sink.new chunk.start_ledger) s) {hash : Hash256}
    (h : ∀ m ∈ chunk.tx_maps, ∀ t ∈ m.txns, t.tx_hash ≠ hash) : index.locate_tx hash = none := by
  unfold Index.locate_tx
  rw [Option.map_eq_none_iff, List.find?_eq_none]
  intro r hr heq
  obtain ⟨m, hm, t, ht, hloc⟩ := (hi.mem_locator hl).mp hr
  obtain ⟨n, -, rfl⟩ := Option.map_eq_some_iff.mp hloc
  exact h m hm t ht (of_decide_eq_true heq)

end Answers

/-! ## The range of ledgers -/

/-- The ledgers are numbered from the first on, modulo `2 ^ 32`. They are
    those of the range exactly when the range is not empty. -/
theorem ledgers_iff {chunk : Chunk} {s s' : Sink} (hs : s = Sink.new chunk.start_ledger)
    (hl : LedgersIndexed sha512half chunk.tx_maps s s')
    (hlen : chunk.tx_maps.length = (chunk.end_ledger - chunk.start_ledger).toNat + 1) :
    chunk.tx_maps.map (fun m => m.ledger_seq.toNat) =
        List.Ico chunk.start_ledger.toNat (chunk.end_ledger.toNat + 1) ↔
      chunk.start_ledger ≤ chunk.end_ledger := by
  rw [UInt32.le_iff_toNat_le]
  constructor
  · intro h
    have hcount := congrArg List.length h
    rw [List.length_map, List.Ico.length, hlen] at hcount
    omega
  · intro hle
    have hwidth : (chunk.end_ledger - chunk.start_ledger).toNat =
        chunk.end_ledger.toNat - chunk.start_ledger.toNat :=
      UInt32.toNat_sub_of_le _ _ (UInt32.le_iff_toNat_le.mpr hle)
    have hend := chunk.end_ledger.toNat_lt
    apply List.ext_getElem
    · rw [List.length_map, List.Ico.length, hlen, hwidth]
      omega
    · intro i hi hi'
      rw [List.length_map] at hi
      have hseq := hl.numbered i _ (List.getElem?_eq_getElem hi)
      have hfirst : s.start_ledger + (s.ledgers + UInt32.ofNat i) =
          chunk.start_ledger + UInt32.ofNat i := by
        rw [hs]
        show chunk.start_ledger + (0 + UInt32.ofNat i) = _
        rw [UInt32.zero_add]
      rw [List.getElem_map, hseq, hfirst, UInt32.toNat_add, UInt32.toNat_ofNat']
      simp only [List.Ico, List.getElem_range']
      omega

/-! ## Exactness -/

/-- What was written is exact up to the range. -/
theorem Holds.exact_iff {chunk : Chunk} {s : Sink} {index : Index} (hi : Holds index s)
    (hl : LedgersIndexed sha512half chunk.tx_maps (Sink.new chunk.start_ledger) s)
    (hlen : chunk.tx_maps.length = (chunk.end_ledger - chunk.start_ledger).toNat + 1) :
    IndexExact sha512half chunk index ↔ chunk.start_ledger ≤ chunk.end_ledger := by
  have hrange := ledgers_iff rfl hl hlen
  constructor
  · intro h
    exact hrange.mp h.ledgers
  · intro hle
    exact {
      account_tx := fun account min max limit forward hlimit =>
        hi.account_tx hl account min max forward hlimit
      located := fun m hm t ht => hi.located hl hm ht
      not_located := fun hash h => hi.not_located hl h
      authentic := hl.authentic
      ledgers := hrange.mpr hle
      indices := hl.indices }

/-- The parts of a build, from the file to the opened index. -/
theorem built_index {exists_ force : Bool} {chunk_path out_path : String} {file : Bytes}
    {index_file : IndexFile} {report : BuildReport}
    (h : build_index sha512half exists_ force chunk_path out_path file = .ok (index_file, report)) :
    ∃ header body rest chunk s index, Layout file header body rest chunk ∧
      Index.open out_path index_file = .ok index ∧ Holds index s ∧
      LedgersIndexed sha512half chunk.tx_maps (Sink.new chunk.start_ledger) s ∧
      chunk.tx_maps.length = (chunk.end_ledger - chunk.start_ledger).toNat + 1 := by
  obtain ⟨header, body, rest, chunk, s, hl, hfold, hfile⟩ := build_index_ok h
  have hinfo : index_file.info = index_info report := by rw [hfile]
  obtain ⟨index, hopen, hindex⟩ := Index.open_built out_path hinfo
  refine ⟨header, body, rest, chunk, s, index, hl, hopen, ⟨?_, ?_⟩, index_ledgers_ok hfold, ?_⟩
  · rw [hindex, hfile]
  · rw [hindex, hfile]
  · obtain ⟨-, hcounted⟩ := read_body_narrow hl.body
    rw [hcounted.tx_maps, hcounted.deltas]

/-- On every file `build_index` returns for, the index opens, and it is
    exact if and only if the header's range is not wrapped around. -/
theorem index_exact_iff {exists_ force : Bool} {chunk_path out_path : String} {file : Bytes}
    {index_file : IndexFile} {report : BuildReport}
    (h : build_index sha512half exists_ force chunk_path out_path file = .ok (index_file, report)) :
    ∃ header body rest chunk index, Layout file header body rest chunk ∧
      Index.open out_path index_file = .ok index ∧
      (IndexExact sha512half chunk index ↔ chunk.start_ledger ≤ chunk.end_ledger) := by
  obtain ⟨header, body, rest, chunk, s, index, hl, hopen, hi, hledgers, hlen⟩ := built_index h
  exact ⟨header, body, rest, chunk, index, hl, hopen, hi.exact_iff hledgers hlen⟩

/-- Number 0, with one modified node that names account 9. -/
def nine_meta : Bytes :=
  [0x20, 28, 0, 0, 0, 0, 0xF8, 0xE5, 0xE7, 0x81, 20] ++ List.replicate 20 9 ++ [0xE1, 0xE1, 0xF1]

/-- Ledger 7 with one transaction. -/
def one_tx_chunk : Chunk :=
  { network_id := 1, start_ledger := 7, end_ledger := 7, checkpoint_hash := ZERO_HASH,
    chunk_hash := ZERO_HASH, checkpoint := [], deltas := []
    tx_maps := [{ empty_tx_map 7 ZERO_HASH ZERO_HASH with
      txns := [⟨calculate_tx_id sha2_sha512half [1, 2], [1, 2], nine_meta⟩] }] }

def one_tx_file : Bytes := (one_tx_chunk.write_stream.finish sha2_sha512half).2

theorem one_tx_file_built :
    (build_index sha2_sha512half false false "7.xrla" "7.idx" one_tx_file).toOption.isSome = true := by
  decide +kernel

theorem index_exact_one_tx : ∃ built, build_index sha2_sha512half false false "7.xrla" "7.idx" one_tx_file =
    .ok built ∧ ∃ header body rest chunk index, Layout one_tx_file header body rest chunk ∧
      Index.open "7.idx" built.1 = .ok index ∧
      (IndexExact sha2_sha512half chunk index ↔ chunk.start_ledger ≤ chunk.end_ledger) := by
  obtain ⟨built, hok⟩ := exists_ok_of_isSome one_tx_file_built
  exact ⟨built, hok, index_exact_iff hok⟩

/-- Two empty ledgers: the last number there is, and 0. -/
def wrapped_chunk : Chunk :=
  { network_id := 1, start_ledger := 4294967295, end_ledger := 0, checkpoint_hash := ZERO_HASH,
    chunk_hash := ZERO_HASH, checkpoint := [],
    deltas := [{ ledger_seq := 0, diff := { added := [], deleted := [] } }]
    tx_maps := [empty_tx_map 4294967295 ZERO_HASH ZERO_HASH, empty_tx_map 0 ZERO_HASH ZERO_HASH] }

def wrapped_file : Bytes := (wrapped_chunk.write_stream.finish sha2_sha512half).2

theorem wrapped_file_built :
    (build_index sha2_sha512half false false "0.xrla" "0.idx" wrapped_file).toOption.isSome = true := by
  decide +kernel

/-- Its index is built and opens, and its ledgers are not those of the
    range in its header. -/
theorem wrapped_index_not_exact : ∃ built,
    build_index sha2_sha512half false false "0.xrla" "0.idx" wrapped_file = .ok built ∧
      ∃ header body rest chunk index, Layout wrapped_file header body rest chunk ∧
        Index.open "0.idx" built.1 = .ok index ∧ ¬ IndexExact sha2_sha512half chunk index := by
  obtain ⟨built, hok⟩ := exists_ok_of_isSome wrapped_file_built
  obtain ⟨header, body, rest, chunk, s, index, hl, hopen, hi, hledgers, hlen⟩ := built_index hok
  refine ⟨built, hok, header, body, rest, chunk, index, hl, hopen, fun h => ?_⟩
  obtain ⟨body', hl', -⟩ := @write_stream_layout sha2_sha512half wrapped_chunk (by decide)
    ⟨rfl, rfl⟩
  obtain ⟨-, -, -, rfl⟩ := hl.unique hl'
  have hrange : wrapped_chunk.start_ledger ≤ wrapped_chunk.end_ledger :=
    (hi.exact_iff hledgers hlen).mp h
  exact absurd hrange (by decide)

end LedgerArchive
