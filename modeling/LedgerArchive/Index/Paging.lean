import LedgerArchive.Index.Exact
import LedgerArchive.Lib.Paging

/-! # Pages of an account's history

    `account_tx` returns at most `limit` rows behind a marker. A client that
    passes the last row of each page as the next marker gets the rows of the
    unpaged query in the same order, each once, whatever the page size
    (`paging_reproduces`). The primary key tells the rows of an account apart
    by ledger and number, which is what a marker is. -/

namespace LedgerArchive

open Lib

/-! ## Markers -/

/-- The marker that a client takes from a row. -/
def AccountTxRow.marker (r : AccountTxRow) : Marker :=
  { ledger_seq := r.ledger_seq, txn_seq := r.txn_seq }

/-- The row comes strictly after the marker in the direction of the query. -/
def Marker.Passed (m : Marker) (forward : Bool) (r : AccountTxRow) : Prop :=
  if forward then
    m.ledger_seq < r.ledger_seq ∨ (m.ledger_seq = r.ledger_seq ∧ m.txn_seq < r.txn_seq)
  else r.ledger_seq < m.ledger_seq ∨ (r.ledger_seq = m.ledger_seq ∧ r.txn_seq < m.txn_seq)

instance (m : Marker) (forward : Bool) (r : AccountTxRow) : Decidable (m.Passed forward r) := by
  unfold Marker.Passed
  infer_instance

/-- The order of a query's rows. -/
def AccountTxRow.precedes (forward : Bool) (a b : AccountTxRow) : Prop :=
  if forward then a.before b else b.before a

theorem passed_marker {forward : Bool} {a b : AccountTxRow} :
    a.marker.Passed forward b ↔ a.precedes forward b := by
  cases forward with
  | true => rfl
  | false => rfl

theorem precedes_asymm (forward : Bool) (a b : AccountTxRow) (h : a.precedes forward b) :
    ¬ b.precedes forward a := by
  have hbefore : ∀ a b : AccountTxRow, a.before b → ¬ b.before a := by
    intro a b hab hba
    unfold AccountTxRow.before at hab hba
    simp only [UInt32.lt_iff_toNat_lt, ← UInt32.toNat_inj] at hab hba
    omega
  cases forward with
  | true => exact hbefore a b h
  | false => exact hbefore b a h

theorem Marker.Passed.trans {m : Marker} {forward : Bool} {a b : AccountTxRow}
    (h : m.Passed forward a) (h' : a.marker.Passed forward b) : m.Passed forward b := by
  unfold Marker.Passed AccountTxRow.marker at *
  simp only [UInt32.lt_iff_toNat_lt, ← UInt32.toNat_inj] at *
  cases forward with
  | true =>
    simp only [if_true] at *
    omega
  | false =>
    simp only [Bool.false_eq_true, if_false] at *
    omega

theorem after_marker_some (forward : Bool) (r : AccountTx) (m : Marker) :
    Index.after_marker forward r (some m) = decide (m.Passed forward r.row) := by
  unfold Index.after_marker Marker.Passed Index.seq_order AccountTx.row
  cases forward with
  | true =>
    simp only [if_true, Prod.Lex.toLex_lt_toLex, UInt32.lt_iff_toNat_lt, UInt32.toNat_inj]
  | false =>
    simp only [Bool.false_eq_true, if_false, Prod.Lex.toLex_lt_toLex, UInt32.lt_iff_toNat_lt,
      UInt32.toNat_inj]

/-! ## Pages -/

namespace Index

variable (ix : Index) (account : AccountID) (min max : UInt32) (forward : Bool)

/-- The rows of the account in the ledgers, in the order of the query. -/
def history : List AccountTxRow :=
  (ix.file.account_tx.select (AccountTx.Selected account min max) seq_order forward).map
    AccountTx.row

/-- What is left of them behind a marker. -/
def history_after : Option Marker → List AccountTxRow
  | none => ix.history account min max forward
  | some m => (ix.history account min max forward).filter fun r => decide (m.Passed forward r)

/-- A client that pages: the last row of each page is the next marker. -/
def account_tx_pages (page_size fuel : Nat) (marker : Option Marker) : Option (List AccountTxRow) :=
  pages (ix.account_tx account min max page_size forward) AccountTxRow.marker fuel marker

variable {ix account min max forward}

/-- The history is made of the account's rows in the ledgers. -/
theorem mem_history {r : AccountTxRow} :
    r ∈ ix.history account min max forward ↔ ∃ row ∈ ix.file.account_tx.rows,
      row.account_id = account ∧ min ≤ row.ledger_seq ∧ row.ledger_seq ≤ max ∧ row.row = r := by
  unfold history
  simp only [List.mem_map, (ix.file.account_tx.select_perm forward).mem_iff, List.mem_filter,
    AccountTx.Selected, decide_eq_true_iff, and_assoc]

theorem history_sorted :
    (ix.history account min max forward).Pairwise (AccountTxRow.precedes forward) := by
  have hnodup := selected_seq_nodup ix.file.account_tx account min max
  refine List.pairwise_map.mpr ?_
  cases forward with
  | true => exact (ix.file.account_tx.select_ascending hnodup).imp seq_order_lt.mp
  | false => exact (ix.file.account_tx.select_descending hnodup).imp seq_order_lt.mp

theorem sql_limit_map {α β : Type} (f : α → β) (limit : Nat) (rows : List α) :
    (sql_limit limit rows).map f = sql_limit limit (rows.map f) := by
  unfold sql_limit
  split
  · exact List.map_take
  · rfl

theorem sql_limit_prefix {α : Type} (limit : Nat) (rows : List α) :
    ∃ left, rows = sql_limit limit rows ++ left := by
  unfold sql_limit
  split
  · exact ⟨rows.drop limit, (List.take_append_drop limit rows).symm⟩
  · exact ⟨[], (List.append_nil rows).symm⟩

theorem sql_limit_eq_nil {α : Type} {limit : Nat} (hlimit : limit ≠ 0) {rows : List α}
    (h : sql_limit limit rows = []) : rows = [] := by
  unfold sql_limit at h
  split at h
  · exact (List.take_eq_nil_iff.mp h).resolve_left hlimit
  · exact h

/-- No limit is cut off by what SQLite takes for none. -/
theorem sql_limit_eq_take {α : Type} {limit : Nat} {rows : List α} (h : rows.length ≤ 2 ^ 63) :
    sql_limit limit rows = rows.take limit := by
  unfold sql_limit
  split
  · rfl
  · next hlimit => rw [List.take_of_length_le (le_trans h (Nat.not_lt.mp hlimit))]

/-- `WHERE` with a marker. -/
theorem select_after_marker (marker : Option Marker) :
    (ix.file.account_tx.select (fun r => r.account_id = account ∧ min ≤ r.ledger_seq ∧
      r.ledger_seq ≤ max ∧ after_marker forward r marker) seq_order forward).map AccountTx.row =
      ix.history_after account min max forward marker := by
  have hwhere : (fun r : AccountTx => decide (r.account_id = account ∧ min ≤ r.ledger_seq ∧
      r.ledger_seq ≤ max ∧ after_marker forward r marker)) =
      fun r => after_marker forward r marker && AccountTx.Selected account min max r := by
    funext r
    unfold AccountTx.Selected
    rw [Bool.eq_iff_iff, Bool.and_eq_true, decide_eq_true_iff, decide_eq_true_iff]
    tauto
  have hnodup := selected_seq_nodup ix.file.account_tx account min max
  rw [hwhere, ← ix.file.account_tx.select_filter hnodup]
  cases marker with
  | none =>
    rw [show (fun r => after_marker forward r none) = fun _ => true from rfl, List.filter_true]
    rfl
  | some m =>
    show _ = (ix.history account min max forward).filter fun r => decide (m.Passed forward r)
    unfold history
    rw [List.filter_map]
    congr 2
    funext r
    exact after_marker_some forward r m

/-- A page is what is left behind the marker, cut to the limit. -/
theorem account_tx_page {limit : Nat} (hlimit : limit ≠ 0) (marker : Option Marker) :
    ix.account_tx account min max limit forward marker =
      sql_limit limit (ix.history_after account min max forward marker) := by
  unfold account_tx
  rw [if_neg hlimit]
  show (sql_limit limit _).map AccountTx.row = _
  rw [sql_limit_map, select_after_marker]

theorem history_after_length (marker : Option Marker) :
    (ix.history_after account min max forward marker).length ≤ ix.file.account_tx.rows.length := by
  have hall : (ix.history account min max forward).length ≤ ix.file.account_tx.rows.length := by
    unfold history
    rw [List.length_map, (ix.file.account_tx.select_perm forward).length_eq]
    exact List.length_filter_le _ _
  cases marker with
  | none => exact hall
  | some m => exact le_trans (List.length_filter_le _ _) hall

theorem history_after_sorted (marker : Option Marker) :
    (ix.history_after account min max forward marker).Pairwise (AccountTxRow.precedes forward) := by
  cases marker with
  | none => exact history_sorted
  | some m => exact history_sorted.filter _

/-- Behind a row that is left, less is left. -/
theorem history_after_row {marker : Option Marker} {r : AccountTxRow}
    (hr : r ∈ ix.history_after account min max forward marker) :
    (ix.history_after account min max forward marker).filter
        (fun b => decide (r.marker.Passed forward b)) =
      ix.history_after account min max forward (some r.marker) := by
  cases marker with
  | none => rfl
  | some m =>
    have hpassed : m.Passed forward r := of_decide_eq_true (List.mem_filter.mp hr).2
    show ((ix.history account min max forward).filter _).filter _ = List.filter _ _
    rw [List.filter_filter]
    congr 1
    funext b
    rw [Bool.eq_iff_iff, Bool.and_eq_true, decide_eq_true_iff, decide_eq_true_iff]
    -- What is behind the row is behind the marker, which the row has passed.
    exact ⟨fun h => h.1, fun h => ⟨h, hpassed.trans h⟩⟩

/-- A page is a beginning of what is left, and a page that is not empty
    leaves what comes after its last row. -/
theorem account_tx_paged {page_size : Nat} (hsize : page_size ≠ 0) :
    Paged (ix.account_tx account min max page_size forward) AccountTxRow.marker
      (ix.history_after account min max forward) where
  nonempty marker h := by
    rw [account_tx_page hsize] at h
    exact sql_limit_eq_nil hsize h
  next marker last h := by
    rw [account_tx_page hsize] at h ⊢
    obtain ⟨left, hleft⟩ := sql_limit_prefix page_size
      (ix.history_after account min max forward marker)
    have hmem : last ∈ ix.history_after account min max forward marker := by
      rw [hleft]
      exact List.mem_append_left _ (List.mem_of_getLast? h)
    have hsorted := @history_after_sorted ix account min max forward marker
    rw [← history_after_row hmem]
    generalize ix.history_after account min max forward marker = rows at h hleft hsorted
    generalize sql_limit page_size rows = page at h hleft
    subst hleft
    -- In a sorted list only what stands behind the last row has passed it.
    rw [filter_behind (precedes_asymm forward) (fun a => by
      rw [decide_eq_true_iff, passed_marker]) hsorted h]

/-- The unpaged query returns the account's rows in the ledgers in strict
    order. Paging from the first page on returns the same, and each page is
    what comes strictly after its marker, cut to the limit. SQLite counts the
    rows of a table in 63 bits. -/
theorem paging_reproduces (ix : Index) (account : AccountID) (min max : UInt32) (forward : Bool)
    {all : Nat} (hall : ix.file.account_tx.rows.length ≤ all) :
    let history := ix.history account min max forward
    (∀ r, r ∈ history ↔ ∃ row ∈ ix.file.account_tx.rows,
      row.account_id = account ∧ min ≤ row.ledger_seq ∧ row.ledger_seq ≤ max ∧ row.row = r) ∧
    history.Pairwise (AccountTxRow.precedes forward) ∧
    ix.account_tx account min max all forward none = history ∧
    (∀ page_size ≥ 1, ∃ fuel₀, ∀ fuel ≥ fuel₀,
      ix.account_tx_pages account min max forward page_size fuel none = some history) ∧
    (ix.file.account_tx.rows.length < 2 ^ 63 → ∀ (limit : Nat) (m : Marker),
      ix.account_tx account min max limit forward (some m) =
        (history.filter fun r => decide (m.Passed forward r)).take limit) := by
  refine ⟨fun _ => mem_history, history_sorted, ?_, ?_, ?_⟩
  · -- A limit as large as the table cuts nothing off.
    apply account_tx_eq
    exact le_trans (List.length_filter_le _ _) hall
  · intro page_size hsize
    -- Each page that is not empty takes a row of the table.
    refine ⟨ix.file.account_tx.rows.length + 1, fun fuel hfuel => ?_⟩
    refine pages_eq (account_tx_paged (Nat.ne_of_gt hsize)) ?_
    exact Nat.lt_of_le_of_lt (history_after_length none) hfuel
  · intro hrows limit m
    by_cases hlimit : limit = 0
    · rw [hlimit, List.take_zero]
      rfl
    · rw [account_tx_page hlimit, sql_limit_eq_take]
      · rfl
      · exact le_trans (history_after_length (some m)) (by omega)

end Index

/-- Ledgers 100 to 102 with three transactions of one account. -/
def three_row_index : Index where
  file :=
    { info := index_info ⟨1, 100, 102, ZERO_HASH, 3, 3, 3⟩
      account_tx := ⟨[⟨⟨NO_ACCOUNT, rfl⟩, 100, 1, Hash256.ofBytes [1]⟩,
        ⟨⟨NO_ACCOUNT, rfl⟩, 100, 0, Hash256.ofBytes [2]⟩,
        ⟨⟨NO_ACCOUNT, rfl⟩, 102, 0, Hash256.ofBytes [3]⟩], by decide⟩
      tx_locator := Table.empty }
  info := ⟨1, 100, 102, hex_encode_upper ZERO_HASH, 3, 3, 3, RULE_ID⟩

/-- Newest first, one row a page; and the page behind a marker that is not
    a row. -/
theorem paging_reproduces_three_rows :
    (∃ fuel₀, ∀ fuel ≥ fuel₀,
      three_row_index.account_tx_pages ⟨NO_ACCOUNT, rfl⟩ 0 0xFFFFFFFF false 1 fuel none =
        some [⟨102, 0, Hash256.ofBytes [3]⟩, ⟨100, 1, Hash256.ofBytes [1]⟩,
          ⟨100, 0, Hash256.ofBytes [2]⟩]) ∧
    three_row_index.account_tx ⟨NO_ACCOUNT, rfl⟩ 0 0xFFFFFFFF 1 false (some ⟨101, 5⟩) =
      [⟨100, 1, Hash256.ofBytes [1]⟩] := by
  have hhistory : three_row_index.history ⟨NO_ACCOUNT, rfl⟩ 0 0xFFFFFFFF false =
      [⟨102, 0, Hash256.ofBytes [3]⟩, ⟨100, 1, Hash256.ofBytes [1]⟩,
        ⟨100, 0, Hash256.ofBytes [2]⟩] := by
    decide
  obtain ⟨-, -, -, hpages, hpage⟩ := Index.paging_reproduces three_row_index ⟨NO_ACCOUNT, rfl⟩ 0
    0xFFFFFFFF false (show 3 ≤ 100 by decide)
  rw [hhistory] at hpages hpage
  exact ⟨hpages 1 (by decide), hpage (show 3 < 2 ^ 63 by decide) 1 ⟨101, 5⟩⟩

end LedgerArchive
