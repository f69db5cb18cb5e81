import LedgerArchive.Common.Affected
import Mathlib.Data.Prod.Lex
import Mathlib.Tactic.IntervalCases

/-! # Transaction fields (`parse_tx_fields` of `meta_decode.rs`)

    A transaction is a list of fields in ascending order, and its type,
    sequence number and sender come before anything that is hard to skip.
    The scan stops when it has found the three, so what is behind the sender
    need not be anything that a decoder could read
    (`parse_tx_fields_exact`). -/

namespace LedgerArchive

open Lib

/-- The three transaction fields that xrpld's `Transactions` row needs
    besides the blobs. -/
structure TxFields where
  tx_type : UInt16
  account : AccountID
  sequence : UInt32
  deriving DecidableEq

def ZERO_ACCOUNT : AccountID := ⟨List.replicate 20 0, List.length_replicate⟩

/-- The variables of the scan. -/
structure TxScan where
  tx_type : Option UInt16
  sequence : Option UInt32
  account : Option AccountID

/-- The three fields, when all are found. -/
def TxScan.fields (s : TxScan) : Option TxFields := do
  let tx_type ← s.tx_type
  let sequence ← s.sequence
  let account ← s.account
  pure { tx_type, account, sequence }

/-- The loop of `parse_tx_fields`. -/
def scan_tx : Nat → Cursor → TxScan → Except Error TxFields
  | 0, _, _ => .error .fuel
  | fuel + 1, c, s =>
    match s.fields with
    | some fields => pure fields
    | none => do
      bail_if (c.eof = true) (.bail
        "transaction ended before TransactionType, Sequence and Account were all found")
      let ((t, f), c) ← c.read_field_header
      if t = TYPE_UINT16 ∧ f = 2 then do
        let (b, c) ← c.take 2
        scan_tx fuel c { s with tx_type := some (UInt16.ofNat (ofBE b)) }
      else if t = TYPE_UINT32 ∧ f = 4 then do
        let (b, c) ← c.take 4
        scan_tx fuel c { s with sequence := some (UInt32.ofNat (ofBE b)) }
      else if t = TYPE_ACCOUNT ∧ f = 1 then do
        let (a, c) ← read_account c
        scan_tx fuel c { s with account := some (a.getD ZERO_ACCOUNT) }
      else if TYPE_ACCOUNT < t then .error (.bail
        s!"reached field type {t} before finding TransactionType, Sequence and Account")
      else do
        let c ← skip_value (skip_fields fuel) c t
        scan_tx fuel c s

def parse_tx_fields (tx_blob : Bytes) : Except Error TxFields :=
  scan_tx (tx_blob.length + 1) (.start tx_blob)
    { tx_type := none, sequence := none, account := none }

/-! ## The rounds are enough -/

theorem scan_tx_ne_fuel {fuel : Nat} {c : Cursor} (hfuel : c.rest.length < fuel) (s : TxScan) :
    ErrorsIn (· ≠ .fuel) (scan_tx fuel c s) := by
  induction fuel generalizing c s with
  | zero => exact absurd hfuel (Nat.not_lt_zero _)
  | succ fuel ih =>
    -- A round that leaves less to read leaves rounds enough for it.
    have hnext : ∀ (c' : Cursor) (s' : TxScan), c'.rest.length < c.rest.length →
        ErrorsIn (· ≠ .fuel) (scan_tx fuel c' s') := by
      intro c' s' h'
      exact ih (by omega) s'
    unfold scan_tx
    split
    · exact errorsIn_pure _
    have heof : ∀ text, ErrorsIn (· ≠ .fuel) (bail_if (c.eof = true) (Error.bail text)) :=
      fun text => errorsIn_bail_if (by simp)
    apply ErrorsIn.bind (heof _)
    intro _ _
    apply ErrorsIn.bind c.read_field_header_leaves.1
    rintro ⟨⟨t, f⟩, c₁⟩ hread
    have h1 : c₁.rest.length < c.rest.length := c.read_field_header_leaves.2 _ hread
    dsimp only
    split
    · apply ErrorsIn.bind (c₁.take_leaves 2).1
      intro a ha
      have h2 := (c₁.take_leaves 2).2 a ha
      exact hnext a.2 _ (by omega)
    split
    · apply ErrorsIn.bind (c₁.take_leaves 4).1
      intro a ha
      have h2 := (c₁.take_leaves 4).2 a ha
      exact hnext a.2 _ (by omega)
    split
    · apply ErrorsIn.bind (read_account_leaves c₁).1
      intro a ha
      have h2 := (read_account_leaves c₁).2 a ha
      exact hnext a.2 _ (lt_trans h2 h1)
    split
    · exact errorsIn_error.mpr (by simp)
    · have hfields : ∀ t, Leaves id c.rest.length (skip_fields fuel c₁ t) :=
        fun t => skip_fields_leaves (by omega) h1 t
      have hskip := skip_value_leaves h1 hfields t
      apply ErrorsIn.bind hskip.1
      intro c₂ h2
      exact hnext c₂ _ (hskip.2 c₂ h2)

theorem parse_tx_fields_ne_fuel (tx_blob : Bytes) :
    ErrorsIn (· ≠ .fuel) (parse_tx_fields tx_blob) := by
  apply scan_tx_ne_fuel
  exact Nat.lt_succ_self _

/-! ## One field -/

/-- The account of a field's bytes: none are the zero account. -/
def account_of (bytes : Bytes) : AccountID :=
  if h : bytes.length = 20 then ⟨bytes, h⟩ else ZERO_ACCOUNT

/-- The transaction type, if the field is `TransactionType`. -/
def tx_type_of : Nat × StValue → Option UInt16
  | (2, .fixed .uint16 bytes) => some (UInt16.ofNat (ofBE bytes.1))
  | _ => none

/-- The sequence, if the field is `Sequence`. -/
def sequence_of : Nat × StValue → Option UInt32
  | (4, .fixed .uint32 bytes) => some (UInt32.ofNat (ofBE bytes.1))
  | _ => none

/-- The sender, if the field is `Account`. -/
def sender_of : Nat × StValue → Option AccountID
  | (1, .account bytes _) => some (account_of bytes)
  | _ => none

/-- What a field does to the scan. -/
def tx_field (s : TxScan) (p : Nat × StValue) : TxScan where
  tx_type := (tx_type_of p).or s.tx_type
  sequence := (sequence_of p).or s.sequence
  account := (sender_of p).or s.account

/-- The scan gets past this field: its type is at most that of accounts, and
    the sender is empty or has 20 bytes. -/
def Scannable (p : Nat × StValue) : Prop :=
  p.2.type_code ≤ TYPE_ACCOUNT ∧
    ∀ bytes short, p = (1, .account bytes short) → bytes.length = 0 ∨ bytes.length = 20

/-- Up to the type of accounts there are no objects, no arrays and no types
    of unknown width. -/
theorem StValue.flat {v : StValue} (h : v.type_code ≤ TYPE_ACCOUNT) : v.WellFormed ∧ v.Handled := by
  cases v with
  | object fields => exact absurd h (by dsimp only [type_code]; decide)
  | array elements => exact absurd h (by dsimp only [type_code]; decide)
  | other type unknown bytes =>
    -- All types from 1 to 8 are known.
    have hknown : ∀ t, 1 ≤ t → t ≤ TYPE_ACCOUNT → t ∈ known_types := by
      intro t h1 h8
      interval_cases t <;> decide
    exact absurd (hknown type.val type.pos h) unknown
  | _ => exact ⟨trivial, trivial⟩

theorem tx_type_of_cases (p : Nat × StValue) :
    (∃ bytes, p = (2, .fixed .uint16 bytes)) ∨ tx_type_of p = none := by
  unfold tx_type_of
  split
  · next bytes => exact .inl ⟨bytes, rfl⟩
  · exact .inr rfl

theorem sequence_of_cases (p : Nat × StValue) :
    (∃ bytes, p = (4, .fixed .uint32 bytes)) ∨ sequence_of p = none := by
  unfold sequence_of
  split
  · next bytes => exact .inl ⟨bytes, rfl⟩
  · exact .inr rfl

theorem sender_of_cases (p : Nat × StValue) :
    (∃ bytes short, p = (1, .account bytes short)) ∨ sender_of p = none := by
  unfold sender_of
  split
  · next bytes short => exact .inl ⟨bytes, short, rfl⟩
  · exact .inr rfl

/-- A field that is none of the three leaves the scan as it is. -/
theorem tx_field_skips {s : TxScan} {f : Nat} {v : StValue}
    (htype : ¬ (v.type_code = TYPE_UINT16 ∧ f = 2))
    (hsequence : ¬ (v.type_code = TYPE_UINT32 ∧ f = 4))
    (hsender : ¬ (v.type_code = TYPE_ACCOUNT ∧ f = 1)) : tx_field s (f, v) = s := by
  unfold tx_field
  rcases tx_type_of_cases (f, v) with ⟨bytes, heq⟩ | h1
  · obtain ⟨rfl, rfl⟩ := Prod.mk.inj heq
    exact absurd ⟨rfl, rfl⟩ htype
  rcases sequence_of_cases (f, v) with ⟨bytes, heq⟩ | h2
  · obtain ⟨rfl, rfl⟩ := Prod.mk.inj heq
    exact absurd ⟨rfl, rfl⟩ hsequence
  rcases sender_of_cases (f, v) with ⟨bytes, short, heq⟩ | h3
  · obtain ⟨rfl, rfl⟩ := Prod.mk.inj heq
    exact absurd ⟨rfl, rfl⟩ hsender
  · rw [h1, h2, h3]
    rfl

/-- One round: a field that can be scanned has its effect, any other one is
    an error. -/
theorem scan_tx_round {c c'' : Cursor} {fuel : Nat} {s : TxScan} {field : Code} {value : StValue}
    {more : Bytes} (hs : s.fields = none)
    (h : c.Past (field_header value.type_code field.val ++ (value.encode ++ more)) c'')
    (hfuel : value.encode.length ≤ fuel) :
    (Scannable (field.val, value) ∧ ∃ c', c'.Past more c'' ∧
        scan_tx (fuel + 1) c s = scan_tx fuel c' (tx_field s (field.val, value))) ∨
      (¬ Scannable (field.val, value) ∧ ∃ e, scan_tx (fuel + 1) c s = .error e) := by
  have hne : field_header value.type_code field.val ++ (value.encode ++ more) ≠ [] := by
    intro hnil
    have hpos := field_header_length value.type_code field.val
    rw [(List.append_eq_nil_iff.mp hnil).1] at hpos
    exact absurd hpos (by decide)
  have heof : ¬ c.eof = true := by simp [Cursor.eof_past h hne]
  obtain ⟨c₁, hheader, h⟩ := read_field_of_past h
  obtain ⟨c₂, h2, h3⟩ := Cursor.past_append.mp h
  obtain ⟨f, hpos, hle⟩ := field
  dsimp only at hheader ⊢
  rw [scan_tx, hs]
  dsimp only
  rw [bail_if_neg heof, bind_of_ok hheader]
  dsimp only
  -- The cases are the arms of the match.
  by_cases htype : value.type_code = TYPE_UINT16 ∧ f = 2
  · obtain ⟨hcode, rfl⟩ := htype
    obtain ⟨bytes, rfl⟩ := @StValue.fixed_of_type_code value .uint16 hcode
    rw [if_pos ⟨rfl, rfl⟩, bind_of_ok (@Cursor.take_past _ _ _ 2 h2 bytes.2)]
    have hle : TYPE_UINT16 ≤ TYPE_ACCOUNT := by decide
    refine .inl ⟨⟨hle, ?_⟩, c₂, h3, rfl⟩
    intro b short heq
    cases heq
  by_cases hsequence : value.type_code = TYPE_UINT32 ∧ f = 4
  · obtain ⟨hcode, rfl⟩ := hsequence
    obtain ⟨bytes, rfl⟩ := @StValue.fixed_of_type_code value .uint32 hcode
    rw [if_neg htype, if_pos ⟨rfl, rfl⟩, bind_of_ok (@Cursor.take_past _ _ _ 4 h2 bytes.2)]
    have hle : TYPE_UINT32 ≤ TYPE_ACCOUNT := by decide
    refine .inl ⟨⟨hle, ?_⟩, c₂, h3, rfl⟩
    intro b short heq
    cases heq
  rw [if_neg htype, if_neg hsequence]
  by_cases hsender : value.type_code = TYPE_ACCOUNT ∧ f = 1
  · obtain ⟨hcode, rfl⟩ := hsender
    obtain ⟨bytes, short, rfl⟩ := StValue.account_of_type_code hcode
    have hread := read_account_past short h2
    rw [if_pos ⟨rfl, rfl⟩]
    by_cases hbytes : bytes.length = 0 ∨ bytes.length = 20
    · have hscan : Scannable (1, .account bytes short) := by
        refine ⟨le_refl _, ?_⟩
        intro b short' heq
        cases heq
        exact hbytes
      refine .inl ⟨hscan, c₂, h3, ?_⟩
      rw [bind_of_ok ((hread _).mpr ⟨hbytes, rfl⟩)]
      dsimp only
      congr 1
      show TxScan.mk _ _ (some _) = TxScan.mk _ _ (some (account_of bytes))
      unfold account_of
      by_cases h20 : bytes.length = 20
      · rw [dif_pos h20, dif_pos h20]
        rfl
      · rw [dif_neg h20, dif_neg h20]
        rfl
    · refine .inr ⟨fun hscan => hbytes (hscan.2 bytes short rfl), ?_⟩
      cases hres : read_account c₁ with
      | ok res => exact absurd ((hread res).mp hres).1 hbytes
      | error e => exact ⟨e, rfl⟩
  rw [if_neg hsender]
  by_cases hlate : TYPE_ACCOUNT < value.type_code
  · rw [if_pos hlate]
    exact .inr ⟨fun hscan => absurd hscan.1 (not_le.mpr hlate), _, rfl⟩
  · -- Any other field up to the accounts is skipped by the width of its type.
    obtain ⟨hwf, hhandled⟩ := StValue.flat (not_lt.mp hlate)
    have hskip := (skip_value_iff value hwf h2 hfuel).mpr ⟨hhandled, rfl⟩
    rw [if_neg hlate, bind_of_ok hskip, tx_field_skips htype hsequence hsender]
    refine .inl ⟨⟨not_lt.mp hlate, ?_⟩, c₂, h3, rfl⟩
    intro bytes short heq
    obtain ⟨hf, rfl⟩ := Prod.mk.inj heq
    exact absurd ⟨rfl, hf⟩ hsender

/-! ## The three fields are found -/

theorem TxScan.fields_eq_none {s : TxScan} :
    s.fields = none ↔ s.tx_type = none ∨ s.sequence = none ∨ s.account = none := by
  obtain ⟨tx_type, sequence, account⟩ := s
  cases tx_type <;> cases sequence <;> cases account <;> simp [fields]

/-- What was found stays found. -/
theorem fields_of_tx_field {s : TxScan} {p : Nat × StValue} (h : (tx_field s p).fields = none) :
    s.fields = none := by
  rw [TxScan.fields_eq_none] at h ⊢
  simp only [tx_field, Option.or_eq_none_iff] at h
  tauto

theorem fields_of_foldl {l : List (Nat × StValue)} {s : TxScan}
    (h : (l.foldl tx_field s).fields = none) : s.fields = none := by
  induction l generalizing s with
  | nil => exact h
  | cons p l ih => exact fields_of_tx_field (ih h)

theorem foldl_tx_field (l : List (Nat × StValue)) (s : TxScan) :
    l.foldl tx_field s =
      { tx_type := l.foldl (fun o p => (tx_type_of p).or o) s.tx_type
        sequence := l.foldl (fun o p => (sequence_of p).or o) s.sequence
        account := l.foldl (fun o p => (sender_of p).or o) s.account } := by
  induction l generalizing s with
  | nil => rfl
  | cons p l ih => exact ih _

/-- The loop over fields that it gets past and that are not the sender. -/
theorem scan_tx_fields : ∀ (before : StFields) {c c'' : Cursor} {fuel : Nat} {s : TxScan}
    {more : Bytes}, (∀ p ∈ before.to_list, Scannable p ∧ sender_of p = none) →
    s.account = none → c.Past (before.encode ++ more) c'' →
    (before.encode ++ more).length < fuel →
      ∃ fuel' c', more.length < fuel' ∧ c'.Past more c'' ∧
        (before.to_list.foldl tx_field s).account = none ∧
        scan_tx fuel c s = scan_tx fuel' c' (before.to_list.foldl tx_field s)
  | _, _, _, 0, _, _, _, _, _, hfuel => absurd hfuel (Nat.not_lt_zero _)
  | .nil, c, c'', fuel + 1, s, more, _, hs, h, hfuel => ⟨fuel + 1, c, hfuel, h, hs, rfl⟩
  | .cons field value rest, c, c'', fuel + 1, s, more, hall, hs, h, hfuel => by
    obtain ⟨⟨hscan, hsender⟩, hrest⟩ := List.forall_mem_cons.mp hall
    rw [StFields.encode_cons] at h hfuel
    have hheader := field_header_length value.type_code field.val
    rw [List.length_append, List.length_append] at hfuel
    have hopen : s.fields = none := TxScan.fields_eq_none.mpr (.inr (.inr hs))
    have hfuel_value : value.encode.length ≤ fuel := by omega
    -- Without a sender the scan does not stop early.
    rcases scan_tx_round hopen h hfuel_value with ⟨-, c₁, h1, hround⟩ | ⟨hno, -⟩
    · have hs' : (tx_field s (field.val, value)).account = none := by
        simp [tx_field, hsender, hs]
      have hlen : (rest.encode ++ more).length < fuel := by omega
      rw [hround]
      exact scan_tx_fields rest hrest hs' h1 hlen
    · exact absurd hscan hno

/-- The loop over all fields, when they do not have all three. -/
theorem scan_tx_missing : ∀ (m : StFields) {c c'' : Cursor} {fuel : Nat} {s : TxScan},
    (m.to_list.foldl tx_field s).fields = none → c.Past m.encode c'' → c''.rest = [] →
    m.encode.length < fuel → ∃ e, scan_tx fuel c s = .error e
  | _, _, _, 0, _, _, _, _, hfuel => absurd hfuel (Nat.not_lt_zero _)
  | .nil, c, c'', fuel + 1, s, hs, h, hend, _ => by
    have heof : c.eof = true := by
      have hlen := congrArg List.length h.2
      rw [hend, show StFields.nil.encode = [] from rfl, Cursor.rest_length] at hlen
      have hge : c.i ≥ c.b.length := Nat.le_of_sub_eq_zero hlen
      simpa [Cursor.eof] using hge
    have hopen : s.fields = none := hs
    rw [scan_tx, hopen]
    dsimp only
    rw [heof]
    exact ⟨_, rfl⟩
  | .cons field value rest, c, c'', fuel + 1, s, hs, h, hend, hfuel => by
    obtain ⟨hfuel_value, hfuel_rest⟩ := StFields.fuel_cons hfuel
    -- What is open at the end is open now.
    have hopen : s.fields = none := fields_of_foldl hs
    rw [StFields.encode] at h
    rcases scan_tx_round hopen h hfuel_value.le with ⟨-, c₁, h1, hround⟩ | ⟨-, herror⟩
    · rw [hround]
      exact scan_tx_missing rest hs h1 hend hfuel_rest
    · exact herror

/-! ## Transactions -/

/-- Where a field stands in the order of fields: type first. -/
def position (p : Nat × StValue) : ℕ ×ₗ ℕ := toLex (p.2.type_code, p.1)

/-- The fields of a transaction up to its sender, which is empty or has 20
    bytes. -/
structure TxHead where
  before : StFields
  account : Bytes
  short : account.length ≤ VL_LENGTH_MAX
  empty_or_20 : account.length = 0 ∨ account.length = 20
  ascending :
    ((before.to_list ++ [(1, StValue.account account short)]).map position).Pairwise (· < ·)

namespace TxHead

def sender (head : TxHead) : StValue := .account head.account head.short

def encode (head : TxHead) : Bytes :=
  head.before.encode ++ (field_header TYPE_ACCOUNT 1 ++ write_vl head.account)

/-- The fields in front of the sender are lower. -/
theorem before_lt (head : TxHead) {p : Nat × StValue} (hp : p ∈ head.before.to_list) :
    position p < position (1, head.sender) := by
  have h := head.ascending
  rw [List.map_append, List.pairwise_append] at h
  exact h.2.2 _ (List.mem_map_of_mem hp) _ (List.mem_singleton_self _)

theorem scannable (head : TxHead) {p : Nat × StValue} (hp : p ∈ head.before.to_list) :
    Scannable p ∧ sender_of p = none := by
  have hlt := head.before_lt hp
  have hno : ∀ bytes short, p ≠ (1, .account bytes short) := by
    rintro bytes short rfl
    exact lt_irrefl _ hlt
  have hle : p.2.type_code ≤ TYPE_ACCOUNT := by
    rcases Prod.Lex.toLex_lt_toLex.mp hlt with h | ⟨h, -⟩
    · exact le_of_lt h
    · exact le_of_eq h
  refine ⟨⟨hle, fun bytes short heq => absurd heq (hno bytes short)⟩, ?_⟩
  rcases sender_of_cases p with ⟨bytes, short, heq⟩ | hnone
  · exact absurd heq (hno bytes short)
  · exact hnone

/-- No field is there twice. -/
theorem once (head : TxHead) {p q : Nat × StValue} (hp : p ∈ head.before.to_list)
    (hq : q ∈ head.before.to_list) (h : position p = position q) : p = q := by
  have hasc := head.ascending
  rw [List.map_append, List.pairwise_append] at hasc
  have hnodup : (head.before.to_list.map position).Nodup := hasc.1.imp ne_of_lt
  exact List.inj_on_of_nodup_map hnodup hp hq h

/-- Behind the fields in front of the sender the other two are found. -/
theorem found (head : TxHead) {tx_type : Fixed 2} {sequence : Fixed 4}
    (htype : (2, .fixed .uint16 tx_type) ∈ head.before.to_list)
    (hsequence : (4, .fixed .uint32 sequence) ∈ head.before.to_list) :
    (head.before.to_list.foldl tx_field ⟨none, none, none⟩).tx_type =
        some (UInt16.ofNat (ofBE tx_type.1)) ∧
      (head.before.to_list.foldl tx_field ⟨none, none, none⟩).sequence =
        some (UInt32.ofNat (ofBE sequence.1)) := by
  rw [foldl_tx_field]
  constructor
  · refine foldl_or_once (fun p hp => ?_) (.inr ⟨_, htype, rfl⟩)
    rcases tx_type_of_cases p with ⟨bytes, rfl⟩ | hnone
    · rw [head.once hp htype rfl]
      exact .inr rfl
    · exact .inl hnone
  · refine foldl_or_once (fun p hp => ?_) (.inr ⟨_, hsequence, rfl⟩)
    rcases sequence_of_cases p with ⟨bytes, rfl⟩ | hnone
    · rw [head.once hp hsequence rfl]
      exact .inr rfl
    · exact .inl hnone

end TxHead

/-- What starts the scan. -/
theorem parse_tx_fields_start (tx_blob : Bytes) :
    ∃ c c'' : Cursor, c.Past tx_blob c'' ∧ c''.rest = [] ∧
      parse_tx_fields tx_blob = scan_tx (tx_blob.length + 1) c ⟨none, none, none⟩ := by
  refine ⟨.start tx_blob, ⟨tx_blob, tx_blob.length, le_refl _⟩, ⟨rfl, ?_⟩, ?_, rfl⟩
  · simp [Cursor.rest, Cursor.start]
  · simp [Cursor.rest]

theorem parse_tx_fields_found (head : TxHead) {tx_type : Fixed 2} {sequence : Fixed 4}
    (rest : Bytes) (htype : (2, .fixed .uint16 tx_type) ∈ head.before.to_list)
    (hsequence : (4, .fixed .uint32 sequence) ∈ head.before.to_list) :
    parse_tx_fields (head.encode ++ rest) = .ok
      { tx_type := UInt16.ofNat (ofBE tx_type.1)
        account := account_of head.account
        sequence := UInt32.ofNat (ofBE sequence.1) } := by
  have hsplit : head.encode ++ rest = head.before.encode ++
      (field_header TYPE_ACCOUNT 1 ++ (write_vl head.account ++ rest)) := by
    simp [TxHead.encode]
  obtain ⟨c, c'', h, -, hstart⟩ := parse_tx_fields_start (head.encode ++ rest)
  rw [hstart]
  rw [hsplit] at h ⊢
  obtain ⟨fuel, c₁, hfuel, h1, hnone, hrun⟩ :=
    @scan_tx_fields head.before c c'' _ ⟨none, none, none⟩ _ (fun p hp => head.scannable hp) rfl h
      (Nat.lt_succ_self _)
  have hfound := head.found htype hsequence
  generalize head.before.to_list.foldl tx_field ⟨none, none, none⟩ = s at hnone hrun hfound
  rw [hrun]
  -- The sender is the last of the three: one round reads it, the next one ends the loop.
  have hheader := field_header_length TYPE_ACCOUNT 1
  rw [List.length_append, List.length_append] at hfuel
  obtain ⟨fuel, rfl⟩ : ∃ n, fuel = n + 2 := ⟨fuel - 2, by omega⟩
  have hlen : head.sender.encode.length ≤ fuel + 1 := by
    show (write_vl head.account).length ≤ fuel + 1
    omega
  have hopen : s.fields = none := TxScan.fields_eq_none.mpr (.inr (.inr hnone))
  have hsender : Scannable (1, head.sender) := by
    refine ⟨le_refl _, ?_⟩
    intro bytes short heq
    cases heq
    exact head.empty_or_20
  rcases @scan_tx_round _ _ _ _ ⟨1, le_refl 1, by decide⟩ head.sender _ hopen h1 hlen with
    ⟨-, c₂, -, hround⟩ | ⟨hno, -⟩
  · rw [hround, scan_tx]
    have hall : (tx_field s (1, head.sender)).fields = some
        { tx_type := UInt16.ofNat (ofBE tx_type.1)
          account := account_of head.account
          sequence := UInt32.ofNat (ofBE sequence.1) } := by
      obtain ⟨t, q, a⟩ := s
      obtain ⟨rfl, rfl⟩ := hfound
      rfl
    rw [hall]
    rfl
  · exact absurd hsender hno

theorem parse_tx_fields_missing {m : StFields}
    (h : (∀ tx_type, (2, .fixed .uint16 tx_type) ∉ m.to_list) ∨
      (∀ sequence, (4, .fixed .uint32 sequence) ∉ m.to_list) ∨
      ∀ account short, (1, .account account short) ∉ m.to_list) :
    ∃ e, parse_tx_fields m.encode = .error e ∧ e ≠ .fuel := by
  obtain ⟨c, c'', hpast, hend, hstart⟩ := parse_tx_fields_start m.encode
  have hopen : (m.to_list.foldl tx_field ⟨none, none, none⟩).fields = none := by
    rw [foldl_tx_field, TxScan.fields_eq_none]
    rcases h with h | h | h
    · refine .inl (foldl_or_none fun p hp => ?_)
      rcases tx_type_of_cases p with ⟨bytes, rfl⟩ | hnone
      · exact absurd hp (h bytes)
      · exact hnone
    · refine .inr (.inl (foldl_or_none fun p hp => ?_))
      rcases sequence_of_cases p with ⟨bytes, rfl⟩ | hnone
      · exact absurd hp (h bytes)
      · exact hnone
    · refine .inr (.inr (foldl_or_none fun p hp => ?_))
      rcases sender_of_cases p with ⟨bytes, short, rfl⟩ | hnone
      · exact absurd hp (h bytes short)
      · exact hnone
  obtain ⟨e, he⟩ := scan_tx_missing m hopen hpast hend (Nat.lt_succ_self _)
  rw [← hstart] at he
  exact ⟨e, he, parse_tx_fields_ne_fuel _ e he⟩

/-- The scan of a transaction. A transaction with fields in ascending order
    up to its sender gives its type, its sender and its sequence, with
    whatever bytes behind the sender. One without all three is an error. -/
theorem parse_tx_fields_exact :
    (∀ (head : TxHead) (tx_type : Fixed 2) (sequence : Fixed 4) (rest : Bytes),
      (2, .fixed .uint16 tx_type) ∈ head.before.to_list →
      (4, .fixed .uint32 sequence) ∈ head.before.to_list →
        parse_tx_fields (head.encode ++ rest) = .ok
          { tx_type := UInt16.ofNat (ofBE tx_type.1)
            account := account_of head.account
            sequence := UInt32.ofNat (ofBE sequence.1) }) ∧
    ∀ m : StFields,
      (∀ tx_type, (2, .fixed .uint16 tx_type) ∉ m.to_list) ∨
        (∀ sequence, (4, .fixed .uint32 sequence) ∉ m.to_list) ∨
        (∀ account short, (1, .account account short) ∉ m.to_list) →
      ∃ e, parse_tx_fields m.encode = .error e ∧ e ≠ .fuel := by
  constructor
  · intro head tx_type sequence rest htype hsequence
    exact parse_tx_fields_found head rest htype hsequence
  · intro m hmissing
    exact parse_tx_fields_missing hmissing

/-- A payment with its flags, its fee and its signing key, up to its sender,
    account 5. -/
def payment_head (tx_type : Fixed 2) (sequence : Fixed 4) : TxHead where
  before := .cons ⟨2, by decide, by decide⟩ (.fixed .uint16 tx_type)
    (.cons ⟨2, by decide, by decide⟩ (.fixed .uint32 ⟨[0x80, 0, 0, 0], rfl⟩)
    (.cons ⟨4, by decide, by decide⟩ (.fixed .uint32 sequence)
    (.cons ⟨8, by decide, by decide⟩
      (.amount (.native ⟨[0x40, 0, 0, 0, 0, 0, 0, 12], rfl⟩ (by decide) (by decide)))
    (.cons ⟨3, by decide, by decide⟩ (.vl [0xAA, 0xBB] (by decide)) .nil))))
  account := List.replicate 20 5
  short := by decide
  empty_or_20 := .inr rfl
  ascending := by
    show ([toLex (1, 2), toLex (2, 2), toLex (2, 4), toLex (6, 8), toLex (7, 3), toLex (8, 1)] :
      List (ℕ ×ₗ ℕ)).Pairwise (· < ·)
    simp [Prod.Lex.toLex_lt_toLex]

/-- The payment with the marker of an array that never ends behind its
    sender, and without its sender. -/
theorem parse_tx_fields_exact_payment :
    parse_tx_fields ((payment_head ⟨[0, 0], rfl⟩ ⟨[0, 0, 0, 77], rfl⟩).encode ++ [0xF9, 0xEA]) =
        .ok { tx_type := 0, account := account_of (List.replicate 20 5), sequence := 77 } ∧
      ∃ e, parse_tx_fields (payment_head ⟨[0, 0], rfl⟩ ⟨[0, 0, 0, 77], rfl⟩).before.encode =
        .error e ∧ e ≠ .fuel := by
  constructor
  · have htype : (2, StValue.fixed .uint16 ⟨[0, 0], rfl⟩) ∈
        (payment_head ⟨[0, 0], rfl⟩ ⟨[0, 0, 0, 77], rfl⟩).before.to_list :=
      .head _
    have hsequence : (4, StValue.fixed .uint32 ⟨[0, 0, 0, 77], rfl⟩) ∈
        (payment_head ⟨[0, 0], rfl⟩ ⟨[0, 0, 0, 77], rfl⟩).before.to_list :=
      .tail _ (.tail _ (.head _))
    exact parse_tx_fields_exact.1 _ _ _ _ htype hsequence
  · refine parse_tx_fields_exact.2 _ (.inr (.inr fun account short hmem => ?_))
    simp [payment_head, StFields.to_list] at hmem

end LedgerArchive
