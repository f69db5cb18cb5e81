import LedgerArchive.Common.Chunk
import LedgerArchive.Lib.Except
import Mathlib.Data.Finset.Sort

/-! # Transaction metadata (`xrla-common/src/meta_decode.rs`)

    The decoder of serialized objects that finds the accounts a transaction
    affected. The metadata is a list of fields up to the end of the buffer;
    objects and arrays inside it run to their end markers.

    The loops of the source take rounds here. Each round reads a byte or
    more, so the rounds that `summarize_meta` starts with are always enough
    (`summarize_meta_ne_fuel`). -/

namespace LedgerArchive

open Lib

/-! ## Type and field codes -/

@[match_pattern] abbrev TYPE_UINT16 : Nat := 1
@[match_pattern] abbrev TYPE_UINT32 : Nat := 2
@[match_pattern] abbrev TYPE_UINT64 : Nat := 3
@[match_pattern] abbrev TYPE_UINT128 : Nat := 4
@[match_pattern] abbrev TYPE_UINT256 : Nat := 5
@[match_pattern] abbrev TYPE_AMOUNT : Nat := 6
@[match_pattern] abbrev TYPE_VL : Nat := 7
@[match_pattern] abbrev TYPE_ACCOUNT : Nat := 8
@[match_pattern] abbrev TYPE_NUMBER : Nat := 9
@[match_pattern] abbrev TYPE_INT32 : Nat := 10
@[match_pattern] abbrev TYPE_INT64 : Nat := 11
@[match_pattern] abbrev TYPE_OBJECT : Nat := 14
@[match_pattern] abbrev TYPE_ARRAY : Nat := 15
@[match_pattern] abbrev TYPE_UINT8 : Nat := 16
@[match_pattern] abbrev TYPE_UINT160 : Nat := 17
@[match_pattern] abbrev TYPE_VECTOR256 : Nat := 19
@[match_pattern] abbrev TYPE_UINT96 : Nat := 20
@[match_pattern] abbrev TYPE_UINT192 : Nat := 21
@[match_pattern] abbrev TYPE_UINT384 : Nat := 22
@[match_pattern] abbrev TYPE_UINT512 : Nat := 23
@[match_pattern] abbrev TYPE_ISSUE : Nat := 24
@[match_pattern] abbrev TYPE_CURRENCY : Nat := 26

def F_AFFECTED_NODES : Nat := 8
def F_CREATED_NODE : Nat := 3
def F_FINAL_FIELDS : Nat := 7
def F_NEW_FIELDS : Nat := 8
def F_TAKER_PAYS : Nat := 4
def F_TAKER_GETS : Nat := 5
def F_LOW_LIMIT : Nat := 6
def F_HIGH_LIMIT : Nat := 7
def F_MPT_ISSUANCE_ID : Nat := 1
def F_TRANSACTION_INDEX : Nat := 28

def AMOUNT_ISSUED_CURRENCY : UInt8 := 0x80
def AMOUNT_MPT : UInt8 := 0x20

/-- Marks an MPT inside an `STIssue`. -/
def NO_ACCOUNT : Bytes := List.replicate 19 0 ++ [1]

/-! ## Accounts -/

/-- A 20-byte account (`[u8; 20]`). -/
@[ext] structure AccountID where
  bytes : Bytes
  length_eq : bytes.length = 20
  deriving DecidableEq

namespace AccountID

/-- `copy_from_slice` into a `[u8; 20]`, as `Hash256.ofBytes`. -/
def ofBytes (b : Bytes) : AccountID :=
  ⟨(b ++ List.replicate 20 0).take 20, by simp⟩

theorem bytes_ofBytes {b : Bytes} (h : b.length = 20) : (ofBytes b).bytes = b := by
  show (b ++ List.replicate 20 0).take 20 = b
  exact List.take_left' h

theorem bytes_inj {a b : AccountID} (h : a.bytes = b.bytes) : a = b := by
  ext1; exact h

/-- Accounts compare as byte arrays do. -/
instance : LinearOrder AccountID :=
  LinearOrder.lift' (fun a => a.bytes.map UInt8.toNat) fun _ _ h =>
    bytes_inj (List.map_injective_iff.mpr (fun _ _ => UInt8.toNat_inj.mp) h)

end AccountID

/-! ## The cursor -/

/-- A position in the buffer. -/
structure Cursor where
  b : Bytes
  i : Nat
  i_le : i ≤ b.length

namespace Cursor

/-- The cursor at the first byte. -/
def start (b : Bytes) : Cursor := ⟨b, 0, Nat.zero_le _⟩

def take (c : Cursor) (n : Nat) : Except Error (Bytes × Cursor) :=
  if h : c.i + n ≤ c.b.length then .ok ((c.b.drop c.i).take n, ⟨c.b, c.i + n, h⟩)
  else .error (.bail s!"unexpected end of buffer (need {n} bytes at offset {c.i})")

def byte (c : Cursor) : Except Error (UInt8 × Cursor) := do
  let (s, c) ← c.take 1
  pure (s.getD 0 0, c)

def peek (c : Cursor) : Except Error UInt8 :=
  ok_or c.b[c.i]? (.bail s!"unexpected end of buffer at offset {c.i}")

def eof (c : Cursor) : Bool := c.i ≥ c.b.length

def read_vl_len (c : Cursor) : Except Error (Nat × Cursor) := do
  let (b1, c) ← c.byte
  if b1.toNat ≤ 192 then pure (b1.toNat, c)
  else if b1.toNat ≤ 240 then do
    let (b2, c) ← c.byte
    pure (193 + (b1.toNat - 193) * 256 + b2.toNat, c)
  else do
    let (b2, c) ← c.byte
    let (b3, c) ← c.byte
    pure (12481 + (b1.toNat - 241) * 65536 + b2.toNat * 256 + b3.toNat, c)

/-- `if code == 0 { code = self.byte()? }`. -/
def or_next_byte (c : Cursor) (code : Nat) : Except Error (Nat × Cursor) :=
  if code = 0 then do
    let (b, c) ← c.byte
    pure (b.toNat, c)
  else pure (code, c)

/-- A field header: the type code and the field code. -/
def read_field_header (c : Cursor) : Except Error ((Nat × Nat) × Cursor) := do
  let (b1, c) ← c.byte
  let (type_code, c) ← c.or_next_byte (b1.toNat / 16)
  let (field_code, c) ← c.or_next_byte (b1.toNat % 16)
  pure ((type_code, field_code), c)

/-- `c.take(n)?` for its effect on the cursor. -/
def pass (c : Cursor) (n : Nat) : Except Error Cursor := do
  let (_, c) ← c.take n
  pure c

end Cursor

/-! ## Values -/

def nonzero (b : Bytes) : Option AccountID :=
  if h : b.length = 20 then
    if b = List.replicate 20 0 then none else some ⟨b, h⟩
  else none

/-- An empty account is none, 20 bytes are one whatever they are, and any
    other length is an error. -/
def read_account (c : Cursor) : Except Error (Option AccountID × Cursor) := do
  let (n, c) ← c.read_vl_len
  match n with
  | 0 => pure (none, c)
  | 20 => do
    let (s, c) ← c.take 20
    pure (some (AccountID.ofBytes s), c)
  | n => .error (.bail s!"invalid AccountID length {n}")

/-- The issuer inside an MPT issuance id. -/
def mpt_issuer (id : Bytes) : Option AccountID := nonzero ((id.drop 4).take 20)

/-- An amount, for its issuer if it has one that is not zero. -/
def read_amount (c : Cursor) : Except Error (Option AccountID × Cursor) := do
  let first ← c.peek
  if first &&& AMOUNT_ISSUED_CURRENCY ≠ 0 then do
    let c ← c.pass 8
    let c ← c.pass 20
    let (issuer, c) ← c.take 20
    pure (nonzero issuer, c)
  else if first &&& AMOUNT_MPT ≠ 0 then do
    let c ← c.pass 8
    let c ← c.pass 1
    let (id, c) ← c.take 24
    pure (mpt_issuer id, c)
  else do
    let c ← c.pass 8
    pure (none, c)

def skip_issue (c : Cursor) : Except Error Cursor := do
  let (first, c) ← c.take 20
  if first.all fun b => b = 0 then pure c
  else do
    let (second, c) ← c.take 20
    if second = NO_ACCOUNT then c.pass 4 else pure c

/-- Consumes one value of the type without looking into it. `skip_fields`
    is the loop over the fields of an object or an array. -/
def skip_value (skip_fields : Cursor → Nat → Except Error Cursor) (c : Cursor)
    (type_code : Nat) : Except Error Cursor :=
  match type_code with
  | TYPE_UINT8 => c.pass 1
  | TYPE_UINT16 => c.pass 2
  | TYPE_UINT32 | TYPE_INT32 => c.pass 4
  | TYPE_UINT64 | TYPE_INT64 => c.pass 8
  | TYPE_NUMBER => c.pass 12
  | TYPE_UINT96 => c.pass 12
  | TYPE_UINT128 => c.pass 16
  | TYPE_UINT160 | TYPE_CURRENCY => c.pass 20
  | TYPE_UINT192 => c.pass 24
  | TYPE_UINT256 => c.pass 32
  | TYPE_UINT384 => c.pass 48
  | TYPE_UINT512 => c.pass 64
  | TYPE_AMOUNT => do
    let (_, c) ← read_amount c
    pure c
  | TYPE_VL | TYPE_VECTOR256 | TYPE_ACCOUNT => do
    let (len, c) ← c.read_vl_len
    c.pass len
  | TYPE_ISSUE => skip_issue c
  | TYPE_OBJECT => skip_fields c TYPE_OBJECT
  | TYPE_ARRAY => skip_fields c TYPE_ARRAY
  | other => .error
    (.bail s!"unhandled STI type code {other} in metadata (unsupported field type)")

/-- The loop of `skip_value` up to the end marker (`end_type`, 1). -/
def skip_fields : Nat → Cursor → Nat → Except Error Cursor
  | 0, _, _ => .error .fuel
  | fuel + 1, c, end_type => do
    let ((t, f), c) ← c.read_field_header
    if t = end_type ∧ f = 1 then pure c
    else do
      let c ← skip_value (skip_fields fuel) c t
      skip_fields fuel c end_type

/-! ## The accounts of the metadata -/

/-- `if let Some(a) = a { out.insert(a); }`. -/
def insert_some (a : Option AccountID) (out : Finset AccountID) : Finset AccountID :=
  match a with
  | some a => insert a out
  | none => out

/-- One field of the first level: what the loop of `collect_inner` does with
    it. -/
def collect_field (fuel : Nat) (c : Cursor) (t f : Nat) (out : Finset AccountID) :
    Except Error (Finset AccountID × Cursor) :=
  if t = TYPE_ACCOUNT then do
    let (a, c) ← read_account c
    pure (insert_some a out, c)
  else if t = TYPE_AMOUNT ∧
      (f = F_TAKER_PAYS ∨ f = F_TAKER_GETS ∨ f = F_LOW_LIMIT ∨ f = F_HIGH_LIMIT) then do
    let (issuer, c) ← read_amount c
    pure (insert_some issuer out, c)
  else if t = TYPE_UINT192 ∧ f = F_MPT_ISSUANCE_ID then do
    let (id, c) ← c.take 24
    pure (insert_some (mpt_issuer id) out, c)
  else do
    let c ← skip_value (skip_fields fuel) c t
    pure (out, c)

/-- The first level of a node's `NewFields` or `FinalFields`. -/
def collect_inner : Nat → Cursor → Finset AccountID → Except Error (Finset AccountID × Cursor)
  | 0, _, _ => .error .fuel
  | fuel + 1, c, out => do
    let ((t, f), c) ← c.read_field_header
    if t = TYPE_OBJECT ∧ f = 1 then pure (out, c)
    else do
      let (out, c) ← collect_field fuel c t f out
      collect_inner fuel c out

/-- One element of `AffectedNodes`. -/
def collect_node : Nat → Cursor → Nat → Finset AccountID →
    Except Error (Finset AccountID × Cursor)
  | 0, _, _, _ => .error .fuel
  | fuel + 1, c, wanted, out => do
    let ((t, f), c) ← c.read_field_header
    if t = TYPE_OBJECT ∧ f = 1 then pure (out, c)
    else if t = TYPE_OBJECT ∧ f = wanted then do
      let (out, c) ← collect_inner fuel c out
      collect_node fuel c wanted out
    else do
      let c ← skip_value (skip_fields fuel) c t
      collect_node fuel c wanted out

/-- A created node has `NewFields`, any other one `FinalFields`. -/
def wanted_fields (f : Nat) : Nat := if f = F_CREATED_NODE then F_NEW_FIELDS else F_FINAL_FIELDS

def collect_affected_nodes : Nat → Cursor → Finset AccountID →
    Except Error (Finset AccountID × Cursor)
  | 0, _, _ => .error .fuel
  | fuel + 1, c, out => do
    let ((t, f), c) ← c.read_field_header
    if t = TYPE_ARRAY ∧ f = 1 then pure (out, c)
    else do
      bail_if (t ≠ TYPE_OBJECT) (.bail s!"unexpected field type {t} inside AffectedNodes")
      let (out, c) ← collect_node fuel c (wanted_fields f) out
      collect_affected_nodes fuel c out

/-! ## The summary -/

/-- What the index needs from one transaction's metadata. -/
structure MetaSummary where
  affected_accounts : List AccountID
  transaction_index : Option UInt32
  deriving DecidableEq

/-- The variables of the top-level loop. -/
structure MetaScan where
  accounts : Finset AccountID
  transaction_index : Option UInt32
  saw_affected_nodes : Bool

/-- The top-level loop: it ends with the buffer. -/
def scan_meta : Nat → Cursor → MetaScan → Except Error MetaScan
  | 0, _, _ => .error .fuel
  | fuel + 1, c, s =>
    if c.eof then pure s
    else do
      let ((t, f), c) ← c.read_field_header
      if t = TYPE_OBJECT ∧ f = 1 then pure s
      else if t = TYPE_ARRAY ∧ f = F_AFFECTED_NODES then do
        let (accounts, c) ← collect_affected_nodes fuel c s.accounts
        scan_meta fuel c { s with accounts, saw_affected_nodes := true }
      else if t = TYPE_UINT32 ∧ f = F_TRANSACTION_INDEX then do
        let (b, c) ← c.take 4
        scan_meta fuel c { s with transaction_index := some (UInt32.ofNat (ofBE b)) }
      else do
        let c ← skip_value (skip_fields fuel) c t
        scan_meta fuel c s

def summarize_meta (meta_blob : Bytes) : Except Error MetaSummary := do
  let s ← scan_meta (meta_blob.length + 1) ⟨meta_blob, 0, Nat.zero_le _⟩
    { accounts := ∅, transaction_index := none, saw_affected_nodes := false }
  bail_if (s.saw_affected_nodes = false) (.bail
    s!"metadata has no AffectedNodes (empty or malformed blob, {meta_blob.length} bytes)")
  pure { affected_accounts := s.accounts.sort, transaction_index := s.transaction_index }

/-! ## The rounds are enough -/

namespace Cursor

/-- What is left of the buffer. -/
def rest (c : Cursor) : Bytes := c.b.drop c.i

theorem rest_length (c : Cursor) : c.rest.length = c.b.length - c.i := List.length_drop

theorem take_ok {c c' : Cursor} {n : Nat} {s : Bytes} (h : c.take n = .ok (s, c')) :
    c'.b = c.b ∧ c'.i = c.i + n ∧ s.length = n ∧ c.rest = s ++ c'.rest := by
  unfold take at h
  split at h
  · next hle =>
    obtain ⟨rfl, rfl⟩ := Prod.mk.inj (Except.ok.inj h)
    refine ⟨rfl, rfl, ?_, ?_⟩
    · rw [List.length_take, List.length_drop]
      omega
    · show c.b.drop c.i = (c.b.drop c.i).take n ++ c.b.drop (c.i + n)
      rw [← List.drop_drop, List.take_append_drop]
  · cases h

theorem take_shrinks {c c' : Cursor} {n : Nat} {s : Bytes} (h : c.take n = .ok (s, c')) :
    c'.rest.length + n = c.rest.length := by
  obtain ⟨-, -, hlen, hrest⟩ := take_ok h
  rw [hrest, List.length_append, hlen, Nat.add_comm]

end Cursor

/-- A read does not run out of rounds, and leaves fewer than `n` bytes. -/
def Leaves {α : Type} (cur : α → Cursor) (n : Nat) (x : Except Error α) : Prop :=
  ErrorsIn (· ≠ .fuel) x ∧ ∀ a, x = .ok a → (cur a).rest.length < n

section Leaves

variable {α β : Type} {cur : α → Cursor} {cur' : β → Cursor} {c : Cursor} {n m : Nat}

theorem leaves_pure {a : α} (h : (cur a).rest.length < n) : Leaves cur n (pure a) := by
  refine ⟨errorsIn_pure a, fun a' ha' => ?_⟩
  rw [pure_eq_ok] at ha'
  exact ha' ▸ h

theorem leaves_error {e : Error} (h : e ≠ .fuel) : Leaves cur n (.error e) :=
  ⟨errorsIn_error.mpr h, fun _ h => by cases h⟩

theorem Leaves.bind {x : Except Error α} {f : α → Except Error β} (hx : Leaves cur n x)
    (hf : ∀ a, (cur a).rest.length < n → Leaves cur' m (f a)) : Leaves cur' m (x >>= f) := by
  refine ⟨ErrorsIn.bind hx.1 fun a ha => (hf a (hx.2 a ha)).1, fun b hb => ?_⟩
  obtain ⟨a, ha, hfa⟩ := bind_eq_ok.mp hb
  exact (hf a (hx.2 a ha)).2 b hfa

theorem Leaves.bind_errors {x : Except Error α} {f : α → Except Error β}
    (hx : ErrorsIn (· ≠ .fuel) x) (hf : ∀ a, Leaves cur' m (f a)) : Leaves cur' m (x >>= f) := by
  refine ⟨ErrorsIn.bind hx fun a _ => (hf a).1, fun b hb => ?_⟩
  obtain ⟨a, -, hfa⟩ := bind_eq_ok.mp hb
  exact (hf a).2 b hfa

theorem Cursor.take_leaves (c : Cursor) (n : Nat) :
    Leaves Prod.snd (c.rest.length + 1) (c.take n) := by
  constructor
  · unfold Cursor.take
    split
    · exact errorsIn_ok _
    · exact errorsIn_error.mpr (by simp)
  · intro a ha
    have hlen := Cursor.take_shrinks ha
    omega

/-- Reading a byte leaves fewer bytes. -/
theorem Cursor.byte_leaves (c : Cursor) : Leaves Prod.snd c.rest.length c.byte := by
  constructor
  · apply ErrorsIn.bind (c.take_leaves 1).1
    intro a _
    exact errorsIn_pure _
  · intro a ha
    obtain ⟨⟨s, c'⟩, htake, ha⟩ := bind_eq_ok.mp ha
    rw [pure_eq_ok] at ha
    subst ha
    have hlen := Cursor.take_shrinks htake
    show c'.rest.length < c.rest.length
    omega

theorem Cursor.pass_leaves (h : c.rest.length < m) (n : Nat) : Leaves id m (c.pass n) := by
  apply Leaves.bind (c.take_leaves n)
  intro a ha
  exact leaves_pure (by show a.2.rest.length < m; omega)

theorem Cursor.read_vl_len_leaves (c : Cursor) : Leaves Prod.snd c.rest.length c.read_vl_len := by
  apply Leaves.bind c.byte_leaves
  rintro ⟨b1, c1⟩ h1
  dsimp only at h1 ⊢
  split
  · exact leaves_pure h1
  split
  · apply Leaves.bind c1.byte_leaves
    intro a ha
    exact leaves_pure (lt_trans ha h1)
  · apply Leaves.bind c1.byte_leaves
    intro a ha
    apply Leaves.bind a.2.byte_leaves
    intro a' ha'
    exact leaves_pure (lt_trans ha' (lt_trans ha h1))

theorem Cursor.or_next_byte_leaves (h : c.rest.length < m) (code : Nat) :
    Leaves Prod.snd m (c.or_next_byte code) := by
  unfold Cursor.or_next_byte
  split
  · apply Leaves.bind c.byte_leaves
    intro a ha
    exact leaves_pure (lt_trans ha h)
  · exact leaves_pure h

theorem Cursor.read_field_header_leaves (c : Cursor) :
    Leaves Prod.snd c.rest.length c.read_field_header := by
  apply Leaves.bind c.byte_leaves
  intro a ha
  apply Leaves.bind (Cursor.or_next_byte_leaves ha _)
  intro a' ha'
  apply Leaves.bind (Cursor.or_next_byte_leaves ha' _)
  intro a'' ha''
  exact leaves_pure ha''

theorem read_account_leaves (c : Cursor) : Leaves Prod.snd c.rest.length (read_account c) := by
  apply Leaves.bind c.read_vl_len_leaves
  rintro ⟨n, c₁⟩ h1
  dsimp only at h1 ⊢
  split
  · exact leaves_pure h1
  · apply Leaves.bind (c₁.take_leaves 20)
    intro a ha
    exact leaves_pure (by show a.2.rest.length < _; omega)
  · exact leaves_error (by simp)

theorem read_amount_leaves (h : c.rest.length < m) : Leaves Prod.snd m (read_amount c) := by
  apply Leaves.bind_errors (errorsIn_ok_or (by simp))
  intro first
  split
  · apply Leaves.bind (Cursor.pass_leaves h 8)
    intro c₁ h1
    apply Leaves.bind (Cursor.pass_leaves h1 20)
    intro c₂ h2
    apply Leaves.bind (c₂.take_leaves 20)
    intro a ha
    exact leaves_pure (lt_of_le_of_lt (Nat.lt_succ_iff.mp ha) h2)
  split
  · apply Leaves.bind (Cursor.pass_leaves h 8)
    intro c₁ h1
    apply Leaves.bind (Cursor.pass_leaves h1 1)
    intro c₂ h2
    apply Leaves.bind (c₂.take_leaves 24)
    intro a ha
    exact leaves_pure (lt_of_le_of_lt (Nat.lt_succ_iff.mp ha) h2)
  · apply Leaves.bind (Cursor.pass_leaves h 8)
    intro c₁ h1
    exact leaves_pure h1

theorem skip_issue_leaves (h : c.rest.length < m) : Leaves id m (skip_issue c) := by
  apply Leaves.bind (c.take_leaves 20)
  rintro ⟨first, c₁⟩ h1
  dsimp only at h1 ⊢
  split
  · exact leaves_pure (lt_of_le_of_lt (Nat.lt_succ_iff.mp h1) h)
  apply Leaves.bind (c₁.take_leaves 20)
  rintro ⟨second, c₂⟩ h2
  dsimp only at h2 ⊢
  have hle : c₂.rest.length < m := by omega
  split
  · exact Cursor.pass_leaves hle 4
  · exact leaves_pure hle

theorem skip_value_leaves {skip_fields : Cursor → Nat → Except Error Cursor} (h : c.rest.length < m)
    (hfields : ∀ t, Leaves id m (skip_fields c t)) (t : Nat) :
    Leaves id m (skip_value skip_fields c t) := by
  have hvl : Leaves id m (do let (len, c) ← c.read_vl_len; c.pass len) := by
    apply Leaves.bind c.read_vl_len_leaves
    intro a ha
    exact Cursor.pass_leaves (lt_trans ha h) a.1
  have hamount : Leaves id m (do let (_, c) ← read_amount c; pure c) := by
    apply Leaves.bind (read_amount_leaves h)
    intro a ha
    exact leaves_pure ha
  unfold skip_value
  split
  case h_16 => exact hamount
  case h_17 => exact hvl
  case h_18 => exact hvl
  case h_19 => exact hvl
  case h_20 => exact skip_issue_leaves h
  case h_21 => exact hfields _
  case h_22 => exact hfields _
  case h_23 => exact leaves_error (by simp)
  -- The types of a fixed width.
  all_goals exact Cursor.pass_leaves h _

/-- Skipping fields takes no more rounds than there are bytes: every round
    reads a header. -/
theorem skip_fields_leaves {fuel : Nat} (hfuel : c.rest.length < fuel) (h : c.rest.length < m)
    (t : Nat) : Leaves id m (skip_fields fuel c t) := by
  induction fuel generalizing c t m with
  | zero => exact absurd hfuel (Nat.not_lt_zero _)
  | succ fuel ih =>
    unfold skip_fields
    apply Leaves.bind c.read_field_header_leaves
    rintro ⟨⟨t', f⟩, c₁⟩ h1
    dsimp only at h1 ⊢
    split
    · exact leaves_pure (lt_trans h1 h)
    · apply Leaves.bind (skip_value_leaves h1 (fun t => ih (by omega) h1 t) t')
      intro c₂ h2
      have h2 : c₂.rest.length < c.rest.length := h2
      exact ih (by omega) (lt_trans h2 h) t

theorem collect_field_leaves {fuel : Nat} (hfuel : c.rest.length < fuel) (h : c.rest.length < m)
    (t f : Nat) (out : Finset AccountID) : Leaves Prod.snd m (collect_field fuel c t f out) := by
  unfold collect_field
  split
  · apply Leaves.bind (read_account_leaves c)
    intro a ha
    exact leaves_pure (lt_trans ha h)
  split
  · apply Leaves.bind (read_amount_leaves h)
    intro a ha
    exact leaves_pure ha
  split
  · apply Leaves.bind (c.take_leaves 24)
    intro a ha
    exact leaves_pure (lt_of_le_of_lt (Nat.lt_succ_iff.mp ha) h)
  · apply Leaves.bind (skip_value_leaves h (fun t => skip_fields_leaves hfuel h t) t)
    intro c₁ h1
    exact leaves_pure h1

theorem collect_inner_leaves {fuel : Nat} (hfuel : c.rest.length < fuel) (h : c.rest.length < m)
    (out : Finset AccountID) : Leaves Prod.snd m (collect_inner fuel c out) := by
  induction fuel generalizing c m out with
  | zero => exact absurd hfuel (Nat.not_lt_zero _)
  | succ fuel ih =>
    unfold collect_inner
    apply Leaves.bind c.read_field_header_leaves
    rintro ⟨⟨t, f⟩, c₁⟩ h1
    dsimp only at h1 ⊢
    split
    · exact leaves_pure (lt_trans h1 h)
    · apply Leaves.bind (collect_field_leaves (by omega) h1 t f out)
      intro a ha
      have ha : a.2.rest.length < c.rest.length := ha
      exact ih (by omega) (lt_trans ha h) a.1

theorem collect_node_leaves {fuel : Nat} (hfuel : c.rest.length < fuel) (h : c.rest.length < m)
    (wanted : Nat) (out : Finset AccountID) :
    Leaves Prod.snd m (collect_node fuel c wanted out) := by
  induction fuel generalizing c m out with
  | zero => exact absurd hfuel (Nat.not_lt_zero _)
  | succ fuel ih =>
    have hnext : ∀ (c' : Cursor) (out' : Finset AccountID), c'.rest.length < c.rest.length →
        Leaves Prod.snd m (collect_node fuel c' wanted out') := by
      intro c' out' h'
      exact ih (by omega) (lt_trans h' h) out'
    unfold collect_node
    apply Leaves.bind c.read_field_header_leaves
    rintro ⟨⟨t, f⟩, c₁⟩ h1
    dsimp only at h1 ⊢
    split
    · exact leaves_pure (lt_trans h1 h)
    split
    · apply Leaves.bind (collect_inner_leaves (by omega) h1 out)
      intro a ha
      exact hnext a.2 _ ha
    · apply Leaves.bind (skip_value_leaves h1 (fun t => skip_fields_leaves (by omega) h1 t) t)
      intro c₂ h2
      exact hnext c₂ _ h2

theorem collect_affected_nodes_leaves {fuel : Nat} (hfuel : c.rest.length < fuel)
    (h : c.rest.length < m) (out : Finset AccountID) :
    Leaves Prod.snd m (collect_affected_nodes fuel c out) := by
  induction fuel generalizing c m out with
  | zero => exact absurd hfuel (Nat.not_lt_zero _)
  | succ fuel ih =>
    unfold collect_affected_nodes
    apply Leaves.bind c.read_field_header_leaves
    rintro ⟨⟨t, f⟩, c₁⟩ h1
    dsimp only at h1 ⊢
    split
    · exact leaves_pure (lt_trans h1 h)
    apply Leaves.bind_errors (errorsIn_bail_if (by simp))
    intro _
    apply Leaves.bind (collect_node_leaves (by omega) h1 (wanted_fields f) out)
    intro a ha
    have ha : a.2.rest.length < c.rest.length := ha
    exact ih (by omega) (lt_trans ha h) a.1

end Leaves

theorem scan_meta_ne_fuel {fuel : Nat} {c : Cursor} (hfuel : c.rest.length < fuel) (s : MetaScan) :
    ErrorsIn (· ≠ .fuel) (scan_meta fuel c s) := by
  induction fuel generalizing c s with
  | zero => exact absurd hfuel (Nat.not_lt_zero _)
  | succ fuel ih =>
    have hnext : ∀ (c' : Cursor) (s' : MetaScan), c'.rest.length < c.rest.length →
        ErrorsIn (· ≠ .fuel) (scan_meta fuel c' s') := by
      intro c' s' h'
      exact ih (by omega) s'
    unfold scan_meta
    split
    · exact errorsIn_pure s
    apply ErrorsIn.bind c.read_field_header_leaves.1
    rintro ⟨⟨t, f⟩, c₁⟩ hread
    have h1 : c₁.rest.length < c.rest.length := c.read_field_header_leaves.2 _ hread
    dsimp only
    split
    · exact errorsIn_pure s
    split
    · have hnodes := @collect_affected_nodes_leaves c₁ c.rest.length fuel (by omega) h1 s.accounts
      apply ErrorsIn.bind hnodes.1
      intro a ha
      exact hnext a.2 _ (hnodes.2 a ha)
    split
    · apply ErrorsIn.bind (c₁.take_leaves 4).1
      intro a ha
      have h2 := (c₁.take_leaves 4).2 a ha
      exact hnext a.2 _ (by omega)
    · have hfields : ∀ t, Leaves id c.rest.length (skip_fields fuel c₁ t) :=
        fun t => skip_fields_leaves (by omega) h1 t
      have hskip := skip_value_leaves h1 hfields t
      apply ErrorsIn.bind hskip.1
      intro c₂ h2
      exact hnext c₂ _ (hskip.2 c₂ h2)

/-- `summarize_meta` comes to an end on every input. -/
theorem summarize_meta_ne_fuel (meta_blob : Bytes) :
    ErrorsIn (· ≠ .fuel) (summarize_meta meta_blob) := by
  apply ErrorsIn.bind (scan_meta_ne_fuel (Nat.lt_succ_self _) _)
  intro s _
  exact ErrorsIn.bind (errorsIn_bail_if (by simp)) fun _ _ => errorsIn_pure _

end LedgerArchive
