import LedgerArchive.Common.MetaDecode
import LedgerArchive.Common.TxTree

/-! # Serialized objects

    The wire grammar of metadata, as values: fields with a type and a field
    code, objects and arrays of them to any depth. A value that cannot be
    written is not built: the widths, the flag bits of amounts, the shapes
    of issues and the lengths are part of the types.

    On these values the rule for affected accounts (`getAffectedAccounts`)
    is a statement about what is in which list (`StFields.Affects`). -/

namespace LedgerArchive

open Lib

/-! ## Leaves -/

/-- A byte string of `n` bytes. -/
abbrev Fixed (n : Nat) : Type := {b : Bytes // b.length = n}

/-- The types whose values are so many bytes. -/
inductive FixedType where
  | uint8 | uint16 | uint32 | int32 | uint64 | int64 | number | uint96 | uint128 | uint160
  | currency | uint192 | uint256 | uint384 | uint512
  deriving DecidableEq

def FixedType.code : FixedType → Nat
  | .uint8 => TYPE_UINT8
  | .uint16 => TYPE_UINT16
  | .uint32 => TYPE_UINT32
  | .int32 => TYPE_INT32
  | .uint64 => TYPE_UINT64
  | .int64 => TYPE_INT64
  | .number => TYPE_NUMBER
  | .uint96 => TYPE_UINT96
  | .uint128 => TYPE_UINT128
  | .uint160 => TYPE_UINT160
  | .currency => TYPE_CURRENCY
  | .uint192 => TYPE_UINT192
  | .uint256 => TYPE_UINT256
  | .uint384 => TYPE_UINT384
  | .uint512 => TYPE_UINT512

/-- Bytes. A number is a mantissa of eight bytes and an exponent of four. -/
def FixedType.width : FixedType → Nat
  | .uint8 => 1
  | .uint16 => 2
  | .uint32 | .int32 => 4
  | .uint64 | .int64 => 8
  | .number | .uint96 => 12
  | .uint128 => 16
  | .uint160 | .currency => 20
  | .uint192 => 24
  | .uint256 => 32
  | .uint384 => 48
  | .uint512 => 64

/-- The byte with the flag bits of an amount. -/
def Fixed.first {n : Nat} (b : Fixed n) : UInt8 := b.1.getD 0 0

/-- The account in 20 bytes, unless they are all zero. -/
def Fixed.nonzero_account (b : Fixed 20) : Option AccountID :=
  if b.1 = List.replicate 20 0 then none else some ⟨b.1, b.2⟩

/-- The issuer in an MPT issuance id, behind a sequence number. -/
def Fixed.issuance_issuer (id : Fixed 24) : Option AccountID :=
  Fixed.nonzero_account ⟨id.1.drop 4, by rw [List.length_drop, id.2]⟩

/-- An amount: native, issued currency or MPT. -/
inductive StAmount where
  | native (value : Fixed 8) (not_issued : value.first &&& AMOUNT_ISSUED_CURRENCY = 0)
      (not_mpt : value.first &&& AMOUNT_MPT = 0)
  | issued (value : Fixed 8) (flag : value.first &&& AMOUNT_ISSUED_CURRENCY ≠ 0)
      (currency issuer : Fixed 20)
  | mpt (value : Fixed 8) (not_issued : value.first &&& AMOUNT_ISSUED_CURRENCY = 0)
      (flag : value.first &&& AMOUNT_MPT ≠ 0) (last : UInt8) (sequence : Fixed 4)
      (issuer : Fixed 20)

def StAmount.encode : StAmount → Bytes
  | .native value _ _ => value.1
  | .issued value _ currency issuer => value.1 ++ (currency.1 ++ issuer.1)
  | .mpt value _ _ last sequence issuer => value.1 ++ ([last] ++ (sequence.1 ++ issuer.1))

def StAmount.issuer : StAmount → Option AccountID
  | .native _ _ _ => none
  | .issued _ _ _ issuer => issuer.nonzero_account
  | .mpt _ _ _ _ _ issuer => issuer.nonzero_account

/-- An issue: XRP, an issued currency or an MPT. -/
inductive StIssue where
  | native
  | issued (currency issuer : Fixed 20) (not_native : currency.1 ≠ List.replicate 20 0)
      (not_mpt : issuer.1 ≠ NO_ACCOUNT)
  | mpt (issuer : Fixed 20) (not_native : issuer.1 ≠ List.replicate 20 0) (sequence : Fixed 4)

def StIssue.encode : StIssue → Bytes
  | .native => List.replicate 20 0
  | .issued currency issuer _ _ => currency.1 ++ issuer.1
  | .mpt issuer _ sequence => issuer.1 ++ (NO_ACCOUNT ++ sequence.1)

/-- The longest length that is written as a prefix. -/
def VL_LENGTH_MAX : Nat := 918744

/-! ## Values and fields -/

/-- The codes of types and fields. -/
structure Code where
  val : Nat
  pos : 1 ≤ val
  le : val ≤ 255

/-- The types of the values below. -/
def known_types : List Nat :=
  [TYPE_UINT16, TYPE_UINT32, TYPE_UINT64, TYPE_UINT128, TYPE_UINT256, TYPE_AMOUNT, TYPE_VL,
    TYPE_ACCOUNT, TYPE_NUMBER, TYPE_INT32, TYPE_INT64, TYPE_OBJECT, TYPE_ARRAY, TYPE_UINT8,
    TYPE_UINT160, TYPE_VECTOR256, TYPE_UINT96, TYPE_UINT192, TYPE_UINT384, TYPE_UINT512,
    TYPE_ISSUE, TYPE_CURRENCY]

mutual

/-- A value. `other` is one of any other type, with whatever bytes. -/
inductive StValue where
  | fixed (type : FixedType) (bytes : Fixed type.width)
  | amount (a : StAmount)
  | vl (bytes : Bytes) (short : bytes.length ≤ VL_LENGTH_MAX)
  | vector256 (bytes : Bytes) (short : bytes.length ≤ VL_LENGTH_MAX)
  | account (bytes : Bytes) (short : bytes.length ≤ VL_LENGTH_MAX)
  | issue (i : StIssue)
  | object (fields : StFields)
  | array (elements : StElements)
  | other (type : Code) (unknown : type.val ∉ known_types) (bytes : Bytes)

/-- The fields of an object. -/
inductive StFields where
  | nil
  | cons (field : Code) (value : StValue) (rest : StFields)

/-- The elements of an array: objects. -/
inductive StElements where
  | nil
  | cons (field : Code) (fields : StFields) (rest : StElements)

end

def StValue.type_code : StValue → Nat
  | .fixed type _ => type.code
  | .amount _ => TYPE_AMOUNT
  | .vl _ _ => TYPE_VL
  | .vector256 _ _ => TYPE_VECTOR256
  | .account _ _ => TYPE_ACCOUNT
  | .issue _ => TYPE_ISSUE
  | .object _ => TYPE_OBJECT
  | .array _ => TYPE_ARRAY
  | .other type _ _ => type.val

/-- Both codes in one byte if they fit, a code that does not fit in a byte
    of its own. -/
def field_header (t f : Nat) : Bytes :=
  if t < 16 then
    if f < 16 then [UInt8.ofNat (t * 16 + f)] else [UInt8.ofNat (t * 16), UInt8.ofNat f]
  else
    if f < 16 then [UInt8.ofNat f, UInt8.ofNat t] else [0, UInt8.ofNat t, UInt8.ofNat f]

def OBJECT_END_MARKER : Bytes := [0xE1]
def ARRAY_END_MARKER : Bytes := [0xF1]

mutual

def StValue.encode : StValue → Bytes
  | .fixed _ bytes => bytes.1
  | .amount a => a.encode
  | .vl bytes _ => write_vl bytes
  | .vector256 bytes _ => write_vl bytes
  | .account bytes _ => write_vl bytes
  | .issue i => i.encode
  | .object fields => fields.encode ++ OBJECT_END_MARKER
  | .array elements => elements.encode ++ ARRAY_END_MARKER
  | .other _ _ bytes => bytes

def StFields.encode : StFields → Bytes
  | .nil => []
  | .cons field value rest => field_header value.type_code field.val ++ (value.encode ++ rest.encode)

def StElements.encode : StElements → Bytes
  | .nil => []
  | .cons field fields rest =>
    field_header TYPE_OBJECT field.val ++ ((fields.encode ++ OBJECT_END_MARKER) ++ rest.encode)

end

def StFields.to_list : StFields → List (Nat × StValue)
  | .nil => []
  | .cons field value rest => (field.val, value) :: rest.to_list

def StElements.to_list : StElements → List (Nat × StFields)
  | .nil => []
  | .cons field fields rest => (field.val, fields) :: rest.to_list

/-- The codes of an end marker. -/
def EndMarker (t f : Nat) : Prop := (t = TYPE_OBJECT ∨ t = TYPE_ARRAY) ∧ f = 1

mutual

/-- No field is repeated in one object, and no end marker is used as a
    field. -/
def StValue.WellFormed : StValue → Prop
  | .object fields => fields.WellFormed
  | .array elements => elements.WellFormed
  | _ => True

def StFields.WellFormed : StFields → Prop
  | .nil => True
  | .cons field value rest => ¬ EndMarker value.type_code field.val ∧
      (∀ p ∈ rest.to_list, p.1 = field.val → p.2.type_code ≠ value.type_code) ∧
      value.WellFormed ∧ rest.WellFormed

def StElements.WellFormed : StElements → Prop
  | .nil => True
  | .cons field fields rest => ¬ EndMarker TYPE_OBJECT field.val ∧ fields.WellFormed ∧
      rest.WellFormed

end

mutual

/-- Every field at every depth has a type of which the decoder knows the
    width. -/
def StValue.Handled : StValue → Prop
  | .object fields => fields.Handled
  | .array elements => elements.Handled
  | .other _ _ _ => False
  | _ => True

def StFields.Handled : StFields → Prop
  | .nil => True
  | .cons _ value rest => value.Handled ∧ rest.Handled

def StElements.Handled : StElements → Prop
  | .nil => True
  | .cons _ fields rest => fields.Handled ∧ rest.Handled

end

/-! ## The rule for affected accounts -/

/-- The account that a field of the first level stands for: an account of
    20 bytes, the issuer of one of four amounts, or the issuer inside an MPT
    issuance id. -/
def StValue.account_at (f : Nat) : StValue → Option AccountID
  | .account bytes _ => if h : bytes.length = 20 then some ⟨bytes, h⟩ else none
  | .amount a =>
    if f = F_TAKER_PAYS ∨ f = F_TAKER_GETS ∨ f = F_LOW_LIMIT ∨ f = F_HIGH_LIMIT then a.issuer
    else none
  | .fixed .uint192 bytes =>
    if f = F_MPT_ISSUANCE_ID then Fixed.issuance_issuer bytes else none
  | _ => none

/-- An object whose first level the rule looks at: `NewFields` of a created
    node, `FinalFields` of any other one. -/
def StFields.Inner (m inner : StFields) : Prop :=
  ∃ nodes, (F_AFFECTED_NODES, .array nodes) ∈ m.to_list ∧ ∃ node ∈ nodes.to_list,
    (if node.1 = F_CREATED_NODE then F_NEW_FIELDS else F_FINAL_FIELDS, .object inner) ∈
      node.2.to_list

/-- The metadata affects the account. -/
def StFields.Affects (m : StFields) (a : AccountID) : Prop :=
  ∃ inner, m.Inner inner ∧ ∃ p ∈ inner.to_list, p.2.account_at p.1 = some a

/-- The account fields that are read are empty or have 20 bytes. -/
def StFields.AccountsReadable (m : StFields) : Prop :=
  ∀ inner, m.Inner inner → ∀ f bytes short, (f, StValue.account bytes short) ∈ inner.to_list →
    bytes.length = 0 ∨ bytes.length = 20

def StFields.HasAffectedNodes (m : StFields) : Prop :=
  ∃ nodes, (F_AFFECTED_NODES, StValue.array nodes) ∈ m.to_list

/-- The top-level field `TransactionIndex` is there with value `i`. -/
def StFields.HasTransactionIndex (m : StFields) (i : UInt32) : Prop :=
  ∃ bytes : Fixed 4, (F_TRANSACTION_INDEX, StValue.fixed .uint32 bytes) ∈ m.to_list ∧
    i = UInt32.ofNat (ofBE bytes.1)

end LedgerArchive
