import Mathlib.Data.List.Basic
import Mathlib.Data.List.Perm.Basic
import Mathlib.Tactic.Ring

/-! # Bytes: big-endian words and segments of a file

    Two things every binary format needs and no format owns:

    * **Words.** `toBE w v` is the `w` low bytes of `v`, most significant
      first, and `ofBE` reads them back. Writing truncates to `w` bytes,
      as a narrowing cast followed by a big-endian store does.
    * **Segments.** `HasAt file off seg` says that `seg` stands in `file`
      at offset `off`. A positioned read returns a segment, and a segment
      stays where it is when the file grows at its end. -/

namespace Lib

abbrev Bytes := List UInt8

/-! ## Big-endian words -/

/-- The `w` low bytes of `v`, most significant byte first. -/
def toBE : Nat → Nat → Bytes
  | 0, _ => []
  | w + 1, v => UInt8.ofNat (v / 256 ^ w) :: toBE w v

/-- The number a byte string spells, most significant byte first. -/
def ofBE (b : Bytes) : Nat :=
  b.foldl (fun n x => n * 256 + x.toNat) 0

@[simp] theorem toBE_length (w v : Nat) : (toBE w v).length = w := by
  induction w with
  | zero => rfl
  | succ w ih => simp [toBE, ih]

/-- Reading with an accumulator only shifts the accumulator up. -/
theorem foldl_ofBE (b : Bytes) (n : Nat) :
    b.foldl (fun n x => n * 256 + x.toNat) n = n * 256 ^ b.length + ofBE b := by
  unfold ofBE
  induction b generalizing n with
  | nil => simp
  | cons x b ih =>
    simp only [List.foldl_cons, List.length_cons]
    rw [ih, ih (0 * 256 + x.toNat)]
    ring

theorem ofBE_cons (x : UInt8) (b : Bytes) :
    ofBE (x :: b) = x.toNat * 256 ^ b.length + ofBE b := by
  show b.foldl (fun n x => n * 256 + x.toNat) (0 * 256 + x.toNat) = _
  rw [foldl_ofBE]; simp

theorem ofBE_lt (b : Bytes) : ofBE b < 256 ^ b.length := by
  induction b with
  | nil => simp [ofBE]
  | cons x b ih =>
    rw [ofBE_cons, List.length_cons, Nat.pow_succ]
    have hx : x.toNat < 256 := x.toNat_lt
    calc x.toNat * 256 ^ b.length + ofBE b
        < x.toNat * 256 ^ b.length + 256 ^ b.length := by omega
      _ = (x.toNat + 1) * 256 ^ b.length := by ring
      _ ≤ 256 * 256 ^ b.length := Nat.mul_le_mul_right _ (by omega)
      _ = 256 ^ b.length * 256 := by ring

/-- Writing keeps the value modulo the width. -/
theorem ofBE_toBE (w v : Nat) : ofBE (toBE w v) = v % 256 ^ w := by
  induction w with
  | zero => simp [toBE, ofBE, Nat.mod_one]
  | succ w ih =>
    have hbyte : (UInt8.ofNat (v / 256 ^ w)).toNat = v / 256 ^ w % 256 := by
      simp
    rw [toBE, ofBE_cons, ih, toBE_length, hbyte, Nat.pow_succ, Nat.mod_mul]
    ring

theorem ofBE_toBE_of_lt {w v : Nat} (h : v < 256 ^ w) : ofBE (toBE w v) = v := by
  rw [ofBE_toBE, Nat.mod_eq_of_lt h]

theorem toBE_inj {w a b : Nat} (ha : a < 256 ^ w) (hb : b < 256 ^ w)
    (h : toBE w a = toBE w b) : a = b := by
  rw [← ofBE_toBE_of_lt ha, ← ofBE_toBE_of_lt hb, h]

/-! ## Segments of a file -/

/-- `seg` stands in `file` at offset `off`. -/
def HasAt (file : Bytes) (off : Nat) (seg : Bytes) : Prop :=
  ∃ pre post, file = pre ++ seg ++ post ∧ pre.length = off

/-- `n` bytes of `file` from offset `off`, or nothing when the file ends
    before. -/
def readAt (file : Bytes) (off n : Nat) : Option Bytes :=
  if off + n ≤ file.length then some ((file.drop off).take n) else none

namespace HasAt

theorem mid (pre seg post : Bytes) : HasAt (pre ++ seg ++ post) pre.length seg :=
  ⟨pre, post, rfl, rfl⟩

theorem last (pre seg : Bytes) : HasAt (pre ++ seg) pre.length seg :=
  ⟨pre, [], by simp, rfl⟩

/-- A segment stays in place when the file grows at its end. -/
theorem append {file seg : Bytes} {off : Nat} (h : HasAt file off seg) (more : Bytes) :
    HasAt (file ++ more) off seg := by
  obtain ⟨pre, post, rfl, hlen⟩ := h
  exact ⟨pre, post ++ more, by simp, hlen⟩

/-- The front part of a segment is a segment at the same offset. -/
theorem front {file a b : Bytes} {off : Nat} (h : HasAt file off (a ++ b)) :
    HasAt file off a := by
  obtain ⟨pre, post, rfl, hlen⟩ := h
  exact ⟨pre, b ++ post, by simp, hlen⟩

/-- The back part of a segment is a segment further on. -/
theorem back {file a b : Bytes} {off : Nat} (h : HasAt file off (a ++ b)) :
    HasAt file (off + a.length) b := by
  obtain ⟨pre, post, rfl, hlen⟩ := h
  exact ⟨pre ++ a, post, by simp, by simp [hlen]⟩

/-- Two segments, one right behind the other, are one. -/
theorem join {file a b : Bytes} {off : Nat} (ha : HasAt file off a)
    (hb : HasAt file (off + a.length) b) : HasAt file off (a ++ b) := by
  obtain ⟨pre, post, rfl, rfl⟩ := ha
  obtain ⟨pre', post', hfile, hlen⟩ := hb
  have hsplit : pre ++ a ++ post = pre' ++ (b ++ post') := by
    rw [hfile, List.append_assoc]
  obtain ⟨-, rfl⟩ := List.append_inj hsplit (by rw [List.length_append, hlen])
  exact ⟨pre, post', by simp, rfl⟩

/-- Pieces of equal length joined. -/
theorem flatten_length {pieces : List Bytes} {n : Nat} (hn : ∀ p ∈ pieces, p.length = n) :
    pieces.flatten.length = pieces.length * n := by
  induction pieces with
  | nil => simp
  | cons p pieces ih =>
    rw [List.flatten_cons, List.length_append, hn p List.mem_cons_self,
      ih fun q hq => hn q (List.mem_cons_of_mem _ hq), List.length_cons]
    ring

/-- Of pieces of equal length, each stands at a multiple of the length. -/
theorem flatten {pre : Bytes} {pieces : List Bytes} {n : Nat} (hn : ∀ p ∈ pieces, p.length = n)
    {i : Nat} {seg : Bytes} (hi : pieces[i]? = some seg) :
    HasAt (pre ++ pieces.flatten) (pre.length + i * n) seg := by
  induction pieces generalizing pre i with
  | nil => cases hi
  | cons p pieces ih =>
    rw [List.flatten_cons, ← List.append_assoc]
    cases i with
    | zero =>
      rw [List.getElem?_cons_zero, Option.some.injEq] at hi
      rw [Nat.zero_mul, ← hi]
      exact mid pre p pieces.flatten
    | succ i =>
      have hlen : pre.length + (i + 1) * n = (pre ++ p).length + i * n := by
        rw [List.length_append, hn p List.mem_cons_self]
        ring
      rw [hlen]
      exact ih (fun q hq => hn q (List.mem_cons_of_mem _ hq)) hi

theorem le_length {file seg : Bytes} {off : Nat} (h : HasAt file off seg) :
    off + seg.length ≤ file.length := by
  obtain ⟨pre, post, rfl, rfl⟩ := h
  simp only [List.length_append]
  omega

/-- A positioned read of the segment's length returns the segment. -/
theorem readAt {file seg : Bytes} {off : Nat} (h : HasAt file off seg) :
    readAt file off seg.length = some seg := by
  have hle := h.le_length
  obtain ⟨pre, post, rfl, rfl⟩ := h
  unfold Lib.readAt
  rw [if_pos hle]
  simp

/-- What a positioned read returns stands there. -/
theorem of_readAt {file b : Bytes} {off n : Nat} (h : Lib.readAt file off n = some b) :
    HasAt file off b := by
  unfold Lib.readAt at h
  split at h
  · next hle =>
    refine ⟨file.take off, file.drop (off + n), ?_, by rw [List.length_take]; omega⟩
    rw [← Option.some.inj h, ← List.drop_drop, List.append_assoc, List.take_append_drop,
      List.take_append_drop]
  · cases h

end HasAt

/-- A positioned read that succeeds returns as many bytes as asked for. -/
theorem readAt_length {file : Bytes} {off n : Nat} {b : Bytes}
    (h : readAt file off n = some b) : b.length = n := by
  unfold readAt at h
  split at h
  · next hle =>
    cases h
    simp only [List.length_take, List.length_drop]
    omega
  · cases h

/-- The front of what a positioned read returns. -/
theorem readAt_take {file b : Bytes} {off n k : Nat} (h : readAt file off n = some b) (hk : k ≤ n) :
    b.take k = (file.drop off).take k := by
  unfold readAt at h
  split at h
  · rw [← Option.some.inj h, List.take_take, Nat.min_eq_left hk]
  · cases h

end Lib
