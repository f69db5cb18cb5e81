import LedgerArchive.Lib.Bytes

/-! # Logs

    A log is a file of records, one behind the other. A scan takes records
    off the front of the file until it cannot. Of a log that is cut off
    anywhere, it finds the records that stand whole before the cut and
    before the first record it refuses (`scan_take`), whatever the file
    holds behind the records, as long as that does not look like a
    record. -/

namespace Lib

variable {ρ : Type}

/-- The records that `next` takes off the front of a file, at most `n`. -/
def scan (next : Bytes → Option (ρ × Bytes)) : Nat → Bytes → List ρ
  | 0, _ => []
  | n + 1, file =>
    match next file with
    | none => []
    | some (r, rest) => r :: scan next n rest

/-- Of `records`, `next` takes those that are readable off the front of a
    file, and refuses the others and the front part of a record. -/
structure Framing (encode : ρ → Bytes) (readable : ρ → Prop)
    (next : Bytes → Option (ρ × Bytes)) (records : List ρ) : Prop where
  read : ∀ r ∈ records, ∀ rest, readable r → next (encode r ++ rest) = some (r, rest)
  refuse : ∀ r ∈ records, ∀ rest, ¬ readable r → next (encode r ++ rest) = none
  short : ∀ r ∈ records, ∀ n < (encode r).length, next ((encode r).take n) = none

/-- Of the records of a log, those that a scan of its first `cut` bytes
    comes to. -/
def reached (encode : ρ → Bytes) (readable : ρ → Prop) [DecidablePred readable] :
    Nat → List ρ → List ρ
  | _, [] => []
  | cut, r :: records =>
    if (encode r).length ≤ cut ∧ readable r then
      r :: reached encode readable (cut - (encode r).length) records
    else []

variable {encode : ρ → Bytes} {readable : ρ → Prop} [DecidablePred readable]
  {next : Bytes → Option (ρ × Bytes)} {records : List ρ} {r : ρ} {cut n : Nat}

theorem reached_begins : reached encode readable cut records <+: records := by
  induction records generalizing cut with
  | nil => exact List.prefix_rfl
  | cons r records ih =>
    unfold reached
    split
    · exact List.prefix_cons_inj r |>.mpr ih
    · exact List.nil_prefix

/-- A record is come to when it and those before it are readable and stand
    whole before the cut. -/
theorem mem_reached :
    r ∈ reached encode readable cut records ↔
      ∃ before, before ++ [r] <+: records ∧ (∀ a ∈ before ++ [r], readable a) ∧
        ((before ++ [r]).flatMap encode).length ≤ cut := by
  induction records generalizing cut with
  | nil =>
    constructor
    · intro hr
      cases hr
    · rintro ⟨before, hpre, -⟩
      have hlen := hpre.length_le
      rw [List.length_append, List.length_singleton, List.length_nil] at hlen
      omega
  | cons a records ih =>
    unfold reached
    constructor
    · intro hr
      split at hr
      · next ha =>
        rcases List.mem_cons.mp hr with rfl | hr
        · exact ⟨[], List.prefix_append [r] records, by simpa using ha.2, by simpa using ha.1⟩
        · obtain ⟨before, hpre, hread, hlen⟩ := ih.mp hr
          -- The record before it takes its bytes of the cut.
          refine ⟨a :: before, List.prefix_cons_inj a |>.mpr hpre,
            List.forall_mem_cons.mpr ⟨ha.2, hread⟩, ?_⟩
          rw [List.cons_append, List.flatMap_cons, List.length_append]
          omega
      · cases hr
    · rintro ⟨before, hpre, hread, hlen⟩
      cases before with
      | nil =>
        obtain ⟨rfl, -⟩ := List.cons_prefix_cons.mp hpre
        rw [List.nil_append, List.flatMap_singleton] at hlen
        rw [if_pos ⟨hlen, hread r List.mem_cons_self⟩]
        exact List.mem_cons_self
      | cons b before =>
        obtain ⟨rfl, hrest⟩ := List.cons_prefix_cons.mp hpre
        rw [List.cons_append, List.flatMap_cons, List.length_append] at hlen
        obtain ⟨hb, hread⟩ := List.forall_mem_cons.mp hread
        rw [if_pos ⟨by omega, hb⟩]
        exact List.mem_cons_of_mem _ (ih.mpr ⟨before, hrest, hread, by omega⟩)

theorem reached_length (hpos : ∀ a ∈ records, 0 < (encode a).length) :
    (reached encode readable cut records).length ≤ min cut (records.flatMap encode).length := by
  induction records generalizing cut with
  | nil => exact Nat.zero_le _
  | cons a records ih =>
    obtain ⟨ha, hpos⟩ := List.forall_mem_cons.mp hpos
    unfold reached
    split
    · next h =>
      have hrest := @ih (cut - (encode a).length) hpos
      rw [List.length_cons, List.flatMap_cons, List.length_append]
      omega
    · exact Nat.zero_le _

/-- A scan of the whole log comes to every record, if all are readable. -/
theorem reached_eq_self (hread : ∀ a ∈ records, readable a)
    (hcut : (records.flatMap encode).length ≤ cut) : reached encode readable cut records = records := by
  induction records generalizing cut with
  | nil => rfl
  | cons a records ih =>
    obtain ⟨ha, hread⟩ := List.forall_mem_cons.mp hread
    rw [List.flatMap_cons, List.length_append] at hcut
    unfold reached
    rw [if_pos ⟨by omega, ha⟩, ih hread (by omega)]

omit [DecidablePred readable] in
/-- A record that is cut off or refused ends the scan. -/
theorem Framing.next_eq_none (hf : Framing encode readable next records) (hr : r ∈ records)
    {rest : Bytes} (h : ¬ ((encode r).length ≤ cut ∧ readable r)) :
    next ((encode r ++ rest).take cut) = none := by
  by_cases hcut : cut < (encode r).length
  · rw [List.take_append_of_le_length (Nat.le_of_lt hcut)]
    exact hf.short r hr cut hcut
  · rw [List.take_append, List.take_of_length_le (by omega)]
    exact hf.refuse r hr _ fun hread => h ⟨by omega, hread⟩

omit [DecidablePred readable] in
theorem Framing.next_eq_some (hf : Framing encode readable next records) (hr : r ∈ records)
    {rest : Bytes} (hcut : (encode r).length ≤ cut) (hread : readable r) :
    next ((encode r ++ rest).take cut) = some (r, rest.take (cut - (encode r).length)) := by
  rw [List.take_append, List.take_of_length_le hcut, hf.read r hr _ hread]

/-- Scanning the first `cut` bytes of a log and of what stands behind it. -/
theorem Framing.scan_take (hf : Framing encode readable next records) {tail : Bytes}
    (htail : ∀ k, next (tail.take k) = none)
    (hn : (reached encode readable cut records).length < n) :
    scan next n ((records.flatMap encode ++ tail).take cut) = reached encode readable cut records := by
  induction records generalizing cut n with
  | nil =>
    cases n with
    | zero => omega
    | succ n =>
      unfold scan
      rw [List.flatMap_nil, List.nil_append, htail]
      rfl
  | cons r records ih =>
    have hrest : Framing encode readable next records :=
      ⟨fun a ha => hf.read a (List.mem_cons_of_mem _ ha),
        fun a ha => hf.refuse a (List.mem_cons_of_mem _ ha),
        fun a ha => hf.short a (List.mem_cons_of_mem _ ha)⟩
    cases n with
    | zero => omega
    | succ n =>
      unfold reached at hn
      unfold scan reached
      rw [List.flatMap_cons, List.append_assoc]
      -- The scan comes to the first record, or ends with it.
      by_cases h : (encode r).length ≤ cut ∧ readable r
      · rw [if_pos h, List.length_cons] at hn
        rw [hf.next_eq_some List.mem_cons_self h.1 h.2, if_pos h]
        exact congrArg (r :: ·) (ih hrest (by omega))
      · rw [hf.next_eq_none List.mem_cons_self h, if_neg h]

end Lib
