import LedgerArchive.Export.Main

/-! # Batches

    A batch reads all its rows, checks all their hashes and computes all its
    diffs before it goes ledger by ledger. The ledgers come out as if each
    had been taken on its own (`export_batch_ok`), and so does the loop as
    long as no batch's last number wraps around (`export_loop_iff`). -/

namespace LedgerArchive

open Lib

variable {sha512half : Bytes → Hash256} {args : Args} {order : MapOrder}
  {get_node : Hash256 → Except Error SHAMapNode} {fuel : Nat} {ledger_db : LedgerIndex}

/-! ## One ledger at a time -/

/-- A ledger on its own: its row, its hash, its diff, and then the rest. -/
def export_next (sha512half : Bytes → Hash256) (args : Args) (order : MapOrder)
    (get_node : Hash256 → Except Error SHAMapNode) (fuel : Nat) (ledger_db : LedgerIndex)
    (e : Export) (seq : UInt32) : Except Error Export := do
  let info ← ledger_db.get seq
  let ledger_hash ← info.verify_ledger_hash sha512half seq
  let d ← diff get_node fuel e.prev_account_hash info.account_hash
  export_ledger sha512half args order get_node fuel e seq info ledger_hash d

/-- Whether or not a chunk ends before the ledger, its state is the old one
    with the diff applied, and its root is the next one's old root. -/
theorem export_ledger_ok {e e' : Export} {seq : UInt32} {info : LedgerInfo} {ledger_hash : Hash256}
    {d : SHAMapDiff}
    (h : export_ledger sha512half args order get_node fuel e seq info ledger_hash d = .ok e') :
    e'.state = apply_diff e.state d ∧ e'.prev_account_hash = info.account_hash := by
  unfold export_ledger at h
  obtain ⟨txns, -, h⟩ := bind_eq_ok.mp h
  dsimp only at h
  split at h
  · rw [← pure_eq_ok.mp h]
    exact ⟨rfl, rfl⟩
  · rw [← pure_eq_ok.mp h]
    exact ⟨rfl, rfl⟩

theorem export_batch_ok {e e' : Export} {seqs : List UInt32} {text : String} :
    export_batch sha512half args order get_node fuel ledger_db e seqs text = .ok e' ↔
      seqs.foldlM (export_next sha512half args order get_node fuel ledger_db) e = .ok e' := by
  unfold export_batch diff_batch_concurrent
  simp only [bind_eq_ok, with_context_eq_ok]
  induction seqs generalizing e with
  | nil =>
    constructor
    · rintro ⟨infos, hinfos, hashes, hhashes, diffs, hdiffs, hfold⟩
      rw [mapM_nil_ok] at hinfos
      subst hinfos
      rw [show batch_pairs e.prev_account_hash [] = [] from rfl, mapM_nil_ok] at hdiffs
      rw [hdiffs] at hfold
      exact hfold
    · intro h
      exact ⟨[], mapM_nil_ok.mpr rfl, [], mapM_nil_ok.mpr rfl, [], mapM_nil_ok.mpr rfl, h⟩
  | cons seq seqs ih =>
    rw [foldlM_cons_ok]
    constructor
    · rintro ⟨infos, hinfos, hashes, hhashes, diffs, hdiffs, hfold⟩
      obtain ⟨info, infos', hinfo, hinfos', rfl⟩ := mapM_cons_ok.mp hinfos
      obtain ⟨ledger_hash, hashes', hhash, hhashes', rfl⟩ := mapM_cons_ok.mp hhashes
      obtain ⟨d, diffs', hd, hdiffs', rfl⟩ := mapM_cons_ok.mp hdiffs
      obtain ⟨e₁, hledger, hfold'⟩ := foldlM_cons_ok.mp hfold
      -- The batch pairs the account hashes ahead of time. Exporting the first
      -- ledger leaves the hash that the second one is paired with.
      obtain ⟨-, hprev⟩ := export_ledger_ok hledger
      refine ⟨e₁, ?_, ih.mp ⟨infos', hinfos', hashes', hhashes', diffs', ?_, hfold'⟩⟩
      · exact bind_eq_ok.mpr ⟨info, hinfo, bind_eq_ok.mpr ⟨ledger_hash, hhash,
          bind_eq_ok.mpr ⟨d, hd, hledger⟩⟩⟩
      · rw [hprev]
        exact hdiffs'
    · rintro ⟨e₁, hnext, hrest⟩
      obtain ⟨info, hinfo, hnext⟩ := bind_eq_ok.mp hnext
      obtain ⟨ledger_hash, hhash, hnext⟩ := bind_eq_ok.mp hnext
      obtain ⟨d, hd, hledger⟩ := bind_eq_ok.mp hnext
      obtain ⟨-, hprev⟩ := export_ledger_ok hledger
      obtain ⟨infos, hinfos, hashes, hhashes, diffs, hdiffs, hfold⟩ := ih.mpr hrest
      rw [hprev] at hdiffs
      exact ⟨info :: infos, mapM_cons_ok.mpr ⟨info, infos, hinfo, hinfos, rfl⟩,
        ledger_hash :: hashes, mapM_cons_ok.mpr ⟨ledger_hash, hashes, hhash, hhashes, rfl⟩,
        d :: diffs, mapM_cons_ok.mpr ⟨d, diffs, hd, hdiffs, rfl⟩,
        foldlM_cons_ok.mpr ⟨e₁, hledger, hfold⟩⟩

/-! ## Numbers that do not wrap around -/

theorem toNat_add_of_lt {a b : UInt32} (h : a.toNat + b.toNat < 2 ^ 32) :
    (a + b).toNat = a.toNat + b.toNat := by
  rw [UInt32.toNat_add, Nat.mod_eq_of_lt h]

theorem toNat_succ {a : UInt32} (h : a.toNat + 1 < 2 ^ 32) : (a + 1).toNat = a.toNat + 1 :=
  toNat_add_of_lt h

/-- A number below another one is not the last `u32`. -/
theorem toNat_succ_of_lt {a b : UInt32} (h : a < b) : (a + 1).toNat = a.toNat + 1 := by
  rw [UInt32.lt_iff_toNat_lt] at h
  have hmax := b.toNat_lt
  exact toNat_succ (by omega)

/-- `(a + n - 1).min(m)`. The sum may just reach `2 ^ 32`: it wraps around
    to 0, and 0 - 1 wraps back. -/
theorem toNat_min_last {a n m : UInt32} (hpos : 0 < a.toNat + n.toNat)
    (hle : a.toNat + n.toNat ≤ 2 ^ 32) :
    (min (a + n - 1) m).toNat = min (a.toNat + n.toNat - 1) m.toNat := by
  have hlast : (a + n - 1).toNat = a.toNat + n.toNat - 1 := by
    rw [UInt32.toNat_sub, UInt32.toNat_add, UInt32.toNat_one]
    omega
  have hmin : min (a + n - 1) m = if a + n - 1 ≤ m then a + n - 1 else m := rfl
  rw [hmin, apply_ite UInt32.toNat, hlast, Nat.min_def]
  simp only [UInt32.le_iff_toNat_le, hlast]

/-! ## The loop -/

theorem batch_seqs_append {a b c : UInt32} (hab : a.toNat ≤ b.toNat + 1) (hbc : b ≤ c)
    (hnext : (b + 1).toNat = b.toNat + 1) :
    batch_seqs a b ++ batch_seqs (b + 1) c = batch_seqs a c := by
  rw [UInt32.le_iff_toNat_le] at hbc
  have hcount : c.toNat + 1 - a.toNat =
      (b.toNat + 1 - a.toNat) + (c.toNat + 1 - (b.toNat + 1)) := by omega
  have hfrom : b.toNat + 1 = a.toNat + (b.toNat + 1 - a.toNat) := by omega
  unfold batch_seqs
  rw [← List.map_append, hnext, hcount, ← List.range'_append_1, ← hfrom]

theorem batch_seqs_empty {a b : UInt32} (h : b < a) : batch_seqs a b = [] := by
  rw [UInt32.lt_iff_toNat_lt] at h
  unfold batch_seqs
  rw [show b.toNat + 1 - a.toNat = 0 from by omega]
  rfl

/-- With the last number there is as the end the loop never ends. -/
theorem export_loop_of_last {batch : UInt32} {n : Nat} {seq : UInt32} {e e' : Export}
    (hend : args.end.toNat = 2 ^ 32 - 1) :
    export_loop sha512half args order get_node fuel ledger_db batch n seq e ≠ .ok e' := by
  have hle : ∀ seq : UInt32, seq ≤ args.end := by
    intro seq
    rw [UInt32.le_iff_toNat_le]
    have := seq.toNat_lt
    omega
  induction n generalizing seq e with
  | zero =>
    intro h
    cases h
  | succ n ih =>
    intro h
    unfold export_loop at h
    rw [if_pos (hle seq)] at h
    obtain ⟨e₁, -, h⟩ := bind_eq_ok.mp h
    exact ih h

/-- The numbers at which batches of this size start from `seq` on can be
    counted up to the end of their batch. -/
def NoWrap (args : Args) (batch : UInt32) (seq : Nat) : Prop :=
  0 < batch.toNat ∧
    ∀ k, seq + k * batch.toNat ≤ args.end.toNat → seq + k * batch.toNat + batch.toNat ≤ 2 ^ 32

theorem NoWrap.next {batch : UInt32} {seq : Nat} (h : NoWrap args batch seq) :
    NoWrap args batch (seq + batch.toNat) := by
  refine ⟨h.1, fun k hk => ?_⟩
  have hnext := h.2 (k + 1)
  rw [Nat.add_mul, Nat.one_mul] at hnext
  have := hnext (by omega)
  omega

/-- The last number of a batch, and the first of the next one. -/
theorem batch_end_spec {batch seq : UInt32} (hw : NoWrap args batch seq.toNat)
    (hle : seq ≤ args.end) (hend : args.end.toNat ≠ 2 ^ 32 - 1) :
    seq ≤ min (seq + batch - 1) args.end ∧
      ((min (seq + batch - 1) args.end = args.end ∧ args.end < args.end + 1) ∨
        (min (seq + batch - 1) args.end < args.end ∧
          (min (seq + batch - 1) args.end + 1).toNat = seq.toNat + batch.toNat)) := by
  obtain ⟨hpos, hfits⟩ := hw
  have hfit := hfits 0
  rw [Nat.zero_mul, Nat.add_zero] at hfit
  rw [UInt32.le_iff_toNat_le] at hle
  have hmin := @toNat_min_last seq batch args.end (by omega) (hfit hle)
  have hmax := args.end.toNat_lt
  generalize min (seq + batch - 1) args.end = batch_end at hmin ⊢
  refine ⟨UInt32.le_iff_toNat_le.mpr (by omega), ?_⟩
  by_cases hcase : seq.toNat + batch.toNat - 1 < args.end.toNat
  · -- The batch is full, and another one follows.
    have hlt : batch_end < args.end := UInt32.lt_iff_toNat_lt.mpr (by omega)
    refine .inr ⟨hlt, ?_⟩
    rw [toNat_succ_of_lt hlt]
    omega
  · have hover : args.end < args.end + 1 := by
      rw [UInt32.lt_iff_toNat_lt, toNat_succ (by omega)]
      exact Nat.lt_succ_self _
    have hlast : batch_end.toNat = args.end.toNat := by omega
    exact .inl ⟨UInt32.toNat_inj.mp hlast, hover⟩

/-- The loop is the ledgers one after the other. -/
theorem export_loop_iff {batch seq : UInt32} {e e' : Export} (hw : NoWrap args batch seq.toNat)
    (hend : args.end.toNat ≠ 2 ^ 32 - 1) :
    (∃ n, export_loop sha512half args order get_node fuel ledger_db batch n seq e = .ok e') ↔
      (batch_seqs seq args.end).foldlM
        (export_next sha512half args order get_node fuel ledger_db) e = .ok e' := by
  have hround : ∀ seq e n, seq ≤ args.end →
      (export_loop sha512half args order get_node fuel ledger_db batch (n + 1) seq e = .ok e' ↔
        ∃ e₁, (batch_seqs seq (min (seq + batch - 1) args.end)).foldlM
            (export_next sha512half args order get_node fuel ledger_db) e = .ok e₁ ∧
          export_loop sha512half args order get_node fuel ledger_db batch n
            (min (seq + batch - 1) args.end + 1) e₁ = .ok e') := by
    intro seq e n hle
    rw [export_loop, if_pos hle]
    simp only [bind_eq_ok, export_batch_ok]
  have hover : ∀ seq e n, args.end < seq →
      (export_loop sha512half args order get_node fuel ledger_db batch (n + 1) seq e = .ok e' ↔
        e = e') := by
    intro seq e n hlt
    rw [export_loop, if_neg (UInt32.not_le.mpr hlt), pure_eq_ok]
  -- By induction on what is left of the range.
  induction hleft : args.end.toNat + 1 - seq.toNat using Nat.strong_induction_on
    generalizing seq e with
  | _ left ih =>
    by_cases hle : seq ≤ args.end
    · obtain ⟨hfirst, hcase⟩ := batch_end_spec hw hle hend
      have hpos := hw.1
      have hseq := UInt32.le_iff_toNat_le.mp hle
      have hsplit := @batch_seqs_append seq (min (seq + batch - 1) args.end) args.end
        (Nat.le_succ_of_le (UInt32.le_iff_toNat_le.mp hfirst))
      constructor
      · rintro ⟨n, hrun⟩
        cases n with
        | zero => cases hrun
        | succ n =>
          obtain ⟨e₁, hbatch, hrun⟩ := (hround seq e n hle).mp hrun
          rcases hcase with ⟨hmin, hlt⟩ | ⟨hmin, hnext⟩
          · rw [hmin] at hbatch hrun
            cases n with
            | zero => cases hrun
            | succ n => exact (hover _ e₁ n hlt).mp hrun ▸ hbatch
          · rw [← hsplit (UInt32.le_of_lt hmin) (toNat_succ_of_lt hmin)]
            refine foldlM_append_ok.mpr ⟨e₁, hbatch, (ih _ ?_ ?_ rfl).mp ⟨n, hrun⟩⟩
            · omega
            · rw [hnext]
              exact hw.next
      · intro hfold
        rcases hcase with ⟨hmin, hlt⟩ | ⟨hmin, hnext⟩
        · refine ⟨2, (hround seq e 1 hle).mpr ⟨e', ?_, ?_⟩⟩
          · rw [hmin]
            exact hfold
          · rw [hmin]
            exact (hover _ e' 0 hlt).mpr rfl
        · rw [← hsplit (UInt32.le_of_lt hmin) (toNat_succ_of_lt hmin)] at hfold
          obtain ⟨e₁, hbatch, hrest⟩ := foldlM_append_ok.mp hfold
          obtain ⟨n, hrun⟩ := (ih _ (by omega) (hnext ▸ hw.next) rfl).mpr hrest
          exact ⟨n + 1, (hround seq e n hle).mpr ⟨e₁, hbatch, hrun⟩⟩
    · have hlt := UInt32.not_le.mp hle
      rw [batch_seqs_empty hlt, foldlM_nil_ok]
      constructor
      · rintro ⟨n, hrun⟩
        cases n with
        | zero => cases hrun
        | succ n => exact (hover seq e n hlt).mp hrun
      · intro h
        exact ⟨1, (hover seq e 0 hlt).mpr h⟩

end LedgerArchive
