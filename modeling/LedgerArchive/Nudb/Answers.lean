import LedgerArchive.Lib.Within
import LedgerArchive.Nudb.Search
import Mathlib.Data.Fintype.Order

/-! # Lookups that answer as much

    A walk looks at a store through lookups. Where another store answers
    each lookup as the first one does (`Answers`), and with no fewer rounds,
    the walks return what they returned. -/

namespace LedgerArchive

open Lib

/-- Whatever `get_node` finds, `get_node'` finds too, and what `get_node`
    reports as missing or damaged, `get_node'` does not find either. -/
structure Answers (get_node get_node' : Hash256 → Except Error SHAMapNode) : Prop where
  found : ∀ h n, get_node h = .ok n → get_node' h = .ok n
  missed : ∀ h e, get_node h = .error e → e ≠ .fuel → ∃ e', e' ≠ .fuel ∧ get_node' h = .error e'

variable {get_node get_node' : Hash256 → Except Error SHAMapNode} {fuel fuel' : Nat}

theorem Answers.refl (get_node : Hash256 → Except Error SHAMapNode) : Answers get_node get_node :=
  ⟨fun _ _ h => h, fun _ e h he => ⟨e, he, h⟩⟩

theorem Answers.get (ha : Answers get_node get_node') (h : Hash256) :
    Within (get_node h) (get_node' h) :=
  fun n hn => ha.found h n hn

theorem Answers.named (ha : Answers get_node get_node') (hn : Named get_node') : Named get_node :=
  fun h n hget => hn h n (ha.found h n hget)

/-! ## Collecting -/

theorem collect_reachable_loop_within (ha : Answers get_node get_node') (hf : fuel ≤ fuel')
    (stack visited : List Hash256) (result : List SHAMapNode) :
    Within (collect_reachable_loop get_node fuel stack visited result)
      (collect_reachable_loop get_node' fuel' stack visited result) := by
  induction fuel generalizing fuel' stack visited result with
  | zero => exact within_error _
  | succ fuel ih =>
    obtain ⟨fuel', rfl⟩ : ∃ k, fuel' = k + 1 := ⟨fuel' - 1, by omega⟩
    have hle : fuel ≤ fuel' := by omega
    cases stack with
    | nil => exact Within.refl _
    | cons h stack =>
      unfold collect_reachable_loop
      by_cases hh : h ∈ visited
      · rw [if_pos hh, if_pos hh]
        exact ih hle _ _ _
      · rw [if_neg hh, if_neg hh]
        apply (ha.get h).bind
        intro node _
        by_cases hin : node.node_type.is_inner = true
        · rw [if_pos hin, if_pos hin]
          apply (Within.refl _).bind
          intro inner _
          exact ih hle _ _ _
        · rw [if_neg hin, if_neg hin]
          exact ih hle _ _ _

theorem collect_level_loop_within (ha : Answers get_node get_node') (hf : fuel ≤ fuel')
    (frontier visited : List Hash256) (result : List SHAMapNode) :
    Within (collect_level_loop get_node fuel frontier visited result)
      (collect_level_loop get_node' fuel' frontier visited result) := by
  induction fuel generalizing fuel' frontier visited result with
  | zero => exact within_error _
  | succ fuel ih =>
    obtain ⟨fuel', rfl⟩ : ∃ k, fuel' = k + 1 := ⟨fuel' - 1, by omega⟩
    have hle : fuel ≤ fuel' := by omega
    cases frontier with
    | nil => exact Within.refl _
    | cons h frontier =>
      unfold collect_level_loop
      apply Within.bind
      · apply within_foldlM
        intro x _ l
        exact (ha.get x).bind fun node _ => Within.refl _
      · intro l _
        exact ih hle _ _ _

theorem collect_reachable_concurrent_within (ha : Answers get_node get_node') (hf : fuel ≤ fuel')
    (root : Hash256) (concurrency : Nat) :
    Within (collect_reachable_concurrent get_node fuel root concurrency)
      (collect_reachable_concurrent get_node' fuel' root concurrency) := by
  unfold collect_reachable_concurrent
  split
  · exact collect_reachable_loop_within ha hf _ _ _
  · exact collect_level_loop_within ha hf _ _ _

/-! ## Diffs -/

theorem collect_added_within (ha : Answers get_node get_node') (hf : fuel ≤ fuel') (h : Hash256)
    (d : SHAMapDiff) :
    Within (collect_added get_node fuel h d) (collect_added get_node' fuel' h d) := by
  induction fuel generalizing fuel' h d with
  | zero => exact within_error _
  | succ fuel ih =>
    obtain ⟨fuel', rfl⟩ : ∃ k, fuel' = k + 1 := ⟨fuel' - 1, by omega⟩
    have hle : fuel ≤ fuel' := by omega
    unfold collect_added
    by_cases hz : h = ZERO_HASH
    · rw [if_pos hz, if_pos hz]
      exact Within.refl _
    · rw [if_neg hz, if_neg hz]
      apply (ha.get h).bind
      intro node _
      split
      · apply (Within.refl _).bind
        intro inner _
        apply Within.bind
        · exact within_foldlM fun c _ d => ih hle c d
        · intro d' _
          exact Within.refl _
      · exact Within.refl _

theorem collect_deleted_within (ha : Answers get_node get_node') (hf : fuel ≤ fuel') (h : Hash256)
    (d : SHAMapDiff) :
    Within (collect_deleted get_node fuel h d) (collect_deleted get_node' fuel' h d) := by
  induction fuel generalizing fuel' h d with
  | zero => exact within_error _
  | succ fuel ih =>
    obtain ⟨fuel', rfl⟩ : ∃ k, fuel' = k + 1 := ⟨fuel' - 1, by omega⟩
    have hle : fuel ≤ fuel' := by omega
    unfold collect_deleted
    by_cases hz : h = ZERO_HASH
    · rw [if_pos hz, if_pos hz]
      exact Within.refl _
    · rw [if_neg hz, if_neg hz]
      cases hget : get_node h with
      | ok node =>
        rw [ha.found h node hget]
        dsimp only
        split
        · apply (Within.refl _).bind
          intro inner _
          apply Within.bind
          · exact within_foldlM fun c _ d => ih hle c d
          · intro d' _
            exact Within.refl _
        · exact Within.refl _
      | error e =>
        by_cases he : e = .fuel
        · rw [he]
          exact within_error _
        · -- A node that cannot be read is deleted, whatever the error.
          obtain ⟨e', he', hget'⟩ := ha.missed h e hget he
          rw [hget']
          cases e <;> cases e' <;> first | exact absurd rfl he | exact absurd rfl he' | exact Within.refl _

theorem diff_nodes_within (ha : Answers get_node get_node') (hf : fuel ≤ fuel')
    (old_hash new_hash : Hash256) (d : SHAMapDiff) :
    Within (diff_nodes get_node fuel old_hash new_hash d)
      (diff_nodes get_node' fuel' old_hash new_hash d) := by
  induction fuel generalizing fuel' old_hash new_hash d with
  | zero => exact within_error _
  | succ fuel ih =>
    obtain ⟨fuel', rfl⟩ : ∃ k, fuel' = k + 1 := ⟨fuel' - 1, by omega⟩
    have hle : fuel ≤ fuel' := by omega
    unfold diff_nodes
    split
    · exact Within.refl _
    · split
      · exact collect_deleted_within ha hf old_hash d
      · split
        · exact collect_added_within ha hf new_hash d
        · apply (ha.get new_hash).bind
          intro new_node _
          apply (ha.get old_hash).bind
          intro old_node _
          split
          · apply (Within.refl _).bind
            intro new_inner _
            apply (Within.refl _).bind
            intro old_inner _
            apply Within.bind
            · apply within_foldlM
              intro i _ d
              dsimp only
              split
              · exact ih hle _ _ d
              · exact Within.refl _
            · intro d' _
              exact Within.refl _
          · apply (collect_added_within ha hf new_hash d).bind
            intro d' _
            exact collect_deleted_within ha hf old_hash d'

theorem diff_within (ha : Answers get_node get_node') (hf : fuel ≤ fuel')
    (old_root new_root : Hash256) :
    Within (diff get_node fuel old_root new_root) (diff get_node' fuel' old_root new_root) := by
  apply (diff_nodes_within ha hf old_root new_root _).bind
  intro d _
  exact Within.refl _

/-! ## Transactions -/

theorem collect_transactions_loop_within (ha : Answers get_node get_node') (hf : fuel ≤ fuel')
    (stack visited : List Hash256) (out : List TxRecord) :
    Within (collect_transactions_loop get_node fuel stack visited out)
      (collect_transactions_loop get_node' fuel' stack visited out) := by
  induction fuel generalizing fuel' stack visited out with
  | zero => exact within_error _
  | succ fuel ih =>
    obtain ⟨fuel', rfl⟩ : ∃ k, fuel' = k + 1 := ⟨fuel' - 1, by omega⟩
    have hle : fuel ≤ fuel' := by omega
    cases stack with
    | nil => exact Within.refl _
    | cons h stack =>
      unfold collect_transactions_loop
      by_cases hh : h ∈ visited
      · rw [if_pos hh, if_pos hh]
        exact ih hle _ _ _
      · rw [if_neg hh, if_neg hh]
        apply (ha.get h).bind
        intro node _
        split
        · apply (Within.refl _).bind
          intro inner _
          exact ih hle _ _ _
        · apply (Within.refl _).bind
          intro tx _
          exact ih hle _ _ _

theorem collect_transactions_within (ha : Answers get_node get_node') (hf : fuel ≤ fuel')
    (tx_root : Hash256) :
    Within (collect_transactions get_node fuel tx_root)
      (collect_transactions get_node' fuel' tx_root) := by
  unfold collect_transactions
  split
  · exact Within.refl _
  · apply (collect_transactions_loop_within ha hf _ _ _).bind
    intro out _
    exact Within.refl _

/-! ## Two readers -/

/-- `y` is `x`, unless `x` ran out of rounds. -/
def Settled {α : Type} (x y : Except Error α) : Prop := x = .error .fuel ∨ x = y

theorem Settled.refl {α : Type} (x : Except Error α) : Settled x x := .inr rfl

theorem Settled.bind {α β : Type} {x y : Except Error α} {f g : α → Except Error β}
    (hxy : Settled x y) (hfg : ∀ a, Settled (f a) (g a)) : Settled (x >>= f) (y >>= g) := by
  rcases hxy with hx | hx
  · exact .inl (by rw [hx]; rfl)
  · rw [← hx]
    cases x with
    | error e => exact Settled.refl _
    | ok a => exact hfg a

theorem fetch_loop_settled (s : Shard) (key : Hash256) (nhash : Nat) (hf : fuel ≤ fuel')
    (block : Bytes) :
    Settled (s.fetch_loop key nhash fuel block) (s.fetch_loop key nhash fuel' block) := by
  induction fuel generalizing fuel' block with
  | zero => exact .inl rfl
  | succ fuel ih =>
    obtain ⟨fuel', rfl⟩ : ∃ k, fuel' = k + 1 := ⟨fuel' - 1, by omega⟩
    unfold Shard.fetch_loop
    apply (Settled.refl _).bind
    intro count
    apply (Settled.refl _).bind
    intro spill
    apply (Settled.refl _).bind
    intro found
    cases found with
    | some val => exact Settled.refl _
    | none =>
      dsimp only
      split
      · exact Settled.refl _
      · apply (Settled.refl _).bind
        intro head
        apply (Settled.refl _).bind
        intro body
        exact ih (by omega) body

variable {xxh64 : Bytes → UInt64 → UInt64} {lz4 : Bytes → Nat → Option Bytes}

theorem get_wire_loop_settled (hf : fuel ≤ fuel') (hash : Hash256) (shards : List Shard) :
    Settled (NuDBReader.get_wire_loop xxh64 lz4 fuel hash shards)
      (NuDBReader.get_wire_loop xxh64 lz4 fuel' hash shards) := by
  induction shards with
  | nil => exact Settled.refl _
  | cons shard shards ih =>
    unfold NuDBReader.get_wire_loop
    apply Settled.bind
    · apply (Settled.refl _).bind
      intro block
      exact fetch_loop_settled shard hash _ hf block
    · intro value
      split
      · exact Settled.refl _
      · exact ih

theorem get_node_settled (r : NuDBReader) (hf : fuel ≤ fuel') (h : Hash256) :
    Settled (r.get_node xxh64 lz4 fuel h) (r.get_node xxh64 lz4 fuel' h) := by
  apply (get_wire_loop_settled hf h r.shards).bind
  intro wire
  exact Settled.refl _

theorem get_node_answers (r : NuDBReader) (hf : fuel ≤ fuel') :
    Answers (r.get_node xxh64 lz4 fuel) (r.get_node xxh64 lz4 fuel') := by
  refine ⟨fun h n hn => ?_, fun h e he hne => ?_⟩
  · rcases get_node_settled r hf h with hx | hx
    · rw [hn] at hx
      cases hx
    · rw [← hx]
      exact hn
  · rcases get_node_settled r hf h with hx | hx
    · rw [he] at hx
      exact absurd (Except.error.inj hx) hne
    · exact ⟨e, hne, hx ▸ he⟩

variable (xxh64 lz4)

/-- With rounds enough, the lookup of `h` ends: with a node, or without
    one. -/
def NuDBReader.Resolves (r : NuDBReader) (h : Hash256) (node : Option SHAMapNode) : Prop :=
  ∃ fuel, r.get_node xxh64 lz4 fuel h ≠ .error .fuel ∧
    (r.get_node xxh64 lz4 fuel h).toOption = node

/-- Two readers resolve every hash to the same node, or neither does. How
    many shards they have, in which order, and how the values are encoded
    is left open. -/
def SameNodes (r r' : NuDBReader) : Prop :=
  ∀ h node, r.Resolves xxh64 lz4 h node ↔ r'.Resolves xxh64 lz4 h node

variable {xxh64 lz4}

theorem SameNodes.symm {r r' : NuDBReader} (hs : SameNodes xxh64 lz4 r r') :
    SameNodes xxh64 lz4 r' r :=
  fun h node => (hs h node).symm

/-- With rounds enough, the one reader answers all that the other does. -/
theorem SameNodes.answers {r r' : NuDBReader} (hs : SameNodes xxh64 lz4 r r') (fuel : Nat) :
    ∃ fuel', Answers (r.get_node xxh64 lz4 fuel) (r'.get_node xxh64 lz4 fuel') := by
  -- Hashes are finitely many, so one bound does for all of them.
  have hone : ∀ h, ∃ k, r.get_node xxh64 lz4 fuel h ≠ .error .fuel →
      r'.get_node xxh64 lz4 k h ≠ .error .fuel ∧
        (r'.get_node xxh64 lz4 k h).toOption = (r.get_node xxh64 lz4 fuel h).toOption := by
    intro h
    by_cases hx : r.get_node xxh64 lz4 fuel h = .error .fuel
    · exact ⟨0, fun hne => absurd hx hne⟩
    · obtain ⟨k, hk⟩ := (hs h _).mp ⟨fuel, hx, rfl⟩
      exact ⟨k, fun _ => hk⟩
  choose k hk using hone
  obtain ⟨fuel', hbound⟩ := Finite.exists_le k
  refine ⟨fuel', fun h n hn => ?_, fun h e he hne => ?_⟩
  · obtain ⟨-, hsame⟩ := hk h (by rw [hn]; exact fun hc => by cases hc)
    rw [hn] at hsame
    exact (get_node_answers r' (hbound h)).found h n (store_of_eq_some.mp hsame)
  · obtain ⟨hend, hsame⟩ := hk h (by rw [he]; exact fun hc => hne (Except.error.inj hc))
    rw [he] at hsame
    cases hget : r'.get_node xxh64 lz4 (k h) h with
    | ok n =>
      rw [hget] at hsame
      cases hsame
    | error e' =>
      rw [hget] at hend
      exact (get_node_answers r' (hbound h)).missed h e' hget fun hc => hend (congrArg _ hc)

end LedgerArchive
