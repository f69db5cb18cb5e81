import LedgerArchive.Nudb.Diff
import LedgerArchive.Nudb.RoundTrip

/-! # Deltas telescope

    From the map of the first state tree on, applying the diff from each
    root to the next one keeps the map equal to the tree: `delta_run` holds
    after every step exactly the nodes reachable from the step's root
    (`deltas_telescope`). -/

namespace LedgerArchive

open Lib

/-! ## Runs -/

section Run

variable (get_node : Hash256 → Except Error SHAMapNode) (fuel : Nat)

/-- From `root` and its map on: the diff to each next root, and the map
    after it is applied. -/
def delta_run : Hash256 → StateMap → List Hash256 → Except Error (List (SHAMapDiff × StateMap))
  | _, _, [] => .ok []
  | root, state, next :: roots => do
    let d ← diff get_node fuel root next
    let state := apply_diff state d
    let steps ← delta_run next state roots
    pure ((d, state) :: steps)

end Run

/-- The map's hashes are those reachable from `root`, and each is bound to
    the stored node. -/
structure HoldsTree (store : Store) (root : Hash256) (state : StateMap) : Prop where
  mem_iff : ∀ h, h ∈ state ↔ Reachable store root h
  stored : ∀ h n, state.lookup h = some n → store h = some n

/-- What a step must yield for the root it goes to. -/
structure StepExact (store : Store) (root : Hash256) (step : SHAMapDiff × StateMap) : Prop where
  holds : HoldsTree store root step.2
  added_once : (step.1.added.map SHAMapNode.hash).Nodup
  deleted_once : step.1.deleted.Nodup

/-- The tree under `root` is finite and complete in the store, and holds no
    hash at two positions. -/
def TreeOnce (store : Store) (root : Hash256) : Prop :=
  ∃ visit, TreeAt store root visit ∧ visit.Nodup

variable {get_node : Hash256 → Except Error SHAMapNode} {store : Store} {fuel : Nat}
  {root : Hash256} {visit : List Hash256} {state : StateMap}

/-- Every node a tree visits is stored. -/
theorem TreeAt.stored (ht : TreeAt store root visit) {h : Hash256} (hh : h ∈ visit) :
    ∃ n, store h = some n := by
  rcases ht with ⟨_, rfl⟩ | ⟨_, hw⟩
  · cases hh
  · obtain ⟨cs, hcs, _⟩ := hw.closed h hh
    obtain ⟨n, hn, _⟩ := Option.bind_eq_some_iff.mp hcs
    exact ⟨n, hn⟩

theorem Exactly.holdsTree (he : Exactly store state visit) (ht : TreeAt store root visit) :
    HoldsTree store root state := by
  refine ⟨fun h => ?_, fun h n hl => ((he h n).mp hl).2⟩
  rw [← ht.mem_iff, ← Finmap.lookup_isSome, Option.isSome_iff_exists]
  constructor
  · rintro ⟨n, hl⟩
    exact ((he h n).mp hl).1
  · intro hh
    obtain ⟨n, hn⟩ := ht.stored hh
    exact ⟨n, (he h n).mpr ⟨hh, hn⟩⟩

/-- The map built from the collected nodes of a tree. -/
theorem Collected.exactly {nodes : List SHAMapNode} (hc : Collected store nodes visit) :
    Exactly store (checkpoint_state nodes) visit := by
  intro h n
  constructor
  · intro hl
    have hmem := lookup_checkpoint_mem hl
    have hhash := keyed_checkpoint nodes h n hl
    subst hhash
    exact ⟨hc.perm.mem_iff.mp (List.mem_map_of_mem hmem), hc.stored n hmem⟩
  · rintro ⟨hh, hst⟩
    obtain ⟨m, hm, rfl⟩ := List.mem_map.mp (hc.perm.mem_iff.mpr hh)
    obtain ⟨m', hm', hhash, hl⟩ := lookup_insert_nodes_of_mem ∅ hm
    have hsame := hc.stored m' hm'
    rw [hhash, hst, Option.some.injEq] at hsame
    rw [hsame]
    exact hl

/-! ## Every step -/

/-- From an exact map on, every step of a run is exact. -/
theorem delta_run_exact {roots : List Hash256} {visits : List (List Hash256)} {bound : Nat}
    (ht : TreeAt store root visit) (hnd : visit.Nodup) (hstate : Exactly store state visit)
    (hroots : List.Forall₂ (fun root v => TreeAt store root v ∧ v.Nodup) roots visits)
    (hs : ∀ v ∈ visit :: visits, Serves get_node store v)
    (hbound : ∀ v ∈ visit :: visits, v.length ≤ bound) (hfuel : bound + bound < fuel) :
    ∃ steps, delta_run get_node fuel root state roots = .ok steps ∧
      List.Forall₂ (StepExact store) roots steps := by
  induction hroots generalizing root visit state with
  | nil => exact ⟨[], rfl, .nil⟩
  | @cons next v roots visits hnext _ ih =>
    have hle := hbound visit List.mem_cons_self
    have hle' := hbound v (List.mem_cons_of_mem _ List.mem_cons_self)
    obtain ⟨d, hd, hdiff⟩ := @diff_diffOf get_node store visit v fuel root next ht hnext.1
      (hs visit List.mem_cons_self) (hs v (List.mem_cons_of_mem _ List.mem_cons_self)) (by omega)
    have hexact := hdiff.apply hnd hnext.2 hstate
    obtain ⟨steps, hrun, hsteps⟩ := ih hnext.1 hnext.2 hexact
      (fun w hw => hs w (List.mem_cons_of_mem _ hw))
      (fun w hw => hbound w (List.mem_cons_of_mem _ hw))
    obtain ⟨hadd, hdel⟩ := hdiff.nodup hnd hnext.2
    exact ⟨(d, apply_diff state d) :: steps, bind_eq_ok.mpr ⟨d, hd, bind_eq_ok.mpr ⟨steps, hrun, rfl⟩⟩,
      .cons ⟨hexact.holdsTree hnext.1, hadd, hdel⟩ hsteps⟩

/-! ## Readers -/

variable {xxh64 : Bytes → UInt64 → UInt64} {lz4 : Bytes → Nat → Option Bytes} {r : NuDBReader}

/-- One bound on the rounds does for finitely many lookups. -/
theorem exists_serves (hr : r.Holds xxh64 lz4 store) (visit : List Hash256) :
    ∃ fuel₀, ∀ fuel ≥ fuel₀, Serves (r.get_node xxh64 lz4 fuel) store visit := by
  induction visit with
  | nil => exact ⟨0, fun fuel _ h hh => by cases hh⟩
  | cons a visit ih =>
    obtain ⟨k, hk⟩ := ih
    have ha : ∃ fuel₀, ∀ fuel ≥ fuel₀, ∀ n, store a = some n →
        r.get_node xxh64 lz4 fuel a = .ok n := by
      cases hst : store a with
      | none => exact ⟨0, fun fuel _ n hn => by cases hn⟩
      | some n =>
        obtain ⟨fuel₀, hget⟩ := hr a n hst
        refine ⟨fuel₀, fun fuel hfuel m hm => ?_⟩
        cases hm
        exact hget fuel hfuel
    obtain ⟨j, hj⟩ := ha
    refine ⟨max j k, fun fuel hfuel h hh n hn => ?_⟩
    rcases List.mem_cons.mp hh with rfl | hh
    · have hget := hj fuel (by omega) n hn
      exact ⟨hget, NuDBReader.get_node_hash hget⟩
    · exact hk fuel (by omega) h hh n hn

/-- From the map of the first root on, the diffs from root to root keep the
    map equal to the tree, and list no hash twice. -/
theorem deltas_telescope (xxh64 : Bytes → UInt64 → UInt64) (lz4 : Bytes → Nat → Option Bytes)
    (r : NuDBReader) (store : Store) (hr : r.Holds xxh64 lz4 store) (root : Hash256)
    (roots : List Hash256) (hroot : root ≠ ZERO_HASH)
    (htrees : ∀ a ∈ root :: roots, TreeOnce store a) :
    ∃ fuel₀, ∀ fuel ≥ fuel₀, ∃ nodes steps,
      collect_reachable (r.get_node xxh64 lz4 fuel) fuel root = .ok nodes ∧
      HoldsTree store root (checkpoint_state nodes) ∧
      delta_run (r.get_node xxh64 lz4 fuel) fuel root (checkpoint_state nodes) roots = .ok steps ∧
      List.Forall₂ (StepExact store) roots steps := by
  obtain ⟨visit, ht, hnd⟩ := htrees root List.mem_cons_self
  obtain ⟨visits, hvisits⟩ : ∃ visits,
      List.Forall₂ (fun root v => TreeAt store root v ∧ v.Nodup) roots visits := by
    have hall : ∀ a ∈ roots, TreeOnce store a := fun a ha => htrees a (List.mem_cons_of_mem _ ha)
    clear htrees
    induction roots with
    | nil => exact ⟨[], .nil⟩
    | cons a roots ih =>
      obtain ⟨v, hv⟩ := hall a List.mem_cons_self
      obtain ⟨vs, hvs⟩ := ih fun b hb => hall b (List.mem_cons_of_mem _ hb)
      exact ⟨v :: vs, .cons hv hvs⟩
  -- One bound for every lookup and every walk of the run.
  obtain ⟨k, hk⟩ := exists_serves hr (visit :: visits).flatten
  have hsub : ∀ v ∈ visit :: visits, v ⊆ (visit :: visits).flatten :=
    fun v hv x hx => List.mem_flatten.mpr ⟨v, hv, hx⟩
  have hbound : ∀ v ∈ visit :: visits, v.length ≤ (visit :: visits).flatten.length := by
    intro v hv
    exact (List.sublist_flatten_of_mem hv).length_le
  generalize (visit :: visits).flatten = all at hk hsub hbound
  refine ⟨max k (all.length + all.length + 1), fun fuel hfuel => ?_⟩
  have hserves : ∀ v ∈ visit :: visits, Serves (r.get_node xxh64 lz4 fuel) store v :=
    fun v hv => (hk fuel (by omega)).subset (hsub v hv)
  have hw : Walks store.refs [root] visit := (ht.resolve_left fun h => hroot h.1).2
  have hlen := hbound visit List.mem_cons_self
  obtain ⟨nodes, hcollect, hc⟩ := collect_reachable_ok hw (hserves visit List.mem_cons_self) hnd
    (show visit.length < fuel by omega)
  obtain ⟨steps, hrun, hsteps⟩ := delta_run_exact ht hnd hc.exactly hvisits hserves hbound
    (show all.length + all.length < fuel by omega)
  exact ⟨nodes, steps, hcollect, hc.exactly.holdsTree ht, hrun, hsteps⟩

/-- Three leaves and two inner nodes over them; the leaf `2` changes its
    slot from one to the other. -/
def two_tree_nodes : List SHAMapNode :=
  let hash (n : UInt8) : Hash256 := Hash256.ofBytes [n]
  let leaf (n : UInt8) : SHAMapNode := ⟨hash n, .AccountState, [n]⟩
  let zeros (n : Nat) : Bytes := List.replicate (32 * n) 0
  [leaf 1, leaf 2, leaf 3,
    ⟨hash 10, .Inner, (hash 1).bytes ++ (hash 2).bytes ++ zeros 14⟩,
    ⟨hash 11, .Inner, (hash 2).bytes ++ (hash 3).bytes ++ zeros 14⟩]

theorem two_trees_once : ∀ a ∈ [Hash256.ofBytes [10], Hash256.ofBytes [11], ZERO_HASH],
    TreeOnce (nodes_store two_tree_nodes) a := by
  have hleaf : ∀ n ∈ [(1 : UInt8), 2, 3],
      Store.refs (nodes_store two_tree_nodes) (Hash256.ofBytes [n]) = some [] := by decide +kernel
  have hten : Store.refs (nodes_store two_tree_nodes) (Hash256.ofBytes [10]) =
      some [Hash256.ofBytes [1], Hash256.ofBytes [2]] := by decide +kernel
  have heleven : Store.refs (nodes_store two_tree_nodes) (Hash256.ofBytes [11]) =
      some [Hash256.ofBytes [2], Hash256.ofBytes [3]] := by decide +kernel
  intro a ha
  simp only [List.mem_cons, List.not_mem_nil, or_false] at ha
  rcases ha with rfl | rfl | rfl
  · exact ⟨_, .inr ⟨by decide +kernel, .step hten (.step (hleaf 1 (by decide))
      (.step (hleaf 2 (by decide)) .done))⟩, by decide +kernel⟩
  · exact ⟨_, .inr ⟨by decide +kernel, .step heleven (.step (hleaf 2 (by decide))
      (.step (hleaf 3 (by decide)) .done))⟩, by decide +kernel⟩
  · exact ⟨[], .inl ⟨rfl, rfl⟩, .nil⟩

theorem deltas_telescope_two_trees :
    ∃ fuel₀, ∀ fuel ≥ fuel₀, ∃ nodes steps,
      collect_reachable ((written_reader Xxh64.digest two_tree_nodes).get_node Xxh64.digest
        (fun _ _ => none) fuel) fuel (Hash256.ofBytes [10]) = .ok nodes ∧
      HoldsTree (nodes_store two_tree_nodes) (Hash256.ofBytes [10]) (checkpoint_state nodes) ∧
      delta_run ((written_reader Xxh64.digest two_tree_nodes).get_node Xxh64.digest
        (fun _ _ => none) fuel) fuel (Hash256.ofBytes [10]) (checkpoint_state nodes)
        [Hash256.ofBytes [11], ZERO_HASH] = .ok steps ∧
      List.Forall₂ (StepExact (nodes_store two_tree_nodes)) [Hash256.ofBytes [11], ZERO_HASH] steps :=
  deltas_telescope _ _ _ _
    (written_reader_holds _ _ two_tree_nodes (by decide +kernel) (by decide +kernel))
    _ _ (by decide +kernel) two_trees_once

end LedgerArchive
