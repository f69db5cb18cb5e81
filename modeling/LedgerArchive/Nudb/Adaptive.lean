import LedgerArchive.Nudb.Search
import Mathlib.Data.List.TakeWhile

/-! # Choosing a concurrency (`xrla-nudb/src/reader.rs`)

    The adaptive walk first samples the tree, times reads of the sample at
    growing levels of concurrency, and then walks at the level it picks.
    The source compares measured times in `f64`. Here a probe is what the
    two comparisons come to, and the probes are arbitrary, as is whether
    the store shares a disk with the system. -/

namespace LedgerArchive

open Lib

def SAMPLE_SIZE : Nat := 2048
def DEDICATED_LEVELS : List Nat := [1, 2, 4, 8, 16, 32]
def SHARED_DISK_LEVELS : List Nat := [1, 2, 4]

/-- The comparisons made of the times of one level:
    `avg_latency > ABORT_LATENCY_SECS` and
    `throughput > best_throughput * MIN_GAIN`. -/
structure Probe where
  queueing : Bool
  gain : Bool

section Reads

variable (get_node : Hash256 → Except Error SHAMapNode)

/-- The loop of `sample_hashes`. The children of a node are pushed in order,
    so that the last one is popped first. -/
def sample_hashes_loop (target : Nat) :
    Nat → List Hash256 → List Hash256 → List Hash256 → Except Error (List Hash256)
  | 0, _, _, _ => .error .fuel
  | _ + 1, [], _, result => .ok result
  | fuel + 1, hash :: stack, visited, result =>
    if result.length ≥ target then .ok result
    else do
      let node ← get_node hash
      if node.node_type.is_inner then do
        let inner ← from_shamap (InnerNode.from_node node)
        let pushed := inner.child_hashes.foldl Level.push { visited, next_frontier := [], result := [] }
        sample_hashes_loop target fuel (pushed.next_frontier.reverse ++ stack) pushed.visited
          (result ++ [hash])
      else sample_hashes_loop target fuel stack visited (result ++ [hash])

def sample_hashes (fuel : Nat) (root_hash : Hash256) (target : Nat) : Except Error (List Hash256) :=
  sample_hashes_loop get_node target fuel [root_hash] [root_hash] []

/-- The loop of `calibrate_concurrency_with_levels` from the level at index
    `i` on. -/
def calibrate_loop (probe : Nat → Probe) (sample_len first : Nat) : Nat → Nat → List Nat → Nat
  | _, best_level, [] => best_level
  | i, best_level, level :: levels =>
    if level > sample_len then best_level
    else if (probe i).queueing then best_level
    else if level = first ∨ (probe i).gain then
      calibrate_loop probe sample_len first (i + 1) level levels
    else best_level

def calibrate_concurrency_with_levels (probe : Nat → Probe) (fuel : Nat) (root_hash : Hash256)
    (levels : List Nat) : Except Error Nat := do
  let min_sample := levels[1]?.getD 1
  let sample ← sample_hashes get_node fuel root_hash SAMPLE_SIZE
  if sample.length < min_sample then pure 1
  else pure (calibrate_loop probe sample.length (levels.headD 0) 0 1 levels)

/-- The ladder that is climbed. -/
def ladder (shares_device_with_os_root : Bool) : List Nat :=
  if shares_device_with_os_root then SHARED_DISK_LEVELS else DEDICATED_LEVELS

def calibrate_concurrency (shares_device_with_os_root : Bool) (probe : Nat → Probe) (fuel : Nat)
    (root_hash : Hash256) : Except Error Nat :=
  calibrate_concurrency_with_levels get_node probe fuel root_hash (ladder shares_device_with_os_root)

def collect_reachable_adaptive (shares_device_with_os_root : Bool) (probe : Nat → Probe)
    (fuel : Nat) (root_hash : Hash256) : Except Error (List SHAMapNode) := do
  let concurrency ← calibrate_concurrency get_node shares_device_with_os_root probe fuel root_hash
  collect_reachable_concurrent get_node fuel root_hash concurrency

end Reads

variable {get_node : Hash256 → Except Error SHAMapNode} {root : Hash256}

/-! ## The sample -/

/-- The state of the sampling walk. A hash is visited when it is met. -/
structure Sampling (get_node : Hash256 → Except Error SHAMapNode) (root : Hash256)
    (stack visited result : List Hash256) : Prop where
  search : Search (store_of get_node).refs root result stack
  once : (result ++ stack).Nodup
  visited : ∀ x, x ∈ visited ↔ x ∈ result ++ stack

theorem Sampling.start (get_node : Hash256 → Except Error SHAMapNode) (root : Hash256) :
    Sampling get_node root [root] [root] [] :=
  ⟨Search.start _ root, List.nodup_singleton root, fun _ => Iff.rfl⟩

/-- Distinct hashes that the root reaches: as many as asked for, or all. -/
structure SampleOf (get_node : Hash256 → Except Error SHAMapNode) (root : Hash256) (target : Nat)
    (sample : List Hash256) : Prop where
  once : sample.Nodup
  reaches : ∀ h ∈ sample, Reaches (store_of get_node).refs root h
  bounded : sample.length ≤ target
  full : sample.length = target ∨ ∀ h, Reaches (store_of get_node).refs root h → h ∈ sample

/-- One node of the sampling walk. -/
theorem Sampling.visit {h : Hash256} {stack visited result cs new : List Hash256} {l : Level}
    (hs : Sampling get_node root (h :: stack) visited result)
    (hcs : (store_of get_node).refs h = some cs)
    (hp : Pushed { visited, next_frontier := [], result := [] } l cs new) :
    Sampling get_node root (l.next_frontier.reverse ++ stack) l.visited (result ++ [h]) := by
  have hfrontier : l.next_frontier = new := hp.next_frontier
  obtain ⟨hresult, hpending, hapart⟩ := List.nodup_append.mp hs.once
  obtain ⟨hh, hstack⟩ := List.nodup_cons.mp hpending
  have hhr : h ∉ result := fun hc => hapart h hc h List.mem_cons_self rfl
  -- A child that was not visited is neither in the sample nor on the stack.
  have hfresh : ∀ x ∈ new, x ∈ cs ∧ x ∉ result ∧ x ≠ h ∧ x ∉ stack := by
    intro x hx
    obtain ⟨hxcs, hxv⟩ := hp.fresh x hx
    have hout : ¬ (x ∈ result ++ h :: stack) := fun hc => hxv ((hs.visited x).mpr hc)
    rw [List.mem_append, List.mem_cons, not_or, not_or] at hout
    exact ⟨hxcs, hout.1, hout.2.1, hout.2.2⟩
  rw [hfrontier]
  refine ⟨hs.search.visit hhr hcs ?_ ?_, ?_, ?_⟩
  · intro x hx
    rcases List.mem_append.mp hx with hx | hx
    · exact .inr (hfresh x (List.mem_reverse.mp hx)).1
    · exact .inl hx
  · intro x hx
    have hmet : x ∈ result ++ h :: stack ∨ x ∈ new := by
      rcases hx with hx | hx
      · exact .inl (List.mem_append_right _ (List.mem_cons_of_mem h hx))
      · exact ((hp.visited x).mp (hp.met x hx)).imp_left (hs.visited x).mp
    simp only [List.mem_append, List.mem_cons, List.mem_reverse, List.not_mem_nil] at hmet ⊢
    tauto
  · -- The walk has moved `h` to the sample and put the new children on the stack.
    have hperm : (result ++ [h] ++ (new.reverse ++ stack)).Perm (new ++ (result ++ h :: stack)) := by
      have hswap : (result ++ [h] ++ (new.reverse ++ stack)).Perm
          (new.reverse ++ (result ++ [h] ++ stack)) := by
        rw [← List.append_assoc, ← List.append_assoc]
        exact List.perm_append_comm.append_right stack
      refine hswap.trans ?_
      rw [List.append_assoc, List.singleton_append]
      exact (List.reverse_perm new).append_right _
    rw [hperm.nodup_iff]
    refine List.nodup_append.mpr ⟨hp.once, hs.once, fun a ha b hb hab => ?_⟩
    exact (hp.fresh a ha).2 ((hs.visited a).mpr (hab ▸ hb))
  · intro x
    rw [hp.visited, hs.visited]
    simp only [List.mem_append, List.mem_cons, List.mem_reverse, List.not_mem_nil]
    tauto

theorem sample_hashes_loop_visit {target fuel : Nat} {h : Hash256}
    {stack visited result cs : List Hash256} {node : SHAMapNode} (hlt : result.length < target)
    (hget : get_node h = .ok node) (hrefs : node.refs = some cs) :
    ∃ l, l = cs.foldl Level.push { visited, next_frontier := [], result := [] } ∧
      sample_hashes_loop get_node target (fuel + 1) (h :: stack) visited result =
        sample_hashes_loop get_node target fuel (l.next_frontier.reverse ++ stack) l.visited
          (result ++ [h]) := by
  refine ⟨_, rfl, ?_⟩
  rw [sample_hashes_loop, if_neg (by omega), bind_of_ok hget]
  by_cases hin : node.node_type.is_inner = true
  · obtain ⟨inner, hinner, rfl⟩ := (SHAMapNode.refs_inner hin).mp hrefs
    rw [if_pos hin, bind_of_ok (from_shamap_eq_ok.mpr hinner)]
  · rw [SHAMapNode.refs_leaf (by simpa using hin), Option.some.injEq] at hrefs
    rw [if_neg hin, ← hrefs]
    rfl

theorem sample_hashes_loop_unread {target fuel : Nat} {h : Hash256}
    {stack visited result : List Hash256} {e : Error} (hlt : result.length < target)
    (hu : Unread get_node h e) :
    sample_hashes_loop get_node target (fuel + 1) (h :: stack) visited result = .error e := by
  rw [sample_hashes_loop, if_neg (by omega)]
  rcases hu with herr | ⟨node, hget, hin, hparse⟩
  · rw [herr]
    rfl
  · rw [bind_of_ok hget, if_pos hin, hparse]
    rfl

/-- Each round adds a hash to the sample, so the walk ends by itself. -/
theorem sample_hashes_loop_ends {target fuel : Nat} {stack visited result : List Hash256}
    (hs : Sampling get_node root stack visited result) (hlen : result.length ≤ target)
    (hfuel : target < fuel + result.length) :
    (∃ sample, sample_hashes_loop get_node target fuel stack visited result = .ok sample ∧
        SampleOf get_node root target sample) ∨
      ∃ h e, Reaches (store_of get_node).refs root h ∧ Unread get_node h e ∧
        sample_hashes_loop get_node target fuel stack visited result = .error e := by
  induction fuel generalizing stack visited result with
  | zero => omega
  | succ fuel ih =>
    cases stack with
    | nil =>
      -- Nothing is left to visit: the sample is all there is.
      have hall := hs.search.finished.1
      exact .inl ⟨result, rfl, hs.search.once, fun h hh => (hall h).mp hh, hlen,
        .inr fun h hh => (hall h).mpr hh⟩
    | cons h stack =>
      by_cases hlt : result.length < target
      · rcases read_or_unread get_node h with ⟨node, cs, hget, hrefs⟩ | ⟨e, hu⟩
        · obtain ⟨l, hl, hstep⟩ := @sample_hashes_loop_visit get_node target fuel h stack visited
            result cs node hlt hget hrefs
          obtain ⟨new, hp⟩ := children_pushed { visited, next_frontier := [], result := [] } cs
          rw [← hl] at hp
          rw [hstep]
          have hlong : (result ++ [h]).length = result.length + 1 := by simp
          exact ih (hs.visit (store_of_refs hget hrefs) hp) (by omega) (by omega)
        · exact .inr ⟨h, e, hs.search.reached h (.inr List.mem_cons_self), hu,
            sample_hashes_loop_unread hlt hu⟩
      · -- The sample is as large as asked for.
        refine .inl ⟨result, ?_, hs.search.once, fun x hx => hs.search.reached x (.inl hx), hlen,
          .inl (by omega)⟩
        rw [sample_hashes_loop, if_pos (by omega)]

theorem SampleOf.length_eq {target : Nat} {sample hashes : List Hash256}
    (hs : SampleOf get_node root target sample) (hnd : hashes.Nodup)
    (hmem : ∀ h, h ∈ hashes ↔ Reaches (store_of get_node).refs root h) :
    sample.length = min target hashes.length := by
  have hsub : sample.length ≤ hashes.length :=
    (hs.once.subperm fun h hh => (hmem h).mpr (hs.reaches h hh)).length_le
  rcases hs.full with hfull | hall
  · omega
  · have hcover : hashes.length ≤ sample.length :=
      (hnd.subperm fun h hh => hall h ((hmem h).mp hh)).length_le
    have := hs.bounded
    omega

/-! ## The calibration -/

/-- A level is climbed to when the sample is large enough for it, its probe
    shows no queueing, and it is the first or gains enough. -/
def passes (probe : Nat → Probe) (sample_len first : Nat) (level : Nat × Nat) : Bool :=
  level.1 ≤ sample_len && !(probe level.2).queueing && (level.1 = first || (probe level.2).gain)

/-- The level picked is the last one before the first that does not
    pass. -/
def picked (probe : Nat → Probe) (sample_len : Nat) (levels : List Nat) : Nat :=
  ((levels.zipIdx.takeWhile (passes probe sample_len (levels.headD 0))).getLast?.map Prod.fst).getD 1

theorem calibrate_loop_eq (probe : Nat → Probe) (sample_len first i best_level : Nat)
    (levels : List Nat) :
    calibrate_loop probe sample_len first i best_level levels =
      (((levels.zipIdx i).takeWhile (passes probe sample_len first)).getLast?.map Prod.fst).getD
        best_level := by
  induction levels generalizing i best_level with
  | nil => rfl
  | cons level levels ih =>
    have hpasses : passes probe sample_len first (level, i) = true ↔
        level ≤ sample_len ∧ (probe i).queueing = false ∧ (level = first ∨ (probe i).gain = true) := by
      simp [passes, and_assoc]
    unfold calibrate_loop
    rw [List.zipIdx_cons, List.takeWhile_cons]
    by_cases hp : passes probe sample_len first (level, i) = true
    · -- The level is taken, and the loop goes on from it.
      obtain ⟨hle, hq, hgain⟩ := hpasses.mp hp
      rw [if_neg (by omega), hq, if_neg (by simp), if_pos hgain, if_pos hp, ih, List.getLast?_cons]
      cases ((levels.zipIdx (i + 1)).takeWhile (passes probe sample_len first)).getLast? with
      | none => rfl
      | some last => rfl
    · rw [if_neg hp]
      split
      · rfl
      · next hle =>
        split
        · rfl
        · next hq =>
          rw [if_neg fun hgain => hp (hpasses.mpr ⟨by omega, by simpa using hq, hgain⟩)]
          rfl

/-- The level picked is on the ladder, and no larger than the sample or
    else 1. -/
theorem picked_mem (probe : Nat → Probe) (sample_len : Nat) {levels : List Nat} (h1 : 1 ∈ levels) :
    picked probe sample_len levels ∈ levels ∧
      (picked probe sample_len levels = 1 ∨ picked probe sample_len levels ≤ sample_len) := by
  unfold picked
  cases hlast : (levels.zipIdx.takeWhile (passes probe sample_len (levels.headD 0))).getLast? with
  | none => exact ⟨h1, .inl rfl⟩
  | some p =>
    have hp := List.mem_of_getLast? hlast
    have hpass := List.mem_takeWhile_imp hp
    have hin := List.takeWhile_subset _ hp
    have hle : p.1 ≤ sample_len := by
      simp only [passes, Bool.and_eq_true, decide_eq_true_eq] at hpass
      exact hpass.1.1
    exact ⟨List.fst_mem_of_mem_zipIdx hin, .inr hle⟩

/-- A sample too small for two workers leaves the serial walk. -/
theorem picked_small (probe : Nat → Probe) {sample_len : Nat} (hsmall : sample_len < 2)
    (levels : List Nat) : picked probe sample_len (1 :: 2 :: levels) = 1 := by
  have htwo : passes probe sample_len 1 (2, 1) = false := by
    simp [passes, hsmall]
  unfold picked
  rw [List.headD_cons, List.zipIdx_cons, List.zipIdx_cons, List.takeWhile_cons]
  split
  · rw [List.takeWhile_cons, Nat.zero_add, htwo]
    rfl
  · rfl

theorem ladder_eq (shares : Bool) : ∃ levels, ladder shares = 1 :: 2 :: levels := by
  cases shares with
  | true => exact ⟨_, rfl⟩
  | false => exact ⟨_, rfl⟩

theorem calibrate_concurrency_ok {shares : Bool} {probe : Nat → Probe} {fuel : Nat}
    {sample : List Hash256} (hsample : sample_hashes get_node fuel root SAMPLE_SIZE = .ok sample) :
    calibrate_concurrency get_node shares probe fuel root =
      .ok (picked probe sample.length (ladder shares)) := by
  obtain ⟨levels, hladder⟩ := ladder_eq shares
  unfold calibrate_concurrency calibrate_concurrency_with_levels
  rw [hsample, hladder]
  show (if sample.length < 2 then pure 1 else pure _) = _
  split
  · next hsmall =>
    rw [picked_small probe hsmall]
    rfl
  · rw [calibrate_loop_eq]
    rfl

/-! ## The adaptive walk -/

/-- One number of steps is enough for every level of concurrency: above 1
    the level only sets how many workers fetch a frontier. -/
theorem walkOf_every_level (hn : Named get_node) (root : Hash256) :
    ∃ fuel₀, ∀ fuel ≥ fuel₀, ∀ concurrency,
      WalkOf get_node root (collect_reachable_concurrent get_node fuel root concurrency) := by
  obtain ⟨fuel₁, hserial⟩ := collect_reachable_concurrent_walkOf hn root 1
  obtain ⟨fuel₂, hlevels⟩ := collect_reachable_concurrent_walkOf hn root 2
  refine ⟨max fuel₁ fuel₂, fun fuel hfuel concurrency => ?_⟩
  by_cases hc : concurrency ≤ 1
  · have h1 := hserial fuel (by omega)
    unfold collect_reachable_concurrent at h1 ⊢
    rw [if_pos le_rfl] at h1
    rw [if_pos hc]
    exact h1
  · have h2 := hlevels fuel (by omega)
    unfold collect_reachable_concurrent at h2 ⊢
    rw [if_neg (by omega)] at h2
    rw [if_neg hc]
    exact h2

/-- Two finished walks return the same nodes. -/
theorem WalkOf.perm {nodes : List SHAMapNode} {res : Except Error (List SHAMapNode)}
    (hw : WalkOf get_node root (.ok nodes)) (hres : WalkOf get_node root res) :
    ∃ nodes', res = .ok nodes' ∧ nodes.Perm nodes' := by
  obtain ⟨hread, honce, hmem⟩ := hw
  cases res with
  | error e =>
    obtain ⟨h, hreach, hu⟩ := hres
    have hsome := hread h hreach
    rw [hu.refs_eq_none] at hsome
    cases hsome
  | ok nodes' =>
    obtain ⟨-, honce', hmem'⟩ := hres
    refine ⟨nodes', rfl, ?_⟩
    exact (List.perm_ext_iff_of_nodup (honce.of_map _) (honce'.of_map _)).mpr
      fun n => (hmem n).trans (hmem' n).symm

/-- The hashes of the nodes a walk returns are those the root reaches. -/
theorem WalkOf.mem_hashes {nodes : List SHAMapNode} (hw : WalkOf get_node root (.ok nodes))
    (hn : Named get_node) (h : Hash256) :
    h ∈ nodes.map SHAMapNode.hash ↔ Reaches (store_of get_node).refs root h := by
  obtain ⟨hread, -, hmem⟩ := hw
  constructor
  · intro hh
    obtain ⟨n, hin, rfl⟩ := List.mem_map.mp hh
    exact ((hmem n).mp hin).1
  · intro hreach
    obtain ⟨cs, hcs⟩ := Option.isSome_iff_exists.mp (hread h hreach)
    obtain ⟨n, hnode, -⟩ := Option.bind_eq_some_iff.mp hcs
    have hget := store_of_eq_some.mp hnode
    have hhash := hn h n hget
    subst hhash
    exact List.mem_map_of_mem ((hmem n).mpr ⟨hreach, hget⟩)

/-- Whatever the probes measure and whatever disk the store is on, the
    adaptive walk fails exactly when the serial walk fails, and otherwise
    returns the same nodes. The level it walks at is on the ladder of the
    disk, never above the number of nodes, and the last one before the
    first that fails its probe. -/
theorem adaptive_agrees (xxh64 : Bytes → UInt64 → UInt64)
    (lz4_decompress : Bytes → Nat → Option Bytes) (lookups : Nat) (r : NuDBReader)
    (root : Hash256) :
    ∃ fuel₀, ∀ fuel ≥ fuel₀, ∀ (shares : Bool) (probe : Nat → Probe),
      let get_node := r.get_node xxh64 lz4_decompress lookups
      let serial := collect_reachable get_node fuel root
      let adaptive := collect_reachable_adaptive get_node shares probe fuel root
      ((∃ e, adaptive = .error e) ↔ ∃ e, serial = .error e) ∧
      ∀ nodes, adaptive = .ok nodes →
        (∃ nodes', serial = .ok nodes' ∧ nodes.Perm nodes') ∧
        ∃ level ∈ ladder shares, level ≤ nodes.length ∧
          level = picked probe (min SAMPLE_SIZE nodes.length) (ladder shares) ∧
          calibrate_concurrency get_node shares probe fuel root = .ok level := by
  have hn : Named (r.get_node xxh64 lz4_decompress lookups) := fun h n hget =>
    NuDBReader.get_node_hash hget
  obtain ⟨fuel₀, hwalk⟩ := walkOf_every_level hn root
  refine ⟨max (SAMPLE_SIZE + 1) fuel₀, fun fuel hfuel shares probe => ?_⟩
  intro get_node serial adaptive
  have hw : ∀ c, WalkOf get_node root (collect_reachable_concurrent get_node fuel root c) :=
    hwalk fuel (by omega)
  have hs : WalkOf get_node root serial := hw 1
  -- The sample is bounded, so this walk needs no more fuel than its size.
  have hsampled := @sample_hashes_loop_ends get_node root SAMPLE_SIZE fuel _ _ _
    (Sampling.start get_node root) (Nat.zero_le SAMPLE_SIZE) (by rw [List.length_nil]; omega)
  rcases hsampled with ⟨sample, hrun, hsample⟩ | ⟨h, e, hreach, hu, hrun⟩
  · -- The sample is taken, and the walk at the level picked follows.
    have hcal := @calibrate_concurrency_ok get_node root shares probe fuel sample hrun
    have hadaptive : adaptive = collect_reachable_concurrent get_node fuel root
        (picked probe sample.length (ladder shares)) := by
      show (calibrate_concurrency get_node shares probe fuel root >>= _) = _
      rw [hcal]
      rfl
    have ha := hw (picked probe sample.length (ladder shares))
    rw [← hadaptive] at ha
    refine ⟨ha.error_iff.trans hs.error_iff.symm, fun nodes hnodes => ?_⟩
    rw [hnodes] at ha
    have hlen : sample.length = min SAMPLE_SIZE nodes.length := by
      rw [hsample.length_eq ha.2.1 (ha.mem_hashes hn), List.length_map]
    have hone : 1 ∈ ladder shares := by
      obtain ⟨levels, hladder⟩ := ladder_eq shares
      exact hladder ▸ List.mem_cons_self
    obtain ⟨hladder, hle⟩ := picked_mem probe sample.length hone
    have hpos : 0 < nodes.length := by
      have hroot := (ha.mem_hashes hn root).mpr .refl
      rw [← List.length_map (f := SHAMapNode.hash)]
      exact List.length_pos_of_mem hroot
    exact ⟨ha.perm hs, _, hladder, by omega, by rw [hlen], hcal⟩
  · -- A node that the sample cannot read stops the serial walk too.
    have hadaptive : adaptive = .error e := by
      show (calibrate_concurrency_with_levels get_node probe fuel root (ladder shares) >>= _) = _
      unfold calibrate_concurrency_with_levels sample_hashes
      rw [hrun]
      rfl
    refine ⟨⟨fun _ => hs.error_iff.mpr ⟨h, e, hreach, hu⟩, fun _ => ⟨e, hadaptive⟩⟩,
      fun nodes hnodes => ?_⟩
    rw [hadaptive] at hnodes
    cases hnodes

end LedgerArchive
