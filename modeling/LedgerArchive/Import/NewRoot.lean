import LedgerArchive.Import.Replay
import LedgerArchive.Lib.Positions
import LedgerArchive.Nudb.Search
import LedgerArchive.Nudb.Telescope

/-! # The root of a delta (`find_new_root`)

    A delta does not say what its root is. The importer takes the added
    inner node that no other added inner node refers to. What the exporter
    adds hangs together: every added node but the new root is the child of
    an added node (`diff_nodes_grows`), and no node of a tree refers to its
    root. So the root that is found is the one the exporter went to
    (`find_new_root_of_diff`). -/

namespace LedgerArchive

open Lib

variable {get_node : Hash256 → Except Error SHAMapNode} {d d₁ d₂ : SHAMapDiff}
  {roots roots' : Set Hash256}

/-! ## Nodes that hang together -/

/-- Every listed node is one of the roots or the child of a listed node. -/
def Hangs (roots : Set Hash256) (nodes : List SHAMapNode) : Prop :=
  ∀ n ∈ nodes, n.hash ∈ roots ∨ ∃ m ∈ nodes, ∃ cs, m.refs = some cs ∧ n.hash ∈ cs

theorem hangs_nil (roots : Set Hash256) : Hangs roots [] := by
  intro n hn
  cases hn

theorem Hangs.append {nodes nodes' : List SHAMapNode} (h : Hangs roots nodes)
    (h' : Hangs roots nodes') : Hangs roots (nodes ++ nodes') := by
  intro n hn
  rcases List.mem_append.mp hn with hn | hn
  · rcases h n hn with hroot | ⟨m, hm, hcs⟩
    · exact .inl hroot
    · exact .inr ⟨m, List.mem_append_left _ hm, hcs⟩
  · rcases h' n hn with hroot | ⟨m, hm, hcs⟩
    · exact .inl hroot
    · exact .inr ⟨m, List.mem_append_right _ hm, hcs⟩

theorem Hangs.mono {nodes : List SHAMapNode} (h : Hangs roots nodes) (hsub : roots ⊆ roots') :
    Hangs roots' nodes := by
  intro n hn
  exact (h n hn).imp_left fun hroot => hsub hroot

/-- The node whose children are the roots takes their place. -/
theorem Hangs.parent {nodes : List SHAMapNode} {m : SHAMapNode} {cs : List Hash256}
    (h : Hangs {c | c ∈ cs} nodes) (hm : m.refs = some cs) : Hangs {m.hash} (nodes ++ [m]) := by
  have hlast : m ∈ nodes ++ [m] := List.mem_append_right _ List.mem_cons_self
  intro n hn
  rcases List.mem_append.mp hn with hn | hn
  · rcases h n hn with hroot | ⟨p, hp, hcs⟩
    · exact .inr ⟨m, hlast, cs, hm, hroot⟩
    · exact .inr ⟨p, List.mem_append_left _ hp, hcs⟩
  · rw [List.mem_singleton.mp hn]
    exact .inl rfl

theorem Hangs.perm {nodes nodes' : List SHAMapNode} (h : Hangs roots nodes)
    (hp : nodes.Perm nodes') : Hangs roots nodes' := by
  intro n hn
  rcases h n (hp.mem_iff.mpr hn) with hroot | ⟨m, hm, hcs⟩
  · exact .inl hroot
  · exact .inr ⟨m, hp.mem_iff.mp hm, hcs⟩

/-! ## What a diff adds -/

/-- `d'` adds to `d` nodes that hang from the roots. -/
def Grows (roots : Set Hash256) (d d' : SHAMapDiff) : Prop :=
  ∃ nodes, d'.added = d.added ++ nodes ∧ Hangs roots nodes

theorem Grows.refl (roots : Set Hash256) (d : SHAMapDiff) : Grows roots d d :=
  ⟨[], (List.append_nil _).symm, hangs_nil roots⟩

theorem Grows.trans (h : Grows roots d d₁) (h' : Grows roots d₁ d₂) : Grows roots d d₂ := by
  obtain ⟨nodes, hadd, hhangs⟩ := h
  obtain ⟨nodes', hadd', hhangs'⟩ := h'
  exact ⟨nodes ++ nodes', by rw [hadd', hadd, List.append_assoc], hhangs.append hhangs'⟩

theorem Grows.mono (h : Grows roots d d₁) (hsub : roots ⊆ roots') : Grows roots' d d₁ := by
  obtain ⟨nodes, hadd, hhangs⟩ := h
  exact ⟨nodes, hadd, hhangs.mono hsub⟩

/-- A parent is added behind what its children have added. -/
theorem Grows.parent {m : SHAMapNode} {cs : List Hash256} {deleted : List Hash256}
    (h : Grows {c | c ∈ cs} d d₁) (hm : m.refs = some cs) :
    Grows {m.hash} d { added := d₁.added ++ [m], deleted } := by
  obtain ⟨nodes, hadd, hhangs⟩ := h
  exact ⟨nodes ++ [m], by rw [hadd, List.append_assoc], hhangs.parent hm⟩

theorem grows_of_added_eq (h : d₁.added = d.added) : Grows roots d d₁ :=
  ⟨[], by rw [h, List.append_nil], hangs_nil roots⟩

/-- The loop over the children, given what one of them adds. -/
theorem foldlM_grows {ι : Type} {f : SHAMapDiff → ι → Except Error SHAMapDiff} {l : List ι}
    (hf : ∀ i ∈ l, ∀ d d', f d i = .ok d' → Grows roots d d') (h : l.foldlM f d = .ok d₁) :
    Grows roots d d₁ := by
  apply foldlM_invariant (P := fun d' => Grows roots d d') _ (.refl roots d) h
  intro e i e' hi he hstep
  exact he.trans (hf i hi e e' hstep)

/-- The root of a tree, unless the tree is empty. -/
def root_of (hash : Hash256) : Set Hash256 := {h | h = hash ∧ h ≠ ZERO_HASH}

theorem root_of_subset {hash : Hash256} {cs : List Hash256} (h : hash ≠ ZERO_HASH → hash ∈ cs) :
    root_of hash ⊆ {c | c ∈ cs} := by
  intro c hc
  obtain ⟨rfl, hne⟩ := hc
  exact h hne

theorem singleton_subset_root_of {hash : Hash256} (h : hash ≠ ZERO_HASH) :
    {hash} ⊆ root_of hash := by
  intro c hc
  rw [Set.mem_singleton_iff.mp hc]
  exact ⟨rfl, h⟩

theorem collect_added_grows (hn : Named get_node) {fuel : Nat} {hash : Hash256}
    (h : collect_added get_node fuel hash d = .ok d₁) : Grows (root_of hash) d d₁ := by
  induction fuel generalizing hash d d₁ with
  | zero => cases h
  | succ fuel ih =>
    unfold collect_added at h
    by_cases hz : hash = ZERO_HASH
    · rw [if_pos hz] at h
      rw [← Except.ok.inj h]
      exact .refl _ d
    · rw [if_neg hz] at h
      obtain ⟨node, hget, h⟩ := bind_eq_ok.mp h
      have hroot : {node.hash} ⊆ root_of hash := by
        rw [hn hash node hget]
        exact singleton_subset_root_of hz
      by_cases hin : node.node_type.is_inner = true
      · rw [if_pos hin] at h
        obtain ⟨inner, hinner, h⟩ := bind_eq_ok.mp h
        obtain ⟨d₂, hfold, h⟩ := bind_eq_ok.mp h
        rw [← pure_eq_ok.mp h]
        have hrefs := (SHAMapNode.refs_inner hin).mpr ⟨inner, from_shamap_eq_ok.mp hinner, rfl⟩
        have hchildren : Grows {c | c ∈ inner.child_hashes} d d₂ :=
          foldlM_grows (fun c hc d d' hstep => (ih hstep).mono (root_of_subset fun _ => hc)) hfold
        exact (hchildren.parent hrefs).mono hroot
      · rw [if_neg hin, pure_eq_ok] at h
        rw [← h]
        have hrefs := SHAMapNode.refs_leaf (n := node) (by simpa using hin)
        exact ((Grows.refl _ d).parent hrefs).mono hroot

theorem collect_deleted_added {fuel : Nat} {hash : Hash256}
    (h : collect_deleted get_node fuel hash d = .ok d₁) : d₁.added = d.added := by
  induction fuel generalizing hash d d₁ with
  | zero => cases h
  | succ fuel ih =>
    unfold collect_deleted at h
    by_cases hz : hash = ZERO_HASH
    · rw [if_pos hz] at h
      rw [← Except.ok.inj h]
    · rw [if_neg hz] at h
      split at h
      · cases h
      · rw [← Except.ok.inj h]
      · next node _ =>
        by_cases hin : node.node_type.is_inner = true
        · rw [if_pos hin] at h
          obtain ⟨inner, -, h⟩ := bind_eq_ok.mp h
          obtain ⟨d₂, hfold, h⟩ := bind_eq_ok.mp h
          rw [← pure_eq_ok.mp h]
          exact foldlM_invariant (P := fun e => e.added = d.added)
            (fun e c e' _ he hstep => (ih hstep).trans he) rfl hfold
        · rw [if_neg hin] at h
          rw [← Except.ok.inj h]

/-- What a diff adds hangs from the new root. -/
theorem diff_nodes_grows (hn : Named get_node) {fuel : Nat} {old_hash new_hash : Hash256}
    (h : diff_nodes get_node fuel old_hash new_hash d = .ok d₁) :
    Grows (root_of new_hash) d d₁ := by
  induction fuel generalizing old_hash new_hash d d₁ with
  | zero => cases h
  | succ fuel ih =>
    unfold diff_nodes at h
    by_cases heq : old_hash = new_hash
    · rw [if_pos heq] at h
      rw [← Except.ok.inj h]
      exact .refl _ d
    rw [if_neg heq] at h
    by_cases hnz : new_hash = ZERO_HASH
    · rw [if_pos hnz] at h
      exact grows_of_added_eq (collect_deleted_added h)
    rw [if_neg hnz] at h
    by_cases hoz : old_hash = ZERO_HASH
    · rw [if_pos hoz] at h
      exact collect_added_grows hn h
    rw [if_neg hoz] at h
    obtain ⟨new_node, hnew, h⟩ := bind_eq_ok.mp h
    obtain ⟨old_node, hold, h⟩ := bind_eq_ok.mp h
    split at h
    · next hin =>
      rw [Bool.and_eq_true] at hin
      obtain ⟨new_inner, hpn, h⟩ := bind_eq_ok.mp h
      obtain ⟨old_inner, hpo, h⟩ := bind_eq_ok.mp h
      obtain ⟨d₂, hfold, h⟩ := bind_eq_ok.mp h
      rw [← pure_eq_ok.mp h]
      have hrefs := (SHAMapNode.refs_inner hin.1).mpr ⟨new_inner, from_shamap_eq_ok.mp hpn, rfl⟩
      have hchildren : Grows {c | c ∈ new_inner.child_hashes} d d₂ := by
        refine foldlM_grows (fun i _ e e' hstep => ?_) hfold
        dsimp only at hstep
        split at hstep
        · -- An empty slot adds nothing. Any other one holds a child.
          refine (ih hstep).mono (root_of_subset fun hne => InnerNode.mem_child_hashes.mpr ⟨i, ?_⟩)
          cases hc : new_inner.children i with
          | none =>
            rw [hc] at hne
            exact absurd rfl hne
          | some c => rfl
        · rw [← Except.ok.inj hstep]
          exact .refl _ e
      have hroot : {new_node.hash} ⊆ root_of new_hash := by
        rw [hn new_hash new_node hnew]
        exact singleton_subset_root_of hnz
      exact (hchildren.parent hrefs).mono hroot
    · obtain ⟨d₂, hadd, h⟩ := bind_eq_ok.mp h
      exact (collect_added_grows hn hadd).trans (grows_of_added_eq (collect_deleted_added h))

/-- A nonempty tree is added with its root. -/
theorem collect_added_root (hn : Named get_node) {fuel : Nat} {hash : Hash256}
    (hne : hash ≠ ZERO_HASH) (h : collect_added get_node fuel hash d = .ok d₁) :
    ∃ n ∈ d₁.added, n.hash = hash := by
  cases fuel with
  | zero => cases h
  | succ fuel =>
    rw [collect_added, if_neg hne] at h
    obtain ⟨node, hget, h⟩ := bind_eq_ok.mp h
    have hlast : ∀ nodes : List SHAMapNode, node ∈ nodes ++ [node] :=
      fun nodes => List.mem_append_right _ List.mem_cons_self
    split at h
    · obtain ⟨inner, -, h⟩ := bind_eq_ok.mp h
      obtain ⟨d₂, -, h⟩ := bind_eq_ok.mp h
      rw [← pure_eq_ok.mp h]
      exact ⟨node, hlast _, hn hash node hget⟩
    · rw [← pure_eq_ok.mp h]
      exact ⟨node, hlast _, hn hash node hget⟩

theorem diff_nodes_root (hn : Named get_node) {fuel : Nat} {old_hash new_hash : Hash256}
    (hne : old_hash ≠ new_hash) (hnz : new_hash ≠ ZERO_HASH)
    (h : diff_nodes get_node fuel old_hash new_hash d = .ok d₁) :
    ∃ n ∈ d₁.added, n.hash = new_hash := by
  cases fuel with
  | zero => cases h
  | succ fuel =>
    rw [diff_nodes, if_neg hne, if_neg hnz] at h
    by_cases hoz : old_hash = ZERO_HASH
    · rw [if_pos hoz] at h
      exact collect_added_root hn hnz h
    rw [if_neg hoz] at h
    obtain ⟨new_node, hnew, h⟩ := bind_eq_ok.mp h
    obtain ⟨old_node, -, h⟩ := bind_eq_ok.mp h
    split at h
    · obtain ⟨new_inner, -, h⟩ := bind_eq_ok.mp h
      obtain ⟨old_inner, -, h⟩ := bind_eq_ok.mp h
      obtain ⟨d₂, -, h⟩ := bind_eq_ok.mp h
      rw [← pure_eq_ok.mp h]
      exact ⟨new_node, List.mem_append_right _ List.mem_cons_self, hn new_hash new_node hnew⟩
    · obtain ⟨d₂, hadd, h⟩ := bind_eq_ok.mp h
      rw [collect_deleted_added h]
      exact collect_added_root hn hnz hadd

/-! ## The types a reader returns -/

theorem count_ones_eq (mask : UInt16) : count_ones mask =
    ((List.finRange 16).filter fun slot : Fin 16 =>
      mask &&& (0x8000 >>> UInt16.ofNat slot) ≠ 0).length := by
  show (((List.finRange 16).flatMap fun slot => [slot.val]).filter _).length = _
  rw [← List.map_eq_flatMap, List.filter_map, List.length_map]
  rfl

/-- With all its hashes there, a sparse value fills every slot. -/
theorem sparse_slots_length {mask : UInt16} {slots : List (Fin 16)} {src : Bytes}
    (h : src.length = (slots.filter fun slot : Fin 16 =>
      mask &&& (0x8000 >>> UInt16.ofNat slot) ≠ 0).length * 32) :
    (sparse_slots mask slots src).length = slots.length * 32 := by
  induction slots generalizing src with
  | nil => rfl
  | cons slot slots ih =>
    unfold sparse_slots
    by_cases hbit : mask &&& (0x8000 >>> UInt16.ofNat slot) ≠ 0
    · rw [List.filter_cons_of_pos (by simpa using hbit), List.length_cons] at h
      have hrest := @ih (src.drop 32) (by rw [List.length_drop]; omega)
      rw [if_pos hbit, List.length_append, List.length_take, hrest, List.length_cons]
      omega
    · rw [List.filter_cons_of_neg (by simpa using hbit)] at h
      rw [if_neg hbit, List.length_append, List.length_replicate, ih h, List.length_cons]
      omega

/-- What is decoded has a type that is exported, and an inner node all its
    slots. -/
theorem decode_value_to_wire_type {lz4 : Bytes → Nat → Option Bytes} {value wire : Bytes}
    (h : decode_value_to_wire lz4 value = some wire) :
    ∃ content, ∃ t : NodeType, wire = content ++ [t.to_u8] ∧ t.is_exported = true ∧
      (t = .Inner → content.length = 512) := by
  have hblob : ∀ data, encoded_blob_to_wire data = some wire →
      ∃ content, ∃ t : NodeType, wire = content ++ [t.to_u8] ∧ t.is_exported = true ∧
        (t = .Inner → content.length = 512) := by
    intro data h
    unfold encoded_blob_to_wire at h
    split at h
    · cases h
    dsimp only at h
    split at h
    · split at h
      · cases h
      · next hlen =>
        refine ⟨_, .Inner, (Option.some.inj h).symm, rfl, fun _ => ?_⟩
        rw [List.length_drop, List.length_take]
        omega
    split at h
    · exact ⟨_, .AccountState, (Option.some.inj h).symm, rfl, fun hc => by cases hc⟩
    split at h
    · exact ⟨_, .TransactionWithMeta, (Option.some.inj h).symm, rfl, fun hc => by cases hc⟩
    · cases h
  unfold decode_value_to_wire at h
  split at h
  · cases h
  split at h
  · unfold decode_full_inner at h
    split at h
    · cases h
    · next hlen =>
      refine ⟨_, .Inner, (Option.some.inj h).symm, rfl, fun _ => ?_⟩
      rw [List.length_drop]
      omega
  split at h
  · unfold decode_sparse_inner at h
    split at h
    · cases h
    dsimp only at h
    split at h
    · cases h
    · next hlen =>
      refine ⟨_, .Inner, (Option.some.inj h).symm, rfl, fun _ => ?_⟩
      rw [sparse_slots_length, List.length_finRange]
      rw [List.length_drop, ← count_ones_eq]
      omega
  split at h
  · obtain ⟨_, -, h⟩ := Option.bind_eq_some_iff.mp h
    obtain ⟨decoded, -, h⟩ := Option.bind_eq_some_iff.mp h
    exact hblob decoded h
  split at h
  · exact hblob _ h
  · cases h

/-- Whatever is read has a type that is exported, and an inner node all its
    slots. -/
theorem NuDBReader.get_node_exported {xxh64 : Bytes → UInt64 → UInt64}
    {lz4 : Bytes → Nat → Option Bytes} {fuel : Nat} {r : NuDBReader} {h : Hash256} {n : SHAMapNode}
    (hget : r.get_node xxh64 lz4 fuel h = .ok n) :
    n.node_type.is_exported = true ∧ (n.node_type = .Inner → n.content.length = 512) := by
  obtain ⟨wire, hwire, hget⟩ := bind_eq_ok.mp hget
  obtain ⟨bytes, hbytes, hget⟩ := bind_eq_ok.mp hget
  rw [ok_or_eq_ok] at hbytes
  rw [hbytes] at hwire
  obtain ⟨value, hvalue⟩ : ∃ value, decode_value_to_wire lz4 value = some bytes := by
    unfold get_wire at hwire
    generalize r.shards = shards at hwire
    induction shards with
    | nil => cases hwire
    | cons shard shards ih =>
      rw [get_wire_loop, bind_eq_ok] at hwire
      obtain ⟨value, -, hwire⟩ := hwire
      split at hwire
      · next w hw =>
        rw [pure_eq_ok, Option.some.injEq] at hwire
        obtain ⟨v, -, hv⟩ := Option.bind_eq_some_iff.mp hw
        exact ⟨v, hwire ▸ hv⟩
      · exact ih hwire
  obtain ⟨content, t, rfl, ht⟩ := decode_value_to_wire_type hvalue
  rw [SHAMapNode.from_wire_bytes_append] at hget
  rw [← Except.ok.inj (from_shamap_eq_ok.mp hget)]
  exact ht

/-- The store formats know one form of an inner node only. -/
theorem NodeType.inner_of_exported {t : NodeType} (ht : t.is_exported = true)
    (hin : t.is_inner = true) : t = .Inner := by
  cases t with
  | Inner => rfl
  | CompressedInner => cases ht
  | AccountState => cases hin
  | TransactionWithMeta => cases hin
  | Transaction => cases hin

theorem NuDBReader.get_node_inner {xxh64 : Bytes → UInt64 → UInt64}
    {lz4 : Bytes → Nat → Option Bytes} {fuel : Nat} {r : NuDBReader} {h : Hash256} {n : SHAMapNode}
    (hget : r.get_node xxh64 lz4 fuel h = .ok n) (hin : n.node_type.is_inner = true) :
    n.node_type = .Inner :=
  NodeType.inner_of_exported (NuDBReader.get_node_exported hget).1 hin

/-! ## Finding the root -/

/-- No other added inner node refers to `n`. -/
def Unreferenced (added : List SHAMapNode) (n : SHAMapNode) : Prop :=
  ∀ m ∈ added, m.node_type.is_inner = true → m ≠ n → ∀ cs, m.refs = some cs → n.hash ∉ cs

/-- What a delta to `root` adds: full inner nodes that parse and leaves,
    each once, which hang from `root`, with no reference to `root` or from
    a node to itself. -/
structure AddedTree (root : Hash256) (added : List SHAMapNode) : Prop where
  full : ∀ n ∈ added, n.node_type.is_inner = true → n.node_type = .Inner
  parses : ∀ n ∈ added, ∃ cs, n.refs = some cs
  once : (added.map SHAMapNode.hash).Nodup
  hangs : Hangs {root} added
  rooted : ∃ n ∈ added, n.hash = root ∧ n.node_type.is_inner = true
  top : ∀ n ∈ added, ∀ cs, n.refs = some cs → root ∉ cs
  apart : ∀ n ∈ added, ∀ cs, n.refs = some cs → n.hash ∉ cs

theorem mem_referenced {added : List SHAMapNode} {h : Hash256}
    (hfull : ∀ n ∈ added, n.node_type.is_inner = true → n.node_type = .Inner) :
    h ∈ referenced added ↔ ∃ m ∈ added, ∃ cs, m.refs = some cs ∧ h ∈ cs := by
  have hnode : ∀ m : SHAMapNode, m.node_type = .Inner →
      InnerNode.from_node m = InnerNode.from_full_bytes m.content := by
    intro m hm
    unfold InnerNode.from_node
    rw [hm]
  unfold referenced
  rw [List.mem_flatMap]
  constructor
  · rintro ⟨m, hm, hmem⟩
    obtain ⟨hadded, htype⟩ := List.mem_filter.mp hm
    have htype : m.node_type = .Inner := by simpa using htype
    split at hmem
    · next inner hinner =>
      refine ⟨m, hadded, inner.child_hashes, ?_, hmem⟩
      exact (SHAMapNode.refs_inner (by rw [htype]; rfl)).mpr ⟨inner, (hnode m htype).trans hinner, rfl⟩
    · cases hmem
  · rintro ⟨m, hm, cs, hcs, hmem⟩
    have hin := SHAMapNode.is_inner_of_refs hcs hmem
    have htype := hfull m hm hin
    obtain ⟨inner, hinner, rfl⟩ := (SHAMapNode.refs_inner hin).mp hcs
    rw [hnode m htype] at hinner
    refine ⟨m, List.mem_filter.mpr ⟨hm, by simpa using htype⟩, ?_⟩
    rw [hinner]
    exact hmem

namespace AddedTree

variable {root : Hash256} {added : List SHAMapNode}

/-- Without a reference to it, a node is the root. -/
theorem eq_root (ht : AddedTree root added) {n : SHAMapNode} (hn : n ∈ added)
    (hfree : ∀ m ∈ added, ∀ cs, m.refs = some cs → n.hash ∉ cs) : n.hash = root := by
  rcases ht.hangs n hn with hroot | ⟨m, hm, cs, hcs, hmem⟩
  · exact hroot
  · exact absurd hmem (hfree m hm cs hcs)

/-- The candidates are listed once, and the root is the only one. -/
theorem finds (ht : AddedTree root added) (prev_root : Hash256) :
    find_new_root added prev_root = .ok root := by
  obtain ⟨r, hr, hroot, hin⟩ := ht.rooted
  have hroots : ((added.filter fun n => n.node_type = .Inner).filter fun n =>
      n.hash ∉ referenced added).map SHAMapNode.hash = [root] := by
    have honce : (((added.filter fun n => n.node_type = .Inner).filter fun n =>
        n.hash ∉ referenced added).map SHAMapNode.hash).Nodup :=
      ht.once.sublist ((List.filter_sublist.trans List.filter_sublist).map _)
    apply List.Perm.eq_singleton
    rw [List.perm_ext_iff_of_nodup honce (List.nodup_singleton root)]
    intro h
    rw [List.mem_singleton, List.mem_map]
    constructor
    · rintro ⟨n, hn, rfl⟩
      obtain ⟨hn, hfree⟩ := List.mem_filter.mp hn
      have hfree : n.hash ∉ referenced added := by simpa using hfree
      rw [mem_referenced ht.full] at hfree
      exact ht.eq_root (List.mem_filter.mp hn).1 fun m hm cs hcs hmem => hfree ⟨m, hm, cs, hcs, hmem⟩
    · rintro rfl
      have hfree : r.hash ∉ referenced added := by
        rw [mem_referenced ht.full]
        rintro ⟨m, hm, cs, hcs, hmem⟩
        exact ht.top m hm cs hcs (hroot ▸ hmem)
      have htype : r ∈ added.filter fun n => n.node_type = .Inner :=
        List.mem_filter.mpr ⟨hr, by simpa using ht.full r hr hin⟩
      exact ⟨r, List.mem_filter.mpr ⟨htype, by simpa using hfree⟩, hroot⟩
  unfold find_new_root
  simp only [hroots]

/-- The root's node is the only inner node that no other one refers to. -/
theorem unreferenced_iff (ht : AddedTree root added) {r n : SHAMapNode} (hr : r ∈ added)
    (hroot : r.hash = root) (hn : n ∈ added) : Unreferenced added n ↔ n = r := by
  constructor
  · intro hfree
    have hhash : n.hash = root := by
      apply ht.eq_root hn
      intro m hm cs hcs hmem
      by_cases hmn : m = n
      · subst hmn
        exact ht.apart m hm cs hcs hmem
      · exact hfree m hm (SHAMapNode.is_inner_of_refs hcs hmem) hmn cs hcs hmem
    exact List.inj_on_of_nodup_map ht.once hn hr (hhash.trans hroot.symm)
  · rintro rfl m hm - - cs hcs hmem
    exact ht.top m hm cs hcs (hroot ▸ hmem)

end AddedTree

/-! ## Diffs of trees -/

variable {store : Store} {old new : List Hash256} {old_root new_root : Hash256}

/-- No node of a tree without a repeated node refers to the root or to
    itself. -/
theorem refs_apart {root a : Hash256} {visit cs : List Hash256} (hw : Walks store.refs [root] visit)
    (hnd : visit.Nodup) (ha : a ∈ visit) (hcs : store.refs a = some cs) : root ∉ cs ∧ a ∉ cs := by
  have hunshared := hw.nodup_iff_unshared.mp hnd
  have hreach := hw.mem_root_iff.mp ha
  constructor
  · intro hmem
    exact not_unshared_of_circle (.refl) (Relation.TransGen.tail' hreach ⟨cs, hcs, hmem⟩) hunshared
  · intro hmem
    exact not_unshared_of_circle hreach (.single ⟨cs, hcs, hmem⟩) hunshared

theorem DiffOf.mem_new (hd : DiffOf store d old new) {n : SHAMapNode} (hn : n ∈ d.added) :
    n.hash ∈ new := by
  obtain ⟨common, -, hpn⟩ := hd.split
  exact hpn.mem_iff.mpr (List.mem_append_left _ (List.mem_map_of_mem hn))

/-- The sorted diff hangs from the new root. -/
theorem diff_hangs (hn : Named get_node) {fuel : Nat}
    (h : diff get_node fuel old_root new_root = .ok d) : Hangs {new_root} d.added := by
  obtain ⟨d₁, hd₁, h⟩ := bind_eq_ok.mp h
  rw [← pure_eq_ok.mp h]
  obtain ⟨nodes, hadd, hhangs⟩ := diff_nodes_grows hn hd₁
  rw [List.nil_append] at hadd
  dsimp only
  rw [hadd]
  exact (hhangs.mono fun c hc => hc.1).perm (List.perm_insertionSort _ nodes).symm

theorem diff_root (hn : Named get_node) {fuel : Nat} (hne : old_root ≠ new_root)
    (hnz : new_root ≠ ZERO_HASH) (h : diff get_node fuel old_root new_root = .ok d) :
    ∃ n ∈ d.added, n.hash = new_root := by
  obtain ⟨d₁, hd₁, h⟩ := bind_eq_ok.mp h
  rw [← pure_eq_ok.mp h]
  obtain ⟨n, hmem, hroot⟩ := diff_nodes_root hn hne hnz hd₁
  exact ⟨n, (List.perm_insertionSort _ _).mem_iff.mpr hmem, hroot⟩

theorem diff_self {fuel : Nat} (hfuel : 0 < fuel) (root : Hash256) :
    diff get_node fuel root root = .ok { added := [], deleted := [] } := by
  obtain ⟨fuel, rfl⟩ := Nat.exists_eq_add_one.mpr hfuel
  unfold diff
  rw [diff_nodes, if_pos rfl]
  rfl

/-- The hash names an inner node of the store. The zero hash names the empty
    tree. -/
structure InnerRoot (store : Store) (root : Hash256) : Prop where
  nonzero : root ≠ ZERO_HASH
  inner : ∃ n, store root = some n ∧ n.node_type.is_inner = true

/-- The diff of two state trees adds what the importer finds the new root
    in. -/
theorem diff_addedTree {fuel : Nat} (hn : Named get_node)
    (hfull : ∀ h n, get_node h = .ok n → n.node_type.is_inner = true → n.node_type = .Inner)
    (htn : TreeAt store new_root new) (hsn : Serves get_node store new) (hnd : new.Nodup)
    (hinner : InnerRoot store new_root) (hne : old_root ≠ new_root)
    (hd : DiffOf store d old new) (hond : old.Nodup)
    (h : diff get_node fuel old_root new_root = .ok d) : AddedTree new_root d.added := by
  have hw : Walks store.refs [new_root] new := (htn.resolve_left fun hz => hinner.nonzero hz.1).2
  have hget : ∀ n ∈ d.added, get_node n.hash = .ok n := fun n hmem =>
    (hsn n.hash (hd.mem_new hmem) n (hd.stored n hmem)).1
  have hrefs : ∀ n ∈ d.added, store.refs n.hash = n.refs := by
    intro n hmem
    unfold Store.refs
    rw [hd.stored n hmem]
    rfl
  obtain ⟨r, hr, hroot⟩ := diff_root hn hne hinner.nonzero h
  refine ⟨fun n hmem => hfull n.hash n (hget n hmem), ?_, (hd.nodup hond hnd).1, diff_hangs hn h,
    ⟨r, hr, hroot, ?_⟩, ?_, ?_⟩
  · intro n hmem
    obtain ⟨cs, hcs, -⟩ := hw.closed n.hash (hd.mem_new hmem)
    exact ⟨cs, (hrefs n hmem).symm.trans hcs⟩
  · obtain ⟨n, hstored, hin⟩ := hinner.inner
    have hsame := hd.stored r hr
    rw [hroot, hstored, Option.some.injEq] at hsame
    exact hsame ▸ hin
  · intro n hmem cs hcs
    exact (refs_apart hw hnd (hd.mem_new hmem) ((hrefs n hmem).trans hcs)).1
  · intro n hmem cs hcs
    exact (refs_apart hw hnd (hd.mem_new hmem) ((hrefs n hmem).trans hcs)).2

/-- From the delta between two state roots the importer finds the root it
    leads to: the old one when nothing has changed, and otherwise the one
    added inner node that no other added inner node refers to. The old root
    may be a leaf or the empty tree as well. -/
theorem find_new_root_of_diff (xxh64 : Bytes → UInt64 → UInt64) (lz4 : Bytes → Nat → Option Bytes)
    (r : NuDBReader) (store : Store) (hr : r.Holds xxh64 lz4 store)
    (ho : TreeOnce store old_root) (hn : TreeOnce store new_root)
    (hinner : InnerRoot store new_root) :
    ∃ fuel₀, ∀ fuel ≥ fuel₀, ∃ d,
      diff (r.get_node xxh64 lz4 fuel) fuel old_root new_root = .ok d ∧
      find_new_root d.added old_root = .ok new_root ∧
      (old_root = new_root → d.added = [] ∧ d.deleted = []) ∧
      (old_root ≠ new_root → ∃ root ∈ d.added, root.hash = new_root ∧
        root.node_type.is_inner = true ∧
        ∀ n ∈ d.added, n.node_type.is_inner = true → (Unreferenced d.added n ↔ n = root)) := by
  obtain ⟨old, hto, hond⟩ := ho
  obtain ⟨new, htn, hnnd⟩ := hn
  obtain ⟨k, hk⟩ := exists_serves hr (old ++ new)
  refine ⟨max k (old.length + new.length + 1), fun fuel hfuel => ?_⟩
  have hserves := hk fuel (by omega)
  have hso := hserves.subset (List.subset_append_left old new)
  have hsn := hserves.subset (List.subset_append_right old new)
  by_cases heq : old_root = new_root
  · subst heq
    refine ⟨_, diff_self (by omega) old_root, rfl, fun _ => ⟨rfl, rfl⟩, fun hne => ?_⟩
    exact absurd rfl hne
  · obtain ⟨d, hrun, hd⟩ := diff_diffOf hto htn hso hsn (by omega : _ < fuel)
    have ht : AddedTree new_root d.added :=
      diff_addedTree (fun h n => NuDBReader.get_node_hash) (fun h n => NuDBReader.get_node_inner)
        htn hsn hnnd hinner heq hd hond hrun
    obtain ⟨root, hroot, hhash, hin⟩ := ht.rooted
    refine ⟨d, hrun, ht.finds old_root, fun h => absurd h heq, fun _ => ?_⟩
    exact ⟨root, hroot, hhash, hin, fun n hmem _ => ht.unreferenced_iff hroot hhash hmem⟩

theorem find_new_root_of_diff_two_trees :
    ∃ fuel₀, ∀ fuel ≥ fuel₀, ∃ d,
      diff ((written_reader Xxh64.digest two_tree_nodes).get_node Xxh64.digest (fun _ _ => none)
        fuel) fuel (Hash256.ofBytes [10]) (Hash256.ofBytes [11]) = .ok d ∧
      find_new_root d.added (Hash256.ofBytes [10]) = .ok (Hash256.ofBytes [11]) ∧
      (Hash256.ofBytes [10] = Hash256.ofBytes [11] → d.added = [] ∧ d.deleted = []) ∧
      (Hash256.ofBytes [10] ≠ Hash256.ofBytes [11] → ∃ root ∈ d.added,
        root.hash = Hash256.ofBytes [11] ∧ root.node_type.is_inner = true ∧
        ∀ n ∈ d.added, n.node_type.is_inner = true → (Unreferenced d.added n ↔ n = root)) :=
  find_new_root_of_diff _ _ _ _
    (written_reader_holds _ _ two_tree_nodes (by decide +kernel) (by decide +kernel))
    (two_trees_once _ (by decide)) (two_trees_once _ (by decide))
    ⟨by decide +kernel, _, rfl, rfl⟩

end LedgerArchive
