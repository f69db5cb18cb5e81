import LedgerArchive.Lib.Except
import LedgerArchive.Lib.Radix
import LedgerArchive.Common.StateTree
import Mathlib.Data.Set.Function

/-! # The transaction tree (`xrla-common/src/tx_tree.rs`)

    A ledger's transaction SHAMap, rebuilt from its records. A record's
    `tx_hash` is its key and places it in the tree; the hash of its leaf
    content is how its parent refers to it.

    `build_level` is the source's recursion. It computes the radix tree of
    the records (`build_tx_tree_ok`, `build_tx_tree_of_distinct`), and the hash of
    a radix tree determines the tree (`tree_hash_inj`). -/

namespace LedgerArchive

open Lib

def HASH_PREFIX_TX_NODE : Bytes := [0x53, 0x4E, 0x44, 0x00]
def HASH_PREFIX_TRANSACTION_ID : Bytes := [0x54, 0x58, 0x4E, 0x00]

/-- The length prefix of the variable-length encoding. Each byte is cut to
    its low eight bits, as `as u8` does. -/
def vl_length_bytes (len : Nat) : Bytes :=
  if len ≤ 192 then [UInt8.ofNat len]
  else if len ≤ 12480 then
    let n := len - 193
    [UInt8.ofNat (193 + n / 256), UInt8.ofNat (n % 256)]
  else
    let n := len - 12481
    [UInt8.ofNat (241 + n / 65536), UInt8.ofNat (n / 256 % 256), UInt8.ofNat (n % 256)]

def write_vl (data : Bytes) : Bytes :=
  vl_length_bytes data.length ++ data

/-- The content of a transaction's leaf node. -/
def tx_leaf_content (tx : TxRecord) : Bytes :=
  HASH_PREFIX_TX_NODE ++ write_vl tx.tx_blob ++ write_vl tx.meta_blob ++ tx.tx_hash.bytes

/-- A leaf to be placed: its key, its node's hash and the node. -/
structure Item where
  key : Hash256
  leaf_hash : Hash256
  node : SHAMapNode

/-- The four bits of the key at `depth`, for a key that has them. -/
def nibble_at (key : Hash256) (depth : Nat) : Fin 16 :=
  let byte := key.bytes.getD (depth / 2) 0
  if depth % 2 = 0 then ⟨byte.toNat / 16, by have := byte.toNat_lt; omega⟩
  else ⟨byte.toNat % 16, by omega⟩

/-- `nibble(key, depth)`: `key[depth / 2]` is out of bounds from depth 64 on. -/
def nibble (key : Hash256) (depth : Nat) : Except Error (Fin 16) :=
  if depth / 2 < 32 then .ok (nibble_at key depth) else .error .panic

/-- `buckets[nibble(&item.key, depth)].push(item)` for every item. -/
def fill_buckets (items : List Item) (depth : Nat) : Except Error (Fin 16 → List Item) :=
  items.foldlM (fun buckets item => do
    let slot ← nibble item.key depth
    pure (Function.update buckets slot (buckets slot ++ [item]))) fun _ => []

section Model

variable (sha512half : Bytes → Hash256)

def calculate_tx_id (tx_blob : Bytes) : Hash256 :=
  sha512half (HASH_PREFIX_TRANSACTION_ID ++ tx_blob)

def tx_leaf (tx : TxRecord) : SHAMapNode :=
  { hash := sha512half (tx_leaf_content tx), node_type := .TransactionWithMeta,
    content := tx_leaf_content tx }

def Item.of_tx (tx : TxRecord) : Item :=
  { key := tx.tx_hash, leaf_hash := (tx_leaf sha512half tx).hash, node := tx_leaf sha512half tx }

/-- The inner node over 16 child hashes. -/
def inner_node (children : List Hash256) : SHAMapNode :=
  let content := children.flatMap Hash256.bytes
  { hash := sha512half (HASH_PREFIX_INNER_NODE ++ content), node_type := .Inner, content }

/-- One slot of a level: what the children and the nodes so far become. A
    bucket of two or more goes one level down, which is what `build` does. -/
def build_slot (build : List Item → List SHAMapNode → Except Error (Hash256 × List SHAMapNode))
    (bucket : List Item) (acc : List Hash256 × List SHAMapNode) :
    Except Error (List Hash256 × List SHAMapNode) :=
  match bucket with
  | [] => pure (acc.1 ++ [ZERO_HASH], acc.2)
  | [item] => pure (acc.1 ++ [item.leaf_hash], acc.2)
  | bucket => do
    let (hash, all_nodes) ← build bucket acc.2
    pure (acc.1 ++ [hash], all_nodes)

/-- One level of the tree: its hash, and `all_nodes` with the inner nodes of
    this level and below added. The recursion has no bound in the source;
    here the first argument bounds it. -/
def build_level : Nat → List Item → Nat → List SHAMapNode →
    Except Error (Hash256 × List SHAMapNode)
  | 0, _, _, _ => .error .fuel
  | n + 1, items, depth, all_nodes => do
    let buckets ← fill_buckets items depth
    let (children, all_nodes) ← (List.finRange 16).foldlM (fun acc slot =>
      build_slot (fun bucket => build_level n bucket (depth + 1)) (buckets slot) acc)
      ([], all_nodes)
    let node := inner_node sha512half children
    pure (node.hash, all_nodes ++ [node])

/-- Rebuild the transaction tree: its root hash and all its nodes. At depth
    64 the key has no nibble left, so 65 levels are enough. -/
def build_tx_tree (txns : List TxRecord) : Except Error (Hash256 × List SHAMapNode) :=
  match txns with
  | [] => .ok (ZERO_HASH, [])
  | _ =>
    let items := txns.map (Item.of_tx sha512half)
    build_level sha512half 65 items 0 (items.map Item.node)

/-! ## The abstract tree -/

/-- A record's digits are the nibbles of its key. -/
def tx_digit (depth : Nat) (tx : TxRecord) : Fin 16 := nibble_at tx.tx_hash depth

/-- The hash by which a parent refers to a tree. -/
def tree_hash : Radix 16 TxRecord → Hash256
  | .empty => ZERO_HASH
  | .leaf tx => (tx_leaf sha512half tx).hash
  | .node kids => (inner_node sha512half ((List.finRange 16).map fun i => tree_hash (kids i))).hash

/-- The inner nodes of a tree, children first. -/
def tree_inner_nodes : Radix 16 TxRecord → List SHAMapNode
  | .empty => []
  | .leaf _ => []
  | .node kids =>
    (List.finRange 16).flatMap (fun i => tree_inner_nodes (kids i)) ++
      [inner_node sha512half ((List.finRange 16).map fun i => tree_hash sha512half (kids i))]

/-- All nodes of a tree. -/
def tree_nodes (t : Radix 16 TxRecord) : List SHAMapNode :=
  t.items.map (tx_leaf sha512half) ++ tree_inner_nodes sha512half t

end Model

variable {sha512half : Bytes → Hash256}

/-! ## The recursion computes the radix tree -/

theorem fill_buckets_ok {txns : List TxRecord} {depth : Nat} {buckets : Fin 16 → List Item}
    (h : fill_buckets (txns.map (Item.of_tx sha512half)) depth = .ok buckets) (slot : Fin 16) :
    buckets slot = (txns.filter fun tx => tx_digit depth tx = slot).map (Item.of_tx sha512half) := by
  -- The loop appends to the buckets it starts from.
  have hgen : ∀ (txns : List TxRecord) (b b' : Fin 16 → List Item),
      (txns.map (Item.of_tx sha512half)).foldlM (fun buckets item => do
        let slot ← nibble item.key depth
        pure (Function.update buckets slot (buckets slot ++ [item]))) b = Except.ok b' →
      b' slot = b slot ++
        (txns.filter fun tx => tx_digit depth tx = slot).map (Item.of_tx sha512half) := by
    intro txns
    induction txns with
    | nil =>
      intro b b' hb
      rw [List.map_nil, foldlM_nil_ok] at hb
      simp [hb]
    | cons tx txns ih =>
      intro b b' hb
      rw [List.map_cons, foldlM_cons_ok] at hb
      obtain ⟨b₁, hstep, hrest⟩ := hb
      obtain ⟨s, hs, hb₁⟩ := bind_eq_ok.mp hstep
      have hslot : s = tx_digit depth tx := by
        unfold nibble at hs
        split at hs
        · exact (Except.ok.inj hs).symm
        · cases hs
      rw [pure_eq_ok] at hb₁
      subst hb₁
      rw [ih _ _ hrest]
      by_cases heq : tx_digit depth tx = slot
      · subst hslot; subst heq
        simp
      · have hne : slot ≠ s := fun hc => heq (hslot ▸ hc.symm)
        rw [Function.update_of_ne hne]
        simp [heq]
  have := hgen txns _ _ h
  simpa using this

theorem fill_buckets_of_depth_lt (items : List Item) {depth : Nat} (hd : depth < 64) :
    ∃ buckets, fill_buckets items depth = .ok buckets := by
  refine ⟨_, foldlM_eq_ok_foldl (g := fun buckets item =>
    Function.update buckets (nibble_at item.key depth)
      (buckets (nibble_at item.key depth) ++ [item])) ?_⟩
  intro item _ buckets
  have hin : depth / 2 < 32 := by omega
  simp [nibble, hin, Bind.bind, Except.bind, Pure.pure, Except.pure]

/-- Whatever `build_level` returns is the hash and the inner nodes of the
    radix tree of its records. -/
theorem build_level_ok {n depth : Nat} {txns : List TxRecord} {acc all : List SHAMapNode}
    {h : Hash256}
    (hb : build_level sha512half n (txns.map (Item.of_tx sha512half)) depth acc = .ok (h, all)) :
    ∃ kids : Fin 16 → Radix 16 TxRecord,
      (∀ i, Radix.Splits tx_digit (depth + 1) (txns.filter fun tx => tx_digit depth tx = i)
        (kids i)) ∧
      h = tree_hash sha512half (.node kids) ∧
      all = acc ++ tree_inner_nodes sha512half (.node kids) := by
  induction n generalizing depth txns acc all h with
  | zero => cases hb
  | succ n ih =>
    unfold build_level at hb
    obtain ⟨buckets, hbuckets, hb⟩ := bind_eq_ok.mp hb
    obtain ⟨⟨children, nodes⟩, hloop, hres⟩ := bind_eq_ok.mp hb
    have hbucket := fill_buckets_ok hbuckets
    -- One slot: its tree, and what the loop body appends for it.
    have hslot : ∀ (i : Fin 16) (acc out : List Hash256 × List SHAMapNode),
        build_slot (fun bucket => build_level sha512half n bucket (depth + 1)) (buckets i) acc =
          .ok out →
        ∃ t, Radix.Splits tx_digit (depth + 1) (txns.filter fun tx => tx_digit depth tx = i) t ∧
          out = (acc.1 ++ [tree_hash sha512half t], acc.2 ++ tree_inner_nodes sha512half t) := by
      intro i acc out hout
      rw [hbucket i] at hout
      generalize txns.filter (fun tx => tx_digit depth tx = i) = l at hout
      match l with
      | [] =>
        have hout := pure_eq_ok.mp hout
        exact ⟨.empty, rfl, by simp [← hout, tree_hash, tree_inner_nodes]⟩
      | [tx] =>
        have hout := pure_eq_ok.mp hout
        exact ⟨.leaf tx, rfl, by simp [← hout, tree_hash, tree_inner_nodes, Item.of_tx]⟩
      | tx :: tx' :: l =>
        obtain ⟨⟨hash, nodes⟩, hlevel, hpure⟩ := bind_eq_ok.mp hout
        have hlevel' : build_level sha512half n ((tx :: tx' :: l).map (Item.of_tx sha512half))
            (depth + 1) acc.2 = .ok (hash, nodes) := hlevel
        obtain ⟨kids, hkids, hhash, hnodes⟩ := ih hlevel'
        rw [pure_eq_ok] at hpure
        exact ⟨.node kids, ⟨by simp, hkids⟩, by rw [← hpure, hhash, hnodes]⟩
    have hex : ∀ i, ∃ t, Radix.Splits tx_digit (depth + 1)
        (txns.filter fun tx => tx_digit depth tx = i) t := by
      intro i
      obtain ⟨acc, out, hout⟩ := foldlM_step_ok hloop i (List.mem_finRange i)
      obtain ⟨t, ht, -⟩ := hslot i acc out hout
      exact ⟨t, ht⟩
    choose kids hkids using hex
    have hfold := foldlM_ok_eq_foldl (g := fun (acc : List Hash256 × List SHAMapNode) i =>
      (acc.1 ++ [tree_hash sha512half (kids i)], acc.2 ++ tree_inner_nodes sha512half (kids i)))
      (by
        intro i _ acc out hout
        obtain ⟨t, ht, hout⟩ := hslot i acc out hout
        rw [hout, ht.unique (hkids i)]) hloop
    rw [foldl_append_pair, Prod.mk.injEq, List.nil_append] at hfold
    obtain ⟨hchildren, hnodes⟩ := hfold
    rw [pure_eq_ok, Prod.mk.injEq] at hres
    refine ⟨kids, hkids, ?_, ?_⟩
    · rw [← hres.1, hchildren]
      rfl
    · rw [← hres.2, hnodes, hchildren, List.append_assoc]
      rfl

/-- The root is an inner node however few transactions there are, and the
    tree is empty when there are none. -/
def TxTreeOf (txns : List TxRecord) (t : Radix 16 TxRecord) : Prop :=
  match t with
  | .empty => txns = []
  | .leaf _ => False
  | .node kids => txns ≠ [] ∧ Radix.SplitsRoot tx_digit txns kids

theorem TxTreeOf.items_perm {txns : List TxRecord} {t : Radix 16 TxRecord}
    (h : TxTreeOf txns t) : t.items.Perm txns := by
  cases t with
  | empty => exact h ▸ List.Perm.refl _
  | leaf tx => exact h.elim
  | node kids => exact h.2.items_perm

/-- The order of the records does not matter. -/
theorem TxTreeOf.perm {txns txns' : List TxRecord} {t : Radix 16 TxRecord}
    (h : TxTreeOf txns t) (hp : txns.Perm txns') : TxTreeOf txns' t := by
  cases t with
  | empty =>
    rw [show txns = [] from h] at hp
    exact hp.symm.eq_nil
  | leaf tx => exact h.elim
  | node kids =>
    refine ⟨fun hnil => h.1 ?_, h.2.perm hp⟩
    rw [hnil] at hp
    exact hp.eq_nil

theorem TxTreeOf.unique {txns : List TxRecord} {t t' : Radix 16 TxRecord}
    (h : TxTreeOf txns t) (h' : TxTreeOf txns t') : t = t' := by
  cases t with
  | empty =>
    cases t' with
    | empty => rfl
    | leaf tx => exact h'.elim
    | node kids => exact absurd h h'.1
  | leaf tx => exact h.elim
  | node kids =>
    cases t' with
    | empty => exact absurd h' h.1
    | leaf tx => exact h'.elim
    | node kids' =>
      have heq : kids = kids' := funext fun i => (h.2 i).unique (h'.2 i)
      rw [heq]

/-- `build_tx_tree` returns the root hash and the nodes of the tree of its
    records: the leaves in the records' order, then the inner nodes. -/
theorem build_tx_tree_ok {txns : List TxRecord} {root : Hash256} {nodes : List SHAMapNode}
    (h : build_tx_tree sha512half txns = .ok (root, nodes)) :
    ∃ t, TxTreeOf txns t ∧ root = tree_hash sha512half t ∧
      nodes = txns.map (tx_leaf sha512half) ++ tree_inner_nodes sha512half t := by
  cases txns with
  | nil =>
    obtain ⟨rfl, rfl⟩ := Prod.mk.inj (Except.ok.inj h)
    exact ⟨.empty, rfl, rfl, rfl⟩
  | cons tx txns =>
    obtain ⟨kids, hkids, hroot, hnodes⟩ := build_level_ok h
    refine ⟨.node kids, ⟨by simp, hkids⟩, hroot, ?_⟩
    rw [hnodes, List.map_map]
    rfl

/-! ## The recursion always comes to its end -/

/-- The 64 nibbles of a key are the key. -/
theorem key_eq_of_nibbles {a b : Hash256} (h : ∀ e < 64, nibble_at a e = nibble_at b e) :
    a = b := by
  apply Hash256.bytes_inj
  apply List.ext_getElem (by rw [a.length_eq, b.length_eq])
  intro j hj _
  rw [a.length_eq] at hj
  have hhigh := congrArg Fin.val (h (2 * j) (by omega))
  have hlow := congrArg Fin.val (h (2 * j + 1) (by omega))
  have h1 : 2 * j % 2 = 0 := by omega
  have h2 : ¬(2 * j + 1) % 2 = 0 := by omega
  have h3 : 2 * j / 2 = j := by omega
  have h4 : (2 * j + 1) / 2 = j := by omega
  simp only [nibble_at, h1, h2, h3, h4, if_true, if_false] at hhigh hlow
  have ha : j < a.bytes.length := by rw [a.length_eq]; exact hj
  have hb : j < b.bytes.length := by rw [b.length_eq]; exact hj
  rw [List.getD_eq_getElem?_getD, List.getD_eq_getElem?_getD, List.getElem?_eq_getElem ha,
    List.getElem?_eq_getElem hb] at hhigh hlow
  simp only [Option.getD_some] at hhigh hlow
  apply UInt8.toNat_inj.mp
  omega

/-- Records with different keys that share their first `depth` nibbles: the
    recursion reaches no depth at which the key has no nibble left. -/
theorem build_level_of_distinct {n depth : Nat} {txns : List TxRecord} {acc : List SHAMapNode}
    (hn : 64 ≤ n + depth) (hd : depth < 64) (hnodup : (txns.map TxRecord.tx_hash).Nodup)
    (hshare : ∀ a ∈ txns, ∀ b ∈ txns, ∀ e < depth, tx_digit e a = tx_digit e b) :
    ∃ out, build_level sha512half n (txns.map (Item.of_tx sha512half)) depth acc = .ok out := by
  induction n generalizing depth txns acc with
  | zero => omega
  | succ n ih =>
    obtain ⟨buckets, hbuckets⟩ :=
      fill_buckets_of_depth_lt (txns.map (Item.of_tx sha512half)) hd
    have hbucket := fill_buckets_ok hbuckets
    -- Every slot has its tree.
    have hslot : ∀ i ∈ List.finRange 16, ∀ acc : List Hash256 × List SHAMapNode, ∃ out,
        build_slot (fun bucket => build_level sha512half n bucket (depth + 1)) (buckets i) acc =
          .ok out := by
      intro i _ acc
      rw [hbucket i]
      have hsub : ∀ tx ∈ txns.filter (fun tx => tx_digit depth tx = i),
          tx ∈ txns ∧ tx_digit depth tx = i := by
        intro tx htx
        rw [List.mem_filter] at htx
        exact ⟨htx.1, of_decide_eq_true htx.2⟩
      have hnd : ((txns.filter fun tx => tx_digit depth tx = i).map TxRecord.tx_hash).Nodup :=
        hnodup.sublist (List.filter_sublist.map _)
      generalize txns.filter (fun tx => tx_digit depth tx = i) = l at hsub hnd
      have hshare' : ∀ a ∈ l, ∀ b ∈ l, ∀ e < depth + 1, tx_digit e a = tx_digit e b := by
        intro a ha b hb e he
        by_cases hlast : e = depth
        · subst hlast
          rw [(hsub a ha).2, (hsub b hb).2]
        · exact hshare a (hsub a ha).1 b (hsub b hb).1 e (by omega)
      match l with
      | [] => exact ⟨_, rfl⟩
      | [tx] => exact ⟨_, rfl⟩
      | tx :: tx' :: l =>
        -- Two different keys cannot share all 64 nibbles.
        have hlt : depth + 1 < 64 := by
          by_contra hge
          have hkey : tx.tx_hash = tx'.tx_hash := by
            apply key_eq_of_nibbles
            intro e he
            exact hshare' tx (by simp) tx' (by simp) e (by omega)
          rw [List.map_cons, List.map_cons, hkey] at hnd
          exact (List.nodup_cons.mp hnd).1 (by simp)
        obtain ⟨out, hout⟩ := @ih (depth + 1) (tx :: tx' :: l) acc.2 (by omega) hlt hnd hshare'
        exact ⟨_, bind_eq_ok.mpr ⟨out, hout, rfl⟩⟩
    obtain ⟨out, hout⟩ := foldlM_exists_ok (s := (([], acc) : List Hash256 × List SHAMapNode)) hslot
    exact ⟨_, bind_eq_ok.mpr ⟨buckets, hbuckets, bind_eq_ok.mpr ⟨out, hout, rfl⟩⟩⟩

/-- Transactions with different hashes have a tree. -/
theorem build_tx_tree_of_distinct {txns : List TxRecord}
    (hnodup : (txns.map TxRecord.tx_hash).Nodup) :
    ∃ out, build_tx_tree sha512half txns = .ok out := by
  cases txns with
  | nil => exact ⟨_, rfl⟩
  | cons tx txns =>
    apply build_level_of_distinct (by omega) (by omega) hnodup
    intro a _ b _ e he
    omega

/-- Records with a tree have different keys. -/
theorem TxTreeOf.nodup {txns : List TxRecord} {t : Radix 16 TxRecord} (h : TxTreeOf txns t) :
    (txns.map TxRecord.tx_hash).Nodup := by
  cases t with
  | empty =>
    rw [show txns = [] from h]
    exact List.nodup_nil
  | leaf tx => exact h.elim
  | node kids =>
    apply List.pairwise_map.mpr
    refine h.2.pairwise.imp ?_
    rintro a b ⟨e, he⟩ hkey
    apply he
    unfold tx_digit
    rw [hkey]

/-- At depth 64 there is no slot for any item. -/
theorem fill_buckets_panic {items : List Item} {depth : Nat} (hne : items ≠ [])
    (hd : 64 ≤ depth) : fill_buckets items depth = .error .panic := by
  cases items with
  | nil => exact absurd rfl hne
  | cons item items =>
    have hout : ¬ depth / 2 < 32 := by omega
    unfold fill_buckets
    rw [List.foldlM_cons]
    simp only [nibble, if_neg hout]
    rfl

/-- With a level for every depth up to 64, the recursion returns or ends in
    the index out of bounds. -/
theorem build_level_ok_or_panic {n depth : Nat} {txns : List TxRecord} {acc : List SHAMapNode}
    (hn : 65 ≤ n + depth) (hd : depth ≤ 64) (hne : txns ≠ []) :
    ErrorsIn (· = .panic)
      (build_level sha512half n (txns.map (Item.of_tx sha512half)) depth acc) := by
  induction n generalizing depth txns acc with
  | zero => omega
  | succ n ih =>
    unfold build_level
    by_cases hlast : depth = 64
    · rw [fill_buckets_panic (by simpa using hne) (by omega)]
      exact errorsIn_error.mpr rfl
    · obtain ⟨buckets, hbuckets⟩ :=
        @fill_buckets_of_depth_lt (txns.map (Item.of_tx sha512half)) depth (by omega)
      rw [hbuckets]
      refine ErrorsIn.bind (errorsIn_ok buckets) fun b hb => ?_
      cases hb
      refine ErrorsIn.bind (errorsIn_foldlM fun slot _ acc => ?_) fun out _ => errorsIn_ok _
      rw [fill_buckets_ok hbuckets slot]
      match txns.filter fun tx => tx_digit depth tx = slot with
      | [] => exact errorsIn_pure _
      | [tx] => exact errorsIn_pure _
      | tx :: tx' :: l =>
        apply ErrorsIn.bind (@ih (depth + 1) (tx :: tx' :: l) acc.2 (by omega) (by omega) (by simp))
        intro out _
        exact errorsIn_pure _

/-- Building a tree never runs out of levels. -/
theorem build_tx_tree_errors (txns : List TxRecord) :
    ErrorsIn (· = .panic) (build_tx_tree sha512half txns) := by
  cases txns with
  | nil => exact errorsIn_ok _
  | cons tx txns => exact build_level_ok_or_panic (by omega) (by omega) (by simp)

/-! ## The nodes of a tree -/

theorem length_of_mem_hashes {hashes : List Hash256} :
    ∀ p ∈ hashes.map Hash256.bytes, p.length = 32 := by
  intro p hp
  obtain ⟨a, _, rfl⟩ := List.mem_map.mp hp
  exact a.length_eq

theorem inner_node_length {hashes : List Hash256} (hlen : hashes.length = 16) :
    (inner_node sha512half hashes).content.length = 512 := by
  show (hashes.flatMap Hash256.bytes).length = 512
  rw [List.flatMap_def, HasAt.flatten_length length_of_mem_hashes, List.length_map, hlen]

theorem slot_bytes_flatMap {hashes : List Hash256} {i : Fin 16} {h : Hash256}
    (hi : hashes[i.val]? = some h) :
    InnerNode.slot_bytes (hashes.flatMap Hash256.bytes) i = h.bytes := by
  have hget : (hashes.map Hash256.bytes)[i.val]? = some h.bytes := by
    rw [List.getElem?_map, hi]
    rfl
  have hat := @HasAt.flatten [] _ 32 length_of_mem_hashes i.val h.bytes hget
  have hread := hat.readAt
  rw [h.length_eq] at hread
  unfold readAt at hread
  split at hread
  · rw [Option.some.injEq] at hread
    rw [← hread]
    unfold InnerNode.slot_bytes
    rw [List.flatMap_def]
    simp
  · cases hread

theorem tree_nodes_kid {kids : Fin 16 → Radix 16 TxRecord} (i : Fin 16) :
    tree_nodes sha512half (kids i) ⊆ tree_nodes sha512half (.node kids) := by
  intro n hn
  unfold tree_nodes at hn ⊢
  rcases List.mem_append.mp hn with hn | hn
  · refine List.mem_append_left _ ?_
    obtain ⟨tx, htx, rfl⟩ := List.mem_map.mp hn
    refine List.mem_map_of_mem ?_
    exact List.mem_flatMap.mpr ⟨i, List.mem_finRange i, htx⟩
  · refine List.mem_append_right _ (List.mem_append_left _ ?_)
    exact List.mem_flatMap.mpr ⟨i, List.mem_finRange i, hn⟩

/-! ## The root hash determines the tree -/

/-- The byte strings that are hashed for a record: its leaf's content, and
    its blob for the transaction id. -/
def tx_inputs (tx : TxRecord) : Set Bytes :=
  {tx_leaf_content tx, HASH_PREFIX_TRANSACTION_ID ++ tx.tx_blob}

/-- All byte strings hashed for a tree and its records. -/
def tree_inputs (sha512half : Bytes → Hash256) (t : Radix 16 TxRecord) : Set Bytes :=
  {x | (∃ tx ∈ t.items, x ∈ tx_inputs tx) ∨ ∃ n ∈ tree_inner_nodes sha512half t, x = hash_input n}

/-- The length of an encoded blob grows with the blob, so it determines the
    blob's length, also where the prefix has lost bits of it. -/
theorem write_vl_inj {a b : Bytes} (h : write_vl a = write_vl b) : a = b := by
  have hprefix : ∀ n, (vl_length_bytes n).length =
      if n ≤ 192 then 1 else if n ≤ 12480 then 2 else 3 := by
    intro n
    unfold vl_length_bytes
    split
    · rfl
    · split <;> rfl
  have hlen := congrArg List.length h
  simp only [write_vl, List.length_append, hprefix] at hlen
  have hab : a.length = b.length := by
    split_ifs at hlen <;> omega
  unfold write_vl at h
  rw [hab] at h
  exact List.append_cancel_left h

/-- Authentic records with the same leaf content are the same record. -/
theorem tx_leaf_content_inj {a b : TxRecord} {S : Set Bytes} (hinj : Set.InjOn sha512half S)
    (ha : tx_inputs a ⊆ S) (hb : tx_inputs b ⊆ S)
    (hauth : calculate_tx_id sha512half a.tx_blob = a.tx_hash)
    (hauth' : calculate_tx_id sha512half b.tx_blob = b.tx_hash)
    (h : tx_leaf_content a = tx_leaf_content b) : a = b := by
  unfold tx_leaf_content at h
  obtain ⟨h, hkey⟩ := List.append_inj' h (by rw [a.tx_hash.length_eq, b.tx_hash.length_eq])
  have hhash : a.tx_hash = b.tx_hash := Hash256.bytes_inj hkey
  -- The encoding alone does not separate the blobs; their hash does.
  have hblob : a.tx_blob = b.tx_blob := by
    have hid : sha512half (HASH_PREFIX_TRANSACTION_ID ++ a.tx_blob) =
        sha512half (HASH_PREFIX_TRANSACTION_ID ++ b.tx_blob) :=
      hauth.trans (hhash.trans hauth'.symm)
    exact List.append_cancel_left (hinj (ha (by simp [tx_inputs])) (hb (by simp [tx_inputs])) hid)
  rw [hblob] at h
  have hmeta : a.meta_blob = b.meta_blob := write_vl_inj (List.append_cancel_left h)
  obtain ⟨a1, a2, a3⟩ := a
  obtain ⟨b1, b2, b3⟩ := b
  simp only at hhash hblob hmeta
  rw [hhash, hblob, hmeta]

/-- Byte strings of 32-byte pieces determine the pieces. -/
theorem flatMap_bytes_inj {l m : List Hash256} (hlen : l.length = m.length)
    (h : l.flatMap Hash256.bytes = m.flatMap Hash256.bytes) : l = m := by
  induction l generalizing m with
  | nil => exact (List.length_eq_zero_iff.mp hlen.symm).symm
  | cons a l ih =>
    cases m with
    | nil => cases hlen
    | cons b m =>
      rw [List.flatMap_cons, List.flatMap_cons] at h
      obtain ⟨hab, hrest⟩ := List.append_inj h (by rw [a.length_eq, b.length_eq])
      rw [Hash256.bytes_inj hab, ih (by simpa using hlen) hrest]

theorem leaf_content_mem (tx : TxRecord) :
    tx_leaf_content tx ∈ tree_inputs sha512half (.leaf tx) :=
  .inl ⟨tx, by simp [Radix.items], by simp [tx_inputs]⟩

theorem inner_content_mem (kids : Fin 16 → Radix 16 TxRecord) :
    HASH_PREFIX_INNER_NODE ++ ((List.finRange 16).map fun i =>
      tree_hash sha512half (kids i)).flatMap Hash256.bytes ∈
        tree_inputs sha512half (.node kids) := by
  refine .inr ⟨inner_node sha512half ((List.finRange 16).map fun i =>
    tree_hash sha512half (kids i)), ?_, rfl⟩
  exact List.mem_append_right _ List.mem_cons_self

theorem tree_inputs_kid {kids : Fin 16 → Radix 16 TxRecord} (i : Fin 16) :
    tree_inputs sha512half (kids i) ⊆ tree_inputs sha512half (.node kids) := by
  intro x hx
  cases hx with
  | inl h =>
    obtain ⟨tx, htx, hx⟩ := h
    exact .inl ⟨tx, List.mem_flatMap.mpr ⟨i, List.mem_finRange i, htx⟩, hx⟩
  | inr h =>
    obtain ⟨n, hn, hx⟩ := h
    refine .inr ⟨n, ?_, hx⟩
    exact List.mem_append_left _ (List.mem_flatMap.mpr ⟨i, List.mem_finRange i, hn⟩)

theorem tree_hash_empty_iff {t : Radix 16 TxRecord} {S : Set Bytes}
    (hne : ∀ x ∈ S, sha512half x ≠ ZERO_HASH) (ht : tree_inputs sha512half t ⊆ S) :
    tree_hash sha512half t = ZERO_HASH ↔ t = .empty := by
  cases t with
  | empty => exact iff_of_true rfl rfl
  | leaf tx => exact iff_of_false (hne _ (ht (leaf_content_mem tx))) (by simp)
  | node kids => exact iff_of_false (hne _ (ht (inner_content_mem kids))) (by simp)

/-- A leaf's content and an inner node's hashed bytes start differently. -/
theorem leaf_content_ne_inner (tx : TxRecord) (content : Bytes) :
    tx_leaf_content tx ≠ HASH_PREFIX_INNER_NODE ++ content := by
  simp [tx_leaf_content, HASH_PREFIX_TX_NODE, HASH_PREFIX_INNER_NODE]

/-- Two trees of authentic records with the same hash are the same tree,
    as long as `sha512half` does not collide on what they hash. -/
theorem tree_hash_inj {t t' : Radix 16 TxRecord} {S : Set Bytes} (hinj : Set.InjOn sha512half S)
    (hne : ∀ x ∈ S, sha512half x ≠ ZERO_HASH) (ht : tree_inputs sha512half t ⊆ S)
    (ht' : tree_inputs sha512half t' ⊆ S)
    (hauth : ∀ tx ∈ t.items, calculate_tx_id sha512half tx.tx_blob = tx.tx_hash)
    (hauth' : ∀ tx ∈ t'.items, calculate_tx_id sha512half tx.tx_blob = tx.tx_hash)
    (h : tree_hash sha512half t = tree_hash sha512half t') : t = t' := by
  induction t generalizing t' with
  | empty => exact ((tree_hash_empty_iff hne ht').mp h.symm).symm
  | leaf tx =>
    cases t' with
    | empty => exact (tree_hash_empty_iff hne ht).mp h
    | leaf tx' =>
      have hS : ∀ u, tree_inputs sha512half (.leaf u) ⊆ S → tx_inputs u ⊆ S :=
        fun u hu x hx => hu (.inl ⟨u, by simp [Radix.items], hx⟩)
      have hcontent := hinj (ht (leaf_content_mem tx)) (ht' (leaf_content_mem tx')) h
      rw [tx_leaf_content_inj hinj (hS tx ht) (hS tx' ht') (hauth tx (by simp [Radix.items]))
        (hauth' tx' (by simp [Radix.items])) hcontent]
    | node kids' =>
      have hcontent := hinj (ht (leaf_content_mem tx)) (ht' (inner_content_mem kids')) h
      exact absurd hcontent (leaf_content_ne_inner tx _)
  | node kids ih =>
    cases t' with
    | empty => exact (tree_hash_empty_iff hne ht).mp h
    | leaf tx' =>
      have hcontent := hinj (ht (inner_content_mem kids)) (ht' (leaf_content_mem tx')) h
      exact absurd hcontent.symm (leaf_content_ne_inner tx' _)
    | node kids' =>
      have hcontent := hinj (ht (inner_content_mem kids)) (ht' (inner_content_mem kids')) h
      have hchildren := flatMap_bytes_inj (by simp) (List.append_cancel_left hcontent)
      have hmem : ∀ (ks : Fin 16 → Radix 16 TxRecord) (i : Fin 16), ∀ tx ∈ (ks i).items,
          tx ∈ (Radix.node ks).items :=
        fun ks i tx htx => List.mem_flatMap.mpr ⟨i, List.mem_finRange i, htx⟩
      have hkids : kids = kids' := by
        funext i
        have hi : tree_hash sha512half (kids i) = tree_hash sha512half (kids' i) :=
          List.map_inj_left.mp hchildren i (List.mem_finRange i)
        exact ih i ((tree_inputs_kid i).trans ht) ((tree_inputs_kid i).trans ht')
          (fun tx htx => hauth tx (hmem kids i tx htx))
          (fun tx htx => hauth' tx (hmem kids' i tx htx)) hi
      rw [hkids]

end LedgerArchive
