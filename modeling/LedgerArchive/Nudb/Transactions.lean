import LedgerArchive.Common.TxTree
import LedgerArchive.Lib.SortBy
import LedgerArchive.Nudb.Telescope

/-! # The transaction list and the transaction tree

    `build_tx_tree` turns a ledger's records into a tree, and
    `collect_transactions` walks a stored tree and returns its records.
    `write_vl` and `read_vl` agree on every length up to 929,984, and a leaf
    is parsed exactly when it is the leaf of a record with blobs of such
    lengths (`parse_tx_leaf_iff`). A tree with no key twice is walked without
    meeting a hash twice, so the walk returns the records of the tree, and
    sorted they are the records of the list. -/

namespace LedgerArchive

open Lib

/-! ## Variable-length lengths -/

theorem ofNat_toNat_of_lt {n : Nat} (h : n < 256) : (UInt8.ofNat n).toNat = n :=
  UInt8.toNat_ofNat_of_lt' h

/-- The longest length the encoding has room for. -/
def VL_MAX : Nat := 929984

theorem read_vl_written {len : Nat} (h : len ≤ VL_MAX) (rest : Bytes) :
    read_vl (vl_length_bytes len ++ rest) = .ok (len, (vl_length_bytes len).length) := by
  unfold VL_MAX at h
  by_cases h1 : len ≤ 192
  · have hb0 : (UInt8.ofNat len).toNat = len := ofNat_toNat_of_lt (by omega)
    simp [vl_length_bytes, h1, read_vl, ok_or, hb0, Bind.bind, Except.bind]
  by_cases h2 : len ≤ 12480
  · have hb0 : (UInt8.ofNat (193 + (len - 193) / 256)).toNat = 193 + (len - 193) / 256 :=
      ofNat_toNat_of_lt (by omega)
    have hb1 : (UInt8.ofNat ((len - 193) % 256)).toNat = (len - 193) % 256 :=
      ofNat_toNat_of_lt (by omega)
    have hlarge : ¬ 193 + (len - 193) / 256 ≤ 192 := by omega
    have hsmall : 193 + (len - 193) / 256 ≤ 240 := by omega
    have hlen : 193 + (193 + (len - 193) / 256 - 193) * 256 + (len - 193) % 256 = len := by omega
    simp only [vl_length_bytes, if_neg h1, if_pos h2, read_vl, ok_or, List.cons_append,
      List.nil_append, List.getElem?_cons_zero, List.getElem?_cons_succ, hb0, hb1, Bind.bind,
      Except.bind, if_neg hlarge, if_pos hsmall, hlen]
    rfl
  · have hb0 : (UInt8.ofNat (241 + (len - 12481) / 65536)).toNat = 241 + (len - 12481) / 65536 :=
      ofNat_toNat_of_lt (by omega)
    have hb1 : (UInt8.ofNat ((len - 12481) / 256 % 256)).toNat = (len - 12481) / 256 % 256 :=
      ofNat_toNat_of_lt (by omega)
    have hb2 : (UInt8.ofNat ((len - 12481) % 256)).toNat = (len - 12481) % 256 :=
      ofNat_toNat_of_lt (by omega)
    have hlarge : ¬ 241 + (len - 12481) / 65536 ≤ 192 := by omega
    have hlarge' : ¬ 241 + (len - 12481) / 65536 ≤ 240 := by omega
    have hsmall : 241 + (len - 12481) / 65536 ≤ 254 := by omega
    have hlen : 12481 + (241 + (len - 12481) / 65536 - 241) * 65536 +
        (len - 12481) / 256 % 256 * 256 + (len - 12481) % 256 = len := by omega
    simp only [vl_length_bytes, if_neg h1, if_neg h2, read_vl, ok_or, List.cons_append,
      List.nil_append, List.getElem?_cons_zero, List.getElem?_cons_succ, hb0, hb1, hb2, Bind.bind,
      Except.bind, if_neg hlarge, if_neg hlarge', if_pos hsmall, hlen]
    rfl

/-- Every length has one encoding. -/
theorem read_vl_ok {b : Bytes} {len n : Nat} (h : read_vl b = .ok (len, n)) :
    len ≤ VL_MAX ∧ n = (vl_length_bytes len).length ∧ ∃ rest, b = vl_length_bytes len ++ rest := by
  have hhead : ∀ {i : Nat} {x : UInt8} {s : Bytes}, s[i]? = some x → s.drop i = x :: s.drop (i + 1) := by
    intro i x s hx
    obtain ⟨hlt, rfl⟩ := List.getElem?_eq_some_iff.mp hx
    exact List.drop_eq_getElem_cons hlt
  unfold read_vl at h
  obtain ⟨b0, hb0, h⟩ := bind_eq_ok.mp h
  rw [ok_or_eq_ok] at hb0
  have hlt0 := b0.toNat_lt
  have hd0 := hhead hb0
  rw [List.drop_zero] at hd0
  simp only at h
  split at h
  · next h0 =>
    obtain ⟨rfl, rfl⟩ := Prod.mk.inj (Except.ok.inj h)
    refine ⟨by unfold VL_MAX; omega, ?_⟩
    simp only [vl_length_bytes, if_pos h0, UInt8.ofNat_toNat]
    exact ⟨rfl, _, hd0⟩
  split at h
  · next h0 h1 =>
    obtain ⟨b1, hb1, h⟩ := bind_eq_ok.mp h
    rw [ok_or_eq_ok] at hb1
    have hlt1 := b1.toNat_lt
    have hd1 := hhead hb1
    obtain ⟨rfl, rfl⟩ := Prod.mk.inj (Except.ok.inj h)
    have hlong : ¬ 193 + (b0.toNat - 193) * 256 + b1.toNat ≤ 192 := by omega
    have hshort : 193 + (b0.toNat - 193) * 256 + b1.toNat ≤ 12480 := by omega
    have hfirst : 193 + (193 + (b0.toNat - 193) * 256 + b1.toNat - 193) / 256 = b0.toNat := by omega
    have hsecond : (193 + (b0.toNat - 193) * 256 + b1.toNat - 193) % 256 = b1.toNat := by omega
    refine ⟨by unfold VL_MAX; omega, ?_⟩
    simp only [vl_length_bytes, if_neg hlong, if_pos hshort, hfirst, hsecond, UInt8.ofNat_toNat]
    exact ⟨rfl, _, by rw [hd0, hd1]; rfl⟩
  split at h
  · next h0 h1 h2 =>
    obtain ⟨b1, hb1, h⟩ := bind_eq_ok.mp h
    obtain ⟨b2, hb2, h⟩ := bind_eq_ok.mp h
    rw [ok_or_eq_ok] at hb1 hb2
    have hlt1 := b1.toNat_lt
    have hlt2 := b2.toNat_lt
    have hd1 := hhead hb1
    have hd2 := hhead hb2
    obtain ⟨rfl, rfl⟩ := Prod.mk.inj (Except.ok.inj h)
    generalize hlen : 12481 + (b0.toNat - 241) * 65536 + b1.toNat * 256 + b2.toNat = len
    have hlong : ¬ len ≤ 192 := by omega
    have hlong' : ¬ len ≤ 12480 := by omega
    have hfirst : 241 + (len - 12481) / 65536 = b0.toNat := by omega
    have hsecond : (len - 12481) / 256 % 256 = b1.toNat := by omega
    have hthird : (len - 12481) % 256 = b2.toNat := by omega
    refine ⟨by unfold VL_MAX; omega, ?_⟩
    simp only [vl_length_bytes, if_neg hlong, if_neg hlong', hfirst, hsecond, hthird,
      UInt8.ofNat_toNat]
    exact ⟨rfl, _, by rw [hd0, hd1, hd2]; rfl⟩
  · cases h

/-! ## Leaves -/

/-- The blobs of a record have lengths that can be encoded. -/
def TxRecord.Encodable (tx : TxRecord) : Prop :=
  tx.tx_blob.length ≤ VL_MAX ∧ tx.meta_blob.length ≤ VL_MAX

instance (tx : TxRecord) : Decidable tx.Encodable :=
  inferInstanceAs (Decidable (tx.tx_blob.length ≤ VL_MAX ∧ tx.meta_blob.length ≤ VL_MAX))

/-- One blob is read: its length, then as many bytes. -/
theorem read_blob_iff {b data rest : Bytes} :
    (∃ len n, read_vl b = .ok (len, n) ∧ readAt (b.drop n) 0 len = some data ∧
        (b.drop n).drop len = rest) ↔
      b = write_vl data ++ rest ∧ data.length ≤ VL_MAX := by
  constructor
  · rintro ⟨len, n, hvl, hread, rfl⟩
    obtain ⟨hmax, rfl, tail, rfl⟩ := read_vl_ok hvl
    rw [List.drop_left' rfl] at hread ⊢
    unfold readAt at hread
    split at hread
    · next hle =>
      rw [Option.some.injEq, List.drop_zero] at hread
      have hlen : data.length = len := by
        rw [← hread, List.length_take]
        omega
      refine ⟨?_, hlen ▸ hmax⟩
      unfold write_vl
      rw [hlen, List.append_assoc, ← hread, List.take_append_drop]
    · cases hread
  · rintro ⟨rfl, hmax⟩
    refine ⟨data.length, (vl_length_bytes data.length).length, ?_, ?_, ?_⟩
    · unfold write_vl
      rw [List.append_assoc]
      exact read_vl_written hmax _
    · unfold write_vl
      rw [List.append_assoc, List.drop_left' rfl]
      simp [readAt]
    · unfold write_vl
      rw [List.append_assoc, List.drop_left' rfl, List.drop_left' rfl]

/-- The leaves that are parsed are those of records with encodable blobs. -/
theorem parse_tx_leaf_iff {content : Bytes} {tx : TxRecord} :
    parse_tx_leaf content = .ok tx ↔ content = tx_leaf_content tx ∧ tx.Encodable := by
  have hhead : tx_leaf_content tx = HASH_PREFIX_TX_NODE ++
      (write_vl tx.tx_blob ++ (write_vl tx.meta_blob ++ tx.tx_hash.bytes)) := by
    unfold tx_leaf_content
    rw [List.append_assoc, List.append_assoc]
  unfold parse_tx_leaf
  rw [bail_if_bind_ok]
  simp only [bind_eq_ok, Prod.exists, ok_or_eq_ok, bail_if_eq_ok, pure_eq_ok, not_or, not_not]
  constructor
  · rintro ⟨⟨-, hstart⟩, len, n, hvl, blob, hblob, len', n', hvl', metadata, hmeta, _, hkey, htx⟩
    obtain ⟨hrest, hmax⟩ := read_blob_iff.mp ⟨len, n, hvl, hblob, rfl⟩
    obtain ⟨hrest', hmax'⟩ := read_blob_iff.mp ⟨len', n', hvl', hmeta, rfl⟩
    subst htx
    refine ⟨?_, hmax, hmax'⟩
    rw [hhead, Hash256.bytes_ofBytes hkey, ← hrest', ← hrest]
    calc content = content.take 4 ++ content.drop 4 := (List.take_append_drop 4 content).symm
      _ = HASH_PREFIX_TX_NODE ++ content.drop 4 := by rw [hstart]; rfl
  · rintro ⟨rfl, hmax, hmax'⟩
    have hdrop : (tx_leaf_content tx).drop 4 =
        write_vl tx.tx_blob ++ (write_vl tx.meta_blob ++ tx.tx_hash.bytes) := by
      rw [hhead]
      exact List.drop_left' rfl
    obtain ⟨len, n, hvl, hblob, hrest⟩ := read_blob_iff.mpr ⟨hdrop, hmax⟩
    obtain ⟨len', n', hvl', hmeta, hrest'⟩ := read_blob_iff.mpr ⟨hrest, hmax'⟩
    refine ⟨⟨?_, by rw [hhead]; rfl⟩, len, n, hvl, _, hblob, len', n', hvl', _, hmeta, (), ?_, ?_⟩
    · rw [hhead]
      simp only [List.length_append, tx.tx_hash.length_eq]
      show ¬ 4 + _ < 4 + 32
      omega
    · rw [hrest', tx.tx_hash.length_eq]
    · rw [hrest', Hash256.ofBytes_bytes]

/-- The leaf that `build_tx_tree` makes for a record, in whatever list it
    stands, is parsed into the record if its blobs have encodable lengths.
    Every content that is parsed into the record is the content of this
    leaf. -/
theorem tx_leaf_bijection (sha512half : Bytes → Hash256) (tx : TxRecord) :
    ∃ leaf : SHAMapNode,
      (∃ root nodes, build_tx_tree sha512half [tx] = .ok (root, nodes)) ∧
      (∀ (txns : List TxRecord) root nodes (i : Nat), build_tx_tree sha512half txns = .ok (root, nodes) →
        txns[i]? = some tx → nodes[i]? = some leaf) ∧
      (tx.tx_blob.length ≤ 929984 → tx.meta_blob.length ≤ 929984 →
        parse_tx_leaf leaf.content = .ok tx) ∧
      ∀ content, parse_tx_leaf content = .ok tx →
        leaf.content = content ∧ leaf.hash = sha512half content := by
  obtain ⟨⟨root, nodes⟩, hone⟩ :=
    @build_tx_tree_of_distinct sha512half [tx] (List.nodup_singleton tx.tx_hash)
  refine ⟨tx_leaf sha512half tx, ⟨root, nodes, hone⟩, ?_, ?_, ?_⟩
  · intro txns root nodes i hbuild htx
    obtain ⟨t, -, -, hnodes⟩ := build_tx_tree_ok hbuild
    have hlt : i < txns.length := (List.getElem?_eq_some_iff.mp htx).1
    rw [hnodes, List.getElem?_append_left (by rwa [List.length_map]), List.getElem?_map, htx]
    rfl
  · intro hblob hmeta
    exact parse_tx_leaf_iff.mpr ⟨rfl, hblob, hmeta⟩
  · intro content hparse
    have hcontent := (parse_tx_leaf_iff.mp hparse).1
    rw [hcontent]
    exact ⟨rfl, rfl⟩

/-! ## The walk for transactions is the serial walk -/

variable {sha512half : Bytes → Hash256} {get_node : Hash256 → Except Error SHAMapNode}
  {store : Store}

/-- The record a node stands for, when it is a leaf that parses. -/
def SHAMapNode.record (n : SHAMapNode) : Option TxRecord :=
  if n.node_type.is_inner then none else (parse_tx_leaf n.content).toOption

theorem SHAMapNode.record_inner {n : SHAMapNode} (h : n.node_type.is_inner = true) :
    n.record = none := by
  unfold record
  rw [if_pos h]

theorem SHAMapNode.record_leaf {n : SHAMapNode} {tx : TxRecord}
    (h : n.node_type.is_inner = false) (hparse : parse_tx_leaf n.content = .ok tx) :
    n.record = some tx := by
  unfold record
  rw [if_neg (by simp [h]), hparse]
  rfl

/-- `collect_reachable` only ever appends to its result. -/
theorem collect_reachable_loop_extends {fuel : Nat} {stack visited : List Hash256}
    {result final : List SHAMapNode}
    (h : collect_reachable_loop get_node fuel stack visited result = .ok final) :
    result ⊆ final := by
  induction fuel generalizing stack visited result with
  | zero => cases h
  | succ fuel ih =>
    cases stack with
    | nil =>
      cases h
      exact List.Subset.refl _
    | cons hash stack =>
      unfold collect_reachable_loop at h
      by_cases hseen : hash ∈ visited
      · rw [if_pos hseen] at h
        exact ih h
      · rw [if_neg hseen] at h
        obtain ⟨node, -, h⟩ := bind_eq_ok.mp h
        have hextends : ∀ stack', collect_reachable_loop get_node fuel stack' (hash :: visited)
            (result ++ [node]) = .ok final → result ⊆ final :=
          fun stack' h' => List.Subset.trans (List.subset_append_left _ _) (ih h')
        by_cases hin : node.node_type.is_inner = true
        · rw [if_pos hin] at h
          obtain ⟨inner, -, h⟩ := bind_eq_ok.mp h
          exact hextends _ h
        · rw [if_neg hin] at h
          exact hextends _ h

/-- `collect_transactions` goes where `collect_reachable` goes, and keeps
    the records of the leaves. -/
theorem collect_transactions_loop_ok {fuel : Nat} {stack visited : List Hash256}
    {result final : List SHAMapNode}
    (h : collect_reachable_loop get_node fuel stack visited result = .ok final)
    (hleaf : ∀ n ∈ final, n.node_type.is_inner = false → ∃ tx, parse_tx_leaf n.content = .ok tx) :
    collect_transactions_loop get_node fuel stack visited (result.filterMap SHAMapNode.record) =
      .ok (final.filterMap SHAMapNode.record) := by
  induction fuel generalizing stack visited result with
  | zero => cases h
  | succ fuel ih =>
    cases stack with
    | nil =>
      cases h
      rfl
    | cons hash stack =>
      unfold collect_reachable_loop at h
      unfold collect_transactions_loop
      by_cases hseen : hash ∈ visited
      · rw [if_pos hseen] at h ⊢
        exact ih h
      · rw [if_neg hseen] at h ⊢
        obtain ⟨node, hget, h⟩ := bind_eq_ok.mp h
        refine bind_eq_ok.mpr ⟨node, hget, ?_⟩
        by_cases hin : node.node_type.is_inner = true
        · rw [if_pos hin] at h ⊢
          obtain ⟨inner, hparse, h⟩ := bind_eq_ok.mp h
          refine bind_eq_ok.mpr ⟨inner, hparse, ?_⟩
          have hrest := ih h
          rwa [List.filterMap_append, List.filterMap_cons_none (SHAMapNode.record_inner hin),
            List.filterMap_nil, List.append_nil] at hrest
        · have hout : node.node_type.is_inner = false := by simpa using hin
          rw [if_neg hin] at h ⊢
          have hmem : node ∈ final := collect_reachable_loop_extends h (by simp)
          obtain ⟨tx, htx⟩ := hleaf node hmem hout
          refine bind_eq_ok.mpr ⟨tx, htx, ?_⟩
          have hrest := ih h
          rwa [List.filterMap_append, List.filterMap_cons_some (SHAMapNode.record_leaf hout htx),
            List.filterMap_nil] at hrest

/-! ## Stored trees -/

/-- The child hashes of an inner node, the zero hash for an empty slot. -/
def InnerNode.slots (inner : InnerNode) : List Hash256 :=
  (List.finRange 16).map fun i => (inner.children i).getD ZERO_HASH

/-- The store holds the tree `t` under the hash `h`, and every hash is that
    of the node under it. The zero hash names the empty tree. -/
def StoredTree (sha512half : Bytes → Hash256) (store : Store) :
    Radix 16 TxRecord → Hash256 → Prop
  | .empty, h => h = ZERO_HASH
  | .leaf tx, h => h ≠ ZERO_HASH ∧ ∃ n, store h = some n ∧ n.node_type.is_inner = false ∧
      parse_tx_leaf n.content = .ok tx ∧ h = sha512half n.content
  | .node kids, h => h ≠ ZERO_HASH ∧ ∃ n inner, store h = some n ∧
      InnerNode.from_node n = .ok inner ∧ h = (inner_node sha512half inner.slots).hash ∧
      ∀ i, StoredTree sha512half store (kids i) ((inner.children i).getD ZERO_HASH)

theorem StoredTree.hash_eq {t : Radix 16 TxRecord} {h : Hash256}
    (ht : StoredTree sha512half store t h) : h = tree_hash sha512half t := by
  induction t generalizing h with
  | empty => exact ht
  | leaf tx =>
    obtain ⟨-, n, -, -, hparse, hh⟩ := ht
    rw [hh, (parse_tx_leaf_iff.mp hparse).1]
    rfl
  | node kids ih =>
    obtain ⟨-, n, inner, -, -, hh, hkids⟩ := ht
    have hslots : inner.slots = (List.finRange 16).map fun i => tree_hash sha512half (kids i) :=
      List.map_congr_left fun i _ => ih i (hkids i)
    rw [hh, hslots]
    rfl

/-! ## A tree is walked without meeting a hash twice -/

/-- The record under a hash. -/
def Store.record (store : Store) (h : Hash256) : Option TxRecord :=
  (store h).bind SHAMapNode.record

/-- `visit` is the walk of the tree `t` in the store: it meets the items of
    the tree in order, no hash twice, and above a leaf each time. All its
    leaves parse. -/
structure TreeVisit (store : Store) (t : Radix 16 TxRecord) (h : Hash256) (visit : List Hash256) :
    Prop where
  tree : TreeAt store h visit
  items : visit.filterMap store.record = t.items
  nodup : visit.Nodup
  leaf_below : ∀ x ∈ visit, ∃ v, Walks store.refs [x] v ∧ v.filterMap store.record ≠ []
  parses : ∀ x ∈ visit, ∀ n, store x = some n → n.node_type.is_inner = false →
    ∃ tx, parse_tx_leaf n.content = .ok tx

/-- A node is not met below itself. -/
theorem head_not_mem {h : Hash256} {v : List Hash256} (hw : Walks store.refs [h] (h :: v)) :
    h ∉ v := by
  obtain ⟨cs, v', hcs, hv', heq⟩ := Walks.single_iff.mp hw
  obtain rfl := (List.cons.inj heq).2
  intro hmem
  obtain ⟨w, hw', hsub⟩ := hv'.sub_walk h hmem
  rw [hw'.unique hw] at hsub
  have hle := hsub.length_le
  simp at hle

/-- The walk over the children, one slot after the other. -/
theorem walks_slots {children : Fin 16 → Option Hash256} (hnz : ∀ i, children i ≠ some ZERO_HASH)
    {v : Fin 16 → List Hash256} (hv : ∀ i, TreeAt store ((children i).getD ZERO_HASH) (v i))
    (l : List (Fin 16)) : Walks store.refs (l.filterMap children) (l.flatMap v) := by
  induction l with
  | nil => exact .done
  | cons i l ih =>
    rw [List.flatMap_cons]
    have hi := hv i
    cases hc : children i with
    | none =>
      rw [hc] at hi
      rw [List.filterMap_cons_none hc]
      rcases hi with ⟨-, hnil⟩ | ⟨hne, -⟩
      · rwa [hnil, List.nil_append]
      · exact absurd rfl hne
    | some c =>
      rw [hc] at hi
      rw [List.filterMap_cons_some hc]
      rcases hi with ⟨hz, -⟩ | ⟨-, hw⟩
      · exact absurd (hc.trans (congrArg some hz)) (hnz i)
      · exact Walks.cons_iff.mpr ⟨_, _, rfl, hw, ih⟩

/-- Below a hash that is met there are items of the tree, and no others. -/
theorem TreeVisit.items_below {t : Radix 16 TxRecord} {h x : Hash256} {visit : List Hash256}
    (hv : TreeVisit store t h visit) (hx : x ∈ visit) :
    ∃ w, Walks store.refs [x] w ∧ w.filterMap store.record ≠ [] ∧
      ∀ tx ∈ w.filterMap store.record, tx ∈ t.items := by
  obtain ⟨w, hw, hleaf⟩ := hv.leaf_below x hx
  refine ⟨w, hw, hleaf, fun tx htx => ?_⟩
  rcases hv.tree with ⟨-, rfl⟩ | ⟨-, hwalk⟩
  · cases hx
  · obtain ⟨w', hw', hsub⟩ := hwalk.sub_walk x hx
    rw [hw.unique hw'] at htx
    rw [← hv.items]
    exact (hsub.filterMap store.record).subset htx

/-- A node whose items sit in the slots their digits name. -/
theorem TreeVisit.node {kids : Fin 16 → Radix 16 TxRecord} {h : Hash256} {n : SHAMapNode}
    {inner : InnerNode} {v : Fin 16 → List Hash256} {d : Nat} (hne : h ≠ ZERO_HASH)
    (hn : store h = some n) (hin : InnerNode.from_node n = .ok inner)
    (hkids : ∀ i, TreeVisit store (kids i) ((inner.children i).getD ZERO_HASH) (v i))
    (hdigit : ∀ i, ∀ tx ∈ (kids i).items, tx_digit d tx = i)
    (hitems : (Radix.node kids).items ≠ []) :
    TreeVisit store (.node kids) h (h :: (List.finRange 16).flatMap v) := by
  have hinner := InnerNode.from_node_is_inner hin
  have hrefs : store.refs h = some inner.child_hashes := by
    unfold Store.refs
    rw [hn]
    exact (SHAMapNode.refs_inner hinner).mpr ⟨inner, hin, rfl⟩
  have hslots := walks_slots (InnerNode.from_node_nonzero hin) (fun i => (hkids i).tree)
    (List.finRange 16)
  have hwalk : Walks store.refs [h] (h :: (List.finRange 16).flatMap v) :=
    Walks.single_iff.mpr ⟨_, _, hrefs, hslots, rfl⟩
  have hrecord : store.record h = none := by
    unfold Store.record
    rw [hn]
    exact SHAMapNode.record_inner hinner
  have hall : (h :: (List.finRange 16).flatMap v).filterMap store.record =
      (Radix.node kids).items := by
    rw [List.filterMap_cons_none hrecord, List.filterMap_flatMap]
    show _ = (List.finRange 16).flatMap fun i => (kids i).items
    exact List.flatMap_congr fun i _ => (hkids i).items
  refine ⟨.inr ⟨hne, hwalk⟩, hall, ?_, ?_, ?_⟩
  · rw [List.nodup_cons]
    refine ⟨head_not_mem hwalk, List.nodup_flatMap.mpr ⟨fun i _ => (hkids i).nodup, ?_⟩⟩
    -- A hash met in two slots has a leaf below it, whose digit names both.
    refine (List.nodup_finRange 16).imp fun {i j} hij x hxi hxj => hij ?_
    obtain ⟨w, hw, hleaf, hi⟩ := (hkids i).items_below hxi
    obtain ⟨w', hw', -, hj⟩ := (hkids j).items_below hxj
    rw [hw'.unique hw] at hj
    obtain ⟨tx, htx⟩ := List.exists_mem_of_ne_nil _ hleaf
    exact (hdigit i tx (hi tx htx)).symm.trans (hdigit j tx (hj tx htx))
  · intro x hx
    rcases List.mem_cons.mp hx with rfl | hx
    · exact ⟨_, hwalk, by rw [hall]; exact hitems⟩
    · obtain ⟨i, -, hxi⟩ := List.mem_flatMap.mp hx
      exact (hkids i).leaf_below x hxi
  · intro x hx m hm hout
    rcases List.mem_cons.mp hx with rfl | hx
    · rw [hn, Option.some.injEq] at hm
      rw [← hm, hinner] at hout
      cases hout
    · obtain ⟨i, -, hxi⟩ := List.mem_flatMap.mp hx
      exact (hkids i).parses x hxi m hm hout

theorem TreeVisit.empty : TreeVisit store .empty ZERO_HASH [] :=
  ⟨.inl ⟨rfl, rfl⟩, rfl, .nil, by simp, by simp⟩

theorem TreeVisit.leaf {tx : TxRecord} {h : Hash256} {n : SHAMapNode} (hne : h ≠ ZERO_HASH)
    (hn : store h = some n) (hout : n.node_type.is_inner = false)
    (hparse : parse_tx_leaf n.content = .ok tx) : TreeVisit store (.leaf tx) h [h] := by
  have hrefs : store.refs h = some [] := by
    unfold Store.refs
    rw [hn]
    exact SHAMapNode.refs_leaf hout
  have hwalk : Walks store.refs [h] [h] := .step hrefs .done
  have hrecord : store.record h = some tx := by
    unfold Store.record
    rw [hn]
    exact SHAMapNode.record_leaf hout hparse
  have hitems : [h].filterMap store.record = [tx] := by
    rw [List.filterMap_cons_some hrecord, List.filterMap_nil]
  refine ⟨.inr ⟨hne, hwalk⟩, hitems, List.nodup_singleton h, ?_, ?_⟩
  · intro x hx
    rw [List.mem_singleton.mp hx]
    exact ⟨[h], hwalk, by rw [hitems]; simp⟩
  · intro x hx m hm _
    rw [List.mem_singleton.mp hx, hn, Option.some.injEq] at hm
    exact ⟨tx, hm ▸ hparse⟩

/-- Every stored tree in canonical form has its visit. -/
theorem StoredTree.visit {t : Radix 16 TxRecord} {h : Hash256} {d : Nat}
    (ht : StoredTree sha512half store t h) (hc : Radix.Canonical tx_digit d t) :
    ∃ visit, TreeVisit store t h visit := by
  induction t generalizing d h with
  | empty =>
    rw [show h = ZERO_HASH from ht]
    exact ⟨[], .empty⟩
  | leaf tx =>
    obtain ⟨hne, n, hn, hout, hparse, -⟩ := ht
    exact ⟨[h], .leaf hne hn hout hparse⟩
  | node kids ih =>
    obtain ⟨hne, n, inner, hn, hin, -, hkids⟩ := ht
    obtain ⟨hlen, hslots⟩ := hc
    choose v hv using fun i => ih i (hkids i) (hslots i).2
    refine ⟨_, .node hne hn hin hv (fun i => (hslots i).1) fun hnil => ?_⟩
    rw [hnil] at hlen
    simp at hlen

/-- A stored transaction tree: the root is an inner node with at least one
    transaction below it, and the tree is in canonical form. -/
structure StoredTxTree (sha512half : Bytes → Hash256) (store : Store) (root : Hash256)
    (kids : Fin 16 → Radix 16 TxRecord) : Prop where
  stored : StoredTree sha512half store (.node kids) root
  canonical : Radix.CanonicalRoot tx_digit kids
  nonempty : (Radix.node kids).items ≠ []

theorem StoredTxTree.visit {root : Hash256} {kids : Fin 16 → Radix 16 TxRecord}
    (h : StoredTxTree sha512half store root kids) :
    ∃ visit, TreeVisit store (.node kids) root visit := by
  obtain ⟨hne, n, inner, hn, hin, -, hkids⟩ := h.stored
  choose v hv using fun i => (hkids i).visit (h.canonical i).2
  exact ⟨_, .node hne hn hin hv (fun i => (h.canonical i).1) h.nonempty⟩

/-! ## Collecting the records of a tree -/

/-- A walk that meets the items of a tree returns them sorted by key. -/
theorem TreeVisit.collect {t : Radix 16 TxRecord} {root : Hash256} {visit : List Hash256}
    {fuel : Nat} (hv : TreeVisit store t root visit) (hs : Serves get_node store visit)
    (hfuel : visit.length < fuel) (hnd : (t.items.map TxRecord.tx_hash).Nodup)
    (hne : root ≠ ZERO_HASH) :
    collect_transactions get_node fuel root = .ok (sort_txns t.items) := by
  have hw : Walks store.refs [root] visit := (hv.tree.resolve_left fun h => hne h.1).2
  obtain ⟨nodes, hcollect, hperm, hstored⟩ := collect_reachable_ok hw hs hv.nodup hfuel
  have hparses : ∀ n ∈ nodes, n.node_type.is_inner = false →
      ∃ tx, parse_tx_leaf n.content = .ok tx := by
    intro n hn hout
    have hmet : n.hash ∈ visit := hperm.mem_iff.mp (List.mem_map_of_mem hn)
    exact hv.parses n.hash hmet n (hstored n hn) hout
  have hloop := collect_transactions_loop_ok hcollect hparses
  -- The records of the nodes are the items of the tree, in another order.
  have hrecords : (nodes.filterMap SHAMapNode.record).Perm t.items := by
    have hhash : nodes.filterMap SHAMapNode.record =
        (nodes.map SHAMapNode.hash).filterMap store.record := by
      rw [List.filterMap_map]
      apply List.filterMap_congr
      intro n hn
      show _ = (store n.hash).bind SHAMapNode.record
      rw [hstored n hn]
      rfl
    rw [hhash, ← hv.items]
    exact hperm.filterMap _
  unfold collect_transactions
  rw [if_neg hne]
  refine bind_eq_ok.mpr ⟨_, hloop, ?_⟩
  rw [pure_eq_ok]
  exact insertionSort_key_perm hrecords
    ((hrecords.map TxRecord.tx_hash).nodup_iff.mpr hnd)

/-! ## From the list to the tree and back -/

/-- An inner node over 16 hashes is parsed into these hashes. -/
theorem from_node_inner_node {hashes : Fin 16 → Hash256} :
    ∃ inner, InnerNode.from_node (inner_node sha512half ((List.finRange 16).map hashes)) =
        .ok inner ∧ ∀ i, (inner.children i).getD ZERO_HASH = hashes i := by
  have hlen : (((List.finRange 16).map hashes).flatMap Hash256.bytes).length = 16 * 32 :=
    @inner_node_length sha512half ((List.finRange 16).map hashes) (by simp)
  have hslot : ∀ i, Hash256.ofBytes (InnerNode.slot_bytes
      (((List.finRange 16).map hashes).flatMap Hash256.bytes) i) = hashes i := by
    intro i
    rw [@slot_bytes_flatMap _ i (hashes i) (by simp), Hash256.ofBytes_bytes]
  show ∃ inner, InnerNode.from_full_bytes (((List.finRange 16).map hashes).flatMap Hash256.bytes) =
    .ok inner ∧ _
  unfold InnerNode.from_full_bytes
  rw [if_neg (not_not.mpr hlen)]
  refine ⟨_, rfl, fun i => ?_⟩
  simp only [hslot]
  split
  · rfl
  · next hz => exact (not_not.mp hz).symm

/-- A store that holds the nodes of a tree holds the tree. -/
theorem StoredTree.of_nodes {t : Radix 16 TxRecord}
    (hstore : ∀ n ∈ tree_nodes sha512half t, store n.hash = some n)
    (hne : ∀ n ∈ tree_nodes sha512half t, n.hash ≠ ZERO_HASH)
    (henc : ∀ tx ∈ t.items, tx.Encodable) :
    StoredTree sha512half store t (tree_hash sha512half t) := by
  induction t with
  | empty => rfl
  | leaf tx =>
    have hmem : tx_leaf sha512half tx ∈ tree_nodes sha512half (.leaf tx) := by
      apply List.mem_append_left
      exact List.mem_map_of_mem (List.mem_singleton.mpr rfl)
    exact ⟨hne _ hmem, _, hstore _ hmem, rfl,
      parse_tx_leaf_iff.mpr ⟨rfl, henc tx (List.mem_singleton.mpr rfl)⟩, rfl⟩
  | node kids ih =>
    obtain ⟨inner, hin, hslots⟩ :=
      @from_node_inner_node sha512half fun i => tree_hash sha512half (kids i)
    have hmem : inner_node sha512half ((List.finRange 16).map fun i =>
        tree_hash sha512half (kids i)) ∈ tree_nodes sha512half (.node kids) := by
      apply List.mem_append_right
      exact List.mem_append_right _ (List.mem_singleton.mpr rfl)
    refine ⟨hne _ hmem, _, inner, hstore _ hmem, hin, ?_, fun i => ?_⟩
    · unfold InnerNode.slots
      simp only [hslots]
      rfl
    · rw [hslots]
      apply ih i
      · exact fun n hn => hstore n (tree_nodes_kid i hn)
      · exact fun n hn => hne n (tree_nodes_kid i hn)
      · exact fun tx htx => henc tx (List.mem_flatMap.mpr ⟨i, List.mem_finRange i, htx⟩)

variable {xxh64 : Bytes → UInt64 → UInt64} {lz4 : Bytes → Nat → Option Bytes} {r : NuDBReader}

/-- A reader that finds what the store holds collects the tree's records. -/
theorem StoredTxTree.collect (hr : r.Holds xxh64 lz4 store) {root : Hash256}
    {kids : Fin 16 → Radix 16 TxRecord} (h : StoredTxTree sha512half store root kids)
    (hnd : ((Radix.node kids).items.map TxRecord.tx_hash).Nodup) :
    ∃ fuel₀, ∀ fuel ≥ fuel₀, collect_transactions (r.get_node xxh64 lz4 fuel) fuel root =
      .ok (sort_txns (Radix.node kids).items) := by
  obtain ⟨visit, hv⟩ := h.visit
  obtain ⟨k, hk⟩ := exists_serves hr visit
  refine ⟨max k (visit.length + 1), fun fuel hfuel => ?_⟩
  exact hv.collect (hk fuel (by omega)) (by omega) hnd h.stored.1

theorem StoredTxTree.treeOf {root : Hash256} {kids : Fin 16 → Radix 16 TxRecord}
    (h : StoredTxTree sha512half store root kids) :
    TxTreeOf (Radix.node kids).items (.node kids) :=
  ⟨h.nonempty, h.canonical.splits⟩

/-- A store that holds the nodes of a rebuilt tree holds that tree in
    canonical form. -/
theorem StoredTxTree.of_build {txns : List TxRecord} {root : Hash256} {nodes : List SHAMapNode}
    (hbuild : build_tx_tree sha512half txns = .ok (root, nodes)) (hsome : txns ≠ [])
    (henc : ∀ tx ∈ txns, tx.Encodable) (hne : ∀ n ∈ nodes, n.hash ≠ ZERO_HASH)
    (hstore : ∀ n ∈ nodes, store n.hash = some n) :
    ∃ kids, StoredTxTree sha512half store root kids ∧ (Radix.node kids).items.Perm txns := by
  obtain ⟨t, ht, rfl, rfl⟩ := build_tx_tree_ok hbuild
  cases t with
  | empty => exact absurd ht hsome
  | leaf tx => exact ht.elim
  | node kids =>
    have hitems := ht.items_perm
    -- The nodes are listed with the leaves in the order of the records.
    have hmem : ∀ n, n ∈ tree_nodes sha512half (.node kids) →
        n ∈ txns.map (tx_leaf sha512half) ++ tree_inner_nodes sha512half (.node kids) := by
      intro n hn
      rcases List.mem_append.mp hn with hn | hn
      · exact List.mem_append_left _ ((hitems.map _).mem_iff.mp hn)
      · exact List.mem_append_right _ hn
    refine ⟨kids, ⟨?_, ht.2.canonical, fun hnil => ?_⟩, hitems⟩
    · apply StoredTree.of_nodes
      · exact fun n hn => hstore n (hmem n hn)
      · exact fun n hn => hne n (hmem n hn)
      · exact fun tx htx => henc tx (hitems.mem_iff.mp htx)
    · rw [hnil] at hitems
      exact hsome hitems.symm.eq_nil

/-- The list determines the tree: its root and its nodes, and through them
    the list in the order of its ids. And a stored tree determines the list
    of its records, from which its root is rebuilt. -/
theorem tx_list_determines_tree (sha512half : Bytes → Hash256) (xxh64 : Bytes → UInt64 → UInt64)
    (lz4 : Bytes → Nat → Option Bytes) :
    (∀ txns : List TxRecord, txns ≠ [] → (txns.map TxRecord.tx_hash).Nodup →
      (∀ tx ∈ txns, tx.Encodable) →
      ∃ root nodes, build_tx_tree sha512half txns = .ok (root, nodes) ∧
        (∀ txns', txns'.Perm txns → ∃ nodes',
          build_tx_tree sha512half txns' = .ok (root, nodes') ∧ nodes'.Perm nodes) ∧
        ((∀ n ∈ nodes, n.hash ≠ ZERO_HASH) → ∀ (r : NuDBReader) (store : Store),
          r.Holds xxh64 lz4 store → (∀ n ∈ nodes, store n.hash = some n) →
          ∃ fuel₀, ∀ fuel ≥ fuel₀, collect_transactions (r.get_node xxh64 lz4 fuel) fuel root =
            .ok (sort_txns txns))) ∧
      ∀ (r : NuDBReader) (store : Store) (root : Hash256) (kids : Fin 16 → Radix 16 TxRecord),
        r.Holds xxh64 lz4 store → StoredTxTree sha512half store root kids →
        ∃ fuel₀ txns nodes, (∀ fuel ≥ fuel₀,
          collect_transactions (r.get_node xxh64 lz4 fuel) fuel root = .ok txns) ∧
            build_tx_tree sha512half txns = .ok (root, nodes) := by
  constructor
  · intro txns hsome hnodup henc
    obtain ⟨⟨root, nodes⟩, hbuild⟩ := @build_tx_tree_of_distinct sha512half txns hnodup
    obtain ⟨t, ht, hroot, hnodes⟩ := build_tx_tree_ok hbuild
    refine ⟨root, nodes, hbuild, fun txns' hp => ?_, fun hne r store hr hstore => ?_⟩
    · -- The other order has the same tree.
      have hnodup' := (hp.map TxRecord.tx_hash).nodup_iff.mpr hnodup
      obtain ⟨⟨root', nodes'⟩, hbuild'⟩ := @build_tx_tree_of_distinct sha512half txns' hnodup'
      obtain ⟨t', ht', hroot', hnodes'⟩ := build_tx_tree_ok hbuild'
      obtain rfl := ht'.unique (ht.perm hp.symm)
      rw [hroot, ← hroot']
      refine ⟨nodes', hbuild', ?_⟩
      rw [hnodes, hnodes']
      exact (hp.map _).append_right _
    · obtain ⟨kids, hstored, hitems⟩ := StoredTxTree.of_build hbuild hsome henc hne hstore
      have hkeys := (hitems.map TxRecord.tx_hash).nodup_iff.mpr hnodup
      obtain ⟨fuel₀, hcollect⟩ := hstored.collect hr hkeys
      refine ⟨fuel₀, fun fuel hfuel => ?_⟩
      rw [hcollect fuel hfuel]
      exact congrArg Except.ok (insertionSort_key_perm hitems hkeys)
  · intro r store root kids hr hstored
    have htree := hstored.treeOf
    obtain ⟨fuel₀, hcollect⟩ := hstored.collect hr htree.nodup
    have hsorted := List.perm_insertionSort (fun a b : TxRecord => a.tx_hash ≤ b.tx_hash)
      (Radix.node kids).items
    have hnodup := (hsorted.map TxRecord.tx_hash).nodup_iff.mpr htree.nodup
    obtain ⟨⟨root', nodes⟩, hbuild⟩ := @build_tx_tree_of_distinct sha512half _ hnodup
    refine ⟨fuel₀, _, nodes, hcollect, ?_⟩
    obtain ⟨t, ht, hroot, -⟩ := build_tx_tree_ok hbuild
    obtain rfl := ht.unique (htree.perm hsorted.symm)
    rw [hstored.stored.hash_eq, ← hroot]
    exact hbuild

/-- Two records whose keys share their first nibble. -/
def two_txns : List TxRecord :=
  [⟨Hash256.ofBytes [0x11], [1], [2]⟩, ⟨Hash256.ofBytes [0x10], [3], []⟩]

def two_txns_nodes : List SHAMapNode :=
  match build_tx_tree sha2_sha512half two_txns with
  | .ok (_, nodes) => nodes
  | .error _ => []

theorem two_txns_facts :
    (∀ n ∈ two_txns_nodes, n.hash ≠ ZERO_HASH ∧ nodes_store two_txns_nodes n.hash = some n ∧
      n.node_type.is_exported = true ∧ (n.node_type = .Inner → n.content.length = 512)) ∧
      (written_files Xxh64.digest two_txns_nodes).1.length < 2 ^ 48 := by
  decide +kernel

theorem tx_list_determines_tree_two_txns :
    ∃ root, build_tx_tree sha2_sha512half two_txns = .ok (root, two_txns_nodes) ∧
      (∃ fuel₀, ∀ fuel ≥ fuel₀,
        collect_transactions ((written_reader Xxh64.digest two_txns_nodes).get_node Xxh64.digest
          (fun _ _ => none) fuel) fuel root = .ok (sort_txns two_txns)) ∧
      ∃ fuel₀ txns nodes, (∀ fuel ≥ fuel₀,
        collect_transactions ((written_reader Xxh64.digest two_txns_nodes).get_node Xxh64.digest
          (fun _ _ => none) fuel) fuel root = .ok txns) ∧
        build_tx_tree sha2_sha512half txns = .ok (root, nodes) := by
  obtain ⟨hfacts, hsize⟩ := two_txns_facts
  have hr : (written_reader Xxh64.digest two_txns_nodes).Holds Xxh64.digest (fun _ _ => none)
      (nodes_store two_txns_nodes) :=
    written_reader_holds _ _ _ (fun n hn => (hfacts n hn).2.2) hsize
  have hmain := tx_list_determines_tree sha2_sha512half Xxh64.digest fun _ _ => none
  obtain ⟨root, nodes, hbuild, -, hcollect⟩ :=
    hmain.1 two_txns (by decide) (by decide) (by decide)
  have hnodes : two_txns_nodes = nodes := by
    unfold two_txns_nodes
    rw [hbuild]
  subst hnodes
  have hne : ∀ n ∈ two_txns_nodes, n.hash ≠ ZERO_HASH := fun n hn => (hfacts n hn).1
  have hstore : ∀ n ∈ two_txns_nodes, nodes_store two_txns_nodes n.hash = some n :=
    fun n hn => (hfacts n hn).2.1
  obtain ⟨kids, hstored, -⟩ :=
    StoredTxTree.of_build hbuild (by decide) (by decide) hne hstore
  exact ⟨root, hbuild, hcollect hne _ _ hr hstore, hmain.2 _ _ _ kids hr hstored⟩

end LedgerArchive
