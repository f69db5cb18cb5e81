import LedgerArchive.Import.Checkpoint

/-! # The chain of ledger hashes

    Each verified ledger's hash is that of a header that holds the hash of
    the ledger before it, the root of its rebuilt transaction tree and its
    other fields. Without collisions the hash of a ledger determines all of
    these (`ledger_hash_determines`), and so, walking backwards, it
    determines every ledger before it but the first, whose own header is
    not checked. -/

namespace LedgerArchive

open Lib

/-- The two TX maps are the same ledger: the same fields, and the same
    transactions in whatever order. -/
structure SameLedger (a b : TxMap) : Prop where
  ledger_seq : a.ledger_seq = b.ledger_seq
  ledger_hash : a.ledger_hash = b.ledger_hash
  account_hash : a.account_hash = b.account_hash
  drops : a.drops = b.drops
  parent_close_time : a.parent_close_time = b.parent_close_time
  close_time : a.close_time = b.close_time
  close_time_resolution : a.close_time_resolution = b.close_time_resolution
  close_flags : a.close_flags = b.close_flags
  txns : ∀ tx, tx ∈ a.txns ↔ tx ∈ b.txns

/-! ## One link -/

/-- What verification has established about ledger `m` behind `prev`, with
    everything it has hashed in `S`. -/
structure Link (sha512half : Bytes → Hash256) (S : Set Bytes) (prev m : TxMap)
    (t : Radix 16 TxRecord) : Prop where
  tree : TxTreeOf m.txns t
  inputs : tree_inputs sha512half t ⊆ S
  authentic : ∀ tx ∈ t.items, calculate_tx_id sha512half tx.tx_blob = tx.tx_hash
  header_in : ledger_header_object
    (m.header prev.ledger_hash (tree_hash sha512half t) m.account_hash) ∈ S
  ledger_hash : calculate_ledger_hash sha512half
    (m.header prev.ledger_hash (tree_hash sha512half t) m.account_hash) = m.ledger_hash

section Facts

variable {σ τ : Type} {S : NodeSink σ} {T : TxDb τ} {sha512half : Bytes → Hash256} {fuel : Nat}
  {chunk : Chunk} {out out₁ : Outputs σ τ} {cp : TxMap} {r₀ r₁ : Replay σ τ}
  {res : ReplayResult × Outputs σ τ}

/-- What is hashed for the transaction tree of one of the chunk's ledgers. -/
theorem tree_inputs_hashed {m : TxMap} {root : Hash256} {nodes : List SHAMapNode}
    {t : Radix 16 TxRecord} (hm : m ∈ chunk.tx_maps)
    (hbuild : build_tx_tree sha512half m.txns = .ok (root, nodes)) (ht : TxTreeOf m.txns t)
    (hnodes : nodes = m.txns.map (tx_leaf sha512half) ++ tree_inner_nodes sha512half t) :
    tree_inputs sha512half t ⊆ hashed sha512half chunk := by
  intro x hx
  rcases hx with ⟨tx, htx, hx⟩ | ⟨n, hn, rfl⟩
  · have hmem : tx ∈ m.txns := ht.items_perm.mem_iff.mp htx
    rcases hx with rfl | rfl
    · have hleaf : tx_leaf sha512half tx ∈ nodes := by
        rw [hnodes]
        exact List.mem_append_left _ (List.mem_map_of_mem hmem)
      exact .tx_node hm hbuild hleaf
    · exact .tx_id hm hmem
  · refine .tx_node hm hbuild ?_
    rw [hnodes]
    exact List.mem_append_right _ hn

/-- Every ledger of an accepted chunk but the first is linked to the one
    before it. -/
theorem ReplaySteps.link (h : ReplaySteps S T sha512half fuel chunk true out cp out₁ r₀ r₁ res)
    (hlen : chunk.tx_maps.length = chunk.deltas.length + 1) {i : Nat} {prev m : TxMap}
    (hprev : chunk.tx_maps[i]? = some prev) (hm : chunk.tx_maps[i + 1]? = some m) :
    ∃ t, Link sha512half (hashed sha512half chunk) prev m t := by
  have hi : i < chunk.deltas.length := by
    have := (List.getElem?_eq_some_iff.mp hm).1
    omega
  obtain ⟨prev', m', hprev', hm', r, r', root, nodes, _, _, hv, _, hprevhash⟩ :=
    h.ledger hlen (List.getElem?_eq_getElem hi)
  rw [hprev, Option.some.injEq] at hprev'
  rw [hm, Option.some.injEq] at hm'
  subst hprev'; subst hm'
  obtain ⟨t, ht, hroot, hnodes⟩ := build_tx_tree_ok hv.tree
  refine ⟨t, ht, tree_inputs_hashed (List.mem_of_getElem? hm) hv.tree ht hnodes, ?_, ?_, ?_⟩
  · intro tx htx
    exact hv.authentic tx (ht.items_perm.mem_iff.mp htx)
  · rw [← hroot]
    exact .header hprev hm hv.tree
  · rw [← hroot, ← hprevhash]
    exact hv.ledger_hash

end Facts

variable {sha512half : Bytes → Hash256}

/-- The hash of a verified ledger determines the ledger and the hash of the
    ledger before it. -/
theorem ledger_hash_determines {S : Set Bytes} (hinj : Set.InjOn sha512half S)
    (hne : ∀ x ∈ S, sha512half x ≠ ZERO_HASH) {prev prev' m m' : TxMap} {t t' : Radix 16 TxRecord}
    (hl : Link sha512half S prev m t) (hl' : Link sha512half S prev' m' t')
    (hash_eq : m.ledger_hash = m'.ledger_hash) :
    SameLedger m m' ∧ prev.ledger_hash = prev'.ledger_hash := by
  have hobject : ledger_header_object
        (m.header prev.ledger_hash (tree_hash sha512half t) m.account_hash) =
      ledger_header_object
        (m'.header prev'.ledger_hash (tree_hash sha512half t') m'.account_hash) := by
    apply hinj hl.header_in hl'.header_in
    exact hl.ledger_hash.trans (hash_eq.trans hl'.ledger_hash.symm)
  have hheader := ledger_header_object_inj hobject
  unfold TxMap.header at hheader
  simp only [LedgerHashInput.mk.injEq] at hheader
  obtain ⟨hseq, hdrops, hprev, htree, haccount, hpct, hct, hres, hflags⟩ := hheader
  have htt : t = t' :=
    tree_hash_inj hinj hne hl.inputs hl'.inputs hl.authentic hl'.authentic htree
  have htxns : m.txns.Perm m'.txns := by
    have h1 := hl.tree.items_perm
    have h2 := hl'.tree.items_perm
    rw [← htt] at h2
    exact h1.symm.trans h2
  exact ⟨⟨hseq, hash_eq, haccount, hdrops, hpct, hct, hres, hflags, fun tx => htxns.mem_iff⟩, hprev⟩

/-! ## Walking backwards -/

/-- Position `k` from the end, and the position before it, from the front. -/
theorem reverse_getElem?_succ {α : Type} {l : List α} {k : Nat} {a : α}
    (h : l.reverse[k + 1]? = some a) :
    ∃ i, l[i]? = some a ∧ l.reverse[k]? = l[i + 1]? := by
  have hk : k + 1 < l.length := by
    have := (List.getElem?_eq_some_iff.mp h).1
    rwa [List.length_reverse] at this
  refine ⟨l.length - 1 - (k + 1), ?_, ?_⟩
  · rw [← List.getElem?_reverse hk, h]
  · rw [List.getElem?_reverse (by omega)]
    congr 1
    omega

/-- Two chunks accepted with verification whose last ledgers have the same
    hash: walking both backwards, they hold the same ledgers as far as
    neither has come to its first one, and the hashes just before agree
    too. -/
theorem last_ledger_hash_determines {σ σ' τ τ' : Type} {S : NodeSink σ} {S' : NodeSink σ'}
    {T : TxDb τ} {T' : TxDb τ'} {out : Outputs σ τ} {out' : Outputs σ' τ'} {a b : Chunk}
    {res : ReplayResult × Outputs σ τ} {res' : ReplayResult × Outputs σ' τ'}
    (ha : Replays S T sha512half true out a res) (hb : Replays S' T' sha512half true out' b res')
    (hinj : Set.InjOn sha512half (hashed sha512half a ∪ hashed sha512half b))
    (hne : ∀ x ∈ hashed sha512half a ∪ hashed sha512half b, sha512half x ≠ ZERO_HASH)
    (hlast : a.tx_maps.getLast?.map TxMap.ledger_hash = b.tx_maps.getLast?.map TxMap.ledger_hash)
    {k : Nat} {ma mb pa pb : TxMap} (hma : a.tx_maps.reverse[k]? = some ma)
    (hmb : b.tx_maps.reverse[k]? = some mb) (hpa : a.tx_maps.reverse[k + 1]? = some pa)
    (hpb : b.tx_maps.reverse[k + 1]? = some pb) :
    SameLedger ma mb ∧ pa.ledger_hash = pb.ledger_hash := by
  obtain ⟨hlena, _, _, _, _, _, hsa⟩ := ha.steps
  obtain ⟨hlenb, _, _, _, _, _, hsb⟩ := hb.steps
  -- One step back, from equal hashes.
  have hstep : ∀ (k : Nat) (ma mb pa pb : TxMap), a.tx_maps.reverse[k]? = some ma → b.tx_maps.reverse[k]? = some mb →
      a.tx_maps.reverse[k + 1]? = some pa → b.tx_maps.reverse[k + 1]? = some pb →
      ma.ledger_hash = mb.ledger_hash → SameLedger ma mb ∧ pa.ledger_hash = pb.ledger_hash := by
    intro k ma mb pa pb hma hmb hpa hpb heq
    obtain ⟨i, hi, hi'⟩ := reverse_getElem?_succ hpa
    obtain ⟨j, hj, hj'⟩ := reverse_getElem?_succ hpb
    obtain ⟨t, hla⟩ := hsa.link hlena hi (hi' ▸ hma)
    obtain ⟨t', hlb⟩ := hsb.link hlenb hj (hj' ▸ hmb)
    exact ledger_hash_determines hinj hne
      ⟨hla.tree, hla.inputs.trans Set.subset_union_left, hla.authentic, .inl hla.header_in,
        hla.ledger_hash⟩
      ⟨hlb.tree, hlb.inputs.trans Set.subset_union_right, hlb.authentic, .inr hlb.header_in,
        hlb.ledger_hash⟩ heq
  -- The hashes at position `k` agree, by induction from the end.
  have hhash : ∀ (k : Nat) (ma mb : TxMap), a.tx_maps.reverse[k]? = some ma → b.tx_maps.reverse[k]? = some mb →
      ma.ledger_hash = mb.ledger_hash := by
    intro k
    induction k with
    | zero =>
      intro ma mb hma hmb
      rw [← List.head?_eq_getElem?, List.head?_reverse] at hma hmb
      rw [hma, hmb] at hlast
      exact Option.some.inj hlast
    | succ k ih =>
      intro ma mb hma hmb
      have hka : k < a.tx_maps.reverse.length := by
        have := (List.getElem?_eq_some_iff.mp hma).1
        omega
      have hkb : k < b.tx_maps.reverse.length := by
        have := (List.getElem?_eq_some_iff.mp hmb).1
        omega
      have ha' := List.getElem?_eq_getElem hka
      have hb' := List.getElem?_eq_getElem hkb
      exact (hstep k _ _ ma mb ha' hb' hma hmb (ih _ _ ha' hb')).2
  exact hstep k ma mb pa pb hma hmb hpa hpb (hhash k ma mb hma hmb)

/-! ## Two chunks that end alike -/

def one_tx : TxRecord :=
  { tx_hash := sha2_sha512half (HASH_PREFIX_TRANSACTION_ID ++ [2]), tx_blob := [2],
    meta_blob := [3] }

/-- The root node of the transaction tree of `one_tx`. -/
def one_tx_root : SHAMapNode :=
  inner_node sha2_sha512half ((List.finRange 16).map fun i =>
    if i = tx_digit 0 one_tx then (tx_leaf sha2_sha512half one_tx).hash else ZERO_HASH)

/-- Ledger 8 with one transaction, behind a ledger of hash zero. -/
def one_tx_ledger : TxMap :=
  let m := { empty_tx_map 8 ZERO_HASH lone_account.hash with txns := [one_tx] }
  { m with
    ledger_hash := calculate_ledger_hash sha2_sha512half
      (m.header ZERO_HASH one_tx_root.hash lone_account.hash) }

/-- Ledgers 7 and 8. The first ledger's header is not checked, so any
    number of drops passes. -/
def two_ledger_chunk (drops : UInt64) : Chunk :=
  { chunk_of_checkpoint [lone_account] lone_account.hash with
    end_ledger := 8
    deltas := [{ ledger_seq := 8, diff := { added := [], deleted := [] } }]
    tx_maps := [{ empty_tx_map 7 ZERO_HASH lone_account.hash with drops }, one_tx_ledger] }

theorem one_tx_tree : build_tx_tree sha2_sha512half [one_tx] =
    .ok (one_tx_root.hash, [tx_leaf sha2_sha512half one_tx, one_tx_root]) := by
  decide +kernel

/-- Everything hashed for one of these chunks. -/
def two_ledger_inputs : List Bytes :=
  [[1], HASH_PREFIX_TRANSACTION_ID ++ [2], tx_leaf_content one_tx,
    HASH_PREFIX_INNER_NODE ++ one_tx_root.content,
    ledger_header_object (one_tx_ledger.header ZERO_HASH one_tx_root.hash lone_account.hash)]

theorem two_ledger_hashed (drops : UInt64) :
    ∀ x ∈ hashed sha2_sha512half (two_ledger_chunk drops), x ∈ two_ledger_inputs := by
  intro x hx
  have hmaps : ∀ m ∈ (two_ledger_chunk drops).tx_maps, m.txns = [] ∨ m.txns = [one_tx] := by
    intro m hm
    rcases List.mem_cons.mp hm with rfl | hm
    · exact .inl rfl
    · rw [List.mem_singleton.mp hm]
      exact .inr rfl
  cases hx with
  | @checkpoint n hn =>
    rw [List.mem_singleton.mp hn]
    exact List.mem_cons_self
  | @added d n hd hn =>
    rw [List.mem_singleton.mp hd] at hn
    cases hn
  | @tx_id m tx hm htx =>
    rcases hmaps m hm with hnil | hone
    · rw [hnil] at htx
      cases htx
    · rw [hone] at htx
      rw [List.mem_singleton.mp htx]
      exact List.mem_cons_of_mem _ List.mem_cons_self
  | @tx_node m root nodes n hm htree hn =>
    rcases hmaps m hm with hnil | hone
    · rw [hnil] at htree
      cases htree
      cases hn
    · rw [hone, one_tx_tree, Except.ok.injEq, Prod.mk.injEq] at htree
      rw [← htree.2] at hn
      rcases List.mem_cons.mp hn with rfl | hn
      · exact List.mem_cons_of_mem _ (List.mem_cons_of_mem _ List.mem_cons_self)
      · rw [List.mem_singleton.mp hn]
        exact List.mem_cons_of_mem _ (List.mem_cons_of_mem _ (List.mem_cons_of_mem _
          List.mem_cons_self))
  | @header i prev m root nodes hprev hm htree =>
    match i with
    | 0 =>
      cases hprev
      cases hm
      have htree' : build_tx_tree sha2_sha512half [one_tx] = .ok (root, nodes) := htree
      rw [one_tx_tree, Except.ok.injEq, Prod.mk.injEq] at htree'
      rw [← htree'.1]
      exact List.mem_cons_of_mem _ (List.mem_cons_of_mem _ (List.mem_cons_of_mem _
        (List.mem_cons_of_mem _ List.mem_cons_self)))
    | i + 1 => simp [two_ledger_chunk] at hm

/-- Both chunks are accepted, and their hashes differ from each other and
    from zero. -/
theorem two_ledger_facts :
    (replay_chunk NullSink NoTxDb sha2_sha512half 2 (two_ledger_chunk 1) true
        ⟨(), none, []⟩).toOption.isSome = true ∧
      (replay_chunk NullSink NoTxDb sha2_sha512half 2 (two_ledger_chunk 2) true
        ⟨(), none, []⟩).toOption.isSome = true ∧
      (two_ledger_inputs.map sha2_sha512half).Nodup ∧
      ∀ x ∈ two_ledger_inputs, sha2_sha512half x ≠ ZERO_HASH := by
  decide +kernel

theorem two_ledger_chunks_same_end :
    SameLedger one_tx_ledger one_tx_ledger ∧
      ({ empty_tx_map 7 ZERO_HASH lone_account.hash with drops := 1 } : TxMap).ledger_hash =
        ({ empty_tx_map 7 ZERO_HASH lone_account.hash with drops := 2 } : TxMap).ledger_hash := by
  obtain ⟨hreplay, hreplay', hnodup, hnonzero⟩ := two_ledger_facts
  obtain ⟨res, ha⟩ : ∃ res, Replays NullSink NoTxDb sha2_sha512half true ⟨(), none, []⟩
      (two_ledger_chunk 1) res := replays_of_isSome 2 rfl hreplay
  obtain ⟨res', hb⟩ : ∃ res, Replays NullSink NoTxDb sha2_sha512half true ⟨(), none, []⟩
      (two_ledger_chunk 2) res := replays_of_isSome 2 rfl hreplay'
  have hmem : ∀ x ∈ hashed sha2_sha512half (two_ledger_chunk 1) ∪
      hashed sha2_sha512half (two_ledger_chunk 2), x ∈ two_ledger_inputs := by
    intro x hx
    exact hx.elim (two_ledger_hashed 1 x) (two_ledger_hashed 2 x)
  exact last_ledger_hash_determines ha hb (injOn_of_nodup two_ledger_inputs hmem hnodup)
    (fun x hx => hnonzero x (hmem x hx)) rfl (k := 0) rfl rfl rfl rfl

end LedgerArchive
