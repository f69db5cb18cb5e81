import LedgerArchive.Nudb.Collect

/-! # What a diff lists

    Two trees share the subtrees that stand at the same position of both.
    The diff of the trees lists the rest: what the new tree visits outside
    the common part is added, what the old one visits outside of it is
    deleted (`Moves`). The lists follow positions, so a node that changes
    its level is in both; on trees without a repeated node each list is
    free of repetitions all the same, and applying the diff to the map of
    the old tree yields the map of the new one (`DiffOf.apply`). -/

namespace LedgerArchive

open Lib

variable {get_node : Hash256 → Except Error SHAMapNode} {store : Store}
  {root h : Hash256} {visit visit' : List Hash256}

/-! ## Growing a diff -/

/-- `d'` is `d` and the changes from the tree visited by `old` to the one
    visited by `new`: both consist of the nodes listed and of a common
    part. -/
def Moves (store : Store) (d d' : SHAMapDiff) (old new : List Hash256) : Prop :=
  ∃ nodes hashes common, d' = { added := d.added ++ nodes, deleted := d.deleted ++ hashes } ∧
    old.Perm (hashes ++ common) ∧ new.Perm (nodes.map SHAMapNode.hash ++ common) ∧
    ∀ n ∈ nodes, store n.hash = some n

variable {d d₁ d₂ : SHAMapDiff} {old old' new new' : List Hash256}

theorem Moves.refl (d : SHAMapDiff) (common : List Hash256) : Moves store d d common common :=
  ⟨[], [], common, by simp, .refl _, .refl _, fun n hn => by cases hn⟩

theorem Moves.append (h : Moves store d d₁ old new) (h' : Moves store d₁ d₂ old' new') :
    Moves store d d₂ (old ++ old') (new ++ new') := by
  obtain ⟨nodes, hashes, common, rfl, ho, hn, hst⟩ := h
  obtain ⟨nodes', hashes', common', rfl, ho', hn', hst'⟩ := h'
  refine ⟨nodes ++ nodes', hashes ++ hashes', common ++ common', by simp, ?_, ?_, ?_⟩
  · rw [List.perm_iff_count] at ho ho' ⊢
    intro a
    have h1 := ho a
    have h2 := ho' a
    simp only [List.count_append] at h1 h2 ⊢
    omega
  · rw [List.perm_iff_count] at hn hn' ⊢
    intro a
    have h1 := hn a
    have h2 := hn' a
    simp only [List.map_append, List.count_append] at h1 h2 ⊢
    omega
  · intro n hn
    rcases List.mem_append.mp hn with hn | hn
    · exact hst n hn
    · exact hst' n hn

theorem Moves.add (h : Moves store d d₁ old new) {n : SHAMapNode} (hn : store n.hash = some n) :
    Moves store d { d₁ with added := d₁.added ++ [n] } old (n.hash :: new) := by
  obtain ⟨nodes, hashes, common, rfl, ho, hp, hst⟩ := h
  refine ⟨nodes ++ [n], hashes, common, by simp, ho, ?_, ?_⟩
  · rw [List.perm_iff_count] at hp ⊢
    intro a
    have h1 := hp a
    simp only [List.map_append, List.map_cons, List.map_nil, List.count_append, List.count_cons,
      List.count_nil] at h1 ⊢
    omega
  · intro m hm
    rcases List.mem_append.mp hm with hm | hm
    · exact hst m hm
    · rw [List.mem_singleton.mp hm]
      exact hn

theorem Moves.delete (h : Moves store d d₁ old new) (hash : Hash256) :
    Moves store d { d₁ with deleted := d₁.deleted ++ [hash] } (hash :: old) new := by
  obtain ⟨nodes, hashes, common, rfl, ho, hp, hst⟩ := h
  refine ⟨nodes, hashes ++ [hash], common, by simp, ?_, hp, hst⟩
  rw [List.perm_iff_count] at ho ⊢
  intro a
  have h1 := ho a
  simp only [List.count_append, List.count_cons, List.count_nil] at h1 ⊢
  omega

/-! ## Collecting a subtree -/

/-- Both collectors loop over the children of a node. -/
theorem children_moves {f : SHAMapDiff → Hash256 → Except Error SHAMapDiff}
    {side : List Hash256 → List Hash256 × List Hash256} (hnil : side [] = ([], []))
    (happ : ∀ v v', side (v ++ v') = ((side v).1 ++ (side v').1, (side v).2 ++ (side v').2))
    {cs : List Hash256} {k : Nat} (hw : Walks store.refs cs visit) (hk : visit.length < k)
    (hf : ∀ c v d, c ∈ cs → v ⊆ visit → Walks store.refs [c] v → v.length < k →
      ∃ d', f d c = .ok d' ∧ Moves store d d' (side v).1 (side v).2) :
    ∃ d', cs.foldlM f d = .ok d' ∧ Moves store d d' (side visit).1 (side visit).2 := by
  induction cs generalizing d visit with
  | nil =>
    cases hw
    rw [hnil]
    exact ⟨d, rfl, .refl d []⟩
  | cons c cs ih =>
    obtain ⟨v, v', rfl, hw1, hw2⟩ := Walks.cons_iff.mp hw
    rw [List.length_append] at hk
    obtain ⟨d₁, h1, hm1⟩ := hf c v d List.mem_cons_self (List.subset_append_left v v') hw1 (by omega)
    obtain ⟨d₂, h2, hm2⟩ := @ih v' d₁ hw2 (by omega) fun c' w d hc' hsub =>
      hf c' w d (List.mem_cons_of_mem c hc') (List.Subset.trans hsub (List.subset_append_right v v'))
    refine ⟨d₂, foldlM_cons_ok.mpr ⟨d₁, h1, h2⟩, ?_⟩
    rw [happ]
    exact hm1.append hm2

/-- Every node of the subtree is added. -/
theorem collect_added_moves {fuel : Nat} (ht : TreeAt store root visit)
    (hs : Serves get_node store visit) (hfuel : visit.length < fuel) :
    ∃ d', collect_added get_node fuel root d = .ok d' ∧ Moves store d d' [] visit := by
  induction fuel generalizing root visit d with
  | zero => omega
  | succ fuel ih =>
    unfold collect_added
    by_cases hz : root = ZERO_HASH
    · rw [if_pos hz, ht.unique (.inl ⟨hz, rfl⟩)]
      exact ⟨d, rfl, .refl d []⟩
    · rw [if_neg hz]
      obtain ⟨node, cs, v, hn, hrefs, hw, rfl⟩ := ht.node hz
      obtain ⟨hget, rfl⟩ := hs root List.mem_cons_self node hn
      rw [List.length_cons] at hfuel
      by_cases hin : node.node_type.is_inner = true
      · obtain ⟨inner, hparse, rfl⟩ := (SHAMapNode.refs_inner hin).mp hrefs
        obtain ⟨d', hd', hm⟩ := @children_moves store _ d
          (fun d c => collect_added get_node fuel c d) (fun v => ([], v)) rfl (fun _ _ => rfl) _
          fuel hw (by omega) fun c w d hc hsub hwc hlen =>
            ih (.inr ⟨ne_zero_of_refs hrefs hc, hwc⟩)
              (hs.subset (List.Subset.trans hsub (List.subset_cons_self _ _))) hlen
        refine ⟨_, bind_eq_ok.mpr ⟨node, hget, ?_⟩, hm.add hn⟩
        rw [if_pos hin]
        exact bind_eq_ok.mpr ⟨inner, from_shamap_eq_ok.mpr hparse, bind_eq_ok.mpr ⟨d', hd', rfl⟩⟩
      · rw [SHAMapNode.refs_leaf (by simpa using hin), Option.some.injEq] at hrefs
        subst hrefs
        cases hw
        refine ⟨_, bind_eq_ok.mpr ⟨node, hget, ?_⟩, (Moves.refl d []).add hn⟩
        rw [if_neg hin]
        rfl

/-- Every node of the subtree is deleted. -/
theorem collect_deleted_moves {fuel : Nat} (ht : TreeAt store root visit)
    (hs : Serves get_node store visit) (hfuel : visit.length < fuel) :
    ∃ d', collect_deleted get_node fuel root d = .ok d' ∧ Moves store d d' visit [] := by
  induction fuel generalizing root visit d with
  | zero => omega
  | succ fuel ih =>
    unfold collect_deleted
    by_cases hz : root = ZERO_HASH
    · rw [if_pos hz, ht.unique (.inl ⟨hz, rfl⟩)]
      exact ⟨d, rfl, .refl d []⟩
    · rw [if_neg hz]
      obtain ⟨node, cs, v, hn, hrefs, hw, rfl⟩ := ht.node hz
      obtain ⟨hget, rfl⟩ := hs root List.mem_cons_self node hn
      rw [List.length_cons] at hfuel
      simp only [hget]
      by_cases hin : node.node_type.is_inner = true
      · obtain ⟨inner, hparse, rfl⟩ := (SHAMapNode.refs_inner hin).mp hrefs
        obtain ⟨d', hd', hm⟩ := @children_moves store _ d
          (fun d c => collect_deleted get_node fuel c d) (fun v => (v, [])) rfl (fun _ _ => rfl) _
          fuel hw (by omega) fun c w d hc hsub hwc hlen =>
            ih (.inr ⟨ne_zero_of_refs hrefs hc, hwc⟩)
              (hs.subset (List.Subset.trans hsub (List.subset_cons_self _ _))) hlen
        refine ⟨_, ?_, hm.delete node.hash⟩
        rw [if_pos hin]
        exact bind_eq_ok.mpr ⟨inner, from_shamap_eq_ok.mpr hparse, bind_eq_ok.mpr ⟨d', hd', rfl⟩⟩
      · rw [SHAMapNode.refs_leaf (by simpa using hin), Option.some.injEq] at hrefs
        subst hrefs
        cases hw
        refine ⟨_, ?_, (Moves.refl d []).delete node.hash⟩
        rw [if_neg hin]

/-! ## Walking two trees at once -/

/-- The slot loop, given what `diff_nodes` does on the children. -/
theorem slots_moves {f : Hash256 → Hash256 → SHAMapDiff → Except Error SHAMapDiff}
    {old_inner new_inner : InnerNode} (ho : ∀ i, old_inner.children i ≠ some ZERO_HASH)
    (hn : ∀ i, new_inner.children i ≠ some ZERO_HASH) {k : Nat}
    (hso : Serves get_node store old) (hsn : Serves get_node store new)
    (hf : ∀ {a b v w d}, TreeAt store a v → TreeAt store b w → Serves get_node store v →
      Serves get_node store w → v.length + w.length < k →
      ∃ d', f a b d = .ok d' ∧ Moves store d d' v w)
    {l : List (Fin 16)} (hwo : Walks store.refs (l.filterMap old_inner.children) old)
    (hwn : Walks store.refs (l.filterMap new_inner.children) new)
    (hk : old.length + new.length < k) :
    ∃ d', l.foldlM (fun diff i =>
        let old_child := (old_inner.children i).getD ZERO_HASH
        let new_child := (new_inner.children i).getD ZERO_HASH
        if old_child ≠ new_child then f old_child new_child diff else .ok diff) d = .ok d' ∧
      Moves store d d' old new := by
  induction l generalizing old new d with
  | nil =>
    cases hwo
    cases hwn
    exact ⟨d, rfl, .refl d []⟩
  | cons i l ih =>
    obtain ⟨vo, vo', rfl, hto, hwo'⟩ := walks_slot ho hwo
    obtain ⟨vn, vn', rfl, htn, hwn'⟩ := walks_slot hn hwn
    rw [List.length_append, List.length_append] at hk
    have hslot : ∃ d₁, (if (old_inner.children i).getD ZERO_HASH ≠
          (new_inner.children i).getD ZERO_HASH
        then f ((old_inner.children i).getD ZERO_HASH) ((new_inner.children i).getD ZERO_HASH) d
        else .ok d) = .ok d₁ ∧ Moves store d d₁ vo vn := by
      by_cases heq : (old_inner.children i).getD ZERO_HASH = (new_inner.children i).getD ZERO_HASH
      · -- An equal slot is skipped: both trees have the same subtree there.
        rw [if_neg (not_not.mpr heq)]
        rw [heq] at hto
        rw [hto.unique htn]
        exact ⟨d, rfl, .refl d vn⟩
      · rw [if_pos heq]
        exact hf hto htn (hso.subset (List.subset_append_left vo vo'))
          (hsn.subset (List.subset_append_left vn vn')) (by omega)
    obtain ⟨d₁, h1, hm1⟩ := hslot
    obtain ⟨d₂, h2, hm2⟩ := @ih d₁ vo' vn' (hso.subset (List.subset_append_right vo vo'))
      (hsn.subset (List.subset_append_right vn vn')) hwo' hwn' (by omega)
    exact ⟨d₂, foldlM_cons_ok.mpr ⟨d₁, h1, h2⟩, hm1.append hm2⟩

/-- The diff of two trees lists the changes from one to the other. -/
theorem diff_nodes_moves {fuel : Nat} {old_hash new_hash : Hash256}
    (hto : TreeAt store old_hash old) (htn : TreeAt store new_hash new)
    (hso : Serves get_node store old) (hsn : Serves get_node store new)
    (hfuel : old.length + new.length < fuel) :
    ∃ d', diff_nodes get_node fuel old_hash new_hash d = .ok d' ∧ Moves store d d' old new := by
  induction fuel generalizing old_hash new_hash old new d with
  | zero => omega
  | succ fuel ih =>
    unfold diff_nodes
    by_cases heq : old_hash = new_hash
    · rw [if_pos heq]
      rw [heq] at hto
      rw [hto.unique htn]
      exact ⟨d, rfl, .refl d new⟩
    · rw [if_neg heq]
      by_cases hnz : new_hash = ZERO_HASH
      · rw [if_pos hnz, htn.unique (.inl ⟨hnz, rfl⟩)]
        exact collect_deleted_moves hto hso (by omega)
      · rw [if_neg hnz]
        by_cases hoz : old_hash = ZERO_HASH
        · rw [if_pos hoz, hto.unique (.inl ⟨hoz, rfl⟩)]
          exact collect_added_moves htn hsn (by omega)
        · rw [if_neg hoz]
          obtain ⟨node_o, cso, vo, hno, hrefso, hwo, rfl⟩ := hto.node hoz
          obtain ⟨node_n, csn, vn, hnn, hrefsn, hwn, rfl⟩ := htn.node hnz
          obtain ⟨hgeto, rfl⟩ := hso _ List.mem_cons_self node_o hno
          obtain ⟨hgetn, rfl⟩ := hsn _ List.mem_cons_self node_n hnn
          rw [List.length_cons, List.length_cons] at hfuel
          by_cases hin : node_n.node_type.is_inner = true ∧ node_o.node_type.is_inner = true
          · -- Two inner nodes: slot by slot, then the nodes themselves.
            obtain ⟨inn, hpn, rfl⟩ := (SHAMapNode.refs_inner hin.1).mp hrefsn
            obtain ⟨ino, hpo, rfl⟩ := (SHAMapNode.refs_inner hin.2).mp hrefso
            obtain ⟨d', hd', hm⟩ := slots_moves (InnerNode.from_node_nonzero hpo)
              (InnerNode.from_node_nonzero hpn) (hso.subset (List.subset_cons_self _ _))
              (hsn.subset (List.subset_cons_self _ _)) (fun ha hb hsa hsb => ih ha hb hsa hsb)
              hwo hwn (by omega)
            refine ⟨_, bind_eq_ok.mpr ⟨node_n, hgetn, bind_eq_ok.mpr ⟨node_o, hgeto, ?_⟩⟩,
              (hm.add hnn).delete node_o.hash⟩
            rw [if_pos (by simpa using hin)]
            exact bind_eq_ok.mpr ⟨inn, from_shamap_eq_ok.mpr hpn,
              bind_eq_ok.mpr ⟨ino, from_shamap_eq_ok.mpr hpo, bind_eq_ok.mpr ⟨d', hd', rfl⟩⟩⟩
          · -- A leaf on either side: one tree goes and the other comes.
            obtain ⟨d₁, h1, hm1⟩ := @collect_added_moves get_node store _ _ d (fuel + 1) htn hsn
              (by rw [List.length_cons]; omega)
            obtain ⟨d₂, h2, hm2⟩ := @collect_deleted_moves get_node store _ _ d₁ (fuel + 1) hto hso
              (by rw [List.length_cons]; omega)
            refine ⟨d₂, bind_eq_ok.mpr ⟨node_n, hgetn, bind_eq_ok.mpr ⟨node_o, hgeto, ?_⟩⟩, ?_⟩
            · rw [if_neg (by simpa using hin)]
              exact bind_eq_ok.mpr ⟨d₁, h1, h2⟩
            · have := hm1.append hm2
              rwa [List.append_nil] at this

/-! ## The diff of two roots -/

/-- `d` lists the changes from the tree visited by `old` to the one visited
    by `new`. -/
structure DiffOf (store : Store) (d : SHAMapDiff) (old new : List Hash256) : Prop where
  split : ∃ common, old.Perm (d.deleted ++ common) ∧
    new.Perm (d.added.map SHAMapNode.hash ++ common)
  stored : ∀ n ∈ d.added, store n.hash = some n

theorem diff_diffOf {fuel : Nat} {old_root new_root : Hash256} (hto : TreeAt store old_root old)
    (htn : TreeAt store new_root new) (hso : Serves get_node store old)
    (hsn : Serves get_node store new) (hfuel : old.length + new.length < fuel) :
    ∃ d, diff get_node fuel old_root new_root = .ok d ∧ DiffOf store d old new := by
  obtain ⟨d, hd, nodes, hashes, common, rfl, hpo, hpn, hst⟩ :=
    @diff_nodes_moves get_node store { added := [], deleted := [] } old new fuel old_root new_root
      hto htn hso hsn hfuel
  refine ⟨_, bind_eq_ok.mpr ⟨_, hd, rfl⟩, ⟨common, ?_, ?_⟩, ?_⟩
  · have hsort := List.perm_insertionSort (fun a b : Hash256 => a ≤ b) hashes
    exact hpo.trans (hsort.symm.append_right common)
  · have hsort := List.perm_insertionSort (fun a b : SHAMapNode => a.hash ≤ b.hash) nodes
    exact hpn.trans ((hsort.symm.map SHAMapNode.hash).append_right common)
  · intro n hn
    exact hst n ((List.perm_insertionSort _ nodes).mem_iff.mp hn)

/-- No hash is listed twice. -/
theorem DiffOf.nodup (h : DiffOf store d old new) (ho : old.Nodup) (hn : new.Nodup) :
    (d.added.map SHAMapNode.hash).Nodup ∧ d.deleted.Nodup := by
  obtain ⟨common, hpo, hpn⟩ := h.split
  have hdel := hpo.nodup_iff.mp ho
  have hadd := hpn.nodup_iff.mp hn
  exact ⟨(List.nodup_append.mp hadd).1, (List.nodup_append.mp hdel).1⟩

/-- The map holds the stored nodes of the listed hashes and nothing else. -/
def Exactly (store : Store) (state : StateMap) (visit : List Hash256) : Prop :=
  ∀ h n, state.lookup h = some n ↔ h ∈ visit ∧ store h = some n

/-- Applying the diff to the map of the old tree yields the map of the new
    one. -/
theorem DiffOf.apply {state : StateMap} (hd : DiffOf store d old new) (ho : old.Nodup)
    (hn : new.Nodup) (hstate : Exactly store state old) :
    Exactly store (apply_diff state d) new := by
  obtain ⟨common, hpo, hpn⟩ := hd.split
  have hdel := (List.nodup_append.mp (hpo.nodup_iff.mp ho)).2.2
  have hadd := (List.nodup_append.mp (hpn.nodup_iff.mp hn)).2.2
  intro h n
  constructor
  · intro hl
    rcases lookup_apply_diff_cases hl with ⟨hmem, rfl⟩ | ⟨hold, hndel, _⟩
    · refine ⟨hpn.mem_iff.mpr ?_, hd.stored n hmem⟩
      exact List.mem_append_left _ (List.mem_map_of_mem hmem)
    · obtain ⟨hin, hst⟩ := (hstate h n).mp hold
      refine ⟨hpn.mem_iff.mpr (List.mem_append_right _ ?_), hst⟩
      exact (List.mem_append.mp (hpo.mem_iff.mp hin)).resolve_left hndel
  · rintro ⟨hin, hst⟩
    rcases List.mem_append.mp (hpn.mem_iff.mp hin) with hin | hin
    · -- An added hash: the node inserted last under it is the stored one.
      obtain ⟨m, hm, rfl⟩ := List.mem_map.mp hin
      obtain ⟨m', hm', hhash, hl⟩ :=
        lookup_insert_nodes_of_mem (remove_hashes state d.deleted) hm
      have hsame := hd.stored m' hm'
      rw [hhash, hst, Option.some.injEq] at hsame
      rw [hsame]
      exact hl
    · -- A common hash: neither removed nor replaced.
      have hold := (hstate h n).mpr ⟨hpo.mem_iff.mpr (List.mem_append_right _ hin), hst⟩
      have hndel : h ∉ d.deleted := fun hmem => hdel h hmem h hin rfl
      have hnadd : ∀ m ∈ d.added, m.hash ≠ h := by
        intro m hm hmh
        exact hadd m.hash (List.mem_map_of_mem hm) h hin hmh
      unfold apply_diff
      rw [lookup_insert_nodes_of_not_mem hnadd, lookup_remove_hashes, if_neg hndel]
      exact hold

end LedgerArchive
