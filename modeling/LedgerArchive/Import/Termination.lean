import LedgerArchive.Import.Bounds
import LedgerArchive.Import.Checkpoint
import LedgerArchive.Lib.Endless

/-! # Which checkpoints a verified replay gets to the end of

    `walk_complete` keeps no memory of where it has been. Among nodes that
    hash to their own hashes it needs none, since a hash cannot depend on
    itself. `replay_chunk` walks the checkpoint before it hashes the
    checkpoint's nodes, and there the nodes can refer to each other in a
    circle. At the final ledger every node has been hashed. -/

namespace LedgerArchive

open Lib

variable {σ τ : Type} {S : NodeSink σ} {T : TxDb τ} {sha512half : Bytes → Hash256}

/-! ## Running out of fuel -/

/-- A walk has not ended within its fuel, whatever context was added. -/
def Error.out_of_fuel : Error → Prop
  | .fuel => True
  | .context _ e => e.out_of_fuel
  | _ => False

/-- With enough fuel the run ends in a result or in an error. -/
def Terminates {α : Type} (run : Nat → Except Error α) : Prop :=
  ∃ fuel, ErrorsIn (fun e => ¬ e.out_of_fuel) (run fuel)

theorem reported_not_out_of_fuel : Reported (fun e => ¬ e.out_of_fuel) where
  bail _ := id
  chunk _ := id
  shamap _ := id

/-! ## The walk -/

/-- The references of a node in the order `walk_loop` pops them. -/
def StateMap.walk_order (state : StateMap) (h : Hash256) : Option (List Hash256) :=
  (StateMap.refs state h).map List.reverse

/-- One round of the walk: the name on top of the stack is read, or the
    walk fails there. -/
theorem walk_loop_cons (fuel : Nat) (h : Hash256) (stack : List Hash256) (state : StateMap)
    (n : Nat) :
    (∃ cs, state.walk_order h = some cs ∧
        walk_loop (fuel + 1) (h :: stack) state n = walk_loop fuel (cs ++ stack) state (n + 1)) ∨
      (state.walk_order h = none ∧
        ErrorsIn (fun e => ¬ e.out_of_fuel) (walk_loop (fuel + 1) (h :: stack) state n)) := by
  unfold StateMap.walk_order StateMap.refs
  cases hl : state.lookup h with
  | none =>
    have hround : walk_loop (fuel + 1) (h :: stack) state n =
        .error (.bail s!"node {hex_encode h} is referenced but missing") := by
      simp [walk_loop, hl, ok_or, Bind.bind, Except.bind]
    rw [hround]
    exact .inr ⟨rfl, errorsIn_error.mpr id⟩
  | some node =>
    by_cases ht : node.node_type.is_inner = true
    · cases hin : InnerNode.from_node node with
      | ok inner =>
        refine .inl ⟨inner.child_hashes.reverse, by simp [SHAMapNode.refs, ht, hin], ?_⟩
        simp [walk_loop, hl, ok_or, ht, hin, from_shamap, Bind.bind, Except.bind]
      | error e =>
        have hround : walk_loop (fuel + 1) (h :: stack) state n = .error (.shamap e) := by
          simp [walk_loop, hl, ok_or, ht, hin, from_shamap, Bind.bind, Except.bind]
        rw [hround]
        exact .inr ⟨by simp [SHAMapNode.refs, ht, hin], errorsIn_error.mpr id⟩
    · refine .inl ⟨[], by simp [SHAMapNode.refs, ht], ?_⟩
      simp [walk_loop, hl, ok_or, ht, Bind.bind, Except.bind]

/-- A walk that ends does so within some fuel and within any more. -/
theorem walk_loop_of_ends {stack : List Hash256} {state : StateMap}
    (h : Ends state.walk_order stack) : ∃ enough, ∀ fuel ≥ enough, ∀ n,
      ErrorsIn (fun e => ¬ e.out_of_fuel) (walk_loop fuel stack state n) := by
  induction h with
  | done =>
    refine ⟨1, fun fuel hfuel n => ?_⟩
    obtain ⟨fuel, rfl⟩ := Nat.exists_eq_add_of_le' hfuel
    exact errorsIn_ok n
  | @missing h stack hs =>
    refine ⟨1, fun fuel hfuel n => ?_⟩
    obtain ⟨fuel, rfl⟩ := Nat.exists_eq_add_of_le' hfuel
    rcases walk_loop_cons fuel h stack state n with ⟨cs, hcs, -⟩ | ⟨-, herr⟩
    · rw [hs] at hcs
      cases hcs
    · exact herr
  | @step h cs stack hs _ ih =>
    obtain ⟨enough, henough⟩ := ih
    refine ⟨enough + 1, fun fuel hfuel n => ?_⟩
    obtain ⟨fuel, rfl⟩ := Nat.exists_eq_add_of_le' (Nat.le_trans (Nat.le_add_left 1 enough) hfuel)
    rcases walk_loop_cons fuel h stack state n with ⟨cs', hcs', hloop⟩ | ⟨hnone, -⟩
    · rw [hs, Option.some.injEq] at hcs'
      rw [hloop, ← hcs']
      exact henough fuel (by omega) (n + 1)
    · rw [hs] at hnone
      cases hnone

/-- A walk that does not run out of fuel ends. -/
theorem ends_of_walk_loop {fuel : Nat} {stack : List Hash256} {state : StateMap} {n : Nat}
    (h : ErrorsIn (fun e => ¬ e.out_of_fuel) (walk_loop fuel stack state n)) :
    Ends state.walk_order stack := by
  induction fuel generalizing stack n with
  | zero => exact absurd trivial (h .fuel rfl)
  | succ fuel ih =>
    cases stack with
    | nil => exact .done
    | cons hash stack =>
      rcases walk_loop_cons fuel hash stack state n with ⟨cs, hcs, hloop⟩ | ⟨hnone, -⟩
      · rw [hloop] at h
        exact .step hcs (ih h)
      · exact .missing hnone

theorem check_tree_complete_of_ends {state : StateMap} {root : Hash256}
    (h : Ends state.walk_order [root]) : ∃ enough, ∀ fuel ≥ enough, ∀ what,
      ErrorsIn (fun e => ¬ e.out_of_fuel) (check_tree_complete fuel what root state) := by
  obtain ⟨enough, henough⟩ := walk_loop_of_ends h
  refine ⟨enough, fun fuel hfuel what => ?_⟩
  apply ErrorsIn.bind
  · have hwalk := henough fuel hfuel 0
    unfold walk_complete
    cases hloop : walk_loop fuel [root] state 0 with
    | ok m => exact errorsIn_ok m
    | error e => exact errorsIn_error.mpr (hwalk e hloop)
  intro reached _
  exact errorsIn_bail_if id

/-- A walk that does not end leaves the check without fuel, however much it
    is given. -/
theorem check_tree_complete_endless {state : StateMap} {root : Hash256}
    (h : ¬ Ends state.walk_order [root]) (fuel : Nat) (what : String) :
    ∃ e, check_tree_complete fuel what root state = .error e ∧ e.out_of_fuel := by
  have hwalk : ¬ ErrorsIn (fun e => ¬ e.out_of_fuel) (walk_loop fuel [root] state 0) :=
    fun herr => h (ends_of_walk_loop herr)
  unfold ErrorsIn at hwalk
  push Not at hwalk
  obtain ⟨e, he, hout⟩ := hwalk
  refine ⟨.context s!"{what}: state tree incomplete" e, ?_, hout⟩
  unfold check_tree_complete walk_complete
  rw [he]
  rfl

/-- A state map holds finitely many nodes. -/
theorem walk_order_finite (state : StateMap) : {h | (state.walk_order h).isSome}.Finite := by
  refine state.keys.finite_toSet.subset ?_
  intro h hh
  rw [Finset.mem_coe, Finmap.mem_keys]
  obtain ⟨cs, hcs⟩ := Option.isSome_iff_exists.mp hh
  obtain ⟨cs', hrefs, -⟩ := Option.map_eq_some_iff.mp hcs
  obtain ⟨n, hl, -⟩ := StateMap.refs_eq_some.mp hrefs
  exact Finmap.mem_of_lookup_eq_some hl

/-! ## Nodes that hash to their own hashes -/

/-- All nodes that a chunk lists. -/
def Chunk.nodes (chunk : Chunk) : List SHAMapNode :=
  chunk.checkpoint ++ chunk.deltas.flatMap fun d => d.diff.added

/-- One of the nodes hashes to `a`, its own hash, and refers to `b`. -/
def HashRefers (sha512half : Bytes → Hash256) (nodes : List SHAMapNode) (a b : Hash256) : Prop :=
  ∃ n ∈ nodes, n.hash = a ∧ recompute_node_hash sha512half n = n.hash ∧
    ∃ cs, n.refs = some cs ∧ b ∈ cs

/-- No hash depends on itself. -/
def NoHashCycle (sha512half : Bytes → Hash256) (nodes : List SHAMapNode) : Prop :=
  ∀ h, ¬ Relation.TransGen (HashRefers sha512half nodes) h h

/-- The state holds nodes of the list only, each under its own hash. -/
def Genuine (sha512half : Bytes → Hash256) (nodes : List SHAMapNode) (state : StateMap) : Prop :=
  ∀ h n, state.lookup h = some n →
    n ∈ nodes ∧ n.hash = h ∧ recompute_node_hash sha512half n = n.hash

theorem Genuine.checkpoint {nodes checkpoint : List SHAMapNode} (hsub : checkpoint ⊆ nodes)
    (hrehash : ∀ n ∈ checkpoint, recompute_node_hash sha512half n = n.hash) :
    Genuine sha512half nodes (checkpoint_state checkpoint) := by
  intro h n hl
  have hmem := lookup_checkpoint_mem hl
  exact ⟨hsub hmem, keyed_checkpoint checkpoint h n hl, hrehash n hmem⟩

theorem Genuine.apply_diff {nodes : List SHAMapNode} {state : StateMap} {diff : SHAMapDiff}
    (h : Genuine sha512half nodes state) (hsub : diff.added ⊆ nodes)
    (hrehash : ∀ n ∈ diff.added, recompute_node_hash sha512half n = n.hash) :
    Genuine sha512half nodes (LedgerArchive.apply_diff state diff) := by
  intro hash n hl
  rcases lookup_apply_diff_cases hl with ⟨hmem, hhash⟩ | ⟨hold, -⟩
  · exact ⟨hsub hmem, hhash, hrehash n hmem⟩
  · exact h hash n hold

/-- Every ledger of a verified run keeps to genuine nodes. -/
theorem LedgerRun.genuine {nodes : List SHAMapNode} {r r' : Replay σ τ}
    {ls : List (LedgerDelta × TxMap)} (h : LedgerRun S T sha512half r ls r')
    (hr : Genuine sha512half nodes r.state) (hsub : ∀ l ∈ ls, l.1.diff.added ⊆ nodes) :
    Genuine sha512half nodes r'.state := by
  induction h with
  | done r => exact hr
  | step hv _ ih =>
    apply ih
    · rw [hv.state]
      exact hr.apply_diff (hsub _ List.mem_cons_self) hv.rehash
    · exact fun l hl => hsub l (List.mem_cons_of_mem _ hl)

/-- Among genuine nodes the walk ends. -/
theorem Genuine.ends {nodes : List SHAMapNode} {state : StateMap}
    (h : Genuine sha512half nodes state) (hcycle : NoHashCycle sha512half nodes)
    (root : Hash256) : Ends state.walk_order [root] := by
  rw [ends_iff (walk_order_finite state)]
  intro htrapped
  obtain ⟨y, hy⟩ := htrapped.circle
  apply hcycle y
  refine hy.lift id ?_
  rintro a b ⟨cs, hcs, hb⟩
  obtain ⟨cs', hrefs, rfl⟩ := Option.map_eq_some_iff.mp hcs
  obtain ⟨n, hl, hn⟩ := StateMap.refs_eq_some.mp hrefs
  obtain ⟨hmem, hhash, hrehash⟩ := h a n hl
  exact ⟨n, hmem, hhash, hrehash, cs', hn, List.mem_reverse.mp hb⟩

/-! ## Termination -/

/-- Replaying the chunk with verification terminates, whatever its outputs
    are. -/
def VerifyTerminates (sha512half : Bytes → Hash256) (chunk : Chunk) : Prop :=
  ∀ {σ τ : Type} (S : NodeSink σ) (T : TxDb τ), OutputErrorsIn (fun e => ¬ e.out_of_fuel) S T →
    ∀ out, Terminates fun fuel => replay_chunk S T sha512half fuel chunk true out

/-- In the order in which the walk reads references, the checkpoint leads
    from its root into a circle before any node that is missing or does not
    parse. -/
def CheckpointLoops (chunk : Chunk) : Prop :=
  ∃ cp, chunk.tx_maps.head? = some cp ∧
    Trapped (checkpoint_state chunk.checkpoint).walk_order cp.account_hash

/-- The walk over the final ledger ends within some fuel. -/
theorem final_walk_ends {chunk : Chunk} {out₁ : Outputs σ τ} {cp : TxMap}
    {r₀ r₁ : Replay σ τ} (hcycle : NoHashCycle sha512half chunk.nodes)
    (hnodes : verify_state_nodes sha512half chunk.checkpoint = .ok ())
    (hopened : open_ledger S T sha512half cp (checkpoint_state chunk.checkpoint) out₁ = .ok r₀)
    (hreplayed : chunk.ledgers.foldlM (ledger_step S T sha512half true) r₀ = .ok r₁) :
    Ends r₁.state.walk_order [r₁.current_root] := by
  obtain ⟨_, _, _, -, -, -, hstate, -⟩ := open_ledger_ok.mp hopened
  have hgenuine : Genuine sha512half chunk.nodes r₀.state := by
    rw [hstate]
    exact .checkpoint (List.subset_append_left _ _) (verify_state_nodes_ok.mp hnodes)
  refine ((ledger_run_iff.mp hreplayed).genuine hgenuine ?_).ends hcycle _
  intro l hl n hn
  apply List.mem_append_right
  exact List.mem_flatMap.mpr ⟨l.1, (List.of_mem_zip hl).1, hn⟩

/-- There is enough fuel for the walk over a checkpoint that does not loop. -/
theorem checkpoint_walk_fuel {chunk : Chunk} (hfree : ¬ CheckpointLoops chunk) :
    ∃ enough, ∀ fuel ≥ enough, ∀ cp, chunk.tx_maps.head? = some cp →
      ErrorsIn (fun e => ¬ e.out_of_fuel) (check_tree_complete fuel (checkpoint_name cp)
        cp.account_hash (checkpoint_state chunk.checkpoint)) := by
  cases hhead : chunk.tx_maps.head? with
  | none => exact ⟨0, fun _ _ _ h => by cases h⟩
  | some cp =>
    have hends := (ends_iff (walk_order_finite _)).mpr fun ht => hfree ⟨cp, hhead, ht⟩
    obtain ⟨enough, henough⟩ := check_tree_complete_of_ends hends
    refine ⟨enough, fun fuel hfuel cp' hcp' => ?_⟩
    cases hcp'
    exact henough fuel hfuel _

/-- There is enough fuel for the walk over the final ledger. A chunk has
    one final ledger, if its replay gets that far. -/
theorem final_walk_fuel {chunk : Chunk} {out : Outputs σ τ}
    (hcycle : NoHashCycle sha512half chunk.nodes) :
    ∃ enough, ∀ fuel ≥ enough, ∀ cp out₁ r₀ r₁, chunk.tx_maps.head? = some cp →
      sink_nodes S out chunk.checkpoint = .ok out₁ →
      verify_state_nodes sha512half chunk.checkpoint = .ok () →
      open_ledger S T sha512half cp (checkpoint_state chunk.checkpoint) out₁ = .ok r₀ →
      chunk.ledgers.foldlM (ledger_step S T sha512half true) r₀ = .ok r₁ →
      ErrorsIn (fun e => ¬ e.out_of_fuel)
        (check_tree_complete fuel "final ledger" r₁.current_root r₁.state) := by
  by_cases hexists : ∃ cp out₁ r₀ r₁, chunk.tx_maps.head? = some cp ∧
      sink_nodes S out chunk.checkpoint = .ok out₁ ∧
      verify_state_nodes sha512half chunk.checkpoint = .ok () ∧
      open_ledger S T sha512half cp (checkpoint_state chunk.checkpoint) out₁ = .ok r₀ ∧
      chunk.ledgers.foldlM (ledger_step S T sha512half true) r₀ = .ok r₁
  · obtain ⟨cp, out₁, r₀, r₁, hcp, hsunk, hnodes, hopened, hreplayed⟩ := hexists
    obtain ⟨enough, henough⟩ :=
      check_tree_complete_of_ends (final_walk_ends hcycle hnodes hopened hreplayed)
    -- The replay is a function, so whatever gets to the walk gets to this one.
    refine ⟨enough, fun fuel hfuel cp' out₁' r₀' r₁' hcp' hsunk' _ hopened' hreplayed' => ?_⟩
    obtain rfl := Option.some.inj (hcp.symm.trans hcp')
    obtain rfl := Except.ok.inj (hsunk.symm.trans hsunk')
    obtain rfl := Except.ok.inj (hopened.symm.trans hopened')
    obtain rfl := Except.ok.inj (hreplayed.symm.trans hreplayed')
    exact henough fuel hfuel _
  · refine ⟨0, fun fuel _ cp out₁ r₀ r₁ hcp hsunk hnodes hopened hreplayed => ?_⟩
    exact absurd ⟨cp, out₁, r₀, r₁, hcp, hsunk, hnodes, hopened, hreplayed⟩ hexists

/-- A looping checkpoint keeps the replay in its walk. -/
theorem CheckpointLoops.endless {chunk : Chunk} (h : CheckpointLoops chunk) :
    ¬ VerifyTerminates sha512half chunk := by
  obtain ⟨cp, hcp, htrapped⟩ := h
  intro hterm
  -- The null sink takes the checkpoint, so the replay gets to the walk.
  have hends : ¬ Ends (checkpoint_state chunk.checkpoint).walk_order [cp.account_hash] :=
    fun he => (ends_iff (walk_order_finite _)).mp he htrapped
  obtain ⟨fuel, hfuel⟩ := hterm NullSink NoTxDb
    ⟨fun _ _ _ => errorsIn_ok _, fun _ _ => errorsIn_ok _⟩ ⟨(), none, []⟩
  obtain ⟨e, he, hout⟩ := check_tree_complete_endless hends fuel (checkpoint_name cp)
  obtain ⟨out₁, hsunk⟩ : ∃ out₁, sink_nodes NullSink (⟨(), none, []⟩ : Outputs Unit Unit)
      chunk.checkpoint = .ok out₁ := foldlM_exists_ok fun _ _ _ => ⟨_, rfl⟩
  have hroot : cp.account_hash ∈ checkpoint_state chunk.checkpoint := by
    obtain ⟨c, ⟨b, a, hs, -⟩, -⟩ := htrapped.next
    obtain ⟨cs, hrefs, -⟩ := Option.map_eq_some_iff.mp hs
    obtain ⟨n, hl, -⟩ := StateMap.refs_eq_some.mp hrefs
    exact Finmap.mem_of_lookup_eq_some hl
  have hafter_sink := ErrorsIn.of_bind_ok hfuel hsunk
  have hafter_first := ErrorsIn.of_bind_ok hafter_sink (ok_or_eq_ok.mpr hcp)
  have hafter_root := ErrorsIn.of_bind_ok (a := ()) hafter_first
    (bail_if_eq_ok.mpr (not_not.mpr hroot))
  have hwalk := ErrorsIn.of_bind hafter_root
  exact hwalk e he hout

theorem verify_terminates_of_free {chunk : Chunk}
    (hcycle : NoHashCycle sha512half chunk.nodes) (hfree : ¬ CheckpointLoops chunk) :
    VerifyTerminates sha512half chunk := by
  intro σ τ S T hO out
  obtain ⟨enough, henough⟩ := @checkpoint_walk_fuel chunk hfree
  obtain ⟨enough', henough'⟩ := @final_walk_fuel σ τ S T sha512half chunk out hcycle
  refine ⟨max enough enough', ?_⟩
  apply replay_chunk_errors reported_not_out_of_fuel hO
  · intro m _ e he
    rw [build_tx_tree_errors m.txns e he]
    exact id
  · intro cp hcp _
    exact henough _ (Nat.le_max_left _ _) cp hcp
  · intro cp out₁ r₀ r₁ _ hcp hsunk hnodes hopened hreplayed
    exact henough' _ (Nat.le_max_right _ _) cp out₁ r₀ r₁ hcp hsunk hnodes hopened hreplayed

/-- Verification terminates exactly on the chunks whose checkpoint does not
    loop. -/
theorem verify_terminates_iff {chunk : Chunk} (hcycle : NoHashCycle sha512half chunk.nodes) :
    VerifyTerminates sha512half chunk ↔ ¬ CheckpointLoops chunk := by
  constructor
  · intro hterm hloops
    exact hloops.endless hterm
  · intro hfree
    exact verify_terminates_of_free hcycle hfree

/-! ## A node that is its own child -/

def own_child_hash : Hash256 := Hash256.ofBytes [1]

/-- An inner node whose first child is itself. It does not hash to its own
    hash. -/
def own_child : SHAMapNode :=
  ⟨own_child_hash, .Inner, own_child_hash.bytes ++ List.replicate 480 0⟩

def own_child_chunk : Chunk := chunk_of_checkpoint [own_child] own_child_hash

theorem own_child_refs :
    (checkpoint_state own_child_chunk.checkpoint).walk_order own_child_hash =
      some [own_child_hash] := by
  decide +kernel

theorem own_child_loops : CheckpointLoops own_child_chunk := by
  have hself : LeadsTo (checkpoint_state own_child_chunk.checkpoint).walk_order own_child_hash
      own_child_hash := ⟨[], [], own_child_refs, by simp⟩
  exact ⟨_, rfl, own_child_hash, .refl, .single hself⟩

/-- The same node beside a root and its account, which hash to their own
    hashes. -/
def own_child_beside_tree (root : Hash256) : Chunk :=
  chunk_of_checkpoint (own_child :: whole_checkpoint) root

theorem own_child_beside_tree_facts :
    recompute_node_hash sha2_sha512half own_child ≠ own_child.hash ∧
      SHAMapNode.refs ⟨one_child_hash, .Inner, one_child_content⟩ = some [lone_account.hash] ∧
      lone_account.refs = some [] ∧ lone_account.hash ≠ one_child_hash := by
  decide +kernel

/-- The root is the only node that refers to anything under its own hash. -/
theorem own_child_beside_tree_refers {root a b : Hash256}
    (h : HashRefers sha2_sha512half (own_child_beside_tree root).nodes a b) :
    a = one_child_hash ∧ b = lone_account.hash := by
  obtain ⟨hwrong, htree, hleaf, -⟩ := own_child_beside_tree_facts
  obtain ⟨n, hn, rfl, hrehash, cs, hrefs, hb⟩ := h
  have hcases : n = own_child ∨ n = ⟨one_child_hash, .Inner, one_child_content⟩ ∨
      n = lone_account := by
    simpa [Chunk.nodes, own_child_beside_tree, chunk_of_checkpoint, whole_checkpoint] using hn
  rcases hcases with rfl | rfl | rfl
  · exact absurd hrehash hwrong
  · rw [htree] at hrefs
    cases hrefs
    exact ⟨rfl, List.mem_singleton.mp hb⟩
  · rw [hleaf] at hrefs
    cases hrefs
    cases hb

theorem own_child_beside_tree_no_cycle (root : Hash256) :
    NoHashCycle sha2_sha512half (own_child_beside_tree root).nodes := by
  intro h hcycle
  obtain ⟨_, hfirst, -⟩ := Relation.TransGen.head'_iff.mp hcycle
  obtain ⟨_, -, hlast⟩ := Relation.TransGen.tail'_iff.mp hcycle
  obtain ⟨rfl, -⟩ := own_child_beside_tree_refers hfirst
  obtain ⟨-, hroot⟩ := own_child_beside_tree_refers hlast
  exact own_child_beside_tree_facts.2.2.2 hroot.symm

theorem NoHashCycle.subset {nodes nodes' : List SHAMapNode} (h : NoHashCycle sha512half nodes)
    (hsub : nodes' ⊆ nodes) : NoHashCycle sha512half nodes' := by
  intro a hcycle
  refine h a (hcycle.lift id fun b c hrefers => ?_)
  obtain ⟨n, hn, hrefers⟩ := hrefers
  exact ⟨n, hsub hn, hrefers⟩

theorem own_child_no_cycle : NoHashCycle sha2_sha512half own_child_chunk.nodes := by
  refine (own_child_beside_tree_no_cycle own_child_hash).subset ?_
  simp [Chunk.nodes, own_child_chunk, own_child_beside_tree, chunk_of_checkpoint]

theorem own_child_beside_tree_order :
    let refs := (checkpoint_state (own_child :: whole_checkpoint)).walk_order
    refs own_child_hash = some [own_child_hash] ∧ refs one_child_hash = some [lone_account.hash] ∧
      refs lone_account.hash = some [] := by
  decide +kernel

/-- Verification ends under the header of the tree, and does not end under
    the header of the node that is its own child. -/
theorem verify_terminates_iff_own_child :
    VerifyTerminates sha2_sha512half (own_child_beside_tree one_child_hash) ∧
      ¬ VerifyTerminates sha2_sha512half (own_child_beside_tree own_child_hash) := by
  obtain ⟨horder, htree, hleaf⟩ := own_child_beside_tree_order
  constructor
  · refine (verify_terminates_iff (own_child_beside_tree_no_cycle _)).mpr ?_
    rintro ⟨cp, hcp, htrapped⟩
    cases hcp
    -- From the root the walk gets to the account, and from there nowhere.
    obtain ⟨c, hc, htrapped⟩ := htrapped.next
    obtain ⟨_, hrefs, hmem⟩ := hc.refers
    cases htree.symm.trans hrefs
    obtain rfl := List.mem_singleton.mp hmem
    obtain ⟨_, hnext, -⟩ := htrapped.next
    obtain ⟨_, hrefs', hmem'⟩ := hnext.refers
    cases hleaf.symm.trans hrefs'
    cases hmem'
  · rw [verify_terminates_iff (own_child_beside_tree_no_cycle _), not_not]
    have hself : LeadsTo (checkpoint_state (own_child :: whole_checkpoint)).walk_order
        own_child_hash own_child_hash := ⟨[], [], horder, by simp⟩
    exact ⟨_, rfl, own_child_hash, .refl, .single hself⟩

/-- Nothing here looks at the chunk hash. -/
theorem Chunk.nodes_chunk_hash (chunk : Chunk) (h : Hash256) :
    { chunk with chunk_hash := h }.nodes = chunk.nodes := rfl

theorem CheckpointLoops.chunk_hash {chunk : Chunk} (hloops : CheckpointLoops chunk) (h : Hash256) :
    CheckpointLoops { chunk with chunk_hash := h } := hloops

/-- The chunk, which a file holds, passes for one without hash cycles, and
    the walk over its checkpoint never ends. -/
theorem own_child_never_ends : ∃ chunk,
    deserialize_chunk sha2_sha512half (serialize_chunk sha2_sha512half own_child_chunk) =
        .ok chunk ∧
      NoHashCycle sha2_sha512half chunk.nodes ∧ ¬ VerifyTerminates sha2_sha512half chunk := by
  refine ⟨_, serialize_chunk_read_back_iff.mpr ⟨by decide +kernel, by decide, by decide⟩, ?_⟩
  have hsorted : own_child_chunk.sorted = own_child_chunk := rfl
  unfold Chunk.read_back
  rw [hsorted, Chunk.nodes_chunk_hash]
  exact ⟨own_child_no_cycle, (own_child_loops.chunk_hash _).endless⟩

end LedgerArchive
