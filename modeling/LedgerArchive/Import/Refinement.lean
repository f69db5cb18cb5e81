import LedgerArchive.Import.Replay
import LedgerArchive.Common.Layouts

/-! # The two replays take the same steps

    `ReplaySteps` lists what a replay that returns has done and passed, in
    an order that is neither that of `replay_chunk` nor that of
    `replay_chunk_streaming`: reading the file, hashing the checkpoint and
    checking the chunk hash commute with the calls to the outputs, because
    none of them looks at the other's state. Both replays return exactly
    when the steps can be taken (`replay_chunk_ok`,
    `replay_chunk_streaming_ok`), which makes the streaming one a
    refinement of the buffered one. -/

namespace LedgerArchive

open Lib

variable {σ τ : Type} (S : NodeSink σ) (T : TxDb τ) (sha512half : Bytes → Hash256)

/-! ## The steps -/

/-- The ledgers behind the first one: each delta with its TX map. -/
def Chunk.ledgers (chunk : Chunk) : List (LedgerDelta × TxMap) :=
  chunk.deltas.zip chunk.tx_maps.tail

/-- One round of the delta loop. -/
def ledger_step (verify : Bool) (r : Replay σ τ) (l : LedgerDelta × TxMap) :
    Except Error (Replay σ τ) := do
  let (state, out) ← apply_delta S verify r.state r.out l.1
  close_ledger S T sha512half verify r l.1 l.2 state out

structure ReplaySteps (fuel : Nat) (chunk : Chunk) (verify : Bool) (out : Outputs σ τ)
    (cp : TxMap) (out₁ : Outputs σ τ) (r₀ r₁ : Replay σ τ) (res : ReplayResult × Outputs σ τ) :
    Prop where
  first : chunk.tx_maps.head? = some cp
  sunk : sink_nodes S out chunk.checkpoint = .ok out₁
  root_held : cp.account_hash ∈ checkpoint_state chunk.checkpoint
  complete : verify = true → check_tree_complete fuel (checkpoint_name cp) cp.account_hash
    (checkpoint_state chunk.checkpoint) = .ok ()
  authentic : verify = true → verify_txns_authentic sha512half cp = .ok ()
  rehash : verify = true → verify_state_nodes sha512half chunk.checkpoint = .ok ()
  opened : open_ledger S T sha512half cp (checkpoint_state chunk.checkpoint) out₁ = .ok r₀
  replayed : chunk.ledgers.foldlM (ledger_step S T sha512half verify) r₀ = .ok r₁
  finished : finish_replay fuel verify r₁ = .ok res

variable {S T sha512half} {fuel : Nat} {chunk : Chunk} {verify : Bool} {out : Outputs σ τ}
  {res : ReplayResult × Outputs σ τ}

theorem check_state_nodes_ok {what : String} {nodes : List SHAMapNode} {u : Unit} :
    check_state_nodes sha512half what nodes = .ok u ↔
      verify_state_nodes sha512half nodes = .ok () := by
  unfold check_state_nodes
  cases h : verify_state_nodes sha512half nodes with
  | ok v => simp
  | error e => simp

/-! ## Buffered replay -/

/-- The loop over the deltas finds a TX map for each of them, or fails. -/
theorem delta_loop_ok {tx_maps : List TxMap} {deltas : List LedgerDelta} {k : Nat}
    {later : List TxMap} (hlater : ∀ j, tx_maps[k + j + 1]? = later[j]?) {r r' : Replay σ τ} :
    (deltas.zipIdx k).foldlM (fun r (di : LedgerDelta × Nat) => do
        let (state, out) ← apply_delta S verify r.state r.out di.1
        let tx_map ← ok_or tx_maps[di.2 + 1]?
          (.bail s!"missing TX_MAPS entry for delta index {di.2}")
        close_ledger S T sha512half verify r di.1 tx_map state out) r = .ok r' ↔
      deltas.length ≤ later.length ∧
        (deltas.zip later).foldlM (ledger_step S T sha512half verify) r = .ok r' := by
  induction deltas generalizing k later r with
  | nil => simp
  | cons delta deltas ih =>
    rw [List.zipIdx_cons, foldlM_cons_ok]
    have hhere : tx_maps[k + 1]? = later[0]? := hlater 0
    cases later with
    | nil =>
      -- No TX map is left: the round cannot end.
      have hnone : tx_maps[k + 1]? = none := by simpa using hhere
      constructor
      · rintro ⟨t, ht, _⟩
        obtain ⟨⟨state, out⟩, _, ht⟩ := bind_eq_ok.mp ht
        obtain ⟨tx_map, htx, _⟩ := bind_eq_ok.mp ht
        rw [ok_or_eq_ok, hnone] at htx
        cases htx
      · rintro ⟨hlen, _⟩
        simp at hlen
    | cons tx_map later =>
      have hsome : tx_maps[k + 1]? = some tx_map := by simpa using hhere
      have hnext : ∀ j, tx_maps[k + 1 + j + 1]? = later[j]? := by
        intro j
        have := hlater (j + 1)
        rw [show k + (j + 1) + 1 = k + 1 + j + 1 from by omega] at this
        simpa using this
      have hround : ∀ t, (do
          let (state, out) ← apply_delta S verify r.state r.out delta
          let tx_map ← ok_or tx_maps[k + 1]?
            (.bail s!"missing TX_MAPS entry for delta index {k}")
          close_ledger S T sha512half verify r delta tx_map state out) = .ok t ↔
          ledger_step S T sha512half verify r (delta, tx_map) = .ok t := by
        intro t
        unfold ledger_step
        simp only [bind_eq_ok, ok_or_eq_ok, hsome, Option.some.injEq, exists_eq_left']
      simp only [hround, ih hnext, List.zip_cons_cons, foldlM_cons_ok, List.length_cons,
        Nat.add_le_add_iff_right]
      constructor
      · rintro ⟨t, ht, hlen, hrest⟩
        exact ⟨hlen, t, ht, hrest⟩
      · rintro ⟨hlen, t, ht, hrest⟩
        exact ⟨t, ht, hlen, hrest⟩

theorem replay_chunk_ok :
    replay_chunk S T sha512half fuel chunk verify out = .ok res ↔
      chunk.deltas.length ≤ chunk.tx_maps.tail.length ∧
        ∃ cp out₁ r₀ r₁, ReplaySteps S T sha512half fuel chunk verify out cp out₁ r₀ r₁ res := by
  have htail : ∀ j, chunk.tx_maps[0 + j + 1]? = chunk.tx_maps.tail[j]? := by
    intro j
    rw [List.getElem?_tail, Nat.zero_add]
  have hloop := fun r r' : Replay σ τ =>
    @delta_loop_ok σ τ S T sha512half verify chunk.tx_maps chunk.deltas 0 chunk.tx_maps.tail htail
      r r'
  unfold replay_chunk
  simp only [bind_eq_ok, bail_if_eq_ok, ok_or_eq_ok, check_if_eq_ok, check_state_nodes_ok, hloop,
    not_not]
  constructor
  · intro h
    obtain ⟨out₁, hsunk, cp, hcp, -, hroot, -, hcomplete, -, hcontent, r₀, hopen, r₁,
      ⟨hlen, hreplay⟩, hfin⟩ := h
    refine ⟨hlen, cp, out₁, r₀, r₁, hcp, hsunk, hroot, hcomplete, ?_, ?_, hopen, hreplay, hfin⟩
    · intro hv
      obtain ⟨_, hauth, -⟩ := hcontent hv
      exact hauth
    · intro hv
      obtain ⟨_, -, hrehash⟩ := hcontent hv
      exact hrehash
  · intro h
    obtain ⟨hlen, cp, out₁, r₀, r₁, hsteps⟩ := h
    exact ⟨out₁, hsteps.sunk, cp, hsteps.first, (), hsteps.root_held, (), hsteps.complete, (),
      fun hv => ⟨(), hsteps.authentic hv, hsteps.rehash hv⟩, r₀, hsteps.opened, r₁,
      ⟨hlen, hsteps.replayed⟩, hsteps.finished⟩

/-! ## Streaming replay -/

theorem checkpoint_load_state (nodes : List SHAMapNode) (l : CheckpointLoad σ τ) :
    (nodes.foldl (CheckpointLoad.node S sha512half verify) l).state =
      insert_nodes l.state nodes := by
  induction nodes generalizing l with
  | nil => rfl
  | cons n nodes ih =>
    rw [List.foldl_cons, ih]
    rfl

/-- Nothing went wrong in the closure exactly when the sink took every node
    and every node was found to hash to its own hash. -/
theorem checkpoint_load_ok {nodes : List SHAMapNode} {state : StateMap} {out out₁ : Outputs σ τ}
    {l : CheckpointLoad σ τ}
    (hl : nodes.foldl (CheckpointLoad.node S sha512half verify)
      { state, out, bad_checkpoint_hash := none, sink_err := none } = l) :
    (l.sink_err = none ∧ l.bad_checkpoint_hash = none ∧ l.out = out₁) ↔
      sink_nodes S out nodes = .ok out₁ ∧
        (verify = true → verify_state_nodes sha512half nodes = .ok ()) := by
  -- An error of either kind stays to the end.
  have hbad : ∀ (nodes : List SHAMapNode) (l : CheckpointLoad σ τ), l.bad_checkpoint_hash ≠ none →
      (nodes.foldl (CheckpointLoad.node S sha512half verify) l).bad_checkpoint_hash ≠ none := by
    intro nodes
    induction nodes with
    | nil => intro l h; exact h
    | cons n nodes ih =>
      intro l h
      apply ih
      simp [CheckpointLoad.node, h]
  have herr : ∀ (nodes : List SHAMapNode) (l : CheckpointLoad σ τ), l.sink_err ≠ none →
      (nodes.foldl (CheckpointLoad.node S sha512half verify) l).sink_err ≠ none := by
    intro nodes
    induction nodes with
    | nil => intro l h; exact h
    | cons n nodes ih =>
      intro l h
      apply ih
      cases he : l.sink_err with
      | none => exact absurd he h
      | some e => simp [CheckpointLoad.node, he]
  subst hl
  induction nodes generalizing state out with
  | nil => simp [sink_nodes, verify_state_nodes, Pure.pure, Except.pure]
  | cons n nodes ih =>
    rw [List.foldl_cons]
    unfold sink_nodes
    rw [foldlM_cons_ok]
    cases hsink : sink_node S out n with
    | error e =>
      have hne := herr nodes (CheckpointLoad.node S sha512half verify
        { state, out, bad_checkpoint_hash := none, sink_err := none } n)
        (by simp [CheckpointLoad.node, hsink])
      simp [hne]
    | ok out' =>
      by_cases hn : verify = true ∧ recompute_node_hash sha512half n ≠ n.hash
      · have hne := hbad nodes (CheckpointLoad.node S sha512half verify
          { state, out, bad_checkpoint_hash := none, sink_err := none } n)
          (by simp [CheckpointLoad.node, hn])
        constructor
        · rintro ⟨_, hnone, _⟩
          exact absurd hnone hne
        · rintro ⟨_, hrehash⟩
          have := hrehash hn.1
          simp [verify_state_nodes, hn.2] at this
      · have hstep : CheckpointLoad.node S sha512half verify
            { state, out, bad_checkpoint_hash := none, sink_err := none } n =
            { state := state.insert n.hash n, out := out', bad_checkpoint_hash := none,
              sink_err := none } := by
          unfold CheckpointLoad.node
          simp only [true_and, hn, if_false, hsink]
        have hverify : (verify = true → verify_state_nodes sha512half (n :: nodes) = .ok ()) ↔
            (verify = true → verify_state_nodes sha512half nodes = .ok ()) := by
          constructor
          · intro h hv
            have := h hv
            rw [verify_state_nodes, if_neg (fun hne => hn ⟨hv, hne⟩)] at this
            exact this
          · intro h hv
            rw [verify_state_nodes, if_neg (fun hne => hn ⟨hv, hne⟩)]
            exact h hv
        have hrest := @ih (state.insert n.hash n) out'
        rw [hstep, hverify]
        simp only [sink_nodes, Except.ok.injEq, exists_eq_left'] at hrest ⊢
        exact hrest

theorem ledgers_streamed (h : ChunkHeader) (nodes : List SHAMapNode) (first : TxMap)
    (pairs : List (LedgerDelta × TxMap)) : (h.streamed_chunk nodes first pairs).ledgers = pairs := by
  show (pairs.map Prod.fst).zip (pairs.map Prod.snd) = pairs
  rw [List.zip_map']
  simp

/-- The streaming replay of a file: the file holds a chunk, the stored
    chunk hash is that of the bytes up to its footer, and the steps of the
    chunk's replay can be taken. -/
theorem replay_chunk_streaming_ok {file : Bytes} :
    replay_chunk_streaming S T sha512half fuel file verify out = .ok res ↔
      ∃ h body rest chunk, Layout file h body rest chunk ∧
        sha512half body = h.stored_chunk_hash ∧
        ∃ cp out₁ r₀ r₁, ReplaySteps S T sha512half fuel chunk verify out cp out₁ r₀ r₁ res := by
  unfold replay_chunk_streaming ChunkReader.read_checkpoint_tx_map
  simp only [bind_eq_ok, Prod.exists, layout_iff, HashingReader.read_body_ok]
  constructor
  · intro hrun
    obtain ⟨c, hopen, load, c₁, hcp, hrun⟩ := hrun
    obtain ⟨nodes, r₁, hnodes, hfold, hc₁⟩ := ChunkReader.read_checkpoint_ok.mp hcp
    subst hc₁
    cases herr : load.sink_err with
    | some e => rw [herr] at hrun; cases hrun
    | none =>
      rw [herr] at hrun
      simp only [bind_eq_ok, bail_if_eq_ok, pure_eq_ok, check_if_eq_ok, Prod.exists, not_not,
        Prod.mk.injEq] at hrun
      obtain ⟨-, hbad, cp, c₂, ⟨cp', r₂, htx, hcpeq, hc₂⟩, -, hroot, -, hcomplete, -, hauth, rep₀,
        hopened, rep₁, c₃, hloop, u, hfin, hres⟩ := hrun
      subst hcpeq; subst hc₂
      obtain ⟨pairs, r₃, hpairs, hreplay, hc₃⟩ :=
        (ChunkReader.for_each_delta_ok (Nat.lt_succ_self _)).mp hloop
      obtain ⟨⟨rest, body⟩, hfooter, hhash⟩ := ChunkReader.finish_ok.mp hfin
      obtain ⟨fields, h, rest', -, -, hc⟩ := ChunkReader.open_ok.mp hopen
      subst hc₃; subst hc
      have hstate : load.state = checkpoint_state nodes := by
        rw [← hfold, checkpoint_load_state]
        rfl
      obtain ⟨hsunk, hrehash⟩ := (checkpoint_load_ok hfold).mp ⟨herr, hbad, rfl⟩
      rw [hstate] at hroot hcomplete hopened
      refine ⟨h, body, rest, h.streamed_chunk nodes cp' pairs, ⟨_, hopen, rfl, rfl, nodes, r₁, cp',
        r₂, pairs, r₃, hnodes, htx, hpairs, hfooter, rfl⟩, hhash, cp', load.out, rep₀, rep₁, ?_⟩
      refine ⟨rfl, hsunk, hroot, hcomplete, hauth, hrehash, hopened, ?_, hres⟩
      rw [ledgers_streamed]
      exact hreplay
  · intro hsteps
    obtain ⟨h, body, rest, chunk, ⟨c, hopen, hh, hd, nodes, r₁, first, r₂, pairs, r₃, hnodes, htx,
      hpairs, hfooter, hchunk⟩, hhash, cp, out₁, rep₀, rep₁, hsteps⟩ := hsteps
    subst hchunk; subst hh
    have hcp : first = cp := Option.some.inj hsteps.first
    subst hcp
    obtain ⟨load, hload⟩ : ∃ l, nodes.foldl (CheckpointLoad.node S sha512half verify)
        { state := ∅, out, bad_checkpoint_hash := none, sink_err := none } = l := ⟨_, rfl⟩
    obtain ⟨herr, hbad, hout⟩ :=
      (checkpoint_load_ok hload).mpr ⟨hsteps.sunk, hsteps.rehash⟩
    have hstate : load.state = checkpoint_state nodes := by
      rw [← hload, checkpoint_load_state]
      rfl
    have hreplay := hsteps.replayed
    rw [ledgers_streamed] at hreplay
    rw [← hd] at hpairs
    refine ⟨c, hopen, load, { c with inner := r₁ },
      ChunkReader.read_checkpoint_ok.mpr ⟨nodes, r₁, hnodes, hload, rfl⟩, ?_⟩
    rw [herr]
    simp only [hbad, hout, hstate, bind_eq_ok, bail_if_eq_ok, pure_eq_ok, check_if_eq_ok,
      Prod.exists, not_not]
    exact ⟨(), trivial, first, _, ⟨first, r₂, htx, rfl⟩, (), hsteps.root_held, (), hsteps.complete,
      (), hsteps.authentic, rep₀, hsteps.opened, rep₁, { c with inner := r₃, deltas_remaining := 0 },
      (ChunkReader.for_each_delta_ok (Nat.lt_succ_self _)).mpr ⟨pairs, r₃, hpairs, hreplay, rfl⟩,
      (), ChunkReader.finish_ok.mpr ⟨_, hfooter, hhash⟩, hsteps.finished⟩

/-! ## Refinement -/

/-- The file is a v3 chunk with nothing behind its footer. -/
def EndsAtFooter (file : Bytes) : Prop :=
  ∃ h body chunk, Layout file h body [] chunk

/-- On a parsed file that ends at its footer the two replays return the
    same state, the same rows and the same outputs, with the same calls
    made to the sink and the database, or neither returns. -/
theorem replay_chunk_streaming_refines {file : Bytes} {chunk : Chunk} (hv : file[4]? = some 3)
    (hparse : deserialize_chunk sha512half file = .ok chunk) (hend : EndsAtFooter file)
    (fuel : Nat) (verify : Bool) (out : Outputs σ τ) (result : ReplayResult)
    (out' : Outputs σ τ) :
    replay_chunk_streaming S T sha512half fuel file verify out = .ok (result, out') ↔
      replay_chunk S T sha512half fuel chunk verify out = .ok (result, out') := by
  obtain ⟨h, body, rest, hl, hhash⟩ := (deserialize_chunk_ok hv).mp hparse
  obtain ⟨h', body', chunk', hl'⟩ := hend
  obtain ⟨rfl, rfl, rfl, rfl⟩ := hl.unique hl'
  rw [List.append_nil] at hhash
  rw [replay_chunk_streaming_ok, replay_chunk_ok]
  constructor
  · rintro ⟨h₂, body₂, rest₂, chunk₂, hl₂, _, hsteps⟩
    obtain ⟨-, -, -, rfl⟩ := hl.unique hl₂
    exact ⟨hl.deltas_le, hsteps⟩
  · rintro ⟨_, hsteps⟩
    exact ⟨h, body, [], chunk, hl, hhash, hsteps⟩

/-- A state of a single account, at the root. -/
def lone_account : SHAMapNode :=
  { hash := sha2_sha512half [1], node_type := .AccountState, content := [1] }

/-- Another one. -/
def other_account : SHAMapNode :=
  { hash := sha2_sha512half [3], node_type := .AccountState, content := [3] }

/-- An empty ledger with its hash. -/
def hashed_tx_map (ledger_seq : UInt32) (parent_hash account_hash : Hash256) : TxMap :=
  let m := empty_tx_map ledger_seq ZERO_HASH account_hash
  { m with
    ledger_hash := calculate_ledger_hash sha2_sha512half (m.header parent_hash ZERO_HASH account_hash) }

/-- A root with the account in the first slot. -/
def one_slot_root (account : SHAMapNode) : SHAMapNode :=
  inner_node sha2_sha512half (account.hash :: List.replicate 15 ZERO_HASH)

/-- Ledgers 7 to 9: the one account, the other one, and the first again. -/
def there_and_back_chunk : Chunk :=
  let one := one_slot_root lone_account
  let other := one_slot_root other_account
  let first := hashed_tx_map 7 ZERO_HASH one.hash
  let second := hashed_tx_map 8 first.ledger_hash other.hash
  let third := hashed_tx_map 9 second.ledger_hash one.hash
  { network_id := 1, start_ledger := 7, end_ledger := 9, checkpoint_hash := first.ledger_hash,
    chunk_hash := ZERO_HASH, checkpoint := [one, lone_account]
    deltas := [
      { ledger_seq := 8,
        diff := { added := [other, other_account], deleted := [one.hash, lone_account.hash] } },
      { ledger_seq := 9,
        diff := { added := [one, lone_account], deleted := [other.hash, other_account.hash] } }]
    tx_maps := [first, second, third] }

def there_and_back_file : Bytes := (there_and_back_chunk.write_stream.finish sha2_sha512half).2

/-- A sink that keeps what it is given. -/
def KeepingSink : NodeSink (List (Hash256 × Bytes)) where
  contains kept hash := kept.any fun p => p.1 = hash
  write_node kept hash value := .ok (kept ++ [(hash, value)])

/-- No transaction database is given. -/
def NoTxDb : TxDb Unit where
  write_ledger _ _ := .ok ()

/-- The nodes of the first ledger come twice. The second time the sink is
    asked for them and holds them. -/
theorem there_and_back_replayed :
    (replay_chunk KeepingSink NoTxDb sha2_sha512half 4 (there_and_back_chunk.read_back
      sha2_sha512half there_and_back_file) true ⟨[], none, []⟩).toOption.map
        (fun r => (r.2.sink.map Prod.fst, r.2.calls.drop 8)) =
      some ([(one_slot_root lone_account).hash, lone_account.hash, (one_slot_root other_account).hash,
        other_account.hash], [.contains (one_slot_root lone_account).hash, .contains lone_account.hash]) := by
  decide +kernel

theorem replay_chunk_streaming_refines_there_and_back : ∃ chunk result out',
    deserialize_chunk sha2_sha512half there_and_back_file = .ok chunk ∧
      replay_chunk KeepingSink NoTxDb sha2_sha512half 4 chunk true ⟨[], none, []⟩ =
        .ok (result, out') ∧
      replay_chunk_streaming KeepingSink NoTxDb sha2_sha512half 4 there_and_back_file true
        ⟨[], none, []⟩ = .ok (result, out') ∧
      out'.sink.map Prod.fst = [(one_slot_root lone_account).hash, lone_account.hash,
        (one_slot_root other_account).hash, other_account.hash] := by
  have hn : there_and_back_chunk.Narrow := by decide +kernel
  have hc : there_and_back_chunk.Counted := ⟨by decide, by decide⟩
  obtain ⟨body, hl, -, -⟩ := @write_stream_layout sha2_sha512half _ hn hc
  have hparse := @write_stream_read_back sha2_sha512half _ hn hc
  obtain ⟨⟨result, out'⟩, hreplay, hout⟩ := Option.map_eq_some_iff.mp there_and_back_replayed
  have hreplay := toOption_eq_some.mp hreplay
  refine ⟨_, result, out', hparse, hreplay, ?_, congrArg Prod.fst hout⟩
  exact (replay_chunk_streaming_refines hl.version hparse ⟨_, body, _, hl⟩ 4 true _ _ _).mpr hreplay

/-! ## Chunks that a replay accepts -/

/-- One of the two replays returns `res` for `chunk`: the buffered one for a
    chunk with a TX map for each ledger, which is what the reader returns
    (`deserialize_chunk_length`), or the streaming one for a file with it. -/
inductive Replays (S : NodeSink σ) (T : TxDb τ) (sha512half : Bytes → Hash256) (verify : Bool)
    (out : Outputs σ τ) (chunk : Chunk) (res : ReplayResult × Outputs σ τ) : Prop where
  | buffered (fuel : Nat) (hlen : chunk.tx_maps.length = chunk.deltas.length + 1)
      (h : replay_chunk S T sha512half fuel chunk verify out = .ok res)
  | streamed (fuel : Nat) (file : Bytes) (header : ChunkHeader) (body rest : Bytes)
      (hl : Layout file header body rest chunk)
      (h : replay_chunk_streaming S T sha512half fuel file verify out = .ok res)

theorem Replays.steps (h : Replays S T sha512half verify out chunk res) :
    chunk.tx_maps.length = chunk.deltas.length + 1 ∧
      ∃ fuel cp out₁ r₀ r₁, ReplaySteps S T sha512half fuel chunk verify out cp out₁ r₀ r₁ res := by
  cases h with
  | buffered fuel hlen h =>
    obtain ⟨-, hsteps⟩ := replay_chunk_ok.mp h
    exact ⟨hlen, fuel, hsteps⟩
  | streamed fuel file header body rest hl h =>
    obtain ⟨h₂, body₂, rest₂, chunk₂, hl₂, -, hsteps⟩ := replay_chunk_streaming_ok.mp h
    obtain ⟨-, -, -, rfl⟩ := hl.unique hl₂
    exact ⟨hl.tx_maps_length, fuel, hsteps⟩

end LedgerArchive
