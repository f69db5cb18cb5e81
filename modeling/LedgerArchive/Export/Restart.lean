import LedgerArchive.Export.Publish

/-! # An export that was stopped, and the export of the rest

    An export is stopped somewhere, and has published its chunks up to the
    ledger `m`. Another export, perhaps at another level of concurrency and
    on another copy of the store, starts behind `m` in the same directory.
    When it comes to its end, the directory holds the files of the whole
    range as an export that was never stopped writes them
    (`export_restarts`). -/

namespace LedgerArchive

open Lib Prog

variable {sha512half : Bytes → Hash256} {args : Args} {order order₂ : MapOrder} {store : Store}
  {ledger_db : LedgerIndex} {xxh64 : Bytes → UInt64 → UInt64} {lz4 : Bytes → Nat → Option Bytes}
  {r r₂ : NuDBReader} {m : UInt32} {c c₂ fuel fuel₂ : Nat} {chunks : List WrittenChunk}

/-- The chunk of a file ends where the file's name says. -/
theorem WrittenChunk.file_next {a b : WrittenChunk}
    (hnetwork : a.header.network_id = b.header.network_id)
    (h : a.file sha512half = b.file sha512half) : a.next_ledger = b.next_ledger := by
  have hname : (a.file sha512half).name = (b.file sha512half).name := congrArg ChunkFile.name h
  unfold WrittenChunk.file at hname
  dsimp only at hname
  rw [hnetwork] at hname
  unfold WrittenChunk.next_ledger
  rw [(chunk_filename_inj hname).2]

/-- A program that returned without an error has exported the range. -/
theorem exports_of_done {files : List ChunkFile}
    (h : ∃ fuel', export_main sha512half args order (r.get_node xxh64 lz4 fuel) fuel' ledger_db c =
      .ok files) : Exports xxh64 lz4 sha512half args ledger_db r c order files := by
  obtain ⟨fuel', h⟩ := h
  exact ⟨max fuel fuel', export_main_within (get_node_answers r (le_max_left _ _))
    (le_max_right _ _) c files h⟩

/-- A chunk that goes up to a border of chunks ends there. -/
theorem Running.chunk_end_eq_border {get_node : Hash256 → Except Error SHAMapNode} {e : Export}
    {done : List WrittenChunk} {current : WrittenChunk}
    (h : Running sha512half args get_node fuel ledger_db c e m done current) (hm : args.ChunkEnds m)
    (hfirst : args.start ≤ m) (hle : m ≤ args.end) (hmax : m.toNat + 1 < 2 ^ 32) :
    current.header.end_ledger = m := by
  obtain ⟨k, hk⟩ := h.grid.start
  have hfull := hm.full (hm.size hfirst) hk h.grid.start_le
  have hlast := h.grid.last_lt
  rw [h.end_ledger, h.chunk_end]
  exact chunk_end_eq (by omega) hmax hle

/-- At a border of chunks an export has chunks that go up to there. -/
theorem border_chunks {get_node : Hash256 → Except Error SHAMapNode} {e eₘ : Export}
    (hm : args.ChunkEnds m) (hfirst : args.start ≤ m) (hlt : m < args.end)
    (hmax : args.end.toNat + 1 < 2 ^ 32)
    (hstart : export_start sha512half args order get_node fuel ledger_db c = .ok e)
    (hrun : (batch_seqs (args.start + 1) m).foldlM
      (export_next sha512half args order get_node fuel ledger_db) e = .ok eₘ) :
    ∃ before, eₘ.finish_chunk sha512half args = before.map (WrittenChunk.file sha512half) ∧
      Tiles WrittenChunk.first_ledger WrittenChunk.next_ledger args.start.toNat before
        (m.toNat + 1) ∧
      ∀ a ∈ before, a.header.network_id = args.network_id := by
  have hsize := hm.size hfirst
  have hle := UInt32.le_of_lt hlt
  have hfirst' := UInt32.le_iff_toNat_le.mp hfirst
  have hlt' := UInt32.lt_iff_toNat_lt.mp hlt
  have hcount : m.toNat + 1 - (args.start.toNat + 1) = m.toNat - args.start.toNat := by omega
  rw [batch_seqs, toNat_succ (by omega), hcount] at hrun
  obtain ⟨current, hrunning⟩ := Running.start hsize (by omega) hstart
  obtain ⟨done, current, hrunning⟩ := running_all hsize hmax hle _ hrunning (by omega) hrun
  -- The chunk that is open behind the loop ends with `m`, so it is whole.
  obtain ⟨htiles, hcomplete⟩ :=
    hrunning.close (hrunning.chunk_end_eq_border hm hfirst hle (by omega))
  exact ⟨_, hrunning.finish, htiles, fun a ha => (hcomplete a ha).network_id⟩

/-- Chunks that are published up to `m` are the files in front of `m`. -/
theorem FirstChunks.eq_before {before : List WrittenChunk} {tail : List ChunkFile}
    {get_node : Hash256 → Except Error SHAMapNode}
    (h : FirstChunks sha512half args get_node fuel ledger_db c chunks)
    (htiles : Tiles WrittenChunk.first_ledger WrittenChunk.next_ledger args.start.toNat chunks
      (m.toNat + 1))
    (htiles' : Tiles WrittenChunk.first_ledger WrittenChunk.next_ledger args.start.toNat before
      (m.toNat + 1))
    (hnetwork' : ∀ a ∈ before, a.header.network_id = args.network_id)
    (hbegins : chunks.map (WrittenChunk.file sha512half) <+:
      before.map (WrittenChunk.file sha512half) ++ tail) :
    chunks.map (WrittenChunk.file sha512half) = before.map (WrittenChunk.file sha512half) := by
  have hnetwork : ∀ a ∈ chunks, ∀ b ∈ before, a.header.network_id = b.header.network_id := by
    intro a ha b hb
    rw [(h.complete a ha).network_id, hnetwork' b hb]
  -- Both begin the same list, so one of them begins the other.
  rcases List.prefix_or_prefix_of_prefix hbegins (List.prefix_append _ _) with hle | hge
  · exact htiles.eq_of_prefix htiles' hle fun a ha b hb heq =>
      WrittenChunk.file_next (hnetwork a ha b hb) heq
  · exact (htiles'.eq_of_prefix htiles hge fun b hb a ha heq =>
      WrittenChunk.file_next (hnetwork a ha b hb).symm heq).symm

/-- Where no chunk was before, the names in the directory tell which chunks
    are published, and up to which ledger. -/
theorem ExportLeaves.up_to {may : ExportOp → Prop} {d₀ d : ExportDir}
    {result : Option (Except ExportStop Unit)} {tmp : String}
    {get_node : Hash256 → Except Error SHAMapNode}
    (h : ExportLeaves sha512half args order get_node fuel ledger_db c may d₀ d result chunks tmp)
    (hempty : ∀ a b, d₀ (chunk_filename args.network_id a b) = none)
    (hthere : ∃ a, d (chunk_filename args.network_id a m) ≠ none)
    (hnot : ∀ a b, m < b → d (chunk_filename args.network_id a b) = none) :
    Tiles WrittenChunk.first_ledger WrittenChunk.next_ledger args.start.toNat chunks
        (m.toNat + 1) ∧
      args.start ≤ m ∧ m ≤ args.end ∧ (m < args.end → args.ChunkEnds m) := by
  obtain ⟨next, htiles, hgrid⟩ := h.first.tiles
  obtain ⟨a, ha⟩ := hthere
  obtain ⟨a', b', rfl⟩ := h.tmp_name
  -- The file that ends with `m` is one of the chunks.
  have hlast : ∃ x ∈ chunks, x.header.end_ledger = m := by
    by_contra hno
    refine ha ((h.others _ (chunk_filename_ne_tmp _ _ _ _ _) fun x hx => ?_).trans (hempty a m))
    rw [h.first.name_eq hx]
    refine ⟨fun heq => hno ⟨x, hx, ?_⟩, chunk_filename_ne_tmp _ _ _ _ _⟩
    exact (chunk_filename_inj heq).2.symm
  obtain ⟨x, hx, hend⟩ := hlast
  have hall : ∀ y ∈ chunks, y.header.end_ledger ≤ m := by
    intro y hy
    by_contra hgt
    have hwhole := h.whole y hy
    rw [h.first.name_eq hy, hnot _ _ (UInt32.not_le.mp hgt)] at hwhole
    cases hwhole
  obtain ⟨y, hy, heq⟩ := htiles.exists_next_eq hx
  obtain ⟨hlt, hle⟩ := htiles.of_mem hx
  have hge := UInt32.le_iff_toNat_le.mp (hall y hy)
  have hfirst := htiles.le_of_mem hx
  unfold WrittenChunk.next_ledger at heq hle hlt
  rw [hend] at hle hlt
  obtain rfl : next = m.toNat + 1 := by omega
  refine ⟨htiles, UInt32.le_iff_toNat_le.mpr (by omega), hend ▸ h.first.within x hx, fun hin => ?_⟩
  exact hgrid (UInt32.lt_iff_toNat_lt.mp hin)

/-- Chunks up to `m` and chunks behind it have names of their own. -/
theorem FirstChunks.apart {get_node get_node₂ : Hash256 → Except Error SHAMapNode}
    {chunks₂ : List WrittenChunk}
    (h : FirstChunks sha512half args get_node fuel ledger_db c chunks)
    (htiles : Tiles WrittenChunk.first_ledger WrittenChunk.next_ledger args.start.toNat chunks
      (m.toNat + 1))
    (h₂ : FirstChunks sha512half (args.starting (m + 1)) get_node₂ fuel₂ ledger_db c₂ chunks₂)
    (hsucc : (m + 1).toNat = m.toNat + 1) :
    ∀ a ∈ chunks, ∀ b ∈ chunks₂, (a.file sha512half).name ≠ (b.file sha512half).name ∧
      (a.file sha512half).name ≠ tmp_path (b.file sha512half).name := by
  intro a ha b hb
  rw [h.name_eq ha, h₂.name_eq hb]
  refine ⟨fun heq => ?_, chunk_filename_ne_tmp _ _ _ _ _⟩
  -- The one chunk ends where the other ones begin.
  obtain ⟨next₂, htiles₂, -⟩ := h₂.tiles
  obtain ⟨hlt, hle⟩ := htiles.of_mem ha
  have hge : (m + 1).toNat ≤ b.first_ledger := htiles₂.le_of_mem hb
  have hsame : a.first_ledger = b.first_ledger := congrArg UInt32.toNat (chunk_filename_inj heq).1
  omega

/-- What an export has published up to a border of chunks, and the files of
    an export of the rest, are the files of the whole range. -/
theorem ExportLeaves.exports {may : ExportOp → Prop} {d₀ d : ExportDir}
    {result : Option (Except ExportStop Unit)} {tmp : String} {tail : List ChunkFile}
    (hr : r.Holds xxh64 lz4 store) (hs : Source sha512half args store ledger_db)
    (hroot : ∀ seq info, seq = args.start ∨ seq = m + 1 → ledger_db.get seq = .ok info →
      info.account_hash ≠ ZERO_HASH)
    (hf : NumbersFit args (batch_size c)) (hf₂ : NumbersFit (args.starting (m + 1)) (batch_size c₂))
    (h : ExportLeaves sha512half args order (r.get_node xxh64 lz4 fuel) fuel ledger_db c may d₀ d
      result chunks tmp)
    (htiles : Tiles WrittenChunk.first_ledger WrittenChunk.next_ledger args.start.toNat chunks
      (m.toNat + 1))
    (hm : args.ChunkEnds m) (hfirst : args.start ≤ m) (hlt : m < args.end)
    (hlast : m + 1 < args.end)
    (htail : Exports xxh64 lz4 sha512half (args.starting (m + 1)) ledger_db r c₂ order₂ tail) :
    Exports xxh64 lz4 sha512half args ledger_db r c order
      (chunks.map (WrittenChunk.file sha512half) ++ tail) := by
  obtain ⟨fuel', -, files, hall⟩ := @Source.exports sha512half args order store ledger_db c xxh64 lz4
    r hr hs (UInt32.lt_of_le_of_lt hfirst hlt) (hm.size hfirst) hf
    (fun info => hroot args.start info (.inl rfl)) 0
  -- The files of the whole range are those in front of `m` and those of the rest.
  obtain ⟨k, hsplit⟩ := Exports.at_border hr hs hm hfirst hlt hlast hroot hf.no_wrap hf₂.no_wrap
    ⟨fuel', hall⟩ htail
  obtain ⟨e, eₘ, hstart, hrun, -, rfl⟩ := hsplit k le_rfl
  obtain ⟨before, hbefore, htiles', hnetwork'⟩ :=
    border_chunks hm hfirst hlt hf.end_lt hstart hrun
  rw [hbefore] at hall
  -- What the first export has left begins the files of the whole range.
  have hmain := export_main_within (get_node_answers r (le_max_left fuel' fuel))
    (le_max_left fuel' fuel) c _ hall
  have hbegins := h.part _ _ _ (get_node_answers r (le_max_right fuel' fuel))
    (le_max_right fuel' fuel) hmain
  rw [← h.first.eq_before htiles htiles' hnetwork' hbegins] at hall
  exact ⟨fuel', hall⟩

/-- An export of a good source into a directory without chunks is stopped
    anywhere, with any failures; the last chunk that is there ends with the
    ledger `m`. Another export, of what is behind `m`, comes to its end. Then
    the directory holds the files of an export that was never stopped, and
    every other file but a temporary one is as it was. -/
theorem export_restarts (hr : r.Holds xxh64 lz4 store) (hs₂ : SameNodes xxh64 lz4 r r₂)
    (hs : Source sha512half args store ledger_db)
    (hroot : ∀ seq info, seq = args.start ∨ seq = m + 1 → ledger_db.get seq = .ok info →
      info.account_hash ≠ ZERO_HASH)
    (hf : NumbersFit args (batch_size c))
    (hf₂ : NumbersFit (args.starting (m + 1)) (batch_size c₂))
    (fails fails₂ : Nat → ExportOp → Bool) (d₀ : ExportDir)
    (hempty : ∀ a b, d₀ (chunk_filename args.network_id a b) = none) (n n₂ : Nat)
    {stopped resumed : ExportDir × Option (Except ExportStop Unit)}
    (hstopped : stopped = run DirOp.exec fails
      (export_files sha512half args order (r.get_node xxh64 lz4 fuel) fuel ledger_db c) n d₀)
    (hthere : ∃ a, stopped.1 (chunk_filename args.network_id a m) ≠ none)
    (hnot : ∀ a b, m < b → stopped.1 (chunk_filename args.network_id a b) = none)
    (hresumed : resumed = run DirOp.exec fails₂ (export_files sha512half (args.starting (m + 1))
      order₂ (r₂.get_node xxh64 lz4 fuel₂) fuel₂ ledger_db c₂) n₂ stopped.1)
    (hok : resumed.2 = some (.ok ())) :
    ∃ files, Exports xxh64 lz4 sha512half args ledger_db r c order files ∧
      (∀ f ∈ files, resumed.1 f.name = some (.whole f.bytes)) ∧
      ∀ name, (∀ f ∈ files, name ≠ f.name) →
        (∀ a b, name ≠ tmp_path (chunk_filename args.network_id a b)) →
        resumed.1 name = d₀ name := by
  obtain ⟨chunks, tmp, hleaves⟩ := export_files_leaves hf hstopped
  obtain ⟨chunks₂, tmp₂, hleaves₂⟩ := export_files_leaves hf₂ hresumed
  obtain ⟨htiles, hfirst, hle, hborder⟩ := hleaves.up_to hempty hthere hnot
  obtain ⟨hdone, -, hothers₂⟩ := hleaves₂.done hok
  -- The second export has ledgers of its own, so `m` is in front of the end.
  have hlast : m + 1 < args.end := by
    obtain ⟨_, hmain⟩ := hdone
    exact UInt32.not_le.mp (export_main_ok.mp hmain).1
  have hsucc : (m + 1).toNat = m.toNat + 1 := toNat_succ (by
    have hmax := hf.end_lt
    rw [UInt32.le_iff_toNat_le] at hle
    omega)
  have hlt : m < args.end := by
    rw [UInt32.lt_iff_toNat_lt] at hlast ⊢
    omega
  have htail := (exports_of_done hdone).other hs₂.symm order₂ hf₂.no_wrap hf₂.no_wrap
  have hall := hleaves.exports hr hs hroot hf hf₂ htiles (hborder hlt) hfirst hlt hlast htail
  -- The second export does not touch what the first one has published.
  have hapart := hleaves.first.apart htiles hleaves₂.first hsucc
  refine ⟨_, hall, ?_, ?_⟩
  · intro f hf
    rcases List.mem_append.mp hf with hf | hf
    · obtain ⟨a, ha, rfl⟩ := List.mem_map.mp hf
      rw [← hleaves.whole a ha]
      exact hothers₂ _ fun b hb => hapart a ha b hb
    · obtain ⟨b, hb, rfl⟩ := List.mem_map.mp hf
      exact hleaves₂.whole b hb
  · intro name hname htmp
    obtain ⟨a', b', rfl⟩ := hleaves.tmp_name
    have hstopped : stopped.1 name = d₀ name := by
      refine hleaves.others name (htmp a' b') fun a ha => ⟨?_, ?_⟩
      · exact hname _ (List.mem_append_left _ (List.mem_map_of_mem ha))
      · rw [hleaves.first.name_eq ha]
        exact htmp _ _
    rw [← hstopped]
    refine hothers₂ name fun b hb => ⟨?_, ?_⟩
    · exact hname _ (List.mem_append_right _ (List.mem_map_of_mem hb))
    · rw [hleaves₂.first.name_eq hb]
      exact htmp _ _

/-! ## Stopped in the second of two chunks -/

/-- The export of the last two ledgers, in the directory that was left. -/
def four_resumed : ExportDir × Option (Except ExportStop Unit) :=
  run DirOp.exec (fun _ _ => false) (export_files sha2_sha512half (four_args.starting (8 + 1))
    by_hash ((written_reader Xxh64.digest bare_nodes).get_node Xxh64.digest (fun _ _ => none) 5) 5
    four_rows 2) 40 four_stopped.1

def returned {ε : Type} : Option (Except ε Unit) → Bool
  | some (.ok ()) => true
  | _ => false

theorem returned_eq {ε : Type} {result : Option (Except ε Unit)} (h : returned result = true) :
    result = some (.ok ()) := by
  match result with
  | some (.ok ()) => rfl
  | none => cases h
  | some (.error _) => cases h

theorem four_facts :
    returned four_resumed.2 = true ∧
      (export_main sha2_sha512half four_args by_hash ((written_reader Xxh64.digest
          bare_nodes).get_node Xxh64.digest (fun _ _ => none) 5) 5 four_rows 1).toOption.map
        (fun files => files.map ChunkFile.name) = some
          [chunk_filename four_args.network_id 7 8, chunk_filename four_args.network_id 9 10] := by
  decide +kernel

/-- No chunk behind ledger 8 is there: the published chunks begin the two of
    the whole export, and the second one is not among them. -/
theorem four_stopped_none (a b : UInt32) (hb : 8 < b) :
    four_stopped.1 (chunk_filename four_args.network_id a b) = none := by
  obtain ⟨-, hsecond, -⟩ := four_stopped_files
  obtain ⟨-, hmain⟩ := four_facts
  obtain ⟨files, hfiles, hnames⟩ := Option.map_eq_some_iff.mp hmain
  obtain ⟨chunks, tmp, hleaves⟩ := @export_files_leaves sha2_sha512half four_args by_hash
    ((written_reader Xxh64.digest bare_nodes).get_node Xxh64.digest (fun _ _ => none) 5) 5
    four_rows 1 (fun _ => none) disk_gone 40 four_stopped
    (four_fit (by decide) (by decide) (by decide) (by decide)) rfl
  generalize four_stopped = stopped at hsecond hleaves ⊢
  have hbegins := hleaves.part _ _ _ (Answers.refl _) le_rfl (toOption_eq_some.mp hfiles)
  have hnames' := hbegins.map ChunkFile.name
  rw [hnames] at hnames'
  obtain ⟨a', b', rfl⟩ := hleaves.tmp_name
  refine hleaves.others _ (chunk_filename_ne_tmp _ _ _ _ _) fun x hx => ?_
  have hmem := hnames'.subset (List.mem_map_of_mem (List.mem_map_of_mem hx))
  refine ⟨fun heq => ?_, ?_⟩
  -- The first chunk ends with ledger 8, and the second one is not there.
  · rcases List.mem_pair.mp hmem with hone | htwo
    · rw [hone] at heq
      rw [(chunk_filename_inj heq).2] at hb
      exact absurd hb (by decide)
    · have hwhole := hleaves.whole x hx
      rw [htwo] at hwhole
      exact absurd (hsecond.symm.trans hwhole) (by simp)
  · rw [hleaves.first.name_eq hx]
    exact chunk_filename_ne_tmp _ _ _ _ _

theorem export_restarts_four :
    ∃ files, Exports Xxh64.digest (fun _ _ => none) sha2_sha512half four_args four_rows
        (written_reader Xxh64.digest bare_nodes) 1 by_hash files ∧
      (∀ f ∈ files, four_resumed.1 f.name = some (.whole f.bytes)) ∧
      ∀ name, (∀ f ∈ files, name ≠ f.name) →
        (∀ a b, name ≠ tmp_path (chunk_filename four_args.network_id a b)) →
        four_resumed.1 name = none := by
  obtain ⟨-, hformats, -, -, hz, hz', hsize, -⟩ := bare_facts
  obtain ⟨hthere, -⟩ := four_stopped_files
  obtain ⟨hreturned, -⟩ := four_facts
  have hholds := written_reader_holds Xxh64.digest (fun _ _ => none) bare_nodes
    (fun n hn => (hformats n hn).2) hsize
  have hroot : ∀ seq info, seq = four_args.start ∨ seq = 8 + 1 → four_rows.get seq = .ok info →
      info.account_hash ≠ ZERO_HASH := by
    rintro seq info (rfl | rfl) hrow
    · have hrow' : four_rows.get four_args.start = .ok bare_first := LedgerIndex.get_row rfl
      obtain rfl := Except.ok.inj (hrow.symm.trans hrow')
      exact hz
    · have hrow' : four_rows.get (8 + 1) = .ok four_third := LedgerIndex.get_row rfl
      obtain rfl := Except.ok.inj (hrow.symm.trans hrow')
      exact hz
  exact @export_restarts sha2_sha512half four_args by_hash by_hash (nodes_store bare_nodes)
    four_rows Xxh64.digest (fun _ _ => none) (written_reader Xxh64.digest bare_nodes)
    (written_reader Xxh64.digest bare_nodes) 8 1 2 5 5 hholds (fun _ _ => Iff.rfl) four_source hroot
    (four_fit (by decide) (by decide) (by decide) (by decide))
    (four_fit (by decide) (by decide) (by decide) (by decide)) disk_gone (fun _ _ => false)
    (fun _ => none) (fun _ _ => rfl) 40 40 four_stopped four_resumed rfl
    ⟨7, Option.isSome_iff_ne_none.mp hthere⟩ four_stopped_none rfl (returned_eq hreturned)

end LedgerArchive
