import LedgerArchive.Common.Serialize

/-! # The two v3 readers

    `deserialize_chunk` and a driven `ChunkReader` run the same decoders on
    the same bytes and differ in one point: what they hash. The first
    hashes everything behind the header, the second what it has consumed.
    Both therefore reduce to one statement about the file, `Layout`, and
    a comparison of two hashes. -/

namespace LedgerArchive

open Lib

variable {sha512half : Bytes → Hash256}

/-! ## The layout of a v3 file -/

/-- `file` is a v3 header `h`, then `body`, which the decoders turn into
    `chunk`, then `rest`. -/
structure Layout (file : Bytes) (h : ChunkHeader) (body rest : Bytes) (chunk : Chunk) : Prop where
  header : ∃ fields, file = MAGIC_HEADER ++ [FORMAT_VERSION_STREAMED] ++ fields ++ (body ++ rest) ∧
    read_header_fields.Reads fields h
  body : (read_body FORMAT_VERSION_STREAMED h).Reads body chunk

theorem Layout.version {file body rest : Bytes} {h : ChunkHeader} {chunk : Chunk}
    (hl : Layout file h body rest chunk) : file[4]? = some FORMAT_VERSION_STREAMED := by
  obtain ⟨⟨fields, hfile, -⟩, -⟩ := hl
  rw [hfile]
  rfl

@[simp] theorem read_exact_reads {n : Nat} {used a : Bytes} :
    (read_exact n).Reads used a ↔ used = a ∧ a.length = n := by
  unfold Get.Reads read_exact
  simp only [Get.run, Get.run_pure]
  constructor
  · intro h
    split at h
    · next hle =>
      simp only [Except.ok.injEq, Prod.mk.injEq, List.drop_eq_nil_iff] at h
      obtain ⟨ha, hlen⟩ := h
      rw [List.take_of_length_le hlen] at ha
      exact ⟨ha, by rw [← ha]; omega⟩
    · cases h
  · intro h
    obtain ⟨hu, hlen⟩ := h
    subst hu; subst hlen
    simp

@[simp] theorem read_u8_reads {used : Bytes} {v : UInt8} : read_u8.Reads used v ↔ used = [v] := by
  unfold Get.Reads read_u8
  simp only [Get.run_bind, Get.run_pure]
  constructor
  · intro h
    obtain ⟨⟨b, rest⟩, hb, hv⟩ := bind_eq_ok.mp h
    obtain ⟨u, hu, hread⟩ := Get.run_eq_ok_iff.mp hb
    obtain ⟨hub, hlen⟩ := read_exact_reads.mp hread
    simp only [Except.ok.injEq, Prod.mk.injEq] at hv
    obtain ⟨x, hx⟩ := List.length_eq_one_iff.mp hlen
    rw [hu, hub, hx, hv.2, ← hv.1, hx]
    rfl
  · intro h
    subst h
    rfl

/-! ## The hashing reader -/

theorem HashingReader.read_ok {α : Type} {r r' : HashingReader} {g : Get ChunkError α} {a : α} :
    r.read g = .ok (a, r') ↔
      ∃ used, r.inner = used ++ r'.inner ∧ r'.hasher = r.hasher ++ used ∧ g.Reads used a := by
  have hrun : r.read g = .ok (a, r') ↔
      g.runSeen r.inner r.hasher = .ok (a, r'.inner, r'.hasher) := by
    unfold HashingReader.read
    cases hg : g.runSeen r.inner r.hasher with
    | error e => simp [from_chunk, Bind.bind, Except.bind]
    | ok p =>
      obtain ⟨b, i, s⟩ := p
      obtain ⟨i', s'⟩ := r'
      simp [from_chunk, Bind.bind, Except.bind, Pure.pure, Except.pure]
  rw [hrun, Get.runSeen_ok_iff]

theorem HashingReader.read_pure_ok {α : Type} {r r' : HashingReader} {a b : α} :
    r.read (pure a) = .ok (b, r') ↔ a = b ∧ r = r' := by
  obtain ⟨i, s⟩ := r
  obtain ⟨i', s'⟩ := r'
  unfold HashingReader.read
  rw [Get.runSeen_pure]
  simp [from_chunk, Bind.bind, Except.bind, Pure.pure, Except.pure]

/-- Two reads in a row are one read of the sequence. -/
theorem HashingReader.read_bind_ok {α β : Type} {r r' : HashingReader} {g : Get ChunkError α}
    {f : α → Get ChunkError β} {b : β} :
    r.read (g >>= f) = .ok (b, r') ↔ ∃ a r₁, r.read g = .ok (a, r₁) ∧ r₁.read (f a) = .ok (b, r') := by
  unfold HashingReader.read
  rw [Get.runSeen_bind]
  cases hg : g.runSeen r.inner r.hasher with
  | error e => simp [from_chunk, Bind.bind, Except.bind]
  | ok p =>
    obtain ⟨a, i, s⟩ := p
    simp only [from_chunk, Bind.bind, Except.bind, Pure.pure, Except.pure, Except.ok.injEq,
      Prod.mk.injEq]
    constructor
    · intro h
      exact ⟨a, ⟨i, s⟩, ⟨rfl, rfl⟩, h⟩
    · rintro ⟨a', r₁, ⟨ha, hr₁⟩, h⟩
      subst ha; subst hr₁
      exact h

/-! ## The loops of the streaming reader

    Reading and processing alternate in the source. Since neither looks at
    the other's state, a loop that succeeds is "read everything, then
    process everything". -/

theorem ChunkReader.checkpoint_nodes_ok {β : Type} {f : β → SHAMapNode → β} {n : Nat} {b b' : β}
    {r r' : HashingReader} :
    checkpoint_nodes f n b r = .ok (b', r') ↔
      ∃ nodes, r.read (Get.times n read_node) = .ok (nodes, r') ∧ nodes.foldl f b = b' := by
  induction n generalizing b r with
  | zero =>
    simp only [checkpoint_nodes, Get.times, HashingReader.read_pure_ok, Except.ok.injEq,
      Prod.mk.injEq]
    constructor
    · rintro ⟨hb, hr⟩
      exact ⟨[], ⟨rfl, hr⟩, hb⟩
    · rintro ⟨nodes, ⟨hn, hr⟩, hb⟩
      subst hn
      exact ⟨hb, hr⟩
  | succ n ih =>
    simp only [checkpoint_nodes, bind_eq_ok, Get.times, HashingReader.read_bind_ok]
    constructor
    · rintro ⟨⟨node, r₁⟩, hnode, hrest⟩
      obtain ⟨nodes, hread, hfold⟩ := ih.mp hrest
      exact ⟨node :: nodes, ⟨node, r₁, hnode, nodes, r', hread, rfl⟩, hfold⟩
    · rintro ⟨l, ⟨node, r₁, hnode, nodes, r₂, hread, hpure⟩, hfold⟩
      cases hpure
      exact ⟨(node, _), hnode, ih.mpr ⟨nodes, hread, hfold⟩⟩

theorem ChunkReader.next_delta_tx_map_zero {c : ChunkReader} (h : c.deltas_remaining = 0) :
    c.next_delta_tx_map = .ok (none, c) := by
  unfold next_delta_tx_map
  rw [h]

theorem ChunkReader.for_each_delta_done {β : Type} {f : β → LedgerDelta → TxMap → Except Error β}
    {n : Nat} {b : β} {c : ChunkReader} (h : c.deltas_remaining = 0) :
    for_each_delta f (n + 1) b c = .ok (b, c) := by
  show c.next_delta_tx_map >>= _ = _
  rw [next_delta_tx_map_zero h]
  rfl

/-- One round: the next pair is read as one piece, and one less remains. -/
theorem ChunkReader.next_delta_tx_map_succ {c c' : ChunkReader} {n : Nat}
    {next : Option (LedgerDelta × TxMap)} (h : c.deltas_remaining = n + 1) :
    c.next_delta_tx_map = .ok (next, c') ↔
      ∃ pair r, c.inner.read read_delta_tx_map = .ok (pair, r) ∧ next = some pair ∧
        c' = { c with inner := r, deltas_remaining := n } := by
  unfold next_delta_tx_map read_delta_tx_map
  rw [h]
  simp only [bind_eq_ok, pure_eq_ok, HashingReader.read_bind_ok, Prod.mk.injEq]
  constructor
  · rintro ⟨⟨delta, r₁⟩, hd, ⟨tx_map, r₂⟩, ht, hnext, hc⟩
    exact ⟨(delta, tx_map), r₂, ⟨delta, r₁, hd, tx_map, r₂, ht, rfl⟩, hnext.symm, hc.symm⟩
  · rintro ⟨pair, r, ⟨delta, r₁, hd, tx_map, r₂, ht, hpure⟩, hnext, hc⟩
    cases hpure
    exact ⟨(delta, r₁), hd, (tx_map, _), ht, hnext.symm, hc.symm⟩

/-- The `while let` loop reads all remaining pairs and folds over them. -/
theorem ChunkReader.for_each_delta_ok {β : Type} {f : β → LedgerDelta → TxMap → Except Error β}
    {n : Nat} {b b' : β} {c c' : ChunkReader} (hn : c.deltas_remaining < n) :
    for_each_delta f n b c = .ok (b', c') ↔
      ∃ pairs r, c.inner.read (Get.times c.deltas_remaining read_delta_tx_map) = .ok (pairs, r) ∧
        pairs.foldlM (fun b p => f b p.1 p.2) b = .ok b' ∧
        c' = { c with inner := r, deltas_remaining := 0 } := by
  induction n generalizing b c with
  | zero => omega
  | succ n ih =>
    cases hd : c.deltas_remaining with
    | zero =>
      rw [for_each_delta_done hd]
      simp only [Get.times, HashingReader.read_pure_ok, Except.ok.injEq, Prod.mk.injEq]
      have hc : { c with deltas_remaining := 0 } = c := by rw [← hd]
      constructor
      · rintro ⟨hb, hc'⟩
        exact ⟨[], c.inner, ⟨rfl, rfl⟩, foldlM_nil_ok.mpr hb, hc'.symm.trans hc.symm⟩
      · rintro ⟨pairs, r, ⟨hp, hr⟩, hfold, hc'⟩
        subst hp; subst hr
        exact ⟨foldlM_nil_ok.mp hfold, (hc'.trans hc).symm⟩
    | succ d =>
      simp only [for_each_delta, bind_eq_ok, Get.times, HashingReader.read_bind_ok]
      constructor
      · rintro ⟨⟨next, c₁⟩, hnext, h⟩
        obtain ⟨pair, r, hread, hsome, hc₁⟩ := (next_delta_tx_map_succ hd).mp hnext
        subst hsome; subst hc₁
        obtain ⟨b₁, hb₁, hrest⟩ := bind_eq_ok.mp h
        have hlt : d < n := by omega
        obtain ⟨pairs, r', hpairs, hfold, hc'⟩ := (ih hlt).mp hrest
        exact ⟨pair :: pairs, r', ⟨pair, r, hread, pairs, r', hpairs, rfl⟩,
          foldlM_cons_ok.mpr ⟨b₁, hb₁, hfold⟩, hc'⟩
      · rintro ⟨all, r', ⟨pair, r, hread, pairs, r₂, hpairs, hpure⟩, hfold, hc'⟩
        cases hpure
        obtain ⟨b₁, hb₁, hfold⟩ := foldlM_cons_ok.mp hfold
        have hlt : d < n := by omega
        refine ⟨(some pair, _), (next_delta_tx_map_succ hd).mpr ⟨pair, r, hread, rfl, rfl⟩, ?_⟩
        exact bind_eq_ok.mpr ⟨b₁, hb₁, (ih (c := { c with inner := r, deltas_remaining := d })
          hlt).mpr ⟨pairs, _, hpairs, hfold, hc'⟩⟩

/-! ## Both readers, from the layout of the file -/

theorem ChunkReader.open_ok {file : Bytes} {c : ChunkReader} :
    ChunkReader.open file = .ok c ↔
      ∃ fields h rest, file = MAGIC_HEADER ++ [FORMAT_VERSION_STREAMED] ++ fields ++ rest ∧
        read_header_fields.Reads fields h ∧
        c = { inner := ⟨rest, []⟩, header := h, deltas_remaining := h.delta_count } := by
  unfold ChunkReader.open
  simp only [bind_eq_ok, bail_if_eq_ok, pure_eq_ok, from_chunk_eq_ok, Prod.exists,
    Get.run_eq_ok_iff, read_exact_reads, read_u8_reads, not_not]
  constructor
  · intro hopen
    obtain ⟨magic, r, ⟨u, hfile, hu, -⟩, -, hmagic, v, r₁, ⟨u', hr, hu'⟩, -, hv, h, rest,
      ⟨fields, hr₁, hreads⟩, hc⟩ := hopen
    subst hmagic; subst hv; subst hr; subst hr₁; subst hu; subst hu'
    refine ⟨fields, h, rest, ?_, hreads, hc.symm⟩
    rw [hfile]
    simp
  · intro hparts
    obtain ⟨fields, h, rest, hfile, hreads, hc⟩ := hparts
    refine ⟨MAGIC_HEADER, [FORMAT_VERSION_STREAMED] ++ fields ++ rest, ⟨_, ?_, rfl, rfl⟩, (), rfl,
      FORMAT_VERSION_STREAMED, fields ++ rest, ⟨_, ?_, rfl⟩, (), rfl, h, rest, ⟨fields, rfl, hreads⟩,
      hc.symm⟩
    · rw [hfile]; simp
    · simp

/-- The buffered reader on a version 3 file. -/
theorem deserialize_chunk_ok {data : Bytes} {chunk : Chunk} (hv : data[4]? = some 3) :
    deserialize_chunk sha512half data = .ok chunk ↔
      ∃ h body rest, Layout data h body rest chunk ∧
        sha512half (body ++ rest) = h.stored_chunk_hash := by
  unfold deserialize_chunk
  simp only [bind_eq_ok, bail_if_eq_ok, pure_eq_ok, Prod.exists, Get.run_eq_ok_iff,
    read_exact_reads, read_u8_reads, not_not]
  constructor
  · intro hok
    obtain ⟨magic, r, ⟨u, hdata, hu, -⟩, -, hmagic, v, r₁, ⟨u', hr, hu'⟩, -, -, h, r₂,
      ⟨fields, hr₁, hreads⟩, -, hhash, c, rest, ⟨body, hr₂, hbody⟩, hc⟩ := hok
    subst hmagic; subst hr; subst hr₁; subst hr₂; subst hc; subst hu; subst hu'
    -- The version byte is the one the hypothesis names.
    have hv3 : v = FORMAT_VERSION_STREAMED := by
      rw [hdata] at hv
      simpa [MAGIC_HEADER, FORMAT_VERSION_STREAMED] using hv
    subst hv3
    refine ⟨h, body, rest, ⟨⟨fields, ?_, hreads⟩, hbody⟩, hhash⟩
    rw [hdata]
    simp
  · intro hparts
    obtain ⟨h, body, rest, ⟨⟨fields, hdata, hreads⟩, hbody⟩, hhash⟩ := hparts
    refine ⟨MAGIC_HEADER, [FORMAT_VERSION_STREAMED] ++ fields ++ (body ++ rest),
      ⟨_, ?_, rfl, rfl⟩, (), rfl, FORMAT_VERSION_STREAMED, fields ++ (body ++ rest), ⟨_, ?_, rfl⟩,
      (), by decide, h, body ++ rest,
      ⟨fields, rfl, hreads⟩, (), hhash, chunk, rest, ⟨body, rfl, hbody⟩, rfl⟩
    · rw [hdata]; simp
    · simp

/-- Folding "append one" collects the list. -/
theorem foldl_snoc {α : Type} (l acc : List α) :
    l.foldl (fun l a => l ++ [a]) acc = acc ++ l := by
  induction l generalizing acc with
  | nil => simp
  | cons a l ih => rw [List.foldl_cons, ih]; simp

theorem foldlM_snoc {ε α : Type} (l acc : List α) :
    l.foldlM (fun l a => (pure (l ++ [a]) : Except ε (List α))) acc = .ok (acc ++ l) := by
  induction l generalizing acc with
  | nil => simp [Pure.pure, Except.pure]
  | cons a l ih =>
    rw [List.foldlM_cons]
    show l.foldlM _ (acc ++ [a]) = _
    rw [ih]; simp

/-- The pieces `ChunkReader` is driven over, read one after the other, are
    the decoder `read_body`. -/
theorem HashingReader.read_body_ok {h : ChunkHeader} {r r' : HashingReader} {chunk : Chunk} :
    r.read (read_body FORMAT_VERSION_STREAMED h) = .ok (chunk, r') ↔
      ∃ nodes r₁ first r₂ pairs r₃,
        r.read read_node_list = .ok (nodes, r₁) ∧ r₁.read read_tx_map = .ok (first, r₂) ∧
        r₂.read (Get.times h.delta_count read_delta_tx_map) = .ok (pairs, r₃) ∧
        r₃.read read_footer = .ok ((), r') ∧ h.streamed_chunk nodes first pairs = chunk := by
  unfold read_body read_deltas_tx_maps
  simp only [if_true, HashingReader.read_bind_ok, HashingReader.read_pure_ok]
  constructor
  · intro hread
    obtain ⟨nodes, r₁, h₁, dt, r₂, ⟨first, r₂', h₂, pairs, r₃, h₃, hdt, hr⟩, u, r₄, h₄, hc, hr₄⟩ :=
      hread
    subst hdt; subst hr; subst hr₄
    exact ⟨nodes, r₁, first, r₂', pairs, r₃, h₁, h₂, h₃, h₄, hc⟩
  · intro hparts
    obtain ⟨nodes, r₁, first, r₂, pairs, r₃, h₁, h₂, h₃, h₄, hc⟩ := hparts
    exact ⟨nodes, r₁, h₁, _, r₃, ⟨first, r₂, h₂, pairs, r₃, h₃, rfl, rfl⟩, (), r', h₄, hc, rfl⟩

/-- A file has the layout exactly when it opens and the body decodes. -/
theorem layout_iff {file : Bytes} {h : ChunkHeader} {body rest : Bytes} {chunk : Chunk} :
    Layout file h body rest chunk ↔
      ∃ c, ChunkReader.open file = .ok c ∧ c.header = h ∧ c.deltas_remaining = h.delta_count ∧
        c.inner.read (read_body FORMAT_VERSION_STREAMED h) = .ok (chunk, ⟨rest, body⟩) := by
  constructor
  · intro hl
    obtain ⟨⟨fields, hfile, hreads⟩, hbody⟩ := hl
    refine ⟨_, ChunkReader.open_ok.mpr ⟨fields, h, body ++ rest, hfile, hreads, rfl⟩, rfl, rfl, ?_⟩
    exact HashingReader.read_ok.mpr ⟨body, rfl, rfl, hbody⟩
  · intro hc
    obtain ⟨c, hopen, hh, -, hread⟩ := hc
    obtain ⟨fields, h', rest', hfile, hreads, hc⟩ := ChunkReader.open_ok.mp hopen
    subst hc
    simp only at hh
    subst hh
    obtain ⟨used, hused, hseen, hbody⟩ := HashingReader.read_ok.mp hread
    simp only [List.nil_append] at hseen hused
    subst hseen; subst hused
    exact ⟨⟨fields, hfile, hreads⟩, hbody⟩

theorem ChunkReader.read_checkpoint_ok {β : Type} {f : β → SHAMapNode → β} {b b' : β}
    {c c' : ChunkReader} :
    c.read_checkpoint f b = .ok (b', c') ↔
      ∃ nodes r, c.inner.read read_node_list = .ok (nodes, r) ∧ nodes.foldl f b = b' ∧
        { c with inner := r } = c' := by
  unfold read_checkpoint read_node_list
  simp only [bind_eq_ok, pure_eq_ok, HashingReader.read_bind_ok, Prod.exists,
    checkpoint_nodes_ok, Prod.mk.injEq]
  constructor
  · intro hread
    obtain ⟨count, r₁, hcount, b₁, r, ⟨nodes, hnodes, hfold⟩, hb, hc⟩ := hread
    exact ⟨nodes, r, ⟨count, r₁, hcount, hnodes⟩, hfold.trans hb, hc⟩
  · intro hparts
    obtain ⟨nodes, r, ⟨count, r₁, hcount, hnodes⟩, hfold, hc⟩ := hparts
    exact ⟨count, r₁, hcount, b', r, ⟨nodes, hnodes, hfold⟩, rfl, hc⟩

theorem ChunkReader.finish_ok {c : ChunkReader} :
    c.finish sha512half = .ok () ↔
      ∃ r, c.inner.read read_footer = .ok ((), r) ∧
        sha512half r.hasher = c.header.stored_chunk_hash := by
  unfold finish read_footer
  simp only [bind_eq_ok, bail_if_eq_ok, HashingReader.read_bind_ok, Prod.exists, not_not]
  constructor
  · intro hfin
    obtain ⟨footer, r, hread, -, hfooter, hhash⟩ := hfin
    exact ⟨r, ⟨footer, r, hread, by simp [hfooter, HashingReader.read_pure_ok]⟩, hhash⟩
  · intro hparts
    obtain ⟨r, ⟨footer, r₁, hread, hrest⟩, hhash⟩ := hparts
    by_cases hfooter : footer = MAGIC_FOOTER
    · rw [if_neg (not_not.mpr hfooter), HashingReader.read_pure_ok] at hrest
      obtain ⟨-, hr⟩ := hrest
      subst hr
      exact ⟨footer, r₁, hread, (), hfooter, hhash⟩
    · rw [if_pos hfooter, HashingReader.read_ok] at hrest
      obtain ⟨used, -, -, hfail⟩ := hrest
      simp [Get.Reads] at hfail

/-- The streaming reader on any file. -/
theorem stream_chunk_ok {file : Bytes} {chunk : Chunk} :
    stream_chunk sha512half file = .ok chunk ↔
      ∃ h body rest, Layout file h body rest chunk ∧ sha512half body = h.stored_chunk_hash := by
  unfold stream_chunk ChunkReader.read_checkpoint_tx_map
  simp only [bind_eq_ok, pure_eq_ok, Prod.exists, layout_iff, HashingReader.read_body_ok]
  constructor
  · intro hstream
    obtain ⟨c, hopen, nodes, c₁, hcp, first, c₂, ⟨first', r₂, htx, hpure⟩, pairs, c₃, hloop, u,
      hfin, hchunk⟩ := hstream
    obtain ⟨nodes', r₁, hnodes, hfold, hc₁⟩ := ChunkReader.read_checkpoint_ok.mp hcp
    obtain ⟨fields, h, rest, -, -, hc⟩ := ChunkReader.open_ok.mp hopen
    rw [Prod.mk.injEq] at hpure
    obtain ⟨hfirst, hc₂⟩ := hpure
    subst hfirst; subst hc₂; subst hc₁
    obtain ⟨pairs', r₃, hpairs, hfoldM, hc₃⟩ :=
      (ChunkReader.for_each_delta_ok (Nat.lt_succ_self _)).mp hloop
    rw [foldl_snoc, List.nil_append] at hfold
    rw [foldlM_snoc, List.nil_append, Except.ok.injEq] at hfoldM
    obtain ⟨⟨rest', body⟩, hfooter, hhash⟩ := ChunkReader.finish_ok.mp hfin
    subst hfold; subst hfoldM; subst hc₃; subst hc
    exact ⟨h, body, rest', ⟨_, hopen, rfl, rfl, nodes', r₁, first', r₂, pairs', r₃, hnodes, htx,
      hpairs, hfooter, hchunk⟩, hhash⟩
  · intro hlayout
    obtain ⟨h, body, rest, ⟨c, hopen, hh, hd, nodes, r₁, first, r₂, pairs, r₃, hnodes, htx, hpairs,
      hfooter, hchunk⟩, hhash⟩ := hlayout
    subst hh
    refine ⟨c, hopen, nodes, { c with inner := r₁ },
      ChunkReader.read_checkpoint_ok.mpr ⟨nodes, r₁, hnodes, by rw [foldl_snoc]; rfl, rfl⟩,
      first, { c with inner := r₂ }, ⟨first, r₂, htx, rfl⟩, pairs,
      { c with inner := r₃, deltas_remaining := 0 }, ?_, (), ?_, hchunk⟩
    · refine (ChunkReader.for_each_delta_ok (Nat.lt_succ_self _)).mpr
        ⟨pairs, r₃, ?_, by rw [foldlM_snoc]; rfl, rfl⟩
      rw [← hd] at hpairs
      exact hpairs
    · exact ChunkReader.finish_ok.mpr ⟨_, hfooter, hhash⟩

/-! ## What a parsed chunk satisfies -/

/-- In both layouts there is a delta for each ledger but the first, and a TX
    map for each ledger. -/
theorem read_body_counts {version : UInt8} {h : ChunkHeader} {used : Bytes} {chunk : Chunk}
    (hr : (read_body version h).Reads used chunk) :
    chunk.deltas.length = h.delta_count ∧ chunk.tx_maps.length = h.delta_count + 1 := by
  unfold read_body at hr
  obtain ⟨nodes, _, _, -, -, hr⟩ := Get.reads_bind.mp hr
  obtain ⟨⟨deltas, tx_maps⟩, _, _, -, hdt, hr⟩ := Get.reads_bind.mp hr
  obtain ⟨_, _, _, -, -, hr⟩ := Get.reads_bind.mp hr
  obtain ⟨rfl, -⟩ := Get.reads_pure.mp hr
  show deltas.length = h.delta_count ∧ tx_maps.length = h.delta_count + 1
  unfold read_deltas_tx_maps at hdt
  split at hdt
  · obtain ⟨first, _, _, -, -, hdt⟩ := Get.reads_bind.mp hdt
    obtain ⟨pairs, _, _, -, hpairs, hdt⟩ := Get.reads_bind.mp hdt
    obtain ⟨heq, -⟩ := Get.reads_pure.mp hdt
    obtain ⟨rfl, rfl⟩ := Prod.mk.inj heq
    have hlen := (Get.reads_times hpairs).1
    exact ⟨by rw [List.length_map, hlen], by rw [List.length_cons, List.length_map, hlen]⟩
  · obtain ⟨ds, _, _, -, hds, hdt⟩ := Get.reads_bind.mp hdt
    obtain ⟨ms, _, _, -, hms, hdt⟩ := Get.reads_bind.mp hdt
    obtain ⟨heq, -⟩ := Get.reads_pure.mp hdt
    obtain ⟨rfl, rfl⟩ := Prod.mk.inj heq
    exact ⟨(Get.reads_times hds).1, (Get.reads_times hms).1⟩

theorem read_body_length {version : UInt8} {h : ChunkHeader} {used : Bytes} {chunk : Chunk}
    (hr : (read_body version h).Reads used chunk) :
    chunk.tx_maps.length = chunk.deltas.length + 1 := by
  obtain ⟨hdeltas, hmaps⟩ := read_body_counts hr
  omega

theorem deserialize_chunk_length {data : Bytes} {chunk : Chunk}
    (h : deserialize_chunk sha512half data = .ok chunk) :
    chunk.tx_maps.length = chunk.deltas.length + 1 := by
  unfold deserialize_chunk at h
  simp only [bind_eq_ok, pure_eq_ok, Prod.exists] at h
  obtain ⟨_, _, _, _, _, v, _, _, _, _, hd, _, _, _, _, c, rest, hbody, hc⟩ := h
  obtain ⟨used, -, hreads⟩ := Get.run_eq_ok_iff.mp hbody
  exact hc ▸ read_body_length hreads

theorem Layout.tx_maps_length {file body rest : Bytes} {h : ChunkHeader} {chunk : Chunk}
    (hl : Layout file h body rest chunk) : chunk.tx_maps.length = chunk.deltas.length + 1 :=
  read_body_length hl.body

theorem Layout.deltas_le {file body rest : Bytes} {h : ChunkHeader} {chunk : Chunk}
    (hl : Layout file h body rest chunk) : chunk.deltas.length ≤ chunk.tx_maps.tail.length := by
  rw [List.length_tail, hl.tx_maps_length]
  omega

/-! ## Agreement -/

theorem Layout.unique {file b b' r r' : Bytes} {h h' : ChunkHeader} {c c' : Chunk}
    (hl : Layout file h b r c) (hl' : Layout file h' b' r' c') :
    h = h' ∧ b = b' ∧ r = r' ∧ c = c' := by
  obtain ⟨⟨f, hfile, hreads⟩, hbody⟩ := hl
  obtain ⟨⟨f', hfile', hreads'⟩, hbody'⟩ := hl'
  have htail : f ++ (b ++ r) = f' ++ (b' ++ r') := by
    have heq := hfile.symm.trans hfile'
    rw [List.append_assoc, List.append_assoc _ f'] at heq
    exact List.append_cancel_left heq
  obtain ⟨hh, hf, hrest⟩ := hreads.unique hreads' rfl htail
  subst hh
  obtain ⟨hc, hb, hr⟩ := hbody.unique hbody' rfl hrest
  exact ⟨rfl, hb, hr, hc⟩

/-- Both readers return the same chunk, or neither returns one. -/
def ReadersAgree (sha512half : Bytes → Hash256) (data : Bytes) : Prop :=
  ∀ chunk, deserialize_chunk sha512half data = .ok chunk ↔
    stream_chunk sha512half data = .ok chunk

/-- The two readers agree on a version 3 file unless bytes follow its footer
    and the stored chunk hash fits one of the two hashed ranges only: up to
    the footer (`ChunkReader`) or up to the end (`deserialize_chunk`). The
    header's ledger numbers play no part: both readers subtract them in the
    same way. -/
theorem readers_agree_iff {data : Bytes} (hv : data[4]? = some 3) :
    ReadersAgree sha512half data ↔
      ∀ h body rest chunk, Layout data h body rest chunk → rest ≠ [] →
        (sha512half (body ++ rest) = h.stored_chunk_hash ↔
          sha512half body = h.stored_chunk_hash) := by
  unfold ReadersAgree
  constructor
  · intro hagree h body rest chunk hl _
    have hchunk := hagree chunk
    rw [deserialize_chunk_ok hv, stream_chunk_ok] at hchunk
    constructor
    · intro hend
      obtain ⟨h', b', r', hl', hfooter⟩ := hchunk.mp ⟨h, body, rest, hl, hend⟩
      obtain ⟨rfl, rfl, rfl, -⟩ := hl.unique hl'
      exact hfooter
    · intro hfooter
      obtain ⟨h', b', r', hl', hend⟩ := hchunk.mpr ⟨h, body, rest, hl, hfooter⟩
      obtain ⟨rfl, rfl, rfl, -⟩ := hl.unique hl'
      exact hend
  · intro hcond chunk
    rw [deserialize_chunk_ok hv, stream_chunk_ok]
    have hsame : ∀ h body rest, Layout data h body rest chunk →
        (sha512half (body ++ rest) = h.stored_chunk_hash ↔
          sha512half body = h.stored_chunk_hash) := by
      intro h body rest hl
      by_cases hrest : rest = []
      · rw [hrest, List.append_nil]
      · exact hcond h body rest chunk hl hrest
    constructor
    · rintro ⟨h, body, rest, hl, hend⟩
      exact ⟨h, body, rest, hl, (hsame h body rest hl).mp hend⟩
    · rintro ⟨h, body, rest, hl, hfooter⟩
      exact ⟨h, body, rest, hl, (hsame h body rest hl).mpr hfooter⟩

/-- An empty ledger with the given number. -/
def empty_tx_map (ledger_seq : UInt32) (ledger_hash account_hash : Hash256) : TxMap :=
  { ledger_seq, ledger_hash, account_hash, drops := 0, parent_close_time := 0, close_time := 0,
    close_time_resolution := 10, close_flags := 0, txns := [] }

/-- A written chunk of one empty ledger, with one more byte behind it. -/
def trailing_byte_file : Bytes :=
  ((((ChunkWriter.create 1 7 7 ZERO_HASH).write_checkpoint []).write_tx_map
    (empty_tx_map 7 ZERO_HASH ZERO_HASH)).finish sha2_sha512half).2 ++ [0]

/-- The streaming reader accepts the file, the buffered one rejects it. -/
theorem readers_disagree_on_trailing_byte :
    ¬ ReadersAgree sha2_sha512half trailing_byte_file := by
  intro hagree
  have hstream : (stream_chunk sha2_sha512half trailing_byte_file).toOption.isSome = true := by
    decide +kernel
  have hbuffer : (deserialize_chunk sha2_sha512half trailing_byte_file).toOption.isSome = false := by
    decide +kernel
  obtain ⟨chunk, hs⟩ := exists_ok_of_isSome hstream
  rw [(hagree chunk).mpr hs] at hbuffer
  cases hbuffer

theorem readers_agree_iff_trailing_byte :
    ReadersAgree sha2_sha512half trailing_byte_file ↔
      ∀ h body rest chunk, Layout trailing_byte_file h body rest chunk → rest ≠ [] →
        (sha2_sha512half (body ++ rest) = h.stored_chunk_hash ↔
          sha2_sha512half body = h.stored_chunk_hash) :=
  readers_agree_iff (by decide +kernel)

end LedgerArchive
