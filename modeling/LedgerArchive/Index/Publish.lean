import LedgerArchive.Export.Publish
import LedgerArchive.Index.Exact

/-! # What a build leaves (`build_index`, `TmpGuard`)

    The rows of an index are written to a temporary file while the chunk is
    read, and the chunk's hash is known to be right only at its end. The
    file gets its final name behind that check. So the final name holds the
    old index or all of the new one, whatever fails and wherever the build
    is stopped (`build_publishes`); and after any history of builds an index
    that can be opened answers exactly (`index_history_exact`). -/

namespace LedgerArchive

open Lib Prog

/-! ## The program -/

/-- What is written to the file. The rows are one piece. -/
inductive IndexPiece where
  | schema
  | rows
  | info
  deriving DecidableEq

abbrev IndexDir := Directory String IndexFile
abbrev IndexOp := DirOp String IndexPiece IndexFile

inductive BuildStop where
  | error (e : Error)
  | failed (op : IndexOp)

abbrev BuildProg := Prog IndexDir IndexOp (Except BuildStop BuildReport)

/-- The arguments of `build_index`, with the bytes of the chunk file and the
    directory of the output. -/
structure IndexBuild where
  chunk_path : String
  file : Bytes
  out_path : String
  force : Bool
  dir : String

namespace IndexBuild

variable (sha512half : Bytes → Hash256) (b : IndexBuild)

def tmp : String := tmp_path b.out_path

/-- A step while the guard is armed. -/
def guarded (op : IndexOp) (k : BuildProg) : BuildProg :=
  attempt b.tmp op (.failed op) k

/-- The index is renamed, the guard disarmed and the directory synced. -/
def publish_files (built : IndexFile × BuildReport) : BuildProg :=
  b.guarded (.write b.tmp .info)
    (b.guarded (.complete b.tmp built.1)
      (b.guarded (.sync b.tmp)
        (b.guarded (.rename b.tmp b.out_path)
          (.step (.sync b.dir) fun ok =>
            if ok then .ret (.ok built.2) else .ret (.error (.failed (.sync b.dir)))))))

/-- `build_index` on the directory. -/
def files : BuildProg :=
  .look (fun d => (d b.out_path).isSome) fun exists_ =>
    if exists_ = true ∧ b.force = false then
      .ret (.error (.error (.bail s!"{b.out_path} already exists (use --force to replace it)")))
    else
      match with_context s!"opening chunk {b.chunk_path}" (ChunkReader.open b.file) with
      | .error e => .ret (.error (.error e))
      | .ok _ =>
        -- Over the tables of a file that is still there the schema fails.
        .step (.remove b.tmp) fun _ =>
          b.guarded (.create b.tmp)
            (b.guarded (.write b.tmp .schema)
              (b.guarded (.write b.tmp .rows)
                (match build_index sha512half exists_ b.force b.chunk_path b.out_path b.file with
                | .error e => give_up b.tmp (.error e)
                | .ok built => b.publish_files built)))

end IndexBuild

/-! ## One build -/

/-- What a build leaves. -/
structure BuildLeaves (sha512half : Bytes → Hash256) (b : IndexBuild) (may : IndexOp → Prop)
    (d₀ d : IndexDir) (result : Option (Except BuildStop BuildReport)) : Prop where
  /-- The final name holds what it did, or all of the new index. -/
  final : d b.out_path = d₀ b.out_path ∨ ∃ built, build_index sha512half
    (d₀ b.out_path).isSome b.force b.chunk_path b.out_path b.file = .ok built ∧
      d b.out_path = some (.whole built.1)
  others : ∀ name, name ≠ b.out_path → name ≠ b.tmp → d name = d₀ name
  done : ∀ report, result = some (.ok report) → ∃ index, build_index sha512half
    (d₀ b.out_path).isSome b.force b.chunk_path b.out_path b.file = .ok (index, report) ∧
      d b.out_path = some (.whole index) ∧ d b.tmp = none
  /-- Behind an error the old index is there, unless only the sync of the
      directory has failed, and no temporary file. -/
  kept : ∀ stop, result = some (.error stop) → stop = .failed (.sync b.dir) ∨
    d b.out_path = d₀ b.out_path ∧
      (d b.tmp = none ∨ d b.tmp = d₀ b.tmp ∨ may (.remove b.tmp))
  /-- An index that is there is not replaced unasked. -/
  refused : d₀ b.out_path ≠ none → b.force = false →
    d = d₀ ∧ ∀ report, result ≠ some (.ok report)

section Build

variable {sha512half : Bytes → Hash256} {b : IndexBuild} {may : IndexOp → Prop}
  {d₀ d : IndexDir} {k : BuildProg}

theorem IndexBuild.tmp_ne (b : IndexBuild) : b.out_path ≠ b.tmp := by
  intro h
  have h := congrArg List.length (congrArg String.toList h)
  unfold IndexBuild.tmp tmp_path at h
  rw [String.toList_append, List.length_append] at h
  have hsuffix : ".tmp".toList.length = 4 := rfl
  omega

/-- Nothing has changed, and the build has not returned a report. -/
theorem BuildLeaves.unchanged {result : Option (Except BuildStop BuildReport)}
    (hr : ∀ report, result ≠ some (.ok report)) :
    BuildLeaves sha512half b may d₀ d₀ result where
  final := .inl rfl
  others := fun _ _ _ => rfl
  done := fun report hok => absurd hok (hr report)
  kept := fun _ _ => .inr ⟨rfl, .inr (.inl rfl)⟩
  refused := fun _ _ => ⟨rfl, hr⟩

section Free

-- The final name is free, or the build is forced.
variable (hfree : d₀ b.out_path ≠ none → b.force ≠ false)

include hfree

theorem BuildLeaves.cut (h : SameBut b.tmp d d₀) :
    BuildLeaves sha512half b may d₀ d none where
  final := .inl (h _ b.tmp_ne)
  others := fun name _ hne => h name hne
  done := fun _ hok => nomatch hok
  kept := fun _ herr => nomatch herr
  refused := fun hthere hforce => absurd hforce (hfree hthere)

theorem BuildLeaves.error (h : SameBut b.tmp d d₀) (hclean : Cleaned may b.tmp d)
    (stop : BuildStop) : BuildLeaves sha512half b may d₀ d (some (.error stop)) where
  final := .inl (h _ b.tmp_ne)
  others := fun name _ hne => h name hne
  done := fun _ hok => nomatch hok
  kept := fun _ _ => .inr ⟨h _ b.tmp_ne, hclean.imp_right .inr⟩
  refused := fun hthere hforce => absurd hforce (hfree hthere)

/-- A step while the guard is armed. -/
theorem IndexBuild.guarded_leaves (h : SameBut b.tmp d d₀) {op : IndexOp} (hop : op.Within b.tmp)
    (hok : ∀ d', op.exec d = some d' → SameBut b.tmp d' d₀ →
      Throughout DirOp.exec may (BuildLeaves sha512half b may d₀) k d') :
    Throughout DirOp.exec may (BuildLeaves sha512half b may d₀) (b.guarded op k) d :=
  throughout_attempt h hop (fun _ hsame => BuildLeaves.cut hfree hsame)
    (fun _ hsame hclean => BuildLeaves.error hfree hsame hclean _) hok

/-- The index is there, and what is left is to sync the directory. -/
theorem IndexBuild.sync_leaves {index : IndexFile} {report : BuildReport}
    (hbuilt : build_index sha512half (d₀ b.out_path).isSome b.force b.chunk_path b.out_path
      b.file = .ok (index, report)) :
    Throughout DirOp.exec may (BuildLeaves sha512half b may d₀)
      (.step (.sync b.dir) fun ok =>
        if ok then .ret (.ok report) else .ret (.error (.failed (.sync b.dir))))
      (Lib.publish d₀ b.tmp b.out_path index) := by
  have hfinal : Lib.publish d₀ b.tmp b.out_path index b.out_path = some (.whole index) :=
    Function.update_self ..
  have htmp : Lib.publish d₀ b.tmp b.out_path index b.tmp = none := by
    unfold Lib.publish
    rw [Function.update_of_ne b.tmp_ne.symm, Function.update_self]
  -- The rename is done: only the sync of the directory can still fail.
  have hleaves : ∀ result : Option (Except BuildStop BuildReport),
      (∀ r, result = some (.ok r) → r = report) →
      (∀ stop, result = some (.error stop) → stop = .failed (.sync b.dir)) →
      BuildLeaves sha512half b may d₀ (Lib.publish d₀ b.tmp b.out_path index) result := by
    intro result hok herr
    refine ⟨.inr ⟨_, hbuilt, hfinal⟩, ?_, ?_, fun stop hstop => .inl (herr stop hstop),
      fun hthere hforce => absurd hforce (hfree hthere)⟩
    · intro name hout hne
      unfold Lib.publish
      rw [Function.update_of_ne hout, Function.update_of_ne hne]
    · intro r hr
      rw [hok r hr]
      exact ⟨index, hbuilt, hfinal, htmp⟩
  refine ⟨hleaves _ (fun _ hok => nomatch hok) (fun _ herr => nomatch herr), fun d' hd' => ?_,
    fun _ => ?_⟩
  · rw [← Option.some.inj hd']
    refine hleaves _ (fun r hr => ?_) fun _ herr => nomatch herr
    exact (Except.ok.inj (Option.some.inj hr)).symm
  · refine hleaves _ (fun _ hok => nomatch hok) fun stop hstop => ?_
    exact (Except.error.inj (Option.some.inj hstop)).symm

/-- From the rows to the end. -/
theorem IndexBuild.publish_leaves (h : SameBut b.tmp d d₀) {built : IndexFile × BuildReport}
    (hbuilt : build_index sha512half (d₀ b.out_path).isSome b.force b.chunk_path b.out_path
      b.file = .ok built) :
    Throughout DirOp.exec may (BuildLeaves sha512half b may d₀) (b.publish_files built) d := by
  refine IndexBuild.guarded_leaves hfree h rfl fun d₁ _ h₁ => ?_
  refine IndexBuild.guarded_leaves hfree h₁ rfl fun d₂ hd₂ h₂ => ?_
  -- From here on the temporary file is the index.
  have hwhole : d₂ b.tmp = some (.whole built.1) := by
    obtain ⟨_, -, rfl⟩ := Option.map_eq_some_iff.mp hd₂
    exact Function.update_self ..
  refine IndexBuild.guarded_leaves hfree h₂ trivial fun d₃ hd₃ h₃ => ?_
  rw [← Option.some.inj hd₃] at h₃ ⊢
  exact throughout_attempt_rename h₃ hwhole (fun _ hsame => BuildLeaves.cut hfree hsame)
    (fun _ hsame hclean => BuildLeaves.error hfree hsame hclean _)
    (IndexBuild.sync_leaves hfree hbuilt)

end Free

/-- The build, from the first look at the final name. -/
theorem IndexBuild.files_leaves (sha512half : Bytes → Hash256) (b : IndexBuild)
    (may : IndexOp → Prop) (d₀ : IndexDir) :
    Throughout DirOp.exec may (BuildLeaves sha512half b may d₀) (b.files sha512half) d₀ := by
  unfold IndexBuild.files
  rw [throughout_look]
  split
  · exact BuildLeaves.unchanged fun _ hok => nomatch hok
  · next hrefused =>
    -- The build goes on, so it may replace what is there.
    have hfree : d₀ b.out_path ≠ none → b.force ≠ false := fun hthere hforce =>
      hrefused ⟨Option.isSome_iff_ne_none.mpr hthere, hforce⟩
    split
    · exact BuildLeaves.unchanged fun _ hok => nomatch hok
    · have hrest : ∀ d, SameBut b.tmp d d₀ →
          Throughout DirOp.exec may (BuildLeaves sha512half b may d₀)
            (b.guarded (.create b.tmp) (b.guarded (.write b.tmp .schema)
              (b.guarded (.write b.tmp .rows)
                (match build_index sha512half (d₀ b.out_path).isSome b.force b.chunk_path b.out_path
                    b.file with
                | .error e => give_up b.tmp (.error e)
                | .ok built => b.publish_files built)))) d := by
        intro d h
        refine IndexBuild.guarded_leaves hfree h rfl fun d₁ _ h₁ => ?_
        refine IndexBuild.guarded_leaves hfree h₁ rfl fun d₂ _ h₂ => ?_
        refine IndexBuild.guarded_leaves hfree h₂ rfl fun d₃ _ h₃ => ?_
        split
        · exact throughout_give_up h₃ _ (fun _ hsame => BuildLeaves.cut hfree hsame)
            fun _ hsame hclean => BuildLeaves.error hfree hsame hclean _
        · next hbuilt => exact IndexBuild.publish_leaves hfree h₃ hbuilt
      have hsame : SameBut b.tmp d₀ d₀ := SameBut.refl d₀
      -- What is left of a killed build is removed, or it is not there.
      exact ⟨BuildLeaves.cut hfree hsame, fun d' hd' => hrest d' (hsame.exec hd' rfl),
        fun _ => hrest d₀ hsame⟩

/-- Whatever fails and wherever a build is stopped, the final name holds
    what it did or all of the new index. A build that returns without an
    error has left the index; one that returns an error has left the old
    file as it was. -/
theorem build_publishes (sha512half : Bytes → Hash256) (b : IndexBuild)
    (fails : Nat → IndexOp → Bool) (n : Nat) (d₀ : IndexDir) :
    let stopped := run DirOp.exec fails (b.files sha512half) n d₀
    BuildLeaves sha512half b (fun op => ∃ i, fails i op = true) d₀ stopped.1 stopped.2 :=
  (IndexBuild.files_leaves sha512half b _ d₀).always (fun i _ hfail => ⟨i, hfail⟩) n

end Build

/-! ## Builds one after the other -/

/-- A build, the operations that fail, and when it is stopped. -/
structure BuildRun where
  build : IndexBuild
  fails : Nat → IndexOp → Bool
  steps : Nat

def BuildRun.job (sha512half : Bytes → Hash256) (r : BuildRun) :
    Job IndexDir IndexOp (Except BuildStop BuildReport) :=
  { prog := r.build.files sha512half, fails := r.fails, steps := r.steps }

/-- The file at `out` was built by one of these runs, from a chunk that it
    answers for. -/
def BuiltBy (sha512half : Bytes → Hash256) (runs : List BuildRun) (out : String) (d : IndexDir) :
    Prop :=
  ∃ r ∈ runs, r.build.out_path = out ∧ ∃ exists_ index_file report,
    build_index sha512half exists_ r.build.force r.build.chunk_path out r.build.file =
        .ok (index_file, report) ∧
      d out = some (.whole index_file) ∧
      ∃ header body rest chunk index, Layout r.build.file header body rest chunk ∧
        Index.open out index_file = .ok index ∧
        (IndexExact sha512half chunk index ↔ chunk.start_ledger ≤ chunk.end_ledger)

/-- A build leaves the file at `out` alone or builds it. -/
theorem BuildLeaves.built_by {sha512half : Bytes → Hash256} {runs : List BuildRun} {out : String}
    {r : BuildRun} {d d' : IndexDir} {result : Option (Except BuildStop BuildReport)}
    (hr : r ∈ runs) (htmp : r.build.tmp ≠ out)
    {may : IndexOp → Prop} (h : BuildLeaves sha512half r.build may d d' result)
    (hd : d out = none ∨ BuiltBy sha512half runs out d) :
    d' out = none ∨ BuiltBy sha512half runs out d' := by
  have hsame : d' out = d out → d' out = none ∨ BuiltBy sha512half runs out d' := by
    intro heq
    unfold BuiltBy
    rw [heq]
    exact hd
  -- A build of another index does not touch this one.
  by_cases hout : r.build.out_path = out
  · subst hout
    rcases h.final with heq | ⟨⟨index_file, report⟩, hbuilt, hfile⟩
    · exact hsame heq
    · obtain ⟨header, body, rest, chunk, s, index, hl, hopen, hi, hledgers, hlen⟩ :=
        built_index hbuilt
      exact .inr ⟨r, hr, rfl, _, index_file, report, hbuilt, hfile, header, body, rest, chunk, index,
        hl, hopen, hi.exact_iff hledgers hlen⟩
  · exact hsame (h.others out (Ne.symm hout) (Ne.symm htmp))

/-- After any builds, of this index and of others, each with its own
    failures and stopped anywhere: there is no index, or one that opens and
    answers exactly for the chunk that one of the builds was given. -/
theorem index_history_exact {sha512half : Bytes → Hash256} {runs : List BuildRun} {out : String}
    {d₀ : IndexDir} (hnone : d₀ out = none) (htmp : ∀ r ∈ runs, r.build.tmp ≠ out) :
    let d := history DirOp.exec (runs.map (BuildRun.job sha512half)) d₀
    d out = none ∨ BuiltBy sha512half runs out d := by
  refine @history_invariant _ _ _ DirOp.exec _
    (fun d => d out = none ∨ BuiltBy sha512half runs out d) _ (fun job hjob d hd => ?_) (.inl hnone)
  obtain ⟨r, hr, rfl⟩ := List.mem_map.mp hjob
  -- Wherever the build is stopped, the file is the one from before or its own.
  exact fun n => ((IndexBuild.files_leaves sha512half r.build (fun op => ∃ i, r.fails i op = true)
    d).always (fun i _ hfail => ⟨i, hfail⟩) n).built_by hr (htmp r hr) hd

/-- A build that is killed while it writes the rows, and another one that
    replaces what it has left. -/
def killed_and_rerun : List BuildRun :=
  let build : IndexBuild := ⟨"7.xrla", one_tx_file, "7.idx", false, "."⟩
  [⟨build, fun _ _ => false, 3⟩, ⟨build, fun _ _ => false, 20⟩]

theorem index_history_exact_one_tx :
    BuiltBy sha2_sha512half killed_and_rerun "7.idx"
      (history DirOp.exec (killed_and_rerun.map (BuildRun.job sha2_sha512half)) fun _ => none) := by
  have htmp : ∀ r ∈ killed_and_rerun, r.build.tmp ≠ "7.idx" := by
    intro r hr
    have hpath : r.build.out_path = "7.idx" := by
      rcases List.mem_pair.mp hr with rfl | rfl
      · rfl
      · rfl
    unfold IndexBuild.tmp
    rw [hpath]
    decide
  have hthere : (history DirOp.exec (killed_and_rerun.map (BuildRun.job sha2_sha512half))
      (fun _ => none) "7.idx").isSome = true := by
    decide +kernel
  exact (index_history_exact rfl htmp).resolve_left (Option.isSome_iff_ne_none.mp hthere)

end LedgerArchive
