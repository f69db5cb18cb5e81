import LedgerArchive.Lib.SortBy

/-! # Tables with a primary key

    A table of a relational store as the list of its rows, in the order of
    insertion, of which no two have the same key. Inserting a row whose key
    is there fails, replaces the row that has it, or is ignored. A query
    keeps the rows that meet a condition and sorts them by a column, either
    way. -/

namespace Lib

variable {ρ κ ω : Type} [LinearOrder ω]

structure Table (key : ρ → κ) where
  rows : List ρ
  primary : (rows.map key).Nodup

namespace Table

variable {key : ρ → κ}

def empty : Table key := ⟨[], List.nodup_nil⟩

/-- `INSERT INTO`: none when the key is there. -/
def insert [DecidableEq κ] (t : Table key) (row : ρ) : Option (Table key) :=
  if h : key row ∈ t.rows.map key then none
  else some ⟨t.rows ++ [row], by
    rw [List.map_append, List.map_singleton]
    exact List.nodup_append.mpr ⟨t.primary, List.nodup_singleton _, fun a ha b hb hab => by
      rw [List.mem_singleton] at hb
      exact h (hb ▸ hab ▸ ha)⟩⟩

theorem insert_rows [DecidableEq κ] {t t' : Table key} {row : ρ} (h : t.insert row = some t') :
    t'.rows = t.rows ++ [row] := by
  unfold insert at h
  split at h
  · cases h
  · rw [← Option.some.inj h]

/-- The row goes in when its key is not there. -/
theorem exists_insert [DecidableEq κ] {t : Table key} {row : ρ} (h : key row ∉ t.rows.map key) :
    ∃ t', t.insert row = some t' := by
  unfold insert
  rw [dif_neg h]
  exact ⟨_, rfl⟩

/-- `INSERT OR REPLACE INTO`: a row with the key makes way. -/
def replace [DecidableEq κ] (t : Table key) (row : ρ) : Table key :=
  ⟨t.rows.filter (fun r => key r ≠ key row) ++ [row], by
    rw [List.map_append, List.map_singleton]
    refine List.nodup_append.mpr ⟨?_, List.nodup_singleton _, ?_⟩
    · exact t.primary.sublist (List.filter_sublist.map key)
    · intro a ha b hb hab
      obtain ⟨r, hr, rfl⟩ := List.mem_map.mp ha
      rw [List.mem_singleton] at hb
      exact of_decide_eq_true (List.mem_filter.mp hr).2 (hab.trans hb)⟩

theorem mem_replace [DecidableEq κ] {t : Table key} {row r : ρ} :
    r ∈ (t.replace row).rows ↔ (r ∈ t.rows ∧ key r ≠ key row) ∨ r = row := by
  unfold replace
  rw [List.mem_append, List.mem_filter, List.mem_singleton, decide_eq_true_iff]

/-- Of the rows that a table starts with, those stay that no row of the
    batch replaces. The others do not depend on what it starts with. -/
theorem mem_foldl_replace [DecidableEq κ] (batch : List ρ) {t : Table key} {r : ρ} :
    r ∈ (batch.foldl replace t).rows ↔
      (r ∈ t.rows ∧ key r ∉ batch.map key) ∨ r ∈ (batch.foldl replace (empty : Table key)).rows := by
  induction batch generalizing t with
  | nil => simp [empty]
  | cons row batch ih =>
    have hnone : ¬ r ∈ (empty : Table key).rows := List.not_mem_nil
    rw [List.foldl_cons, List.foldl_cons, ih, @ih (empty.replace row), mem_replace, mem_replace,
      List.map_cons, List.mem_cons, not_or]
    constructor
    · rintro (⟨⟨hr, hne⟩ | hr, hrest⟩ | hr)
      · exact .inl ⟨hr, hne, hrest⟩
      · exact .inr (.inl ⟨.inr hr, hrest⟩)
      · exact .inr (.inr hr)
    · rintro (⟨hr, hne, hrest⟩ | ⟨⟨hr, -⟩ | hr, hrest⟩ | hr)
      · exact .inl ⟨.inl ⟨hr, hne⟩, hrest⟩
      · exact absurd hr hnone
      · exact .inl ⟨.inr hr, hrest⟩
      · exact .inr hr

/-- The keys of a batch are those of the rows it leaves. -/
theorem key_mem_foldl_replace [DecidableEq κ] {batch : List ρ} {t : Table key} {k : κ} :
    k ∈ (batch.foldl replace t).rows.map key ↔ k ∈ t.rows.map key ∨ k ∈ batch.map key := by
  induction batch generalizing t with
  | nil => simp
  | cons row batch ih =>
    have hone : k ∈ (t.replace row).rows.map key ↔ k ∈ t.rows.map key ∨ k = key row := by
      simp only [List.mem_map, mem_replace]
      constructor
      · rintro ⟨r, ⟨hr, -⟩ | rfl, hk⟩
        · exact .inl ⟨r, hr, hk⟩
        · exact .inr hk.symm
      · rintro (⟨r, hr, hk⟩ | hk)
        · by_cases heq : key r = key row
          · exact ⟨row, .inr rfl, heq.symm.trans hk⟩
          · exact ⟨r, .inl ⟨hr, heq⟩, hk⟩
        · exact ⟨row, .inr rfl, hk.symm⟩
    rw [List.foldl_cons, ih, hone, List.map_cons, List.mem_cons, or_assoc]

/-- Of batches that stand for the same thing, and so have the same keys, it
    is enough to insert the last one. -/
theorem exists_representatives [DecidableEq κ] {β : Type} {R : β → β → Prop} (batch : β → List ρ)
    (hrefl : ∀ a, R a a) (hkeys : ∀ a b, R a b → (batch a).map key ⊆ (batch b).map key)
    (l : List β) :
    ∃ once : List β, once.Sublist l ∧ once.Pairwise (fun a b => ¬ R a b) ∧
      (∀ a ∈ l, ∃ b ∈ once, R a b) ∧
      ∀ (t : Table key) (r : ρ), r ∈ ((l.flatMap batch).foldl replace t).rows ↔
        r ∈ ((once.flatMap batch).foldl replace t).rows := by
  induction l with
  | nil => exact ⟨[], .slnil, .nil, List.forall_mem_nil _, fun t r => Iff.rfl⟩
  | cons a l ih =>
    obtain ⟨once, hsub, hdistinct, hcovered, hsame⟩ := ih
    by_cases ha : ∃ b ∈ once, R a b
    · refine ⟨once, hsub.cons a, hdistinct, List.forall_mem_cons.mpr ⟨ha, hcovered⟩, fun t r => ?_⟩
      obtain ⟨b, hb, hab⟩ := ha
      -- what the first batch has inserted or replaced is replaced again
      have hagain : key r ∈ (batch a).map key → key r ∈ (once.flatMap batch).map key := by
        intro hk
        obtain ⟨r', hr', heq⟩ := List.mem_map.mp (hkeys a b hab hk)
        exact List.mem_map.mpr ⟨r', List.mem_flatMap.mpr ⟨b, hb, hr'⟩, heq⟩
      rw [List.flatMap_cons, List.foldl_append, hsame, mem_foldl_replace,
        mem_foldl_replace (once.flatMap batch) (t := t), mem_foldl_replace (batch a)]
      constructor
      · rintro (⟨⟨hr, -⟩ | hr, hk⟩ | hr)
        · exact .inl ⟨hr, hk⟩
        · rcases key_mem_foldl_replace.mp (List.mem_map_of_mem (f := key) hr) with hnone | hkey
          · exact absurd hnone List.not_mem_nil
          · exact absurd (hagain hkey) hk
        · exact .inr hr
      · rintro (⟨hr, hk⟩ | hr)
        · exact .inl ⟨.inl ⟨hr, fun hkey => hk (hagain hkey)⟩, hk⟩
        · exact .inr hr
    · refine ⟨a :: once, hsub.cons_cons a, List.pairwise_cons.mpr ⟨fun b hb hab => ha ⟨b, hb, hab⟩,
        hdistinct⟩, List.forall_mem_cons.mpr ⟨⟨a, List.mem_cons_self, hrefl a⟩, fun b hb => ?_⟩,
        fun t r => ?_⟩
      · obtain ⟨c, hc, hbc⟩ := hcovered b hb
        exact ⟨c, List.mem_cons_of_mem _ hc, hbc⟩
      · rw [List.flatMap_cons, List.flatMap_cons, List.foldl_append, List.foldl_append]
        exact hsame _ r

/-- `INSERT OR IGNORE INTO`: the row with the key stays. -/
def ignore [DecidableEq κ] (t : Table key) (row : ρ) : Table key :=
  (t.insert row).getD t

theorem ignore_rows [DecidableEq κ] (t : Table key) (row : ρ) :
    (t.ignore row).rows = if key row ∈ t.rows.map key then t.rows else t.rows ++ [row] := by
  unfold ignore insert
  by_cases h : key row ∈ t.rows.map key
  · rw [dif_pos h, if_pos h]
    rfl
  · rw [dif_neg h, if_neg h]
    rfl

/-- No row is touched, whatever is inserted. -/
theorem prefix_foldl_ignore [DecidableEq κ] (batch : List ρ) (t : Table key) :
    t.rows <+: (batch.foldl ignore t).rows := by
  induction batch generalizing t with
  | nil => exact List.prefix_rfl
  | cons row batch ih =>
    refine List.IsPrefix.trans ?_ (ih (t.ignore row))
    rw [ignore_rows]
    split
    · exact List.prefix_rfl
    · exact List.prefix_append _ _

/-- Among rows of which no two have one key, a table takes what it is
    given. -/
theorem mem_foldl_ignore [DecidableEq κ] {batch : List ρ} {t : Table key}
    (hinj : Set.InjOn key {r | r ∈ t.rows ∨ r ∈ batch}) {r : ρ} :
    r ∈ (batch.foldl ignore t).rows ↔ r ∈ t.rows ∨ r ∈ batch := by
  induction batch generalizing t with
  | nil => simp
  | cons row batch ih =>
    have hone : ∀ r, r ∈ (t.ignore row).rows ↔ r ∈ t.rows ∨ r = row := by
      intro r
      rw [ignore_rows]
      split
      · next hkey =>
        -- the row that has the key is this very row
        obtain ⟨r', hr', heq⟩ := List.mem_map.mp hkey
        obtain rfl := hinj (.inl hr') (.inr List.mem_cons_self) heq
        constructor
        · exact Or.inl
        · rintro (hr | rfl)
          · exact hr
          · exact hr'
      · rw [List.mem_append, List.mem_singleton]
    have hinj' : Set.InjOn key {r | r ∈ (t.ignore row).rows ∨ r ∈ batch} := by
      refine hinj.mono fun r hr => ?_
      rcases hr with hr | hr
      · rcases (hone r).mp hr with hr | rfl
        · exact .inl hr
        · exact .inr List.mem_cons_self
      · exact .inr (List.mem_cons_of_mem _ hr)
    rw [List.foldl_cons, ih hinj', hone, List.mem_cons, or_assoc]

/-- Rows whose keys are there are all ignored. -/
theorem foldl_ignore_eq [DecidableEq κ] {batch : List ρ} {t : Table key}
    (h : ∀ r ∈ batch, key r ∈ t.rows.map key) : batch.foldl ignore t = t := by
  induction batch with
  | nil => rfl
  | cons row batch ih =>
    have hsame : t.ignore row = t := by
      unfold ignore insert
      rw [dif_pos (h row List.mem_cons_self)]
      rfl
    rw [List.foldl_cons, hsame]
    exact ih fun r hr => h r (List.mem_cons_of_mem _ hr)

/-- Rows of which no two have one key replace nothing. -/
theorem foldl_replace_rows [DecidableEq κ] {batch : List ρ} {t : Table key}
    (h : (t.rows.map key ++ batch.map key).Nodup) :
    (batch.foldl replace t).rows = t.rows ++ batch := by
  induction batch generalizing t with
  | nil => exact (List.append_nil _).symm
  | cons row batch ih =>
    have hkept : t.rows.filter (fun r => key r ≠ key row) = t.rows := by
      rw [List.filter_eq_self]
      intro r hr
      rw [decide_eq_true_iff]
      exact (List.nodup_append.mp h).2.2 _ (List.mem_map_of_mem hr) _ List.mem_cons_self
    have hone : (t.replace row).rows = t.rows ++ [row] := congrArg (· ++ [row]) hkept
    have hnd : ((t.replace row).rows.map key ++ batch.map key).Nodup := by
      rw [hone, List.map_append, List.append_assoc]
      exact h
    rw [List.foldl_cons, ih hnd, hone, List.append_assoc, List.singleton_append]

/-- Records with different keys give rows with their keys: the rows with a
    key are those of its record. -/
theorem filter_flatMap_key {α : Type} [DecidableEq κ] {records : List α} {id : α → κ}
    (hnd : (records.map id).Nodup) {rows : α → List ρ}
    (hrows : ∀ a ∈ records, ∀ r ∈ rows a, key r = id a) {a : α} (ha : a ∈ records) :
    (records.flatMap rows).filter (fun r => key r = id a) = rows a := by
  induction records with
  | nil => cases ha
  | cons b records ih =>
    obtain ⟨hb, hothers⟩ := List.forall_mem_cons.mp hrows
    rw [List.map_cons] at hnd
    obtain ⟨hfresh, hnd⟩ := List.nodup_cons.mp hnd
    rw [List.flatMap_cons, List.filter_append]
    rcases List.mem_cons.mp ha with rfl | ha
    · -- The rows of the record itself, and none of the others'.
      have hmine : (rows a).filter (fun r => decide (key r = id a)) = rows a := by
        rw [List.filter_eq_self]
        intro r hr
        rw [decide_eq_true_iff]
        exact hb r hr
      have hnone : (records.flatMap rows).filter (fun r => decide (key r = id a)) = [] := by
        rw [List.filter_eq_nil_iff]
        intro r hr heq
        obtain ⟨c, hc, hr⟩ := List.mem_flatMap.mp hr
        rw [decide_eq_true_iff, hothers c hc r hr] at heq
        exact hfresh (List.mem_map.mpr ⟨c, hc, heq⟩)
      rw [hmine, hnone, List.append_nil]
    · have hnone : (rows b).filter (fun r => decide (key r = id a)) = [] := by
        rw [List.filter_eq_nil_iff]
        intro r hr heq
        rw [decide_eq_true_iff, hb r hr] at heq
        exact hfresh (heq ▸ List.mem_map_of_mem ha)
      rw [hnone, List.nil_append]
      exact ih hnd hothers ha

/-- Two tables with the same rows, in whatever order. -/
theorem perm_of_mem {t t' : Table key} (h : ∀ r, r ∈ t.rows ↔ r ∈ t'.rows) :
    t.rows.Perm t'.rows :=
  (List.perm_ext_iff_of_nodup (List.Nodup.of_map key t.primary)
    (List.Nodup.of_map key t'.primary)).mpr h

/-- The row with a key is found by it. -/
theorem find_key [DecidableEq κ] {t : Table key} {row : ρ} (h : row ∈ t.rows) :
    t.rows.find? (fun r => key r = key row) = some row := by
  cases hf : t.rows.find? (fun r => key r = key row) with
  | none =>
    have hno := List.find?_eq_none.mp hf row h
    simp at hno
  | some r =>
    have hkey : key r = key row := by simpa using List.find?_some hf
    have hmem : r ∈ t.rows := List.mem_of_find?_eq_some hf
    rw [List.inj_on_of_nodup_map t.primary hmem h hkey]

/-- `SELECT ... WHERE ... ORDER BY`, ascending or descending. -/
def select (t : Table key) (p : ρ → Bool) (column : ρ → ω) (asc : Bool) : List ρ :=
  if asc then (t.rows.filter p).insertionSort fun a b => column a ≤ column b
  else (t.rows.filter p).insertionSort fun a b => column b ≤ column a

variable (t : Table key) {p : ρ → Bool} {column : ρ → ω}

theorem select_perm (asc : Bool) : (t.select p column asc).Perm (t.rows.filter p) := by
  unfold select
  split
  · exact List.perm_insertionSort _ _
  · exact List.perm_insertionSort _ _

/-- Among rows with different values in a column, the order is strict. -/
theorem select_ascending (hnd : ((t.rows.filter p).map column).Nodup) :
    (t.select p column true).Pairwise fun a b => column a < column b := by
  have hsorted := insertionSort_key_pairwise column (t.rows.filter p)
  have hnodup : ((t.select p column true).map column).Nodup :=
    ((t.select_perm true).map column).nodup_iff.mpr hnd
  have hne := List.pairwise_map.mp hnodup
  exact hsorted.imp₂ (fun a b hle hne => lt_of_le_of_ne hle hne) hne

theorem select_descending (hnd : ((t.rows.filter p).map column).Nodup) :
    (t.select p column false).Pairwise fun a b => column b < column a := by
  have hsorted := insertionSort_key_pairwise (fun a => OrderDual.toDual (column a)) (t.rows.filter p)
  have hnodup : ((t.select p column false).map column).Nodup :=
    ((t.select_perm false).map column).nodup_iff.mpr hnd
  have hne := List.pairwise_map.mp hnodup
  exact hsorted.imp₂ (fun a b hle hne => lt_of_le_of_ne hle (Ne.symm hne)) hne

/-- A second condition on rows with different values in the column. -/
theorem select_filter (hnd : ((t.rows.filter p).map column).Nodup) (q : ρ → Bool) (asc : Bool) :
    (t.select p column asc).filter q = t.select (fun r => q r && p r) column asc := by
  unfold select
  rw [← List.filter_filter]
  split
  · exact filter_insertionSort_key q hnd
  · exact @filter_insertionSort_key ρ ωᵒᵈ _ (fun a => OrderDual.toDual (column a)) q _ hnd

end Table

end Lib
