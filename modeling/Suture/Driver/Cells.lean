import Suture.Driver.Csv

/-!
# Csv merges cell by cell

A cell has the key of its row and the name of its column. The fields of a row are merged by
their positions, and a position is a column only where the three headers agree on it.
-/

namespace Suture.Driver
set_option autoImplicit false
open Foundation

namespace CsvTable
variable (table : CsvTable) (key name : String)

/-- The header is the first record. -/
def ofRecords (records : List (List String)) : CsvTable := ⟨records.head?.getD [], records.tail⟩

def row? : Option (List String) := table.rows.find? fun row => firstField row = key

def hasRow : Bool := (table.row? key).isSome

def hasColumn : Bool := decide (name ∈ table.headers)

/-- Without the row, the column or the field, the cell is empty. -/
def cell : String :=
  if name ∈ table.headers then fieldOf (table.row? key) (table.headers.idxOf name) else ""

end CsvTable

/-- The names of the columns are distinct, and so are the keys of the rows. -/
structure KeyedTable extends CsvTable where
  distinctHeaders : headers.Nodup
  distinctKeys : (rows.map firstField).Nodup

instance : Coe KeyedTable CsvTable := ⟨KeyedTable.toCsvTable⟩

/-- Rows, columns and cells are merged three-way, each where it is by key and name. -/
structure MergedByCells (base ours theirs merged : CsvTable) : Prop where
  rows : ∀ key, threeWay (base.hasRow key) (ours.hasRow key) (theirs.hasRow key) =
    some (merged.hasRow key)
  columns : ∀ name, threeWay (base.hasColumn name) (ours.hasColumn name) (theirs.hasColumn name) =
    some (merged.hasColumn name)
  cells : ∀ key name, threeWay (base.cell key name) (ours.cell key name) (theirs.cell key name) =
    some (merged.cell key name)

/-- The merge does not fail, and its document is the merge of the cells. -/
def CellWise (base ours theirs : CsvTable) : Prop :=
  ∃ document, mergeCsv base ours theirs = .ok document ∧
    ∀ records, document = some records → MergedByCells base ours theirs (.ofRecords records)

/-- No side alone removes a column, every row that stays fills the merged columns, and the
fields in a position merge as the cells of the column that comes to stand there. -/
structure ColumnsAgree (base ours theirs : CsvTable) : Prop where
  removed : ∀ name ∈ base.headers, (name ∈ ours.headers ↔ name ∈ theirs.headers)
  filled : ∀ key, RowFills (columnsOf base.headers ours.headers theirs.headers).length
    (base.row? key) (ours.row? key) (theirs.row? key)
  placed : ∀ key col name,
    (columnsOf base.headers ours.headers theirs.headers)[col]? = some name →
      threeWay (fieldOf (base.row? key) col) (fieldOf (ours.row? key) col)
          (fieldOf (theirs.row? key) col) =
        threeWay (base.cell key name) (ours.cell key name) (theirs.cell key name)

/-! ### The rows of the document -/

theorem firstField_row? {table : CsvTable} {key : String} {row : List String}
    (h : table.row? key = some row) : firstField row = key := by
  simpa using List.find?_some h

theorem row?_eq_none {table : CsvTable} {key : String} (h : key ∉ table.rows.map firstField) :
    table.row? key = none := by
  refine List.find?_eq_none.mpr fun row hrow hkey => h ?_
  exact List.mem_map.mpr ⟨row, hrow, of_decide_eq_true hkey⟩

/-- Rows that are made from their keys. -/
theorem find?_filterMap_key {f : String → Option (List String)}
    (hfirst : ∀ key row, f key = some row → firstField row = key) {keys : List String} {key : String}
    (hkey : key ∉ keys → f key = none) :
    ((keys.filterMap f).find? fun row => firstField row = key) = f key := by
  cases hfind : (keys.filterMap f).find? fun row => firstField row = key with
  | some row =>
    obtain ⟨key', -, hrow⟩ := List.mem_filterMap.mp (List.mem_of_find?_eq_some hfind)
    have hsame : firstField row = key := by simpa using List.find?_some hfind
    rw [← hsame, hfirst key' row hrow, hrow]
  | none =>
    cases hrow : f key with
    | none => rfl
    | some row =>
      have hin : key ∈ keys := by
        by_contra hout
        rw [hkey hout] at hrow
        cases hrow
      have hnone := List.find?_eq_none.mp hfind row (List.mem_filterMap.mpr ⟨key, hin, hrow⟩)
      exact absurd (decide_eq_true (hfirst key row hrow)) hnone

section Merge
variable {base ours theirs : KeyedTable}

/-- What becomes of the rows of a key. -/
def mergedAt (base ours theirs : CsvTable) (key : String) : Option (Option (List String)) :=
  mergeRow (base.row? key) (ours.row? key) (theirs.row? key)

def keyOrder (base ours theirs : CsvTable) : List String :=
  (base.rows.map firstField ++ ours.rows.map firstField ++ theirs.rows.map firstField).eraseDups

theorem mergedAt_of_not_mem {base ours theirs : CsvTable} {key : String}
    (h : key ∉ keyOrder base ours theirs) : mergedAt base ours theirs key = some none := by
  unfold keyOrder at h
  rw [List.mem_eraseDups, List.mem_append, List.mem_append, not_or, not_or] at h
  unfold mergedAt
  rw [row?_eq_none h.1.1, row?_eq_none h.1.2, row?_eq_none h.2]
  rfl

theorem mapM_mergedAt_eq_none_iff {base ours theirs : CsvTable} :
    (keyOrder base ours theirs).mapM (mergedAt base ours theirs) = none ↔
      ∃ key, RowConflict (base.row? key) (ours.row? key) (theirs.row? key) := by
  rw [mapM_eq_none_iff]
  constructor
  · rintro ⟨key, -, hnone⟩
    exact ⟨key, mergeRow_eq_none_iff.mp hnone⟩
  · rintro ⟨key, hconflict⟩
    have hnone : mergedAt base ours theirs key = none := mergeRow_eq_none_iff.mpr hconflict
    refine ⟨key, ?_, hnone⟩
    by_contra hout
    rw [mergedAt_of_not_mem hout] at hnone
    cases hnone

theorem mergeCsv_eq (base ours theirs : KeyedTable) :
    mergeCsv base ours theirs =
      match (keyOrder base ours theirs).mapM (mergedAt base ours theirs) with
      | none => .ok none
      | some merged =>
        ((merged.filterMap id).foldlM writeRecord
          [columnsOf base.headers ours.headers theirs.headers]).map some := by
  unfold mergeCsv keyOrder
  simp only [buildKeyedRows_order base.distinctKeys, buildKeyedRows_order ours.distinctKeys,
    buildKeyedRows_order theirs.distinctKeys, buildKeyedRows_get base.distinctKeys,
    buildKeyedRows_get ours.distinctKeys, buildKeyedRows_get theirs.distinctKeys,
    mergeHeaders_eq ours.distinctHeaders theirs.distinctHeaders]
  rfl

def mergedRows (base ours theirs : CsvTable) : List (List String) :=
  (keyOrder base ours theirs).filterMap fun key => (mergedAt base ours theirs key).join

theorem mergeCsv_of_conflict {base ours theirs : KeyedTable}
    (h : ∃ key, RowConflict (base.row? key) (ours.row? key) (theirs.row? key)) :
    mergeCsv base ours theirs = .ok none := by
  rw [mergeCsv_eq, mapM_mergedAt_eq_none_iff.mpr h]

section NoConflict
variable {base ours theirs : KeyedTable}
  (h : ¬ ∃ key, RowConflict (base.row? key) (ours.row? key) (theirs.row? key))
include h

theorem mergeCsv_of_not_conflict :
    mergeCsv base ours theirs = ((mergedRows base ours theirs).foldlM writeRecord
      [columnsOf base.headers ours.headers theirs.headers]).map some := by
  rw [mergeCsv_eq]
  cases hmerged : (keyOrder base ours theirs).mapM (mergedAt base ours theirs) with
  | none => exact absurd (mapM_mergedAt_eq_none_iff.mp hmerged) h
  | some merged =>
    have hrows : merged.filterMap id = mergedRows base ours theirs := by
      have hmap := congrArg (List.filterMap Option.join) (mapM_eq_some_iff.mp hmerged)
      rw [List.filterMap_map, List.filterMap_map] at hmap
      exact hmap.symm
    rw [← hrows]

/-- The document is written where every row that stays has as many fields as there are columns. -/
theorem mergeCsv_eq_ok_iff {document : Option (List (List String))} :
    mergeCsv base ours theirs = .ok document ↔
      (∀ row ∈ mergedRows base ours theirs,
        row.length = (columnsOf base.headers ours.headers theirs.headers).length) ∧
        document = some (columnsOf base.headers ours.headers theirs.headers ::
          mergedRows base ours theirs) := by
  rw [mergeCsv_of_not_conflict h]
  constructor
  · intro hdocument
    cases hwritten : (mergedRows base ours theirs).foldlM writeRecord
        [columnsOf base.headers ours.headers theirs.headers] with
    | error e =>
      rw [hwritten] at hdocument
      cases hdocument
    | ok records =>
      rw [hwritten] at hdocument
      cases hdocument
      obtain ⟨hlength, rfl⟩ := foldlM_writeRecord.mp hwritten
      exact ⟨hlength, rfl⟩
  · rintro ⟨hlength, rfl⟩
    rw [foldlM_writeRecord.mpr ⟨hlength, rfl⟩]
    rfl

theorem mergedAt_eq (key : String) :
    mergedAt base ours theirs key = some (mergedAt base ours theirs key).join := by
  cases hmerged : mergedAt base ours theirs key with
  | none => exact absurd ⟨key, mergeRow_eq_none_iff.mp hmerged⟩ h
  | some row => rfl

theorem mergedRows_filled_iff (columns : Nat) :
    (∀ row ∈ mergedRows base ours theirs, row.length = columns) ↔
      ∀ key, RowFills columns (base.row? key) (ours.row? key) (theirs.row? key) := by
  constructor
  · intro hrows key
    refine (mergeRow_fills columns (mergedAt_eq h key)).mp fun row hrow => hrows row ?_
    refine List.mem_filterMap.mpr ⟨key, ?_, hrow⟩
    by_contra hout
    rw [mergedAt_of_not_mem hout] at hrow
    cases hrow
  · intro hfills row hrow
    obtain ⟨key, -, hrow⟩ := List.mem_filterMap.mp hrow
    exact (mergeRow_fills columns (mergedAt_eq h key)).mpr (hfills key) row hrow

theorem row?_mergedRows (headers : List String) (key : String) :
    (CsvTable.mk headers (mergedRows base ours theirs)).row? key =
      (mergedAt base ours theirs key).join := by
  refine find?_filterMap_key (f := fun key => (mergedAt base ours theirs key).join) ?_ ?_
  · intro key row hrow
    have hmerged := mergedAt_eq h key
    rw [hrow] at hmerged
    exact firstField_mergeRow (fun _ => firstField_row?) (fun _ => firstField_row?)
      (fun _ => firstField_row?) hmerged
  · intro hout
    rw [mergedAt_of_not_mem hout]
    rfl

end NoConflict

theorem cell_of_getElem? {table : CsvTable} (hdistinct : table.headers.Nodup) {col : Nat}
    {name : String} (h : table.headers[col]? = some name) (key : String) :
    table.cell key name = fieldOf (table.row? key) col := by
  obtain ⟨hcol, rfl⟩ := List.getElem?_eq_some_iff.mp h
  unfold CsvTable.cell
  rw [if_pos (List.getElem_mem hcol), hdistinct.idxOf_getElem]

/-- A column that no header names has no cells. -/
theorem cell_of_not_mem {table : CsvTable} {name : String} (h : name ∉ table.headers)
    (key : String) : table.cell key name = "" := if_neg h

/-- A column that one side alone removes is still among the merged ones. -/
theorem columns_iff {base ours theirs : CsvTable} {merged : CsvTable}
    (hmerged : merged.headers = columnsOf base.headers ours.headers theirs.headers) :
    (∀ name, threeWay (base.hasColumn name) (ours.hasColumn name) (theirs.hasColumn name) =
        some (merged.hasColumn name)) ↔
      ∀ name ∈ base.headers, (name ∈ ours.headers ↔ name ∈ theirs.headers) := by
  refine forall_congr' fun name => ?_
  have hmem : merged.hasColumn name = (ours.hasColumn name || theirs.hasColumn name) := by
    unfold CsvTable.hasColumn
    rw [hmerged, ← Bool.decide_or]
    exact decide_eq_decide.mpr mem_columnsOf
  rw [threeWay_bool, hmem, Option.some.injEq]
  unfold CsvTable.hasColumn
  by_cases hb : name ∈ base.headers <;> by_cases ho : name ∈ ours.headers <;>
    by_cases ht : name ∈ theirs.headers <;> simp [hb, ho, ht]

/-- The document without a conflict has the fields of its rows merged by position. -/
theorem mergedByCells_iff {base ours theirs : KeyedTable}
    (h : ¬ ∃ key, RowConflict (base.row? key) (ours.row? key) (theirs.row? key))
    (hfilled : ∀ key, RowFills (columnsOf base.headers ours.headers theirs.headers).length
      (base.row? key) (ours.row? key) (theirs.row? key)) :
    MergedByCells base ours theirs
        ⟨columnsOf base.headers ours.headers theirs.headers, mergedRows base ours theirs⟩ ↔
      ColumnsAgree base ours theirs := by
  obtain ⟨merged, hmerged⟩ : ∃ merged : CsvTable, merged =
    ⟨columnsOf base.headers ours.headers theirs.headers, mergedRows base ours theirs⟩ := ⟨_, rfl⟩
  have hheaders : merged.headers = columnsOf base.headers ours.headers theirs.headers := by
    rw [hmerged]
  have hrow : ∀ key, merged.row? key = (mergedAt base ours theirs key).join := by
    rw [hmerged]
    exact row?_mergedRows h _
  have hfields : ∀ key, threeWay (base.hasRow key) (ours.hasRow key) (theirs.hasRow key) =
      some (merged.hasRow key) ∧ ∀ col, threeWay (fieldOf (base.row? key) col)
        (fieldOf (ours.row? key) col) (fieldOf (theirs.row? key) col) =
          some (fieldOf (merged.row? key) col) := by
    intro key
    unfold CsvTable.hasRow
    rw [hrow]
    exact mergeRow_threeWay (mergedAt_eq h key)
  have hcell : ∀ key col name, merged.headers[col]? = some name →
      merged.cell key name = fieldOf (merged.row? key) col := fun key col name hname =>
    cell_of_getElem? (hheaders ▸ nodup_columnsOf) hname key
  rw [← hmerged]
  constructor
  · intro hm
    refine ⟨(columns_iff hheaders).mp hm.columns, hfilled, fun key col name hname => ?_⟩
    rw [hm.cells key name, hcell key col name (hheaders ▸ hname), (hfields key).2 col]
  · intro hagree
    refine ⟨fun key => (hfields key).1, (columns_iff hheaders).mpr hagree.removed,
      fun key name => ?_⟩
    by_cases hname : name ∈ merged.headers
    · obtain ⟨col, hcol⟩ := List.mem_iff_getElem?.mp hname
      rw [hcell key col name hcol, ← (hfields key).2 col]
      exact (hagree.placed key col name (hheaders ▸ hcol)).symm
    · have hneither := hname
      rw [hheaders, mem_columnsOf, not_or] at hneither
      rw [cell_of_not_mem hname, cell_of_not_mem hneither.1, cell_of_not_mem hneither.2,
        threeWay_same]

/-- Fields are merged where they stand, which is right exactly if the rows conflict or the columns
agree. -/
theorem cellWise_iff (base ours theirs : KeyedTable) :
    CellWise base ours theirs ↔
      (∃ key, RowConflict (base.row? key) (ours.row? key) (theirs.row? key)) ∨
        ColumnsAgree base ours theirs := by
  by_cases hconflict : ∃ key, RowConflict (base.row? key) (ours.row? key) (theirs.row? key)
  · exact ⟨fun _ => .inl hconflict, fun _ => ⟨none, mergeCsv_of_conflict hconflict, nofun⟩⟩
  · rw [or_iff_right hconflict]
    constructor
    · rintro ⟨document, hdocument, hcells⟩
      obtain ⟨hlength, rfl⟩ := (mergeCsv_eq_ok_iff hconflict).mp hdocument
      have hfilled := (mergedRows_filled_iff hconflict _).mp hlength
      exact (mergedByCells_iff hconflict hfilled).mp (hcells _ rfl)
    · intro hagree
      have hlength := (mergedRows_filled_iff hconflict _).mpr hagree.filled
      refine ⟨_, (mergeCsv_eq_ok_iff hconflict).mpr ⟨hlength, rfl⟩, ?_⟩
      rintro records ⟨⟩
      exact (mergedByCells_iff hconflict hagree.filled).mpr hagree

end Merge

/-! ### Columns that are only appended -/

/-- Where the merged columns begin with those of a table, its positions are its columns. -/
theorem fieldOf_eq_cell {table : CsvTable} {columns : List String} (hdistinct : columns.Nodup)
    (hbegins : table.headers <+: columns)
    (hwidth : ∀ row ∈ table.rows, row.length ≤ table.headers.length) {col : Nat} {name : String}
    (hname : columns[col]? = some name) (key : String) :
    fieldOf (table.row? key) col = table.cell key name := by
  obtain ⟨rest, rfl⟩ := hbegins
  by_cases hcol : col < table.headers.length
  · rw [List.getElem?_append_left hcol] at hname
    exact (cell_of_getElem? hdistinct.of_append_left hname key).symm
  · have hle := Nat.le_of_not_lt hcol
    rw [List.getElem?_append_right hle] at hname
    have hout : name ∉ table.headers := fun hin =>
      (List.nodup_append.mp hdistinct).2.2 name hin name (List.mem_of_getElem? hname) rfl
    rw [cell_of_not_mem hout]
    cases hrow : table.row? key with
    | none => rfl
    | some row => exact fieldAt_of_length_le ((hwidth row (List.mem_of_find?_eq_some hrow)).trans hle)

/-- Of tables that differ in their last columns only, the positions are the columns. -/
theorem columnsAgree_of_begins {base ours theirs : CsvTable}
    (hbegins : ∀ table ∈ [base, ours, theirs],
      table.headers <+: columnsOf base.headers ours.headers theirs.headers)
    (hwidth : ∀ table ∈ [base, ours, theirs], ∀ row ∈ table.rows,
      row.length ≤ table.headers.length)
    (hremoved : ∀ name ∈ base.headers, (name ∈ ours.headers ↔ name ∈ theirs.headers))
    (hfilled : ∀ key, RowFills (columnsOf base.headers ours.headers theirs.headers).length
      (base.row? key) (ours.row? key) (theirs.row? key)) :
    ColumnsAgree base ours theirs where
  removed := hremoved
  filled := hfilled
  placed key col name hname := by
    have hcell : ∀ table ∈ [base, ours, theirs], fieldOf (table.row? key) col = table.cell key name :=
      fun table htable =>
        fieldOf_eq_cell nodup_columnsOf (hbegins table htable) (hwidth table htable) hname key
    rw [hcell base (by simp), hcell ours (by simp), hcell theirs (by simp)]

/-! ### A column that is moved -/

def plainTable : KeyedTable := ⟨⟨["id", "a", "b"], [["1", "x", "y"]]⟩, by decide, by decide⟩

def movedTable : KeyedTable := ⟨⟨["id", "b", "a"], [["1", "y", "x"]]⟩, by decide, by decide⟩

/-- Ours moves a column, and its cells come to stand under the other header. -/
theorem moved_column_misread :
    mergeCsv plainTable movedTable plainTable =
        .ok (some [["id", "a", "b"], ["1", "y", "x"]]) ∧
      ¬ CellWise plainTable movedTable plainTable := by
  have hmerged : mergeCsv plainTable movedTable plainTable =
      .ok (some [["id", "a", "b"], ["1", "y", "x"]]) := by rfl
  refine ⟨hmerged, ?_⟩
  rintro ⟨document, hdocument, hcells⟩
  rw [hmerged] at hdocument
  cases hdocument
  have hcell := (hcells _ rfl).cells "1" "a"
  revert hcell
  decide

/-- A side that appends a column and one that adds a row. -/
example : mergeCsv plainTable ⟨["id", "a", "b", "c"], [["1", "x", "y", "z"]]⟩
    ⟨["id", "a", "b"], [["1", "x", "y"], ["2", "v", "w"]]⟩ =
      .error (.serializationError ⟨4, 3⟩) := by rfl

end Suture.Driver
