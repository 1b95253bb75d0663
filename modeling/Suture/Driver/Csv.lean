import Mathlib.Data.List.Nodup
import Mathlib.Data.String.Basic
import Suture.Foundation.SortedMap
import Suture.Foundation.ThreeWay

/-!
# Merging csv tables

`merge_csv` of the csv driver. Columns are merged by the counted names of the headers, rows by
their first field, and the fields of a row by their positions. The records go to a writer that
takes no record of another length than the first.
-/

namespace Suture.Driver
set_option autoImplicit false
open Foundation

structure CsvTable where
  headers : List String
  rows : List (List String)
deriving DecidableEq, Repr

/-- The writer found a record of another length than the first. -/
structure UnequalLengths where
  expectedLen : Nat
  len : Nat
deriving DecidableEq, Repr

inductive DriverError where
  | serializationError (e : UnequalLengths)
deriving DecidableEq, Repr

/-! ### Rows by key -/

def firstField (row : List String) : String := row.head?.getD ""

def rowKey (row : List String) (occurrence : Nat) : String :=
  if occurrence = 0 then firstField row else firstField row ++ "__dup" ++ toString occurrence

structure KeyedRows where
  order : List String
  map : SortedMap String (List String)
  counts : SortedMap String Nat

def KeyedRows.add (keyed : KeyedRows) (row : List String) : KeyedRows :=
  let count := (keyed.counts.get (firstField row)).getD 0
  let key := rowKey row count
  ⟨keyed.order ++ [key], keyed.map.insert key row, keyed.counts.insert (firstField row) (count + 1)⟩

def buildKeyedRows (rows : List (List String)) : KeyedRows :=
  rows.foldl KeyedRows.add ⟨[], .empty, .empty⟩

/-! ### Headers -/

def countHeaders (headers : List String) : SortedMap String Nat :=
  headers.foldl (fun counts h => counts.insert h ((counts.get h).getD 0 + 1)) .empty

structure MergedHeaders where
  merged : List String
  processed : SortedMap String Nat

def MergedHeaders.add (baseHc oursHc theirsHc : SortedMap String Nat) (headers : MergedHeaders)
    (h : String) : MergedHeaders :=
  let n := (headers.processed.get h).getD 0
  let inBase := decide (n < (baseHc.get h).getD 0)
  let inOurs := decide (n < (oursHc.get h).getD 0)
  let inTheirs := decide (n < (theirsHc.get h).getD 0)
  let merged := match inBase, inOurs, inTheirs with
    | _, false, false => headers.merged
    | _, _, _ => headers.merged ++ [h]
  ⟨merged, headers.processed.insert h (n + 1)⟩

def mergeHeaders (base ours theirs : List String) : List String :=
  ((base ++ ours ++ theirs).foldl
    (MergedHeaders.add (countHeaders base) (countHeaders ours) (countHeaders theirs))
    ⟨[], .empty⟩).merged

/-! ### Rows -/

/-- A field that the row does not have is empty. -/
def fieldAt (row : List String) (col : Nat) : String := row[col]?.getD ""

def mergeFields (b o t : List String) : Option (List String) :=
  (List.range (max (max b.length o.length) t.length)).mapM fun col =>
    threeWay (fieldAt b col) (fieldAt o col) (fieldAt t col)

/-- What becomes of a key: a row, no row, or `none` for a conflict. -/
def mergeRow : (base ours theirs : Option (List String)) → Option (Option (List String))
  | some b, some o, some t => if o = t then some (some o) else (mergeFields b o t).map some
  | some b, some o, none => if o = b then some none else none
  | some b, none, some t => if t = b then some none else none
  | _, none, none => some none
  | none, some o, none => some (some o)
  | none, none, some t => some (some t)
  | none, some o, some t => if o = t then some (some o) else none

/-! ### The document -/

def writeRecord (records : List (List String)) (record : List String) :
    Except DriverError (List (List String)) :=
  match records.head? with
  | some first =>
    if record.length = first.length then .ok (records ++ [record])
    else .error (.serializationError ⟨first.length, record.length⟩)
  | none => .ok [record]

/-- The records of the document, `none` for a conflict. -/
def mergeCsv (base ours theirs : CsvTable) : Except DriverError (Option (List (List String))) :=
  let mergedHeaders := mergeHeaders base.headers ours.headers theirs.headers
  let baseKeyed := buildKeyedRows base.rows
  let oursKeyed := buildKeyedRows ours.rows
  let theirsKeyed := buildKeyedRows theirs.rows
  let keyOrder := (baseKeyed.order ++ oursKeyed.order ++ theirsKeyed.order).eraseDups
  let merged := keyOrder.mapM fun key =>
    mergeRow (baseKeyed.map.get key) (oursKeyed.map.get key) (theirsKeyed.map.get key)
  match merged with
  | none => .ok none
  | some merged => do
    let mergedRows := merged.filterMap id
    let output ← writeRecord [] mergedHeaders
    let output ← mergedRows.foldlM writeRecord output
    return some output

/-! ### Distinct keys -/

theorem foldl_add {keyed : KeyedRows} {rows : List (List String)}
    (hdistinct : (rows.map firstField).Nodup)
    (hnew : ∀ row ∈ rows, keyed.counts.get (firstField row) = none) :
    (rows.foldl KeyedRows.add keyed).order = keyed.order ++ rows.map firstField ∧
      ∀ key, (rows.foldl KeyedRows.add keyed).map.get key =
        (rows.find? fun row => firstField row = key).or (keyed.map.get key) := by
  induction rows generalizing keyed with
  | nil => exact ⟨(List.append_nil _).symm, fun key => rfl⟩
  | cons row rows ih =>
    obtain ⟨hrow, hdistinct⟩ := List.nodup_cons.mp hdistinct
    have hne : ∀ row' ∈ rows, firstField row' ≠ firstField row := fun row' hrow' heq =>
      hrow (heq ▸ List.mem_map_of_mem hrow')
    have hzero : keyed.counts.get (firstField row) = none := hnew row (List.mem_cons_self ..)
    have hadd : keyed.add row = ⟨keyed.order ++ [firstField row],
        keyed.map.insert (firstField row) row, keyed.counts.insert (firstField row) 1⟩ := by
      unfold KeyedRows.add
      rw [hzero]
      rfl
    obtain ⟨horder, hmap⟩ := @ih (keyed.add row) hdistinct fun row' hrow' => by
      rw [hadd, SortedMap.get_insert, if_neg (hne row' hrow')]
      exact hnew row' (List.mem_cons_of_mem _ hrow')
    rw [List.foldl_cons]
    refine ⟨?_, fun key => ?_⟩
    · rw [horder, hadd, List.map_cons, List.append_assoc]
      rfl
    · rw [hmap, hadd, SortedMap.get_insert, List.find?_cons]
      by_cases hkey : firstField row = key
      · have hnone : (rows.find? fun row' => firstField row' = key) = none :=
          List.find?_eq_none.mpr fun row' hrow' => by
            simpa [← hkey] using hne row' hrow'
        rw [hnone, if_pos hkey.symm, decide_eq_true hkey]
        rfl
      · rw [if_neg (Ne.symm hkey), decide_eq_false hkey]

theorem buildKeyedRows_order {rows : List (List String)} (h : (rows.map firstField).Nodup) :
    (buildKeyedRows rows).order = rows.map firstField :=
  (foldl_add h fun _ _ => rfl).1

theorem buildKeyedRows_get {rows : List (List String)} (h : (rows.map firstField).Nodup)
    (key : String) : (buildKeyedRows rows).map.get key = rows.find? fun row => firstField row = key :=
  ((foldl_add h fun _ _ => rfl).2 key).trans Option.or_none

/-! ### Distinct headers -/

theorem getD_countHeaders (headers : List String) (h : String) :
    ((countHeaders headers).get h).getD 0 = headers.count h := by
  suffices hall : ∀ counts : SortedMap String Nat,
      ((headers.foldl (fun counts h => counts.insert h ((counts.get h).getD 0 + 1)) counts).get
        h).getD 0 = (counts.get h).getD 0 + headers.count h by
    exact (hall .empty).trans (Nat.zero_add _)
  induction headers with
  | nil => exact fun counts => rfl
  | cons first headers ih =>
    intro counts
    rw [List.foldl_cons, ih, SortedMap.get_insert, List.count_cons]
    by_cases hfirst : h = first
    · rw [if_pos hfirst, hfirst]
      simp only [Option.getD_some, beq_self_eq_true, if_pos]
      omega
    · rw [if_neg hfirst, beq_false_of_ne (Ne.symm hfirst)]
      rfl

/-- The columns that a side has, in the order of base, then of ours, then of theirs. -/
def columnsOf (base ours theirs : List String) : List String :=
  (base ++ ours ++ theirs).eraseDups.filter fun name => name ∈ ours || name ∈ theirs

section Headers
variable {base ours theirs : List String}

theorem lt_getD_countHeaders {headers : List String} (hdistinct : headers.Nodup) (h : String) (n : Nat) :
    n < ((countHeaders headers).get h).getD 0 ↔ n = 0 ∧ h ∈ headers := by
  have hle := List.nodup_iff_count_le_one.mp hdistinct h
  rw [getD_countHeaders, ← List.count_pos_iff]
  omega

/-- Only the first time a name comes up can its column be taken. -/
theorem merged_add (hours : ours.Nodup) (htheirs : theirs.Nodup) (headers : MergedHeaders)
    (h : String) :
    (headers.add (countHeaders base) (countHeaders ours) (countHeaders theirs) h).merged =
      if (headers.processed.get h).getD 0 = 0 ∧ (h ∈ ours ∨ h ∈ theirs) then headers.merged ++ [h]
      else headers.merged := by
  have hours := lt_getD_countHeaders hours h ((headers.processed.get h).getD 0)
  have htheirs := lt_getD_countHeaders htheirs h ((headers.processed.get h).getD 0)
  unfold MergedHeaders.add
  simp only [hours, htheirs]
  by_cases hn : (headers.processed.get h).getD 0 = 0
  · by_cases ho : h ∈ ours <;> by_cases ht : h ∈ theirs <;> simp [hn, ho, ht]
  · simp [hn]

theorem contains_insert (counts : SortedMap String Nat) (h name : String) (n : Nat) :
    (counts.insert h n).contains name = (counts.contains name || name == h) := by
  rw [SortedMap.contains_eq, SortedMap.contains_eq, SortedMap.get_insert]
  by_cases hname : name = h
  · simp [hname]
  · simp [hname]

theorem foldl_addHeader (hours : ours.Nodup) (htheirs : theirs.Nodup) {headers : MergedHeaders}
    (hpos : ∀ h n, headers.processed.get h = some n → 0 < n) (names : List String) :
    (names.foldl (MergedHeaders.add (countHeaders base) (countHeaders ours) (countHeaders theirs))
      headers).merged = headers.merged ++
        ((names.filter fun h => !headers.processed.contains h).eraseDups.filter
          fun name => name ∈ ours || name ∈ theirs) := by
  induction names generalizing headers with
  | nil => exact (List.append_nil _).symm
  | cons h names ih =>
    obtain ⟨n, hn⟩ : ∃ n, (headers.processed.get h).getD 0 = n := ⟨_, rfl⟩
    have hprocessed : (headers.add (countHeaders base) (countHeaders ours) (countHeaders theirs)
        h).processed = headers.processed.insert h (n + 1) := by
      rw [← hn]
      rfl
    rw [List.foldl_cons, ih, merged_add hours htheirs, hprocessed, hn]
    · simp only [contains_insert, Bool.not_or]
      cases hget : headers.processed.get h with
      | some m =>
        have hin : headers.processed.contains h = true := Option.isSome_iff_exists.mpr ⟨m, hget⟩
        have hold : ∀ name, (!headers.processed.contains name && !name == h) =
            !headers.processed.contains name := by
          intro name
          by_cases hname : name = h
          · simp [hname, hin]
          · simp [hname]
        have hcount : n ≠ 0 := by
          rw [← hn, hget]
          exact (hpos h m hget).ne'
        rw [if_neg fun hand => hcount hand.1, List.filter_cons_of_neg (by simp [hin])]
        simp only [hold]
      | none =>
        have hout : headers.processed.contains h = false :=
          Option.isSome_eq_false_iff.mpr (Option.isNone_iff_eq_none.mpr hget)
        have hcount : n = 0 := by
          rw [← hn, hget]
          rfl
        rw [List.filter_cons_of_pos (by simp [hout]), List.eraseDups_cons, List.filter_filter,
          List.filter_cons]
        simp only [hcount, true_and, Bool.and_comm (!headers.processed.contains _)]
        by_cases hkeep : h ∈ ours ∨ h ∈ theirs
        · rw [if_pos hkeep, if_pos (by simpa using hkeep), List.append_assoc]
          rfl
        · rw [if_neg hkeep, if_neg (by simpa using hkeep)]
    · intro h' n' hget
      rw [hprocessed, SortedMap.get_insert] at hget
      split at hget
      · rw [← Option.some.inj hget]
        exact Nat.succ_pos n
      · exact hpos h' n' hget

theorem mergeHeaders_eq (hours : ours.Nodup) (htheirs : theirs.Nodup) :
    mergeHeaders base ours theirs = columnsOf base ours theirs := by
  have hall : ((base ++ ours ++ theirs).filter fun h =>
      !(SortedMap.empty : SortedMap String Nat).contains h) = base ++ ours ++ theirs :=
    List.filter_eq_self.mpr fun _ _ => rfl
  unfold mergeHeaders
  rw [foldl_addHeader hours htheirs fun _ _ hget => by cases hget]
  exact congrArg (fun names : List String => names.eraseDups.filter fun name =>
    decide (name ∈ ours) || decide (name ∈ theirs)) hall

theorem mem_columnsOf {name : String} :
    name ∈ columnsOf base ours theirs ↔ name ∈ ours ∨ name ∈ theirs := by
  unfold columnsOf
  rw [List.mem_filter, List.mem_eraseDups, List.mem_append, List.mem_append]
  simp only [Bool.or_eq_true, decide_eq_true_eq]
  exact ⟨And.right, fun h => ⟨h.elim (fun ho => .inl (.inr ho)) .inr, h⟩⟩

theorem nodup_eraseDups {α : Type} [DecidableEq α] (l : List α) : l.eraseDups.Nodup := by
  induction hlength : l.length using Nat.strong_induction_on generalizing l with
  | _ n ih =>
    cases l with
    | nil => exact List.nodup_nil
    | cons a l =>
      have hlt : (l.filter fun b => !b == a).length < n := by
        rw [← hlength]
        exact Nat.lt_succ_of_le (List.length_filter_le ..)
      rw [List.eraseDups_cons]
      refine List.nodup_cons.mpr ⟨fun hin => ?_, ih _ hlt _ rfl⟩
      simpa using (List.mem_filter.mp (List.mem_eraseDups.mp hin)).2

theorem nodup_columnsOf : (columnsOf base ours theirs).Nodup := (nodup_eraseDups _).filter _

end Headers

/-! ### Rows of one key -/

def RowConflict : (base ours theirs : Option (List String)) → Prop
  | some b, some o, some t => ∃ col, threeWay (fieldAt b col) (fieldAt o col) (fieldAt t col) = none
  | some b, some o, none => o ≠ b
  | some b, none, some t => t ≠ b
  | none, some o, some t => o ≠ t
  | _, _, _ => False

/-- The row that stays, if one does, has `columns` fields. -/
def RowFills (columns : Nat) : (base ours theirs : Option (List String)) → Prop
  | some b, some o, some t =>
    if o = t then o.length = columns else max (max b.length o.length) t.length = columns
  | none, some o, _ => o.length = columns
  | none, none, some t => t.length = columns
  | _, _, _ => True

/-- The field of a row that may be missing. -/
def fieldOf (row : Option (List String)) (col : Nat) : String := (row.map (fieldAt · col)).getD ""

section Rows
variable {b o t : List String}

theorem fieldAt_zero (row : List String) : fieldAt row 0 = firstField row := by
  rw [fieldAt, firstField, List.head?_eq_getElem?]

theorem fieldAt_of_length_le {row : List String} {col : Nat} (h : row.length ≤ col) :
    fieldAt row col = "" := by
  unfold fieldAt
  rw [List.getElem?_eq_none h]
  rfl

theorem mergeFields_eq_none_iff : mergeFields b o t = none ↔
    ∃ col, threeWay (fieldAt b col) (fieldAt o col) (fieldAt t col) = none := by
  unfold mergeFields
  rw [mapM_eq_none_iff]
  constructor
  · rintro ⟨col, -, hcol⟩
    exact ⟨col, hcol⟩
  · rintro ⟨col, hcol⟩
    refine ⟨col, List.mem_range.mpr (Nat.lt_of_not_le fun hle => ?_), hcol⟩
    have hle := max_le_iff.mp hle
    have hle' := max_le_iff.mp hle.1
    rw [fieldAt_of_length_le hle.2, fieldAt_of_length_le hle'.2] at hcol
    cases hcol

theorem mergeFields_eq_some {row : List String} (h : mergeFields b o t = some row) :
    row.length = max (max b.length o.length) t.length ∧
      ∀ col, threeWay (fieldAt b col) (fieldAt o col) (fieldAt t col) = some (fieldAt row col) := by
  unfold mergeFields at h
  have hmap := mapM_eq_some_iff.mp h
  have hlength : row.length = max (max b.length o.length) t.length := by
    have := congrArg List.length hmap
    rw [List.length_map, List.length_map, List.length_range] at this
    exact this.symm
  refine ⟨hlength, fun col => ?_⟩
  by_cases hcol : col < row.length
  · have hget := congrArg (fun l => l[col]?) hmap
    have hfield : row[col]? = some row[col] := List.getElem?_eq_getElem hcol
    rw [List.getElem?_map, List.getElem?_map, List.getElem?_range (hlength ▸ hcol), hfield] at hget
    refine (Option.some.inj hget).trans ?_
    rw [fieldAt, hfield]
    rfl
  · have hle : row.length ≤ col := Nat.le_of_not_lt hcol
    have hmax := max_le_iff.mp (hlength ▸ hle)
    have hmax' := max_le_iff.mp hmax.1
    rw [fieldAt_of_length_le hmax.2, fieldAt_of_length_le hmax'.2, fieldAt_of_length_le hle,
      threeWay_same]

end Rows

section Row
variable {b o t row : Option (List String)}

theorem mergeRow_eq_none_iff : mergeRow b o t = none ↔ RowConflict b o t := by
  match b, o, t with
  | some b, some o, some t =>
    simp only [mergeRow, RowConflict]
    split
    · rename_i hsame
      simp [hsame]
    · rw [Option.map_eq_none_iff, mergeFields_eq_none_iff]
  | some b, some o, none => simp [mergeRow, RowConflict]
  | some b, none, some t => simp [mergeRow, RowConflict]
  | some _, none, none | none, none, none => simp [mergeRow, RowConflict]
  | none, some o, none => simp [mergeRow, RowConflict]
  | none, none, some t => simp [mergeRow, RowConflict]
  | none, some o, some t => simp [mergeRow, RowConflict]

/-- What becomes of the three rows of a key, where there is no conflict. -/
inductive RowMerged : (base ours theirs merged : Option (List String)) → Prop where
  | same (b : Option (List String)) (o : List String) : RowMerged b (some o) (some o) (some o)
  | fields {b o t row : List String} (hne : o ≠ t) (hfields : mergeFields b o t = some row) :
    RowMerged (some b) (some o) (some t) (some row)
  | removedByTheirs (b : List String) : RowMerged (some b) (some b) none none
  | removedByOurs (b : List String) : RowMerged (some b) none (some b) none
  | gone (b : Option (List String)) : RowMerged b none none none
  | addedByOurs (o : List String) : RowMerged none (some o) none (some o)
  | addedByTheirs (t : List String) : RowMerged none none (some t) (some t)

theorem RowMerged.of_mergeRow (h : mergeRow b o t = some row) : RowMerged b o t row := by
  match b, o, t with
  | some b, some o, some t =>
    simp only [mergeRow] at h
    split at h
    · rename_i hsame
      rw [← Option.some.inj h, ← hsame]
      exact .same _ _
    · rename_i hne
      obtain ⟨fieldRow, hfields, rfl⟩ := Option.map_eq_some_iff.mp h
      exact .fields hne hfields
  | some b, some o, none =>
    simp only [mergeRow] at h
    split at h
    · rename_i hsame
      rw [← Option.some.inj h, hsame]
      exact .removedByTheirs _
    · cases h
  | some b, none, some t =>
    simp only [mergeRow] at h
    split at h
    · rename_i hsame
      rw [← Option.some.inj h, hsame]
      exact .removedByOurs _
    · cases h
  | some _, none, none | none, none, none =>
    cases h
    exact .gone _
  | none, some o, none =>
    cases h
    exact .addedByOurs _
  | none, none, some t =>
    cases h
    exact .addedByTheirs _
  | none, some o, some t =>
    simp only [mergeRow] at h
    split at h
    · rename_i hsame
      rw [← Option.some.inj h, ← hsame]
      exact .same _ _
    · cases h

/-- Field for field, and for the row as a whole. -/
theorem mergeRow_threeWay (h : mergeRow b o t = some row) :
    threeWay b.isSome o.isSome t.isSome = some row.isSome ∧
      ∀ col, threeWay (fieldOf b col) (fieldOf o col) (fieldOf t col) = some (fieldOf row col) := by
  cases RowMerged.of_mergeRow h with
  | same b o => exact ⟨threeWay_same .., fun col => threeWay_same ..⟩
  | fields hne hfields => exact ⟨rfl, (mergeFields_eq_some hfields).2⟩
  | removedByTheirs b => exact ⟨rfl, fun col => threeWay_base_left ..⟩
  | removedByOurs b => exact ⟨rfl, fun col => threeWay_base_right ..⟩
  | gone b => exact ⟨threeWay_same .., fun col => threeWay_same ..⟩
  | addedByOurs o => exact ⟨rfl, fun col => threeWay_base_right ..⟩
  | addedByTheirs t => exact ⟨rfl, fun col => threeWay_base_left ..⟩

theorem mergeRow_fills (columns : Nat) (h : mergeRow b o t = some row) :
    (∀ r, row = some r → r.length = columns) ↔ RowFills columns b o t := by
  cases RowMerged.of_mergeRow h with
  | same b o => cases b <;> simp [RowFills]
  | fields hne hfields =>
    simp [RowFills, hne, (mergeFields_eq_some hfields).1]
  | removedByTheirs b => simp [RowFills]
  | removedByOurs b => simp [RowFills]
  | gone b => cases b <;> simp [RowFills]
  | addedByOurs o => simp [RowFills]
  | addedByTheirs t => simp [RowFills]

/-- A row that stays has the key of the rows it comes from. -/
theorem firstField_mergeRow {key : String} {r : List String}
    (hb : ∀ r, b = some r → firstField r = key) (ho : ∀ r, o = some r → firstField r = key)
    (ht : ∀ r, t = some r → firstField r = key) (h : mergeRow b o t = some (some r)) :
    firstField r = key := by
  generalize hrow : some r = row at h
  cases RowMerged.of_mergeRow h with
  | same b o =>
    cases hrow
    exact ho _ rfl
  | fields hne hfields =>
    cases hrow
    have hfirst := (mergeFields_eq_some hfields).2 0
    rw [fieldAt_zero, fieldAt_zero, fieldAt_zero, fieldAt_zero, hb _ rfl, ho _ rfl, ht _ rfl,
      threeWay_same] at hfirst
    exact (Option.some.inj hfirst).symm
  | removedByTheirs b => cases hrow
  | removedByOurs b => cases hrow
  | gone b => cases hrow
  | addedByOurs o =>
    cases hrow
    exact ho _ rfl
  | addedByTheirs t =>
    cases hrow
    exact ht _ rfl

end Row

/-! ### The records that are written -/

theorem foldlM_writeRecord {first : List String} {records rows output : List (List String)} :
    rows.foldlM writeRecord (first :: records) = .ok output ↔
      (∀ row ∈ rows, row.length = first.length) ∧ output = first :: records ++ rows := by
  induction rows generalizing records with
  | nil => simp [pure, Except.pure, eq_comm]
  | cons row rows ih =>
    rw [List.foldlM_cons]
    by_cases hrow : row.length = first.length
    · have hwrite : writeRecord (first :: records) row = .ok (first :: (records ++ [row])) := if_pos hrow
      rw [hwrite]
      refine ih.trans ?_
      simp [hrow]
    · have hwrite : writeRecord (first :: records) row =
          .error (.serializationError ⟨first.length, row.length⟩) := if_neg hrow
      rw [hwrite]
      refine ⟨nofun, fun h => absurd (h.1 row (List.mem_cons_self ..)) hrow⟩

end Suture.Driver
