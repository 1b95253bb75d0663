import Suture.Driver.Worksheet
import Suture.Foundation.ThreeWay
import Mathlib.Data.Prod.Lex

/-!
# Merging spreadsheets

The cells of three sheets are merged one by one at their coordinates. Two cells count as the same
if they agree but for the text of a formula with a shared index. The merged sheets are
written into the package of the base.
-/

namespace Suture.Driver
set_option autoImplicit false
open Foundation Ooxml

namespace Xlsx

/-! ### Cells -/

/-- A row and a column; rows are compared first. -/
abbrev Coordinate := Nat ×ₗ Nat

def coordinate (cell : FormulaCell) : Coordinate := toLex (cell.row, cell.col)

def cellAt (cells : List FormulaCell) (k : Coordinate) : Option FormulaCell :=
  lastRow (cells.map fun cell => (coordinate cell, cell)) k

def formulasEquivalent (a b : FormulaCell) : Bool :=
  a.formula = b.formula || (a.sharedIndex.isSome && a.sharedIndex = b.sharedIndex)

/-- The comparison of the merge. -/
def Alike (a b : FormulaCell) : Prop :=
  a.value = b.value ∧ formulasEquivalent a b = true ∧ a.sharedIndex = b.sharedIndex

instance (a b : FormulaCell) : Decidable (Alike a b) := inferInstanceAs (Decidable (_ ∧ _ ∧ _))

def changedFormula (base side : FormulaCell) : Bool :=
  !formulasEquivalent side base || side.sharedIndex ≠ base.sharedIndex

def changedValue (base side : FormulaCell) : Bool := side.value ≠ base.value

/-- What becomes of the cells at one coordinate, `none` for a conflict. -/
def mergeCell : (base ours theirs : Option FormulaCell) → Option (Option FormulaCell)
  | none, some o, some t => if Alike o t then some (some o) else none
  | some b, some o, some t =>
    if changedFormula b o && changedFormula b t && !formulasEquivalent o t then none
    else if changedFormula b o && !changedFormula b t && changedValue b t then none
    else if changedFormula b t && !changedFormula b o && changedValue b o then none
    else if Alike o t then some (some o)
    else if Alike o b then some (some t)
    else if Alike t b then some (some o)
    else none
  | _, some o, none => some (some o)
  | _, none, some t => some (some t)
  | _, none, none => some none

def coordinates (base ours theirs : List FormulaCell) : SortedSet Coordinate :=
  .ofList ((base ++ ours ++ theirs).map coordinate)

def mergeCellsFormulaAware (base ours theirs : List FormulaCell) : Option (List FormulaCell) :=
  ((coordinates base ours theirs).elems.mapM fun k =>
    mergeCell (cellAt base k) (cellAt ours k) (cellAt theirs k)).map List.reduceOption

/-! ### Packages -/

/-- The texts of the items read so far, and the text of the item that is open. -/
def sharedStringStep (state : List (List Char) × Option (List Char)) (line : String) :
    List (List Char) × Option (List Char) :=
  let trimmed := trimBy isWhiteSpace line.toList
  let item := state.2.or (if contains trimmed "<si>" || contains trimmed "<si " then some [] else none)
  match item with
  | none => (state.1, none)
  | some current =>
    let current := (between "<t>" "</t>" trimmed).getD current
    if contains trimmed "</si>" then (state.1 ++ [current], none) else (state.1, some current)

def parseSharedStrings (doc : OoxmlDocument) : List (List Char) :=
  match doc.getPart "xl/sharedStrings.xml" with
  | none => []
  | some part => ((Engine.splitLines part.content []).foldl sharedStringStep ([], none)).1

def isSheet (path : String) : Bool :=
  contains path.toList "worksheets/" && decide (".xml".toList <:+ path.toList)

def sheetName (path : String) : String :=
  String.ofList (stripSuffix ".xml".toList (fileName path.toList))

def parseSheetsWithFormulas (doc : OoxmlDocument) :
    Except Failure (List (String × List FormulaCell)) :=
  (doc.parts.keys.filter isSheet).mapM fun path => do
    let part ← orError ("sheet part " ++ path ++ " missing") (doc.getPart path)
    let cells ← parseSheetXmlWithFormulas part.content (parseSharedStrings doc)
    return (sheetName path, cells)

/-- The first sheet of a name, without cells if there is none. -/
def sheetCells (sheets : List (String × List FormulaCell)) (name : String) : List FormulaCell :=
  ((sheets.find? fun sheet => sheet.1 = name).map Prod.snd).getD []

def mergeSheets (base ours theirs : List (String × List FormulaCell)) :
    Option (List (String × List FormulaCell)) :=
  (SortedSet.ofList ((base ++ ours ++ theirs).map Prod.fst)).elems.mapM fun name =>
    (mergeCellsFormulaAware (sheetCells base name) (sheetCells ours name) (sheetCells theirs name)).map
      fun cells => (name, cells)

/-- The merged cells of a sheet are written if the package has a part for it. -/
def writeSheet (nameToPath : String → Option String) (doc : OoxmlDocument)
    (sheet : String × List FormulaCell) : OoxmlDocument :=
  match (nameToPath sheet.1).bind fun path => (doc.getPart path).map fun part => (path, part) with
  | some (path, part) => doc.setContent path (rebuildSheetXmlWithFormulas part.content sheet.2)
  | none => doc

/-- `order` is that of the parts of the base as they are visited for the names, `out` the one in which
the parts are written. -/
def mergeRaw (order out : KeyOrder) (base ours theirs : Archive) : Except Failure (Option Archive) := do
  let baseDoc ← OoxmlDocument.fromBytes base
  let oursDoc ← OoxmlDocument.fromBytes ours
  let theirsDoc ← OoxmlDocument.fromBytes theirs
  let baseSheets ← parseSheetsWithFormulas baseDoc
  let oursSheets ← parseSheetsWithFormulas oursDoc
  let theirsSheets ← parseSheetsWithFormulas theirsDoc
  match mergeSheets baseSheets oursSheets theirsSheets with
  | none => return none
  | some mergedSheets =>
    let doc ← OoxmlDocument.fromBytes base
    let nameToPath := lastRow (((order.arrange doc.parts.keys).filter isSheet).map fun path =>
      (sheetName path, path))
    return some ((mergedSheets.foldl (writeSheet nameToPath) doc).toBytes out)

/-! ### Cell by cell -/

theorem alike_refl (a : FormulaCell) : Alike a a := ⟨rfl, by simp [formulasEquivalent], rfl⟩

theorem Alike.symm {a b : FormulaCell} (h : Alike a b) : Alike b a := by
  obtain ⟨hvalue, hformula, hshared⟩ := h
  refine ⟨hvalue.symm, ?_, hshared.symm⟩
  simp only [formulasEquivalent, Bool.or_eq_true, decide_eq_true_eq, Bool.and_eq_true] at hformula ⊢
  exact hformula.imp Eq.symm fun h => ⟨hshared ▸ h.1, h.2.symm⟩

theorem Alike.trans {a b c : FormulaCell} (h : Alike a b) (h' : Alike b c) : Alike a c := by
  obtain ⟨hvalue, hformula, hshared⟩ := h
  obtain ⟨hvalue', hformula', hshared'⟩ := h'
  refine ⟨hvalue.trans hvalue', ?_, hshared.trans hshared'⟩
  simp only [formulasEquivalent, Bool.or_eq_true, decide_eq_true_eq, Bool.and_eq_true] at hformula hformula' ⊢
  rcases hformula with hformula | hformula
  · rcases hformula' with hformula' | hformula'
    · exact .inl (hformula.trans hformula')
    · exact .inr ⟨hshared ▸ hformula'.1, hshared.trans hshared'⟩
  · exact .inr ⟨hformula.1, hshared.trans hshared'⟩

/-- What two sides that have a cell agree on, up to what counts as the same. -/
def Settled (base : Option FormulaCell) (ours theirs merged : FormulaCell) : Prop :=
  Alike ours theirs ∧ merged = ours ∨ ∃ b, base = some b ∧
    (Alike ours b ∧ merged = theirs ∨ Alike theirs b ∧ merged = ours)

theorem mergeCell_both {base : Option FormulaCell} {ours theirs : FormulaCell}
    {merged : Option FormulaCell} (h : mergeCell base (some ours) (some theirs) = some merged) :
    ∃ w, merged = some w ∧ Settled base ours theirs w := by
  cases base with
  | none =>
    rw [mergeCell] at h
    split at h
    · rename_i halike
      cases h
      exact ⟨ours, rfl, .inl ⟨halike, rfl⟩⟩
    · cases h
  | some b =>
    rw [mergeCell] at h
    split_ifs at h with _ _ _ halike hours htheirs <;> cases h
    · exact ⟨ours, rfl, .inl ⟨halike, rfl⟩⟩
    · exact ⟨theirs, rfl, .inr ⟨b, rfl, .inl ⟨hours, rfl⟩⟩⟩
    · exact ⟨ours, rfl, .inr ⟨b, rfl, .inr ⟨htheirs, rfl⟩⟩⟩

theorem mergeCell_none_left (base theirs : Option FormulaCell) : mergeCell base none theirs = some theirs := by
  cases base <;> cases theirs <;> rfl

theorem mergeCell_none_right (base ours : Option FormulaCell) : mergeCell base ours none = some ours := by
  cases base <;> cases ours <;> rfl

/-- A merged cell is one of the two. -/
theorem mergeCell_mem {base ours theirs : Option FormulaCell} {w : FormulaCell}
    (h : mergeCell base ours theirs = some (some w)) : ours = some w ∨ theirs = some w := by
  cases ours with
  | none =>
    rw [mergeCell_none_left] at h
    exact .inr (Option.some.inj h)
  | some u =>
    cases theirs with
    | none =>
      rw [mergeCell_none_right] at h
      exact .inl (Option.some.inj h)
    | some v =>
      obtain ⟨w', hw', hsettled⟩ := mergeCell_both h
      cases hw'
      rcases hsettled with ⟨-, rfl⟩ | ⟨b, -, ⟨-, rfl⟩ | ⟨-, rfl⟩⟩
      · exact .inl rfl
      · exact .inr rfl
      · exact .inl rfl

theorem coordinate_of_cellAt {cells : List FormulaCell} {k : Coordinate} {cell : FormulaCell}
    (h : cellAt cells k = some cell) : cell ∈ cells ∧ coordinate cell = k := by
  obtain ⟨cell', hcell', heq⟩ := List.mem_map.mp (lastRow_mem h)
  obtain ⟨rfl, rfl⟩ := Prod.mk.inj heq
  exact ⟨hcell', rfl⟩

theorem cellAt_eq_none {cells : List FormulaCell} {k : Coordinate} (h : k ∉ cells.map coordinate) :
    cellAt cells k = none := by
  refine lastRow_eq_none_iff.mpr fun row hrow hk => h ?_
  obtain ⟨cell, hcell, rfl⟩ := List.mem_map.mp hrow
  exact hk ▸ List.mem_map_of_mem hcell

/-- Cells that are found for their coordinates are found at them. -/
theorem cellAt_filterMap {keys : List Coordinate} (hkeys : keys.Nodup)
    {f : Coordinate → Option FormulaCell} (hf : ∀ k w, f k = some w → coordinate w = k)
    (hnot : ∀ k, k ∉ keys → f k = none) (k : Coordinate) : cellAt (keys.filterMap f) k = f k := by
  have hnodup : ((keys.filterMap f).map fun cell => (coordinate cell, cell)).map Prod.fst |>.Nodup := by
    rw [List.map_map, List.map_filterMap]
    refine hkeys.filterMap fun k k' a hk hk' => ?_
    obtain ⟨w, hw, rfl⟩ := Option.map_eq_some_iff.mp hk
    obtain ⟨w', hw', heq⟩ := Option.map_eq_some_iff.mp hk'
    exact (hf k w hw).symm.trans (heq.symm.trans (hf k' w' hw'))
  refine Option.ext fun w => ?_
  rw [cellAt, lastRow_eq_some_iff hnodup]
  constructor
  · intro hmem
    obtain ⟨w', hw', heq⟩ := List.mem_map.mp hmem
    obtain ⟨rfl, rfl⟩ := Prod.mk.inj heq
    obtain ⟨k, -, hk⟩ := List.mem_filterMap.mp hw'
    rwa [hf k _ hk]
  · intro hw
    refine List.mem_map.mpr ⟨w, List.mem_filterMap.mpr ⟨k, ?_, hw⟩, by rw [hf k w hw]⟩
    by_contra hk
    rw [hnot k hk] at hw
    cases hw

/-- At each coordinate is what the cells at it are merged to. -/
theorem cellAt_merged {base ours theirs merged : List FormulaCell}
    (h : mergeCellsFormulaAware base ours theirs = some merged) (k : Coordinate) :
    mergeCell (cellAt base k) (cellAt ours k) (cellAt theirs k) = some (cellAt merged k) := by
  obtain ⟨outcomes, houtcomes, rfl⟩ := Option.map_eq_some_iff.mp h
  have hnone : ∀ k, k ∉ (coordinates base ours theirs).elems →
      mergeCell (cellAt base k) (cellAt ours k) (cellAt theirs k) = some none := by
    intro k hk
    have hk : k ∉ (base ++ ours ++ theirs).map coordinate := fun hmem =>
      hk (SortedSet.mem_def.mp (SortedSet.mem_ofList.mpr hmem))
    rw [List.map_append, List.map_append, List.mem_append, List.mem_append, not_or, not_or] at hk
    rw [cellAt_eq_none hk.1.1, cellAt_eq_none hk.1.2, cellAt_eq_none hk.2]
    rfl
  have hall : ∀ k, mergeCell (cellAt base k) (cellAt ours k) (cellAt theirs k) =
      some (mergeCell (cellAt base k) (cellAt ours k) (cellAt theirs k)).join := by
    intro k
    by_cases hk : k ∈ (coordinates base ours theirs).elems
    · have hmap := mapM_eq_some_iff.mp houtcomes
      obtain ⟨outcome, -, houtcome⟩ := List.mem_map.mp (hmap ▸ List.mem_map_of_mem hk)
      rw [← houtcome]
      rfl
    · rw [hnone k hk]
      rfl
  have hreduce := mapM_reduceOption hall (coordinates base ours theirs).elems
  rw [houtcomes, Option.map_some, Option.some.injEq] at hreduce
  rw [hreduce, cellAt_filterMap (SortedSet.nodup _)]
  · exact hall k
  · intro k w hw
    have hmerge := hall k
    rw [hw] at hmerge
    rcases mergeCell_mem hmerge with hcell | hcell
    · exact (coordinate_of_cellAt hcell).2
    · exact (coordinate_of_cellAt hcell).2
  · intro k hk
    rw [hnone k hk]
    rfl

/-- A cell that only one side has is kept. Of two, the one that the base does not have wins, up to
what counts as the same. -/
theorem merge_cellwise {base ours theirs merged : List FormulaCell}
    (h : mergeCellsFormulaAware base ours theirs = some merged) (k : Coordinate) :
    (cellAt ours k = none → cellAt merged k = cellAt theirs k) ∧
    (cellAt theirs k = none → cellAt merged k = cellAt ours k) ∧
    ∀ o t, cellAt ours k = some o → cellAt theirs k = some t → ∃ w, cellAt merged k = some w ∧
      (∀ b, cellAt base k = some b → Alike t b → Alike w o) ∧
      (∀ b, cellAt base k = some b → Alike o b → Alike w t) ∧
      ((∀ b, cellAt base k = some b → ¬ Alike o b ∧ ¬ Alike t b) → Alike o t ∧ w = o) := by
  have hmerge := cellAt_merged h k
  refine ⟨fun hours => ?_, fun htheirs => ?_, fun o t ho ht => ?_⟩
  · rw [hours, mergeCell_none_left] at hmerge
    exact (Option.some.inj hmerge).symm
  · rw [htheirs, mergeCell_none_right] at hmerge
    exact (Option.some.inj hmerge).symm
  · rw [ho, ht] at hmerge
    obtain ⟨w, hw, hsettled⟩ := mergeCell_both hmerge
    refine ⟨w, hw, fun b hb htb => ?_, fun b hb hob => ?_, fun hneither => ?_⟩
    · rcases hsettled with ⟨-, rfl⟩ | ⟨b', hb', ⟨hob, rfl⟩ | ⟨-, rfl⟩⟩
      · exact alike_refl _
      · cases hb.symm.trans hb'
        exact htb.trans hob.symm
      · exact alike_refl _
    · rcases hsettled with ⟨hot, rfl⟩ | ⟨b', hb', ⟨-, rfl⟩ | ⟨htb, rfl⟩⟩
      · exact hot
      · exact alike_refl _
      · cases hb.symm.trans hb'
        exact hob.trans htb.symm
    · rcases hsettled with hcommon | ⟨b', hb', ⟨hob, -⟩ | ⟨htb, -⟩⟩
      · exact hcommon
      · exact absurd hob (hneither b' hb').1
      · exact absurd htb (hneither b' hb').2

def numberCell (col : Nat) (value : String) : FormulaCell := ⟨1, col, none, value.toList, none⟩

/-- One side changes a cell and the other one adds a cell. -/
theorem merge_cellwise_edit :
    ∃ w, cellAt [numberCell 1 "6", numberCell 2 "7"] (toLex (1, 1)) = some w ∧ Alike w (numberCell 1 "6") := by
  have h : mergeCellsFormulaAware [numberCell 1 "5"] [numberCell 1 "6"] [numberCell 1 "5", numberCell 2 "7"] =
      some [numberCell 1 "6", numberCell 2 "7"] := by decide +kernel
  obtain ⟨w, hw, htheirs, -, -⟩ := (merge_cellwise h (toLex (1, 1))).2.2 (numberCell 1 "6")
    (numberCell 1 "5") (by decide +kernel) (by decide +kernel)
  exact ⟨w, hw, htheirs (numberCell 1 "5") (by decide +kernel) (alike_refl _)⟩

def workbook (sheets : List (String × String)) (h : (sheets.map Prod.fst).Nodup) : Archive where
  entries := sheets.map fun sheet => (sheet.1, encode sheet.2.toList)
  distinct := by simpa [Function.comp_def] using h

def emptySheet : String := "<worksheet><sheetData/></worksheet>"

/-- A cell that they deleted is still there, and a sheet that they added is not. -/
theorem deletion_kept_sheet_lost :
    mergeCellsFormulaAware [numberCell 1 "5"] [numberCell 1 "5"] [] = some [numberCell 1 "5"] ∧
    let base := workbook [("xl/worksheets/sheet1.xml", emptySheet)] (by decide)
    let theirs := workbook [("xl/worksheets/sheet1.xml", emptySheet),
      ("xl/worksheets/sheet2.xml", emptySheet)] (by decide)
    ((mergeRaw ⟨id, fun _ => .refl _⟩ ⟨id, fun _ => .refl _⟩ base base theirs).toOption.join.map
      fun out => out.entries.map Prod.fst) = some ["xl/worksheets/sheet1.xml"] := by
  decide +kernel

end Xlsx
end Suture.Driver
