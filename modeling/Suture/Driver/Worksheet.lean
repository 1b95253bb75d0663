import Suture.Driver.Ooxml
import Suture.Engine.TextLines
import Suture.Foundation.SortedSet

/-!
# Worksheets

A worksheet is read line by line: from the tag of a cell on, the rest of the line is searched for
its formula and its value. Cells are written into the section of the original that has its data.
-/

namespace Suture.Driver
set_option autoImplicit false
open Foundation Ooxml

namespace Xlsx

structure FormulaCell where
  row : Nat
  col : Nat
  formula : Option (List Char)
  value : List Char
  sharedIndex : Option Nat
deriving DecidableEq, Repr

/-! ### Numbers -/

def dropSign : List Char → List Char
  | '+' :: rest => rest
  | '-' :: rest => rest
  | text => text

/-- What may follow the digits: nothing, or an exponent. -/
def isExponent : List Char → Bool
  | [] => true
  | 'e' :: rest | 'E' :: rest =>
    let digits := dropSign rest
    digits ≠ [] && digits.all Char.isDigit
  | _ => false

/-- `str::parse::<f64>` gives a number. -/
def isFloat (text : List Char) : Bool :=
  let unsigned := dropSign text
  let whole := unsigned.takeWhile Char.isDigit
  let named := ["inf", "infinity", "nan"].any fun name => unsigned.map Char.toLower = name.toList
  let number := match unsigned.dropWhile Char.isDigit with
    | '.' :: rest =>
      (whole ≠ [] || rest.takeWhile Char.isDigit ≠ []) && isExponent (rest.dropWhile Char.isDigit)
    | rest => whole ≠ [] && isExponent rest
  named || number

/-! ### Coordinates -/

/-- The sum wraps as it does without overflow checks. -/
def colFromA1 (colStr : List Char) : Nat :=
  colStr.foldl (fun col c => (col * 26 + (c.toNat - 'A'.toNat + 1)) % 2 ^ 64) 0

def parseA1 (refStr : List Char) : Option (Nat × Nat) :=
  let colStr := refStr.takeWhile Char.isAlpha
  let rowStr := refStr.dropWhile Char.isAlpha
  if colStr = [] ∨ rowStr = [] then none
  else (parseUnsigned (2 ^ 64) rowStr).map fun row => (row, colFromA1 colStr)

/-- `fuel` is at least the number that is left. -/
def colLetters : (fuel n : Nat) → List Char → List Char
  | 0, _, result => result
  | fuel + 1, n, result =>
    if n = 0 then result
    else colLetters fuel ((n - 1) / 26) (Char.ofNat ('A'.toNat + (n - 1) % 26) :: result)

def colToLetter (col : Nat) : List Char := colLetters col col []

/-! ### Reading -/

/-- A cell that was opened, with what was read of it so far. -/
structure OpenCell where
  ref : List Char
  type : List Char
  value : List Char
  formula : List Char
  hasFormula : Bool
  sharedIndex : Option Nat
  inInlineStr : Bool
deriving DecidableEq, Repr

/-- The next cell on a line, and the line from the end of its tag on. -/
def openCell (remaining : List Char) : Option (OpenCell × List Char) := do
  let tag ← ((find "<c ".toList remaining).map fun found => "<c ".toList ++ found.2).or
    ((find "<c>".toList remaining).map fun found => "<c>".toList ++ found.2)
  let tagOnly := tag.takeWhile (· ≠ '>')
  let cell := ⟨(extractAttr tagOnly "r").getD [], (extractAttr tagOnly "t").getD [], [], [], false, none, false⟩
  return (cell, tag.dropWhile (· ≠ '>'))

/-- What is between the first place of a tag and the next place of the other one. -/
def between (opening closing : String) (region : List Char) : Option (List Char) := do
  let start ← find opening.toList region
  let found ← find closing.toList start.2
  return found.1

def readFormula (cell : OpenCell) (region : List Char) : Except Failure OpenCell :=
  match find "<f>".toList region with
  | some start =>
    match find "</f>".toList start.2 with
    | some found => .ok { cell with formula := found.1, hasFormula := true }
    | none => .ok cell
  | none =>
    match find "<f ".toList region with
    | none => .ok cell
    | some start =>
      let cell := { cell with
        hasFormula := true
        sharedIndex := match extractAttr (start.2.takeWhile (· ≠ '>')) "si" with
          | some si => parseUnsigned (2 ^ 32) si
          | none => cell.sharedIndex }
      match find "</f>".toList start.2 with
      | some found =>
        if '>' ∈ found.1 then .ok { cell with formula := (found.1.dropWhile (· ≠ '>')).drop 1 }
        else .error .panic
      | none => .ok { cell with formula := [] }

def readValue (cell : OpenCell) (region : List Char) : OpenCell :=
  { cell with value := (between "<v>" "</v>" region).getD cell.value }

def readInline (cell : OpenCell) (region : List Char) : OpenCell :=
  if cell.inInlineStr || contains region "<is>" || contains region "<is " then
    { cell with
      value := (between "<t>" "</t>" region).getD cell.value
      inInlineStr := !contains region "</is>" }
  else cell

def displayValue (sharedStrings : List (List Char)) (cell : OpenCell) : List Char :=
  if cell.type = ['s'] then
    ((parseUnsigned (2 ^ 64) cell.value).bind (sharedStrings[·]?)).getD cell.value
  else if cell.type = ['b'] then
    if cell.value = ['1'] ∨ cell.value = "true".toList then "TRUE".toList else "FALSE".toList
  else cell.value

/-- What a cell gives when it is closed. -/
def closedCell (sharedStrings : List (List Char)) (cell : OpenCell) : List FormulaCell :=
  match parseA1 cell.ref with
  | none => []
  | some (row, col) =>
    let value := displayValue sharedStrings cell
    if value ≠ [] ∨ cell.hasFormula = true then
      [⟨row, col, if cell.hasFormula then some cell.formula else none, value, cell.sharedIndex⟩]
    else []

/-- The cells of a line from some place on; the last one may stay open. `fuel` is more than the
length of what is left. -/
def readLine (sharedStrings : List (List Char)) :
    (fuel : Nat) → Option OpenCell → List Char → Except Failure (List FormulaCell × Option OpenCell)
  | 0, cell, _ => .ok ([], cell)
  | fuel + 1, cell, remaining =>
    match (cell.map fun cell => (cell, remaining)).or (openCell remaining) with
    | none => .ok ([], none)
    | some (cell, region) => do
      let cell ← readFormula cell region
      let cell := readInline (readValue cell region) region
      if contains region "</c>" then
        let (cells, last) ← readLine sharedStrings fuel none region
        return (closedCell sharedStrings cell ++ cells, last)
      else return ([], some cell)

def readLines (sharedStrings : List (List Char)) :
    Option OpenCell → List String → Except Failure (List FormulaCell)
  | _, [] => .ok []
  | cell, line :: lines => do
    let trimmed := trimBy isWhiteSpace line.toList
    let (cells, cell) ← readLine sharedStrings (trimmed.length + 2) cell trimmed
    let rest ← readLines sharedStrings cell lines
    return cells ++ rest

def parseSheetXmlWithFormulas (xml : List Char) (sharedStrings : List (List Char)) :
    Except Failure (List FormulaCell) :=
  readLines sharedStrings none (Engine.splitLines xml [])

/-! ### Writing -/

def cellXml (cell : FormulaCell) : List Char :=
  let opening := "<c r=\"".toList ++ colToLetter cell.col ++ digits cell.row ++ ['"']
  match cell.formula with
  | some formula =>
    let tag := match cell.sharedIndex with
      | some si => "<f t=\"shared\" si=\"".toList ++ digits si ++ "\">".toList
      | none => "<f>".toList
    opening ++ ['>'] ++ tag ++ formula ++ "</f><v>".toList ++ cell.value ++ "</v></c>".toList
  | none =>
    if isFloat cell.value then opening ++ "><v>".toList ++ cell.value ++ "</v></c>".toList
    else if cell.value = "TRUE".toList ∨ cell.value = "FALSE".toList then
      opening ++ " t=\"b\"><v>".toList ++ (if cell.value = "TRUE".toList then ['1'] else ['0']) ++
        "</v></c>".toList
    else opening ++ " t=\"inlineStr\"><is><t>".toList ++ cell.value ++ "</t></is></c>".toList

def rowXml (cells : List FormulaCell) (row : Nat) : List Char :=
  "<row r=\"".toList ++ digits row ++ "\">".toList ++
    (cells.filter fun cell => cell.row = row).flatMap cellXml ++ "</row>".toList

def sheetDataXml (cells : List FormulaCell) : List Char :=
  "<sheetData>".toList ++ (SortedSet.ofList (cells.map FormulaCell.row)).elems.flatMap (rowXml cells) ++
    "</sheetData>".toList

/-- The original up to the end of the opening tag, a section with the cells, and the original from
the closing tag on. -/
def rebuildSheetXmlWithFormulas (originalXml : List Char) (cells : List FormulaCell) : List Char :=
  match find "<sheetData".toList originalXml with
  | none => originalXml
  | some start =>
    match find "</sheetData>".toList originalXml with
    | none => originalXml
    | some closing =>
      let openingTag := match find ['>'] start.2 with
        | some tag => "<sheetData".toList ++ tag.1 ++ ['>']
        | none => []
      start.1 ++ openingTag ++ sheetDataXml cells ++ closing.2

/-! ### Well-formed worksheets -/

/-- The text of an element or of an attribute. -/
structure PlainText where
  chars : List Char
  plain : '<' ∉ chars

/-- What may stand between two elements. -/
structure Blanks where
  chars : List Char
  blank : ∀ c ∈ chars, isWhiteSpace c = true

inductive CellFormula where
  | plain (text : PlainText)
  | shared (index : Nat) (text : PlainText)

namespace CellFormula

def xml : CellFormula → List Char
  | plain text => "<f>".toList ++ text.chars ++ "</f>".toList
  | shared index text =>
    "<f t=\"shared\" si=\"".toList ++ digits index ++ ['"'] ++
      if text.chars = [] then "/>".toList else ['>'] ++ text.chars ++ "</f>".toList

def text : CellFormula → List Char
  | plain text | shared _ text => text.chars

def sharedIndex : CellFormula → Option Nat
  | plain _ => none
  | shared index _ => some index

end CellFormula

inductive CellValue where
  | number (text : PlainText)
  | shared (index : Nat)
  | boolean (value : Bool)
  | error (text : PlainText)
  | string (text : PlainText)
  | inline (text : PlainText)

namespace CellValue

/-- The attribute `t` of a cell with this value. -/
def type : CellValue → Option String
  | number _ => none
  | shared _ => some "s"
  | boolean _ => some "b"
  | error _ => some "e"
  | string _ => some "str"
  | inline _ => some "inlineStr"

def xml : CellValue → List Char
  | number text | error text | string text => "<v>".toList ++ text.chars ++ "</v>".toList
  | shared index => "<v>".toList ++ digits index ++ "</v>".toList
  | boolean value => "<v>".toList ++ (if value then ['1'] else ['0']) ++ "</v>".toList
  | inline text => "<is><t>".toList ++ text.chars ++ "</t></is>".toList

def displayed (sharedStrings : List (List Char)) : CellValue → List Char
  | number text | error text | string text | inline text => text.chars
  | shared index => sharedStrings[index]?.getD (digits index)
  | boolean value => if value then "TRUE".toList else "FALSE".toList

end CellValue

structure SheetCell where
  col : Nat
  style : Option Nat
  formula : Option CellFormula
  value : Option CellValue
  inner : Blanks
  after : Blanks

namespace SheetCell

def type (cell : SheetCell) : Option String := cell.value.bind CellValue.type

def xml (row : Nat) (cell : SheetCell) : List Char :=
  "<c r=\"".toList ++ colToLetter cell.col ++ digits row ++ ['"'] ++
    (cell.style.elim [] fun style => " s=\"".toList ++ digits style ++ ['"']) ++
    (cell.type.elim [] fun type => " t=\"".toList ++ type.toList ++ ['"']) ++
    (if cell.formula.isNone && cell.value.isNone then "/>".toList
    else ['>'] ++ cell.inner.chars ++ cell.formula.elim [] CellFormula.xml ++ cell.inner.chars ++
      cell.value.elim [] CellValue.xml ++ cell.inner.chars ++ "</c>".toList) ++ cell.after.chars

/-- What is to be read of a cell, nothing of one without formula and value. -/
def entry (sharedStrings : List (List Char)) (row : Nat) (cell : SheetCell) : Option FormulaCell :=
  let displayed := cell.value.elim [] (CellValue.displayed sharedStrings)
  if displayed = [] ∧ cell.formula.isNone = true then none
  else some ⟨row, cell.col, cell.formula.map CellFormula.text, displayed,
    cell.formula.bind CellFormula.sharedIndex⟩

end SheetCell

structure SheetRow where
  number : Nat
  attributes : PlainText
  before : Blanks
  cells : List SheetCell
  after : Blanks

def SheetRow.xml (row : SheetRow) : List Char :=
  "<row r=\"".toList ++ digits row.number ++ ['"'] ++ row.attributes.chars ++ ['>'] ++ row.before.chars ++
    row.cells.flatMap (SheetCell.xml row.number) ++ "</row>".toList ++ row.after.chars

inductive SheetData where
  | selfClosed (attributes : PlainText)
  | rows (attributes : PlainText) (before : Blanks) (content : List SheetRow)

namespace SheetData

/-- What follows the name of the section. -/
def body : SheetData → List Char
  | selfClosed attributes => attributes.chars ++ "/>".toList
  | rows attributes before content =>
    attributes.chars ++ ['>'] ++ before.chars ++ content.flatMap SheetRow.xml ++ "</sheetData>".toList

def cells : SheetData → List (Nat × SheetCell)
  | selfClosed _ => []
  | rows _ _ content => content.flatMap fun row => row.cells.map fun cell => (row.number, cell)

/-- The section is written as one tag, so it has no cells. -/
def IsSelfClosed : SheetData → Prop
  | selfClosed _ => True
  | rows .. => False

end SheetData

/-- What is in the section with the data only. -/
def dataTags : List String := ["<sheetData", "</sheetData>", "<c ", "<c>"]

/-- A worksheet with one section that has its data. -/
structure Worksheet where
  head : List Char
  data : SheetData
  tail : List Char
  headPlain : ∀ tag ∈ dataTags, ¬ tag.toList <:+: head
  tailPlain : ∀ tag ∈ dataTags, ¬ tag.toList <:+: tail
  once : ¬ "<sheetData".toList <:+: data.body ++ tail

namespace Worksheet

def xml (sheet : Worksheet) : List Char :=
  sheet.head ++ ("<sheetData".toList ++ (sheet.data.body ++ sheet.tail))

def entries (sheet : Worksheet) (sharedStrings : List (List Char)) : List FormulaCell :=
  sheet.data.cells.filterMap fun cell => cell.2.entry sharedStrings cell.1

/-- Where the cells that are read are, with their types and styles. -/
def kinds (sheet : Worksheet) (sharedStrings : List (List Char)) :
    List (Nat × Nat × Option String × Option Nat) :=
  sheet.data.cells.filterMap fun cell =>
    (cell.2.entry sharedStrings cell.1).map fun _ => (cell.1, cell.2.col, cell.2.type, cell.2.style)

/-- The cells are read as they are, and what is written for them is a worksheet with the same
cells, types and styles. -/
def RoundTrips (sheet : Worksheet) (sharedStrings : List (List Char)) : Prop :=
  parseSheetXmlWithFormulas sheet.xml sharedStrings = .ok (sheet.entries sharedStrings) ∧
    ∃ written : Worksheet,
      rebuildSheetXmlWithFormulas sheet.xml (sheet.entries sharedStrings) = written.xml ∧
      parseSheetXmlWithFormulas written.xml sharedStrings = .ok (sheet.entries sharedStrings) ∧
      written.kinds sharedStrings = sheet.kinds sharedStrings

/-! ### Two sections -/

theorem find_opening {head : List Char} (h : ¬ "<sheetData".toList <:+: head) (rest : List Char) :
    find "<sheetData".toList (head ++ ("<sheetData".toList ++ rest)) = some (head, rest) := by
  have hcons : "<sheetData".toList = '<' :: "sheetData".toList := rfl
  rw [hcons] at h ⊢
  exact find_cons_append (by decide) h rest

theorem find_sheetData (sheet : Worksheet) :
    find "<sheetData".toList sheet.xml = some (sheet.head, sheet.data.body ++ sheet.tail) :=
  find_opening (sheet.headPlain "<sheetData" (by decide)) _

theorem sheetDataXml_eq (cells : List FormulaCell) :
    ∃ rest, sheetDataXml cells = "<sheetData".toList ++ rest := by
  have hopening : "<sheetData>".toList = "<sheetData".toList ++ ['>'] := rfl
  have happend : ∀ a b c d : List Char, a ++ b ++ c ++ d = a ++ (b ++ (c ++ d)) := by simp
  exact ⟨_, (congrArg (fun tag => tag ++ _ ++ _) hopening).trans (happend ..)⟩

/-- Where the section has two tags, a section of the cells is put behind the first one. -/
theorem rebuild_eq {sheet : Worksheet} (h : ¬ sheet.data.IsSelfClosed) (cells : List FormulaCell) :
    ∃ attributes rest, rebuildSheetXmlWithFormulas sheet.xml cells =
      sheet.head ++ ("<sheetData".toList ++ (attributes ++ ("<sheetData".toList ++ rest))) := by
  cases hdata : sheet.data with
  | selfClosed attributes =>
    rw [hdata] at h
    exact absurd trivial h
  | rows attributes before content =>
    have hxml : sheet.xml = sheet.head ++ "<sheetData".toList ++ attributes.chars ++ ['>'] ++ before.chars ++
        content.flatMap SheetRow.xml ++ "</sheetData>".toList ++ sheet.tail := by
      simp only [xml, hdata, SheetData.body, List.append_assoc]
    have hbody : sheet.data.body ++ sheet.tail = attributes.chars ++ ['>'] ++ (before.chars ++
        content.flatMap SheetRow.xml ++ "</sheetData>".toList ++ sheet.tail) := by
      simp only [hdata, SheetData.body, List.append_assoc]
    obtain ⟨closing, hclosing⟩ := exists_find ⟨_, _, hxml.symm⟩
    obtain ⟨tag, htag⟩ := exists_find ⟨_, _, hbody.symm⟩
    obtain ⟨rest, hrest⟩ := sheetDataXml_eq cells
    refine ⟨tag.1 ++ ['>'], rest ++ closing.2, ?_⟩
    rw [rebuildSheetXmlWithFormulas, find_sheetData]
    simp only [hclosing, htag, hrest, List.append_assoc]

/-- So there are two opening tags. -/
theorem rebuild_ne_xml {sheet : Worksheet} (h : ¬ sheet.data.IsSelfClosed) (cells : List FormulaCell)
    (written : Worksheet) : rebuildSheetXmlWithFormulas sheet.xml cells ≠ written.xml := by
  intro heq
  obtain ⟨attributes, rest, hrebuild⟩ := rebuild_eq h cells
  have hwritten := find_sheetData written
  rw [← heq, hrebuild, find_opening (sheet.headPlain "<sheetData" (by decide))] at hwritten
  obtain ⟨-, hrest⟩ := Prod.mk.inj (Option.some.inj hwritten)
  exact written.once ⟨attributes, rest, by rw [← hrest, List.append_assoc]⟩

/-! ### No cells -/

/-- A tag of the data is nowhere in a sheet without. -/
theorem not_infix_xml {sheet : Worksheet} (h : sheet.data.IsSelfClosed) {d : Char} {tag : List Char}
    (hhead : ¬ '<' :: d :: tag <:+: sheet.head) (htail : ¬ '<' :: d :: tag <:+: sheet.tail)
    (hplain : '<' ∉ d :: tag) (hother : d ≠ 's') : ¬ '<' :: d :: tag <:+: sheet.xml := by
  intro hin
  have hxml : sheet.xml = sheet.head ++ '<' :: ("sheetData".toList ++ (sheet.data.body ++ sheet.tail)) := rfl
  rw [hxml] at hin
  rcases infix_append_cons hplain hin with hin | hin
  · exact hhead hin
  · rcases List.infix_cons_iff.mp hin with hin | hin
    · exact hother (List.cons_prefix_cons.mp (List.cons_prefix_cons.mp hin).2).1
    · cases hdata : sheet.data with
      | rows attributes before content =>
        rw [hdata] at h
        exact h
      | selfClosed attributes =>
        rw [hdata] at hin
        refine htail (infix_append_of_notMem (c := '<') (a := "sheetData".toList ++ (attributes.chars ++
          "/>".toList)) ?_ ?_)
        · simp [attributes.plain]
        · rw [List.append_assoc]
          exact hin

theorem readLines_eq_nil {sharedStrings : List (List Char)} {lines : List String}
    (h : ∀ line ∈ lines, openCell (trimBy isWhiteSpace line.toList) = none) :
    readLines sharedStrings none lines = .ok [] := by
  induction lines with
  | nil => rfl
  | cons line lines ih =>
    have hline := h line (List.mem_cons_self ..)
    rw [readLines, readLine, hline]
    simp only [Option.map_none, Option.or_none]
    exact congrArg (Except.map ([] ++ ·)) (ih fun line' hline' => h line' (List.mem_cons_of_mem _ hline'))

end Worksheet

theorem openCell_eq_none {remaining : List Char} (hattributes : ¬ "<c ".toList <:+: remaining)
    (hplain : ¬ "<c>".toList <:+: remaining) : openCell remaining = none := by
  rw [openCell, find_eq_none_iff.mpr hattributes, find_eq_none_iff.mpr hplain]
  rfl

namespace Worksheet

theorem parse_selfClosed {sheet : Worksheet} (h : sheet.data.IsSelfClosed) (sharedStrings : List (List Char)) :
    parseSheetXmlWithFormulas sheet.xml sharedStrings = .ok [] := by
  refine readLines_eq_nil fun line hline => ?_
  have hinfix : trimBy isWhiteSpace line.toList <:+: sheet.xml :=
    (infix_trimBy isWhiteSpace _).trans (Engine.infix_of_mem_splitLines hline)
  have hattributes : ¬ "<c ".toList <:+: sheet.xml :=
    @not_infix_xml sheet h 'c' [' '] (sheet.headPlain "<c " (by decide))
      (sheet.tailPlain "<c " (by decide)) (by decide) (by decide)
  have hplain : ¬ "<c>".toList <:+: sheet.xml :=
    @not_infix_xml sheet h 'c' ['>'] (sheet.headPlain "<c>" (by decide))
      (sheet.tailPlain "<c>" (by decide)) (by decide) (by decide)
  exact openCell_eq_none (fun hin => hattributes (hin.trans hinfix)) fun hin => hplain (hin.trans hinfix)

theorem rebuild_selfClosed {sheet : Worksheet} (h : sheet.data.IsSelfClosed) (cells : List FormulaCell) :
    rebuildSheetXmlWithFormulas sheet.xml cells = sheet.xml := by
  have hnone : find "</sheetData>".toList sheet.xml = none := by
    rw [find_eq_none_iff]
    exact @not_infix_xml sheet h '/' "sheetData>".toList (sheet.headPlain "</sheetData>" (by decide))
      (sheet.tailPlain "</sheetData>" (by decide)) (by decide) (by decide)
  rw [rebuildSheetXmlWithFormulas, find_sheetData]
  simp only [hnone]

end Worksheet

/-- Only a section without cells is written as it was. -/
theorem roundTrips_iff (sheet : Worksheet) (sharedStrings : List (List Char)) :
    sheet.RoundTrips sharedStrings ↔ sheet.data.IsSelfClosed := by
  constructor
  · rintro ⟨-, written, hwritten, -, -⟩
    by_contra h
    exact Worksheet.rebuild_ne_xml h _ written hwritten
  · intro h
    have hentries : sheet.entries sharedStrings = [] := by
      unfold Worksheet.entries
      cases hdata : sheet.data with
      | selfClosed attributes => rfl
      | rows attributes before content =>
        rw [hdata] at h
        exact h.elim
    have hparse := Worksheet.parse_selfClosed h sharedStrings
    rw [← hentries] at hparse
    exact ⟨hparse, sheet, Worksheet.rebuild_selfClosed h _, hparse, rfl⟩

/-- A sheet with the number five in its first cell. -/
def oneCell : Worksheet where
  head := "<worksheet>".toList
  data := .rows ⟨[], nofun⟩ ⟨[], nofun⟩ [⟨1, ⟨[], nofun⟩, ⟨[], nofun⟩,
    [⟨1, none, none, some (.number ⟨['5'], by decide⟩), ⟨[], nofun⟩, ⟨[], nofun⟩⟩], ⟨[], nofun⟩⟩]
  tail := "</worksheet>".toList
  headPlain := by
    simp only [← find_eq_none_iff]
    decide
  tailPlain := by
    simp only [← find_eq_none_iff]
    decide
  once := by
    rw [← find_eq_none_iff]
    decide +kernel

/-- The section of its data is opened twice and closed once. -/
theorem opened_twice :
    parseSheetXmlWithFormulas oneCell.xml [] = .ok [⟨1, 1, none, ['5'], none⟩] ∧
    rebuildSheetXmlWithFormulas oneCell.xml [⟨1, 1, none, ['5'], none⟩] =
      ("<worksheet><sheetData><sheetData><row r=\"1\"><c r=\"A1\"><v>5</v></c></row></sheetData>" ++
        "</worksheet>").toList ∧
    ¬ oneCell.RoundTrips [] := by
  refine ⟨by decide +kernel, by decide +kernel, ?_⟩
  rintro ⟨-, written, hwritten, -, -⟩
  exact @Worksheet.rebuild_ne_xml oneCell id _ written hwritten

end Xlsx
end Suture.Driver
