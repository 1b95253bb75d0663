import Mathlib.Data.List.Sort
import Suture.Engine.TextLines
import Suture.Foundation.Fields
import Suture.Foundation.Pairing
import Suture.Foundation.SortedMap
import Suture.Foundation.ThreeWay

/-!
# Merging Markdown texts

The Markdown driver reads a text as blocks, pairs the blocks of each side with those of base
by their headings, and writes the merged blocks with an empty line between them. A printed text
is read back as the blocks it was printed from, unless a line loses a carriage return or the
text ends with an empty line of a code block.
-/

namespace Suture.Driver.Markdown
set_option autoImplicit false
open Engine Foundation

inductive BlockType where
  | heading
  | codeBlock
  | listItem
  | table
  | paragraph
deriving DecidableEq, Repr

structure Block where
  blockType : BlockType
  heading : Option String
  lines : List String
deriving DecidableEq, Repr

def trimStart (line : String) : List Char := line.toList.dropWhile isWhiteSpace

def isBlank (line : String) : Bool := (trimBy isWhiteSpace line.toList).isEmpty

def startsWith (mark line : String) : Bool := mark.toList.isPrefixOf (trimStart line)

/-- Digits, a dot, and then a blank or nothing; the flag says that there was a digit. -/
def numbered : Bool → List Char → Bool
  | _, [] => false
  | hasDigit, c :: rest =>
    if c.isDigit then numbered true rest
    else decide (c = '.') && hasDigit && rest.head?.all isWhiteSpace

def regexIsNumberedList (line : String) : Bool := numbered false (trimStart line)

/-- A line that opens or closes a code block. -/
def isFence (line : String) : Bool := startsWith "```" line

def isHeadingLine (line : String) : Bool := line.toList.head? == some '#'

def detectBlockType (line : String) : BlockType :=
  if isHeadingLine line then .heading
  else if isFence line then .codeBlock
  else if startsWith "- " line || startsWith "* " line || startsWith "+ " line ||
      regexIsNumberedList line then .listItem
  else if startsWith "|" line then .table
  else .paragraph

def headingText (line : String) : String :=
  String.ofList (trimBy isWhiteSpace (line.toList.dropWhile fun c => c == '#'))

/-! ### Reading -/

def Block.push (block : Block) (line : String) : Block := { block with lines := block.lines ++ [line] }

structure Reading where
  blocks : List Block
  currentBlock : Option Block
  currentHeading : Option String
  inCodeBlock : Bool

def Reading.flush (s : Reading) : Reading :=
  { s with blocks := s.blocks ++ s.currentBlock.toList, currentBlock := none }

def Reading.line (s : Reading) (line : String) : Reading :=
  if s.inCodeBlock then
    let s := { s with currentBlock := s.currentBlock.map fun block => block.push line }
    if isFence line then { s with inCodeBlock := false }.flush else s
  else if isFence line then
    { s.flush with
      inCodeBlock := true, currentBlock := some ⟨.codeBlock, s.currentHeading, [line]⟩ }
  else if isBlank line then s.flush
  else
    let bt := detectBlockType line
    if bt = .heading then
      { s.flush with
        currentHeading := some (headingText line),
        currentBlock := some ⟨.heading, some (headingText line), [line]⟩ }
    else
      match s.currentBlock with
      | some block =>
        if block.blockType = bt then { s with currentBlock := some (block.push line) }
        else { s.flush with currentBlock := some ⟨bt, s.currentHeading, [line]⟩ }
      | none => { s with currentBlock := some ⟨bt, s.currentHeading, [line]⟩ }

def readBlocks (lines : List String) : List Block :=
  (lines.foldl Reading.line ⟨[], none, none, false⟩).flush.blocks

def parseBlocks (content : String) : List Block := readBlocks (textLines content)

def blocksToMarkdown (blocks : List Block) : String :=
  "\n\n".intercalate (blocks.map fun block => "\n".intercalate block.lines)

/-! ### Pairing with base -/

structure Matching where
  pairs : List (Option Nat × Option Nat)
  usedBase : List Nat
  usedOther : List Nat

def freeIdx (base : List Block) (used : List Nat) (ob : Block) : Option Nat :=
  (List.range base.length).find? fun idx => base[idx]?.any fun bb =>
    bb.heading.isSome && bb.heading == ob.heading && !used.contains idx

def Matching.step (base : List Block) (m : Matching) (other : Block × Nat) : Matching :=
  match freeIdx base m.usedBase other.1 with
  | some idx =>
    ⟨m.pairs ++ [(some idx, some other.2)], m.usedBase ++ [idx], m.usedOther ++ [other.2]⟩
  | none => m

def matchOthers (base other : List Block) : Matching :=
  other.zipIdx.foldl (Matching.step base) ⟨[], [], []⟩

def pairKey (pair : Option Nat × Option Nat) : Nat := pair.1.getD (pair.2.getD 0)

def matchBlocks (base other : List Block) : List (Option Nat × Option Nat) :=
  let m := matchOthers base other
  let removed := (List.range base.length).filter fun bi => !m.usedBase.contains bi
  let added := (List.range other.length).filter fun oi => !m.usedOther.contains oi
  (m.pairs ++ removed.map (fun bi => (some bi, none)) ++
    added.map fun oi => (none, some oi)).insertionSort fun a b => pairKey a ≤ pairKey b

/-! ### Merging -/

def byBase (pairs : List (Option Nat × Option Nat)) : SortedMap Nat Nat :=
  pairs.foldl (fun map pair =>
    match pair with
    | (some b, some o) => map.insert b o
    | _ => map) .empty

def only (pairs : List (Option Nat × Option Nat)) : List Nat :=
  pairs.filterMap fun pair =>
    match pair with
    | (none, some o) => some o
    | _ => none

/-- What becomes of a block of base: a block, no block, or `none` for a conflict. -/
def mergeBlock (base : Block) : (ours theirs : Option Block) → Option (Option Block)
  | some ours, some theirs => (threeWay base ours theirs).map some
  | some ours, none => some (some ours)
  | none, some theirs => some (some theirs)
  | none, none => some none

structure Adding where
  merged : List Block
  matchedAdded : List Nat
  matchedTheirsAdded : List Nat

/-- A block that ours adds under a heading, and the first one theirs adds under it. -/
def Adding.step (ours theirs : List Block) (theirsOnly : List Nat) (s : Adding) (oi : Nat) :
    Option Adding :=
  match ours[oi]? with
  | none => some s
  | some ob =>
    if ob.heading = none then some s
    else
      match theirsOnly.find? fun ti => !s.matchedAdded.contains oi &&
        !s.matchedTheirsAdded.contains ti &&
        theirs[ti]?.any fun tb => tb.heading.isSome && ob.heading == tb.heading with
      | none => some s
      | some ti =>
        if some ob = theirs[ti]? then
          some ⟨s.merged ++ [ob], s.matchedAdded ++ [oi], s.matchedTheirsAdded ++ [ti]⟩
        else none

/-- The blocks in these places. -/
def pick (blocks : List Block) (places : List Nat) : List Block :=
  places.filterMap fun i => blocks[i]?

def mergeBlocks (base ours theirs : List Block) : Option (List Block) := do
  let oursPairs := matchBlocks base ours
  let theirsPairs := matchBlocks base theirs
  let kept ← base.zipIdx.mapM fun (baseBlock, bi) =>
    mergeBlock baseBlock (((byBase oursPairs).get bi).bind fun oi => ours[oi]?)
      (((byBase theirsPairs).get bi).bind fun ti => theirs[ti]?)
  let added ← (only oursPairs).foldlM (Adding.step ours theirs (only theirsPairs))
    ⟨kept.filterMap id, [], []⟩
  return added.merged ++
    pick ours ((only oursPairs).filter fun oi => !added.matchedAdded.contains oi) ++
    pick theirs ((only theirsPairs).filter fun ti => !added.matchedTheirsAdded.contains ti)

/-- `merge` of the driver; `none` is a conflict. -/
def merge (base ours theirs : String) : Option String :=
  (mergeBlocks (parseBlocks base) (parseBlocks ours) (parseBlocks theirs)).map blocksToMarkdown

end Suture.Driver.Markdown
