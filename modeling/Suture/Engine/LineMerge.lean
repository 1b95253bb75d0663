import Mathlib.Logic.Function.Basic
import Suture.Engine.LineDiff
import Suture.Foundation.Hunks

/-!
# Three-way merge of lines and texts

`threeWayMergeLines` looks up what each side does at a base line by its exact index.
`trace` is the same loop recording what it does instead of emitting lines; it tells
which base lines the output keeps and which actions it carries.
-/

namespace Suture.Engine
set_option autoImplicit false
open Foundation

structure MergeOutput where
  lines : List String
  isClean : Bool
  autoMerged : Nat
  conflicts : Nat
deriving DecidableEq, Repr

inductive SideAction where
  | deleteInsert (deleted : Nat) (inserted : List String)
  | insert (lines : List String)
deriving DecidableEq, Repr

namespace SideAction

def advance : SideAction → Nat
  | .deleteInsert deleted _ => deleted
  | .insert _ => 0

def outputLines : SideAction → List String
  | .deleteInsert _ inserted => inserted
  | .insert lines => lines

def toHunk (a : SideAction) : Hunk String := ⟨a.advance, a.outputLines⟩

/-- More inserted lines at the end of an action. -/
def extend : SideAction → List String → SideAction
  | .deleteInsert deleted inserted, lines => .deleteInsert deleted (inserted ++ lines)
  | .insert v, lines => .insert (v ++ lines)

end SideAction

abbrev ChangeMap := Nat → Option SideAction

def ChangeMap.hunks (map : ChangeMap) : Hunks String := fun i => (map i).map SideAction.toHunk

/-- The loop state of `build_change_map`. -/
structure MapBuilder where
  map : ChangeMap
  baseIdx : Nat
  lastDeleteIdx : Option Nat

def MapBuilder.add (b : MapBuilder) : LineChange → MapBuilder
  | .unchanged lines => { b with baseIdx := b.baseIdx + lines.length, lastDeleteIdx := none }
  | .deleted lines =>
    { map := Function.update b.map b.baseIdx (some (.deleteInsert lines.length []))
      baseIdx := b.baseIdx + lines.length
      lastDeleteIdx := some b.baseIdx }
  | .inserted lines =>
    match b.lastDeleteIdx with
    | some delIdx =>
      match b.map delIdx with
      | some (.deleteInsert deleted inserted) =>
        let replacement := SideAction.deleteInsert deleted (inserted ++ lines)
        { b with map := Function.update b.map delIdx (some replacement) }
      | _ => b
    | none =>
      match b.map b.baseIdx with
      | some existing =>
        { b with map := Function.update b.map b.baseIdx (some (existing.extend lines)) }
      | none => { b with map := Function.update b.map b.baseIdx (some (.insert lines)) }

def buildChangeMap (changes : List LineChange) : ChangeMap :=
  (changes.foldl MapBuilder.add ⟨fun _ => none, 0, none⟩).map

structure MergeLabels where
  ours : String
  theirs : String

def MergeLabels.conflict (labels : MergeLabels) (ours theirs : List String) : List String :=
  ("<<<<<<< " ++ labels.ours) :: ours ++ "=======" :: theirs ++ [">>>>>>> " ++ labels.theirs]

namespace MergeOutput

def push (out : MergeOutput) (lines : List String) : MergeOutput :=
  { out with lines := out.lines ++ lines }

def pushConflict (out : MergeOutput) (labels : MergeLabels) (a b : SideAction) : MergeOutput :=
  { out with
    lines := out.lines ++ labels.conflict a.outputLines b.outputLines
    isClean := false
    conflicts := out.conflicts + 1 }

end MergeOutput

/-- Actions left at `i`, for the termination of the loop. -/
def pending (ours theirs : ChangeMap) (i : Nat) : Nat :=
  if (ours i).isSome || (theirs i).isSome then 1 else 0

theorem pending_le_one (ours theirs : ChangeMap) (i : Nat) : pending ours theirs i ≤ 1 := by
  unfold pending
  split <;> omega

/-- Removing the actions at `i` leaves none there. -/
theorem pending_remove (ours theirs : ChangeMap) (i : Nat) :
    pending (Function.update ours i none) (Function.update theirs i none) i = 0 := by
  simp [pending]

theorem remove_decreases (ours theirs : ChangeMap) {n i k : Nat} (hi : i < n)
    (h : pending ours theirs i = 1) :
    2 * (n - (i + k)) + pending (Function.update ours i none) (Function.update theirs i none)
      (i + k) < 2 * (n - i) + pending ours theirs i := by
  cases k with
  | zero =>
    rw [Nat.add_zero, pending_remove]
    omega
  | succ k =>
    have := pending_le_one (Function.update ours i none) (Function.update theirs i none) (i + (k + 1))
    omega

/-- The main loop. The actions at a visited line are removed from the maps, so that an
insertion, which does not advance, is taken once. -/
def mergeLoop (labels : MergeLabels) (base : List String) (ours theirs : ChangeMap) (i : Nat)
    (out : MergeOutput) : MergeOutput :=
  if _hi : i < base.length then
    match ho : ours i, ht : theirs i with
    | none, none =>
      mergeLoop labels base ours theirs (i + 1) (out.push [base.getD i ""])
    | some a, none =>
      mergeLoop labels base (Function.update ours i none) (Function.update theirs i none)
        (i + a.advance) (out.push a.outputLines)
    | none, some b =>
      mergeLoop labels base (Function.update ours i none) (Function.update theirs i none)
        (i + b.advance) (out.push b.outputLines)
    | some a, some b =>
      if a.outputLines = b.outputLines then
        mergeLoop labels base (Function.update ours i none) (Function.update theirs i none)
          (i + a.advance) { out.push a.outputLines with autoMerged := out.autoMerged + 1 }
      else
        mergeLoop labels base (Function.update ours i none) (Function.update theirs i none)
          (i + max a.advance b.advance) (out.pushConflict labels a b)
  else
    -- insertions after the last base line
    match ours base.length, theirs base.length with
    | none, none => out
    | some a, none | none, some a => out.push a.outputLines
    | some a, some b =>
      if a.outputLines = b.outputLines then out.push a.outputLines
      else out.pushConflict labels a b
termination_by 2 * (base.length - i) + pending ours theirs i
decreasing_by
  · have := pending_le_one ours theirs (i + 1)
    omega
  all_goals exact remove_decreases ours theirs _hi (by simp [pending, ho, ht])

def threeWayMergeLines (base ours theirs : List String) (labels : MergeLabels) : MergeOutput :=
  if ours = theirs then ⟨ours, true, 0, 0⟩
  else if base = ours then ⟨theirs, true, 0, 0⟩
  else if base = theirs then ⟨ours, true, 0, 0⟩
  else
    mergeLoop labels base (buildChangeMap (diffLines base ours))
      (buildChangeMap (diffLines base theirs)) 0 ⟨[], true, 0, 0⟩

/-! ### Texts -/

/-- The lines of a text; a line ends at a newline, with a carriage return before it or
not, and the last one may end without. `current` is the line so far, reversed. -/
def splitLines : List Char → List Char → List String
  | [], current => if current = [] then [] else [String.ofList current.reverse]
  | '\n' :: rest, '\r' :: current => String.ofList current.reverse :: splitLines rest []
  | '\n' :: rest, current => String.ofList current.reverse :: splitLines rest []
  | c :: rest, current => splitLines rest (c :: current)

def textLines (text : String) : List String := splitLines text.toList []

/-- The merged text, or the lines with conflict markers. -/
def threeWayMerge (base : Option String) (ours theirs headBranch sourceBranch : String) :
    Except (List String) String :=
  let baseLines := (base.map textLines).getD []
  let oursLabel := if headBranch = "" then "HEAD" else headBranch ++ " (HEAD)"
  let theirsLabel := if sourceBranch = "" then "theirs" else sourceBranch
  let result := threeWayMergeLines baseLines (textLines ours) (textLines theirs)
    ⟨oursLabel, theirsLabel⟩
  if result.isClean then .ok ("\n".intercalate result.lines) else .error result.lines

end Suture.Engine
