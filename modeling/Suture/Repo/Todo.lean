import Suture.Dag.Line
import Suture.Engine.TextLines
import Suture.Foundation.Fields
import Suture.Repo.Built

/-!
# The to-do list of an interactive rebase

The commits since a base, oldest first, are written as lines of picks, and read back from
what became of these lines.
-/

namespace Suture.Repo
set_option autoImplicit false
open Foundation Common Patches Dag Engine Program

inductive RebaseAction where
  | pick | reword | edit | squash | drop
deriving DecidableEq

structure RebasePlanEntry (H : Type) where
  action : RebaseAction
  commitTip : H
  message : String
  patchIds : List H

structure RebasePlan (H : Type) where
  entries : List (RebasePlanEntry H)

/-! ### Commit groups -/

section Groups
variable {H : Type} [LinearOrder H]

/-- Skipped by the replays. -/
def isStructural (patch : Patch H) : Bool := patch.operationType ∈ [.merge, .identity, .create]

/-- The groups so far, the one that is open, and its message. -/
structure Grouping (H : Type) where
  groups : List (List (Patch H))
  current : List (Patch H)
  message : Option String

def Grouping.step (g : Grouping H) (patch : Patch H) : Grouping H :=
  if isStructural patch then g
  else
    match g.message with
    | none => { g with message := some patch.message, current := g.current ++ [patch] }
    | some message =>
      if message = patch.message then { g with current := g.current ++ [patch] }
      else
        { groups := if g.current = [] then g.groups else g.groups ++ [g.current],
          current := [patch], message := some patch.message }

def Grouping.finish (g : Grouping H) : List (List (Patch H)) :=
  if g.current = [] then g.groups else g.groups ++ [g.current]

/-- Logical commits, oldest first: neighbours with one message. -/
def commitGroups (patches : List (Patch H)) : List (List (Patch H)) :=
  ((patches.insertionSort ReplayBefore).foldl Grouping.step ⟨[], [], none⟩).finish

/-- The patches from HEAD on, along first parents, that are not the base or below it. -/
def patchesSinceBase [Hashing H] (base : H) : Action H (List (Patch H)) := do
  let baseAncestors ← queryDag fun d => d.ancestors base
  let found ← head.attempt
  let headId := (found.toOption.map Prod.snd).getD Hashing.zero
  let s ← read
  return ((s.dag.patchChain headId).filter fun id =>
    ¬ (id = base ∨ id ∈ baseAncestors)).filterMap s.dag.getPatch

end Groups

/-! ### The text -/

section Text
variable {H : Type} [Hashing H]

def shortHash (id : H) : String := String.ofList ((Hashing.toHex id).toList.take 8)

def pickLine (patch : Patch H) : String := "pick " ++ shortHash patch.id ++ " " ++ patch.message

def todoHeader : List String :=
  ["", "# Interactive Rebase TODO", "#", "# Commands:", "#  pick   = use commit",
    "#  reword = use commit, but edit the commit message",
    "#  edit   = use commit, but stop for amending",
    "#  squash = use commit, but meld into previous commit", "#  drop   = remove commit", ""]

def todoText (groups : List (List (Patch H))) : String :=
  "\n".intercalate (todoHeader ++ (groups.filterMap List.head?).map pickLine ++ [""])

def parseAction (text : String) : Option RebaseAction :=
  if text = "pick" ∨ text = "p" then some .pick
  else if text = "reword" ∨ text = "r" then some .reword
  else if text = "edit" ∨ text = "e" then some .edit
  else if text = "squash" ∨ text = "s" then some .squash
  else if text = "drop" ∨ text = "d" then some .drop
  else none

/-- An action, a short hash and a message. -/
def todoLine (line : String) : Option (RebaseAction × String × String) :=
  let line := trimBy isWhiteSpace line.toList
  if line = [] ∨ line.head? = some '#' then none
  else
    match splitN ' ' 3 line with
    | action :: shortHash :: rest => (parseAction (String.ofList action)).map fun action =>
        (action, String.ofList shortHash, String.ofList (rest.headD []))
    | _ => none

/-- The message and the patches of each group, by the short hash of its first patch. -/
def groupMap (groups : List (List (Patch H))) : SortedMap String (String × List H) :=
  groups.foldl (fun m group =>
    match group.head? with
    | some first => m.insert (shortHash first.id) (first.message, group.map Patch.id)
    | none => m) .empty

def planEntry (groups : SortedMap String (String × List H))
    (line : RebaseAction × String × String) : RebasePlanEntry H :=
  let (action, shortHash, message) := line
  let (groupMessage, patchIds) := (groups.get shortHash).getD (message, [])
  { action := action
    commitTip := patchIds.getLast?.getD Hashing.zero
    message := if action = .reword then message else groupMessage
    patchIds := patchIds }

def planOf (groups : List (List (Patch H))) (todo : String) : RebasePlan H :=
  ⟨(readLines todoLine todo).map (planEntry (groupMap groups))⟩

variable [LinearOrder H]

def generateRebaseTodo (base : H) : Action H String := do
  let patches ← patchesSinceBase base
  return todoText (commitGroups patches)

def parseRebaseTodo (todo : String) (base : H) : Action H (RebasePlan H) := do
  let patches ← patchesSinceBase base
  return planOf (commitGroups patches) todo

end Text

/-! ### What the groups are -/

section Grouped
variable {H : Type} [LinearOrder H] {patches kept : List (Patch H)}

/-- The patches that are replayed. -/
def keptOf (patches : List (Patch H)) : List (Patch H) := patches.filter fun p => !isStructural p

/-- The patches whose message is not that of the patch before. -/
def leaders : Option String → List (Patch H) → List (Patch H)
  | _, [] => []
  | last, p :: patches =>
    if last = some p.message then leaders last patches else p :: leaders (some p.message) patches

omit [LinearOrder H] in
theorem Grouping.finish_append (g : Grouping H) (h : g.current ≠ []) :
    g.finish = g.groups ++ [g.current] := if_neg h

omit [LinearOrder H] in
/-- From an open group on. -/
theorem foldl_step (patches : List (Patch H)) {groups : List (List (Patch H))}
    {current : List (Patch H)} {message : String} (hcurrent : current ≠ []) :
    let finished := (patches.foldl Grouping.step ⟨groups, current, some message⟩).finish
    finished.flatten = groups.flatten ++ current ++ keptOf patches ∧
      finished.filterMap List.head? = groups.filterMap List.head? ++ current.head?.toList ++
        leaders (some message) (keptOf patches) ∧
      ((∀ g ∈ groups, g ≠ []) → ∀ g ∈ finished, g ≠ []) := by
  induction patches generalizing groups current message with
  | nil =>
    dsimp only
    rw [List.foldl_nil, Grouping.finish_append _ hcurrent]
    obtain ⟨p, rest, rfl⟩ := List.exists_cons_of_ne_nil hcurrent
    refine ⟨by simp [keptOf], by simp [keptOf, leaders], ?_⟩
    intro hgroups g hg
    rcases List.mem_append.mp hg with hg | hg
    · exact hgroups g hg
    · rw [List.mem_singleton.mp hg]
      exact hcurrent
  | cons p patches ih =>
    dsimp only
    rw [List.foldl_cons]
    by_cases hskip : isStructural p = true
    · have hstep : Grouping.step ⟨groups, current, some message⟩ p =
          ⟨groups, current, some message⟩ := if_pos hskip
      have hkept : keptOf (p :: patches) = keptOf patches := by simp [keptOf, hskip]
      rw [hstep, hkept]
      exact ih hcurrent
    · have hkept : keptOf (p :: patches) = p :: keptOf patches := by simp [keptOf, hskip]
      rw [hkept]
      by_cases hsame : message = p.message
      · have hstep : Grouping.step ⟨groups, current, some message⟩ p =
            ⟨groups, current ++ [p], some message⟩ := by
          rw [Grouping.step, if_neg hskip]
          exact if_pos hsame
        rw [hstep]
        have hopen : current ++ [p] ≠ [] := by simp
        obtain ⟨hflat, hheads, hne⟩ := ih hopen
        refine ⟨by rw [hflat]; simp, ?_, hne⟩
        rw [hheads, leaders, if_pos (congrArg some hsame)]
        obtain ⟨q, rest, rfl⟩ := List.exists_cons_of_ne_nil hcurrent
        rfl
      · have hstep : Grouping.step ⟨groups, current, some message⟩ p =
            ⟨groups ++ [current], [p], some p.message⟩ := by
          rw [Grouping.step, if_neg hskip]
          dsimp only
          rw [if_neg hsame, if_neg hcurrent]
        rw [hstep]
        obtain ⟨hflat, hheads, hne⟩ := ih (List.cons_ne_nil p [])
        refine ⟨by rw [hflat]; simp, ?_, fun hgroups => hne ?_⟩
        · have hother : ¬ some message = some p.message := fun h => hsame (Option.some.inj h)
          rw [hheads, leaders, if_neg hother, List.filterMap_append]
          obtain ⟨q, rest, rfl⟩ := List.exists_cons_of_ne_nil hcurrent
          simp
        · intro g hg
          rcases List.mem_append.mp hg with hg | hg
          · exact hgroups g hg
          · rw [List.mem_singleton.mp hg]
            exact hcurrent

/-- The groups cut the replayed patches, by age, where the message changes. -/
theorem commitGroups_spec (patches : List (Patch H)) :
    (commitGroups patches).flatten = keptOf (patches.insertionSort ReplayBefore) ∧
      (commitGroups patches).filterMap List.head? =
        leaders none (keptOf (patches.insertionSort ReplayBefore)) ∧
      ∀ g ∈ commitGroups patches, g ≠ [] := by
  unfold commitGroups
  induction patches.insertionSort ReplayBefore with
  | nil => exact ⟨rfl, rfl, nofun⟩
  | cons p sorted ih =>
    rw [List.foldl_cons]
    by_cases hskip : isStructural p = true
    · have hkept : keptOf (p :: sorted) = keptOf sorted := by simp [keptOf, hskip]
      have hstep : Grouping.step ⟨[], [], none⟩ p = ⟨[], [], none⟩ := if_pos hskip
      rw [hkept, hstep]
      exact ih
    · have hkept : keptOf (p :: sorted) = p :: keptOf sorted := by simp [keptOf, hskip]
      have hstep : Grouping.step ⟨[], [], none⟩ p = ⟨[], [p], some p.message⟩ := by
        rw [Grouping.step, if_neg hskip]
        rfl
      rw [hkept, hstep]
      obtain ⟨hflat, hheads, hne⟩ := foldl_step sorted (List.cons_ne_nil p [])
      refine ⟨by rw [hflat]; rfl, ?_, hne nofun⟩
      rw [hheads, leaders, if_neg nofun]
      rfl

end Grouped
end Suture.Repo
