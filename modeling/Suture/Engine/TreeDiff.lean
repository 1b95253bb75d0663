import Suture.Engine.Tree

/-!
# Differences of trees

A deleted path whose hash an added path has is reported as a rename of it.
-/

namespace Suture.Engine
set_option autoImplicit false
open Foundation Patches

inductive DiffType where
  | added
  | modified
  | deleted
  | renamed (oldPath newPath : String)
deriving DecidableEq, Repr

structure DiffEntry (H : Type) where
  path : String
  diffType : DiffType
  oldHash : Option H
  newHash : Option H
deriving DecidableEq, Repr

section Diff
variable {H : Type} [DecidableEq H]

def modifiedEntry (newTree : FileTree H) (e : String × H) : Option (DiffEntry H) :=
  match newTree.get e.1 with
  | some newHash => if e.2 = newHash then none else some ⟨e.1, .modified, some e.2, some newHash⟩
  | none => none

/-- The entries of one tree under paths that the other lacks. -/
def onlyIn (tree other : FileTree H) : List (String × H) :=
  tree.entries.filter fun e => !other.contains e.1

/-- Each deleted path takes the first added path of its hash that is not taken yet. -/
def matchRenames (added : List (String × H)) :
    List (String × H) → List String → List (String × String × H)
  | [], _ => []
  | (delPath, hash) :: rest, matchedAdds =>
    match added.find? fun e => decide (e.2 = hash) && decide (e.1 ∉ matchedAdds) with
    | some e => (delPath, e.1, hash) :: matchRenames added rest (e.1 :: matchedAdds)
    | none => matchRenames added rest matchedAdds

def renameEntry (r : String × String × H) : DiffEntry H :=
  ⟨r.2.1, .renamed r.1 r.2.1, some r.2.2, some r.2.2⟩

def deletedEntry (e : String × H) : DiffEntry H := ⟨e.1, .deleted, some e.2, none⟩

def addedEntry (e : String × H) : DiffEntry H := ⟨e.1, .added, none, some e.2⟩

def diffTrees (oldTree newTree : FileTree H) : List (DiffEntry H) :=
  let deleted := onlyIn oldTree newTree
  let added := onlyIn newTree oldTree
  let renames := matchRenames added deleted []
  let diffs := oldTree.entries.filterMap (modifiedEntry newTree) ++ renames.map renameEntry ++
    (deleted.filter fun e => decide (e.1 ∉ renames.map Prod.fst)).map deletedEntry ++
    (added.filter fun e => decide (e.1 ∉ renames.map (·.2.1))).map addedEntry
  diffs.insertionSort fun a b => a.path ≤ b.path

/-- What an entry says of the two trees. -/
def EntryOk (oldTree newTree : FileTree H) (e : DiffEntry H) : Prop :=
  match e.diffType with
  | .added => oldTree.get e.path = none ∧ ∃ h, newTree.get e.path = some h ∧ e.newHash = some h
  | .modified => ∃ h h', oldTree.get e.path = some h ∧ newTree.get e.path = some h' ∧ h ≠ h' ∧
      e.newHash = some h'
  | .deleted => newTree.get e.path = none ∧ (∃ h, oldTree.get e.path = some h) ∧ e.newHash = none
  | .renamed oldPath _ => ∃ h, oldTree.get oldPath = some h ∧ newTree.get oldPath = none ∧
      oldTree.get e.path = none ∧ newTree.get e.path = some h ∧ e.oldHash = some h ∧
      e.newHash = some h

omit [DecidableEq H] in
theorem mem_onlyIn {tree other : FileTree H} {path : String} {hash : H} :
    (path, hash) ∈ onlyIn tree other ↔ tree.get path = some hash ∧ other.get path = none := by
  rw [onlyIn, List.mem_filter, SortedMap.mem_entries]
  simp [SortedMap.contains_eq]

theorem matchRenames_mem {added deleted : List (String × H)} {matched : List String}
    {r : String × String × H} (h : r ∈ matchRenames added deleted matched) :
    (r.1, r.2.2) ∈ deleted ∧ (r.2.1, r.2.2) ∈ added := by
  induction deleted generalizing matched with
  | nil => cases h
  | cons e rest ih =>
    obtain ⟨delPath, hash⟩ := e
    rw [matchRenames] at h
    split at h
    · rename_i found hfind
      rcases List.mem_cons.mp h with rfl | h
      · have hfound := List.find?_some hfind
        simp only [Bool.and_eq_true, decide_eq_true_eq] at hfound
        refine ⟨List.mem_cons_self .., ?_⟩
        rw [← hfound.1]
        exact List.mem_of_find?_eq_some hfind
      · exact (ih h).imp_left (List.mem_cons_of_mem _)
    · exact (ih h).imp_left (List.mem_cons_of_mem _)

theorem diffTrees_sound {oldTree newTree : FileTree H} {e : DiffEntry H}
    (h : e ∈ diffTrees oldTree newTree) : EntryOk oldTree newTree e := by
  simp only [diffTrees, List.mem_insertionSort, List.mem_append, List.mem_filterMap, List.mem_map,
    List.mem_filter] at h
  rcases h with ((⟨⟨path, hash⟩, hmem, hentry⟩ | ⟨⟨delPath, addPath, hash⟩, hmem, rfl⟩) |
    ⟨⟨path, hash⟩, hmem, rfl⟩) | ⟨⟨path, hash⟩, hmem, rfl⟩
  · unfold modifiedEntry at hentry
    split at hentry
    · rename_i newHash hnew
      split at hentry
      · cases hentry
      · rename_i hne
        cases hentry
        exact ⟨hash, newHash, SortedMap.mem_entries.mp hmem, hnew, hne, rfl⟩
    · cases hentry
  · obtain ⟨hdel, hadd⟩ := matchRenames_mem hmem
    rw [mem_onlyIn] at hdel hadd
    exact ⟨hash, hdel.1, hdel.2, hadd.2, hadd.1, rfl, rfl⟩
  · obtain ⟨hold, hnew⟩ := mem_onlyIn.mp hmem.1
    exact ⟨hnew, ⟨hash, hold⟩, rfl⟩
  · obtain ⟨hnew, hold⟩ := mem_onlyIn.mp hmem.1
    exact ⟨hold, hash, hnew, rfl⟩

/-- Every path on which the trees differ is the path of an entry, or renamed away. -/
theorem diffTrees_complete {oldTree newTree : FileTree H} {path : String}
    (h : oldTree.get path ≠ newTree.get path) :
    (∃ e ∈ diffTrees oldTree newTree, e.path = path) ∨
      (newTree.get path = none ∧
        ∃ e ∈ diffTrees oldTree newTree, ∃ newPath, e.diffType = .renamed path newPath) := by
  simp only [diffTrees, List.mem_insertionSort, List.mem_append, List.mem_filterMap, List.mem_map,
    List.mem_filter]
  cases hold : oldTree.get path with
  | none =>
    obtain ⟨hash, hnew⟩ := Option.ne_none_iff_exists'.mp fun hn => h (hold.trans hn.symm)
    have hmem := mem_onlyIn.mpr ⟨hnew, hold⟩
    by_cases htaken : path ∈ (matchRenames (onlyIn newTree oldTree) (onlyIn oldTree newTree) []).map
        (·.2.1)
    · obtain ⟨r, hr, hpath⟩ := List.mem_map.mp htaken
      exact .inl ⟨renameEntry r, .inl (.inl (.inr ⟨r, hr, rfl⟩)), hpath⟩
    · exact .inl ⟨_, .inr ⟨(path, hash), ⟨hmem, by simpa using htaken⟩, rfl⟩, rfl⟩
  | some hash =>
    cases hnew : newTree.get path with
    | some newHash =>
      refine .inl ⟨⟨path, .modified, some hash, some newHash⟩, .inl (.inl (.inl
        ⟨(path, hash), SortedMap.mem_entries.mpr hold, ?_⟩)), rfl⟩
      unfold modifiedEntry
      simp only [hnew]
      rw [if_neg]
      rintro rfl
      exact h (hold.trans hnew.symm)
    | none =>
      have hmem := mem_onlyIn.mpr ⟨hold, hnew⟩
      by_cases htaken : path ∈ (matchRenames (onlyIn newTree oldTree) (onlyIn oldTree newTree) []).map
          Prod.fst
      · obtain ⟨r, hr, rfl⟩ := List.mem_map.mp htaken
        exact .inr ⟨rfl, renameEntry r, .inl (.inl (.inr ⟨r, hr, rfl⟩)), r.2.1, rfl⟩
      · exact .inl ⟨_, .inl (.inr ⟨(path, hash), ⟨hmem, by simpa using htaken⟩, rfl⟩), rfl⟩

/-- An entry is about its path, and a rename also about the path it left. -/
def DiffEntry.Concerns (e : DiffEntry H) (path : String) : Prop :=
  e.path = path ∨ ∃ newPath, e.diffType = .renamed path newPath

omit [DecidableEq H] in
theorem EntryOk.ne {oldTree newTree : FileTree H} {e : DiffEntry H} {path : String}
    (h : EntryOk oldTree newTree e) (hpath : e.Concerns path) :
    oldTree.get path ≠ newTree.get path := by
  unfold EntryOk at h
  rcases hpath with rfl | ⟨newPath, htype⟩
  · cases htype : e.diffType with
    | added =>
      rw [htype] at h
      obtain ⟨hold, hash, hnew, -⟩ := h
      rw [hold, hnew]
      exact nofun
    | modified =>
      rw [htype] at h
      obtain ⟨hash, hash', hold, hnew, hne, -⟩ := h
      rw [hold, hnew]
      exact fun heq => hne (Option.some.inj heq)
    | deleted =>
      rw [htype] at h
      obtain ⟨hnew, ⟨hash, hold⟩, -⟩ := h
      rw [hold, hnew]
      exact nofun
    | renamed _ _ =>
      rw [htype] at h
      obtain ⟨hash, -, -, hold, hnew, -⟩ := h
      rw [hold, hnew]
      exact nofun
  · rw [htype] at h
    obtain ⟨hash, hold, hnew, -⟩ := h
    rw [hold, hnew]
    exact nofun

theorem exists_concerns_iff {oldTree newTree : FileTree H} {path : String} :
    (∃ e ∈ diffTrees oldTree newTree, e.Concerns path) ↔ oldTree.get path ≠ newTree.get path := by
  constructor
  · rintro ⟨e, he, hpath⟩
    exact (diffTrees_sound he).ne hpath
  · intro hne
    rcases diffTrees_complete hne with ⟨e, he, hpath⟩ | ⟨-, e, he, newPath, htype⟩
    · exact ⟨e, he, .inl hpath⟩
    · exact ⟨e, he, .inr ⟨newPath, htype⟩⟩

end Diff
end Suture.Engine
