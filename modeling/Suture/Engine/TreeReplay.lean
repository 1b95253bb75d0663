import Mathlib.Data.List.Perm.Basic
import Suture.Engine.TreeDiff

/-!
# Differences applied

The entries of a difference speak of different paths, so they can be applied in any order.
-/

namespace Suture.Engine
set_option autoImplicit false
open Foundation
variable {H : Type}

def DiffEntry.apply (tree : FileTree H) (e : DiffEntry H) : FileTree H :=
  match e.diffType, e.newHash with
  | .added, some newHash | .modified, some newHash => tree.insert e.path newHash
  | .renamed oldPath newPath, some newHash => (tree.erase oldPath).insert newPath newHash
  | .deleted, _ => tree.erase e.path
  | .added, none | .modified, none | .renamed _ _, none => tree

/-- The paths an entry speaks of, one for each of its roles. -/
def DiffEntry.mentions (e : DiffEntry H) : List String :=
  match e.diffType with
  | .added | .modified | .deleted => [e.path]
  | .renamed oldPath newPath => [oldPath, newPath]

section Diff
variable [DecidableEq H] {oldTree newTree : FileTree H}

/-! ### Renames -/

theorem matchRenames_sublist (added deleted : List (String × H)) (matched : List String) :
    ((matchRenames added deleted matched).map Prod.fst).Sublist (deleted.map Prod.fst) := by
  induction deleted generalizing matched with
  | nil => exact .slnil
  | cons e rest ih =>
    obtain ⟨delPath, hash⟩ := e
    unfold matchRenames
    split
    · exact (ih _).cons_cons _
    · exact (ih _).cons _

/-- An added path is taken once. -/
theorem matchRenames_nodup (added deleted : List (String × H)) (matched : List String) :
    ((matchRenames added deleted matched).map (·.2.1)).Nodup ∧
      ∀ path ∈ matched, path ∉ (matchRenames added deleted matched).map (·.2.1) := by
  induction deleted generalizing matched with
  | nil => exact ⟨List.nodup_nil, fun _ _ => List.not_mem_nil⟩
  | cons e rest ih =>
    obtain ⟨delPath, hash⟩ := e
    unfold matchRenames
    split
    · rename_i found hfind
      obtain ⟨hnodup, hfresh⟩ := ih (found.1 :: matched)
      have hfound : found.1 ∉ matched := by
        have hfound := List.find?_some hfind
        simp only [Bool.and_eq_true, decide_eq_true_eq] at hfound
        exact hfound.2
      refine ⟨List.nodup_cons.mpr ⟨hfresh _ (List.mem_cons_self ..), hnodup⟩, ?_⟩
      intro path hpath hmem
      rcases List.mem_cons.mp hmem with heq | hmem
      · rw [heq] at hpath
        exact hfound hpath
      · exact hfresh path (List.mem_cons_of_mem _ hpath) hmem
    · exact ih matched

/-! ### Mentioned paths -/

omit [DecidableEq H] in
theorem FileTree.keys_nodup (tree : FileTree H) : (tree.entries.map Prod.fst).Nodup := by
  rw [List.Nodup, List.pairwise_map]
  exact tree.sorted.imp fun hlt => hlt.ne

theorem modified_sublist (newTree : FileTree H) (entries : List (String × H)) :
    ((entries.filterMap (modifiedEntry newTree)).flatMap DiffEntry.mentions).Sublist
      (entries.map Prod.fst) := by
  induction entries with
  | nil => exact .slnil
  | cons e rest ih =>
    rw [List.filterMap_cons, List.map_cons]
    unfold modifiedEntry
    cases newTree.get e.1 with
    | none => exact ih.cons _
    | some newHash =>
      by_cases hsame : e.2 = newHash
      · simp only [hsame, if_true]
        exact ih.cons _
      · simp only [hsame, if_false]
        exact ih.cons_cons _

theorem modified_there {path : String} (h : path ∈
    (oldTree.entries.filterMap (modifiedEntry newTree)).flatMap DiffEntry.mentions) :
    oldTree.get path ≠ none ∧ newTree.get path ≠ none := by
  obtain ⟨e, he, hpath⟩ := List.mem_flatMap.mp h
  obtain ⟨⟨p, hash⟩, hentry, he⟩ := List.mem_filterMap.mp he
  have hold := SortedMap.mem_entries.mp hentry
  unfold modifiedEntry at he
  dsimp only at he
  split at he
  · rename_i newHash hnew
    split at he
    · cases he
    · cases he
      obtain rfl : path = p := List.mem_singleton.mp hpath
      rw [hold, hnew]
      exact ⟨Option.some_ne_none _, Option.some_ne_none _⟩
  · cases he

omit [DecidableEq H] in
/-- What only one tree has, all its paths once: those renamed and the rest. -/
theorem split_nodup {tree other : FileTree H} {taken : List String} (htaken : taken.Nodup)
    (hthere : ∀ path ∈ taken, path ∈ (onlyIn tree other).map Prod.fst) :
    (taken ++ ((onlyIn tree other).filter fun e => decide (e.1 ∉ taken)).map Prod.fst).Nodup ∧
      ∀ path ∈ taken ++ ((onlyIn tree other).filter fun e => decide (e.1 ∉ taken)).map Prod.fst,
        tree.get path ≠ none ∧ other.get path = none := by
  have hrest : ∀ path ∈ ((onlyIn tree other).filter fun e => decide (e.1 ∉ taken)).map Prod.fst,
      path ∉ taken ∧ path ∈ (onlyIn tree other).map Prod.fst := by
    intro path hpath
    obtain ⟨e, he, rfl⟩ := List.mem_map.mp hpath
    obtain ⟨he, hfree⟩ := List.mem_filter.mp he
    exact ⟨of_decide_eq_true hfree, List.mem_map_of_mem he⟩
  constructor
  · refine List.nodup_append.mpr ⟨htaken, ?_, ?_⟩
    · have hsub : ((onlyIn tree other).filter fun e => decide (e.1 ∉ taken)).Sublist tree.entries :=
        List.filter_sublist.trans List.filter_sublist
      exact (hsub.map _).nodup tree.keys_nodup
    · intro path hpath path' hpath' heq
      exact (hrest path' hpath').1 (heq ▸ hpath)
  · intro path hpath
    have hmem : path ∈ (onlyIn tree other).map Prod.fst := by
      rcases List.mem_append.mp hpath with hpath | hpath
      · exact hthere path hpath
      · exact (hrest path hpath).2
    obtain ⟨⟨_, hash⟩, he, rfl⟩ := List.mem_map.mp hmem
    obtain ⟨hget, hother⟩ := mem_onlyIn.mp he
    exact ⟨by rw [hget]; exact Option.some_ne_none _, hother⟩

theorem mentions_perm (oldTree newTree : FileTree H) :
    let renames := matchRenames (onlyIn newTree oldTree) (onlyIn oldTree newTree) []
    ((diffTrees oldTree newTree).flatMap DiffEntry.mentions).Perm
      ((oldTree.entries.filterMap (modifiedEntry newTree)).flatMap DiffEntry.mentions ++
        ((renames.map Prod.fst ++ ((onlyIn oldTree newTree).filter fun e =>
            decide (e.1 ∉ renames.map Prod.fst)).map Prod.fst) ++
          (renames.map (·.2.1) ++ ((onlyIn newTree oldTree).filter fun e =>
            decide (e.1 ∉ renames.map (·.2.1))).map Prod.fst))) := by
  intro renames
  refine ((List.perm_insertionSort _ _).flatMap_right _).trans ?_
  have hpairs : ((renames.map renameEntry).flatMap DiffEntry.mentions).Perm
      (renames.map Prod.fst ++ renames.map (·.2.1)) := by
    rw [List.flatMap_map, List.map_eq_flatMap, List.map_eq_flatMap]
    exact (List.flatMap_append_perm renames (fun r => [r.1]) fun r => [r.2.1]).symm
  have hdeleted : ∀ l : List (String × H),
      (l.map deletedEntry).flatMap DiffEntry.mentions = l.map Prod.fst := fun l => by
    rw [List.flatMap_map, List.map_eq_flatMap]
    rfl
  have hadded : ∀ l : List (String × H),
      (l.map addedEntry).flatMap DiffEntry.mentions = l.map Prod.fst := fun l => by
    rw [List.flatMap_map, List.map_eq_flatMap]
    rfl
  simp only [List.flatMap_append, List.append_assoc, hdeleted, hadded]
  refine List.Perm.append_left _ ((hpairs.append_right _).trans ?_)
  simp only [List.append_assoc]
  refine List.Perm.append_left _ ?_
  rw [← List.append_assoc, ← List.append_assoc]
  exact List.perm_append_comm.append_right _

/-- No path is mentioned twice. -/
theorem mentions_nodup (oldTree newTree : FileTree H) :
    ((diffTrees oldTree newTree).flatMap DiffEntry.mentions).Nodup := by
  rw [(mentions_perm oldTree newTree).nodup_iff]
  have hdeleted : ∀ path ∈ (matchRenames (onlyIn newTree oldTree) (onlyIn oldTree newTree) []).map
      Prod.fst, path ∈ (onlyIn oldTree newTree).map Prod.fst := by
    intro path hpath
    obtain ⟨r, hr, rfl⟩ := List.mem_map.mp hpath
    exact List.mem_map.mpr ⟨_, (matchRenames_mem hr).1, rfl⟩
  have hadded : ∀ path ∈ (matchRenames (onlyIn newTree oldTree) (onlyIn oldTree newTree) []).map
      (·.2.1), path ∈ (onlyIn newTree oldTree).map Prod.fst := by
    intro path hpath
    obtain ⟨r, hr, rfl⟩ := List.mem_map.mp hpath
    exact List.mem_map.mpr ⟨_, (matchRenames_mem hr).2, rfl⟩
  obtain ⟨hold, hgone⟩ := split_nodup
    ((matchRenames_sublist (onlyIn newTree oldTree) (onlyIn oldTree newTree) []).nodup
      ((List.filter_sublist.map _).nodup oldTree.keys_nodup)) hdeleted
  obtain ⟨hnew, hcame⟩ := split_nodup
    (matchRenames_nodup (onlyIn newTree oldTree) (onlyIn oldTree newTree) []).1 hadded
  refine List.nodup_append.mpr ⟨(modified_sublist ..).nodup oldTree.keys_nodup,
    List.nodup_append.mpr ⟨hold, hnew, ?_⟩, ?_⟩
  · intro path hpath path' hpath' heq
    exact (hcame path' hpath').1 (heq ▸ (hgone path hpath).2)
  · intro path hpath path' hpath' heq
    subst path'
    obtain ⟨hold, hnew⟩ := modified_there hpath
    rcases List.mem_append.mp hpath' with hpath' | hpath'
    · exact hnew (hgone _ hpath').2
    · exact hold (hcame _ hpath').2

/-! ### Replay -/

/-- An entry of a rename is filed under the new path. -/
def DiffEntry.Filed (e : DiffEntry H) : Prop :=
  ∀ oldPath newPath, e.diffType = .renamed oldPath newPath → e.path = newPath

theorem filed_of_mem {e : DiffEntry H} (h : e ∈ diffTrees oldTree newTree) : e.Filed := by
  simp only [diffTrees, List.mem_insertionSort, List.mem_append, List.mem_filterMap, List.mem_map,
    List.mem_filter] at h
  intro oldPath newPath htype
  rcases h with ((⟨entry, -, hentry⟩ | ⟨r, -, rfl⟩) | ⟨entry, -, rfl⟩) | ⟨entry, -, rfl⟩
  · unfold modifiedEntry at hentry
    split at hentry
    · split at hentry
      · cases hentry
      · cases hentry
        cases htype
    · cases hentry
  · cases htype
    rfl
  · cases htype
  · cases htype

omit [DecidableEq H] in
theorem DiffEntry.Filed.mem_mentions {e : DiffEntry H} (h : e.Filed) {path : String} :
    path ∈ e.mentions ↔ e.Concerns path := by
  obtain ⟨p, dtype, oldHash, newHash⟩ := e
  unfold mentions Concerns
  cases dtype with
  | renamed oldPath newPath =>
    obtain rfl : p = newPath := h _ _ rfl
    simp [or_comm, eq_comm]
  | added | modified | deleted => simp [eq_comm]

omit [DecidableEq H] in
/-- An entry gives the paths it mentions their new content, and leaves the others. -/
theorem get_apply {e : DiffEntry H} (h : EntryOk oldTree newTree e) (hfiled : e.Filed)
    (tree : FileTree H) (path : String) :
    (e.apply tree).get path = if path ∈ e.mentions then newTree.get path else tree.get path := by
  obtain ⟨p, dtype, oldHash, newHash⟩ := e
  unfold EntryOk at h
  cases dtype with
  | added =>
    obtain ⟨-, hash, hnew : newTree.get p = some hash, rfl⟩ := h
    by_cases hp : path = p <;> simp [DiffEntry.apply, DiffEntry.mentions, hp, hnew]
  | modified =>
    obtain ⟨-, hash, -, hnew : newTree.get p = some hash, -, rfl⟩ := h
    by_cases hp : path = p <;> simp [DiffEntry.apply, DiffEntry.mentions, hp, hnew]
  | deleted =>
    obtain ⟨hnew : newTree.get p = none, -, -⟩ := h
    by_cases hp : path = p <;> simp [DiffEntry.apply, DiffEntry.mentions, hp, hnew]
  | renamed oldPath newPath =>
    obtain rfl : p = newPath := hfiled _ _ rfl
    obtain ⟨hash, -, hgone, -, hnew : newTree.get p = some hash, -, rfl⟩ := h
    by_cases hp : path = p
    · simp [DiffEntry.apply, DiffEntry.mentions, hp, hnew]
    · by_cases hold : path = oldPath
      · subst oldPath
        simp [DiffEntry.apply, DiffEntry.mentions, hp, hgone]
      · simp [DiffEntry.apply, DiffEntry.mentions, hp, hold]

omit [DecidableEq H] in
theorem get_foldl_apply {es : List (DiffEntry H)} (h : ∀ e ∈ es, EntryOk oldTree newTree e)
    (hfiled : ∀ e ∈ es, e.Filed) (tree : FileTree H) (path : String) :
    (es.foldl DiffEntry.apply tree).get path =
      if path ∈ es.flatMap DiffEntry.mentions then newTree.get path else tree.get path := by
  induction es generalizing tree with
  | nil => rfl
  | cons e es ih =>
    have hhead := get_apply (h e (List.mem_cons_self ..)) (hfiled e (List.mem_cons_self ..)) tree path
    rw [List.foldl_cons, ih (fun d hd => h d (List.mem_cons_of_mem _ hd))
      (fun d hd => hfiled d (List.mem_cons_of_mem _ hd)), hhead, List.flatMap_cons]
    simp only [List.mem_append]
    by_cases hlater : path ∈ es.flatMap DiffEntry.mentions
    · simp [hlater]
    · simp [hlater]

theorem mem_mentions_iff {path : String} :
    path ∈ (diffTrees oldTree newTree).flatMap DiffEntry.mentions ↔
      oldTree.get path ≠ newTree.get path := by
  rw [← exists_concerns_iff, List.mem_flatMap]
  constructor
  · intro ⟨e, he, hpath⟩
    exact ⟨e, he, (filed_of_mem he).mem_mentions.mp hpath⟩
  · intro ⟨e, he, hpath⟩
    exact ⟨e, he, (filed_of_mem he).mem_mentions.mpr hpath⟩

theorem foldl_apply_perm {es : List (DiffEntry H)} (h : es.Perm (diffTrees oldTree newTree)) :
    es.foldl DiffEntry.apply oldTree = newTree := by
  apply SortedMap.ext
  intro path
  rw [get_foldl_apply (fun e he => diffTrees_sound (h.mem_iff.mp he))
    fun e he => filed_of_mem (h.mem_iff.mp he)]
  split
  · rfl
  · rename_i hsame
    rw [(h.flatMap_right _).mem_iff, mem_mentions_iff] at hsame
    exact not_not.mp hsame

/-- The entries of a difference lead from the old tree to the new one in any order, mention no
path twice, and are missing only when nothing changed. -/
theorem diffTrees_exact (oldTree newTree : FileTree H) :
    (∀ es : List (DiffEntry H), es.Perm (diffTrees oldTree newTree) →
        es.foldl DiffEntry.apply oldTree = newTree) ∧
      ((diffTrees oldTree newTree).flatMap DiffEntry.mentions).Nodup ∧
      (diffTrees oldTree newTree = [] ↔ oldTree = newTree) := by
  refine ⟨fun es => foldl_apply_perm, mentions_nodup oldTree newTree, ?_⟩
  constructor
  · intro hempty
    have hnone : ([] : List (DiffEntry H)).Perm (diffTrees oldTree newTree) := by rw [hempty]
    exact foldl_apply_perm hnone
  · intro hsame
    apply List.eq_nil_iff_forall_not_mem.mpr
    intro e he
    exact (diffTrees_sound he).ne (.inl rfl) (by rw [hsame])

end Diff
end Suture.Engine
