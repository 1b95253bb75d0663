import Suture.Repo.SoftReset
import Suture.Repo.Todo

/-!
# Reading a to-do list back

A commit is one line of the list only while its message is one line: what follows in the message
is read as lines of its own. The lines stand by age, which is the order of the history only
while the clock agrees with it.
-/

namespace Suture.Repo
set_option autoImplicit false
open Foundation Common Patches Dag Engine Program

variable {H : Type} [LinearOrder H] [Hashing H] {s t : Repository H} {base tip : H}
  {line : List (Patch H)}

/-! ### The patches since the base -/

theorem patchesSinceBase_run (hs : Loaded s) {branch : String}
    (hhead : (head s).1 = .ok (branch, tip)) (hline : PatchDag.Line s.dag base tip line) :
    ∃ t, patchesSinceBase base s = (.ok line.reverse, t) ∧ Loaded t ∧
      (head t).1 = .ok (branch, tip) ∧ PatchDag.Line t.dag base tip line := by
  have hasked := PatchDag.asked_ancestors hline.base_known
  obtain ⟨s₁, hs₁⟩ : ∃ s₁, s₁ = { s with dag := (s.dag.ancestors base).2 } := ⟨_, rfl⟩
  have hquery : queryDag (fun d => d.ancestors base) s = (.ok (s.dag.ancestors base).1, s₁) := by
    rw [hs₁]
    rfl
  have hhead₁ : (head s₁).1 = .ok (branch, tip) := by
    rw [hs₁, head_congr hasked.queried.same.branches, hhead]
  have hrun : head s₁ = (.ok (branch, tip), (head s₁).2) := Prod.ext hhead₁ rfl
  have hs₂ := head_state hrun
  have hsame : s₁.dag = (s.dag.ancestors base).2 := by rw [hs₁]
  have hsame₂ : (head s₁).2.dag = (s.dag.ancestors base).2 := by
    rw [hs₂]
    exact hsame
  have hline₁ : PatchDag.Line (s.dag.ancestors base).2 base tip line :=
    hline.of_same hasked.queried.same
  have hbelow : ∀ p, p = base ∨ p ∈ (s.dag.ancestors base).1 ↔
      (s.dag.ancestors base).2.History base p := by
    intro p
    unfold PatchDag.History
    rw [PatchDag.mem_ancestors hs.sound.cache, hasked.queried.same.reaches]
  refine ⟨(head s₁).2, ?_, ?_, ?_, ?_⟩
  · unfold patchesSinceBase
    rw [bind_of_ok hquery, attempt_bind hrun, read_bind, hsame₂]
    have hchain := PatchDag.patchChain_line (hasked.sound hs.sound).graded hline₁ hbelow
    exact congrArg (fun l => (Except.ok l, (head s₁).2)) hchain
  · rw [hs₂, hs₁]
    have hloaded := hs.asked hasked
    exact { hloaded with }
  · have hcached : head (head s₁).2 = (.ok (branch, tip), (head s₁).2) := by
      apply head_of_cached <;> rw [hs₂]
    rw [hcached]
  · rw [hsame₂]
    exact hline₁

/-! ### Lines -/

/-- Hashes are written in digits without blanks. -/
def WritesDigits (H : Type) [Hashing H] : Prop :=
  ∀ id : H, Hashing.toHex id ≠ "" ∧ ∀ c ∈ (Hashing.toHex id).toList, c ∈ "0123456789abcdef".toList

omit [LinearOrder H] in
theorem lenient_todoLine : Lenient todoLine where
  empty := rfl
  ended := by
    intro l
    unfold todoLine
    rw [String.toList_ofList, String.toList_ofList, trimBy_concat_blank rfl]

omit [LinearOrder H] in
theorem shortHash_digits (hhex : WritesDigits H) (id : H) :
    ∃ c rest, (shortHash id).toList = rest ++ [c] ∧ isWhiteSpace c = false ∧
      ∀ d ∈ (shortHash id).toList, d ≠ ' ' ∧ d ≠ '\n' := by
  obtain ⟨hne, hdigits⟩ := hhex id
  have hlist : (shortHash id).toList = (Hashing.toHex id).toList.take 8 := String.toList_ofList
  have hne' : (Hashing.toHex id).toList.take 8 ≠ [] := by
    rw [ne_eq, List.take_eq_nil_iff, not_or]
    exact ⟨by decide, fun h => hne (String.toList_eq_nil_iff.mp h)⟩
  have hmem : ∀ d ∈ (shortHash id).toList, d ∈ "0123456789abcdef".toList := by
    intro d hd
    rw [hlist] at hd
    exact hdigits d (List.mem_of_mem_take hd)
  have hdigit : ("0123456789abcdef".toList.all fun d =>
      !isWhiteSpace d && decide (d ≠ ' ') && decide (d ≠ '\n')) = true := by decide +kernel
  have hall : ∀ d ∈ "0123456789abcdef".toList, isWhiteSpace d = false ∧ d ≠ ' ' ∧ d ≠ '\n' := by
    intro d hd
    have hplain := List.all_eq_true.mp hdigit d hd
    simp only [Bool.and_eq_true, Bool.not_eq_true', decide_eq_true_eq] at hplain
    exact ⟨hplain.1.1, hplain.1.2, hplain.2⟩
  rw [hlist] at hmem ⊢
  refine ⟨_, _, (List.dropLast_append_getLast hne').symm, ?_, ?_⟩
  · exact (hall _ (hmem _ (List.getLast_mem hne'))).1
  · intro d hd
    exact (hall d (hmem d hd)).2

/-- The end of a line is trimmed to nothing, or goes on with the blank. -/
theorem rdropWhile_blank (rest : List Char) : (' ' :: rest).rdropWhile isWhiteSpace = [] ∨
    ∃ rest', (' ' :: rest).rdropWhile isWhiteSpace = ' ' :: rest' := by
  have hleft := List.rdropWhile_prefix isWhiteSpace (' ' :: rest)
  cases htrim : (' ' :: rest).rdropWhile isWhiteSpace with
  | nil => exact .inl rfl
  | cons c rest' =>
    rw [htrim, List.cons_prefix_cons] at hleft
    exact .inr ⟨rest', by rw [hleft.1]⟩

omit [LinearOrder H] in
/-- A line that was written for a commit is read as a pick of it. -/
theorem todoLine_pick (hhex : WritesDigits H) (id : H) (message : String) : ∃ read,
    todoLine ("pick " ++ shortHash id ++ " " ++ message) = some (.pick, shortHash id, read) := by
  obtain ⟨c, short, hshort, hc, hplain⟩ := shortHash_digits hhex id
  have hsep : ' ' ∉ (shortHash id).toList := fun h => (hplain _ h).1 rfl
  have hline : ("pick " ++ shortHash id ++ " " ++ message).toList =
      'p' :: (['i', 'c', 'k', ' '] ++ short ++ c :: ' ' :: message.toList) := by
    simp [hshort]
  have htrim : trimBy isWhiteSpace ("pick " ++ shortHash id ++ " " ++ message).toList =
      ['p', 'i', 'c', 'k'] ++ ' ' :: ((shortHash id).toList ++
        (' ' :: message.toList).rdropWhile isWhiteSpace) := by
    rw [hline, trimBy_of_solid rfl, List.append_assoc, ← List.append_assoc,
      rdropWhile_append_of_solid hc, hshort]
    simp
  have hfields : ∃ rest, splitN ' ' 3 (trimBy isWhiteSpace
      ("pick " ++ shortHash id ++ " " ++ message).toList) =
        ['p', 'i', 'c', 'k'] :: (shortHash id).toList :: rest := by
    rw [htrim, splitN_append (by decide)]
    rcases rdropWhile_blank message.toList with hnil | ⟨rest, hrest⟩
    · rw [hnil, List.append_nil, splitN_of_notMem hsep]
      exact ⟨_, rfl⟩
    · rw [hrest, splitN_append hsep]
      exact ⟨_, rfl⟩
  obtain ⟨rest, hfields⟩ := hfields
  have hstart : ¬ (trimBy isWhiteSpace ("pick " ++ shortHash id ++ " " ++ message).toList = [] ∨
      (trimBy isWhiteSpace ("pick " ++ shortHash id ++ " " ++ message).toList).head? = some '#') := by
    rw [htrim]
    simp
  unfold todoLine
  dsimp only
  rw [if_neg hstart, hfields]
  dsimp only
  rw [String.ofList_toList]
  exact ⟨_, rfl⟩

omit [LinearOrder H] in
/-- What is read off the line of a commit: a pick, and whatever its message has below. -/
theorem readLines_pickLine (hhex : WritesDigits H) (patch : Patch H) : ∃ read,
    readLines todoLine (pickLine patch) =
      (.pick, shortHash patch.id, read) :: readLines todoLine (laterText patch.message) := by
  obtain ⟨c, short, hshort, -, hplain⟩ := shortHash_digits hhex patch.id
  have hnewline : ∀ d ∈ "pick ".toList ++ (shortHash patch.id).toList ++ [' '],
      decide (d ≠ '\n') = true := by
    intro d hd
    simp only [List.mem_append, List.mem_singleton] at hd
    rcases hd with (hd | hd) | hd
    · have hall : ("pick ".toList.all fun d => decide (d ≠ '\n')) = true := by decide
      exact List.all_eq_true.mp hall d hd
    · exact decide_eq_true (hplain d hd).2
    · rw [hd]
      rfl
  have htext : (pickLine patch).toList =
      "pick ".toList ++ (shortHash patch.id).toList ++ [' '] ++ patch.message.toList := by
    simp [pickLine]
  have hfirst : firstLine (pickLine patch) =
      "pick " ++ shortHash patch.id ++ " " ++ firstLine patch.message := by
    unfold firstLine
    rw [htext, List.takeWhile_append_of_pos hnewline, String.ofList_append, String.ofList_append,
      String.ofList_append, String.ofList_toList, String.ofList_toList]
  have hlater : laterText (pickLine patch) = laterText patch.message := by
    unfold laterText
    rw [htext, List.dropWhile_append_of_pos hnewline]
  obtain ⟨read, hread⟩ := todoLine_pick hhex patch.id (firstLine patch.message)
  refine ⟨read, ?_⟩
  rw [readLines_eq lenient_todoLine, hfirst, hlater, hread, Option.toList_some, List.singleton_append]

/-! ### The plan -/

section Plan
variable {groups : List (List (Patch H))}

omit [LinearOrder H] in
/-- The map has the patches of each group under the short hash of its first. -/
theorem get_groupMap (hshort : ((groups.filterMap List.head?).map fun p => shortHash p.id).Nodup)
    {key : String} {v : String × List H} : (groupMap groups).get key = some v ↔
      ∃ g ∈ groups, ∃ first, g.head? = some first ∧ shortHash first.id = key ∧
        v = (first.message, g.map Patch.id) := by
  induction groups using List.reverseRecOn with
  | nil =>
    refine iff_of_false ?_ fun ⟨g, hg, _⟩ => List.not_mem_nil hg
    exact fun h => Option.some_ne_none v h.symm
  | append_singleton groups g ih =>
    have hmap : groupMap (groups ++ [g]) = g.head?.elim (groupMap groups) fun first =>
        (groupMap groups).insert (shortHash first.id) (first.message, g.map Patch.id) := by
      unfold groupMap
      rw [List.foldl_append, List.foldl_cons, List.foldl_nil]
      cases g.head? <;> rfl
    rw [List.filterMap_append, List.map_append, List.nodup_append] at hshort
    have ih := ih hshort.1
    rw [hmap]
    cases hhead : g.head? with
    | none =>
      rw [Option.elim_none, ih]
      constructor
      · intro ⟨g', hg', hrest⟩
        exact ⟨g', List.mem_append_left _ hg', hrest⟩
      · intro ⟨g', hg', first, hfirst, hrest⟩
        rcases List.mem_append.mp hg' with hg' | hg'
        · exact ⟨g', hg', first, hfirst, hrest⟩
        · rw [List.mem_singleton.mp hg', hhead] at hfirst
          cases hfirst
    | some first =>
      rw [Option.elim_some, SortedMap.get_insert]
      by_cases hkey : key = shortHash first.id
      · rw [if_pos hkey]
        constructor
        · intro h
          exact ⟨g, by simp, first, hhead, hkey.symm, (Option.some.inj h).symm⟩
        · intro ⟨g', hg', first', hfirst', hkey', hv⟩
          rcases List.mem_append.mp hg' with hg' | hg'
          · -- an earlier group has another short hash
            have hold : shortHash first'.id ∈ (groups.filterMap List.head?).map
                fun p => shortHash p.id :=
              List.mem_map.mpr ⟨first', List.mem_filterMap.mpr ⟨g', hg', hfirst'⟩, rfl⟩
            refine absurd (hkey'.trans hkey) (hshort.2.2 _ hold _ ?_)
            simp [hhead]
          · rw [List.mem_singleton.mp hg'] at hfirst' hv
            rw [hhead] at hfirst'
            cases hfirst'
            rw [hv]
      · rw [if_neg hkey, ih]
        constructor
        · intro ⟨g', hg', hrest⟩
          exact ⟨g', List.mem_append_left _ hg', hrest⟩
        · intro ⟨g', hg', first', hfirst', hkey', hv⟩
          rcases List.mem_append.mp hg' with hg' | hg'
          · exact ⟨g', hg', first', hfirst', hkey', hv⟩
          · rw [List.mem_singleton.mp hg', hhead] at hfirst'
            cases hfirst'
            exact absurd hkey'.symm hkey

omit [LinearOrder H] in
theorem planEntry_patchIds (m : SortedMap String (String × List H))
    (read : RebaseAction × String × String) :
    (planEntry m read).patchIds = ((m.get read.2.1).map Prod.snd).getD [] := by
  obtain ⟨action, key, message⟩ := read
  unfold planEntry
  dsimp only
  cases m.get key <;> rfl

omit [LinearOrder H] in
theorem planEntry_action (m : SortedMap String (String × List H))
    (read : RebaseAction × String × String) : (planEntry m read).action = read.1 := rfl

omit [LinearOrder H] in
/-- An entry has no patches exactly if its short hash is that of no group. -/
theorem planEntry_patchIds_eq_nil
    (hshort : ((groups.filterMap List.head?).map fun p => shortHash p.id).Nodup)
    (read : RebaseAction × String × String) : (planEntry (groupMap groups) read).patchIds = [] ↔
      read.2.1 ∉ (groups.filterMap List.head?).map fun p => shortHash p.id := by
  rw [planEntry_patchIds]
  cases hget : (groupMap groups).get read.2.1 with
  | none =>
    refine iff_of_true rfl ?_
    intro hmem
    obtain ⟨first, hfirst, hkey⟩ := List.mem_map.mp hmem
    obtain ⟨g, hg, hhead⟩ := List.mem_filterMap.mp hfirst
    have hsome := (get_groupMap hshort).mpr ⟨g, hg, first, hhead, hkey, rfl⟩
    rw [hget] at hsome
    cases hsome
  | some v =>
    obtain ⟨g, hg, first, hhead, hkey, rfl⟩ := (get_groupMap hshort).mp hget
    refine iff_of_false ?_ ?_
    · intro hnil
      have hnil : g.map Patch.id = [] := hnil
      rw [List.map_eq_nil_iff.mp hnil] at hhead
      cases hhead
    · intro hnot
      exact hnot (List.mem_map.mpr ⟨first, List.mem_filterMap.mpr ⟨g, hg, hhead⟩, hkey⟩)

/-- What the messages of a group's first patch have below their first line. -/
def extraEntries (groups : List (List (Patch H))) (patch : Patch H) : List (RebasePlanEntry H) :=
  (readLines todoLine (laterText patch.message)).map (planEntry (groupMap groups))

omit [LinearOrder H] in
theorem readLines_todoText (groups : List (List (Patch H))) : readLines todoLine (todoText groups) =
    (groups.filterMap List.head?).flatMap fun p => readLines todoLine (pickLine p) := by
  have hheader : todoHeader.flatMap (readLines todoLine) = [] := by decide +kernel
  have hlast : [""].flatMap (readLines todoLine) = [] := rfl
  unfold todoText
  rw [readLines_intercalate lenient_todoLine, List.flatMap_append, List.flatMap_append, hheader, hlast,
    List.nil_append, List.append_nil, List.flatMap_map]

omit [LinearOrder H] [Hashing H] in
theorem heads_flatMap {f : Patch H → List H} (hne : ∀ g ∈ groups, g ≠ [])
    (hf : ∀ g ∈ groups, ∀ first, g.head? = some first → f first = g.map Patch.id) :
    (groups.filterMap List.head?).flatMap f = groups.flatten.map Patch.id := by
  induction groups with
  | nil => rfl
  | cons g groups ih =>
    have ih := ih (fun g' hg' => hne g' (List.mem_cons_of_mem _ hg'))
      fun g' hg' => hf g' (List.mem_cons_of_mem _ hg')
    obtain ⟨first, rest, rfl⟩ := List.exists_cons_of_ne_nil (hne g (List.mem_cons_self ..))
    have hhead : (first :: rest).head? = some first := rfl
    rw [List.filterMap_cons_some hhead, List.flatMap_cons, ih,
      hf _ (List.mem_cons_self ..) first hhead, List.flatten_cons, List.map_append]

/-- Further pieces that make a list no longer are empty. -/
theorem further_eq_nil {α β : Type} {l : List α} {f g : α → List β}
    (h : (l.flatMap fun a => f a ++ g a).length = (l.flatMap f).length) : ∀ a ∈ l, g a = [] := by
  induction l with
  | nil => exact nofun
  | cons a l ih =>
    have hle : ∀ m : List α, (m.flatMap f).length ≤ (m.flatMap fun a => f a ++ g a).length := by
      intro m
      induction m with
      | nil => exact Nat.le_refl _
      | cons b m ihm =>
        simp only [List.flatMap_cons, List.length_append]
        omega
    have hrest := hle l
    simp only [List.flatMap_cons, List.length_append] at h
    intro b hb
    rcases List.mem_cons.mp hb with rfl | hb
    · exact List.eq_nil_of_length_eq_zero (by omega)
    · exact ih (by omega) b hb

omit [LinearOrder H] in
/-- The plan that is read back is one of picks of these patches exactly if what is read off
the messages is picks of nothing. -/
theorem plan_iff (hhex : WritesDigits H) (hne : ∀ g ∈ groups, g ≠ [])
    (hshort : ((groups.filterMap List.head?).map fun p => shortHash p.id).Nodup) {ids : List H}
    (hlength : ids.length = groups.flatten.length) :
    ((∀ e ∈ (planOf groups (todoText groups)).entries, e.action = .pick) ∧
      (planOf groups (todoText groups)).entries.flatMap RebasePlanEntry.patchIds = ids) ↔
    groups.flatten.map Patch.id = ids ∧ ∀ p ∈ groups.filterMap List.head?,
      ∀ read ∈ readLines todoLine (laterText p.message), read.1 = .pick ∧
        read.2.1 ∉ (groups.filterMap List.head?).map fun q => shortHash q.id := by
  obtain ⟨heads, hheads⟩ : ∃ heads, heads = groups.filterMap List.head? := ⟨_, rfl⟩
  -- the entry of each first patch, and those that its message makes
  obtain ⟨f, hf⟩ : ∃ f : Patch H → List H, f = fun p =>
    (((groupMap groups).get (shortHash p.id)).map Prod.snd).getD [] := ⟨_, rfl⟩
  have hentries : (planOf groups (todoText groups)).entries = heads.flatMap fun p =>
      (readLines todoLine (pickLine p)).map (planEntry (groupMap groups)) := by
    unfold planOf
    rw [readLines_todoText, hheads, List.map_flatMap]
  have hfirst : ∀ p, ∃ e, e.action = .pick ∧ e.patchIds = f p ∧
      (readLines todoLine (pickLine p)).map (planEntry (groupMap groups)) =
        e :: extraEntries groups p := by
    intro p
    obtain ⟨read, hread⟩ := readLines_pickLine hhex p
    refine ⟨planEntry (groupMap groups) (.pick, shortHash p.id, read), rfl, ?_, ?_⟩
    · rw [planEntry_patchIds, hf]
    · rw [hread]
      rfl
  have hids : (planOf groups (todoText groups)).entries.flatMap RebasePlanEntry.patchIds =
      heads.flatMap fun p => f p ++ (extraEntries groups p).flatMap RebasePlanEntry.patchIds := by
    rw [hentries, List.flatMap_assoc]
    apply List.flatMap_congr
    intro p _
    obtain ⟨e, -, hpatches, hlines⟩ := hfirst p
    rw [hlines, List.flatMap_cons, hpatches]
  have hgroups : heads.flatMap f = groups.flatten.map Patch.id := by
    rw [hheads]
    apply heads_flatMap hne
    intro g hg first hhead
    have hget := (get_groupMap hshort).mpr ⟨g, hg, first, hhead, rfl, rfl⟩
    rw [hf]
    dsimp only
    rw [hget]
    rfl
  have hpicks : (∀ e ∈ (planOf groups (todoText groups)).entries, e.action = .pick) ↔
      ∀ p ∈ heads, ∀ read ∈ readLines todoLine (laterText p.message), read.1 = .pick := by
    rw [hentries]
    constructor
    · intro h p hp read hread
      refine h (planEntry (groupMap groups) read) (List.mem_flatMap.mpr ⟨p, hp, ?_⟩)
      obtain ⟨e, -, -, hlines⟩ := hfirst p
      rw [hlines]
      exact List.mem_cons_of_mem _ (List.mem_map_of_mem hread)
    · intro h e he
      obtain ⟨p, hp, he⟩ := List.mem_flatMap.mp he
      obtain ⟨e', hpick, -, hlines⟩ := hfirst p
      rw [hlines] at he
      rcases List.mem_cons.mp he with rfl | he
      · exact hpick
      · obtain ⟨read, hread, rfl⟩ := List.mem_map.mp he
        exact h p hp read hread
  have hnil : ∀ p, (extraEntries groups p).flatMap RebasePlanEntry.patchIds = [] ↔
      ∀ read ∈ readLines todoLine (laterText p.message),
        read.2.1 ∉ heads.map fun q => shortHash q.id := by
    intro p
    rw [List.flatMap_eq_nil_iff, hheads]
    constructor
    · intro h read hread
      exact (planEntry_patchIds_eq_nil hshort read).mp (h _ (List.mem_map_of_mem hread))
    · intro h e he
      obtain ⟨read, hread, rfl⟩ := List.mem_map.mp he
      exact (planEntry_patchIds_eq_nil hshort read).mpr (h read hread)
  rw [hpicks, hids, ← hheads]
  constructor
  · intro ⟨hpick, heq⟩
    have hextra : ∀ p ∈ heads, (extraEntries groups p).flatMap RebasePlanEntry.patchIds = [] := by
      apply further_eq_nil (f := f)
      rw [heq, hgroups, hlength, List.length_map]
    refine ⟨?_, fun p hp read hread => ⟨hpick p hp read hread, (hnil p).mp (hextra p hp) read hread⟩⟩
    rw [← heq, ← hgroups]
    apply List.flatMap_congr
    intro p hp
    rw [hextra p hp, List.append_nil]
  · intro ⟨heq, hsafe⟩
    refine ⟨fun p hp read hread => (hsafe p hp read hread).1, ?_⟩
    rw [← heq, ← hgroups]
    apply List.flatMap_congr
    intro p hp
    rw [(hnil p).mpr fun read hread => (hsafe p hp read hread).2, List.append_nil]

end Plan

/-! ### The round trip -/

/-- The plan picks the replayed patches of the line, parents first, each once. -/
def PicksAll (line : List (Patch H)) (plan : RebasePlan H) : Prop :=
  (∀ e ∈ plan.entries, e.action = .pick) ∧
    plan.entries.flatMap RebasePlanEntry.patchIds = (keptOf line).map Patch.id

/-- The replayed patches are in order of age, and below the first line the messages say nothing
but picks of unknown commits. -/
structure Readable (line : List (Patch H)) : Prop where
  ordered : (keptOf line).Pairwise ReplayBefore
  harmless : ∀ p ∈ leaders none (keptOf line), ∀ read ∈ readLines todoLine (laterText p.message),
    read.1 = .pick ∧ read.2.1 ∉ (leaders none (keptOf line)).map fun q => shortHash q.id

omit [LinearOrder H] [Hashing H] in
theorem leaders_sublist (last : Option String) (patches : List (Patch H)) :
    (leaders last patches).Sublist patches := by
  induction patches generalizing last with
  | nil => exact .slnil
  | cons p patches ih =>
    rw [leaders]
    split
    · exact (ih _).cons _
    · exact (ih _).cons_cons _

omit [Hashing H] in
theorem replayBefore_trans {a b c : Patch H} (hab : ReplayBefore a b) (hbc : ReplayBefore b c) :
    ReplayBefore a c := by
  rcases hab with hab | ⟨hab, hid⟩
  · rcases hbc with hbc | ⟨hbc, -⟩
    · exact .inl (hab.trans hbc)
    · exact .inl (hbc ▸ hab)
  · rcases hbc with hbc | ⟨hbc, hid'⟩
    · exact .inl (hab ▸ hbc)
    · exact .inr ⟨hab.trans hbc, hid.trans hid'⟩

omit [Hashing H] in
theorem replayBefore_total (a b : Patch H) : ReplayBefore a b ∨ ReplayBefore b a := by
  rcases Nat.lt_trichotomy a.timestamp b.timestamp with h | h | h
  · exact .inl (.inl h)
  · exact (le_total a.id b.id).imp (fun hid => .inr ⟨h, hid⟩) fun hid => .inr ⟨h.symm, hid⟩
  · exact .inr (.inl h)

instance : IsTrans (Patch H) ReplayBefore := ⟨fun _ _ _ => replayBefore_trans⟩

instance : Std.Total (α := Patch H) ReplayBefore := ⟨replayBefore_total⟩

omit [Hashing H] in
/-- The replayed patches by age are those of the line exactly if they are in this order. -/
theorem keptOf_sorted_iff {d : PatchDag H} (hd : d.Graded) (hline : PatchDag.Line d base tip line) :
    keptOf (line.reverse.insertionSort ReplayBefore) = keptOf line ↔
      (keptOf line).Pairwise ReplayBefore := by
  have hperm : (line.reverse.insertionSort ReplayBefore).Perm line :=
    (List.perm_insertionSort _ _).trans (List.reverse_perm line)
  have hsorted : (keptOf (line.reverse.insertionSort ReplayBefore)).Pairwise ReplayBefore :=
    (List.pairwise_insertionSort _ _).filter _
  constructor
  · intro h
    rwa [h] at hsorted
  · intro h
    apply List.Perm.eq_of_pairwise _ hsorted h (hperm.filter _)
    intro a b ha hb hab hba
    have hid : a.id = b.id := by
      rcases hab with hab | ⟨hab, hid⟩
      · rcases hba with hba | ⟨hba, -⟩ <;> omega
      · rcases hba with hba | ⟨-, hid'⟩
        · omega
        · exact le_antisymm hid hid'
    exact List.inj_on_of_nodup_map (hline.nodup hd) (hperm.mem_iff.mp (List.mem_filter.mp ha).1)
      (List.mem_filter.mp hb).1 hid

/-- A to-do list is read back as picks of the commits of a linear history exactly if these
are in order of age and their messages say nothing more to the reader. -/
theorem todo_round_trips_iff (hs : Loaded s) (hhex : WritesDigits H) {branch : String}
    (hhead : (head s).1 = .ok (branch, tip)) (hline : PatchDag.Line s.dag base tip line)
    (hshort : (line.map fun p => shortHash p.id).Nodup) :
    ∃ todo t plan u, generateRebaseTodo base s = (.ok todo, t) ∧
      parseRebaseTodo todo base t = (.ok plan, u) ∧ (PicksAll line plan ↔ Readable line) := by
  obtain ⟨t, hfirst, ht, hheadt, hlinet⟩ := patchesSinceBase_run hs hhead hline
  obtain ⟨u, hsecond, -⟩ := patchesSinceBase_run ht hheadt hlinet
  refine ⟨todoText (commitGroups line.reverse), t,
    planOf (commitGroups line.reverse) (todoText (commitGroups line.reverse)), u,
    bind_of_ok hfirst, bind_of_ok hsecond, ?_⟩
  obtain ⟨hflat, hheads, hne⟩ := commitGroups_spec line.reverse
  have hperm : (line.reverse.insertionSort ReplayBefore).Perm line :=
    (List.perm_insertionSort _ _).trans (List.reverse_perm line)
  have hsub := (leaders_sublist none (keptOf (line.reverse.insertionSort ReplayBefore))).trans
    List.filter_sublist
  have hnodup : (((commitGroups line.reverse).filterMap List.head?).map fun p =>
      shortHash p.id).Nodup := by
    rw [hheads]
    exact (hsub.map _).nodup (((hperm.map _).nodup_iff).mpr hshort)
  have hlength : ((keptOf line).map Patch.id).length = (commitGroups line.reverse).flatten.length := by
    rw [hflat, List.length_map]
    exact ((hperm.filter _).length_eq).symm
  have hplan := plan_iff hhex hne hnodup hlength
  rw [hflat, hheads] at hplan
  unfold PicksAll
  rw [hplan]
  constructor
  · intro ⟨hids, hsafe⟩
    have heq : keptOf (line.reverse.insertionSort ReplayBefore) = keptOf line :=
      hline.eq_of_ids (fun p hp => hperm.mem_iff.mp (List.mem_filter.mp hp).1)
        (fun p hp => (List.mem_filter.mp hp).1) hids
    rw [heq] at hsafe
    exact ⟨(keptOf_sorted_iff hs.sound.graded hline).mp heq, hsafe⟩
  · intro ⟨hordered, hsafe⟩
    have heq := (keptOf_sorted_iff hs.sound.graded hline).mpr hordered
    rw [heq]
    exact ⟨rfl, hsafe⟩

/-! ### Two lists -/

theorem mem_toDigits_sixteen {n : Nat} {c : Char} (h : c ∈ Nat.toDigits 16 n) :
    c ∈ "0123456789abcdef".toList := by
  have hdigit : ∀ k < 16, Nat.digitChar k ∈ "0123456789abcdef".toList := by decide +kernel
  induction n using Nat.strong_induction_on with
  | _ n ih =>
    rw [Nat.toDigits_eq_if (by omega)] at h
    split at h
    · rename_i hlt
      rw [List.mem_singleton.mp h]
      exact hdigit n hlt
    · rcases List.mem_append.mp h with h | h
      · exact ih (n / 16) (by omega) h
      · rw [List.mem_singleton.mp h]
        exact hdigit _ (Nat.mod_lt n (by omega))

theorem writesDigits_sample : WritesDigits Hash := by
  intro id
  have hlist : (Hashing.toHex id).toList = Nat.toDigits 16 id.val := String.toList_ofList
  constructor
  · intro h
    rw [h] at hlist
    exact Nat.toDigits_ne_nil hlist.symm
  · intro c hc
    rw [hlist] at hc
    exact mem_toDigits_sixteen hc

/-- Two commits one after the other. -/
theorem todo_round_trips_timed :
    let s := sample (.tick 1 :: committed "a" 49 ++ .tick 2 :: committed "b" 50)
    let base := tipOf "main" (sample [])
    ∃ todo t plan u, generateRebaseTodo base s = (.ok todo, t) ∧
      parseRebaseTodo todo base t = (.ok plan, u) ∧
      (∀ e ∈ plan.entries, e.action = .pick) ∧ plan.entries.flatMap RebasePlanEntry.patchIds =
        [tipOf "main" (sample (.tick 1 :: committed "a" 49)), tipOf "main" s] := by
  intro s base
  obtain ⟨first, hfirst⟩ : ∃ p, s.dag.getPatch (tipOf "main" (sample (.tick 1 :: committed "a" 49))) =
      some p := Option.isSome_iff_exists.mp (by decide +kernel)
  obtain ⟨second, hsecond⟩ : ∃ p, s.dag.getPatch (tipOf "main" s) = some p :=
    Option.isSome_iff_exists.mp (by decide +kernel)
  have hhead : (head s).1 = .ok ("main", tipOf "main" s) := ok_of_toOption (by decide +kernel)
  have hall : ∀ p ∈ s.dag.getPatch (tipOf "main" (sample (.tick 1 :: committed "a" 49))),
      ∀ q ∈ s.dag.getPatch (tipOf "main" s),
        p.id = tipOf "main" (sample (.tick 1 :: committed "a" 49)) ∧ q.id = tipOf "main" s ∧
        s.dag.parents p.id = [base] ∧ s.dag.parents q.id = [p.id] ∧
        ([p, q].map fun p => shortHash p.id).Nodup ∧ keptOf [p, q] = [p, q] ∧
        [p, q].Pairwise ReplayBefore ∧
        ∀ p' ∈ leaders none [p, q], readLines todoLine (laterText p'.message) = [] := by
    decide +kernel
  obtain ⟨hid, hid', hparent, hparent', hshort, hkept, hordered, hlines⟩ :=
    hall first hfirst second hsecond
  have hline : PatchDag.Line s.dag base second.id [first, second] := by
    have hbase : PatchDag.Line s.dag base base [] := .base (by decide +kernel)
    have hone : PatchDag.Line s.dag base first.id ([] ++ [first]) :=
      .patch hbase (by rw [hid]; exact hfirst) hparent
    exact .patch hone (by rw [hid']; exact hsecond) hparent'
  have hloaded := (reachable_sample (.tick 1 :: committed "a" 49 ++ .tick 2 :: committed "b" 50)).valid.loaded
  obtain ⟨todo, t, plan, u, hgenerate, hparse, hiff⟩ := todo_round_trips_iff hloaded
    writesDigits_sample (hhead.trans (by rw [hid'])) hline hshort
  have hreadable : Readable [first, second] := by
    constructor
    · rw [hkept]
      exact hordered
    · intro p hp read hread
      rw [hkept] at hp
      rw [hlines p hp] at hread
      cases hread
  obtain ⟨hpicks, hids⟩ := hiff.mpr hreadable
  refine ⟨todo, t, plan, u, hgenerate, hparse, hpicks, ?_⟩
  rw [hids, hkept, ← hid, ← hid']
  rfl

/-- The second line of a message is read as an entry of its own. -/
theorem message_line_becomes_entry : ¬ ∀ (s : Repository Hash) (base tip : Hash)
    (line : List (Patch Hash)) (branch : String), Reachable s → (head s).1 = .ok (branch, tip) →
      PatchDag.Line s.dag base tip line → (line.map fun p => shortHash p.id).Nodup →
        ∃ todo t plan u, generateRebaseTodo base s = (.ok todo, t) ∧
          parseRebaseTodo todo base t = (.ok plan, u) ∧ PicksAll line plan := by
  intro h
  obtain ⟨s, hs⟩ : ∃ s, s = sample [.editFile "a" [49], .add "a", .commit "first\ndrop all of it"] :=
    ⟨_, rfl⟩
  obtain ⟨patch, hpatch⟩ : ∃ p, s.dag.getPatch (tipOf "main" s) = some p :=
    Option.isSome_iff_exists.mp (by rw [hs]; decide +kernel)
  have hhead : (head s).1 = .ok ("main", tipOf "main" s) := ok_of_toOption (by rw [hs]; decide +kernel)
  have hline : ∀ p ∈ s.dag.getPatch (tipOf "main" s), p.id = tipOf "main" s ∧
      s.dag.parents p.id = [tipOf "main" (sample [])] := by
    rw [hs]
    decide +kernel
  obtain ⟨hid, hparent⟩ := hline patch hpatch
  have hbase : PatchDag.Line s.dag (tipOf "main" (sample [])) (tipOf "main" (sample [])) [] :=
    .base (by rw [hs]; decide +kernel)
  have hread : ∀ p ∈ s.dag.getPatch (tipOf "main" s), (commitGroups [p]).filterMap List.head? = [p] ∧
      ¬ ∀ read ∈ readLines todoLine (pickLine p), read.1 = .pick := by
    rw [hs]
    decide +kernel
  obtain ⟨todo, t, plan, u, hgenerate, hparse, hpicks, -⟩ := h s (tipOf "main" (sample [])) patch.id
    ([] ++ [patch]) "main" (hs ▸ reachable_sample _) (by rw [hid]; exact hhead)
    (.patch hbase (by rw [hid]; exact hpatch) hparent) (List.nodup_singleton _)
  obtain ⟨hheads, hdrops⟩ := hread patch hpatch
  refine hdrops ?_
  intro read hmem
  obtain ⟨t₁, hfirst, ht₁, hhead₁, hline₁⟩ := patchesSinceBase_run
    (hs ▸ reachable_sample _).valid.loaded (by rw [hid]; exact hhead)
    (.patch hbase (by rw [hid]; exact hpatch) hparent)
  obtain ⟨u₁, hsecond, -⟩ := patchesSinceBase_run ht₁ hhead₁ hline₁
  have htodo := hgenerate.symm.trans (bind_of_ok hfirst)
  obtain ⟨rfl, rfl⟩ : todo = todoText (commitGroups [patch]) ∧ t = t₁ := by
    injection htodo with hok hstate
    exact ⟨Except.ok.inj hok, hstate⟩
  have hplan := hparse.symm.trans (bind_of_ok hsecond)
  obtain rfl : plan = planOf (commitGroups [patch]) (todoText (commitGroups [patch])) := by
    injection hplan with hok
    exact Except.ok.inj hok
  have hentry : planEntry (groupMap (commitGroups [patch])) read ∈
      (planOf (commitGroups [patch]) (todoText (commitGroups [patch]))).entries := by
    apply List.mem_map_of_mem (f := planEntry (groupMap (commitGroups [patch])))
    rw [readLines_todoText, hheads, List.flatMap_singleton]
    exact hmem
  have hpick := hpicks _ hentry
  exact (planEntry_action _ read).symm.trans hpick

end Suture.Repo
