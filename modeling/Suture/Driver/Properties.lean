import Mathlib.Data.String.Basic
import Suture.Engine.Reread
import Suture.Foundation.Fields
import Suture.Foundation.Rows
import Suture.Foundation.ThreeWay

/-!
# Merging properties files

A properties file is read as entries in their order, the last one of a key being its value.
What the merge writes is read again as the entries that were written.
-/

namespace Suture.Driver.Properties
set_option autoImplicit false
open Engine Foundation

/-! ### Reading -/

/-- An empty key means that no entry is open. -/
structure Reading where
  entries : List (String × String)
  continuation : List Char
  currentKey : List Char

def trimEnd (l : List Char) : List Char := l.rdropWhile isWhiteSpace

/-- The entries with the open one. -/
def Reading.closed (s : Reading) : List (String × String) :=
  if s.currentKey = [] then s.entries
  else s.entries ++ [(String.ofList s.currentKey, String.ofList (trimEnd s.continuation))]

def Reading.line (s : Reading) (line : String) : Reading :=
  let trimmed := trimBy isWhiteSpace line.toList
  if trimmed = [] ∨ trimmed.head? = some '#' ∨ trimmed.head? = some '!' then
    if s.currentKey = [] then s else ⟨s.closed, [], []⟩
  else if '=' ∈ trimmed then
    ⟨s.closed, trimBy isWhiteSpace ((trimmed.dropWhile fun c => c != '=').drop 1),
      trimBy isWhiteSpace (trimmed.takeWhile fun c => c != '=')⟩
  else if trimmed.getLast? = some '\\' then
    { s with continuation := s.continuation ++ trimmed.dropLast }
  else if s.currentKey = [] then s
  else ⟨{ s with continuation := s.continuation ++ trimmed }.closed, [], []⟩

def parseProperties (content : String) : List (String × String) :=
  ((textLines content).foldl Reading.line ⟨[], [], []⟩).closed

/-! ### Merging -/

def conflicts (base ours theirs : List (String × String)) (key : String) : Bool :=
  let baseVal := lastRow base key
  let oursVal := lastRow ours key
  let theirsVal := lastRow theirs key
  decide (oursVal ≠ baseVal) && decide (theirsVal ≠ baseVal) && decide (oursVal ≠ theirsVal)

/-- The entries that are written, each key once. -/
def mergedEntries (base ours theirs : List (String × String)) : List (String × String) :=
  let oursKeys := (ours.map Prod.fst).eraseDups
  let theirsKeys := (theirs.map Prod.fst).eraseDups.filter fun key => !oursKeys.contains key
  (oursKeys.filterMap fun key =>
    let mergedVal :=
      if lastRow ours key = lastRow base key then (lastRow theirs key).or (lastRow base key)
      else lastRow ours key
    mergedVal.map fun val => (key, val)) ++
  theirsKeys.filterMap fun key => (lastRow theirs key).map fun val => (key, val)

def writeEntry (entry : String × String) : String := entry.1 ++ "=" ++ entry.2

def writeProperties (entries : List (String × String)) : String :=
  String.join ((entries.map writeEntry).map (· ++ "\n"))

def mergeProperties (base ours theirs : List (String × String)) : Option String :=
  if ((base ++ ours ++ theirs).map Prod.fst).any (conflicts base ours theirs) then none
  else some (writeProperties (mergedEntries base ours theirs))

/-- `merge` of the driver; `none` is a conflict. -/
def merge (base ours theirs : String) : Option String :=
  mergeProperties (parseProperties base) (parseProperties ours) (parseProperties theirs)

/-! ### What was read -/

/-- An entry that is read again as it is written. -/
structure Plain (entry : String × String) : Prop where
  key_ne : entry.1.toList ≠ []
  key_trimmed : trimBy isWhiteSpace entry.1.toList = entry.1.toList
  key_start : entry.1.toList.head? ≠ some '#' ∧ entry.1.toList.head? ≠ some '!'
  key_noEquals : '=' ∉ entry.1.toList
  key_noNewline : '\n' ∉ entry.1.toList
  value_trimmed : trimBy isWhiteSpace entry.2.toList = entry.2.toList
  value_noNewline : '\n' ∉ entry.2.toList

/-- No blank at the start. -/
def Solid (l : List Char) : Prop := l.dropWhile isWhiteSpace = l

theorem Solid.append {a b : List Char} (ha : Solid a) (hb : Solid b) : Solid (a ++ b) := by
  unfold Solid at ha hb ⊢
  cases a with
  | nil => exact hb
  | cons c a =>
    rw [List.dropWhile_cons] at ha
    split at ha
    · have hlen := (List.dropWhile_sublist isWhiteSpace (l := a)).length_le
      rw [ha, List.length_cons] at hlen
      omega
    · rename_i hc
      rw [List.cons_append, List.dropWhile_cons_of_neg hc]

theorem Solid.of_begins {a b : List Char} (hb : Solid b) (h : a <+: b) : Solid a := by
  obtain ⟨rest, rfl⟩ := h
  cases a with
  | nil => rfl
  | cons c a =>
    unfold Solid at hb ⊢
    rw [List.cons_append, List.dropWhile_cons] at hb
    split at hb
    · have hlen := (List.dropWhile_sublist isWhiteSpace (l := a ++ rest)).length_le
      rw [hb, List.length_cons] at hlen
      omega
    · rename_i hc
      rw [List.dropWhile_cons_of_neg hc]

theorem Solid.trimBy_eq {l : List Char} (h : Solid l) : trimBy isWhiteSpace l = trimEnd l :=
  congrArg trimEnd h

theorem trimEnd_of_trimmed {l : List Char} (h : trimBy isWhiteSpace l = l) : trimEnd l = l := by
  rw [← h]
  exact List.rdropWhile_idempotent isWhiteSpace _

theorem trimBy_solid (l : List Char) : Solid (trimBy isWhiteSpace l) := by
  have hdrop : Solid (l.dropWhile isWhiteSpace) := List.dropWhile_idempotent isWhiteSpace l
  exact hdrop.of_begins (List.rdropWhile_prefix isWhiteSpace _)

structure Reading.Ok (s : Reading) : Prop where
  entries : ∀ entry ∈ s.entries, Plain entry
  key : s.currentKey ≠ [] → ∀ value : String, trimBy isWhiteSpace value.toList = value.toList →
    '\n' ∉ value.toList → Plain (String.ofList s.currentKey, value)
  solid : Solid s.continuation
  noNewline : '\n' ∉ s.continuation

theorem Reading.Ok.closed {s : Reading} (h : s.Ok) : ∀ entry ∈ s.closed, Plain entry := by
  unfold Reading.closed
  split
  · exact h.entries
  · rename_i hkey
    intro entry hentry
    rcases List.mem_append.mp hentry with hentry | hentry
    · exact h.entries entry hentry
    · rw [List.mem_singleton.mp hentry]
      refine h.key hkey _ ?_ fun hmem => ?_
      · rw [String.toList_ofList, ← h.solid.trimBy_eq, trimBy_trimBy]
      · rw [String.toList_ofList] at hmem
        exact h.noNewline ((List.rdropWhile_prefix isWhiteSpace _).subset hmem)

theorem Reading.Ok.idle {entries : List (String × String)} (h : ∀ entry ∈ entries, Plain entry) :
    Reading.Ok ⟨entries, [], []⟩ where
  entries := h
  key hkey := absurd rfl hkey
  solid := rfl
  noNewline := List.not_mem_nil

/-- A key that is cut from a trimmed line. -/
theorem plain_of_cut {trimmed : List Char} (hsolid : Solid trimmed)
    (hstart : trimmed.head? ≠ some '#' ∧ trimmed.head? ≠ some '!') (hnewline : '\n' ∉ trimmed)
    (hkey : trimBy isWhiteSpace (trimmed.takeWhile fun c => c != '=') ≠ []) {value : String}
    (hvalue : trimBy isWhiteSpace value.toList = value.toList) (hvalue' : '\n' ∉ value.toList) :
    Plain (String.ofList (trimBy isWhiteSpace (trimmed.takeWhile fun c => c != '=')), value) := by
  have hbegins := List.takeWhile_prefix (fun c => c != '=') (l := trimmed)
  have htrim := (hsolid.of_begins hbegins).trimBy_eq
  have hwhole : trimBy isWhiteSpace (trimmed.takeWhile fun c => c != '=') <+: trimmed := by
    rw [htrim]
    exact (List.rdropWhile_prefix isWhiteSpace _).trans hbegins
  have hhead : (trimBy isWhiteSpace (trimmed.takeWhile fun c => c != '=')).head? = trimmed.head? := by
    obtain ⟨rest, hrest⟩ := hwhole
    obtain ⟨c, l, hl⟩ := List.exists_cons_of_ne_nil hkey
    have hfirst := congrArg List.head? hrest
    rw [hl] at hfirst ⊢
    exact hfirst
  have hsub := trimBy_sublist isWhiteSpace (trimmed.takeWhile fun c => c != '=')
  refine ⟨?_, ?_, ?_, ?_, ?_, hvalue, hvalue'⟩ <;> rw [String.toList_ofList]
  · exact hkey
  · exact trimBy_trimBy ..
  · rw [hhead]
    exact hstart
  · intro hmem
    have := List.mem_takeWhile_imp (hsub.subset hmem)
    simp at this
  · exact fun hmem => hnewline (hwhole.subset hmem)

theorem Reading.line_ok {s : Reading} (h : s.Ok) {line : String} (hline : '\n' ∉ line.toList) :
    (s.line line).Ok := by
  have hsub := trimBy_sublist isWhiteSpace line.toList
  have hnewline : '\n' ∉ trimBy isWhiteSpace line.toList := fun hmem => hline (hsub.subset hmem)
  have hsolid := trimBy_solid line.toList
  unfold Reading.line
  generalize trimBy isWhiteSpace line.toList = trimmed at hnewline hsolid
  dsimp only
  split
  · split
    · exact h
    · exact .idle h.closed
  · rename_i hstart
    rw [not_or, not_or] at hstart
    split
    · refine ⟨h.closed, fun hkey value hvalue hvalue' => ?_, trimBy_solid _, fun hmem => ?_⟩
      · exact plain_of_cut hsolid hstart.2 hnewline hkey hvalue hvalue'
      · have hmem := (trimBy_sublist isWhiteSpace _).subset hmem
        exact hnewline ((List.dropWhile_sublist _).subset ((List.drop_sublist 1 _).subset hmem))
    · split
      · refine ⟨h.entries, h.key, h.solid.append (hsolid.of_begins (List.dropLast_prefix _)), ?_⟩
        intro hmem
        rcases List.mem_append.mp hmem with hmem | hmem
        · exact h.noNewline hmem
        · exact hnewline (List.mem_of_mem_dropLast hmem)
      · split
        · exact h
        · refine .idle (Reading.Ok.closed ⟨h.entries, h.key, h.solid.append hsolid, ?_⟩)
          intro hmem
          rcases List.mem_append.mp hmem with hmem | hmem
          · exact h.noNewline hmem
          · exact hnewline hmem

theorem parseProperties_plain (content : String) : ∀ entry ∈ parseProperties content, Plain entry := by
  have hall : ∀ (lines : List String) (s : Reading), s.Ok → (∀ line ∈ lines, '\n' ∉ line.toList) →
      (lines.foldl Reading.line s).Ok := by
    intro lines
    induction lines with
    | nil => exact fun s hs _ => hs
    | cons line lines ih =>
      intro s hs hlines
      exact ih _ (Reading.line_ok hs (hlines line (List.mem_cons_self ..)))
        fun l hl => hlines l (List.mem_cons_of_mem _ hl)
  exact (hall _ _ (.idle fun _ h => absurd h List.not_mem_nil) fun _ => newline_notMem_of_mem_textLines).closed

/-! ### Written and read again -/

theorem Plain.trimBy_writeEntry {entry : String × String} (h : Plain entry) :
    trimBy isWhiteSpace (writeEntry entry).toList = entry.1.toList ++ '=' :: entry.2.toList := by
  have hvalue : entry.2.toList.rdropWhile isWhiteSpace = entry.2.toList :=
    trimEnd_of_trimmed h.value_trimmed
  have hsolid : Solid (entry.1.toList ++ ['=']) := by
    refine Solid.append ?_ rfl
    rw [← h.key_trimmed]
    exact trimBy_solid _
  have htext : (writeEntry entry).toList = (entry.1.toList ++ ['=']) ++ entry.2.toList := by
    simp [writeEntry]
  have hstart : ((entry.1.toList ++ ['=']) ++ entry.2.toList).dropWhile isWhiteSpace =
      (entry.1.toList ++ ['=']) ++ entry.2.toList := by
    unfold Solid at hsolid
    rw [List.dropWhile_append, hsolid, if_neg (by simp)]
  unfold trimBy
  rw [htext, hstart, List.append_assoc, List.singleton_append, rdropWhile_append_of_solid rfl, hvalue]

theorem Plain.line_writeEntry {entry : String × String} (h : Plain entry) (s : Reading) :
    s.line (writeEntry entry) = ⟨s.closed, entry.2.toList, entry.1.toList⟩ := by
  obtain ⟨c, key, hkey⟩ := List.exists_cons_of_ne_nil h.key_ne
  have hnotEq : ∀ c ∈ entry.1.toList, (c != '=') = true := by
    intro c hc
    exact bne_iff_ne.mpr fun heq => h.key_noEquals (heq ▸ hc)
  have hstart : ¬ (entry.1.toList ++ '=' :: entry.2.toList = [] ∨
      (entry.1.toList ++ '=' :: entry.2.toList).head? = some '#' ∨
      (entry.1.toList ++ '=' :: entry.2.toList).head? = some '!') := by
    have := h.key_start
    rw [hkey] at this ⊢
    simpa using this
  unfold Reading.line
  rw [h.trimBy_writeEntry]
  dsimp only
  rw [if_neg hstart, if_pos (by simp), List.takeWhile_append_of_pos hnotEq,
    List.dropWhile_append_of_pos hnotEq]
  simp [h.key_trimmed, h.value_trimmed]

theorem foldl_line_entries {entries : List (String × String)} (h : ∀ entry ∈ entries, Plain entry)
    (s : Reading) :
    ((entries.map writeEntry).foldl Reading.line s).closed = s.closed ++ entries := by
  induction entries generalizing s with
  | nil => exact (List.append_nil _).symm
  | cons entry entries ih =>
    have hentry := h entry (List.mem_cons_self ..)
    have hclosed : Reading.closed ⟨s.closed, entry.2.toList, entry.1.toList⟩ = s.closed ++ [entry] := by
      unfold Reading.closed
      rw [if_neg hentry.key_ne, trimEnd_of_trimmed hentry.value_trimmed, String.ofList_toList, String.ofList_toList]
    rw [List.map_cons, List.foldl_cons, hentry.line_writeEntry,
      ih (fun e he => h e (List.mem_cons_of_mem _ he)), hclosed, List.append_assoc]
    rfl

theorem Plain.bareLine_writeEntry {entry : String × String} (h : Plain entry) :
    bareLine (writeEntry entry) = writeEntry entry := by
  refine if_neg fun hlast => ?_
  obtain ⟨init, hinit⟩ := List.getLast?_eq_some_iff.mp hlast
  have htrim := congrArg List.length h.trimBy_writeEntry
  rw [hinit, trimBy_concat_blank rfl] at htrim
  have hle := (trimBy_sublist isWhiteSpace init).length_le
  have hlen := congrArg List.length hinit
  simp [writeEntry] at htrim hlen
  omega

/-- What is written is read again. -/
theorem parseProperties_writeProperties {entries : List (String × String)}
    (h : ∀ entry ∈ entries, Plain entry) : parseProperties (writeProperties entries) = entries := by
  have hnewline : ∀ line ∈ entries.map writeEntry, '\n' ∉ line.toList := by
    intro line hline
    obtain ⟨entry, hentry, rfl⟩ := List.mem_map.mp hline
    have := (h entry hentry).key_noNewline
    have := (h entry hentry).value_noNewline
    simp_all [writeEntry]
  have hbare : (entries.map writeEntry).map bareLine = entries.map writeEntry := by
    rw [List.map_map]
    exact List.map_congr_left fun entry hentry => (h entry hentry).bareLine_writeEntry
  unfold parseProperties writeProperties
  rw [textLines_join hnewline, hbare]
  exact foldl_line_entries h _

/-! ### The merged values -/

section
variable {base ours theirs : List (String × String)}

/-- The value that is written for a key. -/
def mergedVal (base ours theirs : List (String × String)) (key : String) : Option String :=
  if lastRow ours key = none then lastRow theirs key
  else if lastRow ours key = lastRow base key then (lastRow theirs key).or (lastRow base key)
  else lastRow ours key

theorem mem_keys_iff {entries : List (String × String)} {key : String} :
    key ∈ (entries.map Prod.fst).eraseDups ↔ lastRow entries key ≠ none := by
  rw [List.mem_eraseDups, Ne, lastRow_eq_none_iff, List.mem_map]
  simp

theorem mergedVal_of_mem {entry : String × String} (h : entry ∈ mergedEntries base ours theirs) :
    mergedVal base ours theirs entry.1 = some entry.2 := by
  unfold mergedVal
  rcases List.mem_append.mp h with h | h
  · obtain ⟨k, hk, hval⟩ := List.mem_filterMap.mp h
    obtain ⟨v, hv, rfl⟩ := Option.map_eq_some_iff.mp hval
    rw [if_neg (mem_keys_iff.mp hk)]
    exact hv
  · obtain ⟨k, hk, hval⟩ := List.mem_filterMap.mp h
    obtain ⟨v, hv, rfl⟩ := Option.map_eq_some_iff.mp hval
    have hnone : lastRow ours k = none := by
      have := (List.mem_filter.mp hk).2
      rw [Bool.not_eq_true', List.contains_eq_mem, decide_eq_false_iff_not, mem_keys_iff,
        not_not] at this
      exact this
    rw [if_pos hnone]
    exact hv

theorem lastRow_mergedEntries (key : String) :
    lastRow (mergedEntries base ours theirs) key = mergedVal base ours theirs key := by
  rw [SortedMap.lastRow_of_agree fun _ hentry => mergedVal_of_mem hentry]
  split
  · rfl
  · rename_i hno
    cases hval : mergedVal base ours theirs key with
    | none => rfl
    | some v =>
      refine absurd (List.mem_map.mpr ⟨(key, v), ?_, rfl⟩) hno
      unfold mergedVal at hval
      unfold mergedEntries
      rw [List.mem_append, List.mem_filterMap, List.mem_filterMap]
      by_cases hours : lastRow ours key = none
      · rw [if_pos hours] at hval
        refine .inr ⟨key, List.mem_filter.mpr ⟨mem_keys_iff.mpr (by rw [hval]; nofun), ?_⟩, by rw [hval]; rfl⟩
        rw [Bool.not_eq_true', List.contains_eq_mem, decide_eq_false_iff_not, mem_keys_iff, not_not]
        exact hours
      · rw [if_neg hours] at hval
        exact .inl ⟨key, mem_keys_iff.mpr hours, by dsimp only; rw [hval]; rfl⟩

/-- A key of base that one side deleted and the other did not change. -/
def OneDeleted (base ours theirs : Option String) : Prop :=
  base ≠ none ∧ (ours = none ∧ theirs = base ∨ ours = base ∧ theirs = none)

theorem mergedVal_eq {key : String} (h : conflicts base ours theirs key = false) :
    (OneDeleted (lastRow base key) (lastRow ours key) (lastRow theirs key) →
      mergedVal base ours theirs key = lastRow base key) ∧
    (¬ OneDeleted (lastRow base key) (lastRow ours key) (lastRow theirs key) →
      threeWay (lastRow base key) (lastRow ours key) (lastRow theirs key) =
        some (mergedVal base ours theirs key)) := by
  have hclean : lastRow ours key = lastRow base key ∨ lastRow theirs key = lastRow base key ∨
      lastRow ours key = lastRow theirs key := by
    unfold conflicts at h
    simp only [Bool.and_eq_false_iff, decide_eq_false_iff_not, not_not] at h
    exact or_assoc.mp h
  unfold mergedVal
  generalize lastRow base key = b at hclean ⊢
  generalize lastRow ours key = o at hclean ⊢
  generalize lastRow theirs key = t at hclean ⊢
  constructor
  · rintro ⟨hb, ⟨rfl, rfl⟩ | ⟨rfl, rfl⟩⟩
    · exact if_pos rfl
    · rw [if_neg hb, if_pos rfl, Option.none_or]
  · intro hkept
    by_cases ho : o = none
    · subst ho
      rw [if_pos rfl]
      rcases hclean with rfl | rfl | rfl
      · exact threeWay_base_left ..
      · by_cases hb : t = none
        · rw [hb, threeWay_same]
        · exact absurd ⟨hb, .inl ⟨rfl, rfl⟩⟩ hkept
      · exact threeWay_same ..
    · rw [if_neg ho]
      by_cases hob : o = b
      · subst hob
        rw [if_pos rfl, threeWay_base_left]
        cases t with
        | none => exact absurd ⟨ho, .inr ⟨rfl, rfl⟩⟩ hkept
        | some v => rfl
      · rw [if_neg hob]
        rcases hclean with heq | rfl | rfl
        · exact absurd heq hob
        · exact threeWay_base_right ..
        · exact threeWay_same ..

theorem mergedVal_mem {key v : String} (h : mergedVal base ours theirs key = some v) :
    (key, v) ∈ base ∨ (key, v) ∈ ours ∨ (key, v) ∈ theirs := by
  unfold mergedVal at h
  split at h
  · exact .inr (.inr (lastRow_mem h))
  · split at h
    · rcases Option.or_eq_some_iff.mp h with h | ⟨-, h⟩
      · exact .inr (.inr (lastRow_mem h))
      · exact .inl (lastRow_mem h)
    · exact .inr (.inl (lastRow_mem h))

end

/-- The merge is three-way for each key, except that a key that only one side deleted stays. -/
theorem merge_values {base ours theirs m : String} (h : merge base ours theirs = some m)
    (key : String) :
    let b := lastRow (parseProperties base) key
    let o := lastRow (parseProperties ours) key
    let t := lastRow (parseProperties theirs) key
    (OneDeleted b o t → lastRow (parseProperties m) key = b) ∧
      (¬ OneDeleted b o t → threeWay b o t = some (lastRow (parseProperties m) key)) := by
  have hb := parseProperties_plain base
  have ho := parseProperties_plain ours
  have ht := parseProperties_plain theirs
  unfold merge mergeProperties at h
  generalize parseProperties base = b at h hb ⊢
  generalize parseProperties ours = o at h ho ⊢
  generalize parseProperties theirs = t at h ht ⊢
  split at h
  · cases h
  rename_i hclean
  rw [Option.some.injEq] at h
  have hplain : ∀ entry ∈ mergedEntries b o t, Plain entry := by
    intro entry hentry
    rcases mergedVal_mem (mergedVal_of_mem hentry) with hmem | hmem | hmem
    · exact hb _ hmem
    · exact ho _ hmem
    · exact ht _ hmem
  have hkey : conflicts b o t key = false := by
    by_cases hin : key ∈ (b ++ o ++ t).map Prod.fst
    · by_contra hconflict
      exact hclean (List.any_eq_true.mpr ⟨key, hin, Bool.eq_true_of_not_eq_false hconflict⟩)
    · have hnone : ∀ entries : List (String × String), (∀ e ∈ entries, e ∈ b ++ o ++ t) →
          lastRow entries key = none := fun entries hsub =>
        lastRow_eq_none_iff.mpr fun e he heq => hin (heq ▸ List.mem_map_of_mem (hsub e he))
      unfold conflicts
      rw [hnone b (by simp +contextual), hnone o (by simp +contextual)]
      rfl
  rw [← h, parseProperties_writeProperties hplain, lastRow_mergedEntries]
  exact mergedVal_eq hkey

theorem merge_values_hosts :
    let b := lastRow (parseProperties "host = a\nport = 1 \\\n 2") "port"
    let o := lastRow (parseProperties "host = b\nport = 1 \\\n 2") "port"
    let t := lastRow (parseProperties "host = a\nport = 1 \\\n 2\nuser = x") "port"
    (OneDeleted b o t → lastRow (parseProperties "host=b\nport=1 \\2\nuser=x\n") "port" = b) ∧
      (¬ OneDeleted b o t →
        threeWay b o t = some (lastRow (parseProperties "host=b\nport=1 \\2\nuser=x\n") "port")) :=
  merge_values (by decide +kernel) "port"

/-- A key that ours deleted is taken from theirs. -/
theorem deleted_key_kept : ¬ ∀ (base ours theirs m : String), merge base ours theirs = some m →
    ∀ key, threeWay (lastRow (parseProperties base) key) (lastRow (parseProperties ours) key)
      (lastRow (parseProperties theirs) key) = some (lastRow (parseProperties m) key) := fun h =>
  absurd (h "a=1" "" "a=1" "a=1\n" (by decide +kernel) "a") (by decide +kernel)

end Suture.Driver.Properties
