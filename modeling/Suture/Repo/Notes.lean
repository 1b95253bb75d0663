import Suture.Foundation.Run
import Suture.Foundation.Slots
import Suture.Repo.Machine

/-!
# Notes

The notes of a commit are rows of the settings table under numbered keys. A note is added
under the count of the notes and removed by its place in their list, so the list and the
numbers agree only while no number below is free.
-/

namespace Suture.Repo
set_option autoImplicit false
open Foundation Common Patches

/-- The `config` table. -/
abbrev Config := SortedMap String String

inductive NoteError where
  | noteIndexOutOfRange (index count : Nat)
deriving DecidableEq

section Numbers

/-- `str::parse::<usize>`: an optional plus, then digits, below the bound of the type. -/
def parseUsize (text : List Char) : Option Nat :=
  let digits := match text with
    | '+' :: rest => rest
    | _ => text
  if digits = [] ∨ digits.all Char.isDigit = false then none
  else
    let n := Nat.ofDigitChars 10 digits 0
    if n < 2 ^ 64 then some n else none

theorem parseUsize_lt {text : List Char} {n : Nat} (h : parseUsize text = some n) : n < 2 ^ 64 := by
  unfold parseUsize at h
  extract_lets digits at h
  split at h
  · cases h
  · split at h
    · rename_i hlt
      exact Option.some.inj h ▸ hlt
    · cases h

theorem toDigits_head_ne {n : Nat} {rest : List Char} : Nat.toDigits 10 n ≠ '+' :: rest := by
  intro h
  have hmem : '+' ∈ Nat.toDigits 10 n := by simp [h]
  have hdigit := Nat.isDigit_of_mem_toDigits (by decide) (by decide) hmem
  exact absurd hdigit (by decide)

theorem parseUsize_toDigits {n : Nat} (h : n < 2 ^ 64) :
    parseUsize (Nat.toDigits 10 n) = some n := by
  have hplain : (match Nat.toDigits 10 n with
      | '+' :: rest => rest
      | _ => Nat.toDigits 10 n) = Nat.toDigits 10 n := by
    split
    · rename_i heq
      exact absurd heq toDigits_head_ne
    · rfl
  have hdigits : (Nat.toDigits 10 n).all Char.isDigit = true := by
    rw [List.all_eq_true]
    intro c hc
    exact Nat.isDigit_of_mem_toDigits (by decide) (by decide) hc
  unfold parseUsize
  dsimp only
  rw [hplain, if_neg, Nat.ofDigitChars_ten_toDigits, if_pos h]
  rintro (hnil | hall)
  · exact Nat.toDigits_ne_nil hnil
  · rw [hdigits] at hall
    cases hall

end Numbers

section Keys
variable {H : Type} [Hashing H]

/-- How a hash is displayed: the first twelve of its digits. -/
def shortForm (hash : H) : String := String.ofList ((Hashing.toHex hash).toList.take 12) ++ "…"

def notePrefix (patchId : H) : String := "note." ++ shortForm patchId ++ "."

def noteKey (patchId : H) (idx : Nat) : String := notePrefix patchId ++ toString idx

/-- The number in a key of the commit's notes. -/
def noteIndex (patchId : H) (key : String) : Option Nat :=
  if (notePrefix patchId).toList.isPrefixOf key.toList then
    parseUsize (key.toList.drop (notePrefix patchId).toList.length)
  else none

/-- The notes of a commit with their numbers, in the order of the numbers. -/
def numberedNotes (patchId : H) (config : Config) : List (Nat × String) :=
  (config.entries.filterMap fun e => (noteIndex patchId e.1).map fun idx => (idx, e.2)).insertionSort
    fun a b => a.1 ≤ b.1

def listNotes (patchId : H) (config : Config) : List String :=
  (numberedNotes patchId config).map Prod.snd

def addNote (patchId : H) (note : String) (config : Config) : Config :=
  config.insert (noteKey patchId (listNotes patchId config).length) note

def removeNote (patchId : H) (index : Nat) (config : Config) : Except NoteError Config :=
  let count := (listNotes patchId config).length
  if index ≥ count then .error (.noteIndexOutOfRange index count)
  else .ok (config.erase (noteKey patchId index))

theorem noteIndex_noteKey (patchId : H) {i : Nat} (h : i < 2 ^ 64) :
    noteIndex patchId (noteKey patchId i) = some i := by
  have hkey : (noteKey patchId i).toList = (notePrefix patchId).toList ++ Nat.toDigits 10 i := by
    rw [noteKey, String.toList_append, Nat.toString_eq_ofList_toDigits, String.toList_ofList]
  rw [noteIndex, hkey, if_pos (List.isPrefixOf_iff_prefix.mpr (List.prefix_append ..)),
    List.drop_left, parseUsize_toDigits h]

theorem noteIndex_lt {patchId : H} {key : String} {i : Nat} (h : noteIndex patchId key = some i) :
    i < 2 ^ 64 := by
  rw [noteIndex] at h
  split at h
  · exact parseUsize_lt h
  · cases h

end Keys

section Numbered
variable {H : Type} [Hashing H] {patchId : H} {config : Config}

/-- Every key that counts as a note of the commit is one that `add_note` writes. -/
def Canonical (patchId : H) (config : Config) : Prop :=
  ∀ key, config.get key ≠ none → ∀ i, noteIndex patchId key = some i → key = noteKey patchId i

theorem mem_numberedNotes {i : Nat} {note : String} :
    (i, note) ∈ numberedNotes patchId config ↔
      ∃ key, config.get key = some note ∧ noteIndex patchId key = some i := by
  rw [numberedNotes, (List.perm_insertionSort _ _).mem_iff, List.mem_filterMap]
  constructor
  · intro ⟨⟨key, v⟩, hmem, h⟩
    obtain ⟨j, hj, hpair⟩ := Option.map_eq_some_iff.mp h
    obtain ⟨rfl, rfl⟩ := Prod.mk.inj hpair
    exact ⟨key, SortedMap.mem_entries.mp hmem, hj⟩
  · intro ⟨key, hget, hidx⟩
    exact ⟨(key, note), SortedMap.mem_entries.mpr hget, by simp [hidx]⟩

theorem Canonical.mem_iff (hc : Canonical patchId config) {i : Nat} {note : String} :
    (i, note) ∈ numberedNotes patchId config ↔
      i < 2 ^ 64 ∧ config.get (noteKey patchId i) = some note := by
  rw [mem_numberedNotes]
  constructor
  · intro ⟨key, hget, hidx⟩
    have hkey := hc key (by simp [hget]) i hidx
    exact ⟨noteIndex_lt hidx, hkey ▸ hget⟩
  · intro ⟨hlt, hget⟩
    exact ⟨_, hget, noteIndex_noteKey patchId hlt⟩

/-- Two rows with one number would be two canonical keys of that number. -/
theorem Canonical.sorted (hc : Canonical patchId config) :
    Assoc.Sorted (numberedNotes patchId config) := by
  have htotal : Std.Total fun a b : Nat × String => a.1 ≤ b.1 := ⟨fun _ _ => Nat.le_total _ _⟩
  have htrans : IsTrans (Nat × String) fun a b => a.1 ≤ b.1 := ⟨fun _ _ _ => Nat.le_trans⟩
  have hle := List.pairwise_insertionSort (fun a b : Nat × String => a.1 ≤ b.1)
    (config.entries.filterMap fun e => (noteIndex patchId e.1).map fun idx => (idx, e.2))
  have hne : (config.entries.filterMap fun e =>
      (noteIndex patchId e.1).map fun idx => (idx, e.2)).Pairwise fun a b => a.1 ≠ b.1 := by
    rw [List.pairwise_filterMap]
    apply config.sorted.imp_of_mem
    intro ⟨key, v⟩ ⟨key', v'⟩ hmem hmem' hlt a ha b hb heq
    obtain ⟨i, hi, rfl⟩ := Option.map_eq_some_iff.mp ha
    obtain ⟨j, hj, rfl⟩ := Option.map_eq_some_iff.mp hb
    obtain rfl : i = j := heq
    have hkey := hc key (by simp [SortedMap.mem_entries.mp hmem]) i hi
    have hkey' := hc key' (by simp [SortedMap.mem_entries.mp hmem']) i hj
    exact absurd (hkey.trans hkey'.symm) hlt.ne
  have hne := (List.perm_insertionSort (fun a b : Nat × String => a.1 ≤ b.1) _).symm.pairwise hne
    fun h => h.symm
  exact (hle.and hne).imp fun h => Nat.lt_of_le_of_ne h.1 h.2

/-- The notes as a map from their numbers. -/
def slots (hc : Canonical patchId config) : SortedMap Nat String :=
  ⟨numberedNotes patchId config, hc.sorted⟩

theorem values_slots (hc : Canonical patchId config) :
    (slots hc).values = listNotes patchId config := rfl

theorem get_slots (hc : Canonical patchId config) (i : Nat) :
    (slots hc).get i = if i < 2 ^ 64 then config.get (noteKey patchId i) else none := by
  apply Option.ext
  intro note
  rw [← SortedMap.mem_entries]
  change (i, note) ∈ numberedNotes patchId config ↔ _
  rw [hc.mem_iff]
  by_cases hi : i < 2 ^ 64
  · rw [if_pos hi]
    exact and_iff_right hi
  · rw [if_neg hi]
    exact ⟨fun h => absurd h.1 hi, fun h => by cases h⟩

theorem length_slots (hc : Canonical patchId config) :
    (slots hc).entries.length = (listNotes patchId config).length := by
  rw [← values_slots hc, SortedMap.length_values]

theorem slots_filled (hc : Canonical patchId config) {n : Nat} (hn : n ≤ 2 ^ 64)
    (h : ∀ i < n, config.contains (noteKey patchId i) = true) : (slots hc).Filled n := by
  intro i hi
  rw [SortedMap.contains_eq, get_slots, if_pos (by omega)]
  exact h i hi

theorem noteKey_inj {i j : Nat} (hi : i < 2 ^ 64) (hj : j < 2 ^ 64) :
    noteKey patchId i = noteKey patchId j ↔ i = j := by
  constructor
  · intro h
    have := noteIndex_noteKey patchId hi
    rw [h, noteIndex_noteKey patchId hj] at this
    exact (Option.some.inj this).symm
  · exact fun h => h ▸ rfl

theorem Canonical.insert (hc : Canonical patchId config) {n : Nat} (hn : n < 2 ^ 64)
    (note : String) : Canonical patchId (config.insert (noteKey patchId n) note) := by
  intro key hkey i hidx
  rw [SortedMap.get_insert] at hkey
  split at hkey
  · rename_i heq
    rw [heq, noteIndex_noteKey patchId hn] at hidx
    rw [heq, Option.some.inj hidx]
  · exact hc key hkey i hidx

theorem Canonical.erase (hc : Canonical patchId config) (k : String) :
    Canonical patchId (config.erase k) := by
  intro key hkey i hidx
  rw [SortedMap.get_erase] at hkey
  split at hkey
  · cases hkey rfl
  · exact hc key hkey i hidx

theorem slots_insert (hc : Canonical patchId config) {n : Nat} (hn : n < 2 ^ 64) (note : String) :
    slots (hc.insert hn note) = (slots hc).insert n note := by
  apply SortedMap.ext
  intro i
  rw [get_slots, SortedMap.get_insert, SortedMap.get_insert, get_slots]
  by_cases hi : i < 2 ^ 64
  · simp only [if_pos hi, noteKey_inj hi hn]
  · rw [if_neg hi, if_neg hi, if_neg (by omega)]

theorem slots_erase (hc : Canonical patchId config) {n : Nat} (hn : n < 2 ^ 64) :
    slots (hc.erase (noteKey patchId n)) = (slots hc).erase n := by
  apply SortedMap.ext
  intro i
  rw [get_slots, SortedMap.get_erase, SortedMap.get_erase, get_slots]
  by_cases hi : i < 2 ^ 64
  · simp only [if_pos hi, noteKey_inj hi hn]
  · rw [if_neg hi, if_neg hi, if_neg (by omega)]

theorem canonical_of_empty (h : listNotes patchId config = []) : Canonical patchId config := by
  have hnil : numberedNotes patchId config = [] := List.map_eq_nil_iff.mp h
  intro key hkey i hidx
  obtain ⟨note, hnote⟩ := Option.ne_none_iff_exists'.mp hkey
  have hmem : (i, note) ∈ numberedNotes patchId config := mem_numberedNotes.mpr ⟨key, hnote, hidx⟩
  rw [hnil] at hmem
  cases hmem

end Numbered

/-! ### Runs of calls on one commit -/

inductive NoteCall where
  | add (note : String)
  | remove (index : Nat)
deriving DecidableEq

section Calls
variable {H : Type} [Hashing H] (patchId : H)

/-- The table after a call; a call that fails leaves it. -/
def nextNotes (config : Config) : NoteCall → Config
  | .add note => addNote patchId note config
  | .remove index =>
    match removeNote patchId index config with
    | .ok config => config
    | .error _ => config

/-- The list that a call should make of the notes. -/
def NoteCall.expected (notes : List String) : NoteCall → List String
  | .add note => notes ++ [note]
  | .remove index => notes.eraseIdx index

/-- No number that the call relies on is free: for a note that is added, none below the
count of the notes; for one that is removed, none up to its place. -/
def NoGap (config : Config) : NoteCall → Prop
  | .add _ =>
    let count := (listNotes patchId config).length
    count < 2 ^ 64 ∧ ∀ i < count, config.contains (noteKey patchId i) = true
  | .remove index =>
    (listNotes patchId config).length ≤ index ∨
      ∀ i < index + 1, config.contains (noteKey patchId i) = true

instance (config : Config) : DecidablePred (NoGap patchId config)
  | .add _ => inferInstanceAs (Decidable (_ ∧ _))
  | .remove _ => inferInstanceAs (Decidable (_ ∨ _))

variable {patchId} {config : Config}

theorem addNote_listed (hc : Canonical patchId config) {note : String}
    (h : NoGap patchId config (.add note)) :
    Canonical patchId (addNote patchId note config) ∧
      listNotes patchId (addNote patchId note config) = listNotes patchId config ++ [note] := by
  obtain ⟨hcount, hkeys⟩ := h
  have hc' := hc.insert hcount note
  have hfilled : (slots hc).Filled (slots hc).entries.length := by
    rw [length_slots]
    exact slots_filled hc hcount.le hkeys
  refine ⟨hc', ?_⟩
  have hlisted := hfilled.values_insert note
  rw [length_slots, ← slots_insert hc hcount] at hlisted
  exact hlisted

theorem removeNote_listed (hc : Canonical patchId config) {index : Nat}
    (h : NoGap patchId config (.remove index)) :
    Canonical patchId (nextNotes patchId config (.remove index)) ∧
      listNotes patchId (nextNotes patchId config (.remove index)) =
        (listNotes patchId config).eraseIdx index := by
  by_cases hrange : (listNotes patchId config).length ≤ index
  · have hnext : nextNotes patchId config (.remove index) = config := by
      rw [nextNotes, removeNote, if_pos hrange]
    rw [hnext, List.eraseIdx_of_length_le hrange]
    exact ⟨hc, rfl⟩
  · have hnext : nextNotes patchId config (.remove index) =
        config.erase (noteKey patchId index) := by
      rw [nextNotes, removeNote, if_neg hrange]
    have hplace : index < (slots hc).entries.length := by
      rw [length_slots]
      omega
    -- the number at a place is at least the place, and every number is below the bound
    have hlt : index < 2 ^ 64 := by
      have hle := SortedMap.place_le hplace
      have hmem := List.getElem_mem hplace
      have := (hc.mem_iff.mp (show ((slots hc).entries[index].1, (slots hc).entries[index].2) ∈ _
        from hmem)).1
      omega
    have hfilled := slots_filled hc (n := index + 1) hlt (h.resolve_left hrange)
    rw [hnext]
    refine ⟨hc.erase _, ?_⟩
    have hlisted := hfilled.values_erase
    rw [← slots_erase hc hlt] at hlisted
    exact hlisted

theorem nextNotes_listed (hc : Canonical patchId config) {call : NoteCall}
    (h : NoGap patchId config call) :
    Canonical patchId (nextNotes patchId config call) ∧
      listNotes patchId (nextNotes patchId config call) =
        call.expected (listNotes patchId config) := by
  cases call with
  | add note => exact addNote_listed hc h
  | remove index => exact removeNote_listed hc h

theorem listed_of_canonical {calls : List NoteCall} (hc : Canonical patchId config)
    (h : Run.Allows (nextNotes patchId) (NoGap patchId) config calls) :
    listNotes patchId (calls.foldl (nextNotes patchId) config) =
      calls.foldl NoteCall.expected (listNotes patchId config) := by
  induction calls generalizing config with
  | nil => rfl
  | cons call calls ih =>
    obtain ⟨hc', hlisted⟩ := nextNotes_listed hc h.1
    rw [List.foldl_cons, List.foldl_cons, ih hc' h.2, hlisted]

/-- On a commit that had no notes, calls that rely on no free number keep its notes as a
list: what is added goes to the end, what is removed goes from its place. -/
theorem notes_as_list {calls : List NoteCall} (hnew : listNotes patchId config = [])
    (h : Run.Allows (nextNotes patchId) (NoGap patchId) config calls) :
    listNotes patchId (calls.foldl (nextNotes patchId) config) =
      calls.foldl NoteCall.expected [] := by
  rw [listed_of_canonical (canonical_of_empty hnew) h, hnew]

end Calls

/-! ### Two runs -/

def notedCommit : Hash := Hashing.zero

theorem notes_as_list_last :
    listNotes notedCommit ([.add "a", .add "b", .remove 1, .add "c"].foldl
      (nextNotes notedCommit) .empty) = ["a", "c"] :=
  notes_as_list (by decide +kernel) (by decide +kernel)

/-- Two notes are added and the first is removed; the next one is stored over the second. -/
theorem note_overwritten :
    let config := [.add "a", .add "b", .remove 0].foldl (nextNotes notedCommit) .empty
    listNotes notedCommit config = ["b"] ∧
      listNotes notedCommit (nextNotes notedCommit config (.add "c")) = ["c"] ∧
      NoteCall.expected ["b"] (.add "c") = ["b", "c"] := by
  decide +kernel

end Suture.Repo
