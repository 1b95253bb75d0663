import Suture.Foundation.Paging
import Suture.Repo.Notes
import Suture.Wire.Backup
import Suture.Wire.Base64

/-!
# Pages of the hub's lists

A list of the hub is handed out a page at a time, each with a cursor for the next. Four
bounds meet in a page of patches: the limit of the request, the largest limit of the handler,
the row that is looked at beyond the page, and the largest page of the store.
-/

namespace Suture.Wire
set_option autoImplicit false
open Foundation

/-! ### Cursors -/

/-- Base64 and the JSON of an offset, of which a cursor is made. -/
structure CursorLibrary where
  base64Decode : String → Option Bytes
  toVec : UInt64 → Bytes
  fromSlice : Bytes → Option UInt64
  decode_encode : ∀ data, base64Decode (base64Encode data) = some data
  from_to : ∀ offset, fromSlice (toVec offset) = some offset

variable (lib : CursorLibrary)

def encodeCursor (offset : UInt64) : String := base64Encode (lib.toVec offset)

def decodeCursor (cursor : String) : Option UInt64 :=
  (lib.base64Decode cursor).bind lib.fromSlice

theorem decodeCursor_encodeCursor (offset : UInt64) :
    decodeCursor lib (encodeCursor lib offset) = some offset := by
  rw [decodeCursor, encodeCursor, lib.decode_encode, Option.bind_some, lib.from_to]

/-- The place that a cursor stands for, and the cursor of a place. -/
def placeOf (cursor : Option String) : Nat :=
  ((cursor.bind (decodeCursor lib)).getD 0).toNat

def cursorOf (place : Nat) : Option String := some (encodeCursor lib (.ofNat place))

theorem placeOf_cursorOf {place : Nat} (h : place < 2 ^ 64) :
    placeOf lib (cursorOf lib place) = place := by
  rw [placeOf, cursorOf, Option.bind_some, decodeCursor_encodeCursor, Option.getD_some,
    UInt64.toNat_ofNat_of_lt' h]

/-! ### Patches -/

namespace Database
variable (d : Database) (limits : Limits) (repoId : String)

/-- The cursor goes on by the limit of the request, whatever the page holds. -/
def handleRepoPatchesCursor (offset : UInt64) (limit : UInt32) :
    List PatchProto × Option String :=
  let effectiveLimit := min limit.toNat 200
  let patches := d.getAllPatches limits repoId offset.toNat (effectiveLimit + 1)
  let hasMore := decide (patches.length > effectiveLimit)
  (if hasMore then patches.take effectiveLimit else patches,
    if hasMore then some (encodeCursor lib (offset + limit.toUInt64)) else none)

/-- The request with the cursor of the page before; the first has none. -/
def patchesPage (limit : UInt32) (cursor : Option String) :
    List PatchProto × Option (Option String) :=
  let (patches, nextCursor) :=
    d.handleRepoPatchesCursor lib limits repoId ((cursor.bind (decodeCursor lib)).getD 0) limit
  (patches, nextCursor.map some)

/-- By time, then by id. -/
def InOrder (a b : PatchProto) : Prop :=
  a.timestamp < b.timestamp ∨ a.timestamp = b.timestamp ∧ a.id.value ≤ b.id.value

/-- The pages end, and hold every patch once and in order. -/
def EnumeratesPatches (limit : UInt32) : Prop :=
  ∃ all, Followed (d.patchesPage lib limits repoId limit) none all ∧
    all.Perm (d.patchesOf repoId) ∧ all.Pairwise InOrder

end Database

/-! ### Pages as windows -/

/-- The time that the row has. -/
def rowTime (patch : PatchProto) : Int := patch.timestamp.toInt64.toInt

theorem earlier_iff {a b : PatchProto} : earlier a b = true ↔
    rowTime a < rowTime b ∨ rowTime a = rowTime b ∧ a.id.value ≤ b.id.value := by
  have htime : a.timestamp = b.timestamp ↔ rowTime a = rowTime b := by
    constructor
    · intro h
      rw [rowTime, h, rowTime]
    · intro h
      have hback := congrArg Int64.toUInt64 (Int64.toInt_inj.mp h)
      rwa [UInt64.toUInt64_toInt64, UInt64.toUInt64_toInt64] at hback
  unfold earlier
  rw [Bool.or_eq_true, Bool.and_eq_true, decide_eq_true_eq, decide_eq_true_eq, decide_eq_true_eq,
    Int64.lt_iff_toInt_lt, htime]
  rfl

theorem rowTime_eq (patch : PatchProto) : rowTime patch =
    if patch.timestamp.toNat < 2 ^ 63 then (patch.timestamp.toNat : Int)
    else patch.timestamp.toNat - 2 ^ 64 := by
  have hcases : rowTime patch = if 2 * patch.timestamp.toNat < 2 ^ 64 then
      (patch.timestamp.toNat : Int) else patch.timestamp.toNat - (2 ^ 64 : Nat) :=
    BitVec.toInt_eq_toNat_cond patch.timestamp.toBitVec
  rw [hcases]
  split <;> split <;> omega


instance : Std.Total (α := PatchProto) fun a b => earlier a b = true where
  total a b := by
    rw [earlier_iff, earlier_iff]
    rcases Int.lt_trichotomy (rowTime a) (rowTime b) with h | h | h
    · exact .inl (.inl h)
    · exact (le_total a.id.value b.id.value).imp (fun hid => .inr ⟨h, hid⟩)
        fun hid => .inr ⟨h.symm, hid⟩
    · exact .inr (.inl h)

instance : IsTrans PatchProto fun a b => earlier a b = true where
  trans a b c hab hbc := by
    rw [earlier_iff] at *
    rcases hab with hab | ⟨hab, hid⟩
    · rcases hbc with hbc | ⟨hbc, -⟩
      · exact .inl (hab.trans hbc)
      · exact .inl (hbc ▸ hab)
    · rcases hbc with hbc | ⟨hbc, hid'⟩
      · exact .inl (hab ▸ hbc)
      · exact .inr ⟨hab.trans hbc, hid.trans hid'⟩

namespace Database
variable (d : Database) (limits : Limits) (repoId : String)

def patchWindow (limit : Nat) : Nat → List PatchProto × Option Nat :=
  window (d.getAllPatchesUnbounded repoId) (max (min (min limit 200 + 1) limits.maxPageSize) 1)
    (min limit 200) limit

theorem patchesPage_eq (limit : UInt32) (cursor : Option String)
    (h : placeOf lib cursor < 2 ^ 63) :
    d.patchesPage lib limits repoId limit cursor =
      ((d.patchWindow limits repoId limit.toNat (placeOf lib cursor)).1,
        (d.patchWindow limits repoId limit.toNat (placeOf lib cursor)).2.map (cursorOf lib)) := by
  unfold placeOf at h
  unfold patchesPage handleRepoPatchesCursor patchWindow window getAllPatches placeOf
  dsimp only
  rw [if_pos h]
  generalize ((d.getAllPatchesUnbounded repoId).drop _).take _ = rows
  have hnext : UInt64.ofNat (((cursor.bind (decodeCursor lib)).getD 0).toNat + limit.toNat) =
      (cursor.bind (decodeCursor lib)).getD 0 + limit.toUInt64 := by
    rw [UInt64.ofNat_add, UInt64.ofNat_toNat, UInt64.ofNat_uInt32ToNat]
  by_cases hmore : min limit.toNat 200 < rows.length
  · simp only [gt_iff_lt, hmore, decide_true, if_true, Option.map_some, cursorOf, hnext]
  · rw [List.take_of_length_le (Nat.le_of_not_lt hmore)]
    simp only [gt_iff_lt, hmore, decide_false, Bool.false_eq_true, if_false, Option.map_none]

theorem length_getAllPatchesUnbounded :
    (d.getAllPatchesUnbounded repoId).length = d.patchCount repoId := by
  unfold getAllPatchesUnbounded patchesOf patchCount
  rw [List.length_insertionSort, List.length_map]

/-- The places that are met lie below the number of patches and one limit more. -/
theorem followed_patchesPage {limit : UInt32} {all : List PatchProto}
    (h : d.patchCount repoId < 2 ^ 48) :
    Followed (d.patchesPage lib limits repoId limit) none all ↔
      Followed (d.patchWindow limits repoId limit.toNat) 0 all := by
  apply Followed.of_read (fun place => place < 2 ^ 63)
    (d.patchesPage_eq lib limits repoId limit)
  · exact fun place hplace => placeOf_cursorOf lib (Nat.lt_trans hplace (by decide))
  · intro place next hplace hnext
    obtain ⟨hinside, rfl⟩ := next_of_window hnext
    rw [length_getAllPatchesUnbounded] at hinside
    have hlimit := limit.toNat_lt
    omega
  · exact Nat.two_pow_pos _

/-- No time is negative in its row, or all are. -/
def TimesAgree : Prop :=
  ∀ a ∈ d.patchesOf repoId, ∀ b ∈ d.patchesOf repoId,
    a.timestamp.toNat < 2 ^ 63 → b.timestamp.toNat < 2 ^ 63

instance : Decidable (d.TimesAgree repoId) :=
  inferInstanceAs (Decidable (∀ a ∈ d.patchesOf repoId, ∀ b ∈ d.patchesOf repoId, _ → _))

theorem pairwise_inOrder_iff :
    (d.getAllPatchesUnbounded repoId).Pairwise InOrder ↔ d.TimesAgree repoId := by
  have hperm : (d.getAllPatchesUnbounded repoId).Perm (d.patchesOf repoId) :=
    List.perm_insertionSort _ _
  have hsorted : (d.getAllPatchesUnbounded repoId).Pairwise fun a b => earlier a b = true :=
    List.pairwise_insertionSort _ _
  constructor
  · intro horder a ha b hb hearly
    by_contra hlate
    obtain ⟨i, hi, rfl⟩ := List.mem_iff_getElem.mp (hperm.mem_iff.mpr ha)
    obtain ⟨j, hj, rfl⟩ := List.mem_iff_getElem.mp (hperm.mem_iff.mpr hb)
    rcases Nat.lt_trichotomy i j with hij | rfl | hji
    · have hrow := List.pairwise_iff_getElem.mp hsorted i j hi hj hij
      rw [earlier_iff, rowTime_eq, rowTime_eq, if_pos hearly, if_neg hlate] at hrow
      have hbound := UInt64.toNat_lt (d.getAllPatchesUnbounded repoId)[j].timestamp
      omega
    · exact hlate hearly
    · rcases List.pairwise_iff_getElem.mp horder j i hj hi hji with htime | ⟨htime, -⟩
      · exact hlate (Nat.lt_trans (UInt64.lt_iff_toNat_lt.mp htime) hearly)
      · exact hlate (htime ▸ hearly)
  · intro hagree
    apply hsorted.imp_of_mem
    intro a b ha hb hab
    have hforth := hagree a (hperm.mem_iff.mp ha) b (hperm.mem_iff.mp hb)
    have hback := hagree b (hperm.mem_iff.mp hb) a (hperm.mem_iff.mp ha)
    rw [earlier_iff, rowTime_eq, rowTime_eq] at hab
    rw [InOrder, UInt64.lt_iff_toNat_lt, ← UInt64.toNat_inj]
    rcases hab with htime | ⟨htime, hid⟩
    · left
      split at htime <;> split at htime <;> omega
    · refine .inr ⟨?_, hid⟩
      split at htime <;> split at htime <;> omega

/-- All patches are in the first page. -/
def FitsOnePage (limit : Nat) : Prop :=
  d.patchCount repoId ≤ min limit 200 ∧ d.patchCount repoId ≤ max limits.maxPageSize 1

instance (limit : Nat) : Decidable (d.FitsOnePage limits repoId limit) :=
  inferInstanceAs (Decidable (_ ∧ _))

/-- The handler and the store both let a whole page of the limit and one row more through. -/
structure PagesMeet (limit : Nat) : Prop where
  pos : 0 < limit
  largest : limit ≤ 200
  stored : limit < limits.maxPageSize

section Followed
variable {d limits repoId} {limit : Nat}

theorem followed_zero {all : List PatchProto}
    (h : Followed (d.patchWindow limits repoId 0) 0 all) : d.patchCount repoId = 0 := by
  by_contra hsome
  refine not_followed_of_stuck ?_ h
  rw [length_getAllPatchesUnbounded]
  omega

theorem followed_one_page (h : d.FitsOnePage limits repoId limit) :
    Followed (d.patchWindow limits repoId limit) 0 (d.getAllPatchesUnbounded repoId) := by
  have hlength := d.length_getAllPatchesUnbounded repoId
  obtain ⟨hpage, hstore⟩ := h
  have hall : ((d.getAllPatchesUnbounded repoId).drop 0).take
      (max (min (min limit 200 + 1) limits.maxPageSize) 1) = d.getAllPatchesUnbounded repoId :=
    List.take_of_length_le (by rw [List.drop_zero]; omega)
  apply Followed.last
  rw [patchWindow, window_last (by omega), hall]

/-- Where the store gives out no more rows than a page has. -/
theorem followed_small_store (hpos : 0 < limit) (hstore : limits.maxPageSize ≤ min limit 200)
    {all : List PatchProto} : Followed (d.patchWindow limits repoId limit) 0 all ↔
      all = (d.getAllPatchesUnbounded repoId).take (max limits.maxPageSize 1) := by
  have hfetch : max (min (min limit 200 + 1) limits.maxPageSize) 1 = max limits.maxPageSize 1 := by
    omega
  unfold patchWindow
  rw [hfetch, followed_short (by omega)]
  rfl

theorem patchWindow_large_store (hstore : min limit 200 < limits.maxPageSize) :
    d.patchWindow limits repoId limit =
      window (d.getAllPatchesUnbounded repoId) (min limit 200 + 1) (min limit 200) limit := by
  unfold patchWindow
  rw [show max (min (min limit 200 + 1) limits.maxPageSize) 1 = min limit 200 + 1 by omega]

theorem pages_of_followed {all : List PatchProto}
    (h : Followed (d.patchWindow limits repoId limit) 0 all)
    (hall : all.length = d.patchCount repoId) :
    d.FitsOnePage limits repoId limit ∨ PagesMeet limits limit := by
  have hlength := d.length_getAllPatchesUnbounded repoId
  rcases Nat.eq_zero_or_pos limit with rfl | hpos
  · have hnone := followed_zero h
    exact .inl ⟨by omega, by omega⟩
  · by_cases hstore : limits.maxPageSize ≤ min limit 200
    · have hcount := congrArg List.length ((followed_small_store hpos hstore).mp h)
      rw [List.length_take, hlength] at hcount
      exact .inl ⟨by omega, by omega⟩
    · by_cases hlargest : limit ≤ 200
      · exact .inr ⟨hpos, hlargest, by omega⟩
      · -- the cursor goes on by more than a page holds
        rw [patchWindow_large_store (by omega)] at h
        have hlost := (length_lt_of_skipped (by omega) h).2
        exact .inl ⟨by omega, by omega⟩

theorem followed_of_pages (h : d.FitsOnePage limits repoId limit ∨ PagesMeet limits limit) :
    Followed (d.patchWindow limits repoId limit) 0 (d.getAllPatchesUnbounded repoId) := by
  rcases h with hfits | hmeet
  · exact followed_one_page hfits
  · have hpage : min limit 200 = limit := Nat.min_eq_left hmeet.largest
    have hstored := hmeet.stored
    rw [patchWindow_large_store (by omega), hpage]
    exact followed_tiles hmeet.pos 0

end Followed

theorem enumerates_patches_iff (limit : UInt32) (h : d.patchCount repoId < 2 ^ 48) :
    d.EnumeratesPatches lib limits repoId limit ↔ d.TimesAgree repoId ∧
      (d.FitsOnePage limits repoId limit.toNat ∨ PagesMeet limits limit.toNat) := by
  have hperm : (d.getAllPatchesUnbounded repoId).Perm (d.patchesOf repoId) :=
    List.perm_insertionSort _ _
  rw [← pairwise_inOrder_iff]
  constructor
  · rintro ⟨all, hfollowed, hall, horder⟩
    rw [followed_patchesPage lib d limits repoId h] at hfollowed
    have hpages := pages_of_followed hfollowed
      (by rw [hall.length_eq, ← hperm.length_eq, length_getAllPatchesUnbounded])
    rw [hfollowed.unique (followed_of_pages hpages)] at horder
    exact ⟨horder, hpages⟩
  · rintro ⟨horder, hpages⟩
    exact ⟨_, (followed_patchesPage lib d limits repoId h).mpr (followed_of_pages hpages),
      hperm, horder⟩

end Database

/-! ### Other lists -/

def parsePagination (cursor limit : Option String) : Option UInt64 × Nat :=
  (cursor.bind (decodeCursor lib),
    min ((limit.bind fun text => Repo.parseUsize text.toList).getD 50) 200)

def applyPagination {α : Type} (items : List α) (offset : Option UInt64) (limit : Nat) :
    List α × Option String × Bool :=
  let offset := offset.getD 0
  let sliced := (items.drop offset.toNat).take (limit + 1)
  let hasMore := decide (sliced.length > limit)
  (sliced.take limit, if hasMore then some (encodeCursor lib (offset + .ofNat limit)) else none,
    hasMore)

def itemsPage {α : Type} (items : List α) (limit cursor : Option String) :
    List α × Option (Option String) :=
  let (offset, limit) := parsePagination lib cursor limit
  let (result, nextCursor, _) := applyPagination lib items offset limit
  (result, nextCursor.map some)

section Items
variable {α : Type} (items : List α) (limit : Option String)

/-- The limit of a request, if it is read. -/
def pageLimit : Nat := (parsePagination lib none limit).2

theorem itemsPage_eq (cursor : Option String) : itemsPage lib items limit cursor =
    ((window items (pageLimit lib limit + 1) (pageLimit lib limit) (pageLimit lib limit)
        (placeOf lib cursor)).1,
      (window items (pageLimit lib limit + 1) (pageLimit lib limit) (pageLimit lib limit)
        (placeOf lib cursor)).2.map (cursorOf lib)) := by
  have hparsed : parsePagination lib cursor limit =
      (cursor.bind (decodeCursor lib), pageLimit lib limit) := rfl
  unfold itemsPage applyPagination window placeOf
  rw [hparsed]
  dsimp only
  generalize (items.drop _).take _ = rows
  by_cases hmore : pageLimit lib limit < rows.length
  · simp only [gt_iff_lt, hmore, decide_true, if_true, Option.map_some, cursorOf,
      UInt64.ofNat_add, UInt64.ofNat_toNat]
  · simp only [gt_iff_lt, hmore, decide_false, Bool.false_eq_true, if_false, Option.map_none]

theorem followed_itemsPage (h : items.length < 2 ^ 63) {all : List α} :
    Followed (itemsPage lib items limit) none all ↔
      Followed (window items (pageLimit lib limit + 1) (pageLimit lib limit)
        (pageLimit lib limit)) 0 all := by
  apply Followed.of_read (fun place => place < 2 ^ 64)
    (fun cursor _ => itemsPage_eq lib items limit cursor)
  · exact fun place hplace => placeOf_cursorOf lib hplace
  · intro place next hplace hnext
    obtain ⟨hinside, rfl⟩ := next_of_window hnext
    have hlimit : pageLimit lib limit ≤ 200 := Nat.min_le_right _ _
    omega
  · exact Nat.two_pow_pos _

theorem enumerates_items_iff (h : items.length < 2 ^ 63) :
    Followed (itemsPage lib items limit) none items ↔ items = [] ∨ 0 < pageLimit lib limit := by
  rw [followed_itemsPage lib items limit h]
  constructor
  · intro hall
    by_contra hnot
    obtain ⟨hsome, hzero⟩ := not_or.mp hnot
    have hlength : 0 < items.length := List.length_pos_of_ne_nil hsome
    rw [Nat.eq_zero_of_not_pos hzero] at hall
    exact not_followed_of_stuck (by omega) hall
  · rintro (rfl | hpos)
    · exact .last (window_last (Nat.zero_le _))
    · exact followed_tiles hpos 0

end Items

/-- When following the cursors from the start enumerates the patches of a repository, and when
it does so for another list. -/
theorem cursors_enumerate_iff :
    (∀ (d : Database) (limits : Limits) (repoId : String) (limit : UInt32),
      d.patchCount repoId < 2 ^ 48 →
        (d.EnumeratesPatches lib limits repoId limit ↔ d.TimesAgree repoId ∧
          (d.FitsOnePage limits repoId limit.toNat ∨ Database.PagesMeet limits limit.toNat))) ∧
    ∀ {α : Type} (items : List α) (limit : Option String), items.length < 2 ^ 63 →
      (Followed (itemsPage lib items limit) none items ↔
        items = [] ∨ 0 < pageLimit lib limit) :=
  ⟨fun d limits repoId limit => d.enumerates_patches_iff lib limits repoId limit,
    fun items limit => enumerates_items_iff lib items limit⟩

section OneCursor

def offsetField : List Char := "\x7b\"offset\":".toList

def offsetJson (offset : UInt64) : List Char :=
  offsetField ++ (Nat.toDigits 10 offset.toNat ++ "\x7d".toList)

/-- The JSON is read as it is written, without blanks. -/
def offsetOfJson (text : List Char) : Option UInt64 :=
  if text.take offsetField.length = offsetField then
    (Repo.parseUsize (text.drop offsetField.length).dropLast).map .ofNat
  else none

def charByte (c : Char) : UInt8 := .ofNat c.toNat

def byteChar (b : UInt8) : Char := .ofNat b.toNat

theorem byteChar_charByte {c : Char} (h : c.toNat < 256) : byteChar (charByte c) = c := by
  rw [byteChar, charByte, UInt8.toNat_ofNat_of_lt' h, Char.ofNat_toNat]

theorem toNat_lt_of_all {text : List Char} (h : (text.all fun c => c.toNat < 256) = true) {c : Char}
    (hc : c ∈ text) : c.toNat < 256 :=
  of_decide_eq_true (List.all_eq_true.mp h c hc)

theorem toNat_lt_of_mem_offsetJson {offset : UInt64} {c : Char} (h : c ∈ offsetJson offset) :
    c.toNat < 256 := by
  rw [offsetJson, List.mem_append, List.mem_append] at h
  rcases h with h | h | h
  · exact toNat_lt_of_all (by decide) h
  · have hdigit := Nat.isDigit_of_mem_toDigits (by decide) (by decide) h
    have hnine : c.toNat ≤ 57 := (Char.isDigit_iff_toNat.mp hdigit).2
    omega
  · exact toNat_lt_of_all (by decide) h

theorem offsetOfJson_offsetJson (offset : UInt64) :
    offsetOfJson (offsetJson offset) = some offset := by
  unfold offsetOfJson offsetJson
  rw [List.take_left, if_pos rfl, List.drop_left]
  have hlast : (Nat.toDigits 10 offset.toNat ++ "\x7d".toList).dropLast =
      Nat.toDigits 10 offset.toNat := List.dropLast_concat
  rw [hlast, Repo.parseUsize_toDigits offset.toNat_lt, Option.map_some, UInt64.ofNat_toNat]

def jsonCursors : CursorLibrary where
  base64Decode := base64Decode
  toVec offset := (offsetJson offset).map charByte
  fromSlice data := offsetOfJson (data.map byteChar)
  decode_encode := base64Decode_base64Encode
  from_to offset := by
    have hback : ((offsetJson offset).map charByte).map byteChar = offsetJson offset := by
      rw [List.map_map]
      conv_rhs => rw [← List.map_id (offsetJson offset)]
      exact List.map_congr_left fun c hc => byteChar_charByte (toNat_lt_of_mem_offsetJson hc)
    rw [hback, offsetOfJson_offsetJson]

def onePatch : Database :=
  (Database.fresh.insertPatch "r" ⟨⟨"a"⟩, "create", [], none, "", [], "", "", 0⟩).2

theorem cursors_enumerate_iff_onePatch :
    onePatch.EnumeratesPatches jsonCursors ⟨52428800, 10000⟩ "r" 50 ∧
      Followed (itemsPage jsonCursors ["a", "b"] (some "1")) none ["a", "b"] := by
  obtain ⟨hpatches, hitems⟩ := cursors_enumerate_iff jsonCursors
  constructor
  · refine (hpatches onePatch ⟨52428800, 10000⟩ "r" 50 (by decide)).mpr ⟨by decide, .inl ?_⟩
    decide
  · exact (hitems ["a", "b"] (some "1") (by decide)).mpr (.inr (by decide))

/-- With the limit 0 every page is empty and followed by another. -/
theorem zero_limit_endless : ¬ ∀ (d : Database) (limit : UInt32),
    d.EnumeratesPatches jsonCursors ⟨52428800, 10000⟩ "r" limit := by
  intro h
  have hpages := (onePatch.enumerates_patches_iff jsonCursors _ "r" 0 (by decide)).mp
    (h onePatch 0)
  rcases hpages.2 with hfits | hmeet
  · exact absurd hfits.1 (by decide)
  · exact absurd hmeet.pos (by decide)

end OneCursor
end Suture.Wire
