import Mathlib.Data.List.Dedup
import Suture.Wire.Base64
import Suture.Wire.Restored

/-!
# Code search

A blob of ASCII text is indexed by its trigrams. A trigram of a blob has one row, whatever
repositories have the blob: the row names the repository that indexed it first.
-/

namespace Suture.Wire
set_option autoImplicit false
open Foundation

def isAscii (data : Bytes) : Bool := data.all fun b => b < 128

namespace Database
variable (d : Database)

/-- The row of the metadata is replaced, the rows of trigrams that are there stay. -/
def indexBlob (hash repoId : String) (data : Bytes) (path : Option String) : Database :=
  let d := { d with blobMetadata := d.blobMetadata.insert hash path }
  if isAscii data && decide (data.length ≥ 3) then
    { d with
      blobTrigrams := d.blobTrigrams.addRows
        ((trigramsOf data).dedup.map fun t => (key t hash, repoId)) }
  else d

/-- The search as a query: the repository and each trigram are variables of it, and the limit is
written into it. -/
def queryCode (maxVariables : Nat) (lib : Library) (repoId query : String) (limit : Nat) :
    Except DatabaseError (List CodeSearchResult) :=
  let trigrams := if (utf8 query).length < 3 then [] else trigramsOf (utf8 query)
  if trigrams = [] then .ok []
  else if maxVariables < trigrams.length + 1 then .error .tooManyVariables
  else if 2 ^ 63 ≤ limit then .error .datatypeMismatch
  else .ok (d.searchCode lib repoId query limit)

end Database

/-! ### The index of a run of calls -/

structure IndexCall where
  hash : String
  repoId : String
  data : Bytes
  path : Option String
deriving DecidableEq, Repr

def indexAll (d : Database) (calls : List IndexCall) : Database :=
  calls.foldl (fun d call => d.indexBlob call.hash call.repoId call.data call.path) d

/-- The trigrams that the call writes rows for. -/
def IndexCall.trigrams (call : IndexCall) : List String :=
  if isAscii call.data then trigramsOf call.data else []

/-- The repository of the first call that has the trigram for the blob. -/
def firstIndexed (calls : List IndexCall) (trigram hash : String) : Option String :=
  (calls.find? fun call => decide (call.hash = hash ∧ trigram ∈ call.trigrams)).map IndexCall.repoId

section Index
variable {d : Database} {calls : List IndexCall} {trigram hash : String}

theorem trigramsOf_of_short {data : Bytes} (h : data.length < 3) : trigramsOf data = [] := by
  match data with
  | [] | [_] | [_, _] => rfl
  | _ :: _ :: _ :: _ => simp at h; omega

theorem blobTrigrams_indexBlob (call : IndexCall) :
    (d.indexBlob call.hash call.repoId call.data call.path).blobTrigrams =
      d.blobTrigrams.addRows (call.trigrams.dedup.map fun t => (key t call.hash, call.repoId)) := by
  unfold Database.indexBlob IndexCall.trigrams
  dsimp only
  by_cases hascii : isAscii call.data = true
  · by_cases hlong : call.data.length ≥ 3
    · rw [if_pos hascii, if_pos (by rw [hascii, decide_eq_true hlong]; rfl)]
    · rw [if_pos hascii, if_neg (by rw [decide_eq_false hlong, Bool.and_false]; exact nofun),
        trigramsOf_of_short (by omega)]
      rfl
  · rw [if_neg hascii, if_neg (by rw [Bool.and_eq_true]; exact fun h => hascii h.1)]
    rfl

theorem get_indexBlob (call : IndexCall) :
    (d.indexBlob call.hash call.repoId call.data call.path).blobTrigrams.get (key trigram hash) =
      (d.blobTrigrams.get (key trigram hash)).or
        (if call.hash = hash ∧ trigram ∈ call.trigrams then some call.repoId else none) := by
  rw [blobTrigrams_indexBlob, SortedMap.get_addRows_of_agree (g := fun _ => some call.repoId)]
  · congr 1
    have hmem : key trigram hash ∈ ((call.trigrams.dedup.map fun t =>
        (key t call.hash, call.repoId)).map Prod.fst) ↔ call.hash = hash ∧ trigram ∈ call.trigrams := by
      rw [List.map_map, List.mem_map]
      constructor
      · rintro ⟨t, ht, hkey⟩
        obtain ⟨rfl, rfl⟩ := Prod.mk.inj (congrArg ofLex hkey)
        exact ⟨rfl, List.mem_dedup.mp ht⟩
      · rintro ⟨rfl, ht⟩
        exact ⟨trigram, List.mem_dedup.mpr ht, rfl⟩
    by_cases hin : call.hash = hash ∧ trigram ∈ call.trigrams
    · rw [if_pos hin, if_pos (hmem.mpr hin)]
    · rw [if_neg hin, if_neg (mt hmem.mp hin)]
  · intro row hrow
    obtain ⟨t, -, rfl⟩ := List.mem_map.mp hrow
    rfl

theorem get_indexAll : (indexAll d calls).blobTrigrams.get (key trigram hash) =
    (d.blobTrigrams.get (key trigram hash)).or (firstIndexed calls trigram hash) := by
  induction calls generalizing d with
  | nil => exact Option.or_none.symm
  | cons call calls ih =>
    change (indexAll (d.indexBlob call.hash call.repoId call.data call.path) calls).blobTrigrams.get
      _ = _
    rw [ih, get_indexBlob, Option.or_assoc]
    congr 1
    unfold firstIndexed
    rw [List.find?_cons]
    by_cases hcall : call.hash = hash ∧ trigram ∈ call.trigrams
    · rw [if_pos hcall, decide_eq_true hcall]
      rfl
    · rw [if_neg hcall, decide_eq_false hcall]
      rfl

end Index

/-! ### The answer of a search -/

section Answer
variable {d : Database} {trigrams : List String} {repoId query hash : String}

/-- The blob of each row of the repository that has one of the trigrams. -/
def hits (d : Database) (trigrams : List String) (repoId : String) : List String :=
  (select d.blobTrigrams fun row => row = repoId).filterMap fun e =>
    if (ofLex e.1).1 ∈ trigrams then some (ofLex e.1).2 else none

theorem mem_hits : hash ∈ hits d trigrams repoId ↔
    ∃ t ∈ trigrams, d.blobTrigrams.get (key t hash) = some repoId := by
  rw [hits, List.mem_filterMap]
  constructor
  · rintro ⟨⟨k, row⟩, he, hk⟩
    obtain ⟨hrow, hrepo⟩ := List.mem_filter.mp he
    split at hk
    · rename_i ht
      obtain rfl := Option.some.inj hk
      obtain rfl : row = repoId := of_decide_eq_true hrepo
      exact ⟨_, ht, SortedMap.mem_entries.mp hrow⟩
    · cases hk
  · rintro ⟨t, ht, hrow⟩
    refine ⟨(key t hash, repoId), ?_, if_pos ht⟩
    exact List.mem_filter.mpr ⟨SortedMap.mem_entries.mpr hrow, decide_eq_true rfl⟩

/-- A blob is hit once by each of the trigrams that has its row for the repository. -/
theorem count_hits : (hits d trigrams repoId).count hash =
    (trigrams.dedup.filter fun t => decide (d.blobTrigrams.get (key t hash) = some repoId)).length := by
  let rows := (select d.blobTrigrams fun row => row = repoId).filter fun e =>
    (if (ofLex e.1).1 ∈ trigrams then some (ofLex e.1).2 else none) == some hash
  have hcount : (hits d trigrams repoId).count hash = (rows.map fun e => (ofLex e.1).1).length := by
    rw [hits, List.count_filterMap, List.countP_eq_length_filter, List.length_map]
  have hmem : ∀ e ∈ rows, e = (key (ofLex e.1).1 hash, repoId) ∧ (ofLex e.1).1 ∈ trigrams ∧
      d.blobTrigrams.get e.1 = some repoId := by
    rintro ⟨k, row⟩ he
    obtain ⟨hselected, hhit⟩ := List.mem_filter.mp he
    obtain ⟨hrow, hrepo⟩ := List.mem_filter.mp hselected
    obtain rfl : row = repoId := of_decide_eq_true hrepo
    have hhit := eq_of_beq hhit
    split at hhit
    · rename_i ht
      obtain rfl := Option.some.inj hhit
      exact ⟨rfl, ht, SortedMap.mem_entries.mp hrow⟩
    · cases hhit
  have hentries : d.blobTrigrams.entries.Nodup :=
    d.blobTrigrams.sorted.imp fun {e e'} h heq => (ne_of_lt h) (congrArg Prod.fst heq)
  have hnodup : (rows.map fun e => (ofLex e.1).1).Nodup := by
    have hrows : rows.Nodup := (hentries.filter _).filter _
    rw [List.nodup_map_iff_inj_on hrows]
    intro e he e' he' ht
    rw [(hmem e he).1, (hmem e' he').1, ht]
  have hsame : (rows.map fun e => (ofLex e.1).1).Perm
      (trigrams.dedup.filter fun t => decide (d.blobTrigrams.get (key t hash) = some repoId)) := by
    rw [List.perm_ext_iff_of_nodup hnodup (trigrams.nodup_dedup.filter _)]
    intro t
    rw [List.mem_map, List.mem_filter, List.mem_dedup, decide_eq_true_eq]
    constructor
    · rintro ⟨e, he, rfl⟩
      obtain ⟨he, ht, hrow⟩ := hmem e he
      exact ⟨ht, congrArg Prod.fst he ▸ hrow⟩
    · rintro ⟨ht, hrow⟩
      refine ⟨(key t hash, repoId), List.mem_filter.mpr ⟨?_, ?_⟩, rfl⟩
      · exact List.mem_filter.mpr ⟨SortedMap.mem_entries.mpr hrow, decide_eq_true rfl⟩
      · exact beq_iff_eq.mpr (if_pos ht)
  rw [hcount, hsame.length_eq]

/-- All trigrams of a query hit the blob exactly if all its rows are the repository's. -/
theorem count_hits_full : (hits d trigrams repoId).count hash = trigrams.dedup.length ↔
    ∀ t ∈ trigrams, d.blobTrigrams.get (key t hash) = some repoId := by
  rw [count_hits, List.length_filter_eq_length_iff]
  simp only [List.mem_dedup, decide_eq_true_eq]

theorem mem_searchCode {lib : Library} {limit matchCount : Nat}
    (hquery : 3 ≤ (utf8 query).length)
    (hlimit : (SortedSet.ofList (hits d (trigramsOf (utf8 query)) repoId)).elems.length ≤ limit) :
    (∃ res ∈ d.searchCode lib repoId query limit,
        res.blobHash = hash ∧ res.repoId = repoId ∧ res.matchCount = matchCount) ↔
      hash ∈ hits d (trigramsOf (utf8 query)) repoId ∧
        (hits d (trigramsOf (utf8 query)) repoId).count hash = matchCount := by
  unfold Database.searchCode
  rw [if_neg (by omega)]
  change (∃ res ∈ ((((SortedSet.ofList (hits d (trigramsOf (utf8 query)) repoId)).elems.map _).insertionSort
    _).take limit).map _, _) ↔ _
  rw [List.take_of_length_le]
  · constructor
    · rintro ⟨res, hres, rfl, -, rfl⟩
      obtain ⟨e, he, rfl⟩ := List.mem_map.mp hres
      rw [List.mem_insertionSort] at he
      obtain ⟨h, hhit, rfl⟩ := List.mem_map.mp he
      exact ⟨SortedSet.mem_ofList.mp hhit, rfl⟩
    · rintro ⟨hhit, rfl⟩
      refine ⟨_, List.mem_map.mpr ⟨(hash, _), ?_, rfl⟩, rfl, rfl, rfl⟩
      rw [List.mem_insertionSort]
      exact List.mem_map.mpr ⟨hash, SortedSet.mem_ofList.mpr hhit, rfl⟩
  · rwa [List.length_insertionSort, List.length_map]

end Answer

/-! ### Texts that contain a text -/

section Infix
variable {data data' : Bytes}

theorem trigramsOf_ne_nil (hascii : isAscii data = true) (hlong : 3 ≤ data.length) :
    trigramsOf data ≠ [] := by
  match data with
  | [] | [_] | [_, _] => simp at hlong
  | a :: b :: c :: rest =>
    have hbytes := List.all_eq_true.mp hascii
    obtain ⟨t, ht⟩ := @exists_text_of_ascii [a, b, c] fun x hx =>
      of_decide_eq_true (hbytes x (by simp at hx ⊢; tauto))
    rw [trigramsOf, ht]
    exact List.cons_ne_nil t _

theorem isAscii_of_part (hpart : data <:+: data') (h : isAscii data' = true) :
    isAscii data = true := by
  rw [isAscii, List.all_eq_true] at h ⊢
  exact fun b hb => h b (hpart.subset hb)

end Infix

/-! ### Searches after a run of calls -/

/-- The blobs of the repository. -/
def blobsOf (calls : List IndexCall) (repoId : String) : SortedSet String :=
  .ofList ((calls.filter fun call => call.repoId = repoId).map IndexCall.hash)

/-- The call is for a text of the repository that contains the query. -/
def IndexCall.Matches (call : IndexCall) (repoId query : String) : Prop :=
  call.repoId = repoId ∧ isAscii call.data = true ∧ utf8 query <:+: call.data

section Search
variable (maxVariables : Nat) (lib : Library) (start : Database) (calls : List IndexCall)
  (repoId query : String) (limit : Nat)

/-- Each text of the repository that contains the query is found, with all trigrams of it. -/
def SearchComplete : Prop :=
  ∀ call ∈ calls, call.Matches repoId query →
    ∃ results,
      (indexAll start calls).queryCode maxVariables lib repoId query limit = .ok results ∧
      ∃ res ∈ results, res.blobHash = call.hash ∧ res.repoId = repoId ∧
        res.matchCount = (trigramsOf (utf8 query)).dedup.length

/-- The database takes the query, and the repository was the first to index each trigram of it for
the blob. -/
def IndexedFirst (call : IndexCall) : Prop :=
  ((trigramsOf (utf8 query)).length < maxVariables ∧ limit < 2 ^ 63) ∧
    ∀ t ∈ trigramsOf (utf8 query), firstIndexed calls t call.hash = some repoId

variable {maxVariables lib start calls repoId query limit}

theorem get_indexAll_of_empty (hstart : start.blobTrigrams = .empty) (t hash : String) :
    (indexAll start calls).blobTrigrams.get (key t hash) = firstIndexed calls t hash := by
  rw [get_indexAll, hstart, SortedMap.get_empty, Option.none_or]

theorem mem_blobsOf_of_firstIndexed {t hash : String}
    (h : firstIndexed calls t hash = some repoId) : hash ∈ blobsOf calls repoId := by
  obtain ⟨call, hcall, rfl⟩ := Option.map_eq_some_iff.mp h
  have hmem := List.mem_of_find?_eq_some hcall
  have hfound := List.find?_some hcall
  obtain ⟨rfl, -⟩ := of_decide_eq_true hfound
  exact SortedSet.mem_ofList.mpr
    (List.mem_map.mpr ⟨call, List.mem_filter.mpr ⟨hmem, decide_eq_true rfl⟩, rfl⟩)

theorem length_hits_le (hstart : start.blobTrigrams = .empty) (trigrams : List String) :
    (SortedSet.ofList (hits (indexAll start calls) trigrams repoId)).elems.length ≤
      (blobsOf calls repoId).elems.length := by
  apply (List.subperm_of_subset (SortedSet.nodup _) _).length_le
  intro hash hhit
  obtain ⟨t, -, hrow⟩ := mem_hits.mp (SortedSet.mem_ofList.mp hhit)
  rw [get_indexAll_of_empty hstart] at hrow
  exact mem_blobsOf_of_firstIndexed hrow

/-- A query that is taken is answered by the search. -/
theorem queryCode_eq_ok {d : Database} {results : List CodeSearchResult}
    (hquery : 3 ≤ (utf8 query).length) (hsome : trigramsOf (utf8 query) ≠ []) :
    d.queryCode maxVariables lib repoId query limit = .ok results ↔
      ((trigramsOf (utf8 query)).length < maxVariables ∧ limit < 2 ^ 63) ∧
        d.searchCode lib repoId query limit = results := by
  unfold Database.queryCode
  rw [if_neg (Nat.not_lt.mpr hquery)]
  dsimp only
  rw [if_neg hsome]
  split
  · exact ⟨nofun, fun h => absurd h.1.1 (by omega)⟩
  · split
    · exact ⟨nofun, fun h => absurd h.1.2 (by omega)⟩
    · rw [Except.ok.injEq]
      exact ⟨fun h => ⟨⟨by omega, by omega⟩, h⟩, fun h => h.2⟩

/-- Code search finds a text exactly if the database takes the query and no other repository
indexed a trigram of the query for the same blob before. -/
theorem searchComplete_iff (hstart : start.blobTrigrams = .empty) (hquery : 3 ≤ (utf8 query).length)
    (hlimit : (blobsOf calls repoId).elems.length ≤ limit) :
    SearchComplete maxVariables lib start calls repoId query limit ↔
      ∀ call ∈ calls, call.Matches repoId query →
        IndexedFirst maxVariables calls repoId query limit call := by
  refine forall_congr' fun call => forall_congr' fun _ => forall_congr' fun hmatches => ?_
  obtain ⟨-, hascii, hpart⟩ := hmatches
  have hsome := trigramsOf_ne_nil (isAscii_of_part hpart hascii) hquery
  have hfits := (length_hits_le hstart (trigramsOf (utf8 query))).trans hlimit
  have hfound : (∃ res ∈ (indexAll start calls).searchCode lib repoId query limit,
        res.blobHash = call.hash ∧ res.repoId = repoId ∧
          res.matchCount = (trigramsOf (utf8 query)).dedup.length) ↔
      ∀ t ∈ trigramsOf (utf8 query), firstIndexed calls t call.hash = some repoId := by
    rw [mem_searchCode hquery hfits, count_hits_full]
    simp only [get_indexAll_of_empty hstart]
    constructor
    · exact And.right
    · intro hfirst
      obtain ⟨t, ht⟩ := List.exists_mem_of_ne_nil _ hsome
      refine ⟨mem_hits.mpr ⟨t, ht, ?_⟩, hfirst⟩
      rw [get_indexAll_of_empty hstart, hfirst t ht]
  rw [IndexedFirst, ← hfound]
  constructor
  · rintro ⟨results, hresults, hres⟩
    obtain ⟨htaken, rfl⟩ := (queryCode_eq_ok hquery hsome).mp hresults
    exact ⟨htaken, hres⟩
  · rintro ⟨htaken, hres⟩
    exact ⟨_, (queryCode_eq_ok hquery hsome).mpr ⟨htaken, rfl⟩, hres⟩

end Search

section SharedBlob

/-- Two repositories with the same blob. -/
def sharedBlob : List IndexCall :=
  [⟨"h", "a", utf8 "fn main", none⟩, ⟨"h", "b", utf8 "fn main", none⟩]

def plainLibrary : Library where
  sha256 := id
  base64Decode := base64Decode
  fromUtf8Lossy data := String.ofList (data.map fun b => Char.ofNat b.toNat)
  splitWhitespace _ := []
  trimLowercase := id
  like _ _ := false

theorem searchComplete_iff_sharedBlob :
    SearchComplete 32766 plainLibrary .fresh sharedBlob "a" "main" 10 := by
  refine (searchComplete_iff rfl (by decide +kernel) (by decide +kernel)).mpr ?_
  intro call hcall hmatches
  rcases List.mem_cons.mp hcall with rfl | hcall
  · exact ⟨by decide +kernel, by decide +kernel⟩
  · obtain rfl := List.mem_singleton.mp hcall
    exact absurd hmatches.1 (by decide)

/-- The repository that comes second does not find its blob. -/
theorem shared_blob_not_found : ¬ ∀ (calls : List IndexCall) (repoId query : String) (limit : Nat),
    3 ≤ (utf8 query).length → (blobsOf calls repoId).elems.length ≤ limit →
      SearchComplete 32766 plainLibrary .fresh calls repoId query limit := by
  intro h
  have hsearch := h sharedBlob "b" "main" 10 (by decide +kernel) (by decide +kernel)
  obtain ⟨results, hresults, res, hres, -⟩ := hsearch ⟨"h", "b", utf8 "fn main", none⟩
    (by decide) ⟨rfl, by decide +kernel, by decide +kernel⟩
  have hnone : (indexAll .fresh sharedBlob).queryCode 32766 plainLibrary "b" "main" 10 = .ok [] := by
    decide +kernel
  rw [hnone] at hresults
  cases hresults
  cases hres

end SharedBlob
end Suture.Wire
