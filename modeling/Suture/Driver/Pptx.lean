import Suture.Driver.Ooxml
import Suture.Foundation.ThreeWay

/-!
# Merging presentations

The slides of three presentations are merged by their ids, and the list of the merged slides and
their parts are written into the package of the base. The hash of a slide's content and the
orders of the hash maps are parameters.
-/

namespace Suture.Driver
set_option autoImplicit false
open Foundation Ooxml

namespace Pptx

structure SlideRef where
  slideId : Nat
  relId : String
  partPath : String
  contentHash : Nat
deriving DecidableEq, Repr

/-! ### Slides of a presentation -/

/-- The next slide id on a line. -/
def slideStep (remaining : List Char) : Option (List (Nat × String) × List Char) := do
  let found ← find "<p:sldId ".toList remaining
  let element := "<p:sldId ".toList ++ found.2
  let (element, rest) ← ((find ['/', '>'] element).map fun e => (e.1 ++ ['/', '>'], e.2)).or
    ((find ['>'] element).map fun e => (e.1 ++ ['>'], e.2))
  let id := (extractAttr element "id").bind (parseUnsigned (2 ^ 32))
  let rid := extractAttr element "r:id"
  return ((id.bind fun id => rid.map fun rid => (id, String.ofList rid)).toList, rest)

def parseSlideIdList (presentationXml : List Char) : List (Nat × String) :=
  (Engine.splitLines presentationXml []).flatMap fun line =>
    let trimmed := trimBy isWhiteSpace line.toList
    if contains trimmed "<p:sldId " || contains trimmed "<p:sldId>" then pieces slideStep trimmed else []

section Slides
variable (fingerprint : List Char → Nat)

def resolveSlide (doc : OoxmlDocument) (presentationPath : String) (slide : Nat × String) :
    Except Failure SlideRef := do
  let partPath ← orError ("cannot resolve rId " ++ slide.2 ++ " in " ++ presentationPath)
    (doc.resolveRel presentationPath slide.2)
  return ⟨slide.1, slide.2, partPath, ((doc.getPart partPath).map fun part => fingerprint part.content).getD 0⟩

def extractSlides (order : KeyOrder) (doc : OoxmlDocument) : Except Failure (List SlideRef) := do
  let presPath ← orError "no presentation.xml found" (doc.mainDocumentPath order)
  let presPart ← orError "presentation.xml part missing" (doc.getPart presPath)
  (parseSlideIdList presPart.content).mapM (resolveSlide fingerprint doc presPath)

end Slides

/-! ### Merging the slides -/

/-- The slide of an id; of two the last one. -/
def byId (slides : List SlideRef) (id : Nat) : Option SlideRef :=
  lastRow (slides.map fun slide => (slide.slideId, slide)) id

/-- An order in which a hash map gives its ids. -/
structure IdOrder where
  arrange : List Nat → List Nat
  perm : ∀ ids, (arrange ids).Perm ids

def allIds (base ours theirs : List SlideRef) : List Nat :=
  ((base ++ ours ++ theirs).map SlideRef.slideId).dedup

/-- The slides that are taken from a side for an id, under the ids they get; `none` is a
conflict. The sums wrap as they do without overflow checks. -/
def sourcesOf (id : Nat) : (base ours theirs : Option SlideRef) → Option (List (Nat × SlideRef))
  | some b, some o, some t =>
    if o.contentHash ≠ b.contentHash then
      if t.contentHash ≠ b.contentHash then
        if o.contentHash = t.contentHash then some [(id, o)] else none
      else some [(id, o)]
    else if t.contentHash ≠ b.contentHash then some [(id, t)]
    else some []
  | none, some o, none => some [(id, o)]
  | none, none, some t => some [(id, t)]
  | none, some o, some t =>
    if o.contentHash = t.contentHash then some [(id, o)]
    else
      let newIdOurs := (1000000 + id) % 2 ^ 32
      let newIdTheirs := (2000000 + id) % 2 ^ 32
      some [(newIdOurs, { o with slideId := newIdOurs }), (newIdTheirs, { t with slideId := newIdTheirs })]
  | _, _, _ => some []

/-- `order` is that of all ids, `keyOrder` that of the ids a slide was taken for. -/
def mergeSlides (order keyOrder : IdOrder) (base ours theirs : List SlideRef) :
    Option (List SlideRef) := do
  let ids := order.arrange (allIds base ours theirs)
  let sources := (← ids.mapM fun id => sourcesOf id (byId base id) (byId ours id) (byId theirs id)).flatten
  let kept := (base.filter fun slide =>
    (byId ours slide.slideId).isSome || (byId theirs slide.slideId).isSome).map SlideRef.slideId
  let appended := ids.filter fun id => (byId base id).isNone &&
    ((byId ours id).isSome || (byId theirs id).isSome) && (lastRow sources id).isSome
  let renamed := (keyOrder.arrange (sources.map Prod.fst).dedup).filter fun id =>
    (byId base id).isNone && decide (id ∉ ids)
  return (kept ++ (appended ++ renamed)).filterMap fun id => (lastRow sources id).or (byId base id)

/-! ### Writing -/

def sldIdXml (slide : SlideRef) : List Char :=
  "<p:sldId id=\"".toList ++ digits slide.slideId ++ "\" r:id=\"".toList ++ slide.relId.toList ++ "\"/>".toList

def buildPresentationXml (slides : List SlideRef) : List Char :=
  ("<?xml version=\"1.0\" encoding=\"UTF-8\" standalone=\"yes\"?>\n<p:presentation " ++
    "xmlns:a=\"http://schemas.openxmlformats.org/drawingml/2006/main\" " ++
    "xmlns:r=\"http://schemas.openxmlformats.org/officeDocument/2006/relationships\" " ++
    "xmlns:p=\"http://schemas.openxmlformats.org/presentationml/2006/main\">\n  <p:sldIdLst>").toList ++
  slides.flatMap sldIdXml ++ "</p:sldIdLst>\n</p:presentation>".toList

/-- A target is written without the directory of the presentation. -/
def slideTarget (slide : SlideRef) : List Char :=
  let path := slide.partPath.toList
  if "ppt/".toList <+: path then path.drop 4 else path

def slideRelType : String := "http://schemas.openxmlformats.org/officeDocument/2006/relationships/slide"

def relationshipXml (rel : String × List Char) : List Char :=
  "\n  <Relationship Id=\"".toList ++ rel.1.toList ++ "\" Type=\"".toList ++ slideRelType.toList ++
    "\" Target=\"".toList ++ rel.2 ++ "\"/>".toList

def insertPart (doc : OoxmlDocument) (part : OoxmlPart) : OoxmlDocument :=
  { doc with parts := doc.parts.insert part.path part }

def updatePresentationRels (order : KeyOrder) (presPath : String) (slides : List SlideRef)
    (doc : OoxmlDocument) : OoxmlDocument :=
  let relsPath := String.ofList (partPathToRelsPath presPath.toList)
  let idMap := (doc.partRels.get presPath).getD .empty
  let otherRels := (order.arrange idMap.keys).filterMap fun rid => (idMap.get rid).bind fun target =>
    if contains target.toList "slides/" && decide (".xml".toList <:+ target.toList) then none
    else some (rid, target.toList)
  let rels := otherRels ++ slides.map fun slide => (slide.relId, slideTarget slide)
  let relsXml := ("<?xml version=\"1.0\" encoding=\"UTF-8\" standalone=\"yes\"?>\n" ++
    "<Relationships xmlns=\"http://schemas.openxmlformats.org/package/2006/relationships\">").toList ++
    rels.flatMap relationshipXml ++ "\n</Relationships>".toList
  { insertPart doc ⟨relsPath, relsXml⟩ with
    partRels := doc.partRels.insert presPath
      (SortedMap.putRows .empty (rels.map fun rel => (rel.1, String.ofList rel.2))) }

/-- A part is copied if the source has it. -/
def copyPart (src : OoxmlDocument) (dst : OoxmlDocument) (path : String) : OoxmlDocument :=
  (src.getPart path).elim dst (insertPart dst)

def copySlideParts (slide : SlideRef) (src dst : OoxmlDocument) : OoxmlDocument :=
  let dst := copyPart src dst slide.partPath
  let dst := copyPart src dst (String.ofList (partPathToRelsPath slide.partPath.toList))
  let targets := ((src.partRels.get slide.partPath).getD .empty).entries.map fun rel =>
    String.ofList (resolveRelativePath slide.partPath.toList rel.2.toList)
  targets.foldl (fun dst resolved => if dst.parts.contains resolved then dst else copyPart src dst resolved) dst

def slideCt : String := "application/vnd.openxmlformats-officedocument.presentationml.slide+xml"

def updateContentTypes (slides : List SlideRef) (doc : OoxmlDocument) : OoxmlDocument :=
  match doc.getPart "[Content_Types].xml" with
  | none => doc
  | some part =>
    let missing := slides.filter fun slide => !contains part.content ("/" ++ slide.partPath)
    if missing = [] then doc
    else
      let old := (Engine.splitLines part.content []).flatMap fun line =>
        if contains line.toList "<Override " then line.toList ++ ['\n'] else []
      let new := missing.flatMap fun slide => "  <Override PartName=\"/".toList ++ slide.partPath.toList ++
        "\" ContentType=\"".toList ++ slideCt.toList ++ "\"/>\n".toList
      doc.setContent "[Content_Types].xml" <|
        ("<?xml version=\"1.0\" encoding=\"UTF-8\" standalone=\"yes\"?>\n" ++
          "<Types xmlns=\"http://schemas.openxmlformats.org/package/2006/content-types\">\n" ++
          "  <Default Extension=\"rels\" " ++
          "ContentType=\"application/vnd.openxmlformats-package.relationships+xml\"/>\n" ++
          "  <Default Extension=\"xml\" ContentType=\"application/xml\"/>\n").toList ++
        (old ++ new) ++ "</Types>".toList

/-- The parts of a merged slide are copied from the sides. -/
def copyMerged (oursDoc theirsDoc : OoxmlDocument) (base ours theirs : List SlideRef)
    (dst : OoxmlDocument) (slide : SlideRef) : OoxmlDocument :=
  match byId base slide.slideId with
  | some b =>
    if slide.contentHash ≠ b.contentHash then
      let dst := match byId ours slide.slideId with
        | some src => if src.contentHash = slide.contentHash then copySlideParts src oursDoc dst else dst
        | none => dst
      match byId theirs slide.slideId with
      | some src => if src.contentHash = slide.contentHash then copySlideParts src theirsDoc dst else dst
      | none => dst
    else dst
  | none =>
    match byId ours slide.slideId, byId theirs slide.slideId with
    | some src, _ => copySlideParts src oursDoc dst
    | none, some src => copySlideParts src theirsDoc dst
    | none, none => dst

/-- The orders of the hash maps of a merge. -/
structure HashOrders where
  base : KeyOrder
  ours : KeyOrder
  theirs : KeyOrder
  merged : KeyOrder
  rels : KeyOrder
  out : KeyOrder
  ids : IdOrder
  sources : IdOrder

def mergeRaw (fingerprint : List Char → Nat) (orders : HashOrders) (base ours theirs : Archive) :
    Except Failure (Option Archive) := do
  let baseDoc ← OoxmlDocument.fromBytes base
  let oursDoc ← OoxmlDocument.fromBytes ours
  let theirsDoc ← OoxmlDocument.fromBytes theirs
  let baseSlides ← extractSlides fingerprint orders.base baseDoc
  let oursSlides ← extractSlides fingerprint orders.ours oursDoc
  let theirsSlides ← extractSlides fingerprint orders.theirs theirsDoc
  match mergeSlides orders.ids orders.sources baseSlides oursSlides theirsSlides with
  | none => return none
  | some merged =>
    let doc ← OoxmlDocument.fromBytes base
    let presPath ← orError "no presentation.xml" (doc.mainDocumentPath orders.merged)
    let doc := doc.setContent presPath (buildPresentationXml merged)
    let doc := updatePresentationRels orders.rels presPath merged doc
    let doc := merged.foldl (copyMerged oursDoc theirsDoc baseSlides oursSlides theirsSlides) doc
    return some ((updateContentTypes merged doc).toBytes orders.out)

/-! ### The merged slides -/

def newIdOurs (id : Nat) : Nat := (1000000 + id) % 2 ^ 32

def newIdTheirs (id : Nat) : Nat := (2000000 + id) % 2 ^ 32

section Merged
variable {base ours theirs merged : List SlideRef} {order keyOrder : IdOrder} {id : Nat}

theorem byId_eq_some_iff {slides : List SlideRef} (h : (slides.map SlideRef.slideId).Nodup)
    {slide : SlideRef} : byId slides id = some slide ↔ slide ∈ slides ∧ slide.slideId = id := by
  rw [byId, lastRow_eq_some_iff (by rwa [List.map_map]), List.mem_map]
  constructor
  · rintro ⟨slide', hmem, heq⟩
    obtain ⟨rfl, rfl⟩ := Prod.mk.inj heq
    exact ⟨hmem, rfl⟩
  · rintro ⟨hmem, rfl⟩
    exact ⟨slide, hmem, rfl⟩

theorem slideId_of_byId {slides : List SlideRef} {slide : SlideRef} (h : byId slides id = some slide) :
    slide.slideId = id ∧ id ∈ slides.map SlideRef.slideId := by
  obtain ⟨slide', hmem, heq⟩ := List.mem_map.mp (lastRow_mem h)
  obtain ⟨rfl, rfl⟩ := Prod.mk.inj heq
  exact ⟨rfl, List.mem_map_of_mem hmem⟩

theorem byId_eq_none_iff {slides : List SlideRef} :
    byId slides id = none ↔ id ∉ slides.map SlideRef.slideId := by
  rw [byId, lastRow_eq_none_iff]
  simp

theorem mem_allIds : id ∈ allIds base ours theirs ↔ id ∈ base.map SlideRef.slideId ∨
    id ∈ ours.map SlideRef.slideId ∨ id ∈ theirs.map SlideRef.slideId := by
  rw [allIds, List.mem_dedup, List.map_append, List.map_append, List.mem_append, List.mem_append, or_assoc]

/-- What is taken for an id. -/
def taken (base ours theirs : List SlideRef) (id : Nat) : List (Nat × SlideRef) :=
  (sourcesOf id (byId base id) (byId ours id) (byId theirs id)).getD []

/-- Both sides added a slide with this id, but not the same one. -/
def Renamed (base ours theirs : List SlideRef) (id : Nat) : Prop :=
  byId base id = none ∧ ∃ o t, byId ours id = some o ∧ byId theirs id = some t ∧
    o.contentHash ≠ t.contentHash

/-- The ids that are made for two slides with one id are new. -/
structure NewIdsApart (base ours theirs : List SlideRef) : Prop where
  fresh : ∀ i, Renamed base ours theirs i →
    newIdOurs i ∉ allIds base ours theirs ∧ newIdTheirs i ∉ allIds base ours theirs
  injOurs : ∀ i j, Renamed base ours theirs i → Renamed base ours theirs j → newIdOurs i = newIdOurs j → i = j
  injTheirs : ∀ i j, Renamed base ours theirs i → Renamed base ours theirs j →
    newIdTheirs i = newIdTheirs j → i = j
  apart : ∀ i j, Renamed base ours theirs i → Renamed base ours theirs j → newIdOurs i ≠ newIdTheirs j

/-- A slide is taken for its own id, or two for new ids. -/
theorem taken_cases (base ours theirs : List SlideRef) (id : Nat) :
    (∀ row ∈ taken base ours theirs id, row.1 = id ∧ row.2.slideId = id) ∨
    ∃ o t, byId base id = none ∧ byId ours id = some o ∧ byId theirs id = some t ∧
      o.contentHash ≠ t.contentHash ∧ taken base ours theirs id =
        [(newIdOurs id, { o with slideId := newIdOurs id }),
          (newIdTheirs id, { t with slideId := newIdTheirs id })] := by
  unfold taken
  cases hbase : byId base id with
  | none =>
    cases hours : byId ours id with
    | none =>
      cases htheirs : byId theirs id with
      | none => exact .inl (by simp [sourcesOf])
      | some t => exact .inl (by simp [sourcesOf, (slideId_of_byId htheirs).1])
    | some o =>
      cases htheirs : byId theirs id with
      | none => exact .inl (by simp [sourcesOf, (slideId_of_byId hours).1])
      | some t =>
        by_cases hsame : o.contentHash = t.contentHash
        · exact .inl (by simp [sourcesOf, hsame, (slideId_of_byId hours).1])
        · refine .inr ⟨o, t, rfl, rfl, rfl, hsame, ?_⟩
          rw [sourcesOf, if_neg hsame]
          rfl
  | some b =>
    refine .inl ?_
    cases hours : byId ours id with
    | none => simp [sourcesOf]
    | some o =>
      cases htheirs : byId theirs id with
      | none => simp [sourcesOf]
      | some t =>
        rw [sourcesOf]
        split_ifs <;> simp [(slideId_of_byId hours).1, (slideId_of_byId htheirs).1]

theorem slideId_of_taken {row : Nat × SlideRef} (h : row ∈ taken base ours theirs id) :
    row.2.slideId = row.1 := by
  rcases taken_cases base ours theirs id with hown | ⟨o, t, -, -, -, -, hrows⟩
  · rw [(hown row h).1, (hown row h).2]
  · rw [hrows, List.mem_cons, List.mem_singleton] at h
    rcases h with rfl | rfl <;> rfl

/-- The new slides are taken under their new ids, and nothing else is. -/
theorem taken_renamed {o t : SlideRef} (hbase : byId base id = none) (hours : byId ours id = some o)
    (htheirs : byId theirs id = some t) (h : o.contentHash ≠ t.contentHash) :
    taken base ours theirs id = [(newIdOurs id, { o with slideId := newIdOurs id }),
      (newIdTheirs id, { t with slideId := newIdTheirs id })] := by
  rw [taken, hbase, hours, htheirs, sourcesOf, if_neg h]
  rfl

theorem mergeSlides_cases (h : mergeSlides order keyOrder base ours theirs = some merged) :
    let ids := order.arrange (allIds base ours theirs)
    let sources := ids.flatMap (taken base ours theirs)
    ∃ appended renamed,
      (∀ id, id ∈ appended ↔ id ∈ ids ∧ byId base id = none ∧
        ((byId ours id).isSome = true ∨ (byId theirs id).isSome = true) ∧ (lastRow sources id).isSome = true) ∧
      (∀ id, id ∈ renamed ↔ id ∈ sources.map Prod.fst ∧ byId base id = none ∧ id ∉ ids) ∧
      appended.Nodup ∧ renamed.Nodup ∧
      merged = (((base.filter fun slide => (byId ours slide.slideId).isSome ||
        (byId theirs slide.slideId).isSome).map SlideRef.slideId) ++ (appended ++ renamed)).filterMap
          fun id => (lastRow sources id).or (byId base id) := by
  obtain ⟨results, hresults, h⟩ := Option.bind_eq_some_iff.mp h
  have hmap := mapM_eq_some_iff.mp hresults
  have hflatten : results.flatten =
      (order.arrange (allIds base ours theirs)).flatMap (taken base ours theirs) := by
    have hresults' := congrArg (List.map fun r => Option.getD r []) hmap
    rw [List.map_map, List.map_map] at hresults'
    rw [List.flatMap_def]
    refine congrArg List.flatten (Eq.trans ?_ hresults'.symm)
    exact (List.map_id _).symm
  rw [hflatten] at h
  refine ⟨_, _, fun id => ?_, fun id => ?_, ?_, ?_, (Option.some.inj h).symm⟩
  · simp [and_assoc]
  · rw [List.mem_filter, (keyOrder.perm _).mem_iff, List.mem_dedup]
    simp
  · exact ((order.perm _).nodup_iff.mpr (List.nodup_dedup _)).filter _
  · exact ((keyOrder.perm _).nodup_iff.mpr (List.nodup_dedup _)).filter _

theorem no_conflict (h : mergeSlides order keyOrder base ours theirs = some merged)
    (hid : id ∈ allIds base ours theirs) :
    sourcesOf id (byId base id) (byId ours id) (byId theirs id) ≠ none := by
  obtain ⟨results, hresults, -⟩ := Option.bind_eq_some_iff.mp h
  intro hnone
  refine Option.some_ne_none _ (hresults.symm.trans (mapM_eq_none_iff.mpr ⟨id, ?_, hnone⟩))
  exact (order.perm _).mem_iff.mpr hid

/-! ### What is taken for an id -/

section Taken
variable (hapart : NewIdsApart base ours theirs)
include hapart

theorem lastRow_sources (hid : id ∈ allIds base ours theirs) :
    lastRow ((order.arrange (allIds base ours theirs)).flatMap (taken base ours theirs)) id =
      lastRow (taken base ours theirs id) id := by
  refine lastRow_flatMap ((order.perm _).mem_iff.mpr hid) fun j _ hne => lastRow_eq_none_iff.mpr ?_
  rcases taken_cases base ours theirs j with hown | ⟨o, t, hb, ho, ht, hdiff, hrows⟩
  · intro row hrow hkey
    exact hne ((hown row hrow).1.symm.trans hkey)
  · obtain ⟨hours, htheirs⟩ := hapart.fresh j ⟨hb, o, t, ho, ht, hdiff⟩
    rw [hrows]
    simp only [List.mem_cons, List.not_mem_nil, or_false, forall_eq_or_imp, forall_eq]
    exact ⟨fun heq => hours (heq ▸ hid), fun heq => htheirs (heq ▸ hid)⟩

theorem lastRow_sources_renamed (order : IdOrder) {o t : SlideRef} (hbase : byId base id = none)
    (hours : byId ours id = some o) (htheirs : byId theirs id = some t) (h : o.contentHash ≠ t.contentHash) :
    let sources := (order.arrange (allIds base ours theirs)).flatMap (taken base ours theirs)
    lastRow sources (newIdOurs id) = some { o with slideId := newIdOurs id } ∧
      lastRow sources (newIdTheirs id) = some { t with slideId := newIdTheirs id } := by
  have hrenamed : Renamed base ours theirs id := ⟨hbase, o, t, hours, htheirs, h⟩
  have hid : id ∈ order.arrange (allIds base ours theirs) :=
    (order.perm _).mem_iff.mpr (mem_allIds.mpr (.inr (.inl (slideId_of_byId hours).2)))
  have hother : ∀ j ∈ order.arrange (allIds base ours theirs), j ≠ id →
      ∀ row ∈ taken base ours theirs j, row.1 ≠ newIdOurs id ∧ row.1 ≠ newIdTheirs id := by
    intro j hj hne
    rw [(order.perm _).mem_iff] at hj
    rcases taken_cases base ours theirs j with hown | ⟨o', t', hb, ho, ht, hdiff, hrows⟩
    · intro row hrow
      rw [(hown row hrow).1]
      exact ⟨ne_of_mem_of_not_mem hj (hapart.fresh id hrenamed).1,
        ne_of_mem_of_not_mem hj (hapart.fresh id hrenamed).2⟩
    · have hrenamed' : Renamed base ours theirs j := ⟨hb, o', t', ho, ht, hdiff⟩
      rw [hrows]
      simp only [List.mem_cons, List.not_mem_nil, or_false, forall_eq_or_imp, forall_eq]
      exact ⟨⟨fun heq => hne (hapart.injOurs j id hrenamed' hrenamed heq), hapart.apart j id hrenamed' hrenamed⟩,
        (hapart.apart id j hrenamed hrenamed').symm,
        fun heq => hne (hapart.injTheirs j id hrenamed' hrenamed heq)⟩
  have hne := hapart.apart id id hrenamed hrenamed
  constructor
  · rw [lastRow_flatMap hid fun j hj hj' => lastRow_eq_none_iff.mpr fun row hrow => (hother j hj hj' row hrow).1,
      taken_renamed hbase hours htheirs h]
    simp [lastRow, hne]
  · rw [lastRow_flatMap hid fun j hj hj' => lastRow_eq_none_iff.mpr fun row hrow => (hother j hj hj' row hrow).2,
      taken_renamed hbase hours htheirs h]
    simp [lastRow]

end Taken

theorem map_filterMap_self {f : Nat → Option SlideRef} {ids : List Nat}
    (h : ∀ id ∈ ids, ∃ slide, f id = some slide ∧ slide.slideId = id) :
    (ids.filterMap f).map SlideRef.slideId = ids := by
  induction ids with
  | nil => rfl
  | cons id ids ih =>
    obtain ⟨slide, hslide, hid⟩ := h id (List.mem_cons_self ..)
    rw [List.filterMap_cons_some hslide, List.map_cons, hid,
      ih fun id' hid' => h id' (List.mem_cons_of_mem _ hid')]

/-- The ids of the merged slides: those of the base that a side still has, and new ones. -/
theorem ids_of_mergeSlides
    (h : mergeSlides order keyOrder base ours theirs = some merged) :
    ∃ new : List Nat, (∀ id ∈ new, id ∉ base.map SlideRef.slideId) ∧ new.Nodup ∧
      merged.map SlideRef.slideId = (base.filter fun slide => (byId ours slide.slideId).isSome ||
        (byId theirs slide.slideId).isSome).map SlideRef.slideId ++ new := by
  obtain ⟨appended, renamed, happended, hrenamed, happendedNodup, hrenamedNodup, rfl⟩ := mergeSlides_cases h
  refine ⟨appended ++ renamed, fun id hid => ?_, ?_, ?_⟩
  · rcases List.mem_append.mp hid with hid | hid
    · exact byId_eq_none_iff.mp ((happended id).mp hid).2.1
    · exact byId_eq_none_iff.mp ((hrenamed id).mp hid).2.1
  · refine List.nodup_append.mpr ⟨happendedNodup, hrenamedNodup, fun id hid id' hid' heq => ?_⟩
    exact ((hrenamed id').mp hid').2.2 (heq ▸ ((happended id).mp hid).1)
  · refine map_filterMap_self fun id hid => ?_
    have hsome : ((lastRow ((order.arrange (allIds base ours theirs)).flatMap (taken base ours theirs)) id).or
        (byId base id)).isSome = true := by
      rw [Option.isSome_or, Bool.or_eq_true]
      rcases List.mem_append.mp hid with hid | hid
      · obtain ⟨slide, hslide, rfl⟩ := List.mem_map.mp hid
        refine .inr (Option.isSome_iff_ne_none.mpr fun hnone => ?_)
        exact byId_eq_none_iff.mp hnone (List.mem_map_of_mem (List.mem_filter.mp hslide).1)
      · rcases List.mem_append.mp hid with hid | hid
        · exact .inl ((happended id).mp hid).2.2.2
        · refine .inl (Option.isSome_iff_ne_none.mpr fun hnone => ?_)
          obtain ⟨row, hrow, hkey⟩ := List.mem_map.mp ((hrenamed id).mp hid).1
          exact lastRow_eq_none_iff.mp hnone row hrow hkey
    obtain ⟨slide, hslide⟩ := Option.isSome_iff_exists.mp hsome
    refine ⟨slide, hslide, ?_⟩
    rcases Option.or_eq_some_iff.mp hslide with htaken | ⟨-, hbyId⟩
    · obtain ⟨j, -, hrow⟩ := List.mem_flatMap.mp (lastRow_mem htaken)
      exact slideId_of_taken hrow
    · exact (slideId_of_byId hbyId).1

/-- What stands for an id is in the merged list. -/
theorem mem_mergeSlides (h : mergeSlides order keyOrder base ours theirs = some merged) (id : Nat)
    {slide : SlideRef} (hslide : (lastRow ((order.arrange (allIds base ours theirs)).flatMap (taken base ours theirs)) id).or
      (byId base id) = some slide)
    (hid : (byId base id).isSome = true ∧ ((byId ours id).isSome = true ∨ (byId theirs id).isSome = true) ∨
      byId base id = none) : slide ∈ merged := by
  obtain ⟨appended, renamed, happended, hrenamed, -, -, rfl⟩ := mergeSlides_cases h
  refine List.mem_filterMap.mpr ⟨id, ?_, hslide⟩
  rcases hid with ⟨hbase, hside⟩ | hbase
  · obtain ⟨b, hb⟩ := Option.isSome_iff_exists.mp hbase
    obtain ⟨b', hb', rfl⟩ := List.mem_map.mp (slideId_of_byId hb).2
    refine List.mem_append_left _ (List.mem_map_of_mem (List.mem_filter.mpr ⟨hb', ?_⟩))
    rwa [Bool.or_eq_true]
  · refine List.mem_append_right _ ?_
    rw [hbase, Option.or_none] at hslide
    by_cases hin : id ∈ order.arrange (allIds base ours theirs)
    · refine List.mem_append_left _ ((happended id).mpr ⟨hin, hbase, ?_, by rw [hslide]; rfl⟩)
      rw [(order.perm _).mem_iff, mem_allIds] at hin
      rcases hin with hin | hin | hin
      · exact absurd hin (byId_eq_none_iff.mp hbase)
      · exact .inl (Option.isSome_iff_ne_none.mpr fun hnone => byId_eq_none_iff.mp hnone hin)
      · exact .inr (Option.isSome_iff_ne_none.mpr fun hnone => byId_eq_none_iff.mp hnone hin)
    · exact List.mem_append_right _ ((hrenamed id).mpr
        ⟨List.mem_map_of_mem (lastRow_mem hslide), hbase, hin⟩)

end Merged

/-! ### The presentation's part -/

section Frame
variable {pres : String} {part : OoxmlPart} {src dst : OoxmlDocument}

/-- The part is a text with this content. -/
def HasText (doc : OoxmlDocument) (path : String) (content : List Char) : Prop :=
  doc.getPart path = some ⟨path, content⟩ ∧ doc.binaryParts.get path = none

variable {content : List Char}

theorem hasText_insertPart (h : HasText dst pres content) (hpath : part.path ≠ pres) :
    HasText (insertPart dst part) pres content := by
  refine ⟨?_, h.2⟩
  unfold insertPart OoxmlDocument.getPart
  rw [SortedMap.get_insert, if_neg hpath.symm]
  exact h.1

theorem hasText_copyPart (h : HasText dst pres content) (hsrc : src.Named) {path : String}
    (hpath : path ≠ pres) : HasText (copyPart src dst path) pres content := by
  unfold copyPart
  cases hpart : src.getPart path with
  | none => exact h
  | some part => exact hasText_insertPart h (by rwa [hsrc path part hpart])

theorem rels_ne (hpres : pres.toList.getLast? = some 'l') (path : List Char) :
    String.ofList (partPathToRelsPath path) ≠ pres := by
  intro heq
  have hlast := getLast?_partPathToRelsPath path
  rw [← String.toList_ofList (l := partPathToRelsPath path), heq, hpres] at hlast
  cases hlast

/-- A part that is there is not replaced by what a slide refers to. -/
theorem hasText_copySlideParts (h : HasText dst pres content) (hsrc : src.Named)
    (hpres : pres.toList.getLast? = some 'l') {slide : SlideRef} (hslide : slide.partPath ≠ pres) :
    HasText (copySlideParts slide src dst) pres content := by
  have hslide := hasText_copyPart (hasText_copyPart h hsrc hslide) hsrc (rels_ne hpres slide.partPath.toList)
  unfold copySlideParts
  refine List.foldlRecOn (motive := fun dst => HasText dst pres content) _ _ hslide ?_
  intro dst hdst resolved _
  split
  · exact hdst
  · rename_i hnew
    refine hasText_copyPart hdst hsrc fun heq => hnew ?_
    have hpart : dst.parts.get pres = some ⟨pres, content⟩ := hdst.1
    rw [heq, SortedMap.contains_eq, hpart]
    rfl

theorem mem_of_byId {slides : List SlideRef} {id : Nat} {slide : SlideRef} (h : byId slides id = some slide) :
    slide ∈ slides := by
  obtain ⟨slide', hmem, heq⟩ := List.mem_map.mp (lastRow_mem h)
  exact (Prod.mk.inj heq).2 ▸ hmem

theorem hasText_copyMerged (h : HasText dst pres content) {oursDoc theirsDoc : OoxmlDocument}
    (hours : oursDoc.Named) (htheirs : theirsDoc.Named) (hpres : pres.toList.getLast? = some 'l')
    {base ours theirs : List SlideRef} (hslides : ∀ slide ∈ ours ++ theirs, slide.partPath ≠ pres)
    (slide : SlideRef) : HasText (copyMerged oursDoc theirsDoc base ours theirs dst slide) pres content := by
  have hfromOurs : ∀ s, byId ours slide.slideId = some s → ∀ dst, HasText dst pres content →
      HasText (copySlideParts s oursDoc dst) pres content := fun s hbyId dst hdst =>
    hasText_copySlideParts hdst hours hpres (hslides s (List.mem_append_left _ (mem_of_byId hbyId)))
  have hfromTheirs : ∀ s, byId theirs slide.slideId = some s → ∀ dst, HasText dst pres content →
      HasText (copySlideParts s theirsDoc dst) pres content := fun s hbyId dst hdst =>
    hasText_copySlideParts hdst htheirs hpres (hslides s (List.mem_append_right _ (mem_of_byId hbyId)))
  unfold copyMerged
  cases byId base slide.slideId with
  | none =>
    cases hbyOurs : byId ours slide.slideId with
    | some s => exact hfromOurs s hbyOurs dst h
    | none =>
      cases hbyTheirs : byId theirs slide.slideId with
      | some s => exact hfromTheirs s hbyTheirs dst h
      | none => exact h
  | some b =>
    simp only
    split
    · have hdst : HasText (match byId ours slide.slideId with
          | some src => if src.contentHash = slide.contentHash then copySlideParts src oursDoc dst else dst
          | none => dst) pres content := by
        cases hbyOurs : byId ours slide.slideId with
        | none => exact h
        | some s =>
          simp only
          split
          · exact hfromOurs s hbyOurs dst h
          · exact h
      cases hbyTheirs : byId theirs slide.slideId with
      | none => exact hdst
      | some s =>
        simp only
        split
        · exact hfromTheirs s hbyTheirs _ hdst
        · exact hdst
    · exact h

theorem hasText_updateContentTypes (h : HasText dst pres content) (hpres : pres ≠ "[Content_Types].xml")
    (slides : List SlideRef) : HasText (updateContentTypes slides dst) pres content := by
  unfold updateContentTypes
  split
  · exact h
  · simp only
    split
    · exact h
    · refine ⟨(OoxmlDocument.getPart_setContent_of_ne _ _ hpres).trans h.1, ?_⟩
      rw [OoxmlDocument.binaryParts_setContent]
      exact h.2

theorem partBytes_of_hasText (h : HasText dst pres content) : dst.partBytes pres = some (encode content) := by
  have hpart : dst.parts.get pres = some ⟨pres, content⟩ := h.1
  rw [OoxmlDocument.partBytes, hpart, h.2]
  rfl

end Frame

/-- A package with a presentation whose slides have distinct ids. -/
structure Presentation (fingerprint : List Char → Nat) (order : KeyOrder) where
  archive : Archive
  doc : OoxmlDocument
  slides : List SlideRef
  read : OoxmlDocument.fromBytes archive = .ok doc
  extracted : extractSlides fingerprint order doc = .ok slides
  distinct : (slides.map SlideRef.slideId).Nodup

/-- The merged slides are written as the list of the presentation. -/
theorem mergeRaw_presentation {fingerprint : List Char → Nat} {orders : HashOrders}
    (base : Presentation fingerprint orders.base) (ours : Presentation fingerprint orders.ours)
    (theirs : Presentation fingerprint orders.theirs) {merged : List SlideRef} {pres : String}
    (h : mergeSlides orders.ids orders.sources base.slides ours.slides theirs.slides = some merged)
    (hpres : base.doc.mainDocumentPath orders.merged = some pres) (htext : base.doc.binaryParts.get pres = none)
    (hslides : ∀ slide ∈ ours.slides ++ theirs.slides, slide.partPath ≠ pres) :
    ∃ out, mergeRaw fingerprint orders base.archive ours.archive theirs.archive = .ok (some out) ∧
      out.get pres = some (encode (buildPresentationXml merged)) := by
  obtain ⟨⟨part, hpart⟩, hlast, hne⟩ := OoxmlDocument.getPart_of_mainDocumentPath hpres
  have hpath := OoxmlDocument.named_fromBytes base.read pres part hpart
  have hstart : HasText (base.doc.setContent pres (buildPresentationXml merged)) pres
      (buildPresentationXml merged) := by
    refine ⟨(OoxmlDocument.getPart_setContent hpart _).trans ?_, by rwa [OoxmlDocument.binaryParts_setContent]⟩
    rw [hpath]
  have hrels : HasText (updatePresentationRels orders.rels pres merged (base.doc.setContent pres
      (buildPresentationXml merged))) pres (buildPresentationXml merged) :=
    hasText_insertPart hstart (rels_ne hlast pres.toList)
  have hcopied := List.foldlRecOn (motive := fun dst => HasText dst pres (buildPresentationXml merged)) merged
    (copyMerged ours.doc theirs.doc base.slides ours.slides theirs.slides) hrels fun dst hdst slide _ =>
      hasText_copyMerged hdst (OoxmlDocument.named_fromBytes ours.read)
        (OoxmlDocument.named_fromBytes theirs.read) hlast hslides slide
  have hout := partBytes_of_hasText (hasText_updateContentTypes hcopied hne merged)
  rw [← OoxmlDocument.get_toBytes orders.out] at hout
  refine ⟨_, ?_, hout⟩
  simp only [mergeRaw, base.read, ours.read, theirs.read, base.extracted, ours.extracted, theirs.extracted,
    bind, Except.bind, h, hpres, orError, pure, Except.pure]

/-- The slides of the base that a side still has come first, in their order and as the side has them
that changed them; the added slides follow, each of them. -/
theorem merge_slides {base ours theirs merged : List SlideRef} {order keyOrder : IdOrder}
    (hbase : (base.map SlideRef.slideId).Nodup) (hours : (ours.map SlideRef.slideId).Nodup)
    (htheirs : (theirs.map SlideRef.slideId).Nodup) (hapart : NewIdsApart base ours theirs)
    (h : mergeSlides order keyOrder base ours theirs = some merged) :
    (∃ new : List Nat, (∀ id ∈ new, id ∉ base.map SlideRef.slideId) ∧
      merged.map SlideRef.slideId = (base.filter fun slide => (byId ours slide.slideId).isSome ||
        (byId theirs slide.slideId).isSome).map SlideRef.slideId ++ new) ∧
    (merged.map SlideRef.slideId).Nodup ∧
    (∀ b ∈ base, ∀ o ∈ ours, ∀ t ∈ theirs, o.slideId = b.slideId → t.slideId = b.slideId →
      (if o.contentHash ≠ b.contentHash then o else if t.contentHash ≠ b.contentHash then t else b) ∈ merged) ∧
    (∀ o ∈ ours, o.slideId ∉ base.map SlideRef.slideId →
      (∀ t ∈ theirs, t.slideId = o.slideId → t.contentHash = o.contentHash) → o ∈ merged) ∧
    (∀ t ∈ theirs, t.slideId ∉ base.map SlideRef.slideId → t.slideId ∉ ours.map SlideRef.slideId →
      t ∈ merged) ∧
    ∀ o ∈ ours, ∀ t ∈ theirs, o.slideId = t.slideId → o.slideId ∉ base.map SlideRef.slideId →
      o.contentHash ≠ t.contentHash → { o with slideId := newIdOurs o.slideId } ∈ merged ∧
        { t with slideId := newIdTheirs o.slideId } ∈ merged := by
  obtain ⟨new, hnew, hnewNodup, hids⟩ := ids_of_mergeSlides h
  refine ⟨⟨new, hnew, hids⟩, ?_, ?_, ?_, ?_, ?_⟩
  · rw [hids]
    refine List.nodup_append.mpr ⟨hbase.sublist (List.filter_sublist.map _), hnewNodup, ?_⟩
    rintro id hid id' hid' rfl
    obtain ⟨slide, hslide, rfl⟩ := List.mem_map.mp hid
    exact hnew _ hid' (List.mem_map_of_mem (List.mem_filter.mp hslide).1)
  · intro b hb o ho t ht hob htb
    have hbyBase := (byId_eq_some_iff hbase).mpr ⟨hb, rfl⟩
    have hbyOurs := (byId_eq_some_iff hours).mpr ⟨ho, hob⟩
    have hbyTheirs := (byId_eq_some_iff htheirs).mpr ⟨ht, htb⟩
    refine mem_mergeSlides h b.slideId ?_
      (.inl ⟨by rw [hbyBase]; rfl, .inl (by rw [hbyOurs]; rfl)⟩)
    have hid : b.slideId ∈ allIds base ours theirs := mem_allIds.mpr (.inl (List.mem_map_of_mem hb))
    have hsettled := no_conflict h hid
    rw [lastRow_sources hapart hid, taken]
    rw [hbyBase, hbyOurs, hbyTheirs, sourcesOf] at hsettled ⊢
    split_ifs at hsettled ⊢ <;> simp_all [lastRow]
  · intro o ho hnotBase hsame
    have hbyBase := byId_eq_none_iff.mpr hnotBase
    have hbyOurs := (byId_eq_some_iff hours).mpr ⟨ho, rfl⟩
    refine mem_mergeSlides h o.slideId ?_ (.inr hbyBase)
    rw [lastRow_sources hapart (mem_allIds.mpr (.inr (.inl (List.mem_map_of_mem ho)))), taken, hbyBase, hbyOurs]
    cases hbyTheirs : byId theirs o.slideId with
    | none => simp [sourcesOf, lastRow]
    | some t =>
      have ht := (byId_eq_some_iff htheirs).mp hbyTheirs
      simp [sourcesOf, lastRow, hsame t ht.1 ht.2]
  · intro t ht hnotBase hnotOurs
    have hbyBase := byId_eq_none_iff.mpr hnotBase
    have hbyOurs := byId_eq_none_iff.mpr hnotOurs
    have hbyTheirs := (byId_eq_some_iff htheirs).mpr ⟨ht, rfl⟩
    refine mem_mergeSlides h t.slideId ?_ (.inr hbyBase)
    rw [lastRow_sources hapart (mem_allIds.mpr (.inr (.inr (List.mem_map_of_mem ht)))), taken, hbyBase,
      hbyOurs, hbyTheirs]
    simp [sourcesOf, lastRow]
  · intro o ho t ht hot hnotBase hdiff
    have hbyBase := byId_eq_none_iff.mpr hnotBase
    have hbyOurs := (byId_eq_some_iff hours).mpr ⟨ho, rfl⟩
    have hbyTheirs := (byId_eq_some_iff htheirs).mpr ⟨ht, hot.symm⟩
    have hrenamed : Renamed base ours theirs o.slideId := ⟨hbyBase, o, t, hbyOurs, hbyTheirs, hdiff⟩
    obtain ⟨hnewOurs, hnewTheirs⟩ := lastRow_sources_renamed hapart order hbyBase hbyOurs hbyTheirs hdiff
    have hfresh := hapart.fresh o.slideId hrenamed
    have hnone : ∀ id, id ∉ allIds base ours theirs → byId base id = none := fun id hid =>
      byId_eq_none_iff.mpr fun hin => hid (mem_allIds.mpr (.inl hin))
    exact ⟨mem_mergeSlides h _ (by rw [hnewOurs, Option.some_or]) (.inr (hnone _ hfresh.1)),
      mem_mergeSlides h _ (by rw [hnewTheirs, Option.some_or]) (.inr (hnone _ hfresh.2))⟩


/-- The merged list is written, with the slides that a side has and all that were added. -/
theorem merge_presentations {fingerprint : List Char → Nat} {orders : HashOrders}
    (base : Presentation fingerprint orders.base) (ours : Presentation fingerprint orders.ours)
    (theirs : Presentation fingerprint orders.theirs) {merged : List SlideRef} {pres : String}
    (hapart : NewIdsApart base.slides ours.slides theirs.slides)
    (h : mergeSlides orders.ids orders.sources base.slides ours.slides theirs.slides = some merged)
    (hpres : base.doc.mainDocumentPath orders.merged = some pres) (htext : base.doc.binaryParts.get pres = none)
    (hslides : ∀ slide ∈ ours.slides ++ theirs.slides, slide.partPath ≠ pres) :
    (∃ out, mergeRaw fingerprint orders base.archive ours.archive theirs.archive = .ok (some out) ∧
      out.get pres = some (encode (buildPresentationXml merged))) ∧
    (∃ new : List Nat, (∀ id ∈ new, id ∉ base.slides.map SlideRef.slideId) ∧
      merged.map SlideRef.slideId = (base.slides.filter fun slide => (byId ours.slides slide.slideId).isSome ||
        (byId theirs.slides slide.slideId).isSome).map SlideRef.slideId ++ new) ∧
    (merged.map SlideRef.slideId).Nodup ∧
    (∀ b ∈ base.slides, ∀ o ∈ ours.slides, ∀ t ∈ theirs.slides, o.slideId = b.slideId → t.slideId = b.slideId →
      (if o.contentHash ≠ b.contentHash then o else if t.contentHash ≠ b.contentHash then t else b) ∈ merged) ∧
    (∀ o ∈ ours.slides, o.slideId ∉ base.slides.map SlideRef.slideId →
      (∀ t ∈ theirs.slides, t.slideId = o.slideId → t.contentHash = o.contentHash) → o ∈ merged) ∧
    (∀ t ∈ theirs.slides, t.slideId ∉ base.slides.map SlideRef.slideId →
      t.slideId ∉ ours.slides.map SlideRef.slideId → t ∈ merged) ∧
    ∀ o ∈ ours.slides, ∀ t ∈ theirs.slides, o.slideId = t.slideId →
      o.slideId ∉ base.slides.map SlideRef.slideId → o.contentHash ≠ t.contentHash →
      { o with slideId := newIdOurs o.slideId } ∈ merged ∧ { t with slideId := newIdTheirs o.slideId } ∈ merged :=
  ⟨mergeRaw_presentation base ours theirs h hpres htext hslides,
    merge_slides base.distinct ours.distinct theirs.distinct hapart h⟩

/-! ### Small presentations -/

def slideList (slides : List (String × String)) (others : String) : String :=
  "<p:presentation><p:sldIdLst>" ++ String.join (slides.map fun slide =>
    "<p:sldId id=\"" ++ slide.1 ++ "\" r:id=\"r" ++ slide.1 ++ "\"/>") ++ "</p:sldIdLst>" ++ others ++
    "</p:presentation>"

def slideRels (slides : List (String × String)) : String :=
  "\n".intercalate (slides.map fun slide =>
    "<Relationship Id=\"r" ++ slide.1 ++ "\" Target=\"slides/" ++ slide.1 ++ ".xml\"/>")

def package (slides : List (String × String)) (others : String) : List (String × List UInt8) :=
  [("ppt/presentation.xml", encode (slideList slides others).toList),
    ("ppt/_rels/presentation.xml.rels", encode (slideRels slides).toList)] ++
  slides.map fun slide => ("ppt/slides/" ++ slide.1 ++ ".xml", encode slide.2.toList)

def one : Archive := ⟨package [("256", "a")] "<p:sldSz/>", by decide +kernel⟩

def two : Archive := ⟨package [("256", "a"), ("257", "b")] "", by decide +kernel⟩

def listed : KeyOrder := ⟨fun keys => keys, List.Perm.refl⟩

def listedIds : IdOrder := ⟨id, fun _ => .refl _⟩

def listedOrders : HashOrders := ⟨listed, listed, listed, listed, listed, listed, listedIds, listedIds⟩

def firstSlide : SlideRef := ⟨256, "r256", "ppt/slides/256.xml", 1⟩

def secondSlide : SlideRef := ⟨257, "r257", "ppt/slides/257.xml", 1⟩

theorem exists_presentation {archive : Archive} {slides : List SlideRef} {pres : Option String}
    (h : ((OoxmlDocument.fromBytes archive).toOption.bind fun doc =>
      (extractSlides List.length listed doc).toOption.map fun slides =>
        (slides, doc.mainDocumentPath listed, doc.binaryParts.entries)) = some (slides, pres, []))
    (hdistinct : (slides.map SlideRef.slideId).Nodup) :
    ∃ p : Presentation List.length listed, p.archive = archive ∧ p.slides = slides ∧
      p.doc.mainDocumentPath listed = pres ∧ ∀ path, p.doc.binaryParts.get path = none := by
  obtain ⟨doc, hdoc, h⟩ := Option.bind_eq_some_iff.mp h
  obtain ⟨slides', hslides, heq⟩ := Option.map_eq_some_iff.mp h
  cases hread : OoxmlDocument.fromBytes archive with
  | error e =>
    rw [hread] at hdoc
    cases hdoc
  | ok doc' =>
    rw [hread] at hdoc
    cases hdoc
    cases hextract : extractSlides List.length listed doc with
    | error e =>
      rw [hextract] at hslides
      cases hslides
    | ok slides'' =>
      rw [hextract] at hslides
      cases hslides
      simp only [Prod.mk.injEq] at heq
      obtain ⟨rfl, hpres, hentries⟩ := heq
      refine ⟨⟨archive, doc, _, hread, hextract, hdistinct⟩, rfl, rfl, hpres, fun path => ?_⟩
      rw [SortedMap.get, hentries]
      rfl

theorem exists_one : ∃ p : Presentation List.length listed, p.archive = one ∧ p.slides = [firstSlide] ∧
    p.doc.mainDocumentPath listed = some "ppt/presentation.xml" ∧
    ∀ path, p.doc.binaryParts.get path = none :=
  exists_presentation (by decide +kernel) (by decide)

theorem exists_two : ∃ p : Presentation List.length listed, p.archive = two ∧
    p.slides = [firstSlide, secondSlide] ∧
    p.doc.mainDocumentPath listed = some "ppt/presentation.xml" ∧
    ∀ path, p.doc.binaryParts.get path = none :=
  exists_presentation (by decide +kernel) (by decide)

/-- A slide that they added is in the list that is written. -/
theorem merge_presentations_added :
    ∃ out, mergeRaw List.length listedOrders one one two = .ok (some out) ∧
      out.get "ppt/presentation.xml" = some (encode (buildPresentationXml [firstSlide, secondSlide])) ∧
      secondSlide ∈ [firstSlide, secondSlide] := by
  obtain ⟨base, hbase, hbaseSlides, hpres, htext⟩ := exists_one
  obtain ⟨theirs, htheirs, htheirsSlides, -, -⟩ := exists_two
  have hmerge : mergeSlides listedOrders.ids listedOrders.sources base.slides base.slides theirs.slides =
      some [firstSlide, secondSlide] := by
    rw [hbaseSlides, htheirsSlides]
    decide +kernel
  have hrenamed : ∀ i, ¬ Renamed base.slides base.slides theirs.slides i := by
    rintro i ⟨hnone, o, t, ho, -⟩
    rw [hnone] at ho
    cases ho
  obtain ⟨⟨out, hout, hlist⟩, -, -, -, -, hadded, -⟩ := @merge_presentations _ listedOrders base base
    theirs _ _ ⟨fun i h => absurd h (hrenamed i), fun i _ h => absurd h (hrenamed i),
      fun i _ h => absurd h (hrenamed i), fun i _ h => absurd h (hrenamed i)⟩ hmerge hpres (htext _) (by
      rw [hbaseSlides, htheirsSlides]
      decide)
  rw [hbase, htheirs] at hout
  exact ⟨out, hout, hlist, hadded _ (by rw [htheirsSlides]; decide) (by rw [hbaseSlides]; decide)
    (by rw [hbaseSlides]; decide)⟩

/-- A slide that they deleted is still there, and the size of the slides is lost. -/
theorem deleted_slide_kept :
    ((mergeRaw List.length listedOrders two two one).toOption.join.bind fun out =>
      out.get "ppt/presentation.xml") = some (encode (buildPresentationXml [firstSlide, secondSlide])) ∧
    ((mergeRaw List.length listedOrders one one one).toOption.join.bind fun out =>
      (out.get "ppt/presentation.xml").bind decode).map (contains · "<p:sldSz/>") = some false := by
  obtain ⟨small, hsmall, hsmallSlides, hsmallPres, hsmallText⟩ := exists_one
  obtain ⟨large, hlarge, hlargeSlides, hlargePres, hlargeText⟩ := exists_two
  constructor
  · obtain ⟨out, hout, hlist⟩ := @mergeRaw_presentation _ listedOrders large large small
      [firstSlide, secondSlide] _ (by rw [hlargeSlides, hsmallSlides]; decide +kernel) hlargePres (hlargeText _)
      (by rw [hlargeSlides, hsmallSlides]; decide)
    rw [hlarge, hsmall] at hout
    rw [hout]
    exact hlist
  · obtain ⟨out, hout, hlist⟩ := @mergeRaw_presentation _ listedOrders small small small
      [firstSlide] _ (by rw [hsmallSlides]; decide +kernel) hsmallPres (hsmallText _)
      (by rw [hsmallSlides]; decide)
    rw [hsmall] at hout
    rw [hout]
    change ((out.get "ppt/presentation.xml").bind decode).map _ = _
    rw [hlist, Option.bind_some, decode_encode]
    decide +kernel

end Pptx
end Suture.Driver
