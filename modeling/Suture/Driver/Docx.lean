import Suture.Driver.Ooxml
import Suture.Driver.Outcome
import Suture.Foundation.ThreeWay

/-!
# Merging Word documents

The paragraphs and the tables of a body are its blocks. They are merged by their positions and
compared by their texts, and written into the package of the base.
-/

namespace Suture.Driver
set_option autoImplicit false
open Foundation Ooxml

namespace Docx

inductive TrackChangesStatus where
  | clean
  | hasTrackChanges
  | acceptedTrackChanges
deriving DecidableEq, Repr

inductive BlockKind where
  | paragraph
  | table
deriving DecidableEq, Repr

structure Block where
  kind : BlockKind
  rawXml : List Char
  text : List Char
  trackChanges : TrackChangesStatus
deriving DecidableEq, Repr

/-! ### Tracked changes -/

def trackChangeTags : List String :=
  ["<w:ins ", "<w:ins>", "<w:del ", "<w:del>", "<w:rPrChange ", "<w:rPrChange>", "<w:moveFrom ",
    "<w:moveFrom>", "<w:moveTo ", "<w:moveTo>", "<w:commentRangeStart ", "<w:commentRangeEnd "]

def detectTrackChanges (xml : List Char) : TrackChangesStatus :=
  if trackChangeTags.any (contains xml) then .hasTrackChanges else .clean

def detectTrackChangesTransition (baseXml sideXml : List Char) : Option TrackChangesStatus :=
  let baseTc := detectTrackChanges baseXml
  let sideTc := detectTrackChanges sideXml
  if baseTc = .hasTrackChanges ∧ sideTc = .clean then some .acceptedTrackChanges
  else if sideTc = .hasTrackChanges then some .hasTrackChanges
  else none

/-! ### Blocks of a body -/

/-- The next text in an element `w:t`, and what follows. -/
def textStep (xml : List Char) : Option (List Char × List Char) := do
  let start ← find "<w:t".toList xml
  let tag ← find ['>'] start.2
  if ['/'] <:+ tag.1 then return ([], tag.2)
  let text ← find "</w:t>".toList tag.2
  return text

def extractText (xml : List Char) : List Char := pieces textStep xml

def block (kind : BlockKind) (rawXml : List Char) : Block :=
  ⟨kind, rawXml, extractText rawXml, detectTrackChanges rawXml⟩

/-- A name that starts like a block's is one if this follows. -/
def endsName (afterTag : List Char) : Bool :=
  afterTag.head?.any fun c => c = '>' || c = ' ' || c = '/'

/-- A block up to the first place of its closing tag; without one only its name is passed. -/
def closedStep (kind : BlockKind) (opening closing afterTag : List Char) : List Block × List Char :=
  match find closing (opening ++ afterTag) with
  | some found => ([block kind (found.1 ++ closing)], found.2)
  | none => ([], afterTag)

def paragraphStep (afterTag : List Char) : List Block × List Char :=
  if endsName afterTag then
    if ['/'] <+: afterTag then
      match find ['/', '>'] afterTag with
      | some found => ([⟨.paragraph, "<w:p".toList ++ (found.1 ++ ['/', '>']), [], .clean⟩], found.2)
      | none => ([], afterTag)
    else closedStep .paragraph "<w:p".toList "</w:p>".toList afterTag
  else ([], afterTag)

def tableStep (afterTag : List Char) : List Block × List Char :=
  if endsName afterTag then closedStep .table "<w:tbl".toList "</w:tbl>".toList afterTag
  else ([], afterTag)

/-- What comes first, a paragraph or a table. -/
def blockStep (bodyContent : List Char) : Option (List Block × List Char) :=
  match find "<w:p".toList bodyContent, find "<w:tbl".toList bodyContent with
  | none, none => none
  | some p, none => some (paragraphStep p.2)
  | none, some t => some (tableStep t.2)
  | some p, some t =>
    if p.1.length ≤ t.1.length then some (paragraphStep p.2) else some (tableStep t.2)

def extractBlocks (bodyContent : List Char) : List Block := pieces blockStep bodyContent

/-- What follows the last place of the last block. -/
def extractTrailingBodyContent (bodyContent : List Char) (blocks : List Block) : List Char :=
  match blocks.getLast? with
  | none => bodyContent.rdropWhile isWhiteSpace
  | some last =>
    match rfind last.rawXml bodyContent with
    | some (_, after) => if trimBy isWhiteSpace after ≠ [] then after else []
    | none => []

/-! ### Documents -/

structure BodyParse where
  before : List Char
  bodyOpenTag : List Char
  blocks : List Block
  trailingBodyContent : List Char
  suffix : List Char
deriving DecidableEq, Repr

/-- The text from the tenth byte of the closing tag on: its nine bytes and one more are passed. -/
def afterClose : List Char → Except Failure (List Char)
  | c :: rest => if c.utf8Size = 1 then .ok rest else .error .panic
  | [] => .error .panic

def parseBody (xml : List Char) : Except Failure BodyParse := do
  let opening ← orError "no <w:body> found in document.xml" (find "<w:body".toList xml)
  let tag ← orError "malformed <w:body> tag" (find ['>'] ("<w:body".toList ++ opening.2))
  let bodyOpenTag := tag.1 ++ ['>']
  let closing ← orError "no </w:body> found" (find "</w:body>".toList xml)
  let suffix ← afterClose closing.2
  let bodyTagEnd := opening.1.length + bodyOpenTag.length
  if closing.1.length < bodyTagEnd then .error .panic
  let bodyContent := closing.1.drop bodyTagEnd
  let blocks := extractBlocks bodyContent
  return ⟨opening.1, bodyOpenTag, blocks, extractTrailingBodyContent bodyContent blocks, suffix⟩

def rebuildDocumentXml (body : BodyParse) (mergedBlocks : List Block) : List Char :=
  body.before ++ body.bodyOpenTag ++ mergedBlocks.flatMap Block.rawXml ++ body.trailingBodyContent ++
    ("</w:body>".toList ++ body.suffix)

/-- A document that is read and written again. -/
def rewriteBody (xml : List Char) : Except Failure (List Char) :=
  (parseBody xml).map fun body => rebuildDocumentXml body body.blocks

/-! ### Merging -/

/-- What becomes of the blocks in one place, `none` for a conflict. -/
def mergeBlock : (base ours theirs : Option Block) → Option (Option Block)
  | none, some o, some t => if o.text = t.text then some (some o) else none
  | some b, some o, some t =>
    let oursAccepted := detectTrackChangesTransition b.rawXml o.rawXml
    let theirsAccepted := detectTrackChangesTransition b.rawXml t.rawXml
    if oursAccepted = some .acceptedTrackChanges ∧ theirsAccepted = some .acceptedTrackChanges then
      some (some o)
    else if oursAccepted = some .acceptedTrackChanges ∧ t.text = b.text then some (some o)
    else if theirsAccepted = some .acceptedTrackChanges ∧ o.text = b.text then some (some t)
    else if o.text = t.text then some (some o)
    else if o.text = b.text then some (some t)
    else if t.text = b.text then some (some o)
    else none
  | _, some o, none => some (some o)
  | _, none, some t => some (some t)
  | _, none, none => some none

def mergeBlocks (base ours theirs : List Block) : Option (List Block) :=
  ((List.range (max (max base.length ours.length) theirs.length)).mapM fun i =>
    mergeBlock base[i]? ours[i]? theirs[i]?).map List.reduceOption

/-- The orders of the hash maps of a merge. -/
structure HashOrders where
  base : KeyOrder
  ours : KeyOrder
  theirs : KeyOrder
  out : KeyOrder

def extractBlocksFromDoc (order : KeyOrder) (doc : OoxmlDocument) : Except Failure (List Block) := do
  let mainPath ← orError "no main document part" (doc.mainDocumentPath order)
  let main ← orError "main part missing" (doc.getPart mainPath)
  let body ← parseBody main.content
  return body.blocks

def mergeRaw (orders : HashOrders) (base ours theirs : Archive) :
    Except Failure (Option Archive) := do
  let baseDoc ← OoxmlDocument.fromBytes base
  let oursDoc ← OoxmlDocument.fromBytes ours
  let theirsDoc ← OoxmlDocument.fromBytes theirs
  let mainPath ← orError "no main document part" (baseDoc.mainDocumentPath orders.base)
  let baseMain ← orError "base main part missing" (baseDoc.getPart mainPath)
  let baseBody ← parseBody baseMain.content
  let oursBlocks ← extractBlocksFromDoc orders.ours oursDoc
  let theirsBlocks ← extractBlocksFromDoc orders.theirs theirsDoc
  match mergeBlocks baseBody.blocks oursBlocks theirsBlocks with
  | some mergedBlocks =>
    let outDoc ← OoxmlDocument.fromBytes base
    return some ((outDoc.setContent mainPath (rebuildDocumentXml baseBody mergedBlocks)).toBytes orders.out)
  | none => return none

/-! ### A body that is written again -/

theorem textStep_shortens (l : List Char) (x : List Char × List Char) (h : textStep l = some x) :
    x.2.length < l.length := by
  obtain ⟨start, hstart, h⟩ := Option.bind_eq_some_iff.mp h
  obtain ⟨tag, htag, h⟩ := Option.bind_eq_some_iff.mp h
  rw [eq_of_find hstart, eq_of_find htag]
  have hlength : tag.2.length < (start.1 ++ ("<w:t".toList ++ (tag.1 ++ (['>'] ++ tag.2)))).length := by
    simp only [List.length_append, List.length_singleton]
    omega
  split at h
  · cases h
    exact hlength
  · have htext := congrArg List.length (eq_of_find h)
    simp only [List.length_append] at htext
    omega

theorem closedStep_shortens {kind : BlockKind} {opening closing : List Char} (hopening : opening ≠ [])
    (hclosing : closing ≠ []) (afterTag : List Char) :
    (closedStep kind opening closing afterTag).2.length < (opening ++ afterTag).length := by
  have hopening := List.length_pos_of_ne_nil hopening
  have hclosing := List.length_pos_of_ne_nil hclosing
  unfold closedStep
  split
  · rename_i found hfound
    rw [eq_of_find hfound]
    simp only [List.length_append]
    omega
  · simp only [List.length_append]
    omega

theorem paragraphStep_shortens (afterTag : List Char) :
    (paragraphStep afterTag).2.length < ("<w:p".toList ++ afterTag).length := by
  have hlength : afterTag.length < ("<w:p".toList ++ afterTag).length := by
    rw [List.length_append]
    exact Nat.lt_add_of_pos_left (by decide)
  unfold paragraphStep
  split
  · split
    · split
      · rename_i found hfound
        have hlength := congrArg List.length (eq_of_find hfound)
        simp only [List.length_append, List.length_cons] at hlength ⊢
        omega
      · exact hlength
    · exact closedStep_shortens (by decide) (by decide) afterTag
  · exact hlength

theorem tableStep_shortens (afterTag : List Char) :
    (tableStep afterTag).2.length < ("<w:tbl".toList ++ afterTag).length := by
  unfold tableStep
  split
  · exact closedStep_shortens (by decide) (by decide) afterTag
  · rw [List.length_append]
    exact Nat.lt_add_of_pos_left (by decide)

theorem blockStep_shortens (l : List Char) (x : List Block × List Char) (h : blockStep l = some x) :
    x.2.length < l.length := by
  have hparagraph : ∀ p, find "<w:p".toList l = some p → (paragraphStep p.2).2.length < l.length := by
    intro p hp
    rw [eq_of_find hp, List.length_append]
    exact Nat.lt_add_left _ (paragraphStep_shortens p.2)
  have htable : ∀ t, find "<w:tbl".toList l = some t → (tableStep t.2).2.length < l.length := by
    intro t ht
    rw [eq_of_find ht, List.length_append]
    exact Nat.lt_add_left _ (tableStep_shortens t.2)
  unfold blockStep at h
  split at h
  · cases h
  · cases h
    exact hparagraph _ ‹_›
  · cases h
    exact htable _ ‹_›
  · split at h
    · cases h
      exact hparagraph _ ‹_›
    · cases h
      exact htable _ ‹_›

/-- The loop over the blocks ends of itself. -/
theorem extractBlocks_eq (bodyContent : List Char) :
    extractBlocks bodyContent = match blockStep bodyContent with
      | none => []
      | some x => x.1 ++ extractBlocks x.2 := by
  refine (pieces_eq blockStep_shortens bodyContent).trans ?_
  cases blockStep bodyContent <;> rfl

theorem extractText_eq (xml : List Char) : extractText xml = match textStep xml with
    | none => []
    | some x => x.1 ++ extractText x.2 := by
  refine (pieces_eq textStep_shortens xml).trans ?_
  cases textStep xml <;> rfl

/-- A text with a body: what comes before its content, the content up to the tag that ends the
body, and what follows that tag. -/
structure Document where
  opening : List Char
  content : List Char
  ending : List Char
  closes : ¬ "</w:body>".toList <:+: opening ++ content

namespace Document

def text (d : Document) : List Char := d.opening ++ d.content ++ ("</w:body>".toList ++ d.ending)

/-- The document is read, and written with the same text but for blanks in the content. -/
def Kept (d : Document) : Prop :=
  ∃ content, content.filter (!isWhiteSpace ·) = d.content.filter (!isWhiteSpace ·) ∧
    rewriteBody d.text = .ok (d.opening ++ content ++ ("</w:body>".toList ++ d.ending))

theorem find_close (d : Document) :
    find "</w:body>".toList d.text = some (d.opening ++ d.content, d.ending) :=
  @find_cons_append _ _ '<' "/w:body>".toList _ (by decide) d.closes d.ending

/-- A character of the ending is passed. -/
theorem ending_of_parseBody {d : Document} {body : BodyParse} (h : parseBody d.text = .ok body) :
    ∃ c, d.ending = c :: body.suffix := by
  obtain ⟨opening, -, h⟩ := ok_of_bind h
  obtain ⟨tag, -, h⟩ := ok_of_bind h
  rw [find_close] at h
  obtain ⟨closing, hclosing, h⟩ := ok_of_bind h
  cases hclosing
  obtain ⟨suffix, hsuffix, h⟩ := ok_of_bind h
  have hbody : body.suffix = suffix := by
    simp only at h
    split at h
    · cases h
    · cases h
      rfl
  rw [hbody]
  cases hending : d.ending with
  | nil =>
    rw [hending] at hsuffix
    cases hsuffix
  | cons c rest =>
    rw [hending, afterClose] at hsuffix
    split at hsuffix
    · cases hsuffix
      exact ⟨c, rfl⟩
    · cases hsuffix

/-- What is written after the content is not what was there. -/
theorem close_ne {a b suffix : List Char} {c : Char} :
    a ++ ("</w:body>".toList ++ suffix) ≠ b ++ ("</w:body>".toList ++ c :: suffix) := by
  intro h
  rcases List.append_eq_append_iff.mp h with ⟨middle, -, hmiddle⟩ | ⟨middle, -, hmiddle⟩
  · have hlength := congrArg List.length hmiddle
    simp only [List.length_append, List.length_cons] at hlength
    omega
  · have hlength := congrArg List.length hmiddle
    simp only [List.length_append, List.length_cons] at hlength
    obtain ⟨d, rfl⟩ := List.length_eq_one_iff.mp (show middle.length = 1 by omega)
    have hsecond := congrArg (fun l => l[1]?) hmiddle
    cases hsecond

end Document

theorem not_kept (d : Document) : ¬ d.Kept := by
  rintro ⟨content, -, h⟩
  unfold rewriteBody at h
  cases hbody : parseBody d.text with
  | error e =>
    rw [hbody] at h
    cases h
  | ok body =>
    rw [hbody] at h
    obtain ⟨c, hending⟩ := Document.ending_of_parseBody hbody
    have hwritten : rebuildDocumentXml body body.blocks = _ := Except.ok.inj h
    rw [hending] at hwritten
    exact Document.close_ne hwritten

def oneParagraph : Document where
  opening := "<w:document><w:body>".toList
  content := "<w:p/>".toList
  ending := "</w:document>".toList
  closes := by
    rw [← find_eq_none_iff]
    decide

/-- The angle bracket that is passed is lost. -/
theorem bracket_lost :
    rewriteBody oneParagraph.text = .ok "<w:document><w:body><w:p/></w:body>/w:document>".toList ∧
      ¬ oneParagraph.Kept := by
  have hrewrite : rewriteBody oneParagraph.text =
      .ok "<w:document><w:body><w:p/></w:body>/w:document>".toList := by decide +kernel
  refine ⟨hrewrite, ?_⟩
  rintro ⟨content, -, h⟩
  rw [hrewrite] at h
  exact Document.close_ne (a := "<w:document><w:body><w:p/>".toList) (c := '<') (Except.ok.inj h)

/-! ### Blocks that one side changed -/

theorem mergeBlocks_eq_some {base ours theirs merged : List Block}
    (h : ∀ i : Nat, mergeBlock base[i]? ours[i]? theirs[i]? = some merged[i]?) :
    mergeBlocks base ours theirs = some merged := by
  unfold mergeBlocks
  rw [mapM_reduceOption h]
  refine congrArg some (List.ext_getElem? fun i => ?_)
  rw [getElem?_filterMap_range]
  · split
    · rfl
    · rename_i hi
      have hempty := h i
      rw [List.getElem?_eq_none (by omega), List.getElem?_eq_none (by omega),
        List.getElem?_eq_none (by omega)] at hempty
      exact Option.some.inj hempty
  · intro i j hij hi
    rw [List.getElem?_eq_none_iff] at hi ⊢
    omega

theorem mergeBlock_same (base x : Option Block) : mergeBlock base x x = some x := by
  cases base with
  | none => cases x <;> simp [mergeBlock]
  | some b => cases x <;> simp [mergeBlock]

theorem transition_same (xml : List Char) :
    detectTrackChangesTransition xml xml ≠ some .acceptedTrackChanges := by
  unfold detectTrackChangesTransition
  simp only
  split_ifs with h1 h2
  · rw [h1.1] at h1
    exact absurd h1.2 (by decide)
  · decide
  · decide

/-- A block of the base comes back where the side has none. -/
theorem mergeBlock_ours (base x : Option Block) : mergeBlock base x base = some (x.or base) := by
  cases base with
  | none => cases x <;> rfl
  | some b =>
    cases x with
    | none => rfl
    | some v =>
      simp only [mergeBlock, transition_same, and_false, false_and, and_true, Option.some_or, ↓reduceIte]
      split_ifs <;> rfl

/-- The text of the block is another one, or the block has no tracked changes any more. -/
def Shows (b v : Block) : Prop :=
  b.text ≠ v.text ∨ detectTrackChangesTransition b.rawXml v.rawXml = some .acceptedTrackChanges

instance (b v : Block) : Decidable (Shows b v) := inferInstanceAs (Decidable (_ ∨ _))

/-- What becomes of a block that only their side may have changed. -/
def takeTheirs : (base theirs : Option Block) → Option Block
  | some b, some v => if Shows b v then some v else some b
  | base, theirs => theirs.or base

theorem mergeBlock_theirs (base x : Option Block) :
    mergeBlock base base x = some (takeTheirs base x) := by
  cases base with
  | none => cases x <;> rfl
  | some b =>
    cases x with
    | none => rfl
    | some v =>
      simp only [mergeBlock, takeTheirs, transition_same, false_and, and_true, ↓reduceIte]
      by_cases haccepted : detectTrackChangesTransition b.rawXml v.rawXml = some .acceptedTrackChanges
      · have hshows : Shows b v := .inr haccepted
        rw [if_pos haccepted, if_pos hshows]
      · rw [if_neg haccepted]
        by_cases htext : b.text = v.text
        · have hshows : ¬ Shows b v := not_or.mpr ⟨not_not.mpr htext, haccepted⟩
          rw [if_pos htext, if_neg hshows]
        · have hshows : Shows b v := .inl htext
          rw [if_neg htext, if_pos hshows]

theorem takeTheirs_eq_none_iff {base theirs : Option Block} :
    takeTheirs base theirs = none ↔ base = none ∧ theirs = none := by
  cases base with
  | none => cases theirs <;> simp [takeTheirs]
  | some b =>
    cases theirs with
    | none => simp [takeTheirs]
    | some v =>
      rw [takeTheirs]
      split <;> simp

/-- The parts of a package other than its main part. -/
def SameBesides (path : String) (a b : Archive) : Prop := ∀ path', path' ≠ path → a.get path' = b.get path'

theorem mergeRaw_sameBesides {orders : HashOrders} {base ours theirs out : Archive}
    (h : mergeRaw orders base ours theirs = .ok (some out)) :
    ∃ doc main, OoxmlDocument.fromBytes base = .ok doc ∧
      doc.mainDocumentPath orders.base = some main ∧ SameBesides main out base := by
  obtain ⟨doc, hdoc, h⟩ := ok_of_bind h
  obtain ⟨oursDoc, -, h⟩ := ok_of_bind h
  obtain ⟨theirsDoc, -, h⟩ := ok_of_bind h
  obtain ⟨main, hmain, h⟩ := ok_of_bind h
  obtain ⟨part, -, h⟩ := ok_of_bind h
  obtain ⟨body, -, h⟩ := ok_of_bind h
  obtain ⟨oursBlocks, -, h⟩ := ok_of_bind h
  obtain ⟨theirsBlocks, -, h⟩ := ok_of_bind h
  refine ⟨doc, main, hdoc, ?_, fun path hpath => ?_⟩
  · cases hpath : doc.mainDocumentPath orders.base with
    | none =>
      rw [hpath] at hmain
      cases hmain
    | some path =>
      rw [hpath] at hmain
      cases hmain
      rfl
  · split at h
    · rw [hdoc] at h
      cases h
      rw [OoxmlDocument.get_toBytes, OoxmlDocument.partBytes_setContent doc _ hpath,
        OoxmlDocument.partBytes_fromBytes hdoc]
    · cases h

/-- A side's blocks are kept, in their places; what it deleted at the end comes back, and so do the
other parts of the base. -/
theorem merge_keeps_side (b x : List Block) :
    mergeBlocks b x x = some x ∧
    mergeBlocks b x b = some (x ++ b.drop x.length) ∧
    (∃ merged, mergeBlocks b b x = some merged ∧ ∀ i : Nat,
      (b[i]? = none → merged[i]? = x[i]?) ∧ (x[i]? = none → merged[i]? = b[i]?) ∧
      ∀ u v, b[i]? = some u → x[i]? = some v → Shows u v → merged[i]? = some v) ∧
    ∀ orders base ours theirs out, mergeRaw orders base ours theirs = .ok (some out) →
      ∃ doc main, OoxmlDocument.fromBytes base = .ok doc ∧
        doc.mainDocumentPath orders.base = some main ∧ SameBesides main out base := by
  refine ⟨mergeBlocks_eq_some fun i => mergeBlock_same _ _, mergeBlocks_eq_some fun i => ?_, ?_,
    fun _ _ _ _ _ => mergeRaw_sameBesides⟩
  · rw [mergeBlock_ours, List.getElem?_append]
    split
    · rename_i hi
      rw [List.getElem?_eq_getElem hi, Option.some_or]
    · rename_i hi
      rw [List.getElem?_eq_none (by omega), Option.none_or, List.getElem?_drop]
      congr 2
      omega
  · have hmerged : ∀ i : Nat, ((List.range (max b.length x.length)).filterMap fun i =>
        takeTheirs b[i]? x[i]?)[i]? = takeTheirs b[i]? x[i]? := by
      intro i
      rw [getElem?_filterMap_range]
      · split
        · rfl
        · rw [List.getElem?_eq_none (by omega), List.getElem?_eq_none (by omega)]
          rfl
      · intro i j hij hi
        simp only [takeTheirs_eq_none_iff, List.getElem?_eq_none_iff] at hi ⊢
        omega
    refine ⟨_, mergeBlocks_eq_some fun i => (mergeBlock_theirs _ _).trans (congrArg some (hmerged i).symm),
      fun i => ?_⟩
    rw [hmerged i]
    refine ⟨fun hb => ?_, fun hx => ?_, fun u v hu hv hshows => ?_⟩
    · rw [hb]
      cases x[i]? <;> rfl
    · rw [hx]
      cases b[i]? <;> rfl
    · rw [hu, hv]
      exact if_pos hshows

def listed : KeyOrder := ⟨fun keys => keys, List.Perm.refl⟩

def withStyles : Archive where
  entries := [("word/document.xml", encode oneParagraph.text), ("word/styles.xml", encode "<w:styles/>".toList)]
  distinct := by decide

theorem merge_keeps_side_styles :
    ∃ out, mergeRaw ⟨listed, listed, listed, listed⟩ withStyles withStyles withStyles = .ok (some out) ∧
      SameBesides "word/document.xml" out withStyles := by
  have hmain : ((OoxmlDocument.fromBytes withStyles).toOption.bind fun doc =>
      doc.mainDocumentPath listed) = some "word/document.xml" := by decide +kernel
  have hsome : (mergeRaw ⟨listed, listed, listed, listed⟩ withStyles withStyles
      withStyles).toOption.join.isSome = true := by decide +kernel
  obtain ⟨out, hout⟩ := Option.isSome_iff_exists.mp hsome
  cases hmerge : mergeRaw ⟨listed, listed, listed, listed⟩ withStyles withStyles withStyles with
  | error e =>
    rw [hmerge] at hout
    cases hout
  | ok merged =>
    rw [hmerge] at hout
    cases (show merged = some out from hout)
    obtain ⟨doc, main, hdoc, hpath, hsame⟩ := (merge_keeps_side [] []).2.2.2 _ _ _ _ out hmerge
    rw [hdoc] at hmain
    cases hpath.symm.trans hmain
    exact ⟨out, rfl, hsame⟩

def paragraph (text : String) : Block := block .paragraph ("<w:p><w:t>" ++ text ++ "</w:t></w:p>").toList

/-- A paragraph that they deleted at the end is still there. -/
theorem deletion_undone :
    mergeBlocks [paragraph "first", paragraph "second"] [paragraph "first", paragraph "second"]
      [paragraph "first"] = some [paragraph "first", paragraph "second"] ∧
    [paragraph "first", paragraph "second"].map Block.rawXml ≠ [paragraph "first"].map Block.rawXml := by
  decide +kernel

end Docx
end Suture.Driver
