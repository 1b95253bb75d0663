import Mathlib.Data.List.Forall2
import Mathlib.Data.String.Basic
import Suture.Foundation.Fields
import Suture.Foundation.Markup

/-!
# Elements as the markup drivers write them

The drivers for markup read an element as its local name, its attributes by local names, the
trimmed text it starts with and the elements in it, and write it indented. What is
written is read again as the same element, if its text and its values are not changed by reading.
-/

namespace Suture.Driver
set_option autoImplicit false
open Foundation Foundation.Markup

inductive Elem where
  | mk (tag : String) (attributes : List (String × String)) (text : String) (children : List Elem)

namespace Elem

def tag : Elem → String | .mk tag _ _ _ => tag

def attributes : Elem → List (String × String) | .mk _ attributes _ _ => attributes

def text : Elem → String | .mk _ _ text _ => text

def children : Elem → List Elem | .mk _ _ _ children => children

end Elem

def trim (s : String) : String := String.ofList (trimBy isWhiteSpace s.toList)

/-- The text of an element is its first child, if that is text. -/
def firstText : List Node → String
  | .text value :: _ => value
  | _ => ""

mutual

/-- What the drivers read of an element. -/
def view : Node → Elem
  | .element name attributes children =>
    .mk name.label (attributes.map fun a => (a.1.label, a.2)) (trim (firstText children))
      (viewAll children)
  | .text _ | .other => .mk "" [] "" []

def viewAll : List Node → List Elem
  | [] => []
  | n :: rest => if isElement n then view n :: viewAll rest else viewAll rest

end

/-! ### Writing -/

def substitute (c : Char) (entity : String) (l : List Char) : List Char :=
  l.flatMap fun d => if d = c then entity.toList else [d]

def escapeXml (s : String) : String :=
  String.ofList (substitute '\'' "&apos;" (substitute '"' "&quot;" (substitute '>' "&gt;"
    (substitute '<' "&lt;" (substitute '&' "&amp;" s.toList)))))

def padding (indent : Nat) : String := String.join (List.replicate indent "  ")

def attrStr (attributes : List (String × String)) : String :=
  if attributes.isEmpty then ""
  else " " ++ " ".intercalate (attributes.map fun a => a.1 ++ "=\"" ++ escapeXml a.2 ++ "\"")

/-- An element from its parts; the elements in it are written already. -/
def formatElement (indent : Nat) (tag : String) (attributes : List (String × String))
    (text : String) (children : List String) : String :=
  let pad := padding indent
  if children.isEmpty && text == "" then pad ++ "<" ++ tag ++ attrStr attributes ++ "/>"
  else if children.isEmpty then
    pad ++ "<" ++ tag ++ attrStr attributes ++ ">" ++ escapeXml text ++ "</" ++ tag ++ ">"
  else
    pad ++ "<" ++ tag ++ attrStr attributes ++ ">\n" ++
      (if text == "" then "" else padding (indent + 1) ++ escapeXml text ++ "\n") ++
      String.join (children.map (· ++ "\n")) ++ pad ++ "</" ++ tag ++ ">"

mutual

def elementToString (indent : Nat) : Elem → String
  | .mk tag attributes text children =>
    formatElement indent tag attributes text (childrenToStrings (indent + 1) children)

def childrenToStrings (indent : Nat) : List Elem → List String
  | [] => []
  | e :: rest => elementToString indent e :: childrenToStrings indent rest

end

/-! ### The tree that is written -/

def plainAttributes (attributes : List (String × String)) : List (Name × String) :=
  attributes.map fun a => (Name.plain a.1, a.2)

/-- A line break and the blanks before what comes next. -/
def gap (indent : Nat) : String := "\n" ++ padding indent

mutual

def laidOut (indent : Nat) : Elem → Node
  | .mk tag attributes text children =>
    .element (Name.plain tag) (plainAttributes attributes)
      (if children.isEmpty then if text == "" then [] else [.text text]
      else .text ((if text == "" then "" else gap (indent + 1) ++ text) ++ gap (indent + 1)) ::
        laidOutAll indent children)

def laidOutAll (indent : Nat) : List Elem → List Node
  | [] => []
  | e :: rest => laidOut (indent + 1) e ::
    .text (gap (if rest.isEmpty then indent else indent + 1)) :: laidOutAll indent rest

end

theorem entity_of_all {c : Char} (h : (c != '&' && c != '<' && c != '>' && c != '"' && c != '\'') = true) :
    entity c = [c] := by
  simp only [Bool.and_eq_true, bne_iff_ne, ne_eq] at h
  obtain ⟨⟨⟨⟨h1, h2⟩, h3⟩, h4⟩, h5⟩ := h
  unfold entity
  rw [if_neg h1, if_neg h2, if_neg h3, if_neg h4, if_neg h5]

theorem toList_escapeXml (s : String) : (escapeXml s).toList = escape s.toList := by
  unfold escapeXml substitute escape
  rw [String.toList_ofList]
  simp only [List.flatMap_assoc]
  refine List.flatMap_congr fun c _ => ?_
  unfold entity
  by_cases h1 : c = '&'
  · subst h1; rfl
  by_cases h2 : c = '<'
  · subst h2; rfl
  by_cases h3 : c = '>'
  · subst h3; rfl
  by_cases h4 : c = '"'
  · subst h4; rfl
  by_cases h5 : c = '\''
  · subst h5; rfl
  simp [h1, h2, h3, h4, h5]

theorem escape_of_all {l : List Char}
    (h : (l.all fun c => c != '&' && c != '<' && c != '>' && c != '"' && c != '\'') = true) :
    escape l = l := by
  induction l with
  | nil => rfl
  | cons c l ih =>
    rw [List.all_cons, Bool.and_eq_true] at h
    have hcons : escape (c :: l) = entity c ++ escape l := List.flatMap_cons
    rw [hcons, entity_of_all h.1, ih h.2]
    rfl

theorem escape_append (a b : List Char) : escape (a ++ b) = escape a ++ escape b :=
  List.flatMap_append

theorem toList_padding (indent : Nat) : (padding indent).toList = List.replicate (2 * indent) ' ' := by
  unfold padding
  induction indent with
  | zero => rfl
  | succ indent ih =>
    rw [List.replicate_succ]
    simp [ih, Nat.mul_succ, List.replicate_succ]

theorem toList_gap (indent : Nat) :
    (gap indent).toList = '\n' :: List.replicate (2 * indent) ' ' := by
  unfold gap
  rw [String.toList_append, toList_padding]
  rfl

theorem escape_gap (indent : Nat) : escape (gap indent).toList = (gap indent).toList := by
  rw [toList_gap]
  apply escape_of_all
  simp

theorem toList_attrStr (attributes : List (String × String)) :
    (attrStr attributes).toList = (plainAttributes attributes).flatMap attributeText := by
  unfold attrStr plainAttributes
  cases attributes with
  | nil => rfl
  | cons a attributes =>
    rw [List.isEmpty_cons, if_neg Bool.false_ne_true]
    induction attributes generalizing a with
    | nil => simp [attributeText, toList_escapeXml, Name.plain]
    | cons a' attributes ih =>
      have ih := ih a'
      rw [String.toList_append] at ih ⊢
      rw [List.map_cons, List.map_cons, String.intercalate_cons_cons, List.map_cons,
        List.flatMap_cons, ← ih]
      simp [attributeText, toList_escapeXml, Name.plain]

mutual

theorem toList_elementToString (indent : Nat) : ∀ e : Elem, (elementToString indent e).toList =
    (padding indent).toList ++ serialize (laidOut indent e)
  | .mk tag attributes text children => by
    have hall := toList_childrenToStrings indent children
    rw [elementToString, laidOut, serialize]
    unfold formatElement tagText
    cases children with
    | nil =>
      by_cases htext : text = ""
      · simp [htext, childrenToStrings, toList_attrStr, Name.plain]
      · simp [htext, childrenToStrings, toList_attrStr, Name.plain, serializeAll, serialize,
          toList_escapeXml]
    | cons e children =>
      have hall := hall (List.cons_ne_nil e children)
      have hlead : escape (((if text == "" then "" else gap (indent + 1) ++ text) ++
          gap (indent + 1))).toList = (if text == "" then [] else
            (gap (indent + 1)).toList ++ escape text.toList) ++ (gap (indent + 1)).toList := by
        rw [String.toList_append, escape_append, escape_gap]
        split
        · rfl
        · rw [String.toList_append, escape_append, escape_gap]
      have hgap : (gap (indent + 1)).toList = '\n' :: (padding (indent + 1)).toList := by
        rw [toList_gap, toList_padding]
      have hne : (childrenToStrings (indent + 1) (e :: children)).isEmpty = false := rfl
      rw [hne, List.isEmpty_cons, if_neg Bool.false_ne_true, serializeAll, serialize, hlead,
        List.append_assoc _ _ (serializeAll _), ← hall]
      simp only [Bool.false_and, Bool.false_eq_true, if_false, List.isEmpty_cons,
        String.toList_append, toList_attrStr]
      by_cases htext : text = ""
      · simp [htext, Name.plain, -String.toList_join]
      · simp [htext, Name.plain, hgap, toList_escapeXml, -String.toList_join]

theorem toList_childrenToStrings (indent : Nat) : ∀ children : List Elem, children ≠ [] →
    '\n' :: (String.join ((childrenToStrings (indent + 1) children).map (· ++ "\n"))).toList ++
      (padding indent).toList =
    (gap (indent + 1)).toList ++ serializeAll (laidOutAll indent children)
  | [], h => absurd rfl h
  | e :: rest, _ => by
    have he := toList_elementToString (indent + 1) e
    rw [childrenToStrings, laidOutAll, serializeAll, serializeAll, serialize, escape_gap,
      List.map_cons, String.join_cons, String.toList_append, String.toList_append, he]
    cases rest with
    | nil => simp [childrenToStrings, laidOutAll, serializeAll, gap]
    | cons e' rest =>
      have hrest := toList_childrenToStrings indent (e' :: rest) (List.cons_ne_nil _ _)
      rw [List.isEmpty_cons, if_neg Bool.false_ne_true, ← hrest]
      simp [gap]

end

/-! ### What a node shows -/

/-- What counts in an element after its first text: elements, and text that is not blank. -/
def solid : Node → Bool
  | .element .. => true
  | .text value => trim value != ""
  | .other => false

def afterText : List Node → List Node
  | .text _ :: rest => rest
  | nodes => nodes

mutual

/-- The node has this element and nothing else: no namespaces and no text but the first. The
attributes may be in another order. -/
def Shows : Node → Elem → Prop
  | .element name attributes nodes, .mk tag attributes' text children =>
    name = Name.plain tag ∧ attributes.Perm (plainAttributes attributes') ∧
      trim (firstText nodes) = text ∧ ShowsAll ((afterText nodes).filter solid) children
  | _, .mk .. => False

def ShowsAll : List Node → List Elem → Prop
  | nodes, [] => nodes = []
  | [], _ :: _ => False
  | n :: nodes, e :: rest => Shows n e ∧ ShowsAll nodes rest

end

/-- The same elements with the same attributes and texts, up to white space. -/
def SameTree (n n' : Node) : Prop := ∃ e, Shows n e ∧ Shows n' e

mutual

/-- An element that is read as it is written. -/
def Tidy (G : Grammar) : Elem → Prop
  | .mk tag attributes text children =>
    G.isName tag ∧ (∀ a ∈ plainAttributes attributes, PlainAttribute G a) ∧
      (attributes.map Prod.fst).Nodup ∧ trim text = text ∧
      (∀ c ∈ text.toList, G.isChar c ∧ c ≠ '\r') ∧ TidyAll G children

def TidyAll (G : Grammar) : List Elem → Prop
  | [] => True
  | e :: rest => Tidy G e ∧ TidyAll G rest

end

theorem trim_append_blank {a b : String} (ha : (a.toList.all isWhiteSpace) = true)
    (hb : (b.toList.all isWhiteSpace) = true) (s : String) : trim (a ++ s ++ b) = trim s := by
  unfold trim
  rw [String.toList_append, String.toList_append, trimBy_append_blank (List.all_eq_true.mp ha)
    (List.all_eq_true.mp hb)]

theorem gap_blank (indent : Nat) : ((gap indent).toList.all isWhiteSpace) = true := by
  rw [toList_gap, List.all_cons, List.all_replicate]
  cases indent <;> rfl

theorem trim_gap (indent : Nat) : trim (gap indent) = "" := by
  have h := trim_append_blank (gap_blank indent) (b := "") rfl ""
  rwa [String.append_empty, String.append_empty] at h

theorem plainAttributes_nodup {attributes : List (String × String)}
    (h : (attributes.map Prod.fst).Nodup) : ((plainAttributes attributes).map Prod.fst).Nodup := by
  unfold plainAttributes
  rw [List.map_map]
  have hcomp : Prod.fst ∘ (fun a : String × String => (Name.plain a.1, a.2)) =
      Name.plain ∘ Prod.fst := rfl
  rw [hcomp, ← List.map_map]
  exact h.map fun _ _ heq => congrArg Name.label heq

section
variable {G : Grammar} (hspace : G.isChar ' ') (hnewline : G.isChar '\n')
include hspace hnewline

theorem written_gap (indent : Nat) : Written G (.text (gap indent)) := by
  refine .text ?_ fun c hc => ?_
  · rw [toList_gap]
    exact List.cons_ne_nil _ _
  · rw [toList_gap, List.mem_cons, List.mem_replicate] at hc
    rcases hc with rfl | ⟨-, rfl⟩
    · exact ⟨hnewline, by decide⟩
    · exact ⟨hspace, by decide⟩

theorem written_lead {text : String} (h : ∀ c ∈ text.toList, G.isChar c ∧ c ≠ '\r') (indent : Nat) :
    Written G (.text ((if text == "" then "" else gap indent ++ text) ++ gap indent)) := by
  have hgap : ∀ c ∈ (gap indent).toList, G.isChar c ∧ c ≠ '\r' := by
    cases written_gap hspace hnewline indent with
    | text _ hchars => exact hchars
  refine .text ?_ fun c hc => ?_
  · rw [String.toList_append, toList_gap indent]
    simp
  · rw [String.toList_append, List.mem_append] at hc
    rcases hc with hc | hc
    · split at hc
      · cases hc
      · rw [String.toList_append, List.mem_append] at hc
        exact hc.elim (hgap c) (h c)
    · exact hgap c hc

mutual

theorem written_laidOut (indent : Nat) : ∀ e : Elem, Tidy G e → Written G (laidOut indent e)
  | .mk tag attributes text children, h => by
    obtain ⟨hname, hattributes, hnodup, -, hchars, hchildren⟩ := h
    rw [laidOut]
    cases children with
    | nil =>
      refine .element rfl hname hattributes (plainAttributes_nodup hnodup) ?_ ?_
      · intro c hc
        rw [List.isEmpty_nil, if_pos rfl] at hc
        split at hc
        · cases hc
        · rename_i htext
          rw [List.mem_singleton.mp hc]
          exact .text (by simpa using htext) hchars
      · rw [List.isEmpty_nil, if_pos rfl]
        split
        · exact .nil
        · exact .singleton _
    | cons e children =>
      have hall := written_laidOutAll indent (e :: children) hchildren
      refine .element rfl hname hattributes (plainAttributes_nodup hnodup) ?_ ?_
      · intro c hc
        rw [List.isEmpty_cons, if_neg Bool.false_ne_true, List.mem_cons] at hc
        rcases hc with rfl | hc
        · exact written_lead hspace hnewline hchars (indent + 1)
        · exact hall.1 c hc
      · rw [List.isEmpty_cons, if_neg Bool.false_ne_true]
        exact hall.2 _

/-- Elements and line breaks take turns. -/
theorem written_laidOutAll (indent : Nat) : ∀ children : List Elem, TidyAll G children →
    (∀ c ∈ laidOutAll indent children, Written G c) ∧ ∀ text : String,
      (Node.text text :: laidOutAll indent children).IsChain
        fun a b => isElement a = true ∨ isElement b = true
  | [], _ => ⟨fun _ hc => absurd hc List.not_mem_nil, fun _ => .singleton _⟩
  | e :: rest, h => by
    obtain ⟨he, hrest⟩ := h
    have hall := written_laidOutAll indent rest hrest
    have helement : isElement (laidOut (indent + 1) e) = true := by
      cases e
      rfl
    rw [laidOutAll]
    refine ⟨fun c hc => ?_, fun text => .cons_cons (.inr helement) (.cons_cons (.inl helement) (hall.2 _))⟩
    rw [List.mem_cons, List.mem_cons] at hc
    rcases hc with rfl | rfl | hc
    · exact written_laidOut (indent + 1) e he
    · exact written_gap hspace hnewline _
    · exact hall.1 c hc

end

end

mutual

theorem shows_laidOut {G : Grammar} (indent : Nat) : ∀ e : Elem, Tidy G e →
    Shows (laidOut indent e) e
  | .mk tag attributes text children, h => by
    obtain ⟨-, -, -, htrim, -, hchildren⟩ := h
    have hall := showsAll_laidOutAll indent children hchildren
    rw [laidOut]
    refine ⟨rfl, List.Perm.refl _, ?_, ?_⟩
    · cases children with
      | nil =>
        rw [List.isEmpty_nil, if_pos rfl]
        by_cases htext : text = ""
        · rw [htext]
          rfl
        · rw [if_neg (by simpa using htext)]
          exact htrim
      | cons e children =>
        rw [List.isEmpty_cons, if_neg Bool.false_ne_true, firstText]
        by_cases htext : text = ""
        · rw [htext, beq_self_eq_true, if_pos rfl, String.empty_append]
          exact trim_gap _
        · rw [if_neg (by simpa using htext), trim_append_blank (gap_blank _) (gap_blank _), htrim]
    · cases children with
      | nil =>
        rw [List.isEmpty_nil, if_pos rfl]
        by_cases htext : text = ""
        · rw [htext]
          rfl
        · rw [if_neg (by simpa using htext)]
          rfl
      | cons e children => exact hall

theorem showsAll_laidOutAll {G : Grammar} (indent : Nat) : ∀ children : List Elem,
    TidyAll G children → ShowsAll ((laidOutAll indent children).filter solid) children
  | [], _ => rfl
  | e :: rest, h => by
    have helement : solid (laidOut (indent + 1) e) = true := by
      cases e
      rfl
    have hgap : ∀ i, solid (.text (gap i)) = false := by
      intro i
      have hblank : solid (.text (gap i)) = (trim (gap i) != "") := rfl
      rw [hblank, trim_gap]
      rfl
    rw [laidOutAll, List.filter_cons_of_pos helement,
      List.filter_cons_of_neg (by rw [hgap]; exact Bool.false_ne_true)]
    exact ⟨shows_laidOut (indent + 1) e h.1, showsAll_laidOutAll indent rest h.2⟩

end

/-! ### Documents -/

/-- A parser that reads what is written as it is written. -/
structure ReadsMarkup (G : Grammar) (parse : String → Option Node) : Prop where
  separated : G.Separated
  space : G.isChar ' '
  newline : G.isChar '\n'
  reads : ∀ {n : Node} (declared : Bool), Written G n → isElement n = true →
    parse (String.ofList (documentText declared n)) = some n

/-- A document of which the drivers read all and which is read as it is written. -/
structure Plain (G : Grammar) (n : Node) : Prop where
  shows : Shows n (view n)
  tidy : Tidy G (view n)

/-- The document of an element, written by the drivers. -/
theorem ReadsMarkup.parse_written {G : Grammar} {parse : String → Option Node}
    (h : ReadsMarkup G parse) (declared : Bool) {e : Elem} (he : Tidy G e) :
    ∃ n, parse ((if declared then "<?xml version=\"1.0\" encoding=\"UTF-8\"?>\n" else "") ++
      elementToString 0 e ++ "\n") = some n ∧ Shows n e := by
  have helement : isElement (laidOut 0 e) = true := by
    cases e
    rfl
  refine ⟨laidOut 0 e, ?_, shows_laidOut 0 e he⟩
  rw [← h.reads declared (written_laidOut h.space h.newline 0 e he) helement]
  congr 1
  apply String.toList_inj.mp
  refine Eq.trans ?_ String.toList_ofList.symm
  unfold documentText
  rw [String.toList_append, String.toList_append, toList_elementToString]
  cases declared <;> rfl

/-- Names of letters and digits, and no character refused. -/
def letters : Grammar where
  isName s := s.toList ≠ [] ∧ (s.toList.all Char.isAlphanum) = true
  isChar _ := True

theorem letters_separated : letters.Separated := by
  rintro s ⟨hne, hall⟩
  refine ⟨hne, fun c hc => ?_⟩
  have halnum := List.all_eq_true.mp hall c hc
  have hfalse : ∀ d : Char, d.isAlphanum = false → c ≠ d := by
    rintro d hd rfl
    rw [halnum] at hd
    cases hd
  exact ⟨hfalse _ rfl, hfalse _ rfl, hfalse _ rfl, hfalse _ rfl, hfalse _ rfl, hfalse _ rfl,
    hfalse _ rfl⟩

theorem readsMarkup_letters : ReadsMarkup letters fun s => readDocument s.toList where
  separated := letters_separated
  space := trivial
  newline := trivial
  reads declared h helement := by
    rw [String.toList_ofList]
    exact readDocument_documentText letters_separated h helement declared

theorem tidy_letters {tag : String} {attributes : List (String × String)} {text : String}
    {children : List Elem} (htag : letters.isName tag)
    (hattributes : (attributes.all fun a => !a.1.toList.isEmpty && a.1.toList.all Char.isAlphanum &&
      a.1 != "xmlns" && a.2.toList.all fun c => c != '\t' && c != '\n' && c != '\r') = true)
    (hnodup : (attributes.map Prod.fst).Nodup) (htrim : trim text = text)
    (htext : (text.toList.all fun c => c != '\r') = true) (hchildren : TidyAll letters children) :
    Tidy letters (.mk tag attributes text children) := by
  refine ⟨htag, fun a ha => ?_, hnodup, htrim, fun c hc => ?_, hchildren⟩
  · obtain ⟨b, hb, rfl⟩ := List.mem_map.mp ha
    have hcheck := List.all_eq_true.mp hattributes b hb
    simp only [Bool.and_eq_true, Bool.not_eq_true', List.isEmpty_eq_false_iff, bne_iff_ne] at hcheck
    obtain ⟨⟨⟨hne, hall⟩, hxmlns⟩, hvalue⟩ := hcheck
    refine ⟨rfl, ⟨hne, hall⟩, hxmlns, fun c hc => ?_⟩
    have hc := List.all_eq_true.mp hvalue c hc
    simp only [Bool.and_eq_true, bne_iff_ne] at hc
    exact ⟨trivial, hc.1.1, hc.1.2, hc.2⟩
  · exact ⟨trivial, bne_iff_ne.mp (List.all_eq_true.mp htext c hc)⟩

end Suture.Driver
