import Mathlib.Data.List.Chain
import Mathlib.Data.List.Nodup
import Mathlib.Data.List.TakeWhile

/-!
# Markup

Trees of elements with attributes and text, what they are as characters, and a reader that
gives the tree back. What a name may be is a parameter.
-/

namespace Suture.Foundation.Markup
set_option autoImplicit false

/-- A name, possibly in a namespace. -/
structure Name where
  space : Option String
  label : String
deriving DecidableEq, Repr

def Name.plain (label : String) : Name := ⟨none, label⟩

/-- The nodes of a document; `other` is a comment or a processing instruction. -/
inductive Node where
  | element (name : Name) (attributes : List (Name × String)) (children : List Node)
  | text (value : String)
  | other

theorem Node.induct {motive : Node → Prop}
    (element : ∀ name attributes children, (∀ c ∈ children, motive c) →
      motive (.element name attributes children))
    (text : ∀ value, motive (.text value)) (other : motive .other) (n : Node) : motive n := by
  suffices h : ∀ size (n : Node), sizeOf n < size → motive n from h _ n (Nat.lt_succ_self _)
  intro size
  induction size with
  | zero => exact fun n h => absurd h (Nat.not_lt_zero _)
  | succ size ih =>
    intro n hn
    cases n with
    | element name attributes children =>
      refine element name attributes children fun c hc => ih c ?_
      have := List.sizeOf_lt_of_mem hc
      simp only [Node.element.sizeOf_spec] at hn
      omega
    | text value => exact text value
    | other => exact other

/-! ### Characters -/

def entity (c : Char) : List Char :=
  if c = '&' then "&amp;".toList
  else if c = '<' then "&lt;".toList
  else if c = '>' then "&gt;".toList
  else if c = '"' then "&quot;".toList
  else if c = '\'' then "&apos;".toList
  else [c]

def escape (l : List Char) : List Char := l.flatMap entity

def unescape : List Char → List Char
  | '&' :: 'a' :: 'm' :: 'p' :: ';' :: rest => '&' :: unescape rest
  | '&' :: 'l' :: 't' :: ';' :: rest => '<' :: unescape rest
  | '&' :: 'g' :: 't' :: ';' :: rest => '>' :: unescape rest
  | '&' :: 'q' :: 'u' :: 'o' :: 't' :: ';' :: rest => '"' :: unescape rest
  | '&' :: 'a' :: 'p' :: 'o' :: 's' :: ';' :: rest => '\'' :: unescape rest
  | c :: rest => c :: unescape rest
  | [] => []

theorem unescape_escape (l : List Char) : unescape (escape l) = l := by
  induction l with
  | nil => rfl
  | cons c l ih =>
    have hcons : escape (c :: l) = entity c ++ escape l := List.flatMap_cons
    rw [hcons]
    unfold entity
    split_ifs with h1 h2 h3 h4 h5
    · rw [h1]
      exact congrArg _ ih
    · rw [h2]
      exact congrArg _ ih
    · rw [h3]
      exact congrArg _ ih
    · rw [h4]
      exact congrArg _ ih
    · rw [h5]
      exact congrArg _ ih
    · rw [List.singleton_append, unescape, ih]
      all_goals
        intros
        exact h1 ‹_›

/-- The characters that are escaped do not appear. -/
theorem mem_escape {c : Char} {l : List Char} (h : c ∈ escape l) :
    c ≠ '<' ∧ c ≠ '>' ∧ c ≠ '"' := by
  obtain ⟨d, -, hd⟩ := List.mem_flatMap.mp h
  have hspecial : ∀ e : List Char, (e.all fun c => c != '<' && c != '>' && c != '"') = true →
      c ∈ e → c ≠ '<' ∧ c ≠ '>' ∧ c ≠ '"' := by
    intro e he hc
    have := List.all_eq_true.mp he c hc
    simpa [and_assoc] using this
  unfold entity at hd
  split_ifs at hd with h1 h2 h3 h4 h5
  · exact hspecial _ (by decide) hd
  · exact hspecial _ (by decide) hd
  · exact hspecial _ (by decide) hd
  · exact hspecial _ (by decide) hd
  · exact hspecial _ (by decide) hd
  · rw [List.mem_singleton.mp hd]
    exact ⟨h2, h3, h4⟩

/-! ### Writing -/

def attributeText (a : Name × String) : List Char :=
  ' ' :: a.1.label.toList ++ '=' :: '"' :: escape a.2.toList ++ ['"']

def tagText (name : Name) (attributes : List (Name × String)) : List Char :=
  name.label.toList ++ attributes.flatMap attributeText

mutual

def serialize : Node → List Char
  | .element name attributes children =>
    if children.isEmpty then '<' :: tagText name attributes ++ ['/', '>']
    else '<' :: tagText name attributes ++ '>' :: serializeAll children ++
      '<' :: '/' :: name.label.toList ++ ['>']
  | .text value => escape value.toList
  | .other => []

def serializeAll : List Node → List Char
  | [] => []
  | n :: rest => serialize n ++ serializeAll rest

end

/-! ### Tokens -/

inductive Token where
  | tag (body : List Char)
  | text (value : List Char)

structure Lexer where
  tokens : List Token
  inTag : Bool
  current : List Char

def textToken (l : List Char) : List Token := if l = [] then [] else [.text (unescape l)]

def Lexer.step (s : Lexer) (c : Char) : Lexer :=
  if s.inTag then
    if c = '>' then ⟨s.tokens ++ [.tag s.current], false, []⟩
    else { s with current := s.current ++ [c] }
  else if c = '<' then ⟨s.tokens ++ textToken s.current, true, []⟩
  else { s with current := s.current ++ [c] }

def lex (l : List Char) : List Token :=
  let s := l.foldl Lexer.step ⟨[], false, []⟩
  s.tokens ++ if s.inTag then [] else textToken s.current

theorem foldl_step_text {l : List Char} (h : '<' ∉ l) (tokens : List Token) (current : List Char) :
    l.foldl Lexer.step ⟨tokens, false, current⟩ = ⟨tokens, false, current ++ l⟩ := by
  induction l generalizing current with
  | nil => rw [List.append_nil]; rfl
  | cons c l ih =>
    rw [List.mem_cons, not_or] at h
    have hstep : Lexer.step ⟨tokens, false, current⟩ c = ⟨tokens, false, current ++ [c]⟩ := by
      unfold Lexer.step
      rw [if_neg Bool.false_ne_true, if_neg (Ne.symm h.1)]
    rw [List.foldl_cons, hstep, ih h.2, List.append_assoc]
    rfl

theorem foldl_step_body {l : List Char} (h : '>' ∉ l) (tokens : List Token) (current : List Char) :
    l.foldl Lexer.step ⟨tokens, true, current⟩ = ⟨tokens, true, current ++ l⟩ := by
  induction l generalizing current with
  | nil => rw [List.append_nil]; rfl
  | cons c l ih =>
    rw [List.mem_cons, not_or] at h
    have hstep : Lexer.step ⟨tokens, true, current⟩ c = ⟨tokens, true, current ++ [c]⟩ := by
      unfold Lexer.step
      rw [if_pos rfl, if_neg (Ne.symm h.1)]
    rw [List.foldl_cons, hstep, ih h.2, List.append_assoc]
    rfl

/-- A whole tag, after what was read as text. -/
theorem foldl_step_tag {body : List Char} (h : '>' ∉ body) (tokens : List Token)
    (current : List Char) :
    ('<' :: body ++ ['>']).foldl Lexer.step ⟨tokens, false, current⟩ =
      ⟨tokens ++ textToken current ++ [.tag body], false, []⟩ := by
  have hopen : Lexer.step ⟨tokens, false, current⟩ '<' = ⟨tokens ++ textToken current, true, []⟩ := rfl
  rw [List.cons_append, List.foldl_cons, hopen, List.foldl_append, foldl_step_body h,
    List.nil_append]
  rfl

/-! ### Trees -/

def readAttributes : Nat → List Char → List (Name × String)
  | 0, _ | _, [] => []
  | n + 1, l =>
    let rest := (l.drop 1).dropWhile fun c => c != '='
    let value := rest.drop 2
    (Name.plain (String.ofList ((l.drop 1).takeWhile fun c => c != '=')),
      String.ofList (unescape (value.takeWhile fun c => c != '"'))) ::
      readAttributes n ((value.dropWhile fun c => c != '"').drop 1)

def readTag (body : List Char) : Name × List (Name × String) :=
  (Name.plain (String.ofList (body.takeWhile fun c => c != ' ')),
    readAttributes body.length (body.dropWhile fun c => c != ' '))

/-- An element that is not closed, with the nodes before it. -/
structure Frame where
  name : Name
  attributes : List (Name × String)
  before : List Node

/-- The open elements, innermost first, and the nodes of the innermost so far. -/
structure Builder where
  frames : List Frame
  nodes : List Node

def Builder.step (s : Builder) : Token → Option Builder
  | .text value => some ⟨s.frames, s.nodes ++ [.text (String.ofList value)]⟩
  | .tag ('?' :: _) => some s
  | .tag ('/' :: name) =>
    match s.frames with
    | frame :: frames =>
      if frame.name.label.toList = name then
        some ⟨frames, frame.before ++ [.element frame.name frame.attributes s.nodes]⟩
      else none
    | [] => none
  | .tag body =>
    if body.getLast? = some '/' then
      let (name, attributes) := readTag body.dropLast
      some ⟨s.frames, s.nodes ++ [.element name attributes []]⟩
    else
      let (name, attributes) := readTag body
      some ⟨⟨name, attributes, s.nodes⟩ :: s.frames, []⟩

def isElement : Node → Bool
  | .element .. => true
  | _ => false

/-- The element of the document. -/
def readDocument (l : List Char) : Option Node :=
  match (lex l).foldlM Builder.step ⟨[], []⟩ with
  | some ⟨[], nodes⟩ => nodes.find? isElement
  | _ => none

/-! ### What is written as it is -/

/-- What a reader takes for a name and for a character. -/
structure Grammar where
  isName : String → Prop
  isChar : Char → Prop

/-- Names cannot be mistaken for what stands around them. -/
def Grammar.Separated (G : Grammar) : Prop := ∀ s, G.isName s → s.toList ≠ [] ∧
  ∀ c ∈ s.toList, c ≠ ' ' ∧ c ≠ '/' ∧ c ≠ '>' ∧ c ≠ '=' ∧ c ≠ '?' ∧ c ≠ '<' ∧ c ≠ '"'

/-- An attribute whose value is not changed when it is read: no line break and no tab. -/
structure PlainAttribute (G : Grammar) (a : Name × String) : Prop where
  space : a.1.space = none
  name : G.isName a.1.label
  noDeclaration : a.1.label ≠ "xmlns"
  chars : ∀ c ∈ a.2.toList, G.isChar c ∧ c ≠ '\t' ∧ c ≠ '\n' ∧ c ≠ '\r'

/-- A tree that is read as it is written: without namespaces and comments, no text empty or next
to another, no carriage return. -/
inductive Written (G : Grammar) : Node → Prop where
  | element {name : Name} {attributes : List (Name × String)} {children : List Node}
    (hspace : name.space = none) (hname : G.isName name.label)
    (hattributes : ∀ a ∈ attributes, PlainAttribute G a) (hnodup : (attributes.map Prod.fst).Nodup)
    (hchildren : ∀ c ∈ children, Written G c)
    (hapart : children.IsChain fun a b => isElement a = true ∨ isElement b = true) :
    Written G (.element name attributes children)
  | text {value : String} (hne : value.toList ≠ [])
    (hchars : ∀ c ∈ value.toList, G.isChar c ∧ c ≠ '\r') : Written G (.text value)

mutual

def tokensOf : Node → List Token
  | .element name attributes children =>
    if children.isEmpty then [.tag (tagText name attributes ++ ['/'])]
    else .tag (tagText name attributes) :: tokensOfAll children ++ [.tag ('/' :: name.label.toList)]
  | .text value => [.text value.toList]
  | .other => []

def tokensOfAll : List Node → List Token
  | [] => []
  | n :: rest => tokensOf n ++ tokensOfAll rest

end

section
variable {G : Grammar} (hG : G.Separated)
include hG

theorem bracket_notMem_tagText {name : Name} {attributes : List (Name × String)}
    (hname : G.isName name.label) (hattributes : ∀ a ∈ attributes, PlainAttribute G a) :
    '>' ∉ tagText name attributes := by
  unfold tagText
  rw [List.mem_append, List.mem_flatMap]
  rintro (h | ⟨a, ha, h⟩)
  · exact ((hG _ hname).2 _ h).2.2.1 rfl
  · unfold attributeText at h
    simp only [List.mem_append, List.mem_cons, List.not_mem_nil, or_false] at h
    rcases h with ((h | h) | (h | h | h)) | h
    · cases h
    · exact ((hG _ (hattributes a ha).name).2 _ h).2.2.1 rfl
    · cases h
    · cases h
    · exact (mem_escape h).2.1 rfl
    · cases h

omit hG in
theorem foldl_step_serializeAll {nodes : List Node}
    (ih : ∀ n ∈ nodes, isElement n = true → ∀ tokens current,
      (serialize n).foldl Lexer.step ⟨tokens, false, current⟩ =
        ⟨tokens ++ textToken current ++ tokensOf n, false, []⟩)
    (hwritten : ∀ n ∈ nodes, Written G n)
    (hapart : nodes.IsChain fun a b => isElement a = true ∨ isElement b = true)
    (tokens : List Token) (current : List Char)
    (hcurrent : current = [] ∨ ∀ n, nodes.head? = some n → isElement n = true) :
    ∃ tokens' current', (serializeAll nodes).foldl Lexer.step ⟨tokens, false, current⟩ =
        ⟨tokens', false, current'⟩ ∧
      tokens' ++ textToken current' = tokens ++ textToken current ++ tokensOfAll nodes := by
  induction nodes generalizing tokens current with
  | nil => exact ⟨tokens, current, rfl, (List.append_nil _).symm⟩
  | cons n nodes ihl =>
    have hrest := ihl (fun m hm => ih m (List.mem_cons_of_mem _ hm))
      (fun m hm => hwritten m (List.mem_cons_of_mem _ hm)) hapart.tail
    rw [serializeAll, tokensOfAll, List.foldl_append]
    cases hwritten n (List.mem_cons_self ..) with
    | element _ _ _ _ _ _ =>
      rw [ih _ (List.mem_cons_self ..) rfl]
      obtain ⟨tokens', current', hfold, htokens⟩ := hrest _ [] (.inl rfl)
      refine ⟨tokens', current', hfold, htokens.trans ?_⟩
      simp [textToken]
    | @text value hne hchars =>
      have hempty : current = [] := by
        rcases hcurrent with h | h
        · exact h
        · exact absurd (h _ rfl) Bool.false_ne_true
      subst hempty
      have hbracket : '<' ∉ escape value.toList := fun h => (mem_escape h).1 rfl
      have hnext : ∀ m, nodes.head? = some m → isElement m = true := by
        intro m hm
        cases nodes with
        | nil => cases hm
        | cons m' nodes =>
          obtain rfl := Option.some.inj hm
          exact ((List.isChain_cons_cons.mp hapart).1).resolve_left Bool.false_ne_true
      rw [serialize, foldl_step_text hbracket, List.nil_append]
      obtain ⟨tokens', current', hfold, htokens⟩ := hrest tokens (escape value.toList) (.inr hnext)
      refine ⟨tokens', current', hfold, htokens.trans ?_⟩
      have hescape : escape value.toList ≠ [] := by
        intro hnil
        have := congrArg unescape hnil
        rw [unescape_escape] at this
        exact hne this
      simp [textToken, hescape, unescape_escape, tokensOf]

theorem foldl_step_serialize {n : Node} (h : Written G n) (helement : isElement n = true)
    (tokens : List Token) (current : List Char) :
    (serialize n).foldl Lexer.step ⟨tokens, false, current⟩ =
      ⟨tokens ++ textToken current ++ tokensOf n, false, []⟩ := by
  induction h generalizing tokens current with
  | text _ _ => cases helement
  | @element name attributes children hspace hname hattributes hnodup hchildren hapart ih =>
    have hbody := bracket_notMem_tagText hG hname hattributes
    rw [serialize, tokensOf]
    split
    · have hclosed : '>' ∉ tagText name attributes ++ ['/'] := by simp [hbody]
      have hsplit : '<' :: tagText name attributes ++ ['/', '>'] =
          '<' :: (tagText name attributes ++ ['/']) ++ ['>'] := by simp
      rw [hsplit, foldl_step_tag hclosed]
    · have hend : '>' ∉ '/' :: name.label.toList := by
        rw [List.mem_cons, not_or]
        exact ⟨by decide, fun h => ((hG _ hname).2 _ h).2.2.1 rfl⟩
      have hsplit : '<' :: tagText name attributes ++ '>' :: serializeAll children ++
          '<' :: '/' :: name.label.toList ++ ['>'] =
          ('<' :: tagText name attributes ++ ['>']) ++ (serializeAll children ++
            ('<' :: ('/' :: name.label.toList) ++ ['>'])) := by simp
      obtain ⟨tokens', current', hfold, htokens⟩ := foldl_step_serializeAll
        (fun c hc hel => ih c hc hel) hchildren hapart
        (tokens ++ textToken current ++ [.tag (tagText name attributes)]) [] (.inl rfl)
      rw [hsplit, List.foldl_append, foldl_step_tag hbody, List.foldl_append, hfold,
        foldl_step_tag hend, htokens]
      simp [textToken]

theorem readAttributes_flatMap {attributes : List (Name × String)}
    (h : ∀ a ∈ attributes, PlainAttribute G a) {n : Nat} (hn : attributes.length ≤ n) :
    readAttributes n (attributes.flatMap attributeText) = attributes := by
  induction attributes generalizing n with
  | nil => cases n <;> rfl
  | cons a attributes ih =>
    obtain ⟨n, rfl⟩ : ∃ m, n = m + 1 := ⟨n - 1, by rw [List.length_cons] at hn; omega⟩
    have ha := h a (List.mem_cons_self ..)
    have hlabel : ∀ c ∈ a.1.label.toList, (c != '=') = true := fun c hc =>
      bne_iff_ne.mpr ((hG _ ha.name).2 c hc).2.2.2.1
    have hvalue : ∀ c ∈ escape a.2.toList, (c != '"') = true := fun c hc =>
      bne_iff_ne.mpr (mem_escape hc).2.2
    have htext : (a :: attributes).flatMap attributeText =
        ' ' :: (a.1.label.toList ++ '=' :: ('"' :: (escape a.2.toList ++
          '"' :: attributes.flatMap attributeText))) := by
      rw [List.flatMap_cons]
      unfold attributeText
      simp
    have hname : Name.plain (String.ofList a.1.label.toList) = a.1 := by
      unfold Name.plain
      rw [String.ofList_toList, ← ha.space]
    rw [htext, readAttributes]
    simp only [List.drop_one, List.tail_cons, List.takeWhile_append_of_pos hlabel,
      List.dropWhile_append_of_pos hlabel]
    simp only [bne_self_eq_false, Bool.false_eq_true, not_false_eq_true, List.takeWhile_cons_of_neg,
      List.dropWhile_cons_of_neg, List.append_nil, List.drop_succ_cons, List.drop_zero,
      List.takeWhile_append_of_pos hvalue, List.dropWhile_append_of_pos hvalue,
      unescape_escape, String.ofList_toList, List.tail_cons]
    rw [ih (fun a' ha' => h a' (List.mem_cons_of_mem _ ha')) (by rw [List.length_cons] at hn; omega)]
    · rw [String.ofList_toList] at hname
      rw [hname]
    · exact List.cons_ne_nil _ _

omit hG in
theorem length_le_flatMap (attributes : List (Name × String)) :
    attributes.length ≤ (attributes.flatMap attributeText).length := by
  induction attributes with
  | nil => exact Nat.le_refl _
  | cons a attributes ih =>
    have hpos : 1 ≤ (attributeText a).length := by
      unfold attributeText
      simp
    rw [List.flatMap_cons, List.length_append, List.length_cons]
    omega

theorem readTag_tagText {name : Name} {attributes : List (Name × String)}
    (hspace : name.space = none) (hname : G.isName name.label)
    (hattributes : ∀ a ∈ attributes, PlainAttribute G a) :
    readTag (tagText name attributes) = (name, attributes) := by
  have hlabel : ∀ c ∈ name.label.toList, (c != ' ') = true := fun c hc =>
    bne_iff_ne.mpr ((hG _ hname).2 c hc).1
  have hrest : attributes.flatMap attributeText = [] ∨
      ∃ rest, attributes.flatMap attributeText = ' ' :: rest := by
    cases attributes with
    | nil => exact .inl rfl
    | cons a attributes => exact .inr ⟨_, rfl⟩
  have htake : (attributes.flatMap attributeText).takeWhile (fun c => c != ' ') = [] := by
    rcases hrest with h | ⟨rest, h⟩ <;> rw [h] <;> rfl
  have hdrop : (attributes.flatMap attributeText).dropWhile (fun c => c != ' ') =
      attributes.flatMap attributeText := by
    rcases hrest with h | ⟨rest, h⟩ <;> rw [h] <;> rfl
  have hcount : attributes.length ≤ (name.label.toList ++ attributes.flatMap attributeText).length := by
    rw [List.length_append]
    exact Nat.le_trans (length_le_flatMap attributes) (Nat.le_add_left _ _)
  unfold readTag
  have hname' : Name.plain name.label = name := by
    unfold Name.plain
    rw [← hspace]
  unfold tagText
  rw [List.takeWhile_append_of_pos hlabel, List.dropWhile_append_of_pos hlabel, htake, hdrop,
    List.append_nil, String.ofList_toList, hname', readAttributes_flatMap hG hattributes hcount]

/-- A tag that is not closed at once: it starts with a name and does not end in a slash. -/
theorem tagText_ends {name : Name} (attributes : List (Name × String)) (hname : G.isName name.label) :
    ∃ c rest, tagText name attributes = c :: rest ∧ c ≠ '/' ∧ c ≠ '?' ∧
      (tagText name attributes).getLast? ≠ some '/' := by
  obtain ⟨hne, hchars⟩ := hG _ hname
  obtain ⟨c, label, hlabel⟩ := List.exists_cons_of_ne_nil hne
  have hc := hchars c (hlabel ▸ List.mem_cons_self ..)
  refine ⟨c, label ++ attributes.flatMap attributeText, ?_, hc.2.1, hc.2.2.2.2.1, fun hlast => ?_⟩
  · unfold tagText
    rw [hlabel]
    rfl
  · unfold tagText at hlast
    rcases List.eq_nil_or_concat attributes with rfl | ⟨init, a, rfl⟩
    · rw [List.flatMap_nil, List.append_nil] at hlast
      exact (hchars _ (List.mem_of_getLast? hlast)).2.1 rfl
    · rw [List.concat_eq_append, List.flatMap_append, List.flatMap_singleton] at hlast
      unfold attributeText at hlast
      rw [← List.append_assoc, ← List.append_assoc, List.getLast?_concat] at hlast
      cases hlast

omit hG in
theorem Builder.step_body {c : Char} {rest : List Char} (hslash : c ≠ '/') (hquestion : c ≠ '?')
    (s : Builder) : s.step (.tag (c :: rest)) =
      if (c :: rest).getLast? = some '/' then
        some ⟨s.frames, s.nodes ++
          [.element (readTag (c :: rest).dropLast).1 (readTag (c :: rest).dropLast).2 []]⟩
      else
        some ⟨⟨(readTag (c :: rest)).1, (readTag (c :: rest)).2, s.nodes⟩ :: s.frames, []⟩ := by
  unfold Builder.step
  split
  · contradiction
  · rename_i heq
    exact absurd (List.cons.inj (Token.tag.inj heq)).1 hquestion
  · rename_i heq
    exact absurd (List.cons.inj (Token.tag.inj heq)).1 hslash
  · rename_i heq
    rw [← Token.tag.inj heq]

theorem foldlM_step_tokensOf {n : Node} (h : Written G n) (frames : List Frame) (nodes : List Node) :
    (tokensOf n).foldlM Builder.step ⟨frames, nodes⟩ = some ⟨frames, nodes ++ [n]⟩ := by
  induction h generalizing frames nodes with
  | @text value hne hchars =>
    rw [tokensOf, List.foldlM_cons]
    simp [Builder.step]
  | @element name attributes children hspace hname hattributes hnodup hchildren hapart ih =>
    obtain ⟨c, rest, htag, hslash, hquestion, hlast⟩ :=
      tagText_ends hG attributes hname
    have hread := readTag_tagText hG hspace hname hattributes
    rw [tokensOf]
    split
    · rename_i hempty
      rw [List.isEmpty_iff.mp hempty]
      have hbody : tagText name attributes ++ ['/'] = c :: (rest ++ ['/']) := by rw [htag]; rfl
      rw [hbody, List.foldlM_cons, Builder.step_body hslash hquestion, ← hbody, List.getLast?_concat,
        if_pos rfl, List.dropLast_concat, hread]
      rfl
    · have hall : ∀ (cs : List Node), (∀ c ∈ cs, c ∈ children) → ∀ (frames : List Frame)
          (nodes : List Node), (tokensOfAll cs).foldlM Builder.step ⟨frames, nodes⟩ =
            some ⟨frames, nodes ++ cs⟩ := by
        intro cs hcs
        induction cs with
        | nil => intro frames nodes; simp [tokensOfAll]
        | cons c cs ihc =>
          intro frames nodes
          rw [tokensOfAll, List.foldlM_append, ih c (hcs c (List.mem_cons_self ..)),
            Option.bind_eq_bind, Option.bind_some,
            ihc fun c' hc' => hcs c' (List.mem_cons_of_mem _ hc')]
          simp
      rw [List.cons_append, List.foldlM_cons, htag, Builder.step_body hslash hquestion, ← htag,
        if_neg hlast, hread, Option.bind_eq_bind, Option.bind_some, List.foldlM_append,
        hall children (fun _ h => h), Option.bind_eq_bind, Option.bind_some, List.nil_append]
      simp [Builder.step]

/-! ### Documents -/

omit hG in
theorem lex_document {tokens : List Token} {l l' : List Char}
    (hl : l.foldl Lexer.step ⟨[], false, []⟩ = ⟨tokens, false, l'⟩) :
    lex (l ++ ['\n']) = tokens ++ textToken (l' ++ ['\n']) := by
  unfold lex
  rw [List.foldl_append, hl]
  rfl

/-- The declaration that a document may start with. -/
def declaration : List Char := "<?xml version=\"1.0\" encoding=\"UTF-8\"?>\n".toList

/-- The characters of a document, with the declaration or without it. -/
def documentText (declared : Bool) (n : Node) : List Char :=
  (if declared then declaration else []) ++ serialize n ++ ['\n']

theorem readDocument_documentText {n : Node} (h : Written G n) (helement : isElement n = true)
    (declared : Bool) : readDocument (documentText declared n) = some n := by
  have hnewline : textToken ['\n'] = [.text ['\n']] := rfl
  have hbuild : ∀ nodes : List Node, nodes.find? isElement = none →
      (match (tokensOf n ++ [Token.text ['\n']]).foldlM Builder.step ⟨[], nodes⟩ with
        | some ⟨[], nodes⟩ => nodes.find? isElement
        | _ => none) = some n := by
    intro nodes hnodes
    rw [List.foldlM_append, foldlM_step_tokensOf hG h]
    simp [Builder.step, List.find?_append, hnodes, helement]
  unfold readDocument documentText
  cases declared with
  | false =>
    rw [if_neg Bool.false_ne_true, List.nil_append,
      lex_document (foldl_step_serialize hG h helement [] []), List.nil_append]
    exact hbuild [] rfl
  | true =>
    have hstart : declaration.foldl Lexer.step ⟨[], false, []⟩ =
        ⟨[.tag "?xml version=\"1.0\" encoding=\"UTF-8\"?".toList], false, ['\n']⟩ := rfl
    rw [if_pos rfl, @lex_document _ _ [] (by
      rw [List.foldl_append, hstart, foldl_step_serialize hG h helement])]
    exact hbuild [.text "\n"] rfl

end

end Suture.Foundation.Markup
