import Mathlib.Data.String.Basic
import Suture.Engine.Reread
import Suture.Foundation.Fields
import Suture.Foundation.Rows
import Suture.Foundation.ThreeWay

/-!
# Merging calendars

The iCalendar driver reads a calendar as its components, each with its properties, and merges
the components by kind and UID. A component that one side deleted is kept from the other side.
-/

namespace Suture.Driver.Ical
set_option autoImplicit false
open Foundation Engine

/-- The kind of a component and its properties. -/
abbrev Component := String × List (String × String)

/-! ### Reading -/

/-- The lines so far and the one that may go on. -/
structure Unfolding where
  lines : List String
  current : String

def Unfolding.step (s : Unfolding) (rawLine : String) : Unfolding :=
  let line := bareLine rawLine
  if line.toList.head? = some ' ' ∨ line.toList.head? = some '\t' then
    { s with current := s.current ++ String.ofList (line.toList.drop 1) }
  else if s.current ≠ "" then ⟨s.lines ++ [s.current], line⟩
  else { s with current := line }

/-- All lines, when there are no more. -/
def Unfolding.finish (s : Unfolding) : List String :=
  if s.current ≠ "" then s.lines ++ [s.current] else s.lines

def unfoldLines (content : String) : List String :=
  ((textLines content).foldl Unfolding.step ⟨[], ""⟩).finish

/-- What comes after a keyword. -/
def stripKeyword (keyword line : String) : Option String :=
  if keyword.toList.isPrefixOf line.toList then
    some (String.ofList (line.toList.drop keyword.toList.length))
  else none

def trim (s : String) : String := String.ofList (trimBy isWhiteSpace s.toList)

/-- The name of a property goes to the first colon, or to a semicolon before it. -/
def parsePropertyLine (line : String) : Option (String × String) :=
  if ':' ∈ line.toList then
    some (String.ofList ((line.toList.takeWhile fun c => c != ':').takeWhile fun c => c != ';'),
      String.ofList ((line.toList.dropWhile fun c => c != ':').drop 1))
  else none

/-- The components that are complete, and those that are open, innermost first. -/
structure Parsing where
  components : List Component
  stack : List Component

def Parsing.step (s : Parsing) (line : String) : Parsing :=
  if line = "" then s
  else match stripKeyword "BEGIN:" line with
    | some rest => { s with stack := (trim rest, []) :: s.stack }
    | none =>
      match stripKeyword "END:" line with
      | some rest =>
        match s.stack with
        | [] => s
        | (compType, props) :: stack =>
          if compType = trim rest then
            match stack with
            | [] => ⟨s.components ++ [(compType, props)], []⟩
            | (parentType, parentProps) :: below =>
              { s with stack := (parentType, parentProps ++
                ("BEGIN:" ++ compType, compType) :: props ++ [("END:" ++ compType, compType)]) :: below }
          else { s with stack := stack }
      | none =>
        match s.stack, parsePropertyLine line with
        | (compType, props) :: stack, some entry =>
          { s with stack := (compType, props ++ [entry]) :: stack }
        | _, _ => s

def parseIcal (content : String) : List Component :=
  ((unfoldLines content).foldl Parsing.step ⟨[], []⟩).components

/-- The inner components so far, and the one that is being read. -/
structure Scan where
  inner : List Component
  current : Option Component

/-- One property of a calendar. An inner component ends at the first end of any component. -/
def Scan.step (s : Scan) (entry : String × String) : Scan :=
  match s.current with
  | none =>
    match stripKeyword "BEGIN:" entry.1 with
    | some ct => { s with current := some (ct, []) }
    | none => s
  | some (ct, props) =>
    if "END:".toList.isPrefixOf entry.1.toList then ⟨s.inner ++ [(ct, props)], none⟩
    else { s with current := some (ct, props ++ [entry]) }

def innerOf (props : List (String × String)) : List Component :=
  let s := props.foldl Scan.step ⟨[], none⟩
  s.inner ++ s.current.toList

def extractInnerComponents (components : List Component) : List Component :=
  components.flatMap fun c => if c.1 = "VCALENDAR" then innerOf c.2 else [c]

def extractUid (props : List (String × String)) : Option String :=
  (props.find? fun p => p.1 == "UID").map Prod.snd

def uidKey (c : Component) : String :=
  c.1 ++ "[UID=" ++ (extractUid c.2).getD "" ++ "]"

def kinds : List String := ["VEVENT", "VTODO", "VJOURNAL", "VFREEBUSY"]

/-- The components that are merged, by kind and UID; the last one of each counts. -/
def componentsByUid (components : List Component) : List (String × List (String × String)) :=
  (components.filter fun c => kinds.contains c.1).map fun c => (uidKey c, c.2)

/-! ### Writing -/

def serializeComponents (components : List Component) : String :=
  "BEGIN:VCALENDAR\r\n" ++ "VERSION:2.0\r\n" ++ "PRODID:-//Suture//ICAL//EN\r\n" ++
    String.join (components.map fun c => "BEGIN:" ++ c.1 ++ "\r\n" ++
      String.join (c.2.map fun p => p.1 ++ ":" ++ p.2 ++ "\r\n") ++ "END:" ++ c.1 ++ "\r\n") ++
    "END:VCALENDAR\r\n"

/-! ### The merge -/

/-- A property that both sides have; one that the base does not have was empty there. -/
def settleProperty (base : Option String) (ours theirs : String) : Option String :=
  if ours = theirs then some ours
  else if ours = base.getD "" then some theirs
  else if theirs = base.getD "" then some ours
  else none

def mergeProperties (base ours theirs : List (String × String)) : Option (List (String × String)) :=
  let allKeys := (SortedSet.ofList ((base ++ ours ++ theirs).map Prod.fst)).elems
  (allKeys.mapM fun key => (mergeEntry settleProperty (lastRow base key) (lastRow ours key)
    (lastRow theirs key)).map fun v => v.map fun v => (key, v)).map List.reduceOption

/-- A component that both sides have. -/
def settleComponent (base : Option (List (String × String))) (ours theirs : List (String × String)) :
    Option (List (String × String)) :=
  if ours = theirs then some ours
  else match base with
    | some b => mergeProperties b ours theirs
    | none => none

def kindOf (key : String) : String := String.ofList (key.toList.takeWhile fun c => c != '[')

def mergeComponents (base ours theirs : List Component) : Option (List Component) :=
  let baseByUid := componentsByUid base
  let oursByUid := componentsByUid ours
  let theirsByUid := componentsByUid theirs
  let allUids := (SortedSet.ofList ((baseByUid ++ oursByUid ++ theirsByUid).map Prod.fst)).elems
  (allUids.mapM fun key => (mergeEntry settleComponent (lastRow baseByUid key)
    (lastRow oursByUid key) (lastRow theirsByUid key)).map fun r =>
      r.map fun props => (kindOf key, props)).map List.reduceOption

def merge (base ours theirs : String) : Option String :=
  (mergeComponents (extractInnerComponents (parseIcal base)) (extractInnerComponents (parseIcal ours))
    (extractInnerComponents (parseIcal theirs))).map serializeComponents

/-! ### Calendars as lines -/

structure Calendar where
  properties : List (String × String)
  components : List Component

def propertyLine (p : String × String) : String := p.1 ++ ":" ++ p.2

def componentLines (c : Component) : List String :=
  ("BEGIN:" ++ c.1) :: c.2.map propertyLine ++ ["END:" ++ c.1]

def Calendar.lines (cal : Calendar) : List String :=
  "BEGIN:VCALENDAR" :: cal.properties.map propertyLine ++ cal.components.flatMap componentLines ++
    ["END:VCALENDAR"]

/-- The text is the calendar, with any folding of its lines. -/
def Denotes (text : String) (cal : Calendar) : Prop := unfoldLines text = cal.lines

/-- A property without parameters. -/
structure PlainProperty (p : String × String) : Prop where
  name_ne : p.1.toList ≠ []
  name : ∀ c ∈ p.1.toList, c ≠ ':' ∧ c ≠ ';' ∧ c ≠ '\n' ∧ c ≠ ' ' ∧ c ≠ '\t'
  keyword : p.1 ≠ "BEGIN" ∧ p.1 ≠ "END"
  value : '\n' ∉ p.2.toList ∧ p.2.toList.getLast? ≠ some '\r'

/-- A component of a kind that is merged, with no component in it. -/
structure PlainComponent (c : Component) : Prop where
  kind : c.1 ∈ kinds
  properties : ∀ p ∈ c.2, PlainProperty p

structure PlainCalendar (cal : Calendar) : Prop where
  properties : ∀ p ∈ cal.properties, PlainProperty p
  components : ∀ c ∈ cal.components, PlainComponent c
  distinct : (cal.components.map uidKey).Nodup

theorem toList_propertyLine (p : String × String) :
    (propertyLine p).toList = p.1.toList ++ ':' :: p.2.toList := by
  unfold propertyLine
  simp

theorem propertyLine_ne (p : String × String) : propertyLine p ≠ "" := by
  intro hempty
  have := congrArg String.toList hempty
  rw [toList_propertyLine] at this
  exact List.append_ne_nil_of_right_ne_nil _ (List.cons_ne_nil _ _) this

namespace PlainProperty
variable {p : String × String} (h : PlainProperty p)
include h

theorem takeWhile_name (rest : List Char) :
    (p.1.toList ++ ':' :: rest).takeWhile (fun c => c != ':') = p.1.toList := by
  rw [List.takeWhile_append_of_pos fun c hc => bne_iff_ne.mpr (h.name c hc).1]
  exact List.append_nil _

theorem stripKeyword_eq_none (keyword : String) (hkeyword : ':' ∉ keyword.toList)
    (hne : p.1 ≠ keyword) : stripKeyword (keyword ++ ":") (propertyLine p) = none := by
  unfold stripKeyword
  refine if_neg fun hbegins => hne ?_
  obtain ⟨rest, hrest⟩ := List.isPrefixOf_iff_prefix.mp hbegins
  rw [String.toList_append, toList_propertyLine, List.append_assoc] at hrest
  have hread := congrArg (List.takeWhile fun c => c != ':') hrest
  have hkeyword' : (keyword.toList ++ (":".toList ++ rest)).takeWhile (fun c => c != ':') =
      keyword.toList := by
    rw [List.takeWhile_append_of_pos fun c hc =>
      bne_iff_ne.mpr fun heq : c = ':' => hkeyword (heq ▸ hc)]
    exact List.append_nil _
  rw [hkeyword', h.takeWhile_name] at hread
  exact (String.toList_inj.mp hread).symm

/-- A name does not begin with a keyword and its colon. -/
theorem isPrefixOf_name {keyword : String} (hkeyword : ':' ∈ keyword.toList) :
    keyword.toList.isPrefixOf p.1.toList = false := by
  rw [Bool.eq_false_iff]
  intro hbegins
  obtain ⟨rest, hrest⟩ := List.isPrefixOf_iff_prefix.mp hbegins
  exact (h.name ':' (hrest ▸ List.mem_append_left _ hkeyword)).1 rfl

theorem parsePropertyLine_eq : parsePropertyLine (propertyLine p) = some p := by
  have hdrop : (p.1.toList ++ ':' :: p.2.toList).dropWhile (fun c => c != ':') = ':' :: p.2.toList := by
    rw [List.dropWhile_append_of_pos fun c hc => bne_iff_ne.mpr (h.name c hc).1]
    rfl
  have hsemicolon : p.1.toList.takeWhile (fun c => c != ';') = p.1.toList :=
    List.takeWhile_eq_self_iff.mpr fun c hc => bne_iff_ne.mpr (h.name c hc).2.1
  unfold parsePropertyLine
  rw [toList_propertyLine, if_pos (by simp), h.takeWhile_name, hdrop, hsemicolon, List.drop_one,
    List.tail_cons, String.ofList_toList, String.ofList_toList]

theorem step_line (components : List Component) (compType : String) (props : List (String × String))
    (stack : List Component) :
    Parsing.step ⟨components, (compType, props) :: stack⟩ (propertyLine p) =
      ⟨components, (compType, props ++ [p]) :: stack⟩ := by
  have hbegin : stripKeyword "BEGIN:" (propertyLine p) = none :=
    h.stripKeyword_eq_none "BEGIN" (by decide) h.keyword.1
  have hend : stripKeyword "END:" (propertyLine p) = none :=
    h.stripKeyword_eq_none "END" (by decide) h.keyword.2
  unfold Parsing.step
  rw [if_neg (propertyLine_ne p)]
  simp only [hbegin, hend, h.parsePropertyLine_eq]

end PlainProperty

theorem foldl_step_properties {props : List (String × String)} (h : ∀ p ∈ props, PlainProperty p)
    (components : List Component) (compType : String) (before : List (String × String))
    (stack : List Component) :
    (props.map propertyLine).foldl Parsing.step ⟨components, (compType, before) :: stack⟩ =
      ⟨components, (compType, before ++ props) :: stack⟩ := by
  induction props generalizing before with
  | nil => rw [List.append_nil]; rfl
  | cons p props ih =>
    rw [List.map_cons, List.foldl_cons, (h p (List.mem_cons_self ..)).step_line,
      ih fun q hq => h q (List.mem_cons_of_mem _ hq), List.append_assoc]
    rfl

/-- What a component is among the properties of the calendar around it. -/
def flat (c : Component) : List (String × String) :=
  ("BEGIN:" ++ c.1, c.1) :: c.2 ++ [("END:" ++ c.1, c.1)]

theorem stripKeyword_append (keyword rest : String) :
    stripKeyword keyword (keyword ++ rest) = some rest := by
  unfold stripKeyword
  rw [String.toList_append, if_pos (List.isPrefixOf_iff_prefix.mpr ⟨_, rfl⟩), List.drop_left,
    String.ofList_toList]

theorem begin_of_end (kind : String) : stripKeyword "BEGIN:" ("END:" ++ kind) = none := by
  unfold stripKeyword
  rw [String.toList_append]
  exact if_neg Bool.false_ne_true

theorem step_begin (kind : String) (hkind : trim kind = kind) (s : Parsing) :
    s.step ("BEGIN:" ++ kind) = { s with stack := (kind, []) :: s.stack } := by
  have hne : "BEGIN:" ++ kind ≠ "" := by
    intro hempty
    have := congrArg String.toList hempty
    rw [String.toList_append] at this
    cases this
  unfold Parsing.step
  rw [if_neg hne]
  simp only [stripKeyword_append, hkind]

theorem end_ne (kind : String) : "END:" ++ kind ≠ "" := by
  intro hempty
  have := congrArg String.toList hempty
  rw [String.toList_append] at this
  cases this

theorem trim_of_mem_kinds {kind : String} (h : kind ∈ kinds) : trim kind = kind := by
  have hall : kinds.all (fun k => trim k == k) = true := by decide
  exact beq_iff_eq.mp (List.all_eq_true.mp hall kind h)

theorem PlainComponent.foldl_step {c : Component} (h : PlainComponent c) (components : List Component)
    (compType : String) (props : List (String × String)) (below : List Component) :
    (componentLines c).foldl Parsing.step ⟨components, (compType, props) :: below⟩ =
      ⟨components, (compType, props ++ flat c) :: below⟩ := by
  have htrim := trim_of_mem_kinds h.kind
  have hend : Parsing.step ⟨components, (c.1, c.2) :: (compType, props) :: below⟩ ("END:" ++ c.1) =
      ⟨components, (compType, props ++ flat c) :: below⟩ := by
    unfold Parsing.step flat
    rw [if_neg (end_ne c.1)]
    simp only [begin_of_end, stripKeyword_append, htrim, if_true, List.append_assoc]
  unfold componentLines
  rw [List.cons_append, List.foldl_cons, step_begin _ htrim, List.foldl_append,
    foldl_step_properties h.properties, List.nil_append]
  exact hend

theorem foldl_step_components {cs : List Component} (h : ∀ c ∈ cs, PlainComponent c)
    (components : List Component) (compType : String) (props : List (String × String))
    (below : List Component) :
    (cs.flatMap componentLines).foldl Parsing.step ⟨components, (compType, props) :: below⟩ =
      ⟨components, (compType, props ++ cs.flatMap flat) :: below⟩ := by
  induction cs generalizing props with
  | nil => rw [List.flatMap_nil, List.flatMap_nil, List.append_nil]; rfl
  | cons c cs ih =>
    rw [List.flatMap_cons, List.foldl_append, (h c (List.mem_cons_self ..)).foldl_step,
      ih fun d hd => h d (List.mem_cons_of_mem _ hd), List.flatMap_cons, List.append_assoc]

theorem parseIcal_of_denotes {text : String} {cal : Calendar} (h : Denotes text cal)
    (hplain : PlainCalendar cal) :
    parseIcal text = [("VCALENDAR", cal.properties ++ cal.components.flatMap flat)] := by
  have hend : Parsing.step ⟨[], [("VCALENDAR", cal.properties ++ cal.components.flatMap flat)]⟩
      "END:VCALENDAR" = ⟨[("VCALENDAR", cal.properties ++ cal.components.flatMap flat)], []⟩ := by
    have hbegin : stripKeyword "BEGIN:" "END:VCALENDAR" = none := by decide
    have hstrip : stripKeyword "END:" "END:VCALENDAR" = some "VCALENDAR" := by decide
    have htrim : trim "VCALENDAR" = "VCALENDAR" := by decide
    unfold Parsing.step
    rw [if_neg (by decide)]
    simp only [hbegin, hstrip, htrim, if_true, List.nil_append]
  have hbegin : Parsing.step ⟨[], []⟩ "BEGIN:VCALENDAR" = ⟨[], [("VCALENDAR", [])]⟩ :=
    step_begin "VCALENDAR" (by decide) _
  unfold parseIcal
  rw [h]
  unfold Calendar.lines
  rw [List.cons_append, List.cons_append, List.foldl_cons, hbegin, List.foldl_append,
    List.foldl_append, foldl_step_properties hplain.properties, List.nil_append,
    foldl_step_components hplain.components]
  exact congrArg Parsing.components hend

/-! ### The components of a calendar -/

theorem scan_properties {props : List (String × String)} (h : ∀ p ∈ props, PlainProperty p)
    (inner : List Component) : props.foldl Scan.step ⟨inner, none⟩ = ⟨inner, none⟩ := by
  induction props with
  | nil => rfl
  | cons p props ih =>
    have hbegin : stripKeyword "BEGIN:" p.1 = none := by
      unfold stripKeyword
      rw [(h p (List.mem_cons_self ..)).isPrefixOf_name (by decide), if_neg Bool.false_ne_true]
    have hstep : Scan.step ⟨inner, none⟩ p = ⟨inner, none⟩ := by
      unfold Scan.step
      simp only [hbegin]
    rw [List.foldl_cons, hstep, ih fun q hq => h q (List.mem_cons_of_mem _ hq)]

theorem scan_inside {props : List (String × String)} (h : ∀ p ∈ props, PlainProperty p)
    (inner : List Component) (kind : String) (before : List (String × String)) :
    props.foldl Scan.step ⟨inner, some (kind, before)⟩ = ⟨inner, some (kind, before ++ props)⟩ := by
  induction props generalizing before with
  | nil => rw [List.append_nil]; rfl
  | cons p props ih =>
    have hend : ("END:".toList.isPrefixOf p.1.toList) = false :=
      (h p (List.mem_cons_self ..)).isPrefixOf_name (by decide)
    have hstep : Scan.step ⟨inner, some (kind, before)⟩ p = ⟨inner, some (kind, before ++ [p])⟩ := by
      unfold Scan.step
      simp only [hend, Bool.false_eq_true, if_false]
    rw [List.foldl_cons, hstep, ih fun q hq => h q (List.mem_cons_of_mem _ hq), List.append_assoc]
    rfl

theorem innerOf_flat {cs : List Component} (h : ∀ c ∈ cs, PlainComponent c)
    {props : List (String × String)} (hprops : ∀ p ∈ props, PlainProperty p) :
    innerOf (props ++ cs.flatMap flat) = cs := by
  have hall : ∀ (cs : List Component) (inner : List Component), (∀ c ∈ cs, PlainComponent c) →
      (cs.flatMap flat).foldl Scan.step ⟨inner, none⟩ = ⟨inner ++ cs, none⟩ := by
    intro cs inner hcs
    induction cs generalizing inner with
    | nil => rw [List.append_nil]; rfl
    | cons c cs ih =>
      have hc := hcs c (List.mem_cons_self ..)
      have hbegin : Scan.step ⟨inner, none⟩ ("BEGIN:" ++ c.1, c.1) = ⟨inner, some (c.1, [])⟩ := by
        unfold Scan.step
        simp only [stripKeyword_append]
      have hend : Scan.step ⟨inner, some (c.1, c.2)⟩ ("END:" ++ c.1, c.1) =
          ⟨inner ++ [c], none⟩ := by
        unfold Scan.step
        simp only [String.toList_append]
        rw [if_pos (List.isPrefixOf_iff_prefix.mpr ⟨_, rfl⟩)]
      rw [List.flatMap_cons, List.foldl_append]
      unfold flat
      rw [List.cons_append, List.foldl_cons, hbegin, List.foldl_append, scan_inside hc.properties,
        List.nil_append, List.foldl_cons, List.foldl_nil, hend]
      have hrest := ih (inner ++ [c]) fun d hd => hcs d (List.mem_cons_of_mem _ hd)
      unfold flat at hrest
      rw [hrest, List.append_assoc]
      rfl
  unfold innerOf
  rw [List.foldl_append, scan_properties hprops, hall cs [] h]
  exact List.append_nil _

theorem inner_of_denotes {text : String} {cal : Calendar} (h : Denotes text cal)
    (hplain : PlainCalendar cal) : extractInnerComponents (parseIcal text) = cal.components := by
  rw [parseIcal_of_denotes h hplain]
  unfold extractInnerComponents
  rw [List.flatMap_singleton, if_pos rfl]
  exact innerOf_flat hplain.components hplain.properties

/-! ### What is written -/

def sutureProperties : List (String × String) :=
  [("VERSION", "2.0"), ("PRODID", "-//Suture//ICAL//EN")]

theorem serializeComponents_eq (components : List Component) :
    serializeComponents components =
      String.join ((Calendar.lines ⟨sutureProperties, components⟩).map (· ++ "\r\n")) := by
  have hcomponent : ∀ c : Component, "BEGIN:" ++ c.1 ++ "\r\n" ++
      String.join (c.2.map fun p => p.1 ++ ":" ++ p.2 ++ "\r\n") ++ "END:" ++ c.1 ++ "\r\n" =
      String.join ((componentLines c).map (· ++ "\r\n")) := by
    intro c
    apply String.toList_inj.mp
    simp [componentLines, propertyLine, List.flatMap_map, Function.comp_def]
  apply String.toList_inj.mp
  unfold serializeComponents
  simp only [hcomponent]
  simp [Calendar.lines, sutureProperties, propertyLine, List.flatMap_map, List.map_flatMap,
    List.flatMap_assoc]

/-- A line that is read as it is written. -/
def GoodLine (line : String) : Prop :=
  line ≠ "" ∧ '\n' ∉ line.toList ∧ line.toList.getLast? ≠ some '\r' ∧
    ¬ (line.toList.head? = some ' ' ∨ line.toList.head? = some '\t')

instance (line : String) : Decidable (GoodLine line) :=
  inferInstanceAs (Decidable (_ ∧ _ ∧ _ ∧ ¬ (_ ∨ _)))

theorem bareLine_of_good {line : String} (h : GoodLine line) : bareLine line = line := by
  unfold bareLine
  exact if_neg h.2.2.1

theorem bareLine_append_return (line : String) : bareLine (line ++ "\r") = line := by
  have htoList : (line ++ "\r").toList = line.toList ++ ['\r'] := String.toList_append
  unfold bareLine
  rw [htoList, List.getLast?_concat, if_pos rfl, List.dropLast_concat, String.ofList_toList]

theorem finish_foldl {lines : List String} (h : ∀ line ∈ lines, GoodLine line) (s : Unfolding) :
    (lines.foldl Unfolding.step s).finish = s.finish ++ lines := by
  induction lines generalizing s with
  | nil => exact (List.append_nil _).symm
  | cons line lines ih =>
    have hline := h line (List.mem_cons_self ..)
    have hstep : s.step line = ⟨s.finish, line⟩ := by
      unfold Unfolding.step Unfolding.finish
      simp only [bareLine_of_good hline]
      rw [if_neg hline.2.2.2]
      split <;> rfl
    rw [List.foldl_cons, hstep, ih fun l hl => h l (List.mem_cons_of_mem _ hl)]
    unfold Unfolding.finish
    rw [if_pos hline.1, List.append_assoc]
    rfl

theorem unfoldLines_join {lines : List String} (h : ∀ line ∈ lines, GoodLine line) :
    unfoldLines (String.join (lines.map (· ++ "\r\n"))) = lines := by
  have hreturn : lines.map (· ++ "\r\n") = (lines.map (· ++ "\r")).map (· ++ "\n") := by
    rw [List.map_map]
    refine List.map_congr_left fun line _ => ?_
    apply String.toList_inj.mp
    simp
  have hread : textLines (String.join (lines.map (· ++ "\r\n"))) = lines := by
    rw [hreturn, textLines_join, List.map_map]
    · exact (List.map_congr_left fun line _ => bareLine_append_return line).trans (List.map_id _)
    · intro line hline
      obtain ⟨l, hl, rfl⟩ := List.mem_map.mp hline
      simpa using (h l hl).2.1
  unfold unfoldLines
  rw [hread]
  exact finish_foldl h ⟨[], ""⟩

theorem PlainProperty.good {p : String × String} (h : PlainProperty p) : GoodLine (propertyLine p) := by
  refine ⟨propertyLine_ne p, ?_, ?_, ?_⟩
  · rw [toList_propertyLine]
    intro hmem
    rcases List.mem_append.mp hmem with hmem | hmem
    · exact (h.name _ hmem).2.2.1 rfl
    · exact (List.mem_cons.mp hmem).elim (by decide) h.value.1
  · rw [toList_propertyLine, List.getLast?_append, List.getLast?_cons]
    intro heq
    rw [Option.some_or, Option.some.injEq] at heq
    cases hlast : p.2.toList.getLast? with
    | none =>
      rw [hlast] at heq
      cases heq
    | some c =>
      rw [hlast, Option.getD_some] at heq
      exact h.value.2 (heq ▸ hlast)
  · rw [toList_propertyLine]
    obtain ⟨d, rest, hd⟩ := List.exists_cons_of_ne_nil h.name_ne
    have hblank := (h.name d (hd ▸ List.mem_cons_self ..)).2.2.2
    rw [hd]
    rintro (heq | heq)
    · exact hblank.1 (Option.some.inj heq)
    · exact hblank.2 (Option.some.inj heq)

theorem good_of_mem_kinds {kind : String} (h : kind ∈ kinds) :
    GoodLine ("BEGIN:" ++ kind) ∧ GoodLine ("END:" ++ kind) := by
  have hall : (kinds.all fun k => decide (GoodLine ("BEGIN:" ++ k) ∧ GoodLine ("END:" ++ k))) = true := by
    decide
  exact of_decide_eq_true (List.all_eq_true.mp hall kind h)

theorem plain_of_all {props : List (String × String)}
    (h : (props.all fun p => decide (p.1.toList ≠ [] ∧ p.1 ≠ "BEGIN" ∧ p.1 ≠ "END" ∧
      '\n' ∉ p.2.toList ∧ p.2.toList.getLast? ≠ some '\r') && p.1.toList.all fun c =>
        c != ':' && c != ';' && c != '\n' && c != ' ' && c != '\t') = true) :
    ∀ p ∈ props, PlainProperty p := by
  intro p hp
  have hp := List.all_eq_true.mp h p hp
  rw [Bool.and_eq_true, decide_eq_true_iff] at hp
  obtain ⟨⟨hne, hbegin, hend, hvalue⟩, hname⟩ := hp
  refine ⟨hne, fun c hc => ?_, ⟨hbegin, hend⟩, hvalue⟩
  simpa [and_assoc] using List.all_eq_true.mp hname c hc

theorem plain_sutureProperties : ∀ p ∈ sutureProperties, PlainProperty p := plain_of_all (by decide)

theorem denotes_serializeComponents {components : List Component}
    (h : ∀ c ∈ components, PlainComponent c) :
    Denotes (serializeComponents components) ⟨sutureProperties, components⟩ := by
  unfold Denotes
  rw [serializeComponents_eq, unfoldLines_join]
  intro line hline
  unfold Calendar.lines at hline
  simp only [List.cons_append, List.mem_cons, List.mem_append, List.mem_map, List.mem_flatMap,
    List.not_mem_nil, or_false] at hline
  rcases hline with rfl | (⟨p, hp, rfl⟩ | ⟨c, hc, hline⟩) | rfl
  · decide
  · exact (plain_sutureProperties p hp).good
  · obtain ⟨hbegin, hend⟩ := good_of_mem_kinds (h c hc).kind
    unfold componentLines at hline
    simp only [List.cons_append, List.mem_cons, List.mem_append, List.mem_map, List.not_mem_nil,
      or_false] at hline
    rcases hline with rfl | ⟨p, hp, rfl⟩ | rfl
    · exact hbegin
    · exact ((h c hc).properties p hp).good
    · exact hend
  · decide

/-! ### A change on one side -/

/-- The properties of the base and of the component, each name once and in the order of the
names, with the values of the component where it has one. -/
def completedProperties (base x : List (String × String)) : List (String × String) :=
  (SortedSet.ofList ((base ++ x).map Prod.fst)).elems.filterMap fun key =>
    ((lastRow x key).or (lastRow base key)).map fun v => (key, v)

def restoredProperties : (base x : Option (List (String × String))) → Option (List (String × String))
  | some b, some v => some (if b = v then v else completedProperties b v)
  | none, some v => some v
  | b, none => b

/-- The components with what the base has and they lack: components, and properties of those
that are not as in the base. -/
def restored (base x : List Component) : List Component :=
  (SortedSet.ofList ((componentsByUid base ++ componentsByUid x).map Prod.fst)).elems.filterMap
    fun key => (restoredProperties (lastRow (componentsByUid base) key)
      (lastRow (componentsByUid x) key)).map fun props => (kindOf key, props)

theorem ofList_congr {l l' : List String} (h : ∀ k, k ∈ l ↔ k ∈ l') :
    SortedSet.ofList l = SortedSet.ofList l' := by
  refine SortedSet.ext fun k => ?_
  rw [SortedSet.mem_ofList, SortedSet.mem_ofList, h k]

theorem settleProperty_ours (base x : String) : settleProperty (some base) base x = some x := by
  unfold settleProperty
  split
  · rename_i h
    rw [h]
  · exact if_pos rfl

theorem settleProperty_theirs (base x : String) : settleProperty (some base) x base = some x := by
  unfold settleProperty
  split
  · rfl
  · rename_i h
    rw [Option.getD_some, if_neg h, if_pos rfl]

theorem mergeProperties_ours (base x : List (String × String)) :
    mergeProperties base base x = some (completedProperties base x) := by
  have hkeys : SortedSet.ofList ((base ++ base ++ x).map Prod.fst) =
      SortedSet.ofList ((base ++ x).map Prod.fst) :=
    ofList_congr fun k => by simp only [List.map_append, List.mem_append]; tauto
  unfold mergeProperties completedProperties
  rw [hkeys]
  exact mapM_reduceOption (fun key => congrArg (Option.map _)
    (mergeEntry_ours fun b v hb _ => hb ▸ settleProperty_ours b v)) _

theorem mergeProperties_theirs (base x : List (String × String)) :
    mergeProperties base x base = some (completedProperties base x) := by
  have hkeys : SortedSet.ofList ((base ++ x ++ base).map Prod.fst) =
      SortedSet.ofList ((base ++ x).map Prod.fst) :=
    ofList_congr fun k => by simp only [List.map_append, List.mem_append]; tauto
  unfold mergeProperties completedProperties
  rw [hkeys]
  exact mapM_reduceOption (fun key => congrArg (Option.map _)
    (mergeEntry_theirs fun b v hb _ => hb ▸ settleProperty_theirs b v)) _

theorem settleComponent_ours (b v : List (String × String)) :
    settleComponent (some b) b v = some (if b = v then v else completedProperties b v) := by
  unfold settleComponent
  split
  · rename_i h
    rw [h]
  · exact mergeProperties_ours b v

theorem settleComponent_theirs (b v : List (String × String)) :
    settleComponent (some b) v b = some (if b = v then v else completedProperties b v) := by
  unfold settleComponent
  by_cases h : v = b
  · rw [if_pos h, if_pos h.symm]
  · rw [if_neg h, if_neg (Ne.symm h)]
    exact mergeProperties_theirs b v

theorem mergeEntry_component_ours (base x : Option (List (String × String))) :
    mergeEntry settleComponent base base x = some (restoredProperties base x) := by
  cases base with
  | none => cases x <;> rfl
  | some b =>
    cases x with
    | none => rfl
    | some v => exact congrArg (Option.map some) (settleComponent_ours b v)

theorem mergeEntry_component_theirs (base x : Option (List (String × String))) :
    mergeEntry settleComponent base x base = some (restoredProperties base x) := by
  cases base with
  | none => cases x <;> rfl
  | some b =>
    cases x with
    | none => rfl
    | some v => exact congrArg (Option.map some) (settleComponent_theirs b v)

theorem mergeComponents_ours (base x : List Component) :
    mergeComponents base base x = some (restored base x) := by
  have hkeys : SortedSet.ofList
      ((componentsByUid base ++ componentsByUid base ++ componentsByUid x).map Prod.fst) =
      SortedSet.ofList ((componentsByUid base ++ componentsByUid x).map Prod.fst) :=
    ofList_congr fun k => by simp only [List.map_append, List.mem_append]; tauto
  unfold mergeComponents restored
  simp only [hkeys]
  exact mapM_reduceOption (fun key => congrArg (Option.map _) (mergeEntry_component_ours _ _)) _

theorem mergeComponents_theirs (base x : List Component) :
    mergeComponents base x base = some (restored base x) := by
  have hkeys : SortedSet.ofList
      ((componentsByUid base ++ componentsByUid x ++ componentsByUid base).map Prod.fst) =
      SortedSet.ofList ((componentsByUid base ++ componentsByUid x).map Prod.fst) :=
    ofList_congr fun k => by simp only [List.map_append, List.mem_append]; tauto
  unfold mergeComponents restored
  simp only [hkeys]
  exact mapM_reduceOption (fun key => congrArg (Option.map _) (mergeEntry_component_theirs _ _)) _

theorem settleComponent_same (base : Option (List (String × String))) (x : List (String × String)) :
    settleComponent base x x = some x := if_pos rfl

section
variable {base x : List Component} (hbase : ∀ c ∈ base, PlainComponent c)
  (hx : ∀ c ∈ x, PlainComponent c) (hdistinct : (x.map uidKey).Nodup)

theorem kindOf_uidKey {c : Component} (h : c.1 ∈ kinds) : kindOf (uidKey c) = c.1 := by
  have hall : (kinds.all fun k => k.toList.all fun c => c != '[') = true := by decide
  have hkind : ∀ d ∈ c.1.toList, (d != '[') = true :=
    List.all_eq_true.mp (List.all_eq_true.mp hall c.1 h)
  unfold kindOf uidKey
  have htoList : (c.1 ++ "[UID=" ++ (extractUid c.2).getD "" ++ "]").toList =
      c.1.toList ++ '[' :: ("UID=".toList ++ ((extractUid c.2).getD "").toList ++ [']']) := by
    simp
  rw [htoList, List.takeWhile_append_of_pos hkind]
  exact (congrArg String.ofList (List.append_nil _)).trans String.ofList_toList

include hx in
theorem componentsByUid_eq : componentsByUid x = x.map fun c => (uidKey c, c.2) := by
  unfold componentsByUid
  rw [List.filter_eq_self.mpr fun c hc => List.contains_iff_mem.mpr (hx c hc).kind]

include hx in
theorem keys_componentsByUid : (componentsByUid x).map Prod.fst = x.map uidKey := by
  rw [componentsByUid_eq hx, List.map_map]
  rfl

include hx hdistinct in
theorem lastRow_componentsByUid {c : Component} (hc : c ∈ x) :
    lastRow (componentsByUid x) (uidKey c) = some c.2 := by
  refine (lastRow_eq_some_iff (by rwa [keys_componentsByUid hx])).mpr ?_
  rw [componentsByUid_eq hx]
  exact List.mem_map_of_mem hc

include hx in
theorem mem_of_lastRow_componentsByUid {key : String} {props : List (String × String)}
    (h : lastRow (componentsByUid x) key = some props) :
    ∃ c ∈ x, uidKey c = key ∧ c.2 = props ∧ kindOf key = c.1 := by
  have hmem := lastRow_mem h
  rw [componentsByUid_eq hx] at hmem
  obtain ⟨c, hc, heq⟩ := List.mem_map.mp hmem
  obtain ⟨rfl, rfl⟩ := Prod.mk.inj heq
  exact ⟨c, hc, rfl, rfl, kindOf_uidKey (hx c hc).kind⟩

include hx hdistinct in
/-- Both sides made the same change. -/
theorem mergeComponents_same : ∃ out, mergeComponents base x x = some out ∧ out.Perm x := by
  refine ⟨_, mapM_reduceOption (fun key => congrArg (Option.map _)
    (mergeEntry_same settleComponent_same _ _)) _, ?_⟩
  have hnodup : ((componentsByUid x).map Prod.fst).Nodup := by rwa [keys_componentsByUid hx]
  have hperm := filterMap_lastRow_perm (SortedSet.nodup (SortedSet.ofList
    ((componentsByUid base ++ componentsByUid x ++ componentsByUid x).map Prod.fst))) hnodup
    fun a ha => SortedSet.mem_ofList.mpr (by
      rw [List.map_append, List.map_append]
      exact List.mem_append_right _ (List.mem_map_of_mem ha))
  have hmap := hperm.map fun r => (kindOf r.1, r.2)
  rw [List.map_filterMap] at hmap
  refine List.Perm.trans (.of_eq ?_) (hmap.trans (.of_eq ?_))
  · refine List.filterMap_congr fun key _ => ?_
    rw [Option.map_map]
    rfl
  · rw [componentsByUid_eq hx, List.map_map]
    refine (List.map_congr_left fun c hc => ?_).trans (List.map_id x)
    exact Prod.ext (kindOf_uidKey (hx c hc).kind) rfl

theorem mem_restored {c : Component} : c ∈ restored base x ↔
    ∃ key props, restoredProperties (lastRow (componentsByUid base) key)
      (lastRow (componentsByUid x) key) = some props ∧ (kindOf key, props) = c := by
  unfold restored
  rw [List.mem_filterMap]
  constructor
  · rintro ⟨key, -, h⟩
    obtain ⟨props, hprops, rfl⟩ := Option.map_eq_some_iff.mp h
    exact ⟨key, props, hprops, rfl⟩
  · rintro ⟨key, props, hprops, rfl⟩
    refine ⟨key, SortedSet.mem_ofList.mpr ?_, by rw [hprops]; rfl⟩
    have hkey : ∀ m : List (String × List (String × String)), lastRow m key ≠ none →
        key ∈ m.map Prod.fst := by
      intro m hm
      obtain ⟨v, hv⟩ := Option.ne_none_iff_exists'.mp hm
      exact List.mem_map_of_mem (lastRow_mem hv)
    rw [List.map_append, List.mem_append]
    by_contra hnot
    rw [not_or] at hnot
    rw [not_not.mp (mt (hkey _) hnot.1), not_not.mp (mt (hkey _) hnot.2)] at hprops
    cases hprops

theorem mem_completedProperties {base x : List (String × String)} {p : String × String} :
    p ∈ completedProperties base x ↔ (lastRow x p.1).or (lastRow base p.1) = some p.2 := by
  unfold completedProperties
  rw [List.mem_filterMap]
  constructor
  · rintro ⟨key, -, h⟩
    obtain ⟨v, hv, rfl⟩ := Option.map_eq_some_iff.mp h
    exact hv
  · intro h
    refine ⟨p.1, SortedSet.mem_ofList.mpr ?_, by rw [h]; rfl⟩
    rw [List.map_append, List.mem_append]
    rcases Option.or_eq_some_iff.mp h with h | ⟨-, h⟩
    · exact .inr (List.mem_map_of_mem (lastRow_mem h))
    · exact .inl (List.mem_map_of_mem (lastRow_mem h))

include hbase hx in
theorem plain_restored : ∀ c ∈ restored base x, PlainComponent c := by
  intro c hc
  obtain ⟨key, props, hprops, rfl⟩ := mem_restored.mp hc
  cases hb : lastRow (componentsByUid base) key with
  | none =>
    cases hv : lastRow (componentsByUid x) key with
    | none =>
      rw [hb, hv] at hprops
      cases hprops
    | some v =>
      rw [hb, hv] at hprops
      obtain ⟨d, hd, -, hprops', hkind⟩ := mem_of_lastRow_componentsByUid hx hv
      rw [hkind, ← Option.some.inj hprops, ← hprops']
      exact hx d hd
  | some b =>
    obtain ⟨e, he, -, hb', hkind⟩ := mem_of_lastRow_componentsByUid hbase hb
    cases hv : lastRow (componentsByUid x) key with
    | none =>
      rw [hb, hv] at hprops
      rw [hkind, ← Option.some.inj hprops, ← hb']
      exact hbase e he
    | some v =>
      rw [hb, hv] at hprops
      obtain ⟨d, hd, -, hv', hkind'⟩ := mem_of_lastRow_componentsByUid hx hv
      refine ⟨hkind' ▸ (hx d hd).kind, fun p hp => ?_⟩
      rw [← Option.some.inj hprops] at hp
      simp only at hp
      split at hp
      · exact (hx d hd).properties p (hv' ▸ hp)
      · rcases Option.or_eq_some_iff.mp (mem_completedProperties.mp hp) with h | ⟨-, h⟩
        · exact (hx d hd).properties p (hv' ▸ lastRow_mem h)
        · exact (hbase e he).properties p (hb' ▸ lastRow_mem h)

include hbase hx hdistinct in
/-- A component that is new, or as it was. -/
theorem mem_restored_of_unchanged {c : Component} (hc : c ∈ x)
    (hsame : ∀ d ∈ base, uidKey d = uidKey c → d = c) : c ∈ restored base x := by
  have hkind := kindOf_uidKey (hx c hc).kind
  refine mem_restored.mpr ⟨uidKey c, c.2, ?_, Prod.ext hkind rfl⟩
  rw [lastRow_componentsByUid hx hdistinct hc]
  cases hb : lastRow (componentsByUid base) (uidKey c) with
  | none => rfl
  | some b =>
    obtain ⟨d, hd, hkey, hb', -⟩ := mem_of_lastRow_componentsByUid hbase hb
    rw [← hb', hsame d hd hkey]
    exact congrArg some (if_pos rfl)

include hx hdistinct in
/-- A component that has each property once. -/
theorem exists_restored {c : Component} (hc : c ∈ x) (hnames : (c.2.map Prod.fst).Nodup) :
    ∃ d ∈ restored base x, d.1 = c.1 ∧ ∀ p ∈ c.2, p ∈ d.2 := by
  have hkind := kindOf_uidKey (hx c hc).kind
  have hlast := lastRow_componentsByUid hx hdistinct hc
  cases hb : lastRow (componentsByUid base) (uidKey c) with
  | none =>
    refine ⟨c, mem_restored.mpr ⟨uidKey c, c.2, ?_, Prod.ext hkind rfl⟩, rfl, fun _ hp => hp⟩
    rw [hb, hlast]
    rfl
  | some b =>
    refine ⟨(kindOf (uidKey c), if b = c.2 then c.2 else completedProperties b c.2),
      mem_restored.mpr ⟨uidKey c, _, by rw [hb, hlast]; rfl, rfl⟩, hkind, fun p hp => ?_⟩
    simp only
    split
    · exact hp
    · rw [mem_completedProperties, (lastRow_eq_some_iff hnames).mpr hp]
      rfl

include hbase hx in
/-- A component that was deleted. -/
theorem mem_restored_of_deleted (hdistinct' : (base.map uidKey).Nodup) {d : Component} (hd : d ∈ base)
    (hdeleted : uidKey d ∉ x.map uidKey) : d ∈ restored base x := by
  have hnone : lastRow (componentsByUid x) (uidKey d) = none := by
    rw [lastRow_eq_none_iff]
    intro row hrow heq
    refine hdeleted ?_
    rw [← keys_componentsByUid hx, ← heq]
    exact List.mem_map_of_mem hrow
  refine mem_restored.mpr ⟨uidKey d, d.2, ?_, Prod.ext (kindOf_uidKey (hbase d hd).kind) rfl⟩
  rw [lastRow_componentsByUid hbase hdistinct' hd, hnone]
  rfl

end

/-- The merges with one calendar have its components, with what the base has and it lacks where
only one side changed the base. -/
theorem merge_ical_one_side {b x : String} {cb cx : Calendar} (hb : Denotes b cb) (hx : Denotes x cx)
    (hbase : PlainCalendar cb) (hplain : PlainCalendar cx) :
    (∃ text out, merge b x x = some text ∧ Denotes text ⟨sutureProperties, out⟩ ∧
      out.Perm cx.components) ∧
    (∃ text, merge b b x = some text ∧ merge b x b = some text ∧
      Denotes text ⟨sutureProperties, restored cb.components cx.components⟩) ∧
    (∀ c ∈ cx.components,
      ((∀ d ∈ cb.components, uidKey d = uidKey c → d = c) →
        c ∈ restored cb.components cx.components) ∧
      ((c.2.map Prod.fst).Nodup →
        ∃ d ∈ restored cb.components cx.components, d.1 = c.1 ∧ ∀ p ∈ c.2, p ∈ d.2)) ∧
    ∀ d ∈ cb.components, uidKey d ∉ cx.components.map uidKey →
      d ∈ restored cb.components cx.components := by
  have hinnerb := inner_of_denotes hb hbase
  have hinnerx := inner_of_denotes hx hplain
  obtain ⟨out, hout, hperm⟩ :=
    @mergeComponents_same cb.components _ hplain.components hplain.distinct
  refine ⟨⟨serializeComponents out, out, ?_, ?_, hperm⟩,
    ⟨serializeComponents (restored cb.components cx.components), ?_, ?_, ?_⟩, fun c hc => ⟨?_, ?_⟩, fun d hd hdeleted => ?_⟩
  · unfold merge
    rw [hinnerb, hinnerx, hout]
    rfl
  · exact denotes_serializeComponents fun c hc => hplain.components c (hperm.subset hc)
  · unfold merge
    rw [hinnerb, hinnerx, mergeComponents_ours]
    rfl
  · unfold merge
    rw [hinnerb, hinnerx, mergeComponents_theirs]
    rfl
  · exact denotes_serializeComponents (plain_restored hbase.components hplain.components)
  · exact mem_restored_of_unchanged hbase.components hplain.components hplain.distinct hc
  · exact exists_restored hplain.components hplain.distinct hc

  · exact mem_restored_of_deleted hbase.components hplain.components hbase.distinct hd hdeleted

def meeting : Calendar :=
  ⟨[("VERSION", "2.0")], [("VEVENT", [("SUMMARY", "Meeting"), ("UID", "1")])]⟩

def noMeeting : Calendar := ⟨[("VERSION", "2.0")], []⟩

theorem denotes_meeting : Denotes ("BEGIN:VCALENDAR\r\nVERSION:2.0\r\nBEGIN:VEVENT\r\nSUMMARY:Mee" ++
    "\r\n ting\r\nUID:1\r\nEND:VEVENT\r\nEND:VCALENDAR\r\n") meeting := by
  unfold Denotes
  decide +kernel

theorem denotes_noMeeting :
    Denotes "BEGIN:VCALENDAR\r\nVERSION:2.0\r\nEND:VCALENDAR\r\n" noMeeting := by
  unfold Denotes
  decide +kernel

theorem meeting_plain : PlainCalendar meeting where
  properties := plain_of_all (by decide)
  components c hc := by
    rw [List.mem_singleton.mp hc]
    exact ⟨by decide, plain_of_all (by decide)⟩
  distinct := by decide

theorem noMeeting_plain : PlainCalendar noMeeting where
  properties := plain_of_all (by decide)
  components c hc := absurd hc List.not_mem_nil
  distinct := .nil

theorem merge_one_side_meeting :
    let b := "BEGIN:VCALENDAR\r\nVERSION:2.0\r\nBEGIN:VEVENT\r\nSUMMARY:Mee" ++
      "\r\n ting\r\nUID:1\r\nEND:VEVENT\r\nEND:VCALENDAR\r\n"
    let x := "BEGIN:VCALENDAR\r\nVERSION:2.0\r\nEND:VCALENDAR\r\n"
    (∃ text out, merge b x x = some text ∧ Denotes text ⟨sutureProperties, out⟩ ∧
      out.Perm noMeeting.components) ∧
    (∃ text, merge b b x = some text ∧ merge b x b = some text ∧
      Denotes text ⟨sutureProperties, restored meeting.components noMeeting.components⟩) ∧
    (∀ c ∈ noMeeting.components,
      ((∀ d ∈ meeting.components, uidKey d = uidKey c → d = c) →
        c ∈ restored meeting.components noMeeting.components) ∧
      ((c.2.map Prod.fst).Nodup → ∃ d ∈ restored meeting.components noMeeting.components,
        d.1 = c.1 ∧ ∀ p ∈ c.2, p ∈ d.2)) ∧
    ∀ d ∈ meeting.components, uidKey d ∉ noMeeting.components.map uidKey →
      d ∈ restored meeting.components noMeeting.components :=
  merge_ical_one_side denotes_meeting denotes_noMeeting meeting_plain noMeeting_plain

/-- The event that ours deleted is taken from theirs. -/
theorem deleted_event_kept : ¬ ∀ (b x : String) (cb cx : Calendar), Denotes b cb → Denotes x cx →
    PlainCalendar cb → PlainCalendar cx → ∀ text out, merge b x b = some text → Denotes text out →
      ∀ d ∈ cb.components, uidKey d ∉ cx.components.map uidKey → d ∉ out.components := by
  intro h
  have hinnerb := inner_of_denotes denotes_meeting meeting_plain
  have hinnerx := inner_of_denotes denotes_noMeeting noMeeting_plain
  have hdeleted : uidKey ("VEVENT", [("SUMMARY", "Meeting"), ("UID", "1")]) ∉
      noMeeting.components.map uidKey := List.not_mem_nil
  refine h _ _ _ _ denotes_meeting denotes_noMeeting meeting_plain noMeeting_plain _ _ ?_
    (denotes_serializeComponents (plain_restored meeting_plain.components noMeeting_plain.components))
    _ (List.mem_singleton.mpr rfl) hdeleted (mem_restored_of_deleted meeting_plain.components
      noMeeting_plain.components meeting_plain.distinct (List.mem_singleton.mpr rfl) hdeleted)
  unfold merge
  rw [hinnerb, hinnerx, mergeComponents_theirs]
  rfl

end Suture.Driver.Ical
