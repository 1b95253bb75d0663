import Suture.Driver.Elements
import Suture.Driver.Structured
import Suture.Foundation.Rows
import Suture.Foundation.ThreeWay

/-!
# Merging XML documents

The merge of the XML driver goes by position: the children of an element are merged one
by one from the first, and an attribute or a child that only one side has is kept. So a side
that removed an attribute or the last children gets them back from the base.
-/

namespace Suture.Driver
set_option autoImplicit false
open Foundation Foundation.Markup

namespace Xml

/-! ### The merge -/

/-- The names of all attributes, each once. -/
def attributeKeys (base ours theirs : List (String × String)) : List String :=
  (base.map Prod.fst ++ ours.map Prod.fst ++ theirs.map Prod.fst).dedup

/-- What becomes of one attribute, `none` for a conflict. -/
def mergeAttribute : (base ours theirs : Option String) → Option (Option String) := mergeEntry settle

def mergeAttributes (order : KeyOrder) (base ours theirs : List (String × String)) :
    Option (List (String × String)) :=
  ((order.arrange (attributeKeys base ours theirs)).mapM fun k =>
    (mergeAttribute (lastRow base k) (lastRow ours k) (lastRow theirs k)).map fun v =>
      v.map fun v => (k, v)).map List.reduceOption

/-- Children at the same position, where the base has none. -/
def addedChildren (indent : Nat) : (ours theirs : List Elem) → List String
  | [], theirs => childrenToStrings indent theirs
  | ours, [] => childrenToStrings indent ours
  | o :: ours, t :: theirs =>
    elementToString indent o ::
      if o.tag ≠ t.tag ∨ elementToString 0 o ≠ elementToString 0 t then
        elementToString indent t :: addedChildren indent ours theirs
      else addedChildren indent ours theirs

mutual

/-- `merge_elements` on what it reads of the three elements. -/
def mergeElements (order : KeyOrder) (indent : Nat) : (base ours theirs : Elem) → Option String
  | .mk _ baseAttributes baseText baseChildren, .mk oursTag oursAttributes oursText oursChildren,
    .mk theirsTag theirsAttributes theirsText theirsChildren =>
    if oursTag ≠ theirsTag then none
    else do
      let text ← threeWay baseText oursText theirsText
      let attributes ← mergeAttributes order baseAttributes oursAttributes theirsAttributes
      let children ← mergeChildren order (indent + 1) baseChildren oursChildren theirsChildren
      return formatElement indent oursTag attributes text children

def mergeChildren (order : KeyOrder) (indent : Nat) :
    (base ours theirs : List Elem) → Option (List String)
  | [], ours, theirs => some (addedChildren indent ours theirs)
  | _ :: _, [], theirs => some (childrenToStrings indent theirs)
  | _ :: _, ours, [] => some (childrenToStrings indent ours)
  | b :: base, o :: ours, t :: theirs => do
    let merged ←
      if o.tag = t.tag then
        if o.tag = b.tag then mergeElements order indent b o t
        else some (elementToString indent o)
      else if o.tag = b.tag then some (elementToString indent t)
      else if t.tag = b.tag then some (elementToString indent o)
      else none
    let rest ← mergeChildren order indent base ours theirs
    return merged :: rest

end

def hasXmlDeclaration (content : String) : Bool :=
  "<?xml".toList.isPrefixOf (content.toList.dropWhile isWhiteSpace)

/-- `none` where a document is not parsed, `some none` for a conflict. -/
def merge (order : KeyOrder) (parse : String → Option Node) (base ours theirs : String) :
    Option (Option String) := do
  let baseDoc ← parse base
  let oursDoc ← parse ours
  let theirsDoc ← parse theirs
  let declared := hasXmlDeclaration base || hasXmlDeclaration ours || hasXmlDeclaration theirs
  return (mergeElements order 0 (view baseDoc) (view oursDoc) (view theirsDoc)).map fun merged =>
    (if declared then "<?xml version=\"1.0\" encoding=\"UTF-8\"?>\n" else "") ++ merged ++ "\n"

/-! ### The element that is written -/

def addedTrees : (ours theirs : List Elem) → List Elem
  | [], theirs => theirs
  | ours, [] => ours
  | o :: ours, t :: theirs =>
    o :: if o.tag ≠ t.tag ∨ elementToString 0 o ≠ elementToString 0 t then
      t :: addedTrees ours theirs
    else addedTrees ours theirs

mutual

def mergeTree (order : KeyOrder) : (base ours theirs : Elem) → Option Elem
  | .mk _ baseAttributes baseText baseChildren, .mk oursTag oursAttributes oursText oursChildren,
    .mk theirsTag theirsAttributes theirsText theirsChildren =>
    if oursTag ≠ theirsTag then none
    else do
      let text ← threeWay baseText oursText theirsText
      let attributes ← mergeAttributes order baseAttributes oursAttributes theirsAttributes
      let children ← mergeTrees order baseChildren oursChildren theirsChildren
      return .mk oursTag attributes text children

def mergeTrees (order : KeyOrder) : (base ours theirs : List Elem) → Option (List Elem)
  | [], ours, theirs => some (addedTrees ours theirs)
  | _ :: _, [], theirs => some theirs
  | _ :: _, ours, [] => some ours
  | b :: base, o :: ours, t :: theirs => do
    let merged ←
      if o.tag = t.tag then if o.tag = b.tag then mergeTree order b o t else some o
      else if o.tag = b.tag then some t
      else if t.tag = b.tag then some o
      else none
    let rest ← mergeTrees order base ours theirs
    return merged :: rest

end

theorem addedChildren_eq (indent : Nat) (ours theirs : List Elem) :
    addedChildren indent ours theirs = childrenToStrings indent (addedTrees ours theirs) := by
  induction ours, theirs using addedTrees.induct with
  | case1 theirs => rw [addedChildren, addedTrees]
  | case2 ours hne =>
    cases ours with
    | nil => exact absurd rfl hne
    | cons o ours => rw [addedChildren, addedTrees] <;> exact hne
  | case3 o ours t theirs ih =>
    rw [addedChildren, addedTrees, childrenToStrings]
    split
    · rw [childrenToStrings, ih]
    · rw [ih]

mutual

theorem mergeElements_eq (order : KeyOrder) (indent : Nat) : ∀ base ours theirs : Elem,
    mergeElements order indent base ours theirs =
      (mergeTree order base ours theirs).map (elementToString indent)
  | .mk _ baseAttributes baseText baseChildren, .mk oursTag oursAttributes oursText oursChildren,
    .mk theirsTag theirsAttributes theirsText theirsChildren => by
    rw [mergeElements, mergeTree]
    split
    · rfl
    · rw [mergeChildren_eq order (indent + 1) baseChildren oursChildren theirsChildren]
      cases threeWay baseText oursText theirsText with
      | none => rfl
      | some text =>
        cases mergeAttributes order baseAttributes oursAttributes theirsAttributes with
        | none => rfl
        | some attributes =>
          cases mergeTrees order baseChildren oursChildren theirsChildren with
          | none => rfl
          | some children => exact congrArg some (elementToString.eq_1 indent ..).symm

theorem mergeChildren_eq (order : KeyOrder) (indent : Nat) : ∀ base ours theirs : List Elem,
    mergeChildren order indent base ours theirs =
      (mergeTrees order base ours theirs).map (childrenToStrings indent)
  | [], ours, theirs => by
    rw [mergeChildren, mergeTrees, addedChildren_eq]
    rfl
  | _ :: _, [], theirs => by
    rw [mergeChildren, mergeTrees]
    rfl
  | _ :: _, _ :: _, [] => by
    rw [mergeChildren, mergeTrees]
    · rfl
    · exact nofun
    · exact nofun
  | b :: base, o :: ours, t :: theirs => by
    rw [mergeChildren, mergeTrees, mergeElements_eq order indent b o t,
      mergeChildren_eq order indent base ours theirs]
    cases mergeTrees order base ours theirs <;> split_ifs <;>
      first | rfl | (cases mergeTree order b o t <;> rfl)

end

/-! ### Attributes -/

/-- The attributes of both, those of the first where both have one. -/
def completedAttributes (base x : List (String × String)) : List (String × String) :=
  x ++ base.filter fun a => !(x.map Prod.fst).contains a.1

theorem mem_completedAttributes {base x : List (String × String)} {a : String × String} :
    a ∈ completedAttributes base x ↔ a ∈ x ∨ a ∈ base ∧ a.1 ∉ x.map Prod.fst := by
  unfold completedAttributes
  rw [List.mem_append, List.mem_filter, Bool.not_eq_true', List.contains_eq_mem,
    decide_eq_false_iff_not]

theorem completedAttributes_nodup {base x : List (String × String)}
    (hbase : (base.map Prod.fst).Nodup) (hx : (x.map Prod.fst).Nodup) :
    ((completedAttributes base x).map Prod.fst).Nodup := by
  unfold completedAttributes
  rw [List.map_append]
  refine hx.append (hbase.sublist (List.filter_sublist.map _)) fun k hk hk' => ?_
  obtain ⟨a, ha, rfl⟩ := List.mem_map.mp hk'
  have := (List.mem_filter.mp ha).2
  rw [Bool.not_eq_true', List.contains_eq_mem, decide_eq_false_iff_not] at this
  exact this hk

/-- The attributes that are looked up by name are the attributes, in the order of the names. -/
theorem perm_of_lastRow (order : KeyOrder) {keys : List String} (hkeys : keys.Nodup)
    {l : List (String × String)} (hl : (l.map Prod.fst).Nodup) (hsub : ∀ a ∈ l, a.1 ∈ keys) :
    ((order.arrange keys).map fun k => (lastRow l k).map fun v => (k, v)).reduceOption.Perm l := by
  have hfilter : ((order.arrange keys).map fun k =>
      (lastRow l k).map fun v => (k, v)).reduceOption =
      (order.arrange keys).filterMap fun k => (lastRow l k).map fun v => (k, v) := by
    unfold List.reduceOption
    rw [List.filterMap_map]
    rfl
  rw [hfilter]
  exact filterMap_lastRow_perm ((order.perm keys).nodup_iff.mpr hkeys) hl fun a ha =>
    (order.perm keys).mem_iff.mpr (hsub a ha)

theorem mem_attributeKeys {base ours theirs : List (String × String)} {k : String} :
    k ∈ attributeKeys base ours theirs ↔
      k ∈ base.map Prod.fst ∨ k ∈ ours.map Prod.fst ∨ k ∈ theirs.map Prod.fst := by
  unfold attributeKeys
  rw [List.mem_dedup, List.mem_append, List.mem_append, or_assoc]

theorem mergeAttributes_perm (order : KeyOrder) {base ours theirs l : List (String × String)}
    (hl : (l.map Prod.fst).Nodup)
    (hvalue : ∀ k, mergeAttribute (lastRow base k) (lastRow ours k) (lastRow theirs k) =
      some (lastRow l k))
    (hsub : ∀ a ∈ l, a.1 ∈ attributeKeys base ours theirs) :
    ∃ merged, mergeAttributes order base ours theirs = some merged ∧ merged.Perm l := by
  refine ⟨_, ?_, perm_of_lastRow order (List.nodup_dedup _) hl hsub⟩
  unfold mergeAttributes
  simp only [hvalue, Option.map_some]
  exact congrArg _ (List.mapM_pure (m := Option))

theorem lastRow_completedAttributes {base x : List (String × String)}
    (hbase : (base.map Prod.fst).Nodup) (hx : (x.map Prod.fst).Nodup) (k : String) :
    lastRow (completedAttributes base x) k = (lastRow x k).or (lastRow base k) := by
  ext v
  rw [lastRow_eq_some_iff (completedAttributes_nodup hbase hx), mem_completedAttributes,
    Option.or_eq_some_iff, lastRow_eq_some_iff hx, lastRow_eq_some_iff hbase, lastRow_eq_none_iff,
    and_comm (a := (k, v) ∈ base)]
  refine or_congr_right (and_congr_left fun _ => ?_)
  simp only [List.mem_map, not_exists, not_and, ne_eq]

theorem mergeAttributes_same (order : KeyOrder) {base x : List (String × String)}
    (hx : (x.map Prod.fst).Nodup) :
    ∃ merged, mergeAttributes order base x x = some merged ∧ merged.Perm x := by
  exact mergeAttributes_perm order hx (fun k => mergeEntry_same settle_same _ _) fun a ha =>
    mem_attributeKeys.mpr (.inr (.inl (List.mem_map_of_mem ha)))

theorem mem_keys_of_completed {base x : List (String × String)} {a : String × String}
    (h : a ∈ completedAttributes base x) : a.1 ∈ base.map Prod.fst ∨ a.1 ∈ x.map Prod.fst := by
  rcases mem_completedAttributes.mp h with h | ⟨h, -⟩
  · exact .inr (List.mem_map_of_mem h)
  · exact .inl (List.mem_map_of_mem h)

theorem mergeAttributes_ours (order : KeyOrder) {base x : List (String × String)}
    (hbase : (base.map Prod.fst).Nodup) (hx : (x.map Prod.fst).Nodup) :
    ∃ merged, mergeAttributes order base base x = some merged ∧
      merged.Perm (completedAttributes base x) := by
  refine mergeAttributes_perm order (completedAttributes_nodup hbase hx) (fun k => ?_) fun a ha =>
    mem_attributeKeys.mpr ((mem_keys_of_completed ha).imp_right .inr)
  rw [lastRow_completedAttributes hbase hx]
  exact mergeEntry_ours fun b v hb _ => hb ▸ settle_ours b v

theorem mergeAttributes_theirs (order : KeyOrder) {base x : List (String × String)}
    (hbase : (base.map Prod.fst).Nodup) (hx : (x.map Prod.fst).Nodup) :
    ∃ merged, mergeAttributes order base x base = some merged ∧
      merged.Perm (completedAttributes base x) := by
  refine mergeAttributes_perm order (completedAttributes_nodup hbase hx) (fun k => ?_) fun a ha =>
    mem_attributeKeys.mpr ((mem_keys_of_completed ha).imp_right .inl)
  rw [lastRow_completedAttributes hbase hx]
  exact mergeEntry_theirs fun b v hb _ => hb ▸ settle_theirs b v

/-! ### Elements -/

mutual

/-- The same element, the attributes possibly in another order. -/
def Alike : Elem → Elem → Prop
  | .mk tag attributes text children, .mk tag' attributes' text' children' =>
    tag = tag' ∧ attributes.Perm attributes' ∧ text = text' ∧ AlikeAll children children'

def AlikeAll : List Elem → List Elem → Prop
  | [], [] => True
  | e :: rest, e' :: rest' => Alike e e' ∧ AlikeAll rest rest'
  | [], _ :: _ | _ :: _, [] => False

end

mutual

theorem Alike.refl : ∀ e : Elem, Alike e e
  | .mk _ _ _ children => ⟨rfl, .refl _, rfl, AlikeAll.refl children⟩

theorem AlikeAll.refl : ∀ l : List Elem, AlikeAll l l
  | [] => trivial
  | e :: rest => ⟨Alike.refl e, AlikeAll.refl rest⟩

end

mutual

theorem Alike.shows : ∀ {y x : Elem} {n : Node}, Alike y x → Shows n y → Shows n x
  | .mk _ _ _ _, .mk _ _ _ _, .element .., h, hn => by
    obtain ⟨rfl, hattributes, rfl, hchildren⟩ := h
    obtain ⟨hname, hperm, htext, hall⟩ := hn
    exact ⟨hname, hperm.trans (hattributes.map _), htext, AlikeAll.shows hchildren hall⟩
  | .mk _ _ _ _, .mk _ _ _ _, .text _, _, hn | .mk _ _ _ _, .mk _ _ _ _, .other, _, hn => hn.elim

theorem AlikeAll.shows : ∀ {l l' : List Elem} {nodes : List Node}, AlikeAll l l' →
    ShowsAll nodes l → ShowsAll nodes l'
  | [], [], _, _, hn => hn
  | _ :: _, _ :: _, [], _, hn => hn.elim
  | _ :: _, _ :: _, _ :: _, h, hn => ⟨h.1.shows hn.1, AlikeAll.shows h.2 hn.2⟩

end

theorem map_plainAttributes (l : List (String × String)) :
    (plainAttributes l).map (fun a => (a.1.label, a.2)) = l := by
  unfold plainAttributes
  rw [List.map_map]
  exact List.map_id l

mutual

/-- A node shows one element. -/
theorem alike_of_shows : ∀ {n : Node} {e e' : Elem}, Shows n e → Shows n e' → Alike e e'
  | .element .., .mk _ attributes _ _, .mk _ attributes' _ _, h, h' => by
    obtain ⟨hname, hperm, htext, hall⟩ := h
    obtain ⟨hname', hperm', htext', hall'⟩ := h'
    refine ⟨congrArg Name.label (hname.symm.trans hname'), ?_, htext.symm.trans htext',
      alikeAll_of_shows hall hall'⟩
    have hmap := (hperm.symm.trans hperm').map fun a => (a.1.label, a.2)
    rwa [map_plainAttributes, map_plainAttributes] at hmap
  | .text _, .mk .., _, h, _ | .other, .mk .., _, h, _ => h.elim

theorem alikeAll_of_shows : ∀ {nodes : List Node} {l l' : List Elem}, ShowsAll nodes l →
    ShowsAll nodes l' → AlikeAll l l'
  | [], [], [], _, _ => trivial
  | [], _ :: _, _, h, _ | [], [], _ :: _, _, h => h.elim
  | _ :: _, [], _, h, _ | _ :: _, _, [], _, h => nomatch h
  | _ :: _, _ :: _, _ :: _, h, h' => ⟨alike_of_shows h.1 h'.1, alikeAll_of_shows h.2 h'.2⟩

end

mutual

theorem Alike.join : ∀ {e e' d : Elem}, Alike e d → Alike e' d → Alike e e'
  | .mk _ _ _ _, .mk _ _ _ _, .mk _ _ _ _, h, h' =>
    ⟨h.1.trans h'.1.symm, h.2.1.trans h'.2.1.symm, h.2.2.1.trans h'.2.2.1.symm,
      AlikeAll.join h.2.2.2 h'.2.2.2⟩

theorem AlikeAll.join : ∀ {l l' m : List Elem}, AlikeAll l m → AlikeAll l' m → AlikeAll l l'
  | [], [], [], _, _ => trivial
  | [], _ :: _, [], _, h | _ :: _, _, [], h, _ | [], _, _ :: _, h, _ | _ :: _, [], _ :: _, _, h => h.elim
  | _ :: _, _ :: _, _ :: _, h, h' => ⟨h.1.join h'.1, AlikeAll.join h.2 h'.2⟩

end

theorem alike_of_sameTree {n n' : Node} {e e' : Elem} (h : SameTree n n') (hn : Shows n e)
    (hn' : Shows n' e') : Alike e e' := by
  obtain ⟨d, hd, hd'⟩ := h
  exact (alike_of_shows hn hd).join (alike_of_shows hn' hd')

mutual

theorem Alike.tidy {G : Grammar} : ∀ {y x : Elem}, Alike y x → Tidy G x → Tidy G y
  | .mk _ _ _ _, .mk _ _ _ _, h, hx => by
    obtain ⟨rfl, hattributes, rfl, hchildren⟩ := h
    obtain ⟨hname, hplain, hnodup, htrim, hchars, hall⟩ := hx
    refine ⟨hname, fun a ha => hplain a ?_, ?_, htrim, hchars, AlikeAll.tidy hchildren hall⟩
    · exact (hattributes.map _).subset ha
    · exact (hattributes.map _).nodup_iff.mpr hnodup

theorem AlikeAll.tidy {G : Grammar} : ∀ {l l' : List Elem}, AlikeAll l l' → TidyAll G l' →
    TidyAll G l
  | [], [], _, _ => trivial
  | _ :: _, _ :: _, h, hx => ⟨h.1.tidy hx.1, AlikeAll.tidy h.2 hx.2⟩

end

mutual

/-- The element with what the base has and it lacks: attributes, and children after the last,
also in children of the same tag at the same position. -/
def completed : (base x : Elem) → Elem
  | .mk _ baseAttributes _ baseChildren, .mk tag attributes text children =>
    .mk tag (completedAttributes baseAttributes attributes) text
      (completedAll baseChildren children)

def completedAll : (base x : List Elem) → List Elem
  | [], x => x
  | base, [] => base
  | b :: base, e :: x => (if b.tag = e.tag then completed b e else e) :: completedAll base x

end

mutual

theorem tidy_completed {G : Grammar} : ∀ {base x : Elem}, Tidy G base → Tidy G x →
    Tidy G (completed base x)
  | .mk _ _ _ _, .mk _ _ _ _, hbase, hx => by
    obtain ⟨-, hplain, hnodup, -, -, hall⟩ := hbase
    obtain ⟨hname, hplain', hnodup', htrim, hchars, hall'⟩ := hx
    refine ⟨hname, fun a ha => ?_, completedAttributes_nodup hnodup hnodup', htrim, hchars,
      tidyAll_completedAll hall hall'⟩
    obtain ⟨a, hmem, rfl⟩ := List.mem_map.mp ha
    rcases mem_completedAttributes.mp hmem with hmem | ⟨hmem, -⟩
    · exact hplain' _ (List.mem_map_of_mem hmem)
    · exact hplain _ (List.mem_map_of_mem hmem)

theorem tidyAll_completedAll {G : Grammar} : ∀ {base x : List Elem}, TidyAll G base →
    TidyAll G x → TidyAll G (completedAll base x)
  | [], _, _, hx => hx
  | _ :: _, [], hbase, _ => hbase
  | b :: base, e :: x, hbase, hx => by
    rw [completedAll]
    refine ⟨?_, tidyAll_completedAll hbase.2 hx.2⟩
    split
    · exact tidy_completed hbase.1 hx.1
    · exact hx.1

end

theorem addedTrees_same (x : List Elem) : addedTrees x x = x := by
  induction x with
  | nil => rfl
  | cons e x ih => rw [addedTrees, if_neg (by simp), ih]

theorem addedTrees_nil (x : List Elem) : addedTrees x [] = x := by
  cases x <;> rfl

section
variable (order : KeyOrder) {G : Grammar}

mutual

/-- Both sides made the same change. -/
theorem mergeTree_same : ∀ base x : Elem, Tidy G x →
    ∃ y, mergeTree order base x x = some y ∧ Alike y x
  | .mk _ baseAttributes baseText baseChildren, .mk tag attributes text children, hx => by
    obtain ⟨-, -, hnodup, -, -, hall⟩ := hx
    obtain ⟨merged, hmerged, hperm⟩ := @mergeAttributes_same order baseAttributes _ hnodup
    obtain ⟨ys, hys, halike⟩ := mergeTrees_same baseChildren children hall
    refine ⟨.mk tag merged text ys, ?_, rfl, hperm, rfl, halike⟩
    rw [mergeTree, if_neg (not_not_intro rfl), threeWay_same, hmerged, hys]
    rfl

theorem mergeTrees_same : ∀ base x : List Elem, TidyAll G x →
    ∃ ys, mergeTrees order base x x = some ys ∧ AlikeAll ys x
  | [], x, _ => ⟨x, by rw [mergeTrees, addedTrees_same], AlikeAll.refl x⟩
  | _ :: _, [], _ => ⟨[], by rw [mergeTrees], trivial⟩
  | b :: base, e :: x, hx => by
    obtain ⟨ys, hys, halike⟩ := mergeTrees_same base x hx.2
    obtain ⟨y, hy, hye⟩ := mergeTree_same b e hx.1
    rw [mergeTrees, if_pos rfl, hy, hys]
    by_cases htag : e.tag = b.tag
    · exact ⟨y :: ys, by rw [if_pos htag]; rfl, hye, halike⟩
    · exact ⟨e :: ys, by rw [if_neg htag]; rfl, Alike.refl e, halike⟩

end

mutual

/-- One side made no change. -/
theorem mergeTree_base : ∀ base x : Elem, Tidy G base → Tidy G x → base.tag = x.tag →
    (∃ y, mergeTree order base base x = some y ∧ Alike y (completed base x)) ∧
      ∃ y, mergeTree order base x base = some y ∧ Alike y (completed base x)
  | .mk _ baseAttributes baseText baseChildren, .mk tag attributes text children, hbase, hx, rfl => by
    obtain ⟨-, -, hnodup, -, -, hall⟩ := hbase
    obtain ⟨-, -, hnodup', -, -, hall'⟩ := hx
    obtain ⟨⟨ys, hys, halike⟩, ys', hys', halike'⟩ := mergeTrees_base baseChildren children hall hall'
    obtain ⟨merged, hmerged, hperm⟩ := mergeAttributes_ours order hnodup hnodup'
    obtain ⟨merged', hmerged', hperm'⟩ := mergeAttributes_theirs order hnodup hnodup'
    refine ⟨⟨.mk tag merged text ys, ?_, rfl, hperm, rfl, halike⟩,
      .mk tag merged' text ys', ?_, rfl, hperm', rfl, halike'⟩
    · rw [mergeTree, if_neg (not_not_intro rfl), threeWay_base_left, hmerged, hys]
      rfl
    · rw [mergeTree, if_neg (not_not_intro rfl), threeWay_base_right, hmerged', hys']
      rfl

theorem mergeTrees_base : ∀ base x : List Elem, TidyAll G base → TidyAll G x →
    (∃ ys, mergeTrees order base base x = some ys ∧ AlikeAll ys (completedAll base x)) ∧
      ∃ ys, mergeTrees order base x base = some ys ∧ AlikeAll ys (completedAll base x)
  | [], x, _, _ => ⟨⟨x, by rw [mergeTrees, addedTrees], AlikeAll.refl x⟩,
    x, by rw [mergeTrees, addedTrees_nil], AlikeAll.refl x⟩
  | b :: base, [], _, _ => by
    refine ⟨⟨b :: base, ?_, AlikeAll.refl _⟩, b :: base, ?_, AlikeAll.refl _⟩
    · rw [mergeTrees]
      all_goals exact nofun
    · rw [mergeTrees]
  | b :: base, e :: x, hbase, hx => by
    obtain ⟨⟨ys, hys, halike⟩, ys', hys', halike'⟩ := mergeTrees_base base x hbase.2 hx.2
    rw [mergeTrees, mergeTrees, hys, hys', completedAll]
    by_cases htag : b.tag = e.tag
    · obtain ⟨⟨y, hy, hye⟩, y', hy', hye'⟩ := mergeTree_base b e hbase.1 hx.1 htag
      rw [if_pos htag, if_pos htag, if_pos rfl, if_pos htag.symm, if_pos htag.symm, hy, hy']
      exact ⟨⟨y :: ys, rfl, hye, halike⟩, y' :: ys', rfl, hye', halike'⟩
    · rw [if_neg htag, if_neg htag, if_pos rfl, if_neg (Ne.symm htag), if_neg (Ne.symm htag),
        if_pos rfl]
      exact ⟨⟨e :: ys, rfl, Alike.refl e, halike⟩, e :: ys', rfl, Alike.refl e, halike'⟩

end

end

/-! ### Documents -/

section
variable {order : KeyOrder} {G : Grammar} {parse : String → Option Node}

theorem shows_of_mergeTree (hparse : ReadsMarkup G parse) {base ours theirs : String}
    {nb no nt : Node} (hb : parse base = some nb) (ho : parse ours = some no)
    (ht : parse theirs = some nt) {y x : Elem}
    (hy : mergeTree order (view nb) (view no) (view nt) = some y) (halike : Alike y x)
    (hx : Tidy G x) :
    ∃ text n, merge order parse base ours theirs = some (some text) ∧ parse text = some n ∧
      Shows n x := by
  obtain ⟨n, hn, hshows⟩ := hparse.parse_written
    (hasXmlDeclaration base || hasXmlDeclaration ours || hasXmlDeclaration theirs)
    (halike.tidy hx)
  refine ⟨_, n, ?_, hn, halike.shows hshows⟩
  unfold merge
  rw [hb, ho, ht]
  exact congrArg some (by rw [mergeElements_eq, hy]; rfl)

/-- A change of both sides is the result, and of one side too, but without what it removed. -/
theorem merge_xml_one_side (hparse : ReadsMarkup G parse) {b x : String} {nb nx : Node}
    (hb : parse b = some nb) (hx : parse x = some nx) (hbase : Plain G nb) (hplain : Plain G nx)
    (htag : (view nb).tag = (view nx).tag) :
    (∃ text n, merge order parse b x x = some (some text) ∧ parse text = some n ∧
      SameTree n nx) ∧
    (∃ text n, merge order parse b b x = some (some text) ∧ parse text = some n ∧
      Shows n (completed (view nb) (view nx))) ∧
    ∃ text n, merge order parse b x b = some (some text) ∧ parse text = some n ∧
      Shows n (completed (view nb) (view nx)) := by
  obtain ⟨y, hy, halike⟩ := mergeTree_same order (view nb) (view nx) hplain.tidy
  obtain ⟨⟨yo, hyo, halikeo⟩, yt, hyt, halivet⟩ :=
    mergeTree_base order (view nb) (view nx) hbase.tidy hplain.tidy htag
  have htidy := tidy_completed hbase.tidy hplain.tidy
  obtain ⟨text, n, hmerge, hn, hshows⟩ :=
    shows_of_mergeTree hparse hb hx hx hy halike hplain.tidy
  exact ⟨⟨text, n, hmerge, hn, _, hshows, hplain.shows⟩,
    shows_of_mergeTree hparse hb hb hx hyo halikeo htidy,
    shows_of_mergeTree hparse hb hx hb hyt halivet htidy⟩

end

def colored : Node :=
  .element (.plain "root") [] [.element (.plain "item") [(.plain "id", "1"), (.plain "color", "red")]
    [.text "text"]]

def uncolored : Node :=
  .element (.plain "root") [] [.element (.plain "item") [(.plain "id", "1")] [.text "text"]]

set_option maxRecDepth 20000 in
theorem read_colored : readDocument
    "<root><item id=\"1\" color=\"red\">text</item></root>".toList = some colored := by
  rfl

set_option maxRecDepth 20000 in
theorem read_uncolored : readDocument
    "<root><item id=\"1\">text</item></root>".toList = some uncolored := by
  rfl

theorem colored_plain : Plain letters colored where
  shows := ⟨rfl, .refl _, rfl, ⟨rfl, .refl _, rfl, rfl⟩, rfl⟩
  tidy := tidy_letters ⟨by decide, by decide⟩ rfl .nil rfl rfl
    ⟨tidy_letters ⟨by decide, by decide⟩ (by decide) (by decide) (by decide) (by decide) trivial, trivial⟩

theorem uncolored_plain : Plain letters uncolored where
  shows := ⟨rfl, .refl _, rfl, ⟨rfl, .refl _, rfl, rfl⟩, rfl⟩
  tidy := tidy_letters ⟨by decide, by decide⟩ rfl .nil rfl rfl
    ⟨tidy_letters ⟨by decide, by decide⟩ (by decide) (by decide) (by decide) (by decide) trivial, trivial⟩

theorem merge_one_side_color :
    (∃ text n, merge ⟨fun keys => keys, List.Perm.refl⟩ (fun s => readDocument s.toList)
      "<root><item id=\"1\" color=\"red\">text</item></root>"
      "<root><item id=\"1\">text</item></root>" "<root><item id=\"1\">text</item></root>" =
        some (some text) ∧ readDocument text.toList = some n ∧ SameTree n uncolored) ∧
    (∃ text n, merge ⟨fun keys => keys, List.Perm.refl⟩ (fun s => readDocument s.toList)
      "<root><item id=\"1\" color=\"red\">text</item></root>"
      "<root><item id=\"1\" color=\"red\">text</item></root>"
      "<root><item id=\"1\">text</item></root>" =
        some (some text) ∧ readDocument text.toList = some n ∧
          Shows n (completed (view colored) (view uncolored))) ∧
    ∃ text n, merge ⟨fun keys => keys, List.Perm.refl⟩ (fun s => readDocument s.toList)
      "<root><item id=\"1\" color=\"red\">text</item></root>"
      "<root><item id=\"1\">text</item></root>"
      "<root><item id=\"1\" color=\"red\">text</item></root>" =
        some (some text) ∧ readDocument text.toList = some n ∧
          Shows n (completed (view colored) (view uncolored)) :=
  merge_xml_one_side readsMarkup_letters read_colored read_uncolored colored_plain uncolored_plain rfl

/-- An attribute that ours removed is taken from theirs. -/
theorem removed_attribute_kept : ¬ ∀ (G : Grammar) (parse : String → Option Node) (order : KeyOrder),
    ReadsMarkup G parse → ∀ (b x : String) (nb nx : Node), parse b = some nb → parse x = some nx →
      Plain G nb → Plain G nx → (view nb).tag = (view nx).tag →
        ∀ text n, merge order parse b x b = some (some text) → parse text = some n →
          SameTree n nx := by
  intro h
  have htidy := tidy_completed colored_plain.tidy uncolored_plain.tidy
  obtain ⟨-, y, hy, halike⟩ := mergeTree_base ⟨fun keys => keys, List.Perm.refl⟩ (view colored)
    (view uncolored) colored_plain.tidy uncolored_plain.tidy rfl
  obtain ⟨text, n, hmerge, hn, hshows⟩ := shows_of_mergeTree readsMarkup_letters read_colored
    read_uncolored read_colored hy halike htidy
  have hsame := h letters _ _ readsMarkup_letters _ _ _ _ read_colored read_uncolored
    colored_plain uncolored_plain rfl text n hmerge hn
  obtain ⟨-, -, -, ⟨-, hperm, -⟩, -⟩ := alike_of_sameTree hsame hshows uncolored_plain.shows
  exact absurd hperm.length_eq (by decide)

end Xml

end Suture.Driver
