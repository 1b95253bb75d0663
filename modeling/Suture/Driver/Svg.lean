import Suture.Driver.Xml

/-!
# Merging SVG drawings

The merge of the SVG driver knows the children of an element by their ids, in the order of a
hash map. An element that one side removed is gone, an attribute that one side removed is kept.
-/

namespace Suture.Driver.Svg
set_option autoImplicit false
open Foundation Foundation.Markup Xml

/-! ### The merge -/

def nodeId : Node → Option String
  | .element _ attributes _ =>
    (attributes.find? fun a => decide (a.1 = Name.plain "id")).map Prod.snd
  | _ => none

def elements : Node → List Node
  | .element _ _ children => children.filter isElement
  | _ => []

/-- The children by their ids, the last one of each id. The source keeps their positions. -/
def idMap (children : List Node) : List (String × Node) :=
  children.filterMap fun c => (nodeId c).map fun id => (id, c)

def ids (order : KeyOrder) (m : List (String × Node)) : List String :=
  order.arrange (m.map Prod.fst).dedup

/-- The children of ours that the base has not, with those of theirs of the same id. A child has
one id, so what the source marks as used is what an earlier loop had the id of. -/
def oursChildren (order : KeyOrder) (indent : Nat) (base ours theirs : List (String × Node)) :
    List String :=
  (ids order ours).flatMap fun id =>
    if (lastRow base id).isSome then []
    else match lastRow ours id, lastRow theirs id with
      | some o, some t =>
        elementToString indent (view o) ::
          if (view o).tag ≠ (view t).tag ∨ elementToString 0 (view o) ≠ elementToString 0 (view t)
          then [elementToString indent (view t)] else []
      | some o, none => [elementToString indent (view o)]
      | none, _ => []

def theirsChildren (order : KeyOrder) (indent : Nat) (base ours theirs : List (String × Node)) :
    List String :=
  (ids order theirs).flatMap fun id =>
    if (lastRow base id).isSome || (lastRow ours id).isSome then []
    else match lastRow theirs id with
      | some t => [elementToString indent (view t)]
      | none => []

/-- A child of the base is merged where both sides have it, else it is left out. -/
def whereBoth {α : Type} (merge : Node → Node → Option α) :
    (ours theirs : Option Node) → Option (Option α)
  | some o, some t => (merge o t).map some
  | _, _ => some none

mutual

def mergeElements (order : KeyOrder) (indent : Nat) : (base ours theirs : Node) → Option String
  | .element name attributes children, ours, theirs =>
    if (view ours).tag ≠ (view theirs).tag then none
    else do
      let base := view (.element name attributes children)
      let text ← threeWay base.text (view ours).text (view theirs).text
      let attributes ← mergeAttributes order base.attributes (view ours).attributes
        (view theirs).attributes
      let baseIds := idMap (children.filter isElement)
      let oursIds := idMap (elements ours)
      let theirsIds := idMap (elements theirs)
      let merged := mergeChildren order (indent + 1) oursIds theirsIds children
      let common ← (ids order baseIds).mapM fun id => (lastRow merged id).getD (some none)
      return formatElement indent (view ours).tag attributes text (common.reduceOption ++
        oursChildren order (indent + 1) baseIds oursIds theirsIds ++
        theirsChildren order (indent + 1) baseIds oursIds theirsIds)
  | .text _, _, _ | .other, _, _ => none

def mergeChildren (order : KeyOrder) (indent : Nat) (ours theirs : List (String × Node)) :
    List Node → List (String × Option (Option String))
  | [] => []
  | c :: rest =>
    let merged := mergeChildren order indent ours theirs rest
    match nodeId c with
    | none => merged
    | some id =>
      (id, whereBoth (fun o t => mergeElements order indent c o t) (lastRow ours id) (lastRow theirs id)) :: merged

end

/-- `none` where a document is not parsed, `some none` for a conflict. -/
def merge (order : KeyOrder) (parse : String → Option Node) (base ours theirs : String) :
    Option (Option String) := do
  let baseDoc ← parse base
  let oursDoc ← parse ours
  let theirsDoc ← parse theirs
  return (mergeElements order 0 baseDoc oursDoc theirsDoc).map fun merged =>
    "<?xml version=\"1.0\" encoding=\"UTF-8\"?>\n" ++ merged ++ "\n"

/-! ### The element that is written -/

def oursTrees (order : KeyOrder) (base ours theirs : List (String × Node)) : List Elem :=
  (ids order ours).flatMap fun id =>
    if (lastRow base id).isSome then []
    else match lastRow ours id, lastRow theirs id with
      | some o, some t =>
        view o ::
          if (view o).tag ≠ (view t).tag ∨ elementToString 0 (view o) ≠ elementToString 0 (view t)
          then [view t] else []
      | some o, none => [view o]
      | none, _ => []

def theirsTrees (order : KeyOrder) (base ours theirs : List (String × Node)) : List Elem :=
  (ids order theirs).flatMap fun id =>
    if (lastRow base id).isSome || (lastRow ours id).isSome then []
    else match lastRow theirs id with
      | some t => [view t]
      | none => []

mutual

def mergeTree (order : KeyOrder) : (base ours theirs : Node) → Option Elem
  | .element name attributes children, ours, theirs =>
    if (view ours).tag ≠ (view theirs).tag then none
    else do
      let base := view (.element name attributes children)
      let text ← threeWay base.text (view ours).text (view theirs).text
      let attributes ← mergeAttributes order base.attributes (view ours).attributes
        (view theirs).attributes
      let baseIds := idMap (children.filter isElement)
      let oursIds := idMap (elements ours)
      let theirsIds := idMap (elements theirs)
      let merged := mergeTrees order oursIds theirsIds children
      let common ← (ids order baseIds).mapM fun id => (lastRow merged id).getD (some none)
      return .mk (view ours).tag attributes text (common.reduceOption ++
        oursTrees order baseIds oursIds theirsIds ++ theirsTrees order baseIds oursIds theirsIds)
  | .text _, _, _ | .other, _, _ => none

def mergeTrees (order : KeyOrder) (ours theirs : List (String × Node)) :
    List Node → List (String × Option (Option Elem))
  | [] => []
  | c :: rest =>
    let merged := mergeTrees order ours theirs rest
    match nodeId c with
    | none => merged
    | some id =>
      (id, whereBoth (fun o t => mergeTree order c o t) (lastRow ours id) (lastRow theirs id)) :: merged

end

theorem childrenToStrings_eq (indent : Nat) (l : List Elem) :
    childrenToStrings indent l = l.map (elementToString indent) := by
  induction l with
  | nil => rfl
  | cons e l ih => rw [childrenToStrings, ih, List.map_cons]

theorem oursChildren_eq (order : KeyOrder) (indent : Nat) (base ours theirs : List (String × Node)) :
    oursChildren order indent base ours theirs =
      (oursTrees order base ours theirs).map (elementToString indent) := by
  unfold oursChildren oursTrees
  rw [List.map_flatMap]
  refine List.flatMap_congr fun id _ => ?_
  split
  · rfl
  · split
    · rw [List.map_cons]
      split <;> rfl
    · rfl
    · rfl

theorem theirsChildren_eq (order : KeyOrder) (indent : Nat)
    (base ours theirs : List (String × Node)) :
    theirsChildren order indent base ours theirs =
      (theirsTrees order base ours theirs).map (elementToString indent) := by
  unfold theirsChildren theirsTrees
  rw [List.map_flatMap]
  refine List.flatMap_congr fun id _ => ?_
  split
  · rfl
  · split <;> rfl

theorem lastRow_map {α β : Type} (f : α → β) (l : List (String × α)) (k : String) :
    lastRow (l.map fun r => (r.1, f r.2)) k = (lastRow l k).map f := by
  induction l with
  | nil => rfl
  | cons r l ih =>
    rw [List.map_cons, lastRow, lastRow, ih]
    cases lastRow l k with
    | some v => rfl
    | none =>
      rw [Option.map_none, Option.none_or, Option.none_or]
      split <;> rfl

theorem mapM_map_option {α β γ : Type} (f : α → Option (Option β)) (g : β → γ) (l : List α) :
    (l.mapM fun a => (f a).map (Option.map g)) =
      (l.mapM f).map fun results => results.map (Option.map g) := by
  induction l with
  | nil => rfl
  | cons a l ih =>
    rw [List.mapM_cons, List.mapM_cons, ih]
    cases f a with
    | none => rfl
    | some b =>
      cases l.mapM f <;> rfl

theorem whereBoth_map {α β : Type} (f : α → β) (merge : Node → Node → Option α) :
    ∀ ours theirs : Option Node, whereBoth (fun o t => (merge o t).map f) ours theirs =
      (whereBoth merge ours theirs).map (Option.map f)
  | none, _ | some _, none => rfl
  | some o, some t => by
    cases h : merge o t <;> simp [whereBoth, h]

theorem mergeElements_eq (order : KeyOrder) (base : Node) : ∀ (indent : Nat) (ours theirs : Node),
    mergeElements order indent base ours theirs =
      (mergeTree order base ours theirs).map (elementToString indent) := by
  induction base using Node.induct with
  | text value => intro _ _ _; rw [mergeElements, mergeTree]; rfl
  | other => intro _ _ _; rw [mergeElements, mergeTree]; rfl
  | element name attributes children ih =>
    intro indent ours theirs
    have hall : ∀ cs : List Node, (∀ c ∈ cs, c ∈ children) →
        ∀ oursIds theirsIds, mergeChildren order (indent + 1) oursIds theirsIds cs =
          (mergeTrees order oursIds theirsIds cs).map fun r =>
            (r.1, r.2.map (Option.map (elementToString (indent + 1)))) := by
      intro cs hcs oursIds theirsIds
      induction cs with
      | nil => rfl
      | cons c cs ihc =>
        have hc := ih c (hcs c (List.mem_cons_self ..)) (indent + 1)
        have hrest := ihc fun d hd => hcs d (List.mem_cons_of_mem _ hd)
        rw [mergeChildren, mergeTrees, hrest]
        cases nodeId c with
        | none => rfl
        | some id =>
          simp only [List.map_cons, hc, whereBoth_map]
    have hgetD : ∀ (rows : List (String × Option (Option Elem))) (id : String),
        (lastRow (rows.map fun r =>
          (r.1, r.2.map (Option.map (elementToString (indent + 1))))) id).getD (some none) =
          ((lastRow rows id).getD (some none)).map (Option.map (elementToString (indent + 1))) := by
      intro rows id
      rw [lastRow_map]
      cases lastRow rows id <;> rfl
    rw [mergeElements, mergeTree]
    split
    · rfl
    · simp only [hall children (fun _ h => h), hgetD, oursChildren_eq, theirsChildren_eq,
        mapM_map_option]
      cases threeWay (view (.element name attributes children)).text (view ours).text
        (view theirs).text with
      | none => rfl
      | some text =>
        cases mergeAttributes order (view (.element name attributes children)).attributes
          (view ours).attributes (view theirs).attributes with
        | none => rfl
        | some attributes =>
          cases (ids order (idMap (children.filter isElement))).mapM fun id =>
            (lastRow (mergeTrees order (idMap (elements ours)) (idMap (elements theirs)) children)
              id).getD (some none) with
          | none => rfl
          | some common =>
            have hcommon : (common.map (Option.map (elementToString (indent + 1)))).reduceOption =
                common.reduceOption.map (elementToString (indent + 1)) := by
              unfold List.reduceOption
              rw [List.filterMap_map, List.map_filterMap]
              rfl
            simp only [Option.bind_eq_bind, Option.bind_some, Option.pure_def, Option.map_some,
              hcommon, ← List.map_append, elementToString, childrenToStrings_eq]

/-! ### Drawings -/

mutual

/-- Every element in it has an id, and no two children of one element have the same. -/
def Identified : Node → Prop
  | .element _ _ children => (∀ c ∈ children, isElement c = true → (nodeId c).isSome) ∧
    ((idMap (children.filter isElement)).map Prod.fst).Nodup ∧ IdentifiedAll children
  | .text _ | .other => True

def IdentifiedAll : List Node → Prop
  | [] => True
  | n :: rest => Identified n ∧ IdentifiedAll rest

end

mutual

/-- The same element, the attributes and the children possibly in another order. -/
def Similar : Elem → Elem → Prop
  | .mk tag attributes text children, .mk tag' attributes' text' children' =>
    tag = tag' ∧ attributes.Perm attributes' ∧ text = text' ∧
      ∃ l, l.Perm children' ∧ SimilarAll children l

def SimilarAll : List Elem → List Elem → Prop
  | [], [] => True
  | e :: rest, e' :: rest' => Similar e e' ∧ SimilarAll rest rest'
  | [], _ :: _ | _ :: _, [] => False

end

mutual

/-- The element with the attributes that the base has and it lacks, also in children of one id. -/
def attributed (base : Node) : Node → Elem
  | .element name attributes children =>
    .mk name.label (completedAttributes (view base).attributes (attributes.map fun a => (a.1.label, a.2)))
      (trim (firstText children)) (attributedAll (idMap (elements base)) children)
  | .text _ | .other => .mk "" [] "" []

def attributedAll (base : List (String × Node)) : List Node → List Elem
  | [] => []
  | c :: rest =>
    if isElement c then
      (match (nodeId c).bind (lastRow base) with
      | some b => attributed b c
      | none => view c) :: attributedAll base rest
    else attributedAll base rest

end

mutual

/-- What has one id has one tag, from the element on. -/
def SameTags (base : Node) : Node → Prop
  | .element name _ children =>
    (view base).tag = name.label ∧ SameTagsAll (idMap (elements base)) children
  | .text _ | .other => True

def SameTagsAll (base : List (String × Node)) : List Node → Prop
  | [] => True
  | c :: rest =>
    (match (nodeId c).bind (lastRow base) with
    | some b => SameTags b c
    | none => True) ∧ SameTagsAll base rest

end

/-- Which of the sides changed the base. -/
inductive Change where
  | both
  | ours
  | theirs

namespace Change

def ours' : Change → (base x : Node) → Node
  | .both, _, x | .ours, _, x => x
  | .theirs, base, _ => base

def theirs' : Change → (base x : Node) → Node
  | .both, _, x | .theirs, _, x => x
  | .ours, base, _ => base

def result : Change → (base x : Node) → Elem
  | .both, _, x => view x
  | .ours, base, x | .theirs, base, x => attributed base x

/-- What becomes of a child. -/
def child (change : Change) (base : List (String × Node)) (c : Node) : Elem :=
  match (nodeId c).bind (lastRow base) with
  | some b => change.result b c
  | none => view c

end Change

mutual

theorem Similar.refl : ∀ e : Elem, Similar e e
  | .mk _ _ _ children => ⟨rfl, .refl _, rfl, children, .refl _, SimilarAll.refl children⟩

theorem SimilarAll.refl : ∀ l : List Elem, SimilarAll l l
  | [] => trivial
  | e :: rest => ⟨Similar.refl e, SimilarAll.refl rest⟩

end

theorem SimilarAll.append {a b l m : List Elem} (h : SimilarAll a l) (h' : SimilarAll b m) :
    SimilarAll (a ++ b) (l ++ m) := by
  induction a generalizing l with
  | nil =>
    cases l with
    | nil => exact h'
    | cons e l => exact h.elim
  | cons e a ih =>
    cases l with
    | nil => exact h.elim
    | cons e' l => exact ⟨h.1, ih h.2⟩

theorem tidyAll_iff {G : Grammar} {l : List Elem} : TidyAll G l ↔ ∀ e ∈ l, Tidy G e := by
  induction l with
  | nil => simp [TidyAll]
  | cons e l ih => rw [TidyAll, ih, List.forall_mem_cons]

mutual

theorem Similar.tidy {G : Grammar} : ∀ {y x : Elem}, Similar y x → Tidy G x → Tidy G y
  | .mk _ _ _ _, .mk _ _ _ _, h, hx => by
    obtain ⟨rfl, hattributes, rfl, l, hperm, hchildren⟩ := h
    obtain ⟨hname, hplain, hnodup, htrim, hchars, hall⟩ := hx
    refine ⟨hname, fun a ha => hplain a ((hattributes.map _).subset ha), ?_, htrim, hchars,
      SimilarAll.tidy hchildren ?_⟩
    · exact (hattributes.map _).nodup_iff.mpr hnodup
    · rw [tidyAll_iff] at hall ⊢
      exact fun e he => hall e (hperm.subset he)

theorem SimilarAll.tidy {G : Grammar} : ∀ {l l' : List Elem}, SimilarAll l l' → TidyAll G l' →
    TidyAll G l
  | [], [], _, _ => trivial
  | _ :: _, _ :: _, h, hx => ⟨h.1.tidy hx.1, SimilarAll.tidy h.2 hx.2⟩

end

theorem viewAll_eq (nodes : List Node) : viewAll nodes = (nodes.filter isElement).map view := by
  induction nodes with
  | nil => rfl
  | cons n nodes ih =>
    rw [viewAll]
    by_cases h : isElement n = true
    · rw [if_pos h, List.filter_cons_of_pos h, List.map_cons, ih]
    · rw [if_neg h, List.filter_cons_of_neg h, ih]

theorem attributedAll_eq (base : List (String × Node)) (nodes : List Node) :
    attributedAll base nodes = (nodes.filter isElement).map (Change.ours.child base) := by
  induction nodes with
  | nil => rfl
  | cons n nodes ih =>
    rw [attributedAll]
    by_cases h : isElement n = true
    · rw [if_pos h, List.filter_cons_of_pos h, List.map_cons, ih]
      rfl
    · rw [if_neg h, List.filter_cons_of_neg h, ih]

theorem mem_idMap {nodes : List Node} {id : String} {c : Node} :
    (id, c) ∈ idMap nodes ↔ c ∈ nodes ∧ nodeId c = some id := by
  unfold idMap
  rw [List.mem_filterMap]
  constructor
  · rintro ⟨d, hd, h⟩
    obtain ⟨j, hj, heq⟩ := Option.map_eq_some_iff.mp h
    obtain ⟨rfl, rfl⟩ := Prod.mk.inj heq
    exact ⟨hd, hj⟩
  · rintro ⟨hc, hid⟩
    exact ⟨c, hc, by rw [hid]; rfl⟩

/-- When every child has an id, the map has all children. -/
theorem map_snd_idMap {nodes : List Node} (h : ∀ c ∈ nodes, (nodeId c).isSome) :
    (idMap nodes).map Prod.snd = nodes := by
  induction nodes with
  | nil => rfl
  | cons c nodes ih =>
    obtain ⟨id, hid⟩ := Option.isSome_iff_exists.mp (h c (List.mem_cons_self ..))
    have hcons : idMap (c :: nodes) = (id, c) :: idMap nodes := by
      unfold idMap
      exact List.filterMap_cons_some (by rw [hid]; rfl)
    rw [hcons, List.map_cons, ih fun d hd => h d (List.mem_cons_of_mem _ hd)]

theorem idMap_filter (nodes : List Node) : idMap (nodes.filter isElement) = idMap nodes := by
  unfold idMap
  rw [List.filterMap_filter]
  refine List.filterMap_congr fun n _ => ?_
  cases n <;> rfl

section
variable (order : KeyOrder)

theorem mem_ids {m : List (String × Node)} {id : String} :
    id ∈ ids order m ↔ (lastRow m id).isSome = true := by
  unfold ids
  rw [(order.perm _).mem_iff, List.mem_dedup, ← not_iff_not, Option.not_isSome_iff_eq_none,
    lastRow_eq_none_iff]
  simp only [List.mem_map, not_exists, not_and, ne_eq]

theorem ids_nodup (m : List (String × Node)) : (ids order m).Nodup :=
  (order.perm _).nodup_iff.mpr (List.nodup_dedup _)

theorem lastRow_mergeTrees (ours theirs : List (String × Node)) (children : List Node) (id : String) :
    lastRow (mergeTrees order ours theirs children) id =
      (lastRow (idMap (children.filter isElement)) id).map fun c =>
        whereBoth (fun o t => mergeTree order c o t) (lastRow ours id) (lastRow theirs id) := by
  rw [idMap_filter]
  induction children with
  | nil => rfl
  | cons c children ih =>
    rw [mergeTrees]
    unfold idMap at ih ⊢
    cases hid : nodeId c with
    | none =>
      rw [List.filterMap_cons_none (by rw [hid]; rfl)]
      exact ih
    | some j =>
      rw [List.filterMap_cons_some (b := (j, c)) (by rw [hid]; rfl), lastRow, lastRow, ih]
      cases lastRow (children.filterMap fun c => (nodeId c).map fun id => (id, c)) id with
      | some d => rfl
      | none =>
        rw [Option.map_none, Option.none_or, Option.none_or]
        by_cases hj : id = j
        · rw [if_pos hj, if_pos hj, hj]
          rfl
        · rw [if_neg hj, if_neg hj]
          rfl

theorem flatMap_ids_of_base {base : List (String × Node)} {f : String → List Elem}
    (h : ∀ id, (lastRow base id).isSome = true → f id = []) : (ids order base).flatMap f = [] :=
  List.flatMap_eq_nil_iff.mpr fun id hid => h id ((mem_ids order).mp hid)

/-- The children that are new to the base are those of the side that changed it. -/
theorem newTrees_eq (change : Change) (base x : Node) :
    oursTrees order (idMap (elements base)) (idMap (elements (change.ours' base x)))
        (idMap (elements (change.theirs' base x))) ++
      theirsTrees order (idMap (elements base)) (idMap (elements (change.ours' base x)))
        (idMap (elements (change.theirs' base x))) =
    (ids order (idMap (elements x))).filterMap fun id =>
      if (lastRow (idMap (elements base)) id).isSome then none
      else (lastRow (idMap (elements x)) id).map view := by
  generalize hB : idMap (elements base) = B
  rw [List.filterMap_eq_flatMap_toList]
  cases change with
  | both =>
    have htheirs : theirsTrees order B (idMap (elements x)) (idMap (elements x)) = [] :=
      flatMap_ids_of_base order fun id hid => by rw [hid, Bool.or_true, if_pos rfl]
    simp only [Change.ours', Change.theirs']
    rw [htheirs, List.append_nil]
    refine List.flatMap_congr fun id _ => ?_
    split
    · rfl
    · cases lastRow (idMap (elements x)) id with
      | none => rfl
      | some c => simp
  | ours =>
    simp only [Change.ours', Change.theirs', hB]
    have htheirs : theirsTrees order B (idMap (elements x)) B = [] :=
      flatMap_ids_of_base order fun id hid => by rw [hid, Bool.true_or, if_pos rfl]
    rw [htheirs, List.append_nil]
    refine List.flatMap_congr fun id _ => ?_
    cases lastRow B id with
    | some c => rfl
    | none => cases lastRow (idMap (elements x)) id <;> rfl
  | theirs =>
    simp only [Change.ours', Change.theirs', hB]
    have hours : oursTrees order B B (idMap (elements x)) = [] :=
      flatMap_ids_of_base order fun id hid => by rw [hid, if_pos rfl]
    rw [hours, List.nil_append]
    refine List.flatMap_congr fun id _ => ?_
    cases lastRow B id with
    | some c => rfl
    | none => cases lastRow (idMap (elements x)) id <;> rfl

/-- What is looked up for a child of the base. -/
theorem whereBoth_change (change : Change) (base x : Node) {id : String} {c : Node}
    (hc : lastRow (idMap (elements base)) id = some c) (merge : Node → Node → Option Elem) :
    whereBoth merge (lastRow (idMap (elements (change.ours' base x))) id)
        (lastRow (idMap (elements (change.theirs' base x))) id) =
      match lastRow (idMap (elements x)) id with
      | some d => (merge (change.ours' c d) (change.theirs' c d)).map some
      | none => some none := by
  cases change with
  | both =>
    simp only [Change.ours', Change.theirs']
    cases lastRow (idMap (elements x)) id <;> rfl
  | ours =>
    simp only [Change.ours', Change.theirs', hc]
    cases lastRow (idMap (elements x)) id <;> rfl
  | theirs =>
    simp only [Change.ours', Change.theirs', hc]
    cases lastRow (idMap (elements x)) id <;> rfl

/-- The children of both, and then the new ones, are all children. -/
theorem children_perm {α : Type} (base : List (String × Node)) {m : List (String × Node)}
    (hm : (m.map Prod.fst).Nodup) (f : Node → α) :
    ((ids order base).filterMap (fun id => (lastRow m id).map f) ++
      (ids order m).filterMap fun id =>
        if (lastRow base id).isSome then none else (lastRow m id).map f).Perm
      (m.map fun r => f r.2) := by
  have hkeys : (ids order base ++
      (ids order m).filter fun id => !(lastRow base id).isSome).Nodup := by
    refine (ids_nodup order base).append ((ids_nodup order m).filter _) fun id hid hid' => ?_
    have hnew := (List.mem_filter.mp hid').2
    rw [(mem_ids order).mp hid] at hnew
    cases hnew
  have hsub : ∀ r ∈ m, r.1 ∈ ids order base ++
      (ids order m).filter fun id => !(lastRow base id).isSome := by
    intro r hr
    have hsome : (lastRow m r.1).isSome = true := by
      rw [(lastRow_eq_some_iff hm).mpr hr]
      rfl
    rw [List.mem_append, List.mem_filter, mem_ids, mem_ids]
    cases (lastRow base r.1).isSome with
    | true => exact .inl rfl
    | false => exact .inr ⟨hsome, rfl⟩
  have hperm := (filterMap_lastRow_perm hkeys hm hsub).map fun r => f r.2
  rw [List.map_filterMap, List.filterMap_append, List.filterMap_filter] at hperm
  refine List.Perm.trans (.of_eq (congrArg₂ _ ?_ ?_)) hperm
  · refine List.filterMap_congr fun id _ => ?_
    rw [Option.map_map]
    rfl
  · refine List.filterMap_congr fun id _ => ?_
    cases (lastRow base id).isSome with
    | true => rfl
    | false => cases lastRow m id <;> rfl

theorem mergeTree_eq_some {name : Name} {attributes : List (Name × String)} {children : List Node}
    {ours theirs : Node} {y : Elem}
    (h : mergeTree order (.element name attributes children) ours theirs = some y) :
    ∃ text attributes' common, (view ours).tag = (view theirs).tag ∧
      threeWay (view (.element name attributes children)).text (view ours).text (view theirs).text =
        some text ∧
      mergeAttributes order (view (.element name attributes children)).attributes
        (view ours).attributes (view theirs).attributes = some attributes' ∧
      ((ids order (idMap (children.filter isElement))).mapM fun id =>
        (lastRow (mergeTrees order (idMap (elements ours)) (idMap (elements theirs)) children)
          id).getD (some none)) = some common ∧
      y = .mk (view ours).tag attributes' text (common.reduceOption ++
        (oursTrees order (idMap (children.filter isElement)) (idMap (elements ours))
          (idMap (elements theirs)) ++
        theirsTrees order (idMap (children.filter isElement)) (idMap (elements ours))
          (idMap (elements theirs)))) := by
  rw [mergeTree] at h
  split at h
  · cases h
  · rename_i htag
    simp only [Option.bind_eq_bind, Option.bind_eq_some_iff, Option.pure_def, Option.some.injEq] at h
    obtain ⟨text, htext, attributes', hattributes, common, hcommon, rfl⟩ := h
    exact ⟨text, attributes', common, not_not.mp htag, htext, hattributes, hcommon,
      by rw [List.append_assoc]⟩

theorem similarAll_common {f : String → Option (Option Elem)} {g : String → Option Elem}
    {l : List String} {common : List (Option Elem)} (hcommon : l.mapM f = some common)
    (h : ∀ id ∈ l, ∀ r, f id = some r → Option.Rel Similar r (g id)) :
    SimilarAll common.reduceOption (l.filterMap g) := by
  rw [mapM_eq_some_iff] at hcommon
  induction l generalizing common with
  | nil =>
    cases common with
    | nil => trivial
    | cons r common => cases hcommon
  | cons id l ih =>
    cases common with
    | nil => cases hcommon
    | cons r common =>
      rw [List.map_cons, List.map_cons, List.cons.injEq] at hcommon
      have hrest := ih hcommon.2 fun j hj => h j (List.mem_cons_of_mem _ hj)
      have hr := h id (List.mem_cons_self ..) r hcommon.1
      rw [List.filterMap_cons]
      generalize g id = v at hr ⊢
      cases hr with
      | none => exact hrest
      | some hsimilar => exact ⟨hsimilar, hrest⟩

omit order in
theorem result_element (change : Change) (base : Node) (name : Name)
    (attributes : List (Name × String)) (children : List Node) :
    change.result base (.element name attributes children) =
      .mk name.label (change.result base (.element name attributes children)).attributes
        (trim (firstText children))
        ((children.filter isElement).map (change.child (idMap (elements base)))) := by
  cases change with
  | both =>
    have hchild : Change.both.child (idMap (elements base)) = view := by
      funext c
      unfold Change.child
      split <;> rfl
    rw [hchild, ← viewAll_eq]
    rfl
  | ours =>
    rw [← attributedAll_eq]
    rfl
  | theirs =>
    have hchild : Change.theirs.child (idMap (elements base)) =
        Change.ours.child (idMap (elements base)) := rfl
    rw [hchild, ← attributedAll_eq]
    rfl

omit order in
theorem tidy_view_of_mem {G : Grammar} {name : Name} {attributes : List (Name × String)}
    {children : List Node} (h : Tidy G (view (.element name attributes children))) {c : Node}
    (hc : c ∈ children.filter isElement) : Tidy G (view c) := by
  obtain ⟨-, -, -, -, -, hall⟩ := h
  rw [viewAll_eq] at hall
  exact tidyAll_iff.mp hall _ (List.mem_map_of_mem hc)

omit order in
theorem identified_of_mem {nodes : List Node} (h : IdentifiedAll nodes) {c : Node} (hc : c ∈ nodes) :
    Identified c := by
  induction nodes with
  | nil => cases hc
  | cons n nodes ih =>
    rcases List.mem_cons.mp hc with rfl | hc
    · exact h.1
    · exact ih h.2 hc

omit order in
theorem attributes_nodup {G : Grammar} {e : Elem} (h : Tidy G e) :
    (e.attributes.map Prod.fst).Nodup := by
  cases e with
  | mk tag attributes text children => exact h.2.2.1

theorem mergeAttributes_change {G : Grammar} (change : Change) {base x : Node}
    (hbase : Tidy G (view base)) (hx : Tidy G (view x)) (helement : isElement x = true) :
    ∃ merged, mergeAttributes order (view base).attributes (view (change.ours' base x)).attributes
        (view (change.theirs' base x)).attributes = some merged ∧
      merged.Perm (change.result base x).attributes := by
  have hb := attributes_nodup hbase
  have hx := attributes_nodup hx
  cases x with
  | text value => cases helement
  | other => cases helement
  | element name attributes children =>
    cases change with
    | both => exact mergeAttributes_same order hx
    | ours => exact mergeAttributes_theirs order hb hx
    | theirs => exact mergeAttributes_ours order hb hx

omit order in
theorem child_of_base (change : Change) {base : List (String × Node)} {c d : Node} {id : String}
    (hd : nodeId d = some id) (hc : lastRow base id = some c) :
    change.child base d = change.result c d := by
  unfold Change.child
  rw [hd, Option.bind_some, hc]

omit order in
theorem child_of_new (change : Change) {base : List (String × Node)} {d : Node} {id : String}
    (hd : nodeId d = some id) (hc : lastRow base id = none) : change.child base d = view d := by
  unfold Change.child
  rw [hd, Option.bind_some, hc]

omit order in
theorem mem_of_lastRow_idMap {nodes : List Node} {id : String} {c : Node}
    (h : lastRow (idMap nodes) id = some c) : c ∈ nodes ∧ nodeId c = some id :=
  mem_idMap.mp (lastRow_mem h)

/-- What one side changed, or both in the same way, is the result. -/
theorem similar_of_mergeTree {G : Grammar} (base : Node) : ∀ (change : Change) (x : Node) (y : Elem),
    Tidy G (view base) → Tidy G (view x) → Identified x → isElement x = true →
    mergeTree order base (change.ours' base x) (change.theirs' base x) = some y →
      Similar y (change.result base x) := by
  induction base using Node.induct with
  | text value =>
    intro change x y _ _ _ _ h
    rw [mergeTree] at h
    cases h
  | other =>
    intro change x y _ _ _ _ h
    rw [mergeTree] at h
    cases h
  | element name attributes children ih =>
    intro change x y hbase hx hidentified helement h
    cases x with
    | text value => cases helement
    | other => cases helement
    | element xname xattributes xchildren =>
    obtain ⟨hids, hnodup, hall⟩ := hidentified
    obtain ⟨text, attributes', common, htag, htext, hattributes, hcommon, rfl⟩ :=
      mergeTree_eq_some order h
    obtain ⟨merged, hmerged, hperm⟩ := mergeAttributes_change order change hbase hx helement
    have hnew := newTrees_eq order change (.element name attributes children)
      (.element xname xattributes xchildren)
    have hchildren := children_perm order (idMap (children.filter isElement)) hnodup
      (change.child (idMap (children.filter isElement)))
    have hsnd : (idMap (xchildren.filter isElement)).map
        (fun r => change.child (idMap (children.filter isElement)) r.2) =
        (xchildren.filter isElement).map (change.child (idMap (children.filter isElement))) := by
      have hmap := @map_snd_idMap (xchildren.filter isElement) fun c hc =>
        hids c (List.mem_filter.mp hc).1 (List.mem_filter.mp hc).2
      exact (List.map_map (f := Prod.snd)
        (g := change.child (idMap (children.filter isElement)))).symm.trans (congrArg (List.map _) hmap)
    rw [result_element]
    rw [hattributes, Option.some.injEq] at hmerged
    refine ⟨?_, hmerged ▸ hperm, ?_, _, hsnd ▸ hchildren, ?_⟩
    · cases change with
      | both | ours => rfl
      | theirs => exact htag
    · cases change with
      | both => exact (Option.some.inj ((threeWay_same ..).symm.trans htext)).symm
      | ours => exact (Option.some.inj ((threeWay_base_right ..).symm.trans htext)).symm
      | theirs => exact (Option.some.inj ((threeWay_base_left ..).symm.trans htext)).symm
    · refine SimilarAll.append (similarAll_common hcommon fun id hid r hr => ?_) ?_
      · obtain ⟨c, hc⟩ := Option.isSome_iff_exists.mp ((mem_ids order).mp hid)
        rw [lastRow_mergeTrees, hc, Option.map_some, Option.getD_some,
          whereBoth_change change (.element name attributes children)
            (.element xname xattributes xchildren) hc] at hr
        have hx' : elements (.element xname xattributes xchildren) =
          xchildren.filter isElement := rfl
        rw [hx'] at hr
        cases hd : lastRow (idMap (xchildren.filter isElement)) id with
        | none =>
          simp only [hd] at hr
          rw [← Option.some.inj hr]
          exact .none
        | some d =>
          simp only [hd] at hr
          obtain ⟨y, hy, rfl⟩ := Option.map_eq_some_iff.mp hr
          obtain ⟨hcmem, -⟩ := mem_of_lastRow_idMap hc
          obtain ⟨hdmem, hdid⟩ := mem_of_lastRow_idMap hd
          rw [Option.map_some, child_of_base change hdid hc]
          refine .some (ih c (List.mem_filter.mp hcmem).1 change d y (tidy_view_of_mem hbase hcmem)
            (tidy_view_of_mem hx hdmem) (identified_of_mem hall (List.mem_filter.mp hdmem).1)
            (List.mem_filter.mp hdmem).2 hy)
      · have heq : ((ids order (idMap (xchildren.filter isElement))).filterMap fun id =>
            if (lastRow (idMap (children.filter isElement)) id).isSome then none
            else (lastRow (idMap (xchildren.filter isElement)) id).map view) =
            (ids order (idMap (xchildren.filter isElement))).filterMap fun id =>
              if (lastRow (idMap (children.filter isElement)) id).isSome then none
              else (lastRow (idMap (xchildren.filter isElement)) id).map
                (change.child (idMap (children.filter isElement))) := by
          refine List.filterMap_congr fun id _ => ?_
          cases hc : lastRow (idMap (children.filter isElement)) id with
          | some c => rfl
          | none =>
            cases hd : lastRow (idMap (xchildren.filter isElement)) id with
            | none => rfl
            | some d =>
              rw [Option.map_some, Option.map_some,
                child_of_new change (mem_of_lastRow_idMap hd).2 hc]
        rw [← heq]
        exact hnew ▸ SimilarAll.refl _

/-! ### Conflicts -/

omit order in
theorem sameTagsAll_iff {base : List (String × Node)} {nodes : List Node} :
    SameTagsAll base nodes ↔
      ∀ d ∈ nodes, ∀ c, (nodeId d).bind (lastRow base) = some c → SameTags c d := by
  induction nodes with
  | nil => exact ⟨fun _ _ hd => absurd hd List.not_mem_nil, fun _ => trivial⟩
  | cons d nodes ih =>
    rw [SameTagsAll, ih, List.forall_mem_cons]
    refine and_congr_left fun _ => ?_
    cases (nodeId d).bind (lastRow base) with
    | none => exact ⟨fun _ => nofun, fun _ => trivial⟩
    | some c => exact ⟨fun h c' hc' => Option.some.inj hc' ▸ h, fun h => h c rfl⟩

theorem mergeTree_isSome_iff {name : Name} {attributes : List (Name × String)}
    {children : List Node} {ours theirs : Node} :
    (mergeTree order (.element name attributes children) ours theirs).isSome = true ↔
      (view ours).tag = (view theirs).tag ∧
      (threeWay (view (.element name attributes children)).text (view ours).text
        (view theirs).text).isSome = true ∧
      (mergeAttributes order (view (.element name attributes children)).attributes
        (view ours).attributes (view theirs).attributes).isSome = true ∧
      ∀ id ∈ ids order (idMap (children.filter isElement)),
        (lastRow (mergeTrees order (idMap (elements ours)) (idMap (elements theirs)) children)
          id).getD (some none) ≠ none := by
  constructor
  · intro h
    obtain ⟨y, hy⟩ := Option.isSome_iff_exists.mp h
    obtain ⟨text, attributes', common, htag, htext, hattributes, hcommon, -⟩ :=
      mergeTree_eq_some order hy
    refine ⟨htag, by rw [htext]; rfl, by rw [hattributes]; rfl, fun id hid hnone => ?_⟩
    rw [mapM_eq_none_iff.mpr ⟨id, hid, hnone⟩] at hcommon
    cases hcommon
  · rintro ⟨htag, htext, hattributes, hall⟩
    obtain ⟨text, htext⟩ := Option.isSome_iff_exists.mp htext
    obtain ⟨attributes', hattributes⟩ := Option.isSome_iff_exists.mp hattributes
    obtain ⟨common, hcommon⟩ := Option.ne_none_iff_exists'.mp fun hnone =>
      (mapM_eq_none_iff.mp hnone).elim fun id hid => hall id hid.1 hid.2
    rw [mergeTree, if_neg (not_not_intro htag)]
    simp only [htext, hattributes, hcommon, Option.bind_eq_bind, Option.bind_some]
    rfl

/-- Only the change of one side can conflict with what did not change: by another tag. -/
theorem mergeTree_change_isSome_iff {G : Grammar} (base : Node) : ∀ (change : Change) (x : Node),
    isElement base = true → Tidy G (view base) → Tidy G (view x) → Identified x → isElement x = true →
    ((mergeTree order base (change.ours' base x) (change.theirs' base x)).isSome = true ↔
      change = .both ∨ SameTags base x) := by
  induction base using Node.induct with
  | text value => exact fun _ _ h => absurd h Bool.false_ne_true
  | other => exact fun _ _ h => absurd h Bool.false_ne_true
  | element name attributes children ih =>
    intro change x _ hbase hx hidentified helement
    cases x with
    | text value => cases helement
    | other => cases helement
    | element xname xattributes xchildren =>
    obtain ⟨hids, hnodup, hall⟩ := hidentified
    obtain ⟨merged, hmerged, -⟩ := mergeAttributes_change order change hbase hx helement
    have htext : (threeWay (view (.element name attributes children)).text
        (view (change.ours' (.element name attributes children)
          (.element xname xattributes xchildren))).text
        (view (change.theirs' (.element name attributes children)
          (.element xname xattributes xchildren))).text).isSome = true := by
      cases change with
      | both => exact congrArg Option.isSome (threeWay_same ..)
      | ours => exact congrArg Option.isSome (threeWay_base_right ..)
      | theirs => exact congrArg Option.isSome (threeWay_base_left ..)
    rw [mergeTree_isSome_iff, hmerged, and_iff_right htext, and_iff_right Option.isSome_some]
    -- a child of the base that is in both is merged, any other is left out
    have hcommon : (∀ id ∈ ids order (idMap (children.filter isElement)),
        (lastRow (mergeTrees order
          (idMap (elements (change.ours' (.element name attributes children)
            (.element xname xattributes xchildren))))
          (idMap (elements (change.theirs' (.element name attributes children)
            (.element xname xattributes xchildren)))) children) id).getD (some none) ≠ none) ↔
        ∀ id c d, lastRow (idMap (children.filter isElement)) id = some c →
          lastRow (idMap (xchildren.filter isElement)) id = some d → change = .both ∨ SameTags c d := by
      refine forall_congr' fun id => ?_
      rw [mem_ids, lastRow_mergeTrees]
      cases hc : lastRow (idMap (children.filter isElement)) id with
      | none => exact ⟨fun _ _ _ => nofun, fun _ => nofun⟩
      | some c =>
        have hx' : elements (.element xname xattributes xchildren) =
          xchildren.filter isElement := rfl
        rw [Option.map_some, Option.getD_some, whereBoth_change change
          (.element name attributes children) (.element xname xattributes xchildren) hc, hx']
        cases hd : lastRow (idMap (xchildren.filter isElement)) id with
        | none => exact ⟨fun _ _ _ _ => nofun, fun _ _ => nofun⟩
        | some d =>
          obtain ⟨hcmem, -⟩ := mem_of_lastRow_idMap hc
          obtain ⟨hdmem, -⟩ := mem_of_lastRow_idMap hd
          have hmerge := ih c (List.mem_filter.mp hcmem).1 change d (List.mem_filter.mp hcmem).2
            (tidy_view_of_mem hbase hcmem) (tidy_view_of_mem hx hdmem)
            (identified_of_mem hall (List.mem_filter.mp hdmem).1) (List.mem_filter.mp hdmem).2
          rw [Option.isSome_iff_ne_none] at hmerge
          constructor
          · rintro h c' d' hc' hd'
            obtain rfl := Option.some.inj hc'
            obtain rfl := Option.some.inj hd'
            exact hmerge.mp fun hnone => h rfl (Option.map_eq_none_iff.mpr hnone)
          · rintro h - hnone
            exact hmerge.mpr (h c d rfl rfl) (Option.map_eq_none_iff.mp hnone)
    rw [hcommon]
    constructor
    · rintro ⟨htag, hsame⟩
      rw [or_iff_not_imp_left]
      intro hboth
      refine ⟨?_, sameTagsAll_iff.mpr fun d hd c hc => ?_⟩
      · cases change with
        | both => exact absurd rfl hboth
        | ours => exact htag.symm
        | theirs => exact htag
      · obtain ⟨id, hid, hc⟩ := Option.bind_eq_some_iff.mp hc
        have helement : isElement d = true := by
          cases d with
          | element _ _ _ => rfl
          | text _ | other => cases hid
        have hd := (lastRow_eq_some_iff hnodup).mpr
          (mem_idMap.mpr ⟨List.mem_filter.mpr ⟨hd, helement⟩, hid⟩)
        exact (hsame id c d hc hd).resolve_left hboth
    · intro h
      refine ⟨?_, fun id c d hc hd => h.imp_right fun hsame => ?_⟩
      · cases change with
        | both => rfl
        | ours => exact (h.resolve_left nofun).1.symm
        | theirs => exact (h.resolve_left nofun).1
      · obtain ⟨hdmem, hid⟩ := mem_of_lastRow_idMap hd
        exact sameTagsAll_iff.mp hsame.2 d (List.mem_filter.mp hdmem).1 c (by rw [hid]; exact hc)

end

/-! ### Documents -/

/-- The node has this element, its children possibly in another order. -/
def Draws (n : Node) (e : Elem) : Prop := ∃ e', Shows n e' ∧ Similar e' e

theorem tidy_attributed {G : Grammar} (x : Node) : ∀ base : Node, Tidy G (view base) →
    Tidy G (view x) → Tidy G (attributed base x) := by
  induction x using Node.induct with
  | text value => exact fun _ _ h => h
  | other => exact fun _ _ h => h
  | element name attributes children ih =>
    intro base hbase hx
    have hall : ∀ c ∈ children.filter isElement, Tidy G (view c) := fun c hc => tidy_view_of_mem hx hc
    obtain ⟨hname, hplain, hnodup, htrim, hchars, -⟩ := hx
    refine ⟨hname, fun a ha => ?_, completedAttributes_nodup (attributes_nodup hbase) hnodup, htrim,
      hchars, ?_⟩
    · obtain ⟨a, hmem, rfl⟩ := List.mem_map.mp ha
      rcases mem_completedAttributes.mp hmem with hmem | ⟨hmem, -⟩
      · exact hplain _ (List.mem_map_of_mem hmem)
      · cases base with
        | element _ _ _ => exact hbase.2.1 _ (List.mem_map_of_mem hmem)
        | text _ | other => cases hmem
    · rw [attributedAll_eq, tidyAll_iff]
      intro e he
      obtain ⟨d, hd, rfl⟩ := List.mem_map.mp he
      unfold Change.child
      split
      · rename_i c hc
        obtain ⟨id, -, hc⟩ := Option.bind_eq_some_iff.mp hc
        obtain ⟨hcmem, -⟩ := mem_of_lastRow_idMap hc
        refine ih d (List.mem_filter.mp hd).1 c ?_ (hall d hd)
        cases base with
        | element _ _ _ => exact tidy_view_of_mem hbase hcmem
        | text _ | other => cases hcmem
      · exact hall d hd

theorem isElement_of_shows {n : Node} {e : Elem} (h : Shows n e) : isElement n = true := by
  cases e
  cases n with
  | element _ _ _ => rfl
  | text _ | other => exact h.elim

section
variable {order : KeyOrder} {G : Grammar} {parse : String → Option Node}

theorem merge_eq_some_iff {base ours theirs : String} {nb no nt : Node} (hb : parse base = some nb)
    (ho : parse ours = some no) (ht : parse theirs = some nt) {text : String} :
    merge order parse base ours theirs = some (some text) ↔
      ∃ y, mergeTree order nb no nt = some y ∧
        "<?xml version=\"1.0\" encoding=\"UTF-8\"?>\n" ++ elementToString 0 y ++ "\n" = text := by
  unfold merge
  rw [hb, ho, ht]
  simp only [Option.bind_eq_bind, Option.bind_some, mergeElements_eq]
  cases mergeTree order nb no nt <;> simp

/-- A change on one side or on both, from the documents to the document. -/
theorem merge_change (hparse : ReadsMarkup G parse) (change : Change) {base ours theirs : String}
    {nb nx : Node} (hb : parse base = some nb) (ho : parse ours = some (change.ours' nb nx))
    (ht : parse theirs = some (change.theirs' nb nx)) (hbase : Plain G nb) (hplain : Plain G nx)
    (hids : Identified nx) :
    ((∃ text, merge order parse base ours theirs = some (some text)) ↔
      change = .both ∨ SameTags nb nx) ∧
    ∀ text, merge order parse base ours theirs = some (some text) →
      ∃ n, parse text = some n ∧ Draws n (change.result nb nx) := by
  have helement := isElement_of_shows hplain.shows
  constructor
  · rw [← mergeTree_change_isSome_iff order nb change nx (isElement_of_shows hbase.shows) hbase.tidy
      hplain.tidy hids helement, Option.isSome_iff_exists]
    constructor
    · rintro ⟨text, h⟩
      obtain ⟨y, hy, -⟩ := (merge_eq_some_iff hb ho ht).mp h
      exact ⟨y, hy⟩
    · rintro ⟨y, hy⟩
      exact ⟨_, (merge_eq_some_iff hb ho ht).mpr ⟨y, hy, rfl⟩⟩
  · intro text h
    obtain ⟨y, hy, rfl⟩ := (merge_eq_some_iff hb ho ht).mp h
    have hsimilar := similar_of_mergeTree order nb change nx y hbase.tidy hplain.tidy hids helement hy
    have htidy : Tidy G (change.result nb nx) := by
      cases change with
      | both => exact hplain.tidy
      | ours | theirs => exact tidy_attributed nx nb hbase.tidy hplain.tidy
    obtain ⟨n, hn, hshows⟩ := hparse.parse_written true (hsimilar.tidy htidy)
    exact ⟨n, hn, y, hshows, hsimilar⟩

/-- The merges with one drawing give the drawing, up to the order of siblings: with elements
removed, but not attributes that only one side removed. -/
theorem merge_svg_one_side (hparse : ReadsMarkup G parse) {b x : String} {nb nx : Node}
    (hb : parse b = some nb) (hx : parse x = some nx) (hbase : Plain G nb) (hplain : Plain G nx)
    (hids : Identified nx) :
    (∃ text n, merge order parse b x x = some (some text) ∧ parse text = some n ∧
      Draws n (view nx)) ∧
    ((∃ text, merge order parse b b x = some (some text)) ↔ SameTags nb nx) ∧
    ((∃ text, merge order parse b x b = some (some text)) ↔ SameTags nb nx) ∧
    ∀ text, merge order parse b b x = some (some text) ∨ merge order parse b x b = some (some text) →
      ∃ n, parse text = some n ∧ Draws n (attributed nb nx) := by
  obtain ⟨hboth, hboth'⟩ := @merge_change order _ _ hparse .both _ _ _ _ _ hb hx hx hbase hplain hids
  obtain ⟨hours, hours'⟩ := @merge_change order _ _ hparse .ours _ _ _ _ _ hb hx hb hbase hplain hids
  obtain ⟨htheirs, htheirs'⟩ := @merge_change order _ _ hparse .theirs _ _ _ _ _ hb hb hx hbase hplain hids
  obtain ⟨text, htext⟩ := hboth.mpr (.inl rfl)
  obtain ⟨n, hn, hdraws⟩ := hboth' text htext
  refine ⟨⟨text, n, htext, hn, hdraws⟩, htheirs.trans (or_iff_right nofun),
    hours.trans (or_iff_right nofun), fun text h => ?_⟩
  exact h.elim (htheirs' text) (hours' text)

end

def filled : Node :=
  .element (.plain "svg") [] [.element (.plain "rect") [(.plain "id", "a"), (.plain "fill", "red")] [],
    .element (.plain "rect") [(.plain "id", "b")] []]

def unfilled : Node :=
  .element (.plain "svg") [] [.element (.plain "rect") [(.plain "id", "a")] []]

set_option maxRecDepth 20000 in
theorem read_filled : readDocument
    "<svg><rect id=\"a\" fill=\"red\"/><rect id=\"b\"/></svg>".toList = some filled := by
  rfl

set_option maxRecDepth 20000 in
theorem read_unfilled : readDocument "<svg><rect id=\"a\"/></svg>".toList = some unfilled := by
  rfl

theorem tidy_rect {attributes : List (String × String)}
    (hattributes : (attributes.all fun a => !a.1.toList.isEmpty && a.1.toList.all Char.isAlphanum &&
      a.1 != "xmlns" && a.2.toList.all fun c => c != '\t' && c != '\n' && c != '\r') = true)
    (hnodup : (attributes.map Prod.fst).Nodup) : Tidy letters (.mk "rect" attributes "" []) :=
  tidy_letters ⟨by decide, by decide⟩ hattributes hnodup rfl rfl trivial

theorem filled_plain : Plain letters filled where
  shows := ⟨rfl, .refl _, rfl, ⟨rfl, .refl _, rfl, rfl⟩, ⟨rfl, .refl _, rfl, rfl⟩, rfl⟩
  tidy := tidy_letters ⟨by decide, by decide⟩ rfl .nil rfl rfl
    ⟨tidy_rect (by decide) (by decide), tidy_rect (by decide) (by decide), trivial⟩

theorem unfilled_plain : Plain letters unfilled where
  shows := ⟨rfl, .refl _, rfl, ⟨rfl, .refl _, rfl, rfl⟩, rfl⟩
  tidy := tidy_letters ⟨by decide, by decide⟩ rfl .nil rfl rfl
    ⟨tidy_rect (by decide) (by decide), trivial⟩

theorem unfilled_identified : Identified unfilled := by
  refine ⟨?_, by decide, ⟨?_, by decide, trivial⟩, trivial⟩
  · intro c hc _
    rw [List.mem_singleton.mp hc]
    rfl
  · exact fun c hc => absurd hc List.not_mem_nil

theorem merge_one_side_rect :
    (∃ text n, merge ⟨fun keys => keys, List.Perm.refl⟩ (fun s => readDocument s.toList)
      "<svg><rect id=\"a\" fill=\"red\"/><rect id=\"b\"/></svg>" "<svg><rect id=\"a\"/></svg>"
      "<svg><rect id=\"a\"/></svg>" = some (some text) ∧ readDocument text.toList = some n ∧
      Draws n (view unfilled)) ∧
    ((∃ text, merge ⟨fun keys => keys, List.Perm.refl⟩ (fun s => readDocument s.toList)
      "<svg><rect id=\"a\" fill=\"red\"/><rect id=\"b\"/></svg>"
      "<svg><rect id=\"a\" fill=\"red\"/><rect id=\"b\"/></svg>" "<svg><rect id=\"a\"/></svg>" =
        some (some text)) ↔ SameTags filled unfilled) ∧
    ((∃ text, merge ⟨fun keys => keys, List.Perm.refl⟩ (fun s => readDocument s.toList)
      "<svg><rect id=\"a\" fill=\"red\"/><rect id=\"b\"/></svg>" "<svg><rect id=\"a\"/></svg>"
      "<svg><rect id=\"a\" fill=\"red\"/><rect id=\"b\"/></svg>" = some (some text)) ↔
        SameTags filled unfilled) ∧
    ∀ text, merge ⟨fun keys => keys, List.Perm.refl⟩ (fun s => readDocument s.toList)
        "<svg><rect id=\"a\" fill=\"red\"/><rect id=\"b\"/></svg>"
        "<svg><rect id=\"a\" fill=\"red\"/><rect id=\"b\"/></svg>" "<svg><rect id=\"a\"/></svg>" =
          some (some text) ∨
      merge ⟨fun keys => keys, List.Perm.refl⟩ (fun s => readDocument s.toList)
        "<svg><rect id=\"a\" fill=\"red\"/><rect id=\"b\"/></svg>" "<svg><rect id=\"a\"/></svg>"
        "<svg><rect id=\"a\" fill=\"red\"/><rect id=\"b\"/></svg>" = some (some text) →
      ∃ n, readDocument text.toList = some n ∧ Draws n (attributed filled unfilled) :=
  merge_svg_one_side readsMarkup_letters read_filled read_unfilled filled_plain unfilled_plain
    unfilled_identified

/-- What the merge writes where ours removed the fill and the second rectangle. -/
def refilled : Elem := .mk "svg" [] "" [.mk "rect" [("id", "a"), ("fill", "red")] "" []]

set_option maxRecDepth 20000 in
theorem read_refilled : readDocument
    ("<?xml version=\"1.0\" encoding=\"UTF-8\"?>\n<svg>\n  <rect id=\"a\" fill=\"red\"/>\n</svg>\n").toList =
      some (laidOut 0 refilled) := by
  rfl

/-- The fill that ours removed is taken from theirs. -/
theorem removed_attribute_taken : ¬ ∀ (G : Grammar) (parse : String → Option Node) (order : KeyOrder),
    ReadsMarkup G parse → ∀ (b x : String) (nb nx : Node), parse b = some nb → parse x = some nx →
      Plain G nb → Plain G nx → Identified nx → (view nb).tag = (view nx).tag →
        ∀ text n, merge order parse b x b = some (some text) → parse text = some n →
          SameTree n nx := by
  intro h
  have hsame := h letters _ ⟨fun keys => keys, List.Perm.refl⟩ readsMarkup_letters _ _ _ _
    read_filled read_unfilled filled_plain unfilled_plain unfilled_identified rfl _ _
    (by decide +kernel) read_refilled
  have htidy : Tidy letters refilled := tidy_letters ⟨by decide, by decide⟩ rfl .nil rfl rfl
    ⟨tidy_rect (by decide) (by decide), trivial⟩
  obtain ⟨-, -, -, ⟨-, hperm, -⟩, -⟩ :=
    alike_of_sameTree hsame (shows_laidOut 0 refilled htidy) unfilled_plain.shows
  exact absurd hperm.length_eq (by decide)

end Suture.Driver.Svg
