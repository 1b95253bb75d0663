import Suture.Driver.Differences
import Suture.Foundation.Rows

/-!
# Merging OTIO timelines

A document is flattened to its nodes, each with a fingerprint; the nodes of three documents are
merged by their fingerprints, and the children of a template are put in place again. The hash
function, the bits of a number and the debug print of a value are parameters.
-/

namespace Suture.Driver
set_option autoImplicit false
open Foundation

namespace Otio
variable {ν : Type}

/-! ### Nodes -/

def field (v : Value ν) (key : String) : Option (Value ν) :=
  match v with
  | .object obj => Assoc.get obj key
  | _ => none

@[simp] theorem field_object (obj : List (String × Value ν)) (key : String) :
    field (.object obj) key = Assoc.get obj key := rfl

def asStr : Value ν → Option String
  | .scalar (.string s) => some s
  | _ => none

def asArray : Value ν → Option (List (Value ν))
  | .array items => some items
  | _ => none

structure RationalTime (ν : Type) where
  value : ν
  rate : ν
deriving DecidableEq, Repr

structure TimeRange (ν : Type) where
  startTime : RationalTime ν
  duration : RationalTime ν
deriving DecidableEq, Repr

def readNumber : Value ν → Option ν
  | .scalar (.number n) => some n
  | _ => none

/-- A structure is read from an object, or from the list of its fields. -/
def RationalTime.read : Value ν → Option (RationalTime ν)
  | .object obj => do
    let value ← (Assoc.get obj "value").bind readNumber
    let rate ← (Assoc.get obj "rate").bind readNumber
    return ⟨value, rate⟩
  | .array [value, rate] => do
    let value ← readNumber value
    let rate ← readNumber rate
    return ⟨value, rate⟩
  | _ => none

def TimeRange.read : Value ν → Option (TimeRange ν)
  | .object obj => do
    let startTime ← (Assoc.get obj "start_time").bind RationalTime.read
    let duration ← (Assoc.get obj "duration").bind RationalTime.read
    return ⟨startTime, duration⟩
  | .array [startTime, duration] => do
    let startTime ← RationalTime.read startTime
    let duration ← RationalTime.read duration
    return ⟨startTime, duration⟩
  | _ => none

/-- A field that may be missing or null. -/
def readOption {α : Type} (read : Value ν → Option α) : Option (Value ν) → Option (Option α)
  | none | some (.scalar .null) => some none
  | some v => (read v).map some

/-- A field that is an empty array when it is missing. -/
def readItems : Option (Value ν) → Option (List (Value ν))
  | none => some []
  | some v => asArray v

inductive OtioNode (ν : Type) where
  | timeline (name : String)
  | track (name kind : String)
  | stack (name : String)
  | clip (name : String) (sourceRange : Option (TimeRange ν)) (mediaReference : Option (Value ν))
  | transition (name : String) (inOffset outOffset : Option (RationalTime ν))
  | serializableCollection (name : String)
  | unknown (schema : String) (value : Value ν)

/-- The fields of a node of a known type; other fields are ignored. -/
def readNode (schema : String) (value : Value ν) : Option (OtioNode ν) := do
  let get := field value
  let name ← (get "name").bind asStr
  if schema = "otio.schema.Timeline" then
    let _ ← readItems (get "tracks")
    let _ ← readOption RationalTime.read (get "global_start_time")
    return .timeline name
  else if schema = "otio.schema.Track" then
    let kind ← (get "kind").bind asStr
    let _ ← readItems (get "children")
    return .track name kind
  else if schema = "otio.schema.Stack" then
    let _ ← readItems (get "children")
    return .stack name
  else if schema = "otio.schema.Clip" then
    let sourceRange ← readOption TimeRange.read (get "source_range")
    let mediaReference ← readOption some (get "media_reference")
    return .clip name sourceRange mediaReference
  else if schema = "otio.schema.Transition" then
    let inOffset ← readOption RationalTime.read (get "in_offset")
    let outOffset ← readOption RationalTime.read (get "out_offset")
    return .transition name inOffset outOffset
  else
    let _ ← readItems (get "children")
    return .serializableCollection name

def knownSchemas : List String :=
  ["otio.schema.Timeline", "otio.schema.Track", "otio.schema.Stack", "otio.schema.Clip",
    "otio.schema.Transition", "otio.schema.SerializableCollection"]

def invalidStructure (text : String) : String := "invalid OTIO structure: " ++ text

def parseOtioNode (value : Value ν) : Except String (OtioNode ν) :=
  let schema := ((field value "OTIO_SCHEMA").bind asStr).getD ""
  if schema = "" then .error (invalidStructure "missing OTIO_SCHEMA field")
  else if schema ∈ knownSchemas then
    match readNode schema value with
    | some node => .ok node
    | none => .error (invalidStructure ("failed to parse " ++ schema))
  else .ok (.unknown schema value)

def OtioNode.isLeaf : OtioNode ν → Bool
  | .clip .. | .transition .. | .unknown .. => true
  | _ => false

inductive HashPart where
  | text (s : String)
  | bits (n : UInt64)
deriving DecidableEq, Repr

/-- What the fingerprints rest on: the bits of a number as a float, the debug print of a value,
and the hash of what was written to the hasher, in hex. -/
structure Prints (ν : Type) where
  toBits : ν → UInt64
  debug : Value ν → String
  finish : List HashPart → String

variable (prints : Prints ν)

def contentFingerprint : OtioNode ν → String
  | .clip name sourceRange mediaReference =>
    let start := sourceRange.map fun range => HashPart.bits (prints.toBits range.startTime.value)
    let url := (mediaReference.bind fun media => (field media "target_url").bind asStr).map HashPart.text
    prints.finish ([.text "clip", .text name] ++ start.toList ++ url.toList)
  | .track name kind => prints.finish [.text "track", .text name, .text kind]
  | .stack name => prints.finish [.text "stack", .text name]
  | .transition name inOffset _ =>
    let offset := inOffset.map fun time => HashPart.bits (prints.toBits time.value)
    prints.finish ([.text "transition", .text name] ++ offset.toList)
  | .timeline name => prints.finish [.text "timeline", .text name]
  | .serializableCollection name => prints.finish [.text "collection", .text name]
  | .unknown _ value => prints.finish [.text (prints.debug value)]

/-! ### Flat nodes -/

structure FlatNode (ν : Type) where
  fingerprint : String
  parentFp : Option String
  node : OtioNode ν
  rawJson : Value ν

def childArray (value : Value ν) (key : String) : List (Value ν) :=
  ((field value key).bind asArray).getD []

/-- The children of a node, under both keys. -/
def childValues (value : Value ν) : List (Value ν) :=
  childArray value "tracks" ++ childArray value "children"

theorem mem_childArray {value c : Value ν} {key : String} (h : c ∈ childArray value key) :
    ∃ obj items, value = .object obj ∧ Assoc.get obj key = some (.array items) ∧ c ∈ items := by
  unfold childArray at h
  cases harr : (field value key).bind asArray with
  | none =>
    rw [harr] at h
    cases h
  | some items =>
    rw [harr] at h
    obtain ⟨v, hv, hitems⟩ := Option.bind_eq_some_iff.mp harr
    cases value with
    | scalar s => cases hv
    | array l => cases hv
    | object obj =>
      cases v with
      | scalar s => cases hitems
      | object entries => cases hitems
      | array l =>
        cases hitems
        exact ⟨obj, items, rfl, hv, h⟩

theorem sizeOf_childArray {value c : Value ν} {key : String} (h : c ∈ childArray value key) :
    sizeOf c < sizeOf value := by
  obtain ⟨obj, items, rfl, hget, hc⟩ := mem_childArray h
  have hitems := sizeOf_get hget
  have hitem := List.sizeOf_lt_of_mem hc
  simp only [Value.object.sizeOf_spec, Value.array.sizeOf_spec] at hitems ⊢
  omega

theorem sizeOf_childValues {value c : Value ν} (h : c ∈ childValues value) :
    sizeOf c < sizeOf value :=
  (List.mem_append.mp h).elim sizeOf_childArray sizeOf_childArray

mutual

/-- How deep the arrays and objects of a value are nested. -/
def depth : Value ν → Nat
  | .scalar _ => 0
  | .array items => depthItems items + 1
  | .object entries => depthEntries entries + 1

def depthItems : List (Value ν) → Nat
  | [] => 0
  | v :: rest => max (depth v) (depthItems rest)

def depthEntries : List (String × Value ν) → Nat
  | [] => 0
  | (_, v) :: rest => max (depth v) (depthEntries rest)

end

theorem depth_le_items {items : List (Value ν)} {c : Value ν} (h : c ∈ items) :
    depth c ≤ depthItems items := by
  induction items with
  | nil => cases h
  | cons v rest ih =>
    rw [depthItems]
    rcases List.mem_cons.mp h with rfl | h
    · exact le_max_left ..
    · exact (ih h).trans (le_max_right ..)

theorem depth_le_entries {entries : List (String × Value ν)} {key : String} {v : Value ν}
    (h : (key, v) ∈ entries) : depth v ≤ depthEntries entries := by
  induction entries with
  | nil => cases h
  | cons e rest ih =>
    obtain ⟨_, w⟩ := e
    rw [depthEntries]
    rcases List.mem_cons.mp h with heq | h
    · exact (Prod.mk.inj heq).2 ▸ le_max_left ..
    · exact (ih h).trans (le_max_right ..)

theorem depth_childValues {value c : Value ν} (h : c ∈ childValues value) : depth c < depth value := by
  obtain ⟨key, hc⟩ : ∃ key, c ∈ childArray value key :=
    (List.mem_append.mp h).elim (fun h => ⟨_, h⟩) fun h => ⟨_, h⟩
  obtain ⟨obj, items, rfl, hget, hc⟩ := mem_childArray hc
  have hitems := depth_le_entries (Assoc.mem_of_get hget)
  have hitem := depth_le_items hc
  simp only [depth] at hitems ⊢
  omega

def flattenTreeWithRaw (value : Value ν) (parentFp : Option String) : List (FlatNode ν) :=
  match parseOtioNode value with
  | .error _ => []
  | .ok node =>
    let fp := contentFingerprint prints node
    ⟨fp, parentFp, node, value⟩ ::
      (childValues value).attach.flatMap fun c => flattenTreeWithRaw c.1 (some fp)
termination_by sizeOf value
decreasing_by exact sizeOf_childValues c.2

/-! ### The merge -/

section Merge
variable [DecidableEq ν]

/-- What becomes of one fingerprint, `none` for a conflict. Only leaves count as modified. -/
def mergeNode : (base ours theirs : Option (FlatNode ν)) → Option (Option (FlatNode ν))
  | some base, some ours, some theirs =>
    let isLeaf := base.node.isLeaf
    let oursModified := isLeaf && decide (base.rawJson ≠ ours.rawJson)
    let theirsModified := isLeaf && decide (base.rawJson ≠ theirs.rawJson)
    match oursModified, theirsModified with
    | false, false => some (some base)
    | true, false => some (some ours)
    | false, true => some (some theirs)
    | true, true => if ours.rawJson = theirs.rawJson then some (some ours) else none
  | none, some ours, none => some (some ours)
  | none, none, some theirs => some (some theirs)
  | none, some ours, some theirs =>
    if ours.rawJson = theirs.rawJson then some (some ours) else none
  -- delete wins
  | some _, none, _ | some _, some _, none => some none
  | none, none, none => none

/-- The map that is collected from the nodes, in which the last of a fingerprint stands. -/
def byFp (nodes : List (FlatNode ν)) (fp : String) : Option (FlatNode ν) :=
  lastRow (nodes.map fun n => (n.fingerprint, n)) fp

def allFps (base ours theirs : List (FlatNode ν)) : List String :=
  (base.map FlatNode.fingerprint ++ ours.map FlatNode.fingerprint ++
    theirs.map FlatNode.fingerprint).dedup

def mergedNodes (order : KeyOrder) (base ours theirs : List (FlatNode ν)) :
    Option (List (String × FlatNode ν)) :=
  (order.arrange (allFps base ours theirs)).foldlM (fun merged fp =>
    (mergeNode (byFp base fp) (byFp ours fp) (byFp theirs fp)).map fun node =>
      merged ++ (node.map fun n => (fp, n)).toList) []

/-- The new array for the items of an array, and the fingerprints placed by then: an item that is
a node is exchanged for the merged node of its fingerprint. -/
def replaceItems (merged : List (String × FlatNode ν)) (placed : List String) :
    List (Value ν) → List (Value ν) × List String
  | [] => ([], placed)
  | item :: items =>
    match parseOtioNode item with
    | .error _ =>
      let (newArr, placed) := replaceItems merged placed items
      (item :: newArr, placed)
    | .ok node =>
      let fp := contentFingerprint prints node
      match merged.find? fun m => m.1 = fp with
      | none => replaceItems merged placed items
      | some m =>
        let (newArr, placed) := replaceItems merged (fp :: placed) items
        (m.2.rawJson :: newArr, placed)

/-- The merged nodes of this parent that were not placed yet. -/
def addNodes (containerFp : String) (placed : List String) :
    List (String × FlatNode ν) → List (Value ν) × List String
  | [] => ([], placed)
  | (fp, node) :: merged =>
    if fp ∉ placed ∧ node.parentFp = some containerFp then
      let (newArr, placed) := addNodes containerFp (fp :: placed) merged
      (node.rawJson :: newArr, placed)
    else addNodes containerFp placed merged

def rebuildArray (merged : List (String × FlatNode ν)) (containerFp : Option String)
    (key : String) (state : List (String × Value ν) × List String) :
    List (String × Value ν) × List String :=
  match (Assoc.get state.1 key).bind asArray with
  | none => state
  | some arr =>
    let (newArr, placed) := replaceItems prints merged state.2 arr
    let (added, placed) :=
      match containerFp with
      | some fp => addNodes fp placed merged
      | none => ([], placed)
    (Assoc.insert key (.array (newArr ++ added)) state.1, placed)

/-- One child after the other, with the placed fingerprints handed on. -/
def rebuildItems (rebuild : Value ν → List String → Option (Value ν × List String)) :
    List (Value ν) → List String → Option (List (Value ν) × List String)
  | [], placed => some ([], placed)
  | item :: items, placed => do
    let (item, placed) ← rebuild item placed
    let (items, placed) ← rebuildItems rebuild items placed
    return (item :: items, placed)

def rebuildChildren (rebuild : Value ν → List String → Option (Value ν × List String))
    (key : String) (state : List (String × Value ν) × List String) :
    Option (List (String × Value ν) × List String) :=
  match (Assoc.get state.1 key).bind asArray with
  | none => some state
  | some arr => do
    let (items, placed) ← rebuildItems rebuild arr state.2
    return (Assoc.insert key (.array items) state.1, placed)

/-- The fuel bounds the depth of the recursion; `none` is a recursion that goes deeper. -/
def rebuildChildrenWithMerged (merged : List (String × FlatNode ν)) :
    Nat → Value ν → List String → Option (Value ν × List String)
  | 0, _, _ => none
  | fuel + 1, value, placed =>
    let containerFp := (parseOtioNode value).toOption.map (contentFingerprint prints)
    match value with
    | .object obj => do
      let state := rebuildArray prints merged containerFp "tracks" (obj, placed)
      let state := rebuildArray prints merged containerFp "children" state
      let state ← rebuildChildren (rebuildChildrenWithMerged merged fuel) "children" state
      let (obj, placed) ← rebuildChildren (rebuildChildrenWithMerged merged fuel) "tracks" state
      return (.object obj, placed)
    | value => some (value, placed)

/-- `none` when the fuel does not reach, `some none` for a conflict. -/
def mergeTrees (order : KeyOrder) (fuel : Nat) (base ours theirs : List (FlatNode ν)) :
    Option (Option (Value ν)) :=
  match mergedNodes order base ours theirs with
  | none => some none
  | some merged =>
    let oursJson := (ours.head?.map FlatNode.rawJson).getD (.scalar .null)
    let theirsJson := (theirs.head?.map FlatNode.rawJson).getD (.scalar .null)
    let template : Option (Value ν) := match oursJson, theirsJson with
      | .object obj, _ => some (.object obj)
      | _, .object obj => some (.object obj)
      | _, _ => none
    match template with
    | none => some (base.head?.map FlatNode.rawJson)
    | some template =>
      (rebuildChildrenWithMerged prints merged fuel template []).map fun result => some result.1

def parseOtioJson (value : Value ν) : Except String (Value ν) :=
  if (field value "OTIO_SCHEMA").isSome then .ok value
  else .error (invalidStructure "root is not an OTIO object (missing OTIO_SCHEMA)")

def parseAndFlatten (input : Value ν) : Except String (List (FlatNode ν)) := do
  let value ← parseOtioJson input
  let _ ← parseOtioNode value
  return flattenTreeWithRaw prints value none

/-- `OtioDriver::merge` on the JSON values of the documents. -/
def merge (order : KeyOrder) (fuel : Nat) (base ours theirs : Value ν) :
    Option (Except String (Option (Value ν))) :=
  match (do
    let base ← parseAndFlatten prints base
    let ours ← parseAndFlatten prints ours
    let theirs ← parseAndFlatten prints theirs
    return (base, ours, theirs) : Except String _) with
  | .error e => some (.error e)
  | .ok (base, ours, theirs) => (mergeTrees prints order fuel base ours theirs).map .ok

end Merge

/-! ### Edits in place -/

/-- The fingerprint of a value, if it is a node. -/
def fpOf (value : Value ν) : Option String :=
  (parseOtioNode value).toOption.map (contentFingerprint prints)

/-- The nodes of a tree under their fingerprints. -/
def keyed (value : Value ν) : List (String × Value ν) :=
  (flattenTreeWithRaw prints value none).map fun n => (n.fingerprint, n.rawJson)

/-- The fingerprints of a tree. -/
def fps (value : Value ν) : List String := (keyed prints value).map Prod.fst

/-- Every child can be read, and no node has two arrays of children. -/
inductive Formed : Value ν → Prop
  | node {v : Value ν} (node : OtioNode ν) : parseOtioNode v = .ok node →
      (field v "tracks").bind asArray = none ∨ (field v "children").bind asArray = none →
      (∀ c ∈ childValues v, Formed c) → Formed v

mutual

/-- `Kept old new v w`: the children of the node `v` were edited and gave `w`, between documents
with the nodes `old` and `new`. -/
inductive Kept (old new : List (String × Value ν)) : Value ν → Value ν → Prop
  | same (v : Value ν) : Kept old new v v
  | children {obj : List (String × Value ν)} {key : String} {l m : List (Value ν)} :
      key = "tracks" ∨ key = "children" → Assoc.get obj key = some (.array l) →
      fpOf prints (.object (Assoc.insert key (.array m) obj)) = fpOf prints (.object obj) →
      KeptItems old new l m → Kept old new (.object obj) (.object (Assoc.insert key (.array m) obj))

/-- Nodes are deleted, and gone from the document; leaves are changed under their fingerprints; one
new node is added at the end, which may hold copies of old ones. -/
inductive KeptItems (old new : List (String × Value ν)) : List (Value ν) → List (Value ν) → Prop
  | nil : KeptItems old new [] []
  | added {n : Value ν} {f : String} : fpOf prints n = some f → f ∉ old.map Prod.fst →
      (new.map Prod.fst).count f = 1 →
      (∀ e ∈ keyed prints n, e.1 ∈ old.map Prod.fst → e ∈ old) → KeptItems old new [] [n]
  | deleted {v : Value ν} {f : String} {l m : List (Value ν)} : fpOf prints v = some f →
      f ∉ new.map Prod.fst → KeptItems old new l m → KeptItems old new (v :: l) m
  | kept {v w : Value ν} {l m : List (Value ν)} : Kept old new v w → KeptItems old new l m →
      KeptItems old new (v :: l) (w :: m)
  | leaf {v w : Value ν} {node : OtioNode ν} {l m : List (Value ν)} :
      parseOtioNode v = .ok node → node.isLeaf = true → fpOf prints v = fpOf prints w →
      childValues v = [] → childValues w = [] → KeptItems old new l m →
      KeptItems old new (v :: l) (w :: m)

end

/-- `x` is `b` edited in place: nodes with one fingerprint are copies of each other (in `b`, as far
as `x` has the fingerprint), and the root and every container are kept. -/
structure InPlace (b x : Value ν) : Prop where
  formed : Formed b
  formed_edited : Formed x
  copies : ∀ e ∈ keyed prints b, ∀ e' ∈ keyed prints b, e.1 = e'.1 → e.1 ∈ fps prints x → e = e'
  copies_edited : ∀ e ∈ keyed prints x, ∀ e' ∈ keyed prints x, e.1 = e'.1 → e = e'
  kept : Kept prints (keyed prints b) (keyed prints x) b x

variable {prints}

theorem fpOf_of_parse {v : Value ν} {node : OtioNode ν} (h : parseOtioNode v = .ok node) :
    fpOf prints v = some (contentFingerprint prints node) := by
  rw [fpOf, h]
  rfl

theorem parse_of_fpOf {v : Value ν} {f : String} (h : fpOf prints v = some f) :
    ∃ node, parseOtioNode v = .ok node ∧ contentFingerprint prints node = f := by
  unfold fpOf at h
  cases hnode : parseOtioNode v with
  | error e =>
    rw [hnode] at h
    cases h
  | ok node =>
    rw [hnode] at h
    exact ⟨node, rfl, Option.some.inj h⟩

theorem flatten_of_parse {v : Value ν} {node : OtioNode ν} (h : parseOtioNode v = .ok node)
    (parentFp : Option String) : flattenTreeWithRaw prints v parentFp =
      ⟨contentFingerprint prints node, parentFp, node, v⟩ :: (childValues v).flatMap fun c =>
        flattenTreeWithRaw prints c (some (contentFingerprint prints node)) := by
  rw [flattenTreeWithRaw, h]
  simp only [List.flatMap_subtype, List.unattach_attach]

theorem mem_flatten {v : Value ν} {parentFp : Option String} {n : FlatNode ν} :
    n ∈ flattenTreeWithRaw prints v parentFp ↔ ∃ node, parseOtioNode v = .ok node ∧
      (n = ⟨contentFingerprint prints node, parentFp, node, v⟩ ∨ ∃ c ∈ childValues v,
        n ∈ flattenTreeWithRaw prints c (some (contentFingerprint prints node))) := by
  cases hnode : parseOtioNode v with
  | error e =>
    have hnil : flattenTreeWithRaw prints v parentFp = [] := by rw [flattenTreeWithRaw, hnode]
    simp [hnil]
  | ok node =>
    rw [flatten_of_parse hnode, List.mem_cons, List.mem_flatMap]
    simp

theorem root_mem_flatten {v : Value ν} {node : OtioNode ν} (h : parseOtioNode v = .ok node)
    (parentFp : Option String) :
    ⟨contentFingerprint prints node, parentFp, node, v⟩ ∈ flattenTreeWithRaw prints v parentFp :=
  mem_flatten.mpr ⟨node, h, .inl rfl⟩

/-- What holds of the root of every tree in a tree holds of its flat nodes. -/
theorem flatten_induction {P : FlatNode ν → Prop} {Q : Value ν → Prop}
    (hroot : ∀ v parentFp node, Q v → parseOtioNode v = .ok node →
      P ⟨contentFingerprint prints node, parentFp, node, v⟩)
    (hchild : ∀ v c, Q v → c ∈ childValues v → Q c) {v : Value ν} (hv : Q v)
    {parentFp : Option String} {n : FlatNode ν} (hn : n ∈ flattenTreeWithRaw prints v parentFp) :
    P n := by
  induction hsize : sizeOf v using Nat.strong_induction_on generalizing v parentFp with
  | _ size ih =>
    obtain ⟨node, hnode, rfl | ⟨c, hc, hn⟩⟩ := mem_flatten.mp hn
    · exact hroot v parentFp node hv hnode
    · exact ih (sizeOf c) (hsize ▸ sizeOf_childValues hc) (hchild v c hv hc) hn rfl

/-- The node of a tree that a flat node is made of. -/
theorem parse_of_mem_flatten {v : Value ν} {parentFp : Option String} {n : FlatNode ν}
    (hn : n ∈ flattenTreeWithRaw prints v parentFp) :
    parseOtioNode n.rawJson = .ok n.node ∧ n.fingerprint = contentFingerprint prints n.node :=
  flatten_induction (P := fun n => parseOtioNode n.rawJson = .ok n.node ∧
      n.fingerprint = contentFingerprint prints n.node) (Q := fun _ => True)
    (fun _ _ _ _ h => ⟨h, rfl⟩) (fun _ _ _ _ => trivial) trivial hn

theorem fpOf_of_mem_flatten {v : Value ν} {parentFp : Option String} {n : FlatNode ν}
    (hn : n ∈ flattenTreeWithRaw prints v parentFp) : fpOf prints n.rawJson = some n.fingerprint := by
  obtain ⟨hnode, hfp⟩ := parse_of_mem_flatten hn
  rw [fpOf_of_parse hnode, hfp]

/-- A child of a node of a tree is a node of it. -/
theorem child_mem_flatten {v : Value ν} {parentFp : Option String} {n : FlatNode ν}
    (hn : n ∈ flattenTreeWithRaw prints v parentFp) {c : Value ν} {node : OtioNode ν}
    (hc : c ∈ childValues n.rawJson) (hnode : parseOtioNode c = .ok node) :
    ⟨contentFingerprint prints node, some n.fingerprint, node, c⟩ ∈
      flattenTreeWithRaw prints v parentFp := by
  induction hsize : sizeOf v using Nat.strong_induction_on generalizing v parentFp with
  | _ size ih =>
    obtain ⟨root, hroot, rfl | ⟨d, hd, hn⟩⟩ := mem_flatten.mp hn
    · exact mem_flatten.mpr ⟨root, hroot, .inr ⟨c, hc, root_mem_flatten hnode _⟩⟩
    · have hmem := ih (sizeOf d) (hsize ▸ sizeOf_childValues hd) hn rfl
      exact mem_flatten.mpr ⟨root, hroot, .inr ⟨d, hd, hmem⟩⟩

/-- The parent of a flat node is the node that has it as a child. -/
theorem parent_of_mem_flatten {v : Value ν} {parentFp : Option String} {n : FlatNode ν}
    (hn : n ∈ flattenTreeWithRaw prints v parentFp) : n.rawJson = v ∧ n.parentFp = parentFp ∨
      ∃ m ∈ flattenTreeWithRaw prints v parentFp, n.rawJson ∈ childValues m.rawJson ∧
        n.parentFp = some m.fingerprint := by
  induction hsize : sizeOf v using Nat.strong_induction_on generalizing v parentFp with
  | _ size ih =>
    obtain ⟨root, hroot, rfl | ⟨c, hc, hn⟩⟩ := mem_flatten.mp hn
    · exact .inl ⟨rfl, rfl⟩
    · right
      rcases ih (sizeOf c) (hsize ▸ sizeOf_childValues hc) hn rfl with ⟨hraw, hparent⟩ | ⟨m, hm, hmem⟩
      · exact ⟨_, root_mem_flatten hroot _, hraw ▸ hc, hparent⟩
      · exact ⟨m, mem_flatten.mpr ⟨root, hroot, .inr ⟨c, hc, hm⟩⟩, hmem⟩

theorem keyed_of_flatten (v : Value ν) (parentFp : Option String) :
    (flattenTreeWithRaw prints v parentFp).map (fun n => (n.fingerprint, n.rawJson)) =
      keyed prints v := by
  unfold keyed
  cases hnode : parseOtioNode v with
  | error e =>
    have hnil : ∀ p, flattenTreeWithRaw prints v p = [] := fun p => by rw [flattenTreeWithRaw, hnode]
    rw [hnil, hnil]
  | ok node =>
    rw [flatten_of_parse hnode, flatten_of_parse hnode]
    rfl

theorem keyed_of_parse {v : Value ν} {node : OtioNode ν} (h : parseOtioNode v = .ok node) :
    keyed prints v =
      (contentFingerprint prints node, v) :: (childValues v).flatMap (keyed prints) := by
  rw [keyed, flatten_of_parse h, List.map_cons, List.map_flatMap]
  congr 2
  funext c
  exact keyed_of_flatten c _

theorem mem_keyed {v : Value ν} {f : String} {w : Value ν} : (f, w) ∈ keyed prints v ↔
    ∃ n ∈ flattenTreeWithRaw prints v none, n.fingerprint = f ∧ n.rawJson = w := by
  unfold keyed
  rw [List.mem_map]
  simp only [Prod.mk.injEq]

theorem mem_fps {v : Value ν} {f : String} :
    f ∈ fps prints v ↔ ∃ n ∈ flattenTreeWithRaw prints v none, n.fingerprint = f := by
  unfold fps keyed
  rw [List.map_map, List.mem_map]
  rfl

/-! ### Every node of an edited document has its place in the base -/

theorem childValues_of_get {obj : List (String × Value ν)} {key : String} {l : List (Value ν)}
    (hkey : key = "tracks" ∨ key = "children") (hget : Assoc.get obj key = some (.array l))
    (hone : (field (.object obj) "tracks").bind asArray = none ∨
      (field (.object obj) "children").bind asArray = none) : childValues (.object obj) = l := by
  unfold childValues childArray
  simp only [field_object] at hone ⊢
  rcases hkey with rfl | rfl
  · rcases hone with hnone | hnone
    · rw [hget] at hnone
      cases hnone
    · rw [hnone, hget]
      exact List.append_nil l
  · rcases hone with hnone | hnone
    · rw [hnone, hget]
      rfl
    · rw [hget] at hnone
      cases hnone

theorem Formed.parse {v : Value ν} (h : Formed v) : ∃ node, parseOtioNode v = .ok node := by
  cases h with
  | node node hnode => exact ⟨node, hnode⟩

theorem Formed.one {v : Value ν} (h : Formed v) : (field v "tracks").bind asArray = none ∨
    (field v "children").bind asArray = none := by
  cases h with
  | node _ _ hone => exact hone

theorem Formed.child {v c : Value ν} (h : Formed v) (hc : c ∈ childValues v) : Formed c := by
  cases h with
  | node _ _ _ hchildren => exact hchildren c hc

theorem Formed.of_mem_flatten {v : Value ν} (h : Formed v) {parentFp : Option String}
    {n : FlatNode ν} (hn : n ∈ flattenTreeWithRaw prints v parentFp) : Formed n.rawJson :=
  flatten_induction (P := fun n => Formed n.rawJson) (Q := Formed) (fun _ _ _ hv _ => hv)
    (fun _ _ hv hc => hv.child hc) h hn

variable {old new : List (String × Value ν)}

theorem Kept.fpOf_eq {v w : Value ν} (h : Kept prints old new v w) : fpOf prints w = fpOf prints v := by
  cases h with
  | same => rfl
  | children _ _ hfp _ => exact hfp

/-- What a node of the base has become. -/
def Twin (prints : Prints ν) (old new : List (String × Value ν)) (v w : Value ν) : Prop :=
  (∃ node, parseOtioNode v = .ok node ∧ node.isLeaf = true ∧ childValues v = []) ∨
    Kept prints old new v w

mutual

theorem Kept.twin {v w : Value ν} (h : Kept prints old new v w) (hv : Formed v) (hw : Formed w)
    (hold : ∀ e ∈ keyed prints v, e ∈ old) {e : String × Value ν} (he : e ∈ keyed prints w)
    (hin : e.1 ∈ old.map Prod.fst) : ∃ v', (e.1, v') ∈ old ∧ Twin prints old new v' e.2 := by
  match h with
  | .same v => exact ⟨e.2, hold e he, .inr (.same _)⟩
  | @Kept.children _ _ _ _ obj key _ m hkey hget hfp hitems =>
    have hl := childValues_of_get hkey hget hv.one
    have hm : childValues (.object (Assoc.insert key (.array m) obj)) = m :=
      childValues_of_get hkey (by rw [Assoc.get_insert, if_pos rfl]) hw.one
    obtain ⟨node, hnode⟩ := hv.parse
    obtain ⟨node', hnode'⟩ := hw.parse
    rw [keyed_of_parse hnode', hm, List.mem_cons, List.mem_flatMap] at he
    rw [keyed_of_parse hnode, hl] at hold
    rcases he with heq | ⟨c, hc, he⟩
    · rw [fpOf_of_parse hnode, fpOf_of_parse hnode', Option.some.injEq] at hfp
      rw [heq]
      refine ⟨_, ?_, .inr (.children hkey hget ?_ hitems)⟩
      · rw [hfp]
        exact hold _ (List.mem_cons_self ..)
      · rw [fpOf_of_parse hnode, fpOf_of_parse hnode', hfp]
    · exact hitems.twin (fun c hc => hv.child (by rwa [hl])) (fun c hc => hw.child (by rwa [hm]))
        (fun e he => hold e (List.mem_cons_of_mem _ he)) hc he hin

theorem KeptItems.twin {l m : List (Value ν)} (h : KeptItems prints old new l m)
    (hl : ∀ c ∈ l, Formed c) (hm : ∀ c ∈ m, Formed c)
    (hold : ∀ e ∈ l.flatMap (keyed prints), e ∈ old) {w : Value ν} (hw : w ∈ m)
    {e : String × Value ν} (he : e ∈ keyed prints w) (hin : e.1 ∈ old.map Prod.fst) :
    ∃ v', (e.1, v') ∈ old ∧ Twin prints old new v' e.2 := by
  match h with
  | .nil => cases hw
  | .added _ _ _ hcopies =>
    rw [List.mem_singleton] at hw
    rw [hw] at he
    exact ⟨e.2, hcopies e he hin, .inr (.same _)⟩
  | .deleted _ _ hitems =>
    rw [List.flatMap_cons] at hold
    exact hitems.twin (fun c hc => hl c (List.mem_cons_of_mem _ hc)) hm
      (fun e he => hold e (List.mem_append_right _ he)) hw he hin
  | .kept (v := v) hkept hitems =>
    rw [List.flatMap_cons] at hold
    rcases List.mem_cons.mp hw with heq | hw
    · rw [heq] at he
      exact hkept.twin (hl _ (List.mem_cons_self ..)) (hm _ (List.mem_cons_self ..))
        (fun e he => hold e (List.mem_append_left _ he)) he hin
    · exact hitems.twin (fun c hc => hl c (List.mem_cons_of_mem _ hc))
        (fun c hc => hm c (List.mem_cons_of_mem _ hc))
        (fun e he => hold e (List.mem_append_right _ he)) hw he hin
  | @KeptItems.leaf _ _ _ _ v w' node _ _ hnode hleaf hfp hnone hnone' hitems =>
    rw [List.flatMap_cons] at hold
    rcases List.mem_cons.mp hw with heq | hw
    · rw [heq] at he
      obtain ⟨node', hnode'⟩ := (hm w' (List.mem_cons_self ..)).parse
      rw [keyed_of_parse hnode', hnone', List.flatMap_nil, List.mem_singleton] at he
      rw [fpOf_of_parse hnode, fpOf_of_parse hnode', Option.some.injEq] at hfp
      rw [he]
      refine ⟨v, ?_, .inl ⟨node, hnode, hleaf, hnone⟩⟩
      rw [← hfp]
      refine hold _ (List.mem_append_left _ ?_)
      rw [keyed_of_parse hnode]
      exact List.mem_cons_self ..
    · exact hitems.twin (fun c hc => hl c (List.mem_cons_of_mem _ hc))
        (fun c hc => hm c (List.mem_cons_of_mem _ hc))
        (fun e he => hold e (List.mem_append_right _ he)) hw he hin

end

/-! ### The merged nodes -/

theorem mem_of_byFp {v : Value ν} {f : String} {n : FlatNode ν}
    (h : byFp (flattenTreeWithRaw prints v none) f = some n) :
    n ∈ flattenTreeWithRaw prints v none ∧ n.fingerprint = f := by
  obtain ⟨m, hm, heq⟩ := List.mem_map.mp (lastRow_mem h)
  obtain ⟨rfl, rfl⟩ := Prod.mk.inj heq
  exact ⟨hm, rfl⟩

theorem byFp_ne_none {nodes : List (FlatNode ν)} {f : String}
    (h : f ∈ nodes.map FlatNode.fingerprint) : byFp nodes f ≠ none := by
  intro hnone
  obtain ⟨n, hn, rfl⟩ := List.mem_map.mp h
  exact lastRow_eq_none_iff.mp hnone _ (List.mem_map.mpr ⟨n, hn, rfl⟩) rfl

theorem find?_of_nodup {merged : List (String × FlatNode ν)} (h : (merged.map Prod.fst).Nodup)
    {e : String × FlatNode ν} (he : e ∈ merged) : merged.find? (fun m => m.1 = e.1) = some e := by
  cases hfind : merged.find? fun m => m.1 = e.1 with
  | none => exact absurd (decide_eq_true rfl) (List.find?_eq_none.mp hfind e he)
  | some m =>
    have hsame : m.1 = e.1 := by simpa using List.find?_some hfind
    rw [List.inj_on_of_nodup_map h (List.mem_of_find?_eq_some hfind) he hsame]

section Merge
variable [DecidableEq ν]

/-- The node that is left when only one side edited. -/
def settledNode : (base edited : Option (FlatNode ν)) → Option (FlatNode ν)
  | some base, some edited =>
    some (if base.node.isLeaf = true ∧ base.rawJson ≠ edited.rawJson then edited else base)
  | none, some edited => some edited
  | _, none => none

/-- At least one side has the edited node, the other one that or the node of the base. -/
inductive OneSide {α : Type} (base edited : α) : (ours theirs : α) → Prop
  | ours : OneSide base edited edited base
  | theirs : OneSide base edited base edited
  | both : OneSide base edited edited edited

theorem mergeNode_settled {base edited ours theirs : Option (FlatNode ν)}
    (h : base ≠ none ∨ edited ≠ none) (hside : OneSide base edited ours theirs) :
    mergeNode base ours theirs = some (settledNode base edited) := by
  cases base with
  | none =>
    cases edited with
    | none => simp at h
    | some edited => cases hside <;> simp [mergeNode, settledNode]
  | some base =>
    cases edited with
    | none => cases hside <;> rfl
    | some edited =>
      cases hleaf : base.node.isLeaf <;> by_cases hraw : base.rawJson = edited.rawJson <;>
        cases hside <;> simp [mergeNode, settledNode, hleaf, hraw]

theorem mergedNodes_eq {order : KeyOrder} {base ours theirs : List (FlatNode ν)}
    {settled : String → Option (FlatNode ν)}
    (h : ∀ f ∈ allFps base ours theirs,
      mergeNode (byFp base f) (byFp ours f) (byFp theirs f) = some (settled f)) :
    mergedNodes order base ours theirs = some ((order.arrange (allFps base ours theirs)).filterMap
      fun f => (settled f).map fun n => (f, n)) := by
  have hrun : ∀ (keys : List String), (∀ f ∈ keys, f ∈ allFps base ours theirs) →
      ∀ acc : List (String × FlatNode ν),
      keys.foldlM (fun merged f => (mergeNode (byFp base f) (byFp ours f) (byFp theirs f)).map
        fun node => merged ++ (node.map fun n => (f, n)).toList) acc =
          some (acc ++ keys.filterMap fun f => (settled f).map fun n => (f, n)) := by
    intro keys
    induction keys with
    | nil => simp
    | cons f keys ih =>
      intro hkeys acc
      rw [List.foldlM_cons, h f (hkeys f (List.mem_cons_self ..))]
      simp only [Option.map_some, Option.bind_eq_bind, Option.bind_some]
      rw [ih fun f hf => hkeys f (List.mem_cons_of_mem _ hf)]
      cases hf : settled f <;> simp [hf]
  rw [mergedNodes, hrun _ fun f hf => (order.perm _).mem_iff.mp hf, List.nil_append]

/-- What the merged nodes have for the nodes of `x`, and that they have no other. -/
structure Plan (prints : Prints ν) (old : List (String × Value ν)) (x : Value ν)
    (merged : List (String × FlatNode ν)) : Prop where
  nodup : (merged.map Prod.fst).Nodup
  found : ∀ n ∈ flattenTreeWithRaw prints x none, ∃ r, (n.fingerprint, r) ∈ merged ∧
    Kept prints old (keyed prints x) r.rawJson n.rawJson
  only : ∀ e ∈ merged, e.1 ∈ fps prints x
  added : ∀ n ∈ flattenTreeWithRaw prints x none, n.fingerprint ∉ old.map Prod.fst →
    (fps prints x).count n.fingerprint = 1 → ∀ r, (n.fingerprint, r) ∈ merged →
      r.parentFp = n.parentFp
  children : ∀ e ∈ merged, ∀ n ∈ flattenTreeWithRaw prints x none,
    e.2.parentFp = some n.fingerprint → e.1 ∈ (childValues n.rawJson).filterMap (fpOf prints)

omit [DecidableEq ν] in
theorem KeptItems.mem_fps {l m : List (Value ν)} (h : KeptItems prints old new l m) {c : Value ν}
    (hc : c ∈ l) {f : String} (hf : fpOf prints c = some f) (hin : f ∈ new.map Prod.fst) :
    f ∈ m.filterMap (fpOf prints) := by
  match h with
  | .nil => cases hc
  | .added .. => cases hc
  | .deleted hfp hout hitems =>
    rcases List.mem_cons.mp hc with heq | hc
    · rw [heq, hfp, Option.some.injEq] at hf
      exact absurd (hf ▸ hin) hout
    · exact hitems.mem_fps hc hf hin
  | .kept hkept hitems =>
    rcases List.mem_cons.mp hc with heq | hc
    · rw [heq, ← hkept.fpOf_eq] at hf
      exact List.mem_filterMap.mpr ⟨_, List.mem_cons_self .., hf⟩
    · obtain ⟨w, hw, hfw⟩ := List.mem_filterMap.mp (hitems.mem_fps hc hf hin)
      exact List.mem_filterMap.mpr ⟨w, List.mem_cons_of_mem _ hw, hfw⟩
  | .leaf _ _ hfp _ _ hitems =>
    rcases List.mem_cons.mp hc with heq | hc
    · rw [heq, hfp] at hf
      exact List.mem_filterMap.mpr ⟨_, List.mem_cons_self .., hf⟩
    · obtain ⟨w, hw, hfw⟩ := List.mem_filterMap.mp (hitems.mem_fps hc hf hin)
      exact List.mem_filterMap.mpr ⟨w, List.mem_cons_of_mem _ hw, hfw⟩

omit [DecidableEq ν] in
/-- A child of a kept node that is still in the document is a child still. -/
theorem Kept.mem_fps {v w : Value ν} (h : Kept prints old new v w) (hv : Formed v) (hw : Formed w)
    {c : Value ν} (hc : c ∈ childValues v) {f : String} (hf : fpOf prints c = some f)
    (hin : f ∈ new.map Prod.fst) : f ∈ (childValues w).filterMap (fpOf prints) := by
  cases h with
  | same => exact List.mem_filterMap.mpr ⟨c, hc, hf⟩
  | @children obj key l m hkey hget hfp hitems =>
    rw [childValues_of_get hkey (by rw [Assoc.get_insert, if_pos rfl]) hw.one]
    rw [childValues_of_get hkey hget hv.one] at hc
    exact hitems.mem_fps hc hf hin

omit [DecidableEq ν] in
theorem eq_of_count {v : Value ν} {m n : FlatNode ν} (hm : m ∈ flattenTreeWithRaw prints v none)
    (hn : n ∈ flattenTreeWithRaw prints v none) (heq : m.fingerprint = n.fingerprint)
    (hcount : (fps prints v).count n.fingerprint = 1) : m = n := by
  have hfps : fps prints v = (flattenTreeWithRaw prints v none).map FlatNode.fingerprint := by
    rw [fps, keyed, List.map_map]
    rfl
  obtain ⟨before, after, hsplit⟩ := List.append_of_mem hn
  rw [hfps, hsplit, List.map_append, List.map_cons, List.count_append, List.count_cons_self] at hcount
  rw [hsplit, List.mem_append, List.mem_cons] at hm
  rcases hm with hm | rfl | hm
  · have hpos := List.count_pos_iff.mpr (heq ▸ List.mem_map_of_mem hm :
      n.fingerprint ∈ before.map FlatNode.fingerprint)
    omega
  · rfl
  · have hpos := List.count_pos_iff.mpr (heq ▸ List.mem_map_of_mem hm :
      n.fingerprint ∈ after.map FlatNode.fingerprint)
    omega

omit [DecidableEq ν] in
theorem InPlace.byFp {b x : Value ν} (h : InPlace prints b x) {n : FlatNode ν}
    (hn : n ∈ flattenTreeWithRaw prints x none) :
    ∃ n₀ ∈ flattenTreeWithRaw prints x none,
      Otio.byFp (flattenTreeWithRaw prints x none) n.fingerprint = some n₀ ∧
        n₀.fingerprint = n.fingerprint ∧ n₀.rawJson = n.rawJson := by
  obtain ⟨n₀, hn₀⟩ := Option.ne_none_iff_exists'.mp (byFp_ne_none (List.mem_map_of_mem hn))
  obtain ⟨hmem, hfp⟩ := mem_of_byFp hn₀
  have hcopy := h.copies_edited _ (mem_keyed.mpr ⟨n₀, hmem, rfl, rfl⟩) _
    (mem_keyed.mpr ⟨n, hn, rfl, rfl⟩) hfp
  exact ⟨n₀, hmem, hn₀, hfp, (Prod.mk.inj hcopy).2⟩

omit [DecidableEq ν] in
/-- The node of the base with a fingerprint that `x` has is what the twin was. -/
theorem InPlace.twin {b x : Value ν} (h : InPlace prints b x) {n n' : FlatNode ν}
    (hn : n ∈ flattenTreeWithRaw prints x none) (hn' : n' ∈ flattenTreeWithRaw prints b none)
    (hfp : n'.fingerprint = n.fingerprint) :
    Twin prints (keyed prints b) (keyed prints x) n'.rawJson n.rawJson := by
  have hbase : (n'.fingerprint, n'.rawJson) ∈ keyed prints b := mem_keyed.mpr ⟨n', hn', rfl, rfl⟩
  obtain ⟨v, hv, htwin⟩ := h.kept.twin h.formed h.formed_edited (fun _ he => he)
    (mem_keyed.mpr ⟨n, hn, rfl, rfl⟩) (List.mem_map.mpr ⟨_, hbase, hfp⟩)
  have hcopy := h.copies _ hbase _ hv hfp (mem_fps.mpr ⟨n, hn, hfp.symm⟩)
  rwa [(Prod.mk.inj hcopy).2]

theorem InPlace.settled {b x : Value ν} (h : InPlace prints b x) {n n₀ : FlatNode ν}
    (hn : n ∈ flattenTreeWithRaw prints x none) (hraw : n₀.rawJson = n.rawJson) :
    ∃ r, settledNode (Otio.byFp (flattenTreeWithRaw prints b none) n.fingerprint) (some n₀) = some r ∧
      Kept prints (keyed prints b) (keyed prints x) r.rawJson n.rawJson ∧
      (r = n₀ ∨ r ∈ flattenTreeWithRaw prints b none ∧ r.fingerprint = n.fingerprint) := by
  cases hbase : Otio.byFp (flattenTreeWithRaw prints b none) n.fingerprint with
  | none => exact ⟨n₀, rfl, hraw ▸ .same _, .inl rfl⟩
  | some n' =>
    obtain ⟨hn', hfp⟩ := mem_of_byFp hbase
    refine ⟨_, rfl, ?_⟩
    split_ifs with hmodified
    · exact ⟨hraw ▸ .same _, .inl rfl⟩
    · refine ⟨?_, .inr ⟨hn', hfp⟩⟩
      rcases h.twin hn hn' hfp with ⟨node, hnode, hleaf, -⟩ | hkept
      · have hsame : n'.rawJson = n₀.rawJson := by
          by_contra hne
          rw [(parse_of_mem_flatten hn').1] at hnode
          exact hmodified ⟨Except.ok.inj hnode ▸ hleaf, hne⟩
        rw [hsame, hraw]
        exact .same _
      · exact hkept

omit [DecidableEq ν] in
theorem map_fst_filterMap {g : String → Option (FlatNode ν)} (l : List String) :
    (l.filterMap fun f => (g f).map fun n => (f, n)).map Prod.fst =
      l.filter fun f => (g f).isSome := by
  induction l with
  | nil => rfl
  | cons f l ih => cases hf : g f <;> simp [hf, ih]

theorem InPlace.plan {b x : Value ν} (h : InPlace prints b x) {keys : List String} (hkeys : keys.Nodup)
    (hall : ∀ f ∈ fps prints x, f ∈ keys) :
    Plan prints (keyed prints b) x (keys.filterMap fun f =>
      (settledNode (Otio.byFp (flattenTreeWithRaw prints b none) f)
        (Otio.byFp (flattenTreeWithRaw prints x none) f)).map fun n => (f, n)) := by
  -- an entry is for a node of `x`, and is its settled node
  have hentry : ∀ f r, (f, r) ∈ (keys.filterMap fun f =>
      (settledNode (Otio.byFp (flattenTreeWithRaw prints b none) f)
        (Otio.byFp (flattenTreeWithRaw prints x none) f)).map fun n => (f, n)) ↔ f ∈ keys ∧
      settledNode (Otio.byFp (flattenTreeWithRaw prints b none) f)
        (Otio.byFp (flattenTreeWithRaw prints x none) f) = some r := by
    intro f r
    simp [List.mem_filterMap]
  have hsettled : ∀ f r, settledNode (Otio.byFp (flattenTreeWithRaw prints b none) f)
      (Otio.byFp (flattenTreeWithRaw prints x none) f) = some r →
      ∃ n₀ ∈ flattenTreeWithRaw prints x none, n₀.fingerprint = f ∧
        (r = n₀ ∨ r ∈ flattenTreeWithRaw prints b none ∧ r.fingerprint = f) := by
    intro f r hr
    cases hx : Otio.byFp (flattenTreeWithRaw prints x none) f with
    | none =>
      rw [hx] at hr
      cases hb : Otio.byFp (flattenTreeWithRaw prints b none) f <;> simp [hb, settledNode] at hr
    | some n₀ =>
      obtain ⟨hn₀, rfl⟩ := mem_of_byFp hx
      obtain ⟨r', hr', -, hfrom⟩ := h.settled hn₀ rfl
      rw [hx, hr', Option.some.injEq] at hr
      exact ⟨n₀, hn₀, rfl, hr ▸ hfrom⟩
  refine ⟨?_, fun n hn => ?_, fun e he => ?_, fun n hn hnew hcount r hr => ?_, fun e he n hn hp => ?_⟩
  · rw [map_fst_filterMap]
    exact hkeys.filter _
  · obtain ⟨n₀, -, hn₀, -, hraw⟩ := h.byFp hn
    obtain ⟨r, hr, hkept, -⟩ := h.settled hn hraw
    exact ⟨r, (hentry _ _).mpr ⟨hall _ (mem_fps.mpr ⟨n, hn, rfl⟩), by rw [hn₀, hr]⟩, hkept⟩
  · obtain ⟨n₀, hn₀, hfp, -⟩ := hsettled e.1 e.2 ((hentry _ _).mp he).2
    exact mem_fps.mpr ⟨n₀, hn₀, hfp⟩
  · obtain ⟨n₀, hn₀, hfp, rfl | ⟨hbase, hfp'⟩⟩ := hsettled _ r ((hentry _ _).mp hr).2
    · rw [eq_of_count hn₀ hn hfp hcount]
    · exact absurd (mem_fps.mpr ⟨r, hbase, hfp'⟩) hnew
  · obtain ⟨n₀, hn₀, hfp, hfrom⟩ := hsettled e.1 e.2 ((hentry _ _).mp he).2
    rcases hfrom with heq | ⟨hbase, hfp'⟩
    · rw [heq] at hp
      rcases parent_of_mem_flatten hn₀ with ⟨-, hnone⟩ | ⟨m, hm, hchild, hparent⟩
      · rw [hnone] at hp
        cases hp
      · rw [hparent, Option.some.injEq] at hp
        have hcopy := h.copies_edited _ (mem_keyed.mpr ⟨m, hm, rfl, rfl⟩) _
          (mem_keyed.mpr ⟨n, hn, rfl, rfl⟩) hp
        rw [(Prod.mk.inj hcopy).2] at hchild
        exact List.mem_filterMap.mpr ⟨_, hchild, by rw [fpOf_of_mem_flatten hn₀, hfp]⟩
    · rcases parent_of_mem_flatten hbase with ⟨-, hnone⟩ | ⟨m, hm, hchild, hparent⟩
      · rw [hnone] at hp
        cases hp
      · rw [hparent, Option.some.injEq] at hp
        rcases h.twin hn hm hp with ⟨-, -, -, hnone⟩ | hkept
        · rw [hnone] at hchild
          cases hchild
        · exact hkept.mem_fps (h.formed.of_mem_flatten hm) (h.formed_edited.of_mem_flatten hn) hchild
            (by rw [fpOf_of_mem_flatten hbase, hfp']) (mem_fps.mpr ⟨n₀, hn₀, hfp⟩)

end Merge

/-! ### The children are put in place -/

/-- The fingerprints below a node. -/
def below (prints : Prints ν) (v : Value ν) : List String := (childValues v).flatMap (fps prints)

theorem fps_of_parse {v : Value ν} {node : OtioNode ν} (h : parseOtioNode v = .ok node) :
    fps prints v = contentFingerprint prints node :: below prints v := by
  unfold below fps
  rw [keyed_of_parse h, List.map_cons, List.map_flatMap]

/-- The fingerprints of children and what is below them. -/
theorem flatMap_fps_perm {m : List (Value ν)} (hm : ∀ c ∈ m, Formed c) :
    (m.flatMap (fps prints)).Perm (m.filterMap (fpOf prints) ++ m.flatMap (below prints)) := by
  induction m with
  | nil => exact .refl _
  | cons c m ih =>
    obtain ⟨node, hnode⟩ := (hm c (List.mem_cons_self ..)).parse
    have hrest := ih fun d hd => hm d (List.mem_cons_of_mem _ hd)
    rw [List.flatMap_cons, List.flatMap_cons, fps_of_parse hnode,
      List.filterMap_cons_some (fpOf_of_parse hnode), List.cons_append, List.cons_append]
    exact ((hrest.append_left _).trans (List.perm_append_comm_assoc _ _ _)).cons _

section Place
variable {merged : List (String × FlatNode ν)} {x : Value ν}

/-- What the items `l` are exchanged for, when `ws` are the kept children. -/
def Exchanges (prints : Prints ν) (old : List (String × Value ν)) (x : Value ν)
    (merged : List (String × FlatNode ν)) (l ws : List (Value ν)) : Prop :=
  ∀ placed, ∃ rs placed', replaceItems prints merged placed l = (rs, placed') ∧
    List.Forall₂ (Kept prints old (keyed prints x)) rs ws ∧
    ∀ f, f ∈ placed' ↔ f ∈ placed ∨ f ∈ ws.filterMap (fpOf prints)

/-- An item with the fingerprint of a node of `x` is exchanged for the merged node of it. -/
theorem Exchanges.cons (hplan : Plan prints old x merged) {v w : Value ν} {l ws : List (Value ν)}
    (hfp : fpOf prints v = fpOf prints w)
    (hw : ∃ n ∈ flattenTreeWithRaw prints x none, n.rawJson = w)
    (hrest : Exchanges prints old x merged l ws) :
    Exchanges prints old x merged (v :: l) (w :: ws) := by
  obtain ⟨n, hn, rfl⟩ := hw
  rw [fpOf_of_mem_flatten hn] at hfp
  obtain ⟨node, hnode, hprint⟩ := parse_of_fpOf hfp
  obtain ⟨r, hr, hkept⟩ := hplan.found n hn
  intro placed
  obtain ⟨rs, placed', hrun, hrs, hplaced⟩ := hrest (n.fingerprint :: placed)
  refine ⟨r.rawJson :: rs, placed', ?_, .cons hkept hrs, fun f => ?_⟩
  · rw [replaceItems, hnode]
    simp only [hprint, find?_of_nodup hplan.nodup hr, hrun]
  · rw [hplaced, List.filterMap_cons_some (fpOf_of_mem_flatten hn), List.mem_cons, List.mem_cons,
      or_comm (a := f = n.fingerprint), or_assoc]

theorem KeptItems.exchanges (hplan : Plan prints old x merged) {l m : List (Value ν)}
    (h : KeptItems prints old (keyed prints x) l m)
    (hm : ∀ w ∈ m, ∃ n ∈ flattenTreeWithRaw prints x none, n.rawJson = w) :
    ∃ ws extra, m = ws ++ extra ∧ (extra = [] ∨ ∃ n f, extra = [n] ∧ fpOf prints n = some f ∧
      f ∉ old.map Prod.fst ∧ (fps prints x).count f = 1) ∧
      Exchanges prints old x merged l ws := by
  have htail : ∀ {w : Value ν} {m : List (Value ν)},
      (∀ w' ∈ w :: m, ∃ n ∈ flattenTreeWithRaw prints x none, n.rawJson = w') →
      ∀ w' ∈ m, ∃ n ∈ flattenTreeWithRaw prints x none, n.rawJson = w' :=
    fun hm w' hw' => hm w' (List.mem_cons_of_mem _ hw')
  match h with
  | .nil => exact ⟨[], [], rfl, .inl rfl, fun placed => ⟨[], placed, rfl, .nil, by simp⟩⟩
  | .added (n := n) hfp hnew hcount _ =>
    exact ⟨[], [n], rfl, .inr ⟨n, _, rfl, hfp, hnew, hcount⟩, fun placed => ⟨[], placed, rfl, .nil, by simp⟩⟩
  | .deleted hfp hout hitems =>
    obtain ⟨ws, extra, hsplit, hextra, hrest⟩ := hitems.exchanges hplan hm
    refine ⟨ws, extra, hsplit, hextra, fun placed => ?_⟩
    obtain ⟨rs, placed', hrun, hrs⟩ := hrest placed
    refine ⟨rs, placed', ?_, hrs⟩
    obtain ⟨node, hnode, rfl⟩ := parse_of_fpOf hfp
    have hnone : merged.find? (fun m => m.1 = contentFingerprint prints node) = none := by
      refine List.find?_eq_none.mpr fun e he heq => hout ?_
      rw [← of_decide_eq_true heq]
      exact hplan.only e he
    rw [replaceItems, hnode]
    simp only [hnone, hrun]
  | .kept (w := w) hkept hitems =>
    obtain ⟨ws, extra, hsplit, hextra, hrest⟩ := hitems.exchanges hplan (htail hm)
    exact ⟨w :: ws, extra, by rw [hsplit, List.cons_append], hextra,
      hrest.cons hplan hkept.fpOf_eq.symm (hm w (List.mem_cons_self ..))⟩
  | .leaf (w := w) _ _ hfp _ _ hitems =>
    obtain ⟨ws, extra, hsplit, hextra, hrest⟩ := hitems.exchanges hplan (htail hm)
    exact ⟨w :: ws, extra, by rw [hsplit, List.cons_append], hextra,
      hrest.cons hplan hfp (hm w (List.mem_cons_self ..))⟩

theorem addNodes_none {fp : String} {placed : List String} {merged : List (String × FlatNode ν)}
    (h : ∀ e ∈ merged, e.2.parentFp = some fp → e.1 ∈ placed) :
    addNodes fp placed merged = ([], placed) := by
  induction merged with
  | nil => rfl
  | cons e merged ih =>
    rw [addNodes, if_neg fun he => he.1 (h e (List.mem_cons_self ..) he.2)]
    exact ih fun e he => h e (List.mem_cons_of_mem _ he)

theorem addNodes_one {fp : String} {placed : List String} {merged : List (String × FlatNode ν)}
    (hnodup : (merged.map Prod.fst).Nodup) {e : String × FlatNode ν} (he : e ∈ merged)
    (hparent : e.2.parentFp = some fp) (hplaced : e.1 ∉ placed)
    (h : ∀ d ∈ merged, d.2.parentFp = some fp → d.1 ∈ placed ∨ d.1 = e.1) :
    addNodes fp placed merged = ([e.2.rawJson], e.1 :: placed) := by
  induction merged with
  | nil => cases he
  | cons d merged ih =>
    rw [List.map_cons, List.nodup_cons] at hnodup
    rw [addNodes]
    rcases List.mem_cons.mp he with rfl | he
    · rw [if_pos ⟨hplaced, hparent⟩, addNodes_none]
      intro c hc hcparent
      exact (h c (List.mem_cons_of_mem _ hc) hcparent).elim (List.mem_cons_of_mem _)
        fun heq => heq ▸ List.mem_cons_self ..
    · have hne : d.1 ≠ e.1 := fun heq => hnodup.1 (heq ▸ List.mem_map_of_mem he)
      rw [if_neg fun hd => (h d (List.mem_cons_self ..) hd.2).elim hd.1 hne]
      exact ih hnodup.2 he fun c hc => h c (List.mem_cons_of_mem _ hc)

/-! One turn of the recursion, at a node with one array of children. -/

theorem rebuildArray_none {containerFp : Option String} {key : String}
    (state : List (String × Value ν) × List String)
    (h : (Assoc.get state.1 key).bind asArray = none) :
    rebuildArray prints merged containerFp key state = state := by
  rw [rebuildArray, h]

theorem rebuildArray_some {fp key : String} {obj : List (String × Value ν)} {l rs added : List (Value ν)}
    {placed placed₁ placed₂ : List String} (h : Assoc.get obj key = some (.array l))
    (hitems : replaceItems prints merged placed l = (rs, placed₁))
    (hadded : addNodes fp placed₁ merged = (added, placed₂)) :
    rebuildArray prints merged (some fp) key (obj, placed) =
      (Assoc.insert key (.array (rs ++ added)) obj, placed₂) := by
  have harray : (Assoc.get obj key).bind asArray = some l := by rw [h]; rfl
  simp only [rebuildArray, harray, hitems, hadded]

theorem rebuildChildren_none {rebuild : Value ν → List String → Option (Value ν × List String)}
    {key : String} (state : List (String × Value ν) × List String)
    (h : (Assoc.get state.1 key).bind asArray = none) : rebuildChildren rebuild key state = some state := by
  rw [rebuildChildren, h]

theorem rebuildChildren_some {rebuild : Value ν → List String → Option (Value ν × List String)}
    {key : String} {obj : List (String × Value ν)} {l m : List (Value ν)} {placed placed' : List String}
    (hrun : rebuildItems rebuild l placed = some (m, placed')) :
    rebuildChildren rebuild key (Assoc.insert key (.array l) obj, placed) =
      some (Assoc.insert key (.array m) obj, placed') := by
  have harray : (Assoc.get (Assoc.insert key (.array l) obj) key).bind asArray = some l := by
    rw [Assoc.get_insert, if_pos rfl]
    rfl
  simp only [rebuildChildren, harray, hrun, Option.bind_eq_bind, Option.bind_some, Option.pure_def,
    Assoc.insert_insert]

theorem rebuild_of_key {obj : List (String × Value ν)} {key : String} {l rs added m : List (Value ν)}
    {fp : String} {placed placed₁ placed₂ placed₃ : List String} {fuel : Nat}
    (hkey : key = "tracks" ∨ key = "children") (hget : Assoc.get obj key = some (.array l))
    (hone : (field (.object obj) "tracks").bind asArray = none ∨
      (field (.object obj) "children").bind asArray = none)
    (hfp : fpOf prints (.object obj) = some fp)
    (hitems : replaceItems prints merged placed l = (rs, placed₁))
    (hadded : addNodes fp placed₁ merged = (added, placed₂))
    (hrun : rebuildItems (rebuildChildrenWithMerged prints merged fuel) (rs ++ added) placed₂ =
      some (m, placed₃)) :
    rebuildChildrenWithMerged prints merged (fuel + 1) (.object obj) placed =
      some (.object (Assoc.insert key (.array m) obj), placed₃) := by
  have hfp' : (parseOtioNode (.object obj)).toOption.map (contentFingerprint prints) = some fp := hfp
  have harray := rebuildArray_some hget hitems hadded
  simp only [field_object] at hone
  rcases hkey with rfl | rfl
  · have hchildren : (Assoc.get obj "children").bind asArray = none :=
      hone.resolve_left (by rw [hget]; exact Option.some_ne_none l)
    have hchildren' : (Assoc.get (Assoc.insert "tracks" (.array (rs ++ added)) obj) "children").bind
        asArray = none := by
      rw [Assoc.get_insert, if_neg (by decide)]
      exact hchildren
    simp only [rebuildChildrenWithMerged, hfp', harray]
    rw [rebuildArray_none _ hchildren', rebuildChildren_none _ hchildren']
    simp only [Option.bind_eq_bind, Option.bind_some, rebuildChildren_some hrun, Option.pure_def]
  · have htracks : (Assoc.get obj "tracks").bind asArray = none :=
      hone.resolve_right (by rw [hget]; exact Option.some_ne_none l)
    have htracks' : (Assoc.get (Assoc.insert "children" (.array m) obj) "tracks").bind asArray =
        none := by
      rw [Assoc.get_insert, if_neg (by decide)]
      exact htracks
    simp only [rebuildChildrenWithMerged, hfp']
    rw [rebuildArray_none (obj, placed) htracks, harray]
    simp only [Option.bind_eq_bind, rebuildChildren_some hrun, Option.bind_some]
    rw [rebuildChildren_none _ htracks']
    rfl

/-- A node without an array of children stays. -/
theorem rebuild_of_none {obj : List (String × Value ν)} {placed : List String} {fuel : Nat}
    (htracks : (Assoc.get obj "tracks").bind asArray = none)
    (hchildren : (Assoc.get obj "children").bind asArray = none) :
    rebuildChildrenWithMerged prints merged (fuel + 1) (.object obj) placed =
      some (.object obj, placed) := by
  simp only [rebuildChildrenWithMerged]
  rw [rebuildArray_none (obj, placed) htracks,
    rebuildArray_none (obj, placed) hchildren,
    rebuildChildren_none (obj, placed) hchildren]
  simp only [Option.bind_eq_bind, Option.bind_some]
  rw [rebuildChildren_none (obj, placed) htracks]
  rfl

/-! The whole recursion. -/

theorem rebuildItems_kept {rebuild : Value ν → List String → Option (Value ν × List String)}
    {once : String → Prop} {rs m : List (Value ν)} (h : List.Forall₂ (Kept prints old new) rs m)
    (hrun : ∀ r w, w ∈ m → Kept prints old new r w → ∀ placed,
      (∀ f ∈ below prints w, once f → f ∉ placed) →
      ∃ placed', rebuild r placed = some (w, placed') ∧
        ∀ f, f ∈ placed' ↔ f ∈ placed ∨ f ∈ below prints w)
    (hcount : ∀ f, once f → (m.flatMap (below prints)).count f ≤ 1) (placed : List String)
    (hplaced : ∀ f ∈ m.flatMap (below prints), once f → f ∉ placed) :
    ∃ placed', rebuildItems rebuild rs placed = some (m, placed') ∧
      ∀ f, f ∈ placed' ↔ f ∈ placed ∨ f ∈ m.flatMap (below prints) := by
  induction h generalizing placed with
  | nil => exact ⟨placed, rfl, by simp⟩
  | @cons r w rs m hkept _ ih =>
    rw [List.flatMap_cons] at hplaced
    simp only [List.flatMap_cons, List.count_append] at hcount
    obtain ⟨placed₁, hstep, hplaced₁⟩ := hrun r w (List.mem_cons_self ..) hkept placed
      fun f hf => hplaced f (List.mem_append_left _ hf)
    obtain ⟨placed₂, hsteps, hplaced₂⟩ := ih (fun r w hw => hrun r w (List.mem_cons_of_mem _ hw))
      (fun f hf => le_trans (Nat.le_add_left ..) (hcount f hf)) placed₁ fun f hf honce hin => by
        rcases (hplaced₁ f).mp hin with hold | hbelow
        · exact hplaced f (List.mem_append_right _ hf) honce hold
        · have hleft := List.count_pos_iff.mpr hbelow
          have hright := List.count_pos_iff.mpr hf
          have htwice := hcount f honce
          omega
    refine ⟨placed₂, ?_, fun f => ?_⟩
    · simp only [rebuildItems, hstep, hsteps, Option.bind_eq_bind, Option.bind_some, Option.pure_def]
    · rw [hplaced₂, hplaced₁, List.flatMap_cons, List.mem_append, or_assoc]

theorem object_of_parse {v : Value ν} {node : OtioNode ν} (h : parseOtioNode v = .ok node) :
    ∃ obj, v = .object obj := by
  cases v with
  | object obj => exact ⟨obj, rfl⟩
  | scalar s => cases h
  | array items => cases h

/-- The children under the only key that has an array. -/
theorem children_cases (obj : List (String × Value ν)) :
    ((Assoc.get obj "tracks").bind asArray = none ∧ (Assoc.get obj "children").bind asArray = none) ∨
      ∃ key m, (key = "tracks" ∨ key = "children") ∧ Assoc.get obj key = some (.array m) := by
  have harray : ∀ key, (Assoc.get obj key).bind asArray = none ∨
      ∃ m, Assoc.get obj key = some (.array m) := by
    intro key
    cases hget : Assoc.get obj key with
    | none => exact .inl rfl
    | some v =>
      cases v with
      | array m => exact .inr ⟨m, rfl⟩
      | scalar s => exact .inl rfl
      | object entries => exact .inl rfl
  rcases harray "tracks" with htracks | ⟨m, hm⟩
  · rcases harray "children" with hchildren | ⟨m, hm⟩
    · exact .inl ⟨htracks, hchildren⟩
    · exact .inr ⟨"children", m, .inr rfl, hm⟩
  · exact .inr ⟨"tracks", m, .inl rfl, hm⟩

theorem KeptItems.refl (l : List (Value ν)) : KeptItems prints old new l l := by
  induction l with
  | nil => exact .nil
  | cons v l ih => exact .kept (.same v) ih

theorem key_unique {obj : List (String × Value ν)} {key key' : String} {l m : List (Value ν)}
    (hkey : key = "tracks" ∨ key = "children") (hkey' : key' = "tracks" ∨ key' = "children")
    (hget : Assoc.get obj key = some (.array l)) (hget' : Assoc.get obj key' = some (.array m))
    (hone : (field (.object obj) "tracks").bind asArray = none ∨
      (field (.object obj) "children").bind asArray = none) : key = key' := by
  simp only [field_object] at hone
  rcases hkey with rfl | rfl <;> rcases hkey' with rfl | rfl
  · rfl
  · rw [hget, hget'] at hone
    exact (hone.elim (Option.some_ne_none _) (Option.some_ne_none _)).elim
  · rw [hget, hget'] at hone
    exact (hone.elim (Option.some_ne_none _) (Option.some_ne_none _)).elim
  · rfl

/-- A kept node differs from what it was in its children only. -/
theorem Kept.split {obj : List (String × Value ν)} {key : String} {m : List (Value ν)} {r : Value ν}
    (h : Kept prints old new r (.object obj)) (hsorted : Assoc.Sorted obj)
    (hkey : key = "tracks" ∨ key = "children") (hget : Assoc.get obj key = some (.array m))
    (hone : (field (.object obj) "tracks").bind asArray = none ∨
      (field (.object obj) "children").bind asArray = none) :
    ∃ robj l, r = .object robj ∧ Assoc.get robj key = some (.array l) ∧
      Assoc.insert key (.array m) robj = obj ∧ KeptItems prints old new l m ∧
      ((field (.object robj) "tracks").bind asArray = none ∨
        (field (.object robj) "children").bind asArray = none) := by
  generalize hw : Value.object obj = w at h
  cases h with
  | same =>
    subst hw
    exact ⟨obj, m, rfl, hget, hsorted.insert_of_get hget, .refl m, hone⟩
  | @children robj key' l m' hkey' hget' hfp hitems =>
    obtain rfl : obj = Assoc.insert key' (.array m') robj := by simpa using hw
    have hself : Assoc.get (Assoc.insert key' (.array m') robj) key' = some (.array m') := by
      rw [Assoc.get_insert, if_pos rfl]
    obtain rfl := key_unique hkey hkey' hget hself hone
    rw [hself, Option.some.injEq, Value.array.injEq] at hget
    subst m'
    refine ⟨robj, l, rfl, hget', rfl, hitems, ?_⟩
    simp only [field_object, Assoc.get_insert] at hone ⊢
    rcases hkey with rfl | rfl
    · right
      simpa using hone.resolve_left (by simp [asArray])
    · left
      simpa using hone.resolve_right (by simp [asArray])

theorem ordered_child {v c : Value ν} (h : v.Ordered) (hc : c ∈ childValues v) : c.Ordered := by
  obtain ⟨key, hc⟩ : ∃ key, c ∈ childArray v key := (List.mem_append.mp hc).elim
    (fun h => ⟨_, h⟩) fun h => ⟨_, h⟩
  obtain ⟨obj, items, rfl, hget, hc⟩ := mem_childArray hc
  exact Value.OrderedItems.mem (Value.OrderedEntries.mem h.2 (Assoc.mem_of_get hget)) hc

theorem count_flatMap_le {m : List (Value ν)} {c : Value ν} (hc : c ∈ m) (f : String) :
    (below prints c).count f ≤ (m.flatMap (below prints)).count f := by
  obtain ⟨before, after, rfl⟩ := List.append_of_mem hc
  rw [List.flatMap_append, List.flatMap_cons, List.count_append, List.count_append]
  omega

/-- At a node of `x`, whatever was kept of it, the recursion gives that node and places what is
below it. What occurs once in `x` is placed once. -/
theorem rebuild_kept (hplan : Plan prints old x merged) {n : FlatNode ν}
    (hn : n ∈ flattenTreeWithRaw prints x none) (hformed : Formed n.rawJson)
    (hordered : n.rawJson.Ordered)
    (hcount : ∀ f, (fps prints x).count f = 1 → (below prints n.rawJson).count f ≤ 1) {r : Value ν}
    (hr : Kept prints old (keyed prints x) r n.rawJson) {fuel : Nat} (hfuel : depth n.rawJson ≤ fuel)
    (placed : List String)
    (hplaced : ∀ f ∈ below prints n.rawJson, (fps prints x).count f = 1 → f ∉ placed) :
    ∃ placed', rebuildChildrenWithMerged prints merged fuel r placed = some (n.rawJson, placed') ∧
      ∀ f, f ∈ placed' ↔ f ∈ placed ∨ f ∈ below prints n.rawJson := by
  induction fuel generalizing n r placed with
  | zero =>
    obtain ⟨obj, hobj⟩ := object_of_parse (parse_of_mem_flatten hn).1
    rw [hobj, depth] at hfuel
    omega
  | succ fuel ih =>
  obtain ⟨obj, hobj⟩ := object_of_parse (parse_of_mem_flatten hn).1
  have hone := hformed.one
  rw [hobj] at hone
  rcases children_cases obj with ⟨htracks, hchildren⟩ | ⟨key, m, hkey, hget⟩
  · have hnone : below prints n.rawJson = [] := by
      rw [hobj]
      simp [below, childValues, childArray, htracks, hchildren]
    have hsame : r = .object obj := by
      rw [hobj] at hr
      generalize hw : Value.object obj = w at hr
      cases hr with
      | same => rfl
      | @children robj key l m hkey =>
        obtain rfl : obj = Assoc.insert key (.array m) robj := by simpa using hw
        rcases hkey with rfl | rfl
        · simp [Assoc.get_insert, asArray] at htracks
        · simp [Assoc.get_insert, asArray] at hchildren
    refine ⟨placed, ?_, fun f => by simp [hnone]⟩
    rw [hsame, hobj]
    exact rebuild_of_none htracks hchildren
  · have hm : childValues n.rawJson = m := by rw [hobj, childValues_of_get hkey hget hone]
    rw [hobj] at hr hordered
    obtain ⟨robj, l, rfl, hrget, hinsert, hitems, hrone⟩ := hr.split hordered.1 hkey hget hone
    have hbelow : below prints n.rawJson = m.flatMap (fps prints) := by rw [below, hm]
    have hmformed : ∀ c ∈ m, Formed c := fun c hc => hformed.child (hm ▸ hc)
    -- the children as flat nodes of `x`
    have hflat : ∀ c ∈ m, ∃ d ∈ flattenTreeWithRaw prints x none, d.rawJson = c ∧
        d.parentFp = some n.fingerprint := by
      intro c hc
      obtain ⟨node, hnode⟩ := (hmformed c hc).parse
      exact ⟨_, child_mem_flatten hn (hm ▸ hc) hnode, rfl, rfl⟩
    have hperm := @flatMap_fps_perm _ prints _ hmformed
    have honce : ∀ f, (fps prints x).count f = 1 →
        (m.filterMap (fpOf prints)).count f + (m.flatMap (below prints)).count f ≤ 1 := by
      intro f hf
      rw [← List.count_append, ← hperm.count_eq, ← hbelow]
      exact hcount f hf
    have hfp : fpOf prints (.object robj) = some n.fingerprint := by
      rw [← hr.fpOf_eq, ← hobj, fpOf_of_mem_flatten hn]
    obtain ⟨ws, extra, hsplit, hextra, hexchange⟩ := hitems.exchanges hplan fun c hc =>
      (hflat c hc).imp fun d hd => ⟨hd.1, hd.2.1⟩
    obtain ⟨rs, placed₁, hreplace, hrs, hplaced₁⟩ := hexchange placed
    have hchild : ∀ e ∈ merged, e.2.parentFp = some n.fingerprint →
        e.1 ∈ ws.filterMap (fpOf prints) ∨ e.1 ∈ extra.filterMap (fpOf prints) := by
      intro e he hparent
      have hmem := hplan.children e he n hn hparent
      rwa [hm, hsplit, List.filterMap_append, List.mem_append] at hmem
    obtain ⟨added, placed₂, hadd, hadded, hplaced₂⟩ : ∃ added placed₂,
        addNodes n.fingerprint placed₁ merged = (added, placed₂) ∧
        List.Forall₂ (Kept prints old (keyed prints x)) added extra ∧
        ∀ f, f ∈ placed₂ ↔ f ∈ placed₁ ∨ f ∈ extra.filterMap (fpOf prints) := by
      rcases hextra with rfl | ⟨c, f, rfl, hfc, hnew, hunique⟩
      · refine ⟨[], placed₁, addNodes_none fun e he hparent => ?_, .nil, by simp⟩
        exact (hplaced₁ _).mpr (.inr ((hchild e he hparent).resolve_right (by simp)))
      · obtain ⟨d, hd, rfl, hdparent⟩ := hflat c (by simp [hsplit])
        obtain rfl : d.fingerprint = f := by
          rw [fpOf_of_mem_flatten hd] at hfc
          exact Option.some.inj hfc
        obtain ⟨r', hr', hkept'⟩ := hplan.found d hd
        have hparent' := (hplan.added d hd hnew hunique r' hr').trans hdparent
        have hdfp : [d.rawJson].filterMap (fpOf prints) = [d.fingerprint] := by
          simp [fpOf_of_mem_flatten hd]
        have hkids : m.filterMap (fpOf prints) = ws.filterMap (fpOf prints) ++ [d.fingerprint] := by
          rw [hsplit, List.filterMap_append, hdfp]
        rw [hdfp] at hchild ⊢
        refine ⟨[r'.rawJson], d.fingerprint :: placed₁, addNodes_one hplan.nodup hr' hparent' ?_
          (fun e he hparent => ?_), .cons hkept' .nil, fun f => ?_⟩
        · rw [hplaced₁ d.fingerprint]
          rintro (hin | hin)
          · refine hplaced d.fingerprint ?_ hunique hin
            rw [hbelow, hperm.mem_iff, hkids]
            simp
          · have hfirst := List.count_pos_iff.mpr hin
            have htwice := honce _ hunique
            rw [hkids, List.count_append, List.count_singleton_self] at htwice
            omega
        · rcases hchild e he hparent with hin | hin
          · exact .inl ((hplaced₁ _).mpr (.inr hin))
          · exact .inr (List.mem_singleton.mp hin)
        · rw [List.mem_cons, List.mem_singleton, or_comm]
    have hplacedAll : ∀ f, f ∈ placed₂ ↔ f ∈ placed ∨ f ∈ m.filterMap (fpOf prints) := by
      intro f
      rw [hplaced₂, hplaced₁, hsplit, List.filterMap_append, List.mem_append, or_assoc]
    have hdeep : ∀ f, (fps prints x).count f = 1 → (m.flatMap (below prints)).count f ≤ 1 :=
      fun f hf => le_trans (Nat.le_add_left ..) (honce f hf)
    obtain ⟨placed₃, hrun, hplaced₃⟩ := @rebuildItems_kept _ _ _ _
      (rebuildChildrenWithMerged prints merged fuel) (fun f => (fps prints x).count f = 1) (rs ++ added) m
      (by
        rw [hsplit]
        exact List.rel_append hrs hadded) (fun r w hw hkept placed hfree => by
        obtain ⟨d, hd, rfl, -⟩ := hflat w hw
        have hdepth := depth_childValues (hm ▸ hw)
        refine ih hd (hmformed _ hw) (ordered_child (hobj ▸ hordered) (hm ▸ hw)) (fun f hf => ?_) hkept
          (by omega) placed hfree
        exact le_trans (count_flatMap_le hw f) (hdeep f hf))
      hdeep placed₂ (fun f hf hunique hin => by
        rcases (hplacedAll f).mp hin with hold | hkids
        · refine hplaced f ?_ hunique hold
          rw [hbelow, hperm.mem_iff]
          exact List.mem_append_right _ hf
        · have hleft := List.count_pos_iff.mpr hkids
          have hright := List.count_pos_iff.mpr hf
          have htwice := honce f hunique
          omega)
    refine ⟨placed₃, ?_, fun f => ?_⟩
    · rw [rebuild_of_key hkey hrget hrone hfp hreplace hadd hrun, hinsert, hobj]
    · rw [hplaced₃, hplacedAll, hbelow, hperm.mem_iff, List.mem_append, or_assoc]

end Place

/-! ### One-sided edits -/

theorem parseAndFlatten_of_formed {v : Value ν} (h : Formed v) :
    parseAndFlatten prints v = .ok (flattenTreeWithRaw prints v none) := by
  obtain ⟨node, hnode⟩ := h.parse
  have hschema : (field v "OTIO_SCHEMA").isSome = true := by
    cases hfield : field v "OTIO_SCHEMA" with
    | some _ => rfl
    | none =>
      unfold parseOtioNode at hnode
      rw [hfield] at hnode
      cases hnode
  rw [parseAndFlatten, parseOtioJson, if_pos hschema]
  simp only [bind, Except.bind, hnode, pure, Except.pure]

theorem head_of_formed {v : Value ν} (h : Formed v) :
    ((flattenTreeWithRaw prints v none).head?.map FlatNode.rawJson).getD (.scalar .null) = v := by
  obtain ⟨node, hnode⟩ := h.parse
  rw [flatten_of_parse hnode]
  rfl

theorem OneSide.map {α β : Type} {b x o t : α} (h : OneSide b x o t) (g : α → β) :
    OneSide (g b) (g x) (g o) (g t) := by
  cases h with
  | ours => exact .ours
  | theirs => exact .theirs
  | both => exact .both

section Merge
variable [DecidableEq ν]

theorem InPlace.mergedNodes {b x o t : Value ν} (h : InPlace prints b x) (order : KeyOrder)
    (hside : OneSide b x o t) :
    ∃ merged, Otio.mergedNodes order (flattenTreeWithRaw prints b none)
      (flattenTreeWithRaw prints o none) (flattenTreeWithRaw prints t none) = some merged ∧
      Plan prints (keyed prints b) x merged := by
  have hflat : OneSide (flattenTreeWithRaw prints b none) (flattenTreeWithRaw prints x none)
      (flattenTreeWithRaw prints o none) (flattenTreeWithRaw prints t none) :=
    hside.map fun v => flattenTreeWithRaw prints v none
  have hall : ∀ f, f ∈ allFps (flattenTreeWithRaw prints b none) (flattenTreeWithRaw prints o none)
      (flattenTreeWithRaw prints t none) ↔
      f ∈ (flattenTreeWithRaw prints b none).map FlatNode.fingerprint ∨
        f ∈ (flattenTreeWithRaw prints x none).map FlatNode.fingerprint := by
    intro f
    rw [allFps, List.mem_dedup]
    simp only [List.mem_append]
    cases hside <;> tauto
  refine ⟨_, mergedNodes_eq fun f hf => mergeNode_settled ?_ (hflat.map fun nodes => Otio.byFp nodes f),
    h.plan ?_ fun f hf => ?_⟩
  · exact ((hall f).mp hf).imp byFp_ne_none byFp_ne_none
  · exact (order.perm _).nodup_iff.mpr (List.nodup_dedup _)
  · rw [(order.perm _).mem_iff, hall]
    obtain ⟨n, hn, rfl⟩ := mem_fps.mp hf
    exact .inr (List.mem_map_of_mem hn)

theorem mergeTrees_of_rebuild {order : KeyOrder} {fuel : Nat} {base ours theirs : List (FlatNode ν)}
    {merged : List (String × FlatNode ν)} {obj : List (String × Value ν)} {v : Value ν}
    {placed : List String} (hmerged : Otio.mergedNodes order base ours theirs = some merged)
    (hhead : (ours.head?.map FlatNode.rawJson).getD (.scalar .null) = .object obj)
    (hrebuild : rebuildChildrenWithMerged prints merged fuel (.object obj) [] = some (v, placed)) :
    mergeTrees prints order fuel base ours theirs = some (some v) := by
  simp only [mergeTrees, hmerged, hhead, hrebuild, Option.map_some]

/-- A merge of documents of which one side is the edited one, or both are. -/
theorem InPlace.merge {b x o t : Value ν} (h : InPlace prints b x) (hordered : x.Ordered)
    (order : KeyOrder) {fuel : Nat} (hfuel : depth x ≤ fuel) (hside : OneSide b x o t) :
    Otio.merge prints order fuel b o t = some (.ok (some x)) := by
  have hformed : Formed o ∧ Formed t ∧ Kept prints (keyed prints b) (keyed prints x) o x := by
    cases hside with
    | ours => exact ⟨h.formed_edited, h.formed, .same x⟩
    | theirs => exact ⟨h.formed, h.formed_edited, h.kept⟩
    | both => exact ⟨h.formed_edited, h.formed_edited, .same x⟩
  obtain ⟨ho, ht, hkept⟩ := hformed
  obtain ⟨merged, hmerged, hplan⟩ := h.mergedNodes order hside
  obtain ⟨node, hnode⟩ := h.formed_edited.parse
  obtain ⟨placed, hrebuild, -⟩ := rebuild_kept hplan (root_mem_flatten hnode none) h.formed_edited
    hordered (fun f hf => by
      rw [fps_of_parse hnode, List.count_cons] at hf
      change (below prints x).count f ≤ 1
      omega) hkept hfuel [] fun _ _ _ => List.not_mem_nil
  obtain ⟨onode, honode⟩ := ho.parse
  obtain ⟨obj, hobj⟩ := object_of_parse honode
  have hhead := @head_of_formed _ prints _ ho
  rw [hobj] at hrebuild
  have htrees := mergeTrees_of_rebuild hmerged (hhead.trans hobj) hrebuild
  have hparsed : Otio.merge prints order fuel b o t = (mergeTrees prints order fuel
      (flattenTreeWithRaw prints b none) (flattenTreeWithRaw prints o none)
      (flattenTreeWithRaw prints t none)).map .ok := by
    simp only [Otio.merge, parseAndFlatten_of_formed h.formed, parseAndFlatten_of_formed ho,
      parseAndFlatten_of_formed ht]
    rfl
  rw [hparsed, htrees]
  rfl

/-- A document that was edited in place comes out of the three one-sided merges, whatever the
order of the fingerprints. -/
theorem merge_otio_one_side (b x : JsonValue ν) (h : InPlace prints b.val x.val) (order : KeyOrder)
    {fuel : Nat} (hfuel : depth x.val ≤ fuel) :
    Otio.merge prints order fuel b.val x.val b.val = some (.ok (some x.val)) ∧
      Otio.merge prints order fuel b.val b.val x.val = some (.ok (some x.val)) ∧
      Otio.merge prints order fuel b.val x.val x.val = some (.ok (some x.val)) :=
  ⟨h.merge x.property order hfuel .ours, h.merge x.property order hfuel .theirs,
    h.merge x.property order hfuel .both⟩

/-! A track with clips of some names, each with a note. -/

def clip (name : String) (note : Nat) : Value Nat :=
  .object [("OTIO_SCHEMA", .scalar (.string "otio.schema.Clip")),
    ("metadata", .scalar (.number note)), ("name", .scalar (.string name))]

def track (clips : List (String × Nat)) : Value Nat :=
  .object [("OTIO_SCHEMA", .scalar (.string "otio.schema.Track")),
    ("children", .array (clips.map fun c => clip c.1 c.2)), ("kind", .scalar (.string "Video")),
    ("name", .scalar (.string "V"))]

/-- Fingerprints that spell out what is hashed. -/
def spelled : Prints Nat where
  toBits := UInt64.ofNat
  debug _ := ""
  finish parts := String.join (parts.map fun
    | .text s => s
    | .bits n => toString n.toNat)

theorem parse_clip (name : String) (note : Nat) :
    parseOtioNode (clip name note) = .ok (.clip name none none) := rfl

theorem parse_track (clips : List (String × Nat)) :
    parseOtioNode (track clips) = .ok (.track "V" "Video") := rfl

theorem childValues_track (clips : List (String × Nat)) :
    childValues (track clips) = clips.map fun c => clip c.1 c.2 := rfl

theorem flatten_track (clips : List (String × Nat)) :
    flattenTreeWithRaw spelled (track clips) none =
      ⟨"trackVVideo", none, .track "V" "Video", track clips⟩ :: clips.map fun c =>
        ⟨"clip" ++ c.1, some "trackVVideo", .clip c.1 none none, clip c.1 c.2⟩ := by
  rw [flatten_of_parse (parse_track clips), childValues_track, List.flatMap_map]
  congr 1
  induction clips with
  | nil => rfl
  | cons c clips ih =>
    rw [List.flatMap_cons, ih, flatten_of_parse (parse_clip c.1 c.2)]
    rfl

theorem fps_track (clips : List (String × Nat)) :
    fps spelled (track clips) = "trackVVideo" :: clips.map fun c => "clip" ++ c.1 := by
  rw [fps, keyed, flatten_track]
  simp

theorem formed_track (clips : List (String × Nat)) : Formed (track clips) := by
  refine .node _ (parse_track clips) (.inl rfl) fun c hc => ?_
  obtain ⟨c, -, rfl⟩ := List.mem_map.mp hc
  exact .node _ (parse_clip c.1 c.2) (.inl rfl) fun d hd => by cases hd

theorem copies_track {clips : List (String × Nat)}
    (h : ("trackVVideo" :: clips.map fun c => "clip" ++ c.1).Nodup) :
    ∀ e ∈ keyed spelled (track clips), ∀ e' ∈ keyed spelled (track clips), e.1 = e'.1 → e = e' := by
  rw [← fps_track] at h
  exact fun e he e' he' => List.inj_on_of_nodup_map h he he'

theorem ordered_track (clips : List (String × Nat)) : (track clips).Ordered := by
  have hclips : Value.OrderedItems (clips.map fun c => clip c.1 c.2) := by
    induction clips with
    | nil => trivial
    | cons c clips ih =>
      refine ⟨⟨?_, ?_⟩, ih⟩
      · have hkeys : ["OTIO_SCHEMA", "metadata", "name"].Pairwise (· < ·) := by decide
        exact List.pairwise_map.mp hkeys
      · simp [Value.OrderedEntries, Value.Ordered]
  refine ⟨?_, ?_⟩
  · have hkeys : ["OTIO_SCHEMA", "children", "kind", "name"].Pairwise (· < ·) := by decide
    exact List.pairwise_map.mp hkeys
  · simp [Value.OrderedEntries, Value.Ordered, hclips]

/-- One clip has a new note, one is deleted and one is new at the end. -/
theorem merge_one_side_track :
    let b := track [("A", 0), ("B", 0)]
    let x := track [("A", 1), ("C", 0)]
    merge spelled KeyOrder.asListed (depth x) b x b = some (.ok (some x)) ∧
      merge spelled KeyOrder.asListed (depth x) b b x = some (.ok (some x)) ∧
      merge spelled KeyOrder.asListed (depth x) b x x = some (.ok (some x)) := by
  intro b x
  have hb : fps spelled b = ["trackVVideo", "clipA", "clipB"] := fps_track _
  have hx : fps spelled x = ["trackVVideo", "clipA", "clipC"] := fps_track _
  have hplace : InPlace spelled b x := by
    refine ⟨formed_track _, formed_track _, fun e he e' he' heq _ => copies_track ?_ e he e' he' heq,
      copies_track ?_, @Kept.children _ _ _ _ _ "children" _ _ (.inr rfl) rfl rfl ?_⟩
    · decide
    · decide
    · refine @KeptItems.leaf _ _ _ _ _ _ (.clip "A" none none) _ _ rfl rfl rfl rfl rfl (.deleted (f := "clipB") rfl ?_
        (.added (f := "clipC") rfl ?_ ?_ ?_))
      · change _ ∉ fps spelled x
        rw [hx]
        decide
      · change _ ∉ fps spelled b
        rw [hb]
        decide
      · change (fps spelled x).count _ = 1
        rw [hx]
        decide
      · intro e he hold
        have hclip : keyed spelled (clip "C" 0) = [("clipC", clip "C" 0)] := keyed_of_parse (parse_clip "C" 0)
        change e ∈ keyed spelled (clip "C" 0) at he
        rw [hclip, List.mem_singleton] at he
        subst he
        change "clipC" ∈ fps spelled b at hold
        rw [hb] at hold
        exact absurd hold (by decide)
  exact merge_otio_one_side ⟨b, ordered_track _⟩ ⟨x, ordered_track _⟩ hplace KeyOrder.asListed (Nat.le_refl (depth x))

/-- A clip that theirs inserts at the start goes to the end. -/
theorem inserted_clip_last : ¬ ∀ (order : KeyOrder) (b x : JsonValue Nat) (fuel : Nat),
    Formed b.val → Formed x.val → depth x.val ≤ fuel →
    merge spelled order fuel b.val b.val x.val = some (.ok (some x.val)) := by
  intro h
  have hmerge : merge spelled KeyOrder.asListed (depth (track [("B", 0), ("A", 0)]))
      (track [("A", 0)]) (track [("A", 0)]) (track [("B", 0), ("A", 0)]) =
        some (.ok (some (track [("A", 0), ("B", 0)]))) := by
    simp only [merge, parseAndFlatten_of_formed (formed_track _), flatten_track]
    rfl
  have hx := h KeyOrder.asListed ⟨_, ordered_track [("A", 0)]⟩ ⟨_, ordered_track [("B", 0), ("A", 0)]⟩ _
    (formed_track _) (formed_track _) (Nat.le_refl _)
  rw [hmerge] at hx
  simp [track, clip] at hx

end Merge

end Otio
end Suture.Driver
