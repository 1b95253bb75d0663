import Mathlib.Data.List.Dedup
import Mathlib.Data.String.Basic
import Mathlib.Tactic.SplitIfs
import Suture.Foundation.SortedMap

/-!
# Structured three-way merge

`mergeValues` of the structured drivers, on JSON values. Numbers are an arbitrary
type compared as the source's `==` compares them; objects are lists of entries in
key order.
-/

namespace Suture.Driver
set_option autoImplicit false
open Foundation

inductive Scalar (ν : Type) where
  | null
  | bool (b : Bool)
  | number (n : ν)
  | string (s : String)
deriving DecidableEq, Repr

inductive Value (ν : Type) where
  | scalar (s : Scalar ν)
  | array (items : List (Value ν))
  | object (entries : List (String × Value ν))
deriving Repr

namespace Value
variable {ν : Type}

section DecEq
variable [DecidableEq ν]

mutual

def decEq : (a b : Value ν) → Decidable (a = b)
  | .scalar a, .scalar b => if h : a = b then isTrue (by rw [h]) else isFalse (by simpa using h)
  | .array a, .array b =>
    match decEqItems a b with
    | isTrue h => isTrue (by rw [h])
    | isFalse h => isFalse (by simpa using h)
  | .object a, .object b =>
    match decEqEntries a b with
    | isTrue h => isTrue (by rw [h])
    | isFalse h => isFalse (by simpa using h)
  | .scalar _, .array _ | .scalar _, .object _ | .array _, .scalar _ | .array _, .object _
  | .object _, .scalar _ | .object _, .array _ => isFalse nofun

def decEqItems : (a b : List (Value ν)) → Decidable (a = b)
  | [], [] => isTrue rfl
  | x :: xs, y :: ys =>
    match decEq x y, decEqItems xs ys with
    | isTrue h, isTrue h' => isTrue (by rw [h, h'])
    | isFalse h, _ => isFalse (by simp [h])
    | _, isFalse h => isFalse (by simp [h])
  | [], _ :: _ | _ :: _, [] => isFalse nofun

def decEqEntries : (a b : List (String × Value ν)) → Decidable (a = b)
  | [], [] => isTrue rfl
  | (k, x) :: xs, (k', y) :: ys =>
    if hk : k = k' then
      match decEq x y, decEqEntries xs ys with
      | isTrue h, isTrue h' => isTrue (by rw [hk, h, h'])
      | isFalse h, _ => isFalse (by simp [h])
      | _, isFalse h => isFalse (by simp [h])
    else isFalse (by simp [hk])
  | [], _ :: _ | _ :: _, [] => isFalse nofun

end

instance : DecidableEq (Value ν) := decEq

end DecEq

mutual

/-- Objects hold each key once, in order, at every depth. -/
def Ordered : Value ν → Prop
  | .scalar _ => True
  | .array items => OrderedItems items
  | .object entries => Assoc.Sorted entries ∧ OrderedEntries entries

def OrderedItems : List (Value ν) → Prop
  | [] => True
  | v :: rest => v.Ordered ∧ OrderedItems rest

def OrderedEntries : List (String × Value ν) → Prop
  | [] => True
  | (_, v) :: rest => v.Ordered ∧ OrderedEntries rest

end

end Value

/-- A JSON value as the parser builds it. -/
def JsonValue (ν : Type) := {v : Value ν // v.Ordered}

/-- The order in which the hash set of keys happens to be visited. -/
structure KeyOrder where
  arrange : List String → List String
  perm : ∀ keys, (arrange keys).Perm keys

/-- All keys of three objects, each once. -/
def allKeys {ν : Type} (base ours theirs : List (String × Value ν)) : List String :=
  (base.map Prod.fst ++ ours.map Prod.fst ++ theirs.map Prod.fst).dedup

theorem sizeOf_get {ν : Type} {l : List (String × Value ν)} {k : String} {v : Value ν}
    (h : Assoc.get l k = some v) : sizeOf v < sizeOf l := by
  have := List.sizeOf_lt_of_mem (Assoc.mem_of_get h)
  simp only [Prod.mk.sizeOf_spec] at this
  omega

theorem sizeOf_getElem? {ν : Type} {l : List (Value ν)} {i : Nat} {v : Value ν}
    (h : l[i]? = some v) : sizeOf v < sizeOf l :=
  List.sizeOf_lt_of_mem (List.mem_of_getElem? h)

section Merge
variable {ν : Type} [DecidableEq ν] (order : KeyOrder)

/-- One turn of the loop over the keys; `nested` is the merge of the three values, for
the case that each side changed the value differently. `none` is a conflict. -/
def mergeKey (nested : Option (Value ν)) (merged : List (String × Value ν)) (k : String) :
    (base ours theirs : Option (Value ν)) → Option (List (String × Value ν))
  | some _, some ov, none => some (Assoc.insert k ov merged)
  | some _, none, some tv => some (Assoc.insert k tv merged)
  | some bv, some ov, some tv =>
    if ov = tv then some (Assoc.insert k ov merged)
    else if ov = bv then some (Assoc.insert k tv merged)
    else if tv = bv then some (Assoc.insert k ov merged)
    else nested.map fun m => Assoc.insert k m merged
  | none, some ov, some tv => if ov = tv then some (Assoc.insert k ov merged) else none
  | none, some ov, none => some (Assoc.insert k ov merged)
  | none, none, some tv => some (Assoc.insert k tv merged)
  | some _, none, none | none, none, none => some merged

/-- One turn of the loop over the positions of arrays. -/
def mergeItem (nested : Option (Value ν)) (merged : List (Value ν)) :
    (base ours theirs : Option (Value ν)) → Option (List (Value ν))
  | none, some o, none => some (merged ++ [o])
  | none, none, some t => some (merged ++ [t])
  | none, some o, some t => if o = t then some (merged ++ [o]) else none
  | none, none, none => some merged
  | some _, some o, none => some (merged ++ [o])
  | some _, none, some t => some (merged ++ [t])
  | some _, none, none => some merged
  | some b, some o, some t =>
    if o = t then some (merged ++ [o])
    else if o = b then some (merged ++ [t])
    else if t = b then some (merged ++ [o])
    else nested.map fun m => merged ++ [m]

def mergeValues (base ours theirs : Value ν) : Option (Value ν) :=
  match base, ours, theirs with
  | .object baseMap, .object oursMap, .object theirsMap =>
    let keys := order.arrange (allKeys baseMap oursMap theirsMap)
    let merged := keys.foldlM (fun merged k =>
      let nested :=
        match _hb : Assoc.get baseMap k, Assoc.get oursMap k, Assoc.get theirsMap k with
        | some bv, some ov, some tv => mergeValues bv ov tv
        | _, _, _ => none
      mergeKey nested merged k (Assoc.get baseMap k) (Assoc.get oursMap k)
        (Assoc.get theirsMap k)) []
    merged.map .object
  | .array baseArr, .array oursArr, .array theirsArr =>
    let maxLen := max (max baseArr.length oursArr.length) theirsArr.length
    let merged := (List.range maxLen).foldlM (fun merged i =>
      let nested :=
        match _hb : baseArr[i]?, oursArr[i]?, theirsArr[i]? with
        | some b, some o, some t => mergeValues b o t
        | _, _, _ => none
      mergeItem nested merged baseArr[i]? oursArr[i]? theirsArr[i]?) []
    merged.map .array
  | _, _, _ =>
    if ours = theirs then some ours
    else if ours = base then some theirs
    else if theirs = base then some ours
    else none
termination_by base
decreasing_by
  · have := sizeOf_get _hb
    simp only [Value.object.sizeOf_spec]
    omega
  · have := sizeOf_getElem? _hb
    simp only [Value.array.sizeOf_spec]
    omega

end Merge

/-! ### Folds that cannot fail -/

section Fold
variable {ν : Type}

/-- Visiting keys and inserting each one's value, if it has one. -/
theorem foldlM_insert {keys : List String} {outcome : String → Option (Value ν)}
    {step : List (String × Value ν) → String → Option (List (String × Value ν))}
    (hstep : ∀ k ∈ keys, ∀ m, step m k = some ((outcome k).elim m fun v => Assoc.insert k v m))
    {acc : List (String × Value ν)} (hacc : Assoc.Sorted acc) :
    ∃ r, keys.foldlM step acc = some r ∧ Assoc.Sorted r ∧
      ∀ k, Assoc.get r k = if k ∈ keys then (outcome k).or (Assoc.get acc k) else Assoc.get acc k := by
  induction keys generalizing acc with
  | nil => exact ⟨acc, rfl, hacc, fun k => by simp⟩
  | cons j keys ih =>
    have hsorted : Assoc.Sorted ((outcome j).elim acc fun v => Assoc.insert j v acc) := by
      cases outcome j with
      | none => exact hacc
      | some v => exact hacc.insert j v
    obtain ⟨r, hr, hrs, hget⟩ := ih (fun k hk => hstep k (List.mem_cons_of_mem _ hk)) hsorted
    refine ⟨r, ?_, hrs, fun k => ?_⟩
    · rw [List.foldlM_cons, hstep j (List.mem_cons_self ..)]
      exact hr
    · rw [hget]
      by_cases hkj : k = j
      · subst k
        cases outcome j <;> simp [Assoc.get_insert]
      · have hsame : Assoc.get ((outcome j).elim acc fun v => Assoc.insert j v acc) k =
            Assoc.get acc k := by
          cases outcome j with
          | none => rfl
          | some v => simp [Assoc.get_insert, hkj]
        rw [hsame]
        simp [hkj]

theorem foldlM_insert_eq {keys : List String} {r : List (String × Value ν)}
    {step : List (String × Value ν) → String → Option (List (String × Value ν))}
    (outcome : String → Option (Value ν)) (hr : Assoc.Sorted r)
    (hstep : ∀ k ∈ keys, ∀ m, step m k = some ((outcome k).elim m fun v => Assoc.insert k v m))
    (hget : ∀ k, Assoc.get r k = if k ∈ keys then outcome k else none) :
    keys.foldlM step [] = some r := by
  obtain ⟨m, hm, hsorted, hmget⟩ := foldlM_insert hstep .nil
  rw [hm, hsorted.ext hr fun k => ?_]
  rw [hmget, hget]
  simp

/-- Visiting positions and appending each one's value, if it has one. -/
theorem foldlM_push {positions : List Nat} {step : List (Value ν) → Nat → Option (List (Value ν))}
    (outcome : Nat → Option (Value ν))
    (hstep : ∀ i m, step m i = some (m ++ (outcome i).toList)) (acc : List (Value ν)) :
    positions.foldlM step acc = some (acc ++ positions.filterMap outcome) := by
  induction positions generalizing acc with
  | nil => simp
  | cons i positions ih =>
    rw [List.foldlM_cons, hstep]
    simp only [Option.bind_eq_bind, Option.bind_some]
    rw [ih]
    cases h : outcome i <;> simp [h]

theorem filterMap_getElem? {α : Type} (l : List α) {n : Nat} (hn : l.length ≤ n) :
    (List.range n).filterMap (fun i => l[i]?) = l := by
  have htake : ∀ m, (List.range m).filterMap (fun i => l[i]?) = l.take m := by
    intro m
    induction m with
    | zero => rfl
    | succ m ih =>
      rw [List.range_succ, List.filterMap_append, ih, List.take_add_one]
      cases h : l[m]? <;> simp [h]
  rw [htake, List.take_of_length_le hn]

theorem foldlM_push_eq {n : Nat} {r : List (Value ν)}
    {step : List (Value ν) → Nat → Option (List (Value ν))} (hn : r.length ≤ n)
    (hstep : ∀ (i : Nat) m, step m i = some (m ++ r[i]?.toList)) :
    (List.range n).foldlM step [] = some r := by
  rw [foldlM_push (fun i => r[i]?) hstep, List.nil_append, filterMap_getElem? r hn]

end Fold

/-! ### The identity laws -/

section Laws
variable {ν : Type} [DecidableEq ν]

/-- Entries of `b` under keys that `x` lacks, put into `x`. -/
def fill (x b : List (String × Value ν)) : List (String × Value ν) :=
  b.foldr (fun e m => if (Assoc.get x e.1).isSome then m else Assoc.insert e.1 e.2 m) x

/-- `x` with what it lacks of `b` at the top: missing keys, or the elements past its end. -/
def restore (b x : Value ν) : Value ν :=
  match b, x with
  | .object baseMap, .object map => .object (fill map baseMap)
  | .array baseArr, .array arr => .array (arr ++ baseArr.drop arr.length)
  | _, _ => x

/-- `x` lacks nothing of `b` at the top. -/
def Covers (x b : Value ν) : Prop :=
  match b, x with
  | .object baseMap, .object map => ∀ k, Assoc.get map k = none → Assoc.get baseMap k = none
  | .array baseArr, .array arr => baseArr.length ≤ arr.length
  | _, _ => True

omit [DecidableEq ν] in
theorem mem_keys (order : KeyOrder) {base ours theirs : List (String × Value ν)} {k : String} :
    k ∈ order.arrange (allKeys base ours theirs) ↔ Assoc.get base k ≠ none ∨
      Assoc.get ours k ≠ none ∨ Assoc.get theirs k ≠ none := by
  rw [(order.perm _).mem_iff, allKeys, List.mem_dedup]
  simp only [List.mem_append, ne_eq, Assoc.get_eq_none_iff, not_not, or_assoc]

/-- A side that agrees with the base, or with the other side, leaves the other's value;
where that one has none, what is there stays. -/
def settled (base ours theirs : Option (Value ν)) : Option (Value ν) :=
  if ours = theirs then ours
  else if ours = base then theirs.or base
  else if theirs = base then ours.or base
  else none

/-- One of the sides agrees with the base or with the other side. -/
def OneSided {α : Type} (base ours theirs : Option α) : Prop :=
  ours = theirs ∨ ours = base ∨ theirs = base

theorem mergeKey_settled {base ours theirs : Option (Value ν)} (h : OneSided base ours theirs)
    (nested : Option (Value ν)) (merged : List (String × Value ν)) (k : String) :
    mergeKey nested merged k base ours theirs =
      some ((settled base ours theirs).elim merged fun v => Assoc.insert k v merged) := by
  unfold OneSided at h
  cases base <;> cases ours <;> cases theirs <;> simp_all [mergeKey, settled]
  all_goals split_ifs <;> simp_all

theorem mergeItem_settled {base ours theirs : Option (Value ν)} (h : OneSided base ours theirs)
    (nested : Option (Value ν)) (merged : List (Value ν)) :
    mergeItem nested merged base ours theirs = some (merged ++ (settled base ours theirs).toList) := by
  unfold OneSided at h
  cases base <;> cases ours <;> cases theirs <;> simp_all [mergeItem, settled]
  all_goals split_ifs <;> simp_all

/-- Objects whose keys are all settled by one side merge key by key. -/
theorem mergeValues_object (order : KeyOrder) {base ours theirs r : List (String × Value ν)}
    (hr : Assoc.Sorted r)
    (hside : ∀ k, OneSided (Assoc.get base k) (Assoc.get ours k) (Assoc.get theirs k))
    (hget : ∀ k, Assoc.get r k =
      settled (Assoc.get base k) (Assoc.get ours k) (Assoc.get theirs k)) :
    mergeValues order (.object base) (.object ours) (.object theirs) = some (.object r) := by
  rw [mergeValues]
  refine congrArg (Option.map Value.object) (foldlM_insert_eq
    (fun k => settled (Assoc.get base k) (Assoc.get ours k) (Assoc.get theirs k)) hr
    (fun k _ m => mergeKey_settled (hside k) _ m k) fun k => ?_)
  rw [hget]
  split
  · rfl
  · rename_i hk
    rw [mem_keys] at hk
    push Not at hk
    rw [hk.1, hk.2.1, hk.2.2]
    rfl

/-- Arrays whose positions are all settled by one side merge position by position. -/
theorem mergeValues_array (order : KeyOrder) {base ours theirs r : List (Value ν)}
    (hlen : r.length ≤ max (max base.length ours.length) theirs.length)
    (hside : ∀ i : Nat, OneSided base[i]? ours[i]? theirs[i]?)
    (hget : ∀ i : Nat, r[i]? = settled base[i]? ours[i]? theirs[i]?) :
    mergeValues order (.array base) (.array ours) (.array theirs) = some (.array r) := by
  rw [mergeValues]
  refine congrArg (Option.map Value.array) (foldlM_push_eq hlen fun i m => ?_)
  rw [mergeItem_settled (hside i), hget]

@[simp] theorem settled_same (b x : Option (Value ν)) : settled b x x = x := by
  simp [settled]

@[simp] theorem settled_ours (b x : Option (Value ν)) : settled b b x = x.or b := by
  by_cases h : b = x <;> simp [settled, h]

@[simp] theorem settled_theirs (b x : Option (Value ν)) : settled b x b = x.or b := by
  by_cases h : x = b <;> simp [settled, h]

omit [DecidableEq ν] in
theorem get_fill (x b : List (String × Value ν)) (k : String) :
    Assoc.get (fill x b) k = (Assoc.get x k).or (Assoc.get b k) := by
  induction b with
  | nil => simp [fill]
  | cons e b ih =>
    obtain ⟨j, v⟩ := e
    have hcons : fill x ((j, v) :: b) =
        if (Assoc.get x j).isSome then fill x b else Assoc.insert j v (fill x b) := rfl
    rw [hcons]
    split
    · rename_i hj
      rw [ih, Assoc.get_cons]
      split
      · rename_i hkj
        obtain ⟨u, hu⟩ := Option.isSome_iff_exists.mp hj
        simp [hkj, hu]
      · rfl
    · rename_i hj
      rw [Assoc.get_insert, Assoc.get_cons, ih]
      split
      · rename_i hkj
        rw [hkj, Option.not_isSome_iff_eq_none.mp hj]
        rfl
      · rfl

omit [DecidableEq ν] in
theorem sorted_fill {x b : List (String × Value ν)} (hx : Assoc.Sorted x) :
    Assoc.Sorted (fill x b) := by
  induction b with
  | nil => exact hx
  | cons e b ih =>
    have hcons : fill x (e :: b) =
        if (Assoc.get x e.1).isSome then fill x b else Assoc.insert e.1 e.2 (fill x b) := rfl
    rw [hcons]
    split
    · exact ih
    · exact ih.insert _ _

omit [DecidableEq ν] in
theorem getElem?_restore (x b : List (Value ν)) (i : Nat) :
    (x ++ b.drop x.length)[i]? = x[i]?.or b[i]? := by
  rcases Nat.lt_or_ge i x.length with hlt | hge
  · rw [List.getElem?_append_left hlt, List.getElem?_eq_getElem hlt]
    rfl
  · rw [List.getElem?_append_right hge, List.getElem?_drop, List.getElem?_eq_none hge,
      Option.none_or, Nat.add_sub_cancel' hge]

theorem merge_same (order : KeyOrder) (b x : JsonValue ν) :
    mergeValues order b.val x.val x.val = some x.val := by
  obtain ⟨b, hb⟩ := b
  obtain ⟨x, hx⟩ := x
  cases x with
  | scalar s =>
    cases b <;> simp [mergeValues]
  | array xs =>
    cases b with
    | array bs => exact mergeValues_array order (by omega) (fun _ => .inl rfl) fun i => by simp
    | scalar _ | object _ => simp [mergeValues]
  | object xs =>
    cases b with
    | object bs => exact mergeValues_object order hx.1 (fun _ => .inl rfl) fun k => by simp
    | scalar _ | array _ => simp [mergeValues]

theorem merge_ours_unchanged (order : KeyOrder) (b x : JsonValue ν) :
    mergeValues order b.val b.val x.val = some (restore b.val x.val) := by
  obtain ⟨b, hb⟩ := b
  obtain ⟨x, hx⟩ := x
  cases b with
  | scalar s => cases x <;> simp [mergeValues, restore]
  | array bs =>
    cases x with
    | array xs =>
      refine mergeValues_array order ?_ (fun _ => .inr (.inl rfl)) fun i => ?_
      · simp only [List.length_append, List.length_drop]
        omega
      · rw [settled_ours, getElem?_restore]
    | scalar _ | object _ => simp [mergeValues, restore]
  | object bs =>
    cases x with
    | object xs =>
      refine mergeValues_object order (sorted_fill hx.1) (fun _ => .inr (.inl rfl)) fun k => ?_
      rw [settled_ours, get_fill]
    | scalar _ | array _ => simp [mergeValues, restore]

theorem merge_theirs_unchanged (order : KeyOrder) (b x : JsonValue ν) :
    mergeValues order b.val x.val b.val = some (restore b.val x.val) := by
  obtain ⟨b, hb⟩ := b
  obtain ⟨x, hx⟩ := x
  cases b with
  | scalar s => cases x <;> simp +contextual [mergeValues, restore]
  | array bs =>
    cases x with
    | array xs =>
      refine mergeValues_array order ?_ (fun _ => .inr (.inr rfl)) fun i => ?_
      · simp only [List.length_append, List.length_drop]
        omega
      · rw [settled_theirs, getElem?_restore]
    | scalar _ | object _ => simp [mergeValues, restore]
  | object bs =>
    cases x with
    | object xs =>
      refine mergeValues_object order (sorted_fill hx.1) (fun _ => .inr (.inr rfl)) fun k => ?_
      rw [settled_theirs, get_fill]
    | scalar _ | array _ => simp [mergeValues, restore]

omit [DecidableEq ν] in
theorem restore_eq_iff (b x : JsonValue ν) : restore b.val x.val = x.val ↔ Covers x.val b.val := by
  obtain ⟨b, hb⟩ := b
  obtain ⟨x, hx⟩ := x
  cases b with
  | scalar s => simp [restore, Covers]
  | array bs =>
    cases x with
    | array xs => simp [restore, Covers, List.drop_eq_nil_iff]
    | scalar _ | object _ => simp [restore, Covers]
  | object bs =>
    cases x with
    | object xs =>
      simp only [restore, Covers, Value.object.injEq]
      constructor
      · intro h k hk
        have hget := get_fill xs bs k
        rwa [h, hk, Option.none_or, eq_comm] at hget
      · intro h
        refine (sorted_fill hx.1).ext hx.1 fun k => ?_
        rw [get_fill]
        cases hk : Assoc.get xs k with
        | none => simp [h k hk]
        | some v => rfl
    | scalar _ | array _ => simp [restore, Covers]

/-- A side that changed nothing brings back only what the other removed at the top. -/
theorem merge_identity (order : KeyOrder) (b x : JsonValue ν) :
    mergeValues order b.val x.val x.val = some x.val ∧
      mergeValues order b.val b.val x.val = some (restore b.val x.val) ∧
      mergeValues order b.val x.val b.val = some (restore b.val x.val) ∧
      (restore b.val x.val = x.val ↔ Covers x.val b.val) :=
  ⟨merge_same order b x, merge_ours_unchanged order b x, merge_theirs_unchanged order b x,
    restore_eq_iff b x⟩

/-- A key that one side deleted comes back. -/
theorem deleted_key_returns : ¬ ∀ (order : KeyOrder) (b x : JsonValue Nat),
    mergeValues order b.val x.val b.val = some x.val := by
  intro h
  let base : JsonValue Nat := ⟨.object [("a", .scalar (.number 1))],
    by simp [Value.Ordered, Value.OrderedEntries, Assoc.Sorted]⟩
  let ours : JsonValue Nat := ⟨.object [], by simp [Value.Ordered, Value.OrderedEntries, Assoc.Sorted]⟩
  have hmerge := h ⟨id, fun _ => .refl _⟩ base ours
  rw [merge_theirs_unchanged, Option.some.injEq, restore_eq_iff] at hmerge
  exact absurd (hmerge "a" rfl) (by decide)

end Laws
end Suture.Driver
