import Mathlib.Data.List.DropRight
import Suture.Driver.Differences

/-!
# Addresses of the JSON diff

A key is escaped and put after a slash, except that the root's own slash stands for the
whole prefix. Since an empty key at the root gives the root's address again, empty keys at
the start of a location leave no trace. Nothing else is lost.
-/

namespace Suture.Driver
set_option autoImplicit false

/-! ### The strings of the source -/

/-- Puts `str` in the place of every `c`. -/
def replaceChar (c : Char) (str s : String) : String :=
  String.ofList (s.toList.flatMap fun x => if x = c then str.toList else [x])

def jsonPointerEscape (s : String) : String := replaceChar '/' "~1" (replaceChar '~' "~0" s)

def jsonPaths : Paths String where
  childPath parent key :=
    let escaped := jsonPointerEscape key
    if parent = "/" then "/" ++ escaped else parent ++ "/" ++ escaped
  itemPath path i := path ++ "/" ++ toString i

/-- The address that the diff from the root gives a location. -/
def pointer (loc : List Step) : String := loc.foldl jsonPaths.step "/"

/-! ### Escaping -/

def escapeChar (x : Char) : List Char :=
  if x = '~' then ['~', '0'] else if x = '/' then ['~', '1'] else [x]

theorem toList_escape (s : String) :
    (jsonPointerEscape s).toList = s.toList.flatMap escapeChar := by
  simp only [jsonPointerEscape, replaceChar, String.toList_ofList, List.flatMap_assoc]
  apply List.flatMap_congr
  intro x _
  by_cases htilde : x = '~'
  · subst x
    decide
  · by_cases hslash : x = '/'
    · subst x
      decide
    · simp [escapeChar, htilde, hslash]

theorem slash_not_mem_escapeChar (x : Char) : '/' ∉ escapeChar x := by
  unfold escapeChar
  split_ifs with htilde hslash
  · decide
  · decide
  · simpa using Ne.symm hslash

theorem slash_not_mem_escape (s : String) : '/' ∉ (jsonPointerEscape s).toList := by
  rw [toList_escape, List.mem_flatMap]
  intro ⟨x, _, hx⟩
  exact slash_not_mem_escapeChar x hx

theorem flatMap_escapeChar_inj {s t : List Char}
    (h : s.flatMap escapeChar = t.flatMap escapeChar) : s = t := by
  induction s generalizing t with
  | nil =>
    cases t with
    | nil => rfl
    | cons y t =>
      rw [List.flatMap_nil, List.flatMap_cons] at h
      unfold escapeChar at h
      split_ifs at h <;> cases h
  | cons x s ih =>
    cases t with
    | nil =>
      rw [List.flatMap_nil, List.flatMap_cons] at h
      unfold escapeChar at h
      split_ifs at h <;> cases h
    | cons y t =>
      rw [List.flatMap_cons, List.flatMap_cons] at h
      have hhead : x = y ∧ s.flatMap escapeChar = t.flatMap escapeChar := by
        rw [escapeChar.eq_def x, escapeChar.eq_def y] at h
        grind
      rw [hhead.1, ih hhead.2]

theorem escape_eq_empty_iff {s : String} : jsonPointerEscape s = "" ↔ s = "" := by
  rw [← String.toList_inj, ← String.toList_inj, toList_escape]
  constructor
  · intro h
    exact flatMap_escapeChar_inj h
  · intro h
    rw [h]
    rfl

/-! ### Addresses as lists of names -/

/-- The part of an address that a step contributes. -/
def Step.written : Step → List Char
  | .key k => (jsonPointerEscape k).toList
  | .index i => (toString i).toList

def Step.name : Step → String
  | .key k => k
  | .index i => toString i

/-- The names on the way to a location. Empty keys at the start are dropped, and a position
at the start follows an empty name. -/
def address : List Step → List String
  | [] => []
  | .key k :: rest => if k = "" then address rest else k :: rest.map Step.name
  | .index i :: rest => "" :: toString i :: rest.map Step.name

theorem toList_toString (i : Nat) : (toString i).toList = Nat.toDigits 10 i := by
  rw [Nat.toString_eq_ofList_toDigits, String.toList_ofList]

theorem escape_toString (i : Nat) : jsonPointerEscape (toString i) = toString i := by
  rw [← String.toList_inj, toList_escape, toList_toString]
  have hplain : ∀ x ∈ Nat.toDigits 10 i, escapeChar x = [x] := by
    intro x hx
    have hdigit := Nat.isDigit_of_mem_toDigits (by decide) (by decide) hx
    unfold escapeChar
    split_ifs with htilde hslash
    · subst x
      cases hdigit
    · subst x
      cases hdigit
    · rfl
  rw [List.flatMap_congr hplain, List.flatMap_singleton']

theorem written_eq (s : Step) : s.written = (jsonPointerEscape s.name).toList := by
  cases s with
  | key k => rfl
  | index i => rw [Step.name, escape_toString, Step.written]

/-- Each name after a slash. -/
def joined (names : List String) : List Char :=
  names.flatMap fun name => '/' :: (jsonPointerEscape name).toList

theorem takeWhile_joined (s : String) (names : List String) :
    ((jsonPointerEscape s).toList ++ joined names).takeWhile (· ≠ '/') =
      (jsonPointerEscape s).toList := by
  rw [List.takeWhile_append_of_pos]
  · have hstop : (joined names).takeWhile (· ≠ '/') = [] := by
      cases names with
      | nil => rfl
      | cons name names => simp [joined]
    rw [hstop, List.append_nil]
  · intro x hx
    have hne : x ≠ '/' := fun h => slash_not_mem_escape s (h ▸ hx)
    simpa using hne

theorem joined_inj {names names' : List String} (h : joined names = joined names') :
    names = names' := by
  induction names generalizing names' with
  | nil =>
    cases names' with
    | nil => rfl
    | cons name' names' => cases h
  | cons name names ih =>
    cases names' with
    | nil => cases h
    | cons name' names' =>
      have htail : (jsonPointerEscape name).toList ++ joined names =
          (jsonPointerEscape name').toList ++ joined names' := (List.cons.inj h).2
      have hname : (jsonPointerEscape name).toList = (jsonPointerEscape name').toList := by
        rw [← takeWhile_joined name names, htail, takeWhile_joined]
      rw [hname] at htail
      rw [toList_escape, toList_escape] at hname
      rw [String.toList_inj.mp (flatMap_escapeChar_inj hname), ih (List.append_cancel_left htail)]

/-- Below an address longer than the root's, each step appends its part. -/
theorem foldl_step_of_long (loc : List Step) {path : String} (hpath : 2 ≤ path.length) :
    (loc.foldl jsonPaths.step path).toList = path.toList ++ joined (loc.map Step.name) := by
  induction loc generalizing path with
  | nil => simp [joined]
  | cons s loc ih =>
    have hroot : path ≠ "/" := by
      intro h
      rw [h] at hpath
      revert hpath
      decide
    have hstep : (jsonPaths.step path s).toList = path.toList ++ '/' :: s.written := by
      cases s with
      | key k => simp [Paths.step, jsonPaths, hroot, Step.written]
      | index i => simp [Paths.step, jsonPaths, Step.written]
    have hlong : 2 ≤ (jsonPaths.step path s).length := by
      rw [← String.length_toList, hstep, List.length_append, List.length_cons, String.length_toList]
      omega
    rw [List.foldl_cons, ih hlong, hstep, written_eq]
    simp [joined]

theorem pointer_address (loc : List Step) :
    (pointer loc).toList = if address loc = [] then ['/'] else joined (address loc) := by
  induction loc with
  | nil => rfl
  | cons s rest ih =>
    cases s with
    | key k =>
      by_cases hk : k = ""
      · subst k
        exact ih
      · have hstep : jsonPaths.step "/" (.key k) = "/" ++ jsonPointerEscape k := rfl
        have hlong : 2 ≤ ("/" ++ jsonPointerEscape k).length := by
          have hne : (jsonPointerEscape k).toList ≠ [] := by
            intro h
            exact hk (escape_eq_empty_iff.mp (String.toList_inj.mp h))
          have := List.length_pos_iff.mpr hne
          rw [← String.length_toList, String.toList_append, List.length_append]
          change 2 ≤ 1 + _
          omega
        rw [pointer, List.foldl_cons, hstep, foldl_step_of_long rest hlong]
        simp [address, hk, joined]
    | index i =>
      have hstep : jsonPaths.step "/" (.index i) = "/" ++ "/" ++ toString i := rfl
      have hlong : 2 ≤ ("/" ++ "/" ++ toString i).length := by
        rw [← String.length_toList, String.toList_append, List.length_append]
        change 2 ≤ 2 + _
        omega
      have hempty : jsonPointerEscape "" = "" := rfl
      rw [pointer, List.foldl_cons, hstep, foldl_step_of_long rest hlong, address,
        if_neg (List.cons_ne_nil _ _)]
      simp only [joined, List.flatMap_cons, hempty, escape_toString, String.toList_append,
        List.append_assoc]
      rfl

theorem address_ne_empty_name (loc : List Step) : address loc ≠ [""] := by
  induction loc with
  | nil => exact List.cons_ne_nil _ _ |>.symm
  | cons s rest ih =>
    cases s with
    | key k =>
      rw [address]
      split_ifs with hk
      · exact ih
      · intro h
        exact hk (List.cons.inj h).1
    | index i =>
      intro h
      cases (List.cons.inj h).2

/-- Two locations are given the same string exactly when they have the same address. -/
theorem pointer_eq_iff {loc loc' : List Step} : pointer loc = pointer loc' ↔ address loc = address loc' := by
  have hroot : ['/'] = joined [""] := by decide
  rw [← String.toList_inj, pointer_address, pointer_address]
  constructor
  · intro h
    split_ifs at h with hl hl' hl'
    · rw [hl, hl']
    · exact absurd (joined_inj (hroot.symm.trans h)).symm (address_ne_empty_name loc')
    · exact absurd (joined_inj (h.trans hroot)) (address_ne_empty_name loc)
    · exact joined_inj h
  · intro h
    rw [h]

/-! ### What the addresses of a diff tell apart -/

section Diff
variable {ν : Type} [DecidableEq ν]

/-- The diff from the root, each change with its location besides its address. -/
def locatedDiff (order : KeyOrder) (text : Value ν → String) (old new : Value ν) :
    List (SemanticChange (List Step × String)) :=
  diffValues order text (Paths.locations.both jsonPaths) old new ([], "/")

/-- Without the locations it is the diff of the source. -/
theorem locatedDiff_mapPath (order : KeyOrder) (text : Value ν → String) (old new : Value ν) :
    (locatedDiff order text old new).map (.mapPath Prod.snd) =
      diffValues order text jsonPaths old new "/" := by
  apply diffValues_mapPath
  intro path s
  cases s <;> rfl

theorem mem_locatedDiff {order : KeyOrder} {text : Value ν → String} {old new : Value ν}
    {q : List Step × String} :
    (∃ c ∈ locatedDiff order text old new, c.path = q) ↔ Changed old new q.1 ∧ pointer q.1 = q.2 := by
  rw [locatedDiff, reported_iff]
  simp only [Paths.foldl_both, Paths.foldl_locations, List.nil_append]
  constructor
  · intro ⟨loc, hloc, hq⟩
    subst q
    exact ⟨hloc, rfl⟩
  · intro ⟨hloc, hq⟩
    exact ⟨q.1, hloc, Prod.ext rfl hq⟩

/-- Changes about different locations have different addresses. -/
def Unambiguous (changes : List (SemanticChange (List Step × String))) : Prop :=
  ∀ c ∈ changes, ∀ c' ∈ changes, c.path.1 ≠ c'.path.1 → c.path.2 ≠ c'.path.2

theorem unambiguous_locatedDiff {order : KeyOrder} {text : Value ν → String} {old new : Value ν} :
    Unambiguous (locatedDiff order text old new) ↔
      ∀ loc loc', Changed old new loc → Changed old new loc' → address loc = address loc' →
        loc = loc' := by
  constructor
  · intro h loc loc' hloc hloc' haddress
    obtain ⟨c, hc, hpath⟩ := mem_locatedDiff.mpr
      (⟨hloc, rfl⟩ : Changed old new (loc, pointer loc).1 ∧ pointer loc = (loc, pointer loc).2)
    obtain ⟨c', hc', hpath'⟩ := mem_locatedDiff.mpr
      (⟨hloc', rfl⟩ : Changed old new (loc', pointer loc').1 ∧ pointer loc' = (loc', pointer loc').2)
    by_contra hne
    refine h c hc c' hc' ?_ ?_
    · rw [hpath, hpath']
      exact hne
    · rw [hpath, hpath']
      exact pointer_eq_iff.mpr haddress
  · intro h c hc c' hc' hne heq
    obtain ⟨hloc, hp⟩ := mem_locatedDiff.mp ⟨c, hc, rfl⟩
    obtain ⟨hloc', hp'⟩ := mem_locatedDiff.mp ⟨c', hc', rfl⟩
    rw [← hp, ← hp'] at heq
    exact hne (h _ _ hloc hloc' (pointer_eq_iff.mp heq))

omit [DecidableEq ν] in
theorem name_inj {old new : Value ν} {s s' : Step} (hkind : SameKind old new)
    (hs : old.child s ≠ none ∨ new.child s ≠ none) (hs' : old.child s' ≠ none ∨ new.child s' ≠ none)
    (hname : s.name = s'.name) : s = s' := by
  cases hkind with
  | object old new =>
    cases s with
    | index i => simp [Value.child] at hs
    | key k =>
      cases s' with
      | index j => simp [Value.child] at hs'
      | key k' => exact congrArg Step.key hname
  | array old new =>
    cases s with
    | key k => simp [Value.child] at hs
    | index i =>
      cases s' with
      | key k' => simp [Value.child] at hs'
      | index j =>
        have hdigits : Nat.toDigits 10 i = Nat.toDigits 10 j := by
          rw [← toList_toString, ← toList_toString]
          exact congrArg String.toList hname
        have := congrArg (Nat.ofDigitChars 10 · 0) hdigits
        simp only [Nat.ofDigitChars_ten_toDigits] at this
        exact congrArg Step.index this

omit [DecidableEq ν] in
theorem Changed.head {old new : Value ν} {s : Step} {rest : List Step}
    (h : Changed old new (s :: rest)) : old.child s ≠ none ∨ new.child s ≠ none := by
  by_contra hnone
  push Not at hnone
  obtain ⟨_, h⟩ := h
  rw [hnone.1, hnone.2] at h
  exact h

omit [DecidableEq ν] in
/-- Changed locations with the same names are the same. -/
theorem Changed.eq_of_names {old new : Value ν} {loc loc' : List Step} (h : Changed old new loc)
    (h' : Changed old new loc') (hnames : loc.map Step.name = loc'.map Step.name) : loc = loc' := by
  induction loc generalizing old new loc' with
  | nil =>
    cases loc' with
    | nil => rfl
    | cons s' rest' => cases hnames
  | cons s rest ih =>
    cases loc' with
    | nil => cases hnames
    | cons s' rest' =>
      obtain ⟨hname, hrest⟩ := List.cons.inj hnames
      have hs : s = s' := name_inj h.1 h.head h'.head hname
      subst s'
      obtain ⟨-, h⟩ := h
      obtain ⟨-, h'⟩ := h'
      cases ho : old.child s with
      | none =>
        cases hn : new.child s with
        | none =>
          rw [ho, hn] at h
          exact h.elim
        | some nv =>
          rw [ho, hn] at h h'
          rw [h, h']
      | some ov =>
        cases hn : new.child s with
        | none =>
          rw [ho, hn] at h h'
          rw [h, h']
        | some nv =>
          rw [ho, hn] at h h'
          rw [ih h h' hrest]

omit [DecidableEq ν] in
/-- Where nothing changed under an empty key of the root, every address tells its location. -/
theorem Changed.eq_of_address {old new : Value ν} (hroot : ∀ rest, ¬ Changed old new (.key "" :: rest))
    {loc loc' : List Step} (h : Changed old new loc) (h' : Changed old new loc')
    (haddress : address loc = address loc') : loc = loc' := by
  have hnames : ∀ {l}, Changed old new l →
      address l = l.map Step.name ∧ (address l).head? ≠ some "" ∨
        address l = "" :: l.map Step.name := by
    intro l hl
    cases l with
    | nil => exact .inl ⟨rfl, Option.some_ne_none _ |>.symm⟩
    | cons s rest =>
      cases s with
      | index i => exact .inr rfl
      | key k =>
        have hk : k ≠ "" := by
          intro hk
          exact hroot rest (hk ▸ hl)
        exact .inl (by simp [address, hk, Step.name])
  rcases hnames h with ⟨hl, hhead⟩ | hl <;> rcases hnames h' with ⟨hl', hhead'⟩ | hl'
  · exact h.eq_of_names h' (hl.symm.trans (haddress.trans hl'))
  · exact absurd (by rw [haddress, hl']; rfl) hhead
  · exact absurd (by rw [← haddress, hl]; rfl) hhead'
  · exact h.eq_of_names h' (List.cons.inj (hl.symm.trans (haddress.trans hl'))).2

/-- The diff of two JSON documents reports nothing exactly when they are equal, and its
addresses tell the changes apart exactly when no two changed locations become the same by
losing the empty keys at their start. -/
theorem diff_tells_iff (order : KeyOrder) (text : Value ν → String) (old new : JsonValue ν) :
    ((diffValues order text jsonPaths old.val new.val "/" = [] ↔ old.val = new.val) ∧
        Unambiguous (locatedDiff order text old.val new.val)) ↔
      ∀ loc loc', Changed old.val new.val loc → Changed old.val new.val loc' →
        address loc = address loc' → loc = loc' := by
  rw [and_iff_right (diffValues_eq_nil_iff order text jsonPaths old new "/")]
  exact unambiguous_locatedDiff

/-- A key added under the empty key has the address of the same key added at the root. -/
theorem empty_key_collides : ¬ ∀ (order : KeyOrder) (text : Value Nat → String)
    (old new : JsonValue Nat),
    (diffValues order text jsonPaths old.val new.val "/" = [] ↔ old.val = new.val) ∧
      Unambiguous (locatedDiff order text old.val new.val) := by
  intro h
  let old : JsonValue Nat := ⟨.object [("", .object [])],
    by simp [Value.Ordered, Value.OrderedEntries, Foundation.Assoc.Sorted]⟩
  let new : JsonValue Nat := ⟨.object [("", .object [("a", .scalar .null)]), ("a", .scalar .null)],
    List.pairwise_pair.mpr (show "" < "a" by decide),
    ⟨List.pairwise_singleton _ _, trivial, trivial⟩, trivial, trivial⟩
  have hnested : Changed old.val new.val [.key "", .key "a"] :=
    ⟨.object _ _, .object _ _, rfl⟩
  have htop : Changed old.val new.val [.key "a"] := ⟨.object _ _, rfl⟩
  have hsame := unambiguous_locatedDiff.mp (h KeyOrder.asListed (fun _ => "") old new).2
    _ _ hnested htop (by decide)
  exact absurd hsame (by decide)

end Diff
end Suture.Driver
