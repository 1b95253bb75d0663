import Mathlib.Data.List.Nodup
import Mathlib.Data.String.Basic
import Suture.Foundation.SortedSet

/-!
# Paths and the places they lead to

A path is a text. It leads from a directory to a place by its components: empty ones and `.`
stay, `..` goes up, and any other is a name. The names of a place are such names, by its type.
A walk goes through the directories, and lists the files that it finds.
-/

namespace Suture.Foundation
set_option autoImplicit false

def IsName (name : String) : Prop := name ≠ "" ∧ name ≠ "." ∧ name ≠ ".."
deriving Decidable

/-- The names that lead to a place from the root. -/
@[ext] structure Place where
  names : List String
  isName : ∀ name ∈ names, IsName name

namespace Place

def root : Place := ⟨[], nofun⟩

/-- There is nothing above the root. -/
def parent (place : Place) : Place :=
  ⟨place.names.dropLast, fun name h => place.isName name ((List.dropLast_sublist _).subset h)⟩

def child (place : Place) (name : String) (h : IsName name) : Place :=
  ⟨place.names ++ [name], fun other hother => by
    rcases List.mem_append.mp hother with hold | hnew
    · exact place.isName other hold
    · rwa [List.mem_singleton.mp hnew]⟩

def enter (place : Place) (component : String) : Place :=
  if h : IsName component then place.child component h
  else if component = ".." then place.parent else place

theorem enter_name (place : Place) {name : String} (h : IsName name) :
    (place.enter name).names = place.names ++ [name] := by
  rw [enter, dif_pos h]
  rfl

theorem enter_stay (place : Place) {component : String} (h : component = "" ∨ component = ".") :
    place.enter component = place := by
  rcases h with rfl | rfl <;> rfl

theorem enter_up (place : Place) : place.enter ".." = place.parent := rfl

@[simp] theorem names_parent (place : Place) : place.parent.names = place.names.dropLast := rfl

/-- A place below names that are not all names does not exist. -/
theorem not_below {place : Place} {names : List String} {name : String} (hmem : name ∈ names)
    (h : ¬ IsName name) : ¬ names <+: place.names :=
  fun hpart => h (place.isName name (hpart.subset hmem))

end Place

namespace Path

def isAbsolute (path : String) : Bool := "/".toList.isPrefixOf path.toList

def components (path : String) : List String := (path.toList.splitOn '/').map String.ofList

/-- Where a path leads from a directory. -/
def resolve (cwd : Place) (path : String) : Place :=
  (components path).foldl Place.enter (if isAbsolute path then .root else cwd)

/-- An absolute path replaces the one before; else there is a separator between the two. -/
def join (base path : String) : String :=
  if isAbsolute path then path
  else if base = "" ∨ base.toList.getLast? = some '/' then base ++ path
  else base ++ "/" ++ path

theorem isAbsolute_append {base : String} (h : base ≠ "") (path : String) :
    isAbsolute (base ++ path) = isAbsolute base := by
  unfold isAbsolute
  rw [String.toList_append]
  cases hbase : base.toList with
  | nil => exact absurd (String.toList_eq_nil_iff.mp hbase) h
  | cons c rest => rfl

theorem not_isAbsolute {path : String} (h : '/' ∉ path.toList) : isAbsolute path = false := by
  unfold isAbsolute
  cases hpath : path.toList with
  | nil => rfl
  | cons c rest =>
    rw [hpath] at h
    have hc : ¬ '/' = c := fun heq => h (heq ▸ List.mem_cons_self ..)
    simp [List.isPrefixOf, hc]

theorem components_single {path : String} (h : '/' ∉ path.toList) : components path = [path] := by
  rw [components, List.splitOn_eq_singleton h, List.map_singleton, String.ofList_toList]

theorem components_separated (base path : String) :
    components (base ++ "/" ++ path) = components base ++ components path := by
  unfold components
  rw [String.toList_append, String.toList_append, List.append_assoc]
  exact (congrArg _ (List.splitOn_append_cons_self ..)).trans List.map_append

theorem resolve_separated {base path : String} (hbase : base ≠ "") (h : '/' ∉ path.toList)
    (cwd : Place) : resolve cwd (base ++ "/" ++ path) = (resolve cwd base).enter path := by
  unfold resolve
  rw [String.append_assoc, isAbsolute_append hbase, ← String.append_assoc, components_separated,
    components_single h, List.foldl_append]
  rfl

/-- After a separator, what follows is entered. -/
theorem resolve_slash {base before path : String} (hbase : base = before ++ "/")
    (h : '/' ∉ path.toList) (cwd : Place) :
    resolve cwd (base ++ path) = (resolve cwd base).enter path := by
  have hne : base ≠ "" := by
    rintro rfl
    have hlength : 0 = (before ++ "/").length := congrArg String.length hbase
    rw [String.length_append, show "/".length = 1 from rfl] at hlength
    omega
  have hcomponents : components base = components before ++ [""] := by
    have hsplit := components_separated before ""
    rwa [show components "" = [""] from rfl, String.append_empty, ← hbase] at hsplit
  unfold resolve
  rw [isAbsolute_append hne, hcomponents, hbase, components_separated, components_single h,
    List.foldl_append, List.foldl_append]
  rfl

/-- A component that is joined is entered. -/
theorem resolve_join (cwd : Place) (base : String) {path : String} (h : '/' ∉ path.toList) :
    resolve cwd (join base path) = (resolve cwd base).enter path := by
  unfold join
  rw [not_isAbsolute h, if_neg Bool.false_ne_true]
  split
  · rename_i hjoin
    rcases hjoin with rfl | hlast
    · unfold resolve
      rw [String.empty_append, not_isAbsolute h, components_single h]
      rfl
    · obtain ⟨before, hbefore⟩ := List.getLast?_eq_some_iff.mp hlast
      have hbase : base = String.ofList before ++ "/" := by
        apply String.toList_injective
        rw [hbefore, String.toList_append, String.toList_ofList]
        rfl
      exact resolve_slash hbase h cwd
  · rename_i hjoin
    exact resolve_separated (fun hempty => hjoin (.inl hempty)) h cwd

end Path

/-! ### Walks -/

namespace Walk
variable {α : Type} [LinearOrder α] {files : List (List α)} {skip : List α → Bool}
  {dir path : List α} {depth : Nat}

/-- The names in a directory, in order. -/
def namesIn (files : List (List α)) (dir : List α) : List α :=
  (SortedSet.ofList (files.filterMap fun file =>
    if dir <+: file then file[dir.length]? else none)).elems

def isDir (files : List (List α)) (path : List α) : Bool :=
  files.any fun file => decide (path <+: file ∧ path ≠ file)

/-- The files below a directory, but those that are skipped or in a directory that is. -/
def walk (files : List (List α)) (skip : List α → Bool) : Nat → List α → List (List α)
  | 0, _ => []
  | depth + 1, dir => (namesIn files dir).flatMap fun name =>
      if skip (dir ++ [name]) then []
      else if isDir files (dir ++ [name]) then walk files skip depth (dir ++ [name])
      else [dir ++ [name]]

/-- No file is a directory too. -/
def Apart (files : List (List α)) : Prop :=
  ∀ file ∈ files, ∀ other ∈ files, file <+: other → file = other

theorem mem_namesIn {name : α} :
    name ∈ namesIn files dir ↔ ∃ file ∈ files, dir ++ [name] <+: file := by
  rw [namesIn, ← SortedSet.mem_def, SortedSet.mem_ofList, List.mem_filterMap]
  refine exists_congr fun file => and_congr_right fun _ => ?_
  constructor
  · intro h
    split at h
    · rename_i hdir
      obtain ⟨rest, rfl⟩ := hdir
      cases rest with
      | nil => simp at h
      | cons c rest =>
        obtain rfl : c = name := by simpa using h
        exact ⟨rest, by simp⟩
    · cases h
  · rintro ⟨rest, rfl⟩
    rw [List.append_assoc, if_pos (List.prefix_append ..)]
    simp

theorem isDir_iff : isDir files path = true ↔ ∃ file ∈ files, path <+: file ∧ path ≠ file := by
  simp [isDir]

theorem isDir_eq_false_iff :
    isDir files path = false ↔ ∀ file ∈ files, path <+: file → path = file := by
  rw [← Bool.not_eq_true, isDir_iff]
  constructor
  · intro h file hfile hprefix
    by_contra hne
    exact h ⟨file, hfile, hprefix, hne⟩
  · rintro h ⟨file, hfile, hprefix, hne⟩
    exact hne (h file hfile hprefix)

omit [LinearOrder α] in
theorem skip_of_prefix {name : α} (hname : skip (dir ++ [name]) = false)
    (hrest : ∀ front, front <+: path → (dir ++ [name]).length < front.length → skip front = false)
    (hpath : dir ++ [name] <+: path) {front : List α} (hfront : front <+: path)
    (hlength : dir.length < front.length) : skip front = false := by
  rcases Nat.lt_or_ge (dir ++ [name]).length front.length with hlt | hge
  · exact hrest front hfront hlt
  · have hsame : front = dir ++ [name] := by
      have hshort := List.prefix_of_prefix_length_le hfront hpath hge
      exact hshort.eq_of_length (by simp at hge ⊢; omega)
    rwa [hsame]

/-- The walk lists the files below the directory, of which no part is skipped. -/
theorem mem_walk (hapart : Apart files) (hdepth : ∀ file ∈ files, file.length ≤ dir.length + depth) :
    path ∈ walk files skip depth dir ↔ path ∈ files ∧ (dir <+: path ∧ dir ≠ path) ∧
      ∀ front, front <+: path → dir.length < front.length → skip front = false := by
  induction depth generalizing dir with
  | zero =>
    refine ⟨nofun, fun ⟨hpath, ⟨hdir, hne⟩, _⟩ => absurd ?_ hne⟩
    exact hdir.eq_of_length (Nat.le_antisymm hdir.length_le (hdepth path hpath))
  | succ depth ih =>
    have ih := fun name : α => @ih (dir ++ [name]) fun file hfile => by
      have := hdepth file hfile
      simp
      omega
    rw [walk, List.mem_flatMap]
    constructor
    · rintro ⟨name, hname, h⟩
      split_ifs at h with hskip hdir
      · cases h
      · obtain ⟨hpath, ⟨hbelow, -⟩, hrest⟩ := (ih name).mp h
        refine ⟨hpath, ⟨(List.prefix_append ..).trans hbelow, ?_⟩, fun front =>
          skip_of_prefix (Bool.eq_false_iff.mpr hskip) hrest hbelow⟩
        rintro rfl
        have := hbelow.length_le
        simp at this
      · obtain rfl := List.mem_singleton.mp h
        obtain ⟨file, hfile, hbelow⟩ := mem_namesIn.mp hname
        have hsame := isDir_eq_false_iff.mp (Bool.eq_false_iff.mpr hdir) file hfile hbelow
        refine ⟨hsame ▸ hfile, ⟨List.prefix_append .., by simp⟩, fun front =>
          skip_of_prefix (Bool.eq_false_iff.mpr hskip) (fun front hfront hlt => ?_) (List.prefix_refl _)⟩
        exact absurd hfront.length_le (Nat.not_le.mpr hlt)
    · rintro ⟨hpath, ⟨⟨rest, rfl⟩, hne⟩, hskip⟩
      cases rest with
      | nil => exact absurd (List.append_nil dir).symm hne
      | cons name rest =>
        have hbelow : dir ++ [name] <+: dir ++ name :: rest := ⟨rest, by simp⟩
        refine ⟨name, mem_namesIn.mpr ⟨_, hpath, hbelow⟩, ?_⟩
        rw [if_neg (by rw [hskip _ hbelow (by simp)]; exact Bool.false_ne_true)]
        split
        · rename_i hdir
          obtain ⟨file, hfile, hpart, hother⟩ := isDir_iff.mp hdir
          refine (ih name).mpr ⟨hpath, ⟨hbelow, ?_⟩, fun front hfront hlt =>
            hskip front hfront (by simp at hlt; omega)⟩
          intro hsame
          rw [hsame] at hpart hother
          exact hother (hapart _ hpath _ hfile hpart)
        · rename_i hdir
          rw [← isDir_eq_false_iff.mp (Bool.eq_false_iff.mpr hdir) _ hpath hbelow]
          exact List.mem_singleton_self _

end Walk
end Suture.Foundation
