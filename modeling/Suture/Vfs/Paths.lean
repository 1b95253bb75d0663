import Mathlib.Data.List.Basic
import Mathlib.Data.List.Infix
import Mathlib.Data.List.TakeWhile
import Mathlib.Data.String.Basic

/-!
# Paths of the mounted tree

Paths are strings with slashes. The directories of a path are its prefixes that end before a
slash. A name ending in `.d` is taken for the marker of a directory that `mkdir` made.
-/

namespace Suture.Vfs
set_option autoImplicit false

/-- A name as the kernel passes it. -/
structure FileName where
  text : String
  nonempty : text ≠ ""
  noSlash : '/' ∉ text.toList

/-- The prefixes before each of the slashes. -/
def slashPrefixes : List Char → List (List Char)
  | [] => []
  | c :: cs => (if c = '/' then [[]] else []) ++ (slashPrefixes cs).map (c :: ·)

def dirsOf (path : String) : List String := (slashPrefixes path.toList).map String.ofList

/-- The path up to its last slash. -/
def parentOf (path : String) : Option String := (dirsOf path).getLast?

/-- What comes after the last slash. -/
def nameOf (path : String) : String :=
  String.ofList (path.toList.reverse.takeWhile fun c => decide (c ≠ '/')).reverse

def join (parent : String) (name : FileName) : String :=
  if parent = "" then name.text else parent ++ "/" ++ name.text

def endsWithD (path : String) : Bool := ".d".toList.isSuffixOf path.toList

def stripD (path : String) : String :=
  if endsWithD path then String.ofList path.toList.dropLast.dropLast else path

def marker (dir : String) : String := dir ++ ".d"

theorem mem_slashPrefixes {d cs : List Char} :
    d ∈ slashPrefixes cs ↔ ∃ rest, cs = d ++ '/' :: rest := by
  induction cs generalizing d with
  | nil => simp [slashPrefixes]
  | cons c cs ih =>
    rw [slashPrefixes, List.mem_append, List.mem_map]
    constructor
    · rintro (h | ⟨e, he, rfl⟩)
      · split at h
        · rename_i hc
          rw [List.mem_singleton.mp h, hc]
          exact ⟨cs, rfl⟩
        · cases h
      · obtain ⟨rest, rfl⟩ := ih.mp he
        exact ⟨rest, rfl⟩
    · rintro ⟨rest, h⟩
      cases d with
      | nil =>
        obtain ⟨rfl, -⟩ := List.cons.inj h
        exact .inl (by simp)
      | cons c' d =>
        obtain ⟨rfl, hcs⟩ := List.cons.inj h
        exact .inr ⟨d, ih.mpr ⟨rest, hcs⟩, rfl⟩

theorem mem_dirsOf {d path : String} :
    d ∈ dirsOf path ↔ ∃ rest, path.toList = d.toList ++ '/' :: rest := by
  rw [dirsOf, List.mem_map]
  constructor
  · rintro ⟨cs, hcs, rfl⟩
    simpa using mem_slashPrefixes.mp hcs
  · intro h
    exact ⟨d.toList, mem_slashPrefixes.mpr h, by simp⟩

theorem dirsOf_trans {d e path : String} (hde : d ∈ dirsOf e) (he : e ∈ dirsOf path) :
    d ∈ dirsOf path := by
  obtain ⟨rest, hd⟩ := mem_dirsOf.mp hde
  obtain ⟨rest', he⟩ := mem_dirsOf.mp he
  exact mem_dirsOf.mpr ⟨rest ++ '/' :: rest', by rw [he, hd]; simp⟩

theorem slashPrefixes_of_noSlash {cs : List Char} (h : '/' ∉ cs) : slashPrefixes cs = [] := by
  rw [List.eq_nil_iff_forall_not_mem]
  intro d hd
  obtain ⟨rest, hcs⟩ := mem_slashPrefixes.mp hd
  exact h (hcs ▸ by simp)

theorem dirsOf_of_noSlash {path : String} (h : '/' ∉ path.toList) : dirsOf path = [] := by
  rw [dirsOf, slashPrefixes_of_noSlash h]
  rfl

theorem slashPrefixes_append (cs ds : List Char) :
    slashPrefixes (cs ++ ds) = slashPrefixes cs ++ (slashPrefixes ds).map (cs ++ ·) := by
  induction cs with
  | nil => simp [slashPrefixes]
  | cons c cs ih =>
    rw [List.cons_append, slashPrefixes, slashPrefixes, ih, List.map_append, List.map_map,
      List.append_assoc]
    rfl

theorem dirsOf_append (path suffix : String) :
    dirsOf (path ++ suffix) = dirsOf path ++ (dirsOf suffix).map (path ++ ·) := by
  unfold dirsOf
  rw [String.toList_append, slashPrefixes_append, List.map_append, List.map_map, List.map_map]
  congr 1
  refine List.map_congr_left fun cs _ => ?_
  apply String.toList_injective
  simp

theorem dirsOf_marker (dir : String) : dirsOf (marker dir) = dirsOf dir := by
  rw [marker, dirsOf_append, show dirsOf ".d" = [] from rfl]
  simp

theorem dirsOf_join {parent : String} (name : FileName) :
    dirsOf (join parent name) = if parent = "" then [] else dirsOf parent ++ [parent] := by
  unfold join
  split
  · exact dirsOf_of_noSlash name.noSlash
  · rw [dirsOf_append, dirsOf_append, dirsOf_of_noSlash name.noSlash,
      show dirsOf "/" = [""] from rfl]
    simp

/-! ### Last names -/

theorem exists_last_slash (cs : List Char) :
    '/' ∉ cs ∨ ∃ d name, cs = d ++ '/' :: name ∧ '/' ∉ name := by
  induction cs with
  | nil => exact .inl List.not_mem_nil
  | cons c cs ih =>
    rcases ih with h | ⟨d, name, rfl, hname⟩
    · by_cases hc : c = '/'
      · exact .inr ⟨[], cs, by rw [hc]; rfl, h⟩
      · exact .inl (by simp [h, Ne.symm hc])
    · exact .inr ⟨c :: d, name, rfl, hname⟩

theorem parentOf_nameOf_of_noSlash {path : String} (h : '/' ∉ path.toList) :
    parentOf path = none ∧ nameOf path = path := by
  refine ⟨by rw [parentOf, dirsOf_of_noSlash h]; rfl, ?_⟩
  have hall : path.toList.reverse.takeWhile (fun c => decide (c ≠ '/')) = path.toList.reverse := by
    rw [List.takeWhile_eq_self_iff]
    exact fun c hc => decide_eq_true fun heq => h (heq ▸ List.mem_reverse.mp hc)
  rw [nameOf, hall, List.reverse_reverse, String.ofList_toList]

theorem parentOf_nameOf_append {path : String} {d name : List Char}
    (hpath : path.toList = d ++ '/' :: name) (hname : '/' ∉ name) :
    parentOf path = some (String.ofList d) ∧ nameOf path = String.ofList name := by
  constructor
  · rw [parentOf, dirsOf, hpath, slashPrefixes_append, slashPrefixes, slashPrefixes_of_noSlash hname]
    simp
  · have hwhile : (name.reverse ++ '/' :: d.reverse).takeWhile (fun c => decide (c ≠ '/')) =
        name.reverse := by
      have hall : ∀ c ∈ name.reverse, decide (c ≠ '/') = true := fun c hc =>
        decide_eq_true fun heq => hname (heq ▸ List.mem_reverse.mp hc)
      rw [List.takeWhile_append_of_pos hall]
      simp
    rw [nameOf, hpath, List.reverse_append, List.reverse_cons, List.append_assoc,
      List.singleton_append, hwhile, List.reverse_reverse]

theorem path_ext {p q : String} (hparent : parentOf p = parentOf q) (hname : nameOf p = nameOf q) :
    p = q := by
  rcases exists_last_slash p.toList with hp | ⟨d, name, hp, hslash⟩ <;>
    rcases exists_last_slash q.toList with hq | ⟨d', name', hq, hslash'⟩
  · obtain ⟨-, hpn⟩ := parentOf_nameOf_of_noSlash hp
    obtain ⟨-, hqn⟩ := parentOf_nameOf_of_noSlash hq
    rw [← hpn, ← hqn, hname]
  · rw [(parentOf_nameOf_of_noSlash hp).1, (parentOf_nameOf_append hq hslash').1] at hparent
    cases hparent
  · rw [(parentOf_nameOf_of_noSlash hq).1, (parentOf_nameOf_append hp hslash).1] at hparent
    cases hparent
  · obtain ⟨hpp, hpn⟩ := parentOf_nameOf_append hp hslash
    obtain ⟨hqp, hqn⟩ := parentOf_nameOf_append hq hslash'
    rw [hpp, hqp] at hparent
    rw [hpn, hqn] at hname
    apply String.toList_injective
    rw [hp, hq, String.ofList_injective (Option.some.inj hparent), String.ofList_injective hname]

theorem mem_dirsOf_of_parentOf {path d : String} (h : parentOf path = some d) : d ∈ dirsOf path :=
  List.mem_of_getLast? h

theorem parentOf_ne {path d : String} (h : parentOf path = some d) : d ≠ path := by
  rintro rfl
  obtain ⟨rest, hrest⟩ := mem_dirsOf.mp (mem_dirsOf_of_parentOf h)
  have hlength := congrArg List.length hrest
  simp at hlength

/-- Relative paths with one parent and one name are the same. -/
theorem path_ext_of_relative {p q : String} (hp : "" ∉ dirsOf p) (hq : "" ∉ dirsOf q)
    (hparent : (parentOf p).getD "" = (parentOf q).getD "") (hname : nameOf p = nameOf q) : p = q := by
  refine path_ext ?_ hname
  cases hpp : parentOf p with
  | none =>
    cases hqp : parentOf q with
    | none => rfl
    | some d =>
      rw [hpp, hqp] at hparent
      change "" = d at hparent
      exact absurd (hparent ▸ mem_dirsOf_of_parentOf hqp) hq
  | some d =>
    cases hqp : parentOf q with
    | none =>
      rw [hpp, hqp] at hparent
      change d = "" at hparent
      exact absurd (hparent ▸ mem_dirsOf_of_parentOf hpp) hp
    | some d' =>
      rw [hpp, hqp] at hparent
      exact congrArg some hparent

theorem stripD_of_not_endsWithD {path : String} (h : endsWithD path = false) :
    stripD path = path := by rw [stripD, h]; rfl

theorem endsWithD_marker (dir : String) : endsWithD (marker dir) = true := by
  simp [endsWithD, marker]

theorem stripD_marker (dir : String) : stripD (marker dir) = dir := by
  rw [stripD, if_pos (endsWithD_marker dir), marker]
  apply String.toList_injective
  simp

end Suture.Vfs
