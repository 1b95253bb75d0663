import Mathlib.Data.List.Sort
import Suture.Foundation.SortedMap
import Suture.Foundation.SortedSet
import Suture.Vfs.Paths

/-!
# Inode numbers and directory listings

A path gets the next number when it is first asked for, and keeps it for as long as the table
lives.
-/

namespace Suture.Vfs
set_option autoImplicit false
open Foundation

inductive InodeKind where
  | file
  | directory
deriving DecidableEq, Repr

structure InodeEntry where
  kind : InodeKind
  path : String
deriving DecidableEq, Repr

structure InodeGenerator where
  next : Nat
  entries : SortedMap Nat InodeEntry
  pathToInode : SortedMap String Nat
deriving DecidableEq

namespace InodeGenerator

def new : InodeGenerator := ⟨1, .empty, .empty⟩

def alloc (g : InodeGenerator) (path : String) (kind : InodeKind) : Nat × InodeGenerator :=
  match g.pathToInode.get path with
  | some inode => (inode, g)
  | none => (g.next, ⟨g.next + 1, g.entries.insert g.next ⟨kind, path⟩,
      g.pathToInode.insert path g.next⟩)

def allocFile (g : InodeGenerator) (path : String) : Nat × InodeGenerator := g.alloc path .file

def allocDir (g : InodeGenerator) (path : String) : Nat × InodeGenerator := g.alloc path .directory

def lookup (g : InodeGenerator) (path : String) : Option Nat := g.pathToInode.get path

def get (g : InodeGenerator) (inode : Nat) : Option InodeEntry := g.entries.get inode

def getPath (g : InodeGenerator) (inode : Nat) : Option String := (g.get inode).map InodeEntry.path

/-- One entry after the other. -/
def allocAll (g : InodeGenerator) (entries : List InodeEntry) : InodeGenerator :=
  entries.foldl (fun g e => (g.alloc e.path e.kind).2) g

/-- Numbers and paths belong to each other, and no number comes twice. -/
structure Ok (g : InodeGenerator) : Prop where
  entry : ∀ path inode, g.lookup path = some inode → ∃ kind, g.get inode = some ⟨kind, path⟩
  number : ∀ inode e, g.get inode = some e → g.lookup e.path = some inode
  below : ∀ inode e, g.get inode = some e → inode < g.next

def kindOf (g : InodeGenerator) (path : String) : Option InodeKind :=
  (g.lookup path).bind fun inode => (g.get inode).map InodeEntry.kind

theorem ok_new : new.Ok := ⟨nofun, nofun, nofun⟩

theorem alloc_of_some {g : InodeGenerator} {path : String} {inode : Nat}
    (h : g.lookup path = some inode) (kind : InodeKind) : g.alloc path kind = (inode, g) := by
  unfold lookup at h
  rw [alloc, h]

theorem alloc_of_none {g : InodeGenerator} {path : String} (h : g.lookup path = none)
    (kind : InodeKind) : g.alloc path kind = (g.next, ⟨g.next + 1,
      g.entries.insert g.next ⟨kind, path⟩, g.pathToInode.insert path g.next⟩) := by
  unfold lookup at h
  rw [alloc, h]

theorem lookup_alloc (g : InodeGenerator) (path q : String) (kind : InodeKind) :
    (g.alloc path kind).2.lookup q =
      if q = path then some ((g.lookup path).getD g.next) else g.lookup q := by
  cases h : g.lookup path with
  | some inode =>
    rw [alloc_of_some h]
    split
    · rename_i hq
      rw [hq, h]
      rfl
    · rfl
  | none =>
    rw [alloc_of_none h]
    exact SortedMap.get_insert ..

theorem fst_alloc (g : InodeGenerator) (path : String) (kind : InodeKind) :
    (g.alloc path kind).2.lookup path = some (g.alloc path kind).1 := by
  cases h : g.lookup path with
  | some inode => rw [alloc_of_some h, h]
  | none => rw [lookup_alloc, if_pos rfl, alloc_of_none h, h]; rfl

theorem get_alloc (g : InodeGenerator) (path : String) (kind : InodeKind) (inode : Nat) :
    (g.alloc path kind).2.get inode =
      if g.lookup path = none ∧ inode = g.next then some ⟨kind, path⟩ else g.get inode := by
  cases h : g.lookup path with
  | some inode' =>
    rw [alloc_of_some h]
    simp
  | none =>
    rw [alloc_of_none h]
    simp [get]

theorem Ok.alloc {g : InodeGenerator} (hg : g.Ok) (path : String) (kind : InodeKind) :
    (g.alloc path kind).2.Ok := by
  cases h : g.lookup path with
  | some inode =>
    rw [alloc_of_some h]
    exact hg
  | none =>
    have hlookup (q : String) := lookup_alloc g path q kind
    have hget (inode : Nat) := get_alloc g path kind inode
    rw [h] at hlookup hget
    simp only [true_and, Option.getD_none] at hlookup hget
    have hnext : (g.alloc path kind).2.next = g.next + 1 := by rw [alloc_of_none h]
    refine ⟨fun q inode hq => ?_, fun inode e he => ?_, fun inode e he => ?_⟩
    · rw [hlookup] at hq
      rw [hget]
      split at hq
      · rename_i hpath
        rw [hpath, if_pos (Option.some.inj hq).symm]
        exact ⟨kind, rfl⟩
      · obtain ⟨k, hk⟩ := hg.entry q inode hq
        rw [if_neg (hg.below _ _ hk).ne]
        exact ⟨k, hk⟩
    · rw [hget] at he
      rw [hlookup]
      split at he
      · rename_i hinode
        cases he
        rw [if_pos rfl, hinode]
      · have hpath := hg.number inode e he
        rw [if_neg, hpath]
        rintro heq
        rw [heq, h] at hpath
        cases hpath
    · rw [hget] at he
      rw [hnext]
      split at he
      · omega
      · exact (hg.below inode e he).trans (Nat.lt_succ_self _)

theorem Ok.get_alloc_of_some {g : InodeGenerator} (hg : g.Ok) {inode : Nat} {e : InodeEntry}
    (he : g.get inode = some e) (path : String) (kind : InodeKind) :
    (g.alloc path kind).2.get inode = some e := by
  rw [get_alloc, if_neg fun h => (hg.below inode e he).ne h.2, he]

theorem Ok.allocAll {g : InodeGenerator} (hg : g.Ok) (es : List InodeEntry) :
    (g.allocAll es).Ok := by
  induction es generalizing g with
  | nil => exact hg
  | cons e es ih => exact ih (hg.alloc e.path e.kind)

/-- A number that is given keeps its entry. -/
theorem Ok.get_allocAll {g : InodeGenerator} (hg : g.Ok) {inode : Nat} {e : InodeEntry}
    (he : g.get inode = some e) (es : List InodeEntry) : (g.allocAll es).get inode = some e := by
  induction es generalizing g with
  | nil => exact he
  | cons e' es ih => exact ih (hg.alloc ..) (hg.get_alloc_of_some he ..)

theorem Ok.kindOf_eq_some {g : InodeGenerator} (hg : g.Ok) {path : String} {kind : InodeKind} :
    g.kindOf path = some kind ↔ ∃ inode, g.lookup path = some inode ∧
      g.get inode = some ⟨kind, path⟩ := by
  unfold kindOf
  constructor
  · intro h
    obtain ⟨inode, hinode, hkind⟩ := Option.bind_eq_some_iff.mp h
    obtain ⟨k, hk⟩ := hg.entry path inode hinode
    rw [hk] at hkind
    cases hkind
    exact ⟨inode, hinode, hk⟩
  · rintro ⟨inode, hinode, hget⟩
    rw [hinode, Option.bind_some, hget]
    rfl

theorem Ok.kindOf_alloc {g : InodeGenerator} (hg : g.Ok) (path q : String) (kind : InodeKind) :
    (g.alloc path kind).2.kindOf q =
      (g.kindOf q).or (if q = path then some kind else none) := by
  cases h : g.lookup path with
  | some inode =>
    rw [alloc_of_some h]
    split
    · rename_i hq
      obtain ⟨k, hk⟩ := hg.entry path inode h
      rw [hq, kindOf, h, Option.bind_some, hk]
      rfl
    · rw [Option.or_none]
  | none =>
    unfold kindOf
    rw [lookup_alloc]
    split
    · rename_i hq
      rw [hq, h, Option.bind_some, Option.getD_none, get_alloc, if_pos ⟨h, rfl⟩]
      rfl
    · rw [Option.or_none]
      cases hq : g.lookup q with
      | none => rfl
      | some inode =>
        obtain ⟨k, hk⟩ := hg.entry q inode hq
        rw [Option.bind_some, Option.bind_some, get_alloc, if_neg]
        exact fun heq => (hg.below _ _ hk).ne heq.2

/-- A path has the kind that it is first entered with. -/
theorem Ok.kindOf_allocAll {g : InodeGenerator} (hg : g.Ok) (es : List InodeEntry) (q : String) :
    (g.allocAll es).kindOf q = (g.kindOf q).or
      ((es.find? fun e => decide (e.path = q)).map InodeEntry.kind) := by
  induction es generalizing g with
  | nil => exact (Option.or_none).symm
  | cons e es ih =>
    refine (ih (hg.alloc e.path e.kind)).trans ?_
    rw [hg.kindOf_alloc, Option.or_assoc, List.find?_cons]
    by_cases he : q = e.path
    · simp [he]
    · simp [he, Ne.symm he]

/-- The path that gets the number `n` when the paths are numbered from `first` on. -/
def nameAt (first : Nat) (paths : List String) (n : Nat) : Option String :=
  if first ≤ n then paths[n - first]? else none

theorem nameAt_cons (first : Nat) (path : String) (paths : List String) (n : Nat) :
    nameAt first (path :: paths) n =
      if n = first then some path else nameAt (first + 1) paths n := by
  unfold nameAt
  rcases lt_trichotomy n first with hlt | rfl | hgt
  · rw [if_neg (by omega), if_neg (by omega), if_neg (by omega)]
  · rw [if_pos le_rfl, if_pos rfl, Nat.sub_self]
    rfl
  · rw [if_pos (by omega), if_neg (by omega), if_pos (by omega),
      show n - first = n - (first + 1) + 1 by omega]
    rfl

/-- The paths without a number among those of the entries, each at its first place. -/
def unnumbered (g : InodeGenerator) (es : List InodeEntry) : List String :=
  ((es.map InodeEntry.path).filter fun path => (g.lookup path).isNone).eraseDups

theorem unnumbered_of_some {g : InodeGenerator} {e : InodeEntry} {inode : Nat}
    (h : g.lookup e.path = some inode) (es : List InodeEntry) :
    g.unnumbered (e :: es) = g.unnumbered es := by
  unfold unnumbered
  rw [List.map_cons, List.filter_cons, h, if_neg (by simp)]

theorem unnumbered_of_none {g : InodeGenerator} {e : InodeEntry} (h : g.lookup e.path = none)
    (es : List InodeEntry) :
    g.unnumbered (e :: es) = e.path :: (g.alloc e.path e.kind).2.unnumbered es := by
  unfold unnumbered
  rw [List.map_cons, List.filter_cons, h, Option.isNone_none, if_pos rfl, List.eraseDups_cons,
    List.filter_filter]
  refine congrArg (fun l => e.path :: l.eraseDups) (List.filter_congr fun path _ => ?_)
  rw [lookup_alloc]
  by_cases hpath : path = e.path
  · simp [hpath]
  · simp [hpath]

/-- Paths without a number get the next ones, in their order. -/
theorem Ok.getPath_allocAll {g : InodeGenerator} (hg : g.Ok) (es : List InodeEntry) (n : Nat) :
    (g.allocAll es).getPath n = (g.getPath n).or (nameAt g.next (g.unnumbered es) n) := by
  induction es generalizing g with
  | nil =>
    have hnone : nameAt g.next (g.unnumbered []) n = none := by
      unfold nameAt
      split <;> rfl
    rw [hnone, Option.or_none]
    rfl
  | cons e es ih =>
    refine (ih (hg.alloc e.path e.kind)).trans ?_
    cases h : g.lookup e.path with
    | some inode => rw [unnumbered_of_some h, alloc_of_some h]
    | none =>
      have hnext : (g.alloc e.path e.kind).2.next = g.next + 1 := by rw [alloc_of_none h]
      rw [unnumbered_of_none h, nameAt_cons, hnext]
      unfold getPath
      rw [get_alloc]
      by_cases hn : n = g.next
      · have hfree : g.get n = none := by
          by_contra hsome
          obtain ⟨e', he'⟩ := Option.ne_none_iff_exists'.mp hsome
          exact (hg.below n e' he').ne hn
        rw [if_pos ⟨h, hn⟩, if_pos hn, hfree]
        rfl
      · rw [if_neg fun h => hn h.2, if_neg hn]

theorem Ok.getPath_of_lookup {g : InodeGenerator} (hg : g.Ok) {path : String} {inode : Nat}
    (h : g.lookup path = some inode) : g.getPath inode = some path := by
  obtain ⟨kind, hget⟩ := hg.entry path inode h
  rw [getPath, hget]
  rfl

end InodeGenerator

/-! ### Directory listings -/

structure DirEntry where
  name : String
  path : String
  isDir : Bool
deriving DecidableEq, Repr

structure PathTranslator where
  dirs : SortedSet String
  files : SortedMap String String

namespace PathTranslator

def build (filePaths : List String) : PathTranslator where
  dirs := .ofList ("" :: filePaths.flatMap dirsOf)
  files := filePaths.foldl (fun files path => files.insert path (nameOf path)) .empty

/-- Directories first, each kind by name. -/
def before (a b : DirEntry) : Bool :=
  match a.isDir, b.isDir with
  | true, false => true
  | false, true => false
  | _, _ => decide (a.name ≤ b.name)

def entryOf (isDir : Bool) (path : String) : DirEntry := ⟨nameOf path, path, isDir⟩

def listDir (t : PathTranslator) (dirPath : String) : List DirEntry :=
  let dirs := t.dirs.elems.filter fun d => decide (d ≠ dirPath ∧ (parentOf d).getD "" = dirPath)
  let files := t.files.keys.filter fun path => decide ((parentOf path).getD "" = dirPath)
  (dirs.map (entryOf true) ++ files.map (entryOf false)).insertionSort fun a b => before a b

theorem mem_dirs {filePaths : List String} {d : String} :
    d ∈ (build filePaths).dirs ↔ d = "" ∨ ∃ path ∈ filePaths, d ∈ dirsOf path := by
  rw [build, SortedSet.mem_ofList, List.mem_cons, List.mem_flatMap]

theorem mem_files {filePaths : List String} {path : String} :
    path ∈ (build filePaths).files.keys ↔ path ∈ filePaths := by
  have hfold : ∀ (l : List String) (m : SortedMap String String),
      (l.foldl (fun files path => files.insert path (nameOf path)) m).get path ≠ none ↔
        path ∈ l ∨ m.get path ≠ none := by
    intro l
    induction l with
    | nil => simp
    | cons p l ih =>
      intro m
      rw [List.foldl_cons, ih, SortedMap.get_insert, List.mem_cons]
      by_cases hp : path = p
      · simp [hp]
      · simp [hp]
  rw [SortedMap.mem_keys, build, hfold]
  simp

theorem mem_listDir {filePaths : List String} {dirPath : String} {e : DirEntry} :
    e ∈ (build filePaths).listDir dirPath ↔ e.name = nameOf e.path ∧
      (parentOf e.path).getD "" = dirPath ∧
        (if e.isDir then e.path ∈ (build filePaths).dirs ∧ e.path ≠ dirPath
        else e.path ∈ filePaths) := by
  obtain ⟨name, path, isDir⟩ := e
  rw [listDir, List.mem_insertionSort, List.mem_append, List.mem_map, List.mem_map]
  simp only [List.mem_filter, decide_eq_true_eq, entryOf, DirEntry.mk.injEq, mem_files]
  constructor
  · rintro (⟨d, ⟨hd, hne, hparent⟩, rfl, rfl, rfl⟩ | ⟨d, ⟨hd, hparent⟩, rfl, rfl, rfl⟩)
    · exact ⟨rfl, hparent, hd, hne⟩
    · exact ⟨rfl, hparent, hd⟩
  · rintro ⟨rfl, hparent, h⟩
    cases isDir with
    | true => exact .inl ⟨path, ⟨h.1, h.2, hparent⟩, rfl, rfl, rfl⟩
    | false => exact .inr ⟨path, ⟨h, hparent⟩, rfl, rfl, rfl⟩

end PathTranslator
end Suture.Vfs
