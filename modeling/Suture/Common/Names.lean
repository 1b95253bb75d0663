import Mathlib.Algebra.Ring.Nat
import Mathlib.Data.List.Basic
import Mathlib.Order.Fin.Basic

/-!
# Names

Branch names and repository paths are strings that passed the checks of their
constructors.
-/

namespace Suture.Common
set_option autoImplicit false

/-- 32 bytes, compared as the number they spell. -/
abbrev Hash := Fin (2 ^ 256)

instance neZeroHash : NeZero (2 ^ 256) := ⟨by decide⟩

inductive CommonError where
  | emptyBranchName
  | invalidBranchName (name : String)
  | emptyRepoPath
  | nullByteInRepoPath
  | absoluteRepoPath
  | parentDirInRepoPath
deriving DecidableEq, Repr

/-- The control characters of Unicode. -/
def isControl (c : Char) : Bool := c.val < 0x20 || (0x7f ≤ c.val && c.val < 0xa0)

def hasInfix (word : List Char) : List Char → Bool
  | [] => word.isEmpty
  | c :: cs => word.isPrefixOf (c :: cs) || hasInfix word cs

def branchNameAllowed (name : String) : Bool :=
  let s := name.toList
  !(s.any fun c => isControl c && c ≠ '\n' && c ≠ '\t') &&
  !("-".toList.isPrefixOf s || ".".toList.isPrefixOf s || hasInfix "..".toList s) &&
  !((s.any fun c => c ∈ ['~', '^', ':', '\\', ' ']) || ".lock".toList.isSuffixOf s)

structure BranchName where
  asStr : String
  nonempty : asStr ≠ ""
  allowed : branchNameAllowed asStr = true
deriving DecidableEq

namespace BranchName

def new (name : String) : Except CommonError BranchName :=
  if hempty : name = "" then .error .emptyBranchName
  else if hallowed : branchNameAllowed name = true then .ok ⟨name, hempty, hallowed⟩
  else .error (.invalidBranchName name)

def main : BranchName := ⟨"main", by decide, by decide⟩

theorem ext {a b : BranchName} (h : a.asStr = b.asStr) : a = b := by
  cases a
  cases b
  cases h
  rfl

theorem new_asStr (branch : BranchName) : new branch.asStr = .ok branch := by
  obtain ⟨name, hnonempty, hallowed⟩ := branch
  rw [new, dif_neg hnonempty, dif_pos hallowed]

theorem asStr_of_new {name : String} {branch : BranchName} (h : new name = .ok branch) :
    branch.asStr = name := by
  unfold new at h
  split_ifs at h
  cases h
  rfl

end BranchName

structure RepoPath where
  asStr : String
  nonempty : asStr ≠ ""
  noNull : '\x00' ∉ asStr.toList
  relative : "/".toList.isPrefixOf asStr.toList = false
  noParentDir : "..".toList ∉ asStr.toList.splitOn '/'
deriving DecidableEq

def RepoPath.new (path : String) : Except CommonError RepoPath :=
  if hempty : path = "" then .error .emptyRepoPath
  else if hnull : '\x00' ∉ path.toList then
    if habs : "/".toList.isPrefixOf path.toList = false then
      if hdir : "..".toList ∉ path.toList.splitOn '/' then .ok ⟨path, hempty, hnull, habs, hdir⟩
      else .error .parentDirInRepoPath
    else .error .absoluteRepoPath
  else .error .nullByteInRepoPath

theorem RepoPath.asStr_of_new {path : String} {p : RepoPath} (h : RepoPath.new path = .ok p) :
    p.asStr = path := by
  unfold RepoPath.new at h
  split_ifs at h
  cases h
  rfl

/-- A name that a file may have. -/
def IsRepoPath (path : String) : Prop := ∃ p, RepoPath.new path = .ok p

inductive FileStatus where
  | added
  | modified
  | deleted
  | clean
  | untracked
deriving DecidableEq, Repr

end Suture.Common
