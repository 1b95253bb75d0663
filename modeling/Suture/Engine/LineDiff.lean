import Mathlib.Algebra.Ring.Nat
import Mathlib.Data.List.Basic
import Mathlib.Order.Lattice

/-!
# Line diffs

`diffLines` with both of its algorithms: the LCS table for short inputs and the
position matching for long ones. Inputs are lists of lines.
-/

namespace Suture.Engine
set_option autoImplicit false

inductive LineChange where
  | unchanged (lines : List String)
  | deleted (lines : List String)
  | inserted (lines : List String)
deriving DecidableEq, Repr

def LineChange.lines : LineChange → List String
  | .unchanged lines | .deleted lines | .inserted lines => lines

def lcsDpThreshold : Nat := 2000

/-- Entry `dp[i][j]` of the LCS table. -/
def dp (base modified : List String) : Nat → Nat → Nat
  | 0, _ => 0
  | _ + 1, 0 => 0
  | i + 1, j + 1 =>
    if base[i]? = modified[j]? then dp base modified i j + 1
    else max (dp base modified i (j + 1)) (dp base modified (i + 1) j)
termination_by i j => i + j

/-- The backtracking loop; it pushes changes last to first, so `acc` is already reversed. -/
def backtrack (base modified : List String) : Nat → Nat → List LineChange → List LineChange
  | 0, 0, acc => acc
  | 0, j + 1, acc => backtrack base modified 0 j (.inserted [modified.getD j ""] :: acc)
  | i + 1, 0, acc => backtrack base modified i 0 (.deleted [base.getD i ""] :: acc)
  | i + 1, j + 1, acc =>
    if base[i]? = modified[j]? then
      backtrack base modified i j (.unchanged [base.getD i ""] :: acc)
    else if dp base modified i (j + 1) ≤ dp base modified (i + 1) j then
      backtrack base modified (i + 1) j (.inserted [modified.getD j ""] :: acc)
    else backtrack base modified i (j + 1) (.deleted [base.getD i ""] :: acc)
termination_by i j => i + j

/-- Extends the last change in `result` by one of the same variant. -/
def tryExtendLast (result : List LineChange) (change : LineChange) : Option (List LineChange) :=
  match result.getLast?, change with
  | some (.unchanged v), .unchanged new => some (result.dropLast ++ [.unchanged (v ++ new)])
  | some (.deleted v), .deleted new => some (result.dropLast ++ [.deleted (v ++ new)])
  | some (.inserted v), .inserted new => some (result.dropLast ++ [.inserted (v ++ new)])
  | _, _ => none

def coalesceChanges (changes : List LineChange) : List LineChange :=
  changes.foldl (fun result change => (tryExtendLast result change).getD (result ++ [change])) []

def diffLinesDp (base modified : List String) : List LineChange :=
  coalesceChanges (backtrack base modified base.length modified.length [])

/-- The places of a line in `modified`, in order. -/
def modPositions (modified : List String) (line : String) : List Nat :=
  (List.range modified.length).filter fun mi => modified[mi]? = some line

/-- Each base line with the first place in `modified` no earlier line took. -/
def matchedPairs (modified : List String) : Nat → List String → List Nat → List (Nat × Nat)
  | _, [], _ => []
  | bi, line :: rest, usedMod =>
    match (modPositions modified line).find? (fun mi => decide (mi ∉ usedMod)) with
    | some mi => (bi, mi) :: matchedPairs modified (bi + 1) rest (mi :: usedMod)
    | none => matchedPairs modified (bi + 1) rest usedMod

/-- The lines from `lo` up to `hi`. -/
def slice (lines : List String) (lo hi : Nat) : List String := (lines.drop lo).take (hi - lo)

/-- The diff from the matching. A pair whose place in `modified` was already passed
emits no insertion, and the position there moves on all the same. -/
def emitChanges (base modified : List String) : List (Nat × Nat) → Nat → Nat → List LineChange
  | [], bi, mi =>
    (slice base bi base.length).map (fun l => .deleted [l]) ++
      (slice modified mi modified.length).map (fun l => .inserted [l])
  | (basePos, modPos) :: rest, bi, mi =>
    (slice base bi basePos).map (fun l => .deleted [l]) ++
      (slice modified mi modPos).map (fun l => .inserted [l]) ++
      .unchanged [base.getD basePos ""] ::
        emitChanges base modified rest (max bi basePos + 1) (max mi modPos + 1)

def diffLinesLinear (base modified : List String) : List LineChange :=
  coalesceChanges (emitChanges base modified (matchedPairs modified 0 base []) 0 0)

def diffLines (base modified : List String) : List LineChange :=
  if base = [] ∧ modified = [] then []
  else if base = [] then [.inserted modified]
  else if modified = [] then [.deleted base]
  else if base.length ≤ lcsDpThreshold ∧ modified.length ≤ lcsDpThreshold then
    diffLinesDp base modified
  else diffLinesLinear base modified

/-! ### The shape of a diff -/

/-- How many base lines a change covers. -/
def LineChange.baseLength : LineChange → Nat
  | .unchanged lines | .deleted lines => lines.length
  | .inserted _ => 0

def baseLength (changes : List LineChange) : Nat := (changes.map LineChange.baseLength).sum

/-- What may follow what: kinds alternate, and no deletion comes right after an insertion. -/
def Follows : LineChange → LineChange → Prop
  | .unchanged _, .deleted _ | .unchanged _, .inserted _ | .deleted _, .unchanged _
  | .deleted _, .inserted _ | .inserted _, .unchanged _ => True
  | _, _ => False

structure Tidy (changes : List LineChange) : Prop where
  chain : changes.IsChain Follows
  nonempty : ∀ c ∈ changes, c.lines ≠ []

/-- Before coalescing kinds may repeat. -/
def MayFollow : LineChange → LineChange → Prop
  | .inserted _, .deleted _ => False
  | _, _ => True

/-- Lines inserted by a diff come from the modified side. -/
def InsertsFrom (modified : List String) (changes : List LineChange) : Prop :=
  ∀ lines, .inserted lines ∈ changes → ∀ l ∈ lines, l ∈ modified

def AllUnchanged (changes : List LineChange) : Prop := ∀ c ∈ changes, ∃ lines, c = .unchanged lines

/-! ### Coalescing -/

/-- Two changes of one variant as one. -/
def extendBy : LineChange → LineChange → Option LineChange
  | .unchanged v, .unchanged new => some (.unchanged (v ++ new))
  | .deleted v, .deleted new => some (.deleted (v ++ new))
  | .inserted v, .inserted new => some (.inserted (v ++ new))
  | _, _ => none

/-- What coalescing makes of an open change and the changes still to come. -/
def absorb : LineChange → List LineChange → List LineChange
  | x, [] => [x]
  | x, c :: cs =>
    match extendBy x c with
    | some y => absorb y cs
    | none => x :: absorb c cs

theorem tryExtendLast_concat (r : List LineChange) (x c : LineChange) :
    tryExtendLast (r ++ [x]) c = (extendBy x c).map fun y => r ++ [y] := by
  unfold tryExtendLast
  rw [List.getLast?_concat, List.dropLast_concat]
  cases x <;> cases c <;> rfl

theorem foldl_absorb (cs r : List LineChange) (x : LineChange) :
    cs.foldl (fun result change => (tryExtendLast result change).getD (result ++ [change]))
      (r ++ [x]) = r ++ absorb x cs := by
  induction cs generalizing r x with
  | nil => rfl
  | cons c cs ih =>
    rw [List.foldl_cons, tryExtendLast_concat, absorb]
    cases extendBy x c with
    | some y => exact ih r y
    | none =>
      have := ih (r ++ [x]) c
      simpa using this

theorem coalesceChanges_cons (c : LineChange) (cs : List LineChange) :
    coalesceChanges (c :: cs) = absorb c cs := by
  have := foldl_absorb cs [] c
  simpa [coalesceChanges, tryExtendLast] using this

theorem extendBy_lines {x c y : LineChange} (h : extendBy x c = some y) :
    y.lines = x.lines ++ c.lines ∧ y.baseLength = x.baseLength + c.baseLength := by
  cases x <;> cases c <;> cases h <;> simp [LineChange.lines, LineChange.baseLength]

theorem follows_of_extendBy {x c : LineChange} (h : extendBy x c = none) (hm : MayFollow x c) :
    Follows x c := by
  cases x <;> cases c <;> trivial

theorem extendBy_follows {x c y z : LineChange} (h : extendBy x c = some y) :
    (Follows z y ↔ Follows z x) ∧ (MayFollow y z ↔ MayFollow c z) := by
  cases x <;> cases c <;> cases h <;> cases z <;> exact ⟨Iff.rfl, Iff.rfl⟩

theorem absorb_head (x : LineChange) (cs : List LineChange) :
    ∃ y ys, absorb x cs = y :: ys ∧ ∀ z, Follows z y ↔ Follows z x := by
  induction cs generalizing x with
  | nil => exact ⟨x, [], rfl, fun _ => Iff.rfl⟩
  | cons c cs ih =>
    rw [absorb]
    cases h : extendBy x c with
    | some y =>
      obtain ⟨z, zs, heq, hz⟩ := ih y
      exact ⟨z, zs, heq, fun q => (hz q).trans (extendBy_follows h).1⟩
    | none => exact ⟨x, _, rfl, fun _ => Iff.rfl⟩

theorem absorb_tidy {x : LineChange} {cs : List LineChange} (hx : x.lines ≠ [])
    (hcs : ∀ c ∈ cs, c.lines ≠ []) (hchain : (x :: cs).IsChain MayFollow) :
    Tidy (absorb x cs) := by
  induction cs generalizing x with
  | nil => exact ⟨.singleton x, by simpa [absorb] using hx⟩
  | cons c cs ih =>
    obtain ⟨hxc, hrest⟩ := List.isChain_cons_cons.mp hchain
    have hcs' : ∀ d ∈ cs, d.lines ≠ [] := fun d hd => hcs d (List.mem_cons_of_mem _ hd)
    rw [absorb]
    cases h : extendBy x c with
    | some y =>
      refine ih ?_ hcs' ?_
      · rw [(extendBy_lines h).1]
        simp [hx]
      · cases cs with
        | nil => exact .singleton y
        | cons d ds =>
          obtain ⟨hcd, hds⟩ := List.isChain_cons_cons.mp hrest
          exact List.isChain_cons_cons.mpr ⟨(extendBy_follows h (z := d)).2.mpr hcd, hds⟩
    | none =>
      have htail := ih (hcs c (List.mem_cons_self ..)) hcs' hrest
      obtain ⟨y, ys, heq, hy⟩ := absorb_head c cs
      refine ⟨?_, fun d hd => ?_⟩
      · have := htail.chain
        rw [heq] at this ⊢
        exact List.isChain_cons_cons.mpr ⟨(hy x).mpr (follows_of_extendBy h hxc), this⟩
      · rcases List.mem_cons.mp hd with rfl | hd
        · exact hx
        · exact htail.nonempty d hd

theorem absorb_baseLength (x : LineChange) (cs : List LineChange) :
    baseLength (absorb x cs) = x.baseLength + baseLength cs := by
  induction cs generalizing x with
  | nil => rfl
  | cons c cs ih =>
    rw [absorb]
    cases h : extendBy x c with
    | some y =>
      rw [ih y, (extendBy_lines h).2]
      simp only [baseLength, List.map_cons, List.sum_cons]
      omega
    | none =>
      have := ih c
      simp only [baseLength, List.map_cons, List.sum_cons] at this ⊢
      omega

def SameKind (c d : LineChange) : Prop := (extendBy c d).isSome = true

theorem SameKind.refl (c : LineChange) : SameKind c c := by
  cases c <;> rfl

theorem extendBy_sameKind {x c y z : LineChange} (h : extendBy x c = some y) (hz : SameKind y z) :
    SameKind x z ∧ SameKind c z := by
  cases x <;> cases c <;> cases h <;> cases z <;> first | exact ⟨rfl, rfl⟩ | cases hz

/-- Coalescing brings no new lines. -/
theorem absorb_origin {x d : LineChange} {cs : List LineChange} (hd : d ∈ absorb x cs) :
    (∃ c ∈ x :: cs, SameKind c d) ∧ ∀ l ∈ d.lines, ∃ c ∈ x :: cs, SameKind c d ∧ l ∈ c.lines := by
  induction cs generalizing x with
  | nil =>
    obtain rfl := List.mem_singleton.mp hd
    exact ⟨⟨d, by simp, .refl d⟩, fun l hl => ⟨d, by simp, .refl d, hl⟩⟩
  | cons c cs ih =>
    rw [absorb] at hd
    cases h : extendBy x c with
    | some y =>
      rw [h] at hd
      obtain ⟨⟨e, he, hed⟩, hlines⟩ := ih hd
      have hlift : ∀ e ∈ y :: cs, SameKind e d → ∃ c' ∈ x :: c :: cs, SameKind c' d := by
        intro e he hed
        rcases List.mem_cons.mp he with rfl | he
        · exact ⟨x, by simp, (extendBy_sameKind h hed).1⟩
        · exact ⟨e, by simp [he], hed⟩
      refine ⟨hlift e he hed, fun l hl => ?_⟩
      obtain ⟨e, he, hed, hle⟩ := hlines l hl
      rcases List.mem_cons.mp he with rfl | he
      · rw [(extendBy_lines h).1] at hle
        rcases List.mem_append.mp hle with hle | hle
        · exact ⟨x, by simp, (extendBy_sameKind h hed).1, hle⟩
        · exact ⟨c, by simp, (extendBy_sameKind h hed).2, hle⟩
      · exact ⟨e, by simp [he], hed, hle⟩
    | none =>
      rw [h] at hd
      rcases List.mem_cons.mp hd with rfl | hd
      · exact ⟨⟨d, by simp, .refl d⟩, fun l hl => ⟨d, by simp, .refl d, hl⟩⟩
      · obtain ⟨⟨e, he, hed⟩, hlines⟩ := ih hd
        refine ⟨⟨e, List.mem_cons_of_mem _ he, hed⟩, fun l hl => ?_⟩
        obtain ⟨e, he, hrest⟩ := hlines l hl
        exact ⟨e, List.mem_cons_of_mem _ he, hrest⟩

/-- A list of changes as the algorithms produce it, before coalescing. -/
structure Raw (modified : List String) (changes : List LineChange) : Prop where
  chain : changes.IsChain MayFollow
  nonempty : ∀ c ∈ changes, c.lines ≠ []
  inserts : InsertsFrom modified changes

/-- What the merge relies on. -/
structure DiffOk (base modified : List String) (changes : List LineChange) : Prop where
  tidy : Tidy changes
  length : baseLength changes = base.length
  inserts : InsertsFrom modified changes

theorem Raw.coalesce {base modified : List String} {changes : List LineChange}
    (h : Raw modified changes) (hlen : baseLength changes = base.length) :
    DiffOk base modified (coalesceChanges changes) := by
  cases changes with
  | nil => exact ⟨⟨.nil, h.nonempty⟩, hlen, h.inserts⟩
  | cons c cs =>
    rw [coalesceChanges_cons]
    refine ⟨absorb_tidy (h.nonempty c (List.mem_cons_self ..))
      (fun d hd => h.nonempty d (List.mem_cons_of_mem _ hd)) h.chain, ?_, fun lines hl l hlm => ?_⟩
    · rw [absorb_baseLength]
      exact hlen
    · obtain ⟨d, hd, hkind, hld⟩ := (absorb_origin hl).2 l hlm
      cases d with
      | inserted lines' => exact h.inserts lines' hd l hld
      | unchanged _ | deleted _ => cases hkind

@[simp] theorem baseLength_nil : baseLength [] = 0 := rfl

@[simp] theorem baseLength_cons (c : LineChange) (cs : List LineChange) :
    baseLength (c :: cs) = c.baseLength + baseLength cs := rfl

@[simp] theorem baseLength_append (cs ds : List LineChange) :
    baseLength (cs ++ ds) = baseLength cs + baseLength ds := by
  simp [baseLength]

/-- No deletion stands first. -/
def NoDeletedHead (changes : List LineChange) : Prop :=
  ∀ lines rest, changes ≠ .deleted lines :: rest

theorem Raw.nil (modified : List String) : Raw modified [] := ⟨.nil, nofun, nofun⟩

theorem Raw.cons {modified : List String} {c : LineChange} {cs : List LineChange}
    (h : Raw modified cs) (hc : c.lines ≠ []) (hhead : ∀ d ds, cs = d :: ds → MayFollow c d)
    (hins : ∀ lines, c = .inserted lines → ∀ l ∈ lines, l ∈ modified) : Raw modified (c :: cs) where
  chain := by
    cases cs with
    | nil => exact .singleton c
    | cons d ds => exact List.isChain_cons_cons.mpr ⟨hhead d ds rfl, h.chain⟩
  nonempty := by
    intro d hd
    rcases List.mem_cons.mp hd with rfl | hd
    · exact hc
    · exact h.nonempty d hd
  inserts := by
    intro lines hl
    rcases List.mem_cons.mp hl with heq | hl
    · exact hins lines heq.symm
    · exact h.inserts lines hl

theorem Raw.unchanged {modified : List String} {cs : List LineChange} (h : Raw modified cs)
    (line : String) : Raw modified (.unchanged [line] :: cs) :=
  h.cons (by simp [LineChange.lines]) (fun _ _ _ => trivial) nofun

theorem Raw.deleted {modified : List String} {cs : List LineChange} (h : Raw modified cs)
    (line : String) : Raw modified (.deleted [line] :: cs) :=
  h.cons (by simp [LineChange.lines]) (fun _ _ _ => trivial) nofun

theorem Raw.inserted {modified : List String} {cs : List LineChange} (h : Raw modified cs)
    {line : String} (hl : line ∈ modified) (hhead : NoDeletedHead cs) :
    Raw modified (.inserted [line] :: cs) := by
  refine h.cons (by simp [LineChange.lines]) (fun d ds heq => ?_) fun lines heq l hmem => ?_
  · cases d with
    | deleted lines => exact absurd heq (hhead lines ds)
    | unchanged _ | inserted _ => trivial
  · obtain rfl := LineChange.inserted.inj heq
    rwa [List.mem_singleton.mp hmem]

theorem Raw.insertAll {modified : List String} {cs : List LineChange} (h : Raw modified cs)
    (hhead : NoDeletedHead cs) (ins : List String) (hins : ∀ l ∈ ins, l ∈ modified) :
    Raw modified (ins.map (fun l => .inserted [l]) ++ cs) := by
  induction ins with
  | nil => exact h
  | cons l ins ih =>
    refine (ih fun x hx => hins x (List.mem_cons_of_mem _ hx)).inserted
      (hins l (List.mem_cons_self ..)) ?_
    cases ins with
    | nil => exact hhead
    | cons x xs => exact nofun

theorem Raw.deleteAll {modified : List String} {cs : List LineChange} (h : Raw modified cs)
    (dels : List String) : Raw modified (dels.map (fun l => .deleted [l]) ++ cs) := by
  induction dels with
  | nil => exact h
  | cons l dels ih => exact ih.deleted l

@[simp] theorem baseLength_insertAll (ins : List String) :
    baseLength (ins.map (fun l => .inserted [l])) = 0 := by
  induction ins with
  | nil => rfl
  | cons l ins ih => simpa [LineChange.baseLength] using ih

@[simp] theorem baseLength_deleteAll (dels : List String) :
    baseLength (dels.map (fun l => .deleted [l])) = dels.length := by
  induction dels with
  | nil => rfl
  | cons l dels ih =>
    simp only [List.map_cons, baseLength_cons, LineChange.baseLength, List.length_cons, ih,
      List.length_nil]
    omega

theorem AllUnchanged.coalesce {changes : List LineChange} (h : AllUnchanged changes) :
    AllUnchanged (coalesceChanges changes) := by
  cases changes with
  | nil => exact h
  | cons c cs =>
    rw [coalesceChanges_cons]
    intro d hd
    obtain ⟨e, he, hed⟩ := (absorb_origin hd).1
    obtain ⟨lines, rfl⟩ := h e he
    cases d with
    | unchanged lines' => exact ⟨lines', rfl⟩
    | inserted _ | deleted _ => cases hed

/-! ### The table -/

theorem dp_succ (base modified : List String) (i j : Nat) :
    dp base modified (i + 1) (j + 1) =
      if base[i]? = modified[j]? then dp base modified i j + 1
      else max (dp base modified i (j + 1)) (dp base modified (i + 1) j) := by
  rw [dp]

theorem dp_zero (base modified : List String) (j : Nat) : dp base modified 0 j = 0 := by
  rw [dp]

/-- One more base line does not shorten the LCS, one more modified line adds at most one. -/
theorem dp_step (base modified : List String) (k : Nat) : ∀ i j, i + j = k →
    dp base modified i j ≤ dp base modified (i + 1) j ∧
      dp base modified i (j + 1) ≤ dp base modified i j + 1 := by
  induction k using Nat.strong_induction_on with
  | _ k ih =>
    intro i j hk
    have hrow : dp base modified i (j + 1) ≤ dp base modified i j + 1 := by
      cases i with
      | zero => simp [dp_zero]
      | succ i =>
        have h := ih (i + j) (by omega) i j rfl
        rw [dp_succ]
        split <;> omega
    refine ⟨?_, hrow⟩
    cases j with
    | zero =>
      cases i <;> simp [dp]
    | succ j =>
      have h := (ih (i + j) (by omega) i j rfl).2
      rw [dp_succ]
      split <;> omega

theorem dp_le_succ (base modified : List String) (i j : Nat) :
    dp base modified i j ≤ dp base modified (i + 1) j := (dp_step base modified _ i j rfl).1

/-! ### Both algorithms give raw diffs -/

/-- Backtracking never puts a deletion after an insertion: having chosen to delete at
`(i, j)` means that the insertion there would have lost part of the LCS. -/
structure Tracked (base modified : List String) (i j : Nat) (acc : List LineChange) : Prop where
  raw : Raw modified acc
  length : i + baseLength acc = base.length
  deleted : ∀ lines rest, acc = .deleted lines :: rest →
    ∀ j', j = j' + 1 → dp base modified (i + 1) j' < dp base modified i (j' + 1)

theorem getD_mem {lines : List String} {i : Nat} (h : i < lines.length) :
    lines.getD i "" ∈ lines := by
  rw [List.getD_eq_getElem?_getD, List.getElem?_eq_getElem h]
  exact List.getElem_mem h

theorem Tracked.unchanged {base modified acc : List _} {i j : Nat}
    (h : Tracked base modified (i + 1) (j + 1) acc) (line : String) :
    Tracked base modified i j (.unchanged [line] :: acc) where
  raw := h.raw.unchanged line
  length := by
    have := h.length
    simp only [baseLength_cons, LineChange.baseLength, List.length_singleton]
    omega
  deleted := nofun

theorem Tracked.delete {base modified acc : List _} {i j : Nat}
    (h : Tracked base modified (i + 1) j acc) (line : String)
    (hdp : ∀ j', j = j' + 1 → dp base modified (i + 1) j' < dp base modified i (j' + 1)) :
    Tracked base modified i j (.deleted [line] :: acc) where
  raw := h.raw.deleted line
  length := by
    have := h.length
    simp only [baseLength_cons, LineChange.baseLength, List.length_singleton]
    omega
  deleted _ _ _ := hdp

theorem Tracked.insert {base modified acc : List _} {i j : Nat}
    (h : Tracked base modified i (j + 1) acc) (hj : j < modified.length)
    (hdp : NoDeletedHead acc) :
    Tracked base modified i j (.inserted [modified.getD j ""] :: acc) where
  raw := h.raw.inserted (getD_mem hj) hdp
  length := by simpa [LineChange.baseLength] using h.length
  deleted := nofun

theorem backtrack_tracked {base modified : List String} {i j : Nat} {acc : List LineChange}
    (hj : j ≤ modified.length) (h : Tracked base modified i j acc) :
    Tracked base modified 0 0 (backtrack base modified i j acc) := by
  fun_induction backtrack base modified i j acc with
  | case1 acc => exact h
  | case2 j acc ih =>
    refine ih (by omega) (h.insert (by omega) fun lines rest heq => ?_)
    have := h.deleted lines rest heq j rfl
    rw [dp_zero] at this
    omega
  | case3 i acc ih =>
    exact ih hj (h.delete _ nofun)
  | case4 i j acc heq ih =>
    exact ih (by omega) (h.unchanged _)
  | case5 i j acc hne hle ih =>
    refine ih (by omega) (h.insert (by omega) fun lines rest heq => ?_)
    have hlt := h.deleted lines rest heq j rfl
    have hmono := dp_le_succ base modified (i + 1) j
    rw [dp_succ, if_neg hne, max_eq_right hle] at hlt
    exact absurd hlt (Nat.not_lt_of_le hmono)
  | case6 i j acc hne hlt ih =>
    refine ih hj (h.delete _ fun j' hj' => ?_)
    obtain rfl := Nat.succ.inj hj'
    omega

theorem diffLinesDp_ok (base modified : List String) :
    DiffOk base modified (diffLinesDp base modified) := by
  have h : Tracked base modified base.length modified.length [] := ⟨.nil _, rfl, nofun⟩
  have h' := backtrack_tracked (Nat.le_refl _) h
  exact h'.raw.coalesce (by simpa using h'.length)

theorem mem_slice {lines : List String} {lo hi : Nat} {l : String} (h : l ∈ slice lines lo hi) :
    l ∈ lines := List.mem_of_mem_drop (List.mem_of_mem_take h)

theorem length_slice {lines : List String} {lo hi : Nat} (h : hi ≤ lines.length) :
    (slice lines lo hi).length = hi - lo := by
  rw [slice, List.length_take, List.length_drop]
  omega

/-- The pairs of the matching, seen from base line `bi`: they ascend on the base side. -/
def Ascends (n : Nat) : Nat → List (Nat × Nat) → Prop
  | _, [] => True
  | bi, (basePos, _) :: rest => bi ≤ basePos ∧ basePos < n ∧ Ascends n (basePos + 1) rest

theorem Ascends.mono {n bi bi' : Nat} {pairs : List (Nat × Nat)} (h : Ascends n bi' pairs)
    (hle : bi ≤ bi') : Ascends n bi pairs := by
  cases pairs with
  | nil => trivial
  | cons p rest => exact ⟨hle.trans h.1, h.2⟩

theorem matchedPairs_ascends (modified : List String) (rest : List String) :
    ∀ bi usedMod, Ascends (bi + rest.length) bi (matchedPairs modified bi rest usedMod) := by
  induction rest with
  | nil => exact fun _ _ => trivial
  | cons line rest ih =>
    intro bi usedMod
    have hlen : bi + (line :: rest).length = bi + 1 + rest.length := by
      rw [List.length_cons]
      omega
    rw [hlen, matchedPairs]
    split
    · exact ⟨Nat.le_refl _, by omega, ih _ _⟩
    · exact (ih _ _).mono (Nat.le_succ bi)

theorem emitChanges_raw (base modified : List String) (pairs : List (Nat × Nat)) :
    ∀ bi mi, bi ≤ base.length → Ascends base.length bi pairs →
      Raw modified (emitChanges base modified pairs bi mi) ∧
        bi + baseLength (emitChanges base modified pairs bi mi) = base.length := by
  induction pairs with
  | nil =>
    intro bi mi hbi _
    have hins : Raw modified ((slice modified mi modified.length).map (fun l => .inserted [l])) := by
      simpa using (Raw.nil modified).insertAll nofun (slice modified mi modified.length)
        fun l hl => mem_slice hl
    refine ⟨hins.deleteAll _, ?_⟩
    simp only [emitChanges, baseLength_append, baseLength_deleteAll, baseLength_insertAll,
      length_slice (Nat.le_refl _)]
    omega
  | cons p rest ih =>
    intro bi mi _ hasc
    obtain ⟨basePos, modPos⟩ := p
    obtain ⟨hle, hlt, hrest⟩ := hasc
    rw [emitChanges, max_eq_right hle]
    obtain ⟨hraw, hlen⟩ := ih (basePos + 1) (max mi modPos + 1) hlt hrest
    have hu := hraw.unchanged (base.getD basePos "")
    have hi := hu.insertAll nofun (slice modified mi modPos) fun l hl => mem_slice hl
    refine ⟨?_, ?_⟩
    · rw [List.append_assoc]
      exact hi.deleteAll _
    · simp only [baseLength_append, baseLength_deleteAll, baseLength_insertAll, baseLength_cons,
        LineChange.baseLength, List.length_singleton, length_slice (Nat.le_of_lt hlt)]
      omega

theorem diffLinesLinear_ok (base modified : List String) :
    DiffOk base modified (diffLinesLinear base modified) := by
  have hasc := matchedPairs_ascends modified base 0 []
  rw [Nat.zero_add] at hasc
  obtain ⟨hraw, hlen⟩ := emitChanges_raw base modified _ 0 0 (Nat.zero_le _) hasc
  exact hraw.coalesce (by omega)

theorem diffLines_ok (base modified : List String) :
    DiffOk base modified (diffLines base modified) := by
  unfold diffLines
  split
  · rename_i h
    exact ⟨⟨.nil, nofun⟩, by simp [h.1], nofun⟩
  split
  · rename_i hnot hbase
    refine ⟨⟨.singleton _, ?_⟩, by simp [hbase, LineChange.baseLength], fun lines hl => ?_⟩
    · simpa [LineChange.lines, hbase] using hnot
    · obtain rfl := LineChange.inserted.inj (List.mem_singleton.mp hl)
      exact fun l h => h
  split
  · rename_i hbase _
    refine ⟨⟨.singleton _, ?_⟩, by simp [LineChange.baseLength], fun lines hl => ?_⟩
    · simpa [LineChange.lines] using hbase
    · exact absurd (List.mem_singleton.mp hl) nofun
  split
  · exact diffLinesDp_ok base modified
  · exact diffLinesLinear_ok base modified

/-! ### A side that changed nothing -/

theorem backtrack_same (base : List String) (n : Nat) :
    ∀ acc, n ≤ base.length → AllUnchanged acc → AllUnchanged (backtrack base base n n acc) := by
  induction n with
  | zero =>
    intro acc _ hacc
    rwa [backtrack]
  | succ n ih =>
    intro acc hn hacc
    rw [backtrack, if_pos rfl]
    refine ih _ (by omega) fun c hc => ?_
    rcases List.mem_cons.mp hc with rfl | hc
    · exact ⟨_, rfl⟩
    · exact hacc c hc

/-- Matching a list with itself takes every line to its own place. -/
theorem matchedPairs_same (base rest : List String) :
    ∀ bi usedMod, base.drop bi = rest → (∀ k, k ∈ usedMod ↔ k < bi) →
      matchedPairs base bi rest usedMod = (List.range' bi rest.length).map fun k => (k, k) := by
  induction rest with
  | nil => exact fun _ _ _ _ => rfl
  | cons line rest ih =>
    intro bi usedMod hdrop hused
    have hline : base[bi]? = some line := by
      rw [← Nat.add_zero bi, ← List.getElem?_drop, hdrop]
      rfl
    have hlt : bi < base.length := (List.getElem?_eq_some_iff.mp hline).1
    have hfind : (modPositions base line).find? (fun mi => decide (mi ∉ usedMod)) = some bi := by
      rw [modPositions, List.find?_filter, List.find?_range_eq_some]
      refine ⟨?_, List.mem_range.mpr hlt, fun k hk => ?_⟩
      · simp [hline, hused]
      · simp [(hused k).mpr hk]
    rw [matchedPairs, hfind]
    simp only [List.length_cons, List.range'_succ, List.map_cons]
    refine congrArg _ (ih (bi + 1) _ ?_ fun k => ?_)
    · rw [← List.tail_drop, hdrop]
      rfl
    · rw [List.mem_cons, hused]
      omega

theorem slice_self (lines : List String) (n : Nat) : slice lines n n = [] := by
  simp [slice]

theorem emitChanges_same (base : List String) (n : Nat) :
    ∀ bi, bi + n = base.length →
      AllUnchanged (emitChanges base base ((List.range' bi n).map fun k => (k, k)) bi bi) := by
  induction n with
  | zero =>
    intro bi hbi
    obtain rfl : bi = base.length := by omega
    simp only [List.range'_zero, List.map_nil, emitChanges, slice_self, List.nil_append]
    exact nofun
  | succ n ih =>
    intro bi hbi
    simp only [List.range'_succ, List.map_cons, emitChanges, slice_self, List.map_nil,
      List.nil_append, max_self]
    intro c hc
    rcases List.mem_cons.mp hc with rfl | hc
    · exact ⟨_, rfl⟩
    · exact ih (bi + 1) (by omega) c hc

theorem diffLines_same (base : List String) : AllUnchanged (diffLines base base) := by
  unfold diffLines
  split
  · exact nofun
  rename_i hne
  rw [and_self] at hne
  rw [if_neg hne, if_neg hne]
  split
  · exact (backtrack_same base _ [] (Nat.le_refl _) nofun).coalesce
  · unfold diffLinesLinear
    rw [matchedPairs_same base base 0 [] rfl fun k => by simp]
    exact (emitChanges_same base base.length 0 (Nat.zero_add _)).coalesce

end Suture.Engine
