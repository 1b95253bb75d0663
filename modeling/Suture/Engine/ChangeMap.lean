import Suture.Engine.LineMerge

/-!
# The change map of a diff

`sideActions` reads the actions off a tidy diff in one pass; `buildChangeMap` holds
exactly these. From them come the facts about the map: its hunks are separated, and
they insert and delete what the chunks of the diff do.
-/

namespace Suture.Engine
set_option autoImplicit false
open Foundation

/-- The changes of a diff, each with the base line it stands at. -/
def chunksAt : Nat → List LineChange → List (Nat × LineChange)
  | _, [] => []
  | b, c :: cs => (b, c) :: chunksAt (b + c.baseLength) cs

/-- Base line `i` belongs to a deleted chunk. -/
def DeletedAt (changes : List LineChange) (i : Nat) : Prop :=
  ∃ p lines, (p, .deleted lines) ∈ chunksAt 0 changes ∧ p ≤ i ∧ i < p + lines.length

def sideActions : Nat → List LineChange → List (Nat × SideAction)
  | _, [] => []
  | b, .unchanged lines :: cs => sideActions (b + lines.length) cs
  | b, .deleted lines :: .inserted new :: cs =>
    (b, .deleteInsert lines.length new) :: sideActions (b + lines.length) cs
  | b, .deleted lines :: cs => (b, .deleteInsert lines.length []) :: sideActions (b + lines.length) cs
  | b, .inserted lines :: cs => (b, .insert lines) :: sideActions b cs

/-- An unchanged chunk comes next, or the end. -/
def Pauses (changes : List LineChange) : Prop :=
  ∀ c cs, changes = c :: cs → ∃ lines, c = .unchanged lines

theorem Tidy.tail {c : LineChange} {cs : List LineChange} (h : Tidy (c :: cs)) : Tidy cs :=
  ⟨h.chain.of_cons, fun d hd => h.nonempty d (List.mem_cons_of_mem _ hd)⟩

theorem Tidy.pauses {c : LineChange} {cs : List LineChange} (h : Tidy (c :: cs))
    (hc : ∀ d, Follows c d → ∃ lines, d = .unchanged lines) : Pauses cs := by
  rintro d ds rfl
  exact hc d (List.isChain_cons_cons.mp h.chain).1

theorem Tidy.pauses_inserted {lines : List String} {cs : List LineChange}
    (h : Tidy (.inserted lines :: cs)) : Pauses cs := by
  refine h.pauses fun d hd => ?_
  cases d with
  | unchanged l => exact ⟨l, rfl⟩
  | deleted _ | inserted _ => exact hd.elim

theorem Tidy.pauses_deleted {lines : List String} {cs : List LineChange}
    (h : Tidy (.deleted lines :: cs)) (hno : ∀ new ds, cs ≠ .inserted new :: ds) : Pauses cs := by
  rintro d ds rfl
  have hd := (List.isChain_cons_cons.mp h.chain).1
  cases d with
  | unchanged l => exact ⟨l, rfl⟩
  | deleted _ => exact hd.elim
  | inserted l => exact absurd rfl (hno l ds)

theorem Tidy.length_pos {c : LineChange} {cs : List LineChange} (h : Tidy (c :: cs)) :
    0 < c.lines.length :=
  List.length_pos_of_ne_nil (h.nonempty c (List.mem_cons_self ..))

theorem le_of_mem_sideActions {changes : List LineChange} {b s : Nat} {a : SideAction}
    (h : (s, a) ∈ sideActions b changes) : b ≤ s := by
  fun_induction sideActions b changes with
  | case1 => exact absurd h List.not_mem_nil
  | case2 b lines cs ih => exact (Nat.le_add_right _ _).trans (ih h)
  | case3 b lines new cs ih | case4 b lines cs _ ih =>
    rcases List.mem_cons.mp h with heq | h
    · exact (Prod.mk.inj heq).1.ge
    · exact (Nat.le_add_right _ _).trans (ih h)
  | case5 b lines cs ih =>
    rcases List.mem_cons.mp h with heq | h
    · exact (Prod.mk.inj heq).1.ge
    · exact ih h

theorem lt_of_mem_sideActions {changes : List LineChange} (htidy : Tidy changes)
    (hp : Pauses changes) {b s : Nat} {a : SideAction} (h : (s, a) ∈ sideActions b changes) :
    b < s := by
  cases changes with
  | nil => exact absurd h List.not_mem_nil
  | cons c cs =>
    obtain ⟨lines, rfl⟩ := hp c cs rfl
    have hpos : 0 < lines.length := htidy.length_pos
    have := le_of_mem_sideActions (b := b + lines.length) h
    omega

/-! ### The fold -/

/-- A builder about to read `changes`: nothing is recorded beyond the current line, and
where something is open the next chunk is unchanged. -/
structure Fresh (b : MapBuilder) (changes : List LineChange) : Prop where
  beyond : ∀ k, b.baseIdx < k → b.map k = none
  open' : b.map b.baseIdx ≠ none ∨ b.lastDeleteIdx ≠ none → Pauses changes

theorem Fresh.here {b : MapBuilder} {c : LineChange} {cs : List LineChange}
    (h : Fresh b (c :: cs)) (hc : ∀ lines, c ≠ .unchanged lines) :
    b.map b.baseIdx = none ∧ b.lastDeleteIdx = none := by
  have hno : ¬ Pauses (c :: cs) := fun hp => by
    obtain ⟨lines, heq⟩ := hp c cs rfl
    exact hc lines heq
  constructor
  · by_contra hne
    exact hno (h.open' (.inl hne))
  · by_contra hne
    exact hno (h.open' (.inr hne))

@[simp] theorem add_deleted (b : MapBuilder) (lines : List String) :
    b.add (.deleted lines) =
      ⟨Function.update b.map b.baseIdx (some (.deleteInsert lines.length [])),
        b.baseIdx + lines.length, some b.baseIdx⟩ := rfl

theorem add_replaced (b : MapBuilder) (lines new : List String) :
    (b.add (.deleted lines)).add (.inserted new) =
      ⟨Function.update b.map b.baseIdx (some (.deleteInsert lines.length new)),
        b.baseIdx + lines.length, some b.baseIdx⟩ := by
  simp [MapBuilder.add]

theorem add_inserted {b : MapBuilder} (hnone : b.map b.baseIdx = none)
    (hlast : b.lastDeleteIdx = none) (lines : List String) :
    b.add (.inserted lines) =
      ⟨Function.update b.map b.baseIdx (some (.insert lines)), b.baseIdx, none⟩ := by
  simp [MapBuilder.add, hnone, hlast]

/-- One recorded action; what the rest of the diff adds is `rest`. -/
theorem record_iff {map : ChangeMap} {idx k : Nat} {x a : SideAction} (hnone : map idx = none)
    (rest : List (Nat × SideAction)) :
    ((k, a) ∈ rest ∨ Function.update map idx (some x) k = some a) ↔
      ((k, a) ∈ (idx, x) :: rest ∨ map k = some a) := by
  by_cases hk : k = idx
  · subst k
    simp only [Function.update_self, Option.some.injEq, List.mem_cons, Prod.mk.injEq, true_and,
      hnone, reduceCtorEq, or_false]
    rw [eq_comm, or_comm]
  · simp [hk]

theorem foldl_add {changes : List LineChange} (htidy : Tidy changes) {bIdx : Nat}
    {b : MapBuilder} (hb : b.baseIdx = bIdx) (hf : Fresh b changes) {k : Nat} {a : SideAction} :
    (changes.foldl MapBuilder.add b).map k = some a ↔
      (k, a) ∈ sideActions bIdx changes ∨ b.map k = some a := by
  fun_induction sideActions bIdx changes generalizing b with
  | case1 => simp
  | case2 bIdx lines cs ih =>
    subst bIdx
    have hpos : 0 < lines.length := htidy.length_pos
    rw [List.foldl_cons]
    refine ih htidy.tail rfl ⟨fun k hk => ?_, fun h => ?_⟩
    · simp only [MapBuilder.add] at hk ⊢
      exact hf.beyond k (by omega)
    · simp only [MapBuilder.add] at h
      rcases h with h | h
      · exact absurd (hf.beyond _ (by omega)) h
      · exact absurd rfl h
  | case3 bIdx lines new cs ih =>
    subst bIdx
    have hpos : 0 < lines.length := htidy.length_pos
    obtain ⟨hnone, hlast⟩ := hf.here nofun
    rw [List.foldl_cons, List.foldl_cons, add_replaced, ← record_iff hnone]
    refine ih htidy.tail.tail rfl ⟨fun k hk => ?_, fun _ => htidy.tail.pauses_inserted⟩
    simp only at hk ⊢
    rw [Function.update_of_ne (by omega)]
    exact hf.beyond k (by omega)
  | case4 bIdx lines cs hno ih =>
    subst bIdx
    have hpos : 0 < lines.length := htidy.length_pos
    obtain ⟨hnone, hlast⟩ := hf.here nofun
    rw [List.foldl_cons, add_deleted, ← record_iff hnone]
    refine ih htidy.tail rfl ⟨fun k hk => ?_, fun _ => htidy.pauses_deleted hno⟩
    simp only at hk ⊢
    rw [Function.update_of_ne (by omega)]
    exact hf.beyond k (by omega)
  | case5 bIdx lines cs ih =>
    subst bIdx
    obtain ⟨hnone, hlast⟩ := hf.here nofun
    rw [List.foldl_cons, add_inserted hnone hlast, ← record_iff hnone]
    refine ih htidy.tail rfl ⟨fun k hk => ?_, fun _ => htidy.pauses_inserted⟩
    simp only at hk ⊢
    rw [Function.update_of_ne (by omega)]
    exact hf.beyond k hk

theorem buildChangeMap_eq_some {changes : List LineChange} (htidy : Tidy changes) {k : Nat}
    {a : SideAction} : buildChangeMap changes k = some a ↔ (k, a) ∈ sideActions 0 changes := by
  unfold buildChangeMap
  rw [foldl_add htidy rfl ⟨fun _ _ => rfl, fun h => ?_⟩]
  · simp
  · rcases h with h | h <;> exact absurd rfl h

/-! ### Hunks and chunks -/

theorem sideActions_end {changes : List LineChange} {b s : Nat} {a : SideAction}
    (h : (s, a) ∈ sideActions b changes) : s + a.advance ≤ b + baseLength changes := by
  fun_induction sideActions b changes with
  | case1 => exact absurd h List.not_mem_nil
  | case2 b lines cs ih =>
    have := ih h
    simp only [baseLength_cons, LineChange.baseLength]
    omega
  | case3 b lines new cs ih =>
    simp only [baseLength_cons, LineChange.baseLength]
    rcases List.mem_cons.mp h with heq | h
    · obtain ⟨rfl, rfl⟩ := Prod.mk.inj heq
      simp only [SideAction.advance]
      omega
    · have := ih h
      omega
  | case4 b lines cs _ ih =>
    simp only [baseLength_cons, LineChange.baseLength]
    rcases List.mem_cons.mp h with heq | h
    · obtain ⟨rfl, rfl⟩ := Prod.mk.inj heq
      simp only [SideAction.advance]
      omega
    · have := ih h
      omega
  | case5 b lines cs ih =>
    simp only [baseLength_cons, LineChange.baseLength]
    rcases List.mem_cons.mp h with heq | h
    · obtain ⟨rfl, rfl⟩ := Prod.mk.inj heq
      simp only [SideAction.advance]
      omega
    · have := ih h
      omega

/-- The actions of a tidy diff stand apart: behind each a line is kept. -/
theorem sideActions_apart {changes : List LineChange} (htidy : Tidy changes) {b : Nat} :
    (sideActions b changes).Pairwise fun x y => x.1 + x.2.advance < y.1 := by
  fun_induction sideActions b changes with
  | case1 => exact .nil
  | case2 b lines cs ih => exact ih htidy.tail
  | case3 b lines new cs ih =>
    exact .cons (fun y hy => lt_of_mem_sideActions htidy.tail.tail htidy.tail.pauses_inserted hy)
      (ih htidy.tail.tail)
  | case4 b lines cs hno ih =>
    exact .cons (fun y hy => lt_of_mem_sideActions htidy.tail (htidy.pauses_deleted hno) hy)
      (ih htidy.tail)
  | case5 b lines cs ih =>
    exact .cons (fun y hy => lt_of_mem_sideActions htidy.tail htidy.pauses_inserted hy)
      (ih htidy.tail)

theorem apart_of_lt {l : List (Nat × SideAction)}
    (h : l.Pairwise fun x y => x.1 + x.2.advance < y.1) {x y : Nat × SideAction} (hx : x ∈ l)
    (hy : y ∈ l) (hlt : x.1 < y.1) : x.1 + x.2.advance < y.1 := by
  induction h with
  | nil => exact absurd hx List.not_mem_nil
  | cons hhead _ ih =>
    rcases List.mem_cons.mp hx with rfl | hx' <;> rcases List.mem_cons.mp hy with rfl | hy'
    · omega
    · exact hhead y hy'
    · have := hhead x hx'
      omega
    · exact ih hx' hy'

theorem exists_mem_cons {b : Nat} {x : SideAction} {rest : List (Nat × SideAction)}
    {P : Nat → SideAction → Prop} :
    (∃ s a, (s, a) ∈ (b, x) :: rest ∧ P s a) ↔ P b x ∨ ∃ s a, (s, a) ∈ rest ∧ P s a := by
  constructor
  · rintro ⟨s, a, hmem, hP⟩
    rcases List.mem_cons.mp hmem with heq | hmem
    · obtain ⟨rfl, rfl⟩ := Prod.mk.inj heq
      exact .inl hP
    · exact .inr ⟨s, a, hmem, hP⟩
  · rintro (hP | ⟨s, a, hmem, hP⟩)
    · exact ⟨b, x, List.mem_cons_self .., hP⟩
    · exact ⟨s, a, List.mem_cons_of_mem _ hmem, hP⟩

/-- The inserted chunks are the lines of the actions, each behind what the action deletes. -/
theorem mem_chunksAt_inserted {changes : List LineChange} (htidy : Tidy changes) {b p : Nat}
    {lines : List String} :
    (p, .inserted lines) ∈ chunksAt b changes ↔
      ∃ s a, (s, a) ∈ sideActions b changes ∧
        (s + a.advance = p ∧ a.outputLines = lines ∧ lines ≠ []) := by
  fun_induction sideActions b changes with
  | case1 => simp [chunksAt]
  | case2 b new cs ih => simpa [chunksAt, LineChange.baseLength] using ih htidy.tail
  | case3 b old new cs ih =>
    have hne : new ≠ [] := htidy.tail.nonempty _ (List.mem_cons_self ..)
    rw [exists_mem_cons, ← ih htidy.tail.tail]
    simp only [chunksAt, List.mem_cons, Prod.mk.injEq, reduceCtorEq, and_false, false_or,
      LineChange.inserted.injEq, LineChange.baseLength, Nat.add_zero, SideAction.advance,
      SideAction.outputLines]
    refine or_congr_left ⟨?_, ?_⟩
    · rintro ⟨rfl, rfl⟩
      exact ⟨rfl, rfl, hne⟩
    · rintro ⟨rfl, rfl, _⟩
      exact ⟨rfl, rfl⟩
  | case4 b old cs _ ih =>
    rw [exists_mem_cons, ← ih htidy.tail]
    simp only [chunksAt, List.mem_cons, Prod.mk.injEq, reduceCtorEq, and_false, false_or,
      LineChange.baseLength, SideAction.outputLines]
    refine (or_iff_right ?_).symm
    rintro ⟨_, rfl, hne⟩
    exact hne rfl
  | case5 b new cs ih =>
    have hne : new ≠ [] := htidy.nonempty _ (List.mem_cons_self ..)
    rw [exists_mem_cons, ← ih htidy.tail]
    simp only [chunksAt, List.mem_cons, Prod.mk.injEq, LineChange.inserted.injEq,
      LineChange.baseLength, Nat.add_zero, SideAction.advance, SideAction.outputLines]
    refine or_congr_left ⟨?_, ?_⟩
    · rintro ⟨rfl, rfl⟩
      exact ⟨rfl, rfl, hne⟩
    · rintro ⟨rfl, rfl, _⟩
      exact ⟨rfl, rfl⟩

/-- The deleted chunks cover what the actions delete. -/
theorem mem_chunksAt_deleted {changes : List LineChange} {b i : Nat} :
    (∃ p lines, (p, .deleted lines) ∈ chunksAt b changes ∧ p ≤ i ∧ i < p + lines.length) ↔
      ∃ s a, (s, a) ∈ sideActions b changes ∧ (s ≤ i ∧ i < s + a.advance) := by
  fun_induction sideActions b changes with
  | case1 => simp [chunksAt]
  | case2 b new cs ih => simpa [chunksAt, LineChange.baseLength] using ih
  | case3 b old new cs ih =>
    rw [exists_mem_cons, ← ih]
    simp [chunksAt, LineChange.baseLength, SideAction.advance, or_and_right, exists_or, and_assoc]
  | case4 b old cs _ ih =>
    rw [exists_mem_cons, ← ih]
    simp [chunksAt, LineChange.baseLength, SideAction.advance, or_and_right, exists_or, and_assoc]
  | case5 b new cs ih =>
    rw [exists_mem_cons, ← ih]
    simp only [chunksAt, List.mem_cons, Prod.mk.injEq, reduceCtorEq, and_false, false_or,
      LineChange.baseLength, Nat.add_zero, SideAction.advance]
    refine (or_iff_right ?_).symm
    omega

section Map
variable {base modified : List String} {changes : List LineChange}

theorem DiffOk.separated (h : DiffOk base modified changes) :
    Separated (buildChangeMap changes).hunks := by
  intro s x s' y hx hy hlt
  obtain ⟨a, ha, rfl⟩ := Option.map_eq_some_iff.mp hx
  obtain ⟨b, hb, rfl⟩ := Option.map_eq_some_iff.mp hy
  exact apart_of_lt (sideActions_apart h.tidy) ((buildChangeMap_eq_some h.tidy).mp ha)
    ((buildChangeMap_eq_some h.tidy).mp hb) hlt

theorem DiffOk.bounded (h : DiffOk base modified changes) {s : Nat} {a : SideAction}
    (ha : buildChangeMap changes s = some a) : s + a.advance ≤ base.length := by
  have := sideActions_end ((buildChangeMap_eq_some h.tidy).mp ha)
  rwa [Nat.zero_add, h.length] at this

theorem DiffOk.inserted_iff (h : DiffOk base modified changes) {p : Nat} {lines : List String} :
    (p, .inserted lines) ∈ chunksAt 0 changes ↔
      ∃ s a, buildChangeMap changes s = some a ∧ s + a.advance = p ∧ a.outputLines = lines ∧
        lines ≠ [] := by
  rw [mem_chunksAt_inserted h.tidy]
  simp only [buildChangeMap_eq_some h.tidy]

theorem DiffOk.deletedAt_iff (h : DiffOk base modified changes) {i : Nat} :
    DeletedAt changes i ↔ Deletes (buildChangeMap changes).hunks i := by
  unfold DeletedAt Deletes
  rw [mem_chunksAt_deleted]
  constructor
  · rintro ⟨s, a, hmem, hi⟩
    refine ⟨s, a.toHunk, ?_, hi⟩
    rw [ChangeMap.hunks, (buildChangeMap_eq_some h.tidy).mpr hmem]
    rfl
  · rintro ⟨s, x, hx, hi⟩
    obtain ⟨a, ha, rfl⟩ := Option.map_eq_some_iff.mp hx
    exact ⟨s, a, (buildChangeMap_eq_some h.tidy).mp ha, hi⟩

end Map
end Suture.Engine
