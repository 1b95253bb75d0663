import Mathlib.Algebra.Order.BigOperators.Group.List
import Mathlib.Algebra.Order.Ring.Nat
import Suture.Driver.MarkdownText

/-!
# The identity laws of the Markdown merge

The blocks of a heading are paired in their order, and what is not paired goes to the end. So
one side that did not change anything leaves the other as it is exactly when every block has a
heading, the headings of base are the first headings of the other side, and the text is
printable.
-/

namespace Suture.Driver.Markdown
set_option autoImplicit false
open Engine Foundation

variable {base other : List Block}

def headings (blocks : List Block) : List (Option String) := blocks.map Block.heading

@[simp] theorem length_headings (blocks : List Block) : (headings blocks).length = blocks.length :=
  List.length_map _

/-! ### The pairs -/

structure Matching.Ok (base other : List Block) (m : Matching) : Prop where
  shape : ∀ pair ∈ m.pairs, ∃ i j, pair = (some i, some j)
  mem_base : ∀ i, i ∈ m.usedBase ↔ ∃ j, (some i, some j) ∈ m.pairs
  mem_other : ∀ j, j ∈ m.usedOther ↔ ∃ i, (some i, some j) ∈ m.pairs
  pairing : Pairing (headings base) (headings other) fun i j => (some i, some j) ∈ m.pairs

theorem isFree_iff {used : List Nat} {ob : Block} {idx : Nat} :
    (base[idx]?.any fun bb =>
      bb.heading.isSome && bb.heading == ob.heading && !used.contains idx) = true ↔
    (∃ k, (headings base)[idx]? = some (some k) ∧ ob.heading = some k) ∧ idx ∉ used := by
  unfold headings
  rw [List.getElem?_map]
  cases base[idx]? with
  | none => simp
  | some bb =>
    cases hbb : bb.heading with
    | none => simp [hbb]
    | some k => simp [hbb, eq_comm (a := some k)]

theorem freeIdx_eq_some {used : List Nat} {ob : Block} {idx : Nat}
    (h : freeIdx base used ob = some idx) :
    (∃ k, (headings base)[idx]? = some (some k) ∧ ob.heading = some k) ∧ idx ∉ used ∧
      ∀ i < idx, (headings base)[i]? = (headings base)[idx]? → i ∈ used := by
  unfold freeIdx at h
  obtain ⟨hfree, before, after, hrange, hbefore⟩ := List.find?_eq_some_iff_append.mp h
  obtain ⟨⟨k, hk, hob⟩, hused⟩ := isFree_iff.mp hfree
  refine ⟨⟨k, hk, hob⟩, hused, fun i hi hik => ?_⟩
  have hmem : i ∈ before := by
    have hlen : idx < base.length := by
      have := (List.getElem?_eq_some_iff.mp hk).1
      rwa [length_headings] at this
    have hi' : i ∈ before ++ idx :: after := by
      rw [← hrange]
      exact List.mem_range.mpr (Nat.lt_trans hi hlen)
    have hsorted : (before ++ idx :: after).Pairwise (· < ·) := hrange ▸ List.pairwise_lt_range
    rcases List.mem_append.mp hi' with hi' | hi'
    · exact hi'
    · rcases List.mem_cons.mp hi' with rfl | hi'
      · omega
      · have := (List.pairwise_cons.mp (List.pairwise_append.mp hsorted).2.1).1 i hi'
        omega
  by_contra hno
  have := hbefore i hmem
  rw [isFree_iff.mpr ⟨⟨k, hik.trans hk, hob⟩, hno⟩] at this
  cases this

theorem freeIdx_eq_none {used : List Nat} {ob : Block} (h : freeIdx base used ob = none)
    {i : Nat} {k : String} (hi : (headings base)[i]? = some (some k)) (hob : ob.heading = some k) :
    i ∈ used := by
  have hlen := (List.getElem?_eq_some_iff.mp hi).1
  rw [length_headings] at hlen
  by_contra hno
  exact List.find?_eq_none.mp h i (List.mem_range.mpr hlen) (isFree_iff.mpr ⟨⟨k, hi, hob⟩, hno⟩)

theorem Matching.Ok.step {m : Matching} (h : m.Ok base other) (ob : Block) :
    (Matching.step base m (ob, other.length)).Ok base (other ++ [ob]) := by
  have hheadings : headings (other ++ [ob]) = headings other ++ [ob.heading] := by simp [headings]
  have hlen := length_headings other
  unfold Matching.step
  cases hfree : freeIdx base m.usedBase ob with
  | none =>
    refine ⟨h.shape, h.mem_base, h.mem_other, ?_⟩
    rw [hheadings]
    exact h.pairing.skip fun i k hi hk => (h.mem_base i).mp (freeIdx_eq_none hfree hi hk)
  | some idx =>
    obtain ⟨⟨k, hidx, hob⟩, hunused, hbefore⟩ := freeIdx_eq_some hfree
    have hmem : ∀ i j, (some i, some j) ∈ m.pairs ++ [(some idx, some other.length)] ↔
        (some i, some j) ∈ m.pairs ∨ i = idx ∧ j = other.length := by
      intro i j
      simp
    refine ⟨fun pair hpair => ?_, fun i => ?_, fun j => ?_, ?_⟩
    · rcases List.mem_append.mp hpair with hpair | hpair
      · exact h.shape pair hpair
      · exact ⟨_, _, List.mem_singleton.mp hpair⟩
    · simp only [hmem, List.mem_append, List.mem_singleton, h.mem_base, exists_or]
      simp
    · simp only [hmem, List.mem_append, List.mem_singleton, h.mem_other, exists_or]
      simp
    · simp only [hmem]
      rw [hheadings, hob, ← hlen]
      exact h.pairing.add hidx (fun j hM => hunused ((h.mem_base idx).mpr ⟨j, hM⟩))
        fun i hi hkey => (h.mem_base i).mp (hbefore i hi hkey)

theorem matchOthers_ok (base other : List Block) : (matchOthers base other).Ok base other := by
  unfold matchOthers
  induction other using List.reverseRecOn with
  | nil => exact ⟨nofun, by simp, by simp, by simpa [headings] using Pairing.nil (base.map Block.heading)⟩
  | append_singleton other ob ih =>
    rw [List.zipIdx_append, List.foldl_append, Nat.zero_add]
    exact ih.step ob

/-- Base's place is paired with the other's. -/
def Paired (base other : List Block) (i j : Nat) : Prop :=
  (some i, some j) ∈ (matchOthers base other).pairs

theorem paired_pairing (base other : List Block) :
    Pairing (headings base) (headings other) (Paired base other) :=
  (matchOthers_ok base other).pairing

theorem mem_matchBlocks {i j : Nat} :
    (some i, some j) ∈ matchBlocks base other ↔ Paired base other i j := by
  unfold matchBlocks Paired
  rw [List.mem_insertionSort]
  simp

theorem only_matchBlocks (base other : List Block) : only (matchBlocks base other) =
    (List.range other.length).filter fun oi => !(matchOthers base other).usedOther.contains oi := by
  have hpairs : only (matchOthers base other).pairs = [] := by
    unfold only
    rw [List.filterMap_eq_nil_iff]
    intro pair hpair
    obtain ⟨i, j, rfl⟩ := (matchOthers_ok base other).shape pair hpair
    rfl
  apply List.Perm.eq_of_pairwise' (r := (· ≤ ·))
  · unfold only matchBlocks
    rw [List.pairwise_filterMap]
    apply (List.pairwise_insertionSort _ _).imp
    intro a b hab j hj j' hj'
    obtain ⟨a₁, a₂⟩ := a
    obtain ⟨b₁, b₂⟩ := b
    cases a₁ <;> cases a₂ <;> cases hj
    cases b₁ <;> cases b₂ <;> cases hj'
    exact hab
  · exact List.Pairwise.imp Nat.le_of_lt (List.pairwise_lt_range.filter _)
  · unfold only at hpairs ⊢
    refine ((List.perm_insertionSort _ _).filterMap _).trans ?_
    rw [List.filterMap_append, List.filterMap_append, hpairs]
    simp [List.filterMap_map]

theorem mem_only {j : Nat} :
    j ∈ only (matchBlocks base other) ↔ j < other.length ∧ ∀ i, ¬ Paired base other i j := by
  rw [only_matchBlocks, List.mem_filter, List.mem_range]
  have := (matchOthers_ok base other).mem_other j
  unfold Paired
  simp [this]

theorem only_pairwise (base other : List Block) :
    (only (matchBlocks base other)).Pairwise (· < ·) := by
  rw [only_matchBlocks]
  exact List.pairwise_lt_range.filter _

theorem get_byBase_eq_some {i j : Nat} :
    (byBase (matchBlocks base other)).get i = some j ↔ Paired base other i j := by
  have hunique : ∀ {i j j'}, (some i, some j) ∈ matchBlocks base other →
      (some i, some j') ∈ matchBlocks base other → j = j' := fun h h' =>
    (paired_pairing base other).right_unique (mem_matchBlocks.mp h) (mem_matchBlocks.mp h')
  rw [← mem_matchBlocks]
  generalize matchBlocks base other = pairs at hunique
  induction pairs using List.reverseRecOn with
  | nil => exact iff_of_false nofun List.not_mem_nil
  | append_singleton pairs pair ih =>
    have hrest : (byBase pairs).get i = some j ↔ (some i, some j) ∈ pairs :=
      ih fun h h' => hunique (List.mem_append_left _ h) (List.mem_append_left _ h')
    obtain ⟨b, o⟩ := pair
    unfold byBase at hrest ⊢
    rw [List.foldl_concat, List.mem_append, List.mem_singleton, ← hrest]
    cases b with
    | none => simp
    | some b =>
      cases o with
      | none => simp
      | some o =>
        dsimp only
        rw [SortedMap.get_insert]
        by_cases hib : i = b
        · subst hib
          rw [if_pos rfl]
          constructor
          · intro h
            exact .inr (by rw [Option.some.inj h])
          · rintro (h | h)
            · have hlast : (some i, some o) ∈ pairs ++ [(some i, some o)] := by simp
              rw [hunique (List.mem_append_left _ (hrest.mp h)) hlast]
            · cases h
              rfl
        · rw [if_neg hib]
          simp [hib]

/-! ### The merged blocks -/

variable {blocks : List Block}

/-- The places of a block that has a heading, and of one that has none. -/
def headed (blocks : List Block) (i : Nat) : Bool := blocks[i]?.any fun block => block.heading.isSome

theorem pick_append (blocks : List Block) (a b : List Nat) :
    pick blocks (a ++ b) = pick blocks a ++ pick blocks b :=
  List.filterMap_append

theorem pick_range (blocks : List Block) : pick blocks (List.range blocks.length) = blocks := by
  unfold pick
  induction blocks using List.reverseRecOn with
  | nil => rfl
  | append_singleton blocks block ih =>
    have hstart : (List.range blocks.length).filterMap (fun i => (blocks ++ [block])[i]?) = blocks := by
      conv_rhs => rw [← ih]
      exact List.filterMap_congr fun i hi => List.getElem?_append_left (List.mem_range.mp hi)
    rw [List.length_append, List.length_singleton, List.range_succ, List.filterMap_append, hstart]
    simp

theorem headed_iff {i : Nat} :
    headed blocks i = true ↔ ∃ k, (headings blocks)[i]? = some (some k) := by
  unfold headed headings
  rw [List.getElem?_map]
  cases blocks[i]? with
  | none => simp
  | some block => simp [Option.isSome_iff_exists]

theorem paired_self {i j : Nat} : Paired base base i j ↔ i = j ∧ headed base i = true := by
  have hpairing := paired_pairing base base
  have hself : headed base i = true → Paired base base i i := fun h => by
    obtain ⟨k, hk⟩ := headed_iff.mp h
    exact hpairing.diagonal List.prefix_rfl hk
  constructor
  · intro h
    obtain ⟨k, hi, -⟩ := hpairing.keys h
    have hheaded := headed_iff.mpr ⟨k, hi⟩
    exact ⟨hpairing.right_unique (hself hheaded) h, hheaded⟩
  · rintro ⟨rfl, h⟩
    exact hself h

theorem get_byBase_self {i : Nat} : (byBase (matchBlocks base base)).get i =
    if headed base i then some i else none := by
  cases hget : (byBase (matchBlocks base base)).get i with
  | some j =>
    obtain ⟨rfl, h⟩ := paired_self.mp (get_byBase_eq_some.mp hget)
    rw [if_pos h]
  | none =>
    split
    · rename_i h
      rw [get_byBase_eq_some.mpr (paired_self.mpr ⟨rfl, h⟩)] at hget
      cases hget
    · rfl

theorem only_self (base : List Block) : only (matchBlocks base base) =
    (List.range base.length).filter fun i => !headed base i := by
  apply List.Perm.eq_of_pairwise' (r := (· ≤ ·))
  · exact (only_pairwise base base).imp Nat.le_of_lt
  · exact List.Pairwise.imp Nat.le_of_lt (List.pairwise_lt_range.filter _)
  · refine (List.perm_ext_iff_of_nodup ((only_pairwise base base).imp Nat.ne_of_lt)
      (List.nodup_range.filter _)).mpr fun j => ?_
    rw [mem_only, List.mem_filter, List.mem_range]
    simp [paired_self]

/-- The blocks of base's places, one after the other. -/
theorem filterMap_zipIdx {α : Type} (base : List Block) (f : Block → Nat → Option α) :
    (base.zipIdx.map fun e => f e.1 e.2).filterMap id =
      (List.range base.length).filterMap fun i => base[i]?.bind fun block => f block i := by
  induction base using List.reverseRecOn with
  | nil => rfl
  | append_singleton base block ih =>
    have hstart : (List.range base.length).filterMap
        (fun i => (base ++ [block])[i]?.bind fun block => f block i) =
        (List.range base.length).filterMap fun i => base[i]?.bind fun block => f block i :=
      List.filterMap_congr fun i hi => by rw [List.getElem?_append_left (List.mem_range.mp hi)]
    rw [List.zipIdx_append, List.map_append, List.filterMap_append, ih, List.length_append,
      List.length_singleton, List.range_succ, List.filterMap_append, hstart]
    simp [List.filterMap]

/-- The places on the other side, in the order of base. -/
def pairedPlaces (base other : List Block) : List Nat :=
  (List.range base.length).filterMap (byBase (matchBlocks base other)).get

theorem foldlM_adding_apart {ours theirs : List Block} {oursOnly theirsOnly : List Nat}
    (h : ∀ oi ∈ oursOnly, ∀ ti ∈ theirsOnly, headed ours oi = true → headed theirs ti = false)
    (s : Adding) : oursOnly.foldlM (Adding.step ours theirs theirsOnly) s = some s := by
  induction oursOnly with
  | nil => rfl
  | cons oi rest ih =>
    have hstep : Adding.step ours theirs theirsOnly s oi = some s := by
      unfold Adding.step
      cases hob : ours[oi]? with
      | none => rfl
      | some ob =>
        dsimp only
        split
        · rfl
        · rename_i hheading
          have hheaded : headed ours oi = true := by
            unfold headed
            rw [hob]
            exact Option.isSome_iff_ne_none.mpr hheading
          rw [List.find?_eq_none.mpr]
          intro ti hti hfound
          have hnone := h oi (List.mem_cons_self ..) ti hti hheaded
          unfold headed at hnone
          cases htb : theirs[ti]? with
          | none => simp [htb] at hfound
          | some tb =>
            rw [htb] at hnone hfound
            simp only [Option.any_some] at hnone hfound
            simp [hnone] at hfound
    rw [List.foldlM_cons, hstep]
    exact ih fun o ho => h o (List.mem_cons_of_mem _ ho)

theorem foldlM_adding_same {only : List Nat} (hnodup : only.Nodup)
    (hlt : ∀ i ∈ only, i < blocks.length) (merged : List Block) (done rest : List Nat)
    (hsplit : only = done ++ rest) :
    rest.foldlM (Adding.step blocks blocks only) ⟨merged ++ pick blocks (done.filter (headed blocks)),
      done.filter (headed blocks), done.filter (headed blocks)⟩ =
    some ⟨merged ++ pick blocks (only.filter (headed blocks)), only.filter (headed blocks),
      only.filter (headed blocks)⟩ := by
  induction rest generalizing done with
  | nil => rw [hsplit, List.append_nil]; rfl
  | cons i rest ih =>
    have hi : i ∈ only := hsplit ▸ List.mem_append_right _ (List.mem_cons_self ..)
    obtain ⟨block, hblock⟩ : ∃ block, blocks[i]? = some block :=
      ⟨_, List.getElem?_eq_getElem (hlt i hi)⟩
    have hnotDone : i ∉ done := by
      rw [hsplit] at hnodup
      exact fun h => (List.nodup_append.mp hnodup).2.2 i h i (List.mem_cons_self ..) rfl
    have hnext : done ++ i :: rest = (done ++ [i]) ++ rest := by simp
    have hsplit' := hsplit.trans hnext
    have hih := ih (done ++ [i]) hsplit'
    rw [List.filter_append, pick_append] at hih
    rw [List.foldlM_cons]
    cases hheading : block.heading with
    | none =>
      have hnone : headed blocks i = false := by
        unfold headed
        rw [hblock, Option.any_some, hheading]
        rfl
      have hstep : ∀ s, Adding.step blocks blocks only s i = some s := by
        intro s
        unfold Adding.step
        rw [hblock]
        dsimp only
        rw [if_pos hheading]
      rw [List.filter_singleton, hnone, Bool.cond_false, List.append_nil] at hih
      rw [hstep]
      simpa [pick] using hih
    | some k =>
      have hsome : headed blocks i = true := by
        unfold headed
        rw [hblock, Option.any_some, hheading]
        rfl
      -- the blocks before it under its heading went with themselves
      have hfind : only.find? (fun ti => !(done.filter (headed blocks)).contains i &&
          !(done.filter (headed blocks)).contains ti &&
          blocks[ti]?.any fun tb => tb.heading.isSome && block.heading == tb.heading) = some i := by
        rw [hsplit, List.find?_append, List.find?_eq_none.mpr, Option.none_or, List.find?_cons_of_pos]
        · simp [hnotDone, hblock, hheading]
        · intro j hj hfound
          have hheaded : headed blocks j = true := by
            unfold headed
            cases hb : blocks[j]? with
            | none => simp [hb] at hfound
            | some b =>
              simp only [hb, Option.any_some, Bool.and_eq_true] at hfound
              exact hfound.2.1
          simp [hj, hheaded] at hfound
      rw [List.filter_singleton, hsome, Bool.cond_true] at hih
      have hstep : Adding.step blocks blocks only
          ⟨merged ++ pick blocks (done.filter (headed blocks)), done.filter (headed blocks),
            done.filter (headed blocks)⟩ i =
          some ⟨merged ++ (pick blocks (done.filter (headed blocks)) ++ pick blocks [i]),
            done.filter (headed blocks) ++ [i], done.filter (headed blocks) ++ [i]⟩ := by
        unfold Adding.step
        rw [hblock]
        dsimp only
        rw [if_neg (by rw [hheading]; exact Option.some_ne_none k), hfind]
        dsimp only
        rw [if_pos hblock.symm]
        simp [pick, hblock]
      rw [hstep]
      exact hih

theorem mapM_some {α β : Type} {f : α → Option β} {g : α → β} {l : List α}
    (h : ∀ a ∈ l, f a = some (g a)) : l.mapM f = some (l.map g) :=
  mapM_eq_some_iff.mpr (by rw [List.map_map]; exact List.map_congr_left h)

/-- The places that are not paired. -/
def onlyPlaces (base other : List Block) : List Nat := only (matchBlocks base other)

/-- The block in the place that base's place is paired with. -/
def partner (base other : List Block) (i : Nat) : Option Block :=
  ((byBase (matchBlocks base other)).get i).bind fun oi => other[oi]?

theorem mergeBlocks_of {ours theirs : List Block} {kept : Block → Nat → Option Block}
    {added : Adding}
    (hkept : ∀ block i, base[i]? = some block →
      mergeBlock block (partner base ours i) (partner base theirs i) = some (kept block i))
    (hadded : (onlyPlaces base ours).foldlM (Adding.step ours theirs (onlyPlaces base theirs))
      ⟨(List.range base.length).filterMap fun i => base[i]?.bind fun block => kept block i, [], []⟩ =
        some added) :
    mergeBlocks base ours theirs = some (added.merged ++
      pick ours ((onlyPlaces base ours).filter fun i => !added.matchedAdded.contains i) ++
      pick theirs ((onlyPlaces base theirs).filter fun i => !added.matchedTheirsAdded.contains i)) := by
  have hmapM : base.zipIdx.mapM (fun e => mergeBlock e.1 (partner base ours e.2)
      (partner base theirs e.2)) = some (base.zipIdx.map fun e => kept e.1 e.2) := by
    apply mapM_some
    rintro ⟨block, i⟩ hmem
    exact hkept block i (List.mem_zipIdx_iff_getElem?.mp hmem)
  rw [← filterMap_zipIdx] at hadded
  unfold partner at hmapM
  unfold onlyPlaces at hadded ⊢
  unfold mergeBlocks
  simp only [Option.bind_eq_bind, hmapM, Option.bind_some, hadded]
  rfl

theorem mergeBlocks_same (base other : List Block) : mergeBlocks base other other =
    some (pick other (pairedPlaces base other) ++
      pick other ((onlyPlaces base other).filter (headed other)) ++
      pick other ((onlyPlaces base other).filter fun i => !headed other i) ++
      pick other ((onlyPlaces base other).filter fun i => !headed other i)) := by
  have hpicked : ((List.range base.length).filterMap fun i =>
      base[i]?.bind fun _ => partner base other i) = pick other (pairedPlaces base other) := by
    unfold pick pairedPlaces
    rw [List.filterMap_filterMap]
    refine List.filterMap_congr fun i hi => ?_
    rw [List.getElem?_eq_getElem (List.mem_range.mp hi)]
    rfl
  have hadded := @foldlM_adding_same other _
    ((only_pairwise base other).imp Nat.ne_of_lt) (fun i hi => (mem_only.mp hi).1)
    (pick other (pairedPlaces base other)) [] (only (matchBlocks base other)) rfl
  rw [List.filter_nil, show pick other [] = [] from rfl, List.append_nil, ← hpicked] at hadded
  have hrest : (onlyPlaces base other).filter (fun i =>
      !((onlyPlaces base other).filter (headed other)).contains i) =
      (onlyPlaces base other).filter fun i => !headed other i := by
    refine List.filter_congr fun i hi => ?_
    rw [List.contains_eq_mem]
    simp [List.mem_filter, hi]
  rw [@mergeBlocks_of _ _ _ (fun _ i => partner base other i) _ _ hadded, hpicked]
  · exact congrArg some (by rw [← hrest]; rfl)
  · intro block i _
    cases partner base other i with
    | none => rfl
    | some b => simp [mergeBlock]

/-- What becomes of base's blocks when one side did not change them. -/
def keptBlocks (base other : List Block) : List Block :=
  (List.range base.length).filterMap fun i => base[i]?.bind fun block =>
    if headed base i then some ((partner base other i).getD block) else none

theorem onlyPlaces_self (base : List Block) :
    onlyPlaces base base = (List.range base.length).filter fun i => !headed base i :=
  only_self base

theorem partner_self {i : Nat} {block : Block} (h : base[i]? = some block) :
    partner base base i = if headed base i then some block else none := by
  unfold partner
  rw [get_byBase_self]
  split
  · exact h
  · rfl

theorem partner_headless {i : Nat} (h : headed base i = false) : partner base other i = none := by
  unfold partner
  cases hget : (byBase (matchBlocks base other)).get i with
  | none => rfl
  | some j =>
    obtain ⟨k, hi, -⟩ := (paired_pairing base other).keys (get_byBase_eq_some.mp hget)
    rw [headed_iff.mpr ⟨k, hi⟩] at h
    cases h

theorem headless_of_mem_onlyPlaces {i : Nat} (h : i ∈ onlyPlaces base base) :
    headed base i = false := by
  rw [onlyPlaces_self, List.mem_filter] at h
  simpa using h.2

theorem filter_contains_nil (l : List Nat) : (l.filter fun i => !([] : List Nat).contains i) = l :=
  List.filter_eq_self.mpr fun _ _ => rfl

theorem mergeBlocks_base_left (base other : List Block) : mergeBlocks base base other =
    some (keptBlocks base other ++ pick base (onlyPlaces base base) ++
      pick other (onlyPlaces base other)) := by
  rw [@mergeBlocks_of _ _ _ (fun block i =>
    if headed base i then some ((partner base other i).getD block) else none) _ _
    (foldlM_adding_apart (fun oi ho ti _ hheaded => by
      rw [headless_of_mem_onlyPlaces ho] at hheaded; cases hheaded) _)]
  · rw [filter_contains_nil, filter_contains_nil]
    rfl
  · intro block i hblock
    rw [partner_self hblock]
    cases hheaded : headed base i with
    | false =>
      rw [partner_headless hheaded]
      rfl
    | true => cases partner base other i <;> simp [mergeBlock]

theorem mergeBlocks_base_right (base other : List Block) : mergeBlocks base other base =
    some (keptBlocks base other ++ pick other (onlyPlaces base other) ++
      pick base (onlyPlaces base base)) := by
  rw [@mergeBlocks_of _ _ _ (fun block i =>
    if headed base i then some ((partner base other i).getD block) else none) _ _
    (foldlM_adding_apart (fun oi _ ti ht _ => headless_of_mem_onlyPlaces ht) _)]
  · rw [filter_contains_nil, filter_contains_nil]
    rfl
  · intro block i hblock
    rw [partner_self hblock]
    cases hheaded : headed base i with
    | false =>
      rw [partner_headless hheaded]
      rfl
    | true => cases partner base other i <;> simp [mergeBlock]

/-! ### Headings in the same order -/

theorem headed_lt {i : Nat} (h : headed blocks i = true) : i < blocks.length := by
  obtain ⟨k, hk⟩ := headed_iff.mp h
  have := (List.getElem?_eq_some_iff.mp hk).1
  rwa [length_headings] at this

theorem get_byBase_of_begins (hbegins : headings base <+: headings other) {i : Nat}
    (h : headed base i = true) : (byBase (matchBlocks base other)).get i = some i := by
  obtain ⟨k, hk⟩ := headed_iff.mp h
  exact get_byBase_eq_some.mpr ((paired_pairing base other).diagonal hbegins hk)

def UnderHeadings (blocks : List Block) : Prop := ∀ block ∈ blocks, block.heading ≠ none

theorem UnderHeadings.headed (h : UnderHeadings blocks) {i : Nat} (hi : i < blocks.length) :
    headed blocks i = true := by
  unfold Markdown.headed
  rw [List.getElem?_eq_getElem hi]
  exact Option.isSome_iff_ne_none.mpr (h _ (List.getElem_mem hi))

/-- Every block has a heading, and base has the first ones of the other side. -/
structure Extends (base other : List Block) : Prop where
  headed : UnderHeadings other
  begins : headings base <+: headings other

theorem Extends.length_le (h : Extends base other) : base.length ≤ other.length := by
  have := h.begins.length_le
  rwa [length_headings, length_headings] at this

theorem Extends.headed_base (h : Extends base other) {i : Nat} (hi : i < base.length) :
    Markdown.headed base i = true := by
  obtain ⟨k, hk⟩ := headed_iff.mp (h.headed.headed (Nat.lt_of_lt_of_le hi h.length_le))
  obtain ⟨rest, hrest⟩ := h.begins
  rw [← hrest, List.getElem?_append_left (by rwa [length_headings])] at hk
  exact headed_iff.mpr ⟨k, hk⟩

theorem Extends.pairedPlaces_eq (h : Extends base other) :
    pairedPlaces base other = List.range base.length := by
  unfold pairedPlaces
  have hget : ∀ i ∈ List.range base.length, (byBase (matchBlocks base other)).get i = some i :=
    fun i hi => get_byBase_of_begins h.begins (h.headed_base (List.mem_range.mp hi))
  rw [List.filterMap_congr hget, List.filterMap_some]

theorem arranged_perm (base other : List Block) :
    (pairedPlaces base other ++ onlyPlaces base other).Perm (List.range other.length) := by
  have := (paired_pairing base other).arranged_perm (fun _ _ => get_byBase_eq_some)
    (only_pairwise base other) (fun j => by rw [mem_only, length_headings])
  unfold Pairing.arranged at this
  rwa [length_headings, length_headings] at this

theorem Extends.arranged_eq (h : Extends base other) :
    pairedPlaces base other ++ onlyPlaces base other = List.range other.length := by
  apply List.Perm.eq_of_pairwise' (r := (· ≤ ·)) _ _ (arranged_perm base other)
  · rw [h.pairedPlaces_eq]
    refine List.pairwise_append.mpr ⟨List.pairwise_lt_range.imp Nat.le_of_lt,
      (only_pairwise base other).imp Nat.le_of_lt, fun i hi j hj => ?_⟩
    have hij : ¬ j < base.length := fun hlt =>
      (mem_only.mp hj).2 j (get_byBase_eq_some.mp
        (get_byBase_of_begins h.begins (h.headed_base hlt)))
    have := List.mem_range.mp hi
    omega
  · exact List.pairwise_lt_range.imp Nat.le_of_lt

theorem Extends.keptBlocks_eq (h : Extends base other) :
    keptBlocks base other = pick other (pairedPlaces base other) := by
  rw [h.pairedPlaces_eq]
  refine List.filterMap_congr fun i hi => ?_
  have hi := List.mem_range.mp hi
  rw [List.getElem?_eq_getElem hi, Option.bind_some, if_pos (h.headed_base hi), partner,
    get_byBase_of_begins h.begins (h.headed_base hi), Option.bind_some,
    List.getElem?_eq_getElem (Nat.lt_of_lt_of_le hi h.length_le)]
  rfl

theorem Extends.onlyPlaces_base (h : Extends base other) : onlyPlaces base base = [] := by
  rw [onlyPlaces_self, List.filter_eq_nil_iff]
  intro i hi
  rw [h.headed_base (List.mem_range.mp hi)]
  decide

theorem Extends.filter_headed (h : Extends base other) :
    (onlyPlaces base other).filter (Markdown.headed other) = onlyPlaces base other ∧
      (onlyPlaces base other).filter (fun i => !Markdown.headed other i) = [] := by
  have hall : ∀ i ∈ onlyPlaces base other, Markdown.headed other i = true := fun i hi =>
    h.headed.headed (mem_only.mp hi).1
  refine ⟨List.filter_eq_self.mpr hall, List.filter_eq_nil_iff.mpr fun i hi => ?_⟩
  rw [hall i hi]
  decide

theorem Extends.picked (h : Extends base other) :
    pick other (pairedPlaces base other) ++ pick other (onlyPlaces base other) = other := by
  rw [← pick_append, h.arranged_eq, pick_range]

theorem Extends.mergeBlocks_eq (h : Extends base other) :
    mergeBlocks base other other = some other ∧ mergeBlocks base base other = some other ∧
      mergeBlocks base other base = some other := by
  obtain ⟨hheaded, hheadless⟩ := h.filter_headed
  have hnil : pick other [] = [] ∧ pick base [] = [] := ⟨rfl, rfl⟩
  rw [mergeBlocks_same, mergeBlocks_base_left, mergeBlocks_base_right, hheaded, hheadless,
    h.onlyPlaces_base, h.keptBlocks_eq, hnil.1, hnil.2, List.append_nil, List.append_nil,
    List.append_nil, h.picked]
  exact ⟨rfl, rfl, rfl⟩

/-! ### What the laws ask for -/

theorem Formed.first_line {before : Option String} {isOpen : Bool} {block : Block}
    (h : Formed before isOpen block) : ∃ first rest, block.lines = first :: rest ∧
      isBlank first = false ∧ block.heading =
        if isHeadingLine first = true then some (headingText first) else before := by
  cases h with
  | @heading line h =>
    exact ⟨line, [], rfl, isBlank_of_isHeadingLine h, (if_pos h).symm⟩
  | @text bt lines hbt hne h =>
    obtain ⟨first, rest, rfl⟩ := List.exists_cons_of_ne_nil hne
    obtain ⟨-, hblank, hdetect⟩ := h first (List.mem_cons_self ..)
    refine ⟨first, rest, rfl, hblank, (if_neg fun hline => ?_).symm⟩
    exact hbt (hdetect.symm.trans (detectBlockType_eq_heading.mpr hline))
  | closed hfirst _ _ =>
    refine ⟨_, _, rfl, isBlank_of_isFence hfirst, (if_neg fun hline => ?_).symm⟩
    rw [not_isFence_of_isHeadingLine hline] at hfirst
    cases hfirst
  | unclosed hfirst _ =>
    refine ⟨_, _, rfl, isBlank_of_isFence hfirst, (if_neg fun hline => ?_).symm⟩
    rw [not_isFence_of_isHeadingLine hline] at hfirst
    cases hfirst

theorem Follows.formed {isOpen : Bool} (h : Follows isOpen blocks) {i : Nat} {block : Block}
    (hi : blocks[i]? = some block) : ∃ isOpen, Formed (lastHeading (blocks.take i)) isOpen block := by
  induction h with
  | nil => cases hi
  | @snoc blocks last isOpen _ hlast ih =>
    have hlt := (List.getElem?_eq_some_iff.mp hi).1
    rw [List.length_append, List.length_singleton] at hlt
    rcases Nat.lt_or_ge i blocks.length with hlt | hge
    · rw [List.getElem?_append_left hlt] at hi
      rw [List.take_append_of_le_length (Nat.le_of_lt hlt)]
      exact ih hi
    · obtain rfl : i = blocks.length := by omega
      rw [List.getElem?_concat_length, Option.some.injEq] at hi
      rw [List.take_left, ← hi]
      exact ⟨isOpen, hlast⟩

/-- Carriage returns at its end change nothing in what a line is the heading of. -/
theorem heading_rdropWhile (l : List Char) :
    ((l.rdropWhile fun c => c == '\r').head? == some '#') = (l.head? == some '#') ∧
      trimBy isWhiteSpace ((l.rdropWhile fun c => c == '\r').dropWhile fun c => c == '#') =
        trimBy isWhiteSpace (l.dropWhile fun c => c == '#') := by
  induction l using List.reverseRecOn with
  | nil => exact ⟨rfl, rfl⟩
  | append_singleton l c ih =>
    by_cases hc : (c == '\r') = true
    · obtain rfl := beq_iff_eq.mp hc
      have hdrop : (l ++ ['\r']).dropWhile (fun c => c == '#') =
          (l.dropWhile fun c => c == '#') ++ ['\r'] := by
        rw [List.dropWhile_append]
        split
        · rename_i hempty
          rw [List.isEmpty_iff.mp hempty]
          rfl
        · rfl
      rw [List.rdropWhile_concat_pos _ _ _ rfl, ih.1, ih.2, hdrop, trimBy_concat_blank rfl]
      refine ⟨?_, rfl⟩
      cases l <;> rfl
    · rw [List.rdropWhile_concat_neg (fun c => c == '\r') l c hc]
      exact ⟨rfl, rfl⟩

theorem headingText_eq {a b : String}
    (h : (a.toList.rdropWhile fun c => c == '\r') = b.toList.rdropWhile fun c => c == '\r') :
    isHeadingLine a = isHeadingLine b ∧ headingText a = headingText b := by
  have ha := heading_rdropWhile a.toList
  have hb := heading_rdropWhile b.toList
  rw [h] at ha
  unfold isHeadingLine headingText
  exact ⟨ha.1.symm.trans hb.1, congrArg String.ofList (ha.2.symm.trans hb.2)⟩

theorem shown_cons (line : String) (lines : List String) (h : isBlank line = false) :
    shown (line :: lines) = (line.toList.rdropWhile fun c => c == '\r') :: shown lines := by
  unfold shown
  rw [List.filter_cons_of_pos (by rw [h]; rfl), List.map_cons]

theorem shown_of_reparsed {merged : List Block} (hlined : Lined merged)
    (h : parseBlocks (blocksToMarkdown merged) = blocks) :
    shown (linesOf blocks) = shown (linesOf merged) := by
  rw [← h]
  unfold parseBlocks
  rw [shown_readBlocks, textLines_blocksToMarkdown hlined, shown_reread, shown_spaced]

theorem pick_range_le {n : Nat} (h : n ≤ blocks.length) :
    pick blocks (List.range n) = blocks.take n := by
  have hlen : (blocks.take n).length = n := by rw [List.length_take, Nat.min_eq_left h]
  conv_rhs => rw [← pick_range (blocks.take n), hlen]
  exact List.filterMap_congr fun i hi => (List.getElem?_take_of_lt (List.mem_range.mp hi)).symm

theorem linesOf_cons (block : Block) (blocks : List Block) :
    linesOf (block :: blocks) = block.lines ++ linesOf blocks := List.flatMap_cons

/-- Blocks that are picked in another order and are printed and read as they were stand in
their order. -/
theorem order_of_shown {isOpen : Bool} (h : Follows isOpen other)
    (hheaded : ∀ block ∈ other, block.heading ≠ none) {places : List Nat}
    (hperm : places.Perm (List.range other.length))
    (horder : places.Pairwise fun j j' => ∀ k, (headings other)[j]? = some (some k) →
      (headings other)[j']? = some (some k) → j < j')
    (hshown : shown (linesOf (pick other places)) = shown (linesOf other)) :
    places = List.range other.length := by
  have hnodup : places.Nodup := hperm.nodup_iff.mpr List.nodup_range
  have hlen : places.length = other.length := by rw [hperm.length_eq, List.length_range]
  refine eq_range_of_step hlen fun i j htake hj => ?_
  have hi : i < other.length := hlen ▸ (List.getElem?_eq_some_iff.mp hj).1
  have hjlt : j < other.length := List.mem_range.mp (hperm.mem_iff.mp (List.mem_of_getElem? hj))
  have hplaces : places = List.range i ++ j :: places.drop (i + 1) := by
    conv_lhs => rw [← List.take_append_drop i places, htake,
      List.drop_eq_getElem_cons (hlen ▸ hi)]
    rw [List.getElem?_eq_getElem (hlen ▸ hi), Option.some.injEq] at hj
    rw [hj]
  -- an earlier place under the heading of `j` has come already
  have hearlier : ∀ {j'}, j' < j → (headings other)[j']? = (headings other)[j]? → j' < i := by
    intro j' hlt hkey
    have hmem : j' ∈ places := hperm.mem_iff.mpr (List.mem_range.mpr (Nat.lt_trans hlt hjlt))
    rw [hplaces, List.mem_append, List.mem_range, List.mem_cons] at hmem
    rcases hmem with hmem | rfl | hmem
    · exact hmem
    · omega
    · rw [hplaces] at horder
      obtain ⟨k, hk⟩ : ∃ k, (headings other)[j]? = some (some k) := by
        apply headed_iff.mp
        unfold headed
        rw [List.getElem?_eq_getElem hjlt]
        exact Option.isSome_iff_ne_none.mpr (hheaded _ (List.getElem_mem hjlt))
      have := (List.pairwise_cons.mp (List.pairwise_append.mp horder).2.1).1 j' hmem k hk
        (hkey.trans hk)
      omega
  rcases Nat.lt_trichotomy j i with hlt | heq | hgt
  · rw [hplaces] at hnodup
    exact absurd rfl ((List.nodup_append.mp hnodup).2.2 j (List.mem_range.mpr hlt) j
      (List.mem_cons_self ..))
  · exact heq
  · exfalso
    have hkey : ∀ n (hn : n < other.length), (headings other)[n]? = some other[n].heading := by
      intro n hn
      rw [headings, List.getElem?_map, List.getElem?_eq_getElem hn]
      rfl
    obtain ⟨_, hformed⟩ := h.formed (List.getElem?_eq_getElem hjlt)
    obtain ⟨_, hformed'⟩ := h.formed (List.getElem?_eq_getElem hi)
    obtain ⟨first, rest, hlines, hblank, hheading⟩ := hformed.first_line
    obtain ⟨first', rest', hlines', hblank', hheading'⟩ := hformed'.first_line
    -- the next line that is printed is the first one of both blocks
    have hfirst : (first.toList.rdropWhile fun c => c == '\r') =
        first'.toList.rdropWhile fun c => c == '\r' := by
      have hpicked : pick other places =
          other.take i ++ other[j] :: pick other (places.drop (i + 1)) := by
        conv_lhs => rw [hplaces]
        rw [pick_append, pick_range_le (Nat.le_of_lt hi)]
        unfold pick
        rw [List.filterMap_cons_some (List.getElem?_eq_getElem hjlt)]
      have hother : other = other.take i ++ other[i] :: other.drop (i + 1) := by
        rw [← List.drop_eq_getElem_cons hi, List.take_append_drop]
      rw [hpicked] at hshown
      conv_rhs at hshown => rw [hother]
      rw [linesOf_append, linesOf_append, shown_append, shown_append, linesOf_cons, linesOf_cons,
        hlines, hlines', List.cons_append, List.cons_append, shown_cons _ _ hblank,
        shown_cons _ _ hblank'] at hshown
      exact (List.cons.inj (List.append_cancel_left hshown)).1
    obtain ⟨hline, htext⟩ := headingText_eq hfirst
    cases hhead : isHeadingLine first with
    | true =>
      rw [if_pos hhead] at hheading
      rw [if_pos (hline ▸ hhead)] at hheading'
      have := hearlier hgt (by rw [hkey i hi, hkey j hjlt, hheading, hheading', htext])
      omega
    | false =>
      rw [if_neg (by rw [hhead]; decide)] at hheading
      obtain ⟨n, rfl⟩ : ∃ n, j = n + 1 := ⟨j - 1, by omega⟩
      have hn : n < other.length := Nat.lt_of_succ_lt hjlt
      have hlast : lastHeading (other.take (n + 1)) = other[n].heading := by
        rw [List.take_succ_eq_append_getElem hn, lastHeading_concat]
      have := hearlier (Nat.lt_succ_self n) (by rw [hkey n hn, hkey _ hjlt, hheading, hlast])
      omega

/-! ### Counting the printed lines -/

def weight (blocks : List Block) : Nat := (shown (linesOf blocks)).length

theorem weight_append (a b : List Block) : weight (a ++ b) = weight a + weight b := by
  unfold weight
  rw [linesOf_append, shown_append, List.length_append]

theorem weight_perm {a b : List Block} (h : a.Perm b) : weight a = weight b :=
  (((h.flatMap_right Block.lines).filter _).map _).length_eq

theorem weight_filterMap (f : Nat → Option Block) (l : List Nat) :
    weight (l.filterMap f) = (l.map fun i => weight (f i).toList).sum := by
  induction l with
  | nil => rfl
  | cons i l ih =>
    have hcons : (i :: l).filterMap f = (f i).toList ++ l.filterMap f := by
      rw [List.filterMap_cons]
      cases f i <;> rfl
    rw [hcons, weight_append, ih, List.map_cons, List.sum_cons]

theorem Follows.weight_pos {isOpen : Bool} (h : Follows isOpen blocks) {block : Block}
    (hmem : block ∈ blocks) : 0 < weight [block] := by
  obtain ⟨i, hi⟩ := List.mem_iff_getElem?.mp hmem
  obtain ⟨_, hformed⟩ := h.formed hi
  obtain ⟨first, rest, hlines, hblank, -⟩ := hformed.first_line
  unfold weight
  rw [linesOf_singleton, hlines, shown_cons _ _ hblank]
  exact Nat.succ_pos _

theorem pick_eq_nil_of_weight {isOpen : Bool} (h : Follows isOpen blocks) {places : List Nat}
    (hweight : weight (pick blocks places) = 0) : pick blocks places = [] := by
  cases hpick : pick blocks places with
  | nil => rfl
  | cons block rest =>
    have hmem : block ∈ blocks := by
      obtain ⟨i, -, hi⟩ := List.mem_filterMap.mp (hpick ▸ List.mem_cons_self .. : block ∈ pick blocks places)
      exact List.mem_of_getElem? hi
    have := h.weight_pos hmem
    rw [hpick, ← List.singleton_append, weight_append] at hweight
    omega

theorem pick_pairedPlaces (base other : List Block) :
    pick other (pairedPlaces base other) = (List.range base.length).filterMap (partner base other) :=
  List.filterMap_filterMap ..

/-- A block of base that is not paired is printed all the same. -/
theorem weight_kept_lt {isOpen : Bool} (h : Follows isOpen base) {i : Nat} (hi : i < base.length)
    (hnone : partner base other i = none) : weight (pick other (pairedPlaces base other)) <
      weight (keptBlocks base other) + weight (pick base (onlyPlaces base base)) := by
  have hheadless : pick base (onlyPlaces base base) = (List.range base.length).filterMap fun i =>
      if headed base i then none else base[i]? := by
    rw [onlyPlaces_self]
    unfold pick
    rw [List.filterMap_filter]
    refine List.filterMap_congr fun i _ => ?_
    cases headed base i <;> rfl
  rw [pick_pairedPlaces, hheadless, keptBlocks, weight_filterMap, weight_filterMap,
    weight_filterMap, ← List.sum_map_add]
  have hpoint : ∀ i ∈ List.range base.length, weight (partner base other i).toList ≤
        weight (base[i]?.bind fun block =>
          if headed base i then some ((partner base other i).getD block) else none).toList +
        weight (if headed base i then none else base[i]?).toList ∧
      (partner base other i = none → weight (partner base other i).toList <
        weight (base[i]?.bind fun block =>
          if headed base i then some ((partner base other i).getD block) else none).toList +
        weight (if headed base i then none else base[i]?).toList) := by
    intro i hi
    have hlt := List.mem_range.mp hi
    have hpos := h.weight_pos (List.getElem_mem hlt)
    rw [List.getElem?_eq_getElem hlt, Option.bind_some]
    cases hheaded : headed base i with
    | false =>
      rw [partner_headless hheaded]
      exact ⟨Nat.zero_le _, fun _ => Nat.lt_of_lt_of_le hpos (Nat.le_add_left _ _)⟩
    | true =>
      cases partner base other i with
      | none => exact ⟨Nat.zero_le _, fun _ => hpos⟩
      | some block => exact ⟨Nat.le_refl _, nofun⟩
  exact List.sum_lt_sum _ _ (fun i hi => (hpoint i hi).1)
    ⟨i, List.mem_range.mpr hi, (hpoint i (List.mem_range.mpr hi)).2 hnone⟩

theorem Lined.pick {places : List Nat} (h : Lined blocks) : Lined (pick blocks places) := by
  intro block hblock
  obtain ⟨i, -, hi⟩ := List.mem_filterMap.mp hblock
  exact h block (List.mem_of_getElem? hi)

theorem Lined.append {a b : List Block} (ha : Lined a) (hb : Lined b) : Lined (a ++ b) := by
  intro block hblock
  rcases List.mem_append.mp hblock with hblock | hblock
  · exact ha block hblock
  · exact hb block hblock

theorem Lined.keptBlocks (hbase : Lined base) (hother : Lined other) :
    Lined (keptBlocks base other) := by
  intro block hblock
  obtain ⟨i, -, hi⟩ := List.mem_filterMap.mp hblock
  obtain ⟨baseBlock, hb, hkept⟩ := Option.bind_eq_some_iff.mp hi
  split at hkept
  · rw [Option.some.injEq] at hkept
    cases hpartner : partner base other i with
    | none =>
      rw [hpartner, Option.getD_none] at hkept
      exact hkept ▸ hbase _ (List.mem_of_getElem? hb)
    | some found =>
      rw [hpartner, Option.getD_some] at hkept
      obtain ⟨j, -, hj⟩ := Option.bind_eq_some_iff.mp hpartner
      exact hkept ▸ hother _ (List.mem_of_getElem? hj)
  · cases hkept

theorem get_byBase_of_partner {i : Nat} (h : partner base other i ≠ none) :
    ∃ j, (byBase (matchBlocks base other)).get i = some j := by
  unfold partner at h
  cases hget : (byBase (matchBlocks base other)).get i with
  | none => rw [hget] at h; exact absurd rfl h
  | some j => exact ⟨j, rfl⟩

/-- All of base is paired, and the places of the other side are in their order. -/
theorem begins_of_arranged (hall : ∀ i < base.length, partner base other i ≠ none)
    (harranged : pairedPlaces base other ++ onlyPlaces base other = List.range other.length) :
    headings base <+: headings other := by
  have hmap : pairedPlaces base other =
      (List.range base.length).map fun i => ((byBase (matchBlocks base other)).get i).getD 0 := by
    rw [← List.filterMap_eq_map]
    refine List.filterMap_congr fun i hi => ?_
    obtain ⟨j, hj⟩ := get_byBase_of_partner (hall i (List.mem_range.mp hi))
    simp [hj]
  have hlen : (pairedPlaces base other).length = base.length := by
    rw [hmap, List.length_map, List.length_range]
  rw [List.prefix_iff_getElem?]
  intro i hi
  rw [length_headings] at hi
  obtain ⟨j, hj⟩ := get_byBase_of_partner (hall i hi)
  have hij : i = j := by
    have hget : (pairedPlaces base other ++ onlyPlaces base other)[i]? = some j := by
      rw [List.getElem?_append_left (hlen ▸ hi), hmap, List.getElem?_map,
        List.getElem?_range hi, Option.map_some, hj]
      rfl
    rw [harranged] at hget
    have hrange := (List.getElem?_eq_some_iff.mp hget).2
    rwa [List.getElem_range] at hrange
  subst hij
  obtain ⟨k, hi', hk⟩ := (paired_pairing base other).keys (get_byBase_eq_some.mp hj)
  rw [hk, ← hi', List.getElem?_eq_getElem]

theorem arranged_order (base other : List Block) :
    (pairedPlaces base other ++ onlyPlaces base other).Pairwise fun j j' =>
      ∀ k, (headings other)[j]? = some (some k) → (headings other)[j']? = some (some k) → j < j' := by
  have := (paired_pairing base other).arranged_pairwise (fun _ _ => get_byBase_eq_some)
    (only_pairwise base other) (fun j => by rw [mem_only, length_headings])
  unfold Pairing.arranged at this
  rwa [length_headings] at this

theorem weight_arranged (base other : List Block) :
    weight (pick other (pairedPlaces base other)) + weight (pick other (onlyPlaces base other)) =
      weight other := by
  rw [← weight_append, ← pick_append]
  exact (weight_perm ((arranged_perm base other).filterMap _)).trans (congrArg weight (pick_range other))

theorem weight_onlyPlaces (base other : List Block) :
    weight (pick other ((onlyPlaces base other).filter (headed other))) +
        weight (pick other ((onlyPlaces base other).filter fun i => !headed other i)) =
      weight (pick other (onlyPlaces base other)) := by
  rw [← weight_append, ← pick_append]
  exact weight_perm ((List.filter_append_perm (headed other) (onlyPlaces base other)).filterMap
    fun i => other[i]?)

/-- The blocks without a heading are there twice, so there are none. -/
theorem headed_of_same {isOpen : Bool} (h : Follows isOpen other) (hlined : Lined other)
    (hsame : parseBlocks (blocksToMarkdown (pick other (pairedPlaces base other) ++
      pick other ((onlyPlaces base other).filter (headed other)) ++
      pick other ((onlyPlaces base other).filter fun i => !headed other i) ++
      pick other ((onlyPlaces base other).filter fun i => !headed other i))) = other) :
    ∀ i < other.length, headed other i = true := by
  have hweight : weight other = _ := congrArg List.length
    (shown_of_reparsed (((hlined.pick.append hlined.pick).append hlined.pick).append hlined.pick) hsame)
  change weight other = weight _ at hweight
  rw [weight_append, weight_append, weight_append] at hweight
  have hplaces := weight_arranged base other
  have hsplit := weight_onlyPlaces base other
  have hheadless : pick other ((onlyPlaces base other).filter fun i => !headed other i) = [] :=
    pick_eq_nil_of_weight h (by omega)
  intro i hi
  by_contra hno
  rw [Bool.not_eq_true] at hno
  have hmem : i ∈ onlyPlaces base other := by
    refine mem_only.mpr ⟨hi, fun j hpaired => ?_⟩
    obtain ⟨k, -, hk⟩ := (paired_pairing base other).keys hpaired
    rw [headed_iff.mpr ⟨k, hk⟩] at hno
    cases hno
  have hpicked : other[i] ∈ pick other ((onlyPlaces base other).filter fun i => !headed other i) :=
    List.mem_filterMap.mpr ⟨i, List.mem_filter.mpr ⟨hmem, by rw [hno]; rfl⟩,
      List.getElem?_eq_getElem hi⟩
  rw [hheadless] at hpicked
  cases hpicked

/-- A block of base that is not paired comes back, so all are paired. -/
theorem partner_of_base_left {isOpen : Bool} (h : Follows isOpen base) (hbase : Lined base)
    (hother : Lined other)
    (hleft : parseBlocks (blocksToMarkdown (keptBlocks base other ++
      pick base (onlyPlaces base base) ++ pick other (onlyPlaces base other))) = other) :
    ∀ i < base.length, partner base other i ≠ none := by
  intro i hi hnone
  have hweight : weight other = _ := congrArg List.length
    (shown_of_reparsed (((hbase.keptBlocks hother).append hbase.pick).append hother.pick) hleft)
  change weight other = weight _ at hweight
  rw [weight_append, weight_append] at hweight
  have := weight_arranged base other
  have := weight_kept_lt h hi hnone
  omega

/-! ### The laws -/

theorem parseBlocks_follows (content : String) : ∃ isOpen, Follows isOpen (parseBlocks content) :=
  readBlocks_follows (textLines content)

/-- The merged text has the blocks of this one. -/
def Keeps (base ours theirs text : String) : Prop :=
  (merge base ours theirs).map parseBlocks = some (parseBlocks text)

theorem keeps_iff {b o t x : String} {merged : List Block}
    (h : mergeBlocks (parseBlocks b) (parseBlocks o) (parseBlocks t) = some merged) :
    Keeps b o t x ↔ parseBlocks (blocksToMarkdown merged) = parseBlocks x := by
  unfold Keeps merge
  rw [h]
  exact Option.some_inj

/-- The identity laws hold exactly when base has the first headings of the other text, all of
whose blocks are under headings, and the text is printable. -/
theorem identity_laws_iff (b x : String) :
    (Keeps b x x x ∧ Keeps b b x x ∧ Keeps b x b x) ↔
      Extends (parseBlocks b) (parseBlocks x) ∧ Printable (parseBlocks x) := by
  obtain ⟨_, hb⟩ := parseBlocks_follows b
  obtain ⟨_, hx⟩ := parseBlocks_follows x
  have hlb := parseBlocks_lined b
  have hlx := parseBlocks_lined x
  constructor
  · rintro ⟨hsame, hleft, -⟩
    rw [keeps_iff (mergeBlocks_same ..)] at hsame
    rw [keeps_iff (mergeBlocks_base_left ..)] at hleft
    have hheaded := headed_of_same hx hlx hsame
    have hall := partner_of_base_left hb hlb hlx hleft
    have honly : ∀ i ∈ onlyPlaces (parseBlocks b) (parseBlocks x),
        headed (parseBlocks x) i = true := fun i hi => hheaded i (mem_only.mp hi).1
    have hnone : (onlyPlaces (parseBlocks b) (parseBlocks x)).filter
        (fun i => !headed (parseBlocks x) i) = [] :=
      List.filter_eq_nil_iff.mpr fun i hi => by rw [honly i hi]; decide
    have hblocks : ∀ block ∈ parseBlocks x, block.heading ≠ none := by
      intro block hblock
      obtain ⟨i, hi⟩ := List.mem_iff_getElem?.mp hblock
      have := hheaded i (List.getElem?_eq_some_iff.mp hi).1
      unfold headed at this
      rw [hi, Option.any_some] at this
      exact Option.isSome_iff_ne_none.mp this
    have hnil : pick (parseBlocks x) [] = [] := rfl
    rw [hnone, List.filter_eq_self.mpr honly, hnil, List.append_nil, List.append_nil,
      ← pick_append] at hsame
    have harranged := order_of_shown hx hblocks (arranged_perm ..) (arranged_order ..)
      (shown_of_reparsed hlx.pick hsame).symm
    rw [harranged, pick_range] at hsame
    exact ⟨⟨hblocks, begins_of_arranged hall harranged⟩, (parse_print_iff hx hlx).mp hsame⟩
  · rintro ⟨hextends, hprint⟩
    obtain ⟨hsame, hleft, hright⟩ := hextends.mergeBlocks_eq
    have hparse := (parse_print_iff hx hlx).mpr hprint
    exact ⟨(keeps_iff hsame).mpr hparse, (keeps_iff hleft).mpr hparse, (keeps_iff hright).mpr hparse⟩

/-! ### One side changed -/

/-- The place of the other side under the same heading, with as many before it. -/
def sameRank (base other : List Block) (i j : Nat) : Bool :=
  match (headings base)[i]? with
  | some (some k) => decide ((headings other)[j]? = some (some k)) &&
    decide (Pairing.rank (headings base) k i = Pairing.rank (headings other) k j)
  | _ => false

def counterpart (base other : List Block) (i : Nat) : Option Block :=
  ((List.range other.length).find? (sameRank base other i)).bind fun j => other[j]?

/-- The blocks of the other side that take the places of base's. -/
def taken (base other : List Block) : List Block :=
  (List.range base.length).filterMap (counterpart base other)

/-- The same, and base's own where the other side has none. -/
def completed (base other : List Block) : List Block :=
  (List.range base.length).filterMap fun i => (counterpart base other i).or base[i]?

def additions (base other : List Block) : List Block :=
  pick other ((List.range other.length).filter fun j =>
    !(List.range base.length).any fun i => sameRank base other i j)

theorem sameRank_iff {i j : Nat} : sameRank base other i j = true ↔ Paired base other i j := by
  rw [(paired_pairing base other).iff_rank]
  unfold sameRank
  split
  · rename_i k hk
    simp [hk]
  · rename_i hno
    refine iff_of_false nofun ?_
    rintro ⟨k, hk, -⟩
    exact hno k hk

theorem counterpart_eq (base other : List Block) (i : Nat) :
    counterpart base other i = partner base other i := by
  unfold counterpart partner
  congr 1
  cases hget : (byBase (matchBlocks base other)).get i with
  | none =>
    refine List.find?_eq_none.mpr fun j _ hj => ?_
    rw [get_byBase_eq_some.mpr (sameRank_iff.mp hj)] at hget
    cases hget
  | some j =>
    have hpaired := get_byBase_eq_some.mp hget
    cases hfind : (List.range other.length).find? (sameRank base other i) with
    | none =>
      have hj := (paired_pairing base other).lt_right hpaired
      rw [length_headings] at hj
      exact absurd (sameRank_iff.mpr hpaired) (List.find?_eq_none.mp hfind j (List.mem_range.mpr hj))
    | some j' =>
      have hj' := sameRank_iff.mp (List.find?_some hfind)
      rw [(paired_pairing base other).right_unique hj' hpaired]

theorem additions_eq (base other : List Block) :
    additions base other = pick other (onlyPlaces base other) := by
  unfold additions onlyPlaces
  rw [only_matchBlocks]
  congr 1
  refine List.filter_congr fun j _ => ?_
  rw [Bool.not_inj_iff, Bool.eq_iff_iff, List.any_eq_true, List.contains_iff_mem,
    (matchOthers_ok base other).mem_other]
  constructor
  · rintro ⟨i, -, hi⟩
    exact ⟨i, sameRank_iff.mp hi⟩
  · rintro ⟨i, hi⟩
    have hlt := (paired_pairing base other).keys hi
    obtain ⟨k, hk, -⟩ := hlt
    have hlt := (List.getElem?_eq_some_iff.mp hk).1
    rw [length_headings] at hlt
    exact ⟨i, List.mem_range.mpr hlt, sameRank_iff.mpr hi⟩

theorem taken_eq (base other : List Block) :
    taken base other = pick other (pairedPlaces base other) := by
  rw [pick_pairedPlaces]
  exact List.filterMap_congr fun i _ => counterpart_eq base other i

theorem UnderHeadings.completed_eq (h : UnderHeadings base) :
    completed base other = keptBlocks base other := by
  refine List.filterMap_congr fun i hi => ?_
  have hi := List.mem_range.mp hi
  rw [counterpart_eq, List.getElem?_eq_getElem hi, Option.bind_some, if_pos (h.headed hi)]
  cases partner base other i <;> rfl

theorem UnderHeadings.onlyPlaces_self (h : UnderHeadings base) : onlyPlaces base base = [] := by
  rw [Markdown.onlyPlaces_self, List.filter_eq_nil_iff]
  intro i hi
  rw [h.headed (List.mem_range.mp hi)]
  decide

/-- With all blocks under headings nothing is in conflict, the block of a heading takes the
place of base's block of it, the others come after, and base's blocks that the changed side
deleted are left out only if both sides did so. -/
theorem merge_markdown_one_side (b x : String) (hb : UnderHeadings (parseBlocks b))
    (hx : UnderHeadings (parseBlocks x)) (hprint : Printable (parseBlocks x)) :
    (mergeBlocks (parseBlocks b) (parseBlocks x) (parseBlocks x) =
        some (taken (parseBlocks b) (parseBlocks x) ++ additions (parseBlocks b) (parseBlocks x)) ∧
      (taken (parseBlocks b) (parseBlocks x) ++
        additions (parseBlocks b) (parseBlocks x)).Perm (parseBlocks x)) ∧
    (mergeBlocks (parseBlocks b) (parseBlocks b) (parseBlocks x) =
        some (completed (parseBlocks b) (parseBlocks x) ++
          additions (parseBlocks b) (parseBlocks x)) ∧
      mergeBlocks (parseBlocks b) (parseBlocks x) (parseBlocks b) =
        some (completed (parseBlocks b) (parseBlocks x) ++
          additions (parseBlocks b) (parseBlocks x))) ∧
    ((Keeps b x x x ∧ Keeps b b x x ∧ Keeps b x b x) ↔
      headings (parseBlocks b) <+: headings (parseBlocks x)) := by
  have hall : ∀ i ∈ onlyPlaces (parseBlocks b) (parseBlocks x), headed (parseBlocks x) i = true :=
    fun i hi => hx.headed (mem_only.mp hi).1
  have hnone : (onlyPlaces (parseBlocks b) (parseBlocks x)).filter
      (fun i => !headed (parseBlocks x) i) = [] :=
    List.filter_eq_nil_iff.mpr fun i hi => by rw [hall i hi]; decide
  have hnil : ∀ blocks : List Block, pick blocks [] = [] := fun _ => rfl
  rw [mergeBlocks_same, mergeBlocks_base_left, mergeBlocks_base_right, hb.onlyPlaces_self, hnone,
    List.filter_eq_self.mpr hall, hnil, hnil, List.append_nil, List.append_nil, List.append_nil,
    List.append_nil, taken_eq, additions_eq, hb.completed_eq]
  refine ⟨⟨rfl, ?_⟩, ⟨rfl, rfl⟩, ?_⟩
  · rw [← pick_append]
    have hperm := (arranged_perm (parseBlocks b) (parseBlocks x)).filterMap
      fun i => (parseBlocks x)[i]?
    exact hperm.trans (.of_eq (pick_range (parseBlocks x)))
  · rw [identity_laws_iff]
    exact ⟨fun h => h.1.begins, fun h => ⟨⟨hx, h⟩, hprint⟩⟩

instance (base ours theirs text : String) : Decidable (Keeps base ours theirs text) :=
  inferInstanceAs (Decidable (_ = _))

instance (blocks : List Block) : Decidable (UnderHeadings blocks) :=
  inferInstanceAs (Decidable (∀ block ∈ blocks, _))

theorem merge_one_side_sections :
    (mergeBlocks (parseBlocks "# A\n\ntext\n\n# B") (parseBlocks "# A\n\nnew") (parseBlocks "# A\n\nnew") =
        some (taken (parseBlocks "# A\n\ntext\n\n# B") (parseBlocks "# A\n\nnew") ++
          additions (parseBlocks "# A\n\ntext\n\n# B") (parseBlocks "# A\n\nnew"))) :=
  (merge_markdown_one_side "# A\n\ntext\n\n# B" "# A\n\nnew" (by decide +kernel) (by decide +kernel)
    ⟨by decide +kernel, by decide +kernel⟩).1.1

/-- A section that one side deletes comes back from the other. -/
theorem deleted_section_kept : ¬ ∀ b x : String, Keeps b x x x ∧ Keeps b b x x ∧ Keeps b x b x :=
  fun h => absurd (h "# A\n\n# B" "# A").2.1 (by decide +kernel)

end Suture.Driver.Markdown
