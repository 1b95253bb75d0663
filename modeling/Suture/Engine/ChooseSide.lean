import Suture.Engine.MergeSymmetry

/-!
# Choosing one side in every conflict

A conflict block lists what each side inserts and passes over what either side deletes. The half
of one side gives its text back where it deletes at least as much as the other side does.
-/

namespace Suture.Engine
set_option autoImplicit false
open Foundation

variable {base ours theirs : List String}

inductive Side where
  | ours
  | theirs
deriving DecidableEq, Repr

namespace Side

def half : Side → SideAction → SideAction → List String
  | .ours, a, _ => a.outputLines
  | .theirs, _, b => b.outputLines

/-- What a side does at a line, of what both do there. -/
def own {α : Type} : Side → α → α → α
  | .ours, a, _ => a
  | .theirs, _, b => b

def other : Side → Side
  | .ours => .theirs
  | .theirs => .ours

def action : Side → Segment → Option (Nat × SideAction)
  | .ours => Segment.oursAction
  | .theirs => Segment.theirsAction

end Side

instance : Decidable (Trivial base ours theirs) :=
  inferInstanceAs (Decidable (ours = theirs ∨ base = ours ∨ base = theirs))

/-- The lines of a segment, with the half of one side for a conflict block. -/
def Segment.resolve (side : Side) (base : List String) : Segment → List String
  | .kept i => [base.getD i ""]
  | .ours _ a | .theirs _ a | .same _ a _ => a.outputLines
  | .conflict _ a b => side.half a b

def conflictBlocks (base ours theirs : List String) : List Segment :=
  if Trivial base ours theirs then [] else (mergeTrace base ours theirs).filter (·.isConflict)

/-- The output with the half of one side in place of every conflict block. -/
def resolved (side : Side) (base ours theirs : List String) (labels : MergeLabels) : List String :=
  if Trivial base ours theirs then (threeWayMergeLines base ours theirs labels).lines
  else (mergeTrace base ours theirs).flatMap (·.resolve side base)

/-- Every hunk of a side takes part in a conflict block. -/
def Contested (side : Side) (base ours theirs : List String) : Prop :=
  ∀ s x, sideHunks base (side.own ours theirs) s = some x →
    ∃ seg ∈ conflictBlocks base ours theirs, ∃ a, side.action seg = some (s, a)

/-- With all hunks of the other side in conflicts, the halves of `side` give its text back. -/
def Recovers (side : Side) (base ours theirs : List String) : Prop :=
  Contested side.other base ours theirs →
    ∀ labels, resolved side base ours theirs labels = side.own ours theirs

/-- In every conflict `side` deletes at least as many lines as the other side. -/
def Outdeletes (side : Side) (base ours theirs : List String) : Prop :=
  ∀ seg ∈ conflictBlocks base ours theirs, ∀ i j a b,
    side.action seg = some (i, a) → side.other.action seg = some (j, b) → b.advance ≤ a.advance

/-- No hunk of `side` that starts before the end of a conflict block reaches past it. -/
def EndsInside (side : Side) (base ours theirs : List String) : Prop :=
  ∀ seg ∈ conflictBlocks base ours theirs, ∀ i a, side.action seg = some (i, a) →
    ∀ s x, sideHunks base (side.own ours theirs) s = some x → s < i + seg.advance →
      s + x.deleted ≤ i + seg.advance

/-- The conflict block is the marked text of which `resolve` takes one half. -/
theorem render_conflict (labels : MergeLabels) (i : Nat) (a b : SideAction) :
    (Segment.conflict i a b).render labels base =
      labels.conflict ((Segment.conflict i a b).resolve .ours base)
        ((Segment.conflict i a b).resolve .theirs base) := rfl

theorem render_of_not_conflict (labels : MergeLabels) (side : Side) {seg : Segment}
    (h : seg.isConflict = false) : seg.render labels base = seg.resolve side base := by
  cases seg with
  | conflict i a b => cases h
  | _ => rfl

/-! ### Conflict blocks -/

theorem mem_conflictBlocks (h : ¬ Trivial base ours theirs) {seg : Segment} :
    seg ∈ conflictBlocks base ours theirs ↔ ∃ s a b,
      Reached (sideHunks base ours) (sideHunks base theirs) s ∧
        buildChangeMap (diffLines base ours) s = some a ∧
        buildChangeMap (diffLines base theirs) s = some b ∧ a.outputLines ≠ b.outputLines ∧
        seg = .conflict s a b := by
  unfold conflictBlocks
  rw [if_neg h, List.mem_filter]
  constructor
  · intro hseg
    obtain ⟨hseg, hconf⟩ := hseg
    obtain ⟨s, -, hs, htaken | ⟨-, -, rfl⟩⟩ := (mem_trace_zero bounded_ours bounded_ours _).mp hseg
    · obtain ⟨a, b, ha, hb, hne⟩ := taken_conflict_iff.mp ⟨seg, htaken, hconf⟩
      refine ⟨s, a, b, hs, ha, hb, hne, ?_⟩
      rw [taken, ha, hb] at htaken
      dsimp only at htaken
      rw [if_neg hne] at htaken
      exact (Option.some.inj htaken).symm
    · cases hconf
  · intro hseg
    obtain ⟨s, a, b, hs, ha, hb, hne, rfl⟩ := hseg
    refine ⟨?_, rfl⟩
    have hle := bounded_ours s a ha
    apply (mem_trace_zero bounded_ours bounded_ours _).mpr
    refine ⟨s, by omega, hs, .inl ?_⟩
    rw [taken, ha, hb]
    dsimp only
    rw [if_neg hne]

/-- A hunk in a conflict meets a hunk of the other side that inserts other lines. -/
theorem Contested.conflict {side : Side} (h : Contested side base ours theirs)
    (htriv : ¬ Trivial base ours theirs) {s : Nat} {x : SideAction}
    (hx : buildChangeMap (diffLines base (side.own ours theirs)) s = some x) :
    ∃ a b, buildChangeMap (diffLines base ours) s = some a ∧
      buildChangeMap (diffLines base theirs) s = some b ∧ a.outputLines ≠ b.outputLines := by
  have hhunk : sideHunks base (side.own ours theirs) s = some x.toHunk := by
    rw [sideHunks, ChangeMap.hunks, hx]
    rfl
  obtain ⟨seg, hseg, a, ha⟩ := h s _ hhunk
  obtain ⟨s', a', b', -, ha', hb', hne, rfl⟩ := (mem_conflictBlocks htriv).mp hseg
  have hs : s' = s := by
    cases side with
    | ours => exact (Prod.mk.inj (Option.some.inj ha)).1
    | theirs => exact (Prod.mk.inj (Option.some.inj ha)).1
  subst hs
  exact ⟨a', b', ha', hb', hne⟩

/-! ### The walk with one half -/

/-- Where the other side acts in conflicts only, the walk emits what the side inserts, and
outside of conflicts passes over what it deletes. -/
theorem chosen_step {side : Side} (hcont : Contested side.other base ours theirs)
    (htriv : ¬ Trivial base ours theirs) (i : Nat) :
    (taken (buildChangeMap (diffLines base ours)) (buildChangeMap (diffLines base theirs)) i).toList.flatMap
        (·.resolve side base) = insertedAt (sideHunks base (side.own ours theirs)) i ∧
      (span (sideHunks base ours) (sideHunks base theirs) i =
          deletedAt (sideHunks base (side.own ours theirs)) i ∨
        ∃ a b, buildChangeMap (diffLines base ours) i = some a ∧
          buildChangeMap (diffLines base theirs) i = some b ∧ a.outputLines ≠ b.outputLines) := by
  have hspan : span (sideHunks base ours) (sideHunks base theirs) i =
      ((taken (buildChangeMap (diffLines base ours)) (buildChangeMap (diffLines base theirs)) i).map
        Segment.advance).getD 0 := span_of_taken
  rw [hspan]
  cases side with
  | ours =>
    have hother : ∀ b, buildChangeMap (diffLines base theirs) i = some b →
        ∃ a b, buildChangeMap (diffLines base ours) i = some a ∧
          buildChangeMap (diffLines base theirs) i = some b ∧ a.outputLines ≠ b.outputLines :=
      fun b hb => hcont.conflict htriv hb
    unfold taken insertedAt deletedAt sideHunks ChangeMap.hunks Side.own
    cases hb : buildChangeMap (diffLines base theirs) i with
    | none =>
      cases ha : buildChangeMap (diffLines base ours) i with
      | none => simp
      | some a => simp [Segment.resolve, Segment.advance, SideAction.toHunk]
    | some b =>
      obtain ⟨a, b', ha, hb', hne⟩ := hother b hb
      rw [hb] at hb'
      cases hb'
      simp [ha, hne, Segment.resolve, Side.half, SideAction.toHunk]
  | theirs =>
    have hother : ∀ a, buildChangeMap (diffLines base ours) i = some a →
        ∃ a b, buildChangeMap (diffLines base ours) i = some a ∧
          buildChangeMap (diffLines base theirs) i = some b ∧ a.outputLines ≠ b.outputLines :=
      fun a ha => hcont.conflict htriv ha
    unfold taken insertedAt deletedAt sideHunks ChangeMap.hunks Side.own
    cases ha : buildChangeMap (diffLines base ours) i with
    | none =>
      cases hb : buildChangeMap (diffLines base theirs) i with
      | none => simp
      | some b => simp [Segment.resolve, Segment.advance, SideAction.toHunk]
    | some a =>
      obtain ⟨a', b, ha', hb, hne⟩ := hother a ha
      rw [ha] at ha'
      cases ha'
      simp [hb, hne, Segment.resolve, Side.half, SideAction.toHunk]

theorem sideHunks_none {side : List String} (h : Exact base side)
    (hnone : ∀ s, sideHunks base side s = none) : side = base := by
  have happlied := h.applied
  rw [funext hnone, applied_none] at happlied
  exact happlied.symm

theorem trivial_recovers {side : Side} (htriv : Trivial base ours theirs)
    (hother : Exact base (side.other.own ours theirs)) : Recovers side base ours theirs := by
  intro hcont labels
  have hblocks : conflictBlocks base ours theirs = [] := if_pos htriv
  have hnone : ∀ s, sideHunks base (side.other.own ours theirs) s = none := by
    intro s
    cases hs : sideHunks base (side.other.own ours theirs) s with
    | none => rfl
    | some x =>
      obtain ⟨seg, hseg, -⟩ := hcont s x hs
      rw [hblocks] at hseg
      cases hseg
  have hsame := sideHunks_none hother hnone
  unfold resolved
  rw [if_pos htriv, (threeWayMergeLines_of_trivial labels htriv).2]
  cases side with
  | ours =>
    have hsame : theirs = base := hsame
    split_ifs with hbase
    · exact hsame.trans hbase
    · rfl
  | theirs =>
    have hsame : ours = base := hsame
    rw [if_pos hsame.symm]
    rfl

/-- A place where both sides act and insert different lines. -/
structure Meets (base ours theirs : List String) (i : Nat) (a b : SideAction) : Prop where
  reached : Reached (sideHunks base ours) (sideHunks base theirs) i
  ours : buildChangeMap (diffLines base ours) i = some a
  theirs : buildChangeMap (diffLines base theirs) i = some b
  differ : a.outputLines ≠ b.outputLines

section Meets
variable {i : Nat} {a b : SideAction}

theorem Meets.mem (h : Meets base ours theirs i a b) (htriv : ¬ Trivial base ours theirs) :
    .conflict i a b ∈ conflictBlocks base ours theirs :=
  (mem_conflictBlocks htriv).mpr ⟨i, a, b, h.reached, h.ours, h.theirs, h.differ, rfl⟩

theorem Meets.span (h : Meets base ours theirs i a b) :
    span (sideHunks base ours) (sideHunks base theirs) i = max a.advance b.advance := by
  have hours := h.ours
  have htheirs := h.theirs
  have hne := h.differ
  unfold Foundation.span sideHunks ChangeMap.hunks
  simp [hours, htheirs, hne, SideAction.toHunk]

theorem Meets.deletedAt (h : Meets base ours theirs i a b) (side : Side) :
    deletedAt (sideHunks base (side.own ours theirs)) i = (side.own a b).advance := by
  have hours := h.ours
  have htheirs := h.theirs
  unfold Foundation.deletedAt sideHunks ChangeMap.hunks
  cases side with
  | ours => simp [Side.own, hours, SideAction.toHunk]
  | theirs => simp [Side.own, htheirs, SideAction.toHunk]

theorem action_conflict (side : Side) :
    side.action (.conflict i a b) = some (i, side.own a b) := by
  cases side <;> rfl

theorem max_own (side : Side) : max a.advance b.advance =
    max (side.own a b).advance (side.other.own a b).advance := by
  cases side with
  | ours => rfl
  | theirs => exact max_comm _ _

end Meets

theorem own_inside (side : Side) (i k : Nat) (hik : i < k)
    (hk : k ≤ i + deletedAt (sideHunks base (side.own ours theirs)) i) :
    sideHunks base (side.own ours theirs) k = none := by
  have hsep : Separated (sideHunks base (side.own ours theirs)) := (diffLines_ok base _).separated
  unfold deletedAt at hk
  cases ha : sideHunks base (side.own ours theirs) i with
  | none =>
    rw [ha, Option.elim_none] at hk
    omega
  | some a =>
    rw [ha, Option.elim_some] at hk
    exact hsep.none_at_end ha hik hk

theorem resolved_of_outdeletes {side : Side} (htriv : ¬ Trivial base ours theirs)
    (h : Outdeletes side base ours theirs) (hcont : Contested side.other base ours theirs)
    (labels : MergeLabels) : resolved side base ours theirs labels =
      newSide (diffLines base (side.own ours theirs)) := by
  have hstep := chosen_step hcont htriv
  have hspan : ∀ i, Reached (sideHunks base ours) (sideHunks base theirs) i →
      span (sideHunks base ours) (sideHunks base theirs) i =
        deletedAt (sideHunks base (side.own ours theirs)) i := by
    intro i hi
    rcases (hstep i).2 with hspan | ⟨a, b, ha, hb, hne⟩
    · exact hspan
    · have hmeets : Meets base ours theirs i a b := ⟨hi, ha, hb, hne⟩
      have hle := h _ (hmeets.mem htriv) i i _ _ (action_conflict side) (action_conflict side.other)
      rw [hmeets.span, hmeets.deletedAt, max_own side, max_eq_left hle]
  have hwalk := trace_applied rfl
    (fun s hs => span_le bounded_ours bounded_ours (Nat.le_of_lt hs)) (fun _ => rfl)
    (fun i _ => (hstep i).1) hspan (fun i k hik hk => own_inside side i k hik (Nat.le_of_lt hk))
    base.length 0 (Nat.zero_add _) reached_zero freeAt_zero
  unfold resolved
  rw [if_neg htriv]
  exact hwalk.trans (applied_sideHunks base _)

theorem recovers_of_outdeletes {side : Side} (hown : Exact base (side.own ours theirs))
    (hother : Exact base (side.other.own ours theirs)) (h : Outdeletes side base ours theirs) :
    Recovers side base ours theirs := by
  by_cases htriv : Trivial base ours theirs
  · exact trivial_recovers htriv hother
  · intro hcont labels
    exact (resolved_of_outdeletes htriv h hcont labels).trans hown

/-! ### Lines that are lost -/

/-- A loop that may pass over more than `H` deletes emits at most as many lines as `H` leaves, and
fewer where it does pass over more. -/
theorem trace_shorter {n : Nat} {H : Hunks String} {emit : Segment → List String}
    {oursMap theirsMap : ChangeMap} (hn : n = base.length)
    (hbound : ∀ s, s < n → s + span oursMap.hunks theirsMap.hunks s ≤ n)
    (hkept : ∀ i, emit (.kept i) = [base.getD i ""])
    (htaken : ∀ i, (taken oursMap theirsMap i).toList.flatMap emit = insertedAt H i)
    (hle : ∀ i, Reached oursMap.hunks theirsMap.hunks i →
      deletedAt H i ≤ span oursMap.hunks theirsMap.hunks i)
    (hnone : ∀ i k, i < k → k ≤ i + deletedAt H i → H k = none)
    (hend : ∀ i, Reached oursMap.hunks theirsMap.hunks i →
      deletedAt H i < span oursMap.hunks theirsMap.hunks i →
        FreeAt H (i + span oursMap.hunks theirsMap.hunks i)) (d : Nat) :
    ∀ i, i + d = n → Reached oursMap.hunks theirsMap.hunks i → FreeAt H i →
      ((trace n oursMap theirsMap i).flatMap emit).length ≤ (appliedFrom H base i).length ∧
        ∀ j, i ≤ j → j < n → Reached oursMap.hunks theirsMap.hunks j →
          deletedAt H j < span oursMap.hunks theirsMap.hunks j →
            ((trace n oursMap theirsMap i).flatMap emit).length < (appliedFrom H base i).length := by
  subst hn
  induction d using Nat.strong_induction_on with
  | _ d ih =>
    intro i hid hi hfree
    rcases Nat.eq_zero_or_pos d with rfl | hpos
    · obtain rfl : i = base.length := hid
      rw [trace_of_ge _ _ (Nat.le_refl _), appliedFrom_of_ge base (Nat.le_refl _), htaken]
      exact ⟨Nat.le_refl _, fun j hij hj => absurd hj (Nat.not_lt_of_le hij)⟩
    · have hlt : i < base.length := by omega
      have hnext := reached_next hi
      have hend' := hbound i hlt
      have hlen := congrArg (fun segs => (segs.flatMap emit).length)
        (@trace_next base.length oursMap theirsMap i hlt)
      simp only [List.flatMap_append, List.length_append, htaken] at hlen
      rcases Nat.eq_or_lt_of_le (hle i hi) with heq | hshort
      · -- nothing is lost here
        have hinside := fun k hik hk => hnone i k hik (Nat.le_of_lt hk)
        have happlied := congrArg List.length
          (appliedFrom_next base hlt hfree hinside (by omega))
        rw [heq] at happlied
        have hfree' := hfree.next hinside
        rw [heq] at hfree'
        obtain ⟨hrest, hrest'⟩ := ih (d - max 1 (span oursMap.hunks theirsMap.hunks i)) (by omega)
          (i + max 1 (span oursMap.hunks theirsMap.hunks i)) (by omega) hnext hfree'
        have hhere : (List.flatMap emit
            (if span oursMap.hunks theirsMap.hunks i = 0 then [Segment.kept i] else [])).length =
          (if span oursMap.hunks theirsMap.hunks i = 0 then base[i]?.toList else []).length := by
          split_ifs
          · rw [List.flatMap_cons, hkept, List.getElem?_eq_getElem hlt]
            rfl
          · rfl
        rw [List.length_append, List.length_append] at happlied
        refine ⟨by omega, ?_⟩
        intro j hij hj hreached hlost
        have hne : j ≠ i := by
          intro hji
          subst hji
          omega
        have hge : i + max 1 (span oursMap.hunks theirsMap.hunks i) ≤ j := by
          by_contra hinner
          exact not_reached_of_jump hi (by omega) (by omega) hreached
        have hlt' := hrest' j hge hj hreached hlost
        omega
      · have hspan : max 1 (span oursMap.hunks theirsMap.hunks i) =
            span oursMap.hunks theirsMap.hunks i := max_eq_right (by omega)
        obtain ⟨hrest, -⟩ := ih (d - span oursMap.hunks theirsMap.hunks i) (by omega)
          (i + span oursMap.hunks theirsMap.hunks i) (by omega) (by rwa [hspan] at hnext)
          (hend i hi hshort)
        have hlost := length_appliedFrom_lt base hend' hfree (by omega) (hnone i)
        rw [hspan, if_neg (by omega), List.flatMap_nil, List.length_nil] at hlen
        exact ⟨by omega, fun _ _ _ _ _ => by omega⟩

theorem outdeletes_of_recovers {side : Side} (hown : Exact base (side.own ours theirs))
    (hends : EndsInside side base ours theirs) (hcont : Contested side.other base ours theirs)
    (h : Recovers side base ours theirs) : Outdeletes side base ours theirs := by
  intro seg hseg
  have htriv : ¬ Trivial base ours theirs := by
    intro htriv
    rw [conflictBlocks, if_pos htriv] at hseg
    cases hseg
  obtain ⟨s, a, b, hs, ha, hb, hne, rfl⟩ := (mem_conflictBlocks htriv).mp hseg
  have hmeets : Meets base ours theirs s a b := ⟨hs, ha, hb, hne⟩
  intro i j a' b' hown' hother'
  rw [action_conflict, Option.some.injEq, Prod.mk.injEq] at hown' hother'
  obtain ⟨rfl, rfl⟩ := hown'
  obtain ⟨-, rfl⟩ := hother'
  by_contra hlonger
  have hstep := chosen_step hcont htriv
  have hle : ∀ i, Reached (sideHunks base ours) (sideHunks base theirs) i →
      deletedAt (sideHunks base (side.own ours theirs)) i ≤
        span (sideHunks base ours) (sideHunks base theirs) i := by
    intro i hi
    rcases (hstep i).2 with hspan | ⟨a, b, ha, hb, hne⟩
    · exact hspan.ge
    · have hmeets : Meets base ours theirs i a b := ⟨hi, ha, hb, hne⟩
      rw [hmeets.span, hmeets.deletedAt, max_own side]
      exact le_max_left _ _
  have hend : ∀ i, Reached (sideHunks base ours) (sideHunks base theirs) i →
      deletedAt (sideHunks base (side.own ours theirs)) i <
        span (sideHunks base ours) (sideHunks base theirs) i →
          FreeAt (sideHunks base (side.own ours theirs))
            (i + span (sideHunks base ours) (sideHunks base theirs) i) := by
    intro i hi hshort k hk
    rcases (hstep i).2 with hspan | ⟨a, b, ha, hb, hne⟩
    · omega
    · have hmeets : Meets base ours theirs i a b := ⟨hi, ha, hb, hne⟩
      rw [hmeets.span] at hk ⊢
      unfold deletedAt
      cases hx : sideHunks base (side.own ours theirs) k with
      | none =>
        rw [Option.elim_none]
        omega
      | some x => exact hends _ (hmeets.mem htriv) i _ (action_conflict side) k x hx hk
  have hbound : ∀ s, s ≤ base.length →
      s + span (sideHunks base ours) (sideHunks base theirs) s ≤ base.length :=
    fun s hs => span_le bounded_ours bounded_ours hs
  have hshorter := (trace_shorter rfl (fun s hs => hbound s (Nat.le_of_lt hs)) (fun _ => rfl)
    (fun i => (hstep i).1) hle (fun i k hik hk => own_inside side i k hik hk) hend base.length 0
    (Nat.zero_add _) reached_zero freeAt_zero).2 s (Nat.zero_le s)
  have hspan := hmeets.span
  rw [max_own side, max_eq_right (by omega)] at hspan
  have hdel := hmeets.deletedAt side
  have hinside := hbound s (by
    have hle := bounded_ours s a ha
    omega)
  have hlost : deletedAt (sideHunks base (side.own ours theirs)) s <
      span (sideHunks base ours) (sideHunks base theirs) s := by omega
  have hlt := hshorter (by omega) hs hlost
  -- the halves would give back a text that is longer than they are
  have hresolved := h hcont ⟨"", ""⟩
  unfold resolved at hresolved
  rw [if_neg htriv] at hresolved
  have happlied : appliedFrom (sideHunks base (side.own ours theirs)) base 0 = side.own ours theirs :=
    hown.applied
  rw [happlied] at hlt
  have hlen := congrArg List.length hresolved
  exact absurd hlen (Nat.ne_of_lt hlt)

/-- One half of every conflict gives that side back where the diffs are exact and the side deletes
at least as many lines as the other one in each. Where that fails the text is not given back, unless
a hunk of the side reaches past a conflict block. -/
theorem choose_side_recovers (base ours theirs : List String) (side : Side) :
    (Exact base ours → Exact base theirs → Outdeletes side base ours theirs →
        Recovers side base ours theirs) ∧
      (Contested side.other base ours theirs →
        (Outdeletes side base ours theirs → ¬ Trivial base ours theirs →
          (Recovers side base ours theirs ↔ Exact base (side.own ours theirs))) ∧
        (Exact base ours → Exact base theirs → EndsInside side base ours theirs →
          (Recovers side base ours theirs ↔ Outdeletes side base ours theirs))) := by
  have hboth : Exact base ours → Exact base theirs →
      Exact base (side.own ours theirs) ∧ Exact base (side.other.own ours theirs) := by
    intro hours htheirs
    cases side with
    | ours => exact ⟨hours, htheirs⟩
    | theirs => exact ⟨htheirs, hours⟩
  have hrecovers : Exact base ours → Exact base theirs → Outdeletes side base ours theirs →
      Recovers side base ours theirs := by
    intro hours htheirs h
    exact recovers_of_outdeletes (hboth hours htheirs).1 (hboth hours htheirs).2 h
  refine ⟨hrecovers, ?_⟩
  intro hcont
  constructor
  · intro h htriv
    have hresolved := resolved_of_outdeletes htriv h hcont
    constructor
    · intro hback
      exact (hresolved ⟨"", ""⟩).symm.trans (hback hcont ⟨"", ""⟩)
    · intro hown _ labels
      exact (hresolved labels).trans hown
  · intro hours htheirs hends
    constructor
    · intro hback
      exact outdeletes_of_recovers (hboth hours htheirs).1 hends hcont hback
    · intro h
      exact hrecovers hours htheirs h

theorem choose_side_recovers_example :
    Outdeletes .ours ["k", "a", "m"] ["k", "x", "m"] ["k", "y", "m"] ∧
      Recovers .ours ["k", "a", "m"] ["k", "x", "m"] ["k", "y", "m"] := by
  have hblocks : conflictBlocks ["k", "a", "m"] ["k", "x", "m"] ["k", "y", "m"] =
      [.conflict 1 (.deleteInsert 1 ["x"]) (.deleteInsert 1 ["y"])] := by decide +kernel
  have hout : Outdeletes .ours ["k", "a", "m"] ["k", "x", "m"] ["k", "y", "m"] := by
    intro seg hseg i j a b ha hb
    rw [hblocks, List.mem_singleton] at hseg
    subst hseg
    cases ha
    cases hb
    exact Nat.le_refl 1
  have hours : Exact ["k", "a", "m"] ["k", "x", "m"] := exact_of_length (by decide) (by decide)
  have htheirs : Exact ["k", "a", "m"] ["k", "y", "m"] := exact_of_length (by decide) (by decide)
  exact ⟨hout, (choose_side_recovers _ _ _ .ours).1 hours htheirs hout⟩

/-- Theirs puts one line in place of two, ours in place of the first one: the second one, which
ours kept, is in neither half. -/
theorem kept_line_in_neither_half : ¬ ∀ (base ours theirs : List String) (side : Side),
    Recovers side base ours theirs := by
  intro h
  have hactions : sideActions 0 (diffLines ["k", "a", "b", "m"] ["k", "y", "m"]) =
      [(1, .deleteInsert 2 ["y"])] := by decide +kernel
  have hblocks : conflictBlocks ["k", "a", "b", "m"] ["k", "x", "b", "m"] ["k", "y", "m"] =
      [.conflict 1 (.deleteInsert 1 ["x"]) (.deleteInsert 2 ["y"])] := by decide +kernel
  have hresolved := h ["k", "a", "b", "m"] ["k", "x", "b", "m"] ["k", "y", "m"] .ours ?_ ⟨"", ""⟩
  · exact absurd hresolved (by decide +kernel)
  · intro s x hx
    have hx : hunksOf (diffLines ["k", "a", "b", "m"] ["k", "y", "m"]) s = some x := by
      rw [← sideHunks_eq]
      exact hx
    obtain ⟨y, hy, -⟩ := mem_of_hunksOf (diffLines_ok _ _).tidy hx
    rw [hactions, List.mem_singleton] at hy
    cases hy
    rw [hblocks]
    exact ⟨_, List.mem_singleton_self _, _, rfl⟩

end Suture.Engine
