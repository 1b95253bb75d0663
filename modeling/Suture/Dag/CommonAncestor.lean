import Suture.Dag.Chain

/-!
# Common ancestors and replay order

The candidates for the common ancestor of two patches are compared by generation and then by
id, so the choice does not depend on which patch is asked about first, and what is chosen has
no shared patch above it. By generation, a chain has parents before children.
-/

namespace Suture.Dag
set_option autoImplicit false
open Foundation Common Patches

namespace PatchDag
variable {H : Type} [LinearOrder H] {d : PatchDag H} {a b : H}

/-! ### The choice among shared patches -/

theorem Beats.antisymm {x y : H} (hxy : d.Beats x y) (hyx : d.Beats y x) : x = y := by
  rcases hxy with hxy | ⟨hxy, hid⟩
  · rcases hyx with hyx | ⟨hyx, -⟩ <;> omega
  · rcases hyx with hyx | ⟨-, hid'⟩
    · omega
    · exact le_antisymm hid hid'

theorem shared_comm {p : H} : d.Shared a b p ↔ d.Shared b a p := and_comm

/-- It does not matter which patch is asked about first. -/
theorem lca_comm (hd : d.Sound) (a b : H) : (d.lca a b).1 = (d.lca b a).1 := by
  obtain ⟨hnone, hsome⟩ := lca_spec hd a b
  obtain ⟨hnone', hsome'⟩ := lca_spec hd b a
  cases hm : (d.lca a b).1 with
  | none =>
    cases hm' : (d.lca b a).1 with
    | none => rfl
    | some m' => exact absurd (shared_comm.mp (hsome' m' hm').1) (hnone hm m')
  | some m =>
    have hshared := (hsome m hm).1
    cases hm' : (d.lca b a).1 with
    | none => exact absurd (shared_comm.mp hshared) (hnone' hm' m)
    | some m' =>
      have hshared' := (hsome' m' hm').1
      have hmm' := (lca_beats hd a b).2 m hm |>.2 m' (shared_comm.mp hshared')
      have hm'm := (lca_beats hd b a).2 m' hm' |>.2 m (shared_comm.mp hshared)
      exact congrArg some (hmm'.antisymm hm'm)

/-- `lca` answers exactly when some patch is shared, and then with one that no other shared
patch is above, whichever of the two is asked about first. -/
theorem lca_lowest (h : Built d) (a b : H) :
    ((d.lca a b).1.isSome = true ↔ ∃ p, d.Shared a b p) ∧
      (∀ c, (d.lca a b).1 = some c → d.Shared a b c ∧ ∀ p, d.Shared a b p → ¬ d.Reaches p c) ∧
      (d.lca a b).1 = (d.lca b a).1 := by
  have hd := h.sound
  obtain ⟨hnone, hsome⟩ := lca_spec hd a b
  refine ⟨?_, ?_, lca_comm hd a b⟩
  · constructor
    · intro hc
      obtain ⟨c, hc⟩ := Option.isSome_iff_exists.mp hc
      exact ⟨c, (hsome c hc).1⟩
    · intro hp
      obtain ⟨p, hp⟩ := hp
      cases hc : (d.lca a b).1 with
      | none => exact absurd hp (hnone hc p)
      | some c => rfl
  · intro c hc
    refine ⟨(hsome c hc).1, ?_⟩
    intro p hp hpc
    -- generations fall along edges, so a patch above `c` would have been chosen
    have hle := (hsome c hc).2 p hp
    have hlt := (hd.graded.reaches hpc).2
    omega

/-- After a criss-cross the smaller of the two shared patches is chosen. -/
theorem lca_lowest_crissCross :
    (crissCross.lca 4 5).1 = some 2 ∧
      ((crissCross.lca 4 5).1.isSome = true ↔ ∃ p, crissCross.Shared 4 5 p) ∧
      (∀ c, (crissCross.lca 4 5).1 = some c →
        crissCross.Shared 4 5 c ∧ ∀ p, crissCross.Shared 4 5 p → ¬ crissCross.Reaches p c) ∧
      (crissCross.lca 4 5).1 = (crissCross.lca 5 4).1 := by
  have hbuilt : Built crissCross := Run.of_allows _ (by decide +kernel)
  exact ⟨by decide +kernel, lca_lowest hbuilt 4 5⟩

/-! ### The order of a chain -/

/-- A sorted chain has a patch before each patch of higher generation. -/
theorem sublist_of_lexLt {g : H → Nat} {l : List H} (hl : l.Pairwise (LexLt g)) {x y : H}
    (hx : x ∈ l) (hy : y ∈ l) (hxy : g x < g y) : [x, y].Sublist l := by
  induction l with
  | nil => cases hx
  | cons z l ih =>
    obtain ⟨hz, hl⟩ := List.pairwise_cons.mp hl
    rcases List.mem_cons.mp hx with hxz | hxl
    · rcases List.mem_cons.mp hy with hyz | hyl
      · rw [hxz, hyz] at hxy
        omega
      · rw [hxz]
        exact (List.singleton_sublist.mpr hyl).cons_cons z
    · rcases List.mem_cons.mp hy with hyz | hyl
      · rw [hyz] at hxy
        rcases hz x hxl with hlt | ⟨heq, -⟩ <;> omega
      · exact (ih hl hxl hyl).cons z

/-- `patch_chain_full` lists a history once each, parents before children. -/
theorem patchChainFull_order (h : Built d) (id : H) :
    (d.patchChainFull id).1.Nodup ∧
      (∀ p, p ∈ (d.patchChainFull id).1 ↔ p = id ∨ d.Reaches id p) ∧
      ∀ p ∈ (d.patchChainFull id).1, ∀ q ∈ d.parents p, [q, p].Sublist (d.patchChainFull id).1 := by
  have hd := h.sound
  rw [patchChainFull_eq hd.cache]
  refine ⟨?_, fun p => mem_chain, ?_⟩
  · apply (d.chain_sorted id).imp
    intro x y hxy heq
    subst heq
    rcases hxy with hlt | ⟨-, hlt⟩
    · exact absurd hlt (Nat.lt_irrefl _)
    · exact absurd hlt (lt_irrefl _)
  · intro p hp q hq
    have hstep : d.Reaches p q := .single hq
    have hhistory := mem_chain.mp hp
    apply sublist_of_lexLt (d.chain_sorted id)
    · exact mem_chain.mpr (hhistory.trans (.inr hstep))
    · exact hp
    · exact (hd.graded.reaches hstep).2

theorem patchChainFull_order_crissCross :
    (crissCross.patchChainFull 4).1 = [1, 2, 3, 4] ∧ (crissCross.patchChainFull 4).1.Nodup ∧
      (∀ p, p ∈ (crissCross.patchChainFull 4).1 ↔ p = 4 ∨ crissCross.Reaches 4 p) ∧
      ∀ p ∈ (crissCross.patchChainFull 4).1, ∀ q ∈ crissCross.parents p,
        [q, p].Sublist (crissCross.patchChainFull 4).1 := by
  have hbuilt : Built crissCross := Run.of_allows _ (by decide +kernel)
  exact ⟨by decide +kernel, patchChainFull_order hbuilt 4⟩

end PatchDag
end Suture.Dag
