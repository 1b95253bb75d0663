import Suture.Dag.Chain

/-!
# Linear history

Above a base each patch has one parent, the patch before. Walking the first parents from the
tip meets these patches, youngest first, and then only what the base has below it.
-/

namespace Suture.Dag
set_option autoImplicit false
open Foundation Common Patches

namespace PatchDag
variable {H : Type} [LinearOrder H] {d d' : PatchDag H} {base tip : H} {line : List (Patch H)}

/-- The patches of a linear history from above `base` to `tip`, parents first. -/
inductive Line (d : PatchDag H) (base : H) : H → List (Patch H) → Prop where
  | base : d.hasPatch base = true → Line d base base []
  | patch {tip : H} {line : List (Patch H)} {patch : Patch H} : Line d base tip line →
      d.getPatch patch.id = some patch → d.parents patch.id = [tip] →
        Line d base patch.id (line ++ [patch])

namespace Line

theorem known (h : Line d base tip line) : d.hasPatch tip = true := by
  cases h with
  | base hbase => exact hbase
  | patch _ hpatch _ => exact hasPatch_iff.mpr ⟨_, hpatch⟩

theorem getPatch (h : Line d base tip line) {p : Patch H} (hp : p ∈ line) :
    d.getPatch p.id = some p := by
  induction h with
  | base _ => cases hp
  | patch _ hpatch _ ih =>
    rcases List.mem_append.mp hp with hp | hp
    · exact ih hp
    · rw [List.mem_singleton.mp hp]
      exact hpatch

/-- All of the line is above the base, and the tip is on top. -/
theorem generation (hd : d.Graded) (h : Line d base tip line) :
    d.generation base ≤ d.generation tip ∧
      ∀ p ∈ line, d.generation base < d.generation p.id ∧ d.generation p.id ≤ d.generation tip := by
  induction h with
  | base _ => exact ⟨Nat.le_refl _, nofun⟩
  | @patch tip line patch hline hpatch hparents ih =>
    have hlt : d.generation tip < d.generation patch.id :=
      (hd patch.id tip (by rw [hparents]; exact List.mem_singleton_self _)).2
    obtain ⟨hbase, hmem⟩ := ih
    refine ⟨by omega, ?_⟩
    intro p hp
    rcases List.mem_append.mp hp with hp | hp
    · have hp := hmem p hp
      omega
    · rw [List.mem_singleton.mp hp]
      omega

theorem nodup (hd : d.Graded) (h : Line d base tip line) : (line.map Patch.id).Nodup := by
  induction h with
  | base _ => exact List.nodup_nil
  | @patch tip line patch hline hpatch hparents ih =>
    have hlt : d.generation tip < d.generation patch.id :=
      (hd patch.id tip (by rw [hparents]; exact List.mem_singleton_self _)).2
    rw [List.map_append, List.nodup_append]
    refine ⟨ih, List.nodup_singleton _, ?_⟩
    intro id hid id' hid' heq
    obtain ⟨p, hp, rfl⟩ := List.mem_map.mp hid
    have hid' : id' = patch.id := List.mem_singleton.mp hid'
    have hle := ((hline.generation hd).2 p hp).2
    rw [heq, hid'] at hle
    omega

theorem reaches (h : Line d base tip line) {p : Patch H} (hp : p ∈ line) : d.History tip p.id := by
  induction h with
  | base _ => cases hp
  | @patch tip line patch hline hpatch hparents ih =>
    rcases List.mem_append.mp hp with hp | hp
    · have hstep : d.Reaches patch.id tip := .single (show tip ∈ d.parents patch.id by simp [hparents])
      exact History.trans (.inr hstep) (ih hp)
    · rw [List.mem_singleton.mp hp]
      exact .inl rfl

/-- Patches of the line are told apart by their ids. -/
theorem eq_of_ids (h : Line d base tip line) {l l' : List (Patch H)} (hl : ∀ p ∈ l, p ∈ line)
    (hl' : ∀ p ∈ l', p ∈ line) (heq : l.map Patch.id = l'.map Patch.id) : l = l' := by
  have hget : ∀ l : List (Patch H), (∀ p ∈ l, p ∈ line) →
      (l.map Patch.id).filterMap d.getPatch = l := by
    intro l hl
    have hsome : ∀ p ∈ l, (d.getPatch ∘ Patch.id) p = some p := fun p hp => h.getPatch (hl p hp)
    rw [List.filterMap_map, List.filterMap_congr hsome, List.filterMap_some]
  rw [← hget l hl, heq, hget l' hl']

theorem base_known (h : Line d base tip line) : d.hasPatch base = true := by
  induction h with
  | base hbase => exact hbase
  | patch _ _ _ ih => exact ih

theorem of_same (h : Line d base tip line) (hsame : SameGraph d d') : Line d' base tip line := by
  induction h with
  | base hbase => exact .base ((hsame.hasPatch base).trans hbase)
  | patch _ hpatch hparents ih =>
    exact .patch ih ((hsame.getPatch _).trans hpatch) ((hsame.parents _).trans hparents)

end Line

/-! ### The chain of a line -/

theorem history_of_parent {id tip p : H} (h : d.parents id = [tip]) :
    d.History id p ↔ p = id ∨ d.History tip p := by
  have hstep : d.ancestry.Step id tip := by
    change tip ∈ d.parents id
    rw [h]
    exact List.mem_singleton_self _
  unfold History
  refine or_congr_right ?_
  constructor
  · intro hreach
    obtain ⟨q, hq, hqp⟩ := Relation.TransGen.head'_iff.mp hreach
    have hq : q ∈ d.parents id := hq
    rw [h, List.mem_singleton] at hq
    subst hq
    exact Relation.reflTransGen_iff_eq_or_transGen.mp hqp
  · rintro (rfl | hreach)
    · exact .single hstep
    · exact .head hstep hreach

theorem chain_of_parent (hd : d.Graded) {id tip : H} (h : d.parents id = [tip]) :
    d.chain id = d.chain tip ++ [id] := by
  have hlt : d.generation tip < d.generation id :=
    (hd id tip (by rw [h]; exact List.mem_singleton_self _)).2
  refine lex_ext (d.chain_sorted _) ?_ fun p => ?_
  · rw [List.pairwise_append]
    refine ⟨d.chain_sorted tip, List.pairwise_singleton _ _, ?_⟩
    intro x hx y hy
    rw [List.mem_singleton.mp hy]
    exact .inl ((hd.history_le (mem_chain.mp hx)).trans_lt hlt)
  · rw [mem_chain, history_of_parent h, List.mem_append, mem_chain, List.mem_singleton, or_comm]

theorem chain_line (hd : d.Graded) (h : Line d base tip line) :
    d.chain tip = d.chain base ++ line.map Patch.id := by
  induction h with
  | base _ => exact (List.append_nil _).symm
  | patch _ _ hparents ih =>
    rw [chain_of_parent hd hparents, ih, List.map_append, List.append_assoc]
    rfl

/-! ### First parents -/

theorem chainFrom_of_notMem {seen : SortedSet H} {id : H} (h : id ∉ seen) :
    d.chainFrom seen id = id :: match (d.parents id).head? with
      | none => []
      | some parentId => d.chainFrom (seen.insert id) parentId := by
  rw [chainFrom, dif_neg h]
  split <;> rename_i hparent <;> rw [hparent]

theorem history_of_mem_chainFrom {seen : SortedSet H} {id p : H} (h : p ∈ d.chainFrom seen id) :
    d.History id p := by
  induction seen, id using chainFrom.induct d with
  | case1 seen id hseen =>
    rw [chainFrom, dif_pos hseen] at h
    cases h
  | case2 seen id hseen ih =>
    rw [chainFrom_of_notMem hseen, List.mem_cons] at h
    rcases h with rfl | h
    · exact .inl rfl
    · cases hparent : (d.parents id).head? with
      | none =>
        rw [hparent] at h
        cases h
      | some parentId =>
        rw [hparent] at h
        have hstep : d.Reaches id parentId := .single (List.mem_of_head? hparent)
        exact History.trans (.inr hstep) (ih parentId hparent h)

/-- The walk from the tip of a line meets the line and goes on below the base. -/
theorem chainFrom_line (hd : d.Graded) (h : Line d base tip line) {seen : SortedSet H}
    (hseen : ∀ x ∈ seen, d.generation tip < d.generation x) :
    ∃ rest, d.chainFrom seen tip = (line.map Patch.id).reverse ++ rest ∧
      ∀ p ∈ rest, d.History base p := by
  induction h generalizing seen with
  | base _ => exact ⟨_, rfl, fun p hp => history_of_mem_chainFrom hp⟩
  | @patch tip line patch hline hpatch hparents ih =>
    have hlt : d.generation tip < d.generation patch.id :=
      (hd patch.id tip (by rw [hparents]; exact List.mem_singleton_self _)).2
    have hnew : patch.id ∉ seen := fun hmem => absurd (hseen _ hmem) (Nat.lt_irrefl _)
    have hinsert : ∀ x ∈ seen.insert patch.id, d.generation tip < d.generation x := by
      intro x hx
      rcases SortedSet.mem_insert.mp hx with rfl | hx
      · exact hlt
      · exact hlt.trans (hseen x hx)
    obtain ⟨rest, hrest, hbelow⟩ := ih hinsert
    refine ⟨rest, ?_, hbelow⟩
    rw [chainFrom_of_notMem hnew, hparents]
    change patch.id :: d.chainFrom (seen.insert patch.id) tip = _
    rw [hrest, List.map_append, List.reverse_append]
    rfl

/-- What the walk meets that the base does not have: the line. -/
theorem patchChain_line (hd : d.Graded) (h : Line d base tip line) {below : H → Prop}
    [DecidablePred below] (hbelow : ∀ p, below p ↔ d.History base p) :
    ((d.patchChain tip).filter fun id => ¬ below id).filterMap d.getPatch = line.reverse := by
  obtain ⟨rest, hchain, hrest⟩ :=
    chainFrom_line hd h fun x hx => absurd hx (SortedSet.not_mem_empty x)
  have hline : ∀ id ∈ (line.map Patch.id).reverse, ¬ below id := by
    intro id hid
    rw [List.mem_reverse, List.mem_map] at hid
    obtain ⟨p, hp, rfl⟩ := hid
    rw [hbelow]
    intro hhistory
    have hle := hd.history_le hhistory
    have hlt := ((h.generation hd).2 p hp).1
    omega
  have hnone : rest.filter (fun id => ¬ below id) = [] := by
    apply List.filter_eq_nil_iff.mpr
    intro id hid
    simpa using (hbelow id).mpr (hrest id hid)
  unfold patchChain
  rw [hchain, List.filter_append, hnone, List.append_nil,
    List.filter_eq_self.mpr fun id hid => decide_eq_true (hline id hid), ← List.map_reverse,
    List.filterMap_map]
  have hget : ∀ p ∈ line.reverse, (d.getPatch ∘ Patch.id) p = some p := by
    intro p hp
    exact h.getPatch (List.mem_reverse.mp hp)
  rw [List.filterMap_congr hget, List.filterMap_some]

end PatchDag
end Suture.Dag
