import Suture.Hub.World
import Suture.Repo.Atomic

/-!
# Commits as edits

What a commit of the repository does to the rows that clients push.
-/

namespace Suture.Hub
set_option autoImplicit false
open Foundation Common Patches Dag Engine Repo Program

variable {H : Type} [LinearOrder H]

/-- What pushing and fetching read of a repository. -/
def Client.ofRepository (s : Repository H) (lastPushed : Option H) : Client H where
  patches := s.patchRows
  branches := s.branchRows
  headBranch := s.headBranch
  detachedHead := if s.detached then s.detachedHead else none
  lastPushed := lastPushed

theorem ofRepository_congr {s t : Repository H} (h : ledger t = ledger s) (lastPushed : Option H) :
    Client.ofRepository t lastPushed = Client.ofRepository s lastPushed := by
  simp only [ledger, Prod.mk.injEq] at h
  obtain ⟨-, ⟨hpatches, hbranches⟩, -, -, hhead, hdetached, hdetachedHead⟩ := h
  rw [Client.ofRepository, Client.ofRepository, hpatches, hbranches, hhead, hdetached, hdetachedHead]

variable [Hashing H]

/-- A commit that succeeds stores a new patch on top of patches that are there, and sets a
branch to it. -/
theorem commit_rows {message : String} {s t : Repository H} {id : H}
    (h : commit message s = (.ok id, t)) (lastPushed : Option H) :
    ∃ (patch : Patch H) (branch : BranchName), patch.id = id ∧ s.dag.hasPatch id = false ∧
      (∀ p ∈ patch.parentIds, s.dag.hasPatch p = true) ∧
      Client.ofRepository t lastPushed = { Client.ofRepository s lastPushed with
        patches := s.patchRows.insert id patch
        branches := s.branchRows.insert branch.asStr id } := by
  rcases commit_cases message s with ⟨-, e, t', hrun, -⟩ |
    ⟨-, label, headId, -, ⟨-, e, t', hrun, -⟩ | ⟨haccepted, dag, -, hended⟩⟩
  · rw [hrun] at h
    cases h
  · rw [hrun] at h
    cases h
  rcases hended with ⟨-, e, t', hrun, -⟩ | ⟨⟨branch, hname, -⟩, t', hrun, hledger⟩
  · rw [hrun] at h
    cases h
  · rw [hrun] at h
    cases h
    refine ⟨newPatch s message headId, branch, rfl, haccepted.fresh, haccepted.parents, ?_⟩
    rw [ofRepository_congr hledger, BranchName.asStr_of_new hname]
    rfl

/-- In rows that the DAG agrees with, it is two edits. -/
theorem commit_edits {parentsOf : H → List H} {message : String} {s t : Repository H} {id : H}
    (h : commit message s = (.ok id, t)) (hrows : ∀ j, s.patchRows.contains j = s.dag.hasPatch j)
    (lastPushed : Option H) :
    ∃ (patch : Patch H) (branch : BranchName), ∀ hhashed : patch.parentIds = parentsOf patch.id,
      Client.ofRepository t lastPushed =
        ((Client.ofRepository s lastPushed).edit (.storePatch ⟨patch, hhashed⟩)).edit
          (.setBranch branch id : Edit parentsOf) := by
  obtain ⟨patch, branch, rfl, hnew, hparents, hrun⟩ := commit_rows h lastPushed
  refine ⟨patch, branch, fun hhashed => ?_⟩
  have hstore : (Client.ofRepository s lastPushed).edit (.storePatch ⟨patch, hhashed⟩) =
      { Client.ofRepository s lastPushed with patches := s.patchRows.insert patch.id patch } := by
    unfold Client.edit
    dsimp only
    rw [if_pos]
    · rfl
    · exact ⟨(hrows patch.id).trans hnew, fun p hp => (hrows p).trans (hparents p hp)⟩
  rw [hrun, hstore]
  unfold Client.edit
  dsimp only
  rw [if_pos]
  · rfl
  · rw [SortedMap.contains_eq, SortedMap.get_insert, if_pos rfl]
    rfl

end Suture.Hub
