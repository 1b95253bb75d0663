import Suture.Foundation.Rows
import Suture.Hub.Fetch

/-!
# What a fetch does to local branches

A fetch sets the local branches to the targets of the hub, wherever the two were. Local work
stays on a branch only if the branches that are left lead to it.
-/

namespace Suture.Hub
set_option autoImplicit false
open Foundation Common Patches

variable {H : Type} [LinearOrder H]

/-- `do_pull` of the daemon: without new patches the branches stay as they are. -/
def Opened.daemonPull (r : Opened H) (result : PullResponse H) : Opened H :=
  if result.patches = [] then r else r.fetch result

/-- At or below the target of a branch that is listed. -/
def Client.Holds (c : Client H) (id : H) : Prop :=
  ∃ b ∈ c.listBranches, id = b.targetId ∨ c.Descends b.targetId id

instance (c : Client H) (id : H) : Decidable (c.Holds id) :=
  inferInstanceAs (Decidable (∃ b ∈ c.listBranches, _))

/-- What was on a branch still is, and branches point to patches, in the rows and in memory. -/
structure KeepsWork (r r' : Opened H) : Prop where
  kept : ∀ id, r.client.Holds id → r'.client.Holds id
  rows : ∀ name target, r'.client.branches.get name = some target →
    r'.client.patches.contains target = true
  memory : ∀ name target, r'.dag.getBranch name = some target → r'.dag.hasPatch target = true

/-! ### Rows after a fetch -/

def patchRows (patches : List (Patch H)) : List (H × Patch H) := patches.map fun p => (p.id, p)

/-- The branches up to the first bad name. -/
def branchRows (branches : List (BranchProto H)) : List (String × H) :=
  (branches.takeWhile fun b => (BranchName.new b.name).toBool).map fun b => (b.name, b.targetId)

theorem patches_foldl_storeFetched (patches : List (Patch H)) (c : Client H) :
    (patches.foldl Client.storeFetched c).patches = c.patches.addRows (patchRows patches) ∧
      (patches.foldl Client.storeFetched c).branches = c.branches := by
  induction patches generalizing c with
  | nil => exact ⟨rfl, rfl⟩
  | cons patch rest ih =>
    obtain ⟨hpatches, hbranches⟩ := ih (c.storeFetched patch)
    have hfirst : (c.storeFetched patch).patches = c.patches.addRows [(patch.id, patch)] := by
      change _ = if c.patches.contains patch.id = true then c.patches else _
      unfold Client.storeFetched
      split <;> rfl
    rw [List.foldl_cons, hpatches, hbranches, hfirst]
    refine ⟨rfl, ?_⟩
    unfold Client.storeFetched
    split <;> rfl

theorem branches_setFetched (branches : List (BranchProto H)) (c : Client H) :
    (c.setFetched branches).branches = c.branches.putRows (branchRows branches) := by
  induction branches generalizing c with
  | nil => rfl
  | cons b rest ih =>
    rw [Client.setFetched, branchRows, List.takeWhile_cons]
    cases hname : BranchName.new b.name with
    | error e => rfl
    | ok name =>
      dsimp only
      rw [ih, BranchName.asStr_of_new hname]
      rfl

/-! ### Branches in memory -/

/-- Branches point to patches. -/
def Grounded (d : Dag.PatchDag H) : Prop :=
  ∀ name target, d.getBranch name = some target → d.hasPatch target = true

theorem grounded_fetchPatch {r : Opened H} (h : Grounded r.dag) (patch : Patch H) :
    Grounded (r.fetchPatch patch).dag := by
  cases hhas : r.dag.hasPatch patch.id with
  | true => rwa [Opened.fetchPatch_of_has hhas]
  | false =>
    have hext := (Opened.fetchPatch_of_new hhas).2
    intro name target htarget
    rw [Dag.PatchDag.getBranch, hext.branches] at htarget
    have hold := h name target htarget
    rw [Dag.PatchDag.hasPatch_eq, hext.view]
    split
    · rfl
    · rwa [← Dag.PatchDag.hasPatch_eq]

theorem grounded_fetchBranch {r : Opened H} (h : Grounded r.dag) (name : BranchName) (target : H) :
    Grounded (r.fetchBranch name target).dag := by
  have hset : ¬ (!r.dag.hasPatch target) = true →
      Grounded { r.dag with branches := Assoc.insert name.asStr target r.dag.branches } := by
    intro hhas other target' htarget
    have hhas : r.dag.hasPatch target = true := by simpa using hhas
    rw [Dag.PatchDag.getBranch, Assoc.get_insert] at htarget
    split at htarget
    · cases htarget
      exact hhas
    · exact h other target' htarget
  unfold Opened.fetchBranch Dag.PatchDag.updateBranch Dag.PatchDag.createBranch
  dsimp only
  split_ifs
  · exact h
  · exact h
  · exact hset ‹_›
  · exact h
  · exact hset ‹_›

theorem grounded_fetch {r : Opened H} (h : Grounded r.dag) (result : PullResponse H) :
    Grounded (r.fetch result).dag := by
  have hpatches : ∀ (patches : List (Patch H)) (r : Opened H), Grounded r.dag →
      Grounded (patches.foldl Opened.fetchPatch r).dag := by
    intro patches
    induction patches with
    | nil => exact fun _ => id
    | cons patch rest ih => exact fun r h => ih _ (grounded_fetchPatch h patch)
  have hbranches : ∀ (branches : List (BranchProto H)) (r : Opened H), Grounded r.dag →
      Grounded (r.fetchBranches branches).dag := by
    intro branches
    induction branches with
    | nil => exact fun _ => id
    | cons b rest ih =>
      intro r h
      rw [Opened.fetchBranches]
      split
      · exact h
      · exact ih _ (grounded_fetchBranch h _ _)
  exact hbranches _ _ (hpatches _ r h)

theorem Opened.Fresh.grounded {r : Opened H} (h : r.Fresh) : Grounded r.dag := by
  intro name target htarget
  rw [h.getBranch] at htarget
  exact (h.inSync target).trans (Option.filter_eq_some_iff.mp htarget).2

/-! ### What is left of local work -/

/-- The rows of the client and of the answer together. -/
def together (c : Client H) (result : PullResponse H) : SortedMap H (Patch H) :=
  c.patches.addRows (patchRows result.patches)

/-- Where the answer sets a branch, or else where the branch is. -/
def targetAfter (c : Client H) (result : PullResponse H) (name : String) : Option H :=
  (lastRow (branchRows result.branches) name).or (c.branches.get name)

/-- Targets are in the rows of the two. -/
def TargetsArrive (c : Client H) (result : PullResponse H) : Prop :=
  ∀ name target, targetAfter c result name = some target →
    (together c result).contains target = true

/-- Each local branch is where one of the branches is then, or below it. -/
def TipsCovered (c : Client H) (result : PullResponse H) : Prop :=
  ∀ b ∈ c.listBranches, ∃ name target, targetAfter c result name = some target ∧
    (b.targetId = target ∨ (ancestry (together c result)).Reaches target b.targetId)

/-- A branch that the answer does not set, or sets to a descendant, is covered. -/
theorem tipsCovered_of_forward {c : Client H} {result : PullResponse H}
    (h : ∀ b ∈ c.listBranches, ∀ target, targetAfter c result b.name = some target →
      b.targetId = target ∨ (ancestry (together c result)).Reaches target b.targetId) :
    TipsCovered c result := by
  intro b hb
  obtain ⟨target, htarget⟩ : ∃ target, targetAfter c result b.name = some target := by
    unfold targetAfter
    rw [(mem_listBranches.mp hb).1]
    cases lastRow (branchRows result.branches) b.name with
    | none => exact ⟨_, rfl⟩
    | some target => exact ⟨target, rfl⟩
  exact ⟨b.name, target, htarget, h b hb target htarget⟩

theorem rows_applyFetch (c : Client H) (result : PullResponse H) :
    (c.applyFetch result).patches = together c result ∧
      ∀ name, (c.applyFetch result).branches.get name = targetAfter c result name := by
  obtain ⟨hpatches, hbranches⟩ := patches_foldl_storeFetched result.patches c
  constructor
  · rw [Client.applyFetch, (patches_setFetched _ _).1, hpatches, together]
  · intro name
    rw [Client.applyFetch, branches_setFetched, hbranches, SortedMap.get_putRows, targetAfter]

theorem Client.Descends.mono {c c' : Client H} (h : Keeps c.patches c'.patches) {id ancestor : H}
    (hdescends : c.Descends id ancestor) : c'.Descends id ancestor := by
  refine Relation.TransGen.mono (fun x y hxy => ?_) _ _ hdescends
  obtain ⟨hy, hstored⟩ := List.mem_filter.mp hxy
  obtain ⟨patch, hpatch, hy⟩ := mem_parentIdsOf.mp hy
  exact List.mem_filter.mpr ⟨mem_parentIdsOf.mpr ⟨patch, h x patch hpatch, hy⟩, h.contains hstored⟩

/-- A fetch keeps the local work exactly if all targets arrive and the tips stay covered. -/
theorem keepsWork_fetch_iff {r : Opened H} (hfresh : r.Fresh) (result : PullResponse H) :
    KeepsWork r (r.fetch result) ↔ TargetsArrive r.client result ∧ TipsCovered r.client result := by
  obtain ⟨hpatches, hbranches⟩ := rows_applyFetch r.client result
  have hclient := Opened.client_fetch hfresh result
  constructor
  · intro h
    have harrive : TargetsArrive r.client result := fun name target htarget => by
      rw [← hpatches, ← hclient]
      refine h.rows name target ?_
      rw [hclient, hbranches, htarget]
    refine ⟨harrive, fun b hb => ?_⟩
    obtain ⟨b', hb', hbelow⟩ := h.kept b.targetId ⟨b, hb, .inl rfl⟩
    rw [hclient] at hb' hbelow
    refine ⟨b'.name, b'.targetId, (hbranches b'.name).symm.trans (mem_listBranches.mp hb').1,
      hbelow.imp_right fun hdescends => ?_⟩
    rwa [Client.Descends, hpatches] at hdescends
  · rintro ⟨harrive, hcovered⟩
    refine ⟨fun id hid => ?_, fun name target htarget => ?_,
      grounded_fetch hfresh.grounded result⟩
    · rw [hclient]
      obtain ⟨b, hb, hbelow⟩ := hid
      obtain ⟨name, target, htarget, hcover⟩ := hcovered b hb
      have hkeep : Keeps r.client.patches (r.client.applyFetch result).patches := by
        rw [hpatches]
        exact fun _ _ hget => SortedMap.get_addRows_of_some hget _
      have hcover : b.targetId = target ∨
          (r.client.applyFetch result).Descends target b.targetId := by
        rwa [Client.Descends, hpatches]
      refine ⟨⟨name, target⟩, mem_listBranches.mpr ⟨(hbranches name).trans htarget, ?_⟩, ?_⟩
      · rw [hpatches]
        exact harrive name target htarget
      · rcases hbelow with rfl | hbelow
        · exact hcover
        · rcases hcover with rfl | hcover
          · exact .inr (hbelow.mono hkeep)
          · exact .inr (hcover.trans (hbelow.mono hkeep))
    · rw [hclient] at htarget ⊢
      rw [hpatches]
      exact harrive name target ((hbranches name).symm.trans htarget)

/-- No local work is lost exactly if every target arrives with the answer or was there, and
every old target is at or below a branch as it is set; the daemon does nothing when there is no
patch in the answer. -/
theorem fetch_keepsWork_iff {r : Opened H} (hfresh : r.Fresh) (result : PullResponse H) :
    (KeepsWork r (r.fetch result) ↔
        TargetsArrive r.client result ∧ TipsCovered r.client result) ∧
      (KeepsWork r (r.daemonPull result) ↔
        if result.patches = [] then TargetsArrive r.client ⟨[], []⟩
        else TargetsArrive r.client result ∧ TipsCovered r.client result) := by
  refine ⟨keepsWork_fetch_iff hfresh result, ?_⟩
  unfold Opened.daemonPull
  split
  · exact ⟨fun h => h.rows, fun h => ⟨fun _ => id, h, hfresh.grounded⟩⟩
  · exact keepsWork_fetch_iff hfresh result

/-- A repository as it is opened when some rows have been written. -/
def openedAfter (writes : List (Dag.Write Nat)) : Opened Nat where
  client :=
    { patches := Dag.storedPatches writes, branches := Dag.storedBranches writes
      headBranch := none, detachedHead := none, lastPushed := none }
  dag := Dag.reload ⟨id, fun _ => .refl _⟩ (writes.foldl .write .empty)

theorem fresh_openedAfter {writes : List (Dag.Write Nat)}
    (h : ∀ e ∈ (Dag.storedPatches writes).entries, ∀ p ∈ e.2.parentIds, p < e.1) :
    (openedAfter writes).Fresh :=
  Dag.reload_reconstructs ⟨id, fun _ => .refl _⟩ writes
    (acyclic_of_ranks (fun n => n) fun id patch hget => h (id, patch) (SortedMap.mem_entries.mpr hget))

/-- The branch `main` at a patch on the first. -/
def mainAt (id : Nat) : List (Dag.Write Nat) :=
  [.storePatch (samplePatch 1).patch, .storePatch (samplePatch id).patch, .setBranch .main id]

/-- The answer of a hub with the branch `main` at the second patch. -/
def mainAtSecond : PullResponse Nat := ⟨[(samplePatch 2).patch], [⟨"main", 2⟩]⟩

theorem fetch_keepsWork_forward :
    KeepsWork (openedAfter (mainAt 1)) ((openedAfter (mainAt 1)).fetch mainAtSecond) := by
  have hrows : ∀ e ∈ ((openedAfter (mainAt 1)).client.applyFetch mainAtSecond).branches.entries,
      (together (openedAfter (mainAt 1)).client mainAtSecond).contains e.2 = true := by
    decide +kernel
  have hlocal : (openedAfter (mainAt 1)).client.listBranches = [⟨"main", 1⟩] := by decide +kernel
  have hafter : targetAfter (openedAfter (mainAt 1)).client mainAtSecond "main" = some 2 := by
    decide +kernel
  refine ((fetch_keepsWork_iff (fresh_openedAfter (by decide +kernel)) mainAtSecond).1).mpr
    ⟨fun name target htarget => ?_, tipsCovered_of_forward fun b hb target htarget => .inr ?_⟩
  · rw [← (rows_applyFetch _ _).2] at htarget
    exact hrows (name, target) (SortedMap.mem_entries.mpr htarget)
  · rw [hlocal] at hb
    cases List.mem_singleton.mp hb
    cases hafter.symm.trans htarget
    exact (ancestry _).mem_closure.mp (by decide +kernel)

/-- The hub is at another patch than the local commit, which no branch leads to afterwards. -/
theorem local_commit_lost : (openedAfter (mainAt 4)).Fresh ∧ (openedAfter (mainAt 4)).client.Holds 4 ∧
    ¬ KeepsWork (openedAfter (mainAt 4)) ((openedAfter (mainAt 4)).fetch mainAtSecond) ∧
    ¬ KeepsWork (openedAfter (mainAt 4)) ((openedAfter (mainAt 4)).daemonPull mainAtSecond) := by
  have hfresh : (openedAfter (mainAt 4)).Fresh := fresh_openedAfter (by decide +kernel)
  have hheld : (openedAfter (mainAt 4)).client.Holds 4 := by decide +kernel
  have hlost : ¬ KeepsWork (openedAfter (mainAt 4)) ((openedAfter (mainAt 4)).fetch mainAtSecond) := by
    intro h
    have hkept := h.kept 4 hheld
    rw [Opened.client_fetch hfresh] at hkept
    exact absurd hkept (by decide +kernel)
  exact ⟨hfresh, hheld, hlost, hlost⟩

end Suture.Hub
