import Suture.Repo.OnHead
import Suture.Repo.SoftReset
import Suture.Repo.Todo

/-!
# An interactive rebase

The patches of the entries of a plan are made again on top of each other. Those of a squashed
entry are not: only its message goes on to the next entry.
-/

namespace Suture.Repo
set_option autoImplicit false
open Foundation Common Patches Dag Engine Program

variable {H : Type} [LinearOrder H] [Hashing H]

/-- The patch again, with another message and on top of another parent. -/
def replayedAs (patch : Patch H) (message : String) (parentId : H) : Action H (Patch H) := do
  let s ← read
  if patch.operationType = .batch then
    return .newBatch (patch.fileChanges.getD []) [parentId] s.author message s.clock
  else
    return .new patch.operationType patch.touchSet patch.targetPath patch.payload [parentId]
      s.author message s.clock

/-- Replays a commit group on the tip, and returns the new tip. -/
def replayGroup (message : String) : List (Patch H) → H → Action H H
  | [], tip => return tip
  | patch :: rest, tip =>
    if isStructural patch then replayGroup message rest tip
    else do
      let again ← replayedAs patch message tip
      storePatch again
      let id ← updateDag fun d => d.addPatch again [tip]
      replayGroup message rest id

/-- The messages of squashed entries so far, and one more. -/
def squashMessage (acc : Option String) (message : String) : String :=
  let msg := acc.getD ""
  (if msg ≠ "" then msg ++ "\n" else msg) ++ message

/-- The message of an entry after squashed ones. -/
def combinedMessage (acc : Option String) (message : String) : String :=
  match acc with
  | none => message
  | some squashed =>
    (if squashed ≠ "" ∧ message ≠ "" then squashed ++ "\n" else squashed) ++ message

/-- Plays the entries on the tip, up to one to edit, and returns the new tip. -/
def playEntries : List (RebasePlanEntry H) → H → Option String → Action H H
  | [], tip, _ => return tip
  | entry :: rest, tip, acc =>
    if entry.action = .drop then playEntries rest tip acc
    else do
      let s ← read
      let patches := entry.patchIds.filterMap s.dag.getPatch
      if patches = [] then playEntries rest tip acc
      else if entry.action = .squash then
        playEntries rest tip (some (squashMessage acc entry.message))
      else do
        let tip ← replayGroup (combinedMessage acc entry.message) patches tip
        if entry.action = .edit then return tip
        else playEntries rest tip none

def rebaseInteractive (plan : RebasePlan H) (onto : H) : Action H H := do
  let _ ← head.attempt
  let (branch, _) ← head
  let _ ← branchName branch
  let oldTree ← orEmpty snapshotHead
  moveHead branch onto
  let tip ← playEntries plan.entries onto none
  moveHead branch tip
  syncWorkingTree oldTree
  return tip

/-! ### What is replayed -/

variable {s t u : Repository H}

/-- A patch with what a replay keeps of it. -/
def remade (patch : Patch H) : Patch H :=
  if patch.operationType = .batch then .newBatch (patch.fileChanges.getD []) [] "" "" 0
  else .new patch.operationType patch.touchSet patch.targetPath patch.payload [] "" "" 0

def replayTree (tree : FileTree H) (patches : List (Patch H)) : Except ApplyError (FileTree H) :=
  patches.foldlM (fun tree patch => applyPatch tree (remade patch)) tree

omit [LinearOrder H] in
/-- Applying a patch asks for its operation alone. -/
theorem applyPatch_congr {p q : Patch H} (hop : p.operationType = q.operationType)
    (htouch : p.touchSet = q.touchSet) (htarget : p.targetPath = q.targetPath)
    (hpayload : p.payload = q.payload) (tree : FileTree H) : applyPatch tree p = applyPatch tree q := by
  unfold applyPatch applySingleOpWithResolve resolvePayloadToHash Patch.isIdentity Patch.fileChanges
  rw [hop, htouch, htarget, hpayload]

theorem replayedAs_run (patch : Patch H) (message : String) (parentId : H) (s : Repository H) :
    ∃ again, replayedAs patch message parentId s = (.ok again, s) ∧ again.parentIds = [parentId] ∧
      ∀ tree, applyPatch tree again = applyPatch tree (remade patch) := by
  unfold replayedAs remade
  rw [read_bind]
  by_cases hop : patch.operationType = .batch
  · rw [if_pos hop, if_pos hop]
    exact ⟨_, rfl, rfl, applyPatch_congr rfl rfl rfl rfl⟩
  · rw [if_neg hop, if_neg hop]
    exact ⟨_, rfl, rfl, applyPatch_congr rfl rfl rfl rfl⟩

/-- What a replay of patches on a tip comes to. -/
structure Replayed (s : Repository H) (tip : H) (patches : List (Patch H)) (tip' : H)
    (t : Repository H) : Prop where
  loaded : Loaded t
  grows : s.dag.Grows t.dag
  rows : t.fileTrees = s.fileTrees
  known : t.dag.hasPatch tip' = true
  tree : built t.dag tip' = (do
    let base ← built s.dag tip
    replayTree base patches)
  fresh : (patches = [] ∧ tip' = tip) ∨ (patches ≠ [] ∧ s.dag.hasPatch tip' = false)

theorem Replayed.refl (hs : Loaded s) {tip : H} (htip : s.dag.hasPatch tip = true) :
    Replayed s tip [] tip s := by
  refine ⟨hs, .refl _, rfl, htip, ?_, .inl ⟨rfl, rfl⟩⟩
  cases built s.dag tip <;> rfl

theorem Replayed.trans {tip tip' tip'' : H} {patches patches' : List (Patch H)}
    (h : Replayed s tip patches tip' t) (h' : Replayed t tip' patches' tip'' u) :
    Replayed s tip (patches ++ patches') tip'' u where
  loaded := h'.loaded
  grows := h.grows.trans h'.grows
  rows := h'.rows.trans h.rows
  known := h'.known
  tree := by
    rw [h'.tree, h.tree]
    cases built s.dag tip with
    | error e => rfl
    | ok base =>
      change (replayTree base patches >>= fun tree => replayTree tree patches') = _
      exact (List.foldlM_append).symm
  fresh := by
    rcases h'.fresh with ⟨hnil, htip⟩ | ⟨hne, hnew⟩
    · rcases h.fresh with ⟨hnil', htip'⟩ | ⟨hne, hnew⟩
      · exact .inl ⟨by rw [hnil, hnil', List.nil_append], htip.trans htip'⟩
      · exact .inr ⟨List.append_ne_nil_of_left_ne_nil hne _, htip ▸ hnew⟩
    · refine .inr ⟨List.append_ne_nil_of_right_ne_nil _ hne, ?_⟩
      cases hold : s.dag.hasPatch tip'' with
      | false => rfl
      | true =>
        rw [h.grows.hasPatch hold] at hnew
        exact hnew

/-- One patch again. -/
theorem replay_one (hs : Loaded s) {patch : Patch H} {message : String} {tip id : H}
    (h : (do
      let again ← replayedAs patch message tip
      storePatch again
      updateDag fun d => d.addPatch again [tip] : Action H H) s = (.ok id, t)) :
    Replayed s tip [patch] id t := by
  obtain ⟨again, hagain, hparents, happly⟩ := replayedAs_run patch message tip s
  rw [bind_of_ok hagain] at h
  obtain ⟨_, s₁, hstore, h⟩ := bind_ok h
  cases hstore
  rw [updateDag_run] at h
  dsimp only at h
  rcases s.dag.addPatch_cases again [tip] with ⟨e, hrun, -⟩ | ⟨d', hrun, hext⟩
  · rw [hrun] at h
    cases h
  rw [hrun] at h
  obtain ⟨hid, ht⟩ := Prod.mk.inj h
  obtain rfl : again.id = id := Except.ok.inj hid
  have hdag : t.dag = d' := by rw [← ht]
  refine ⟨?_, ?_, ?_, ?_, ?_, .inr ⟨List.cons_ne_nil _ _, hext.unknown⟩⟩
  · have hloaded := hs.extends hparents hext
    rw [← ht]
    exact { hloaded with }
  · rw [hdag]
    exact hext.grows
  · rw [← ht]
  · rw [hdag]
    exact (hext.hasPatch _).mpr (.inl rfl)
  · rw [hdag, built_extends hext hs.sound.graded]
    cases built s.dag tip with
    | error e => rfl
    | ok base =>
      change applyPatch base again = _
      rw [happly]
      exact (bind_pure (applyPatch base (remade patch))).symm

theorem replayGroup_run (hs : Loaded s) {message : String} {patches : List (Patch H)} {tip tip' : H}
    (htip : s.dag.hasPatch tip = true) (h : replayGroup message patches tip s = (.ok tip', t)) :
    Replayed s tip (keptOf patches) tip' t := by
  induction patches generalizing s tip with
  | nil =>
    cases h
    exact .refl hs htip
  | cons patch patches ih =>
    by_cases hskip : isStructural patch = true
    · have hkept : keptOf (patch :: patches) = keptOf patches := by simp [keptOf, hskip]
      rw [replayGroup, if_pos hskip] at h
      rw [hkept]
      exact ih hs htip h
    · have hkept : keptOf (patch :: patches) = [patch] ++ keptOf patches := by simp [keptOf, hskip]
      rw [replayGroup, if_neg hskip] at h
      obtain ⟨again, s₁, hagain, h⟩ := bind_ok h
      obtain ⟨_, s₂, hstore, h⟩ := bind_ok h
      obtain ⟨id, s₃, hadd, hrest⟩ := bind_ok h
      have hone : Replayed s tip [patch] id s₃ := by
        apply replay_one hs
        rw [bind_of_ok hagain, bind_of_ok hstore, hadd]
      rw [hkept]
      exact hone.trans (ih hone.loaded hone.known hrest)

/-- The patches that a plan makes again: those of the entries that are not squashed. -/
def replayedOf (d : PatchDag H) (entries : List (RebasePlanEntry H)) : List (Patch H) :=
  entries.flatMap fun e =>
    if e.action = .squash then [] else keptOf (e.patchIds.filterMap d.getPatch)

/-- Entries that are picked, reworded or squashed, of patches that are there. -/
def Plays (d : PatchDag H) (entries : List (RebasePlanEntry H)) : Prop :=
  ∀ e ∈ entries, (e.action = .pick ∨ e.action = .reword ∨ e.action = .squash) ∧
    ∀ id ∈ e.patchIds, d.hasPatch id = true

omit [Hashing H] in
theorem Plays.grows {d d' : PatchDag H} {entries : List (RebasePlanEntry H)} (h : Plays d entries)
    (hgrows : d.Grows d') : Plays d' entries ∧ replayedOf d' entries = replayedOf d entries := by
  constructor
  · intro e he
    exact ⟨(h e he).1, fun id hid => hgrows.hasPatch ((h e he).2 id hid)⟩
  · unfold replayedOf
    apply List.flatMap_congr
    intro e he
    rw [List.filterMap_congr fun id hid => hgrows.getPatch ((h e he).2 id hid)]

theorem playEntries_run (hs : Loaded s) {entries : List (RebasePlanEntry H)} {acc : Option String}
    {tip tip' : H} (hplays : Plays s.dag entries) (htip : s.dag.hasPatch tip = true)
    (h : playEntries entries tip acc s = (.ok tip', t)) :
    Replayed s tip (replayedOf s.dag entries) tip' t := by
  induction entries generalizing s tip acc with
  | nil =>
    cases h
    exact .refl hs htip
  | cons e entries ih =>
    have hrest : Plays s.dag entries := fun e' he' => hplays e' (List.mem_cons_of_mem _ he')
    obtain ⟨haction, -⟩ := hplays e (List.mem_cons_self ..)
    have hdrop : e.action ≠ .drop := by
      rcases haction with ha | ha | ha <;> rw [ha] <;> exact nofun
    have hedit : e.action ≠ .edit := by
      rcases haction with ha | ha | ha <;> rw [ha] <;> exact nofun
    have hsplit : replayedOf s.dag (e :: entries) =
        (if e.action = .squash then [] else keptOf (e.patchIds.filterMap s.dag.getPatch)) ++
          replayedOf s.dag entries := List.flatMap_cons
    rw [playEntries, if_neg hdrop, read_bind] at h
    rw [hsplit]
    by_cases hempty : e.patchIds.filterMap s.dag.getPatch = []
    · rw [if_pos hempty] at h
      have hnone : (if e.action = .squash then [] else
          keptOf (e.patchIds.filterMap s.dag.getPatch)) = [] := by
        rw [hempty]
        exact ite_self _
      rw [hnone]
      exact ih hs hrest htip h
    · rw [if_neg hempty] at h
      by_cases hsquash : e.action = .squash
      · rw [if_pos hsquash] at h
        rw [if_pos hsquash]
        exact ih hs hrest htip h
      · rw [if_neg hsquash] at h
        rw [if_neg hsquash]
        obtain ⟨tip₁, s₁, hgroup, h⟩ := bind_ok h
        rw [if_neg hedit] at h
        have hfirst := replayGroup_run hs htip hgroup
        obtain ⟨hrest₁, hsame⟩ := hrest.grows hfirst.grows
        rw [← hsame]
        exact hfirst.trans (ih hfirst.loaded hrest₁ hfirst.known h)

/-! ### The tree of the new tip -/

/-- The tree that a plan is played on: the stored one if there is nothing to play. -/
def startTree (s : Repository H) (onto : H) (patches : List (Patch H)) :
    Except ApplyError (FileTree H) :=
  if patches = [] then treeAt (snapshotHead s).2 onto else built s.dag onto

/-- What is replayed has the effect of the history: from the tree of the base it leads to the
tree of the tip. -/
def LosesNothing (s : Repository H) (onto tip : H) (patches : List (Patch H)) : Prop :=
  ∃ base tree, startTree s onto patches = .ok base ∧ replayTree base patches = .ok tree ∧
    treeAt s tip = .ok tree

theorem built_line {d : PatchDag H} (hd : d.Graded) {base tip : H} {line : List (Patch H)}
    (hline : PatchDag.Line d base tip line) : built d tip = (do
      let tree ← built d base
      line.foldlM applyPatch tree) := by
  have hpatches : (line.map Patch.id).filterMap d.getPatch = line := by
    have hsome : ∀ p ∈ line, (d.getPatch ∘ Patch.id) p = some p := fun p hp => hline.getPatch hp
    rw [List.filterMap_map, List.filterMap_congr hsome, List.filterMap_some]
  unfold built applyPatchChain
  rw [PatchDag.chain_line hd hline, List.filterMap_append, hpatches, List.foldlM_append]

/-- Where the stored trees are what the histories build, the patches that are replayed are to
have the effect of the line. -/
theorem losesNothing_iff (hs : Loaded s) {base tip : H} {line patches : List (Patch H)}
    (hline : PatchDag.Line s.dag base tip line) (htip : treeAt s tip = built s.dag tip)
    (hbase : treeAt (snapshotHead s).2 base = built s.dag base) :
    LosesNothing s base tip patches ↔ ∃ start tree, built s.dag base = .ok start ∧
      replayTree start patches = .ok tree ∧ line.foldlM applyPatch start = .ok tree := by
  have hstart : startTree s base patches = built s.dag base := by
    unfold startTree
    rw [hbase, ite_self]
  unfold LosesNothing
  rw [hstart, htip, built_line hs.sound.graded hline]
  cases built s.dag base with
  | error e =>
    constructor <;> intro ⟨start, tree, hstart, _⟩ <;> cases hstart
  | ok start =>
    constructor
    · intro ⟨start', tree, hstart, hplayed, htree⟩
      cases hstart
      exact ⟨_, tree, rfl, hplayed, htree⟩
    · intro ⟨start', tree, hstart, hplayed, htree⟩
      cases hstart
      exact ⟨_, tree, rfl, hplayed, htree⟩

theorem rebaseInteractive_run (hs : Loaded s) {plan : RebasePlan H} {onto tip' : H}
    (hplays : Plays s.dag plan.entries) (honto : s.dag.hasPatch onto = true)
    (h : rebaseInteractive plan onto s = (.ok tip', t)) : ∃ u, snapshot tip' t =
      ((do
        let base ← startTree s onto (replayedOf s.dag plan.entries)
        replayTree base (replayedOf s.dag plan.entries)).mapError .apply, u) := by
  unfold rebaseInteractive at h
  obtain ⟨first, s₀, hfirst, h⟩ := bind_ok h
  obtain ⟨⟨branch, headId⟩, s₁, hhead, h⟩ := bind_ok h
  obtain ⟨_, s₁', hname, h⟩ := bind_ok h
  obtain ⟨old, s₂, hold, h⟩ := bind_ok h
  obtain ⟨_, s₃, hmove, h⟩ := bind_ok h
  obtain ⟨tip, s₄, hplay, h⟩ := bind_ok h
  obtain ⟨_, s₅, hmove', h⟩ := bind_ok h
  obtain ⟨_, s₆, hsync, h⟩ := bind_ok h
  cases h
  -- reading HEAD twice leaves it in the cache
  have hs₁ : s₁ = { s with cachedHeadBranch := some branch, cachedHeadId := some headId } := by
    have hs₁ := head_state hhead
    have hs₀ : s₀ = (head s).2 := (Prod.mk.inj hfirst).2.symm
    rcases head_cases s with ⟨e, hrun⟩ | ⟨branch', headId', hrun⟩
    · rw [hs₁, hs₀, hrun]
    · rw [hs₁, hs₀, hrun]
  have hs₁' : s₁' = s₁ := by
    unfold branchName at hname
    rw [ofExcept_run] at hname
    exact (Prod.mk.inj hname).2.symm
  rw [hs₁'] at hold
  have hloaded₁ : Loaded s₁ := by
    rw [hs₁]
    exact { hs with }
  have hs₂ := orEmpty_state hold
  have hreads : Reads s₁ s₂ := by
    rw [hs₂]
    exact snapshotHead_reads hloaded₁
  have hasked : PatchDag.Asked s.dag s₂.dag := by
    have hasked := hreads.asked
    rwa [show s₁.dag = s.dag by rw [hs₁]] at hasked
  have htrees₂ : treeAt s₂ = treeAt (snapshotHead s).2 := by rw [hs₂, treeAt_snapshotHead hs₁]
  have honto₂ : s₂.dag.hasPatch onto = true := (hasked.hasPatch onto).trans honto
  have hs₃ := moveHead_run honto₂ hmove
  have hloaded₃ := hreads.loaded.moveHead honto₂ hmove
  have hgrows₃ : s₂.dag.Grows s₃.dag := by
    rw [hs₃]
    exact fun _ _ => rfl
  obtain ⟨hplays₃, hreplayed⟩ := hplays.grows (hasked.grows.trans hgrows₃)
  have hrun := playEntries_run hloaded₃ hplays₃ (hgrows₃.hasPatch honto₂) hplay
  rw [hreplayed] at hrun
  have hs₅ := moveHead_run hrun.known hmove'
  have hloaded₅ := hrun.loaded.moveHead hrun.known hmove'
  have hknown₅ : s₅.dag.hasPatch tip' = true := by
    rw [hs₅]
    exact hrun.known
  obtain ⟨_, _, hshows⟩ := syncWorkingTree_shows hloaded₅ (by rw [hs₅]) (by rw [hs₅]) hsync
  obtain ⟨hknown, htree⟩ := hshows.trees tip' hknown₅
  obtain ⟨u, hsnapshot, -⟩ := snapshot_built hshows.loaded hknown
  have hrows : s₅.fileTrees = s₂.fileTrees := by
    rw [hs₅]
    change s₄.fileTrees = _
    rw [hrun.rows, hs₃]
    rfl
  have hbuilt₅ : built s₅.dag tip' = built s₄.dag tip' := by
    rw [hs₅]
    exact built_of_grows (fun _ _ => rfl) hrun.loaded.sound.graded hrun.known
  have hbase : built s₃.dag onto = built s.dag onto :=
    built_of_grows (hasked.grows.trans hgrows₃) hs.sound.graded honto
  refine ⟨u, hsnapshot.trans (congrArg (fun r => (Except.mapError RepoError.apply r, u)) ?_)⟩
  rw [htree]
  rcases hrun.fresh with ⟨hnil, rfl⟩ | ⟨hne, hnew⟩
  · have hstart : startTree s tip' (replayedOf s.dag plan.entries) = treeAt s₂ tip' := by
      rw [startTree, if_pos hnil, htrees₂]
    have hgrows₅ : s₂.dag.Grows s₅.dag := by
      rw [hs₅]
      exact hgrows₃.trans hrun.grows
    have hsame : treeAt s₅ tip' = treeAt s₂ tip' := by
      unfold treeAt loadFileTree
      rw [hrows, built_of_grows hgrows₅ hreads.loaded.sound.graded honto₂]
    rw [hstart, hnil, hsame]
    cases treeAt s₂ tip' <;> rfl
  · have hrow : loadFileTree s₅ tip' = none := by
      unfold loadFileTree
      rw [hrows]
      cases hrow : s₂.fileTrees.get tip' with
      | none => rfl
      | some tree =>
        rw [hgrows₃.hasPatch (hreads.loaded.rowsKnown _ _ hrow)] at hnew
        cases hnew
    rw [startTree, if_neg hne, treeAt, hrow]
    change built s₅.dag tip' = _
    rw [hbuilt₅, hrun.tree, hbase]

/-- The tree of the tip that an interactive rebase returns is that of the old tip exactly if
what is not squashed has the effect of the whole history. -/
theorem rebase_keeps_tree_iff (hs : Loaded s) {plan : RebasePlan H} {base tip tip' : H}
    {line : List (Patch H)} (hline : PatchDag.Line s.dag base tip line)
    (hplays : Plays s.dag plan.entries) (h : rebaseInteractive plan base s = (.ok tip', t)) :
    (∃ tree, (snapshot tip' t).1 = .ok tree ∧ (snapshot tip s).1 = .ok tree) ↔
      LosesNothing s base tip (replayedOf s.dag plan.entries) := by
  obtain ⟨u, hnew⟩ := rebaseInteractive_run hs hplays hline.base_known h
  obtain ⟨v, hold, -⟩ := snapshot_built hs hline.known
  rw [hnew, hold]
  have hok : ∀ {r : Except ApplyError (FileTree H)} {tree : FileTree H},
      r.mapError RepoError.apply = (.ok tree : Except (RepoError H) _) ↔ r = .ok tree := by
    intro r tree
    cases r with
    | ok tree' => exact ⟨fun h => congrArg _ (Except.ok.inj h), fun h => congrArg _ (Except.ok.inj h)⟩
    | error e => exact ⟨nofun, nofun⟩
  simp only [hok]
  unfold LosesNothing
  cases startTree s base (replayedOf s.dag plan.entries) with
  | error e =>
    constructor
    · intro ⟨tree, hplayed, htree⟩
      cases hplayed
    · intro ⟨start, tree, hstart, hplayed, htree⟩
      cases hstart
  | ok start =>
    constructor
    · intro ⟨tree, hplayed, htree⟩
      exact ⟨start, tree, rfl, hplayed, htree⟩
    · intro ⟨start', tree, hstart, hplayed, htree⟩
      cases hstart
      exact ⟨tree, hplayed, htree⟩

/-! ### Two plans -/

/-- A commit of one file with a message of its own, at a time. -/
def committedAs (now : Nat) (path : String) (byte : UInt8) (message : String) : List (Event Hash) :=
  [.tick now, .editFile path [byte], .add path, .commit message]

/-- The first commit is reworded and the second has this action. -/
def rewordFirst (action : RebaseAction) (first second : Hash) : RebasePlan Hash :=
  ⟨[⟨.reword, first, "renamed", [first]⟩, ⟨action, second, "two", [second]⟩]⟩

theorem plays_rewordFirst {d : PatchDag Hash} {action : RebaseAction} {first second : Hash}
    (haction : action = .pick ∨ action = .squash) (hfirst : d.hasPatch first = true)
    (hsecond : d.hasPatch second = true) : Plays d (rewordFirst action first second).entries := by
  intro e he
  rcases List.mem_cons.mp he with rfl | he
  · refine ⟨.inr (.inl rfl), ?_⟩
    intro id hid
    rw [List.mem_singleton.mp hid]
    exact hfirst
  · rw [List.mem_singleton.mp he]
    refine ⟨haction.imp_right .inr, ?_⟩
    intro id hid
    rw [List.mem_singleton.mp hid]
    exact hsecond

theorem twoCommits_line :
    let first := sample (committedAs 1 "a" 49 "one")
    let s := sample (committedAs 1 "a" 49 "one" ++ committedAs 2 "b" 50 "two")
    ∃ p q, p.id = tipOf "main" first ∧ q.id = tipOf "main" s ∧
      PatchDag.Line s.dag (tipOf "main" (sample [])) q.id [p, q] ∧ keptOf [p, q] = [p, q] := by
  intro first s
  obtain ⟨p, hp⟩ : ∃ p, s.dag.getPatch (tipOf "main" first) = some p :=
    Option.isSome_iff_exists.mp (by decide +kernel)
  obtain ⟨q, hq⟩ : ∃ q, s.dag.getPatch (tipOf "main" s) = some q :=
    Option.isSome_iff_exists.mp (by decide +kernel)
  have hall : ∀ p ∈ s.dag.getPatch (tipOf "main" first), ∀ q ∈ s.dag.getPatch (tipOf "main" s),
      p.id = tipOf "main" first ∧ q.id = tipOf "main" s ∧
        s.dag.parents p.id = [tipOf "main" (sample [])] ∧ s.dag.parents q.id = [p.id] ∧
          keptOf [p, q] = [p, q] := by
    decide +kernel
  obtain ⟨hid, hid', hparent, hparent', hkept⟩ := hall p hp q hq
  have hbase : PatchDag.Line s.dag (tipOf "main" (sample [])) (tipOf "main" (sample [])) [] :=
    .base (by decide +kernel)
  have hone : PatchDag.Line s.dag (tipOf "main" (sample [])) p.id ([] ++ [p]) :=
    .patch hbase (by rw [hid]; exact hp) hparent
  exact ⟨p, q, hid, hid', .patch hone (by rw [hid']; exact hq) hparent', hkept⟩

/-- The first commit is reworded and the second picked. -/
theorem rebase_keeps_tree_reworded :
    let s := sample (committedAs 1 "a" 49 "one" ++ committedAs 2 "b" 50 "two")
    let plan := rewordFirst .pick (tipOf "main" (sample (committedAs 1 "a" 49 "one"))) (tipOf "main" s)
    ∃ tip' t tree, rebaseInteractive plan (tipOf "main" (sample [])) s = (.ok tip', t) ∧
      (snapshot tip' t).1 = .ok tree ∧ (snapshot (tipOf "main" s) s).1 = .ok tree := by
  intro s plan
  obtain ⟨tip', hrun⟩ := returns_of_isSome
    (m := rebaseInteractive plan (tipOf "main" (sample []))) (s := s) (by decide +kernel)
  obtain ⟨p, q, -, hid, hline, -⟩ := twoCommits_line
  have hplays : Plays s.dag plan.entries :=
    plays_rewordFirst (.inl rfl) (by decide +kernel) (by decide +kernel)
  have hloaded := (reachable_sample
    (committedAs 1 "a" 49 "one" ++ committedAs 2 "b" 50 "two")).valid.loaded
  obtain ⟨start, hstart⟩ := ok_of_isSome (r := startTree s (tipOf "main" (sample []))
    (replayedOf s.dag plan.entries)) (by decide +kernel)
  have hplayed : ∀ start ∈ (startTree s (tipOf "main" (sample []))
      (replayedOf s.dag plan.entries)).toOption,
        (replayTree start (replayedOf s.dag plan.entries)).toOption.isSome = true ∧
        (replayTree start (replayedOf s.dag plan.entries)).toOption =
          (treeAt s (tipOf "main" s)).toOption := by
    decide +kernel
  obtain ⟨hsome, hsame⟩ := hplayed start (by rw [hstart]; rfl)
  obtain ⟨tree, htree⟩ := ok_of_isSome hsome
  obtain ⟨old, hold⟩ := ok_of_isSome (r := treeAt s (tipOf "main" s)) (by decide +kernel)
  rw [htree, hold] at hsame
  cases hsame
  have hloses : LosesNothing s (tipOf "main" (sample [])) q.id (replayedOf s.dag plan.entries) :=
    ⟨start, tree, hstart, htree, by rw [hid]; exact hold⟩
  obtain ⟨tree', hnew, hold'⟩ := (rebase_keeps_tree_iff hloaded hline hplays hrun).mpr hloses
  rw [hid] at hold'
  exact ⟨tip', _, tree', hrun, hnew, hold'⟩

/-- The second commit is squashed, and its file is lost. -/
theorem squashed_commit_lost : ¬ ∀ (s t : Repository Hash) (plan : RebasePlan Hash)
    (branch : String) (base tip tip' : Hash) (line : List (Patch Hash)), Reachable s →
      (head s).1 = .ok (branch, tip) → PatchDag.Line s.dag base tip line →
        Plays s.dag plan.entries →
          plan.entries.flatMap RebasePlanEntry.patchIds = (keptOf line).map Patch.id →
            rebaseInteractive plan base s = (.ok tip', t) →
              ∃ tree, (snapshot tip' t).1 = .ok tree ∧ (snapshot tip s).1 = .ok tree := by
  intro h
  obtain ⟨p, q, hid, hid', hline, hkept⟩ := twoCommits_line
  obtain ⟨s, hs⟩ : ∃ s, s = sample (committedAs 1 "a" 49 "one" ++ committedAs 2 "b" 50 "two") :=
    ⟨_, rfl⟩
  rw [← hs] at hid' hline
  obtain ⟨plan, hplan⟩ : ∃ plan, plan = rewordFirst .squash
    (tipOf "main" (sample (committedAs 1 "a" 49 "one"))) (tipOf "main" s) := ⟨_, rfl⟩
  obtain ⟨tip', hrun⟩ := returns_of_isSome
    (m := rebaseInteractive plan (tipOf "main" (sample []))) (s := s)
    (by rw [hplan, hs]; decide +kernel)
  have hhead : (head s).1 = .ok ("main", tipOf "main" s) := ok_of_toOption (by rw [hs]; decide +kernel)
  have hplays : Plays s.dag plan.entries := by
    rw [hplan]
    exact plays_rewordFirst (.inr rfl) (by rw [hs]; decide +kernel) (by rw [hs]; decide +kernel)
  have hids : plan.entries.flatMap RebasePlanEntry.patchIds = (keptOf [p, q]).map Patch.id := by
    rw [hplan, hkept]
    change [_, _] = [p.id, q.id]
    rw [hid, hid']
  obtain ⟨tree, hnew, hold⟩ := h s _ plan "main" (tipOf "main" (sample [])) q.id tip' [p, q]
    (hs ▸ reachable_sample _) (by rw [hid']; exact hhead) hline hplays hids hrun
  have hloaded : Loaded s := by
    rw [hs]
    exact (reachable_sample _).valid.loaded
  obtain ⟨u, hplayed⟩ := rebaseInteractive_run hloaded hplays hline.base_known hrun
  obtain ⟨v, hbefore, -⟩ := snapshot_built hloaded hline.known
  rw [hplayed] at hnew
  rw [hbefore, hid'] at hold
  have hlost : (do
      let start ← startTree s (tipOf "main" (sample [])) (replayedOf s.dag plan.entries)
      replayTree start (replayedOf s.dag plan.entries)).toOption ≠
        (treeAt s (tipOf "main" s)).toOption := by
    rw [hplan, hs]
    decide +kernel
  have hvalue : ∀ {r : Except ApplyError (FileTree Hash)},
      r.mapError RepoError.apply = (.ok tree : Except (RepoError Hash) _) → r.toOption = some tree := by
    intro r hr
    cases r with
    | ok tree' => exact congrArg some (Except.ok.inj hr)
    | error e => cases hr
  exact hlost ((hvalue hnew).trans (hvalue hold).symm)

end Suture.Repo
