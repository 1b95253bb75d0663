import Suture.Repo.Upkeep

/-!
# Garbage collection

`gc` traces branches and tags, and of the patches it finds only the payloads. Stashes,
stored trees and a detached HEAD are not traced.
-/

namespace Suture.Repo
set_option autoImplicit false
open Foundation Common Patches Dag Engine Program

structure GcResult where
  patchesRemoved : Nat
  blobsRemoved : Nat
deriving DecidableEq, Repr

variable {H : Type} [LinearOrder H]

/-! ### The collector -/

/-- Branches by name. -/
def listBranches (d : PatchDag H) : List (String × H) :=
  d.branches.insertionSort fun a b => a.1 ≤ b.1

def traceFrom (reached : SortedSet H) (tip : H) : Action H (SortedSet H) := do
  let ancestors ← queryDag fun d => d.ancestors tip
  return ancestors.elems.foldl (fun r id => r.insert id) (reached.insert tip)

def gcReachable : Action H (SortedSet H) := do
  let s ← read
  let reached ← foldEach (fun reached b => traceFrom reached b.2) .empty (listBranches s.dag)
  foldEach (fun reached t => if t.2 ∈ reached then return reached else traceFrom reached t.2)
    reached s.tags.entries

/-- The hashes that the payload of a patch is or holds. -/
def payloadHashes (patch : Patch H) : List H :=
  if patch.isBatch then (patch.fileChanges.getD []).filterMap fun c => resolveHexToHash c.payload
  else (resolvePayloadToHash patch).toList

def referencedBlobs (d : PatchDag H) (reached : SortedSet H) : SortedSet H :=
  .ofList (reached.elems.flatMap fun id =>
    match d.getPatch id with
    | some patch => payloadHashes patch
    | none => [])

/-- The DAG in memory stays as it is. -/
def gc : Action H GcResult := do
  let reached ← gcReachable
  let s ← read
  let unreachable := (s.dag.nodes.map Prod.fst).filter fun id => decide (id ∉ reached)
  let referenced := referencedBlobs s.dag reached
  let orphaned := if s.blobsLocked then [] else
    s.blobs.keys.filter fun hash => decide (hash ∉ referenced)
  modify fun s => { s with
    patchRows := unreachable.foldl (fun m id => m.erase id) s.patchRows
    fileTrees := unreachable.foldl (fun m id => m.erase id) s.fileTrees
    blobs := orphaned.foldl (fun m hash => m.erase hash) s.blobs }
  return ⟨unreachable.length, orphaned.length⟩

/-! ### What is traced -/

variable {s t : Repository H} {reached reached' : SortedSet H}

/-- What `gc` starts from. -/
inductive Anchor (s : Repository H) : H → Prop where
  | branch {name : String} {id : H} : (name, id) ∈ s.dag.branches → Anchor s id
  | tag {name : String} {id : H} : s.tags.get name = some id → Anchor s id

def Traced (s : Repository H) (id : H) : Prop := ∃ root, Anchor s root ∧ s.dag.History root id

theorem Traced.trans {id p : H} (h : Traced s id) (hp : s.dag.History id p) : Traced s p :=
  h.imp fun _ hroot => ⟨hroot.1, hroot.2.trans hp⟩

/-- Only questions are asked, and what is reached grows by this. -/
def Traces (s : Repository H) (new : H → Prop) (reached : SortedSet H) (m : Action H (SortedSet H)) :
    Prop :=
  ∃ reached' d, m s = (.ok reached', { s with dag := d }) ∧ PatchDag.Queried s.dag d ∧
    ∀ p, p ∈ reached' ↔ p ∈ reached ∨ new p

theorem traces_from (hs : s.dag.CacheExact) (reached : SortedSet H) (tip : H) :
    Traces s (s.dag.History tip) reached (traceFrom reached tip) := by
  refine ⟨_, _, rfl, PatchDag.queried_ancestors s.dag tip, fun p => ?_⟩
  rw [SortedSet.mem_foldl_insert, SortedSet.mem_insert, ← SortedSet.mem_def,
    PatchDag.mem_ancestors hs, or_left_comm, or_comm (a := p ∈ reached), ← or_assoc]
  exact Iff.rfl

/-- Tracing from each of a list, in any way that finds what its histories hold. -/
theorem traces_each {α : Type} (tip : α → H) {f : SortedSet H → α → Action H (SortedSet H)}
    (hf : ∀ {u : Repository H} (reached : SortedSet H) (a : α), u.dag.CacheExact →
      (∀ p ∈ reached, ∀ q, u.dag.History p q → q ∈ reached) →
      Traces u (u.dag.History (tip a)) reached (f reached a)) (as : List α) :
    ∀ {s : Repository H} (reached : SortedSet H), s.dag.CacheExact →
      (∀ p ∈ reached, ∀ q, s.dag.History p q → q ∈ reached) →
      Traces s (fun p => ∃ a ∈ as, s.dag.History (tip a) p) reached (foldEach f reached as) := by
  induction as with
  | nil => exact fun {s} reached _ _ => ⟨reached, s.dag, rfl, .refl _, fun p => by simp⟩
  | cons a as ih =>
    intro s reached hs hclosed
    obtain ⟨reached₁, d, hrun, hasked, hmem⟩ := hf reached a hs hclosed
    have hhistory : ∀ x y, d.History x y ↔ s.dag.History x y := fun x y => by
      unfold PatchDag.History
      rw [hasked.same.reaches]
    obtain ⟨reached₂, d', hrest, hasked', hmem'⟩ := @ih { s with dag := d }
      reached₁ (hasked.cache hs) fun p hp q hpq => by
        rw [hhistory] at hpq
        rw [hmem] at hp ⊢
        exact hp.imp (fun hp => hclosed p hp q hpq) fun hp => hp.trans hpq
    refine ⟨reached₂, d', ?_, hasked.trans hasked', fun p => ?_⟩
    · unfold foldEach
      rw [bind_of_ok hrun, hrest]
    · rw [hmem', hmem]
      simp only [hhistory, List.exists_mem_cons_iff, or_assoc]

theorem gcReachable_run (hs : s.dag.CacheExact) : ∃ reached d,
    gcReachable s = (.ok reached, { s with dag := d }) ∧ PatchDag.Queried s.dag d ∧
      ∀ p, p ∈ reached ↔ Traced s p := by
  obtain ⟨reached, d, hrun, hasked, hmem⟩ := traces_each (s := s) Prod.snd
    (f := fun reached (b : String × H) => traceFrom reached b.2)
    (fun reached b hu _ => traces_from hu reached b.2) (listBranches s.dag) .empty hs nofun
  have hhistory : ∀ x y, d.History x y ↔ s.dag.History x y := fun x y => by
    unfold PatchDag.History
    rw [hasked.same.reaches]
  have hbranches : ∀ p, p ∈ reached ↔ ∃ b ∈ s.dag.branches, s.dag.History b.2 p := fun p => by
    simp [hmem, listBranches, (List.perm_insertionSort _ _).mem_iff]
  obtain ⟨reached', d', hrun', hasked', hmem'⟩ := traces_each (s := { s with dag := d })
    Prod.snd (f := fun reached (t : String × H) =>
      if t.2 ∈ reached then return reached else traceFrom reached t.2)
    (fun reached t hu hclosed => by
      split
      · rename_i hin
        refine ⟨reached, _, rfl, .refl _, fun p => ?_⟩
        exact ⟨.inl, fun h => h.elim id (hclosed _ hin p)⟩
      · exact traces_from hu reached t.2) s.tags.entries reached (hasked.cache hs) fun p hp q hpq => by
      rw [hhistory] at hpq
      rw [hbranches] at hp ⊢
      exact hp.imp fun b hb => ⟨hb.1, hb.2.trans hpq⟩
  refine ⟨reached', d', ?_, hasked.trans hasked', fun p => ?_⟩
  · unfold gcReachable
    rw [read_bind, bind_of_ok hrun, hrun']
  · rw [hmem', hbranches]
    simp only [hhistory]
    constructor
    · rintro (⟨⟨name, id⟩, hb, hp⟩ | ⟨⟨name, id⟩, ht, hp⟩)
      · exact ⟨id, .branch hb, hp⟩
      · exact ⟨id, .tag (SortedMap.mem_entries.mp ht), hp⟩
    · rintro ⟨id, hroot, hp⟩
      cases hroot with
      | branch hb => exact .inl ⟨_, hb, hp⟩
      | tag ht => exact .inr ⟨_, SortedMap.mem_entries.mpr ht, hp⟩

/-- A blob that the payload of a traced patch names. -/
def Referenced (s : Repository H) (hash : H) : Prop :=
  ∃ id patch, Traced s id ∧ s.dag.getPatch id = some patch ∧ hash ∈ payloadHashes patch

theorem mem_referencedBlobs {hash : H} (hmem : ∀ p, p ∈ reached ↔ Traced s p) :
    hash ∈ referencedBlobs s.dag reached ↔ Referenced s hash := by
  unfold referencedBlobs
  rw [SortedSet.mem_ofList, List.mem_flatMap]
  constructor
  · rintro ⟨id, hid, hhash⟩
    cases hpatch : s.dag.getPatch id with
    | none =>
      rw [hpatch] at hhash
      cases hhash
    | some patch =>
      rw [hpatch] at hhash
      exact ⟨id, patch, (hmem id).mp hid, hpatch, hhash⟩
  · rintro ⟨id, patch, htraced, hpatch, hhash⟩
    exact ⟨id, (hmem id).mpr htraced, by rwa [hpatch]⟩

/-- What a collection leaves: of the patches in the DAG those that are traced, of the blobs
those that are referenced, unless the store cannot be written. -/
theorem gc_run (hs : s.dag.CacheExact) : ∃ result t, gc s = (.ok result, t) ∧
    (∀ id patch, t.patchRows.get id = some patch ↔
      s.patchRows.get id = some patch ∧ (s.dag.hasPatch id = true → Traced s id)) ∧
    ∀ hash data, t.blobs.get hash = some data ↔
      s.blobs.get hash = some data ∧ (s.blobsLocked = true ∨ Referenced s hash) := by
  obtain ⟨reached, d, hrun, hasked, hmem⟩ := gcReachable_run hs
  have hreferenced : ∀ hash, hash ∈ referencedBlobs d reached ↔ Referenced s hash := fun hash => by
    rw [← mem_referencedBlobs hmem]
    unfold referencedBlobs
    simp only [hasked.same.getPatch]
  unfold gc
  rw [bind_of_ok hrun, read_bind]
  refine ⟨_, _, rfl, fun id patch => ?_, fun hash data => ?_⟩
  · have hknown : id ∈ d.nodes.map Prod.fst ↔ s.dag.hasPatch id = true := by
      rw [← hasked.same.hasPatch, PatchDag.hasPatch, PatchDag.getNode, Option.isSome_iff_ne_none,
        Ne, Assoc.get_eq_none_iff, not_not]
    rw [SortedMap.get_foldl_erase_eq_some, List.mem_filter, decide_eq_true_eq, hknown, hmem,
      not_and_not_right]
  · rw [SortedMap.get_foldl_erase_eq_some]
    refine and_congr_right fun hhash => ?_
    cases hlocked : s.blobsLocked with
    | true => simp
    | false =>
      have hkey : hash ∈ s.blobs.keys := SortedMap.mem_keys.mpr (by rw [hhash]; exact Option.some_ne_none data)
      rw [if_neg Bool.false_ne_true, List.mem_filter, decide_eq_true_eq, hreferenced,
        not_and_not_right]
      simp [hkey]

/-! ### What is live -/

/-- A branch, a tag or a detached HEAD. -/
def Root (s : Repository H) (id : H) : Prop :=
  Anchor s id ∨ (s.detached = true ∧ s.detachedHead = some id)

def Live (s : Repository H) (id : H) : Prop := ∃ root, Root s root ∧ s.dag.History root id

/-- Named in a tree of a live patch, stored or replayed, or in a stash. -/
inductive LiveBlob [Hashing H] (s : Repository H) (hash : H) : Prop where
  | stored {id : H} {tree : FileTree H} {path : String} : Live s id →
      s.fileTrees.get id = some tree → tree.get path = some hash → LiveBlob s hash
  | replayed {id : H} {path : String} : Live s id → (replay s.dag id).get path = some hash →
      LiveBlob s hash
  | stashed {index : Nat} {stash : Stash H} {path : String} : s.stashes.get index = some stash →
      (path, some hash) ∈ stash.files → LiveBlob s hash

variable [Hashing H] {F : Prop}

structure KeepsLive (s t : Repository H) : Prop where
  patches : ∀ id patch, Live s id → s.patchRows.get id = some patch → t.patchRows.get id = some patch
  blobs : ∀ hash data, LiveBlob s hash → s.blobs.get hash = some data → t.blobs.get hash = some data

/-- What a detached HEAD, a stash or a stored tree needs, branches and tags need as well. -/
structure NothingElseLive (s : Repository H) : Prop where
  patches : ∀ root id, s.detached = true → s.detachedHead = some root → s.dag.History root id →
    s.dag.hasPatch id = true → s.patchRows.contains id = true → Traced s id
  heads : s.blobsLocked = false → ∀ root id path hash, s.detached = true →
    s.detachedHead = some root → s.dag.History root id →
    (replay s.dag id).get path = some hash → s.blobs.contains hash = true → Referenced s hash
  stored : s.blobsLocked = false → ∀ id tree path hash, Live s id →
    s.fileTrees.get id = some tree → tree.get path = some hash → s.blobs.contains hash = true →
    Referenced s hash
  stashed : s.blobsLocked = false → ∀ index stash path hash, s.stashes.get index = some stash →
    (path, some hash) ∈ stash.files → s.blobs.contains hash = true → Referenced s hash

omit [LinearOrder H] [Hashing H] in
theorem payloadHashes_of_change {patch : Patch H} {changes : List (FileChange H)}
    (hchanges : patch.fileChanges = some changes) {c : FileChange H} (hc : c ∈ changes) {hash : H}
    (hpayload : c.payload = .hex hash) : hash ∈ payloadHashes patch := by
  have hbatch : patch.isBatch = true := by
    by_contra hnot
    unfold Patch.fileChanges at hchanges
    rw [if_neg fun hop => hnot (by rw [Patch.isBatch, hop]; rfl)] at hchanges
    cases hchanges
  rw [payloadHashes, if_pos hbatch, hchanges]
  exact List.mem_filterMap.mpr ⟨c, hc, by rw [hpayload]; rfl⟩

omit [Hashing H] in
/-- A replay makes up no hash. -/
theorem foldl_entryStep_eq_some {d : PatchDag H} {path : String} {ids : List H} {entry : Option H}
    {hash : H} (h : ids.foldl (entryStep d path) entry = some hash) :
    entry = some hash ∨
      ∃ id ∈ ids, ∃ patch, d.getPatch id = some patch ∧ hash ∈ payloadHashes patch := by
  induction ids generalizing entry with
  | nil => exact .inl h
  | cons id ids ih =>
    rcases ih h with hstep | ⟨id', hid', hfound⟩
    · unfold entryStep at hstep
      rcases foldl_entryAfter_eq_some hstep with hentry | ⟨c, hc, -, hpayload⟩
      · exact .inl hentry
      · cases hpatch : d.getPatch id with
        | none =>
          rw [hpatch] at hc
          cases hc
        | some patch =>
          rw [hpatch, Option.bind_some] at hc
          cases hchanges : patch.fileChanges with
          | none =>
            rw [hchanges] at hc
            cases hc
          | some changes =>
            rw [hchanges] at hc
            exact .inr ⟨id, List.mem_cons_self .., patch, hpatch,
              payloadHashes_of_change hchanges hc hpayload⟩
    · exact .inr ⟨id', List.mem_cons_of_mem _ hid', hfound⟩

/-- Of a traced patch the replayed tree needs nothing more. -/
theorem Valid.replay_referenced (hs : Valid F s) {id : H} (hid : Traced s id) {path : String}
    {hash : H} (h : (replay s.dag id).get path = some hash) : Referenced s hash := by
  have hreplay : (replay s.dag id).get path = (s.dag.chain id).foldl (entryStep s.dag path) none :=
    hs.get_replayed path _ .empty
  rw [hreplay] at h
  rcases foldl_entryStep_eq_some h with hnone | ⟨p, hp, patch, hpatch, hhash⟩
  · cases hnone
  · exact ⟨p, patch, hid.trans (PatchDag.mem_chain.mp hp), hpatch, hhash⟩

omit [Hashing H] in
theorem Live.traced_or {id : H} (h : Live s id) : Traced s id ∨
    ∃ root, s.detached = true ∧ s.detachedHead = some root ∧ s.dag.History root id := by
  obtain ⟨root, hanchor | ⟨hdetached, hhead⟩, hid⟩ := h
  · exact .inl ⟨root, hanchor, hid⟩
  · exact .inr ⟨root, hdetached, hhead, hid⟩

theorem gc_keeps_live_iff (hs : Maintained s) : KeepsLive s (gc s).2 ↔ NothingElseLive s := by
  have hvalid := hs.valid
  obtain ⟨result, t, hrun, hpatches, hblobs⟩ := gc_run hvalid.sound.cache
  rw [hrun]
  have hkept : ∀ {hash : H}, s.blobs.contains hash = true → LiveBlob s hash → KeepsLive s t →
      s.blobsLocked = false → Referenced s hash := by
    intro hash hthere hlive hkeeps hopen
    obtain ⟨data, hdata⟩ := Option.isSome_iff_exists.mp hthere
    rcases ((hblobs hash data).mp (hkeeps.blobs hash data hlive hdata)).2 with hlocked | href
    · rw [hopen] at hlocked
      cases hlocked
    · exact href
  constructor
  · intro hkeeps
    refine ⟨fun root id hdetached hhead hid hknown hthere => ?_,
      fun hopen root id path hash hdetached hhead hid hget hthere => ?_,
      fun hopen id tree path hash hlive htree hget hthere => ?_,
      fun hopen index stash path hash hstash hfile hthere => ?_⟩
    · obtain ⟨patch, hpatch⟩ := Option.isSome_iff_exists.mp hthere
      have hlive : Live s id := ⟨root, .inr ⟨hdetached, hhead⟩, hid⟩
      exact ((hpatches id patch).mp (hkeeps.patches id patch hlive hpatch)).2 hknown
    · exact hkept hthere (.replayed ⟨root, .inr ⟨hdetached, hhead⟩, hid⟩ hget) hkeeps hopen
    · exact hkept hthere (.stored hlive htree hget) hkeeps hopen
    · exact hkept hthere (.stashed hstash hfile) hkeeps hopen
  · intro h
    refine ⟨fun id patch hlive hpatch => ?_, fun hash data hlive hdata => ?_⟩
    · refine (hpatches id patch).mpr ⟨hpatch, fun hknown => ?_⟩
      rcases hlive.traced_or with htraced | ⟨root, hdetached, hhead, hid⟩
      · exact htraced
      · exact h.patches root id hdetached hhead hid hknown (Option.isSome_iff_exists.mpr ⟨patch, hpatch⟩)
    · have hthere : s.blobs.contains hash = true := Option.isSome_iff_exists.mpr ⟨data, hdata⟩
      refine (hblobs hash data).mpr ⟨hdata, ?_⟩
      cases hopen : s.blobsLocked with
      | true => exact .inl rfl
      | false =>
        refine .inr ?_
        cases hlive with
        | stored hlive htree hget => exact h.stored hopen _ _ _ hash hlive htree hget hthere
        | replayed hlive hget =>
          rcases hlive.traced_or with htraced | ⟨root, hdetached, hhead, hid⟩
          · exact hvalid.replay_referenced htraced hget
          · exact h.heads hopen root _ _ hash hdetached hhead hid hget hthere
        | stashed hstash hfile => exact h.stashed hopen _ _ _ hash hstash hfile hthere

/-- One file, committed. -/
def recorded : List (Event Hash) := [.editFile "a" [49], .add "a", .commit "first"]

/-- The tree stored for the commit is its own work. -/
theorem gc_keeps_live_recorded : KeepsLive (sample recorded) (gc (sample recorded)).2 := by
  refine (gc_keeps_live_iff (maintained_sample recorded)).mpr ?_
  have hattached : (sample recorded).detached = false := by decide +kernel
  have hstashes : (sample recorded).stashes = .empty := by decide +kernel
  have hbranch : ("main", tipOf "main" (sample recorded)) ∈ (sample recorded).dag.branches := by
    decide +kernel
  have hnamed : ((sample recorded).dag.getPatch (tipOf "main" (sample recorded))).map payloadHashes =
      some ((sample recorded).fileTrees.entries.flatMap fun e => e.2.entries.map Prod.snd) := by
    decide +kernel
  obtain ⟨patch, hpatch, hhashes⟩ := Option.map_eq_some_iff.mp hnamed
  refine ⟨fun root id h => ?_, fun _ root id path hash h => ?_,
    fun _ id tree path hash _ htree hget _ => ?_, fun _ index stash path hash hstash => ?_⟩
  · rw [hattached] at h
    cases h
  · rw [hattached] at h
    cases h
  · refine ⟨_, patch, ⟨_, .branch hbranch, .inl rfl⟩, hpatch, ?_⟩
    rw [hhashes]
    exact List.mem_flatMap.mpr ⟨_, SortedMap.mem_entries.mpr htree,
      List.mem_map.mpr ⟨_, SortedMap.mem_entries.mpr hget, rfl⟩⟩
  · rw [hstashes] at hstash
    cases hstash

/-- The file is changed again and the change stashed. -/
def stashed : List (Event Hash) :=
  recorded ++ [.editFile "a" [50], .stashPush (fun _ => false) none]

theorem stash_collected : ¬ ∀ s : Repository Hash, Maintained s → KeepsLive s (gc s).2 := by
  intro h
  have hstash : ((sample stashed).stashes.get 0).map Stash.files =
      some [("a", some (Hashing.fromData [50]))] := by decide +kernel
  have hthere : (sample stashed).blobs.get (Hashing.fromData [50]) = some [50] := by decide +kernel
  have hgone : (gc (sample stashed)).2.blobs.get (Hashing.fromData [50]) = none := by decide +kernel
  obtain ⟨stash, hget, hfiles⟩ := Option.map_eq_some_iff.mp hstash
  have hfile : ("a", some (Hashing.fromData [50])) ∈ stash.files := by
    rw [hfiles]
    exact List.mem_singleton_self _
  have hkept := (h _ (maintained_sample stashed)).blobs _ _ (.stashed hget hfile) hthere
  rw [hgone] at hkept
  cases hkept

end Suture.Repo
