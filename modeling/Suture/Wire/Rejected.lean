import Suture.Wire.Stops

/-!
# Rejected pushes

A push that is refused leaves the rows that it wrote before. The hub is as it was exactly
when these rows were there.
-/

namespace Suture.Wire
set_option autoImplicit false
open Foundation

section Whole
variable (env : Env) (endpoint : Endpoint) (req : PushRequestV2) (s : Server)

/-- The element of the request that is refused, when there are writes before it. -/
inductive RefusedAfter : Stop → Prop where
  | delta {n : Nat} {e : Refusal} (hauth : (authenticateAt env endpoint req s).1 = .ok ())
    (hrepo : env.fault .ensureRepo = none)
    (hdelta : Program.firstFailure (deltaRefusal env req.repoId) (writeRow (deltaRow env req.repoId))
      0 req.deltas (s.writeRows (repoRow req)) = some (n, e)) : RefusedAfter (.delta n)
  | blob {n : Nat} {e : Refusal} (hauth : (authenticateAt env endpoint req s).1 = .ok ())
    (hrepo : env.fault .ensureRepo = none)
    (hdelta : Program.firstFailure (deltaRefusal env req.repoId) (writeRow (deltaRow env req.repoId))
      0 req.deltas (s.writeRows (repoRow req)) = none)
    (hblob : Program.firstFailure (blobCheck env) (writeRow (blobRow env endpoint req)) 0 req.blobs
      (s.writeRows (throughDeltas env req s req.deltas.length)) = some (n, e)) :
    RefusedAfter (.blob n)
  | patches {e : String} (hauth : (authenticateAt env endpoint req s).1 = .ok ())
    (hrepo : env.fault .ensureRepo = none)
    (hdelta : Program.firstFailure (deltaRefusal env req.repoId) (writeRow (deltaRow env req.repoId))
      0 req.deltas (s.writeRows (repoRow req)) = none)
    (hblob : Program.firstFailure (blobCheck env) (writeRow (blobRow env endpoint req)) 0 req.blobs
      (s.writeRows (throughDeltas env req s req.deltas.length)) = none)
    (hsome : req.patches ≠ []) (hpatches : env.fault .insertPatches = some e) :
    RefusedAfter .patches
  | branch {n : Nat} {e : Refusal} (hauth : (authenticateAt env endpoint req s).1 = .ok ())
    (hrepo : env.fault .ensureRepo = none)
    (hdelta : Program.firstFailure (deltaRefusal env req.repoId) (writeRow (deltaRow env req.repoId))
      0 req.deltas (s.writeRows (repoRow req)) = none)
    (hblob : Program.firstFailure (blobCheck env) (writeRow (blobRow env endpoint req)) 0 req.blobs
      (s.writeRows (throughDeltas env req s req.deltas.length)) = none)
    (hpatches : req.patches = [] ∨ env.fault .insertPatches = none)
    (hbranch : Program.firstFailure (branchRefusal env endpoint req) (writeRow (branchRow req)) 0
      req.branches (s.writeRows (throughLog env endpoint req s)) = some (n, e)) :
    RefusedAfter (.branch n)

variable {env endpoint req s}

/-- What the handlers promise of a rejected push. -/
def RejectedUnchanged {α : Type} (handler : Handler α) (s : Server) : Prop :=
  ∀ e, (handler s).1 = .error e → (handler s).2 = s

theorem outcome_of_refusedAfter {stop : Stop} (h : RefusedAfter env endpoint req s stop) :
    (outcome env endpoint req s).1 = stop ∧ ∃ e, (outcome env endpoint req s).2 = .error e := by
  unfold outcome faultOf
  cases h with
  | delta hauth hrepo hdelta =>
    rw [hauth, hrepo]
    simp only [Option.map_none, hdelta]
    exact ⟨trivial, _, rfl⟩
  | blob hauth hrepo hdelta hblob =>
    rw [hauth, hrepo]
    simp only [Option.map_none, hdelta, hblob]
    exact ⟨trivial, _, rfl⟩
  | patches hauth hrepo hdelta hblob hsome hpatches =>
    rw [hauth, hrepo, hpatches, if_neg hsome]
    simp only [Option.map_none, Option.map_some, hdelta, hblob]
    exact ⟨trivial, _, rfl⟩
  | branch hauth hrepo hdelta hblob hpatches hbranch =>
    have hnone : (if req.patches = [] then none
        else (env.fault .insertPatches).map Refusal.storage) = none := by
      rcases hpatches with hnil | hfault
      · rw [if_pos hnil]
      · rw [hfault, Option.map_none, ite_self]
    rw [hauth, hrepo, hnone]
    simp only [Option.map_none, hdelta, hblob, hbranch]
    exact ⟨trivial, _, rfl⟩

/-- A refused push is refused before its first write, or after. -/
theorem refusedAfter_of_outcome {e : Refusal} (h : (outcome env endpoint req s).2 = .error e) :
    (outcome env endpoint req s).1 = .refused ∨
      RefusedAfter env endpoint req s (outcome env endpoint req s).1 := by
  revert h
  unfold outcome
  cases hauth : (authenticateAt env endpoint req s).1 with
  | error e => exact fun _ => .inl rfl
  | ok _ =>
    unfold faultOf
    cases hrepo : env.fault .ensureRepo with
    | some e => exact fun _ => .inl rfl
    | none =>
      simp only [Option.map_none]
      cases hdelta : Program.firstFailure (deltaRefusal env req.repoId)
          (writeRow (deltaRow env req.repoId)) 0 req.deltas (s.writeRows (repoRow req)) with
      | some p => exact fun _ => .inr (.delta hauth hrepo hdelta)
      | none =>
        cases hblob : Program.firstFailure (blobCheck env) (writeRow (blobRow env endpoint req)) 0
            req.blobs (s.writeRows (throughDeltas env req s req.deltas.length)) with
        | some p => exact fun _ => .inr (.blob hauth hrepo hdelta hblob)
        | none =>
          by_cases hnil : req.patches = []
          · simp only [if_pos hnil]
            cases hbranch : Program.firstFailure (branchRefusal env endpoint req)
                (writeRow (branchRow req)) 0 req.branches
                (s.writeRows (throughLog env endpoint req s)) with
            | some p => exact fun _ => .inr (.branch hauth hrepo hdelta hblob (.inl hnil) hbranch)
            | none => exact nofun
          · cases hpatches : env.fault .insertPatches with
            | some e =>
              simp only [if_neg hnil, Option.map_some]
              exact fun _ => .inr (.patches hauth hrepo hdelta hblob hnil hpatches)
            | none =>
              simp only [if_neg hnil, Option.map_none]
              cases hbranch : Program.firstFailure (branchRefusal env endpoint req)
                  (writeRow (branchRow req)) 0 req.branches
                  (s.writeRows (throughLog env endpoint req s)) with
              | some p =>
                exact fun _ => .inr (.branch hauth hrepo hdelta hblob (.inr hpatches) hbranch)
              | none => exact nofun

theorem rejectedUnchanged_iff : RejectedUnchanged (handle env endpoint req) s ↔
    ∀ stop, RefusedAfter env endpoint req s stop →
      s.Stored (rowsUpTo env endpoint req s stop) := by
  unfold RejectedUnchanged
  rw [handle_run]
  constructor
  · intro h stop hstop
    obtain ⟨hout, e, he⟩ := outcome_of_refusedAfter hstop
    have hsame := h e he
    rw [hout] at hsame
    exact Server.writeRows_eq_self_iff.mp hsame
  · intro h e he
    rcases refusedAfter_of_outcome he with hearly | hlate
    · rw [hearly]
      exact s.writeRows_empty
    · exact Server.writeRows_eq_self_iff.mpr (h _ hlate)

end Whole

/-- A rejected push changes nothing exactly when all that it stores before the element that is
refused was there. -/
theorem rejected_push_unchanged_iff (env : Env) (s : Server) :
    (∀ req, RejectedUnchanged (handlePush env req) s ↔
        ∀ stop, RefusedAfter env .push req.toV2 s stop →
          s.Stored (rowsUpTo env .push req.toV2 s stop)) ∧
      (∀ req, RejectedUnchanged (handlePushV2 env req) s ↔
        ∀ stop, RefusedAfter env .pushV2 req s stop → s.Stored (rowsUpTo env .pushV2 req s stop)) ∧
      ∀ req, RejectedUnchanged (handleBatchPush env req) s ↔
        ∀ stop, RefusedAfter env .batchPush req.toV2 s stop →
          s.Stored (rowsUpTo env .batchPush req.toV2 s stop) :=
  ⟨fun _ => rejectedUnchanged_iff, fun _ => rejectedUnchanged_iff, fun _ => rejectedUnchanged_iff⟩

/-- A hub whose branch `main` is protected. -/
def guardedHub : Server where
  storage :=
    { repos := .empty, patches := .empty, branches := .empty, blobs := .empty
      branchProtection := SortedSet.empty.insert (key "r" "main")
      authorizedKeys := .empty, tokens := .empty, blobMetadata := .empty, blobTrigrams := .empty
      replicationLog := [], maxBlobSize := 100 }
  blobBackend := none
  noAuth := false

/-- Base64 is taken as the text itself, with one bad text, and no call fails. -/
def plainEnv : Env where
  base64Decode := fun text => if text = "!" then .error "Invalid symbol" else .ok (utf8 text)
  applyDelta := fun _ delta => delta
  scheme := endScheme
  authors := id
  now := 0
  fault := fun _ => none

def twoBranches : PushRequest where
  repoId := "r"
  patches := [⟨⟨"a"⟩, "create", [], none, "", [], "ann", "", 0⟩]
  branches := [⟨"dev", ⟨"a"⟩⟩, ⟨"main", ⟨"a"⟩⟩]
  blobs := []
  signature := none
  knownBranches := none
  force := false

/-- The second branch is refused; the first is set all the same. -/
theorem rejected_push_changes : ¬ RejectedUnchanged (handlePush plainEnv twoBranches) guardedHub := by
  intro h
  have hrefused : (handlePush plainEnv twoBranches guardedHub).1 =
      .error (.protectedBranch "main") := by decide +kernel
  have hset : (handlePush plainEnv twoBranches guardedHub).2.storage.branches.get (key "r" "dev") =
      some "a" := by decide +kernel
  rw [h _ hrefused] at hset
  have hbefore : guardedHub.storage.branches.get (key "r" "dev") = none := rfl
  rw [hbefore] at hset
  cases hset

end Suture.Wire
