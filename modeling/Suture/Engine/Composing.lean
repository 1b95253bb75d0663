import Mathlib.Data.List.Induction
import Suture.Engine.Edits
import Suture.Foundation.EntryRuns
import Suture.Patches.Compose
import Suture.Repo.Machine

/-!
# The composition of a chain of patches

The composed patch has one path, one payload and one operation. It can stand for the chain when
the edits of the chain come to no more than that.
-/

namespace Suture.Engine
set_option autoImplicit false
open Common Foundation Patches Repo
variable {H : Type}

def netPath (patches : List (Patch H)) : Option String :=
  (patches.filterMap Patch.targetPath).getLast?

def netPayload (patches : List (Patch H)) : Payload H :=
  ((patches.map Patch.payload).filter fun payload => !payload.isEmpty).getLast?.getD (.text .empty)

def netOperation (ops : List OperationType) : OperationType :=
  match ops.getLast? with
  | some .delete => .delete
  | some .move => .move
  | _ =>
    if ops.head? = some .create ∧ ∀ op ∈ ops, op = .create ∨ op = .modify then .create else .modify

theorem composeOp_eq_create {composed next : OperationType} :
    composeOp composed next = .create ↔ composed = .create ∧ (next = .create ∨ next = .modify) := by
  cases composed <;> cases next <;> decide

theorem foldl_composeOp_eq_create {first : OperationType} {rest : List OperationType} :
    rest.foldl composeOp first = .create ↔
      first = .create ∧ ∀ op ∈ rest, op = .create ∨ op = .modify := by
  induction rest generalizing first with
  | nil => simp
  | cons op rest ih => rw [List.foldl_cons, ih, composeOp_eq_create, List.forall_mem_cons, and_assoc]

theorem composeOp_cases (composed next : OperationType) :
    composeOp composed next = match next with
      | .delete => .delete
      | .move => .move
      | _ => if composeOp composed next = .create then .create else .modify := by
  cases composed <;> cases next <;> rfl

theorem foldl_composeOp (first : OperationType) {rest : List OperationType} (h : rest ≠ []) :
    rest.foldl composeOp first = netOperation (first :: rest) := by
  obtain ⟨init, last, rfl⟩ := (List.eq_nil_or_concat' rest).resolve_left h
  have hcreate : (init ++ [last]).foldl composeOp first = .create ↔ _ := foldl_composeOp_eq_create
  have hlast : (first :: (init ++ [last])).getLast? = some last := by
    rw [← List.cons_append, List.getLast?_concat]
  rw [List.foldl_append, List.foldl_cons, List.foldl_nil] at hcreate ⊢
  rw [composeOp_cases, netOperation, hlast]
  cases last with
  | delete | move => rfl
  | create | modify | metadata | merge | identity | batch =>
    refine if_congr (hcreate.trans ?_) rfl rfl
    rw [List.head?_cons, Option.some.injEq, List.forall_mem_cons]
    exact and_congr_right fun hfirst => ⟨fun hall => ⟨.inl hfirst, hall⟩, And.right⟩

theorem netPath_concat (patches : List (Patch H)) (p : Patch H) :
    netPath (patches ++ [p]) = if p.targetPath.isSome then p.targetPath else netPath patches := by
  unfold netPath
  cases htarget : p.targetPath with
  | none => simp [htarget]
  | some path => simp [htarget]

theorem netPayload_concat (patches : List (Patch H)) (p : Patch H) :
    netPayload (patches ++ [p]) = if p.payload.isEmpty then netPayload patches else p.payload := by
  unfold netPayload
  cases hempty : p.payload.isEmpty with
  | true => simp [hempty]
  | false => simp [hempty]

theorem eq_empty_of_isEmpty {payload : Payload H} (h : payload.isEmpty = true) :
    payload = .text .empty := by
  cases payload with
  | text t => cases t <;> first | rfl | cases h
  | changes _ => cases h

/-- The composition of a chain of patches. -/
theorem foldl_add_eq (first : Patch H) (rest : List (Patch H)) :
    ∃ touch, rest.foldl Composed.add ⟨first.touchSet, first.targetPath, first.payload,
      first.operationType⟩ = ⟨touch, netPath (first :: rest), netPayload (first :: rest),
        (rest.map Patch.operationType).foldl composeOp first.operationType⟩ := by
  induction rest using List.reverseRecOn with
  | nil =>
    refine ⟨first.touchSet, ?_⟩
    have hpath : netPath [first] = first.targetPath := by
      rw [← List.nil_append [first], netPath_concat]
      cases first.targetPath <;> rfl
    have hpayload : netPayload [first] = first.payload := by
      rw [← List.nil_append [first], netPayload_concat]
      split
      · rename_i hempty
        exact (eq_empty_of_isEmpty hempty).symm
      · rfl
    rw [hpath, hpayload]
    rfl
  | append_singleton rest p ih =>
    obtain ⟨touch, ih⟩ := ih
    rw [List.foldl_append, ih, ← List.cons_append, netPath_concat, netPayload_concat, List.map_append,
      List.foldl_append]
    exact ⟨_, rfl⟩

section Net
variable [Hashing H]

def netHash : Payload H → Option H
  | .text t => resolveHexToHash t
  | .changes _ => none

/-- The edit that the last path and the last payload of the chain spell. -/
def netEdits (patches : List (Patch H)) : Except ApplyError (List (KeyEdit String H)) :=
  match netPath patches with
  | none => .ok []
  | some path =>
    match netOperation (patches.map Patch.operationType) with
    | .move =>
      match payloadUtf8 (netPayload patches) with
      | some newPath => .ok [.rename path newPath]
      | none => .error .invalidMovePayload
    | op => .ok (contentEdits op path (netHash (netPayload patches)))

def Law (composed : Patch H) (patches : List (Patch H)) : Prop :=
  ∀ tree, applyPatch tree composed = applyPatchChainMut tree patches

theorem netOperation_ne_batch (ops : List OperationType) : netOperation ops ≠ .batch := by
  unfold netOperation
  split
  · nofun
  · nofun
  · split <;> nofun

theorem chainEdits_singleton (p : Patch H) : chainEdits [p] = patchEdits p := by
  rw [chainEdits_cons]
  cases patchEdits p with
  | error _ => rfl
  | ok edits => exact congrArg Except.ok (List.append_nil edits)

theorem patchEdits_eq_netEdits {p : Patch H} {patches : List (Patch H)}
    (hop : p.operationType = netOperation (patches.map Patch.operationType))
    (hpath : p.targetPath = netPath patches) (hpayload : p.payload = netPayload patches) :
    patchEdits p = netEdits patches := by
  have hbatch : p.operationType ≠ .batch := hop ▸ netOperation_ne_batch _
  have hhash : resolvePayloadToHash p = netHash (netPayload patches) := by
    rw [← hpayload]
    rfl
  rw [patchEdits, if_neg hbatch, hpath, netEdits]
  cases netPath patches with
  | none => rfl
  | some path =>
    dsimp only [targetEdits]
    rw [hop, hpayload, hhash] <;> rfl

theorem patchEdits_composeChain {patches : List (Patch H)} {author message : String}
    {timestamp : Nat} {p : Patch H} (h : composeChain patches author message timestamp = some p)
    (hlen : patches.length ≠ 1) : patchEdits p = netEdits patches := by
  match patches, h, hlen with
  | first :: second :: rest, h, _ =>
    obtain ⟨touch, hfold⟩ := foldl_add_eq first (second :: rest)
    have hop : ((second :: rest).map Patch.operationType).foldl composeOp first.operationType =
        netOperation ((first :: second :: rest).map Patch.operationType) :=
      foldl_composeOp first.operationType (by simp)
    simp only [composeChain, hfold, hop] at h
    obtain rfl := Option.some.inj h
    exact patchEdits_eq_netEdits rfl rfl rfl

/-- The chain and its composition do the same when the edits of the chain come to the one edit
that its last path and payload spell. -/
theorem law_iff [Nontrivial H] {patches : List (Patch H)} {author message : String}
    {timestamp : Nat} {p : Patch H} (h : composeChain patches author message timestamp = some p) :
    Law p patches ↔ patches.length = 1 ∨ EditsAgree (netEdits patches) (chainEdits patches) := by
  have hone (tree : FileTree H) (q : Patch H) : applyPatchChainMut tree [q] = applyPatch tree q := by
    rw [applyPatchChainMut, List.foldlM_cons]
    cases applyPatch tree q <;> rfl
  have hlaw : Law p patches ↔ EditsAgree (chainEdits [p]) (chainEdits patches) := by
    rw [← applyPatchChainMut_eq_iff]
    exact forall_congr' fun tree => by rw [hone]
  by_cases hlen : patches.length = 1
  · obtain ⟨q, rfl⟩ := List.length_eq_one_iff.mp hlen
    cases h
    exact ⟨fun _ => .inl rfl, fun _ tree => (hone tree p).symm⟩
  · rw [hlaw, chainEdits_singleton, patchEdits_composeChain h hlen]
    exact (or_iff_right hlen).symm

/-! ### Chains of creates, modifies and deletes -/

omit [Hashing H] in
/-- The patch is the edit. -/
def Spells (p : Patch H) : KeyEdit String H → Prop
  | .create path hash =>
    p.operationType = .create ∧ p.targetPath = some path ∧ p.payload = .text (.hex hash)
  | .modify path hash =>
    p.operationType = .modify ∧ p.targetPath = some path ∧ p.payload = .text (.hex hash)
  | .delete path => p.operationType = .delete ∧ p.targetPath = some path ∧ p.payload = .text .empty
  | .rename _ _ => False

/-- The edits are of one path, and the last deletes, or all modify, or all create and the first
and the last create the same. -/
def ComesToOne (edits : List (KeyEdit String H)) : Prop :=
  (∀ e ∈ edits, ∀ e' ∈ edits, e.key = e'.key) ∧
    ((∃ path, edits.getLast? = some (.delete path)) ∨ (∀ e ∈ edits, e.IsModify) ∨
      ((∀ e ∈ edits, e.IsCreate) ∧
        edits.head?.bind KeyEdit.value = edits.getLast?.bind KeyEdit.value))

theorem patchEdits_of_spells {p : Patch H} {e : KeyEdit String H} (h : Spells p e) :
    patchEdits p = .ok [e] := by
  cases e with
  | create path hash =>
    obtain ⟨hop, hpath, hpayload⟩ := h
    simp [patchEdits, targetEdits, contentEdits, resolvePayloadToHash, resolveHexToHash, hop, hpath,
      hpayload]
  | modify path hash =>
    obtain ⟨hop, hpath, hpayload⟩ := h
    simp [patchEdits, targetEdits, contentEdits, resolvePayloadToHash, resolveHexToHash, hop, hpath,
      hpayload]
  | delete path =>
    obtain ⟨hop, hpath, hpayload⟩ := h
    simp [patchEdits, targetEdits, contentEdits, hop, hpath]
  | rename a b => cases h

section Spelled
variable {patches : List (Patch H)} {edit : Patch H → KeyEdit String H}

theorem chainEdits_of_spells (h : ∀ p ∈ patches, Spells p (edit p)) :
    chainEdits patches = .ok (patches.map edit) := by
  induction patches with
  | nil => rfl
  | cons p patches ih =>
    obtain ⟨hp, hpatches⟩ := List.forall_mem_cons.mp h
    rw [chainEdits_cons, patchEdits_of_spells hp, ih hpatches]
    rfl

omit [Hashing H] in
theorem isContent_of_spells {p : Patch H} {e : KeyEdit String H} (h : Spells p e) : e.IsContent := by
  rintro a b rfl
  exact h

omit [Hashing H] in
theorem operationType_of_spells {p : Patch H} {e : KeyEdit String H} (h : Spells p e) :
    (p.operationType = .create ↔ e.IsCreate) ∧ (p.operationType = .modify ↔ e.IsModify) := by
  cases e with
  | create path hash => simp [h.1, KeyEdit.IsCreate, KeyEdit.IsModify, KeyEdit.key]
  | modify path hash => simp [h.1, KeyEdit.IsCreate, KeyEdit.IsModify, KeyEdit.key]
  | delete path => simp [h.1, KeyEdit.IsCreate, KeyEdit.IsModify]
  | rename a b => cases h

/-- The first patch creates and no patch deletes. -/
def StartsWithCreate (edits : List (KeyEdit String H)) : Prop :=
  (∃ e, edits.head? = some e ∧ e.IsCreate) ∧ ∀ e ∈ edits, e.IsCreate ∨ e.IsModify

omit [Hashing H] in
theorem StartsWithCreate.not_all_modify {edits : List (KeyEdit String H)}
    (h : StartsWithCreate edits) : ¬ ∀ e ∈ edits, e.IsModify := by
  intro hall
  obtain ⟨⟨e, hhead, v, hcreate⟩, -⟩ := h
  obtain ⟨w, hmodify⟩ := hall e (List.mem_of_head? hhead)
  rw [hcreate] at hmodify
  cases hmodify

omit [Hashing H] in
theorem StartsWithCreate.of_all_create {edits : List (KeyEdit String H)} (hne : edits ≠ [])
    (hall : ∀ e ∈ edits, e.IsCreate) : StartsWithCreate edits := by
  refine ⟨⟨edits.head hne, List.head?_eq_some_head hne, hall _ (List.head_mem hne)⟩, ?_⟩
  exact fun e he => .inl (hall e he)

omit [Hashing H] in
theorem startsWithCreate_iff (h : ∀ p ∈ patches, Spells p (edit p)) :
    ((patches.map Patch.operationType).head? = some .create ∧
      ∀ op ∈ patches.map Patch.operationType, op = .create ∨ op = .modify) ↔
    StartsWithCreate (patches.map edit) := by
  refine and_congr ?_ ?_
  · cases patches with
    | nil => exact ⟨nofun, nofun⟩
    | cons p patches =>
      have hp := operationType_of_spells (h p (List.mem_cons_self ..))
      simp [hp.1]
  · rw [List.forall_mem_map, List.forall_mem_map]
    refine forall₂_congr fun p hp => ?_
    exact or_congr (operationType_of_spells (h p hp)).1 (operationType_of_spells (h p hp)).2

omit [Hashing H] in
theorem netOperation_concat {init : List (Patch H)} {p : Patch H}
    (h : ∀ q ∈ init ++ [p], Spells q (edit q)) (hlast : ∀ path, edit p ≠ .delete path) :
    netOperation ((init ++ [p]).map Patch.operationType) = .create ∧
        StartsWithCreate ((init ++ [p]).map edit) ∨
      netOperation ((init ++ [p]).map Patch.operationType) = .modify ∧
        ¬ StartsWithCreate ((init ++ [p]).map edit) := by
  have hp := h p (List.mem_append_right _ (List.mem_singleton.mpr rfl))
  have hop : p.operationType = .create ∨ p.operationType = .modify := by
    cases hedit : edit p with
    | create path hash => exact .inl (hedit ▸ hp).1
    | modify path hash => exact .inr (hedit ▸ hp).1
    | delete path => exact absurd hedit (hlast path)
    | rename a b => exact (hedit ▸ hp).elim
  have hnet : netOperation ((init ++ [p]).map Patch.operationType) =
      if (((init ++ [p]).map Patch.operationType).head? = some .create ∧
        ∀ op ∈ (init ++ [p]).map Patch.operationType, op = .create ∨ op = .modify) then .create
      else .modify := by
    rw [netOperation, List.map_append, List.map_singleton, List.getLast?_concat]
    rcases hop with hop | hop <;> rw [hop]
  rw [hnet, ← startsWithCreate_iff h]
  split
  · rename_i hstarts
    exact .inl ⟨rfl, hstarts⟩
  · rename_i hstarts
    exact .inr ⟨rfl, hstarts⟩

omit [Hashing H] in
theorem netPath_of_spells {init : List (Patch H)} {p : Patch H} {e : KeyEdit String H}
    (h : Spells p e) : netPath (init ++ [p]) = some e.key := by
  cases e with
  | create path hash | modify path hash | delete path => simp [netPath_concat, h.2.1, KeyEdit.key]
  | rename a b => cases h

omit [Hashing H] in
theorem netPayload_of_spells {init : List (Patch H)} {p : Patch H} {e : KeyEdit String H}
    (h : Spells p e) {hash : H} (hvalue : e.value = some hash) :
    netPayload (init ++ [p]) = .text (.hex hash) := by
  cases e with
  | create path hash' | modify path hash' =>
    cases hvalue
    rw [netPayload_concat, h.2.2]
    rfl
  | delete path | rename a b => cases hvalue

/-- A chain of such patches composes to what the edits come to. -/
theorem netEdits_of_spells {init : List (Patch H)} {p : Patch H}
    (h : ∀ q ∈ init ++ [p], Spells q (edit q)) :
    (∃ path, edit p = .delete path ∧ netEdits (init ++ [p]) = .ok [.delete path]) ∨
      ∃ hash, (edit p).value = some hash ∧
        (StartsWithCreate ((init ++ [p]).map edit) ∧
            netEdits (init ++ [p]) = .ok [.create (edit p).key hash] ∨
          ¬ StartsWithCreate ((init ++ [p]).map edit) ∧
            netEdits (init ++ [p]) = .ok [.modify (edit p).key hash]) := by
  have hp := h p (List.mem_append_right _ (List.mem_singleton.mpr rfl))
  cases hvalue : (edit p).value with
  | none =>
    cases hedit : edit p with
    | delete path =>
      refine .inl ⟨path, rfl, ?_⟩
      rw [hedit] at hp
      rw [netEdits, netPath_of_spells hp, netOperation, List.map_append, List.map_singleton,
        List.getLast?_concat, hp.1]
      rfl
    | create path hash | modify path hash =>
      rw [hedit] at hvalue
      cases hvalue
    | rename a b => exact (hedit ▸ hp).elim
  | some hash =>
    have hlast : ∀ path, edit p ≠ .delete path := fun path hdelete => by
      rw [hdelete] at hvalue
      cases hvalue
    refine .inr ⟨hash, rfl, ?_⟩
    rw [netEdits, netPath_of_spells hp, netPayload_of_spells hp hvalue]
    rcases netOperation_concat h hlast with ⟨hop, hstarts⟩ | ⟨hop, hstarts⟩
    · rw [hop]
      exact .inl ⟨hstarts, rfl⟩
    · rw [hop]
      exact .inr ⟨hstarts, rfl⟩

omit [Hashing H] in
theorem editsAgree_contents_iff [Nontrivial H] {edits : List (KeyEdit String H)}
    (hcontent : ∀ e ∈ edits, e.IsContent) {e : KeyEdit String H} (he : e.IsContent) :
    EditsAgree (.ok [e]) (.ok edits) ↔
      (∀ d ∈ edits, d.key = e.key) ∧ ∀ entry, KeyEdit.entryRun edits entry = e.onEntry entry := by
  rw [editsAgree_iff]
  constructor
  · intro h
    refine (KeyEdit.runAll_eq_run_iff hcontent he).mp fun there f => ?_
    rw [← get_listedTree]
    exact (Except.ok.inj (h (listedTree there f))).symm
  · rintro ⟨hkeys, hentry⟩ tree
    exact congrArg Except.ok (KeyEdit.runAll_eq_run hcontent he hkeys hentry tree.get).symm

omit [Hashing H] in
theorem comesToOne_singleton {e : KeyEdit String H} (h : e.IsContent) : ComesToOne [e] := by
  refine ⟨by simp, ?_⟩
  cases e with
  | create path hash => exact .inr (.inr ⟨by simp [KeyEdit.IsCreate, KeyEdit.key], rfl⟩)
  | modify path hash => exact .inr (.inl (by simp [KeyEdit.IsModify, KeyEdit.key]))
  | delete path => exact .inl ⟨path, rfl⟩
  | rename a b => exact absurd rfl (h a b)

omit [Hashing H] in
theorem keys_eq_iff {edits : List (KeyEdit String H)} {e : KeyEdit String H} (he : e ∈ edits) :
    (∀ d ∈ edits, ∀ d' ∈ edits, d.key = d'.key) ↔ ∀ d ∈ edits, d.key = e.key :=
  ⟨fun h d hd => h d hd e he, fun h d hd d' hd' => (h d hd).trans (h d' hd').symm⟩

theorem editsAgree_iff_comesToOne [Nontrivial H] {init : List (Patch H)} {p : Patch H}
    (h : ∀ q ∈ init ++ [p], Spells q (edit q)) :
    EditsAgree (netEdits (init ++ [p])) (.ok ((init ++ [p]).map edit)) ↔
      ComesToOne ((init ++ [p]).map edit) := by
  have hcontent : ∀ e ∈ (init ++ [p]).map edit, e.IsContent :=
    List.forall_mem_map.mpr fun q hq => isContent_of_spells (h q hq)
  have hmap : (init ++ [p]).map edit = init.map edit ++ [edit p] := by simp
  have hlast : ((init ++ [p]).map edit).getLast? = some (edit p) := by
    rw [hmap, List.getLast?_concat]
  have hmem : edit p ∈ (init ++ [p]).map edit := by simp
  rw [ComesToOne, keys_eq_iff hmem, hlast]
  rcases netEdits_of_spells h with ⟨path, hedit, hnet⟩ | ⟨hash, hvalue, hnet⟩
  · rw [hnet, editsAgree_contents_iff hcontent (e := .delete path) nofun, hedit]
    refine and_congr_right fun _ => ⟨fun _ => .inl ⟨path, rfl⟩, fun _ entry => ?_⟩
    rw [hmap, hedit, KeyEdit.entryRun_concat]
    rfl
  have hdelete : ¬ ∃ path, some (edit p) = some (.delete path) := by
    rintro ⟨path, hedit⟩
    rw [Option.some.inj hedit] at hvalue
    cases hvalue
  rcases hnet with ⟨hstarts, hnet⟩ | ⟨hstarts, hnet⟩
  · rw [hnet, editsAgree_contents_iff hcontent (e := .create (edit p).key hash) nofun]
    refine and_congr_right fun _ => (KeyEdit.entryRun_eq_create_iff hcontent hash).trans ?_
    rw [or_iff_right hdelete, or_iff_right fun hall => hstarts.not_all_modify hall, ← hvalue]
    rfl
  · rw [hnet, editsAgree_contents_iff hcontent (e := .modify (edit p).key hash) nofun]
    refine and_congr_right fun _ => (KeyEdit.entryRun_eq_modify_iff hcontent hash).trans ?_
    rw [or_iff_right hdelete, hlast]
    refine ⟨fun hall => .inl hall.1, fun hall => ?_⟩
    rcases hall with hall | hall
    · exact ⟨hall, hvalue⟩
    · exact absurd (StartsWithCreate.of_all_create (List.ne_nil_of_mem hmem) hall.1) hstarts

/-- A chain of creates, modifies and deletes is what it composes to when its edits come to one. -/
theorem law_iff_comesToOne [Nontrivial H] (h : ∀ p ∈ patches, Spells p (edit p)) {c : Patch H}
    {author message : String} {timestamp : Nat}
    (hc : composeChain patches author message timestamp = some c) :
    Law c patches ↔ ComesToOne (patches.map edit) := by
  rcases List.eq_nil_or_concat' patches with rfl | ⟨init, p, rfl⟩
  · cases hc
  rw [law_iff hc, chainEdits_of_spells h, editsAgree_iff_comesToOne h]
  refine or_iff_right_of_imp fun hlen => ?_
  obtain ⟨q, hq⟩ := List.length_eq_one_iff.mp hlen
  rw [hq] at h ⊢
  exact comesToOne_singleton (isContent_of_spells (h q (List.mem_singleton.mpr rfl)))

end Spelled

/-- Composition keeps what the chain does exactly when the edits of the chain come to the one
edit that the last path and the last payload spell. For creates, modifies and deletes this means
one path and a last delete, or modifies alone, or creates of the same. -/
theorem composition_law_iff [DecidableEq H] [Nontrivial H] (author message : String)
    (timestamp : Nat) :
    (∀ (patches : List (Patch H)) (c : Patch H),
      composeChain patches author message timestamp = some c →
        (Law c patches ↔
          patches.length = 1 ∨ EditsAgree (netEdits patches) (chainEdits patches)) ∧
        ∀ edit : Patch H → KeyEdit String H, (∀ p ∈ patches, Spells p (edit p)) →
          (Law c patches ↔ ComesToOne (patches.map edit))) ∧
    ∀ p₁ p₂ c : Patch H, compose p₁ p₂ author message timestamp = .ok c →
      (Law c [p₁, p₂] ↔ EditsAgree (netEdits [p₁, p₂]) (chainEdits [p₁, p₂])) := by
  refine ⟨fun patches c h => ⟨law_iff h, fun edit hedit => law_iff_comesToOne hedit h⟩, ?_⟩
  intro p₁ p₂ c h
  rw [law_iff (composeChain_of_compose h)]
  exact or_iff_right nofun

end Net

/-! ### Two files, and one file twice -/

def createA : Patch Hash := single .create "a" (.hex 1) []

def createB : Patch Hash := single .create "b" (.hex 2) [createA.id]

def modifyA : Patch Hash := single .modify "a" (.hex 2) [createA.id]

def modifyAgain : Patch Hash := single .modify "a" (.hex 3) [modifyA.id]

/-- The first file is lost. -/
theorem composed_lost : ¬ ∀ p₁ p₂ c : Patch Hash, compose p₁ p₂ "ann" "" 0 = .ok c →
    Law c [p₁, p₂] := by
  intro h
  have hlaw := h createA createB _ (if_pos (List.mem_singleton.mpr rfl))
  exact absurd (hlaw .empty) (by decide)

theorem composed_kept : ∃ c : Patch Hash,
    composeChain [modifyA, modifyAgain] "ann" "" 0 = some c ∧ Law c [modifyA, modifyAgain] := by
  refine ⟨_, rfl, ?_⟩
  refine (((composition_law_iff "ann" "" 0).1 _ _ rfl).2
    (fun p => .modify "a" (if p.payload = .text (.hex 2) then 2 else 3)) ?_).mpr ?_
  · simp only [List.forall_mem_cons]
    exact ⟨⟨rfl, rfl, rfl⟩, ⟨rfl, rfl, rfl⟩, nofun⟩
  · refine ⟨by simp [KeyEdit.key], .inr (.inl ?_)⟩
    simp [KeyEdit.IsModify, KeyEdit.key]

end Suture.Engine
