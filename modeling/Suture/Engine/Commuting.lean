import Suture.Engine.Edits
import Suture.Patches.Merge
import Suture.Repo.Machine

/-!
# Patches that commute

Two patches with nothing in common in their touch sets count as commuting. A move writes a path
that is not in its touch set.
-/

namespace Suture.Engine
set_option autoImplicit false
open Common Foundation Patches Repo
variable {H : Type} [Hashing H]

/-- The touch set is the one of the constructors: the paths of the changes, or the target path. -/
inductive Built (p : Patch H) : Prop
  | batch {changes : List (FileChange H)} (h : p.IsBatchOf changes)
  | single {path : String} (operation : p.operationType ≠ .batch)
      (target : p.targetPath = some path) (touched : ∀ addr, addr ∈ p.touchSet ↔ addr = path)

def OrderFree (p q : Patch H) : Prop :=
  ∀ tree, applyPatchChainMut tree [p, q] = applyPatchChainMut tree [q, p]

/-- No change of one patch is in the way of a move of the other. -/
def Compatible (p q : Patch H) : Prop :=
  ∀ edits edits', patchEdits p = .ok edits → patchEdits q = .ok edits' →
    ∀ e ∈ edits, ∀ e' ∈ edits', e.Independent e'

/-- No path is named twice. -/
def NamesOnce (p : Patch H) : Prop := ∀ edits, patchEdits p = .ok edits → KeyEdit.Plain edits

/-! ### Edits and touch sets -/

omit [Hashing H] in
theorem key_of_mem_contentEdits {op : OperationType} {path : String} {hash : Option H}
    {e : KeyEdit String H} (h : e ∈ contentEdits op path hash) : e.key = path := by
  cases op with
  | create | modify =>
    obtain ⟨value, -, rfl⟩ := Option.map_eq_some_iff.mp (Option.mem_toList.mp h)
    rfl
  | delete =>
    rw [List.mem_singleton.mp h]
    rfl
  | move | metadata | merge | identity | batch => cases h

theorem key_of_mem_changeEdits {change : FileChange H} {e : KeyEdit String H}
    (h : e ∈ changeEdits change) : e.key = change.path := by
  obtain ⟨op, path, payload⟩ := change
  cases op with
  | move =>
    obtain ⟨newPath, -, rfl⟩ := Option.map_eq_some_iff.mp (Option.mem_toList.mp h)
    rfl
  | create | modify | delete | metadata | merge | identity | batch =>
    simp only [changeEdits] at h
    exact key_of_mem_contentEdits h

theorem key_of_mem_targetEdits {p : Patch H} {path : String} {edits : List (KeyEdit String H)}
    (h : targetEdits p path = .ok edits) {e : KeyEdit String H} (he : e ∈ edits) :
    e.key = path := by
  unfold targetEdits at h
  cases hop : p.operationType with
  | move =>
    rw [hop] at h
    cases hpayload : payloadUtf8 p.payload with
    | none =>
      rw [hpayload] at h
      cases h
    | some newPath =>
      rw [hpayload] at h
      cases h
      rw [List.mem_singleton.mp he]
      rfl
  | create | modify | delete | metadata | merge | identity | batch =>
    rw [hop] at h
    cases h
    exact key_of_mem_contentEdits he

/-- A patch edits the paths of its touch set, and writes to others only by moves. -/
theorem Built.key_mem {p : Patch H} (hp : Built p) {edits : List (KeyEdit String H)}
    (h : patchEdits p = .ok edits) {e : KeyEdit String H} (he : e ∈ edits) :
    e.key ∈ p.touchSet := by
  cases hp with
  | batch hbatch =>
    rw [patchEdits, if_pos hbatch.operation, hbatch.fileChanges] at h
    cases h
    obtain ⟨c, hc, hec⟩ := List.mem_flatMap.mp he
    exact (hbatch.touched _).mpr ⟨c, hc, (key_of_mem_changeEdits hec).symm⟩
  | single hop htarget htouched =>
    rw [patchEdits, if_neg hop, htarget] at h
    exact (htouched _).mpr (key_of_mem_targetEdits h he)

theorem Built.key_ne {p q : Patch H} (hp : Built p) (hq : Built q)
    (hcommute : commute p q = .commutes) {edits edits' : List (KeyEdit String H)}
    (h : patchEdits p = .ok edits) (h' : patchEdits q = .ok edits') :
    ∀ e ∈ edits, ∀ e' ∈ edits', e.key ≠ e'.key := by
  have hidentity : ∀ {r : Patch H} {addr : String}, addr ∈ r.touchSet → r.isIdentity = false := by
    intro r addr haddr
    have hne : r.touchSet.elems ≠ [] := List.ne_nil_of_mem haddr
    simp [Patch.isIdentity, hne]
  intro e he e' he' heq
  have hmem := hp.key_mem h he
  have hmem' := hq.key_mem h' he'
  rw [commute_of_clash ⟨hidentity hmem, hidentity hmem', e.key, hmem, heq ▸ hmem'⟩] at hcommute
  cases hcommute

/-! ### Both orders -/

theorem chainEdits_pair {p q : Patch H} {edits edits' : List (KeyEdit String H)}
    (h : patchEdits p = .ok edits) (h' : patchEdits q = .ok edits') :
    chainEdits [p, q] = .ok (edits ++ edits') := by
  rw [chainEdits_cons, chainEdits_cons, h, h']
  exact congrArg (fun rest => Except.ok (edits ++ rest)) (List.append_nil edits')

theorem orderFree_iff_runAll {p q : Patch H} {edits edits' : List (KeyEdit String H)}
    (h : patchEdits p = .ok edits) (h' : patchEdits q = .ok edits') :
    OrderFree p q ↔ ∀ tree : FileTree H, KeyEdit.runAll (KeyEdit.runAll tree.get edits) edits' =
      KeyEdit.runAll (KeyEdit.runAll tree.get edits') edits := by
  refine forall_congr' fun tree => ?_
  rw [← map_get_inj, applyPatchChainMut_map_get, applyPatchChainMut_map_get, chainEdits_pair h h',
    chainEdits_pair h' h]
  simp only [Except.map, Except.ok.injEq, KeyEdit.runAll_append]

theorem orderFree_of_error {p q : Patch H} {e : ApplyError}
    (h : patchEdits p = .error e ∨ patchEdits q = .error e) : OrderFree p q := by
  have hfails : ∀ ps : List (Patch H), p ∈ ps → q ∈ ps → ∃ e', chainEdits ps = .error e' :=
    fun _ hp hq => h.elim (fun h => chainEdits_of_error h hp) fun h => chainEdits_of_error h hq
  obtain ⟨e₁, h₁⟩ := hfails [p, q] (by simp) (by simp)
  obtain ⟨e₂, h₂⟩ := hfails [q, p] (by simp) (by simp)
  intro tree
  rw [← map_get_inj, applyPatchChainMut_map_get, applyPatchChainMut_map_get, h₁, h₂]

theorem compatible_of_orderFree [Nontrivial H] {p q : Patch H} (hp : NamesOnce p) (hq : NamesOnce q) 
    (hkey : ∀ edits edits', patchEdits p = .ok edits → patchEdits q = .ok edits' → 
      ∀ e ∈ edits, ∀ e' ∈ edits', e.key ≠ e'.key) (h : OrderFree p q) : Compatible p q := by
  intro edits edits' hedits hedits' e he e' he'
  refine KeyEdit.independent_of_runAll_comm (hp edits hedits) (hq edits' hedits')
    (hkey edits edits' hedits hedits') (fun there f => ?_) he he'
  rw [← get_listedTree]
  exact (orderFree_iff_runAll hedits hedits').mp h _

theorem orderFree_of_compatible {p q : Patch H} 
    (hkey : ∀ edits edits', patchEdits p = .ok edits → patchEdits q = .ok edits' → 
      ∀ e ∈ edits, ∀ e' ∈ edits', e.key ≠ e'.key) (h : Compatible p q) : OrderFree p q := by
  cases hedits : patchEdits p with
  | error e => exact orderFree_of_error (.inl hedits)
  | ok edits =>
    cases hedits' : patchEdits q with
    | error e => exact orderFree_of_error (.inr hedits')
    | ok edits' =>
      exact (orderFree_iff_runAll hedits hedits').mpr fun tree =>
        KeyEdit.runAll_comm (hkey _ _ hedits hedits') (h _ _ hedits hedits') tree.get

omit [Hashing H] in
theorem length_contentEdits (op : OperationType) (path : String) (hash : Option H) :
    (contentEdits op path hash).length ≤ 1 := by
  cases op with
  | create | modify => cases hash <;> simp [contentEdits]
  | delete => exact le_rfl
  | move | metadata | merge | identity | batch => exact Nat.zero_le 1

/-- Only a batch can name a path twice. -/
theorem namesOnce_of_ne_batch {p : Patch H} (h : p.operationType ≠ .batch) : NamesOnce p := by
  intro edits hedits
  refine KeyEdit.plain_of_length_le ?_
  rw [patchEdits, if_neg h] at hedits
  cases htarget : p.targetPath with
  | none =>
    rw [htarget] at hedits
    cases hedits
    exact Nat.zero_le 1
  | some path =>
    rw [htarget] at hedits
    dsimp only [targetEdits] at hedits
    cases hop : p.operationType with
    | move =>
      rw [hop] at hedits
      cases hpayload : payloadUtf8 p.payload with
      | none =>
        rw [hpayload] at hedits
        cases hedits
      | some newPath =>
        rw [hpayload] at hedits
        cases hedits
        exact le_rfl
    | create | modify | delete | metadata | merge | identity | batch =>
      rw [hop] at hedits
      cases hedits
      exact length_contentEdits ..

/-- Patches that count as commuting can be applied in either order exactly when their edits come
to the same both ways. That is so when no move is in the way, and only then unless a batch names
a path twice. -/
theorem order_free_iff [Nontrivial H] {p q : Patch H} (hp : Built p) (hq : Built q)
    (hcommute : commute p q = .commutes) :
    (OrderFree p q ↔ EditsAgree (chainEdits [p, q]) (chainEdits [q, p])) ∧
    (Compatible p q → OrderFree p q) ∧
    (NamesOnce p → NamesOnce q → (OrderFree p q ↔ Compatible p q)) ∧
    (p.operationType ≠ .batch → q.operationType ≠ .batch → (OrderFree p q ↔ Compatible p q)) := by
  have hkey : ∀ edits edits', patchEdits p = .ok edits → patchEdits q = .ok edits' →
      ∀ e ∈ edits, ∀ e' ∈ edits', e.key ≠ e'.key := fun _ _ h h' => hp.key_ne hq hcommute h h'
  have honce : NamesOnce p → NamesOnce q → (OrderFree p q ↔ Compatible p q) := fun hp' hq' =>
    ⟨compatible_of_orderFree hp' hq' hkey, orderFree_of_compatible hkey⟩
  exact ⟨applyPatchChainMut_eq_iff, orderFree_of_compatible hkey, honce, fun hp' hq' =>
    honce (namesOnce_of_ne_batch hp') (namesOnce_of_ne_batch hq')⟩

/-! ### A move onto a deleted path -/

theorem built_single {operationType : OperationType} (h : operationType ≠ .batch) (path : String)
    (payload : Text H) (parentIds : List H) : Built (single operationType path payload parentIds) :=
  .single h rfl fun addr => by rw [single, Patch.new, SortedSet.mem_ofList, List.mem_singleton]

theorem moved_or_deleted : ¬ ∀ p q : Patch Hash, Built p → Built q →
    commute p q = .commutes → OrderFree p q := by
  intro h
  have hfree := h (single .move "a" (.utf8 "b") []) (single .delete "b" .empty [])
    (built_single (by decide) ..) (built_single (by decide) ..)
    (by decide +kernel)
  exact absurd (hfree (listedTree ["a"] fun _ => 1)) (by decide)

/-- What is created where a move leads does no harm. -/
theorem moved_and_created :
    OrderFree (single .move "a" (.utf8 "b") []) (single .create "b" (.hex (5 : Hash)) []) := by
  refine (order_free_iff (built_single (by decide) ..) (built_single (by decide) ..)
    (by decide +kernel)).2.1 ?_
  intro edits edits' h h' e he e' he'
  rw [← Except.ok.inj h] at he
  rw [← Except.ok.inj h'] at he'
  obtain rfl := List.mem_singleton.mp he
  obtain rfl := List.mem_singleton.mp he'
  decide

end Suture.Engine
