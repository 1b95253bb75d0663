import Suture.Patches.Types

/-!
# Composing patches
-/

namespace Suture.Patches
set_option autoImplicit false
open Foundation

/-- The composition so far. -/
structure Composed (H : Type) where
  touch : TouchSet
  path : Option String
  payload : Payload H
  op : OperationType

def composeOp (composed next : OperationType) : OperationType :=
  match composed, next with
  | _, .delete => .delete
  | _, .move => .move
  | _, .create => if composed = .create then .create else .modify
  | .create, .modify => .create
  | _, _ => .modify

def Composed.add {H : Type} (c : Composed H) (p : Patch H) : Composed H where
  touch := p.touchSet.elems.foldl (fun touch addr => touch.insert addr) c.touch
  path := if p.targetPath.isSome then p.targetPath else c.path
  payload := if p.payload.isEmpty then c.payload else p.payload
  op := composeOp c.op p.operationType

/-- `none` for the empty chain. -/
def composeChain {H : Type} [Hashing H] (patches : List (Patch H)) (author message : String)
    (timestamp : Nat) : Option (Patch H) :=
  match patches with
  | [] => none
  | [p] => some p
  | first :: rest =>
    let c := rest.foldl Composed.add ⟨first.touchSet, first.targetPath, first.payload,
      first.operationType⟩
    some (.new c.op c.touch c.path c.payload first.parentIds author message timestamp)

inductive ComposeError where
  | notAncestor (p₁Id p₂Id : String)
deriving DecidableEq, Repr

/-- Two patches; the second has to name the first as a parent. -/
def compose {H : Type} [DecidableEq H] [Hashing H] (p₁ p₂ : Patch H) (author message : String)
    (timestamp : Nat) : Except ComposeError (Patch H) :=
  if p₁.id ∈ p₂.parentIds then
    .ok (.new (composeOp p₁.operationType p₂.operationType)
      (p₂.touchSet.elems.foldl (fun touch addr => touch.insert addr) p₁.touchSet)
      (p₂.targetPath.or p₁.targetPath) (if p₂.payload.isEmpty then p₁.payload else p₂.payload)
      p₁.parentIds author message timestamp)
  else .error (.notAncestor (Hashing.toHex p₁.id) (Hashing.toHex p₂.id))

theorem composeChain_of_compose {H : Type} [DecidableEq H] [Hashing H] {p₁ p₂ p : Patch H}
    {author message : String} {timestamp : Nat}
    (h : compose p₁ p₂ author message timestamp = .ok p) :
    composeChain [p₁, p₂] author message timestamp = some p := by
  unfold compose at h
  split at h
  · cases h
    cases htarget : p₂.targetPath <;> simp [composeChain, Composed.add, htarget]
  · cases h

/-- Patches without a target path compose to one without. -/
theorem composeChain_targetPath {H : Type} [Hashing H] {patches : List (Patch H)}
    {author message : String} {timestamp : Nat} {p : Patch H}
    (hall : ∀ q ∈ patches, q.targetPath = none)
    (h : composeChain patches author message timestamp = some p) : p.targetPath = none := by
  have hfold : ∀ (rest : List (Patch H)) (c : Composed H), (∀ q ∈ rest, q.targetPath = none) →
      c.path = none → (rest.foldl Composed.add c).path = none := by
    intro rest
    induction rest with
    | nil => exact fun c _ hc => hc
    | cons q rest ih =>
      intro c hrest hc
      refine ih _ (fun r hr => hrest r (List.mem_cons_of_mem _ hr)) ?_
      simp [Composed.add, hrest q (List.mem_cons_self ..), hc]
  cases patches with
  | nil => cases h
  | cons first rest =>
    cases rest with
    | nil =>
      cases h
      exact hall _ (List.mem_cons_self ..)
    | cons second rest =>
      cases h
      exact hfold _ _ (fun q hq => hall q (List.mem_cons_of_mem _ hq))
        (hall first (List.mem_cons_self ..))

theorem composeOp_ne_batch (composed next : OperationType) : composeOp composed next ≠ .batch := by
  unfold composeOp
  split <;> try split
  all_goals exact nofun

/-- Only a chain of one patch composes to a batch. -/
theorem composeChain_cases {H : Type} [Hashing H] {patches : List (Patch H)}
    {author message : String} {timestamp : Nat} {p : Patch H}
    (h : composeChain patches author message timestamp = some p) :
    p ∈ patches ∨ (p.operationType ≠ .batch ∧ ∃ q ∈ patches, p.parentIds = q.parentIds) := by
  have hfold : ∀ (rest : List (Patch H)) (q : Patch H) (c : Composed H),
      ((q :: rest).foldl Composed.add c).op ≠ .batch := by
    intro rest
    induction rest with
    | nil => exact fun q c => composeOp_ne_batch _ _
    | cons r rest ih => exact fun q c => ih r (c.add q)
  cases patches with
  | nil => cases h
  | cons first rest =>
    cases rest with
    | nil =>
      cases h
      exact .inl (List.mem_cons_self ..)
    | cons second rest =>
      cases h
      exact .inr ⟨hfold rest second _, first, List.mem_cons_self .., rfl⟩

end Suture.Patches
