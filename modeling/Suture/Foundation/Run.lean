import Mathlib.Logic.Relation

/-!
# Runs of a transition system

`Run next ok a b`: a finite sequence of events leads from `a` to `b`, and every
event meets `ok` in the state before it. The rules below carry an invariant, or
an invariant over the state paired with an auxiliary one, along a run.
-/

namespace Suture.Foundation
set_option autoImplicit false

universe u v w
variable {σ : Type u} {ε : Type v} {γ : Type w}

inductive Run (next : σ → ε → σ) (ok : σ → ε → Prop) : σ → σ → Prop where
  | refl (a : σ) : Run next ok a a
  | tail {a b : σ} {e : ε} : Run next ok a b → ok b e → Run next ok a (next b e)

namespace Run
variable {next : σ → ε → σ} {ok ok' : σ → ε → Prop} {a b c : σ}

theorem trans (hab : Run next ok a b) (hbc : Run next ok b c) : Run next ok a c := by
  induction hbc with
  | refl => exact hab
  | tail _ he ih => exact ih.tail he

theorem mono (himp : ∀ s e, ok s e → ok' s e) (hab : Run next ok a b) : Run next ok' a b := by
  induction hab with
  | refl => exact .refl a
  | tail _ he ih => exact ih.tail (himp _ _ he)

theorem invariant (Inv : σ → Prop) (hstep : ∀ s e, Inv s → ok s e → Inv (next s e))
    (ha : Inv a) (hab : Run next ok a b) : Inv b := by
  induction hab with
  | refl => exact ha
  | tail _ he ih => exact hstep _ _ ih he

/-- A relation to an auxiliary state that every step can be answered in: the
auxiliary side moves along `le`, which composes. -/
theorem simulate {R : σ → γ → Prop} {le : γ → γ → Prop}
    (hrefl : ∀ g, le g g) (htrans : ∀ {g g' g''}, le g g' → le g' g'' → le g g'')
    (hstep : ∀ s g e, R s g → ok s e → ∃ g', le g g' ∧ R (next s e) g')
    {g : γ} (ha : R a g) (hab : Run next ok a b) : ∃ g', le g g' ∧ R b g' := by
  induction hab with
  | refl => exact ⟨g, hrefl g, ha⟩
  | tail _ he ih =>
    obtain ⟨g', hle, hR⟩ := ih
    obtain ⟨g'', hle', hR'⟩ := hstep _ g' _ hR he
    exact ⟨g'', htrans hle hle', hR'⟩

/-- The events, one after the other, each meet `ok` where they happen. -/
def Allows (next : σ → ε → σ) (ok : σ → ε → Prop) : σ → List ε → Prop
  | _, [] => True
  | a, e :: es => ok a e ∧ Allows next ok (next a e) es

instance instDecidableAllows [∀ s, DecidablePred (ok s)] : ∀ (es : List ε) (a : σ), Decidable (Allows next ok a es)
  | [], _ => inferInstanceAs (Decidable True)
  | e :: es, a =>
    have := instDecidableAllows es (next a e)
    inferInstanceAs (Decidable (ok a e ∧ Allows next ok (next a e) es))

theorem allows_true (es : List ε) : Allows next (fun _ _ => True) a es := by
  induction es generalizing a with
  | nil => trivial
  | cons e es ih => exact ⟨trivial, ih⟩

theorem of_allows (es : List ε) (h : Allows next ok a es) : Run next ok a (es.foldl next a) := by
  induction es generalizing a with
  | nil => exact .refl a
  | cons e es ih => exact ((refl a).tail h.1).trans (ih h.2)

end Run
end Suture.Foundation
