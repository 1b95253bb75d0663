import Mathlib.Data.List.Induction

/-!
# Hash chains

Blocks that each name the digest of the block before. Where equal digests of sealed blocks
mean equal keys, two chains from one root with the same last digest have the same keys
throughout.
-/

namespace Suture.Foundation
set_option autoImplicit false

universe u v w
variable {β : Type u} {δ : Type v} {γ : Type w}

/-- Every block is sealed and names the digest before it, the first one the root. -/
def Chained (link digest : β → δ) (Sealed : β → Prop) : δ → List β → Prop
  | _, [] => True
  | h, b :: bs => link b = h ∧ Sealed b ∧ Chained link digest Sealed (digest b) bs

/-- The digest that the next block has to name. -/
def tip (digest : β → δ) (h : δ) (bs : List β) : δ := bs.foldl (fun _ b => digest b) h

section Chains
variable {link digest : β → δ} {Sealed : β → Prop} {h : δ} {l m : List β}

@[simp] theorem tip_nil : tip digest h [] = h := rfl

@[simp] theorem tip_concat (b : β) : tip digest h (l ++ [b]) = digest b := by simp [tip]

theorem chained_cons {b : β} :
    Chained link digest Sealed h (b :: l) ↔
      link b = h ∧ Sealed b ∧ Chained link digest Sealed (digest b) l := Iff.rfl

theorem chained_append :
    Chained link digest Sealed h (l ++ m) ↔
      Chained link digest Sealed h l ∧ Chained link digest Sealed (tip digest h l) m := by
  induction l generalizing h with
  | nil => exact (and_iff_right trivial).symm
  | cons b bs ih =>
    rw [List.cons_append, chained_cons, chained_cons, ih, and_assoc, and_assoc]
    rfl

theorem chained_concat {b : β} :
    Chained link digest Sealed h (l ++ [b]) ↔
      Chained link digest Sealed h l ∧ link b = tip digest h l ∧ Sealed b := by
  rw [chained_append]
  exact and_congr_right fun _ => and_congr_right fun _ => and_iff_left trivial

theorem Chained.of_prefix (hpre : l <+: m) (hm : Chained link digest Sealed h m) :
    Chained link digest Sealed h l := by
  obtain ⟨rest, rfl⟩ := hpre
  exact (chained_append.mp hm).1

variable {key : β → γ}

/-- A chain stays one where the keys stay and decide what the chain asks. -/
theorem Chained.of_keys (hkey : ∀ {a b}, key a = key b →
      link a = link b ∧ digest a = digest b ∧ (Sealed a → Sealed b))
    (hlm : l.map key = m.map key) (hl : Chained link digest Sealed h l) :
    Chained link digest Sealed h m := by
  induction l generalizing h m with
  | nil =>
    obtain rfl := List.map_eq_nil_iff.mp hlm.symm
    trivial
  | cons a as ih =>
    obtain ⟨b, bs, rfl, hab, hrest⟩ := List.map_eq_cons_iff.mp hlm.symm
    obtain ⟨hlink, hdigest, hsealed⟩ := hkey hab.symm
    obtain ⟨hl, hs, hchain⟩ := hl
    exact ⟨hlink ▸ hl, hsealed hs, hdigest ▸ ih hrest.symm hchain⟩

/-- The last digest decides the keys of the whole chain. -/
theorem Chained.keys_eq (hlink : ∀ {a b}, key a = key b → link a = link b)
    (hbind : ∀ a ∈ l, ∀ b ∈ m, Sealed a → Sealed b → digest a = digest b → key a = key b)
    (hroot : ∀ a ∈ l ++ m, Sealed a → digest a ≠ h)
    (hl : Chained link digest Sealed h l) (hm : Chained link digest Sealed h m)
    (htip : tip digest h l = tip digest h m) : l.map key = m.map key := by
  induction l using List.reverseRecOn generalizing m with
  | nil =>
    rcases List.eq_nil_or_concat m with rfl | ⟨m, b, rfl⟩
    · rfl
    · rw [List.concat_eq_append] at hm htip hroot
      have hb := (chained_concat.mp hm).2.2
      rw [tip_concat] at htip
      exact absurd htip.symm (hroot b (by simp) hb)
  | append_singleton l a ih =>
    obtain ⟨hl, ha, hsealed⟩ := chained_concat.mp hl
    rcases List.eq_nil_or_concat m with rfl | ⟨m, b, rfl⟩
    · rw [tip_concat] at htip
      exact absurd htip (hroot a (by simp) hsealed)
    · rw [List.concat_eq_append] at hm htip hroot hbind ⊢
      obtain ⟨hm, hb, hsealed'⟩ := chained_concat.mp hm
      rw [tip_concat, tip_concat] at htip
      have hab := hbind a (by simp) b (by simp) hsealed hsealed' htip
      have htips : tip digest h l = tip digest h m := by rw [← ha, ← hb, hlink hab]
      have hrest := ih (fun c hc d hd => hbind c (by simp [hc]) d (by simp [hd]))
        (fun c hc => hroot c (by
          rcases List.mem_append.mp hc with hc | hc <;> simp [hc])) hl hm htips
      rw [List.map_append, List.map_append, hrest, List.map_singleton, List.map_singleton, hab]

end Chains
end Suture.Foundation
