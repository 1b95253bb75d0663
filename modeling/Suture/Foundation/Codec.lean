import Mathlib.Data.List.Basic

/-!
# Encodings that tell where they end

An encoding is read off the front of what follows it when it has a fixed length, ends at a mark
that is not in it, or counts its items. Such encodings may stand one after the other. Items that
have the mark in them are told apart as long as they have it equally often.
-/

namespace Suture.Foundation
set_option autoImplicit false

variable {α β γ κ κ' : Type} {enc enc' : α → List β} {key : α → κ} {key' : α → κ'}
  {valid : α → Prop}

section Marks
variable [DecidableEq β] {stop : β}

theorem append_stop_inj {l m s t : List β} (hcount : l.count stop = m.count stop)
    (h : l ++ stop :: s = m ++ stop :: t) : l = m ∧ s = t := by
  induction l generalizing m with
  | nil =>
    cases m with
    | nil => exact ⟨rfl, (List.cons.inj h).2⟩
    | cons y m =>
      -- a mark at the front of `m` would be one that `[]` does not have
      obtain ⟨rfl, -⟩ := List.cons.inj h
      rw [List.count_nil, List.count_cons_self] at hcount
      omega
  | cons x l ih =>
    cases m with
    | nil =>
      obtain ⟨rfl, -⟩ := List.cons.inj h
      rw [List.count_nil, List.count_cons_self] at hcount
      omega
    | cons y m =>
      obtain ⟨rfl, htail⟩ := List.cons.inj h
      rw [List.count_cons, List.count_cons] at hcount
      obtain ⟨rfl, hrest⟩ := ih (by omega) htail
      exact ⟨rfl, hrest⟩

theorem flatMap_stop_inj {l m : List α} {s t : List β}
    (hcount : l.map (fun a => (enc a).count stop) = m.map fun a => (enc a).count stop)
    (h : l.flatMap (fun a => enc a ++ [stop]) ++ s = m.flatMap (fun a => enc a ++ [stop]) ++ t) :
    l.map enc = m.map enc ∧ s = t := by
  induction l generalizing m with
  | nil =>
    obtain rfl := List.map_eq_nil_iff.mp hcount.symm
    exact ⟨rfl, h⟩
  | cons a l ih =>
    cases m with
    | nil => cases hcount
    | cons b m =>
      obtain ⟨hhead, hcount⟩ := List.cons.inj hcount
      simp only [List.flatMap_cons, List.append_assoc, List.singleton_append] at h
      obtain ⟨henc, h⟩ := append_stop_inj hhead h
      obtain ⟨hmap, hrest⟩ := ih hcount h
      exact ⟨by rw [List.map_cons, List.map_cons, henc, hmap], hrest⟩

end Marks

/-- Items of one length end where the mark stands at a place at which no item has it. -/
theorem flatMap_fixed_inj {stop : β} {n place : Nat} (hlen : ∀ a, (enc a).length = n)
    (hplace : place < n) (hitem : ∀ a, (enc a)[place]? ≠ some stop) {l m : List α} {s t : List β}
    (hs : s[place]? = some stop) (ht : t[place]? = some stop)
    (h : l.flatMap enc ++ s = m.flatMap enc ++ t) : l.map enc = m.map enc ∧ s = t := by
  have hfront : ∀ a (rest : List β), (enc a ++ rest)[place]? ≠ some stop := by
    intro a rest
    rw [List.getElem?_append_left (by rw [hlen]; exact hplace)]
    exact hitem a
  induction l generalizing m with
  | nil =>
    cases m with
    | nil => exact ⟨rfl, h⟩
    | cons b m =>
      rw [List.flatMap_nil, List.nil_append, List.flatMap_cons, List.append_assoc] at h
      exact absurd (h ▸ hs) (hfront b _)
  | cons a l ih =>
    rw [List.flatMap_cons, List.append_assoc] at h
    cases m with
    | nil =>
      rw [List.flatMap_nil, List.nil_append] at h
      exact absurd (h ▸ ht) (hfront a _)
    | cons b m =>
      rw [List.flatMap_cons, List.append_assoc] at h
      obtain ⟨henc, h⟩ := List.append_inj h ((hlen a).trans (hlen b).symm)
      obtain ⟨hmap, hrest⟩ := ih h
      exact ⟨by rw [List.map_cons, List.map_cons, henc, hmap], hrest⟩

/-- Whatever follows, the encoding of a valid value tells its key and where it ends. -/
def Tells (enc : α → List β) (key : α → κ) (valid : α → Prop) : Prop :=
  ∀ a b s t, valid a → valid b → enc a ++ s = enc b ++ t → key a = key b ∧ s = t

namespace Tells

theorem key_eq (h : Tells enc key valid) {a b : α} (ha : valid a) (hb : valid b)
    (heq : enc a = enc b) : key a = key b := by
  apply (h a b [] [] ha hb _).1
  rw [heq]

theorem fixed {n : Nat} (hlen : ∀ a, (enc a).length = n)
    (hkey : ∀ a b, valid a → valid b → enc a = enc b → key a = key b) : Tells enc key valid := by
  intro a b s t ha hb h
  obtain ⟨heq, hrest⟩ := List.append_inj h ((hlen a).trans (hlen b).symm)
  exact ⟨hkey a b ha hb heq, hrest⟩

theorem terminated [DecidableEq β] {stop : β} (hstop : ∀ a, valid a → stop ∉ enc a)
    (hkey : ∀ a b, enc a = enc b → key a = key b) :
    Tells (fun a => enc a ++ [stop]) key valid := by
  intro a b s t ha hb h
  rw [List.append_assoc, List.append_assoc] at h
  have hcount : (enc a).count stop = (enc b).count stop := by
    rw [List.count_eq_zero_of_not_mem (hstop a ha), List.count_eq_zero_of_not_mem (hstop b hb)]
  obtain ⟨heq, hrest⟩ := append_stop_inj hcount h
  exact ⟨hkey a b heq, hrest⟩

theorem append (h : Tells enc key valid) (h' : Tells enc' key' valid) :
    Tells (fun a => enc a ++ enc' a) (fun a => (key a, key' a)) valid := by
  intro a b s t ha hb heq
  rw [List.append_assoc, List.append_assoc] at heq
  obtain ⟨hkey, heq⟩ := h a b _ _ ha hb heq
  obtain ⟨hkey', hrest⟩ := h' a b s t ha hb heq
  exact ⟨Prod.ext hkey hkey', hrest⟩

theorem comap (h : Tells enc key valid) (field : γ → α) :
    Tells (fun c => enc (field c)) (fun c => key (field c)) fun c => valid (field c) :=
  fun a b s t ha hb heq => h (field a) (field b) s t ha hb heq

theorem mono (h : Tells enc key valid) {valid' : α → Prop} (hvalid : ∀ a, valid' a → valid a) :
    Tells enc key valid' :=
  fun a b s t ha hb heq => h a b s t (hvalid a ha) (hvalid b hb) heq

theorem items (h : Tells enc key valid) (l : List α) : ∀ (m : List α) (s t : List β), l.length = m.length →
    (∀ a ∈ l, valid a) → (∀ a ∈ m, valid a) → l.flatMap enc ++ s = m.flatMap enc ++ t →
      l.map key = m.map key ∧ s = t := by
  induction l with
  | nil =>
    intro m s t hlen _ _ heq
    obtain rfl := List.eq_nil_of_length_eq_zero hlen.symm
    exact ⟨rfl, heq⟩
  | cons a l ih =>
    intro m s t hlen hl hm heq
    cases m with
    | nil => cases hlen
    | cons b m =>
      rw [List.flatMap_cons, List.flatMap_cons, List.append_assoc, List.append_assoc] at heq
      obtain ⟨hkey, heq⟩ := h a b _ _ (hl a (List.mem_cons_self ..)) (hm b (List.mem_cons_self ..)) heq
      obtain ⟨hkeys, hrest⟩ := ih m s t (Nat.succ.inj hlen)
        (fun x hx => hl x (List.mem_cons_of_mem _ hx)) (fun x hx => hm x (List.mem_cons_of_mem _ hx)) heq
      exact ⟨by rw [List.map_cons, List.map_cons, hkey, hkeys], hrest⟩

/-- Items that all have a byte need no number when nothing follows. -/
theorem flatMap_inj (h : Tells enc key valid) (hne : ∀ a, enc a ≠ []) {l m : List α}
    (hl : ∀ a ∈ l, valid a) (hm : ∀ a ∈ m, valid a) (heq : l.flatMap enc = m.flatMap enc) :
    l.map key = m.map key := by
  induction l generalizing m with
  | nil =>
    cases m with
    | nil => rfl
    | cons b m =>
      rw [List.flatMap_nil, List.flatMap_cons, eq_comm, List.append_eq_nil_iff] at heq
      exact absurd heq.1 (hne b)
  | cons a l ih =>
    cases m with
    | nil =>
      rw [List.flatMap_nil, List.flatMap_cons, List.append_eq_nil_iff] at heq
      exact absurd heq.1 (hne a)
    | cons b m =>
      rw [List.flatMap_cons, List.flatMap_cons] at heq
      obtain ⟨hkey, hrest⟩ := h a b _ _ (hl a (List.mem_cons_self ..)) (hm b (List.mem_cons_self ..)) heq
      have hkeys := ih (fun x hx => hl x (List.mem_cons_of_mem _ hx))
        (fun x hx => hm x (List.mem_cons_of_mem _ hx)) hrest
      rw [List.map_cons, List.map_cons, hkey, hkeys]

/-- Items after their number. -/
theorem counted {count : Nat → List β} {few : Nat → Prop} (hcount : Tells count id few)
    (h : Tells enc key valid) : Tells (fun l : List α => count l.length ++ l.flatMap enc)
      (List.map key) fun l => few l.length ∧ ∀ a ∈ l, valid a := by
  intro l m s t hl hm heq
  rw [List.append_assoc, List.append_assoc] at heq
  obtain ⟨hlen, heq⟩ := hcount _ _ _ _ hl.1 hm.1 heq
  exact h.items l m s t hlen hl.2 hm.2 heq

end Tells
end Suture.Foundation
