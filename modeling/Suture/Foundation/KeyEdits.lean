import Mathlib.Data.List.Basic
import Mathlib.Logic.Function.Basic

/-!
# Edits of a keyed map

Entries are created, modified, deleted and renamed. Edits of different keys change places unless
one is a renaming that the other is in the way of.
-/

namespace Suture.Foundation
set_option autoImplicit false

universe u v

inductive KeyEdit (κ : Type u) (α : Type v) where
  | create (key : κ) (value : α)
  | modify (key : κ) (value : α)
  | delete (key : κ)
  | rename (source destination : κ)
deriving DecidableEq, Repr

variable {κ : Type u} {α : Type v}

namespace KeyEdit
variable [DecidableEq κ]

def run (m : κ → Option α) : KeyEdit κ α → κ → Option α
  | .create key value => Function.update m key ((m key).or (some value))
  | .modify key value => Function.update m key ((m key).map fun _ => value)
  | .delete key => Function.update m key none
  | .rename source destination =>
    match m source with
    | some value => Function.update (Function.update m source none) destination (some value)
    | none => m

def runAll (m : κ → Option α) (edits : List (KeyEdit κ α)) : κ → Option α := edits.foldl run m

theorem runAll_append (m : κ → Option α) (edits edits' : List (KeyEdit κ α)) :
    runAll m (edits ++ edits') = runAll (runAll m edits) edits' := List.foldl_append

end KeyEdit

/-- A map with entries for the listed keys alone. -/
def listed [DecidableEq κ] (there : List κ) (f : κ → α) : κ → Option α := fun k =>
  if k ∈ there then some (f k) else none

/-! ### Edits that can change places -/

namespace KeyEdit

def key : KeyEdit κ α → κ
  | .create key _ | .modify key _ | .delete key | .rename key _ => key

/-- What an edit that is no renaming makes of the entry of its key. -/
def onEntry : KeyEdit κ α → Option α → Option α
  | .create _ value, entry => entry.or (some value)
  | .modify _ value, entry => entry.map fun _ => value
  | .delete _, _ => none
  | .rename _ _, entry => entry

def IsContent (e : KeyEdit κ α) : Prop := ∀ source destination, e ≠ .rename source destination

/-- An edit of another key is not in the way of a renaming. What is created at the destination
is overwritten or stays either way. -/
def Spares (source destination : κ) : KeyEdit κ α → Prop
  | .create _ _ => True
  | .modify key _ | .delete key => key ≠ destination
  | .rename s d => s = d ∨ (s ≠ destination ∧ d ≠ source ∧ d ≠ destination)

def SparedBy (e e' : KeyEdit κ α) : Prop :=
  match e with
  | .rename source destination => source = destination ∨ e'.Spares source destination
  | .create _ _ | .modify _ _ | .delete _ => True

def Independent (e e' : KeyEdit κ α) : Prop := e.SparedBy e' ∧ e'.SparedBy e

section Independence
variable [DecidableEq κ]

instance (source destination : κ) (e : KeyEdit κ α) : Decidable (e.Spares source destination) :=
  match e with
  | .create _ _ => inferInstanceAs (Decidable True)
  | .modify _ _ | .delete _ => inferInstanceAs (Decidable (_ ≠ _))
  | .rename _ _ => inferInstanceAs (Decidable (_ ∨ _))

instance (e e' : KeyEdit κ α) : Decidable (e.SparedBy e') :=
  match e with
  | .rename _ _ => inferInstanceAs (Decidable (_ ∨ _))
  | .create _ _ | .modify _ _ | .delete _ => inferInstanceAs (Decidable True)

instance (e e' : KeyEdit κ α) : Decidable (e.Independent e') := inferInstanceAs (Decidable (_ ∧ _))

theorem run_rename_self (m : κ → Option α) (k : κ) : run m (.rename k k) = m := by
  unfold run
  dsimp only
  split
  · rename_i v hv
    funext j
    by_cases hj : j = k
    · simp [hj, hv]
    · simp [hj]
  · rfl

theorem run_rename_apply (m : κ → Option α) {source destination : κ} (h : source ≠ destination)
    (k : κ) : run m (.rename source destination) k =
      if k = destination then (m source).or (m destination)
      else if k = source then none else m k := by
  unfold run
  dsimp only
  cases hsource : m source with
  | none =>
    by_cases hd : k = destination
    · simp [hd]
    · by_cases hs : k = source
      · simp [hs, h, hsource]
      · simp [hd, hs]
  | some v =>
    by_cases hd : k = destination
    · simp [hd]
    · by_cases hs : k = source
      · simp [hs, h]
      · simp [hd, hs]

theorem run_content_apply (m : κ → Option α) {e : KeyEdit κ α} (h : e.IsContent) (k : κ) :
    run m e k = if k = e.key then e.onEntry (m k) else m k := by
  cases e with
  | rename _ _ => exact absurd rfl (h _ _)
  | create key _ | modify key _ | delete key =>
    by_cases hk : k = key
    · subst hk
      simp [run, onEntry, KeyEdit.key]
    · simp [run, KeyEdit.key, hk]

theorem run_comm_of_renames {a b c d : κ} (hab : a ≠ b) (hcd : c ≠ d) (hac : a ≠ c)
    (h : Spares a b (.rename c d : KeyEdit κ α)) (m : κ → Option α) :
    run (run m (.rename a b)) (.rename c d) = run (run m (.rename c d)) (.rename a b) := by
  obtain ⟨hcb, hda, hdb⟩ := h.resolve_left hcd
  funext k
  simp only [run_rename_apply _ hab, run_rename_apply _ hcd]
  by_cases hkb : k = b
  · simp [hkb, hcb.symm, hdb.symm, hda.symm, hac]
  · by_cases hka : k = a
    · simp [hka, hda.symm, hac, hab]
    · by_cases hkd : k = d
      · simp [hkd, hdb, hda, hcb, hac.symm]
      · simp [hkb, hka, hkd]

theorem run_comm_of_contents {e e' : KeyEdit κ α} (h : e.IsContent) (h' : e'.IsContent)
    (hkey : e.key ≠ e'.key) (m : κ → Option α) : run (run m e) e' = run (run m e') e := by
  funext k
  rw [run_content_apply _ h', run_content_apply _ h, run_content_apply _ h, run_content_apply _ h']
  by_cases hk : k = e.key
  · simp [hk, hkey]
  · simp [hk]

theorem run_comm_of_rename_content {a b : κ} (hab : a ≠ b) {e : KeyEdit κ α} (he : e.IsContent)
    (hkey : e.key ≠ a) (h : e.Spares a b) (m : κ → Option α) :
    run (run m (.rename a b)) e = run (run m e) (.rename a b) := by
  funext k
  rw [run_content_apply _ he, run_rename_apply _ hab, run_rename_apply _ hab,
    run_content_apply _ he, run_content_apply _ he, run_content_apply _ he, if_neg hkey.symm]
  by_cases hkb : k = b
  · subst hkb
    rw [if_pos rfl, if_pos rfl]
    split
    · rename_i hk
      -- only what is created may be where the renaming leads
      cases e with
      | create c v => exact Option.or_assoc
      | modify c v | delete c => exact absurd hk.symm h
      | rename c d => exact absurd rfl (he c d)
    · rfl
  · by_cases hka : k = a
    · simp [hka, hab, hkey.symm]
    · simp [hkb, hka]

theorem run_comm_of_spares {a b : κ} {e : KeyEdit κ α} (hkey : e.key ≠ a)
    (h : a = b ∨ e.Spares a b) (m : κ → Option α) :
    run (run m (.rename a b)) e = run (run m e) (.rename a b) := by
  by_cases hab : a = b
  · subst hab
    rw [run_rename_self, run_rename_self]
  · cases e with
    | create c v | modify c v | delete c =>
      refine run_comm_of_rename_content hab ?_ hkey (h.resolve_left hab) m
      nofun
    | rename c d =>
      by_cases hcd : c = d
      · subst hcd
        rw [run_rename_self, run_rename_self]
      · exact run_comm_of_renames hab hcd (fun heq => hkey heq.symm) (h.resolve_left hab) m

theorem run_comm {e e' : KeyEdit κ α} (hkey : e.key ≠ e'.key) (h : e.Independent e')
    (m : κ → Option α) : run (run m e) e' = run (run m e') e := by
  cases e with
  | rename a b => exact run_comm_of_spares hkey.symm h.1 m
  | create _ _ | modify _ _ | delete _ =>
    cases e' with
    | rename a b => exact (run_comm_of_spares hkey h.2 m).symm
    | create _ _ | modify _ _ | delete _ => exact run_comm_of_contents nofun nofun hkey m

theorem runAll_run_comm {e : KeyEdit κ α} {es : List (KeyEdit κ α)}
    (hkey : ∀ e' ∈ es, e.key ≠ e'.key) (h : ∀ e' ∈ es, e.Independent e') (m : κ → Option α) :
    runAll (run m e) es = run (runAll m es) e := by
  induction es generalizing m with
  | nil => rfl
  | cons e' es ih =>
    have hmem : e' ∈ e' :: es := List.mem_cons_self ..
    rw [runAll, runAll, List.foldl_cons, List.foldl_cons, run_comm (hkey e' hmem) (h e' hmem)]
    exact ih (fun d hd => hkey d (List.mem_cons_of_mem _ hd))
      (fun d hd => h d (List.mem_cons_of_mem _ hd)) _

/-- Lists of edits of different keys change places when every two of their edits do. -/
theorem runAll_comm {es es' : List (KeyEdit κ α)} (hkey : ∀ e ∈ es, ∀ e' ∈ es', e.key ≠ e'.key)
    (h : ∀ e ∈ es, ∀ e' ∈ es', e.Independent e') (m : κ → Option α) :
    runAll (runAll m es) es' = runAll (runAll m es') es := by
  induction es generalizing m with
  | nil => rfl
  | cons e es ih =>
    have hmem : e ∈ e :: es := List.mem_cons_self ..
    have hcons (m' : κ → Option α) : runAll m' (e :: es) = runAll (run m' e) es := rfl
    rw [hcons, hcons, ih (fun d hd => hkey d (List.mem_cons_of_mem _ hd))
      (fun d hd => h d (List.mem_cons_of_mem _ hd)), runAll_run_comm (hkey e hmem) (h e hmem)]

/-! ### Lists that name no key twice -/

def named : KeyEdit κ α → List κ
  | .create key _ | .modify key _ | .delete key => [key]
  | .rename source destination =>
    if source = destination then [source] else [source, destination]

def Plain (es : List (KeyEdit κ α)) : Prop := (es.flatMap named).Nodup

instance (es : List (KeyEdit κ α)) : Decidable (Plain es) := 
  inferInstanceAs (Decidable (es.flatMap named).Nodup)

theorem mem_named_rename {a b k : κ} : k ∈ (rename a b : KeyEdit κ α).named ↔ k = a ∨ k = b := by
  by_cases hab : a = b
  · simp [named, hab]
  · simp [named, hab]

theorem plain_of_length_le {es : List (KeyEdit κ α)} (h : es.length ≤ 1) : Plain es := by
  match es, h with
  | [], _ => exact List.nodup_nil
  | [e], _ =>
    rw [Plain, List.flatMap_singleton]
    cases e with
    | create _ _ | modify _ _ | delete _ => exact List.pairwise_singleton ..
    | rename a b =>
      by_cases hab : a = b
      · simp [named, hab]
      · simp [named, hab]

theorem eq_of_mem_named {e : KeyEdit κ α} {k : κ} (hk : k ∈ e.named) (hkey : e.key ≠ k) :
    e = .rename e.key k := by
  cases e with
  | create key v | modify key v | delete key => exact absurd (List.mem_singleton.mp hk).symm hkey
  | rename a b =>
    have hb : k = b := (mem_named_rename.mp hk).resolve_left hkey.symm
    rw [hb]
    rfl

theorem key_mem_named (e : KeyEdit κ α) : e.key ∈ e.named := by
  cases e with
  | create key v | modify key v | delete key => exact List.mem_singleton.mpr rfl
  | rename a b => exact mem_named_rename.mpr (.inl rfl)

theorem run_of_notMem {e : KeyEdit κ α} {k : κ} (h : k ∉ e.named) (m : κ → Option α) :
    run m e k = m k := by
  cases e with
  | create key v | modify key v | delete key =>
    rw [run_content_apply _ nofun]
    exact if_neg fun hk => h (List.mem_singleton.mpr hk)
  | rename a b =>
    rw [mem_named_rename, not_or] at h
    by_cases hab : a = b
    · rw [hab, run_rename_self]
    · rw [run_rename_apply _ hab, if_neg h.2, if_neg h.1]

theorem run_congr {e : KeyEdit κ α} {m m' : κ → Option α} (h : ∀ k ∈ e.named, m k = m' k) {k : κ}
    (hk : k ∈ e.named) : run m e k = run m' e k := by
  cases e with
  | create key v | modify key v | delete key =>
    rw [run_content_apply _ nofun, run_content_apply _ nofun, h k hk]
  | rename a b =>
    by_cases hab : a = b
    · rw [hab, run_rename_self, run_rename_self, h k hk]
    · rw [run_rename_apply _ hab, run_rename_apply _ hab, h k hk,
        h a (mem_named_rename.mpr (.inl rfl)), h b (mem_named_rename.mpr (.inr rfl))]

theorem runAll_of_notMem {es : List (KeyEdit κ α)} {k : κ} (h : ∀ e ∈ es, k ∉ e.named)
    (m : κ → Option α) : runAll m es k = m k := by
  induction es generalizing m with
  | nil => rfl
  | cons e es ih =>
    exact (ih (fun d hd => h d (List.mem_cons_of_mem _ hd)) _).trans
      (run_of_notMem (h e (List.mem_cons_self ..)) m)

/-- Of edits that name no key twice, the one that names a key makes its entry. -/
theorem Plain.runAll_of_mem {es : List (KeyEdit κ α)} (hplain : Plain es) {e : KeyEdit κ α}
    (he : e ∈ es) {k : κ} (hk : k ∈ e.named) (m : κ → Option α) : runAll m es k = run m e k := by
  induction es generalizing m with
  | nil => cases he
  | cons d es ih =>
    rw [Plain, List.flatMap_cons, List.nodup_append] at hplain
    obtain ⟨-, hes, hdisjoint⟩ := hplain
    rcases List.mem_cons.mp he with rfl | he
    · exact runAll_of_notMem (fun d hd hkd =>
        hdisjoint k hk k (List.mem_flatMap.mpr ⟨d, hd, hkd⟩) rfl) _
    · refine (ih hes he _).trans (run_congr (fun j hj => run_of_notMem (fun hjd => ?_) m) hk)
      exact hdisjoint j hjd j (List.mem_flatMap.mpr ⟨e, he, hj⟩) rfl

theorem Plain.runAll_of_rename {es : List (KeyEdit κ α)} (hplain : Plain es) {a b : κ}
    (hab : a ≠ b) (h : rename a b ∈ es) (m : κ → Option α) :
    runAll m es b = (m a).or (m b) := by
  rw [hplain.runAll_of_mem h (mem_named_rename.mpr (.inr rfl)), run_rename_apply _ hab, if_pos rfl]

/-- An entry stays when there is nothing to be moved over it. -/
theorem Plain.runAll_of_ne_key {es : List (KeyEdit κ α)} (hplain : Plain es) {k : κ}
    (hkey : ∀ e ∈ es, e.key ≠ k) {m : κ → Option α} (hm : ∀ s, rename s k ∈ es → m s = none) :
    runAll m es k = m k := by
  by_cases hk : ∃ e ∈ es, k ∈ e.named
  · obtain ⟨e, he, hke⟩ := hk
    have heq := eq_of_mem_named hke (hkey e he)
    rw [heq] at he
    rw [hplain.runAll_of_rename (hkey e (heq ▸ he)) he, hm _ he, Option.none_or]
  · exact runAll_of_notMem (fun e he hke => hk ⟨e, he, hke⟩) m

theorem Plain.eq_of_key_eq {es : List (KeyEdit κ α)} (hplain : Plain es) {e e' : KeyEdit κ α}
    (he : e ∈ es) (he' : e' ∈ es) (hkey : e.key = e'.key) : e = e' := by
  induction es with
  | nil => cases he
  | cons d es ih =>
    rw [Plain, List.flatMap_cons, List.nodup_append] at hplain
    obtain ⟨-, hes, hdisjoint⟩ := hplain
    have hnot : ∀ d' ∈ es, d.key ≠ d'.key := fun d' hd' => hdisjoint d.key (key_mem_named d) d'.key
      (List.mem_flatMap.mpr ⟨d', hd', key_mem_named d'⟩)
    rcases List.mem_cons.mp he with rfl | he
    · rcases List.mem_cons.mp he' with rfl | he'
      · rfl
      · exact absurd hkey (hnot e' he')
    · rcases List.mem_cons.mp he' with heq | he'
      · exact absurd hkey.symm (heq ▸ hnot e he)
      · exact ih hes he he'

section Comm
variable {es es' : List (KeyEdit κ α)} (hplain : Plain es) (hplain' : Plain es')
  (hkey : ∀ e ∈ es, ∀ e' ∈ es', e.key ≠ e'.key)
  (hcomm : ∀ (there : List κ) (f : κ → α),
    runAll (runAll (listed there f) es) es' = runAll (runAll (listed there f) es') es)
include hplain hplain' hkey hcomm

omit hplain hcomm in
theorem runAll_source {a b : κ} (h : rename a b ∈ es) (there : List κ)
    (hthere : ∀ s, rename s a ∈ es' → s ∉ there) (f : κ → α) :
    runAll (listed there f) es' a = listed there f a :=
  hplain'.runAll_of_ne_key (fun e' he' => (hkey _ h e' he').symm) fun s hs => if_neg (hthere s hs)

theorem onEntry_of_runAll_comm {a b : κ} (hab : a ≠ b) (h : rename a b ∈ es) {e' : KeyEdit κ α}
    (he' : e' ∈ es') (hcontent : e'.IsContent) (hb : e'.key = b) (value : α) :
    e'.onEntry (some value) = some value := by
  have hmoved (m : κ → Option α) := hplain.runAll_of_rename hab h m
  have hmade := fun m => hplain'.runAll_of_mem he' (key_mem_named e') m
  have hsource := runAll_source hplain' hkey h [a]
    (fun s hs hsa => hkey _ h _ hs (List.mem_singleton.mp hsa).symm) fun _ => value
  have hentry := congrFun (hcomm [a] fun _ => value) b
  rw [hb] at hmade
  rw [hmade, run_content_apply _ hcontent, if_pos hb.symm, hmoved, hmoved, hsource] at hentry
  simpa [listed] using hentry

theorem source_ne_of_runAll_comm [Nontrivial α] {a b c d : κ} (hab : a ≠ b) (hcd : c ≠ d)
    (h : rename a b ∈ es) (h' : rename c d ∈ es') : c ≠ b := by
  rintro rfl
  obtain ⟨x, -⟩ := exists_pair_ne α
  have hsource := runAll_source hplain' hkey h [a]
    (fun s hs hsa => hkey _ h _ hs (List.mem_singleton.mp hsa).symm) fun _ => x
  have hentry := congrFun (hcomm [a] fun _ => x) c
  rw [hplain'.runAll_of_mem h' (mem_named_rename.mpr (.inl rfl)), run_rename_apply _ hcd,
    if_neg hcd, if_pos rfl, hplain.runAll_of_rename hab h, hsource] at hentry
  simp [listed] at hentry

theorem destination_ne_of_runAll_comm [Nontrivial α] {a b c d : κ} (hab : a ≠ b) (hcd : c ≠ d)
    (h : rename a b ∈ es) (h' : rename c d ∈ es') : d ≠ b := by
  rintro rfl
  obtain ⟨x, y, hxy⟩ := exists_pair_ne α
  have hac : a ≠ c := hkey _ h _ h'
  have hnot : ∀ s, rename s a ∈ es' → s ∉ [a, c] := by
    intro s hs hmem
    rcases List.mem_cons.mp hmem with rfl | hmem
    · exact hkey _ h _ hs rfl
    · obtain rfl := List.mem_singleton.mp hmem
      exact hab (rename.inj (hplain'.eq_of_key_eq hs h' rfl)).2
  have hnot' : ∀ s, rename s c ∈ es → s ∉ [a, c] := by
    intro s hs hmem
    rcases List.mem_cons.mp hmem with rfl | hmem
    · exact hcd (rename.inj (hplain.eq_of_key_eq hs h rfl)).2
    · exact hkey _ hs _ h' (List.mem_singleton.mp hmem)
  have hsource := runAll_source hplain' hkey h _ hnot fun k => if k = a then x else y
  have hsource' := runAll_source hplain (fun e' he' e he => (hkey e he e' he').symm) h' _ hnot'
    fun k => if k = a then x else y
  have hentry := congrFun (hcomm [a, c] fun k => if k = a then x else y) d
  rw [hplain.runAll_of_rename hab h, hplain'.runAll_of_rename hcd h', hsource, hsource'] at hentry
  simp [listed, hac.symm, hxy.symm] at hentry

theorem spares_of_renames {a b c d : κ} [Nontrivial α] (hab : a ≠ b) (hcd : c ≠ d)
    (h : rename a b ∈ es) (h' : rename c d ∈ es') : c ≠ b ∧ d ≠ a ∧ d ≠ b := by
  refine ⟨source_ne_of_runAll_comm hplain hplain' hkey hcomm hab hcd h h', ?_,
    destination_ne_of_runAll_comm hplain hplain' hkey hcomm hab hcd h h'⟩
  have hswap := source_ne_of_runAll_comm hplain' hplain (fun e' he' e he => (hkey e he e' he').symm)
    (fun there f => (hcomm there f).symm) hcd hab h' h
  exact hswap.symm

/-- On a map with an entry where the renaming starts, and one where the other edit needs it, an
edit in the way would show. -/
theorem spares_of_runAll_comm [Nontrivial α] {a b : κ} (hab : a ≠ b) (h : rename a b ∈ es)
    {e' : KeyEdit κ α} (he' : e' ∈ es') : e'.Spares a b := by
  cases e' with
  | create c v => trivial
  | modify c v =>
    intro hb
    obtain ⟨w, hw⟩ := exists_ne v
    have hentry := onEntry_of_runAll_comm hplain hplain' hkey hcomm hab h he' nofun hb w
    exact hw (Option.some.inj hentry).symm
  | delete c =>
    intro hb
    obtain ⟨w, -⟩ := exists_pair_ne α
    exact nomatch onEntry_of_runAll_comm hplain hplain' hkey hcomm hab h he' nofun hb w
  | rename c d =>
    by_cases hcd : c = d
    · exact .inl hcd
    · exact .inr (spares_of_renames hplain hplain' hkey hcomm hab hcd h he')

end Comm

/-- Edits of different keys that change places on small maps are independent, when neither list
names a key twice. -/
theorem independent_of_runAll_comm [Nontrivial α] {es es' : List (KeyEdit κ α)}
    (hplain : Plain es) (hplain' : Plain es') (hkey : ∀ e ∈ es, ∀ e' ∈ es', e.key ≠ e'.key)
    (hcomm : ∀ (there : List κ) (f : κ → α),
      runAll (runAll (listed there f) es) es' = runAll (runAll (listed there f) es') es)
    {e e' : KeyEdit κ α} (he : e ∈ es) (he' : e' ∈ es') : e.Independent e' := by
  have hspared : ∀ {ds ds' : List (KeyEdit κ α)}, Plain ds → Plain ds' →
      (∀ d ∈ ds, ∀ d' ∈ ds', d.key ≠ d'.key) → (∀ (there : List κ) (f : κ → α),
        runAll (runAll (listed there f) ds) ds' = runAll (runAll (listed there f) ds') ds) →
      ∀ {d d' : KeyEdit κ α}, d ∈ ds → d' ∈ ds' → d.SparedBy d' := by
    intro ds ds' hds hds' hne hcomm d d' hd hd'
    cases d with
    | create _ _ | modify _ _ | delete _ => trivial
    | rename a b =>
      by_cases hab : a = b
      · exact .inl hab
      · exact .inr (spares_of_runAll_comm hds hds' hne hcomm hab hd hd')
  exact ⟨hspared hplain hplain' hkey hcomm he he', hspared hplain' hplain
    (fun d' hd' d hd => (hkey d hd d' hd').symm) (fun there f => (hcomm there f).symm) he' he⟩

end Independence
end KeyEdit

end Suture.Foundation
