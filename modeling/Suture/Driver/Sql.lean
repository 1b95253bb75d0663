import Mathlib.Data.List.Sort
import Suture.Driver.Structured
import Suture.Foundation.Rows
import Suture.Foundation.ThreeWay

/-!
# Merging SQL schemas

The schemas of the SQL driver and their merge. A table or an index that one side dropped is
kept from the other side, and the columns of a table that both sides changed are put in the
order of their names.
-/

namespace Suture.Driver.Sql
set_option autoImplicit false
open Foundation

structure ColumnDef where
  name : String
  colType : String
  constraints : List String
deriving DecidableEq, Repr

structure TableDef where
  columns : List ColumnDef
deriving DecidableEq, Repr

structure IndexDef where
  table : String
  columns : List String
deriving DecidableEq, Repr

structure SqlSchema where
  tables : SortedMap String TableDef
  indexes : SortedMap String IndexDef

/-! ### The merge -/

def columnMap (columns : List ColumnDef) : List (String × ColumnDef) :=
  columns.map fun c => (c.name, c)

/-- What becomes of one column, `none` for a conflict. -/
def mergeColumn : (base ours theirs : Option ColumnDef) → Option (Option ColumnDef) :=
  mergeEntry settle

def mergeColumns (order : KeyOrder) (base ours theirs : List ColumnDef) : Option (List ColumnDef) :=
  let allNames := order.arrange ((base ++ ours ++ theirs).map ColumnDef.name).dedup
  (allNames.mapM fun name => mergeColumn (lastRow (columnMap base) name)
    (lastRow (columnMap ours) name) (lastRow (columnMap theirs) name)).map fun merged =>
      merged.reduceOption.mergeSort fun a b => decide (a.name ≤ b.name)

/-- A table that both sides have. -/
def settleTable (order : KeyOrder) (base : Option TableDef) (ours theirs : TableDef) :
    Option TableDef :=
  if ours = theirs then some ours
  else match base with
    | some b =>
      if ours = b then some theirs
      else if theirs = b then some ours
      else (mergeColumns order b.columns ours.columns theirs.columns).map TableDef.mk
    | none => none

/-- An index that both sides have; what the base has is not looked at. -/
def settleIndex (_base : Option IndexDef) (ours theirs : IndexDef) : Option IndexDef :=
  if ours = theirs then some ours else none

def mergeTable (order : KeyOrder) : (base ours theirs : Option TableDef) → Option (Option TableDef) :=
  mergeEntry (settleTable order)

def mergeIndex : (base ours theirs : Option IndexDef) → Option (Option IndexDef) :=
  mergeEntry settleIndex

def mergeSchemas (order : KeyOrder) (base ours theirs : SqlSchema) : Option SqlSchema := do
  let allTableNames :=
    order.arrange (base.tables.keys ++ ours.tables.keys ++ theirs.tables.keys).dedup
  let tables ← SortedMap.mergeKeys (fun name => mergeTable order (base.tables.get name)
    (ours.tables.get name) (theirs.tables.get name)) allTableNames
  let allIdxNames :=
    order.arrange (base.indexes.keys ++ ours.indexes.keys ++ theirs.indexes.keys).dedup
  let indexes ← SortedMap.mergeKeys (fun name => mergeIndex (base.indexes.get name)
    (ours.indexes.get name) (theirs.indexes.get name)) allIdxNames
  return ⟨tables, indexes⟩

/-! ### What stands under a name -/

theorem notMem_allKeys {α : Type} (order : KeyOrder) {base ours theirs : SortedMap String α}
    {name : String} (h : name ∉ order.arrange (base.keys ++ ours.keys ++ theirs.keys).dedup) :
    base.get name = none ∧ ours.get name = none ∧ theirs.get name = none := by
  rw [(order.perm _).mem_iff, List.mem_dedup, List.mem_append, List.mem_append, not_or, not_or,
    SortedMap.mem_keys, SortedMap.mem_keys, SortedMap.mem_keys, not_not, not_not, not_not] at h
  exact ⟨h.1.1, h.1.2, h.2⟩

theorem mergeSchemas_eq_some_iff (order : KeyOrder) {base ours theirs m : SqlSchema} :
    mergeSchemas order base ours theirs = some m ↔
      (∀ name, mergeTable order (base.tables.get name) (ours.tables.get name)
        (theirs.tables.get name) = some (m.tables.get name)) ∧
      ∀ name, mergeIndex (base.indexes.get name) (ours.indexes.get name)
        (theirs.indexes.get name) = some (m.indexes.get name) := by
  have htables := @SortedMap.mergeKeys_eq_some_iff_forall _ _ _
    (fun name => mergeTable order (base.tables.get name) (ours.tables.get name) (theirs.tables.get name))
    (order.arrange (base.tables.keys ++ ours.tables.keys ++ theirs.tables.keys).dedup) m.tables
    fun name hname => by
      obtain ⟨hb, ho, ht⟩ := notMem_allKeys order hname
      rw [hb, ho, ht]
      rfl
  have hindexes := @SortedMap.mergeKeys_eq_some_iff_forall _ _ _
    (fun name => mergeIndex (base.indexes.get name) (ours.indexes.get name) (theirs.indexes.get name))
    (order.arrange (base.indexes.keys ++ ours.indexes.keys ++ theirs.indexes.keys).dedup) m.indexes
    fun name hname => by
      obtain ⟨hb, ho, ht⟩ := notMem_allKeys order hname
      rw [hb, ho, ht]
      rfl
  rw [← htables, ← hindexes]
  unfold mergeSchemas
  simp only [Option.bind_eq_bind, Option.bind_eq_some_iff, Option.pure_def, Option.some.injEq]
  constructor
  · rintro ⟨tables, ht, indexes, hi, rfl⟩
    exact ⟨ht, hi⟩
  · rintro ⟨ht, hi⟩
    exact ⟨m.tables, ht, m.indexes, hi, rfl⟩

/-! ### A change on one side -/

/-- The schema with the tables and the indexes of the base that it does not have. -/
def restored (base x : SqlSchema) : SqlSchema :=
  ⟨x.tables.addRows base.tables.entries, x.indexes.addRows base.indexes.entries⟩

theorem settleTable_same (order : KeyOrder) (base : Option TableDef) (x : TableDef) :
    settleTable order base x x = some x := if_pos rfl

theorem settleIndex_same (base : Option IndexDef) (x : IndexDef) :
    settleIndex base x x = some x := if_pos rfl

theorem settleTable_ours (order : KeyOrder) (base x : TableDef) :
    settleTable order (some base) base x = some x := by
  unfold settleTable
  split
  · rename_i h
    rw [h]
  · exact if_pos rfl

theorem settleTable_theirs (order : KeyOrder) (base x : TableDef) :
    settleTable order (some base) x base = some x := by
  unfold settleTable
  split
  · rfl
  · rename_i h
    simp only [h, if_false, if_true]

/-- Both sides have the indexes of the base, as far as they have them. -/
def SameIndexes (base x : SqlSchema) : Prop := ∀ name i j,
  base.indexes.get name = some i → x.indexes.get name = some j → i = j

theorem mergeSchemas_same (order : KeyOrder) (b x : SqlSchema) : mergeSchemas order b x x = some x :=
  (mergeSchemas_eq_some_iff order).mpr
    ⟨fun _ => mergeEntry_same (settleTable_same order) _ _,
      fun _ => mergeEntry_same settleIndex_same _ _⟩

theorem mergeSchemas_ours (order : KeyOrder) {b x : SqlSchema} (h : SameIndexes b x) :
    mergeSchemas order b b x = some (restored b x) := by
  refine (mergeSchemas_eq_some_iff order).mpr ⟨fun name => ?_, fun name => ?_⟩
  · rw [restored, SortedMap.get_addRows_entries]
    exact mergeEntry_ours fun c v hc _ => hc ▸ settleTable_ours order c v
  · rw [restored, SortedMap.get_addRows_entries]
    exact mergeEntry_ours fun i j hi hj => by
      rw [h name i j hi hj]
      exact settleIndex_same _ j

theorem mergeSchemas_theirs (order : KeyOrder) {b x : SqlSchema} (h : SameIndexes b x) :
    mergeSchemas order b x b = some (restored b x) := by
  refine (mergeSchemas_eq_some_iff order).mpr ⟨fun name => ?_, fun name => ?_⟩
  · rw [restored, SortedMap.get_addRows_entries]
    exact mergeEntry_theirs fun c v hc _ => hc ▸ settleTable_theirs order c v
  · rw [restored, SortedMap.get_addRows_entries]
    exact mergeEntry_theirs fun i j hi hj => by
      rw [h name i j hi hj]
      exact settleIndex_same _ j

theorem restored_eq_iff {b x : SqlSchema} : restored b x = x ↔
    (∀ name, b.tables.get name ≠ none → x.tables.get name ≠ none) ∧
      ∀ name, b.indexes.get name ≠ none → x.indexes.get name ≠ none := by
  have hmaps : ∀ {α : Type} (m m' : SortedMap String α), m.addRows m'.entries = m ↔
      ∀ name, m'.get name ≠ none → m.get name ≠ none := by
    intro α m m'
    rw [SortedMap.addRows_eq_self_iff]
    constructor
    · intro h name hname
      obtain ⟨v, hv⟩ := Option.ne_none_iff_exists'.mp hname
      exact Option.isSome_iff_ne_none.mp (h (name, v) (SortedMap.mem_entries.mpr hv))
    · rintro h ⟨name, v⟩ hrow
      refine Option.isSome_iff_ne_none.mpr (h name ?_)
      rw [SortedMap.mem_entries.mp hrow]
      exact Option.some_ne_none v
  rw [← hmaps, ← hmaps, restored]
  cases x
  exact SqlSchema.mk.injEq .. |>.to_iff

/-! ### The order of the columns -/

/-- No table has two columns of one name. -/
def Distinct (s : SqlSchema) : Prop :=
  ∀ name T, s.tables.get name = some T → (T.columns.map ColumnDef.name).Nodup

def Before (columns : List ColumnDef) (c d : ColumnDef) : Prop := [c, d].Sublist columns

theorem mem_columnMap {columns : List ColumnDef} {name : String} {c : ColumnDef} :
    (name, c) ∈ columnMap columns ↔ c ∈ columns ∧ c.name = name := by
  unfold columnMap
  rw [List.mem_map]
  constructor
  · rintro ⟨d, hd, heq⟩
    obtain ⟨rfl, rfl⟩ := Prod.mk.inj heq
    exact ⟨hd, rfl⟩
  · rintro ⟨hc, rfl⟩
    exact ⟨c, hc, rfl⟩

theorem lastRow_columnMap {columns : List ColumnDef} (h : (columns.map ColumnDef.name).Nodup)
    {c : ColumnDef} (hc : c ∈ columns) : lastRow (columnMap columns) c.name = some c := by
  refine (lastRow_eq_some_iff ?_).mpr (mem_columnMap.mpr ⟨hc, rfl⟩)
  unfold columnMap
  rw [List.map_map]
  exact h

theorem mergeColumn_name {base ours theirs : List ColumnDef} {name : String} {c : ColumnDef}
    (h : mergeColumn (lastRow (columnMap base) name) (lastRow (columnMap ours) name)
      (lastRow (columnMap theirs) name) = some (some c)) : c.name = name := by
  rcases mergeEntry_mem settle_mem h with hc | hc
  · exact (mem_columnMap.mp (lastRow_mem hc)).2
  · exact (mem_columnMap.mp (lastRow_mem hc)).2

/-- What is merged under names has the names, in their order. -/
theorem names_sublist {f : String → Option (Option ColumnDef)} {names : List String}
    {results : List (Option ColumnDef)} (h : names.mapM f = some results)
    (hname : ∀ name c, f name = some (some c) → c.name = name) :
    (results.reduceOption.map ColumnDef.name).Sublist names := by
  rw [mapM_eq_some_iff] at h
  induction names generalizing results with
  | nil =>
    cases results with
    | nil => exact .slnil
    | cons r results => cases h
  | cons name names ih =>
    cases results with
    | nil => cases h
    | cons r results =>
      rw [List.map_cons, List.map_cons, List.cons.injEq] at h
      have hrest := ih h.2
      cases r with
      | none => exact hrest.cons name
      | some c =>
        have hc := hname name c h.1
        have hcons : ((some c :: results).reduceOption.map ColumnDef.name) =
            name :: results.reduceOption.map ColumnDef.name := congrArg (· :: _) hc
        rw [hcons]
        exact hrest.cons_cons name

theorem mergeColumns_eq_some {order : KeyOrder} {base ours theirs merged : List ColumnDef}
    (h : mergeColumns order base ours theirs = some merged) :
    ∃ results, ((order.arrange ((base ++ ours ++ theirs).map ColumnDef.name).dedup).mapM fun name =>
        mergeColumn (lastRow (columnMap base) name) (lastRow (columnMap ours) name)
          (lastRow (columnMap theirs) name)) = some results ∧
      merged = results.reduceOption.mergeSort fun a b => decide (a.name ≤ b.name) := by
  obtain ⟨results, hresults, heq⟩ := Option.map_eq_some_iff.mp h
  exact ⟨results, hresults, heq.symm⟩

/-- The columns of a table that both sides changed: in the order of the names, each name once. -/
theorem mergeColumns_sorted {order : KeyOrder} {base ours theirs merged : List ColumnDef}
    (h : mergeColumns order base ours theirs = some merged) :
    merged.Pairwise fun c d => c.name < d.name := by
  obtain ⟨results, hresults, rfl⟩ := mergeColumns_eq_some h
  have hnodup : (results.reduceOption.map ColumnDef.name).Nodup :=
    (names_sublist hresults fun name c => mergeColumn_name).nodup
      ((order.perm _).nodup_iff.mpr (List.nodup_dedup _))
  have hsorted := @List.pairwise_mergeSort _ (fun a b : ColumnDef => decide (a.name ≤ b.name))
    (fun a b c hab hbc => decide_eq_true (le_trans (of_decide_eq_true hab) (of_decide_eq_true hbc)))
    (fun a b => by simpa using le_total a.name b.name) results.reduceOption
  have hdistinct := ((List.mergeSort_perm results.reduceOption
    fun a b => decide (a.name ≤ b.name)).map ColumnDef.name).nodup_iff.mpr hnodup
  rw [List.Nodup, List.pairwise_map] at hdistinct
  exact hsorted.imp₂ (fun c d hle hne => lt_of_le_of_ne (of_decide_eq_true hle) hne) hdistinct

theorem mem_mergeColumns {order : KeyOrder} {base ours theirs merged : List ColumnDef}
    (h : mergeColumns order base ours theirs = some merged) {c : ColumnDef} :
    c ∈ merged ↔ mergeColumn (lastRow (columnMap base) c.name) (lastRow (columnMap ours) c.name)
      (lastRow (columnMap theirs) c.name) = some (some c) := by
  obtain ⟨results, hresults, rfl⟩ := mergeColumns_eq_some h
  have hmem : c ∈ results.reduceOption ↔ some (some c) ∈ results.map some := by
    unfold List.reduceOption
    rw [List.mem_filterMap, List.mem_map_of_injective (Option.some_injective _)]
    simp
  rw [List.mem_mergeSort, hmem, ← mapM_eq_some_iff.mp hresults, List.mem_map]
  constructor
  · rintro ⟨name, -, hname⟩
    rw [← mergeColumn_name hname] at hname
    exact hname
  · intro hc
    refine ⟨c.name, ?_, hc⟩
    rw [(order.perm _).mem_iff, List.mem_dedup, List.mem_map]
    rcases mergeEntry_mem settle_mem hc with hc | hc
    · exact ⟨c, by simp [(mem_columnMap.mp (lastRow_mem hc)).1], rfl⟩
    · exact ⟨c, by simp [(mem_columnMap.mp (lastRow_mem hc)).1], rfl⟩

/-- Some side did not change the table, or both changed it in the same way. -/
def Unilateral (base ours theirs : TableDef) : Prop := ours = theirs ∨ ours = base ∨ theirs = base

theorem settleTable_unilateral {order : KeyOrder} {base ours theirs merged : TableDef}
    (h : settleTable order (some base) ours theirs = some merged)
    (hside : Unilateral base ours theirs) : merged = ours ∨ merged = theirs := by
  unfold settleTable at h
  split at h
  · exact .inl (Option.some.inj h).symm
  · rename_i hne
    simp only at h
    split at h
    · exact .inr (Option.some.inj h).symm
    · rename_i hne'
      split at h
      · exact .inl (Option.some.inj h).symm
      · rename_i hne''
        exact (hside.elim hne fun hside => hside.elim hne' hne'').elim

theorem settleTable_bilateral {order : KeyOrder} {base ours theirs merged : TableDef}
    (h : settleTable order (some base) ours theirs = some merged)
    (hside : ¬ Unilateral base ours theirs) :
    mergeColumns order base.columns ours.columns theirs.columns = some merged.columns := by
  unfold settleTable at h
  rw [if_neg fun heq => hside (.inl heq)] at h
  simp only at h
  rw [if_neg fun heq => hside (.inr (.inl heq)), if_neg fun heq => hside (.inr (.inr heq))] at h
  obtain ⟨columns, hcolumns, rfl⟩ := Option.map_eq_some_iff.mp h
  exact hcolumns

/-- Where each table of a name comes from, and what becomes of the order of its columns. -/
theorem order_of_columns {order : KeyOrder} {b o t m : SqlSchema} (hb : Distinct b) (ho : Distinct o)
    (ht : Distinct t) (h : mergeSchemas order b o t = some m) {name : String} {B O T M : TableDef}
    (hB : b.tables.get name = some B) (hO : o.tables.get name = some O)
    (hT : t.tables.get name = some T) (hM : m.tables.get name = some M) :
    (Unilateral B O T → ∀ c d, Before O.columns c d → Before T.columns c d → Before M.columns c d) ∧
      (¬ Unilateral B O T → (M.columns.Pairwise fun c d => c.name < d.name) ∧
        ∀ c ∈ B.columns, c ∈ O.columns → c ∈ T.columns → c ∈ M.columns) := by
  have htable := ((mergeSchemas_eq_some_iff order).mp h).1 name
  rw [hB, hO, hT, hM] at htable
  obtain ⟨M', hM', heq⟩ := Option.map_eq_some_iff.mp htable
  rw [Option.some.injEq] at heq
  subst heq
  constructor
  · intro hside c d hco hct
    rcases settleTable_unilateral hM' hside with rfl | rfl
    · exact hco
    · exact hct
  · intro hside
    have hcolumns := settleTable_bilateral hM' hside
    refine ⟨mergeColumns_sorted hcolumns, fun c hcb hco hct => ?_⟩
    rw [mem_mergeColumns hcolumns, lastRow_columnMap (hb name B hB) hcb,
      lastRow_columnMap (ho name O hO) hco, lastRow_columnMap (ht name T hT) hct]
    exact congrArg (Option.map some) (settle_same _ c)

/-- The merges with one schema give the schema, with what the base has and it lacks. Columns
that no side changed keep their order where one side left the table as it was, else they are in
the order of the names. -/
theorem merge_sql_one_side (order : KeyOrder) (b x o t : SqlSchema) (hb : Distinct b) (ho : Distinct o)
    (ht : Distinct t) :
    mergeSchemas order b x x = some x ∧
    (SameIndexes b x → mergeSchemas order b b x = some (restored b x) ∧
      mergeSchemas order b x b = some (restored b x)) ∧
    (restored b x = x ↔ (∀ name, b.tables.get name ≠ none → x.tables.get name ≠ none) ∧
      ∀ name, b.indexes.get name ≠ none → x.indexes.get name ≠ none) ∧
    ∀ m, mergeSchemas order b o t = some m → ∀ name B O T M, b.tables.get name = some B →
      o.tables.get name = some O → t.tables.get name = some T → m.tables.get name = some M →
      (Unilateral B O T → ∀ c d, Before B.columns c d → Before O.columns c d →
        Before T.columns c d → Before M.columns c d) ∧
      (¬ Unilateral B O T → (M.columns.Pairwise fun c d => c.name < d.name) ∧
        ∀ c ∈ B.columns, c ∈ O.columns → c ∈ T.columns → c ∈ M.columns) := by
  refine ⟨mergeSchemas_same order b x, fun hindexes => ⟨mergeSchemas_ours order hindexes,
    mergeSchemas_theirs order hindexes⟩, restored_eq_iff, fun m hm name B O T M hB hO hT hM => ?_⟩
  obtain ⟨hone, hboth⟩ := order_of_columns hb ho ht hm hB hO hT hM
  exact ⟨fun hside c d _ => hone hside c d, hboth⟩

def users (columns : List ColumnDef) : SqlSchema :=
  ⟨SortedMap.empty.insert "users" ⟨columns⟩, SortedMap.empty⟩

theorem users_distinct {columns : List ColumnDef} (h : (columns.map ColumnDef.name).Nodup) :
    Distinct (users columns) := by
  intro name T hT
  rw [users, SortedMap.get_insert] at hT
  split at hT
  · rw [← Option.some.inj hT]
    exact h
  · cases hT

theorem merge_one_side_users :
    let order : KeyOrder := ⟨fun keys => keys, List.Perm.refl⟩
    let b := users [⟨"name", "TEXT", []⟩, ⟨"id", "INTEGER", []⟩]
    let x := users [⟨"name", "TEXT", []⟩]
    let t := users [⟨"name", "TEXT", []⟩, ⟨"id", "INTEGER", []⟩, ⟨"email", "TEXT", []⟩]
    mergeSchemas order b x x = some x ∧
    (SameIndexes b x → mergeSchemas order b b x = some (restored b x) ∧
      mergeSchemas order b x b = some (restored b x)) ∧
    (restored b x = x ↔ (∀ name, b.tables.get name ≠ none → x.tables.get name ≠ none) ∧
      ∀ name, b.indexes.get name ≠ none → x.indexes.get name ≠ none) ∧
    ∀ m, mergeSchemas order b x t = some m → ∀ name B O T M, b.tables.get name = some B →
      x.tables.get name = some O → t.tables.get name = some T → m.tables.get name = some M →
      (Unilateral B O T → ∀ c d, Before B.columns c d → Before O.columns c d →
        Before T.columns c d → Before M.columns c d) ∧
      (¬ Unilateral B O T → (M.columns.Pairwise fun c d => c.name < d.name) ∧
        ∀ c ∈ B.columns, c ∈ O.columns → c ∈ T.columns → c ∈ M.columns) :=
  merge_sql_one_side _ _ _ _ _ (users_distinct (by decide)) (users_distinct (by decide))
    (users_distinct (by decide))

/-- A table that theirs dropped is kept from ours. -/
theorem dropped_table_kept : ¬ ∀ (order : KeyOrder) (b x : SqlSchema), Distinct b → Distinct x →
    mergeSchemas order b b x = some x := by
  intro h
  have hdropped := h ⟨fun keys => keys, List.Perm.refl⟩ (users []) ⟨.empty, .empty⟩
    (users_distinct .nil) (fun name T hT => nomatch hT)
  have hindexes : SameIndexes (users []) ⟨.empty, .empty⟩ := fun name i j hi _ => nomatch hi
  rw [mergeSchemas_ours _ hindexes, Option.some.injEq, restored_eq_iff] at hdropped
  refine hdropped.1 "users" ?_ rfl
  rw [users, SortedMap.get_insert, if_pos rfl]
  exact Option.some_ne_none _

end Suture.Driver.Sql
