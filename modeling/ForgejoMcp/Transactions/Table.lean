import Mathlib.Data.List.Nodup
import Mathlib.Data.List.Basic

/-!
# Keyed tables

A `Table κ ρ key` is a list of rows of type `ρ`, in insertion order, no two of which have the same
primary key.  Reading by key (`get`), `select`, `insert`, `update` and `delete` are what the SQL
statements of a program do to one table; the `get_*` lemmas say what each of them leaves under a
given key.
-/

namespace Transactions

/-- Rows with distinct primary keys. -/
structure Table (κ ρ : Type) (key : ρ → κ) where
  rows : List ρ
  nodup : (rows.map key).Nodup

/-- An assignment to the columns of a row, which keeps its primary key. -/
structure Assign {κ ρ : Type} (key : ρ → κ) where
  apply : ρ → ρ
  keeps : ∀ r, key (apply r) = key r

theorem Assign.keeps_key {κ ρ : Type} (key : ρ → κ) (r : ρ) : key r = key r := rfl

namespace Table

variable {κ ρ : Type} {key : ρ → κ}

instance : Membership ρ (Table κ ρ key) := ⟨fun t r => r ∈ t.rows⟩

theorem mem_rows {t : Table κ ρ key} {r : ρ} : r ∈ t.rows ↔ r ∈ t := Iff.rfl

/-- The table without rows. -/
def empty : Table κ ρ key := ⟨[], List.nodup_nil⟩

@[simp] theorem rows_empty : (empty : Table κ ρ key).rows = [] := rfl

@[simp] theorem not_mem_empty (r : ρ) : r ∉ (empty : Table κ ρ key) := List.not_mem_nil

/-- Two rows of a table with the same key are equal. -/
theorem eq_of_key_eq {t : Table κ ρ key} {r s : ρ} (hr : r ∈ t) (hs : s ∈ t)
    (h : key r = key s) : r = s :=
  List.inj_on_of_nodup_map t.nodup hr hs h

/-- `SELECT … WHERE p`. -/
def select (t : Table κ ρ key) (p : ρ → Bool) : List ρ := t.rows.filter p

@[simp] theorem mem_select {t : Table κ ρ key} {p : ρ → Bool} {r : ρ} :
    r ∈ t.select p ↔ r ∈ t ∧ p r = true :=
  List.mem_filter

/-! ### `UPDATE` -/

/-- `UPDATE … SET f WHERE p`. -/
def update (t : Table κ ρ key) (p : ρ → Bool) (f : Assign key) : Table κ ρ key :=
  ⟨t.rows.map fun r => if p r then f.apply r else r, by
    have hkey : (fun r => key (if p r then f.apply r else r)) = key := by
      funext r
      split
      · exact f.keeps r
      · rfl
    rw [List.map_map, Function.comp_def, hkey]
    exact t.nodup⟩

variable {p q : ρ → Bool} {f : Assign key}

theorem rows_update (t : Table κ ρ key) :
    (t.update p f).rows = t.rows.map fun r => if p r then f.apply r else r := rfl

theorem mem_update {t : Table κ ρ key} {s : ρ} :
    s ∈ t.update p f ↔ ∃ r ∈ t, (if p r then f.apply r else r) = s := by
  rw [← mem_rows, rows_update, List.mem_map]
  rfl

/-- A row that an update neither takes nor makes. -/
theorem mem_update_iff {t : Table κ ρ key} {s : ρ} (hs : p s = false)
    (hmade : ∀ r, p r = true → f.apply r ≠ s) : s ∈ t.update p f ↔ s ∈ t := by
  rw [mem_update]
  refine ⟨fun ⟨r, hr, heq⟩ => ?_, fun h => ⟨s, h, by simp [hs]⟩⟩
  split at heq
  · next hp => exact absurd heq (hmade r hp)
  · exact heq ▸ hr

theorem update_congr {t : Table κ ρ key} (h : ∀ r ∈ t, p r = q r) :
    t.update p f = t.update q f := by
  have hrows : (t.update p f).rows = (t.update q f).rows := by
    simp only [rows_update]
    exact List.map_congr_left fun r hr => by rw [h r hr]
  cases hp : t.update p f
  cases hq : t.update q f
  simp_all

theorem update_of_forall {t : Table κ ρ key} (h : ∀ r ∈ t, p r = false) :
    t.update p f = t := by
  have hrows : (t.update p f).rows = t.rows := by
    rw [rows_update, List.map_congr_left (g := id) fun r hr => by simp [h r hr], List.map_id]
  cases hp : t.update p f
  cases t
  simp_all

theorem update_of_apply_eq {t : Table κ ρ key} (h : ∀ r, f.apply r = r) : t.update p f = t := by
  have hrows : (t.update p f).rows = t.rows := by
    rw [rows_update, List.map_congr_left (g := id) fun r _ => by simp [h r], List.map_id]
  cases hp : t.update p f
  cases t
  simp_all

theorem select_update {t : Table κ ρ key} (hq : ∀ r, q (f.apply r) = q r) :
    (t.update p f).select q = (t.select q).map fun r => if p r then f.apply r else r := by
  have hcomp : (q ∘ fun r => if p r then f.apply r else r) = q := by
    funext r
    simp only [Function.comp_apply]
    split
    · exact hq r
    · rfl
  rw [select, rows_update, List.filter_map, hcomp, select]

/-! ### `DELETE` -/

/-- `DELETE … WHERE p`. -/
def delete (t : Table κ ρ key) (p : ρ → Bool) : Table κ ρ key :=
  ⟨t.rows.filter fun r => !p r, t.nodup.sublist (List.filter_sublist.map key)⟩

theorem mem_delete {t : Table κ ρ key} {r : ρ} : r ∈ t.delete p ↔ r ∈ t ∧ p r = false := by
  rw [← mem_rows, delete, List.mem_filter, Bool.not_eq_true']
  rfl

theorem delete_congr {t : Table κ ρ key} (h : ∀ r ∈ t, p r = q r) : t.delete p = t.delete q := by
  have hrows : (t.delete p).rows = (t.delete q).rows :=
    List.filter_congr fun r hr => by rw [h r hr]
  cases hp : t.delete p
  cases hq : t.delete q
  simp_all

/-! ### A property of all keys -/

/-- Every key of the table satisfies `K`. -/
def Keyed (K : κ → Prop) (t : Table κ ρ key) : Prop := ∀ r ∈ t, K (key r)

theorem Keyed.mono {K K' : κ → Prop} {t : Table κ ρ key} (h : t.Keyed K) (hK : ∀ k, K k → K' k) :
    t.Keyed K' :=
  fun r hr => hK _ (h r hr)

theorem Keyed.update {K : κ → Prop} {t : Table κ ρ key} (h : t.Keyed K) :
    (t.update p f).Keyed K := by
  intro s hs
  obtain ⟨r, hr, rfl⟩ := mem_update.1 hs
  split
  · rw [f.keeps]; exact h r hr
  · exact h r hr

/-! ### Reading by key -/

variable [DecidableEq κ]

/-- The row with the given primary key. -/
def get (t : Table κ ρ key) (k : κ) : Option ρ := t.rows.find? fun r => key r = k

theorem get_eq_some {t : Table κ ρ key} {k : κ} {r : ρ} :
    t.get k = some r ↔ r ∈ t ∧ key r = k := by
  have found : ∀ s, t.get k = some s → s ∈ t ∧ key s = k := fun s h =>
    ⟨List.mem_of_find?_eq_some h, by simpa using List.find?_some h⟩
  refine ⟨found r, fun ⟨hr, hk⟩ => ?_⟩
  cases hs : t.get k with
  | none =>
    have hno := List.find?_eq_none.1 hs r hr
    exact absurd hk (by simpa using hno)
  | some s => rw [eq_of_key_eq (found s hs).1 hr ((found s hs).2.trans hk.symm)]

/-- Selecting by primary key finds the row with that key. -/
theorem head?_select_key (t : Table κ ρ key) (k : κ) :
    (t.select fun r => decide (key r = k)).head? = t.get k := by
  rw [select, List.head?_filter, get]

theorem get_eq_none {t : Table κ ρ key} {k : κ} : t.get k = none ↔ ∀ r ∈ t, key r ≠ k := by
  simp [get, List.find?_eq_none, ← mem_rows]

theorem mem_of_get {t : Table κ ρ key} {k : κ} {r : ρ} (h : t.get k = some r) : r ∈ t :=
  (get_eq_some.1 h).1

theorem key_of_get {t : Table κ ρ key} {k : κ} {r : ρ} (h : t.get k = some r) : key r = k :=
  (get_eq_some.1 h).2

theorem get_of_mem {t : Table κ ρ key} {r : ρ} (h : r ∈ t) : t.get (key r) = some r :=
  get_eq_some.2 ⟨h, rfl⟩

@[simp] theorem get_empty (k : κ) : (empty : Table κ ρ key).get k = none := rfl

theorem get_update (t : Table κ ρ key) (k : κ) :
    (t.update p f).get k = (t.get k).map fun r => if p r then f.apply r else r := by
  have hkey : ∀ r, key (if p r then f.apply r else r) = key r := by
    intro r
    split
    · exact f.keeps r
    · rfl
  simp only [get, rows_update, List.find?_map, Function.comp_def, hkey]

theorem get_update_of_false {t : Table κ ρ key} {k : κ} (hp : ∀ r, key r = k → p r = false) :
    (t.update p f).get k = t.get k := by
  rw [get_update]
  cases hk : t.get k with
  | none => rfl
  | some r => rw [Option.map_some, hp r (key_of_get hk)]; rfl

/-- An update that keeps some columns keeps them in every row. -/
theorem map_get_update {γ : Type} (c : ρ → γ) (t : Table κ ρ key)
    (h : ∀ r, c (f.apply r) = c r) (k : κ) :
    ((t.update p f).get k).map c = (t.get k).map c := by
  rw [get_update, Option.map_map]
  congr 1
  funext r
  simp only [Function.comp_apply]
  split
  · exact h r
  · rfl

/-! ### `INSERT` -/

/-- `INSERT` of one row.  A row whose key is already present is not inserted. -/
def insert (t : Table κ ρ key) (r : ρ) : Table κ ρ key :=
  if h : key r ∈ t.rows.map key then t
  else ⟨t.rows ++ [r], by
    rw [List.map_append, List.nodup_append]
    refine ⟨t.nodup, List.nodup_singleton _, ?_⟩
    intro a ha b hb hab
    rw [List.map_singleton, List.mem_singleton] at hb
    exact h (hb ▸ hab ▸ ha)⟩

theorem rows_insert {t : Table κ ρ key} {r : ρ} (h : t.get (key r) = none) :
    (t.insert r).rows = t.rows ++ [r] := by
  have hmem : key r ∉ t.rows.map key := by
    rw [get_eq_none] at h
    simpa [mem_rows] using h
  simp only [insert, hmem, dite_false]

theorem insert_of_get {t : Table κ ρ key} {r s : ρ} (h : t.get (key r) = some s) :
    t.insert r = t := by
  have hmem : key r ∈ t.rows.map key :=
    List.mem_map.2 ⟨s, mem_of_get h, key_of_get h⟩
  simp only [insert, hmem, dite_true]

theorem mem_insert {t : Table κ ρ key} {r s : ρ} (h : t.get (key r) = none) :
    s ∈ t.insert r ↔ s ∈ t ∨ s = r := by
  rw [← mem_rows, rows_insert h, List.mem_append, List.mem_singleton, mem_rows]

theorem mem_insert_of_mem {t : Table κ ρ key} {r s : ρ} (h : s ∈ t) : s ∈ t.insert r := by
  cases hg : t.get (key r) with
  | none => exact (mem_insert hg).2 (.inl h)
  | some u => rwa [insert_of_get hg]

theorem mem_or_eq_of_mem_insert {t : Table κ ρ key} {r s : ρ} (h : s ∈ t.insert r) :
    s ∈ t ∨ s = r := by
  cases hg : t.get (key r) with
  | none => exact (mem_insert hg).1 h
  | some u => rw [insert_of_get hg] at h; exact .inl h

theorem get_insert_self {t : Table κ ρ key} {r : ρ} (h : t.get (key r) = none) :
    (t.insert r).get (key r) = some r :=
  get_of_mem ((mem_insert h).2 (.inr rfl))

theorem get_insert_of_ne {t : Table κ ρ key} {r : ρ} {k : κ} (h : key r ≠ k) :
    (t.insert r).get k = t.get k := by
  cases hg : t.get (key r) with
  | none => simp [get, rows_insert hg, h]
  | some u => rw [insert_of_get hg]

theorem get_insert_of_get {t : Table κ ρ key} {r s : ρ} {k : κ} (h : t.get k = some s) :
    (t.insert r).get k = some s :=
  get_eq_some.2 ⟨mem_insert_of_mem (mem_of_get h), key_of_get h⟩

theorem get_insert {t : Table κ ρ key} {r : ρ} (h : t.get (key r) = none) (k : κ) :
    (t.insert r).get k = if key r = k then some r else t.get k := by
  split
  · rename_i hk; rw [← hk, get_insert_self h]
  · rename_i hk; exact get_insert_of_ne hk

/-- `INSERT` of several rows, in order. -/
def insertAll (t : Table κ ρ key) (rs : List ρ) : Table κ ρ key := rs.foldl insert t

@[simp] theorem insertAll_nil (t : Table κ ρ key) : t.insertAll [] = t := rfl

@[simp] theorem insertAll_cons (t : Table κ ρ key) (r : ρ) (rs : List ρ) :
    t.insertAll (r :: rs) = (t.insert r).insertAll rs := rfl

theorem mem_or_mem_of_mem_insertAll {t : Table κ ρ key} {rs : List ρ} {s : ρ}
    (h : s ∈ t.insertAll rs) : s ∈ t ∨ s ∈ rs := by
  induction rs generalizing t with
  | nil => exact .inl h
  | cons r rs ih =>
    rcases ih h with h | h
    · rcases mem_or_eq_of_mem_insert h with h | rfl
      · exact .inl h
      · exact .inr List.mem_cons_self
    · exact .inr (List.mem_cons_of_mem _ h)

theorem mem_insertAll_of_mem {t : Table κ ρ key} {rs : List ρ} {s : ρ} (h : s ∈ t) :
    s ∈ t.insertAll rs := by
  induction rs generalizing t with
  | nil => exact h
  | cons r rs ih => exact ih (mem_insert_of_mem h)

/-- Rows with distinct keys that are not present are all inserted. -/
theorem mem_insertAll {t : Table κ ρ key} {rs : List ρ} {s : ρ} (hnew : ∀ r ∈ rs, t.get (key r) = none)
    (hnodup : (rs.map key).Nodup) : s ∈ t.insertAll rs ↔ s ∈ t ∨ s ∈ rs := by
  refine ⟨mem_or_mem_of_mem_insertAll, ?_⟩
  induction rs generalizing t with
  | nil => simp
  | cons r rs ih =>
    rw [List.map_cons, List.nodup_cons] at hnodup
    have hr : t.get (key r) = none := hnew r List.mem_cons_self
    have hnext : ∀ x ∈ rs, (t.insert r).get (key x) = none := by
      intro x hx
      have hne : key r ≠ key x := fun h => hnodup.1 (h ▸ List.mem_map_of_mem hx)
      rw [get_insert_of_ne hne]
      exact hnew x (List.mem_cons_of_mem _ hx)
    intro h
    refine ih hnext hnodup.2 ?_
    rcases h with h | h
    · exact .inl (mem_insert_of_mem h)
    · rcases List.mem_cons.1 h with rfl | h
      · exact .inl ((mem_insert hr).2 (.inr rfl))
      · exact .inr h

/-! ### Selections after a change -/

theorem select_insert {t : Table κ ρ key} {r : ρ} (h : t.get (key r) = none) :
    (t.insert r).select q = t.select q ++ [r].filter q := by
  rw [select, rows_insert h, List.filter_append, select]

theorem select_insert_of_false {t : Table κ ρ key} {r : ρ} (h : q r = false) :
    (t.insert r).select q = t.select q := by
  cases hg : t.get (key r) with
  | none => rw [select_insert hg]; simp [h]
  | some s => rw [insert_of_get hg]

theorem Keyed.insert {K : κ → Prop} {t : Table κ ρ key} (h : t.Keyed K) {r : ρ} (hr : K (key r)) :
    (t.insert r).Keyed K := by
  intro s hs
  rcases mem_or_eq_of_mem_insert hs with hs | rfl
  · exact h s hs
  · exact hr

theorem Keyed.get_eq_none {K : κ → Prop} {t : Table κ ρ key} (h : t.Keyed K) {k : κ} (hk : ¬ K k) :
    t.get k = none :=
  Table.get_eq_none.2 fun r hr hrk => hk (hrk ▸ h r hr)

/-! ### One row -/

/-- `UPDATE … SET f` of the row with the given primary key. -/
def assign (t : Table κ ρ key) (k : κ) (f : Assign key) : Table κ ρ key :=
  t.update (fun r => decide (key r = k)) f

theorem mem_assign {t : Table κ ρ key} {k : κ} {s : ρ} :
    s ∈ t.assign k f ↔ (s ∈ t ∧ key s ≠ k) ∨ ∃ r ∈ t, key r = k ∧ f.apply r = s := by
  rw [assign, mem_update]
  constructor
  · rintro ⟨r, hr, rfl⟩
    by_cases hk : key r = k
    · exact .inr ⟨r, hr, hk, by simp [hk]⟩
    · exact .inl (by simp [hk, hr])
  · rintro (⟨hs, hk⟩ | ⟨r, hr, hk, rfl⟩)
    · exact ⟨s, hs, by simp [hk]⟩
    · exact ⟨r, hr, by simp [hk]⟩

/-- Writing one row is nothing to the rows that differ from it in a column that is kept. -/
theorem mem_assign_of_ne {γ : Type} {t : Table κ ρ key} {r s : ρ} (hr : r ∈ t) (column : ρ → γ)
    (hf : column (f.apply r) = column r) (hne : column r ≠ column s) :
    s ∈ t.assign (key r) f ↔ s ∈ t := by
  rw [mem_assign]
  constructor
  · rintro (⟨hs, -⟩ | ⟨q, hq, hk, rfl⟩)
    · exact hs
    · rw [eq_of_key_eq hq hr hk] at hne
      exact absurd hf.symm hne
  · exact fun hs => .inl ⟨hs, fun hk => hne (by rw [eq_of_key_eq hs hr hk])⟩

theorem get_assign (t : Table κ ρ key) (k k' : κ) :
    (t.assign k f).get k' = if k' = k then (t.get k).map f.apply else t.get k' := by
  rw [assign, get_update]
  cases hr : t.get k' with
  | none => split <;> simp_all
  | some r =>
    have hk := key_of_get hr
    split
    · next h => simp [← h, hr, hk]
    · next h => simp [hk, h]

/-- `INSERT` of one row under `UNIQUE` constraints: none if a row of the table clashes with it. -/
def insertUnique (t : Table κ ρ key) (clash : ρ → Bool) (r : ρ) : Option (Table κ ρ key) :=
  if (t.get (key r)).isSome || t.rows.any clash then none else some (t.insert r)

theorem insertUnique_eq_some {t t' : Table κ ρ key} {clash : ρ → Bool} {r : ρ} :
    t.insertUnique clash r = some t' ↔
      t.get (key r) = none ∧ (∀ s ∈ t, clash s = false) ∧ t' = t.insert r := by
  unfold insertUnique
  split
  · next h =>
    refine ⟨fun h => (nomatch h), fun ⟨hnew, hclash, _⟩ => ?_⟩
    have hany : t.rows.any clash = false := by
      rw [List.any_eq_false]
      exact fun s hs => by simp [hclash s hs]
    simp [hnew, hany] at h
  · next h =>
    simp only [Bool.or_eq_true, not_or, Bool.not_eq_true, Option.isSome_eq_false_iff,
      Option.isNone_iff_eq_none, List.any_eq_false] at h
    refine ⟨fun heq => ⟨h.1, fun s hs => by simpa using h.2 s hs, (Option.some.inj heq).symm⟩, ?_⟩
    rintro ⟨_, _, rfl⟩
    rfl

/-- A nullable column with a `UNIQUE` constraint. -/
def Unique {γ : Type} (t : Table κ ρ key) (column : ρ → Option γ) : Prop :=
  ∀ r ∈ t, ∀ s ∈ t, ∀ v, column r = some v → column s = some v → r = s

namespace Unique

variable {γ : Type} {t : Table κ ρ key} {column : ρ → Option γ}

omit [DecidableEq κ] in
theorem update (h : t.Unique column) (hf : ∀ r, column (f.apply r) = column r) :
    (t.update p f).Unique column := by
  have hkept : ∀ r, column (if p r then f.apply r else r) = column r := by
    intro r
    split
    · exact hf r
    · rfl
  intro x hx y hy v hxv hyv
  obtain ⟨r, hr, rfl⟩ := mem_update.1 hx
  obtain ⟨s, hs, rfl⟩ := mem_update.1 hy
  rw [hkept] at hxv hyv
  rw [h r hr s hs v hxv hyv]

theorem insert (h : t.Unique column) {r : ρ}
    (hr : ∀ s ∈ t, ∀ v, column s = some v → column r ≠ some v) : (t.insert r).Unique column := by
  intro x hx y hy v hxv hyv
  rcases mem_or_eq_of_mem_insert hx with hxt | rfl
  · rcases mem_or_eq_of_mem_insert hy with hyt | rfl
    · exact h x hxt y hyt v hxv hyv
    · exact absurd hyv (hr x hxt v hxv)
  · rcases mem_or_eq_of_mem_insert hy with hyt | rfl
    · exact absurd hxv (hr y hyt v hyv)
    · rfl

end Unique

/-! ### `UPDATE … FROM` -/

/-- Which of several joined rows an `UPDATE … FROM` takes; SQL leaves it open. -/
structure Choice where
  pick : {β : Type} → List β → Option β
  mem : ∀ {β : Type} {l : List β} {b : β}, pick l = some b → b ∈ l
  isSome : ∀ {β : Type} {l : List β}, l ≠ [] → (pick l).isSome = true

/-- The first joined row is taken. -/
def Choice.first : Choice where
  pick := List.head?
  mem := List.mem_of_mem_head?
  isSome {_ l} h := by
    cases l with
    | nil => exact absurd rfl h
    | cons b l => rfl

/-- `UPDATE … SET f FROM source`: `source r` is what is joined to row `r`. -/
def updateFrom {β : Type} (t : Table κ ρ key) (choice : Choice) (source : ρ → List β)
    (f : β → Assign key) : Table κ ρ key :=
  ⟨t.rows.map fun r => ((choice.pick (source r)).map fun b => (f b).apply r).getD r, by
    have hkey : (fun r => key (((choice.pick (source r)).map fun b => (f b).apply r).getD r)) =
        key := by
      funext r
      cases choice.pick (source r) with
      | none => rfl
      | some b => exact (f b).keeps r
    rw [List.map_map, Function.comp_def, hkey]
    exact t.nodup⟩

variable {β : Type} {choice : Choice} {source : ρ → List β} {set : β → Assign key}

theorem get_updateFrom (t : Table κ ρ key) (k : κ) : (t.updateFrom choice source set).get k =
    (t.get k).map fun r => ((choice.pick (source r)).map fun b => (set b).apply r).getD r := by
  have hkey : ∀ r, key (((choice.pick (source r)).map fun b => (set b).apply r).getD r) = key r := by
    intro r
    cases choice.pick (source r) with
    | none => rfl
    | some b => exact (set b).keeps r
  simp only [get, updateFrom, List.find?_map, Function.comp_def, hkey]

variable (choice source set) in
/-- A row stays if nothing is joined to it, and is assigned from a joined row otherwise. -/
theorem exists_get_updateFrom {t : Table κ ρ key} {k : κ} {r : ρ} (h : t.get k = some r) :
    ∃ s, (t.updateFrom choice source set).get k = some s ∧
      (source r = [] ∧ s = r ∨ ∃ b ∈ source r, s = (set b).apply r) := by
  rw [get_updateFrom, h, Option.map_some]
  refine ⟨_, rfl, ?_⟩
  cases hp : choice.pick (source r) with
  | none =>
    refine .inl ⟨?_, rfl⟩
    by_contra hne
    have := choice.isSome hne
    rw [hp] at this
    cases this
  | some b => exact .inr ⟨b, choice.mem hp, rfl⟩

omit [DecidableEq κ] in
theorem updateFrom_of_forall {t : Table κ ρ key}
    (h : ∀ r ∈ t, ∀ b ∈ source r, (set b).apply r = r) : t.updateFrom choice source set = t := by
  have hrows : (t.updateFrom choice source set).rows = t.rows := by
    refine (List.map_congr_left (g := id) fun r hr => ?_).trans (List.map_id _)
    cases hp : choice.pick (source r) with
    | none => rfl
    | some b => exact h r hr b (choice.mem hp)
  cases hu : t.updateFrom choice source set
  cases t
  simp_all

/-! ### Rows that stay -/

/-- The row of `a` with the key `k`, if there is one, is also in `b`. -/
def Stays (k : κ) (a b : Table κ ρ key) : Prop := ∀ r, a.get k = some r → b.get k = some r

theorem Stays.refl (k : κ) (a : Table κ ρ key) : Stays k a a := fun _ h => h

theorem Stays.trans {k : κ} {a b c : Table κ ρ key} (hab : Stays k a b) (hbc : Stays k b c) :
    Stays k a c :=
  fun r h => hbc r (hab r h)

theorem Stays.insert (k : κ) (a : Table κ ρ key) (r : ρ) : Stays k a (a.insert r) :=
  fun _ h => get_insert_of_get h

theorem Stays.update {k : κ} {a : Table κ ρ key} (hp : ∀ r, key r = k → p r = false) :
    Stays k a (a.update p f) :=
  fun _ h => (get_update_of_false hp).trans h

/-! ### Tables that only grow -/

/-- Every row of `a` is in `b`, up to a change of its columns that `R` allows. -/
def Grows (R : ρ → ρ → Prop) (a b : Table κ ρ key) : Prop :=
  ∀ k r, a.get k = some r → ∃ s, b.get k = some s ∧ R r s

namespace Grows

variable {R : ρ → ρ → Prop} {a b c : Table κ ρ key}

theorem refl (hR : ∀ r, R r r) (a : Table κ ρ key) : Grows R a a := fun _ r h => ⟨r, h, hR r⟩

theorem trans (hR : ∀ r s u, R r s → R s u → R r u) (hab : Grows R a b) (hbc : Grows R b c) :
    Grows R a c := by
  intro k r hr
  obtain ⟨s, hs, hrs⟩ := hab k r hr
  obtain ⟨u, hu, hsu⟩ := hbc k s hs
  exact ⟨u, hu, hR r s u hrs hsu⟩

theorem update (hrefl : ∀ r, R r r) (h : ∀ r ∈ a, p r = true → R r (f.apply r)) :
    Grows R a (a.update p f) := by
  intro k r hr
  refine ⟨if p r then f.apply r else r, by rw [get_update, hr]; rfl, ?_⟩
  split
  · rename_i hp; exact h r (mem_of_get hr) hp
  · exact hrefl r

theorem insert (hrefl : ∀ r, R r r) (r : ρ) : Grows R a (a.insert r) :=
  fun _ s hs => ⟨s, get_insert_of_get hs, hrefl s⟩

end Grows

end Table

end Transactions
