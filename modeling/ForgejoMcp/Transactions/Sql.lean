import ForgejoMcp.Transactions.Serial
import ForgejoMcp.Transactions.Table

/-!
# SQL statements

A `Rel` is a table of the database together with the identifiers its rows are locked by.  A
statement that locks rows it finds by a condition works as at READ COMMITTED: a snapshot finds the
rows, and once they are free the condition is checked again on their latest versions.  The rules
say what a thread may assume after each statement.
-/

namespace Transactions

variable {S : Sorts} {κ ρ : Type} {key : ρ → κ} {ε α : Type}

/-- A table of a database. -/
structure Rel (S : Sorts) (κ ρ : Type) (key : ρ → κ) where
  get : S.DB → Table κ ρ key
  set : Table κ ρ key → S.DB → S.DB
  lock : κ → S.Key

namespace Rel

variable [DecidableEq κ] (R : Rel S κ ρ key)

/-- An exclusive lock on the row with key `k`. -/
def exclusive (k : κ) : RowLock S.Key := ⟨R.lock k, true⟩

/-- A shared lock on the row with key `k`. -/
def shared (k : κ) : RowLock S.Key := ⟨R.lock k, false⟩

/-- `UPDATE` of the rows with a key in `ks` that satisfy `p`. -/
def updated (ks : List κ) (p : ρ → Bool) (f : Assign key) (db : S.DB) :
    S.DB :=
  R.set ((R.get db).update (fun r => decide (key r ∈ ks) && p r) f) db

/-- An `UPDATE` that found every row with `p`. -/
theorem updated_eq {R : Rel S κ ρ key} {ks : List κ} {p : ρ → Bool} {f : Assign key} {db : S.DB}
    (h : ∀ r ∈ R.get db, p r = true → key r ∈ ks) :
    R.updated ks p f db = R.set ((R.get db).update p f) db := by
  rw [updated, Table.update_congr (q := p) fun r hr => ?_]
  cases hp : p r with
  | false => exact Bool.and_false _
  | true => rw [decide_eq_true (h r hr hp), Bool.true_and]

/-- `UPDATE` of the row with key `k`. -/
def updatedKey (k : κ) (f : Assign key) (db : S.DB) : S.DB :=
  R.set ((R.get db).update (fun r => decide (key r = k)) f) db

/-- `DELETE` of the rows with a key in `ks`. -/
def deleted (ks : List κ) (db : S.DB) : S.DB :=
  R.set ((R.get db).delete fun r => decide (key r ∈ ks)) db

/-- A `DELETE` that found every row with `p`, and no other. -/
theorem deleted_eq {R : Rel S κ ρ key} {ks : List κ} {p : ρ → Bool} {db : S.DB}
    (h : ∀ r ∈ R.get db, key r ∈ ks ↔ p r = true) :
    R.deleted ks db = R.set ((R.get db).delete p) db := by
  rw [deleted, Table.delete_congr (q := p) fun r hr => ?_]
  rw [Bool.eq_iff_iff, decide_eq_true_iff, h r hr]

/-- `DELETE` of the rows with a key in `ks` that satisfy `p`. -/
def deletedWhere (ks : List κ) (p : ρ → Bool) (db : S.DB) : S.DB :=
  R.set ((R.get db).delete fun r => decide (key r ∈ ks) && p r) db

/-- `INSERT` of rows. -/
def inserted (rows : List ρ) (db : S.DB) : S.DB := R.set ((R.get db).insertAll rows) db

/-- `INSERT … ON CONFLICT DO UPDATE` of one row. -/
def upserted (row : ρ) (f : Assign key) (db : S.DB) : S.DB :=
  match (R.get db).get (key row) with
  | some _ => R.set ((R.get db).update (fun r => decide (key r = key row)) f) db
  | none => R.set ((R.get db).insert row) db

/-! ### Statements -/

/-- `SELECT … WHERE p`. -/
def select (p : ρ → Bool) : Prog (Act S) ε (List ρ) := query fun _ db => (R.get db).select p

/-- `SELECT … WHERE` the primary key is `k`. -/
def find (k : κ) : Prog (Act S) ε (Option ρ) := query fun _ db => (R.get db).get k

/-- `SELECT … WHERE p FOR UPDATE`, of at most one row. -/
def selectForUpdate (p : ρ → Bool) : Prog (Act S) ε (Option ρ) := do
  match ← query fun _ db => ((R.get db).select p).head? with
  | none => pure none
  | some row => exec [R.exclusive (key row)] fun db => (((R.get db).get (key row)).filter p, [])

/-- `SELECT … WHERE p FOR SHARE`, of at most one row. -/
def selectForShare (p : ρ → Bool) : Prog (Act S) ε (Option ρ) := do
  match ← query fun _ db => ((R.get db).select p).head? with
  | none => pure none
  | some row => exec [R.shared (key row)] fun db => (((R.get db).get (key row)).filter p, [])

/-- `UPDATE … SET f WHERE p RETURNING` the keys. -/
def update (p : ρ → Bool) (f : Assign key) :
    Prog (Act S) ε (List κ) := do
  let ks ← query fun _ db => ((R.get db).select p).map key
  exec (ks.map R.exclusive) fun db =>
    (((R.get db).select fun r => decide (key r ∈ ks) && p r).map key, [R.updated ks p f])

/-- `UPDATE … SET f WHERE` the primary key is `k`, of a row the session has loaded. -/
def updateKey (k : κ) (f : Assign key) : Prog (Act S) ε Unit :=
  exec [R.exclusive k] fun _ => ((), [R.updatedKey k f])

/-- `DELETE … WHERE p`, where `p` may look at the whole snapshot. The result is the number of
commits before the snapshot. -/
def delete (p : S.DB → ρ → Bool) : Prog (Act S) ε ℕ := do
  let (n, ks) ← query fun n db => (n, ((R.get db).select (p db)).map key)
  exec (ks.map R.exclusive) fun _ => (n, [R.deleted ks])

/-- `DELETE … WHERE p RETURNING` the keys. -/
def deleteReturning (p : ρ → Bool) : Prog (Act S) ε (List κ) := do
  let ks ← query fun _ db => ((R.get db).select p).map key
  exec (ks.map R.exclusive) fun _ => (ks, [R.deletedWhere ks p])

/-- `INSERT`, which fails with `e` when a key is already present. -/
def insert (rows : List ρ) (e : ε) : Prog (Act S) ε Unit := do
  let conflict ← exec (rows.map fun r => R.exclusive (key r)) fun db =>
    (rows.any fun r => ((R.get db).get (key r)).isSome, [R.inserted rows])
  Prog.rejectIf (conflict = true) e

/-- `INSERT … ON CONFLICT DO UPDATE SET f`. -/
def upsert (row : ρ) (f : Assign key) : Prog (Act S) ε Unit :=
  exec [R.exclusive (key row)] fun _ => ((), [R.upserted row f])

/-! ### Rules -/

variable {R} {P : Spec S} {t : ℕ} {l : Session S} {g : Shared S} {A : Shared S → Prop}
  {Q : Except ε α → Session S → Shared S → Prop}

omit [DecidableEq κ] in
theorem select_safe {p : ρ → Bool} {k : List ρ → Prog (Act S) ε α}
    (hst : P.Stable t l.held A) (hA : A g) (h : ∀ g₁ rows, P.Inv g₁ → A g₁ →
      (R.get (l.view g₁.current)).select p = rows →
      P.Safe t Q (k rows) (l.touch g₁.history.length) g₁) :
    P.Safe t Q (R.select p >>= k) l g :=
  Spec.Safe.query hst hA h

theorem find_safe {i : κ} {k : Option ρ → Prog (Act S) ε α}
    (hst : P.Stable t l.held A) (hA : A g) (h : ∀ g₁ row, P.Inv g₁ → A g₁ →
      (R.get (l.view g₁.current)).get i = row →
      P.Safe t Q (k row) (l.touch g₁.history.length) g₁) :
    P.Safe t Q (R.find i >>= k) l g :=
  Spec.Safe.query hst hA h

/-- A row found in the snapshot is locked, and then read again. -/
theorem selectForUpdate_safe {p : ρ → Bool} {k : Option ρ → Prog (Act S) ε α}
    (hst : P.Stable t l.held A) (hA : A g)
    (hnone : ∀ g₁, P.Inv g₁ → A g₁ → (∀ r ∈ R.get (l.view g₁.current), p r = false) →
      P.Safe t Q (k none) (l.touch g₁.history.length) g₁)
    (hsome : ∀ g₀ g₁ row, A g₀ → Serial.Continues g₀.base g₀.history g₁ →
      ((R.get (l.view g₀.current)).select p).head? = some row → P.Inv g₁ → A g₁ →
      P.Safe t Q (k (((R.get (l.view g₁.current)).get (key row)).filter p))
        ((l.touch g₀.history.length).exec g₁.history.length [R.exclusive (key row)] []) g₁) :
    P.Safe t Q (R.selectForUpdate p >>= k) l g := by
  simp only [selectForUpdate, Prog.bind_eq, Prog.bind_assoc]
  refine Spec.Safe.query hst hA fun g₁ row hi hA₁ hrow => ?_
  cases row with
  | none =>
    refine hnone g₁ hi hA₁ fun r hr => ?_
    rw [List.head?_eq_none_iff] at hrow
    by_contra hp
    exact List.not_mem_nil (hrow ▸ Table.mem_select.2 ⟨hr, by simpa using hp⟩)
  | some row =>
    refine Spec.Safe.exec (hst.and (Serial.Continues.stable_of g₁.base g₁.history))
      ⟨hA₁, Serial.Continues.refl g₁⟩ fun g₂ hi₂ hA₂ => ?_
    exact hsome g₁ g₂ row hA₁ hA₂.2 hrow hi₂ hA₂.1

/-- A row found in the snapshot is locked against changes, and then read again. -/
theorem selectForShare_safe {p : ρ → Bool} {k : Option ρ → Prog (Act S) ε α}
    (hst : P.Stable t l.held A) (hA : A g)
    (hnone : ∀ g₁, P.Inv g₁ → A g₁ → (∀ r ∈ R.get (l.view g₁.current), p r = false) →
      P.Safe t Q (k none) (l.touch g₁.history.length) g₁)
    (hsome : ∀ g₀ g₁ row, A g₀ → Serial.Continues g₀.base g₀.history g₁ →
      ((R.get (l.view g₀.current)).select p).head? = some row → P.Inv g₁ → A g₁ →
      P.Safe t Q (k (((R.get (l.view g₁.current)).get (key row)).filter p))
        ((l.touch g₀.history.length).exec g₁.history.length [R.shared (key row)] []) g₁) :
    P.Safe t Q (R.selectForShare p >>= k) l g := by
  simp only [selectForShare, Prog.bind_eq, Prog.bind_assoc]
  refine Spec.Safe.query hst hA fun g₁ row hi hA₁ hrow => ?_
  cases row with
  | none =>
    refine hnone g₁ hi hA₁ fun r hr => ?_
    rw [List.head?_eq_none_iff] at hrow
    by_contra hp
    exact List.not_mem_nil (hrow ▸ Table.mem_select.2 ⟨hr, by simpa using hp⟩)
  | some row =>
    refine Spec.Safe.exec (hst.and (Serial.Continues.stable_of g₁.base g₁.history))
      ⟨hA₁, Serial.Continues.refl g₁⟩ fun g₂ hi₂ hA₂ => ?_
    exact hsome g₁ g₂ row hA₁ hA₂.2 hrow hi₂ hA₂.1

/-- `SELECT … FOR UPDATE` of the row with a given key. -/
theorem selectKeyForUpdate_safe {i : κ} {p : ρ → Bool} {k : Option ρ → Prog (Act S) ε α}
    (hp : ∀ r, p r = true ↔ key r = i) (hst : P.Stable t l.held A) (hA : A g)
    (hnone : ∀ l' g₁, P.Inv g₁ → A g₁ → (R.get (l.view g₁.current)).get i = none →
      P.Safe t Q (k none) l' g₁)
    (hsome : ∀ n g₁ row, P.Inv g₁ → A g₁ → n ≤ g₁.history.length →
      (R.get (l.view g₁.current)).get i = some row → P.Safe t Q (k (some row))
        ((l.touch n).exec g₁.history.length [R.exclusive i] []) g₁) :
    P.Safe t Q (R.selectForUpdate p >>= k) l g := by
  refine selectForUpdate_safe hst hA (fun g₁ hi hA₁ hno => ?_)
    fun g₀ g₁ row _ hcont hrow hi hA₁ => ?_
  · refine hnone _ g₁ hi hA₁ (Table.get_eq_none.2 fun r hr hri => ?_)
    have hpr := (hp r).2 hri
    rw [hno r hr] at hpr
    cases hpr
  · have hn : g₀.history.length ≤ g₁.history.length := hcont.isPrefix.length_le
    rw [(hp row).1 (Table.mem_select.1 (List.mem_of_mem_head? hrow)).2]
    cases hget : (R.get (l.view g₁.current)).get i with
    | none => exact hnone _ g₁ hi hA₁ hget
    | some r =>
      have hpr : p r = true := (hp r).2 (Table.key_of_get hget)
      simp only [Option.filter, hpr, if_true]
      exact hsome _ g₁ r hi hA₁ hn hget

/-- The rows found in the snapshot are locked, and those that still satisfy `p` are updated. -/
theorem update_safe {p : ρ → Bool} {f : Assign key}
    {k : List κ → Prog (Act S) ε α} (hst : P.Stable t l.held A) (hA : A g)
    (h : ∀ g₁ g₂ ks, P.Inv g₁ → A g₁ → Serial.Continues g₁.base g₁.history g₂ → P.Inv g₂ → A g₂ →
      ((R.get (l.view g₁.current)).select p).map key = ks →
      P.Safe t Q
        (k (((R.get (l.view g₂.current)).select fun r => decide (key r ∈ ks) && p r).map key))
        ((l.touch g₁.history.length).exec g₂.history.length (ks.map R.exclusive)
          [R.updated ks p f]) g₂) :
    P.Safe t Q (R.update p f >>= k) l g := by
  simp only [update, Prog.bind_eq, Prog.bind_assoc]
  refine Spec.Safe.query hst hA fun g₁ ks hi hA₁ hks => ?_
  refine Spec.Safe.exec (hst.and (Serial.Continues.stable_of g₁.base g₁.history))
    ⟨hA₁, Serial.Continues.refl g₁⟩ fun g₂ hi₂ hA₂ => ?_
  exact h g₁ g₂ ks hi hA₁ hA₂.2 hi₂ hA₂.1 hks

theorem updateKey_safe {i : κ} {f : Assign key}
    {k : Unit → Prog (Act S) ε α} (hst : P.Stable t l.held A) (hA : A g)
    (h : ∀ g₁, P.Inv g₁ → A g₁ → P.Safe t Q (k ())
      (l.exec g₁.history.length [R.exclusive i] [R.updatedKey i f]) g₁) :
    P.Safe t Q (R.updateKey i f >>= k) l g :=
  Spec.Safe.exec hst hA fun g₁ hi hA₁ => h g₁ hi hA₁

/-- The rows found in the snapshot are deleted. -/
theorem delete_safe {p : S.DB → ρ → Bool} {k : ℕ → Prog (Act S) ε α}
    (hst : P.Stable t l.held A) (hA : A g)
    (h : ∀ g₁ g₂ ks, P.Inv g₁ → A g₁ → Serial.Continues g₁.base g₁.history g₂ → P.Inv g₂ → A g₂ →
      ((R.get (l.view g₁.current)).select (p (l.view g₁.current))).map key = ks →
      P.Safe t Q (k g₁.history.length)
        ((l.touch g₁.history.length).exec g₂.history.length (ks.map R.exclusive)
          [R.deleted ks]) g₂) :
    P.Safe t Q (R.delete p >>= k) l g := by
  simp only [delete, Prog.bind_eq, Prog.bind_assoc]
  refine Spec.Safe.query hst hA fun g₁ ⟨n, ks⟩ hi hA₁ hks => ?_
  refine Spec.Safe.exec (hst.and (Serial.Continues.stable_of g₁.base g₁.history))
    ⟨hA₁, Serial.Continues.refl g₁⟩ fun g₂ hi₂ hA₂ => ?_
  obtain ⟨rfl, hsel⟩ := Prod.mk.inj hks
  exact h g₁ g₂ ks hi hA₁ hA₂.2 hi₂ hA₂.1 hsel

/-- The rows found in the snapshot are deleted if they still satisfy `p`. -/
theorem deleteReturning_safe {p : ρ → Bool} {k : List κ → Prog (Act S) ε α}
    (hst : P.Stable t l.held A) (hA : A g)
    (h : ∀ n g₁ ks, n ≤ g₁.history.length → P.Inv g₁ → A g₁ → P.Safe t Q (k ks)
      ((l.touch n).exec g₁.history.length (ks.map R.exclusive) [R.deletedWhere ks p]) g₁) :
    P.Safe t Q (R.deleteReturning p >>= k) l g := by
  simp only [deleteReturning, Prog.bind_eq, Prog.bind_assoc]
  refine Spec.Safe.query hst hA fun g₁ ks hi hA₁ hks => ?_
  refine Spec.Safe.exec (hst.and (Serial.Continues.stable_of g₁.base g₁.history))
    ⟨hA₁, Serial.Continues.refl g₁⟩ fun g₂ hi₂ hA₂ => ?_
  exact h _ g₂ ks hA₂.2.isPrefix.length_le hi₂ hA₂.1

theorem insert_safe {rows : List ρ} {e : ε} {k : Unit → Prog (Act S) ε α}
    (hst : P.Stable t l.held A) (hA : A g)
    (hr : ∀ l' g₁, P.Inv g₁ → A g₁ → P.Safe t Q (.raise e) l' g₁)
    (h : ∀ g₁, P.Inv g₁ → A g₁ →
      (∀ r ∈ rows, (R.get (l.view g₁.current)).get (key r) = none) →
      P.Safe t Q (k ()) (l.exec g₁.history.length
        (rows.map fun r => R.exclusive (key r)) [R.inserted rows]) g₁) :
    P.Safe t Q (R.insert rows e >>= k) l g := by
  simp only [insert, Prog.bind_eq, Prog.bind_assoc]
  refine Spec.Safe.exec hst hA fun g₁ hi hA₁ => ?_
  refine Spec.Safe.rejectIf (fun _ => ?_) fun hno => ?_
  · exact hr _ g₁ hi hA₁
  · refine h g₁ hi hA₁ fun r hmem => ?_
    rw [← Option.not_isSome_iff_eq_none]
    exact fun hsome => hno (List.any_eq_true.2 ⟨r, hmem, hsome⟩)

theorem upsert_safe {row : ρ} {f : Assign key}
    {k : Unit → Prog (Act S) ε α} (hst : P.Stable t l.held A) (hA : A g)
    (h : ∀ g₁, P.Inv g₁ → A g₁ → P.Safe t Q (k ())
      (l.exec g₁.history.length [R.exclusive (key row)] [R.upserted row f]) g₁) :
    P.Safe t Q (R.upsert row f >>= k) l g :=
  Spec.Safe.exec hst hA fun g₁ hi hA₁ => h g₁ hi hA₁

end Rel

end Transactions
