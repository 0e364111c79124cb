import ForgejoMcp.Python.OrderedDict
import ForgejoMcp.Python.Text

/-!
# JSON documents

What `json.loads` reads of a JSON document, the equality that Python has on it and the one that
JSON has, and the places of a document that keys lead to.
-/

namespace ForgejoMcp.OpenApi

open Python

/-- The value of a number.  A number beyond the floats is read as an infinity. -/
inductive Number
  | finite (q : ℚ)
  | infinite (negative : Bool)
  deriving DecidableEq

/-- A JSON value without parts. -/
inductive Scalar
  | null
  | bool (b : Bool)
  | int (n : ℤ)
  | float (x : Number)
  | str (s : Text)
  deriving DecidableEq

/-- A JSON value. -/
inductive Value
  | scalar (s : Scalar)
  | list (items : List Value)
  | dict (entries : List (Text × Value))

/-! ### Equality -/

/-- `float(b)`. -/
def Scalar.ofBool (b : Bool) : Scalar := .float (.finite (if b then 1 else 0))

/-- Numbers are equal in JSON if their values are, however they are written. -/
def Scalar.asJson : Scalar → Scalar
  | .int n => .float (.finite n)
  | s => s

/-- In Python a boolean is a number, too. -/
def Scalar.asPython : Scalar → Scalar
  | .bool b => .ofBool b
  | .int n => .float (.finite n)
  | s => s

namespace Value

mutual

/-- The values are equal if scalars are taken as `norm` takes them.  The order of the entries of a
dictionary does not matter. -/
def eqBy (norm : Scalar → Scalar) : Value → Value → Bool
  | .scalar s, .scalar t => decide (norm s = norm t)
  | .list xs, .list ys => eqItems norm xs ys
  | .dict d, .dict e => decide (d.length = e.length) && eqEntries norm d e
  | _, _ => false

/-- `==` on lists. -/
def eqItems (norm : Scalar → Scalar) : List Value → List Value → Bool
  | [], [] => true
  | x :: xs, y :: ys => eqBy norm x y && eqItems norm xs ys
  | _, _ => false

/-- The entries of the first dictionary are in the second. -/
def eqEntries (norm : Scalar → Scalar) : List (Text × Value) → List (Text × Value) → Bool
  | [], _ => true
  | (key, v) :: d, e =>
    (match e.lookup key with
      | some w => eqBy norm v w
      | none => false) && eqEntries norm d e

end

/-- `before == after`. -/
def pyEq : Value → Value → Bool := eqBy Scalar.asPython

/-- Equality of JSON values. -/
def jsonEq : Value → Value → Bool := eqBy Scalar.asJson

mutual

/-- Every dictionary has each key once. -/
def wellFormed : Value → Bool
  | .scalar _ => true
  | .list items => itemsWellFormed items
  | .dict entries => decide (entries.map Prod.fst).Nodup && entriesWellFormed entries

/-- The items are well formed. -/
def itemsWellFormed : List Value → Bool
  | [] => true
  | v :: items => wellFormed v && itemsWellFormed items

/-- The values of the entries are well formed. -/
def entriesWellFormed : List (Text × Value) → Bool
  | [] => true
  | (_, v) :: entries => wellFormed v && entriesWellFormed entries

end

/-- Induction over the values in a value. -/
theorem induct {P : Value → Prop} (scalar : ∀ s, P (.scalar s))
    (list : ∀ items, (∀ v ∈ items, P v) → P (.list items))
    (dict : ∀ entries : List (Text × Value), (∀ key v, (key, v) ∈ entries → P v) → P (.dict entries))
    (v : Value) : P v :=
  @Value.rec P (fun items => ∀ v ∈ items, P v) (fun entries => ∀ key v, (key, v) ∈ entries → P v)
    (fun e => P e.2) scalar list dict
    (fun v hv => (List.not_mem_nil hv).elim)
    (fun _ _ hv hitems => List.forall_mem_cons.2 ⟨hv, hitems⟩)
    (fun _ _ he => (List.not_mem_nil he).elim)
    (fun _ _ he hentries key v hmem => by
      rcases List.mem_cons.1 hmem with rfl | hmem
      · exact he
      · exact hentries key v hmem)
    (fun _ _ hv => hv) v

variable {norm : Scalar → Scalar} {v w : Value} {d e : List (Text × Value)}

theorem itemsWellFormed_iff {items : List Value} :
    itemsWellFormed items = true ↔ ∀ v ∈ items, v.wellFormed = true := by
  induction items with
  | nil => simp [itemsWellFormed]
  | cons v items ih => rw [itemsWellFormed, Bool.and_eq_true, ih, List.forall_mem_cons]

theorem entriesWellFormed_iff :
    entriesWellFormed d = true ↔ ∀ entry ∈ d, entry.2.wellFormed = true := by
  induction d with
  | nil => simp [entriesWellFormed]
  | cons entry d ih => rw [entriesWellFormed, Bool.and_eq_true, ih, List.forall_mem_cons]

theorem wellFormed_list {items : List Value} :
    (list items).wellFormed = true ↔ ∀ v ∈ items, v.wellFormed = true := by
  rw [wellFormed, itemsWellFormed_iff]

theorem wellFormed_dict : (dict d).wellFormed = true ↔
    (d.map Prod.fst).Nodup ∧ ∀ entry ∈ d, entry.2.wellFormed = true := by
  rw [wellFormed, Bool.and_eq_true, decide_eq_true_iff, entriesWellFormed_iff]

theorem wellFormed_of_lookup (h : (dict d).wellFormed = true) {key : Text}
    (hv : d.lookup key = some v) : v.wellFormed = true := by
  obtain ⟨hnodup, hentries⟩ := wellFormed_dict.1 h
  exact hentries _ ((lookup_eq_some_iff_mem hnodup).1 hv)

theorem eqBy_list {xs ys : List Value} : eqBy norm (list xs) (list ys) = true ↔
    List.Forall₂ (fun x y => eqBy norm x y = true) xs ys := by
  rw [eqBy]
  induction xs generalizing ys with
  | nil => cases ys <;> simp [eqItems]
  | cons x xs ih =>
    cases ys with
    | nil => simp [eqItems]
    | cons y ys => rw [eqItems, Bool.and_eq_true, ih, List.forall₂_cons]

theorem eqEntries_iff : eqEntries norm d e = true ↔
    ∀ key v, (key, v) ∈ d → ∃ w, e.lookup key = some w ∧ eqBy norm v w = true := by
  induction d with
  | nil => simp [eqEntries]
  | cons entry d ih =>
    obtain ⟨key, v⟩ := entry
    have hhead : (match e.lookup key with
        | some w => eqBy norm v w
        | none => false) = true ↔ ∃ w, e.lookup key = some w ∧ eqBy norm v w = true := by
      cases e.lookup key <;> simp
    rw [eqEntries, Bool.and_eq_true, hhead, ih]
    simp only [List.mem_cons, Prod.mk.injEq]
    constructor
    · rintro ⟨hv, hd⟩ key' v' (⟨rfl, rfl⟩ | hmem)
      · exact hv
      · exact hd key' v' hmem
    · exact fun h => ⟨h key v (.inl ⟨rfl, rfl⟩), fun key' v' hmem => h key' v' (.inr hmem)⟩

/-- Dictionaries are equal if they are at every key. -/
theorem eqBy_dict (hd : (d.map Prod.fst).Nodup) (he : (e.map Prod.fst).Nodup) :
    eqBy norm (dict d) (dict e) = true ↔
      ∀ key, Option.Rel (fun v w => eqBy norm v w = true) (d.lookup key) (e.lookup key) := by
  rw [eqBy, Bool.and_eq_true, decide_eq_true_iff, eqEntries_iff]
  constructor
  · rintro ⟨hlength, hentries⟩ key
    have hsubset : d.map Prod.fst ⊆ e.map Prod.fst := by
      intro key hkey
      obtain ⟨⟨_, v⟩, hmem, rfl⟩ := List.mem_map.1 hkey
      obtain ⟨w, hw, -⟩ := hentries _ v hmem
      exact List.mem_map.2 ⟨_, (lookup_eq_some_iff_mem he).1 hw, rfl⟩
    have hperm : (d.map Prod.fst).Perm (e.map Prod.fst) :=
      (hd.subperm hsubset).perm_of_length_le (by simp [hlength])
    cases hv : d.lookup key with
    | none =>
      have hw : e.lookup key = none := by
        rw [lookup_eq_none_iff_not_mem] at hv ⊢
        exact fun hmem => hv (hperm.mem_iff.2 hmem)
      rw [hw]
      exact .none
    | some v =>
      obtain ⟨w, hw, heq⟩ := hentries key v ((lookup_eq_some_iff_mem hd).1 hv)
      rw [hw]
      exact .some heq
  · intro h
    have hkeys : (d.map Prod.fst).Perm (e.map Prod.fst) := by
      refine (List.perm_ext_iff_of_nodup hd he).2 fun key => not_iff_not.1 ?_
      rw [← lookup_eq_none_iff_not_mem, ← lookup_eq_none_iff_not_mem]
      have hkey := h key
      generalize d.lookup key = v, e.lookup key = w at hkey ⊢
      cases hkey <;> simp
    refine ⟨by simpa using hkeys.length_eq, fun key v hmem => ?_⟩
    have hkey := h key
    rw [(lookup_eq_some_iff_mem hd).2 hmem] at hkey
    generalize e.lookup key = w at hkey ⊢
    cases hkey with
    | some heq => exact ⟨_, rfl, heq⟩

theorem eqBy_refl (h : v.wellFormed = true) : eqBy norm v v = true := by
  induction v using induct with
  | scalar s => rw [eqBy, decide_eq_true_iff]
  | list items ih =>
    rw [eqBy_list, List.forall₂_same]
    exact fun v hv => ih v hv (wellFormed_list.1 h v hv)
  | dict entries ih =>
    obtain ⟨hnodup, hentries⟩ := wellFormed_dict.1 h
    rw [eqBy_dict hnodup hnodup]
    intro key
    cases hv : entries.lookup key with
    | none => exact .none
    | some v =>
      have hmem := (lookup_eq_some_iff_mem hnodup).1 hv
      exact .some (ih key v hmem (hentries _ hmem))

/-- Induction over two values that are equal. -/
theorem eqBy_induct {Q : Value → Value → Prop}
    (scalar : ∀ s t, norm s = norm t → Q (scalar s) (scalar t))
    (list : ∀ xs ys, List.Forall₂ Q xs ys → Q (list xs) (list ys))
    (dict : ∀ d e : List (Text × Value), (d.map Prod.fst).Nodup → (e.map Prod.fst).Nodup →
      (∀ key, Option.Rel Q (d.lookup key) (e.lookup key)) → Q (dict d) (dict e))
    (hv : v.wellFormed = true) (hw : w.wellFormed = true) (h : eqBy norm v w = true) : Q v w := by
  induction v using induct generalizing w with
  | scalar s =>
    cases w with
    | scalar t =>
      rw [eqBy, decide_eq_true_iff] at h
      exact scalar s t h
    | list ys => cases h
    | dict e => cases h
  | list xs ih =>
    cases w with
    | scalar t => cases h
    | list ys =>
      rw [eqBy_list, List.forall₂_iff_get] at h
      rw [wellFormed_list] at hv hw
      refine list xs ys (List.forall₂_iff_get.2 ⟨h.1, fun i hi hi' => ?_⟩)
      exact ih _ (List.get_mem xs _) (hv _ (List.get_mem xs _)) (hw _ (List.get_mem ys _))
        (h.2 i hi hi')
    | dict e => cases h
  | dict d ih =>
    cases w with
    | scalar t => cases h
    | list ys => cases h
    | dict e =>
      obtain ⟨hd, hdv⟩ := wellFormed_dict.1 hv
      obtain ⟨he, hev⟩ := wellFormed_dict.1 hw
      rw [eqBy_dict hd he] at h
      refine dict d e hd he fun key => ?_
      have hmem (v) : d.lookup key = some v → (key, v) ∈ d := (lookup_eq_some_iff_mem hd).1
      have hmem' (w) : e.lookup key = some w → (key, w) ∈ e := (lookup_eq_some_iff_mem he).1
      have hkey := h key
      generalize d.lookup key = a, e.lookup key = b at hkey hmem hmem' ⊢
      cases hkey with
      | none => exact .none
      | some heq =>
        exact .some (ih key _ (hmem _ rfl) (hdv _ (hmem _ rfl)) (hev _ (hmem' _ rfl)) heq)

theorem pyEq_of_jsonEq (hv : v.wellFormed = true) (hw : w.wellFormed = true)
    (h : jsonEq v w = true) : pyEq v w = true := by
  refine eqBy_induct (Q := fun v w => pyEq v w = true) (fun s t hst => ?_) (fun xs ys => eqBy_list.2)
    (fun d e hd he => (eqBy_dict hd he).2) hv hw h
  rw [pyEq, eqBy, decide_eq_true_iff]
  cases s <;> cases t <;> simp_all [Scalar.asJson, Scalar.asPython, Scalar.ofBool]

/-! ### Booleans taken for numbers -/

/-- At some place one of the values holds a boolean and the other one the number that Python takes
it for. -/
inductive Confuses : Value → Value → Prop
  | left {b : Bool} {s : Scalar} (h : s.asJson = .ofBool b) : Confuses (scalar (.bool b)) (scalar s)
  | right {b : Bool} {s : Scalar} (h : s.asJson = .ofBool b) : Confuses (scalar s) (scalar (.bool b))
  | item {xs ys : List Value} {x y : Value} (i : ℕ) (hx : xs[i]? = some x) (hy : ys[i]? = some y)
      (h : Confuses x y) : Confuses (list xs) (list ys)
  | entry {d e : List (Text × Value)} {x y : Value} (key : Text) (hx : d.lookup key = some x)
      (hy : e.lookup key = some y) (h : Confuses x y) : Confuses (dict d) (dict e)

/-- Values that are equal in JSON confuse nothing. -/
theorem Confuses.not_jsonEq (h : Confuses v w) (hv : v.wellFormed = true)
    (hw : w.wellFormed = true) : jsonEq v w ≠ true := by
  induction h with
  | left h | right h =>
    rw [jsonEq, eqBy, Ne, decide_eq_true_iff, h]
    exact nofun
  | item i hx hy _ ih =>
    rw [wellFormed_list] at hv hw
    intro heq
    rw [jsonEq, eqBy_list] at heq
    obtain ⟨hi, rfl⟩ := List.getElem?_eq_some_iff.1 hx
    obtain ⟨hi', rfl⟩ := List.getElem?_eq_some_iff.1 hy
    exact ih (hv _ (List.getElem_mem hi)) (hw _ (List.getElem_mem hi')) (heq.get hi hi')
  | entry key hx hy _ ih =>
    intro heq
    rw [jsonEq, eqBy_dict (wellFormed_dict.1 hv).1 (wellFormed_dict.1 hw).1] at heq
    have hkey := heq key
    rw [hx, hy] at hkey
    cases hkey with
    | some hxy => exact ih (wellFormed_of_lookup hv hx) (wellFormed_of_lookup hw hy) hxy

/-- Python's equality is that of JSON where nothing is confused. -/
theorem jsonEq_of_pyEq (hv : v.wellFormed = true) (hw : w.wellFormed = true)
    (h : pyEq v w = true) (hclear : ¬Confuses v w) : jsonEq v w = true := by
  refine eqBy_induct (Q := fun v w => ¬Confuses v w → jsonEq v w = true)
    (fun s t hst hclear => ?_) (fun xs ys hitems hclear => ?_)
    (fun d e hd he hentries hclear => ?_) hv hw h hclear
  · rw [jsonEq, eqBy, decide_eq_true_iff]
    cases s with
    | bool b =>
      cases t with
      | bool b' =>
        have hb : b = b' := by
          cases b <;> cases b' <;> simp_all [Scalar.asPython, Scalar.ofBool]
        rw [hb]
      | int | float => exact absurd (.left hst.symm) hclear
      | null | str => cases hst
    | int | float =>
      cases t with
      | bool b' => exact absurd (.right hst) hclear
      | int | float | null | str => exact hst
    | null | str =>
      cases t with
      | bool | int | float => cases hst
      | null | str => exact hst
  · rw [List.forall₂_iff_get] at hitems
    rw [jsonEq, eqBy_list, List.forall₂_iff_get]
    refine ⟨hitems.1, fun i hi hi' => hitems.2 i hi hi' fun hconf => hclear ?_⟩
    exact .item i (List.getElem?_eq_getElem hi) (List.getElem?_eq_getElem hi') hconf
  · rw [jsonEq, eqBy_dict hd he]
    intro key
    have hkey := hentries key
    have hentry (x y) : d.lookup key = some x → e.lookup key = some y → ¬Confuses x y :=
      fun hx hy hconf => hclear (.entry key hx hy hconf)
    generalize d.lookup key = a, e.lookup key = b at hkey hentry ⊢
    cases hkey with
    | none => exact .none
    | some h => exact .some (h (hentry _ _ rfl rfl))

end Value

end ForgejoMcp.OpenApi
