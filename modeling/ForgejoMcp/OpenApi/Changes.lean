import ForgejoMcp.OpenApi.Value

/-!
# Changes between documents

The places at which two documents differ, as paths of keys, and the document that the changes make
of the first one.  An array is a value like a number: a change replaces it as a whole.
-/

namespace ForgejoMcp.OpenApi

open Python

/-- What a path of keys leads to. -/
def follow : List Text → Option Value → Option Value
  | [], v => v
  | key :: path, some (.dict d) => follow path (d.lookup key)
  | _ :: _, _ => none

/-- The entries with a value at a key, or without the key. -/
def assign (d : List (Text × Value)) (key : Text) : Option Value → List (Text × Value)
  | none => d.filter fun entry => decide (entry.1 ≠ key)
  | some v => (key, v) :: d.filter fun entry => decide (entry.1 ≠ key)

/-- The value with a value, or none, at the end of a path. -/
def replaceAt : List Text → Option Value → Option Value → Option Value
  | [], new, _ => new
  | key :: path, new, some (.dict d) =>
    some (.dict (assign d key (replaceAt path new (d.lookup key))))
  | _ :: _, _, v => v

/-- What happens at a place. -/
inductive Delta
  | removed (before : Value)
  | added (after : Value)
  | changed (before after : Value)

namespace Delta

/-- The value in the old document. -/
def before? : Delta → Option Value
  | removed before => some before
  | added _ => none
  | changed before _ => some before

/-- The value in the new document. -/
def after? : Delta → Option Value
  | removed _ => none
  | added after => some after
  | changed _ after => some after

end Delta

/-- A difference and its place. -/
structure Change where
  path : List Text
  delta : Delta

/-- `sorted(…)` by the key. -/
def byKey {β : Type} (entries : List (Text × β)) : List (Text × β) :=
  entries.insertionSort fun a b => a.1 ≤ b.1

/-- The entries whose keys the other dictionary does not have. -/
def without (d e : List (Text × Value)) : List (Text × Value) :=
  d.filter fun entry => decide (entry.1 ∉ e.map Prod.fst)

mutual

/-- The changes from one value to another. -/
def changes : Value → Value → List Change
  | .dict d, .dict e =>
    (byKey (without d e)).map (fun entry => ⟨[entry.1], .removed entry.2⟩) ++
    (byKey (without e d)).map (fun entry => ⟨[entry.1], .added entry.2⟩) ++
    (byKey (commonChanges d e)).flatMap fun entry =>
      entry.2.map fun c => ⟨entry.1 :: c.path, c.delta⟩
  | v, w => if v.pyEq w then [] else [⟨[], .changed v w⟩]

/-- The changes at the keys that both dictionaries have. -/
def commonChanges : List (Text × Value) → List (Text × Value) → List (Text × List Change)
  | [], _ => []
  | (key, v) :: d, e =>
    match e.lookup key with
    | some w => (key, changes v w) :: commonChanges d e
    | none => commonChanges d e

end

/-- The changes made one after the other. -/
def patch (cs : List Change) (v : Option Value) : Option Value :=
  cs.foldl (fun v c => replaceAt c.path c.delta.after? v) v

/-! ### Entries of a dictionary -/

section Entries

variable {β : Type} {d e : List (Text × Value)} {key : Text}

theorem lookup_filter {l : List (Text × β)} (p : Text → Bool) :
    (l.filter fun entry => p entry.1).lookup key = if p key then l.lookup key else none := by
  induction l with
  | nil => simp
  | cons entry l ih =>
    obtain ⟨k, v⟩ := entry
    rcases eq_or_ne key k with rfl | hne
    · by_cases hp : p key = true <;> simp [hp, ih]
    · have hbeq : (key == k) = false := beq_false_of_ne hne
      rw [List.filter_cons]
      split <;> simp [List.lookup_cons, hbeq, ih]

theorem nodup_filter {l : List (Text × β)} (p : Text × β → Bool) (h : (l.map Prod.fst).Nodup) :
    ((l.filter p).map Prod.fst).Nodup :=
  h.sublist (List.filter_sublist.map _)

theorem nodup_without (h : (d.map Prod.fst).Nodup) : ((without d e).map Prod.fst).Nodup :=
  nodup_filter _ h

theorem lookup_without : (without d e).lookup key =
    if (e.lookup key).isNone then d.lookup key else none := by
  rw [without, lookup_filter fun key => decide (key ∉ e.map Prod.fst)]
  simp only [decide_eq_true_eq, ← lookup_eq_none_iff_not_mem, Option.isNone_iff_eq_none]

theorem lookup_assign (o : Option Value) {key' : Text} :
    (assign d key o).lookup key' = if key' = key then o else d.lookup key' := by
  have hfilter := @lookup_filter _ key' d fun k => decide (k ≠ key)
  simp only [decide_eq_true_eq] at hfilter
  cases o with
  | none =>
    rw [assign, hfilter]
    split <;> simp_all
  | some v =>
    rw [assign, List.lookup_cons, hfilter]
    split <;> simp_all

theorem nodup_assign (h : (d.map Prod.fst).Nodup) (o : Option Value) :
    ((assign d key o).map Prod.fst).Nodup := by
  have hfilter := nodup_filter (fun entry => decide (entry.1 ≠ key)) h
  cases o with
  | none => exact hfilter
  | some v =>
    rw [assign, List.map_cons, List.nodup_cons]
    refine ⟨fun hmem => ?_, hfilter⟩
    obtain ⟨entry, hentry, heq⟩ := List.mem_map.1 hmem
    exact of_decide_eq_true (List.mem_filter.1 hentry).2 heq

theorem perm_byKey (l : List (Text × β)) : (byKey l).Perm l := List.perm_insertionSort _ l

theorem lookup_byKey {l : List (Text × β)} (h : (l.map Prod.fst).Nodup) :
    (byKey l).lookup key = l.lookup key := by
  have hperm := perm_byKey l
  refine Option.ext fun v => ?_
  rw [lookup_eq_some_iff_mem h, lookup_eq_some_iff_mem ((hperm.map Prod.fst).nodup_iff.2 h),
    hperm.mem_iff]

/-- The entries at one key are none or one. -/
theorem flatMap_entry {γ : Type} {l : List (Text × β)} (h : (l.map Prod.fst).Nodup)
    (g : β → List γ) : (l.flatMap fun entry => if entry.1 = key then g entry.2 else []) =
      (l.lookup key).elim [] g := by
  induction l with
  | nil => rfl
  | cons entry l ih =>
    obtain ⟨k, v⟩ := entry
    rw [List.map_cons, List.nodup_cons] at h
    rw [List.flatMap_cons, ih h.2]
    rcases eq_or_ne k key with rfl | hne
    · rw [if_pos rfl, lookup_eq_none_iff_not_mem.2 h.1, List.lookup_cons_self]
      exact List.append_nil _
    · rw [if_neg hne, List.nil_append, List.lookup_cons, beq_false_of_ne hne.symm]

theorem lookup_commonChanges : (commonChanges d e).lookup key =
    (d.lookup key).bind fun v => (e.lookup key).map (changes v) := by
  induction d with
  | nil => rfl
  | cons entry d ih =>
    obtain ⟨k, v⟩ := entry
    rw [commonChanges]
    rcases eq_or_ne key k with rfl | hne
    · rw [List.lookup_cons_self]
      cases hw : e.lookup key with
      | none =>
        dsimp only
        rw [ih, hw]
        cases d.lookup key <;> rfl
      | some w =>
        dsimp only
        rw [List.lookup_cons_self]
        rfl
    · have hbeq : (key == k) = false := beq_false_of_ne hne
      cases e.lookup k <;> simp [List.lookup_cons, hbeq, ih]

theorem nodup_commonChanges (h : (d.map Prod.fst).Nodup) :
    ((commonChanges d e).map Prod.fst).Nodup := by
  have hsublist : ((commonChanges d e).map Prod.fst).Sublist (d.map Prod.fst) := by
    clear h
    induction d with
    | nil => exact List.Sublist.slnil
    | cons entry d ih =>
      rw [commonChanges]
      split
      · exact ih.cons_cons _
      · exact ih.cons _
  exact h.sublist hsublist

end Entries

/-! ### The changes at a key -/

variable {v w : Value} {d e : List (Text × Value)} {key : Text} {cs : List Change}

/-- A change below a key, from there on. -/
def Change.below? (key : Text) (c : Change) : Option Change :=
  match c.path with
  | [] => none
  | k :: path => if k = key then some ⟨path, c.delta⟩ else none

/-- The changes from a value, or none, to another. -/
def changesAt : Option Value → Option Value → List Change
  | none, none => []
  | some v, none => [⟨[], .removed v⟩]
  | none, some w => [⟨[], .added w⟩]
  | some v, some w => changes v w

theorem path_ne_nil : ∀ c ∈ changes (.dict d) (.dict e), c.path ≠ [] := by
  intro c hc
  rw [changes, List.mem_append, List.mem_append, List.mem_map, List.mem_map, List.mem_flatMap] at hc
  rcases hc with (⟨entry, -, rfl⟩ | ⟨entry, -, rfl⟩) | ⟨entry, -, hc⟩
  · exact List.cons_ne_nil _ _
  · exact List.cons_ne_nil _ _
  · obtain ⟨c, -, rfl⟩ := List.mem_map.1 hc
    exact List.cons_ne_nil _ _

theorem filterMap_below_byKey {β : Type} {l : List (Text × β)} (h : (l.map Prod.fst).Nodup)
    (key : Text) (g : β → List Change) : ((byKey l).flatMap fun entry =>
      (g entry.2).map fun c => (⟨entry.1 :: c.path, c.delta⟩ : Change)).filterMap (Change.below? key) =
        (l.lookup key).elim [] g := by
  have hentry (entry : Text × β) : ((g entry.2).map fun c => (⟨entry.1 :: c.path, c.delta⟩ :
      Change)).filterMap (Change.below? key) = if entry.1 = key then g entry.2 else [] := by
    rw [List.filterMap_map]
    split
    · rename_i heq
      have hsome : (Change.below? key ∘ fun c : Change => ⟨entry.1 :: c.path, c.delta⟩) = some :=
        funext fun c => if_pos heq
      rw [hsome, List.filterMap_some]
    · rename_i hne
      have hnone : (Change.below? key ∘ fun c : Change => ⟨entry.1 :: c.path, c.delta⟩) =
          fun _ => none := funext fun c => if_neg hne
      rw [hnone, List.filterMap_none]
  rw [List.filterMap_flatMap]
  simp only [hentry]
  rw [flatMap_entry (((perm_byKey l).map Prod.fst).nodup_iff.2 h), lookup_byKey h]

/-- The changes below a key are those between the values at the key. -/
theorem filterMap_changes (hd : (d.map Prod.fst).Nodup) (he : (e.map Prod.fst).Nodup) :
    (changes (.dict d) (.dict e)).filterMap (Change.below? key) =
      changesAt (d.lookup key) (e.lookup key) := by
  have hremoved := filterMap_below_byKey (nodup_without hd (e := e)) key fun v => [⟨[], .removed v⟩]
  have hadded := filterMap_below_byKey (nodup_without he (e := d)) key fun v => [⟨[], .added v⟩]
  have hcommon := filterMap_below_byKey (nodup_commonChanges hd (e := e)) key id
  simp only [List.map_singleton, ← List.map_eq_flatMap, id] at hremoved hadded hcommon
  rw [changes, List.filterMap_append, List.filterMap_append, hremoved, hadded, hcommon,
    lookup_without, lookup_without, lookup_commonChanges]
  cases d.lookup key <;> cases e.lookup key <;> rfl

theorem eq_nil_of_below (hpath : ∀ c ∈ cs, c.path ≠ [])
    (h : ∀ key, cs.filterMap (Change.below? key) = []) : cs = [] := by
  rw [List.eq_nil_iff_forall_not_mem]
  intro c hc
  obtain ⟨key, path, hcons⟩ := List.exists_cons_of_ne_nil (hpath c hc)
  have hbelow : c.below? key = some ⟨path, c.delta⟩ := by
    rw [Change.below?, hcons]
    exact if_pos rfl
  exact List.not_mem_nil (h key ▸ List.mem_filterMap.2 ⟨c, hc, hbelow⟩)

/-- Values that are equal in Python have no changes. -/
theorem changes_eq_nil (hv : v.wellFormed = true) (hw : w.wellFormed = true)
    (h : v.pyEq w = true) : changes v w = [] := by
  have hboth : v.pyEq w = true ∧ changes v w = [] := by
    refine Value.eqBy_induct (Q := fun v w => v.pyEq w = true ∧ changes v w = [])
      (fun s t hst => ?_) (fun xs ys hitems => ?_) (fun d e hd he hentries => ?_) hv hw h
    · have heq : (Value.scalar s).pyEq (.scalar t) = true := by
        rw [Value.pyEq, Value.eqBy, decide_eq_true_iff]
        exact hst
      refine ⟨heq, ?_⟩
      rw [changes, if_pos heq]
      all_goals
        intros
        contradiction
    · have heq : (Value.list xs).pyEq (.list ys) = true :=
        Value.eqBy_list.2 (hitems.imp fun _ _ => And.left)
      refine ⟨heq, ?_⟩
      rw [changes, if_pos heq]
      all_goals
        intros
        contradiction
    · refine ⟨(Value.eqBy_dict hd he).2 fun key => ?_, eq_nil_of_below path_ne_nil fun key => ?_⟩
      · have hkey := hentries key
        generalize d.lookup key = a, e.lookup key = b at hkey ⊢
        cases hkey with
        | none => exact .none
        | some h => exact .some h.1
      · rw [filterMap_changes hd he]
        have hkey := hentries key
        generalize d.lookup key = a, e.lookup key = b at hkey ⊢
        cases hkey with
        | none => rfl
        | some h => exact h.2
  exact hboth.2

/-- Induction over the places that the changes are looked for at: dictionaries are compared key by
key, other values as a whole. -/
theorem changes_induct {Q : Value → Value → Prop}
    (whole : ∀ v w : Value, v.wellFormed = true → w.wellFormed = true →
      (changes v w = if v.pyEq w then [] else [⟨[], .changed v w⟩]) → Q v w)
    (keys : ∀ d e, (Value.dict d).wellFormed = true → (Value.dict e).wellFormed = true →
      (∀ key x y, d.lookup key = some x → e.lookup key = some y → Q x y) → Q (.dict d) (.dict e))
    (hv : v.wellFormed = true) (hw : w.wellFormed = true) : Q v w := by
  induction v using Value.induct generalizing w with
  | scalar s => exact whole _ _ hv hw (by rw [changes]; exact nofun)
  | list xs => exact whole _ _ hv hw (by rw [changes]; exact nofun)
  | dict d ih =>
    cases w with
    | scalar t => exact whole _ _ hv hw (by rw [changes]; exact nofun)
    | list ys => exact whole _ _ hv hw (by rw [changes]; exact nofun)
    | dict e =>
      refine keys d e hv hw fun key x y hx hy => ?_
      exact ih key x ((lookup_eq_some_iff_mem (Value.wellFormed_dict.1 hv).1).1 hx)
        (Value.wellFormed_of_lookup hv hx) (Value.wellFormed_of_lookup hw hy)

/-! ### Making the changes -/

/-- Changes below the keys of a dictionary change what is at each key. -/
theorem patch_dict (hd : (d.map Prod.fst).Nodup) (hpath : ∀ c ∈ cs, c.path ≠ []) :
    ∃ d', (d'.map Prod.fst).Nodup ∧ patch cs (some (.dict d)) = some (.dict d') ∧
      ∀ key, d'.lookup key = patch (cs.filterMap (Change.below? key)) (d.lookup key) := by
  induction cs generalizing d with
  | nil => exact ⟨d, hd, rfl, fun key => rfl⟩
  | cons c cs ih =>
    obtain ⟨⟨path, delta⟩, hc, hcs⟩ : ∃ c', c' = c ∧ ∀ c ∈ cs, c.path ≠ [] :=
      ⟨c, rfl, fun c hc => hpath c (List.mem_cons_of_mem _ hc)⟩
    subst hc
    obtain ⟨key, path, rfl⟩ := List.exists_cons_of_ne_nil (hpath _ List.mem_cons_self)
    obtain ⟨d', hd', heq, hlookup⟩ :=
      ih (nodup_assign hd (replaceAt path delta.after? (d.lookup key))) hcs
    refine ⟨d', hd', heq, fun key' => ?_⟩
    rw [hlookup, lookup_assign]
    rcases eq_or_ne key' key with rfl | hne
    · have hbelow : Change.below? key' ⟨key' :: path, delta⟩ = some ⟨path, delta⟩ := if_pos rfl
      rw [if_pos rfl, List.filterMap_cons_some hbelow]
      rfl
    · have hbelow : Change.below? key' ⟨key :: path, delta⟩ = none := if_neg hne.symm
      rw [if_neg hne, List.filterMap_cons_none hbelow]

/-- No two values at one place, equal in Python, confuse a boolean and a number. -/
def Separable (v w : Value) : Prop :=
  ∀ path x y, follow path (some v) = some x → follow path (some w) = some y → x.pyEq y = true →
    ¬x.Confuses y

theorem Separable.at_key {x y : Value} (h : Separable (.dict d) (.dict e))
    (hx : d.lookup key = some x) (hy : e.lookup key = some y) : Separable x y :=
  fun path x' y' hx' hy' => h (key :: path) x' y' (by rwa [follow, hx]) (by rwa [follow, hy])

/-- The changes make the second value of the first one. -/
theorem patch_changes (hv : v.wellFormed = true) (hw : w.wellFormed = true) (h : Separable v w) :
    Option.Rel (fun x y => Value.jsonEq x y = true) (patch (changes v w) (some v)) (some w) := by
  refine changes_induct (Q := fun v w => Separable v w →
    Option.Rel (fun x y => Value.jsonEq x y = true) (patch (changes v w) (some v)) (some w))
    (fun v w hv hw hchanges h => ?_) (fun d e hd he ih h => ?_) hv hw h
  · rw [hchanges]
    split
    · rename_i heq
      exact .some (Value.jsonEq_of_pyEq hv hw heq (h [] _ _ rfl rfl heq))
    · exact .some (Value.eqBy_refl hw)
  · have hdkeys := (Value.wellFormed_dict.1 hd).1
    have hekeys := (Value.wellFormed_dict.1 he).1
    obtain ⟨d', hd', heq, hlookup⟩ := patch_dict hdkeys (path_ne_nil (d := d) (e := e))
    rw [heq]
    refine .some ((Value.eqBy_dict hd' hekeys).2 fun key => ?_)
    rw [hlookup, filterMap_changes hdkeys hekeys]
    cases hx : d.lookup key with
    | none =>
      cases hy : e.lookup key with
      | none => exact .none
      | some y => exact .some (Value.eqBy_refl (Value.wellFormed_of_lookup he hy))
    | some x =>
      cases hy : e.lookup key with
      | none => exact .none
      | some y => exact ih key x y hx hy (h.at_key hx hy)

theorem exists_of_follow_cons {path : List Text} {x : Value}
    (h : follow (key :: path) (some v) = some x) :
    ∃ d u, v = .dict d ∧ d.lookup key = some u ∧ follow path (some u) = some x := by
  cases v with
  | scalar s => cases h
  | list items => cases h
  | dict d =>
    rw [follow] at h
    cases hu : d.lookup key with
    | none =>
      rw [hu] at h
      cases path <;> cases h
    | some u => exact ⟨d, u, rfl, hu, hu ▸ h⟩

/-- If the changes make the second value, nothing was confused. -/
theorem separable_of_patch (hv : v.wellFormed = true) (hw : w.wellFormed = true)
    (h : Option.Rel (fun x y => Value.jsonEq x y = true) (patch (changes v w) (some v)) (some w)) :
    Separable v w := by
  intro path
  induction path generalizing v w with
  | nil =>
    rintro x y ⟨⟩ ⟨⟩ heq hconf
    rw [changes_eq_nil hv hw heq] at h
    cases h with
    | some hjson => exact hconf.not_jsonEq hv hw hjson
  | cons key path ih =>
    intro x y hx hy
    obtain ⟨d, x', rfl, hx', hx⟩ := exists_of_follow_cons hx
    obtain ⟨e, y', rfl, hy', hy⟩ := exists_of_follow_cons hy
    have hd := (Value.wellFormed_dict.1 hv).1
    have he := (Value.wellFormed_dict.1 hw).1
    obtain ⟨d', hd', heq, hlookup⟩ := patch_dict hd (path_ne_nil (d := d) (e := e))
    rw [heq] at h
    cases h with
    | some hjson =>
      have hkey := (Value.eqBy_dict hd' he).1 hjson key
      rw [hlookup, filterMap_changes hd he, hx', hy'] at hkey
      exact ih (Value.wellFormed_of_lookup hv hx') (Value.wellFormed_of_lookup hw hy') hkey x y hx hy

/-! ### The places of the changes -/

/-- A change says what the two values have at its place. -/
theorem follow_of_mem_changes (hv : v.wellFormed = true) (hw : w.wellFormed = true) :
    ∀ c ∈ changes v w,
      follow c.path (some v) = c.delta.before? ∧ follow c.path (some w) = c.delta.after? := by
  refine changes_induct (Q := fun v w => ∀ c ∈ changes v w,
    follow c.path (some v) = c.delta.before? ∧ follow c.path (some w) = c.delta.after?)
    (fun v w hv hw hchanges => ?_) (fun d e hd he ih => ?_) hv hw
  · rw [hchanges]
    split
    · exact fun c hc => (List.not_mem_nil hc).elim
    · intro c hc
      rw [List.mem_singleton.1 hc]
      exact ⟨rfl, rfl⟩
  · rintro ⟨path, delta⟩ hc
    obtain ⟨key, path, rfl⟩ := List.exists_cons_of_ne_nil (path_ne_nil _ hc)
    have hbelow : (⟨path, delta⟩ : Change) ∈ changesAt (d.lookup key) (e.lookup key) := by
      rw [← filterMap_changes (Value.wellFormed_dict.1 hd).1 (Value.wellFormed_dict.1 he).1]
      exact List.mem_filterMap.2 ⟨_, hc, if_pos rfl⟩
    rw [follow, follow]
    have ihkey := ih key
    generalize d.lookup key = x, e.lookup key = y at hbelow ihkey ⊢
    cases x with
    | none =>
      cases y with
      | none => exact (List.not_mem_nil hbelow).elim
      | some y =>
        cases List.mem_singleton.1 hbelow
        exact ⟨rfl, rfl⟩
    | some x =>
      cases y with
      | none =>
        cases List.mem_singleton.1 hbelow
        exact ⟨rfl, rfl⟩
      | some y => exact ihkey x y rfl rfl _ hbelow

/-- There is one change at a place. -/
theorem nodup_paths (hv : v.wellFormed = true) (hw : w.wellFormed = true) :
    ((changes v w).map Change.path).Nodup := by
  refine changes_induct (Q := fun v w => ((changes v w).map Change.path).Nodup)
    (fun v w hv hw hchanges => ?_) (fun d e hd he ih => ?_) hv hw
  · rw [hchanges]
    split
    · exact List.nodup_nil
    · exact List.nodup_singleton _
  · rw [List.nodup_iff_sublist]
    intro path hsublist
    obtain ⟨twice, htwice, hpaths⟩ := List.sublist_map_iff.1 hsublist
    have hlength : twice.length = 2 := by simpa using (congrArg List.length hpaths).symm
    obtain ⟨c, c', rfl⟩ := List.length_eq_two.1 hlength
    rw [List.map_cons, List.map_singleton, List.cons_eq_cons, List.cons_eq_cons] at hpaths
    obtain ⟨hpath, hpath', -⟩ := hpaths
    obtain ⟨key, path, rfl⟩ := List.exists_cons_of_ne_nil
      (hpath ▸ path_ne_nil c (htwice.subset List.mem_cons_self))
    have hbelow {c : Change} (hc : key :: path = c.path) :
        c.below? key = some ⟨path, c.delta⟩ := by
      rw [Change.below?, ← hc]
      exact if_pos rfl
    have hkey := htwice.filterMap (Change.below? key)
    rw [filterMap_changes (Value.wellFormed_dict.1 hd).1 (Value.wellFormed_dict.1 he).1,
      List.filterMap_cons_some (hbelow hpath), List.filterMap_cons_some (hbelow hpath')] at hkey
    have ihkey := ih key
    generalize d.lookup key = x, e.lookup key = y at hkey ihkey
    cases x with
    | none => cases y <;> exact absurd hkey.length_le (by simp [changesAt])
    | some x =>
      cases y with
      | none => exact absurd hkey.length_le (by simp [changesAt])
      | some y =>
        exact List.nodup_iff_sublist.1 (ihkey x y rfl rfl) path (hkey.map Change.path)

end ForgejoMcp.OpenApi
