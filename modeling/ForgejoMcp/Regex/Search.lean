import ForgejoMcp.Regex.Matching

/-!
# Searching

What a pattern spells between two texts, without the order in which a matcher tries it; anchors,
conditions on what follows, and the search for a match anywhere in a text.
-/

namespace Regex

variable {α : Type}

/-- Texts in a row that are not empty, each of which has the property between its neighbours. -/
inductive Repeats (L : List α → List α → List α → Prop) : List α → List α → List α → Prop
  | nil {before rest : List α} : Repeats L before [] rest
  | cons {before u v rest : List α} (hne : u ≠ []) (hu : L before u (v ++ rest))
      (hv : Repeats L (u.reverse ++ before) v rest) : Repeats L before (u ++ v) rest

/-- The pattern spells a text, given what is before it, nearest first, and after it. -/
def Pattern.Spells : Pattern α → List α → List α → List α → Prop
  | char p, _, w, _ => ∃ c, w = [c] ∧ p c = true
  | look p, before, w, rest => w = [] ∧ p before rest = true
  | cat r₁ r₂, before, w, rest =>
    ∃ u v, w = u ++ v ∧ r₁.Spells before u (v ++ rest) ∧ r₂.Spells (u.reverse ++ before) v rest
  | alt r₁ r₂, before, w, rest => r₁.Spells before w rest ∨ r₂.Spells before w rest
  | star r, before, w, rest => Repeats r.Spells before w rest
  | group _ r, before, w, rest => r.Spells before w rest

open Pattern

variable {s t : State α} {r r₁ r₂ : Pattern α} {p : α → Bool} {before w rest : List α}

theorem Passes.rest_eq (h : Passes s w t) (hs : s.rest = w ++ rest) : t.rest = rest :=
  List.append_cancel_left (h.rest.symm.trans hs)

/-- The step, repeated, spells what it spells in a row. -/
theorem exists_iterate_iff
    (hspells : ∀ (s : State α) w rest, s.rest = w ++ rest →
      ((∃ t ∈ r.run s, Passes s w t) ↔ r.Spells s.before w rest)) :
    ∀ n (s : State α) w rest, s.rest.length ≤ n → s.rest = w ++ rest →
      ((∃ t ∈ iterate r.run n s, Passes s w t) ↔ Repeats r.Spells s.before w rest) := by
  intro n
  induction n with
  | zero =>
    intro s w rest hn hs
    have hrest : s.rest = [] := List.eq_nil_of_length_eq_zero (Nat.le_zero.1 hn)
    obtain ⟨rfl, rfl⟩ := List.append_eq_nil_iff.1 (hs.symm.trans hrest)
    exact ⟨fun _ => .nil, fun _ => ⟨s, List.mem_singleton_self s, .refl s⟩⟩
  | succ n ih =>
    intro s w rest hn hs
    constructor
    · rintro ⟨t, ht, hpass⟩
      rw [iterate, List.mem_append, List.mem_flatMap, List.mem_singleton] at ht
      rcases ht with ⟨u, hu, ht⟩ | rfl
      · obtain ⟨hu, hshort⟩ := List.mem_filter.1 hu
        obtain ⟨a, ha⟩ := exists_passes r s u hu
        obtain ⟨b, hb⟩ := exists_passes_of_iterate (exists_passes r) n u t ht
        obtain rfl := hpass.unique (ha.trans hb)
        have hrest : u.rest = b ++ rest := ha.rest_eq (hs.trans (List.append_assoc _ _ _))
        have hlt : u.rest.length < s.rest.length := of_decide_eq_true hshort
        have hne : a ≠ [] := by
          rintro rfl
          rw [ha.rest, List.nil_append] at hlt
          exact Nat.lt_irrefl _ hlt
        refine .cons hne ((hspells s a _ ?_).1 ⟨u, hu, ha⟩) ?_
        · rw [hs, List.append_assoc]
        · rw [← ha.before]
          exact (ih u b rest (by omega) hrest).1 ⟨t, ht, hb⟩
      · obtain rfl := hpass.unique (.refl t)
        exact .nil
    · intro h
      rw [iterate]
      generalize hbefore : s.before = front at h
      cases h with
      | nil => exact ⟨s, List.mem_append_right _ (List.mem_singleton_self s), .refl s⟩
      | cons hne ha hb =>
        rename_i a b
        rw [List.append_assoc] at hs
        obtain ⟨u, hu, hpass⟩ := (hspells s a _ hs).2 (hbefore ▸ ha)
        have hrest : u.rest = b ++ rest := hpass.rest_eq hs
        have hpos : 0 < a.length := List.length_pos_of_ne_nil hne
        have hlt : u.rest.length < s.rest.length := by
          rw [hs, hrest]
          simp only [List.length_append]
          omega
        rw [← hbefore, ← hpass.before] at hb
        obtain ⟨t, ht, hpass'⟩ := (ih u b rest (by omega) hrest).2 hb
        refine ⟨t, List.mem_append_left _ (List.mem_flatMap.2 ⟨u, ?_, ht⟩), hpass.trans hpass'⟩
        exact List.mem_filter.2 ⟨hu, decide_eq_true hlt⟩

/-- A matcher finds the texts that the pattern spells. -/
theorem spells_iff (r : Pattern α) : ∀ (s : State α) w rest, s.rest = w ++ rest →
    ((∃ t ∈ r.run s, Passes s w t) ↔ r.Spells s.before w rest) := by
  induction r with
  | char p =>
    intro s w rest hs
    constructor
    · rintro ⟨t, ht, hpass⟩
      obtain ⟨c, rest', hrest, hc, rfl⟩ := mem_run_char.1 ht
      exact ⟨c, hpass.unique ⟨hrest, rfl⟩, hc⟩
    · rintro ⟨c, rfl, hc⟩
      exact ⟨s.over [c] rest, mem_run_char.2 ⟨c, rest, hs, hc, rfl⟩, hs, rfl⟩
  | look p =>
    intro s w rest hs
    constructor
    · rintro ⟨t, ht, hpass⟩
      obtain ⟨hp, rfl⟩ := mem_run_look.1 ht
      obtain rfl := hpass.unique (.refl t)
      exact ⟨rfl, by rwa [← List.nil_append rest, ← hs]⟩
    · rintro ⟨rfl, hp⟩
      rw [← List.nil_append rest, ← hs] at hp
      exact ⟨s, mem_run_look.2 ⟨hp, rfl⟩, .refl s⟩
  | cat r₁ r₂ ih₁ ih₂ =>
    intro s w rest hs
    constructor
    · rintro ⟨t, ht, hpass⟩
      obtain ⟨u, hu, ht⟩ := mem_run_cat.1 ht
      obtain ⟨a, ha⟩ := exists_passes r₁ s u hu
      obtain ⟨b, hb⟩ := exists_passes r₂ u t ht
      obtain rfl := hpass.unique (ha.trans hb)
      rw [List.append_assoc] at hs
      refine ⟨a, b, rfl, (ih₁ s a _ hs).1 ⟨u, hu, ha⟩, ?_⟩
      rw [← ha.before]
      exact (ih₂ u b rest (ha.rest_eq hs)).1 ⟨t, ht, hb⟩
    · rintro ⟨a, b, rfl, h₁, h₂⟩
      rw [List.append_assoc] at hs
      obtain ⟨u, hu, ha⟩ := (ih₁ s a _ hs).2 h₁
      rw [← ha.before] at h₂
      obtain ⟨t, ht, hb⟩ := (ih₂ u b rest (ha.rest_eq hs)).2 h₂
      exact ⟨t, mem_run_cat.2 ⟨u, hu, ht⟩, ha.trans hb⟩
  | alt r₁ r₂ ih₁ ih₂ =>
    intro s w rest hs
    rw [Spells, ← ih₁ s w rest hs, ← ih₂ s w rest hs, ← exists_or]
    simp only [mem_run_alt, or_and_right]
  | star r ih => exact fun s w rest => exists_iterate_iff ih _ s w rest (Nat.le_refl _)
  | group name r ih =>
    intro s w rest hs
    rw [Spells, ← ih s w rest hs]
    constructor
    · rintro ⟨t, ht, hpass⟩
      obtain ⟨u, hu, w', -, rfl⟩ := mem_run_group.1 ht
      exact ⟨u, hu, hpass.rest, hpass.before⟩
    · rintro ⟨u, hu, hpass⟩
      exact ⟨_, mem_run_group.2 ⟨u, hu, w, hpass, rfl⟩, hpass.rest, hpass.before⟩

/-- A pattern matches at a place just if it spells what stands there. -/
theorem run_ne_nil_iff : r.run s ≠ [] ↔ ∃ w rest, s.rest = w ++ rest ∧ r.Spells s.before w rest := by
  constructor
  · intro h
    obtain ⟨t, ht⟩ := List.exists_mem_of_ne_nil _ h
    obtain ⟨w, hw⟩ := exists_passes r s t ht
    exact ⟨w, t.rest, hw.rest, (spells_iff r s w _ hw.rest).1 ⟨t, ht, hw⟩⟩
  · rintro ⟨w, rest, hs, h⟩
    obtain ⟨t, ht, -⟩ := (spells_iff r s w rest hs).2 h
    exact List.ne_nil_of_mem ht

/-! ### Derived patterns -/

namespace Pattern

/-- `^`, where it stands for the beginning of the text only. -/
def start : Pattern α := look fun before _ => before.isEmpty

/-- `$`: the end of the text, or the place before a line feed that ends it. -/
def finish [DecidableEq α] (lineFeed : α) : Pattern α :=
  look fun _ rest => decide (rest = [] ∨ rest = [lineFeed])

/-- `(?!r)`. -/
def notAhead (r : Pattern α) : Pattern α :=
  look fun before rest => (r.run ⟨before, rest, []⟩).isEmpty

/-- `r{1,2}`. -/
def onceOrTwice (r : Pattern α) : Pattern α := cat r (opt r)

@[simp] theorem spells_empty : (empty : Pattern α).Spells before w rest ↔ w = [] :=
  and_iff_left rfl

theorem spells_lit [DecidableEq α] {v : List α} : (lit v).Spells before w rest ↔ w = v := by
  induction v generalizing before w with
  | nil => exact spells_empty
  | cons c v ih =>
    constructor
    · rintro ⟨a, b, rfl, ⟨d, rfl, hd⟩, hb⟩
      rw [ih.1 hb, of_decide_eq_true hd]
      rfl
    · rintro rfl
      exact ⟨[c], v, rfl, ⟨c, rfl, decide_eq_true rfl⟩, ih.2 rfl⟩

theorem spells_star_char : (star (char p)).Spells before w rest ↔ ∀ c ∈ w, p c = true := by
  constructor
  · intro h
    rw [Spells] at h
    induction h with
    | nil => exact fun c hc => (List.not_mem_nil hc).elim
    | cons hne hu hv ih =>
      obtain ⟨c, rfl, hc⟩ := hu
      exact List.forall_mem_cons.2 ⟨hc, ih⟩
  · intro h
    rw [Spells]
    induction w generalizing before with
    | nil => exact .nil
    | cons c w ih =>
      obtain ⟨hc, hw⟩ := List.forall_mem_cons.1 h
      exact .cons (List.cons_ne_nil c []) ⟨c, rfl, hc⟩ (ih hw)

theorem spells_plus_char : (plus (char p)).Spells before w rest ↔ w ≠ [] ∧ ∀ c ∈ w, p c = true := by
  constructor
  · rintro ⟨a, b, rfl, ⟨c, rfl, hc⟩, hb⟩
    exact ⟨List.cons_ne_nil c b, List.forall_mem_cons.2 ⟨hc, spells_star_char.1 hb⟩⟩
  · rintro ⟨hne, hw⟩
    obtain ⟨c, w, rfl⟩ := List.exists_cons_of_ne_nil hne
    obtain ⟨hc, hw⟩ := List.forall_mem_cons.1 hw
    exact ⟨[c], w, rfl, ⟨c, rfl, hc⟩, spells_star_char.2 hw⟩

theorem spells_onceOrTwice_lit [DecidableEq α] {v : List α} :
    (onceOrTwice (lit v)).Spells before w rest ↔ w = v ∨ w = v ++ v := by
  constructor
  · rintro ⟨a, b, rfl, ha, hb⟩
    rw [spells_lit.1 ha]
    exact hb.symm.imp (fun hnil => by rw [spells_empty.1 hnil, List.append_nil])
      fun hb => by rw [spells_lit.1 hb]
  · rintro (rfl | rfl)
    · exact ⟨w, [], (List.append_nil w).symm, spells_lit.2 rfl, .inr (spells_empty.2 rfl)⟩
    · exact ⟨v, v, rfl, spells_lit.2 rfl, .inl (spells_lit.2 rfl)⟩

@[simp] theorem spells_start : (start : Pattern α).Spells before w rest ↔ w = [] ∧ before = [] := by
  rw [start, Spells, List.isEmpty_iff]

@[simp] theorem spells_finish [DecidableEq α] {lineFeed : α} :
    (finish lineFeed).Spells before w rest ↔ w = [] ∧ (rest = [] ∨ rest = [lineFeed]) := by
  rw [finish, Spells, decide_eq_true_iff]

theorem spells_notAhead : (notAhead r).Spells before w rest ↔
    w = [] ∧ ∀ a b, rest = a ++ b → ¬r.Spells before a b := by
  have hrun : r.run ⟨before, rest, []⟩ = [] ↔ ∀ a b, rest = a ++ b → ¬r.Spells before a b := by
    rw [← not_iff_not, ← ne_eq, run_ne_nil_iff]
    simp only [not_forall, not_not, exists_prop]
  rw [notAhead, Spells, List.isEmpty_iff, hrun]

/-- The pattern spells what a text begins with. -/
def Begins (r : Pattern α) (before text : List α) : Prop :=
  ∃ w rest, text = w ++ rest ∧ r.Spells before w rest

theorem begins_cat : (cat r₁ r₂).Begins before rest ↔
    ∃ u t, rest = u ++ t ∧ r₁.Spells before u t ∧ r₂.Begins (u.reverse ++ before) t := by
  constructor
  · rintro ⟨w, t, rfl, u, v, rfl, h₁, h₂⟩
    exact ⟨u, v ++ t, List.append_assoc _ _ _, h₁, v, t, rfl, h₂⟩
  · rintro ⟨u, _, rfl, h₁, v, t, rfl, h₂⟩
    exact ⟨u ++ v, t, (List.append_assoc _ _ _).symm, u, v, rfl, h₁, h₂⟩

theorem begins_alt : (alt r₁ r₂).Begins before rest ↔ r₁.Begins before rest ∨ r₂.Begins before rest := by
  simp only [Begins, Spells, and_or_left, exists_or]

/-- What follows a condition on the text ahead begins at the same place. -/
theorem begins_cat_notAhead : (cat (notAhead r₁) r₂).Begins before rest ↔
    ¬r₁.Begins before rest ∧ r₂.Begins before rest := by
  rw [begins_cat]
  constructor
  · rintro ⟨u, t, rfl, h₁, h₂⟩
    obtain ⟨rfl, hnot⟩ := spells_notAhead.1 h₁
    exact ⟨fun ⟨a, b, htext, h⟩ => hnot a b htext h, h₂⟩
  · rintro ⟨hnot, h₂⟩
    exact ⟨[], rest, rfl, spells_notAhead.2 ⟨rfl, fun a b htext h => hnot ⟨a, b, htext, h⟩⟩, h₂⟩

theorem begins_lit [DecidableEq α] {v : List α} : (lit v).Begins before rest ↔ v <+: rest := by
  constructor
  · rintro ⟨w, t, rfl, h⟩
    exact ⟨t, by rw [spells_lit.1 h]⟩
  · rintro ⟨t, rfl⟩
    exact ⟨v, t, rfl, spells_lit.2 rfl⟩

theorem begins_finish [DecidableEq α] {lineFeed : α} :
    (finish lineFeed).Begins before rest ↔ rest = [] ∨ rest = [lineFeed] := by
  constructor
  · rintro ⟨w, t, rfl, h⟩
    obtain ⟨rfl, hend⟩ := spells_finish.1 h
    exact hend
  · exact fun h => ⟨[], rest, rfl, spells_finish.2 ⟨rfl, h⟩⟩

/-! ### Searching -/

/-- `re.search(r, s) is not None`, after the text `before`. -/
def searchFrom (r : Pattern α) : List α → List α → Bool
  | before, [] => !(r.run ⟨before, [], []⟩).isEmpty
  | before, c :: rest => !(r.run ⟨before, c :: rest, []⟩).isEmpty || r.searchFrom (c :: before) rest

/-- `re.search(r, s) is not None`. -/
def search (r : Pattern α) (s : List α) : Bool := r.searchFrom [] s

theorem searchFrom_iff {text : List α} : r.searchFrom before text = true ↔
    ∃ a w rest, text = a ++ (w ++ rest) ∧ r.Spells (a.reverse ++ before) w rest := by
  have hhere {before text : List α} : (!(r.run ⟨before, text, []⟩).isEmpty) = true ↔
      ∃ w rest, text = w ++ rest ∧ r.Spells before w rest := by
    rw [Bool.not_eq_true', List.isEmpty_eq_false_iff, run_ne_nil_iff]
  induction text generalizing before with
  | nil =>
    rw [searchFrom, hhere]
    constructor
    · rintro ⟨w, rest, htext, h⟩
      exact ⟨[], w, rest, htext, h⟩
    · rintro ⟨a, w, rest, htext, h⟩
      obtain ⟨rfl, hnil⟩ := List.append_eq_nil_iff.1 htext.symm
      exact ⟨w, rest, hnil.symm, h⟩
  | cons c text ih =>
    rw [searchFrom, Bool.or_eq_true, hhere]
    constructor
    · rintro (⟨w, rest, htext, h⟩ | h)
      · exact ⟨[], w, rest, htext, h⟩
      · obtain ⟨a, w, rest, rfl, h⟩ := ih.1 h
        refine ⟨c :: a, w, rest, rfl, ?_⟩
        rwa [List.reverse_cons, List.append_assoc]
    · rintro ⟨a, w, rest, htext, h⟩
      cases a with
      | nil => exact .inl ⟨w, rest, htext, h⟩
      | cons d a =>
        obtain ⟨rfl, rfl⟩ := List.cons_eq_cons.1 htext
        refine .inr (ih.2 ⟨a, w, rest, rfl, ?_⟩)
        rwa [List.reverse_cons, List.append_assoc] at h

/-- A pattern that begins with `^` is found at the beginning or not at all. -/
theorem search_cat_start {text : List α} : (cat start r).search text = true ↔
    r.Begins [] text := by
  rw [search, searchFrom_iff]
  constructor
  · rintro ⟨a, w, rest, rfl, u, v, rfl, hstart, hr⟩
    obtain ⟨rfl, hfront⟩ := spells_start.1 hstart
    rw [List.append_nil, List.reverse_eq_nil_iff] at hfront
    subst hfront
    exact ⟨v, rest, rfl, hr⟩
  · rintro ⟨w, rest, rfl, h⟩
    exact ⟨[], w, rest, rfl, [], w, rfl, spells_start.2 ⟨rfl, rfl⟩, h⟩

end Pattern

end Regex
