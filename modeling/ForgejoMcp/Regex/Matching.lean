import Mathlib

/-!
# Backtracking regular expressions

Patterns with captures and zero-width conditions.  `run` lists the ways in which a pattern matches
from a place on, in the order in which a backtracking matcher tries them; the first one is the match.
-/

namespace Regex

variable {α : Type}

/-- Patterns over an alphabet.  A zero-width condition is given the text before the place, nearest
first, and the text after it; repetition is greedy. -/
inductive Pattern (α : Type) : Type
  | char (p : α → Bool)
  | look (p : List α → List α → Bool)
  | cat (r s : Pattern α)
  | alt (r s : Pattern α)
  | star (r : Pattern α)
  | group (name : String) (r : Pattern α)

/-- A place in a text: what is before it, nearest first, what is after it, and the groups captured
so far, latest first. -/
structure State (α : Type) where
  before : List α
  rest : List α
  groups : List (String × List α)

/-- The state after the text `w`. -/
def State.over (s : State α) (w rest : List α) : State α := ⟨w.reverse ++ s.before, rest, s.groups⟩

/-- Up to `n` steps that each consume something, the longest sequences first. -/
def iterate (step : State α → List (State α)) : ℕ → State α → List (State α)
  | 0, s => [s]
  | n + 1, s =>
      ((step s).filter fun t => decide (t.rest.length < s.rest.length)).flatMap (iterate step n) ++ [s]

namespace Pattern

/-- The states after the matches of a pattern, in the order in which they are tried. -/
def run : Pattern α → State α → List (State α)
  | char p, s =>
    match s.rest with
    | [] => []
    | c :: rest => if p c then [s.over [c] rest] else []
  | look p, s => if p s.before s.rest then [s] else []
  | cat r₁ r₂, s => (r₁.run s).flatMap r₂.run
  | alt r₁ r₂, s => r₁.run s ++ r₂.run s
  | star r, s => iterate r.run s.rest.length s
  | group name r, s => (r.run s).map fun t =>
      { t with groups := (name, s.rest.take (s.rest.length - t.rest.length)) :: t.groups }

/-! ### Derived patterns -/

/-- The pattern of the empty text. -/
def empty : Pattern α := look fun _ _ => true

/-- The pattern of a word. -/
def lit [DecidableEq α] : List α → Pattern α
  | [] => empty
  | c :: w => cat (char fun x => decide (x = c)) (lit w)

/-- `r+`. -/
def plus (r : Pattern α) : Pattern α := cat r (star r)

/-- `r?`. -/
def opt (r : Pattern α) : Pattern α := alt r empty

/-- `r{n}`. -/
def exactly (r : Pattern α) : ℕ → Pattern α
  | 0 => empty
  | n + 1 => cat r (exactly r n)

/-- `r{n,}`. -/
def atLeast (r : Pattern α) (n : ℕ) : Pattern α := cat (exactly r n) (star r)

end Pattern

open Pattern

variable {s t : State α} {p : α → Bool} {w : List α}

/-! ### What a match consumes -/

@[simp] theorem State.over_before (s : State α) (w rest : List α) :
    (s.over w rest).before = w.reverse ++ s.before := rfl

@[simp] theorem State.over_rest (s : State α) (w rest : List α) : (s.over w rest).rest = rest := rfl

@[simp] theorem State.over_groups (s : State α) (w rest : List α) :
    (s.over w rest).groups = s.groups := rfl

theorem State.over_over (s : State α) (w w' rest rest' : List α) :
    (s.over w rest').over w' rest = s.over (w ++ w') rest := by
  simp [State.over]

theorem State.over_nil (s : State α) : s.over [] s.rest = s := rfl

theorem State.over_nil_of_rest {rest : List α} (h : s.rest = rest) : s.over [] rest = s := h ▸ rfl

/-- The state `t` comes after the text `w` of the state `s`. -/
structure Passes (s : State α) (w : List α) (t : State α) : Prop where
  rest : s.rest = w ++ t.rest
  before : t.before = w.reverse ++ s.before

theorem Passes.refl (s : State α) : Passes s [] s := ⟨rfl, rfl⟩

theorem Passes.trans {u : State α} {w' : List α} (h : Passes s w t) (h' : Passes t w' u) :
    Passes s (w ++ w') u where
  rest := by rw [h.rest, h'.rest, List.append_assoc]
  before := by rw [h'.before, h.before, List.reverse_append, List.append_assoc]

theorem Passes.unique {w' : List α} (h : Passes s w t) (h' : Passes s w' t) : w = w' :=
  List.append_cancel_right (h.rest.symm.trans h'.rest)

theorem Passes.length_le (h : Passes s w t) : t.rest.length ≤ s.rest.length := by
  rw [h.rest, List.length_append]
  exact Nat.le_add_left _ _

theorem exists_passes_of_iterate {step : State α → List (State α)}
    (h : ∀ s, ∀ t ∈ step s, ∃ w, Passes s w t) (n : ℕ) :
    ∀ s, ∀ t ∈ iterate step n s, ∃ w, Passes s w t := by
  induction n with
  | zero =>
    intro s t ht
    rw [iterate, List.mem_singleton] at ht
    exact ⟨[], ht ▸ .refl s⟩
  | succ n ih =>
    intro s t ht
    rw [iterate, List.mem_append, List.mem_flatMap, List.mem_singleton] at ht
    rcases ht with ⟨u, hu, ht⟩ | rfl
    · obtain ⟨w, hw⟩ := h s u (List.mem_filter.1 hu).1
      obtain ⟨w', hw'⟩ := ih u t ht
      exact ⟨w ++ w', hw.trans hw'⟩
    · exact ⟨[], .refl _⟩

/-- A match consumes some of the text at its place. -/
theorem exists_passes (r : Pattern α) : ∀ s, ∀ t ∈ r.run s, ∃ w, Passes s w t := by
  induction r with
  | char p =>
    intro s t ht
    rw [run] at ht
    split at ht
    · cases ht
    · rename_i c rest hrest
      split at ht
      · rw [List.mem_singleton.1 ht]
        exact ⟨[c], hrest, rfl⟩
      · cases ht
  | look p =>
    intro s t ht
    rw [run] at ht
    split at ht
    · rw [List.mem_singleton.1 ht]
      exact ⟨[], .refl s⟩
    · cases ht
  | cat r₁ r₂ ih₁ ih₂ =>
    intro s t ht
    obtain ⟨u, hu, ht⟩ := List.mem_flatMap.1 ht
    obtain ⟨w, hw⟩ := ih₁ s u hu
    obtain ⟨w', hw'⟩ := ih₂ u t ht
    exact ⟨w ++ w', hw.trans hw'⟩
  | alt r₁ r₂ ih₁ ih₂ => exact fun s t ht => (List.mem_append.1 ht).elim (ih₁ s t) (ih₂ s t)
  | star r ih => exact fun s => exists_passes_of_iterate ih _ s
  | group name r ih =>
    intro s t ht
    obtain ⟨u, hu, rfl⟩ := List.mem_map.1 ht
    obtain ⟨w, hw⟩ := ih s u hu
    exact ⟨w, hw.rest, hw.before⟩

/-! ### The matches of each pattern -/

theorem mem_run_char : t ∈ (char p).run s ↔
    ∃ c rest, s.rest = c :: rest ∧ p c = true ∧ t = s.over [c] rest := by
  rw [run]
  cases hs : s.rest with
  | nil => simp
  | cons c rest =>
    dsimp only
    split
    · rename_i hp
      rw [List.mem_singleton]
      constructor
      · exact fun h => ⟨c, rest, rfl, hp, h⟩
      · rintro ⟨c', rest', hrest, -, ht⟩
        cases hrest
        exact ht
    · rename_i hp
      constructor
      · rintro ⟨⟩
      · rintro ⟨c', rest', hrest, hp', -⟩
        cases hrest
        exact absurd hp' hp

theorem mem_run_look {p : List α → List α → Bool} :
    t ∈ (look p).run s ↔ p s.before s.rest = true ∧ t = s := by
  rw [run]
  split
  · rename_i hp
    rw [List.mem_singleton]
    exact ⟨fun h => ⟨hp, h⟩, And.right⟩
  · rename_i hp
    constructor
    · rintro ⟨⟩
    · exact fun h => absurd h.1 hp

theorem mem_run_empty : t ∈ (empty : Pattern α).run s ↔ t = s := by
  rw [empty, mem_run_look]
  exact and_iff_right rfl

theorem mem_run_cat {r₁ r₂ : Pattern α} :
    t ∈ (cat r₁ r₂).run s ↔ ∃ u ∈ r₁.run s, t ∈ r₂.run u :=
  List.mem_flatMap

theorem mem_run_alt {r₁ r₂ : Pattern α} : t ∈ (alt r₁ r₂).run s ↔ t ∈ r₁.run s ∨ t ∈ r₂.run s :=
  List.mem_append

theorem Passes.take (h : Passes s w t) : s.rest.take (s.rest.length - t.rest.length) = w := by
  rw [h.rest, List.length_append, Nat.add_sub_cancel, List.take_left]

theorem mem_run_group {name : String} {r : Pattern α} : t ∈ (group name r).run s ↔
    ∃ u ∈ r.run s, ∃ w, Passes s w u ∧ t = { u with groups := (name, w) :: u.groups } := by
  rw [run, List.mem_map]
  constructor
  · rintro ⟨u, hu, rfl⟩
    obtain ⟨w, hw⟩ := exists_passes r s u hu
    exact ⟨u, hu, w, hw, by rw [hw.take]⟩
  · rintro ⟨u, hu, w, hw, rfl⟩
    exact ⟨u, hu, by rw [hw.take]⟩

theorem mem_run_lit [DecidableEq α] :
    t ∈ (lit w).run s ↔ ∃ rest, s.rest = w ++ rest ∧ t = s.over w rest := by
  induction w generalizing s with
  | nil => simp [lit, mem_run_empty, State.over_nil]
  | cons c w ih =>
    rw [lit, mem_run_cat]
    constructor
    · rintro ⟨u, hu, ht⟩
      obtain ⟨c', rest, hrest, hc, rfl⟩ := mem_run_char.1 hu
      obtain ⟨rest', hrest', rfl⟩ := ih.1 ht
      rw [State.over_rest] at hrest'
      rw [of_decide_eq_true hc, hrest'] at hrest
      rw [of_decide_eq_true hc, State.over_over]
      exact ⟨rest', hrest, rfl⟩
    · rintro ⟨rest, hrest, rfl⟩
      refine ⟨s.over [c] (w ++ rest), mem_run_char.2 ⟨c, _, hrest, decide_eq_true rfl, rfl⟩, ?_⟩
      refine ih.2 ⟨rest, rfl, ?_⟩
      rw [State.over_over]
      rfl

theorem mem_iterate_char {n : ℕ} (hn : s.rest.length ≤ n) : t ∈ iterate (char p).run n s ↔
    ∃ w rest, s.rest = w ++ rest ∧ (∀ c ∈ w, p c = true) ∧ t = s.over w rest := by
  have stays : ∃ w rest, s.rest = w ++ rest ∧ (∀ c ∈ w, p c = true) ∧ s = s.over w rest :=
    ⟨[], s.rest, rfl, fun c hc => (List.not_mem_nil hc).elim, s.over_nil.symm⟩
  induction n generalizing s with
  | zero =>
    rw [iterate, List.mem_singleton]
    constructor
    · rintro rfl
      exact stays
    · rintro ⟨w, rest, hrest, -, rfl⟩
      have hnil : w = [] := by
        rw [hrest, List.length_append] at hn
        exact List.eq_nil_of_length_eq_zero (by omega)
      subst hnil
      exact s.over_nil_of_rest hrest
  | succ n ih =>
    rw [iterate, List.mem_append, List.mem_flatMap, List.mem_singleton]
    constructor
    · rintro (⟨u, hu, ht⟩ | rfl)
      · obtain ⟨c, rest, hrest, hc, rfl⟩ := mem_run_char.1 (List.mem_filter.1 hu).1
        have hlength : (s.over [c] rest).rest.length ≤ n := by
          rw [hrest, List.length_cons] at hn
          exact Nat.le_of_succ_le_succ hn
        obtain ⟨w, rest', hrest', hw, rfl⟩ := (ih hlength ⟨[], rest, rfl,
          fun c hc => (List.not_mem_nil hc).elim, rfl⟩).1 ht
        refine ⟨c :: w, rest', by rw [hrest, ← s.over_rest [c] rest, hrest']; rfl, ?_, ?_⟩
        · exact List.forall_mem_cons.2 ⟨hc, hw⟩
        · rw [State.over_over]
          rfl
      · exact stays
    · rintro ⟨w, rest, hrest, hw, rfl⟩
      cases w with
      | nil => exact .inr (s.over_nil_of_rest hrest)
      | cons c w =>
        refine .inl ⟨s.over [c] (w ++ rest), List.mem_filter.2 ⟨mem_run_char.2
          ⟨c, _, hrest, hw c List.mem_cons_self, rfl⟩, ?_⟩, ?_⟩
        · rw [decide_eq_true_iff, hrest, State.over_rest, List.cons_append, List.length_cons]
          exact Nat.lt_succ_self _
        · have hlength : (s.over [c] (w ++ rest)).rest.length ≤ n := by
            rw [hrest, List.cons_append, List.length_cons] at hn
            exact Nat.le_of_succ_le_succ hn
          refine (ih hlength ⟨[], _, rfl, fun c hc => (List.not_mem_nil hc).elim, rfl⟩).2
            ⟨w, rest, rfl, (List.forall_mem_cons.1 hw).2, ?_⟩
          rw [State.over_over]
          rfl

theorem mem_run_star_char : t ∈ (star (char p)).run s ↔
    ∃ w rest, s.rest = w ++ rest ∧ (∀ c ∈ w, p c = true) ∧ t = s.over w rest :=
  mem_iterate_char (Nat.le_refl _)

theorem mem_run_plus_char : t ∈ (plus (char p)).run s ↔
    ∃ w rest, s.rest = w ++ rest ∧ w ≠ [] ∧ (∀ c ∈ w, p c = true) ∧ t = s.over w rest := by
  rw [plus, mem_run_cat]
  constructor
  · rintro ⟨u, hu, ht⟩
    obtain ⟨c, rest, hrest, hc, rfl⟩ := mem_run_char.1 hu
    obtain ⟨w, rest', hrest', hw, rfl⟩ := mem_run_star_char.1 ht
    rw [State.over_rest] at hrest'
    rw [State.over_over]
    exact ⟨c :: w, rest', by rw [hrest, hrest']; rfl, List.cons_ne_nil c w,
      List.forall_mem_cons.2 ⟨hc, hw⟩, rfl⟩
  · rintro ⟨w, rest, hrest, hne, hw, rfl⟩
    obtain ⟨c, w, rfl⟩ := List.exists_cons_of_ne_nil hne
    obtain ⟨hc, hw⟩ := List.forall_mem_cons.1 hw
    refine ⟨s.over [c] (w ++ rest), mem_run_char.2 ⟨c, _, hrest, hc, rfl⟩, ?_⟩
    refine mem_run_star_char.2 ⟨w, rest, rfl, hw, ?_⟩
    rw [State.over_over]
    rfl

theorem mem_run_exactly_char {n : ℕ} : t ∈ (exactly (char p) n).run s ↔
    ∃ w rest, s.rest = w ++ rest ∧ w.length = n ∧ (∀ c ∈ w, p c = true) ∧ t = s.over w rest := by
  induction n generalizing s with
  | zero =>
    rw [exactly, mem_run_empty]
    constructor
    · rintro rfl
      exact ⟨[], _, rfl, rfl, fun c hc => (List.not_mem_nil hc).elim, t.over_nil.symm⟩
    · rintro ⟨w, rest, hrest, hlength, -, rfl⟩
      rw [List.eq_nil_of_length_eq_zero hlength] at hrest ⊢
      exact s.over_nil_of_rest hrest
  | succ n ih =>
    rw [exactly, mem_run_cat]
    constructor
    · rintro ⟨u, hu, ht⟩
      obtain ⟨c, rest, hrest, hc, rfl⟩ := mem_run_char.1 hu
      obtain ⟨w, rest', hrest', hlength, hw, rfl⟩ := ih.1 ht
      rw [State.over_rest] at hrest'
      rw [State.over_over]
      exact ⟨c :: w, rest', by rw [hrest, hrest']; rfl, congrArg (· + 1) hlength,
        List.forall_mem_cons.2 ⟨hc, hw⟩, rfl⟩
    · rintro ⟨w, rest, hrest, hlength, hw, rfl⟩
      cases w with
      | nil => cases hlength
      | cons c w =>
        obtain ⟨hc, hw⟩ := List.forall_mem_cons.1 hw
        refine ⟨s.over [c] (w ++ rest), mem_run_char.2 ⟨c, _, hrest, hc, rfl⟩, ?_⟩
        refine ih.2 ⟨w, rest, rfl, Nat.succ.inj hlength, hw, ?_⟩
        rw [State.over_over]
        rfl

/-! ### The characters of a match -/

/-- All characters that the pattern matches have the property. -/
def Pattern.Within (P : α → Prop) : Pattern α → Prop
  | char p => ∀ c, p c = true → P c
  | look _ => True
  | cat r₁ r₂ => r₁.Within P ∧ r₂.Within P
  | alt r₁ r₂ => r₁.Within P ∧ r₂.Within P
  | star r => r.Within P
  | group _ r => r.Within P

variable {P : α → Prop}

theorem Pattern.within_lit [DecidableEq α] (h : ∀ c ∈ w, P c) : (lit w).Within P := by
  induction w with
  | nil => exact trivial
  | cons c w ih =>
    obtain ⟨hc, hw⟩ := List.forall_mem_cons.1 h
    exact ⟨fun d hd => of_decide_eq_true hd ▸ hc, ih hw⟩

theorem Pattern.within_lit_of_all [DecidableEq α] [DecidablePred P]
    (h : (w.all fun c => decide (P c)) = true) : (lit w).Within P :=
  within_lit fun c hc => of_decide_eq_true (List.all_eq_true.1 h c hc)

theorem forall_mem_of_iterate {step : State α → List (State α)}
    (h : ∀ s, ∀ t ∈ step s, ∃ w, Passes s w t ∧ ∀ c ∈ w, P c) (n : ℕ) :
    ∀ s, ∀ t ∈ iterate step n s, ∃ w, Passes s w t ∧ ∀ c ∈ w, P c := by
  have stays : ∀ s : State α, ∃ w, Passes s w s ∧ ∀ c ∈ w, P c :=
    fun s => ⟨[], .refl s, fun c hc => (List.not_mem_nil hc).elim⟩
  induction n with
  | zero =>
    intro s t ht
    rw [iterate, List.mem_singleton] at ht
    exact ht ▸ stays s
  | succ n ih =>
    intro s t ht
    rw [iterate, List.mem_append, List.mem_flatMap, List.mem_singleton] at ht
    rcases ht with ⟨u, hu, ht⟩ | rfl
    · obtain ⟨w, hw, hP⟩ := h s u (List.mem_filter.1 hu).1
      obtain ⟨w', hw', hP'⟩ := ih u t ht
      exact ⟨w ++ w', hw.trans hw', List.forall_mem_append.2 ⟨hP, hP'⟩⟩
    · exact stays _

theorem Pattern.Within.exists_passes {r : Pattern α} (h : r.Within P) :
    ∀ s, ∀ t ∈ r.run s, ∃ w, Passes s w t ∧ ∀ c ∈ w, P c := by
  induction r with
  | char p =>
    intro s t ht
    obtain ⟨c, rest, hrest, hc, rfl⟩ := mem_run_char.1 ht
    exact ⟨[c], ⟨hrest, rfl⟩, fun d hd => List.mem_singleton.1 hd ▸ h c hc⟩
  | look p =>
    intro s t ht
    obtain ⟨-, rfl⟩ := mem_run_look.1 ht
    exact ⟨[], .refl _, fun c hc => (List.not_mem_nil hc).elim⟩
  | cat r₁ r₂ ih₁ ih₂ =>
    intro s t ht
    obtain ⟨u, hu, ht⟩ := mem_run_cat.1 ht
    obtain ⟨w, hw, hP⟩ := ih₁ h.1 s u hu
    obtain ⟨w', hw', hP'⟩ := ih₂ h.2 u t ht
    exact ⟨w ++ w', hw.trans hw', List.forall_mem_append.2 ⟨hP, hP'⟩⟩
  | alt r₁ r₂ ih₁ ih₂ =>
    exact fun s t ht => (mem_run_alt.1 ht).elim (ih₁ h.1 s t) (ih₂ h.2 s t)
  | star r ih => exact fun s => forall_mem_of_iterate (ih h) _ s
  | group name r ih =>
    intro s t ht
    obtain ⟨u, hu, w, hw, rfl⟩ := mem_run_group.1 ht
    obtain ⟨w', hw', hP⟩ := ih h s u hu
    exact ⟨w', ⟨hw'.rest, hw'.before⟩, hP⟩

/-- A match of the pattern is empty or ends in a character with the property. -/
def Pattern.Ends (r : Pattern α) (P : α → Prop) : Prop :=
  ∀ s, ∀ t ∈ r.run s, ∃ w, Passes s w t ∧ ∀ c ∈ w.getLast?, P c

theorem Pattern.Within.ends {r : Pattern α} (h : r.Within P) : r.Ends P := fun s t ht => by
  obtain ⟨w, hw, hP⟩ := h.exists_passes s t ht
  exact ⟨w, hw, fun c hc => hP c (List.mem_of_getLast? hc)⟩

theorem Pattern.Ends.cat {r₁ r₂ : Pattern α} (h₁ : r₁.Ends P) (h₂ : r₂.Ends P) :
    (cat r₁ r₂).Ends P := fun s t ht => by
  obtain ⟨u, hu, ht⟩ := mem_run_cat.1 ht
  obtain ⟨w, hw, hP⟩ := h₁ s u hu
  obtain ⟨w', hw', hP'⟩ := h₂ u t ht
  refine ⟨w ++ w', hw.trans hw', fun c hc => ?_⟩
  rcases List.eq_nil_or_concat w' with rfl | ⟨w', d, rfl⟩
  · rw [List.append_nil] at hc
    exact hP c hc
  · exact hP' c (by simpa using hc)

theorem Pattern.Ends.alt {r₁ r₂ : Pattern α} (h₁ : r₁.Ends P) (h₂ : r₂.Ends P) :
    (alt r₁ r₂).Ends P := fun s t ht => (mem_run_alt.1 ht).elim (h₁ s t) (h₂ s t)

/-- Only the end of the second pattern counts if it does not match the empty text. -/
theorem Pattern.Ends.cat_of_ne {r₁ r₂ : Pattern α} (h : r₂.Ends P)
    (hne : ∀ s, ∀ t ∈ r₂.run s, t.rest.length < s.rest.length) : (Pattern.cat r₁ r₂).Ends P :=
  fun s t ht => by
    obtain ⟨u, hu, ht⟩ := mem_run_cat.1 ht
    obtain ⟨w, hw⟩ := exists_passes r₁ s u hu
    obtain ⟨w', hw', hP⟩ := h u t ht
    refine ⟨w ++ w', hw.trans hw', fun c hc => ?_⟩
    rcases List.eq_nil_or_concat w' with rfl | ⟨w', d, rfl⟩
    · have hlt := hne u t ht
      rw [hw'.rest, List.nil_append] at hlt
      exact absurd hlt (Nat.lt_irrefl _)
    · exact hP c (by simpa using hc)

/-! ### Which match is the first -/

/-- At most one match at every place. -/
def Pattern.Single (r : Pattern α) : Prop := ∀ s, (r.run s).length ≤ 1

/-- Longer matches are tried before shorter ones. -/
def Pattern.Greedy (r : Pattern α) : Prop :=
  ∀ s, (r.run s).Pairwise fun t u => t.rest.length < u.rest.length

theorem Pattern.single_char (p : α → Bool) : (char p).Single := fun s => by
  rw [run]
  split
  · exact Nat.zero_le 1
  · split
    · exact Nat.le_refl 1
    · exact Nat.zero_le 1

theorem Pattern.single_look (p : List α → List α → Bool) : (look p).Single := fun s => by
  rw [run]
  split
  · exact Nat.le_refl 1
  · exact Nat.zero_le 1

theorem Pattern.Single.cat {r₁ r₂ : Pattern α} (h₁ : r₁.Single) (h₂ : r₂.Single) :
    (cat r₁ r₂).Single := fun s => by
  have hone := h₁ s
  rw [run]
  match h : r₁.run s with
  | [] => exact Nat.zero_le 1
  | [u] =>
    rw [List.flatMap_singleton]
    exact h₂ u
  | u :: v :: us =>
    rw [h] at hone
    exact absurd hone (by simp)

theorem Pattern.single_lit [DecidableEq α] (w : List α) : (lit w).Single := by
  induction w with
  | nil => exact single_look _
  | cons c w ih => exact (single_char _).cat ih

theorem Pattern.Single.exactly {r : Pattern α} (h : r.Single) (n : ℕ) : (exactly r n).Single := by
  induction n with
  | zero => exact single_look _
  | succ n ih => exact h.cat ih

theorem Pattern.Single.greedy {r : Pattern α} (h : r.Single) : r.Greedy := fun s => by
  have hone := h s
  match hr : r.run s with
  | [] => exact List.Pairwise.nil
  | [u] => exact List.pairwise_singleton _ u
  | u :: v :: us =>
    rw [hr] at hone
    exact absurd hone (by simp)

/-- A greedy pattern all of whose matches at a place have the same length has one match. -/
theorem Pattern.Greedy.single {r : Pattern α} (h : r.Greedy)
    (heq : ∀ s, ∀ t ∈ r.run s, ∀ u ∈ r.run s, t.rest.length = u.rest.length) : r.Single := fun s => by
  have hpair := h s
  have hall := heq s
  match hr : r.run s with
  | [] => exact Nat.zero_le 1
  | [u] => exact Nat.le_refl 1
  | u :: v :: us =>
    rw [hr] at hpair hall
    have hlt := (List.pairwise_cons.1 hpair).1 v List.mem_cons_self
    have hsame := hall u List.mem_cons_self v (List.mem_cons_of_mem _ List.mem_cons_self)
    omega

/-- A greedy pattern followed by one that consumes a fixed number of characters. -/
theorem Pattern.Greedy.cat_fixed {r₁ r₂ : Pattern α} {n : ℕ} (h₁ : r₁.Greedy) (h₂ : r₂.Single)
    (hn : ∀ s, ∀ t ∈ r₂.run s, s.rest.length = t.rest.length + n) : (cat r₁ r₂).Greedy := fun s => by
  rw [run, List.pairwise_flatMap]
  refine ⟨fun u _ => h₂.greedy u, (h₁ s).imp fun hlt t ht u hu => ?_⟩
  have ht' := hn _ t ht
  have hu' := hn _ u hu
  omega

/-- A pattern with one match followed by a greedy one. -/
theorem Pattern.Single.cat_greedy {r₁ r₂ : Pattern α} (h₁ : r₁.Single) (h₂ : r₂.Greedy) :
    (Pattern.cat r₁ r₂).Greedy := fun s => by
  have hone := h₁ s
  rw [run]
  match h : r₁.run s with
  | [] => exact List.Pairwise.nil
  | [u] =>
    rw [List.flatMap_singleton]
    exact h₂ u
  | u :: v :: us =>
    rw [h] at hone
    exact absurd hone (by simp)

theorem Pattern.Greedy.group {r : Pattern α} (h : r.Greedy) (name : String) :
    (group name r).Greedy := fun s => by
  rw [run, List.pairwise_map]
  exact h s

theorem Pattern.Single.group {r : Pattern α} (h : r.Single) (name : String) :
    (group name r).Single := fun s => by
  rw [run, List.length_map]
  exact h s

theorem pairwise_iterate_char (n : ℕ) : ∀ s : State α,
    (iterate (char p).run n s).Pairwise (fun t u => t.rest.length < u.rest.length) ∧
      ∀ t ∈ iterate (char p).run n s, t.rest.length ≤ s.rest.length := by
  induction n with
  | zero =>
    intro s
    rw [iterate]
    exact ⟨List.pairwise_singleton _ _, fun t ht => List.mem_singleton.1 ht ▸ Nat.le_refl _⟩
  | succ n ih =>
    intro s
    have shorter : ∀ t ∈ ((char p).run s |>.filter fun t =>
        decide (t.rest.length < s.rest.length)).flatMap (iterate (char p).run n),
        t.rest.length < s.rest.length := by
      intro t ht
      obtain ⟨u, hu, ht⟩ := List.mem_flatMap.1 ht
      exact Nat.lt_of_le_of_lt ((ih u).2 t ht) (of_decide_eq_true (List.mem_filter.1 hu).2)
    rw [iterate]
    refine ⟨List.pairwise_append.2 ⟨?_, List.pairwise_singleton _ _, fun t ht u hu => ?_⟩,
      fun t ht => ?_⟩
    · rw [List.pairwise_flatMap]
      refine ⟨fun u _ => (ih u).1, List.Pairwise.filter _ ?_⟩
      -- a single character has at most one match
      have hone := Pattern.single_char p s
      match h : (char p).run s with
      | [] => exact List.Pairwise.nil
      | [u] => exact List.pairwise_singleton _ u
      | u :: v :: us =>
        rw [h] at hone
        exact absurd hone (by simp)
    · rw [List.mem_singleton.1 hu]
      exact shorter t ht
    · rcases List.mem_append.1 ht with ht | ht
      · exact Nat.le_of_lt (shorter t ht)
      · exact List.mem_singleton.1 ht ▸ Nat.le_refl _

theorem Pattern.greedy_star_char (p : α → Bool) : (star (char p)).Greedy := fun s =>
  (pairwise_iterate_char _ s).1

theorem Pattern.greedy_plus_char (p : α → Bool) : (plus (char p)).Greedy :=
  (single_char p).cat_greedy (greedy_star_char p)

/-- The first match of a greedy pattern is the longest. -/
theorem Pattern.Greedy.le_of_head {r : Pattern α} (h : r.Greedy) {s t u : State α}
    (ht : (r.run s).head? = some t) (hu : u ∈ r.run s) : t.rest.length ≤ u.rest.length := by
  obtain ⟨us, hus⟩ := List.head?_eq_some_iff.1 ht
  have hpair := h s
  rw [hus] at hpair hu
  rcases List.mem_cons.1 hu with rfl | hu
  · exact Nat.le_refl _
  · exact Nat.le_of_lt ((List.pairwise_cons.1 hpair).1 u hu)

/-! ### Matches -/

/-- A match: the text before it, nearest first, the matched text and the captured groups. -/
structure Match (α : Type) where
  before : List α
  text : List α
  groups : List (String × List α)

/-- The text of a group; a group that took no part is empty. -/
def Match.group (m : Match α) (name : String) : List α := (m.groups.lookup name).getD []

/-- The match at a place. -/
def Pattern.find? (r : Pattern α) (before rest : List α) : Option (Match α) :=
  (r.run ⟨before, rest, []⟩).head?.map fun t =>
    ⟨before, rest.take (rest.length - t.rest.length), t.groups⟩

/-- The pattern matches the whole text. -/
def Pattern.fullmatch (r : Pattern α) (text : List α) : Bool :=
  (r.run ⟨[], text, []⟩).any fun t => t.rest.isEmpty

variable {r : Pattern α} {before rest : List α} {m : Match α}

theorem Pattern.exists_of_fullmatch (h : r.fullmatch w = true) :
    ∃ t ∈ r.run ⟨[], w, []⟩, ∀ w', Passes ⟨[], w, []⟩ w' t → w' = w := by
  obtain ⟨t, ht, hempty⟩ := List.any_eq_true.1 h
  refine ⟨t, ht, fun w' hw' => ?_⟩
  have hrest : w = w' ++ t.rest := hw'.rest
  rw [hrest, List.isEmpty_iff.1 hempty, List.append_nil]

theorem Pattern.Within.of_fullmatch (hr : r.Within P) (h : r.fullmatch w = true) :
    ∀ c ∈ w, P c := by
  obtain ⟨t, ht, heq⟩ := exists_of_fullmatch h
  obtain ⟨w', hw', hP⟩ := hr.exists_passes _ t ht
  exact heq w' hw' ▸ hP

theorem Pattern.Ends.of_fullmatch (hr : r.Ends P) (h : r.fullmatch w = true) :
    ∀ c ∈ w.getLast?, P c := by
  obtain ⟨t, ht, heq⟩ := exists_of_fullmatch h
  obtain ⟨w', hw', hP⟩ := hr _ t ht
  exact heq w' hw' ▸ hP

/-- A match comes from the first state of the run. -/
theorem Pattern.exists_of_find? (h : r.find? before rest = some m) :
    ∃ t, (r.run ⟨before, rest, []⟩).head? = some t ∧ rest = m.text ++ t.rest ∧
      m = ⟨before, m.text, t.groups⟩ := by
  obtain ⟨t, ht, rfl⟩ := Option.map_eq_some_iff.1 h
  obtain ⟨w, hw⟩ := exists_passes r _ t (List.mem_of_mem_head? ht)
  have htake : rest.take (rest.length - t.rest.length) = w := hw.take
  refine ⟨t, ht, ?_, rfl⟩
  rw [htake]
  exact hw.rest

theorem Pattern.find?_eq_none : r.find? before rest = none ↔ r.run ⟨before, rest, []⟩ = [] := by
  rw [find?, Option.map_eq_none_iff, List.head?_eq_none_iff]

theorem Pattern.find?_of_mem {t : State α} (ht : t ∈ r.run ⟨before, rest, []⟩) :
    r.find? before rest ≠ none := by
  rw [ne_eq, find?_eq_none]
  exact List.ne_nil_of_mem ht

end Regex
