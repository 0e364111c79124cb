import ForgejoMcp.Regex.Substitution

/-!
# Replaced pieces

What a substitution leaves of a text: the characters that stand in no replaced piece, and the edits
of a part of the text, for patterns whose matches do not depend on what is around them.
-/

namespace Regex

open Pattern

variable {α : Type}

/-! ### The text before the edits -/

/-- The edit that undoes an edit. -/
def Edit.undo : Edit α → Edit α
  | keep c => keep c
  | replace old new => replace new old

theorem newText_undo (es : List (Edit α)) : newText (es.map Edit.undo) = oldText es := by
  rw [newText, oldText, List.flatMap_map]
  refine List.flatMap_congr fun e _ => ?_
  cases e <;> rfl

theorem undo_undo (es : List (Edit α)) : (es.map Edit.undo).map Edit.undo = es := by
  rw [List.map_map]
  refine (List.map_congr_left fun e _ => ?_).trans (List.map_id es)
  cases e <;> rfl

theorem oldText_undo (es : List (Edit α)) : oldText (es.map Edit.undo) = newText es := by
  rw [← newText_undo, undo_undo]

section

variable {es : List (Edit α)} {c : α} {x y : List α}

/-- A character of the old text is kept or stands in a replaced text. -/
theorem exists_old_edit (h : oldText es = x ++ c :: y) :
    (∃ es₁ es₂, es = es₁ ++ .keep c :: es₂ ∧ oldText es₁ = x ∧ oldText es₂ = y) ∨
      ∃ es₁ o₁ o₂ new es₂, es = es₁ ++ .replace (o₁ ++ c :: o₂) new :: es₂ ∧ oldText es₁ ++ o₁ = x ∧
        o₂ ++ oldText es₂ = y := by
  rw [← newText_undo] at h
  rcases exists_edit h with ⟨es₁, es₂, hes, hx, hy⟩ | ⟨es₁, old, n₁, n₂, es₂, hes, hx, hy⟩
  · refine .inl ⟨es₁.map Edit.undo, es₂.map Edit.undo, ?_, by rw [oldText_undo, hx],
      by rw [oldText_undo, hy]⟩
    rw [← undo_undo es, hes, List.map_append, List.map_cons]
    rfl
  · refine .inr ⟨es₁.map Edit.undo, n₁, n₂, old, es₂.map Edit.undo, ?_, by rw [oldText_undo, hx],
      by rw [oldText_undo, hy]⟩
    rw [← undo_undo es, hes, List.map_append, List.map_cons]
    rfl

/-- A word of characters that are in no replacement was kept. -/
theorem exists_kept_word {w : List α} (hw : w ≠ [])
    (hfree : ∀ old new, Edit.replace old new ∈ es → new ≠ [] ∧ ∀ c ∈ w, c ∉ new)
    (h : newText es = x ++ w ++ y) :
    ∃ es₁ es₂, es = es₁ ++ w.map .keep ++ es₂ ∧ newText es₁ = x ∧ newText es₂ = y := by
  induction w generalizing es x with
  | nil => exact absurd rfl hw
  | cons c w ih =>
    rw [List.append_assoc, List.cons_append] at h
    obtain ⟨es₁, es₂, rfl, hx, hy⟩ :=
      exists_keep (fun old new hmem => (hfree old new hmem).2 c List.mem_cons_self) h
    cases w with
    | nil => exact ⟨es₁, es₂, by simp, hx, hy⟩
    | cons d w =>
      have hfree₂ : ∀ old new, Edit.replace old new ∈ es₂ → new ≠ [] ∧ ∀ c ∈ d :: w, c ∉ new := by
        intro old new hmem
        have h := hfree old new (List.mem_append_right es₁ (List.mem_cons_of_mem _ hmem))
        exact ⟨h.1, fun c hc => h.2 c (List.mem_cons_of_mem _ hc)⟩
      obtain ⟨es₃, es₄, rfl, hnil, hy⟩ := ih (List.cons_ne_nil d w) hfree₂ (x := []) hy
      have hes₃ : es₃ = [] := by
        rw [newText, List.flatMap_eq_nil_iff] at hnil
        refine List.eq_nil_iff_forall_not_mem.2 fun e he => ?_
        cases e with
        | keep c => exact absurd (hnil _ he) (List.cons_ne_nil c [])
        | replace old new =>
          exact (hfree₂ old new (List.mem_append_left _ (List.mem_append_left _ he))).1 (hnil _ he)
      exact ⟨es₁, es₄, by rw [hes₃]; simp, hx, hy⟩

/-- Nothing is replaced in a text without a character that is in every replacement. -/
theorem oldText_eq_newText {mark : α → Bool} (h : ∀ c ∈ newText es, mark c = false)
    (hmark : ∀ old new, Edit.replace old new ∈ es → ∃ c ∈ new, mark c = true) :
    oldText es = newText es := by
  induction es with
  | nil => rfl
  | cons e es ih =>
    have hrest : oldText es = newText es := by
      refine ih (fun c hc => h c ?_) fun old new hmem => hmark old new (List.mem_cons_of_mem e hmem)
      rw [newText, List.flatMap_cons]
      exact List.mem_append_right _ hc
    cases e with
    | keep c => rw [oldText_keep, newText_keep, hrest]
    | replace old new =>
      obtain ⟨c, hc, htrue⟩ := hmark old new List.mem_cons_self
      rw [h c (by rw [newText_replace]; exact List.mem_append_left _ hc)] at htrue
      cases htrue

end

/-! ### Texts that are alike -/

/-- The texts are the same up to pieces without marks. -/
inductive SameMarks (mark : α → Bool) : List α → List α → Prop
  | nil : SameMarks mark [] []
  | keep {a b : List α} (c : α) (h : SameMarks mark a b) : SameMarks mark (c :: a) (c :: b)
  | piece {u v a b : List α} (hu : u ≠ [] ∧ ∀ c ∈ u, mark c = false)
      (hv : v ≠ [] ∧ ∀ c ∈ v, mark c = false) (h : SameMarks mark a b) :
      SameMarks mark (u ++ a) (v ++ b)

namespace SameMarks

variable {mark : α → Bool} {a b a' b' x y : List α} {c : α}

theorem refl : ∀ a : List α, SameMarks mark a a
  | [] => .nil
  | c :: a => .keep c (refl a)

theorem symm (h : SameMarks mark a b) : SameMarks mark b a := by
  induction h with
  | nil => exact .nil
  | keep c _ ih => exact .keep c ih
  | piece hu hv _ ih => exact .piece hv hu ih

theorem append (h : SameMarks mark a b) (h' : SameMarks mark a' b') :
    SameMarks mark (a ++ a') (b ++ b') := by
  induction h with
  | nil => exact h'
  | keep c _ ih => exact .keep c ih
  | piece hu hv _ ih =>
    rw [List.append_assoc, List.append_assoc]
    exact .piece hu hv ih

theorem of_pieces (ha : a ≠ [] ∧ ∀ c ∈ a, mark c = false) (hb : b ≠ [] ∧ ∀ c ∈ b, mark c = false) :
    SameMarks mark a b := by
  rw [← List.append_nil a, ← List.append_nil b]
  exact .piece ha hb .nil

theorem of_edits (mark : α → Bool) {es : List (Edit α)} (h : ∀ old new, Edit.replace old new ∈ es →
    (old ≠ [] ∧ ∀ c ∈ old, mark c = false) ∧ new ≠ [] ∧ ∀ c ∈ new, mark c = false) :
    SameMarks mark (oldText es) (newText es) := by
  induction es with
  | nil => exact .nil
  | cons e es ih =>
    have hrest := ih fun old new hmem => h old new (List.mem_cons_of_mem e hmem)
    cases e with
    | keep c => exact .keep c hrest
    | replace old new =>
      obtain ⟨hold, hnew⟩ := h old new List.mem_cons_self
      exact .piece hold hnew hrest

theorem eq_nil (h : SameMarks mark a []) : a = [] := by
  generalize hb : ([] : List α) = b at h
  cases h with
  | nil => rfl
  | keep => cases hb
  | piece _ hv => exact absurd (List.append_eq_nil_iff.1 hb.symm).1 hv.1

/-- A mark stands in both texts, between texts that are alike. -/
theorem exists_mark (h : SameMarks mark a (x ++ c :: y)) (hc : mark c = true) :
    ∃ x' y', a = x' ++ c :: y' ∧ SameMarks mark x' x ∧ SameMarks mark y' y := by
  generalize hb : x ++ c :: y = b at h
  induction h generalizing x with
  | nil => exact absurd hb (by simp)
  | @keep a b d h ih =>
    cases x with
    | nil =>
      obtain ⟨rfl, rfl⟩ := List.cons.inj hb
      exact ⟨[], a, rfl, .nil, h⟩
    | cons d' x =>
      obtain ⟨rfl, htail⟩ := List.cons.inj hb
      obtain ⟨x', y', rfl, hx, hy⟩ := ih htail
      exact ⟨d' :: x', y', rfl, .keep d' hx, hy⟩
  | @piece u v a b hu hv h ih =>
    rcases List.append_eq_append_iff.1 hb with ⟨w, rfl, hw⟩ | ⟨w, rfl, hw⟩
    · cases w with
      | nil =>
        rw [List.append_nil] at hv
        obtain ⟨x', y', rfl, hx, hy⟩ := ih (x := []) hw
        obtain rfl := hx.eq_nil
        exact ⟨u, y', rfl, .of_pieces hu hv, hy⟩
      | cons d w =>
        obtain ⟨rfl, -⟩ := List.cons.inj hw
        rw [hv.2 c (List.mem_append_right x List.mem_cons_self)] at hc
        cases hc
    · obtain ⟨x', y', rfl, hx, hy⟩ := ih hw.symm
      exact ⟨u ++ x', y', (List.append_assoc _ _ _).symm, .piece hu hv hx, hy⟩

theorem not_mem_mark (h : SameMarks mark a b) (hc : mark c = true) (hb : c ∉ b) : c ∉ a := by
  intro ha
  obtain ⟨x, y, rfl⟩ := List.append_of_mem ha
  obtain ⟨x', y', rfl, -, -⟩ := h.symm.exists_mark hc
  exact hb (List.mem_append_right x' List.mem_cons_self)

end SameMarks

/-! ### Patterns that stop -/

/-- A place in a text that is a part of another text. -/
def State.inside (s : State α) (before rest : List α) : State α :=
  ⟨s.before ++ before, s.rest ++ rest, s.groups⟩

/-- The pattern asks nothing about what is around it and matches none of the characters. -/
def Pattern.Stops (stop : α → Prop) : Pattern α → Prop
  | char p => ∀ c, stop c → p c = false
  | look p => ∀ before rest before' rest', p before rest = p before' rest'
  | cat r₁ r₂ => r₁.Stops stop ∧ r₂.Stops stop
  | alt r₁ r₂ => r₁.Stops stop ∧ r₂.Stops stop
  | star r => r.Stops stop
  | group _ r => r.Stops stop

section

variable {stop : α → Prop} {step : State α → List (State α)} {r : Pattern α}
  {before rest w : List α} {s t : State α}

theorem iterate_of_nil (h : s.rest.length ≤ 0) (n : ℕ) : iterate step n s = [s] := by
  cases n with
  | zero => rfl
  | succ n =>
    have hnone : ((step s).filter fun t => decide (t.rest.length < s.rest.length)) = [] :=
      List.filter_eq_nil_iff.2 fun t _ => by
        rw [decide_eq_true_iff]
        omega
    rw [iterate, hnone]
    rfl

/-- No more steps are taken than there are characters. -/
theorem iterate_eq {m n : ℕ} (hm : s.rest.length ≤ m) (hn : s.rest.length ≤ n) :
    iterate step m s = iterate step n s := by
  induction m generalizing n s with
  | zero => rw [iterate_of_nil hm, iterate_of_nil hm]
  | succ m ih =>
    cases n with
    | zero => rw [iterate_of_nil hn, iterate_of_nil hn]
    | succ n =>
      rw [iterate, iterate]
      refine congrArg (· ++ [s]) (List.flatMap_congr fun t ht => ?_)
      have hlt : t.rest.length < s.rest.length := of_decide_eq_true (List.mem_filter.1 ht).2
      exact ih (by omega) (by omega)

theorem iterate_inside (h : ∀ s : State α, step (s.inside before rest) =
    (step s).map (·.inside before rest)) (n : ℕ) : ∀ s : State α,
    iterate step n (s.inside before rest) = (iterate step n s).map (·.inside before rest) := by
  induction n with
  | zero => exact fun s => rfl
  | succ n ih =>
    intro s
    have hlength :
        (fun t : State α => decide (t.rest.length < (s.inside before rest).rest.length)) ∘
          (fun t : State α => t.inside before rest) =
            fun t => decide (t.rest.length < s.rest.length) := by
      funext t
      simp [State.inside]
    rw [iterate, iterate, h, List.filter_map, hlength, List.flatMap_map, List.map_append,
      List.map_flatMap]
    exact congrArg (· ++ _) (List.flatMap_congr fun t _ => ih t)

theorem Passes.inside (h : Passes s w t) (before rest : List α) :
    Passes (s.inside before rest) w (t.inside before rest) where
  rest := by rw [State.inside, State.inside, h.rest, List.append_assoc]
  before := by rw [State.inside, State.inside, h.before, List.append_assoc]

/-- What is around a text does not matter to a pattern that stops there. -/
theorem Pattern.Stops.run_inside (hr : r.Stops stop) (before : List α) {rest : List α}
    (hrest : ∀ c ∈ rest.head?, stop c) : ∀ s : State α,
    r.run (s.inside before rest) = (r.run s).map (·.inside before rest) := by
  induction r with
  | char p =>
    rintro ⟨b, z, g⟩
    cases z with
    | nil =>
      cases rest with
      | nil => rfl
      | cons c rest =>
        have hc := hr c (hrest c rfl)
        simp [run, State.inside, hc]
    | cons d z => by_cases hd : p d = true <;> simp [run, State.inside, State.over, hd]
  | look p =>
    intro s
    rw [run, run, hr _ _ s.before s.rest]
    split <;> rfl
  | cat r₁ r₂ ih₁ ih₂ =>
    intro s
    rw [run, run, ih₁ hr.1, List.flatMap_map, List.map_flatMap]
    exact List.flatMap_congr fun t _ => ih₂ hr.2 t
  | alt r₁ r₂ ih₁ ih₂ =>
    intro s
    rw [run, run, ih₁ hr.1, ih₂ hr.2, List.map_append]
  | star r ih =>
    intro s
    rw [run, run, iterate_inside (ih hr)]
    refine congrArg _ (iterate_eq ?_ (Nat.le_refl _))
    rw [State.inside, List.length_append]
    exact Nat.le_add_right _ _
  | group name r ih =>
    intro s
    rw [run, run, ih hr, List.map_map, List.map_map]
    refine List.map_congr_left fun t ht => ?_
    obtain ⟨w, hw⟩ := exists_passes r s t ht
    rw [Function.comp_apply, Function.comp_apply, (hw.inside before rest).take, hw.take]
    rfl

end

/-! ### Matches between stops -/

variable {stop : α → Prop} {r : Pattern α} {f : Match α → List α} {before before' rest s z : List α}
  {es es' : List (Edit α)}

/-- A match depends only on the character before it and on what follows up to a stop. -/
def Pattern.Local (stop : α → Prop) (r : Pattern α) : Prop :=
  ∀ before before' z rest, before.head? = before'.head? → z ≠ [] → (∀ c ∈ rest.head?, stop c) →
    r.find? before (z ++ rest) = (r.find? before' z).map fun m => ⟨before, m.text, m.groups⟩

/-- A condition on the characters on both sides, and a pattern that asks nothing more. -/
theorem Pattern.Stops.local {p : List α → List α → Bool} (hr : r.Stops stop)
    (hp : ∀ b b' z z', b.head? = b'.head? → z.head? = z'.head? → p b z = p b' z') :
    (cat (look p) r).Local stop := by
  intro before before' z rest hbefore hz hrest
  have hhead : (z ++ rest).head? = z.head? := by
    obtain ⟨c, z, rfl⟩ := List.exists_cons_of_ne_nil hz
    rfl
  have hrun : ∀ b x, p b x = true → (cat (look p) r).run ⟨b, x, []⟩ = r.run ⟨b, x, []⟩ := by
    intro b x hb
    rw [run, run, if_pos hb, List.flatMap_singleton]
  by_cases hmatch : p before' z = true
  · have hnil : ∀ c ∈ ([] : List α).head?, stop c := by simp
    have h := hr.run_inside before hrest ⟨[], z, []⟩
    have h' := hr.run_inside before' hnil ⟨[], z, []⟩
    simp only [State.inside, List.nil_append, List.append_nil] at h h'
    rw [find?, find?, hrun _ _ ((hp _ _ _ _ hbefore hhead).trans hmatch), hrun _ _ hmatch, h, h']
    cases hhead : (r.run ⟨[], z, []⟩).head? with
    | none => rw [List.head?_map, List.head?_map, hhead]; rfl
    | some t =>
      obtain ⟨w, hw⟩ := exists_passes r _ t (List.mem_of_mem_head? hhead)
      have htake := (hw.inside before rest).take
      have htake' := (hw.inside before' []).take
      simp only [State.inside, List.nil_append, List.append_nil] at htake htake'
      rw [List.head?_map, List.head?_map, hhead]
      simp only [Option.map_some, htake, htake']
  · have hnone : ∀ b x, p b x ≠ true → (cat (look p) r).find? b x = none := fun b x hb => by
      rw [find?_eq_none, run, run, if_neg hb, List.flatMap_nil]
    rw [hnone _ _ fun h => hmatch ((hp _ _ _ _ hbefore hhead).symm.trans h), hnone _ _ hmatch]
    rfl

namespace Pattern.Local

theorem find?_append (hr : r.Local stop) (hz : z ≠ []) (hrest : ∀ c ∈ rest.head?, stop c) :
    r.find? before (z ++ rest) = r.find? before z := by
  rw [hr before before z rest rfl hz hrest]
  cases h : r.find? before z with
  | none => rfl
  | some m =>
    obtain ⟨t, -, -, hm⟩ := exists_of_find? h
    rw [hm]
    rfl

/-- The edits before a stop are those of the text up to there. -/
theorem edits_append (hr : r.Local stop) (hne : r.Nonempty) (h : Edits r f before s es)
    (rest : List α) (hrest : ∀ c ∈ rest.head?, stop c)
    (h' : Edits r f (s.reverse ++ before) rest es') :
    Edits r f before (s ++ rest) (es ++ es') :=
  h.append hne (fun _ _ hz _ => hr.find?_append hz hrest) h'

/-- Of what is before, only the last character matters. -/
theorem edits_before (hr : r.Local stop) (hne : r.Nonempty)
    (hf : ∀ b b' t g, f ⟨b, t, g⟩ = f ⟨b', t, g⟩) (h : Edits r f before s es) (before' : List α)
    (hhead : before.head? = before'.head?) : Edits r f before' s es := by
  induction h generalizing before' with
  | nil => exact .nil before'
  | @keep before s c es none edits ih =>
    refine .keep ?_ (ih _ rfl)
    have hsame := hr before' before (c :: s) [] hhead.symm (List.cons_ne_nil c s) (by simp)
    rw [List.append_nil, none] at hsame
    exact hsame
  | @replace before s m es found edits ih =>
    have hmne := hne _ _ _ found
    have hsame := hr before' before (m.text ++ s) [] hhead.symm
      (fun hnil => hmne (List.append_eq_nil_iff.1 hnil).1) (by simp)
    rw [List.append_nil, found] at hsame
    have hnext := @Edits.replace _ r f before' s ⟨before', m.text, m.groups⟩ es hsame (ih _ (by
      obtain ⟨d, w, hw⟩ := List.exists_cons_of_ne_nil (List.reverse_ne_nil_iff.2 hmne)
      rw [hw]
      rfl))
    rwa [hf before' m.before] at hnext

end Pattern.Local

/-- A text in which the pattern matches nowhere is kept. -/
theorem Edits.kept {w : List α} (before : List α)
    (h : ∀ before z, z ≠ [] → z <:+ w → r.find? before (z ++ rest) = none)
    (h' : Edits r f (w.reverse ++ before) rest es) :
    Edits r f before (w ++ rest) (w.map .keep ++ es) := by
  induction w generalizing before with
  | nil => exact h'
  | cons c w ih =>
    refine .keep (h before (c :: w) (List.cons_ne_nil c w) List.suffix_rfl)
      (ih _ (fun b z hne hz => h b z hne (hz.trans (List.suffix_cons c w))) ?_)
    rw [List.reverse_cons, List.append_assoc] at h'
    exact h'

/-! ### Patterns whose matches stand on their own -/

/-- Whether the pattern matches a text at a place does not depend on what is before and after it. -/
def Pattern.Fixed (r : Pattern α) (L : List α → List (String × List α) → Prop) : Prop :=
  ∀ before text m, r.find? before text = some m ↔
    m.before = before ∧ L m.text m.groups ∧ m.text <+: text

variable {L : List α → List (String × List α) → Prop}

/-- A pattern whose matches are the texts of a language, no two of which start the same text. -/
theorem Pattern.fixed_of_run (hrun : ∀ s t, t ∈ r.run s ↔ ∃ w g rest, s.rest = w ++ rest ∧ L w g ∧
      t = ⟨w.reverse ++ s.before, rest, g ++ s.groups⟩)
    (hone : ∀ w g w' g' rest rest', L w g → L w' g' → w ++ rest = w' ++ rest' → w = w' ∧ g = g') :
    r.Fixed L := by
  intro before value m
  constructor
  · intro h
    obtain ⟨t, ht, hvalue, hm⟩ := exists_of_find? h
    obtain ⟨w, g, rest, hrest, hL, rfl⟩ := (hrun _ _).1 (List.mem_of_mem_head? ht)
    obtain rfl : m.text = w := List.append_cancel_right (hvalue.symm.trans hrest)
    rw [hm]
    exact ⟨rfl, by rwa [List.append_nil], ⟨_, hvalue.symm⟩⟩
  · obtain ⟨before', w, g⟩ := m
    rintro ⟨rfl, hL, rest, rfl⟩
    have hmem := (hrun ⟨before', w ++ rest, []⟩ _).2 ⟨w, g, rest, rfl, hL, rfl⟩
    cases hfind : r.find? before' (w ++ rest) with
    | none => exact absurd hfind (find?_of_mem hmem)
    | some m =>
      obtain ⟨t, ht, hvalue, hm⟩ := exists_of_find? hfind
      obtain ⟨w', g', rest', hrest', hL', rfl⟩ := (hrun _ _).1 (List.mem_of_mem_head? ht)
      obtain ⟨rfl, rfl⟩ := hone _ _ _ _ _ _ hL hL' hrest'
      rw [hm, List.append_cancel_right (hvalue.symm.trans hrest')]
      rw [List.append_nil]

namespace Pattern.Fixed

theorem nonempty (hr : r.Fixed L) (hL : ∀ w g, L w g → w ≠ []) : r.Nonempty :=
  fun before rest m h => hL _ _ ((hr before rest m).1 h).2.1

/-- What follows does not matter if no match reaches into it. -/
theorem find?_append (hr : r.Fixed L) (hfits : ∀ w g, L w g → w <+: z ++ rest → w <+: z) :
    r.find? before (z ++ rest) = r.find? before z := by
  refine Option.ext fun m => ?_
  rw [hr, hr]
  exact ⟨fun ⟨hb, hm, hpre⟩ => ⟨hb, hm, hfits _ _ hm hpre⟩,
    fun ⟨hb, hm, hpre⟩ => ⟨hb, hm, hpre.trans (List.prefix_append z rest)⟩⟩

/-- What is before does not matter. -/
theorem edits_before (hr : r.Fixed L) (hf : ∀ b b' t g, f ⟨b, t, g⟩ = f ⟨b', t, g⟩)
    (h : Edits r f before s es) (before' : List α) : Edits r f before' s es := by
  induction h generalizing before' with
  | nil => exact .nil before'
  | @keep before s c es none edits ih =>
    refine .keep (Option.eq_none_iff_forall_ne_some.2 fun m hm => ?_) (ih (c :: before'))
    obtain ⟨-, hL, hpre⟩ := (hr _ _ _).1 hm
    exact absurd ((hr before _ ⟨before, m.text, m.groups⟩).2 ⟨rfl, hL, hpre⟩) (by rw [none]; simp)
  | @replace before s m es found edits ih =>
    obtain ⟨-, hL, hpre⟩ := (hr _ _ _).1 found
    have hfound := (hr before' _ ⟨before', m.text, m.groups⟩).2 ⟨rfl, hL, hpre⟩
    have hedits := @Edits.replace _ r f before' s ⟨before', m.text, m.groups⟩ es hfound
      (ih (m.text.reverse ++ before'))
    rwa [hf before' m.before] at hedits

/-- The edits up to a place that no replaced text crosses are those of the text up to there. -/
theorem edits_front (hr : r.Fixed L) (h : Edits r f before (oldText es ++ rest) (es ++ es')) :
    Edits r f before (oldText es) es := by
  induction es generalizing before with
  | nil => exact .nil before
  | cons e es ih =>
    cases e with
    | keep c =>
      rw [oldText_keep, List.cons_append, List.cons_append] at h
      generalize hs : c :: (oldText es ++ rest) = s at h
      cases h with
      | keep none edits =>
        cases hs
        refine .keep (Option.eq_none_iff_forall_ne_some.2 fun m hm => ?_) (ih edits)
        obtain ⟨hb, hL, hpre⟩ := (hr _ _ _).1 hm
        have hpre' : m.text <+: c :: (oldText es ++ rest) := hpre.trans (List.prefix_append _ rest)
        rw [(hr _ _ _).2 ⟨hb, hL, hpre'⟩] at none
        cases none
    | replace old new =>
      rw [oldText_replace, List.append_assoc, List.cons_append] at h
      generalize hs : old ++ (oldText es ++ rest) = s at h
      cases h with
      | replace found edits =>
        obtain rfl := List.append_cancel_left hs
        obtain ⟨hb, hL, -⟩ := (hr _ _ _).1 found
        exact .replace ((hr _ _ _).2 ⟨hb, hL, List.prefix_append _ _⟩) (ih edits)

end Pattern.Fixed

/-- The text that a substitution gives, from its edits. -/
theorem Pattern.Nonempty.sub_eq (hr : r.Nonempty) (h : Edits r f [] s es) :
    r.sub f s = newText es := by
  rw [Pattern.sub, (hr.edits s []).unique hr h]

end Regex
