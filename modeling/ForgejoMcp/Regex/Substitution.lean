import ForgejoMcp.Regex.Matching

/-!
# Substitution

Replacing the matches of a pattern, from left to right and without overlap.  The result is described
by edits: characters that are kept and pieces of text that are replaced.
-/

namespace Regex

open Pattern

variable {α : Type}

/-- A character that is kept, or a text that is replaced by another. -/
inductive Edit (α : Type)
  | keep (c : α)
  | replace (old new : List α)
  deriving DecidableEq

namespace Edit

/-- The text before the edit. -/
def old : Edit α → List α
  | keep c => [c]
  | replace old _ => old

/-- The text after the edit. -/
def new : Edit α → List α
  | keep c => [c]
  | replace _ new => new

end Edit

/-- The text before the edits. -/
def oldText (es : List (Edit α)) : List α := es.flatMap Edit.old

/-- The text after the edits. -/
def newText (es : List (Edit α)) : List α := es.flatMap Edit.new

/-- The edits of a substitution in `rest`, after the text `before` and once the next `skip`
characters, which belong to a replaced text, are passed.  A pattern either matches no empty text or
only empty texts. -/
def edits (r : Pattern α) (f : Match α → List α) : List α → List α → ℕ → List (Edit α)
  | before, [], _ =>
    match r.find? before [] with
    | none => []
    | some m => [.replace [] (f m)]
  | before, c :: rest, skip + 1 => edits r f (c :: before) rest skip
  | before, c :: rest, 0 =>
    match r.find? before (c :: rest) with
    | none => .keep c :: edits r f (c :: before) rest 0
    | some m =>
      match m.text with
      | [] => .replace [] (f m) :: .keep c :: edits r f (c :: before) rest 0
      | _ :: text => .replace m.text (f m) :: edits r f (c :: before) rest text.length

/-- `r.sub(f, s)`. -/
def Pattern.sub (r : Pattern α) (f : Match α → List α) (s : List α) : List α :=
  newText (edits r f [] s 0)

/-! ### Texts of edits -/

section

variable {es : List (Edit α)} {c : α} {x y : List α}

@[simp] theorem oldText_nil : oldText ([] : List (Edit α)) = [] := rfl

@[simp] theorem newText_nil : newText ([] : List (Edit α)) = [] := rfl

@[simp] theorem oldText_keep (c : α) (es : List (Edit α)) :
    oldText (.keep c :: es) = c :: oldText es := rfl

@[simp] theorem newText_keep (c : α) (es : List (Edit α)) :
    newText (.keep c :: es) = c :: newText es := rfl

@[simp] theorem oldText_replace (old new : List α) (es : List (Edit α)) :
    oldText (.replace old new :: es) = old ++ oldText es := rfl

@[simp] theorem newText_replace (old new : List α) (es : List (Edit α)) :
    newText (.replace old new :: es) = new ++ newText es := rfl

theorem oldText_append (es es' : List (Edit α)) : oldText (es ++ es') = oldText es ++ oldText es' :=
  List.flatMap_append

theorem newText_append (es es' : List (Edit α)) : newText (es ++ es') = newText es ++ newText es' :=
  List.flatMap_append

theorem oldText_map_keep (w : List α) : oldText (w.map .keep) = w := by
  induction w with
  | nil => rfl
  | cons c w ih => rw [List.map_cons, oldText_keep, ih]

theorem newText_map_keep (w : List α) : newText (w.map .keep) = w := by
  induction w with
  | nil => rfl
  | cons c w ih => rw [List.map_cons, newText_keep, ih]

/-- A text ends another one if it does not hold the character before it there. -/
theorem exists_of_append_eq {N w A z : List α} (h : N ++ w = A ++ z)
    (hlast : ∀ d ∈ N.getLast?, d ∉ z) : ∃ A', w = A' ++ z ∧ A = N ++ A' := by
  rcases List.append_eq_append_iff.1 h with ⟨A', rfl, rfl⟩ | ⟨B, rfl, rfl⟩
  · exact ⟨A', rfl, rfl⟩
  · rcases List.eq_nil_or_concat B with rfl | ⟨B, d, rfl⟩
    · exact ⟨[], rfl, by simp⟩
    · exact absurd (by simp) (hlast d (by simp))

/-- Two texts that end a text are the same if neither holds what is before the other. -/
theorem eq_of_append_eq {N w A z : List α} (h : N ++ w = A ++ z) (hN : ∀ d ∈ N.getLast?, d ∉ z)
    (hA : ∀ d ∈ A.getLast?, d ∉ w) : w = z := by
  obtain ⟨A', rfl, -⟩ := exists_of_append_eq h hN
  obtain ⟨N', hz, -⟩ := exists_of_append_eq h.symm hA
  have hlength := congrArg List.length hz
  simp only [List.length_append] at hlength
  obtain rfl : A' = [] := List.eq_nil_of_length_eq_zero (by omega)
  rfl

/-- Where an element of a flattened list comes from. -/
theorem exists_of_flatMap {β γ : Type} {f : β → List γ} {bs : List β} {d : γ} {l r : List γ}
    (h : bs.flatMap f = l ++ d :: r) : ∃ bs₁ b bs₂ l' r', bs = bs₁ ++ b :: bs₂ ∧
      f b = l' ++ d :: r' ∧ bs₁.flatMap f ++ l' = l ∧ r' ++ bs₂.flatMap f = r := by
  induction bs generalizing l with
  | nil => exact absurd h (by simp)
  | cons b bs ih =>
    have later : ∀ {a}, bs.flatMap f = a ++ d :: r → l = f b ++ a →
        ∃ bs₁ b' bs₂ l' r', b :: bs = bs₁ ++ b' :: bs₂ ∧ f b' = l' ++ d :: r' ∧
          bs₁.flatMap f ++ l' = l ∧ r' ++ bs₂.flatMap f = r := by
      rintro a ha rfl
      obtain ⟨bs₁, b', bs₂, l', r', rfl, hb, rfl, rfl⟩ := ih ha
      exact ⟨b :: bs₁, b', bs₂, l', r', rfl, hb, List.append_assoc _ _ _, rfl⟩
    rw [List.flatMap_cons] at h
    rcases List.append_eq_append_iff.1 h with ⟨l', hl, hrest⟩ | ⟨n, hn, hrest⟩
    · exact later hrest hl
    · cases n with
      | nil => exact later (a := []) hrest.symm (by simpa using hn.symm)
      | cons d' n =>
        obtain ⟨rfl, rfl⟩ := List.cons.inj hrest
        exact ⟨[], b, bs, l, n, rfl, hn, rfl, rfl⟩

/-- A character of the new text was kept or stands in a replacement. -/
theorem exists_edit (h : newText es = x ++ c :: y) :
    (∃ es₁ es₂, es = es₁ ++ .keep c :: es₂ ∧ newText es₁ = x ∧ newText es₂ = y) ∨
      ∃ es₁ old n₁ n₂ es₂, es = es₁ ++ .replace old (n₁ ++ c :: n₂) :: es₂ ∧ newText es₁ ++ n₁ = x ∧
        n₂ ++ newText es₂ = y := by
  obtain ⟨es₁, e, es₂, x', y', rfl, he, rfl, rfl⟩ := exists_of_flatMap h
  cases e with
  | keep d =>
    obtain ⟨rfl, hy⟩ : x' = [] ∧ y' = [] := by
      have hlength := congrArg List.length he
      simp only [Edit.new, List.length_append, List.length_cons, List.length_nil] at hlength
      exact ⟨List.eq_nil_of_length_eq_zero (by omega), List.eq_nil_of_length_eq_zero (by omega)⟩
    obtain ⟨rfl, -⟩ := List.cons.inj he
    exact .inl ⟨es₁, es₂, rfl, (List.append_nil _).symm, by rw [hy]; rfl⟩
  | replace old new => exact .inr ⟨es₁, old, x', y', es₂, by rw [← he]; rfl, rfl, rfl⟩

/-- A character of the new text that occurs in no replacement was kept. -/
theorem exists_keep (hfree : ∀ old new, Edit.replace old new ∈ es → c ∉ new)
    (h : newText es = x ++ c :: y) :
    ∃ es₁ es₂, es = es₁ ++ .keep c :: es₂ ∧ newText es₁ = x ∧ newText es₂ = y := by
  rcases exists_edit h with hkeep | ⟨es₁, old, n₁, n₂, es₂, rfl, -, -⟩
  · exact hkeep
  · exact absurd (List.mem_append_right n₁ List.mem_cons_self)
      (hfree old _ (List.mem_append_right es₁ List.mem_cons_self))

/-- What is kept since the last replacement. -/
theorem exists_kept_suffix (es : List (Edit α)) :
    ∃ es₀, ∃ w : List α, es = es₀ ++ w.map .keep ∧
      (es₀ = [] ∨ ∃ es₁ old new, es₀ = es₁ ++ [.replace old new]) := by
  induction es with
  | nil => exact ⟨[], [], rfl, .inl rfl⟩
  | cons e es ih =>
    obtain ⟨es₀, w, rfl, rfl | ⟨es₁, old, new, rfl⟩⟩ := ih
    · cases e with
      | keep c => exact ⟨[], c :: w, rfl, .inl rfl⟩
      | replace old new => exact ⟨[.replace old new], w, rfl, .inr ⟨[], old, new, rfl⟩⟩
    · exact ⟨e :: (es₁ ++ [.replace old new]), w, rfl, .inr ⟨e :: es₁, old, new, rfl⟩⟩

/-- The edits with texts that are replaced by themselves taken as kept. -/
def settle [DecidableEq α] (es : List (Edit α)) : List (Edit α) :=
  es.flatMap fun
    | .keep c => [.keep c]
    | .replace old new => if old = new then old.map .keep else [.replace old new]

variable [DecidableEq α]

theorem settle_append (es es' : List (Edit α)) : settle (es ++ es') = settle es ++ settle es' :=
  List.flatMap_append

@[simp] theorem oldText_settle (es : List (Edit α)) : oldText (settle es) = oldText es := by
  induction es with
  | nil => rfl
  | cons e es ih =>
    rw [← List.singleton_append, settle_append, oldText_append, oldText_append, ih]
    cases e with
    | keep c => rfl
    | replace old new =>
      by_cases h : old = new
      · simp [settle, h, oldText_map_keep]
      · simp [settle, h]

@[simp] theorem newText_settle (es : List (Edit α)) : newText (settle es) = newText es := by
  induction es with
  | nil => rfl
  | cons e es ih =>
    rw [← List.singleton_append, settle_append, newText_append, newText_append, ih]
    cases e with
    | keep c => rfl
    | replace old new =>
      by_cases h : old = new
      · simp [settle, h, newText_map_keep]
      · simp [settle, h]

/-- A settled replacement changes its text. -/
theorem exists_of_settle {es₁ es₂ : List (Edit α)} {old new : List α}
    (h : settle es = es₁ ++ .replace old new :: es₂) :
    ∃ es₁' es₂', es = es₁' ++ .replace old new :: es₂' ∧ settle es₁' = es₁ ∧ settle es₂' = es₂ ∧
      old ≠ new := by
  obtain ⟨es₁', e, es₂', l, r, rfl, he, rfl, rfl⟩ := exists_of_flatMap h
  cases e with
  | keep c =>
    dsimp only at he
    have hmem : Edit.replace old new ∈ [Edit.keep c] := he ▸ List.mem_append_right l List.mem_cons_self
    exact absurd hmem (by simp)
  | replace old' new' =>
    dsimp only at he
    split at he
    · have hmem : Edit.replace old new ∈ old'.map Edit.keep :=
        he ▸ List.mem_append_right l List.mem_cons_self
      exact absurd hmem (by simp)
    · rename_i hne
      have hlength := congrArg List.length he
      simp only [List.length_append, List.length_cons, List.length_nil] at hlength
      obtain rfl : l = [] := List.eq_nil_of_length_eq_zero (by omega)
      obtain rfl : r = [] := List.eq_nil_of_length_eq_zero (by omega)
      obtain ⟨he, -⟩ := List.cons.inj he
      cases he
      exact ⟨es₁', es₂', rfl, (List.append_nil _).symm, rfl, hne⟩

end

/-! ### The edits of a substitution -/

/-- The pattern matches no empty text. -/
def Pattern.Nonempty (r : Pattern α) : Prop := ∀ before rest m, r.find? before rest = some m → m.text ≠ []

/-- The edits of a substitution by a pattern that matches no empty text. -/
inductive Edits (r : Pattern α) (f : Match α → List α) : List α → List α → List (Edit α) → Prop
  | nil (before : List α) : Edits r f before [] []
  | keep {before rest : List α} {c : α} {es : List (Edit α)} (none : r.find? before (c :: rest) = none)
      (edits : Edits r f (c :: before) rest es) : Edits r f before (c :: rest) (.keep c :: es)
  | replace {before rest : List α} {m : Match α} {es : List (Edit α)}
      (found : r.find? before (m.text ++ rest) = some m)
      (edits : Edits r f (m.text.reverse ++ before) rest es) :
      Edits r f before (m.text ++ rest) (.replace m.text (f m) :: es)

variable {r : Pattern α} {f : Match α → List α} {before rest s : List α} {es : List (Edit α)}

/-- What is skipped is passed. -/
theorem edits_append (w : List α) : edits r f before (w ++ rest) w.length =
    edits r f (w.reverse ++ before) rest 0 := by
  induction w generalizing before with
  | nil => rfl
  | cons c w ih =>
    rw [List.cons_append, List.length_cons, edits, ih, List.reverse_cons, List.append_assoc]
    rfl

theorem Pattern.Nonempty.edits (hr : r.Nonempty) :
    ∀ s before, Edits r f before s (edits r f before s 0)
  | [], before => by
    rw [Regex.edits]
    cases h : r.find? before [] with
    | none => exact .nil before
    | some m =>
      obtain ⟨t, -, hrest, -⟩ := exists_of_find? h
      exact absurd (List.append_eq_nil_iff.1 hrest.symm).1 (hr before [] m h)
  | c :: s, before => by
    rw [Regex.edits]
    cases h : r.find? before (c :: s) with
    | none => exact .keep h (hr.edits s (c :: before))
    | some m =>
      obtain ⟨t, -, hrest, -⟩ := exists_of_find? h
      obtain ⟨c', w, hw⟩ := List.exists_cons_of_ne_nil (hr before _ m h)
      rw [hw, List.cons_append] at hrest
      obtain ⟨rfl, rfl⟩ := List.cons.inj hrest
      have hlt : t.rest.length < (c :: (w ++ t.rest)).length := by
        rw [List.length_cons, List.length_append]
        omega
      have hnext := Edits.replace (f := f) (hw ▸ h) (hr.edits t.rest (m.text.reverse ++ before))
      rw [hw] at hnext
      dsimp only
      rw [hw]
      dsimp only
      rw [edits_append]
      simpa using hnext
termination_by s => s.length

namespace Edits

variable {es' : List (Edit α)}

theorem oldText_eq (h : Edits r f before s es) : oldText es = s := by
  induction h with
  | nil before => rfl
  | keep none edits ih => rw [oldText_keep, ih]
  | replace found edits ih => rw [oldText_replace, ih]

/-- The edits after some of the edits are those of the rest of the text. -/
theorem of_append (h : Edits r f before s (es ++ es')) :
    Edits r f ((oldText es).reverse ++ before) (oldText es') es' := by
  induction es generalizing before s with
  | nil => exact h.oldText_eq.symm ▸ h
  | cons e es ih =>
    cases h with
    | keep none edits =>
      rw [oldText_keep, List.reverse_cons, List.append_assoc]
      exact ih edits
    | replace found edits =>
      rw [oldText_replace, List.reverse_append, List.append_assoc]
      exact ih edits

/-- The pattern does not match where a character is kept. -/
theorem find?_of_keep {c : α} (h : Edits r f before s (es ++ .keep c :: es')) :
    r.find? ((oldText es).reverse ++ before) (c :: oldText es') = none := by
  have hkeep := h.of_append
  rw [oldText_keep] at hkeep
  generalize hs : c :: oldText es' = rest at hkeep
  cases hkeep with
  | keep none edits => exact hs ▸ none

/-- The pattern matches where a text is replaced. -/
theorem find?_of_replace {old new : List α} (h : Edits r f before s (es ++ .replace old new :: es')) :
    ∃ m, r.find? ((oldText es).reverse ++ before) (old ++ oldText es') = some m ∧ old = m.text ∧
      new = f m := by
  have hreplace := h.of_append
  rw [oldText_replace] at hreplace
  generalize hs : old ++ oldText es' = rest at hreplace
  cases hreplace with
  | @replace _ rest m _ found edits => exact ⟨m, found, rfl, rfl⟩

/-- A replaced text is a match at its place. -/
theorem exists_of_replace (h : Edits r f before s es) {old new : List α}
    (he : .replace old new ∈ es) : ∃ before rest m, r.find? before (m.text ++ rest) = some m ∧
      old = m.text ∧ new = f m := by
  induction h with
  | nil before => cases he
  | keep none edits ih =>
    rcases List.mem_cons.1 he with he | he
    · cases he
    · exact ih he
  | @replace before rest m es found edits ih =>
    rcases List.mem_cons.1 he with he | he
    · cases he
      exact ⟨before, rest, m, found, rfl, rfl⟩
    · exact ih he

/-- A text has one list of edits. -/
theorem unique (hr : r.Nonempty) (h : Edits r f before s es) (h' : Edits r f before s es') :
    es = es' := by
  induction h generalizing es' with
  | nil before =>
    generalize hs : ([] : List α) = s at h'
    cases h' with
    | nil => rfl
    | keep => cases hs
    | replace found => exact absurd (List.append_eq_nil_iff.1 hs.symm).1 (hr _ _ _ found)
  | @keep before rest c es none edits ih =>
    generalize hs : c :: rest = s at h'
    cases h' with
    | nil => cases hs
    | keep none' edits' =>
      cases hs
      rw [ih edits']
    | replace found =>
      rw [hs, found] at none
      cases none
  | @replace before rest m es found edits ih =>
    generalize hs : m.text ++ rest = s at h'
    cases h' with
    | nil => exact absurd (List.append_eq_nil_iff.1 hs).1 (hr _ _ _ found)
    | keep none =>
      rw [hs, none] at found
      cases found
    | replace found' edits' =>
      obtain rfl := Option.some.inj ((hs ▸ found).symm.trans found')
      obtain rfl := List.append_cancel_left hs
      rw [ih edits']

/-- A substitution in a text whose first part no match leaves. -/
theorem append (hr : r.Nonempty) (h : Edits r f before s es) {rest : List α}
    (hlocal : ∀ before z, z ≠ [] → z <:+ s → r.find? before (z ++ rest) = r.find? before z)
    (h' : Edits r f (s.reverse ++ before) rest es') : Edits r f before (s ++ rest) (es ++ es') := by
  induction h with
  | nil before => exact h'
  | @keep before s c es none edits ih =>
    refine .keep ?_ (ih (fun before z hne hz => hlocal before z hne (hz.trans
      (List.suffix_cons c s))) (by simpa using h'))
    exact (hlocal before (c :: s) (List.cons_ne_nil c s) List.suffix_rfl).trans none
  | @replace before s m es found edits ih =>
    rw [List.append_assoc, List.cons_append]
    have hne : m.text ++ s ≠ [] := fun hnil =>
      hr _ _ _ found (List.append_eq_nil_iff.1 hnil).1
    refine .replace ?_ (ih (fun before z hne hz => hlocal before z hne (hz.trans
      (List.suffix_append _ s))) (by simpa using h'))
    rw [← List.append_assoc]
    exact (hlocal before _ hne List.suffix_rfl).trans found

end Edits

end Regex
