import ForgejoMcp.Client.Validation
import ForgejoMcp.Regex.Search

/-!
# The schema of a file path

The tools advertise a pattern for paths of files; the client checks the path itself.  Both look for
a segment that is a dot or two dots, the pattern without taking the blanks off first.
-/

namespace ForgejoMcp.Tools

open Python Regex Regex.Pattern Client

/-! ### The pattern -/

/-- `\s*`. -/
def blanks : Pattern CodePoint := star (char CodePoint.isspace)

/-- `.*`. -/
def anything : Pattern CodePoint := star (char fun c => decide (c ≠ 0x0A))

/-- `/`. -/
def slash : Pattern CodePoint := lit [0x2F]

/-- `$`. -/
def textEnd : Pattern CodePoint := finish 0x0A

/-- One dot or two, `\.{1,2}`, between two patterns. -/
def dotsBetween (front back : Pattern CodePoint) : Pattern CodePoint :=
  cat front (cat (onceOrTwice (lit dot)) back)

/-- The pattern of `_FILE_PATH`. -/
def filePathPattern : Pattern CodePoint :=
  cat start <|
  cat (notAhead (cat blanks slash)) <|
  cat (notAhead (dotsBetween blanks (alt slash textEnd))) <|
  cat (notAhead (dotsBetween blanks (cat blanks textEnd))) <|
  cat (notAhead (dotsBetween (cat anything slash) (alt slash textEnd))) <|
  cat (notAhead (dotsBetween (cat anything slash) (cat blanks textEnd))) <|
  cat (plus (char fun c => !control c)) textEnd

/-! ### Dot segments -/

/-- The text consists of blanks. -/
def Blank (s : Text) : Prop := ∀ c ∈ s, c.isspace = true

/-- The text ends in a slash. -/
def EndsInSlash (s : Text) : Prop := ∃ t, s = t ++ [0x2F]

/-- The text begins with a slash. -/
def BeginsWithSlash (s : Text) : Prop := ∃ t, s = 0x2F :: t

/-- One dot or two stand between slashes, or between a slash and an end of the text, where an end
may have the property. -/
def Dotted (P : Text → Prop) (s : Text) : Prop :=
  ∃ a d b, s = a ++ (d ++ b) ∧ (d = dot ∨ d = dotDot) ∧ (P a ∨ EndsInSlash a) ∧
    (P b ∨ BeginsWithSlash b)

/-- Dots are no blanks and no slashes. -/
theorem dots_eq_cons {d : Text} (hd : d = dot ∨ d = dotDot) :
    ∃ t, d = 0x2E :: t ∧ ∀ c ∈ d, c = 0x2E := by
  rcases hd with rfl | rfl
  · exact ⟨[], rfl, fun c hc => List.eq_of_mem_singleton hc⟩
  · exact ⟨[0x2E], rfl, fun c hc => List.eq_of_mem_replicate (n := 2) hc⟩

theorem isspace_slash : CodePoint.isspace 0x2F = false := by decide

theorem isspace_dot : CodePoint.isspace 0x2E = false := by decide

/-- The segments of a path are what stands between slashes. -/
theorem dotted_nil_iff {path : Text} : Dotted (· = []) path ↔
    (path.split 0x2F).any (fun segment => segment == dot || segment == dotDot) = true := by
  simp only [List.any_eq_true, Bool.or_eq_true, beq_iff_eq]
  constructor
  · rintro ⟨a, d, b, hpath, hd, ha, hb⟩
    obtain ⟨t, -, hdots⟩ := dots_eq_cons hd
    refine ⟨d, Text.mem_split_iff.2 ⟨fun hmem => ?_, a, b, hpath, ha, hb⟩, hd⟩
    exact absurd (hdots _ hmem) (by decide)
  · rintro ⟨d, hmem, hd⟩
    obtain ⟨-, a, b, hpath, ha, hb⟩ := Text.mem_split_iff.1 hmem
    exact ⟨a, d, b, hpath, hd, ha, hb⟩

/-- What is taken off the ends of a text is blank. -/
theorem exists_strip (value : Text) :
    ∃ l r, Blank l ∧ Blank r ∧ value = l ++ (value.strip ++ r) := by
  refine ⟨value.takeWhile CodePoint.isspace,
    (value.dropWhile CodePoint.isspace).rtakeWhile CodePoint.isspace, ?_, ?_, ?_⟩
  · exact fun c hc => List.mem_takeWhile_imp hc
  · exact fun c hc => List.mem_rtakeWhile_imp hc
  · rw [Text.strip, List.rdropWhile_append_rtakeWhile, List.takeWhile_append_dropWhile]

theorem dropWhile_front {a d b : Text} (hd : d = dot ∨ d = dotDot) (ha : Blank a ∨ EndsInSlash a) :
    ∃ a', (a ++ (d ++ b)).dropWhile CodePoint.isspace = a' ++ (d ++ b) ∧
      (a' = [] ∨ EndsInSlash a') := by
  obtain ⟨t, rfl, -⟩ := dots_eq_cons hd
  rcases ha with ha | ⟨front, rfl⟩
  · refine ⟨[], ?_, .inl rfl⟩
    rw [List.dropWhile_append_of_pos ha, List.cons_append,
      List.dropWhile_cons_of_neg (by rw [isspace_dot]; exact Bool.false_ne_true)]
    rfl
  · refine ⟨front.dropWhile CodePoint.isspace ++ [0x2F], ?_, .inr ⟨_, rfl⟩⟩
    rw [List.append_assoc, List.singleton_append, dropWhile_append_cons _ isspace_slash,
      List.append_assoc, List.singleton_append]

theorem rdropWhile_back {a d b : Text} (hd : d = dot ∨ d = dotDot)
    (hb : Blank b ∨ BeginsWithSlash b) :
    ∃ b', (a ++ (d ++ b)).rdropWhile CodePoint.isspace = a ++ (d ++ b') ∧
      (b' = [] ∨ BeginsWithSlash b') := by
  rw [← List.append_assoc]
  rcases hb with hb | ⟨back, rfl⟩
  · refine ⟨[], ?_, .inl rfl⟩
    obtain ⟨t, -, hdots⟩ := dots_eq_cons hd
    rw [rdropWhile_append_of_pos _ hb, List.append_nil]
    refine rdropWhile_eq_self ?_
    have hne : d ≠ [] := by
      rcases hd with rfl | rfl <;> decide
    obtain ⟨init, c, rfl⟩ := (List.eq_nil_or_concat' d).resolve_left hne
    rw [← List.append_assoc, List.getLast?_concat, Option.any_some,
      hdots c (List.mem_append_right _ (List.mem_singleton_self c)), isspace_dot]
  · refine ⟨0x2F :: back.rdropWhile CodePoint.isspace, ?_, .inr ⟨_, rfl⟩⟩
    rw [rdropWhile_append_cons _ isspace_slash, List.append_assoc]

/-- The blanks at the ends of a path hide no dot segment. -/
theorem dotted_strip_iff {value : Text} : Dotted (· = []) value.strip ↔ Dotted Blank value := by
  constructor
  · rintro ⟨a, d, b, hpath, hd, ha, hb⟩
    obtain ⟨l, r, hl, hr, hvalue⟩ := exists_strip value
    refine ⟨l ++ a, d, b ++ r, by rw [hvalue, hpath]; simp, hd, ?_, ?_⟩
    · rcases ha with rfl | ⟨t, rfl⟩
      · exact .inl (by rwa [List.append_nil])
      · exact .inr ⟨l ++ t, (List.append_assoc _ _ _).symm⟩
    · rcases hb with rfl | ⟨t, rfl⟩
      · exact .inl hr
      · exact .inr ⟨t ++ r, rfl⟩
  · rintro ⟨a, d, b, rfl, hd, ha, hb⟩
    obtain ⟨a', hfront, ha'⟩ := dropWhile_front (b := b) hd ha
    obtain ⟨b', hback, hb'⟩ := rdropWhile_back (a := a') hd hb
    exact ⟨a', d, b', by rw [Text.strip, hfront, hback], hd, ha', hb'⟩

/-- A path is absolute just if a slash is the first that is not blank. -/
theorem head?_strip_iff {value : Text} : value.strip.head? = some 0x2F ↔
    ∃ a b, value = a ++ 0x2F :: b ∧ Blank a := by
  constructor
  · intro h
    obtain ⟨l, r, hl, -, hvalue⟩ := exists_strip value
    obtain ⟨path, hpath⟩ := List.head?_eq_some_iff.1 h
    exact ⟨l, path ++ r, by rw [hvalue, hpath, List.cons_append], hl⟩
  · rintro ⟨a, b, rfl, ha⟩
    rw [Text.strip, dropWhile_append_cons _ isspace_slash, List.dropWhile_eq_nil_iff.2 ha,
      rdropWhile_append_cons _ isspace_slash]
    rfl

/-! ### What the pattern looks for -/

variable {before rest : Text}

theorem begins_blanks_slash {value : Text} : (cat blanks slash).Begins [] value ↔
    ∃ a b, value = a ++ 0x2F :: b ∧ Blank a := by
  rw [begins_cat]
  constructor
  · rintro ⟨a, t, rfl, ha, ht⟩
    obtain ⟨b, rfl⟩ := begins_lit.1 ht
    exact ⟨a, b, rfl, spells_star_char.1 ha⟩
  · rintro ⟨a, b, rfl, ha⟩
    exact ⟨a, 0x2F :: b, rfl, spells_star_char.2 ha, begins_lit.2 ⟨b, rfl⟩⟩

theorem begins_dotsBetween {front back : Pattern CodePoint} {value : Text} :
    (dotsBetween front back).Begins [] value ↔ ∃ a d b, value = a ++ (d ++ b) ∧
      (d = dot ∨ d = dotDot) ∧ front.Spells [] a (d ++ b) ∧
      back.Begins (d.reverse ++ (a.reverse ++ [])) b := by
  have hdots {before d t : Text} : (onceOrTwice (lit dot)).Spells before d t ↔ d = dot ∨ d = dotDot :=
    spells_onceOrTwice_lit
  rw [dotsBetween, begins_cat]
  constructor
  · rintro ⟨a, t, rfl, ha, ht⟩
    obtain ⟨d, b, rfl, hd, hb⟩ := begins_cat.1 ht
    exact ⟨a, d, b, rfl, hdots.1 hd, ha, hb⟩
  · rintro ⟨a, d, b, rfl, hd, ha, hb⟩
    exact ⟨a, d ++ b, rfl, ha, begins_cat.2 ⟨d, b, rfl, hdots.2 hd, hb⟩⟩

theorem spells_anything_slash {a : Text} :
    (cat anything slash).Spells before a rest ↔ ∃ t, a = t ++ [0x2F] ∧ (0x0A : CodePoint) ∉ t := by
  constructor
  · rintro ⟨t, v, rfl, ht, hv⟩
    rw [spells_lit.1 hv]
    exact ⟨t, rfl, fun hmem => of_decide_eq_true (spells_star_char.1 ht _ hmem) rfl⟩
  · rintro ⟨t, rfl, ht⟩
    refine ⟨t, [0x2F], rfl, spells_star_char.2 fun c hc => decide_eq_true ?_, spells_lit.2 rfl⟩
    rintro rfl
    exact ht hc

theorem begins_slash_or_end (hline : (0x0A : CodePoint) ∉ rest) :
    (alt slash textEnd).Begins before rest ↔ rest = [] ∨ BeginsWithSlash rest := by
  rw [begins_alt, slash, begins_lit, textEnd, begins_finish]
  constructor
  · rintro (⟨t, rfl⟩ | rfl | rfl)
    · exact .inr ⟨t, rfl⟩
    · exact .inl rfl
    · exact absurd (List.mem_singleton_self _) hline
  · rintro (rfl | ⟨t, rfl⟩)
    · exact .inr (.inl rfl)
    · exact .inl ⟨t, rfl⟩

theorem begins_blanks_end : (cat blanks textEnd).Begins before rest ↔ Blank rest := by
  rw [begins_cat]
  constructor
  · rintro ⟨a, t, rfl, ha, ht⟩
    rcases begins_finish.1 ht with rfl | rfl
    · rw [List.append_nil]
      exact spells_star_char.1 ha
    · refine List.forall_mem_append.2 ⟨spells_star_char.1 ha, fun c hc => ?_⟩
      rw [List.eq_of_mem_singleton hc]
      decide
  · intro h
    exact ⟨rest, [], (List.append_nil rest).symm, spells_star_char.2 h, begins_finish.2 (.inl rfl)⟩

/-- The pattern looks for dots in four ways, one for each kind of neighbour on either side. -/
theorem begins_dots_iff {value : Text} (hline : (0x0A : CodePoint) ∉ value) :
    ((dotsBetween blanks (alt slash textEnd)).Begins [] value ∨
      (dotsBetween blanks (cat blanks textEnd)).Begins [] value ∨
      (dotsBetween (cat anything slash) (alt slash textEnd)).Begins [] value ∨
      (dotsBetween (cat anything slash) (cat blanks textEnd)).Begins [] value) ↔
    Dotted Blank value := by
  simp only [begins_dotsBetween]
  constructor
  · have hnot {a d b : Text} (hvalue : value = a ++ (d ++ b)) : (0x0A : CodePoint) ∉ b :=
      fun hmem => hline (by simp [hvalue, hmem])
    have hback {a d b front : Text} (hvalue : value = a ++ (d ++ b))
        (hb : (alt slash textEnd).Begins front b) : Blank b ∨ BeginsWithSlash b := by
      rcases (begins_slash_or_end (hnot hvalue)).1 hb with rfl | hb
      · exact .inl fun c hc => (List.not_mem_nil hc).elim
      · exact .inr hb
    rintro (⟨a, d, b, hvalue, hd, ha, hb⟩ | ⟨a, d, b, hvalue, hd, ha, hb⟩ |
      ⟨a, d, b, hvalue, hd, ha, hb⟩ | ⟨a, d, b, hvalue, hd, ha, hb⟩)
    · exact ⟨a, d, b, hvalue, hd, .inl (spells_star_char.1 ha), hback hvalue hb⟩
    · exact ⟨a, d, b, hvalue, hd, .inl (spells_star_char.1 ha), .inl (begins_blanks_end.1 hb)⟩
    · obtain ⟨t, rfl, -⟩ := spells_anything_slash.1 ha
      exact ⟨_, d, b, hvalue, hd, .inr ⟨t, rfl⟩, hback hvalue hb⟩
    · obtain ⟨t, rfl, -⟩ := spells_anything_slash.1 ha
      exact ⟨_, d, b, hvalue, hd, .inr ⟨t, rfl⟩, .inl (begins_blanks_end.1 hb)⟩
  · rintro ⟨a, d, b, rfl, hd, ha, hb⟩
    have hslash {front : Text} (h : BeginsWithSlash b) : (alt slash textEnd).Begins front b :=
      (begins_slash_or_end fun hmem => hline (by simp [hmem])).2 (.inr h)
    rcases ha with ha | ⟨t, rfl⟩
    · rcases hb with hb | hb
      · exact .inr (.inl ⟨a, d, b, rfl, hd, spells_star_char.2 ha, begins_blanks_end.2 hb⟩)
      · exact .inl ⟨a, d, b, rfl, hd, spells_star_char.2 ha, hslash hb⟩
    · have hfront : (cat anything slash).Spells [] (t ++ [0x2F]) (d ++ b) :=
        spells_anything_slash.2 ⟨t, rfl, fun hmem => hline (by simp [hmem])⟩
      rcases hb with hb | hb
      · exact .inr (.inr (.inr ⟨_, d, b, rfl, hd, hfront, begins_blanks_end.2 hb⟩))
      · exact .inr (.inr (.inl ⟨_, d, b, rfl, hd, hfront, hslash hb⟩))

/-- Without its conditions on what is ahead, the pattern finds every text without control
characters. -/
theorem begins_uncontrolled {value : Text} (hne : value ≠ [])
    (hcontrol : ∀ c ∈ value, control c = false) :
    (cat (plus (char fun c => !control c)) textEnd).Begins [] value := by
  refine begins_cat.2 ⟨value, [], (List.append_nil value).symm, ?_, begins_finish.2 (.inl rfl)⟩
  exact spells_plus_char.2 ⟨hne, fun c hc => by rw [hcontrol c hc]; rfl⟩

theorem search_filePathPattern {value : Text} (hne : value ≠ [])
    (hcontrol : ∀ c ∈ value, control c = false) : filePathPattern.search value = true ↔
      value.strip.head? ≠ some 0x2F ∧ ¬Dotted (· = []) value.strip := by
  have hline : (0x0A : CodePoint) ∉ value := fun hmem => absurd (hcontrol _ hmem) (by decide)
  rw [filePathPattern, search_cat_start, ne_eq, head?_strip_iff, ← begins_blanks_slash,
    dotted_strip_iff, ← begins_dots_iff hline]
  simp only [begins_cat_notAhead, begins_uncontrolled hne hcontrol, and_true, not_or]

/-- **The schema and the check agree**: the advertised pattern finds a text of an allowed length
that is not blank and has no control character just if the client accepts it as a path. -/
theorem file_path_schema_agrees (value : Text) (hlength : 1 ≤ value.length ∧ value.length ≤ 1024)
    (hcontrol : ∀ c ∈ value, control c = false) (hblank : ∃ c ∈ value, c.isspace = false) :
    filePathPattern.search value = true ↔ ∃ path, filePath value = .ok path := by
  obtain ⟨l, r, hl, hr, hvalue⟩ := exists_strip value
  have hne : value ≠ [] := List.length_pos_iff.1 hlength.1
  have hpath : value.strip ≠ [] := by
    intro hnil
    obtain ⟨c, hc, hspace⟩ := hblank
    rw [hvalue, hnil, List.nil_append, List.mem_append] at hc
    rw [hc.elim (hl c) (hr c)] at hspace
    cases hspace
  have hshort : value.strip.length ≤ 1024 := by
    have hsum := congrArg List.length hvalue
    rw [List.length_append, List.length_append] at hsum
    omega
  have hclean : value.strip.any control = false :=
    List.any_eq_false.2 fun c hc => by
      rw [hcontrol c (hvalue ▸ List.mem_append_right _ (List.mem_append_left _ hc))]
      exact Bool.false_ne_true
  rw [search_filePathPattern hne hcontrol, dotted_nil_iff]
  simp only [filePath_eq_ok, exists_and_left, exists_eq, and_true, validPath, hclean, Bool.not_false,
    Bool.and_true, Bool.and_eq_true, decide_eq_true_eq, Bool.not_eq_true', ne_eq, hpath, hshort,
    not_false_eq_true, true_and, Bool.not_eq_true]

theorem file_path_schema_agrees_hidden : filePathPattern.search (text "src/..hidden/a. b") = true :=
  (file_path_schema_agrees (text "src/..hidden/a. b") (by decide +kernel)
    (by simpa using (by decide +kernel : (text "src/..hidden/a. b").all (!control ·) = true))
    ⟨0x73, by decide +kernel, by decide⟩).2 ⟨text "src/..hidden/a. b", by decide +kernel⟩

example : filePathPattern.search (text "src/.. ") = false := by decide +kernel

end ForgejoMcp.Tools
