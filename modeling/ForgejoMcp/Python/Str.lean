import ForgejoMcp.Python.Text

/-!
# Methods of `str`

Stripping, splitting and searching.
-/

namespace Python

/-- `c.isspace()`, which is also what `\s` matches. -/
def CodePoint.isspace (c : CodePoint) : Bool :=
  decide (9 ≤ c.val ∧ c.val ≤ 13 ∨ 28 ≤ c.val ∧ c.val ≤ 32 ∨ 0x2000 ≤ c.val ∧ c.val ≤ 0x200A) ||
    [0x85, 0xA0, 0x1680, 0x2028, 0x2029, 0x202F, 0x205F, 0x3000].contains c.val

/-- What the methods of `str` take from the Unicode database. -/
structure Unicode where
  casefold : Text → Text
  isdecimal : CodePoint → Bool
  isalnum : CodePoint → Bool

/-- The database as far as ASCII goes. -/
def Unicode.ascii : Unicode where
  casefold := fun s => s.map fun c => if 0x41 ≤ c.val ∧ c.val ≤ 0x5A then c + 0x20 else c
  isdecimal := fun c => decide (0x30 ≤ c.val ∧ c.val ≤ 0x39)
  isalnum := fun c => decide (0x30 ≤ c.val ∧ c.val ≤ 0x39 ∨ 0x41 ≤ c.val ∧ c.val ≤ 0x5A ∨
    0x61 ≤ c.val ∧ c.val ≤ 0x7A)

/-! ### Ends of texts -/

section Ends

variable {p : CodePoint → Bool} {t : Text}

theorem rdropWhile_append_of_pos (s : Text) (h : ∀ c ∈ t, p c = true) :
    List.rdropWhile p (s ++ t) = s.rdropWhile p := by
  rw [List.rdropWhile, List.reverse_append,
    List.dropWhile_append_of_pos fun c hc => h c (List.mem_reverse.1 hc), List.rdropWhile]

/-- Nothing is dropped from before a character that is kept. -/
theorem rdropWhile_append_cons (s : Text) {c : CodePoint} (hp : p c = false) (t : Text) :
    List.rdropWhile p (s ++ c :: t) = s ++ c :: t.rdropWhile p := by
  have hreverse : (s ++ c :: t).reverse = t.reverse ++ c :: s.reverse := by simp
  have hstop : (c :: s.reverse).dropWhile p = c :: s.reverse :=
    List.dropWhile_cons_of_neg (by rw [hp]; exact Bool.false_ne_true)
  rw [List.rdropWhile, hreverse, List.dropWhile_append, hstop, List.rdropWhile]
  split
  · rename_i hempty
    rw [List.isEmpty_iff.1 hempty]
    simp
  · simp

/-- Nothing is dropped from an end that is kept. -/
theorem rdropWhile_eq_self (h : t.getLast?.any p = false) : t.rdropWhile p = t := by
  rcases List.eq_nil_or_concat' t with rfl | ⟨init, c, rfl⟩
  · rfl
  · rw [List.getLast?_concat, Option.any_some] at h
    exact List.rdropWhile_concat_neg _ _ _ (by rw [h]; exact Bool.false_ne_true)

theorem length_rdropWhile_lt (h : t.getLast?.any p = true) : (t.rdropWhile p).length < t.length := by
  rcases List.eq_nil_or_concat' t with rfl | ⟨init, c, rfl⟩
  · cases h
  · rw [List.getLast?_concat, Option.any_some] at h
    rw [List.rdropWhile_concat_pos _ _ _ h, List.length_append]
    exact Nat.lt_succ_of_le (List.rdropWhile_prefix p init).length_le

/-- What is left does not end in what was dropped. -/
theorem getLast?_rdropWhile (t : Text) : (t.rdropWhile p).getLast?.any p = false := by
  rw [← Bool.not_eq_true]
  intro h
  have hlt := length_rdropWhile_lt h
  rw [List.rdropWhile_idempotent] at hlt
  exact Nat.lt_irrefl _ hlt

/-- Nothing is dropped from behind a character that is kept. -/
theorem dropWhile_append_cons (s : Text) {c : CodePoint} (hp : p c = false) (t : Text) :
    List.dropWhile p (s ++ c :: t) = s.dropWhile p ++ c :: t := by
  have hstop : (c :: t).dropWhile p = c :: t :=
    List.dropWhile_cons_of_neg (by rw [hp]; exact Bool.false_ne_true)
  rw [List.dropWhile_append, hstop]
  split
  · rename_i hempty
    rw [List.isEmpty_iff.1 hempty, List.nil_append]
  · rfl

end Ends

namespace Text

/-- `s.strip()`. -/
def strip (s : Text) : Text := (s.dropWhile CodePoint.isspace).rdropWhile CodePoint.isspace

theorem dropWhile_eq_self {s : Text} (h : s.head?.all (!·.isspace) = true) :
    s.dropWhile CodePoint.isspace = s := by
  cases s with
  | nil => rfl
  | cons c s =>
    have hc : c.isspace = false := by simpa using h
    rw [List.dropWhile_cons_of_neg (by rw [hc]; exact Bool.false_ne_true)]

theorem head?_dropWhile (s : Text) :
    (s.dropWhile CodePoint.isspace).head?.all (!·.isspace) = true := by
  induction s with
  | nil => rfl
  | cons c s ih =>
    rw [List.dropWhile_cons]
    split
    · exact ih
    · rename_i hc
      simpa using hc

/-- A part of the text from its beginning keeps the first character, if it is not empty. -/
theorem head?_of_prefix {s t : Text} (h : s <+: t) (ht : t.head?.all (!·.isspace) = true) :
    s.head?.all (!·.isspace) = true := by
  obtain ⟨r, rfl⟩ := h
  cases s with
  | nil => rfl
  | cons c s => exact ht

/-- Nothing is stripped from a text without blanks. -/
theorem strip_eq_self {s : Text} (h : ∀ c ∈ s, c.isspace = false) : s.strip = s := by
  have hhead : s.head?.all (!·.isspace) = true := by
    cases s with
    | nil => rfl
    | cons c s => simpa using h c List.mem_cons_self
  rw [strip, dropWhile_eq_self hhead, List.rdropWhile_eq_self_iff]
  intro hne
  rw [h _ (List.getLast_mem hne)]
  exact Bool.false_ne_true

/-- Stripping again strips nothing. -/
@[simp] theorem strip_strip (s : Text) : s.strip.strip = s.strip := by
  have hprefix : s.strip <+: s.dropWhile CodePoint.isspace := List.rdropWhile_prefix _ _
  have hhead := head?_of_prefix hprefix (head?_dropWhile s)
  rw [strip, dropWhile_eq_self hhead]
  exact List.rdropWhile_idempotent _ _

/-- `s.split(c)`. -/
def split (s : Text) (c : CodePoint) : List Text := s.splitOn c

theorem join_eq_intercalate (sep : Text) (parts : List Text) :
    join sep parts = sep.intercalate parts := by
  induction parts with
  | nil => rfl
  | cons s parts ih =>
    cases parts with
    | nil => simp [join]
    | cons t parts => rw [join, ih, List.intercalate_cons_cons, List.append_assoc]

theorem mem_join {sep : Text} {parts : List Text} {c : CodePoint} (h : c ∈ join sep parts) :
    c ∈ sep ∨ ∃ s ∈ parts, c ∈ s := by
  induction parts with
  | nil => exact (List.not_mem_nil h).elim
  | cons s parts ih =>
    cases parts with
    | nil => exact .inr ⟨s, List.mem_cons_self, h⟩
    | cons t parts =>
      rw [join, List.mem_append, List.mem_append] at h
      rcases h with (h | h) | h
      · exact .inr ⟨s, List.mem_cons_self, h⟩
      · exact .inl h
      · refine (ih h).imp_right ?_
        rintro ⟨u, hu, hc⟩
        exact ⟨u, List.mem_cons_of_mem _ hu, hc⟩

theorem exists_split (s : Text) (c : CodePoint) : ∃ first items, s.split c = first :: items :=
  List.exists_cons_of_ne_nil (List.splitOn_ne_nil c s)

theorem split_cons_self (c : CodePoint) (s : Text) : split (c :: s) c = [] :: s.split c := by
  rw [split, List.splitOn_cons_eq_if_modifyHead, if_pos (beq_self_eq_true c), split]

theorem split_cons_of_ne {c d : CodePoint} (h : d ≠ c) (s : Text) :
    split (d :: s) c = (s.split c).modifyHead (d :: ·) := by
  rw [split, List.splitOn_cons_eq_if_modifyHead, if_neg (by simpa using h), split]

theorem split_append {s t : Text} {c : CodePoint} (h : c ∉ s) :
    (s ++ t).split c = (t.split c).modifyHead (s ++ ·) := by
  obtain ⟨first, items, ht⟩ := exists_split t c
  induction s with
  | nil => rw [List.nil_append, ht, List.modifyHead_cons, List.nil_append]
  | cons d s ih =>
    rw [List.mem_cons, not_or] at h
    rw [List.cons_append, split_cons_of_ne (Ne.symm h.1), ih h.2, ht]
    rfl

theorem split_append_cons {s : Text} {c : CodePoint} (h : c ∉ s) (t : Text) :
    (s ++ c :: t).split c = s :: t.split c := by
  rw [split_append h, split_cons_self, List.modifyHead_cons, List.append_nil]

/-- Both sides of a separator are split on their own. -/
theorem split_append_sep (s t : Text) (c : CodePoint) :
    (s ++ c :: t).split c = s.split c ++ t.split c := by
  induction s with
  | nil =>
    rw [List.nil_append, split_cons_self]
    rfl
  | cons d s ih =>
    obtain ⟨first, items, hs⟩ := exists_split s c
    rw [List.cons_append]
    rcases eq_or_ne d c with rfl | hd
    · rw [split_cons_self, split_cons_self, ih, List.cons_append]
    · rw [split_cons_of_ne hd, split_cons_of_ne hd, ih, hs]
      rfl

/-- Joining with a separator and splitting there splits each part. -/
theorem split_join (c : CodePoint) {parts : List Text} (hne : parts ≠ []) :
    (join [c] parts).split c = parts.flatMap (split · c) := by
  induction parts with
  | nil => exact absurd rfl hne
  | cons s parts ih =>
    cases parts with
    | nil => rw [join, List.flatMap_cons, List.flatMap_nil, List.append_nil]
    | cons t parts =>
      rw [join, List.append_assoc, List.singleton_append, split_append_sep,
        ih (List.cons_ne_nil _ _), List.flatMap_cons (x := s)]

theorem split_eq_singleton {s : Text} {c : CodePoint} (h : c ∉ s) : s.split c = [s] := by
  have happend := split_append (t := []) h
  rw [List.append_nil] at happend
  rw [happend, split, List.splitOn_nil, List.modifyHead_cons, List.append_nil]

theorem split_injective (c : CodePoint) : Function.Injective (split · c) := by
  intro s t h
  have hs : [c].intercalate (s.split c) = s := List.intercalate_splitOn c
  have ht : [c].intercalate (t.split c) = t := List.intercalate_splitOn c
  rw [← hs, ← ht]
  exact congrArg (List.intercalate [c]) h

theorem not_mem_of_mem_split {s part : Text} {c : CodePoint} (h : part ∈ s.split c) :
    c ∉ part := by
  induction s generalizing part with
  | nil =>
    rw [split, List.splitOn_nil, List.mem_singleton] at h
    simp [h]
  | cons d s ih =>
    obtain ⟨first, items, hs⟩ := exists_split s c
    rcases eq_or_ne d c with rfl | hd
    · rw [split_cons_self] at h
      rcases List.mem_cons.1 h with rfl | h
      · exact List.not_mem_nil
      · exact ih h
    · rw [split_cons_of_ne hd, hs, List.modifyHead_cons] at h
      rcases List.mem_cons.1 h with rfl | h
      · have hfirst : c ∉ first := ih (by rw [hs]; exact List.mem_cons_self)
        simp [hd.symm, hfirst]
      · exact ih (by rw [hs]; exact List.mem_cons_of_mem _ h)

/-- Splitting a joined text gives the parts back just if there is one and none holds the
separator. -/
theorem split_join_iff {c : CodePoint} {parts : List Text} :
    (join [c] parts).split c = parts ↔ parts ≠ [] ∧ ∀ s ∈ parts, c ∉ s := by
  rw [join_eq_intercalate, split]
  constructor
  · intro h
    rw [← h]
    exact ⟨List.splitOn_ne_nil _ _, fun s hs => not_mem_of_mem_split hs⟩
  · rintro ⟨hne, hmem⟩
    exact List.splitOn_intercalate c hmem hne

/-- A part stands between two separators, or between one and an end of the text. -/
theorem mem_split_iff {s part : Text} {c : CodePoint} : part ∈ s.split c ↔ c ∉ part ∧
    ∃ a b, s = a ++ (part ++ b) ∧ (a = [] ∨ ∃ t, a = t ++ [c]) ∧ (b = [] ∨ ∃ t, b = c :: t) := by
  constructor
  · intro h
    refine ⟨not_mem_of_mem_split h, ?_⟩
    induction hn : s.length using Nat.strong_induction_on generalizing s with
    | _ n ih =>
      by_cases hc : c ∈ s
      · obtain ⟨first, rest, rfl, hfirst⟩ := List.eq_append_cons_of_mem hc
        rw [split_append_cons hfirst] at h
        rcases List.mem_cons.1 h with rfl | h
        · exact ⟨[], c :: rest, rfl, .inl rfl, .inr ⟨rest, rfl⟩⟩
        · have hlt : rest.length < n := by
            rw [← hn, List.length_append, List.length_cons]
            omega
          obtain ⟨a, b, rfl, ha, hb⟩ := ih _ hlt h rfl
          refine ⟨first ++ c :: a, b, by simp, .inr ?_, hb⟩
          rcases ha with rfl | ⟨t, rfl⟩
          · exact ⟨first, rfl⟩
          · exact ⟨first ++ c :: t, by simp⟩
      · rw [split_eq_singleton hc, List.mem_singleton] at h
        subst h
        exact ⟨[], [], by simp, .inl rfl, .inl rfl⟩
  · rintro ⟨hpart, a, b, rfl, ha, hb⟩
    have hback : part ∈ (part ++ b).split c := by
      rcases hb with rfl | ⟨t, rfl⟩
      · rw [List.append_nil, split_eq_singleton hpart]
        exact List.mem_singleton_self part
      · rw [split_append_cons hpart]
        exact List.mem_cons_self
    rcases ha with rfl | ⟨t, rfl⟩
    · exact hback
    · rw [List.append_assoc, List.singleton_append, split_append_sep]
      exact List.mem_append_right _ hback

/-! ### Searching -/

/-- `s.rstrip()`. -/
def rstrip (s : Text) : Text := s.rdropWhile CodePoint.isspace

theorem prefix_rstrip (s : Text) : s.rstrip <+: s := List.rdropWhile_prefix _ _

/-- `s.endswith(ending)`. -/
def endswith (s ending : Text) : Bool := ending.isSuffixOf s

/-- `part in s`. -/
def includes (s part : Text) : Bool := s.tails.any part.isPrefixOf

/-- `s.partition(c)`. -/
def partition (s : Text) (c : CodePoint) : Text × Text × Text :=
  match s.dropWhile (· ≠ c) with
  | [] => (s, [], [])
  | sep :: tail => (s.takeWhile (· ≠ c), [sep], tail)

theorem partition_of_not_mem {s : Text} {c : CodePoint} (h : c ∉ s) :
    s.partition c = (s, [], []) := by
  have hdrop : s.dropWhile (· ≠ c) = [] :=
    List.dropWhile_eq_nil_iff.2 fun d hd => decide_eq_true fun heq => h (heq ▸ hd)
  rw [partition, hdrop]

theorem partition_append_cons {s : Text} {c : CodePoint} (h : c ∉ s) (t : Text) :
    (s ++ c :: t).partition c = (s, [c], t) := by
  have hs : ∀ d ∈ s, decide (d ≠ c) = true := fun d hd => decide_eq_true fun heq => h (heq ▸ hd)
  have hdrop : (s ++ c :: t).dropWhile (· ≠ c) = c :: t := by
    rw [List.dropWhile_append_of_pos hs, List.dropWhile_cons_of_neg (by simp)]
  have htake : (s ++ c :: t).takeWhile (· ≠ c) = s := by
    rw [List.takeWhile_append_of_pos hs, List.takeWhile_cons_of_neg (by simp), List.append_nil]
  rw [partition, hdrop]
  dsimp only
  rw [htake]

theorem partition_cases (s : Text) (c : CodePoint) : c ∉ s ∧ s.partition c = (s, [], []) ∨
    ∃ head tail, c ∉ head ∧ s = head ++ c :: tail ∧ s.partition c = (head, [c], tail) := by
  by_cases h : c ∈ s
  · obtain ⟨head, tail, rfl, hhead⟩ := List.eq_append_cons_of_mem h
    exact .inr ⟨head, tail, hhead, rfl, partition_append_cons hhead tail⟩
  · exact .inl ⟨h, partition_of_not_mem h⟩

/-- `s.rpartition(c)`. -/
def rpartition (s : Text) (c : CodePoint) : Text × Text × Text :=
  match s.reverse.dropWhile (· ≠ c) with
  | [] => ([], [], s)
  | sep :: head => (head.reverse, [sep], (s.reverse.takeWhile (· ≠ c)).reverse)

theorem rpartition_of_not_mem {s : Text} {c : CodePoint} (h : c ∉ s) :
    s.rpartition c = ([], [], s) := by
  have hdrop : s.reverse.dropWhile (· ≠ c) = [] :=
    List.dropWhile_eq_nil_iff.2 fun d hd =>
      decide_eq_true fun heq => h (heq ▸ List.mem_reverse.1 hd)
  rw [rpartition, hdrop]

theorem rpartition_append_cons {tail : Text} {c : CodePoint} (h : c ∉ tail) (head : Text) :
    (head ++ c :: tail).rpartition c = (head, [c], tail) := by
  have htail : ∀ d ∈ tail.reverse, decide (d ≠ c) = true :=
    fun d hd => decide_eq_true fun heq => h (heq ▸ List.mem_reverse.1 hd)
  have hreverse : (head ++ c :: tail).reverse = tail.reverse ++ c :: head.reverse := by simp
  have hdrop : (head ++ c :: tail).reverse.dropWhile (· ≠ c) = c :: head.reverse := by
    rw [hreverse, List.dropWhile_append_of_pos htail, List.dropWhile_cons_of_neg (by simp)]
  have htake : (head ++ c :: tail).reverse.takeWhile (· ≠ c) = tail.reverse := by
    rw [hreverse, List.takeWhile_append_of_pos htail, List.takeWhile_cons_of_neg (by simp),
      List.append_nil]
  rw [rpartition, hdrop]
  dsimp only
  rw [htake, List.reverse_reverse, List.reverse_reverse]

theorem rpartition_cases (s : Text) (c : CodePoint) : c ∉ s ∧ s.rpartition c = ([], [], s) ∨
    ∃ head tail, c ∉ tail ∧ s = head ++ c :: tail ∧ s.rpartition c = (head, [c], tail) := by
  by_cases h : c ∈ s
  · obtain ⟨tail, head, hs, htail⟩ := List.eq_append_cons_of_mem (List.mem_reverse.2 h)
    have hs' : s = head.reverse ++ c :: tail.reverse := by
      rw [← List.reverse_reverse s, hs]
      simp
    have htail' : c ∉ tail.reverse := fun hmem => htail (List.mem_reverse.1 hmem)
    exact .inr ⟨head.reverse, tail.reverse, htail', hs', hs' ▸ rpartition_append_cons htail' _⟩
  · exact .inl ⟨h, rpartition_of_not_mem h⟩

/-! ### Numbers -/

variable (decimal : CodePoint → Option ℕ)

/-- Decimal digits with single underscores between them, at most as many as `int` reads. -/
def natural (s : Text) : Option ℕ := do
  let groups ← (s.split 0x5F).mapM fun group => if group.isEmpty then none else group.mapM decimal
  let digits := groups.flatten
  if 4300 < digits.length then none else some (digits.foldl (fun n d => 10 * n + d) 0)

/-- `int(s)`, `none` when it raises; `decimal` gives the values of the decimal digits. -/
def int (s : Text) : Option ℤ :=
  match s.strip with
  | [] => none
  | c :: digits =>
    if c = 0x2D then (natural decimal digits).map fun n => -(n : ℤ)
    else if c = 0x2B then (natural decimal digits).map Int.ofNat
    else (natural decimal (c :: digits)).map Int.ofNat

end Text

end Python
