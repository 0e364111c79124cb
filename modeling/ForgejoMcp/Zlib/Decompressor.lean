import Mathlib.Data.List.Basic
import Mathlib.Data.Nat.Notation

/-!
# Streaming decompression

A format says what is known of a stream after some of its bytes.  A decompressor is given the bytes
in chunks, with a bound on what it may return for each; as long as no bound is reached, what it has
returned depends on the bytes alone.
-/

namespace Zlib

/-- What is known after some bytes: more are needed, a stream of `used` bytes is complete, or no
stream begins like this. -/
inductive Progress
  | more (out : List UInt8)
  | done (out : List UInt8) (used : ℕ)
  | bad
  deriving DecidableEq

namespace Progress

/-- What is decoded so far. -/
def out : Progress → List UInt8
  | more out => out
  | done out _ => out
  | bad => []

/-- The end of the stream was reached. -/
def finished : Progress → Bool
  | done _ _ => true
  | _ => false

/-- The bytes after the stream. -/
def unused (z : List UInt8) : Progress → List UInt8
  | done _ used => z.drop used
  | _ => []

end Progress

/-- A format of streams: later bytes change neither what is decoded nor where a stream ends, and they
repair no error. -/
structure Format where
  read : List UInt8 → Progress
  start : read [] = .more []
  bad : ∀ {z} w, read z = .bad → read (z ++ w) = .bad
  done : ∀ {z out used} w, read z = .done out used → read (z ++ w) = .done out used
  used_le : ∀ {z out used}, read z = .done out used → used ≤ z.length
  out_prefix : ∀ {z} w, read (z ++ w) ≠ .bad → (read z).out <+: (read (z ++ w)).out

/-- A decompression object; `decompress` takes a bound on the size of what it returns, and `none` is an
error. -/
structure Decompressor (σ : Type) where
  start : σ
  decompress : σ → List UInt8 → ℕ → Option (List UInt8 × σ)
  eof : σ → Bool
  unusedData : σ → List UInt8

variable {σ : Type} {d : Decompressor σ} {F : Format} {s s' : σ} {z w chunk out : List UInt8} {n : ℕ}

/-- The state of a decompressor that has taken in all of the bytes and reached no bound. -/
inductive Decompressor.Fed (d : Decompressor σ) : σ → List UInt8 → Prop
  | start : d.Fed d.start []
  | decompress {s s' : σ} {z chunk out : List UInt8} {n : ℕ} (fed : d.Fed s z)
      (eq : d.decompress s chunk n = some (out, s')) (lt : out.length < n) : d.Fed s' (z ++ chunk)

/-- A decompressor of the format returns as much as it can for each chunk, up to the bound. -/
structure Decompressor.Meets (d : Decompressor σ) (F : Format) : Prop where
  eof_start : d.eof d.start = false
  ok : ∀ {s z} chunk {n}, d.Fed s z → 0 < n → F.read (z ++ chunk) ≠ .bad →
    ∃ s', d.decompress s chunk n =
        some (((F.read (z ++ chunk)).out.drop (F.read z).out.length).take n, s') ∧
      ((F.read (z ++ chunk)).out.length < (F.read z).out.length + n →
        d.eof s' = (F.read (z ++ chunk)).finished ∧
          d.unusedData s' = (F.read (z ++ chunk)).unused (z ++ chunk))
  bad : ∀ {s z chunk n out s'}, d.Fed s z → 0 < n → F.read (z ++ chunk) = .bad →
    d.decompress s chunk n = some (out, s') → out.length = n

/-! ### Bytes that are accepted -/

/-- The bytes begin a stream or are one, and what is decoded of them has at most `max` bytes. -/
structure Format.Accepts (F : Format) (max : ℕ) (z : List UInt8) : Prop where
  ne_bad : F.read z ≠ .bad
  unused : (F.read z).unused z = []
  length_le : (F.read z).out.length ≤ max

variable {max : ℕ}

theorem Format.accepts_nil (F : Format) (max : ℕ) : F.Accepts max [] where
  ne_bad := by rw [F.start]; nofun
  unused := by rw [F.start]; rfl
  length_le := by rw [F.start]; exact Nat.zero_le _

/-- Whatever begins accepted bytes is accepted. -/
theorem Format.Accepts.of_append (h : F.Accepts max (z ++ w)) : F.Accepts max z where
  ne_bad := fun hbad => h.ne_bad (F.bad w hbad)
  unused := by
    match hz : F.read z with
    | .more out => rfl
    | .bad => rfl
    | .done out used =>
      have hunused := h.unused
      rw [F.done w hz] at hunused
      have hlength := List.drop_eq_nil_iff.1 hunused
      rw [List.length_append] at hlength
      exact List.drop_eq_nil_iff.2 (by omega)
  length_le := Nat.le_trans (F.out_prefix w h.ne_bad).length_le h.length_le

/-- A stream without anything after it. -/
theorem Format.done_length_iff : F.read z = .done out z.length ↔
    (F.read z).finished = true ∧ (F.read z).unused z = [] ∧ (F.read z).out = out := by
  constructor
  · intro h
    rw [h]
    exact ⟨rfl, List.drop_length, rfl⟩
  · match h : F.read z with
    | .more out' => exact fun hfinished => nomatch hfinished.1
    | .bad => exact fun hfinished => nomatch hfinished.1
    | .done out' used =>
      rintro ⟨-, hunused, rfl⟩
      have hle := F.used_le h
      have hge := List.drop_eq_nil_iff.1 hunused
      rw [Nat.le_antisymm hle hge]
      rfl

/-- A chunk that leads to accepted bytes is decompressed whole, with a bound of one more than there is
room for. -/
theorem Decompressor.Meets.exists_of_accepts (h : d.Meets F) (hfed : d.Fed s z)
    (hnext : F.Accepts max (z ++ chunk)) :
    ∃ s', d.decompress s chunk (max - (F.read z).out.length + 1) =
        some ((F.read (z ++ chunk)).out.drop (F.read z).out.length, s') ∧
      d.Fed s' (z ++ chunk) ∧ d.eof s' = (F.read (z ++ chunk)).finished ∧ d.unusedData s' = [] := by
  obtain ⟨s', heq, hend⟩ := h.ok chunk hfed (Nat.succ_pos (max - (F.read z).out.length)) hnext.ne_bad
  have hlength := hnext.length_le
  have hshort : ((F.read (z ++ chunk)).out.drop (F.read z).out.length).length <
      max - (F.read z).out.length + 1 := by
    rw [List.length_drop]
    omega
  rw [List.take_of_length_le (Nat.le_of_lt hshort)] at heq
  obtain ⟨heof, hunused⟩ := hend (by omega)
  exact ⟨s', heq, hfed.decompress heq hshort, heof, hunused.trans hnext.unused⟩

/-- The bytes are accepted if a chunk is decompressed within the room that is left, with nothing
after the stream. -/
theorem Decompressor.Meets.accepts_of_decompress (h : d.Meets F) (hfed : d.Fed s z)
    (heq : d.decompress s chunk (max - (F.read z).out.length + 1) = some (out, s'))
    (hunused : d.unusedData s' = []) (hlength : (F.read z).out.length + out.length ≤ max) :
    F.Accepts max (z ++ chunk) := by
  have hpos := Nat.succ_pos (max - (F.read z).out.length)
  have hne : F.read (z ++ chunk) ≠ .bad := fun hbad => by
    have hout := h.bad hfed hpos hbad heq
    omega
  obtain ⟨s'', heq', hend⟩ := h.ok chunk hfed hpos hne
  obtain ⟨rfl, rfl⟩ := Prod.mk.inj (Option.some.inj (heq'.symm.trans heq))
  rw [List.length_take, List.length_drop] at hlength
  obtain ⟨-, hunused'⟩ := hend (by omega)
  exact ⟨hne, hunused'.symm.trans hunused, by omega⟩

/-! ### A decompressor for every format -/

/-- The decompressor that keeps all bytes. -/
def Format.decompressor (F : Format) : Decompressor (List UInt8) where
  start := []
  decompress := fun z chunk n =>
    if F.read (z ++ chunk) = .bad then none
    else some (((F.read (z ++ chunk)).out.drop (F.read z).out.length).take n, z ++ chunk)
  eof := fun z => (F.read z).finished
  unusedData := fun z => (F.read z).unused z

theorem Format.eq_of_fed {z z' : List UInt8} (h : F.decompressor.Fed z z') : z = z' := by
  induction h with
  | start => rfl
  | @decompress s s' z chunk out n fed eq lt ih =>
    subst ih
    rw [Format.decompressor] at eq
    dsimp only at eq
    split at eq
    · cases eq
    · exact (Prod.mk.inj (Option.some.inj eq)).2.symm

theorem Format.meets_decompressor (F : Format) : F.decompressor.Meets F where
  eof_start := by
    show (F.read []).finished = false
    rw [F.start]
    rfl
  ok := fun {s z} chunk {n} hfed _ hne => by
    obtain rfl := Format.eq_of_fed hfed
    exact ⟨s ++ chunk, if_neg hne, fun _ => ⟨rfl, rfl⟩⟩
  bad := fun {s z chunk n out s'} hfed _ hbad heq => by
    obtain rfl := Format.eq_of_fed hfed
    rw [Format.decompressor] at heq
    dsimp only at heq
    rw [if_pos hbad] at heq
    cases heq

/-- The format of the one stream `wire`, which is decoded a byte at a time after the first `delay`
bytes. -/
def Format.single (wire out : List UInt8) (delay : ℕ) (hne : wire ≠ []) : Format where
  read := fun z =>
    if wire <+: z then .done out wire.length
    else if z <+: wire then .more (out.take (z.length - delay)) else .bad
  start := by
    rw [if_neg (by simpa using hne), if_pos List.nil_prefix, List.length_nil, Nat.zero_sub,
      List.take_zero]
  bad := fun {z} w h => by
    split at h
    · cases h
    · rename_i hnot
      split at h
      · cases h
      · rename_i hnot'
        rw [if_neg fun hle => ?_, if_neg fun hle => hnot' ((List.prefix_append z w).trans hle)]
        exact (List.prefix_or_prefix_of_prefix hle (List.prefix_append z w)).elim hnot hnot'
  done := fun {z out' used} w h => by
    split at h
    · rename_i hle
      rw [if_pos (hle.trans (List.prefix_append z w)), h]
    · split at h <;> cases h
  used_le := fun {z out' used} h => by
    split at h
    · rename_i hle
      cases h
      exact hle.length_le
    · split at h <;> cases h
  out_prefix := fun {z} w h => by
    by_cases hz : wire <+: z
    · have hz' := hz.trans (List.prefix_append z w)
      exact (if_pos hz).trans (if_pos hz').symm ▸ List.prefix_rfl
    rw [if_neg hz]
    split
    · split
      · exact List.take_prefix _ _
      · split
        · refine List.take_prefix_take_left ?_
          rw [List.length_append]
          omega
        · rename_i hnot hnot'
          exact absurd (by rw [if_neg hnot, if_neg hnot']) h
    · exact List.nil_prefix

end Zlib
