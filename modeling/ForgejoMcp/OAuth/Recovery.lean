import ForgejoMcp.OAuth.Serial

/-!
# The recovery cache

The cache only ever holds pairs that a committed rotation minted from the refresh token the entry
was created for, whatever is evicted and whichever entry objects are still in use.
-/

namespace ForgejoMcp.OAuth

open Transactions

variable {d : Deployment} {h : List (Entry sorts)} {e : Entry sorts} {m m' : Memory}

theorem Minted.append {parent : Uuid} {token : OAuthToken} (hm : Minted d h parent token)
    (ext : List (Entry sorts)) : Minted d (h ++ ext) parent token := by
  obtain ⟨e, he, hrest⟩ := hm
  exact ⟨e, List.mem_append_left _ he, hrest⟩

namespace Memory

/-- The object `ref` was created for the refresh token `id`. -/
def For (m : Memory) (ref : ℕ) (id : Uuid) : Prop :=
  ∃ entry, m.objects[ref]? = some entry ∧ entry.refreshTokenId = id

/-- Cached pairs were minted from the token of their entry, and the dictionary is right about the
token of every entry. -/
structure Sound (d : Deployment) (h : List (Entry sorts)) (m : Memory) : Prop where
  cached : ∀ entry ∈ m.objects, ∀ token, entry.token = some token →
    Minted d h entry.refreshTokenId token
  indexed : ∀ e ∈ m.entries, m.For e.2 e.1

/-- The entry objects stay, with the token they were created for. -/
def Persist (m m' : Memory) : Prop := ∀ ref id, m.For ref id → m'.For ref id

theorem Persist.refl (m : Memory) : Persist m m := fun _ _ hm => hm

theorem sound_empty : Sound d h ⟨[], []⟩ where
  cached := fun _ hm => absurd hm List.not_mem_nil
  indexed := fun _ hm => absurd hm List.not_mem_nil

theorem Sound.append (hm : m.Sound d h) (ext : List (Entry sorts)) : m.Sound d (h ++ ext) where
  cached := fun entry he token ht => (hm.cached entry he token ht).append ext
  indexed := hm.indexed

/-! ### Changes of one object -/

section

variable {f : RecoveryEntry → RecoveryEntry} {ref : ℕ}

theorem Persist.modify (hf : ∀ entry, (f entry).refreshTokenId = entry.refreshTokenId) :
    Persist m (m.modify ref f) := by
  rintro ref' id ⟨entry, hget, hid⟩
  refine ⟨if ref = ref' then f entry else entry, ?_, ?_⟩
  · rw [Memory.modify, List.getElem?_modify, hget]
    rfl
  · split
    · rw [hf, hid]
    · exact hid

theorem Sound.modify (hm : m.Sound d h)
    (hf : ∀ entry, (f entry).refreshTokenId = entry.refreshTokenId)
    (htoken : ∀ entry token, m.objects[ref]? = some entry → (f entry).token = some token →
      Minted d h entry.refreshTokenId token) : (m.modify ref f).Sound d h where
  cached := by
    intro entry' hmem token ht
    obtain ⟨j, hj⟩ := List.mem_iff_getElem?.1 hmem
    rw [Memory.modify, List.getElem?_modify] at hj
    obtain ⟨entry, hget, rfl⟩ := Option.map_eq_some_iff.1 hj
    split at ht
    · rename_i href
      subst href
      rw [if_pos rfl, hf]
      exact htoken entry token hget ht
    · rename_i href
      rw [if_neg href]
      exact hm.cached entry (List.mem_of_getElem? hget) token ht
  indexed := fun e he => Persist.modify hf _ _ (hm.indexed e he)

theorem Sound.modify_of_token (hm : m.Sound d h)
    (hf : ∀ entry, (f entry).refreshTokenId = entry.refreshTokenId)
    (htoken : ∀ entry, (f entry).token = entry.token) : (m.modify ref f).Sound d h :=
  hm.modify hf fun entry token hget ht =>
    hm.cached entry (List.mem_of_getElem? hget) token (htoken entry ▸ ht)

theorem Sound.release (hm : m.Sound d h) (ref : ℕ) : (m.release ref).Sound d h :=
  hm.modify_of_token (fun _ => rfl) fun _ => rfl

theorem Persist.release (ref : ℕ) : Persist m (m.release ref) := Persist.modify fun _ => rfl

theorem acquire_eq {t : ℕ} (h : m.acquire ref t = some ((), m')) :
    m' = m.modify ref fun entry => { entry with holder := some t } := by
  rw [acquire] at h
  split at h
  · cases h
  · exact (congrArg Prod.snd (Option.some.inj h)).symm

/-- A pair may be stored in the entry of the token it was minted from. -/
theorem Sound.store (hm : m.Sound d h) {id : Uuid} {token : OAuthToken} (href : m.For ref id)
    (hminted : Minted d h id token) (expiresAt : Time) :
    (m.store ref token expiresAt).Sound d h := by
  refine hm.modify (fun _ => rfl) fun entry token' hget ht => ?_
  cases ht
  obtain ⟨entry', hget', hid⟩ := href
  rw [hget, Option.some.injEq] at hget'
  subst hget'
  exact hid ▸ hminted

end

theorem Sound.releaseAll (hm : m.Sound d h) (t : ℕ) : (m.releaseAll t).Sound d h where
  cached := by
    intro entry' hmem token ht
    obtain ⟨entry, hentry, rfl⟩ := List.mem_map.1 hmem
    have hsame : (if entry.holder = some t then { entry with holder := none } else entry).token =
        entry.token ∧ (if entry.holder = some t then { entry with holder := none }
          else entry).refreshTokenId = entry.refreshTokenId := by
      split <;> exact ⟨rfl, rfl⟩
    rw [hsame.1] at ht
    rw [hsame.2]
    exact hm.cached entry hentry token ht
  indexed := by
    intro e he
    obtain ⟨entry, hget, hid⟩ := hm.indexed e he
    refine ⟨_, by rw [Memory.releaseAll, List.getElem?_map, hget]; rfl, ?_⟩
    dsimp only
    split <;> exact hid

theorem Persist.releaseAll (t : ℕ) : Persist m (m.releaseAll t) := by
  rintro ref id ⟨entry, hget, hid⟩
  refine ⟨_, by rw [Memory.releaseAll, List.getElem?_map, hget]; rfl, ?_⟩
  dsimp only
  split <;> exact hid

theorem Sound.evict (hm : m.Sound d h) (id : Uuid) : (m.evict id).Sound d h where
  cached := hm.cached
  indexed := fun e he => hm.indexed e (List.mem_of_mem_filter he)

/-- The pair read from an entry was minted from the token of the entry. -/
theorem Sound.minted (hm : m.Sound d h) {ref : ℕ} {id : Uuid} {now : Time} {token : OAuthToken}
    (href : m.For ref id) (hc : m.cached ref now = some token) : Minted d h id token := by
  obtain ⟨entry, hget, rfl⟩ := href
  rw [Memory.cached, hget] at hc
  dsimp only at hc
  split at hc
  · exact hm.cached entry (List.mem_of_getElem? hget) token hc
  · cases hc

/-! ### Requesting an entry -/

/-- The dictionary without the expired entries that are not locked. -/
def live (m : Memory) (now : Time) : List (Uuid × ℕ) :=
  m.entries.filter fun e => !(m.expired e.2 now && !m.locked e.2)

theorem mem_entries_of_mem_live {now : Time} {e : Uuid × ℕ} (he : e ∈ m.live now) :
    e ∈ m.entries :=
  List.mem_of_mem_filter he

variable (id : Uuid) (now : Time)

/-- Requesting an entry gives the stored entry of the token, or else a new object. -/
theorem refreshRecoveryEntry_cases :
    (∃ e ∈ m.live now, e.1 = id ∧ (m.refreshRecoveryEntry id now).1 = e.2 ∧
      (m.refreshRecoveryEntry id now).2.objects = m.objects ∧
      ∀ e' ∈ (m.refreshRecoveryEntry id now).2.entries, e' ∈ m.entries) ∨
    ((m.refreshRecoveryEntry id now).1 = m.objects.length ∧
      (m.refreshRecoveryEntry id now).2.objects = m.objects ++ [{ refreshTokenId := id }] ∧
      ∀ e' ∈ (m.refreshRecoveryEntry id now).2.entries,
        e' ∈ m.entries ∨ e' = (id, m.objects.length)) := by
  have hkept : ∀ e' ∈ (if refreshRecoveryCacheMaxEntries ≤ (m.live now).length then
      (m.live now).eraseP fun e => !m.locked e.2 else m.live now), e' ∈ m.entries := by
    intro e' he'
    split at he'
    · exact mem_entries_of_mem_live (List.mem_of_mem_eraseP he')
    · exact mem_entries_of_mem_live he'
  cases hfind : (m.live now).find? fun e => e.1 = id with
  | some e =>
    obtain ⟨id', ref⟩ := e
    have hid : id' = id := by simpa using List.find?_some hfind
    subst hid
    have hmem : (id', ref) ∈ m.live now := List.mem_of_find?_eq_some hfind
    refine .inl ⟨(id', ref), hmem, rfl, ?_⟩
    rw [refreshRecoveryEntry, ← live, hfind]
    refine ⟨rfl, rfl, fun e' he' => ?_⟩
    rcases List.mem_append.1 he' with he' | he'
    · exact mem_entries_of_mem_live (List.mem_of_mem_filter he')
    · exact List.mem_singleton.1 he' ▸ mem_entries_of_mem_live hmem
  | none =>
    refine .inr ?_
    rw [refreshRecoveryEntry, ← live, hfind]
    dsimp only
    generalize (if refreshRecoveryCacheMaxEntries ≤ (m.live now).length then
      (m.live now).eraseP fun e => !m.locked e.2 else m.live now) = kept at hkept ⊢
    split
    · refine ⟨rfl, rfl, fun e' he' => ?_⟩
      rcases List.mem_append.1 he' with he' | he'
      · exact .inl (hkept e' he')
      · exact .inr (List.mem_singleton.1 he')
    · exact ⟨rfl, rfl, fun e' he' => .inl (hkept e' he')⟩

theorem For.of_objects {ref : ℕ} {id : Uuid} {objects : List RecoveryEntry} (hm : m.For ref id)
    (ho : m'.objects = m.objects ++ objects) : m'.For ref id := by
  obtain ⟨entry, hget, hid⟩ := hm
  exact ⟨entry, by rw [ho, List.getElem?_append_left (List.getElem?_eq_some_iff.1 hget).1, hget],
    hid⟩

theorem Persist.refreshRecoveryEntry : Persist m (m.refreshRecoveryEntry id now).2 := by
  rintro ref id' hm
  rcases m.refreshRecoveryEntry_cases id now with ⟨e, -, -, -, ho, -⟩ | ⟨-, ho, -⟩
  · exact hm.of_objects (ho.trans (List.append_nil _).symm)
  · exact hm.of_objects ho

/-- The entry a request gives is one of the requested token. -/
theorem Sound.for_refreshRecoveryEntry (hm : m.Sound d h) :
    (m.refreshRecoveryEntry id now).2.For (m.refreshRecoveryEntry id now).1 id := by
  rcases m.refreshRecoveryEntry_cases id now with ⟨e, he, hid, href, ho, -⟩ | ⟨href, ho, -⟩
  · subst hid
    rw [href]
    exact (hm.indexed e (mem_entries_of_mem_live he)).of_objects
      (ho.trans (List.append_nil _).symm)
  · exact ⟨_, by rw [href, ho, List.getElem?_concat_length], rfl⟩

theorem Sound.refreshRecoveryEntry (hm : m.Sound d h) :
    (m.refreshRecoveryEntry id now).2.Sound d h where
  cached := by
    rcases m.refreshRecoveryEntry_cases id now with ⟨e, -, -, -, ho, -⟩ | ⟨-, ho, -⟩
    · rw [ho]
      exact hm.cached
    · rw [ho]
      intro entry hmem token ht
      rcases List.mem_append.1 hmem with hmem | hmem
      · exact hm.cached entry hmem token ht
      · rw [List.mem_singleton.1 hmem] at ht
        cases ht
  indexed := by
    have hpersist : Persist m (m.refreshRecoveryEntry id now).2 := .refreshRecoveryEntry id now
    rcases m.refreshRecoveryEntry_cases id now with ⟨e, -, -, -, -, hentries⟩ | ⟨-, ho, hentries⟩
    · exact fun e' he' => hpersist _ _ (hm.indexed e' (hentries e' he'))
    · intro e' he'
      rcases hentries e' he' with he' | rfl
      · exact hpersist _ _ (hm.indexed e' he')
      · exact ⟨_, by rw [ho, List.getElem?_concat_length], rfl⟩

end Memory

end ForgejoMcp.OAuth
