import ForgejoMcp.OAuth.Recovery

/-!
# Runs of the recovery cache

Requests for entries, interleaved with acquisitions and releases of their locks and with the pairs
that are stored under a lock.  A request may hold an entry long before it acquires its lock.
-/

namespace ForgejoMcp.OAuth

/-- What happens to the cache. -/
inductive CacheEvent
  | request (id : Uuid) (now : Time)
  | acquire (ref t : ℕ)
  | store (ref : ℕ) (token : OAuthToken) (expiresAt : Time)
  | release (ref : ℕ)

namespace Memory

/-- One event; an entry object can be locked once a request created it, and only its holder stores
a pair or releases the lock. -/
def step (m : Memory) : CacheEvent → Option Memory
  | .request id now => some (m.refreshRecoveryEntry id now).2
  | .acquire ref t => if ref < m.objects.length then (m.acquire ref t).map Prod.snd else none
  | .store ref token expiresAt => if m.locked ref then some (m.store ref token expiresAt) else none
  | .release ref => if m.locked ref then some (m.release ref) else none

/-- The cache after some events, the latest first. -/
def run : List CacheEvent → Option Memory
  | [] => some ⟨[], []⟩
  | event :: events => (run events).bind (·.step event)

end Memory

/-- When the entry of a token was last requested, as the number of events up to then. -/
def lastRequest (id : Uuid) : List CacheEvent → ℕ
  | [] => 0
  | .request id' _ :: events => if id' = id then events.length + 1 else lastRequest id events
  | _ :: events => lastRequest id events

theorem lastRequest_le (id : Uuid) (events : List CacheEvent) :
    lastRequest id events ≤ events.length := by
  induction events with
  | nil => exact Nat.le_refl 0
  | cons event events ih =>
    cases event with
    | request id' now =>
      rw [lastRequest]
      split
      · exact Nat.le_refl _
      · exact Nat.le_succ_of_le ih
    | acquire | store | release => exact Nat.le_succ_of_le ih

namespace Memory

/-! ### Requests -/

/-- What a request gives and leaves, in a cache that is within its bound. -/
inductive Requested (m : Memory) (id : Uuid) (now : Time) : ℕ × Memory → Prop
  | stored {ref : ℕ} (hmem : (id, ref) ∈ m.live now) : Requested m id now
      (ref, ⟨(m.live now).filter (fun e => e.1 ≠ id) ++ [(id, ref)], m.objects⟩)
  | room (hnew : ∀ e ∈ m.live now, e.1 ≠ id)
      (hroom : (m.live now).length < refreshRecoveryCacheMaxEntries) : Requested m id now
      (m.objects.length, ⟨m.live now ++ [(id, m.objects.length)],
        m.objects ++ [{ refreshTokenId := id }]⟩)
  | evicted {front back : List (Uuid × ℕ)} {e : Uuid × ℕ} (hnew : ∀ e ∈ m.live now, e.1 ≠ id)
      (hfull : refreshRecoveryCacheMaxEntries ≤ (m.live now).length)
      (hlive : m.live now = front ++ e :: back) (hfront : ∀ e ∈ front, m.locked e.2 = true)
      (hfree : m.locked e.2 = false) : Requested m id now
      (m.objects.length, ⟨front ++ back ++ [(id, m.objects.length)],
        m.objects ++ [{ refreshTokenId := id }]⟩)
  | unstored (hnew : ∀ e ∈ m.live now, e.1 ≠ id)
      (hfull : refreshRecoveryCacheMaxEntries ≤ (m.live now).length)
      (hlocked : ∀ e ∈ m.live now, m.locked e.2 = true) : Requested m id now
      (m.objects.length, ⟨m.live now, m.objects ++ [{ refreshTokenId := id }]⟩)

variable {m m' : Memory} {id : Uuid} {now : Time}

theorem live_sublist : (m.live now).Sublist m.entries := List.filter_sublist

theorem requested (id : Uuid) (now : Time)
    (h : m.entries.length ≤ refreshRecoveryCacheMaxEntries) :
    m.Requested id now (m.refreshRecoveryEntry id now) := by
  have hlive : (m.live now).length ≤ refreshRecoveryCacheMaxEntries :=
    Nat.le_trans live_sublist.length_le h
  rw [refreshRecoveryEntry, ← live]
  cases hfind : (m.live now).find? fun e => e.1 = id with
  | some e =>
    obtain ⟨id', ref⟩ := e
    have hid : id' = id := by simpa using List.find?_some hfind
    subst hid
    exact .stored (List.mem_of_find?_eq_some hfind)
  | none =>
    have hnew : ∀ e ∈ m.live now, e.1 ≠ id := by simpa using hfind
    dsimp only
    by_cases hfull : refreshRecoveryCacheMaxEntries ≤ (m.live now).length
    · rw [if_pos hfull]
      by_cases hlocked : ∀ e ∈ m.live now, m.locked e.2 = true
      · have hnone : (m.live now).eraseP (fun e => !m.locked e.2) = m.live now :=
          List.eraseP_of_forall_not fun e he => by rw [hlocked e he]; exact Bool.false_ne_true
        rw [hnone, if_neg (Nat.not_lt.2 hfull)]
        exact .unstored hnew hfull hlocked
      · obtain ⟨e₀, he₀, hfree₀⟩ : ∃ e ∈ m.live now, (!m.locked e.2) = true := by
          simpa using hlocked
        obtain ⟨e, front, back, hfront, hfree, heq, herase⟩ :=
          List.exists_of_eraseP (p := fun e => !m.locked e.2) he₀ hfree₀
        have hlength : (front ++ back).length < refreshRecoveryCacheMaxEntries := by
          rw [heq] at hlive
          simp only [List.length_append, List.length_cons] at hlive ⊢
          omega
        rw [herase, if_pos hlength]
        exact .evicted hnew hfull heq (fun e he => by simpa using hfront e he) (by simpa using hfree)
    · rw [if_neg hfull, if_pos (Nat.not_le.1 hfull)]
      exact .room hnew (Nat.not_le.1 hfull)

/-! ### The invariant -/

/-- The cache is within its bound, and its entries are in the order of their last requests. -/
structure Ordered (events : List CacheEvent) (m : Memory) : Prop where
  bounded : m.entries.length ≤ refreshRecoveryCacheMaxEntries
  ordered : m.entries.Pairwise fun a b => lastRequest a.1 events < lastRequest b.1 events
  created : ∀ e ∈ m.entries, e.2 < m.objects.length

variable {events : List CacheEvent}

theorem ordered_empty : Ordered [] ⟨[], []⟩ where
  bounded := Nat.zero_le _
  ordered := .nil
  created := fun _ he => (List.not_mem_nil he).elim

theorem Ordered.nodup (h : m.Ordered events) : (m.entries.map Prod.fst).Nodup := by
  rw [List.Nodup, List.pairwise_map]
  refine h.ordered.imp fun {a b} hlt (heq : a.1 = b.1) => ?_
  rw [heq] at hlt
  exact Nat.lt_irrefl _ hlt

theorem Ordered.unique (h : m.Ordered events) {ref ref' : ℕ} (hmem : (id, ref) ∈ m.entries)
    (hmem' : (id, ref') ∈ m.entries) : ref = ref' := by
  have heq := List.inj_on_of_nodup_map h.nodup hmem hmem' rfl
  exact congrArg Prod.snd heq

/-- Events that are no requests leave the dictionary and create no object. -/
theorem step_eq (events : List CacheEvent) {event : CacheEvent} (h : m.step event = some m') :
    (∃ id now, event = .request id now ∧ m' = (m.refreshRecoveryEntry id now).2) ∨
      m'.entries = m.entries ∧ m'.objects.length = m.objects.length ∧
        ∀ id, lastRequest id (event :: events) = lastRequest id events := by
  cases event with
  | request id now => exact .inl ⟨id, now, rfl, (Option.some.inj h).symm⟩
  | acquire ref t =>
    refine .inr ?_
    rw [step] at h
    split at h
    · obtain ⟨⟨⟨⟩, m₁⟩, hacquire, rfl⟩ := Option.map_eq_some_iff.1 h
      rw [acquire_eq hacquire]
      exact ⟨rfl, List.length_modify .., fun _ => rfl⟩
    · cases h
  | store ref token expiresAt =>
    refine .inr ?_
    rw [step] at h
    split at h
    · rw [← Option.some.inj h]
      exact ⟨rfl, List.length_modify .., fun _ => rfl⟩
    · cases h
  | release ref =>
    refine .inr ?_
    rw [step] at h
    split at h
    · rw [← Option.some.inj h]
      exact ⟨rfl, List.length_modify .., fun _ => rfl⟩
    · cases h

/-- Entries other than the requested one keep their order. -/
theorem Ordered.pairwise_request (h : m.Ordered events) {kept : List (Uuid × ℕ)}
    (hkept : kept.Sublist m.entries) (hne : ∀ e ∈ kept, e.1 ≠ id) :
    kept.Pairwise fun a b => lastRequest a.1 (.request id now :: events) <
      lastRequest b.1 (.request id now :: events) := by
  refine (h.ordered.sublist hkept).imp_of_mem fun ha hb hlt => ?_
  rw [lastRequest, lastRequest, if_neg (hne _ ha).symm, if_neg (hne _ hb).symm]
  exact hlt

/-- The requested entry comes last. -/
theorem Ordered.pairwise_append (h : m.Ordered events) {kept : List (Uuid × ℕ)}
    (hkept : kept.Sublist m.entries) (hne : ∀ e ∈ kept, e.1 ≠ id) (ref : ℕ) :
    (kept ++ [(id, ref)]).Pairwise fun a b => lastRequest a.1 (.request id now :: events) <
      lastRequest b.1 (.request id now :: events) := by
  refine List.pairwise_append.2 ⟨h.pairwise_request hkept hne, List.pairwise_singleton _ _, ?_⟩
  intro a ha b hb
  rw [List.mem_singleton.1 hb, lastRequest, lastRequest, if_neg (hne a ha).symm, if_pos rfl]
  exact Nat.lt_succ_of_le (lastRequest_le _ _)

theorem Ordered.request (h : m.Ordered events) :
    (m.refreshRecoveryEntry id now).2.Ordered (.request id now :: events) := by
  have hsub : (m.live now).Sublist m.entries := live_sublist
  have hcreated {kept : List (Uuid × ℕ)} (hkept : kept.Sublist m.entries) :
      ∀ e ∈ kept ++ [(id, m.objects.length)],
        e.2 < (m.objects ++ [({ refreshTokenId := id } : RecoveryEntry)]).length := by
    intro e he
    rw [List.length_append, List.length_singleton]
    rcases List.mem_append.1 he with he | he
    · exact Nat.lt_succ_of_lt (h.created e (hkept.subset he))
    · rw [List.mem_singleton.1 he]
      exact Nat.lt_succ_self _
  generalize hresult : m.refreshRecoveryEntry id now = result
  have hrequested := hresult ▸ requested id now h.bounded
  cases hrequested with
  | @stored ref hmem =>
    have hothers : ((m.live now).filter fun e => e.1 ≠ id).Sublist m.entries :=
      List.filter_sublist.trans hsub
    have hne : ∀ e ∈ (m.live now).filter fun e => e.1 ≠ id, e.1 ≠ id := fun e he =>
      of_decide_eq_true (List.mem_filter.1 he).2
    refine ⟨?_, h.pairwise_append hothers hne ref, fun e he => ?_⟩
    · have hlt : ((m.live now).filter fun e => e.1 ≠ id).length < (m.live now).length :=
        List.length_filter_lt_length_iff_exists.2 ⟨_, hmem, by simp⟩
      have hle := hsub.length_le
      have hbound := h.bounded
      rw [List.length_append, List.length_singleton]
      omega
    · rcases List.mem_append.1 he with he | he
      · exact h.created e (hothers.subset he)
      · rw [List.mem_singleton.1 he]
        exact h.created _ (hsub.subset hmem)
  | room hnew hroom =>
    refine ⟨?_, h.pairwise_append hsub hnew _, hcreated hsub⟩
    rw [List.length_append, List.length_singleton]
    exact hroom
  | @evicted front back e hnew hfull hlive hfront hfree =>
    have hkept : (front ++ back).Sublist (m.live now) := by
      rw [hlive]
      exact (List.sublist_cons_self e back).append_left front
    refine ⟨?_, h.pairwise_append (hkept.trans hsub) (fun e he => hnew e (hkept.subset he)) _,
      hcreated (hkept.trans hsub)⟩
    have hle := hsub.length_le
    have hbound := h.bounded
    rw [hlive] at hle
    simp only [List.length_append, List.length_cons, List.length_nil] at hle ⊢
    omega
  | unstored hnew hfull hlocked =>
    refine ⟨Nat.le_trans hsub.length_le h.bounded, h.pairwise_request hsub hnew, fun e he => ?_⟩
    exact hcreated hsub e (List.mem_append_left _ he)

theorem Ordered.step (h : m.Ordered events) {event : CacheEvent} (hstep : m.step event = some m') :
    m'.Ordered (event :: events) := by
  rcases step_eq events hstep with ⟨id, now, rfl, rfl⟩ | ⟨hentries, hobjects, hlast⟩
  · exact h.request
  · refine ⟨hentries ▸ h.bounded, ?_, fun e he => hobjects ▸ h.created e (hentries ▸ he)⟩
    rw [hentries]
    exact h.ordered.imp fun hlt => by rwa [hlast, hlast]

theorem ordered_of_run (h : run events = some m) : m.Ordered events := by
  induction events generalizing m with
  | nil =>
    cases h
    exact ordered_empty
  | cons event events ih =>
    obtain ⟨m₀, hrun, hstep⟩ := Option.bind_eq_some_iff.1 h
    exact (ih hrun).step hstep

/-! ### Entries that are held -/

/-- An entry is stored and its lock is held. -/
def Held (m : Memory) (id : Uuid) (ref : ℕ) : Prop := (id, ref) ∈ m.entries ∧ m.locked ref = true

theorem live_of_held {ref : ℕ} (h : m.Held id ref) : (id, ref) ∈ m.live now :=
  List.mem_filter.2 ⟨h.1, by rw [h.2]; simp⟩

/-- A stored entry that is not removed as expired is the one that a request gives. -/
theorem Ordered.fst_request (h : m.Ordered events) {ref : ℕ} (hmem : (id, ref) ∈ m.live now) :
    (m.refreshRecoveryEntry id now).1 = ref := by
  generalize hresult : m.refreshRecoveryEntry id now = result
  have hrequested := hresult ▸ requested id now h.bounded
  cases hrequested with
  | stored hmem' => exact h.unique (live_sublist.subset hmem') (live_sublist.subset hmem)
  | room hnew | evicted hnew | unstored hnew => exact absurd rfl (hnew _ hmem)

theorem locked_of_objects {objects : List RecoveryEntry} {entries : List (Uuid × ℕ)} {ref : ℕ}
    (hlocked : m.locked ref = true) : locked ⟨entries, m.objects ++ objects⟩ ref = true := by
  rw [locked] at hlocked ⊢
  cases hget : m.objects[ref]? with
  | none =>
    rw [hget] at hlocked
    cases hlocked
  | some entry =>
    rw [hget] at hlocked
    rw [List.getElem?_append_left (List.getElem?_eq_some_iff.1 hget).1, hget]
    exact hlocked

theorem Ordered.held_request (h : m.Ordered events) {ref : ℕ} (hheld : m.Held id ref) (id' : Uuid) :
    (m.refreshRecoveryEntry id' now).2.Held id ref := by
  have hlive : (id, ref) ∈ m.live now := live_of_held hheld
  have hlocked := hheld.2
  generalize hresult : m.refreshRecoveryEntry id' now = result
  have hrequested := hresult ▸ requested id' now h.bounded
  cases hrequested with
  | stored hmem =>
    refine ⟨List.mem_append.2 ?_, hlocked⟩
    rcases eq_or_ne id id' with rfl | hne
    · rw [h.unique (live_sublist.subset hmem) (live_sublist.subset hlive)]
      exact .inr (List.mem_singleton_self _)
    · exact .inl (List.mem_filter.2 ⟨hlive, decide_eq_true hne⟩)
  | room hnew => exact ⟨List.mem_append_left _ hlive, locked_of_objects hlocked⟩
  | evicted hnew hfull heq hfront hfree =>
    refine ⟨List.mem_append_left _ ?_, locked_of_objects hlocked⟩
    rw [heq] at hlive
    rcases List.mem_append.1 hlive with hmem | hmem
    · exact List.mem_append_left _ hmem
    · rcases List.mem_cons.1 hmem with rfl | hmem
      · rw [hlocked] at hfree
        cases hfree
      · exact List.mem_append_right _ hmem
  | unstored hnew hfull => exact ⟨hlive, locked_of_objects hlocked⟩

theorem locked_modify {f : RecoveryEntry → RecoveryEntry} {ref ref' : ℕ}
    (hlocked : m.locked ref = true) (hf : ref' = ref → ∀ entry : RecoveryEntry,
      entry.holder.isSome = true → (f entry).holder.isSome = true) :
    (m.modify ref' f).locked ref = true := by
  rw [locked] at hlocked
  rw [locked, modify, List.getElem?_modify]
  cases hget : m.objects[ref]? with
  | none =>
    rw [hget] at hlocked
    cases hlocked
  | some entry =>
    rw [hget] at hlocked
    change (if ref' = ref then f entry else entry).holder.isSome = true
    split
    · rename_i hsame
      exact hf hsame entry hlocked
    · exact hlocked

/-- Only a release ends the hold. -/
theorem Ordered.held_step (h : m.Ordered events) {ref : ℕ} {event : CacheEvent}
    (hheld : m.Held id ref) (hstep : m.step event = some m') (hevent : event ≠ .release ref) :
    m'.Held id ref := by
  cases event with
  | request id' now =>
    rw [← Option.some.inj hstep]
    exact h.held_request hheld id'
  | acquire ref' t =>
    rw [Memory.step] at hstep
    split at hstep
    · obtain ⟨⟨⟨⟩, m₁⟩, hacquire, rfl⟩ := Option.map_eq_some_iff.1 hstep
      rw [acquire_eq hacquire]
      exact ⟨hheld.1, locked_modify hheld.2 fun _ _ _ => rfl⟩
    · cases hstep
  | store ref' token expiresAt =>
    rw [Memory.step] at hstep
    split at hstep
    · rw [← Option.some.inj hstep]
      exact ⟨hheld.1, locked_modify hheld.2 fun _ _ hholder => hholder⟩
    · cases hstep
  | release ref' =>
    rw [Memory.step] at hstep
    split at hstep
    · rw [← Option.some.inj hstep]
      exact ⟨hheld.1, locked_modify hheld.2 fun hsame => absurd (congrArg _ hsame) hevent⟩
    · cases hstep

/-! ### Entries that are not stored -/

/-- An object that no token leads to. -/
def Unstored (m : Memory) (ref : ℕ) : Prop :=
  ref < m.objects.length ∧ ∀ e ∈ m.entries, e.2 ≠ ref

/-- A request gives a stored object or a new one. -/
theorem Ordered.unstored_request (h : m.Ordered events) {ref : ℕ} (hunstored : m.Unstored ref)
    (id : Uuid) (now : Time) :
    (m.refreshRecoveryEntry id now).1 ≠ ref ∧ (m.refreshRecoveryEntry id now).2.Unstored ref := by
  obtain ⟨hcreated, hnot⟩ := hunstored
  have hnew : m.objects.length ≠ ref := Nat.ne_of_gt hcreated
  have hlength : ref < (m.objects ++ [({ refreshTokenId := id } : RecoveryEntry)]).length := by
    rw [List.length_append]
    exact Nat.lt_add_right _ hcreated
  have hlive {e : Uuid × ℕ} (he : e ∈ m.live now) : e.2 ≠ ref := hnot e (live_sublist.subset he)
  generalize hresult : m.refreshRecoveryEntry id now = result
  have hrequested := hresult ▸ requested id now h.bounded
  cases hrequested with
  | stored hmem =>
    refine ⟨hlive hmem, hcreated, fun e he => ?_⟩
    rcases List.mem_append.1 he with he | he
    · exact hlive (List.mem_filter.1 he).1
    · rw [List.mem_singleton.1 he]
      exact hlive hmem
  | room =>
    refine ⟨hnew, hlength, fun e he => ?_⟩
    rcases List.mem_append.1 he with he | he
    · exact hlive he
    · rw [List.mem_singleton.1 he]
      exact hnew
  | @evicted front back e₀ _ _ heq =>
    refine ⟨hnew, hlength, fun e he => ?_⟩
    rcases List.mem_append.1 he with he | he
    · refine hlive (heq ▸ ?_)
      exact ((List.sublist_cons_self e₀ back).append_left front).subset he
    · rw [List.mem_singleton.1 he]
      exact hnew
  | unstored => exact ⟨hnew, hlength, fun e he => hlive he⟩

theorem Ordered.unstored_step (h : m.Ordered events) {ref : ℕ} {event : CacheEvent}
    (hunstored : m.Unstored ref) (hstep : m.step event = some m') : m'.Unstored ref := by
  rcases step_eq events hstep with ⟨id, now, rfl, rfl⟩ | ⟨hentries, hobjects, -⟩
  · exact (h.unstored_request hunstored id now).2
  · exact ⟨hobjects ▸ hunstored.1, hentries ▸ hunstored.2⟩

/-- What the later events keep holds after them. -/
theorem run_append {P : Memory → Prop} {later : List CacheEvent} (h : run events = some m)
    (hm : P m) (hkeep : ∀ event ∈ later, ∀ events m m', m.Ordered events → P m →
      m.step event = some m' → P m') (hrun : run (later ++ events) = some m') : P m' := by
  induction later generalizing m' with
  | nil =>
    rw [List.nil_append, h] at hrun
    exact Option.some.inj hrun ▸ hm
  | cons event later ih =>
    obtain ⟨m₀, hrun₀, hstep⟩ := Option.bind_eq_some_iff.1 hrun
    refine hkeep event List.mem_cons_self _ _ _ (ordered_of_run hrun₀) (ih ?_ hrun₀) hstep
    exact fun event hevent => hkeep event (List.mem_cons_of_mem _ hevent)

theorem exists_run {later : List CacheEvent} (hrun : run (later ++ events) = some m') :
    ∃ m, run events = some m := by
  induction later generalizing m' with
  | nil => exact ⟨m', hrun⟩
  | cons event later ih =>
    obtain ⟨m₀, hrun₀, -⟩ := Option.bind_eq_some_iff.1 hrun
    exact ih hrun₀

/-- Acquiring the lock of a stored entry begins a hold. -/
theorem Ordered.held_acquire (h : m.Ordered events) {ref t : ℕ} (hmem : (id, ref) ∈ m.entries)
    (hstep : m.step (.acquire ref t) = some m') : m'.Held id ref := by
  rw [Memory.step, if_pos (h.created _ hmem)] at hstep
  obtain ⟨⟨⟨⟩, m₁⟩, hacquire, rfl⟩ := Option.map_eq_some_iff.1 hstep
  rw [acquire_eq hacquire]
  refine ⟨hmem, ?_⟩
  rw [locked, modify, List.getElem?_modify, List.getElem?_eq_getElem (h.created _ hmem)]
  change (if ref = ref then _ else _ : RecoveryEntry).holder.isSome = true
  rw [if_pos rfl]
  rfl

/-! ### Removals -/

/-- The entry may leave the cache when the entry of `id` is requested: nobody holds it, and it
expired or is the least recently requested of those that nobody holds in a full cache without an
entry of `id`. -/
structure Removable (events : List CacheEvent) (m : Memory) (id : Uuid) (now : Time)
    (e : Uuid × ℕ) : Prop where
  free : m.locked e.2 = false
  cause : m.expired e.2 now = true ∨
    refreshRecoveryCacheMaxEntries ≤ m.entries.length ∧ (∀ e' ∈ m.entries, e'.1 ≠ id) ∧
      ∀ e' ∈ m.entries, m.locked e'.2 = false → e' ≠ e →
        lastRequest e.1 events < lastRequest e'.1 events

theorem Ordered.removable (h : m.Ordered events) {e : Uuid × ℕ} (he : e ∈ m.entries)
    (hgone : e ∉ (m.refreshRecoveryEntry id now).2.entries) : Removable events m id now e := by
  by_cases hlive : e ∈ m.live now
  · generalize hresult : m.refreshRecoveryEntry id now = result at hgone
    have hrequested := hresult ▸ requested id now h.bounded
    cases hrequested with
    | @stored ref hmem =>
      refine absurd (List.mem_append.2 ?_) hgone
      rcases eq_or_ne e.1 id with rfl | hne
      · refine .inr (List.mem_singleton.2 (Prod.ext rfl ?_))
        exact h.unique he (live_sublist.subset hmem)
      · exact .inl (List.mem_filter.2 ⟨hlive, decide_eq_true hne⟩)
    | room => exact absurd (List.mem_append_left _ hlive) hgone
    | @evicted front back e₀ hnew hfull heq hfront hfree =>
      have hall : m.live now = m.entries :=
        live_sublist.eq_of_length_le (Nat.le_trans h.bounded hfull)
      rw [hall] at hnew hfull heq
      have hself : e = e₀ := by
        by_contra hne
        refine hgone (List.mem_append_left _ ?_)
        rw [heq] at he
        rcases List.mem_append.1 he with he | he
        · exact List.mem_append_left _ he
        · exact List.mem_append_right _ ((List.mem_cons.1 he).resolve_left hne)
      subst hself
      refine ⟨hfree, .inr ⟨hfull, hnew, fun e' he' hfree' hne => ?_⟩⟩
      have hordered := h.ordered
      rw [heq] at he' hordered
      rcases List.mem_append.1 he' with hmem | hmem
      · rw [hfront e' hmem] at hfree'
        cases hfree'
      · have hback := (List.mem_cons.1 hmem).resolve_left hne
        exact (List.pairwise_cons.1 (List.pairwise_append.1 hordered).2.1).1 e' hback
    | unstored => exact absurd hlive hgone
  · cases hlocked : m.locked e.2 with
    | true => exact absurd (List.mem_filter.2 ⟨he, by rw [hlocked]; simp⟩) hlive
    | false =>
      cases hexpired : m.expired e.2 now with
      | true => exact ⟨hlocked, .inl hexpired⟩
      | false => exact absurd (List.mem_filter.2 ⟨he, by rw [hexpired]; rfl⟩) hlive

end Memory

/-! ### The recovery cache over its runs -/

/-- What holds of a cache `m` after some events, and of it after later ones. -/
structure RecoveryCacheSound (events : List CacheEvent) (m : Memory) : Prop where
  /-- A stored entry that is not removed as expired is the one that a request gives. -/
  stored : ∀ id ref now, (id, ref) ∈ m.entries →
    ¬(m.expired ref now = true ∧ m.locked ref = false) → (m.refreshRecoveryEntry id now).1 = ref
  removed : ∀ event m', m.step event = some m' → ∀ e ∈ m.entries, e ∉ m'.entries →
    ∃ id now, event = .request id now ∧ m.Removable events id now e
  /-- A stored entry stays, for every request, from the time its lock is acquired on. -/
  held : ∀ id ref t later m', (id, ref) ∈ m.entries →
    Memory.run (later ++ .acquire ref t :: events) = some m' → (∀ e ∈ later, e ≠ .release ref) →
    (id, ref) ∈ m'.entries ∧ ∀ now, (m'.refreshRecoveryEntry id now).1 = ref
  /-- In a cache full of locked entries a new token gets a new entry that is never stored, nor given
  to anyone else. -/
  unstored : ∀ id now, refreshRecoveryCacheMaxEntries ≤ m.entries.length →
    (∀ e ∈ m.entries, m.locked e.2 = true) → (∀ e ∈ m.entries, e.1 ≠ id) →
    (m.refreshRecoveryEntry id now).1 = m.objects.length ∧
      ∀ later m', Memory.run (later ++ .request id now :: events) = some m' →
        (∀ e ∈ m'.entries, e.2 ≠ m.objects.length) ∧
          ∀ id' now', (m'.refreshRecoveryEntry id' now').1 ≠ m.objects.length
  bounded : m.entries.length ≤ refreshRecoveryCacheMaxEntries
  nodup : (m.entries.map Prod.fst).Nodup

open Memory in
/-- **The recovery cache is sound in every run.** -/
theorem recovery_cache_sound (events : List CacheEvent) (m : Memory) (h : Memory.run events = some m) :
    RecoveryCacheSound events m := by
  have hm := ordered_of_run h
  refine ⟨fun id ref now hmem hkept => ?_, fun event m' hstep e he hgone => ?_,
    fun id ref t later m' hmem hrun hlater => ?_, fun id now hfull hlocked hnew => ?_, hm.bounded,
    hm.nodup⟩
  · refine hm.fst_request (List.mem_filter.2 ⟨hmem, ?_⟩)
    cases hexpired : m.expired ref now <;> cases hlock : m.locked ref <;> simp_all
  · rcases step_eq events hstep with ⟨id, now, rfl, rfl⟩ | ⟨hentries, -⟩
    · exact ⟨id, now, rfl, hm.removable he hgone⟩
    · exact absurd (hentries ▸ he) hgone
  · obtain ⟨m₁, hrun₁⟩ := exists_run hrun
    obtain ⟨m₀, hrun₀, hstep⟩ := Option.bind_eq_some_iff.1 hrun₁
    obtain rfl := Option.some.inj (h.symm.trans hrun₀)
    have hheld : m'.Held id ref := run_append hrun₁ (hm.held_acquire hmem hstep)
      (fun event hevent _ _ _ hordered hheld hstep =>
        hordered.held_step hheld hstep (hlater event hevent)) hrun
    exact ⟨hheld.1, fun now => (ordered_of_run hrun).fst_request (live_of_held hheld)⟩
  · have hlive : m.live now = m.entries :=
      List.filter_eq_self.2 fun e he => by rw [hlocked e he]; simp
    have hrequested := requested id now hm.bounded
    have hfirst : (m.refreshRecoveryEntry id now).1 = m.objects.length ∧
        (m.refreshRecoveryEntry id now).2.Unstored m.objects.length := by
      generalize m.refreshRecoveryEntry id now = result at hrequested ⊢
      cases hrequested with
      | stored hmem => exact absurd rfl (hnew _ (live_sublist.subset hmem))
      | room _ hroom =>
        rw [hlive] at hroom
        exact absurd hroom (Nat.not_lt.2 hfull)
      | @evicted front back e _ _ heq _ hfree =>
        have he : e ∈ m.entries := by
          rw [← hlive, heq]
          exact List.mem_append_right _ List.mem_cons_self
        rw [hlocked e he] at hfree
        cases hfree
      | unstored =>
        refine ⟨rfl, ?_, fun e he => Nat.ne_of_lt (hm.created e (live_sublist.subset he))⟩
        rw [List.length_append]
        exact Nat.lt_succ_self _
    refine ⟨hfirst.1, fun later m' hrun => ?_⟩
    have hstart : Memory.run (.request id now :: events) = some (m.refreshRecoveryEntry id now).2 := by
      rw [Memory.run, h]
      rfl
    have hunstored : m'.Unstored m.objects.length := run_append hstart hfirst.2
      (fun _ _ _ _ _ hordered hunstored hstep => hordered.unstored_step hunstored hstep) hrun
    exact ⟨hunstored.2, fun id' now' =>
      ((ordered_of_run hrun).unstored_request hunstored id' now').1⟩

theorem recovery_cache_sound_held : RecoveryCacheSound [.acquire 0 7, .request 5 0]
    ⟨[(5, 0)], [{ refreshTokenId := 5, holder := some 7 }]⟩ :=
  recovery_cache_sound [.acquire 0 7, .request 5 0] _ rfl

end ForgejoMcp.OAuth
