import ForgejoMcp.OAuth.Origin

/-!
# Where grants come from

A token has a grant after a commit because it had it before, because the commit issued it with the
grant, or because the commit replaced its grants.  Only stored tokens have grants.
-/

namespace ForgejoMcp.OAuth

open Transactions

variable {d : Deployment} {base : Db} {h : List (Entry sorts)} {e : Entry sorts} {m : Uuid}
  {tool : String}

/-- Why the token `m` has a grant for the tool after a commit. -/
inductive GrantOrigin (base : Db) (h : List (Entry sorts)) (e : Entry sorts) (m : Uuid)
    (tool : String) : Prop
  | kept (granted : (after base h).Granted m tool)
      (explicit : ∀ tools ownedAt, e.label ≠ .grants m tools ownedAt)
      (pruned : ∀ user tools prunedAt, e.label = .allowances user tools prunedAt →
        (after base (h.take prunedAt)).Granted m tool →
        (after base (h.take prunedAt)).owner m = some user → tool ∈ tools)
  | issued (i : Issue) (label : e.label.issue? = some i) (id : i.accessId = m)
      (mem : tool ∈ i.toolNames)
  | explicit (tools : List String) (ownedAt : ℕ) (label : e.label = .grants m tools ownedAt)
      (mem : tool ∈ tools)

theorem mem_grantRecords {i : Issue} {grant : McpTokenToolGrant} (hg : grant ∈ i.grantRecords) :
    i.accessId = grant.mcpTokenId ∧ grant.toolName ∈ i.toolNames := by
  obtain ⟨name, hname, rfl⟩ := List.mem_map.1 hg
  exact ⟨rfl, mem_sorted.1 hname⟩

/-- Every grant after a commit has an origin. -/
theorem Step.grantOrigin (hs : Step d base h e) (hg : e.db.Granted m tool) :
    GrantOrigin base h e m tool := by
  rw [Db.Granted] at hg
  have kept : (∀ user tools prunedAt, e.label ≠ .allowances user tools prunedAt) →
      (∀ tools ownedAt, e.label ≠ .grants m tools ownedAt) → (after base h).Granted m tool →
      GrantOrigin base h e m tool := fun hallow hexp hold =>
    .kept hold hexp fun user tools prunedAt hl => absurd hl (hallow user tools prunedAt)
  cases hs.permissionChange with
  | same hkeeps hgrants _ =>
    rw [hgrants] at hg
    refine kept (fun _ _ _ he => ?_) (fun _ _ he => ?_) hg <;>
      rw [he] at hkeeps <;> cases hkeeps
  | issued i hl hfresh hgrants _ =>
    rw [hgrants] at hg
    rcases Table.mem_or_mem_of_mem_insertAll hg with hold | hnew
    · refine kept (fun _ _ _ he => ?_) (fun _ _ he => ?_) hold <;>
        rw [he] at hl <;> cases hl
    · obtain ⟨hid, hmem⟩ := mem_grantRecords hnew
      exact .issued i hl hid hmem
  | allowances user tools prunedAt pruned hl hx hgrants _ =>
    rw [hgrants] at hg
    obtain ⟨hold, hnot⟩ := Table.mem_delete.1 hg
    refine .kept hold (fun _ _ he => by rw [hl] at he; cases he) fun user' tools' prunedAt' hl' hwas
      howner => ?_
    rw [hl] at hl'
    cases hl'
    by_contra hout
    exact of_decide_eq_false hnot ((hx.mem_pruned m tool).2 ⟨hwas, howner, hout⟩)
  | grants tokenId tools ownedAt user hl hx hgrants _ =>
    rw [hgrants] at hg
    rcases Table.mem_or_mem_of_mem_insertAll hg with hold | hnew
    · obtain ⟨hold, hnot⟩ := Table.mem_delete.1 hold
      refine kept (fun _ _ _ he => by rw [hl] at he; cases he) (fun tools' ownedAt' he => ?_) hold
      rw [hl] at he
      cases he
      exact of_decide_eq_false hnot rfl
    · obtain ⟨name, hname, heq⟩ := List.mem_map.1 hnew
      cases heq
      exact .explicit tools ownedAt hl (mem_sorted.1 hname)

/-- A commit that replaces the grants of a token leaves it those grants. -/
theorem Step.granted_of_explicit (hs : Step d base h e) {tools : List String} {ownedAt : ℕ}
    (hl : e.label = .grants m tools ownedAt) (hmem : tool ∈ tools) : e.db.Granted m tool := by
  unfold Step at hs
  rw [hl] at hs
  obtain ⟨user, settings, log, hdb, -⟩ := hs
  have hgrants : e.db.mcpTokenToolGrants = _ := (congrArg Db.mcpTokenToolGrants hdb :)
  rw [Db.Granted, hgrants]
  refine (Table.mem_insertAll (fun grant hgrant => ?_) ?_).2
    (.inr (List.mem_map.2 ⟨tool, mem_sorted.2 hmem, rfl⟩))
  · -- the old grants of the token are deleted
    obtain ⟨name, -, rfl⟩ := List.mem_map.1 hgrant
    refine Table.get_eq_none.2 fun old hold hkey => ?_
    exact of_decide_eq_false (Table.mem_delete.1 hold).2 (congrArg Prod.fst hkey)
  · rw [List.map_map]
    exact (nodup_sorted tools).map fun a b hab => congrArg Prod.snd hab

/-! ### Only stored tokens have grants -/

theorem Start.stored_of_granted (hs : Start base) (hv : Valid (Step d) base h)
    (hg : (after base h).Granted m tool) : (after base h).mcpTokens.get m ≠ none := by
  induction hv with
  | nil =>
    rw [after_nil] at hg ⊢
    exact hs.owned _ hg
  | @snoc h e hv hstep ih =>
    rw [after_concat] at hg ⊢
    have later : ∀ {db : Db}, Later db e.db → db.mcpTokens.get m ≠ none →
        e.db.mcpTokens.get m ≠ none := by
      intro db hlater hm
      obtain ⟨token, htoken⟩ := Option.ne_none_iff_exists'.1 hm
      obtain ⟨token', htoken', -⟩ := hlater.mcpTokens m token htoken
      exact htoken' ▸ Option.some_ne_none token'
    rcases hstep.grantOrigin hg with ⟨hold, -, -⟩ | ⟨i, hl, rfl, -⟩ | ⟨tools, ownedAt, hl, -⟩
    · exact later (Later.step hstep) (ih hold)
    · obtain ⟨-, hstored⟩ := hstep.stored (hs.consistent_of_valid hv).known hl
      exact hstored ▸ Option.some_ne_none _
    · -- the token was stored when its grants were replaced
      obtain ⟨user, hx⟩ := hstep.regrants hl
      obtain ⟨token, htoken, -⟩ := hx.owned
      have hof := Later.of_valid hv hx.ownedAt_le
      rw [List.take_length] at hof
      exact later (hof.trans (Later.step hstep)) (htoken ▸ Option.some_ne_none token)

/-- A fresh number has no grants. -/
theorem Fresh.not_granted (hf : Fresh d base h m) (hs : Start base) (hv : Valid (Step d) base h) :
    ¬ (after base h).Granted m tool :=
  fun hg => hs.stored_of_granted hv hg
    ((hs.consistent_of_valid hv).known.mcpTokens.get_eq_none hf.not_known)

/-- The owner of a token stays its owner. -/
theorem Later.owner {a b : Db} (hab : Later a b) {user : Uuid} (ho : a.owner m = some user) :
    b.owner m = some user := by
  obtain ⟨token, htoken, rfl⟩ := Option.map_eq_some_iff.1 ho
  obtain ⟨token', htoken', hlater⟩ := hab.mcpTokens m token htoken
  rw [Db.owner, htoken', Option.map_some]
  exact congrArg some (congrArg McpToken.userId hlater.core :)

/-! ### Allowances -/

/-- A commit that does not replace the allowances of a user keeps them. -/
theorem Step.allowed (hs : Step d base h e) {user : Uuid}
    (hl : ∀ tools prunedAt, e.label ≠ .allowances user tools prunedAt) :
    e.db.Allowed user tool ↔ (after base h).Allowed user tool := by
  rw [Db.Allowed, Db.Allowed]
  cases hs.permissionChange with
  | same _ _ hallow => rw [hallow]
  | issued _ _ _ _ hallow => rw [hallow]
  | grants _ _ _ _ _ _ _ hallow => rw [hallow]
  | allowances user' tools prunedAt pruned hlabel _ _ hallow =>
    have hne : user' ≠ user := fun heq => hl tools prunedAt (heq ▸ hlabel)
    rw [hallow]
    constructor
    · intro hmem
      rcases Table.mem_or_mem_of_mem_insertAll hmem with hold | hnew
      · exact (Table.mem_delete.1 hold).1
      · obtain ⟨name, -, heq⟩ := List.mem_map.1 hnew
        exact absurd (congrArg UserToolAllowance.userId heq) hne
    · exact fun hmem => Table.mem_insertAll_of_mem
        (Table.mem_delete.2 ⟨hmem, decide_eq_false hne.symm⟩)

/-- A commit that replaces the allowances of a user leaves the user those allowances. -/
theorem Step.allowed_of_replaced (hs : Step d base h e) {user : Uuid} {tools : List String}
    {prunedAt : ℕ} (hl : e.label = .allowances user tools prunedAt) :
    e.db.Allowed user tool ↔ tool ∈ tools := by
  unfold Step at hs
  rw [hl] at hs
  obtain ⟨pruned, settings, log, hdb, -⟩ := hs
  have hallow : e.db.userToolAllowances = _ := (congrArg Db.userToolAllowances hdb :)
  rw [Db.Allowed, hallow]
  constructor
  · intro hmem
    rcases Table.mem_or_mem_of_mem_insertAll hmem with hold | hnew
    · exact absurd rfl (of_decide_eq_false (Table.mem_delete.1 hold).2)
    · obtain ⟨name, hname, heq⟩ := List.mem_map.1 hnew
      cases heq
      exact mem_sorted.1 hname
  · intro hmem
    refine (Table.mem_insertAll (fun row hrow => ?_) ?_).2
      (.inr (List.mem_map.2 ⟨tool, mem_sorted.2 hmem, rfl⟩))
    · -- the old allowances of the user are deleted
      obtain ⟨name, -, rfl⟩ := List.mem_map.1 hrow
      refine Table.get_eq_none.2 fun old hold hkey => ?_
      exact of_decide_eq_false (Table.mem_delete.1 hold).2 (congrArg Prod.fst hkey)
    · rw [List.map_map]
      exact (nodup_sorted tools).map fun a b hab => congrArg Prod.snd hab

end ForgejoMcp.OAuth
