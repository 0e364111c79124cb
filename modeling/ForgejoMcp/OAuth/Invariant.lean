import ForgejoMcp.OAuth.Family

/-!
# Invariants of every history

What holds after every history of committed transactions of the serial model, and between two
moments of one history.
-/

namespace ForgejoMcp.OAuth

open Transactions

variable {d : Deployment} {base : Db} {h : List (Entry sorts)} {e : Entry sorts}

/-- The state after a history: known numbers, linked rows, families that are chains. -/
structure Consistent (d : Deployment) (base : Db) (h : List (Entry sorts)) : Prop where
  known : KnownRows (Known d base h) (after base h)
  linked : Linked (after base h)
  chains : Chains (after base h)

theorem Start.consistent (hs : Start base) : Consistent d base [] where
  known := by
    rw [after_nil]
    refine ⟨?_, ?_, ?_, fun r hr => .inl ⟨r, hr, .inl rfl⟩⟩
    · rw [hs.tokenFamilies]; exact fun r hr => absurd hr (Table.not_mem_empty r)
    · rw [hs.refreshTokens]; exact fun r hr => absurd hr (Table.not_mem_empty r)
    · rw [hs.accessTokens]; exact fun r hr => absurd hr (Table.not_mem_empty r)
  linked := by
    rw [after_nil]
    refine ⟨?_, ?_, ?_, ?_, fun m token hm hkind => ?_⟩
    · intro k r hr; rw [hs.refreshTokens] at hr; cases hr
    · intro k r hr; rw [hs.refreshTokens] at hr; cases hr
    · intro k r m hr; rw [hs.refreshTokens] at hr; cases hr
    · intro m link hm; rw [hs.accessTokens] at hm; cases hm
    · rw [hs.static token (Table.mem_of_get hm)] at hkind; cases hkind
  chains := by
    rw [after_nil]
    intro f hf
    rw [hs.tokenFamilies] at hf
    exact absurd rfl hf

/-- Every history of the serial model is consistent. -/
theorem Start.consistent_of_valid (hs : Start base) (hv : Valid (Step d) base h) :
    Consistent d base h := by
  induction hv with
  | nil => exact hs.consistent
  | @snoc h e hv hstep ih =>
    refine ⟨?_, ?_, ?_⟩
    · rw [after_concat]; exact ih.known.step hstep
    · rw [after_concat]; exact Linked.step ih.known ih.linked hstep
    · rw [after_concat]; exact Chains.step ih.known ih.linked ih.chains hstep

/-- Rows move forward along a history. -/
theorem Later.of_valid (hv : Valid (Step d) base h) {i j : ℕ} (hij : i ≤ j) :
    Later (after base (h.take i)) (after base (h.take j)) :=
  hv.monotone Later .refl (fun _ _ _ => .trans) (fun _ _ _ hstep => .step hstep) hij

end ForgejoMcp.OAuth
