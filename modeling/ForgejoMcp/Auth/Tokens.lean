import ForgejoMcp.Python.Base64

/-!
# Minted tokens

The constructors of `auth/tokens.py`, on the 32 random bytes that `secrets.token_urlsafe` draws.
-/

namespace ForgejoMcp.Auth

open Python

/-- `base64.urlsafe_b64encode` in place of `base64.b64encode`. -/
def urlsafe (c : CodePoint) : CodePoint := if c = 0x2B then 0x2D else if c = 0x2F then 0x5F else c

/-- `secrets.token_urlsafe(32)` on the bytes drawn. -/
def tokenUrlsafe (bytes : List UInt8) : Text :=
  List.rdropWhile (fun c => decide (c = Base64.pad)) ((b64encode bytes).map urlsafe)

/-- `new_mcp_token`. -/
def newMcpToken (bytes : List UInt8) : Text := text "fmcp_" ++ tokenUrlsafe bytes

/-- `new_oauth_refresh_token`. -/
def newOauthRefreshToken (bytes : List UInt8) : Text := text "fmcp_rt_" ++ tokenUrlsafe bytes

/-- `new_oauth_code`. -/
def newOauthCode (bytes : List UInt8) : Text := text "fmcp_ac_" ++ tokenUrlsafe bytes

/-- `new_oauth_interaction_token`. -/
def newOauthInteractionToken (bytes : List UInt8) : Text := text "fmcp_oi_" ++ tokenUrlsafe bytes

/-! ### The random characters -/

theorem urlsafe_digit_ne_pad : ∀ n < 64, urlsafe (Base64.digit n) ≠ Base64.pad := by decide

theorem exists_b64encode {q : ℕ} : ∀ {bytes : List UInt8}, bytes.length = 3 * q + 2 →
    ∃ sextets : List ℕ, (∀ n ∈ sextets, n < 64) ∧ sextets.length = 4 * q + 3 ∧
      b64encode bytes = sextets.map Base64.digit ++ [Base64.pad] := by
  induction q with
  | zero =>
    intro bytes h
    match bytes, h with
    | [a, b], _ =>
      have ha := a.toNat_lt
      have hb := b.toNat_lt
      refine ⟨[a.toNat / 4, a.toNat % 4 * 16 + b.toNat / 16, b.toNat % 16 * 4], ?_, rfl, rfl⟩
      simp only [List.forall_mem_cons]
      exact ⟨by omega, by omega, by omega, fun n hn => (List.not_mem_nil hn).elim⟩
  | succ q ih =>
    intro bytes h
    match bytes, h with
    | a :: b :: c :: bytes, h =>
      have ha := a.toNat_lt
      have hb := b.toNat_lt
      have hc := c.toNat_lt
      have hrest : bytes.length = 3 * q + 2 := by
        simp only [List.length_cons] at h
        omega
      obtain ⟨sextets, hlt, hlength, hencode⟩ := ih hrest
      refine ⟨a.toNat / 4 :: (a.toNat % 4 * 16 + b.toNat / 16) ::
        (b.toNat % 16 * 4 + c.toNat / 64) :: (c.toNat % 64) :: sextets, ?_, ?_, ?_⟩
      · simp only [List.forall_mem_cons]
        exact ⟨by omega, by omega, by omega, by omega, hlt⟩
      · simp only [List.length_cons]
        omega
      · rw [b64encode, hencode]
        rfl

/-- A minted token has 43 random characters. -/
theorem exists_tokenUrlsafe {bytes : List UInt8} (h : bytes.length = 32) :
    ∃ sextets : List ℕ, (∀ n ∈ sextets, n < 64) ∧ sextets.length = 43 ∧
      tokenUrlsafe bytes = sextets.map fun n => urlsafe (Base64.digit n) := by
  obtain ⟨sextets, hlt, hlength, hencode⟩ := exists_b64encode (q := 10) h
  refine ⟨sextets, hlt, hlength, ?_⟩
  rw [tokenUrlsafe, hencode, List.map_append, List.map_map]
  refine (List.rdropWhile_concat_pos _ _ _ rfl).trans (List.rdropWhile_eq_self_iff.2 fun hne => ?_)
  rw [decide_eq_true_iff]
  obtain ⟨n, hn, hlast⟩ := List.mem_map.1 (List.getLast_mem hne)
  exact hlast ▸ urlsafe_digit_ne_pad n (hlt n hn)

end ForgejoMcp.Auth
