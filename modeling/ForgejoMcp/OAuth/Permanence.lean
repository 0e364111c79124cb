import ForgejoMcp.OAuth.Changes

/-!
# Rows only move forward

No commit deletes a family, a token or a link, or changes anything but their revocation, rotation
and usage columns; what is rotated, disabled or revoked stays so.
-/

namespace ForgejoMcp.OAuth

open Transactions

variable {d : Deployment} {base : Db} {h : List (Entry sorts)} {e : Entry sorts}

/-- A family stays, and stays revoked. -/
structure FamilyLater (r s : OAuthTokenFamily) : Prop where
  id : s.id = r.id
  revoked : r.revokedAt ≠ none → s.revokedAt ≠ none

/-- A refresh token keeps its columns, its rotation and its revocation. -/
structure RefreshLater (r s : OAuthRefreshToken) : Prop where
  core : s.core = r.core
  rotated : r.rotatedAt ≠ none → s.rotatedAt = r.rotatedAt
  revoked : r.revokedAt ≠ none → s.revokedAt ≠ none

/-- An access link keeps its columns and its revocation. -/
structure LinkLater (r s : OAuthAccessToken) : Prop where
  core : s.core = r.core
  revoked : r.revokedAt ≠ none → s.revokedAt ≠ none

/-- A token keeps its columns and stays disabled and revoked. -/
structure TokenLater (r s : McpToken) : Prop where
  core : s.core = r.core
  disabled : r.enabled = false → s.enabled = false
  revoked : r.revokedAt ≠ none → s.revokedAt ≠ none

theorem FamilyLater.refl (r : OAuthTokenFamily) : FamilyLater r r := ⟨rfl, fun h => h⟩

theorem RefreshLater.refl (r : OAuthRefreshToken) : RefreshLater r r := ⟨rfl, fun _ => rfl, id⟩

theorem LinkLater.refl (r : OAuthAccessToken) : LinkLater r r := ⟨rfl, id⟩

theorem TokenLater.refl (r : McpToken) : TokenLater r r := ⟨rfl, id, id⟩

/-- The rows of `a`, moved forward, are in `b`. -/
structure Later (a b : Db) : Prop where
  tokenFamilies : Table.Grows FamilyLater a.tokenFamilies b.tokenFamilies
  refreshTokens : Table.Grows RefreshLater a.refreshTokens b.refreshTokens
  accessTokens : Table.Grows LinkLater a.accessTokens b.accessTokens
  mcpTokens : Table.Grows TokenLater a.mcpTokens b.mcpTokens

namespace Later

variable {a b c db : Db}

theorem refl (a : Db) : Later a a :=
  ⟨.refl FamilyLater.refl _, .refl RefreshLater.refl _, .refl LinkLater.refl _,
    .refl TokenLater.refl _⟩

theorem trans (hab : Later a b) (hbc : Later b c) : Later a c where
  tokenFamilies := hab.tokenFamilies.trans
    (fun _ _ _ h h' => ⟨h'.id.trans h.id, h'.revoked ∘ h.revoked⟩) hbc.tokenFamilies
  refreshTokens := hab.refreshTokens.trans (fun _ _ _ h h' => ⟨h'.core.trans h.core,
    fun hr => (h'.rotated (h.rotated hr ▸ hr)).trans (h.rotated hr), h'.revoked ∘ h.revoked⟩)
    hbc.refreshTokens
  accessTokens := hab.accessTokens.trans
    (fun _ _ _ h h' => ⟨h'.core.trans h.core, h'.revoked ∘ h.revoked⟩) hbc.accessTokens
  mcpTokens := hab.mcpTokens.trans (fun _ _ _ h h' => ⟨h'.core.trans h.core,
    h'.disabled ∘ h.disabled, h'.revoked ∘ h.revoked⟩) hbc.mcpTokens

theorem congr (hab : Later a b) (hbc : SameCore b c) : Later a c :=
  ⟨hbc.1 ▸ hab.1, hbc.2 ▸ hab.2, hbc.3 ▸ hab.3, hbc.4 ▸ hab.4⟩

theorem openFamily (f : Uuid) : Later db (db.openFamily f) :=
  { refl db with tokenFamilies := .insert FamilyLater.refl _ }

theorem issue (i : Issue) : Later db (db.issue d i) :=
  { refl db with
    refreshTokens := .insert RefreshLater.refl _
    accessTokens := .insert LinkLater.refl _
    mcpTokens := .insert TokenLater.refl _ }

theorem addToken (token : McpToken) : Later db (db.addToken token) :=
  { refl db with mcpTokens := .insert TokenLater.refl _ }

theorem markRotated {k : Uuid} {r : OAuthRefreshToken} (hr : db.refreshTokens.get k = some r)
    (hun : r.rotatedAt = none) (now : Time) : Later db (db.markRotated k now) :=
  { refl db with
    refreshTokens := .update RefreshLater.refl fun s hs hk => by
      have hget := Table.get_of_mem hs
      rw [of_decide_eq_true hk, hr, Option.some.injEq] at hget
      exact ⟨rfl, fun h => absurd (hget ▸ hun) h, id⟩ }

theorem revokeToken (m : Uuid) (now : Time) : Later db (db.revokeToken m now) :=
  { refl db with
    accessTokens := .update LinkLater.refl fun _ _ _ => ⟨rfl, fun _ => Option.some_ne_none _⟩
    mcpTokens := .update TokenLater.refl fun _ _ _ =>
      ⟨rfl, fun _ => rfl, fun _ => Option.some_ne_none _⟩ }

theorem revokeFamily (f : Uuid) (tokens : List Uuid) (time : Time) :
    Later db (db.revokeFamily f tokens time) where
  tokenFamilies := .update FamilyLater.refl fun _ _ _ => ⟨rfl, fun _ => Option.some_ne_none _⟩
  refreshTokens := .update RefreshLater.refl fun _ _ _ =>
    ⟨rfl, fun _ => rfl, fun _ => Option.some_ne_none _⟩
  accessTokens := .update LinkLater.refl fun _ _ _ => ⟨rfl, fun _ => Option.some_ne_none _⟩
  mcpTokens := .update TokenLater.refl fun _ _ _ =>
    ⟨rfl, fun _ => rfl, fun _ => Option.some_ne_none _⟩

theorem disableToken (m : Uuid) (now : Time) : Later db (db.disableToken m now) :=
  { refl db with
    mcpTokens := .update TokenLater.refl fun _ _ _ =>
      ⟨rfl, fun _ => rfl, fun _ => Option.some_ne_none _⟩ }

theorem useToken (m : Uuid) (now : Time) : Later db (db.useToken m now) :=
  { refl db with mcpTokens := .update TokenLater.refl fun _ _ _ => ⟨rfl, id, id⟩ }

end Later

/-- A step moves the rows forward. -/
theorem Later.step (hs : Step d base h e) : Later (after base h) e.db := by
  rcases hs.coreChange with ⟨-, -, hdb⟩ | ⟨codeId, i, code, -, hx, hdb⟩ |
    ⟨parent, m, readAt, now, i, r, -, hx, hdb⟩ | ⟨f, tokens, time, -, -, -, -, -, hdb⟩ |
    ⟨f, token, tokens, time, now, -, -, -, -, -, -, hdb⟩ | ⟨token, row, now, -, -, -, -, -, hdb⟩ |
    ⟨token, secret, -, -, hkind, -, hid, hdb⟩ | ⟨token, now, -, -, hdb⟩
  · exact (refl _).congr hdb
  · exact ((openFamily i.familyId).trans (issue i)).congr hdb
  · exact (((markRotated hx.presents.record hx.unrotated now).trans (revokeToken m now)).trans
      (issue i)).congr hdb
  · exact (revokeFamily f tokens time).congr hdb
  · exact ((revokeFamily f tokens time).trans (disableToken token now)).congr hdb
  · exact (disableToken token now).congr hdb
  · exact (addToken token).congr hdb
  · exact (useToken token now).congr hdb

end ForgejoMcp.OAuth
