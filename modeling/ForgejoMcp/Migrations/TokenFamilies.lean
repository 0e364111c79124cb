import ForgejoMcp.OAuth.FamilyRevocation

/-!
# The migrations to token families

Revision `20260908_0011` creates the families of the stored refresh tokens; revision `20260908_0012`
revokes the families of which a Dashboard revocation is on record.  Before the first, the table of
families does not exist: it is not read.
-/

namespace ForgejoMcp.Migrations

open Transactions OAuth

/-- The aggregate `MIN`, which skips `NULL`. -/
def minimum (times : List (Option Time)) : Option Time := (times.filterMap id).min?

/-- The times of `oauth_token_families AS family` with `family.id = familyId AND family.revoked_at
IS NOT NULL`. -/
def familyTimes (db : Db) (familyId : Uuid) : List Time :=
  (db.tokenFamilies.select fun family => family.id = familyId).filterMap (·.revokedAt)

/-- The times joined to an MCP token by `token.id = refresh.mcp_token_id`. -/
def tokenTimes (db : Db) (token : McpToken) : List Time :=
  (db.refreshTokens.select fun refresh => refresh.mcpTokenId = some token.id).flatMap fun refresh =>
    familyTimes db refresh.familyId

/-- The times joined to an access link by `access.refresh_token_id = refresh.id`. -/
def accessTimes (db : Db) (access : OAuthAccessToken) : List Time :=
  (db.refreshTokens.select fun refresh => refresh.id = access.refreshTokenId).flatMap fun refresh =>
    familyTimes db refresh.familyId

/-- The refresh token is revoked. -/
def setRefreshRevoked (time : Time) : Assign OAuthRefreshToken.id :=
  ⟨fun r => { r with revokedAt := time }, Assign.keeps_key OAuthRefreshToken.id⟩

/-- The access token is revoked. -/
def setAccessRevoked (time : Time) : Assign OAuthAccessToken.mcpTokenId :=
  ⟨fun r => { r with revokedAt := time }, Assign.keeps_key OAuthAccessToken.mcpTokenId⟩

/-! ### Revision 0011 -/

/-- `INSERT INTO oauth_token_families … SELECT … GROUP BY family_id`. -/
def createFamilies (db : Db) : Db :=
  let familyIds := (db.refreshTokens.rows.map (·.familyId)).dedup
  { db with tokenFamilies := Table.empty.insertAll <| familyIds.map fun familyId =>
      ⟨familyId, minimum ((db.lineage familyId).map (·.revokedAt))⟩ }

/-- `upgrade` of revision 0011. -/
def upgrade0011 (choice : Table.Choice) (db : Db) : Db :=
  let db := createFamilies db
  let db := { db with
    refreshTokens := db.refreshTokens.updateFrom choice (fun r => familyTimes db r.familyId)
      setRefreshRevoked }
  let db := { db with
    mcpTokens := db.mcpTokens.updateFrom choice (tokenTimes db)
      fun time => ⟨fun r => { r with enabled := false, revokedAt := time },
        Assign.keeps_key McpToken.id⟩ }
  { db with
    accessTokens := db.accessTokens.updateFrom choice (accessTimes db) setAccessRevoked }

/-! ### Revision 0012 -/

/-- An audit event says that the MCP token was revoked in the Dashboard; `CAST(token.id AS VARCHAR)`
is the text that the services store. -/
def dashboardRevoked (db : Db) (tokenId : Uuid) : Bool :=
  db.managementAuditEvents.any fun audit => audit.action = "mcp_token.revoked" &&
    audit.targetType = "mcp_token" && audit.targetId = toString tokenId

/-- The times in the subquery `evidence` for a family: of the revoked MCP tokens of members that are
unrotated, or whose MCP token was revoked in the Dashboard. -/
def evidenceTimes (db : Db) (familyId : Uuid) : List (Option Time) :=
  (db.lineage familyId).flatMap fun refresh =>
    (db.mcpTokens.select fun token => refresh.mcpTokenId = some token.id &&
      token.revokedAt.isSome && (refresh.rotatedAt.isNone || dashboardRevoked db token.id)).map
        (·.revokedAt)

/-- The rows of `evidence` for a family: one, if the group is not empty. -/
def evidence (db : Db) (familyId : Uuid) : List (Option Time) :=
  match evidenceTimes db familyId with
  | [] => []
  | times => [minimum times]

/-- `upgrade` of revision 0012. -/
def upgrade0012 (choice : Table.Choice) (db : Db) : Db :=
  let db := { db with
    tokenFamilies := db.tokenFamilies.updateFrom choice
      (fun family => if family.revokedAt.isNone then evidence db family.id else [])
      fun time => ⟨fun r => { r with revokedAt := time }, Assign.keeps_key OAuthTokenFamily.id⟩ }
  let db := { db with
    refreshTokens := db.refreshTokens.updateFrom choice
      (fun r => if r.revokedAt.isNone then familyTimes db r.familyId else []) setRefreshRevoked }
  let db := { db with
    mcpTokens := db.mcpTokens.updateFrom choice (tokenTimes db)
      fun time => ⟨fun r => { r with enabled := false, revokedAt := r.revokedAt.getD time },
        Assign.keeps_key McpToken.id⟩ }
  { db with
    accessTokens := db.accessTokens.updateFrom choice
      (fun r => if r.revokedAt.isNone then accessTimes db r else []) setAccessRevoked }

end ForgejoMcp.Migrations
