import Staaash.Library.OrderedMap

/-!
# Users, sessions and one-time codes

The three tables behind signing in, and the statements that change them. A desktop device's session
carries a device name, the session of its app window the id of the device's session; both kinds can
also be opened by a one-time code.
-/

namespace Staaash.Auth

open Staaash.Library (OrderedMap)

def DEVICE_CODE_TTL_MS : Nat := 5 * 60000

def WEB_SESSION_CODE_TTL_MS : Nat := 60000

/-! ## Rows -/

structure User where
  email : String
  passwordHash : String
  isOwner : Bool
  /-- `passwordChangeRequiredAt` is set. -/
  passwordChangeRequired : Bool
deriving DecidableEq, Repr

inductive CodeKind
  | device
  | web
deriving DecidableEq, Repr

/-- A single-use code: a browser-approved device sign-in, or a device's app window becoming a browser
session. -/
structure DeviceAuthCode where
  id : String
  codeHash : String
  kind : CodeKind
  userId : String
  /-- The device's session, for a web code. -/
  sessionId : Option String
  codeChallenge : Option String
  redirectUri : Option String
  deviceName : Option String
  createdAt : Nat
  expiresAt : Nat
  usedAt : Option Nat
deriving DecidableEq, Repr

/-- What a session was opened with. The table does not record it; the promises are about it. -/
inductive Credential
  /-- A password, checked against the hash as it was at the time. -/
  | password (checkedAt : Nat)
  /-- A code, as the exchange read it, with the verifier and the redirect that were presented. -/
  | deviceCode (code : DeviceAuthCode) (codeVerifier redirectUri : String)
  | webCode (code : DeviceAuthCode)
deriving DecidableEq, Repr

/-- When the password was checked, the device approved or the web code issued. -/
def Credential.provedAt : Credential → Nat
  | .password checkedAt => checkedAt
  | .deviceCode code _ _ => code.createdAt
  | .webCode code => code.createdAt

def Credential.code : Credential → Option DeviceAuthCode
  | .password _ => none
  | .deviceCode code _ _ => some code
  | .webCode code => some code

structure Session where
  userId : String
  tokenHash : String
  createdAt : Nat
  expiresAt : Nat
  revokedAt : Option Nat
  lastSeenAt : Nat
  /-- Set for a desktop device. -/
  deviceName : Option String
  /-- A browser session opened by a device's app window; revoking the device ends it. -/
  deviceSessionId : Option String
  credential : Credential
deriving DecidableEq, Repr

abbrev UserTable := OrderedMap String User
abbrev SessionTable := OrderedMap String Session
abbrev CodeTable := OrderedMap String DeviceAuthCode

/-- What the calls use of the runtime: hashes, and the parser of redirect addresses. -/
structure Runtime where
  verifyPassword : String → String → Bool
  hashOpaqueToken : String → String
  s256 : String → String
  isLoopbackRedirect : String → Bool

/-! ## Statements on sessions -/

/-- `updateMany` of the unrevoked sessions that `p` selects. -/
def SessionTable.revokeWhere (sessions : SessionTable) (p : String → Session → Bool) (now : Nat) :
    SessionTable :=
  sessions.mapValues fun id s =>
    if p id s && s.revokedAt = none then { s with revokedAt := some now } else s

/-- The session itself, or the window of a device. -/
def isOrBelongsTo (id : String) (id' : String) (s : Session) : Bool :=
  id' = id || s.deviceSessionId = some id

/-- Signing a device out also closes its app window's session. -/
def SessionTable.revokeSessionById (sessions : SessionTable) (id : String) (now : Nat) :
    SessionTable :=
  sessions.revokeWhere (isOrBelongsTo id) now

def SessionTable.revokeUserSessions (sessions : SessionTable) (userId : String) (now : Nat) :
    SessionTable :=
  sessions.revokeWhere (fun _ s => s.userId = userId) now

/-- The sessions a new password signs out. -/
def SessionTable.revokeOthers (sessions : SessionTable) (userId : String)
    (keepSessionId : Option String) (now : Nat) : SessionTable :=
  sessions.revokeWhere (fun id s => s.userId = userId && keepSessionId ≠ some id) now

/-- The row after it was seen; a device's expiry moves along. -/
def Session.touch (s : Session) (seenAt : Nat) (expiresAt : Option Nat) : Session :=
  { s with lastSeenAt := seenAt, expiresAt := expiresAt.getD s.expiresAt }

def SessionTable.touchSessionLastSeen (sessions : SessionTable) (id : String) (seenAt : Nat)
    (expiresAt : Option Nat) : SessionTable :=
  sessions.mapValues fun id' s =>
    if id' = id && s.revokedAt = none then s.touch seenAt expiresAt else s

/-- `tokenHash` is unique. -/
def SessionTable.findByTokenHash (sessions : SessionTable) (tokenHash : String) :
    Option (String × Session) :=
  sessions.entries.find? fun (_, s) => s.tokenHash = tokenHash

/-- `findSessionByTokenHash` found a session, and getSession accepts it. -/
def Session.accepted (s : Session) (now : Nat) : Bool := s.revokedAt = none && now < s.expiresAt

/-- An app window's session is part of its device, not a row of its own. -/
def SessionTable.listUserSessions (sessions : SessionTable) (userId : String) (now : Nat) :
    List String :=
  (sessions.entries.filter fun (_, s) =>
    s.userId = userId && s.revokedAt = none && s.deviceSessionId = none && now < s.expiresAt).map
    Prod.fst

/-! ## Statements on users and codes -/

def UserTable.findByEmail (users : UserTable) (email : String) : Option (String × User) :=
  users.entries.find? fun (_, user) => user.email = email

def CodeTable.findByHash (codes : CodeTable) (codeHash : String) : Option DeviceAuthCode :=
  (codes.entries.find? fun (_, code) => code.codeHash = codeHash).map Prod.snd

/-- `updateMany` of the code where it is unused and has not expired; `none` when it changes no row. -/
def CodeTable.claim (codes : CodeTable) (id : String) (now : Nat) : Option CodeTable :=
  match codes.get id with
  | none => none
  | some code =>
    if code.usedAt = none && now < code.expiresAt then
      some (codes.set id { code with usedAt := some now })
    else none

end Staaash.Auth
