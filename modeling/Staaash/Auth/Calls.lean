import Staaash.Auth.Accounts
import Staaash.Library.Runs

/-!
# Signing in and out, call by call

Every call is a sequence of statements, and the statements of all calls interleave. A list holds the
calls that wait for their next statement, with what they have read so far. Each statement takes one
tick of the clock, so any two of them have an order.
-/

namespace Staaash.Auth

open Staaash.Library

/-! ## Calls that are under way -/

/-- A credential was accepted; `createSession` comes next. -/
structure Opening where
  userId : String
  deviceName : Option String
  deviceSessionId : Option String
  credential : Credential
  /-- The user was looked up already, by the password check. -/
  userFound : Bool
deriving DecidableEq, Repr

/-- What is presented with a code. -/
inductive Presented
  | device (codeVerifier redirectUri : String)
  | web
deriving DecidableEq, Repr

def Presented.kind : Presented → CodeKind
  | .device _ _ => .device
  | .web => .web

/-- `consumeCode` has read the clock and the code. -/
structure Consuming where
  code : DeviceAuthCode
  now : Nat
  presented : Presented
deriving DecidableEq, Repr

/-- `getSession` has found the session and will accept it. -/
structure Touching where
  id : String
  session : Session
  seenAt : Nat
deriving DecidableEq, Repr

/-- A password change that has passed its checks. -/
structure Replacing where
  userId : String
  passwordHash : String
  keepSessionId : Option String
  /-- A temporary password may ask for a new one. -/
  requirePasswordChange : Bool
deriving DecidableEq, Repr

/-- The session that a request is made with. -/
structure Current where
  id : String
  deviceSessionId : Option String
deriving DecidableEq, Repr

/-- `currentIds`: an app window's own device counts as the current session. -/
def Current.isOne (current : Current) (id : String) : Bool :=
  id = current.id || some id = current.deviceSessionId

/-- `revokeOwnSessions` without an id, before the list or with the sessions that are left of it. -/
structure SigningOut where
  userId : String
  current : Current
  calledAt : Nat
deriving DecidableEq, Repr

/-- A call that lists the sessions of one user next. -/
inductive Listing
  | ownSession (userId sessionId : String)
  | everywhere (o : SigningOut)
  | userSession (userId sessionId : String)
  | allOf (userId currentSessionId : String)
deriving DecidableEq, Repr

/-! ## What happened -/

structure Replacement where
  userId : String
  keepSessionId : Option String
  committedAt : Nat
deriving DecidableEq, Repr

structure Acceptance where
  id : String
  session : Session
  acceptedAt : Nat
deriving DecidableEq, Repr

structure SignedOut where
  call : SigningOut
  returnedAt : Nat
deriving DecidableEq, Repr

structure World where
  clock : Nat
  users : UserTable
  sessions : SessionTable
  codes : CodeTable
  consuming : List Consuming
  redeeming : List DeviceAuthCode
  opening : List Opening
  touching : List Touching
  /-- `revokeSessionById` comes next. -/
  revoking : List String
  replacing : List Replacing
  listing : List Listing
  /-- The sessions that are still to be revoked. -/
  signingOut : List (SigningOut × List String)
  /-- `revokeUserSessions` comes next. -/
  revokingUsers : List String
  replacements : List Replacement
  accepted : List Acceptance
  signedOut : List SignedOut
deriving DecidableEq

/-- Nobody has signed in yet. -/
def World.initial (users : UserTable) : World :=
  ⟨0, users, .empty, .empty, [], [], [], [], [], [], [], [], [], [], [], []⟩

/-! ## Statements -/

inductive Statement
  | wait (ticks : Nat)
  /-- `findUserByEmail`, and the password check on what it found. -/
  | signIn (email password : String)
  | findUser (o : Opening)
  /-- `session.create`, with the clock read before it. -/
  | createSession (o : Opening) (id tokenHash : String) (issuedAt maxAge : Nat)
  | approveDevice (id codeHash userId redirectUri codeChallenge deviceName : String) (now : Nat)
  | readCode (token : String) (presented : Presented)
  | claimCode (c : Consuming)
  | issueWebSessionCode (id codeHash deviceId : String) (now : Nat)
  | findDevice (code : DeviceAuthCode)
  | getSession (token : String)
  | touch (t : Touching) (maxAge : Nat)
  | changeOwnPassword (userId currentSessionId currentPassword passwordHash : String)
  | changeRequiredPassword (userId currentSessionId passwordHash : String)
  | resetTemporaryPassword (actorUserId targetUserId passwordHash : String)
      (requirePasswordChange : Bool)
  | replacePassword (r : Replacing)
  | revokeSession (token : String)
  | revokeSessionById (id : String)
  | revokeOwnSessions (userId : String) (current : Current) (sessionId : Option String)
  | revokeUserSession (actorUserId targetUserId sessionId currentSessionId : String)
  | revokeAllUserSessions (actorUserId targetUserId currentSessionId : String)
  | listUserSessions (l : Listing)
  | revokeListed (o : SigningOut) (ids : List String)
  | revokeUserSessions (userId : String)
deriving DecidableEq, Repr

def World.isOwner (w : World) (userId : String) : Bool :=
  (w.users.get userId).any fun user => user.isOwner

/-- The password is the one of the hash that `userId` has now. -/
def World.knowsPassword (R : Runtime) (w : World) (userId password : String) : Bool :=
  (w.users.get userId).any fun user =>
    (w.users.findByEmail user.email).any fun (_, stored) =>
      R.verifyPassword password stored.passwordHash

/-- The device's proof: the redirect and the verifier the code was issued for. -/
def provesDevice (R : Runtime) (code : DeviceAuthCode) (codeVerifier redirectUri : String) : Bool :=
  code.redirectUri = some redirectUri && code.codeChallenge = some (R.s256 codeVerifier)

/-- The call goes on with a code it has claimed, or fails. -/
def World.claimed (R : Runtime) (w : World) (c : Consuming) : World :=
  match c.presented with
  | .device codeVerifier redirectUri =>
    if provesDevice R c.code codeVerifier redirectUri then
      { w with
        opening := ⟨c.code.userId, c.code.deviceName, none,
          .deviceCode c.code codeVerifier redirectUri, false⟩ :: w.opening }
    else w
  | .web => { w with redeeming := c.code :: w.redeeming }

/-- What a call does with the sessions it has listed. -/
def World.listed (w : World) (ids : List String) : Listing → World
  | .ownSession _ sessionId =>
    { w with revoking := ids.filter (· = sessionId) ++ w.revoking }
  | .everywhere o =>
    { w with signingOut := (o, ids.filter fun id => !o.current.isOne id) :: w.signingOut }
  | .userSession _ sessionId =>
    { w with revoking := ids.filter (· = sessionId) ++ w.revoking }
  | .allOf userId currentSessionId =>
    if ids.contains currentSessionId then w
    else { w with revokingUsers := userId :: w.revokingUsers }

def Listing.userId : Listing → String
  | .ownSession userId _ => userId
  | .everywhere o => o.userId
  | .userSession userId _ => userId
  | .allOf userId _ => userId

/-- What a statement does, or nothing where it has no effect. -/
def World.act (R : Runtime) (w : World) : Statement → Option World
  | .wait ticks => some { w with clock := w.clock + ticks }
  | .signIn email password =>
    (w.users.findByEmail email).bind fun (userId, user) =>
      if R.verifyPassword password user.passwordHash then
        some { w with opening := ⟨userId, none, none, .password w.clock, true⟩ :: w.opening }
      else none
  | .findUser o =>
    if o ∈ w.opening then
      some { w with
        opening := (if w.users.has o.userId then [{ o with userFound := true }] else []) ++
          w.opening.erase o }
    else none
  | .createSession o id tokenHash issuedAt maxAge =>
    if o ∈ w.opening && o.userFound && !w.sessions.has id &&
        (w.sessions.findByTokenHash tokenHash).isNone && issuedAt ≤ w.clock then
      some { w with
        sessions := w.sessions.set id
          { userId := o.userId, tokenHash, createdAt := w.clock, expiresAt := issuedAt + maxAge
            revokedAt := none, lastSeenAt := issuedAt, deviceName := o.deviceName
            deviceSessionId := o.deviceSessionId, credential := o.credential }
        opening := w.opening.erase o }
    else none
  | .approveDevice id codeHash userId redirectUri codeChallenge deviceName now =>
    if R.isLoopbackRedirect redirectUri && !w.codes.has id && now ≤ w.clock then
      some { w with
        codes := w.codes.set id
          { id, codeHash, kind := .device, userId, sessionId := none
            codeChallenge := some codeChallenge, redirectUri := some redirectUri
            deviceName := some deviceName, createdAt := w.clock
            expiresAt := now + DEVICE_CODE_TTL_MS, usedAt := none } }
    else none
  | .readCode token presented =>
    (w.codes.findByHash (R.hashOpaqueToken token)).bind fun code =>
      if code.kind = presented.kind then
        some { w with consuming := ⟨code, w.clock, presented⟩ :: w.consuming }
      else none
  | .claimCode c =>
    if c ∈ w.consuming then
      let w' := { w with consuming := w.consuming.erase c }
      match w.codes.claim c.code.id c.now with
      | none => some w'
      | some codes => some ({ w' with codes }.claimed R c)
    else none
  | .issueWebSessionCode id codeHash deviceId now =>
    (w.sessions.get deviceId).bind fun device =>
      if device.deviceName.isSome && !w.codes.has id && now ≤ w.clock then
        some { w with
          codes := w.codes.set id
            { id, codeHash, kind := .web, userId := device.userId, sessionId := some deviceId
              codeChallenge := none, redirectUri := none, deviceName := none
              createdAt := w.clock, expiresAt := now + WEB_SESSION_CODE_TTL_MS, usedAt := none } }
      else none
  | .findDevice code =>
    if code ∈ w.redeeming then
      let w' := { w with redeeming := w.redeeming.erase code }
      match code.sessionId.bind fun id => (w.sessions.get id).map fun device => (id, device) with
      | none => some w'
      | some (id, device) =>
        if device.accepted w.clock then
          some { w' with opening := ⟨code.userId, none, some id, .webCode code, false⟩ :: w.opening }
        else some w'
    else none
  | .getSession token =>
    if token = "" then none
    else (w.sessions.findByTokenHash (R.hashOpaqueToken token)).bind fun (id, session) =>
      if session.accepted w.clock then
        some { w with touching := ⟨id, session, w.clock⟩ :: w.touching }
      else if session.revokedAt = none then some { w with revoking := id :: w.revoking }
      else none
  | .touch t maxAge =>
    if t ∈ w.touching then
      some { w with
        sessions := w.sessions.touchSessionLastSeen t.id t.seenAt
          (if t.session.deviceName.isSome then some (t.seenAt + maxAge) else none)
        touching := w.touching.erase t
        accepted := ⟨t.id, t.session, w.clock⟩ :: w.accepted }
    else none
  | .changeOwnPassword userId currentSessionId currentPassword passwordHash =>
    if w.knowsPassword R userId currentPassword then
      some { w with
        replacing := ⟨userId, passwordHash, some currentSessionId, false⟩ :: w.replacing }
    else none
  | .changeRequiredPassword userId currentSessionId passwordHash =>
    if (w.users.get userId).any fun user => user.passwordChangeRequired then
      some { w with
        replacing := ⟨userId, passwordHash, some currentSessionId, false⟩ :: w.replacing }
    else none
  | .resetTemporaryPassword actorUserId targetUserId passwordHash requirePasswordChange =>
    if w.isOwner actorUserId && w.users.has targetUserId then
      some { w with
        replacing := ⟨targetUserId, passwordHash, none, requirePasswordChange⟩ :: w.replacing }
    else none
  | .replacePassword r =>
    if r ∈ w.replacing then
      (w.users.get r.userId).map fun user =>
        { w with
          users := w.users.set r.userId
            { user with
              passwordHash := r.passwordHash
              passwordChangeRequired := r.requirePasswordChange }
          sessions := w.sessions.revokeOthers r.userId r.keepSessionId w.clock
          replacing := w.replacing.erase r
          replacements := ⟨r.userId, r.keepSessionId, w.clock⟩ :: w.replacements }
    else none
  | .revokeSession token =>
    if token = "" then none
    else (w.sessions.findByTokenHash (R.hashOpaqueToken token)).bind fun (id, session) =>
      if session.revokedAt = none then some { w with revoking := id :: w.revoking } else none
  | .revokeSessionById id =>
    if id ∈ w.revoking then
      some { w with
        sessions := w.sessions.revokeSessionById id w.clock
        revoking := w.revoking.erase id }
    else none
  | .revokeOwnSessions userId current sessionId =>
    match sessionId.filter (· ≠ "") with
    | none => some { w with listing := .everywhere ⟨userId, current, w.clock⟩ :: w.listing }
    | some sessionId =>
      if current.isOne sessionId then none
      else some { w with listing := .ownSession userId sessionId :: w.listing }
  | .revokeUserSession actorUserId targetUserId sessionId currentSessionId =>
    if w.isOwner actorUserId && sessionId ≠ currentSessionId && w.users.has targetUserId then
      some { w with listing := .userSession targetUserId sessionId :: w.listing }
    else none
  | .revokeAllUserSessions actorUserId targetUserId currentSessionId =>
    if w.isOwner actorUserId then
      some { w with listing := .allOf targetUserId currentSessionId :: w.listing }
    else none
  | .listUserSessions l =>
    if l ∈ w.listing then
      some ({ w with listing := w.listing.erase l }.listed
        (w.sessions.listUserSessions l.userId w.clock) l)
    else none
  | .revokeListed o ids =>
    if (o, ids) ∈ w.signingOut then
      match ids with
      | [] =>
        some { w with
          signingOut := w.signingOut.erase (o, ids)
          signedOut := ⟨o, w.clock⟩ :: w.signedOut }
      | id :: rest =>
        some { w with
          sessions := w.sessions.revokeSessionById id w.clock
          signingOut := (o, rest) :: w.signingOut.erase (o, ids) }
    else none
  | .revokeUserSessions userId =>
    if userId ∈ w.revokingUsers then
      some { w with
        sessions := w.sessions.revokeUserSessions userId w.clock
        revokingUsers := w.revokingUsers.erase userId }
    else none

def World.tick (w : World) : World := { w with clock := w.clock + 1 }

def World.step (R : Runtime) (w : World) (s : Statement) : World := ((w.act R s).getD w).tick

def World.run (R : Runtime) (w : World) (statements : List Statement) : World :=
  statements.foldl (World.step R) w

/-! ## What signing out promises

A new password takes every older session and every older credential out of force; a one-time code is
good for one session; a window ends with its device, and signing out everywhere reaches every session.
The promises are about every state of every run, and each comes with the condition on the statements
of a run that the calls leave unchecked.
-/

section Safety

variable (R : Runtime)

/-! ## Passwords and codes -/

/-- The session is the one that the password change keeps, or it and its credential are newer. -/
def Replacement.Spares (r : Replacement) (id : String) (s : Session) : Prop :=
  r.keepSessionId = some id ∨ (r.committedAt < s.createdAt ∧ r.committedAt < s.credential.provedAt)

/-- The code was used, before it expired. -/
def UsedInTime (codes : CodeTable) (code : DeviceAuthCode) : Prop :=
  ∃ row usedAt, codes.get code.id = some row ∧ row = { code with usedAt := some usedAt } ∧
    usedAt < code.expiresAt

/-- The session is of the kind its credential is for, and its code was used as it was issued. -/
def OpenedAsIssued (codes : CodeTable) (s : Session) : Prop :=
  match s.credential with
  | .password _ => s.deviceName = none ∧ s.deviceSessionId = none
  | .deviceCode code codeVerifier redirectUri =>
    code.kind = .device ∧ s.userId = code.userId ∧ s.deviceName = code.deviceName ∧
      s.deviceName.isSome = true ∧ s.deviceSessionId = none ∧
      provesDevice R code codeVerifier redirectUri = true ∧ UsedInTime codes code
  | .webCode code =>
    code.kind = .web ∧ s.userId = code.userId ∧ s.deviceName = none ∧
      s.deviceSessionId = code.sessionId ∧ s.deviceSessionId.isSome = true ∧ UsedInTime codes code

/-- A code opens at most one session, and only as it was issued. -/
structure CodesOnce (w : World) : Prop where
  once : ∀ id₁ s₁ id₂ s₂, w.sessions.get id₁ = some s₁ → w.sessions.get id₂ = some s₂ →
    ∀ c₁ ∈ s₁.credential.code, ∀ c₂ ∈ s₂.credential.code, c₁.id = c₂.id → id₁ = id₂
  issued : ∀ id s, w.sessions.get id = some s → OpenedAsIssued R w.codes s

/-- No session outlives the password it was opened with. -/
def EndsWithPassword (w : World) : Prop :=
  ∀ a ∈ w.accepted, ∀ r ∈ w.replacements, r.committedAt < a.acceptedAt →
    r.userId = a.session.userId → r.Spares a.id a.session

/-- No password change commits between the check that a call rests on and its end: a session is not
created from an older credential, and `getSession` does not answer from an older row, unless it is
the session that the password change keeps. -/
def NotReplacedSince (w : World) : Statement → Prop
  | .createSession o _ _ _ _ => o ∈ w.opening → ∀ r ∈ w.replacements, r.userId = o.userId →
    r.committedAt < o.credential.provedAt
  | .touch t _ => t ∈ w.touching → ∀ r ∈ w.replacements, r.userId = t.session.userId →
    r.keepSessionId = some t.id ∨ r.committedAt < t.seenAt
  | _ => True

instance (r : Replacement) (id : String) (s : Session) : Decidable (r.Spares id s) :=
  inferInstanceAs (Decidable (_ ∨ (_ ∧ _)))

instance (w : World) (s : Statement) : Decidable (NotReplacedSince w s) :=
  match s with
  | .createSession o _ _ _ _ => inferInstanceAs (Decidable (o ∈ w.opening → ∀ r ∈ w.replacements,
      r.userId = o.userId → r.committedAt < o.credential.provedAt))
  | .touch t _ => inferInstanceAs (Decidable (t ∈ w.touching → ∀ r ∈ w.replacements,
      r.userId = t.session.userId → r.keepSessionId = some t.id ∨ r.committedAt < t.seenAt))
  | .wait _ | .signIn _ _ | .findUser _ | .approveDevice _ _ _ _ _ _ _ | .readCode _ _
  | .claimCode _ | .issueWebSessionCode _ _ _ _ | .findDevice _ | .getSession _
  | .changeOwnPassword _ _ _ _ | .changeRequiredPassword _ _ _ | .resetTemporaryPassword _ _ _ _
  | .replacePassword _ | .revokeSession _ | .revokeSessionById _ | .revokeOwnSessions _ _ _
  | .revokeUserSession _ _ _ _ | .revokeAllUserSessions _ _ _ | .listUserSessions _
  | .revokeListed _ _ | .revokeUserSessions _ => isTrue trivial

/-! ## Windows and signing out -/

/-- The caller's session, its device's session, and the windows of that device. -/
def Current.Covers (current : Current) (id : String) (s : Session) : Prop :=
  current.isOne id = true ∨ ∃ d, s.deviceSessionId = some d ∧ current.isOne d = true

/-- A window that is not revoked has a device that is not revoked. -/
def EndsWithDevice (w : World) : Prop :=
  ∀ id s d, w.sessions.get id = some s → s.deviceSessionId = some d → s.revokedAt = none →
    ∃ device, w.sessions.get d = some device ∧ device.revokedAt = none

/-- Signing out everywhere reaches every session there was when it was called. -/
def ReachesEverySession (w : World) : Prop :=
  ∀ a ∈ w.accepted, ∀ o ∈ w.signedOut, o.returnedAt < a.acceptedAt →
    o.call.userId = a.session.userId → a.session.createdAt < o.call.calledAt →
    o.call.current.Covers a.id a.session

/-- A password change does not keep a window, and a window is not opened for a device that was signed
out meanwhile. -/
def PairsKept (w : World) : Statement → Prop
  | .replacePassword r => r ∈ w.replacing → ∀ id s, r.keepSessionId = some id →
    w.sessions.get id = some s → s.revokedAt = none → s.deviceSessionId = none
  | .createSession o _ _ _ _ => o ∈ w.opening → ∀ d, o.deviceSessionId = some d →
    ∃ device, w.sessions.get d = some device ∧ device.revokedAt = none
  | _ => True

/-- The session is over: it has expired, and no call will move its expiry. -/
def World.Lapsed (w : World) (id : String) (s : Session) : Prop :=
  s.expiresAt ≤ w.clock ∧ (s.deviceName.isSome = true → ∀ t ∈ w.touching, t.id ≠ id)

/-- The list that signing out everywhere goes by leaves out nobody that it has to reach: an expired
session has no call under way that moves its expiry, and the device of a window that is still good
has not expired before the window. -/
structure World.ListsAll (w : World) (o : SigningOut) : Prop where
  lapsed : ∀ id s, w.sessions.get id = some s → s.userId = o.userId → s.revokedAt = none →
    ¬ o.current.Covers id s → s.expiresAt ≤ w.clock → w.Lapsed id s
  windows : ∀ id s d device, w.sessions.get id = some s → s.userId = o.userId →
    s.accepted w.clock = true → ¬ o.current.Covers id s → s.deviceSessionId = some d →
    w.sessions.get d = some device → w.clock < device.expiresAt

/-- Signing out everywhere lists everyone, and `getSession` does not answer from a row that it read
before a signing out that has returned. -/
def ListedInTime (w : World) : Statement → Prop
  | .listUserSessions l => l ∈ w.listing → ∀ o, l = .everywhere o → w.ListsAll o
  | .touch t _ => t ∈ w.touching → ∀ o ∈ w.signedOut, o.call.userId = t.session.userId →
    t.session.createdAt < o.call.calledAt →
    o.call.current.Covers t.id t.session ∨ o.returnedAt < t.seenAt
  | _ => True

/-! ## Small runs -/

/-- Hashes that change nothing, and an app that may be sent anywhere. -/
def plainRuntime : Runtime where
  verifyPassword password passwordHash := password = passwordHash
  hashOpaqueToken token := token
  s256 codeVerifier := codeVerifier
  isLoopbackRedirect _ := true

/-- One user. -/
def oneUser : UserTable :=
  .ofList [("u", { email := "m", passwordHash := "old", isOwner := true
                   passwordChangeRequired := false })]

/-- A sign-in of the user, with the password checked at `checkedAt`. -/
def signedIn (checkedAt : Nat) : Opening := ⟨"u", none, none, .password checkedAt, true⟩

end Safety

end Staaash.Auth
