import Staaash.Auth.Calls
import Mathlib.Tactic.Common

/-!
# Proofs: what one statement can do

Lookups and updates of the tables, and `Acts`, which lists every way a statement can change the world
with the guards that were passed. Results about runs go by cases on it and never unfold `act` again.
-/

namespace Staaash.Auth

open Staaash.Library

/-! ## Tables -/

section Tables

variable {id : String} {now : Nat} {sessions : SessionTable} {session session' : Session} {codes codes' : CodeTable}
variable {code : DeviceAuthCode} {p : String → Session → Bool}

/-- A row of the table after a revocation: the row before, revoked if it was selected. -/
theorem get_revokeWhere (h : (sessions.revokeWhere p now).get id = some session') :
    ∃ session, sessions.get id = some session ∧
      ((p id session = true ∧ session.revokedAt = none ∧
          session' = { session with revokedAt := some now }) ∨
        (session' = session ∧ (session.revokedAt = none → p id session = false))) := by
  rw [SessionTable.revokeWhere, OrderedMap.get_mapValues, Option.map_eq_some_iff] at h
  obtain ⟨session, hget, rfl⟩ := h
  refine ⟨session, hget, ?_⟩
  by_cases hp : p id session = true ∧ session.revokedAt = none
  · exact Or.inl ⟨hp.1, hp.2, by rw [if_pos (by simp [hp])]⟩
  · refine Or.inr ⟨if_neg (by simpa using hp), fun hnone => ?_⟩
    rw [← Bool.not_eq_true]
    exact fun hsel => hp ⟨hsel, hnone⟩

/-- An unrevoked row after a revocation was there before and was not selected. -/
theorem get_revokeWhere_unrevoked (h : (sessions.revokeWhere p now).get id = some session)
    (hnone : session.revokedAt = none) : sessions.get id = some session ∧ p id session = false := by
  obtain ⟨before, hget, ⟨-, -, rfl⟩ | ⟨rfl, hsel⟩⟩ := get_revokeWhere h
  · cases hnone
  · exact ⟨hget, hsel hnone⟩

theorem get_touch {id' : String} {expiresAt : Option Nat}
    (h : (sessions.touchSessionLastSeen id now expiresAt).get id' = some session') :
    ∃ session, sessions.get id' = some session ∧
      ((id' = id ∧ session.revokedAt = none ∧ session' = session.touch now expiresAt) ∨
        session' = session ∧ (id' = id → session.revokedAt ≠ none)) := by
  rw [SessionTable.touchSessionLastSeen, OrderedMap.get_mapValues, Option.map_eq_some_iff] at h
  obtain ⟨session, hget, rfl⟩ := h
  refine ⟨session, hget, ?_⟩
  by_cases hp : id' = id ∧ session.revokedAt = none
  · exact Or.inl ⟨hp.1, hp.2, by rw [if_pos (by simp [hp])]⟩
  · exact Or.inr ⟨if_neg (by simpa using hp), fun hid hnone => hp ⟨hid, hnone⟩⟩

theorem get_of_findByTokenHash {tokenHash : String}
    (h : sessions.findByTokenHash tokenHash = some (id, session)) :
    sessions.get id = some session :=
  (OrderedMap.get_eq_some_iff _ _ _).mpr (List.mem_of_find?_eq_some h)

theorem get_of_findByHash {codeHash : String} (h : codes.findByHash codeHash = some code) :
    ∃ k, codes.get k = some code := by
  obtain ⟨⟨k, code'⟩, hfind, rfl⟩ := Option.map_eq_some_iff.mp h
  exact ⟨k, (OrderedMap.get_eq_some_iff _ _ _).mpr (List.mem_of_find?_eq_some hfind)⟩

theorem mem_listUserSessions {userId : String} :
    id ∈ sessions.listUserSessions userId now ↔ ∃ session, sessions.get id = some session ∧
      session.userId = userId ∧ session.revokedAt = none ∧ session.deviceSessionId = none ∧
      now < session.expiresAt := by
  unfold SessionTable.listUserSessions
  rw [List.mem_map]
  constructor
  · rintro ⟨⟨k, session⟩, hmem, rfl⟩
    obtain ⟨hmem, hp⟩ := List.mem_filter.mp hmem
    simp only [Bool.and_eq_true, decide_eq_true_eq] at hp
    exact ⟨session, (OrderedMap.get_eq_some_iff _ _ _).mpr hmem, hp.1.1.1, hp.1.1.2, hp.1.2, hp.2⟩
  · rintro ⟨session, hget, h1, h2, h3, h4⟩
    refine ⟨(id, session), List.mem_filter.mpr ⟨(OrderedMap.get_eq_some_iff _ _ _).mp hget, ?_⟩, rfl⟩
    simp [h1, h2, h3, h4]

theorem of_claim (h : codes.claim id now = some codes') :
    ∃ code, codes.get id = some code ∧ code.usedAt = none ∧ now < code.expiresAt ∧
      codes' = codes.set id { code with usedAt := some now } := by
  unfold CodeTable.claim at h
  cases hget : codes.get id with
  | none => simp [hget] at h
  | some code =>
    simp only [hget] at h
    obtain ⟨hfree, hcodes⟩ := Option.ite_none_right_eq_some.mp h
    simp only [Bool.and_eq_true, decide_eq_true_eq] at hfree
    exact ⟨code, rfl, hfree.1, hfree.2, (Option.some.inj hcodes).symm⟩

theorem Session.accepted_iff : session.accepted now = true ↔
    session.revokedAt = none ∧ now < session.expiresAt := by
  simp [Session.accepted]

end Tables

/-! ## Statements -/

/-- The session that an opening call creates. -/
def Opening.session (o : Opening) (tokenHash : String) (createdAt issuedAt maxAge : Nat) : Session :=
  { userId := o.userId, tokenHash, createdAt, expiresAt := issuedAt + maxAge, revokedAt := none
    lastSeenAt := issuedAt, deviceName := o.deviceName, deviceSessionId := o.deviceSessionId
    credential := o.credential }

variable {R : Runtime} {w w' : World}

/-- Every way a statement changes the world. The statements that only read, and leave a call waiting,
share the constructors that say what they add. -/
inductive Acts (R : Runtime) (w : World) : Statement → World → Prop
  | wait {ticks} : Acts R w (.wait ticks) { w with clock := w.clock + ticks }
  | signIn {email password userId user} (hfind : w.users.findByEmail email = some (userId, user))
      (hpassword : R.verifyPassword password user.passwordHash = true) :
      Acts R w (.signIn email password)
        { w with opening := ⟨userId, none, none, .password w.clock, true⟩ :: w.opening }
  | findUser {o} (ho : o ∈ w.opening) :
      Acts R w (.findUser o) { w with opening := { o with userFound := true } :: w.opening.erase o }
  | userMissing {o} (ho : o ∈ w.opening) :
      Acts R w (.findUser o) { w with opening := w.opening.erase o }
  | createSession {o id tokenHash issuedAt maxAge} (ho : o ∈ w.opening)
      (hid : w.sessions.get id = none) :
      Acts R w (.createSession o id tokenHash issuedAt maxAge)
        { w with
          sessions := w.sessions.set id (o.session tokenHash w.clock issuedAt maxAge)
          opening := w.opening.erase o }
  | approveDevice {id codeHash userId redirectUri codeChallenge deviceName now}
      (hid : w.codes.get id = none) :
      Acts R w (.approveDevice id codeHash userId redirectUri codeChallenge deviceName now)
        { w with
          codes := w.codes.set id
            { id, codeHash, kind := .device, userId, sessionId := none
              codeChallenge := some codeChallenge, redirectUri := some redirectUri
              deviceName := some deviceName, createdAt := w.clock
              expiresAt := now + DEVICE_CODE_TTL_MS, usedAt := none } }
  | readCode {token presented k code} (hget : w.codes.get k = some code)
      (hkind : code.kind = presented.kind) :
      Acts R w (.readCode token presented)
        { w with consuming := ⟨code, w.clock, presented⟩ :: w.consuming }
  | claimLost {c} (hc : c ∈ w.consuming) :
      Acts R w (.claimCode c) { w with consuming := w.consuming.erase c }
  | claimDevice {c codes codeVerifier redirectUri} (hc : c ∈ w.consuming)
      (hclaim : w.codes.claim c.code.id c.now = some codes)
      (hpresented : c.presented = .device codeVerifier redirectUri)
      (hproof : provesDevice R c.code codeVerifier redirectUri = true) :
      Acts R w (.claimCode c)
        { w with
          consuming := w.consuming.erase c
          codes
          opening := ⟨c.code.userId, c.code.deviceName, none,
            .deviceCode c.code codeVerifier redirectUri, false⟩ :: w.opening }
  | claimRefused {c codes} (hc : c ∈ w.consuming)
      (hclaim : w.codes.claim c.code.id c.now = some codes) :
      Acts R w (.claimCode c) { w with consuming := w.consuming.erase c, codes }
  | claimWeb {c codes} (hc : c ∈ w.consuming)
      (hclaim : w.codes.claim c.code.id c.now = some codes) (hpresented : c.presented = .web) :
      Acts R w (.claimCode c)
        { w with consuming := w.consuming.erase c, codes, redeeming := c.code :: w.redeeming }
  | issueWebSessionCode {id codeHash deviceId device now}
      (hget : w.sessions.get deviceId = some device) (hdevice : device.deviceName.isSome = true)
      (hid : w.codes.get id = none) :
      Acts R w (.issueWebSessionCode id codeHash deviceId now)
        { w with
          codes := w.codes.set id
            { id, codeHash, kind := .web, userId := device.userId, sessionId := some deviceId
              codeChallenge := none, redirectUri := none, deviceName := none
              createdAt := w.clock, expiresAt := now + WEB_SESSION_CODE_TTL_MS, usedAt := none } }
  | deviceGone {code} (hcode : code ∈ w.redeeming) :
      Acts R w (.findDevice code) { w with redeeming := w.redeeming.erase code }
  | findDevice {code id device} (hcode : code ∈ w.redeeming) (hid : code.sessionId = some id)
      (hget : w.sessions.get id = some device) (haccepted : device.accepted w.clock = true) :
      Acts R w (.findDevice code)
        { w with
          redeeming := w.redeeming.erase code
          opening := ⟨code.userId, none, some id, .webCode code, false⟩ :: w.opening }
  | getSession {token id session} (hget : w.sessions.get id = some session)
      (haccepted : session.accepted w.clock = true) :
      Acts R w (.getSession token) { w with touching := ⟨id, session, w.clock⟩ :: w.touching }
  | touch {t maxAge} (ht : t ∈ w.touching) :
      Acts R w (.touch t maxAge)
        { w with
          sessions := w.sessions.touchSessionLastSeen t.id t.seenAt
            (if t.session.deviceName.isSome then some (t.seenAt + maxAge) else none)
          touching := w.touching.erase t
          accepted := ⟨t.id, t.session, w.clock⟩ :: w.accepted }
  | willReplace {s r} : Acts R w s { w with replacing := r :: w.replacing }
  | replacePassword {r user} (hr : r ∈ w.replacing) :
      Acts R w (.replacePassword r)
        { w with
          users := w.users.set r.userId user
          sessions := w.sessions.revokeOthers r.userId r.keepSessionId w.clock
          replacing := w.replacing.erase r
          replacements := ⟨r.userId, r.keepSessionId, w.clock⟩ :: w.replacements }
  | willRevoke {s id} : Acts R w s { w with revoking := id :: w.revoking }
  | revokeSessionById {id} (hid : id ∈ w.revoking) :
      Acts R w (.revokeSessionById id)
        { w with
          sessions := w.sessions.revokeSessionById id w.clock
          revoking := w.revoking.erase id }
  | willList {s l} (hl : ∀ o, l = .everywhere o → o.calledAt = w.clock) :
      Acts R w s { w with listing := l :: w.listing }
  | listOne {l ids} (hl : l ∈ w.listing) :
      Acts R w (.listUserSessions l)
        { w with listing := w.listing.erase l, revoking := ids ++ w.revoking }
  | listEverywhere {o} (ho : .everywhere o ∈ w.listing) :
      Acts R w (.listUserSessions (.everywhere o))
        { w with
          listing := w.listing.erase (.everywhere o)
          signingOut := (o, (w.sessions.listUserSessions o.userId w.clock).filter
            fun id => !o.current.isOne id) :: w.signingOut }
  | listAll {l userId} (hl : l ∈ w.listing) :
      Acts R w (.listUserSessions l)
        { w with listing := w.listing.erase l, revokingUsers := userId :: w.revokingUsers }
  | listBlocked {l} (hl : l ∈ w.listing) :
      Acts R w (.listUserSessions l) { w with listing := w.listing.erase l }
  | signOutReturns {o} (ho : (o, []) ∈ w.signingOut) :
      Acts R w (.revokeListed o [])
        { w with
          signingOut := w.signingOut.erase (o, [])
          signedOut := ⟨o, w.clock⟩ :: w.signedOut }
  | revokeListed {o id rest} (ho : (o, id :: rest) ∈ w.signingOut) :
      Acts R w (.revokeListed o (id :: rest))
        { w with
          sessions := w.sessions.revokeSessionById id w.clock
          signingOut := (o, rest) :: w.signingOut.erase (o, id :: rest) }
  | revokeUserSessions {userId} (huser : userId ∈ w.revokingUsers) :
      Acts R w (.revokeUserSessions userId)
        { w with
          sessions := w.sessions.revokeUserSessions userId w.clock
          revokingUsers := w.revokingUsers.erase userId }

theorem acts_claimCode {c : Consuming} (h : w.act R (.claimCode c) = some w') :
    Acts R w (.claimCode c) w' := by
  obtain ⟨hc, h⟩ := Option.ite_none_right_eq_some.mp h
  cases hclaim : w.codes.claim c.code.id c.now with
  | none =>
    simp only [hclaim, Option.some.injEq] at h
    exact h ▸ .claimLost hc
  | some codes =>
    simp only [hclaim, Option.some.injEq] at h
    subst h
    unfold World.claimed
    cases hpresented : c.presented with
    | device codeVerifier redirectUri =>
      dsimp only
      split_ifs with hproof
      · exact .claimDevice hc hclaim hpresented hproof
      · exact .claimRefused hc hclaim
    | web => exact .claimWeb hc hclaim hpresented

theorem acts_findDevice {code : DeviceAuthCode} (h : w.act R (.findDevice code) = some w') :
    Acts R w (.findDevice code) w' := by
  obtain ⟨hcode, h⟩ := Option.ite_none_right_eq_some.mp h
  cases hdevice : code.sessionId.bind fun id => (w.sessions.get id).map fun device => (id, device) with
  | none =>
    simp only [hdevice, Option.some.injEq] at h
    exact h ▸ .deviceGone hcode
  | some found =>
    obtain ⟨id, hid, hfound⟩ := Option.bind_eq_some_iff.mp hdevice
    obtain ⟨device, hget, rfl⟩ := Option.map_eq_some_iff.mp hfound
    simp only [hdevice] at h
    split_ifs at h with haccepted
    · exact Option.some.inj h ▸ .findDevice hcode hid hget haccepted
    · exact Option.some.inj h ▸ .deviceGone hcode

theorem acts_listUserSessions {l : Listing} (h : w.act R (.listUserSessions l) = some w') :
    Acts R w (.listUserSessions l) w' := by
  obtain ⟨hl, h⟩ := Option.ite_none_right_eq_some.mp h
  obtain rfl := Option.some.inj h
  cases l with
  | ownSession userId sessionId => exact .listOne hl
  | everywhere o => exact .listEverywhere hl
  | userSession userId sessionId => exact .listOne hl
  | allOf userId currentSessionId =>
    unfold World.listed
    dsimp only
    split_ifs
    · exact .listBlocked hl
    · exact .listAll hl

theorem acts_revokeListed {o : SigningOut} {ids : List String}
    (h : w.act R (.revokeListed o ids) = some w') : Acts R w (.revokeListed o ids) w' := by
  obtain ⟨ho, h⟩ := Option.ite_none_right_eq_some.mp h
  cases ids with
  | nil => exact Option.some.inj h ▸ .signOutReturns ho
  | cons id rest => exact Option.some.inj h ▸ .revokeListed ho

theorem acts_getSession {token : String} (h : w.act R (.getSession token) = some w') :
    Acts R w (.getSession token) w' := by
  obtain ⟨-, h⟩ := Option.ite_none_left_eq_some.mp h
  obtain ⟨⟨id, session⟩, hfind, h⟩ := Option.bind_eq_some_iff.mp h
  dsimp only at h
  split_ifs at h with haccepted
  · exact Option.some.inj h ▸ .getSession (get_of_findByTokenHash hfind) haccepted
  · exact Option.some.inj h ▸ .willRevoke

theorem acts_of_act {s : Statement} (h : w.act R s = some w') : Acts R w s w' := by
  cases s with
  | wait ticks => exact Option.some.inj h ▸ .wait
  | signIn email password =>
    obtain ⟨⟨userId, user⟩, hfind, h⟩ := Option.bind_eq_some_iff.mp h
    obtain ⟨hpassword, h⟩ := Option.ite_none_right_eq_some.mp h
    exact Option.some.inj h ▸ .signIn hfind hpassword
  | findUser o =>
    obtain ⟨ho, h⟩ := Option.ite_none_right_eq_some.mp h
    split_ifs at h
    · exact Option.some.inj h ▸ .findUser ho
    · exact Option.some.inj h ▸ .userMissing ho
  | createSession o id tokenHash issuedAt maxAge =>
    obtain ⟨hguard, h⟩ := Option.ite_none_right_eq_some.mp h
    simp only [Bool.and_eq_true, decide_eq_true_eq, Bool.not_eq_true',
      OrderedMap.has_eq_false_iff] at hguard
    exact Option.some.inj h ▸ .createSession hguard.1.1.1.1 hguard.1.1.2
  | approveDevice id codeHash userId redirectUri codeChallenge deviceName now =>
    obtain ⟨hguard, h⟩ := Option.ite_none_right_eq_some.mp h
    simp only [Bool.and_eq_true, decide_eq_true_eq, Bool.not_eq_true',
      OrderedMap.has_eq_false_iff] at hguard
    exact Option.some.inj h ▸ .approveDevice hguard.1.2
  | readCode token presented =>
    obtain ⟨code, hfind, h⟩ := Option.bind_eq_some_iff.mp h
    obtain ⟨hkind, h⟩ := Option.ite_none_right_eq_some.mp h
    obtain ⟨k, hget⟩ := get_of_findByHash hfind
    exact Option.some.inj h ▸ .readCode hget hkind
  | claimCode c => exact acts_claimCode h
  | issueWebSessionCode id codeHash deviceId now =>
    obtain ⟨device, hget, h⟩ := Option.bind_eq_some_iff.mp h
    obtain ⟨hguard, h⟩ := Option.ite_none_right_eq_some.mp h
    simp only [Bool.and_eq_true, decide_eq_true_eq, Bool.not_eq_true',
      OrderedMap.has_eq_false_iff] at hguard
    exact Option.some.inj h ▸ .issueWebSessionCode hget hguard.1.1 hguard.1.2
  | findDevice code => exact acts_findDevice h
  | getSession token => exact acts_getSession h
  | touch t maxAge =>
    obtain ⟨ht, h⟩ := Option.ite_none_right_eq_some.mp h
    exact Option.some.inj h ▸ .touch ht
  | changeOwnPassword userId currentSessionId currentPassword passwordHash =>
    obtain ⟨-, h⟩ := Option.ite_none_right_eq_some.mp h
    exact Option.some.inj h ▸ .willReplace
  | changeRequiredPassword userId currentSessionId passwordHash =>
    obtain ⟨-, h⟩ := Option.ite_none_right_eq_some.mp h
    exact Option.some.inj h ▸ .willReplace
  | resetTemporaryPassword actorUserId targetUserId passwordHash requirePasswordChange =>
    obtain ⟨-, h⟩ := Option.ite_none_right_eq_some.mp h
    exact Option.some.inj h ▸ .willReplace
  | replacePassword r =>
    obtain ⟨hr, h⟩ := Option.ite_none_right_eq_some.mp h
    obtain ⟨user, -, rfl⟩ := Option.map_eq_some_iff.mp h
    exact .replacePassword hr
  | revokeSession token =>
    obtain ⟨-, h⟩ := Option.ite_none_left_eq_some.mp h
    obtain ⟨⟨id, session⟩, -, h⟩ := Option.bind_eq_some_iff.mp h
    obtain ⟨-, h⟩ := Option.ite_none_right_eq_some.mp h
    exact Option.some.inj h ▸ .willRevoke
  | revokeSessionById id =>
    obtain ⟨hid, h⟩ := Option.ite_none_right_eq_some.mp h
    exact Option.some.inj h ▸ .revokeSessionById hid
  | revokeOwnSessions userId current sessionId =>
    simp only [World.act] at h
    cases hsession : sessionId.filter (· ≠ "") with
    | none =>
      rw [hsession] at h
      refine Option.some.inj h ▸ .willList fun o ho => ?_
      rw [← Listing.everywhere.inj ho]
    | some sessionId =>
      rw [hsession] at h
      obtain ⟨-, h⟩ := Option.ite_none_left_eq_some.mp h
      exact Option.some.inj h ▸ .willList fun o ho => by cases ho
  | revokeUserSession actorUserId targetUserId sessionId currentSessionId =>
    obtain ⟨-, h⟩ := Option.ite_none_right_eq_some.mp h
    exact Option.some.inj h ▸ .willList fun o ho => by cases ho
  | revokeAllUserSessions actorUserId targetUserId currentSessionId =>
    obtain ⟨-, h⟩ := Option.ite_none_right_eq_some.mp h
    exact Option.some.inj h ▸ .willList fun o ho => by cases ho
  | listUserSessions l => exact acts_listUserSessions h
  | revokeListed o ids => exact acts_revokeListed h
  | revokeUserSessions userId =>
    obtain ⟨huser, h⟩ := Option.ite_none_right_eq_some.mp h
    exact Option.some.inj h ▸ .revokeUserSessions huser

/-- A step is a tick after what its statement does, or a tick alone. -/
theorem step_cases {s : Statement} {I : World → Prop} (hact : ∀ w', Acts R w s w' → I w'.tick)
    (hnone : I w.tick) : I (w.step R s) := by
  unfold World.step
  cases h : w.act R s with
  | none => exact hnone
  | some w' => exact hact w' (acts_of_act h)

/-! ## What becomes of the parts of the world -/

variable {s : Statement}

/-- What no statement changes about a session. -/
structure Session.Same (session session' : Session) : Prop where
  userId : session'.userId = session.userId
  createdAt : session'.createdAt = session.createdAt
  deviceName : session'.deviceName = session.deviceName
  deviceSessionId : session'.deviceSessionId = session.deviceSessionId
  credential : session'.credential = session.credential
  /-- Nothing takes a revocation back. -/
  unrevoked : session'.revokedAt = none → session.revokedAt = none

theorem Session.Same.refl (session : Session) : session.Same session :=
  ⟨rfl, rfl, rfl, rfl, rfl, fun h => h⟩

theorem same_of_revokeWhere {sessions : SessionTable} {p : String → Session → Bool} {now : Nat}
    {id : String} {session' : Session} (h : (sessions.revokeWhere p now).get id = some session') :
    ∃ session, sessions.get id = some session ∧ session.Same session' := by
  obtain ⟨session, hget, ⟨-, -, rfl⟩ | ⟨rfl, -⟩⟩ := get_revokeWhere h
  · exact ⟨session, hget, rfl, rfl, rfl, rfl, rfl, fun h => by cases h⟩
  · exact ⟨session', hget, .refl session'⟩

/-- A row of the sessions was there before, or was just created. -/
theorem Acts.row (h : Acts R w s w') {id : String} {session' : Session}
    (hget : w'.sessions.get id = some session') :
    (∃ session, w.sessions.get id = some session ∧ session.Same session') ∨
      ∃ o tokenHash issuedAt maxAge, s = .createSession o id tokenHash issuedAt maxAge ∧
        o ∈ w.opening ∧ w.sessions.get id = none ∧
        session' = o.session tokenHash w.clock issuedAt maxAge := by
  cases h with
  | createSession ho hid =>
    obtain ⟨rfl, rfl⟩ | ⟨-, hold⟩ := OrderedMap.get_set_eq_some.mp hget
    · exact Or.inr ⟨_, _, _, _, rfl, ho, hid, rfl⟩
    · exact Or.inl ⟨_, hold, .refl _⟩
  | touch ht =>
    obtain ⟨session, hold, ⟨-, -, rfl⟩ | ⟨rfl, -⟩⟩ := get_touch hget
    · exact Or.inl ⟨session, hold, rfl, rfl, rfl, rfl, rfl, fun h => h⟩
    · exact Or.inl ⟨_, hold, .refl _⟩
  | replacePassword hr => exact Or.inl (same_of_revokeWhere hget)
  | revokeSessionById hid => exact Or.inl (same_of_revokeWhere hget)
  | revokeListed ho => exact Or.inl (same_of_revokeWhere hget)
  | revokeUserSessions huser => exact Or.inl (same_of_revokeWhere hget)
  | _ => exact Or.inl ⟨_, hget, .refl _⟩

theorem Acts.clock_le (h : Acts R w s w') : w.clock ≤ w'.clock := by
  cases h with
  | wait => exact Nat.le_add_right _ _
  | _ => exact Nat.le_refl _

theorem Acts.replacements (h : Acts R w s w') : w'.replacements = w.replacements ∨
    ∃ r, s = .replacePassword r ∧ r ∈ w.replacing ∧
      w'.sessions = w.sessions.revokeOthers r.userId r.keepSessionId w.clock ∧
      w'.replacements = ⟨r.userId, r.keepSessionId, w.clock⟩ :: w.replacements := by
  cases h with
  | replacePassword hr => exact Or.inr ⟨_, rfl, hr, rfl, rfl⟩
  | _ => exact Or.inl rfl

/-- A call of `getSession` that goes on has found an unrevoked row that has not expired. -/
theorem Acts.mem_touching (h : Acts R w s w') {t : Touching} (ht : t ∈ w'.touching) :
    t ∈ w.touching ∨ (w.sessions.get t.id = some t.session ∧
      t.session.accepted w.clock = true ∧ t.seenAt = w.clock) := by
  cases h with
  | getSession hget haccepted =>
    rcases List.mem_cons.mp ht with rfl | ht
    · exact Or.inr ⟨hget, haccepted, rfl⟩
    · exact Or.inl ht
  | touch _ => exact Or.inl (List.mem_of_mem_erase ht)
  | _ => exact Or.inl ht

theorem Acts.mem_accepted (h : Acts R w s w') {a : Acceptance} (ha : a ∈ w'.accepted) :
    a ∈ w.accepted ∨ ∃ t maxAge, s = .touch t maxAge ∧ t ∈ w.touching ∧
      a = ⟨t.id, t.session, w.clock⟩ := by
  cases h with
  | touch ht =>
    rcases List.mem_cons.mp ha with rfl | ha
    · exact Or.inr ⟨_, _, rfl, ht, rfl⟩
    · exact Or.inl ha
  | _ => exact Or.inl ha

theorem Acts.mem_opening (h : Acts R w s w') {o : Opening} (ho : o ∈ w'.opening) :
    o ∈ w.opening ∨ (∃ o₀ ∈ w.opening, o = { o₀ with userFound := true }) ∨
      (∃ userId, o = ⟨userId, none, none, .password w.clock, true⟩) ∨
      (∃ c codeVerifier redirectUri, c ∈ w.consuming ∧
        w.codes.claim c.code.id c.now = some w'.codes ∧
        c.presented = .device codeVerifier redirectUri ∧
        provesDevice R c.code codeVerifier redirectUri = true ∧
        o = ⟨c.code.userId, c.code.deviceName, none, .deviceCode c.code codeVerifier redirectUri,
          false⟩) ∨
      ∃ code ∈ w.redeeming, ∃ id, code.sessionId = some id ∧
        o = ⟨code.userId, none, some id, .webCode code, false⟩ := by
  cases h with
  | signIn hfind hpassword =>
    rcases List.mem_cons.mp ho with rfl | ho
    · exact Or.inr (Or.inr (Or.inl ⟨_, rfl⟩))
    · exact Or.inl ho
  | findUser hmem =>
    rcases List.mem_cons.mp ho with rfl | ho
    · exact Or.inr (Or.inl ⟨_, hmem, rfl⟩)
    · exact Or.inl (List.mem_of_mem_erase ho)
  | userMissing hmem => exact Or.inl (List.mem_of_mem_erase ho)
  | createSession hmem hid => exact Or.inl (List.mem_of_mem_erase ho)
  | claimDevice hc hclaim hpresented hproof =>
    rcases List.mem_cons.mp ho with rfl | ho
    · exact Or.inr (Or.inr (Or.inr (Or.inl ⟨_, _, _, hc, hclaim, hpresented, hproof, rfl⟩)))
    · exact Or.inl ho
  | findDevice hcode hid hget haccepted =>
    rcases List.mem_cons.mp ho with rfl | ho
    · exact Or.inr (Or.inr (Or.inr (Or.inr ⟨_, hcode, _, hid, rfl⟩)))
    · exact Or.inl ho
  | _ => exact Or.inl ho

end Staaash.Auth
