import Staaash.Auth.Proofs.CodesProofs

/-!
# Proofs: windows and their devices

A window's session names the session of a device of the same user, which is never a window itself. So
every revocation that selects a device selects its windows too, except that of a password change that
keeps a window. Signing out everywhere revokes the listed sessions one by one, and each with its
windows; what it has to reach and has not revoked yet stands in the list, or has lapsed.
-/

namespace Staaash.Auth

open Staaash.Library

variable {R : Runtime} {w w' : World} {s : Statement} {codes : CodeTable} {id : String}

/-! ## Rows that stay -/

theorem stays_of_mapValues {sessions : SessionTable} {session : Session}
    {f : String → Session → Session} (hget : sessions.get id = some session) :
    ∃ session', (sessions.mapValues f).get id = some session' :=
  ⟨f id session, by rw [OrderedMap.get_mapValues, hget, Option.map_some]⟩

/-- No session is ever deleted. -/
theorem Acts.row_stays (h : Acts R w s w') {session : Session}
    (hget : w.sessions.get id = some session) :
    ∃ session', w'.sessions.get id = some session' ∧ session.Same session' := by
  obtain ⟨session', hget'⟩ : ∃ session', w'.sessions.get id = some session' := by
    cases h with
    | createSession ho hid =>
      dsimp only
      rw [OrderedMap.get_set]
      split_ifs
      · exact ⟨_, rfl⟩
      · exact ⟨_, hget⟩
    | touch ht => exact stays_of_mapValues hget
    | replacePassword hr => exact stays_of_mapValues hget
    | revokeSessionById hid => exact stays_of_mapValues hget
    | revokeListed ho => exact stays_of_mapValues hget
    | revokeUserSessions huser => exact stays_of_mapValues hget
    | _ => exact ⟨_, hget⟩
  refine ⟨session', hget', ?_⟩
  rcases h.row hget' with ⟨session₀, hold, hsame⟩ | ⟨_, _, _, _, -, -, hnew, -⟩
  · rw [hget] at hold
    obtain rfl := Option.some.inj hold
    exact hsame
  · rw [hget] at hnew
    cases hnew

/-! ## Windows and their devices -/

/-- A web code is for a device of its user. -/
def World.WebCodesNameDevices (w : World) : Prop :=
  ∀ id code, w.codes.get id = some code → code.kind = .web → code.NamesDevice w.sessions

/-- A window names a session of the same user that is not a window. -/
def World.Paired (w : World) : Prop :=
  ∀ id session d, w.sessions.get id = some session → session.deviceSessionId = some d →
    ∃ device, w.sessions.get d = some device ∧ device.userId = session.userId ∧
      device.deviceSessionId = none

theorem DeviceAuthCode.NamesDevice.stays {code : DeviceAuthCode} (h : code.NamesDevice w.sessions)
    (hact : Acts R w s w') : code.NamesDevice w'.sessions := by
  obtain ⟨d, device, hd, hget, huser, hname⟩ := h
  obtain ⟨device', hget', hsame⟩ := hact.row_stays hget
  refine ⟨d, device', hd, hget', ?_, ?_⟩
  · rw [hsame.userId, huser]
  · rw [hsame.deviceName]
    exact hname

theorem World.WebCodesNameDevices.act (h : w.WebCodesNameDevices) (hact : Acts R w s w') :
    w'.WebCodesNameDevices := by
  intro id code hget hkind
  rcases hact.code_row hget with ⟨row, hrow, hcopy⟩ | ⟨-, -, hweb⟩
  · rw [hcopy] at hkind
    obtain ⟨d, device, hd, hdevice⟩ := (h id row hrow hkind).stays hact
    rw [hcopy]
    exact ⟨d, device, hd, hdevice⟩
  · exact (hweb hkind).stays hact

/-- A window was opened with a web code, whose row is still there. -/
theorem OpenedAsIssued.of_window {session : Session} {d : String} (h : OpenedAsIssued R codes session)
    (hd : session.deviceSessionId = some d) : session.deviceName = none ∧
      ∃ k row, codes.get k = some row ∧ row.kind = .web ∧ row.sessionId = some d ∧
        row.userId = session.userId := by
  unfold OpenedAsIssued at h
  cases hcredential : session.credential with
  | password checkedAt =>
    rw [hcredential] at h
    rw [h.2] at hd
    cases hd
  | deviceCode code codeVerifier redirectUri =>
    rw [hcredential] at h
    rw [h.2.2.2.2.1] at hd
    cases hd
  | webCode code =>
    rw [hcredential] at h
    obtain ⟨hkind, huser, hname, hsession, -, row, usedAt, hrow, rfl, -⟩ := h
    exact ⟨hname, _, _, hrow, hkind, hsession.symm.trans hd, huser.symm⟩

/-- A device's session is not a window. -/
theorem OpenedAsIssued.of_device {session : Session} (h : OpenedAsIssued R codes session)
    (hname : session.deviceName.isSome = true) : session.deviceSessionId = none := by
  cases hd : session.deviceSessionId with
  | none => rfl
  | some d =>
    rw [(h.of_window hd).1] at hname
    cases hname

theorem CodesInv.paired (h : CodesInv R w) (hweb : w.WebCodesNameDevices) : w.Paired := by
  intro id session d hget hd
  obtain ⟨-, k, row, hrow, hkind, hsession, huser⟩ := (h.sessions id session hget).of_window hd
  obtain ⟨d', device, hd', hdevice, huser', hname⟩ := hweb k row hrow hkind
  rw [hsession] at hd'
  obtain rfl := Option.some.inj hd'
  exact ⟨device, hdevice, huser'.trans huser, (h.sessions d device hdevice).of_device hname⟩

/-! ## A window ends with its device -/

/-- A revocation that selects no device without its windows. -/
theorem EndsWithDevice.revoke (h : EndsWithDevice w) (hpaired : w.Paired)
    {p : String → Session → Bool} {now : Nat}
    (hsessions : w'.sessions = w.sessions.revokeWhere p now)
    (hp : ∀ id session d device, w.sessions.get id = some session → session.revokedAt = none →
      session.deviceSessionId = some d → device.userId = session.userId →
      device.deviceSessionId = none → p id session = false → p d device = false) :
    EndsWithDevice w' := by
  intro id session d hget hd hnone
  rw [hsessions] at hget ⊢
  obtain ⟨hold, hsel⟩ := get_revokeWhere_unrevoked hget hnone
  obtain ⟨device, hdevice, huser, hmain⟩ := hpaired id session d hold hd
  obtain ⟨device', hdevice', hfree⟩ := h id session d hold hd hnone
  rw [hdevice] at hdevice'
  obtain rfl := Option.some.inj hdevice'
  have hkept := hp id session d device hold hnone hd huser hmain hsel
  refine ⟨device, ?_, hfree⟩
  rw [SessionTable.revokeWhere, OrderedMap.get_mapValues, hdevice, Option.map_some, hkept]
  rfl

/-- `revokeSessionById` takes a device with its windows. -/
theorem isOrBelongsTo_device {id id' d : String} {session device : Session}
    (hd : session.deviceSessionId = some d) (hmain : device.deviceSessionId = none)
    (h : isOrBelongsTo id id' session = false) : isOrBelongsTo id d device = false := by
  unfold isOrBelongsTo at *
  simp only [hd, hmain, Bool.or_eq_false_iff, decide_eq_false_iff_not] at *
  exact ⟨fun hid => h.2 (by rw [hid]), nofun⟩

theorem EndsWithDevice.act (h : EndsWithDevice w) (hpaired : w.Paired) (hok : PairsKept w s)
    (hact : Acts R w s w') : EndsWithDevice w' := by
  cases hact with
  | createSession ho hid =>
    intro id' session d hget hd hnone
    have hpair : ∃ device, w.sessions.get d = some device ∧ device.revokedAt = none := by
      obtain ⟨rfl, rfl⟩ | ⟨-, hold⟩ := OrderedMap.get_set_eq_some.mp hget
      · exact hok ho d hd
      · exact h id' session d hold hd hnone
    obtain ⟨device, hdevice, hfree⟩ := hpair
    refine ⟨device, ?_, hfree⟩
    dsimp only
    rw [OrderedMap.get_set, if_neg]
    · exact hdevice
    · rintro rfl
      rw [hid] at hdevice
      cases hdevice
  | touch ht =>
    intro id' session d hget hd hnone
    obtain ⟨session₀, hold, hsession⟩ := get_touch hget
    have hpair : ∃ device, w.sessions.get d = some device ∧ device.revokedAt = none := by
      obtain ⟨-, -, rfl⟩ | ⟨rfl, -⟩ := hsession
      · exact h id' session₀ d hold hd hnone
      · exact h id' session d hold hd hnone
    obtain ⟨device, hdevice, hfree⟩ := hpair
    show ∃ device, (SessionTable.touchSessionLastSeen _ _ _ _).get d = some device ∧ _
    rw [SessionTable.touchSessionLastSeen, OrderedMap.get_mapValues, hdevice]
    refine ⟨_, rfl, ?_⟩
    dsimp only
    split_ifs <;> exact hfree
  | @replacePassword r user hr =>
    refine h.revoke (p := fun id session => session.userId = r.userId && r.keepSessionId ≠ some id)
      hpaired rfl fun id' session d device hget hnone hd huser hmain hsel => ?_
    simp only [Bool.and_eq_false_iff, decide_eq_false_iff_not, not_not] at hsel
    rcases hsel with hother | hkept
    · simp [huser, hother]
    · rw [hok hr id' session hkept hget hnone] at hd
      cases hd
  | revokeSessionById hid =>
    exact h.revoke hpaired rfl fun _ _ _ _ _ _ hd _ hmain => isOrBelongsTo_device hd hmain
  | revokeListed ho =>
    exact h.revoke hpaired rfl fun _ _ _ _ _ _ hd _ hmain => isOrBelongsTo_device hd hmain
  | @revokeUserSessions userId huser =>
    refine h.revoke (p := fun _ session => session.userId = userId) hpaired rfl
      fun _ _ _ _ _ _ _ hsame _ hsel => ?_
    rw [hsame]
    exact hsel
  | _ => exact h

/-- The part of the invariant that needs only `PairsKept`. -/
structure WindowsInv (R : Runtime) (w : World) : Prop where
  codes : CodesInv R w
  webCodes : w.WebCodesNameDevices
  windows : EndsWithDevice w

theorem WindowsInv.paired (h : WindowsInv R w) : w.Paired := h.codes.paired h.webCodes

theorem WindowsInv.tick (h : WindowsInv R w) : WindowsInv R w.tick :=
  ⟨codesInv_tick h.codes, h.webCodes, h.windows⟩

theorem WindowsInv.act (h : WindowsInv R w) (hok : PairsKept w s) (hact : Acts R w s w') :
    WindowsInv R w' :=
  ⟨h.codes.act hact, h.webCodes.act hact, h.windows.act h.paired hok hact⟩

theorem WindowsInv.step (h : WindowsInv R w) (hok : PairsKept w s) : WindowsInv R (w.step R s) :=
  step_cases (fun _ hact => (h.act hok hact).tick) h.tick

theorem windowsInv_initial (users : UserTable) : WindowsInv R (World.initial users) := by
  refine ⟨codesInv_initial users, ?_, ?_⟩ <;> intro _ <;> simp [World.initial]

end Staaash.Auth
