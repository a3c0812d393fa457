import Staaash.Auth.Proofs.WindowsProofs

/-!
# Proofs: signing out everywhere

From the list on, every session that the call has to reach has lapsed, stands in what is left of the
list, or is the window of a device that does. Each revocation takes one id off the list and leaves no
session for which it stood. When the list is empty, what is left has lapsed, and a lapsed session is
never accepted again.
-/

namespace Staaash.Auth

open Staaash.Library

variable {R : Runtime} {w w' : World} {s : Statement} {id : String}

/-! ## What is left of the list -/

theorem Acts.mem_listing (h : Acts R w s w') {o : SigningOut} (ho : .everywhere o ∈ w'.listing) :
    .everywhere o ∈ w.listing ∨ o.calledAt = w.clock := by
  cases h with
  | willList hl =>
    rcases List.mem_cons.mp ho with rfl | ho
    · exact Or.inr (hl o rfl)
    · exact Or.inl ho
  | listOne hl => exact Or.inl (List.mem_of_mem_erase ho)
  | listEverywhere hl => exact Or.inl (List.mem_of_mem_erase ho)
  | listAll hl => exact Or.inl (List.mem_of_mem_erase ho)
  | listBlocked hl => exact Or.inl (List.mem_of_mem_erase ho)
  | _ => exact Or.inl ho

/-- The ids that signing out everywhere goes by. -/
def World.listEverywhere (w : World) (o : SigningOut) : List String :=
  (w.sessions.listUserSessions o.userId w.clock).filter fun id => !o.current.isOne id

/-- A call on its way through a list has just listed, has just revoked the first of it, or was there
before. -/
theorem Acts.mem_signingOut (h : Acts R w s w') {o : SigningOut} {ids : List String}
    (ho : (o, ids) ∈ w'.signingOut) : (o, ids) ∈ w.signingOut ∨
      (.everywhere o ∈ w.listing ∧ s = .listUserSessions (.everywhere o) ∧
        ids = w.listEverywhere o) ∨
      ∃ id, (o, id :: ids) ∈ w.signingOut ∧
        w'.sessions = w.sessions.revokeSessionById id w.clock := by
  cases h with
  | listEverywhere hl =>
    rcases List.mem_cons.mp ho with heq | ho
    · obtain ⟨rfl, rfl⟩ := Prod.mk.inj heq
      exact Or.inr (Or.inl ⟨hl, rfl, rfl⟩)
    · exact Or.inl ho
  | signOutReturns _ => exact Or.inl (List.mem_of_mem_erase ho)
  | revokeListed hmem =>
    rcases List.mem_cons.mp ho with heq | ho
    · obtain ⟨rfl, rfl⟩ := Prod.mk.inj heq
      exact Or.inr (Or.inr ⟨_, hmem, rfl⟩)
    · exact Or.inl (List.mem_of_mem_erase ho)
  | _ => exact Or.inl ho

theorem Acts.mem_signedOut (h : Acts R w s w') {o : SignedOut} (ho : o ∈ w'.signedOut) :
    o ∈ w.signedOut ∨ ((o.call, []) ∈ w.signingOut ∧ o.returnedAt = w.clock) := by
  cases h with
  | signOutReturns hmem =>
    rcases List.mem_cons.mp ho with rfl | ho
    · exact Or.inr ⟨hmem, rfl⟩
    · exact Or.inl ho
  | _ => exact Or.inl ho

theorem Current.Covers.same {current : Current} {session session' : Session}
    (hsame : session.Same session') :
    current.Covers id session' ↔ current.Covers id session := by
  unfold Current.Covers
  rw [hsame.deviceSessionId]

/-! ## Lapsed sessions -/

/-- Every call of `getSession` under way has a row, and what it has read of it still holds. -/
def World.Touches (w : World) : Prop :=
  ∀ t ∈ w.touching, ∃ row, w.sessions.get t.id = some row ∧ t.session.Same row

theorem Session.Same.trans {s₁ s₂ s₃ : Session} (h : s₁.Same s₂) (h' : s₂.Same s₃) : s₁.Same s₃ where
  userId := h'.userId.trans h.userId
  createdAt := h'.createdAt.trans h.createdAt
  deviceName := h'.deviceName.trans h.deviceName
  deviceSessionId := h'.deviceSessionId.trans h.deviceSessionId
  credential := h'.credential.trans h.credential
  unrevoked hnone := h.unrevoked (h'.unrevoked hnone)

theorem World.Touches.act (h : w.Touches) (hact : Acts R w s w') : w'.Touches := by
  intro t ht
  rcases hact.mem_touching ht with ht | ⟨hget, -, -⟩
  · obtain ⟨row, hget, hsame⟩ := h t ht
    obtain ⟨row', hget', hsame'⟩ := hact.row_stays hget
    exact ⟨row', hget', hsame.trans hsame'⟩
  · exact hact.row_stays hget

/-- Only `getSession` moves an expiry, and only a device's. -/
theorem Acts.expiresAt (h : Acts R w s w') {session session' : Session}
    (hget : w.sessions.get id = some session) (hget' : w'.sessions.get id = some session') :
    session'.expiresAt = session.expiresAt ∨
      ∃ t ∈ w.touching, t.id = id ∧ t.session.deviceName.isSome = true := by
  have hrevoked : ∀ {p now}, (w.sessions.revokeWhere p now).get id = some session' →
      session'.expiresAt = session.expiresAt := by
    intro p now hget'
    obtain ⟨before, hold, hsession⟩ := get_revokeWhere hget'
    rw [hget] at hold
    obtain rfl := Option.some.inj hold
    obtain ⟨-, -, rfl⟩ | ⟨rfl, -⟩ := hsession
    · rfl
    · rfl
  have hsame : w.sessions.get id = some session' → session'.expiresAt = session.expiresAt := by
    intro hget'
    rw [hget] at hget'
    rw [Option.some.inj hget']
  cases h with
  | createSession ho hid =>
    obtain ⟨rfl, -⟩ | ⟨-, hold⟩ := OrderedMap.get_set_eq_some.mp hget'
    · rw [hid] at hget
      cases hget
    · exact Or.inl (hsame hold)
  | @touch t maxAge ht =>
    obtain ⟨before, hold, hsession⟩ := get_touch hget'
    rw [hget] at hold
    obtain rfl := Option.some.inj hold
    obtain ⟨rfl, -, rfl⟩ | ⟨rfl, -⟩ := hsession
    · by_cases hname : t.session.deviceName.isSome = true
      · exact Or.inr ⟨t, ht, rfl, hname⟩
      · rw [if_neg hname]
        exact Or.inl rfl
    · exact Or.inl rfl
  | replacePassword _ => exact Or.inl (hrevoked hget')
  | revokeSessionById _ => exact Or.inl (hrevoked hget')
  | revokeListed _ => exact Or.inl (hrevoked hget')
  | revokeUserSessions _ => exact Or.inl (hrevoked hget')
  | _ => exact Or.inl (hsame hget')

/-- A session that is over stays over. -/
theorem World.Lapsed.act {session session' : Session} (h : w.Lapsed id session)
    (htouches : w.Touches) (hact : Acts R w s w') (hget : w.sessions.get id = some session)
    (hget' : w'.sessions.get id = some session') (hsame : session.Same session') :
    w'.Lapsed id session' := by
  constructor
  · have hclock := hact.clock_le
    rcases hact.expiresAt hget hget' with heq | ⟨t, ht, rfl, hname⟩
    · have := h.1
      omega
    · obtain ⟨row, hrow, hrowSame⟩ := htouches t ht
      rw [hget] at hrow
      obtain rfl := Option.some.inj hrow
      rw [← hrowSame.deviceName] at hname
      exact absurd rfl (h.2 hname t ht)
  · intro hname t ht heq
    rw [hsame.deviceName] at hname
    rcases hact.mem_touching ht with ht | ⟨hrow, haccepted, -⟩
    · exact h.2 hname t ht heq
    · rw [heq, hget] at hrow
      have hexpiry := (Session.accepted_iff.mp haccepted).2
      rw [← Option.some.inj hrow] at hexpiry
      exact absurd h.1 (Nat.not_le.mpr hexpiry)

/-! ## Sessions that are to be reached -/

/-- Every unrevoked session that the call has to reach has lapsed, or `ids` names it or its device. -/
def World.Reached (w : World) (o : SigningOut) (ids : List String) : Prop :=
  ∀ id session, w.sessions.get id = some session → session.revokedAt = none →
    session.userId = o.userId → session.createdAt < o.calledAt → ¬ o.current.Covers id session →
    w.Lapsed id session ∨ id ∈ ids ∨ ∃ d ∈ ids, session.deviceSessionId = some d

theorem World.Reached.act {o : SigningOut} {ids : List String} (h : w.Reached o ids)
    (htouches : w.Touches) (hcalled : o.calledAt < w.clock) (hact : Acts R w s w') :
    w'.Reached o ids := by
  intro id session' hget hnone huser hcreated hcovers
  rcases hact.row hget with ⟨session, hold, hsame⟩ | ⟨_, _, _, _, rfl, -, -, rfl⟩
  · rw [hsame.userId] at huser
    rw [hsame.createdAt] at hcreated
    rw [Current.Covers.same hsame] at hcovers
    rcases h id session hold (hsame.unrevoked hnone) huser hcreated hcovers with
      hlapsed | hmem | ⟨d, hmem, hd⟩
    · exact Or.inl (hlapsed.act htouches hact hold hget hsame)
    · exact Or.inr (Or.inl hmem)
    · exact Or.inr (Or.inr ⟨d, hmem, hsame.deviceSessionId.trans hd⟩)
  · -- a session that is created now is newer than the call
    change w.clock < o.calledAt at hcreated
    omega

/-- Revoking the first of the list takes it off the list. -/
theorem World.Reached.revoked {o : SigningOut} {ids : List String} (h : w'.Reached o (id :: ids))
    (hsessions : w'.sessions = w.sessions.revokeSessionById id w.clock) : w'.Reached o ids := by
  intro id' session hget hnone huser hcreated hcovers
  have hkept : isOrBelongsTo id id' session = false := by
    rw [hsessions] at hget
    exact (get_revokeWhere_unrevoked hget hnone).2
  simp only [isOrBelongsTo, Bool.or_eq_false_iff, decide_eq_false_iff_not] at hkept
  rcases h id' session hget hnone huser hcreated hcovers with hlapsed | hmem | ⟨d, hmem, hd⟩
  · exact Or.inl hlapsed
  · rcases List.mem_cons.mp hmem with heq | hmem
    · exact absurd heq hkept.1
    · exact Or.inr (Or.inl hmem)
  · rcases List.mem_cons.mp hmem with rfl | hmem
    · exact absurd hd hkept.2
    · exact Or.inr (Or.inr ⟨d, hmem, hd⟩)

/-- What has to be reached and has not lapsed is on the list, or its device is. -/
theorem World.ListsAll.reached {o : SigningOut} (h : w.ListsAll o) (hpaired : w.Paired)
    (hwindows : EndsWithDevice w) : w.Reached o (w.listEverywhere o) := by
  intro id session hget hnone huser _ hcovers
  by_cases hexpired : session.expiresAt ≤ w.clock
  · exact Or.inl (h.lapsed id session hget huser hnone hcovers hexpired)
  have hlive : w.clock < session.expiresAt := Nat.lt_of_not_le hexpired
  have hlisted : ∀ id session, w.sessions.get id = some session → session.userId = o.userId →
      session.revokedAt = none → session.deviceSessionId = none → w.clock < session.expiresAt →
      o.current.isOne id = false → id ∈ w.listEverywhere o := by
    intro id session hget huser hnone hmain hlive hother
    refine List.mem_filter.mpr ⟨mem_listUserSessions.mpr ⟨session, hget, huser, hnone, hmain, hlive⟩, ?_⟩
    rw [hother]
    rfl
  cases hd : session.deviceSessionId with
  | none =>
    have hother : o.current.isOne id = false := by
      by_contra hone
      exact hcovers (Or.inl (by simpa using hone))
    exact Or.inr (Or.inl (hlisted id session hget huser hnone hd hlive hother))
  | some d =>
    obtain ⟨device, hdevice, hdeviceUser, hmain⟩ := hpaired id session d hget hd
    obtain ⟨device', hdevice', hfree⟩ := hwindows id session d hget hd hnone
    rw [hdevice] at hdevice'
    obtain rfl := Option.some.inj hdevice'
    have hdeviceLive := h.windows id session d device hget huser
      (Session.accepted_iff.mpr ⟨hnone, hlive⟩) hcovers hd hdevice
    have hother : o.current.isOne d = false := by
      by_contra hone
      exact hcovers (Or.inr ⟨d, hd, by simpa using hone⟩)
    exact Or.inr (Or.inr ⟨d, hlisted d device hdevice (hdeviceUser.trans huser) hfree hmain
      hdeviceLive hother, rfl⟩)

/-! ## From the call to the last `getSession` -/

structure SignOutInv (w : World) : Prop where
  listing : ∀ o, .everywhere o ∈ w.listing → o.calledAt < w.clock
  signingOut : ∀ o ids, (o, ids) ∈ w.signingOut → o.calledAt < w.clock ∧ w.Reached o ids
  signedOut : ∀ o ∈ w.signedOut, o.returnedAt < w.clock ∧ o.call.calledAt < w.clock ∧
    w.Reached o.call []
  past : (∀ t ∈ w.touching, t.seenAt < w.clock) ∧ ∀ a ∈ w.accepted, a.acceptedAt < w.clock
  touches : w.Touches
  touching : ∀ t ∈ w.touching, ∀ o ∈ w.signedOut, o.returnedAt < t.seenAt →
    o.call.userId = t.session.userId → t.session.createdAt < o.call.calledAt →
    o.call.current.Covers t.id t.session
  accepted : ReachesEverySession w

theorem World.Reached.tick {o : SigningOut} {ids : List String} (h : w.Reached o ids) :
    w.tick.Reached o ids := by
  intro id session hget hnone huser hcreated hcovers
  rcases h id session hget hnone huser hcreated hcovers with hlapsed | hmem
  · exact Or.inl ⟨Nat.le_succ_of_le hlapsed.1, hlapsed.2⟩
  · exact Or.inr hmem

theorem SignOutInv.tick (h : SignOutInv w) : SignOutInv w.tick := by
  constructor
  · exact fun o ho => Nat.lt_succ_of_lt (h.listing o ho)
  · exact fun o ids ho => ⟨Nat.lt_succ_of_lt (h.signingOut o ids ho).1, (h.signingOut o ids ho).2.tick⟩
  · intro o ho
    obtain ⟨hreturned, hcalled, hdone⟩ := h.signedOut o ho
    exact ⟨Nat.lt_succ_of_lt hreturned, Nat.lt_succ_of_lt hcalled, hdone.tick⟩
  · exact ⟨fun t ht => Nat.lt_succ_of_lt (h.past.1 t ht), fun a ha => Nat.lt_succ_of_lt (h.past.2 a ha)⟩
  · exact h.touches
  · exact h.touching
  · exact h.accepted

/-- A session that `getSession` finds after signing out everywhere has returned is covered. -/
theorem SignOutInv.covers (h : SignOutInv w) {o : SignedOut} (ho : o ∈ w.signedOut)
    {session : Session} (hget : w.sessions.get id = some session)
    (haccepted : session.accepted w.clock = true) (huser : o.call.userId = session.userId)
    (hcreated : session.createdAt < o.call.calledAt) : o.call.current.Covers id session := by
  obtain ⟨hnone, hlive⟩ := Session.accepted_iff.mp haccepted
  by_contra hcovers
  rcases (h.signedOut o ho).2.2 id session hget hnone huser.symm hcreated hcovers with
    hlapsed | hmem | ⟨d, hmem, -⟩
  · exact absurd hlive (Nat.not_lt.mpr hlapsed.1)
  · cases hmem
  · cases hmem

theorem SignOutInv.act (h : SignOutInv w) (hwindows : WindowsInv R w) (hok : ListedInTime w s)
    (hact : Acts R w s w') : SignOutInv w'.tick := by
  have hclock := hact.clock_le
  have htick : w'.tick.clock = w'.clock + 1 := rfl
  constructor
  · intro o ho
    rcases hact.mem_listing ho with ho | hcalled
    · have := h.listing o ho
      omega
    · omega
  · intro o ids ho
    rcases hact.mem_signingOut ho with ho | ⟨hlists, rfl, rfl⟩ | ⟨id, ho, hsessions⟩
    · obtain ⟨hcalled, hreached⟩ := h.signingOut o ids ho
      exact ⟨by omega, (hreached.act h.touches hcalled hact).tick⟩
    · have hcalled := h.listing o hlists
      have hreached := (hok hlists o rfl).reached hwindows.paired hwindows.windows
      exact ⟨by omega, (hreached.act h.touches hcalled hact).tick⟩
    · obtain ⟨hcalled, hreached⟩ := h.signingOut o (id :: ids) ho
      exact ⟨by omega, ((hreached.act h.touches hcalled hact).revoked hsessions).tick⟩
  · intro o ho
    rcases hact.mem_signedOut ho with ho | ⟨ho, hreturned⟩
    · obtain ⟨hreturned, hcalled, hreached⟩ := h.signedOut o ho
      exact ⟨by omega, by omega, (hreached.act h.touches hcalled hact).tick⟩
    · obtain ⟨hcalled, hreached⟩ := h.signingOut o.call [] ho
      exact ⟨by omega, by omega, (hreached.act h.touches hcalled hact).tick⟩
  · constructor
    · intro t ht
      rcases hact.mem_touching ht with ht | ⟨-, -, hseen⟩
      · have := h.past.1 t ht
        omega
      · omega
    · intro a ha
      rcases hact.mem_accepted ha with ha | ⟨t, maxAge, -, -, rfl⟩
      · have := h.past.2 a ha
        omega
      · show w.clock < w'.clock + 1
        omega
  · have htouches : w'.Touches := h.touches.act hact
    exact htouches
  · intro t ht o ho hbefore huser hcreated
    rcases hact.mem_signedOut ho with ho | ⟨-, hreturned⟩
    · rcases hact.mem_touching ht with ht | ⟨hget, haccepted, -⟩
      · exact h.touching t ht o ho hbefore huser hcreated
      · exact h.covers ho hget haccepted huser hcreated
    · rcases hact.mem_touching ht with ht | ⟨-, -, hseen⟩
      · have := h.past.1 t ht
        omega
      · omega
  · intro a ha o ho hbefore huser hcreated
    rcases hact.mem_signedOut ho with ho | ⟨-, hreturned⟩
    · rcases hact.mem_accepted ha with ha | ⟨t, maxAge, rfl, ht, rfl⟩
      · exact h.accepted a ha o ho hbefore huser hcreated
      · rcases hok ht o ho huser hcreated with hcovers | hread
        · exact hcovers
        · exact h.touching t ht o ho hread huser hcreated
    · rcases hact.mem_accepted ha with ha | ⟨t, maxAge, rfl, ht, rfl⟩
      · have := h.past.2 a ha
        omega
      · change o.returnedAt < w.clock at hbefore
        omega

theorem SignOutInv.step (h : SignOutInv w) (hwindows : WindowsInv R w) (hok : ListedInTime w s) :
    SignOutInv (w.step R s) :=
  step_cases (fun _ hact => h.act hwindows hok hact) h.tick

theorem signOutInv_initial (users : UserTable) : SignOutInv (World.initial users) := by
  refine ⟨?_, ?_, ?_, ⟨?_, ?_⟩, ?_, ?_, ?_⟩ <;> intro _ <;> simp [World.initial]

/-- A window ends with its device, in a run where no password change keeps a window and none is opened
for a device that was signed out meanwhile; and signing out everywhere reaches every session, where it
also lists everyone and no `getSession` answers from a row it read before. -/
theorem run_endsWithDevice (R : Runtime) (users : UserTable) (statements : List Statement) :
    (RunMeets (World.step R) PairsKept (World.initial users) statements →
      EndsWithDevice ((World.initial users).run R statements)) ∧
    (RunMeets (World.step R) (fun w s => PairsKept w s ∧ ListedInTime w s) (World.initial users)
        statements →
      ReachesEverySession ((World.initial users).run R statements)) := by
  constructor
  · intro hmeets
    have hinv : WindowsInv R ((World.initial users).run R statements) :=
      hmeets.keeps (fun _ _ hok h => h.step hok) (windowsInv_initial users)
    exact hinv.windows
  · intro hmeets
    have hinv : WindowsInv R ((World.initial users).run R statements) ∧
        SignOutInv ((World.initial users).run R statements) := by
      refine hmeets.keeps (I := fun w => WindowsInv R w ∧ SignOutInv w) (fun w s hok h => ?_)
        ⟨windowsInv_initial users, signOutInv_initial users⟩
      exact ⟨h.1.step hok.1, h.2.step h.1 hok.2⟩
    exact hinv.2.accepted

/-! ## A window, and a window that outlives its device -/

/-- The code of the user's device, as it was approved. -/
def deviceCode : DeviceAuthCode :=
  { id := "c", codeHash := "c", kind := .device, userId := "u", sessionId := none
    codeChallenge := some "v", redirectUri := some "r", deviceName := some "n"
    createdAt := 0, expiresAt := DEVICE_CODE_TTL_MS, usedAt := none }

/-- The code of the device's app window, as it was issued. -/
def windowCode : DeviceAuthCode :=
  { id := "k", codeHash := "k", kind := .web, userId := "u", sessionId := some "d"
    codeChallenge := none, redirectUri := none, deviceName := none
    createdAt := 5, expiresAt := WEB_SESSION_CODE_TTL_MS, usedAt := none }

def openingDevice (userFound : Bool) : Opening :=
  ⟨"u", some "n", none, .deviceCode deviceCode "v" "r", userFound⟩

def openingWindow (userFound : Bool) : Opening :=
  ⟨"u", none, some "d", .webCode windowCode, userFound⟩

/-- A device signs in as the session `d` and opens its window as `w`. -/
def windowOpened : List Statement :=
  [.approveDevice "c" "c" "u" "r" "v" "n" 0,
    .readCode "c" (.device "v" "r"), .claimCode ⟨deviceCode, 1, .device "v" "r"⟩,
    .findUser (openingDevice false), .createSession (openingDevice true) "d" "d" 0 99,
    .issueWebSessionCode "k" "k" "d" 0,
    .readCode "k" .web, .claimCode ⟨windowCode, 6, .web⟩, .findDevice windowCode,
    .findUser (openingWindow false), .createSession (openingWindow true) "w" "w" 0 99]

/-- The user of that device signs in elsewhere and signs out everywhere from there: the device is listed,
and its window goes with it. -/
def signOutElsewhere : List Statement :=
  windowOpened ++
  [.signIn "m" "old", .createSession (signedIn 11) "b" "b" 0 99,
    .revokeOwnSessions "u" ⟨"b", none⟩ none, .listUserSessions (.everywhere ⟨"u", ⟨"b", none⟩, 13⟩),
    .revokeListed ⟨"u", ⟨"b", none⟩, 13⟩ ["d"], .revokeListed ⟨"u", ⟨"b", none⟩, 13⟩ [],
    .getSession "b", .touch ⟨"b", (signedIn 11).session "b" 12 0 99, 17⟩ 99]

theorem run_endsWithDevice_signOutElsewhere :
    (((World.initial oneUser).run plainRuntime signOutElsewhere).sessions.get "w").bind (·.revokedAt) =
        some 15 ∧
      ((World.initial oneUser).run plainRuntime signOutElsewhere).accepted ≠ [] ∧
      EndsWithDevice ((World.initial oneUser).run plainRuntime signOutElsewhere) ∧
      ReachesEverySession ((World.initial oneUser).run plainRuntime signOutElsewhere) := by
  have hplain : ∀ {checkedAt d}, (signedIn checkedAt).deviceSessionId ≠ some d := nofun
  have hdevice : (((World.initial oneUser).run plainRuntime (windowOpened.take 10)).sessions.get "d").any
      (·.revokedAt = none) = true := by decide +kernel
  have hrows : ∀ e ∈ ((World.initial oneUser).run plainRuntime (signOutElsewhere.take 14)).sessions.entries,
      14 < e.2.expiresAt := by decide +kernel
  have hself : ∀ o ∈ ((World.initial oneUser).run plainRuntime (signOutElsewhere.take 18)).signedOut,
      o.call.current.isOne "b" = true := by decide +kernel
  have hkept : RunMeets (World.step plainRuntime) (fun w s => PairsKept w s ∧ ListedInTime w s)
      (World.initial oneUser) signOutElsewhere := by
    refine runMeets_append.mpr ⟨?_, ?_⟩
    · refine ⟨⟨trivial, trivial⟩, ⟨trivial, trivial⟩, ⟨trivial, trivial⟩, ⟨trivial, trivial⟩,
        ⟨nofun, trivial⟩, ⟨trivial, trivial⟩, ⟨trivial, trivial⟩, ⟨trivial, trivial⟩,
        ⟨trivial, trivial⟩, ⟨trivial, trivial⟩, ⟨fun _ d hd => ?_, trivial⟩, trivial⟩
      obtain rfl := Option.some.inj hd
      obtain ⟨device, hget, hfree⟩ := (Option.any_eq_true _ _).mp hdevice
      exact ⟨device, hget, of_decide_eq_true hfree⟩
    · refine ⟨⟨trivial, trivial⟩, ⟨fun _ d hd => absurd hd hplain, trivial⟩, ⟨trivial, trivial⟩,
        ⟨trivial, fun _ o ho => ?_⟩, ⟨trivial, trivial⟩, ⟨trivial, trivial⟩, ⟨trivial, trivial⟩,
        ⟨trivial, fun _ o ho _ _ => Or.inl (Or.inl (hself o ho))⟩, trivial⟩
      obtain rfl := Listing.everywhere.inj ho
      constructor
      · intro id session hget _ _ _ hexpired
        have := hrows _ ((OrderedMap.get_eq_some_iff _ _ _).mp hget)
        exact absurd hexpired (Nat.not_le.mpr this)
      · intro id session d device _ _ _ _ _ hget
        exact hrows _ ((OrderedMap.get_eq_some_iff _ _ _).mp hget)
  exact ⟨by decide +kernel, by decide +kernel,
    (run_endsWithDevice plainRuntime oneUser signOutElsewhere).1 (hkept.mono fun _ _ h => h.1),
    (run_endsWithDevice plainRuntime oneUser signOutElsewhere).2 hkept⟩

/-- The password is changed from the window of that device. Then the user signs in elsewhere and signs out
everywhere from there. -/
def windowKept : List Statement :=
  windowOpened ++
  [.changeOwnPassword "u" "w" "old" "new", .replacePassword ⟨"u", "new", some "w", false⟩,
    .signIn "m" "new", .createSession (signedIn 13) "b" "b" 0 99,
    .revokeOwnSessions "u" ⟨"b", none⟩ none, .listUserSessions (.everywhere ⟨"u", ⟨"b", none⟩, 15⟩),
    .revokeListed ⟨"u", ⟨"b", none⟩, 15⟩ [],
    .getSession "w", .touch ⟨"w", (openingWindow true).session "w" 10 0 99, 18⟩ 99]

theorem windowKept_outlivesDevice :
    ¬ EndsWithDevice ((World.initial oneUser).run plainRuntime windowKept) ∧
      ¬ ReachesEverySession ((World.initial oneUser).run plainRuntime windowKept) := by
  constructor
  · intro h
    obtain ⟨device, hdevice, hfree⟩ := h "w"
      { (openingWindow true).session "w" 10 0 99 with lastSeenAt := 18 } "d" (by decide +kernel) rfl rfl
    have hrevoked : (((World.initial oneUser).run plainRuntime windowKept).sessions.get "d").bind
        (·.revokedAt) = some 12 := by decide +kernel
    rw [hdevice, Option.bind_some, hfree] at hrevoked
    cases hrevoked
  · intro h
    have hcovers := h ⟨"w", (openingWindow true).session "w" 10 0 99, 19⟩ (by decide +kernel)
      ⟨⟨"u", ⟨"b", none⟩, 15⟩, 17⟩ (by decide +kernel) (by decide) rfl (by decide)
    rcases hcovers with hone | ⟨d, hd, hone⟩
    · revert hone
      decide
    · obtain rfl := Option.some.inj hd
      revert hone
      decide

end Staaash.Auth
