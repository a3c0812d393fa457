import Staaash.Auth.Proofs.CallsProofs
import Mathlib.Data.List.Pairwise

/-!
# Proofs: a one-time code opens at most one session

A code that was claimed is held by one call or one session, and passes from the one to the other. Only
an unused code can be claimed, and the row of a claimed code stays as it was issued.
-/

namespace Staaash.Auth

open Staaash.Library

variable {R : Runtime} {w w' : World} {s : Statement} {codes codes' : CodeTable}

/-! ## What stays said of a code -/

/-- Codes that were used stay used, at the same time. -/
def KeepsUsed (codes codes' : CodeTable) : Prop :=
  ∀ id code, codes.get id = some code → code.usedAt.isSome = true → codes'.get id = some code

theorem UsedInTime.keeps (hkeeps : KeepsUsed codes codes') {code : DeviceAuthCode}
    (h : UsedInTime codes code) : UsedInTime codes' code := by
  obtain ⟨row, usedAt, hget, rfl, htime⟩ := h
  exact ⟨_, usedAt, hkeeps _ _ hget rfl, rfl, htime⟩

theorem OpenedAsIssued.keeps (hkeeps : KeepsUsed codes codes') {session session' : Session}
    (h : OpenedAsIssued R codes session) (hcredential : session'.credential = session.credential)
    (huser : session'.userId = session.userId) (hname : session'.deviceName = session.deviceName)
    (hdevice : session'.deviceSessionId = session.deviceSessionId) :
    OpenedAsIssued R codes' session' := by
  unfold OpenedAsIssued at *
  rw [hcredential, huser, hname, hdevice]
  cases hcredential : session.credential with
  | password checkedAt =>
    rw [hcredential] at h
    exact h
  | deviceCode code codeVerifier redirectUri =>
    rw [hcredential] at h
    obtain ⟨h1, h2, h3, h4, h5, h6, hused⟩ := h
    exact ⟨h1, h2, h3, h4, h5, h6, hused.keeps hkeeps⟩
  | webCode code =>
    rw [hcredential] at h
    obtain ⟨h1, h2, h3, h4, h5, hused⟩ := h
    exact ⟨h1, h2, h3, h4, h5, hused.keeps hkeeps⟩

/-- The session an opening call will create, as far as its code goes. -/
abbrev Opening.draft (o : Opening) : Session := o.session "" 0 0 0

/-- The code a session or a call about to create one was opened with. -/
def Credential.codeId (c : Credential) : Option String := c.code.map (·.id)

/-- The codes that sessions were opened with, and that calls hold. -/
def World.held (w : World) : List String :=
  w.redeeming.map (·.id) ++ (w.opening.filterMap fun o => o.credential.codeId) ++
    w.sessions.entries.filterMap fun e => e.2.credential.codeId

structure CodesInv (R : Runtime) (w : World) : Prop where
  keyed : ∀ id code, w.codes.get id = some code → code.id = id
  named : ∀ id code, w.codes.get id = some code →
    (code.kind = .device → code.deviceName.isSome = true) ∧
      (code.kind = .web → code.sessionId.isSome = true)
  consuming : ∀ c ∈ w.consuming, c.code.kind = c.presented.kind ∧
    ∃ row, w.codes.get c.code.id = some row ∧ c.code = { row with usedAt := c.code.usedAt }
  redeeming : ∀ code ∈ w.redeeming, code.kind = .web ∧ code.sessionId.isSome = true ∧
    UsedInTime w.codes code
  opening : ∀ o ∈ w.opening, OpenedAsIssued R w.codes o.draft
  sessions : ∀ id session, w.sessions.get id = some session → OpenedAsIssued R w.codes session
  once : w.held.Nodup

theorem OpenedAsIssued.used {session : Session} (h : OpenedAsIssued R codes session)
    {code : DeviceAuthCode} (hcode : session.credential.code = some code) :
    UsedInTime codes code := by
  unfold OpenedAsIssued at h
  cases hcredential : session.credential with
  | password checkedAt =>
    rw [hcredential] at hcode
    cases hcode
  | deviceCode code' codeVerifier redirectUri =>
    rw [hcredential] at h hcode
    obtain rfl := Option.some.inj hcode
    exact h.2.2.2.2.2.2
  | webCode code' =>
    rw [hcredential] at h hcode
    obtain rfl := Option.some.inj hcode
    exact h.2.2.2.2.2

/-- A code that is held has been used. -/
theorem CodesInv.used_of_held (h : CodesInv R w) {id : String} (hid : id ∈ w.held) :
    ∃ row, w.codes.get id = some row ∧ row.usedAt.isSome = true := by
  have hused : ∀ code, UsedInTime w.codes code →
      ∃ row, w.codes.get code.id = some row ∧ row.usedAt.isSome = true := by
    rintro code ⟨row, usedAt, hget, rfl, -⟩
    exact ⟨_, hget, rfl⟩
  unfold World.held at hid
  rcases List.mem_append.mp hid with hid | hid
  · rcases List.mem_append.mp hid with hid | hid
    · obtain ⟨code, hmem, rfl⟩ := List.mem_map.mp hid
      exact hused code (h.redeeming code hmem).2.2
    · obtain ⟨o, hmem, ho⟩ := List.mem_filterMap.mp hid
      obtain ⟨code, hcode, rfl⟩ := Option.map_eq_some_iff.mp ho
      exact hused code ((h.opening o hmem).used hcode)
  · obtain ⟨⟨k, session⟩, hmem, hsession⟩ := List.mem_filterMap.mp hid
    obtain ⟨code, hcode, rfl⟩ := Option.map_eq_some_iff.mp hsession
    exact hused code ((h.sessions k session ((OrderedMap.get_eq_some_iff _ _ _).mpr hmem)).used hcode)

/-! ## What statements do to codes -/

theorem keepsUsed_refl : KeepsUsed codes codes := fun _ _ h _ => h

theorem keepsUsed_set {id : String} {code : DeviceAuthCode} (hid : codes.get id = none) :
    KeepsUsed codes (codes.set id code) := by
  intro id' code' hget _
  rw [OrderedMap.get_set, if_neg]
  · exact hget
  · rintro rfl
    rw [hid] at hget
    cases hget

theorem keepsUsed_claim {id : String} {now : Nat} (h : codes.claim id now = some codes') :
    KeepsUsed codes codes' := by
  obtain ⟨code, hcode, hfree, -, rfl⟩ := of_claim h
  intro id' code' hget hused
  rw [OrderedMap.get_set, if_neg]
  · exact hget
  · rintro rfl
    rw [hcode] at hget
    obtain rfl := Option.some.inj hget
    rw [hfree] at hused
    cases hused

/-- A code that `consumeCode` has read and claims was unused, and is used in time. -/
theorem CodesInv.claim (h : CodesInv R w) {c : Consuming} (hc : c ∈ w.consuming)
    (hclaim : w.codes.claim c.code.id c.now = some codes') :
    UsedInTime codes' c.code ∧ c.code.id ∉ w.held := by
  obtain ⟨row, hget, hfree, htime, rfl⟩ := of_claim hclaim
  obtain ⟨-, row', hget', hcopy⟩ := h.consuming c hc
  rw [hget] at hget'
  obtain rfl := Option.some.inj hget'
  constructor
  · refine ⟨{ c.code with usedAt := some c.now }, c.now, ?_, rfl, ?_⟩
    · rw [OrderedMap.get_set, if_pos rfl, hcopy]
    · rw [hcopy]
      exact htime
  · intro hheld
    obtain ⟨row', hget', hused⟩ := h.used_of_held hheld
    rw [hget] at hget'
    obtain rfl := Option.some.inj hget'
    rw [hfree] at hused
    cases hused

/-- The code is for the app window of a device of the same user. -/
def DeviceAuthCode.NamesDevice (code : DeviceAuthCode) (sessions : SessionTable) : Prop :=
  ∃ id device, code.sessionId = some id ∧ sessions.get id = some device ∧
    device.userId = code.userId ∧ device.deviceName.isSome = true

theorem Acts.codes_cases (h : Acts R w s w') : w'.codes = w.codes ∨
    (∃ id code, w.codes.get id = none ∧ w'.codes = w.codes.set id code ∧ code.id = id ∧
      (code.kind = .device → code.deviceName.isSome = true) ∧
      (code.kind = .web → code.NamesDevice w.sessions)) ∨
    ∃ c ∈ w.consuming, w.codes.claim c.code.id c.now = some w'.codes := by
  cases h with
  | approveDevice hid =>
    exact Or.inr (Or.inl ⟨_, _, hid, rfl, rfl, fun _ => rfl, fun h => by cases h⟩)
  | issueWebSessionCode hget hdevice hid =>
    refine Or.inr (Or.inl ⟨_, _, hid, rfl, rfl, ?_, fun _ => ⟨_, _, rfl, hget, rfl, hdevice⟩⟩)
    intro h
    cases h
  | claimDevice hc hclaim hpresented hproof => exact Or.inr (Or.inr ⟨_, hc, hclaim⟩)
  | claimRefused hc hclaim => exact Or.inr (Or.inr ⟨_, hc, hclaim⟩)
  | claimWeb hc hclaim hpresented => exact Or.inr (Or.inr ⟨_, hc, hclaim⟩)
  | _ => exact Or.inl rfl

theorem Acts.keepsUsed (h : Acts R w s w') : KeepsUsed w.codes w'.codes := by
  rcases h.codes_cases with heq | ⟨id, code, hid, heq, -⟩ | ⟨c, -, hclaim⟩
  · rw [heq]
    exact keepsUsed_refl
  · rw [heq]
    exact keepsUsed_set hid
  · exact keepsUsed_claim hclaim

/-- A row of the codes is new, or the row before, perhaps used since. -/
theorem Acts.code_row (h : Acts R w s w') {id : String} {code : DeviceAuthCode}
    (hget : w'.codes.get id = some code) :
    (∃ row, w.codes.get id = some row ∧ code = { row with usedAt := code.usedAt }) ∨
      code.id = id ∧ (code.kind = .device → code.deviceName.isSome = true) ∧
        (code.kind = .web → code.NamesDevice w.sessions) := by
  rcases h.codes_cases with heq | ⟨id', code', -, heq, hkey, hnamed⟩ | ⟨c, -, hclaim⟩
  · rw [heq] at hget
    exact Or.inl ⟨code, hget, rfl⟩
  · rw [heq] at hget
    obtain ⟨rfl, rfl⟩ | ⟨-, hold⟩ := OrderedMap.get_set_eq_some.mp hget
    · exact Or.inr ⟨hkey, hnamed⟩
    · exact Or.inl ⟨code, hold, rfl⟩
  · obtain ⟨row, hrow, -, -, heq⟩ := of_claim hclaim
    rw [heq] at hget
    obtain ⟨rfl, rfl⟩ | ⟨-, hold⟩ := OrderedMap.get_set_eq_some.mp hget
    · exact Or.inl ⟨row, hrow, rfl⟩
    · exact Or.inl ⟨code, hold, rfl⟩

/-- A row that was there still is, perhaps used since. -/
theorem Acts.code_stays (h : Acts R w s w') {id : String} {row : DeviceAuthCode}
    (hget : w.codes.get id = some row) :
    ∃ row', w'.codes.get id = some row' ∧ row = { row' with usedAt := row.usedAt } := by
  rcases h.codes_cases with heq | ⟨id', code', hid, heq, -⟩ | ⟨c, -, hclaim⟩
  · exact ⟨row, heq ▸ hget, rfl⟩
  · refine ⟨row, ?_, rfl⟩
    rw [heq, OrderedMap.get_set, if_neg]
    · exact hget
    · rintro rfl
      rw [hid] at hget
      cases hget
  · obtain ⟨code, hcode, -, -, heq⟩ := of_claim hclaim
    rw [heq, OrderedMap.get_set]
    split_ifs with hid
    · subst hid
      rw [hcode] at hget
      obtain rfl := Option.some.inj hget
      exact ⟨_, rfl, rfl⟩
    · exact ⟨row, hget, rfl⟩

theorem Acts.mem_consuming (h : Acts R w s w') {c : Consuming} (hc : c ∈ w'.consuming) :
    c ∈ w.consuming ∨ (c.code.kind = c.presented.kind ∧
      (∃ k, w.codes.get k = some c.code) ∧ w'.codes = w.codes) := by
  cases h with
  | readCode hget hkind =>
    rcases List.mem_cons.mp hc with rfl | hc
    · exact Or.inr ⟨hkind, ⟨_, hget⟩, rfl⟩
    · exact Or.inl hc
  | claimLost _ => exact Or.inl (List.mem_of_mem_erase hc)
  | claimDevice _ _ _ _ => exact Or.inl (List.mem_of_mem_erase hc)
  | claimRefused _ _ => exact Or.inl (List.mem_of_mem_erase hc)
  | claimWeb _ _ _ => exact Or.inl (List.mem_of_mem_erase hc)
  | _ => exact Or.inl hc

theorem Acts.mem_redeeming (h : Acts R w s w') {code : DeviceAuthCode}
    (hcode : code ∈ w'.redeeming) :
    code ∈ w.redeeming ∨ ∃ c ∈ w.consuming, w.codes.claim c.code.id c.now = some w'.codes ∧
      c.presented = .web ∧ code = c.code := by
  cases h with
  | claimWeb hc hclaim hpresented =>
    rcases List.mem_cons.mp hcode with rfl | hcode
    · exact Or.inr ⟨_, hc, hclaim, hpresented, rfl⟩
    · exact Or.inl hcode
  | deviceGone _ => exact Or.inl (List.mem_of_mem_erase hcode)
  | findDevice _ _ _ _ => exact Or.inl (List.mem_of_mem_erase hcode)
  | _ => exact Or.inl hcode

/-! ## Who holds a code -/

theorem codeIds_mapValues {sessions : SessionTable} {f : String → Session → Session}
    (hf : ∀ id session, (f id session).credential = session.credential) :
    ((sessions.mapValues f).entries.filterMap fun e => e.2.credential.codeId) =
      sessions.entries.filterMap fun e => e.2.credential.codeId := by
  show ((sessions.entries.map fun e => (e.1, f e.1 e.2)).filterMap _) = _
  rw [List.filterMap_map]
  refine List.filterMap_congr fun e _ => ?_
  simp [hf]

theorem codeIds_revokeWhere {sessions : SessionTable} {p : String → Session → Bool} {now : Nat} :
    ((sessions.revokeWhere p now).entries.filterMap fun e => e.2.credential.codeId) =
      sessions.entries.filterMap fun e => e.2.credential.codeId :=
  codeIds_mapValues fun id session => by split <;> rfl

theorem codeIds_touch {sessions : SessionTable} {id : String} {seenAt : Nat}
    {expiresAt : Option Nat} :
    ((sessions.touchSessionLastSeen id seenAt expiresAt).entries.filterMap
      fun e => e.2.credential.codeId) = sessions.entries.filterMap fun e => e.2.credential.codeId :=
  codeIds_mapValues fun id session => by split <;> rfl

theorem codeIds_create {sessions : SessionTable} {id : String} {session : Session}
    (hid : sessions.get id = none) :
    ((sessions.set id session).entries.filterMap fun e => e.2.credential.codeId) =
      (sessions.entries.filterMap fun e => e.2.credential.codeId) ++
        session.credential.codeId.toList := by
  rw [OrderedMap.entries_set_of_get_eq_none session hid, List.filterMap_append]
  cases h : session.credential.codeId <;> simp [h]

theorem count_filterMap_erase {α : Type} [DecidableEq α] {f : α → Option String} {l : List α} {a : α}
    (ha : a ∈ l) (id : String) :
    (l.filterMap f).count id = (f a).toList.count id + ((l.erase a).filterMap f).count id := by
  rw [((List.perm_cons_erase ha).filterMap f).count_eq, List.filterMap_cons]
  cases f a <;> simp [List.count_cons, Nat.add_comm]

theorem count_map_erase {α : Type} [DecidableEq α] {f : α → String} {l : List α} {a : α}
    (ha : a ∈ l) (id : String) :
    (l.map f).count id = [f a].count id + ((l.erase a).map f).count id := by
  rw [((List.perm_cons_erase ha).map f).count_eq, List.map_cons, ← List.singleton_append,
    List.count_append]

theorem count_held (id : String) : w.held.count id = (w.redeeming.map (·.id)).count id +
    (w.opening.filterMap fun o => o.credential.codeId).count id +
    (w.sessions.entries.filterMap fun e => e.2.credential.codeId).count id := by
  rw [World.held, List.count_append, List.count_append]

/-- Codes pass from call to call and to a session; only a claim makes one held that was not. -/
theorem Acts.held (h : Acts R w s w') (id : String) : w'.held.count id ≤ w.held.count id ∨
    ∃ c ∈ w.consuming, w.codes.claim c.code.id c.now = some w'.codes ∧
      w'.held.count id ≤ [c.code.id].count id + w.held.count id := by
  rw [count_held, count_held]
  cases h with
  | findUser ho =>
    left
    rw [count_filterMap_erase ho, List.filterMap_cons]
    cases Credential.codeId _ with
    | none => simp
    | some id' =>
      simp only [Option.toList_some, List.count_cons, List.count_nil]
      omega
  | userMissing ho =>
    left
    rw [count_filterMap_erase ho]
    dsimp only
    omega
  | createSession ho hid =>
    left
    rw [count_filterMap_erase ho]
    dsimp only
    rw [codeIds_create hid, List.count_append]
    simp only [Opening.session]
    omega
  | claimDevice hc hclaim hpresented hproof =>
    right
    refine ⟨_, hc, hclaim, ?_⟩
    dsimp only
    rw [List.filterMap_cons]
    simp only [Credential.codeId, Credential.code, Option.map_some, List.count_cons, List.count_nil]
    omega
  | claimWeb hc hclaim hpresented =>
    right
    refine ⟨_, hc, hclaim, ?_⟩
    dsimp only
    rw [List.map_cons, List.count_cons]
    simp only [List.count_cons, List.count_nil]
    omega
  | deviceGone hcode =>
    left
    rw [count_map_erase hcode]
    dsimp only
    omega
  | findDevice hcode hid hget haccepted =>
    left
    rw [count_map_erase hcode]
    dsimp only
    rw [List.filterMap_cons]
    simp only [Credential.codeId, Credential.code, Option.map_some, List.count_cons, List.count_nil]
    omega
  | touch ht => exact Or.inl (Nat.le_of_eq (congrArg _ (congrArg _ codeIds_touch)))
  | replacePassword hr => exact Or.inl (Nat.le_of_eq (congrArg _ (congrArg _ codeIds_revokeWhere)))
  | revokeSessionById hid => exact Or.inl (Nat.le_of_eq (congrArg _ (congrArg _ codeIds_revokeWhere)))
  | revokeListed ho => exact Or.inl (Nat.le_of_eq (congrArg _ (congrArg _ codeIds_revokeWhere)))
  | revokeUserSessions huser =>
    exact Or.inl (Nat.le_of_eq (congrArg _ (congrArg _ codeIds_revokeWhere)))
  | _ => exact Or.inl (Nat.le_refl _)

/-! ## One session for a code -/

theorem codesInv_tick (h : CodesInv R w) : CodesInv R w.tick :=
  ⟨h.keyed, h.named, h.consuming, h.redeeming, h.opening, h.sessions, h.once⟩

theorem CodesInv.act (h : CodesInv R w) (hact : Acts R w s w') : CodesInv R w' where
  keyed id code hget := by
    rcases hact.code_row hget with ⟨row, hrow, hcode⟩ | ⟨hkey, -⟩
    · rw [hcode]
      exact h.keyed id row hrow
    · exact hkey
  named id code hget := by
    rcases hact.code_row hget with ⟨row, hrow, hcode⟩ | ⟨-, hdevice, hweb⟩
    · rw [hcode]
      exact h.named id row hrow
    · refine ⟨hdevice, fun hkind => ?_⟩
      obtain ⟨d, -, hd, -⟩ := hweb hkind
      rw [hd]
      rfl
  consuming c hc := by
    have hstays : ∀ row, w.codes.get c.code.id = some row →
        c.code = { row with usedAt := c.code.usedAt } →
        ∃ row, w'.codes.get c.code.id = some row ∧ c.code = { row with usedAt := c.code.usedAt } := by
      intro row hrow hcopy
      obtain ⟨row', hrow', hsame⟩ := hact.code_stays hrow
      refine ⟨row', hrow', ?_⟩
      rw [hsame] at hcopy
      exact hcopy
    rcases hact.mem_consuming hc with hc | ⟨hkind, ⟨k, hget⟩, -⟩
    · obtain ⟨hkind, row, hrow, hcopy⟩ := h.consuming c hc
      exact ⟨hkind, hstays row hrow hcopy⟩
    · refine ⟨hkind, hstays c.code ?_ rfl⟩
      rw [h.keyed k c.code hget]
      exact hget
  redeeming code hcode := by
    rcases hact.mem_redeeming hcode with hcode | ⟨c, hc, hclaim, hweb, rfl⟩
    · obtain ⟨hkind, hsome, hused⟩ := h.redeeming code hcode
      exact ⟨hkind, hsome, hused.keeps hact.keepsUsed⟩
    · obtain ⟨hkind, row, hrow, hcopy⟩ := h.consuming c hc
      have hkind : c.code.kind = .web := by
        rw [hkind, hweb]
        rfl
      refine ⟨hkind, ?_, (h.claim hc hclaim).1⟩
      rw [hcopy] at hkind ⊢
      exact (h.named _ row hrow).2 hkind
  opening o ho := by
    have hkeeps := hact.keepsUsed
    rcases hact.mem_opening ho with ho | ⟨o₀, ho₀, rfl⟩ | ⟨userId, rfl⟩ |
      ⟨c, codeVerifier, redirectUri, hc, hclaim, hpresented, hproof, rfl⟩ |
      ⟨code, hcode, id, hid, rfl⟩
    · exact (h.opening o ho).keeps hkeeps rfl rfl rfl rfl
    · exact (h.opening o₀ ho₀).keeps hkeeps rfl rfl rfl rfl
    · exact ⟨rfl, rfl⟩
    · obtain ⟨hkind, row, hrow, hcopy⟩ := h.consuming c hc
      have hkind : c.code.kind = .device := by
        rw [hkind, hpresented]
        rfl
      refine ⟨hkind, rfl, rfl, ?_, rfl, hproof, (h.claim hc hclaim).1⟩
      show c.code.deviceName.isSome = true
      rw [hcopy] at hkind ⊢
      exact (h.named _ row hrow).1 hkind
    · obtain ⟨hkind, -, hused⟩ := h.redeeming code hcode
      exact ⟨hkind, rfl, rfl, hid.symm, rfl, hused.keeps hkeeps⟩
  sessions id session' hget := by
    rcases hact.row hget with ⟨session, hold, hsame⟩ | ⟨o, _, _, _, rfl, ho, -, rfl⟩
    · exact (h.sessions id session hold).keeps hact.keepsUsed hsame.credential hsame.userId
        hsame.deviceName hsame.deviceSessionId
    · exact (h.opening o ho).keeps hact.keepsUsed rfl rfl rfl rfl
  once := by
    rw [List.nodup_iff_count_le_one]
    intro id
    have hle := List.nodup_iff_count_le_one.mp h.once id
    rcases hact.held id with hheld | ⟨c, hc, hclaim, hheld⟩
    · omega
    · have hfree := List.count_eq_zero_of_not_mem (h.claim hc hclaim).2
      by_cases hid : c.code.id = id
      · subst hid
        rw [List.count_singleton_self] at hheld
        omega
      · rw [List.count_singleton, if_neg (by simpa using hid)] at hheld
        omega

theorem CodesInv.step (h : CodesInv R w) : CodesInv R (w.step R s) :=
  step_cases (fun _ hact => codesInv_tick (h.act hact)) (codesInv_tick h)

theorem codesInv_initial (users : UserTable) : CodesInv R (World.initial users) := by
  refine ⟨?_, ?_, ?_, ?_, ?_, ?_, List.nodup_nil⟩ <;> intro _ <;> simp [World.initial]

theorem CodesInv.codesOnce (h : CodesInv R w) : CodesOnce R w where
  issued := h.sessions
  once id₁ s₁ id₂ s₂ h₁ h₂ c₁ hc₁ c₂ hc₂ heq := by
    have hnodup := (List.nodup_append.mp h.once).2.1
    have hmem : ∀ id session, w.sessions.get id = some session →
        (id, session) ∈ w.sessions.entries := fun id session hget =>
      (OrderedMap.get_eq_some_iff _ _ _).mp hget
    have hcode : ∀ (session : Session), ∀ c ∈ session.credential.code,
        session.credential.codeId = some c.id := by
      intro session c hc
      rw [Credential.codeId, Option.mem_def.mp hc, Option.map_some]
    by_contra hne
    have hsymm : Std.Symm fun e e' : String × Session => ∀ id, e.2.credential.codeId = some id →
        ∀ id', e'.2.credential.codeId = some id' → id ≠ id' :=
      ⟨fun e e' hr id hid id' hid' => (hr id' hid' id hid).symm⟩
    have hpair := (List.pairwise_filterMap.mp hnodup).forall (hmem id₁ s₁ h₁) (hmem id₂ s₂ h₂)
      fun he => hne (congrArg Prod.fst he)
    exact hpair _ (hcode s₁ c₁ hc₁) _ (hcode s₂ c₂ hc₂) heq

end Staaash.Auth
