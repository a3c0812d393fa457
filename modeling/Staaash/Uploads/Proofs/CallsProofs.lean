import Staaash.Journal.Proofs.DocketProofs
import Staaash.Uploads.Calls

/-!
# Proofs: a commit belongs to its mutation

A session that is linked to an undecided mutation is committing. The updates of all the other calls ask
for another status, for no link, or follow a read that found the session ended, and an ended session
stays ended.
-/

namespace Staaash.Uploads

open Staaash.Journal (Docket Holding Takes takes_of_act)
open Staaash.Library

variable {u u' : Upload} {s : Statement} {session session' : UploadSession} {c : Call}

/-! ## The mutation -/

theorem Commit.undecided_iff {m : Commit} :
    m.undecided = true ↔
      m.docket.row.metadataCommittedAt = none ∧ m.docket.row.status ≠ .aborted := by
  unfold Commit.undecided
  simp

/-- An aborted mutation has no lease. -/
def LeaseGone (d : Docket) : Prop := d.row.status = .aborted → d.row.leaseOwner = none

/-- What a journal statement does to the decision. -/
structure Decides (d d' : Docket) (s : Journal.Statement) : Prop where
  leaseGone : LeaseGone d'
  /-- What is decided stays decided. -/
  stays : d'.row.metadataCommittedAt = none → d'.row.status ≠ .aborted →
    d.row.metadataCommittedAt = none ∧ d.row.status ≠ .aborted
  commits : ∀ h now, s = .byHolder h .commit now → d'.row.metadataCommittedAt ≠ none
  aborts : ∀ h now, s = .byHolder h .abort now →
    d'.row.status = .aborted ∧ d.row.metadataCommittedAt = none ∧ d.row.status = .running

theorem Deed.owner_of_update {deed : Journal.Deed} {row row' : Journal.Row} {lease : Journal.Lease}
    {now : Nat} (h : deed.update row lease now = some row') :
    row.leaseOwner = some lease.owner := by
  have hfenced : row.fenced lease now = true → row.leaseOwner = some lease.owner := by
    intro hf
    unfold Journal.Row.fenced at hf
    simp only [Bool.and_eq_true, decide_eq_true_eq] at hf
    exact hf.1.1.1
  have hheld : row.heldBy lease now = true → row.leaseOwner = some lease.owner := by
    intro hh
    unfold Journal.Row.heldBy at hh
    simp only [Bool.and_eq_true, decide_eq_true_eq] at hh
    exact hh.1.1
  cases deed with
  | renew | markApplied | markFailed | complete =>
    exact hfenced (Option.ite_none_right_eq_some.1 h).1
  | requireRecovery => exact hheld (Option.ite_none_right_eq_some.1 h).1
  | commit | beginFinalization =>
    exact hfenced (Bool.and_eq_true_iff.1 (Option.ite_none_right_eq_some.1 h).1).1
  | abort =>
    have hguard := (Option.ite_none_right_eq_some.1 h).1
    simp only [Bool.and_eq_true] at hguard
    exact hfenced hguard.1.1

theorem Deed.of_abort {row row' : Journal.Row} {lease : Journal.Lease} {now : Nat}
    (h : Journal.Deed.abort.update row lease now = some row') :
    row.status = .running ∧ row'.status = .aborted ∧ row'.leaseOwner = none := by
  obtain ⟨hguard, hrow⟩ := Option.ite_none_right_eq_some.1 h
  simp only [Bool.and_eq_true, decide_eq_true_eq] at hguard
  exact ⟨hguard.1.2, Option.some.inj hrow ▸ ⟨rfl, rfl⟩⟩

/-- Only an abort makes a mutation aborted. -/
theorem Deed.aborts_of_update {deed : Journal.Deed} {row row' : Journal.Row}
    {lease : Journal.Lease} {now : Nat} (h : deed.update row lease now = some row')
    (haborted : row'.status = .aborted) : deed = .abort ∨ row.status = .aborted := by
  cases deed with
  | renew | markApplied | markFailed | complete | requireRecovery | commit | beginFinalization =>
    obtain ⟨-, hrow⟩ := Option.ite_none_right_eq_some.1 h
    obtain rfl := Option.some.inj hrow
    first
      | exact .inr haborted
      | cases haborted
  | abort => exact .inl rfl

theorem decides_deed {deed : Journal.Deed} {d d' : Docket} {h : Holding} {now : Nat}
    {row : Journal.Row} (hrow : deed.update d.row h.lease now = some row) (hd' : d'.row = row)
    (hgone : LeaseGone d) : Decides d d' (.byHolder h deed now) := by
  subst hd'
  have howner := Deed.owner_of_update hrow
  have heffect := (Journal.Deed.of_update hrow).2.2
  have hnot : d.row.status ≠ .aborted := by
    intro haborted
    rw [hgone haborted] at howner
    cases howner
  refine ⟨fun haborted => ?_, fun hstamp _ => ⟨?_, hnot⟩, ?_, ?_⟩
  · rcases Deed.aborts_of_update hrow haborted with rfl | haborted
    · exact (Deed.of_abort hrow).2.2
    · exact absurd haborted hnot
  · cases hsome : d.row.metadataCommittedAt with
    | none => rfl
    | some t =>
      have := heffect.isSome (hsome ▸ rfl)
      rw [hstamp] at this
      cases this
  · intro h' now' heq
    cases heq
    exact Option.isSome_iff_ne_none.1 (heffect.commits rfl).2.2
  · intro h' now' heq
    cases heq
    exact ⟨(Deed.of_abort hrow).2.1, heffect.aborts rfl, (Deed.of_abort hrow).1⟩

theorem decides_act {d : Docket} {s : Journal.Statement} (h : (d.act s).isSome = true)
    (hgone : LeaseGone d) : Decides d (d.step s) s := by
  obtain ⟨⟨a, d'⟩, hact⟩ := Option.isSome_iff_exists.1 h
  have hstep : d.step s = { d' with log := a :: d'.log } := by
    unfold Docket.step
    rw [hact]
  rw [hstep]
  cases takes_of_act hact with
  | claim leaseOwner now row hrow =>
    obtain ⟨hstatus, rfl⟩ := Journal.Row.of_claimForward hrow
    refine ⟨nofun, fun hstamp _ => ⟨hstamp, ?_⟩, nofun, nofun⟩
    rcases hstatus with hs | hs | hs <;> simp [hs]
  | claimFinalization leaseOwner now row hrow =>
    obtain ⟨hstatus, rfl⟩ := Journal.Row.of_claimFinalization hrow
    refine ⟨nofun, fun hstamp _ => ⟨hstamp, ?_⟩, nofun, nofun⟩
    rcases hstatus with hs | hs <;> simp [hs]
  | handedOut c hc howner hexpires => exact ⟨hgone, fun h1 h2 => ⟨h1, h2⟩, nofun, nofun⟩
  | lost c hc => exact ⟨hgone, fun h1 h2 => ⟨h1, h2⟩, nofun, nofun⟩
  | did hold deed now row hh hrow => exact decides_deed hrow rfl hgone
  | retryRead hold hh => exact ⟨hgone, fun h1 h2 => ⟨h1, h2⟩, nofun, nofun⟩
  | retried r now row hr hrow =>
    obtain ⟨hheld, -, hstatus, hstamp⟩ := Journal.Row.of_retry hrow
    refine ⟨fun haborted => ?_, fun hnone _ => ⟨hstamp ▸ hnone, fun haborted => ?_⟩, nofun, nofun⟩
    · have hne : row.status ≠ .aborted := by
        rw [hstatus]
        unfold Journal.retryStatusForMutation
        split
        · nofun
        · split <;> nofun
      exact absurd haborted hne
    · unfold Journal.Row.heldBy at hheld
      rw [hgone haborted] at hheld
      simp at hheld
  | retriedNow now row hrow =>
    have hguard := (Option.ite_none_right_eq_some.1 hrow).1
    obtain rfl := Journal.Row.of_retryNow hrow
    exact ⟨hgone, fun h1 h2 => ⟨h1, h2⟩, nofun, nofun⟩

/-! ## The invariant -/

/-- There is no session left that could become linked. -/
def Upload.Ended (u : Upload) : Prop :=
  u.reserved = true ∧ ∀ session, u.session = some session → session.terminal = true

/-- What a call that is under way may rely on. -/
def Upload.Allows (u : Upload) : Call → Prop
  | .writing _ _ | .recording _ _ =>
    u.reserved = true ∧ ∀ session, u.session = some session → session.status ≠ .committing
  | .ending status => u.reserved = true ∧ status ∈ [.failed, .cancelled]
  | .cleaning | .marking | .dropping => u.Ended
  | .sweeping now ttlMs => now ≤ u.clock ∧ 0 < ttlMs ∧
    (u.Ended ∨ ∀ file, u.staged = some file ∨ u.taken = some file → now ≤ file.modifiedAt)
  | _ => u.reserved = true

/-- A session that a commit is under way for. -/
structure UploadSession.Linked (session : UploadSession) (mutationId : String) : Prop where
  committing : session.status = .committing
  link : session.storageMutationId = some mutationId
  unreleased : session.stagingReleasedAt = none

/-- What the session says about its file is so. -/
def Agrees (committed : Option String) (session : UploadSession) : Prop :=
  if session.status = .completed then
    ∃ fileId, session.committedFileId = some fileId ∧ committed = some fileId
  else session.committedFileId = none ∧ committed = none

structure UploadInv (u : Upload) : Prop where
  fresh : u.reserved = false →
    u.session = none ∧ u.staged = none ∧ u.taken = none ∧ u.commit = none ∧ u.committed = none
  bound : u.bound = true → ∃ session, u.session = some session ∧ session.Linked u.mutationId
  leaseGone : ∀ m, u.commit = some m → LeaseGone m.docket
  released : ∀ session, u.session = some session → session.stagingReleasedAt.isSome →
    session.terminal = true
  agrees : ∀ session, u.session = some session → Agrees u.committed session
  calls : ∀ c ∈ u.calls, u.Allows c

theorem UploadSession.terminal_iff :
    session.terminal = true ↔
      session.status = .completed ∨ session.status = .failed ∨ session.status = .cancelled ∨
        session.status = .expired := by
  unfold UploadSession.terminal terminalUploadSessionStatuses
  simp

theorem UploadSession.Linked.not_terminal {mutationId : String} (h : session.Linked mutationId) :
    session.terminal ≠ true := by
  intro hterminal
  rw [UploadSession.terminal_iff, h.committing] at hterminal
  simp at hterminal

theorem Upload.Ended.not_bound (h : u.Ended) (hu : UploadInv u) : u.bound = false := by
  by_contra hbound
  obtain ⟨session, hsession, hlinked⟩ := hu.bound (by simpa using hbound)
  exact hlinked.not_terminal (h.2 session hsession)

/-- Every call is backed by a reservation, except a sweep. -/
theorem Upload.Allows.reserved (h : u.Allows c) (hc : ∀ now ttlMs, c ≠ .sweeping now ttlMs) :
    u.reserved = true := by
  cases c with
  | sweeping now ttlMs => exact absurd rfl (hc now ttlMs)
  | writing | recording | ending => exact h.1
  | cleaning | marking | dropping => exact h.1
  | _ => exact h

theorem uploadInv_empty (sessionId : String) : UploadInv (Upload.empty sessionId) where
  fresh _ := ⟨rfl, rfl, rfl, rfl, rfl⟩
  bound hbound := by cases hbound
  leaseGone m hm := by cases hm
  released session hsession := by cases hsession
  agrees session hsession := by cases hsession
  calls c hc := by cases hc

/-! ## What the pieces of a statement keep -/

/-- Calls come and go. -/
theorem UploadInv.withCalls (hu : UploadInv u) {calls : List Call}
    (hcalls : ∀ c ∈ calls, c ∈ u.calls ∨ u.Allows c) : UploadInv { u with calls } := by
  refine ⟨hu.fresh, hu.bound, hu.leaseGone, hu.released, hu.agrees, fun c hc => ?_⟩
  rcases hcalls c hc with hmem | hallows
  · exact hu.calls c hmem
  · exact hallows

theorem UploadInv.leave (hu : UploadInv u) (c : Call) : UploadInv (u.leave c) :=
  hu.withCalls fun _ hc => .inl (List.mem_of_mem_erase hc)

theorem UploadInv.enter (hu : UploadInv u) (hallows : u.Allows c) :
    UploadInv { u with calls := c :: u.calls } := by
  refine hu.withCalls fun c' hc' => ?_
  rcases List.mem_cons.1 hc' with rfl | hmem
  · exact .inr hallows
  · exact .inl hmem

theorem UploadInv.goOn (hu : UploadInv u) {n : Call} (hallows : u.Allows n) :
    UploadInv (u.goOn c n) :=
  (hu.leave c).enter hallows

/-- An update of the row that neither completes a session nor touches a linked one. -/
structure Updates (u : Upload) (session session' : UploadSession) : Prop where
  free : u.bound = false
  committing : session'.status = .committing → session.status = .committing ∨ u.chunkLocked = false
  terminal : session.terminal = true → session'.terminal = true
  completed : session'.status = .completed ↔ session.status = .completed
  committedFileId : session'.committedFileId = session.committedFileId
  released : session'.stagingReleasedAt.isSome → session.stagingReleasedAt.isSome ∨
    session'.terminal = true

theorem Upload.not_locked (h : u.chunkLocked = false) (chunk : CompletedUploadChunk) (now : Nat) :
    .writing chunk now ∉ u.calls ∧ .recording chunk now ∉ u.calls := by
  unfold Upload.chunkLocked at h
  rw [List.any_eq_false] at h
  exact ⟨fun hmem => h _ hmem rfl, fun hmem => h _ hmem rfl⟩

theorem Upload.goOn_unlocked (h : u.chunkLocked = false) {next : Call}
    (hnext : ({ u with calls := [next] } : Upload).chunkLocked = false) :
    (u.goOn c next).chunkLocked = false := by
  unfold Upload.chunkLocked at h hnext ⊢
  rw [List.any_eq_false] at h hnext ⊢
  intro c' hc'
  rcases List.mem_cons.1 hc' with rfl | hmem
  · exact hnext c' (List.mem_singleton.2 rfl)
  · exact h c' (List.mem_of_mem_erase hmem)

theorem Upload.Ended.withRow (h : u.Ended) (hsession : u.session = some session)
    (hterminal : session.terminal = true → session'.terminal = true) :
    ({ u with session := some session' } : Upload).Ended := by
  refine ⟨h.1, fun session'' heq => ?_⟩
  cases heq
  exact hterminal (h.2 session hsession)

theorem UploadInv.withRow (hu : UploadInv u) (hsession : u.session = some session)
    (hupdates : Updates u session session') : UploadInv { u with session := some session' } := by
  refine ⟨fun hreserved => ?_, fun hbound => ?_, hu.leaseGone, ?_, ?_, ?_⟩
  · rw [(hu.fresh hreserved).1] at hsession
    cases hsession
  · exact absurd hupdates.free (by rw [show u.bound = true from hbound]; simp)
  · intro session'' heq hreleased
    cases heq
    rcases hupdates.released hreleased with hold | hterminal
    · exact hupdates.terminal (hu.released session hsession hold)
    · exact hterminal
  · intro session'' heq
    cases heq
    have hagrees := hu.agrees session hsession
    unfold Agrees at hagrees ⊢
    rw [hupdates.committedFileId]
    simpa only [hupdates.completed] using hagrees
  · intro c hc
    have hallows := hu.calls c hc
    have hkept : ∀ chunk now, (c = .writing chunk now ∨ c = .recording chunk now) →
        (∀ session, u.session = some session → session.status ≠ .committing) →
        session'.status ≠ .committing := by
      rintro chunk now hlocks hnot hcommitting
      rcases hupdates.committing hcommitting with hold | hunlocked
      · exact hnot session hsession hold
      · rcases hlocks with rfl | rfl
        · exact (Upload.not_locked hunlocked chunk now).1 hc
        · exact (Upload.not_locked hunlocked chunk now).2 hc
    cases c with
    | writing chunk now =>
      exact ⟨hallows.1, fun session'' heq =>
        Option.some.inj heq ▸ hkept chunk now (.inl rfl) hallows.2⟩
    | recording chunk now =>
      exact ⟨hallows.1, fun session'' heq =>
        Option.some.inj heq ▸ hkept chunk now (.inr rfl) hallows.2⟩
    | cleaning | marking | dropping =>
      exact Upload.Ended.withRow hallows hsession hupdates.terminal
    | sweeping now ttlMs =>
      refine ⟨hallows.1, hallows.2.1, ?_⟩
      rcases hallows.2.2 with hended | hyoung
      · exact .inl (hended.withRow hsession hupdates.terminal)
      · exact .inr hyoung
    | _ => exact hallows

theorem UploadInv.update (hu : UploadInv u) {f : UploadSession → Option UploadSession}
    (h : u.update f = some u')
    (hf : ∀ session session', u.session = some session → f session = some session' →
      Updates u session session') : UploadInv u' := by
  unfold Upload.update at h
  obtain ⟨session', hbind, rfl⟩ := Option.map_eq_some_iff.1 h
  obtain ⟨session, hsession, hrow⟩ := Option.bind_eq_some_iff.1 hbind
  exact hu.withRow hsession (hf session session' hsession hrow)

/-- The staging file is written or removed. -/
theorem UploadInv.withFile (hu : UploadInv u) (hreserved : u.reserved = true)
    {staged : Option StagedFile} (hfile : ∀ file, staged = some file → file.modifiedAt = u.clock) :
    UploadInv { u with staged } := by
  refine ⟨fun hfresh => ?_, hu.bound, hu.leaseGone, hu.released, hu.agrees, fun c hc => ?_⟩
  · exact absurd hreserved (by rw [show u.reserved = false from hfresh]; simp)
  · have hallows := hu.calls c hc
    cases c with
    | sweeping now ttlMs =>
      refine ⟨hallows.1, hallows.2.1, ?_⟩
      rcases hallows.2.2 with hended | hyoung
      · exact .inl hended
      · refine .inr fun file hmem => ?_
        rcases hmem with hstaged | htaken
        · rw [hfile file hstaged]
          exact hallows.1
        · exact hyoung file (.inr htaken)
    | _ => exact hallows

/-! ## What the row updates ask for and leave -/

/-- A session with another status is not linked. -/
theorem UploadInv.free (hu : UploadInv u) (hsession : u.session = some session)
    (hlinked : ¬session.Linked u.mutationId) : u.bound = false := by
  by_contra hbound
  obtain ⟨session', hsession', hlinked'⟩ := hu.bound (by simpa using hbound)
  rw [hsession] at hsession'
  cases hsession'
  exact hlinked hlinked'

theorem updates_of_open (hfree : u.bound = false) (hopen : session.terminal ≠ true)
    (hstatus : session'.status ≠ .completed)
    (hcommitting : session'.status = .committing → u.chunkLocked = false)
    (hfile : session'.committedFileId = session.committedFileId)
    (hreleased : session'.stagingReleasedAt = session.stagingReleasedAt) :
    Updates u session session' where
  free := hfree
  committing h := .inr (hcommitting h)
  terminal h := absurd h hopen
  completed := by
    refine iff_of_false hstatus fun hcompleted => hopen ?_
    rw [UploadSession.terminal_iff]
    exact .inl hcompleted
  committedFileId := hfile
  released h := .inl (hreleased ▸ h)

theorem UploadSession.of_receivable {now : Nat} (h : session.receivable now = true) :
    session.status = .created ∨ session.status = .receiving := by
  unfold UploadSession.receivable receivableUploadSessionStatuses at h
  simp only [Bool.and_eq_true, decide_eq_true_eq, List.mem_cons, List.not_mem_nil, or_false] at h
  exact h.1

theorem UploadSession.not_terminal_of_receivable {now : Nat} (h : session.receivable now = true) :
    session.terminal ≠ true := by
  intro hterminal
  rw [UploadSession.terminal_iff] at hterminal
  rcases UploadSession.of_receivable h with hs | hs <;> simp [hs] at hterminal

theorem UploadInv.free_of_receivable (hu : UploadInv u) (hsession : u.session = some session)
    {now : Nat} (h : session.receivable now = true) : u.bound = false := by
  refine hu.free hsession fun hlinked => ?_
  have hcommitting := hlinked.committing
  rcases UploadSession.of_receivable h with hs | hs <;> simp [hs] at hcommitting

theorem UploadInv.activates (hu : UploadInv u) {now : Nat} (hsession : u.session = some session)
    (h : session.activate now = some session') : Updates u session session' := by
  obtain ⟨hstatus, hrow⟩ := Option.ite_none_right_eq_some.1 h
  obtain rfl := Option.some.inj hrow
  refine updates_of_open ?_ ?_ (by simp) (by simp) rfl rfl
  · refine hu.free hsession fun hlinked => ?_
    have hcommitting := hlinked.committing
    simp [hstatus] at hcommitting
  · rw [Ne, UploadSession.terminal_iff, hstatus]
    simp

theorem UploadInv.recordsChunk (hu : UploadInv u) {chunk : CompletedUploadChunk} {now : Nat}
    (hsession : u.session = some session) (h : session.recordChunk now chunk = some session') :
    Updates u session session' := by
  obtain ⟨hguard, hrow⟩ := Option.ite_none_right_eq_some.1 h
  have hreceivable := (Bool.and_eq_true_iff.1 hguard).1
  obtain rfl := Option.some.inj hrow
  exact updates_of_open (hu.free_of_receivable hsession hreceivable)
    (UploadSession.not_terminal_of_receivable hreceivable) (by simp) (by simp) rfl rfl

theorem UploadInv.updatesProgress (hu : UploadInv u) {receivedBytes now : Nat}
    (hsession : u.session = some session)
    (h : session.updateProgress now receivedBytes = some session') :
    Updates u session session' := by
  obtain ⟨hreceivable, hrow⟩ := Option.ite_none_right_eq_some.1 h
  obtain rfl := Option.some.inj hrow
  exact updates_of_open (hu.free_of_receivable hsession hreceivable)
    (UploadSession.not_terminal_of_receivable hreceivable) (by simp) (by simp) rfl rfl

theorem UploadInv.beginsCommit (hu : UploadInv u) {expectedChecksum : Option String} {now : Nat}
    (hsession : u.session = some session) (hlocked : u.chunkLocked = false)
    (h : session.beginCommit now expectedChecksum = some session') :
    Updates u session session' := by
  obtain ⟨hreceivable, hrow⟩ := Option.ite_none_right_eq_some.1 h
  obtain rfl := Option.some.inj hrow
  exact updates_of_open (hu.free_of_receivable hsession hreceivable)
    (UploadSession.not_terminal_of_receivable hreceivable) (by simp) (fun _ => hlocked) rfl rfl

theorem restores (hfree : u.bound = false) {now : Nat}
    (h : session.restoreAfterRollback now = some session') : Updates u session session' := by
  obtain ⟨hguard, hrow⟩ := Option.ite_none_right_eq_some.1 h
  simp only [Bool.and_eq_true, decide_eq_true_eq] at hguard
  obtain rfl := Option.some.inj hrow
  refine updates_of_open hfree ?_ (by simp) (by simp) rfl rfl
  rw [Ne, UploadSession.terminal_iff, hguard.1.1]
  simp

theorem finishes (hfree : u.bound = false) {status : SessionStatus} {now : Nat}
    (hstatus : status ∈ [SessionStatus.failed, .cancelled])
    (h : session.toTerminal now status = some session') :
    Updates u session session' ∧ session'.terminal = true := by
  obtain ⟨hopen, hrow⟩ := Option.ite_none_left_eq_some.1 h
  obtain rfl := Option.some.inj hrow
  have hcases : status = .failed ∨ status = .cancelled := by simpa using hstatus
  refine ⟨updates_of_open hfree hopen ?_ ?_ rfl rfl, ?_⟩
  · rcases hcases with rfl | rfl <;> simp
  · rcases hcases with rfl | rfl <;> simp
  · rw [UploadSession.terminal_iff]
    rcases hcases with rfl | rfl <;> simp

theorem UploadInv.marksReleased (hu : UploadInv u) (hended : u.Ended) {now : Nat}
    (hsession : u.session = some session) (h : session.markReleased now = some session') :
    Updates u session session' := by
  obtain ⟨-, hrow⟩ := Option.ite_none_right_eq_some.1 h
  obtain rfl := Option.some.inj hrow
  exact ⟨hended.not_bound hu, .inl, id, .rfl, rfl, fun _ => .inr (hended.2 session hsession)⟩

theorem UploadInv.recoversStale (hu : UploadInv u) {now : Nat} (hsession : u.session = some session)
    (h : session.recoverStale now = some session') : Updates u session session' := by
  obtain ⟨hguard, hrow⟩ := Option.ite_none_right_eq_some.1 h
  unfold UploadSession.staleCommitting at hguard
  simp only [Bool.and_eq_true, decide_eq_true_eq] at hguard
  obtain ⟨⟨⟨⟨hstatus, -⟩, -⟩, -⟩, hlink⟩ := hguard
  obtain rfl := Option.some.inj hrow
  refine updates_of_open ?_ ?_ (by simp) (by simp) rfl rfl
  · refine hu.free hsession fun hlinked => ?_
    rw [hlinked.link] at hlink
    cases hlink
  · rw [Ne, UploadSession.terminal_iff, hstatus]
    simp

theorem UploadInv.expires (hu : UploadInv u) {now : Nat} (hsession : u.session = some session)
    (h : session.expire now = some session') : Updates u session session' := by
  obtain ⟨hguard, hrow⟩ := Option.ite_none_right_eq_some.1 h
  unfold UploadSession.staleActive activeUploadSessionStatuses at hguard
  simp only [Bool.and_eq_true, decide_eq_true_eq, List.mem_cons, List.not_mem_nil,
    or_false] at hguard
  obtain rfl := Option.some.inj hrow
  refine updates_of_open ?_ ?_ (by simp) (by simp) rfl rfl
  · refine hu.free hsession fun hlinked => ?_
    have hcommitting := hlinked.committing
    rcases hguard.1 with hs | hs | hs <;> simp [hs] at hcommitting
  · rw [Ne, UploadSession.terminal_iff]
    rcases hguard.1 with hs | hs | hs <;> simp [hs]

/-! ## What the statements keep -/

theorem UploadInv.reserved_of_session (hu : UploadInv u) (hsession : u.session = some session) :
    u.reserved = true := by
  by_contra hfresh
  rw [(hu.fresh (by simpa using hfresh)).1] at hsession
  cases hsession

theorem UploadInv.pass (hu : UploadInv u) (ms : Nat) :
    UploadInv { u with clock := u.clock + ms } := by
  refine ⟨hu.fresh, hu.bound, hu.leaseGone, hu.released, hu.agrees, fun c hc => ?_⟩
  have hallows := hu.calls c hc
  cases c with
  | sweeping now ttlMs => exact ⟨Nat.le_add_right_of_le hallows.1, hallows.2⟩
  | _ => exact hallows

theorem UploadInv.reserve (hu : UploadInv u) (new : NewSession) (hfresh : u.reserved = false) :
    UploadInv { u with
      reserved := true
      session := some (new.row u.clock)
      calls := .allocating u.clock :: u.calls } := by
  obtain ⟨hsession, hstaged, htaken, hcommit, hcommitted⟩ := hu.fresh hfresh
  refine ⟨nofun, fun hbound => ?_, hu.leaseGone, ?_, ?_, fun c hc => ?_⟩
  · have hnone : u.bound = false := by
      unfold Upload.bound
      rw [hcommit]
      rfl
    exact absurd hnone (by rw [show u.bound = true from hbound]; simp)
  · intro session heq hreleased
    cases heq
    cases hreleased
  · intro session heq
    cases heq
    unfold Agrees
    rw [if_neg (by simp [NewSession.row])]
    exact ⟨rfl, hcommitted⟩
  · rcases List.mem_cons.1 hc with rfl | hmem
    · exact rfl
    · have hallows := hu.calls c hmem
      cases c with
      | sweeping now ttlMs =>
        refine ⟨hallows.1, hallows.2.1, .inr ?_⟩
        rintro file (h | h)
        · rw [show u.staged = some file from h] at hstaged
          cases hstaged
        · rw [show u.taken = some file from h] at htaken
          cases htaken
      | _ =>
        have hreserved := hallows.reserved nofun
        rw [hfresh] at hreserved
        cases hreserved

theorem UploadInv.dropRow (hu : UploadInv u) (hended : u.Ended) :
    UploadInv { u with session := none } := by
  have hnone : ∀ session, ¬({ u with session := none } : Upload).session = some session := by
    intro session heq
    cases heq
  have hended' : ({ u with session := none } : Upload).Ended :=
    ⟨hended.1, fun session heq => absurd heq (hnone session)⟩
  refine ⟨fun hfresh => ?_, fun hbound => ?_, hu.leaseGone,
    fun session heq => absurd heq (hnone session), fun session heq => absurd heq (hnone session),
    fun c hc => ?_⟩
  · exact absurd hended.1 (by rw [show u.reserved = false from hfresh]; simp)
  · exact absurd (hended.not_bound hu) (by rw [show u.bound = true from hbound]; simp)
  · have hallows := hu.calls c hc
    cases c with
    | writing | recording => exact ⟨hallows.1, fun session heq => absurd heq (hnone session)⟩
    | cleaning | marking | dropping => exact hended'
    | sweeping => exact ⟨hallows.1, hallows.2.1, .inl hended'⟩
    | _ => exact hallows

theorem UploadInv.withLink (hu : UploadInv u) (hsession : u.session = some session)
    (hstatus : session.status = .committing) (fileId : String) :
    UploadInv { u with
      commit := some ⟨.prepared, fileId⟩
      session := some { session with storageMutationId := some u.mutationId } } := by
  have hopen : session.terminal ≠ true := by
    rw [Ne, UploadSession.terminal_iff, hstatus]
    simp
  have hunreleased : session.stagingReleasedAt = none := by
    by_contra hne
    exact hopen (hu.released session hsession (Option.isSome_iff_ne_none.2 hne))
  refine ⟨fun hfresh => ?_, fun _ => ⟨_, rfl, ⟨hstatus, rfl, hunreleased⟩⟩, ?_, ?_, ?_,
    fun c hc => ?_⟩
  · rw [(hu.fresh hfresh).1] at hsession
    cases hsession
  · intro m hm haborted
    cases hm
    cases haborted
  · intro session' heq hreleased
    cases heq
    rw [show session.stagingReleasedAt = none from hunreleased] at hreleased
    cases hreleased
  · intro session' heq
    cases heq
    exact hu.agrees session hsession
  · have hallows := hu.calls c hc
    cases c with
    | writing | recording => exact ⟨hallows.1, fun session' heq => Option.some.inj heq ▸
        hallows.2 session hsession⟩
    | cleaning | marking | dropping => exact absurd (hallows.2 session hsession) hopen
    | sweeping =>
      refine ⟨hallows.1, hallows.2.1, ?_⟩
      rcases hallows.2.2 with hended | hyoung
      · exact absurd (hended.2 session hsession) hopen
      · exact .inr hyoung
    | _ => exact hallows

/-- The preparation of the mutation links the session to it. -/
theorem UploadInv.prepare (hu : UploadInv u) (hcall : .committing ∈ u.calls) {fileId : String}
    (h : ({ u.goOn .committing .executing with
      commit := some ⟨.prepared, fileId⟩ } : Upload).update
        (fun session => session.link u.mutationId) = some u') : UploadInv u' := by
  unfold Upload.update at h
  obtain ⟨session', hbind, rfl⟩ := Option.map_eq_some_iff.1 h
  obtain ⟨session, hsession, hlink⟩ := Option.bind_eq_some_iff.1 hbind
  obtain ⟨hguard, hrow⟩ := Option.ite_none_right_eq_some.1 hlink
  simp only [Bool.and_eq_true, decide_eq_true_eq] at hguard
  obtain rfl := Option.some.inj hrow
  have hreserved : u.reserved = true := (hu.calls _ hcall).reserved nofun
  exact (hu.goOn (c := .committing) (n := .executing) hreserved).withLink hsession hguard.1 fileId

/-- A step of the mutation renames the staging file, or a rollback renames it back. -/
theorem UploadInv.withFiles (hu : UploadInv u) {staged taken : Option StagedFile}
    (hfresh : u.reserved = true)
    (hfiles : ∀ file, staged = some file ∨ taken = some file →
      u.staged = some file ∨ u.taken = some file) : UploadInv { u with staged, taken } := by
  refine ⟨fun h => ?_, hu.bound, hu.leaseGone, hu.released, hu.agrees, fun c hc => ?_⟩
  · exact absurd hfresh (by rw [show u.reserved = false from h]; simp)
  · have hallows := hu.calls c hc
    cases c with
    | sweeping now ttlMs =>
      refine ⟨hallows.1, hallows.2.1, ?_⟩
      rcases hallows.2.2 with hended | hyoung
      · exact .inl hended
      · exact .inr fun file h => hyoung file (hfiles file h)
    | _ => exact hallows

theorem UploadInv.reserved_of_commit (hu : UploadInv u) {m : Commit} (hm : u.commit = some m) :
    u.reserved = true := by
  by_contra hfresh
  rw [(hu.fresh (by simpa using hfresh)).2.2.2.1] at hm
  cases hm

/-- The mutation commits or is aborted, and the session ends with it. -/
theorem UploadInv.withDecision (hu : UploadInv u) (hreserved : u.reserved = true) {m : Commit}
    (hdecided : m.undecided = false) (hgone : LeaseGone m.docket)
    (hterminal : session'.terminal = true) {committed : Option String}
    (hagrees : Agrees committed session') :
    UploadInv { u with session := some session', commit := some m, committed } := by
  have hstatus : session'.status ≠ .committing := by
    intro hcommitting
    rw [UploadSession.terminal_iff, hcommitting] at hterminal
    simp at hterminal
  refine ⟨fun hfresh => ?_, fun hbound => ?_, ?_, ?_, ?_, fun c hc => ?_⟩
  · exact absurd hreserved (by rw [show u.reserved = false from hfresh]; simp)
  · exact absurd hdecided (by rw [show m.undecided = true from hbound]; simp)
  · intro m' hm'
    cases hm'
    exact hgone
  · intro session heq _
    exact Option.some.inj heq ▸ hterminal
  · intro session heq
    exact Option.some.inj heq ▸ hagrees
  · have hallows := hu.calls c hc
    cases c with
    | writing | recording => exact ⟨hallows.1, fun session heq => Option.some.inj heq ▸ hstatus⟩
    | cleaning | marking | dropping =>
      exact ⟨hreserved, fun session heq => Option.some.inj heq ▸ hterminal⟩
    | sweeping =>
      exact ⟨hallows.1, hallows.2.1,
        .inl ⟨hreserved, fun session heq => Option.some.inj heq ▸ hterminal⟩⟩
    | _ => exact hallows

theorem UploadInv.withDocket (hu : UploadInv u) {m m' : Commit} (hm : u.commit = some m)
    (hstays : m'.undecided = true → m.undecided = true) (hgone : LeaseGone m'.docket) :
    UploadInv { u with commit := some m' } := by
  refine ⟨fun hfresh => ?_, fun hbound => ?_, ?_, hu.released, hu.agrees, hu.calls⟩
  · exact absurd (hu.reserved_of_commit hm) (by rw [show u.reserved = false from hfresh]; simp)
  · refine hu.bound ?_
    unfold Upload.bound
    rw [hm]
    exact hstays hbound
  · intro m'' hm''
    cases hm''
    exact hgone

theorem UploadInv.journal (hu : UploadInv u) {m : Commit} {s : Journal.Statement}
    (hm : u.commit = some m) (hact : (m.docket.act s).isSome = true)
    (h : u.inTransaction m.fileId s = some u') :
    UploadInv { u' with commit := some { m with docket := m.docket.step s } } := by
  have hdecides := decides_act hact (hu.leaseGone m hm)
  have hreserved := hu.reserved_of_commit hm
  have hplain : UploadInv { u with commit := some { m with docket := m.docket.step s } } := by
    refine hu.withDocket hm (fun hundecided => ?_) hdecides.leaseGone
    obtain ⟨hstamp, hstatus⟩ := Commit.undecided_iff.1 hundecided
    exact Commit.undecided_iff.2 (hdecides.stays hstamp hstatus)
  cases s with
  | byHolder hold deed now =>
    cases deed with
    | commit =>
      obtain ⟨u₀, hupdate, rfl⟩ := Option.map_eq_some_iff.1 h
      obtain ⟨session', hbind, rfl⟩ := Option.map_eq_some_iff.1 hupdate
      obtain ⟨session, hsession, hrow⟩ := Option.bind_eq_some_iff.1 hbind
      obtain ⟨-, hrow⟩ := Option.ite_none_right_eq_some.1 hrow
      obtain rfl := Option.some.inj hrow
      refine hu.withDecision hreserved ?_ hdecides.leaseGone
        (UploadSession.terminal_iff.2 (.inl rfl)) ?_
      · rw [← Bool.not_eq_true, Commit.undecided_iff]
        exact fun hundecided => hdecides.commits hold now rfl hundecided.1
      · exact (if_pos rfl).mpr ⟨m.fileId, rfl, rfl⟩
    | abort =>
      obtain ⟨-, hrow⟩ := Option.ite_none_right_eq_some.1 h
      obtain rfl := Option.some.inj hrow
      obtain ⟨haborted, hstamp, hrunning⟩ := hdecides.aborts hold now rfl
      have hbound : u.bound = true := by
        unfold Upload.bound
        rw [hm]
        exact Commit.undecided_iff.2 ⟨hstamp, by rw [hrunning]; simp⟩
      obtain ⟨session, hsession, hlinked⟩ := hu.bound hbound
      have hagrees := hu.agrees session hsession
      unfold Agrees at hagrees
      rw [if_neg (by rw [hlinked.committing]; simp)] at hagrees
      have hfailed : session.abort now u.mutationId =
          { session with status := .failed, terminalAt := some now, storageMutationId := none } :=
        if_pos hlinked.link
      rw [hsession, Option.map_some, hfailed]
      refine hu.withDecision hreserved ?_ hdecides.leaseGone
        (UploadSession.terminal_iff.2 (.inr (.inl rfl))) ?_
      · rw [← Bool.not_eq_true, Commit.undecided_iff]
        exact fun hundecided => hundecided.2 haborted
      · exact (if_neg nofun).mpr hagrees
    | _ =>
      obtain rfl := Option.some.inj h
      exact hplain
  | _ =>
    obtain rfl := Option.some.inj h
    exact hplain

/-- The call of a request that has found the session receivable. -/
theorem UploadInv.requested (hu : UploadInv u) (hsession : u.session = some session)
    {request : Request} (h : u.requested session request = some c) : u.Allows c := by
  have hreserved := hu.reserved_of_session hsession
  cases request with
  | chunk range =>
    simp only [Upload.requested] at h
    cases hparallel : session.parallel with
    | some chunkSizeBytes =>
      rw [hparallel] at h
      obtain ⟨chunkIndex, -, rfl⟩ := Option.map_eq_some_iff.1 h
      exact hreserved
    | none =>
      rw [hparallel] at h
      obtain ⟨-, hc⟩ := Option.ite_none_right_eq_some.1 h
      exact Option.some.inj hc ▸ hreserved
  | complete expectedChecksum =>
    obtain ⟨-, hc⟩ := Option.ite_none_right_eq_some.1 h
    exact Option.some.inj hc ▸ hreserved
  | cancel => exact Option.some.inj h ▸ ⟨hreserved, by simp⟩

theorem Upload.ended_of_any (hu : UploadInv u) {p : UploadSession → Bool}
    (hp : ∀ session, p session = true → session.terminal = true) (h : u.session.any p = true) :
    u.Ended := by
  obtain ⟨session, hsession, hps⟩ := (Option.any_eq_true _ _).1 h
  refine ⟨hu.reserved_of_session hsession, fun session' hsession' => ?_⟩
  rw [hsession] at hsession'
  exact Option.some.inj hsession' ▸ hp session hps

/-- The call of a phase of the cleanup job that has found the session as it looked for it. -/
theorem UploadInv.found (hu : UploadInv u) {finding : Finding} {now : Nat} (hnow : now ≤ u.clock)
    (h : u.found now finding = some c) : u.Allows c := by
  have hreserved : ∀ {p : UploadSession → Bool}, u.session.any p = true → u.reserved = true := by
    intro p hany
    obtain ⟨session, hsession, -⟩ := (Option.any_eq_true _ _).1 hany
    exact hu.reserved_of_session hsession
  cases finding with
  | staleCommitting =>
    obtain ⟨hany, hc⟩ := Option.ite_none_right_eq_some.1 h
    exact Option.some.inj hc ▸ hreserved hany
  | staleActive =>
    obtain ⟨hany, hc⟩ := Option.ite_none_right_eq_some.1 h
    exact Option.some.inj hc ▸ hreserved hany
  | unreleased =>
    obtain ⟨hany, hc⟩ := Option.ite_none_right_eq_some.1 h
    refine Option.some.inj hc ▸ Upload.ended_of_any hu (fun session hunreleased => ?_) hany
    exact (Bool.and_eq_true_iff.1 hunreleased).1
  | retained =>
    obtain ⟨hany, hc⟩ := Option.ite_none_right_eq_some.1 h
    refine Option.some.inj hc ▸ Upload.ended_of_any hu (fun session hretained => ?_) hany
    exact (Bool.and_eq_true_iff.1 (Bool.and_eq_true_iff.1 hretained).1).1
  | unprotected retentionHours =>
    obtain ⟨hguard, hc⟩ := Option.ite_none_right_eq_some.1 h
    obtain ⟨hunprotected, hpos⟩ := Bool.and_eq_true_iff.1 hguard
    refine Option.some.inj hc ▸ ⟨hnow, ?_, ?_⟩
    · have := of_decide_eq_true hpos
      omega
    · by_cases hres : u.reserved = true
      · refine .inl ⟨hres, fun session hsession => hu.released session hsession ?_⟩
        have hall := (Bool.and_eq_true_iff.1 hunprotected).1
        rw [hsession] at hall
        exact hall
      · obtain ⟨-, hstaged, htaken, -⟩ := hu.fresh (by simpa using hres)
        refine .inr fun file hfile => ?_
        rw [hstaged, htaken] at hfile
        rcases hfile with hfile | hfile <;> cases hfile

theorem UploadInv.finish (hu : UploadInv u) (hfree : u.bound = false) {status : SessionStatus}
    (hcall : .ending status ∈ u.calls) :
    UploadInv (((u.goOn (.ending status) .cleaning).update fun session =>
      session.toTerminal u.clock status).getD (u.goOn (.ending status) .cleaning)) := by
  obtain ⟨hreserved, hstatus⟩ := hu.calls _ hcall
  cases hupdate : (u.goOn (.ending status) .cleaning).update fun session =>
      session.toTerminal u.clock status with
  | none =>
    -- the session is gone or has ended before
    refine hu.goOn (c := .ending status) (n := .cleaning) ⟨hreserved, fun session hsession => ?_⟩
    by_contra hopen
    unfold Upload.update at hupdate
    rw [show (u.goOn (.ending status) .cleaning).session = some session from hsession] at hupdate
    simp [UploadSession.toTerminal, hopen] at hupdate
  | some u' =>
    unfold Upload.update at hupdate
    obtain ⟨session', hbind, rfl⟩ := Option.map_eq_some_iff.1 hupdate
    obtain ⟨session, hsession, hrow⟩ := Option.bind_eq_some_iff.1 hbind
    obtain ⟨hupdates, hterminal⟩ := finishes hfree hstatus hrow
    have hrow' : UploadInv { u with session := some session' } := hu.withRow hsession hupdates
    exact hrow'.goOn (c := .ending status) (n := .cleaning)
      ⟨hreserved, fun session'' heq => Option.some.inj heq ▸ hterminal⟩

theorem UploadInv.act (hu : UploadInv u) (hok : ChecksInTime u s) (h : u.act s = some u') :
    UploadInv u' := by
  cases s with
  | pass ms =>
    obtain rfl := Option.some.inj h
    exact hu.pass ms
  | stop c =>
    obtain rfl := Option.some.inj h
    exact hu.leave c
  | reserve new =>
    obtain ⟨hfresh, hrow⟩ := Option.ite_none_left_eq_some.1 h
    obtain rfl := Option.some.inj hrow
    exact hu.reserve new (by simpa using hfresh)
  | allocate now succeeds =>
    obtain ⟨hcall, h⟩ := Option.ite_none_right_eq_some.1 h
    have hreserved : u.reserved = true := hu.calls _ hcall
    split at h
    · obtain rfl := Option.some.inj h
      exact (hu.goOn (c := .allocating now) (n := .activating now) hreserved).withFile hreserved
        fun file heq => Option.some.inj heq ▸ rfl
    · obtain rfl := Option.some.inj h
      exact hu.goOn ⟨hreserved, by simp⟩
  | activate now =>
    obtain ⟨hcall, h⟩ := Option.ite_none_right_eq_some.1 h
    have hreserved : u.reserved = true := hu.calls _ hcall
    obtain rfl := Option.some.inj h
    cases hupdate : (u.leave (.activating now)).update fun session => session.activate now with
    | none => exact hu.goOn ⟨hreserved, by simp⟩
    | some u' =>
      exact (hu.leave (.activating now)).update hupdate fun session session' hsession hrow =>
        (hu.leave (.activating now)).activates hsession hrow
  | read request =>
    obtain ⟨session, hsession, h⟩ := Option.bind_eq_some_iff.1 h
    obtain ⟨-, h⟩ := Option.ite_none_right_eq_some.1 h
    obtain ⟨c, hc, rfl⟩ := Option.map_eq_some_iff.1 h
    exact hu.enter (hu.requested hsession hc)
  | lockChunk chunk now =>
    obtain ⟨session, hsession, h⟩ := Option.bind_eq_some_iff.1 h
    obtain ⟨hguard, h⟩ := Option.ite_none_right_eq_some.1 h
    simp only [Bool.and_eq_true] at hguard
    obtain rfl := Option.some.inj h
    refine hu.goOn ⟨hu.reserved_of_session hsession, fun session' hsession' => ?_⟩
    rw [hsession] at hsession'
    cases hsession'
    rcases UploadSession.of_receivable hguard.1.2 with hs | hs <;> simp [hs]
  | writeChunk chunk now =>
    obtain ⟨hcall, h⟩ := Option.ite_none_right_eq_some.1 h
    have hallows : u.Allows (.writing chunk now) := hu.calls _ hcall
    obtain ⟨file, hfile, rfl⟩ := Option.map_eq_some_iff.1 h
    have hgo := hu.goOn (c := .writing chunk now) (n := .recording chunk now) hallows
    refine hgo.withFile hallows.1 fun file' heq => ?_
    cases heq
    obtain ⟨-, -, rfl⟩ := Option.map_eq_some_iff.1 hfile
    rfl
  | recordChunk chunk now =>
    obtain ⟨-, h⟩ := Option.ite_none_right_eq_some.1 h
    exact (hu.leave _).update h fun session session' hsession hrow =>
      (hu.leave (.recording chunk now)).recordsChunk hsession hrow
  | writeLegacy range =>
    obtain ⟨hcall, h⟩ := Option.ite_none_right_eq_some.1 h
    have hreserved : u.reserved = true := hu.calls _ hcall
    obtain ⟨file, hfile, rfl⟩ := Option.map_eq_some_iff.1 h
    refine (hu.goOn (c := .sendingLegacy range) (n := .progressing _) hreserved).withFile
      hreserved fun file' heq => ?_
    cases heq
    obtain ⟨-, hfile⟩ := Option.ite_none_right_eq_some.1 hfile
    exact Option.some.inj hfile ▸ rfl
  | recordLegacy receivedBytes =>
    obtain ⟨-, h⟩ := Option.ite_none_right_eq_some.1 h
    exact (hu.leave _).update h fun session session' hsession hrow =>
      (hu.leave (.progressing receivedBytes)).updatesProgress hsession hrow
  | beginCommit expectedChecksum =>
    obtain ⟨hguard, h⟩ := Option.ite_none_right_eq_some.1 h
    obtain ⟨hcall, hlocked⟩ := Bool.and_eq_true_iff.1 hguard
    have hreserved : u.reserved = true := hu.calls _ (of_decide_eq_true hcall)
    have hgo := hu.goOn (c := .completing expectedChecksum) (n := .verifying expectedChecksum)
      hreserved
    refine hgo.update h fun session session' hsession hrow => hgo.beginsCommit hsession ?_ hrow
    exact Upload.goOn_unlocked (by simpa using hlocked) rfl
  | verify expectedChecksum actualChecksum =>
    obtain ⟨hcall, h⟩ := Option.ite_none_right_eq_some.1 h
    have hreserved : u.reserved = true := hu.calls _ hcall
    split at h
    · obtain rfl := Option.some.inj h
      exact hu.goOn hreserved
    · split at h
      · obtain rfl := Option.some.inj h
        exact hu.goOn hreserved
      · obtain rfl := Option.some.inj h
        refine hu.goOn ?_
        split
        · exact hreserved
        · exact ⟨hreserved, by simp⟩
  | prepare fileId =>
    obtain ⟨hcall, h⟩ := Option.ite_none_right_eq_some.1 h
    split at h
    · exact hu.prepare hcall h
    · obtain ⟨-, h⟩ := Option.ite_none_right_eq_some.1 h
      have hreserved : u.reserved = true := hu.calls _ hcall
      obtain rfl := Option.some.inj h
      exact hu.goOn hreserved
  | reject =>
    obtain ⟨hcall, h⟩ := Option.ite_none_right_eq_some.1 h
    obtain rfl := Option.some.inj h
    exact hu.goOn ⟨hu.calls _ hcall, by simp⟩
  | refuse =>
    obtain ⟨hguard, h⟩ := Option.ite_none_right_eq_some.1 h
    have hreserved : u.reserved = true :=
      hu.calls _ (of_decide_eq_true (Bool.and_eq_true_iff.1 hguard).1)
    obtain rfl := Option.some.inj h
    exact hu.goOn hreserved
  | interrupted =>
    obtain ⟨hguard, h⟩ := Option.ite_none_right_eq_some.1 h
    have hreserved : u.reserved = true :=
      hu.calls _ (of_decide_eq_true (Bool.and_eq_true_iff.1 hguard).1)
    obtain rfl := Option.some.inj h
    exact hu.goOn hreserved
  | restore =>
    obtain ⟨-, h⟩ := Option.ite_none_right_eq_some.1 h
    exact (hu.leave .restoring).update h fun session session' hsession hrow =>
      restores (u := u.leave .restoring) hok hrow
  | finish status =>
    obtain ⟨hguard, h⟩ := Option.ite_none_right_eq_some.1 h
    obtain rfl := Option.some.inj h
    exact hu.finish hok (of_decide_eq_true (Bool.and_eq_true_iff.1 hguard).1)
  | removeStaging =>
    obtain ⟨hcall, h⟩ := Option.ite_none_right_eq_some.1 h
    have hended : u.Ended := hu.calls _ hcall
    obtain rfl := Option.some.inj h
    exact (hu.goOn (c := .cleaning) (n := .marking) hended).withFile hended.1 nofun
  | markReleased =>
    obtain ⟨hcall, h⟩ := Option.ite_none_right_eq_some.1 h
    have hended : u.Ended := hu.calls _ hcall
    exact (hu.leave .marking).update h fun session session' hsession hrow =>
      (hu.leave .marking).marksReleased hended hsession hrow
  | find finding now =>
    obtain ⟨hnow, h⟩ := Option.ite_none_right_eq_some.1 h
    obtain ⟨c, hc, rfl⟩ := Option.map_eq_some_iff.1 h
    exact hu.enter (hu.found hnow hc)
  | recoverStale now =>
    obtain ⟨-, h⟩ := Option.ite_none_right_eq_some.1 h
    exact (hu.leave _).update h fun session session' hsession hrow =>
      (hu.leave (.recovering now)).recoversStale hsession hrow
  | expire now =>
    obtain ⟨-, h⟩ := Option.ite_none_right_eq_some.1 h
    exact (hu.leave _).update h fun session session' hsession hrow =>
      (hu.leave (.expiring now)).expires hsession hrow
  | dropRow =>
    obtain ⟨hcall, h⟩ := Option.ite_none_right_eq_some.1 h
    obtain rfl := Option.some.inj h
    exact (hu.leave .dropping).dropRow (hu.calls _ hcall)
  | sweep now ttlMs =>
    obtain ⟨hguard, h⟩ := Option.ite_none_right_eq_some.1 h
    obtain ⟨-, hany⟩ := Bool.and_eq_true_iff.1 hguard
    obtain rfl := Option.some.inj h
    have hreserved : u.reserved = true := by
      by_contra hfresh
      obtain ⟨-, hstaged, -⟩ := hu.fresh (by simpa using hfresh)
      rw [hstaged] at hany
      cases hany
    exact (hu.leave (.sweeping now ttlMs)).withFile hreserved nofun
  | journal s =>
    obtain ⟨m, hm, h⟩ := Option.bind_eq_some_iff.1 h
    obtain ⟨hact, h⟩ := Option.ite_none_right_eq_some.1 h
    obtain ⟨u₁, htx, rfl⟩ := Option.map_eq_some_iff.1 h
    exact hu.journal hm hact htx
  | takeStaged hold =>
    obtain ⟨hguard, h⟩ := Option.ite_none_right_eq_some.1 h
    simp only [Bool.and_eq_true] at hguard
    obtain rfl := Option.some.inj h
    obtain ⟨m, hm, -⟩ := (Option.any_eq_true _ _).1 hguard.1.1
    refine hu.withFiles (hu.reserved_of_commit hm) fun file hfile => ?_
    rcases hfile with hfile | hfile
    · cases hfile
    · exact .inl hfile
  | putBack hold =>
    obtain ⟨hguard, h⟩ := Option.ite_none_right_eq_some.1 h
    simp only [Bool.and_eq_true] at hguard
    obtain rfl := Option.some.inj h
    obtain ⟨m, hm, -⟩ := (Option.any_eq_true _ _).1 hguard.1.1
    refine hu.withFiles (hu.reserved_of_commit hm) fun file hfile => ?_
    rcases hfile with hfile | hfile
    · exact .inr hfile
    · cases hfile

/-! ## What a bound session is spared -/

theorem Upload.free_of_update {f : UploadSession → Option UploadSession} (h : u.update f = some u')
    (hf : ∀ session session', u.session = some session → f session = some session' →
      Updates u session session') : u.bound = false := by
  unfold Upload.update at h
  obtain ⟨session', hbind, rfl⟩ := Option.map_eq_some_iff.1 h
  obtain ⟨session, hsession, hrow⟩ := Option.bind_eq_some_iff.1 hbind
  exact (hf session session' hsession hrow).free

/-- Another operation leaves the row and the staging file alone. -/
theorem UploadInv.untouched (hu : UploadInv u) (hok : ChecksInTime u s) (hbound : u.bound = true)
    (hother : s.ofMutation = false) (h : u.act s = some u') :
    u'.session = u.session ∧ ∀ file, u.staged = some file → u'.staged = some file := by
  have hnot : ¬u.bound = false := by simp [hbound]
  cases s with
  | pass ms | stop c =>
    obtain rfl := Option.some.inj h
    exact ⟨rfl, fun _ => id⟩
  | reserve new =>
    obtain ⟨hfresh, -⟩ := Option.ite_none_left_eq_some.1 h
    obtain ⟨session, hsession, -⟩ := hu.bound hbound
    exact absurd (hu.reserved_of_session hsession) hfresh
  | allocate now succeeds =>
    obtain ⟨-, h⟩ := Option.ite_none_right_eq_some.1 h
    split at h
    · rename_i hguard
      obtain rfl := Option.some.inj h
      refine ⟨rfl, fun file hfile => ?_⟩
      rw [hfile] at hguard
      simp at hguard
    · obtain rfl := Option.some.inj h
      exact ⟨rfl, fun _ => id⟩
  | activate now =>
    obtain ⟨-, h⟩ := Option.ite_none_right_eq_some.1 h
    obtain rfl := Option.some.inj h
    cases hupdate : (u.leave (.activating now)).update fun session => session.activate now with
    | none => exact ⟨rfl, fun _ => id⟩
    | some u' =>
      exact absurd (Upload.free_of_update hupdate fun session session' hsession hrow =>
        (hu.leave (.activating now)).activates hsession hrow) hnot
  | read request =>
    obtain ⟨session, -, h⟩ := Option.bind_eq_some_iff.1 h
    obtain ⟨-, h⟩ := Option.ite_none_right_eq_some.1 h
    obtain ⟨c, -, rfl⟩ := Option.map_eq_some_iff.1 h
    exact ⟨rfl, fun _ => id⟩
  | lockChunk chunk now =>
    obtain ⟨session, -, h⟩ := Option.bind_eq_some_iff.1 h
    obtain ⟨-, h⟩ := Option.ite_none_right_eq_some.1 h
    obtain rfl := Option.some.inj h
    exact ⟨rfl, fun _ => id⟩
  | writeChunk chunk now =>
    obtain ⟨hcall, -⟩ := Option.ite_none_right_eq_some.1 h
    have hallows : u.Allows (.writing chunk now) := hu.calls _ hcall
    obtain ⟨session, hsession, hlinked⟩ := hu.bound hbound
    exact absurd hlinked.committing (hallows.2 session hsession)
  | recordChunk chunk now =>
    obtain ⟨-, h⟩ := Option.ite_none_right_eq_some.1 h
    exact absurd (Upload.free_of_update h fun session session' hsession hrow =>
      (hu.leave (.recording chunk now)).recordsChunk hsession hrow) hnot
  | recordLegacy receivedBytes =>
    obtain ⟨-, h⟩ := Option.ite_none_right_eq_some.1 h
    exact absurd (Upload.free_of_update h fun session session' hsession hrow =>
      (hu.leave (.progressing receivedBytes)).updatesProgress hsession hrow) hnot
  | beginCommit expectedChecksum =>
    obtain ⟨-, h⟩ := Option.ite_none_right_eq_some.1 h
    unfold Upload.update at h
    obtain ⟨session', hbind, rfl⟩ := Option.map_eq_some_iff.1 h
    obtain ⟨session, hsession, hrow⟩ := Option.bind_eq_some_iff.1 hbind
    exact absurd (hu.free_of_receivable hsession (Option.ite_none_right_eq_some.1 hrow).1) hnot
  | verify expectedChecksum actualChecksum =>
    obtain ⟨-, h⟩ := Option.ite_none_right_eq_some.1 h
    split at h
    · obtain rfl := Option.some.inj h
      exact ⟨rfl, fun _ => id⟩
    · split at h <;>
      · obtain rfl := Option.some.inj h
        exact ⟨rfl, fun _ => id⟩
  | prepare fileId =>
    obtain ⟨-, h⟩ := Option.ite_none_right_eq_some.1 h
    split at h
    · rename_i hcommit
      refine absurd ?_ hnot
      unfold Upload.bound
      rw [hcommit]
      rfl
    · obtain ⟨-, h⟩ := Option.ite_none_right_eq_some.1 h
      obtain rfl := Option.some.inj h
      exact ⟨rfl, fun _ => id⟩
  | reject | refuse | interrupted =>
    obtain ⟨-, h⟩ := Option.ite_none_right_eq_some.1 h
    obtain rfl := Option.some.inj h
    exact ⟨rfl, fun _ => id⟩
  | restore | finish status | writeLegacy range => exact absurd hok hnot
  | removeStaging | markReleased | dropRow =>
    obtain ⟨hcall, -⟩ := Option.ite_none_right_eq_some.1 h
    have hended : u.Ended := hu.calls _ hcall
    exact absurd (hended.not_bound hu) hnot
  | find finding now =>
    obtain ⟨-, h⟩ := Option.ite_none_right_eq_some.1 h
    obtain ⟨c, -, rfl⟩ := Option.map_eq_some_iff.1 h
    exact ⟨rfl, fun _ => id⟩
  | recoverStale now =>
    obtain ⟨-, h⟩ := Option.ite_none_right_eq_some.1 h
    exact absurd (Upload.free_of_update h fun session session' hsession hrow =>
      (hu.leave (.recovering now)).recoversStale hsession hrow) hnot
  | expire now =>
    obtain ⟨-, h⟩ := Option.ite_none_right_eq_some.1 h
    exact absurd (Upload.free_of_update h fun session session' hsession hrow =>
      (hu.leave (.expiring now)).expires hsession hrow) hnot
  | sweep now ttlMs =>
    obtain ⟨hguard, -⟩ := Option.ite_none_right_eq_some.1 h
    obtain ⟨hcall, hany⟩ := Bool.and_eq_true_iff.1 hguard
    obtain ⟨file, hfile, hold⟩ := (Option.any_eq_true _ _).1 hany
    obtain ⟨-, hpos, hsafe⟩ : u.Allows (.sweeping now ttlMs) := hu.calls _ (of_decide_eq_true hcall)
    rcases hsafe with hended | hyoung
    · exact absurd (hended.not_bound hu) hnot
    · have hmodified := hyoung file (.inl hfile)
      have hexpired := of_decide_eq_true hold
      omega
  | journal | takeStaged | putBack => cases hother

/-! ## Runs -/

theorem UploadInv.step (hu : UploadInv u) (hok : ChecksInTime u s) : UploadInv (u.step s) := by
  unfold Upload.step
  cases hact : u.act s with
  | none => exact hu
  | some u' => exact hu.act hok hact

theorem UploadInv.commitBelongs (hu : UploadInv u) (hok : ChecksInTime u s) :
    CommitBelongs u s where
  committing hbound := by
    obtain ⟨session, hsession, hlinked⟩ := hu.bound hbound
    exact ⟨session, hsession, hlinked.committing, hlinked.link⟩
  untouched hbound hother := by
    unfold Upload.step
    cases hact : u.act s with
    | none => exact ⟨rfl, fun _ => id⟩
    | some u' => exact hu.untouched hok hbound hother hact
  completed session hsession hstatus := by
    have hagrees := hu.agrees session hsession
    unfold Agrees at hagrees
    rwa [if_pos hstatus] at hagrees
  uncommitted session hsession hstatus := by
    have hagrees := hu.agrees session hsession
    unfold Agrees at hagrees
    rwa [if_neg fun hcompleted => by simp [hcompleted] at hstatus] at hagrees

/-- A commit belongs to its mutation as long as no cancellation, failure or restore arrives between. -/
theorem run_commitBelongs (sessionId : String) (statements : List Statement)
    (hok : RunMeets Upload.step ChecksInTime (Upload.empty sessionId) statements) :
    RunMeets Upload.step CommitBelongs (Upload.empty sessionId) statements :=
  (hok.invariant (fun _ _ hok hu => hu.step hok) (uploadInv_empty sessionId)).mono
    fun _ _ h => h.2.commitBelongs h.1

/-- A file of four bytes is sent in one chunk. -/
def sendFile : List Statement :=
  [.reserve ⟨4, none, 2, some 10, .fail⟩, .allocate 0 true, .activate 0, .read (.chunk ⟨0, 3⟩),
    .lockChunk ⟨0, 0, 3, 4⟩ 0, .writeChunk ⟨0, 0, 3, 4⟩ 0, .recordChunk ⟨0, 0, 3, 4⟩ 0]

/-- The upload is completed, up to the preparation of the mutation. -/
def completeFile : List Statement :=
  [.read (.complete (some "sum")), .beginCommit (some "sum"), .verify (some "sum") (some "sum"),
    .prepare "file"]

/-- An executor claims the mutation, renames the staging file and commits. -/
def commitFile : List Statement :=
  let hold : Holding := ⟨⟨['w'], 1⟩, 1⟩
  [.journal (.claim ['w'] 0), .journal (.readBack ⟨['w'], 1⟩), .takeStaged hold,
    .journal (.byHolder hold .commit 1)]

/-- The run of an upload. A cancellation that comes too late finds the session committing. -/
def uploadFile : List Statement := sendFile ++ completeFile ++ [.read .cancel] ++ commitFile

theorem run_commitBelongs_uploaded :
    (((Upload.empty "id").run uploadFile).session.map fun session =>
      (session.status, session.committedFileId)) = some (.completed, some "file") ∧
    RunMeets Upload.step CommitBelongs (Upload.empty "id") uploadFile :=
  ⟨by decide, run_commitBelongs "id" uploadFile (by decide)⟩

/-- A cancellation that has read the session before the completion did takes it from its mutation. -/
theorem cancel_takes_session :
    ¬∀ sessionId statements,
      RunMeets Upload.step CommitBelongs (Upload.empty sessionId) statements := by
  intro hall
  have hrun := hall "id" (sendFile ++ [.read .cancel] ++ completeFile ++ [.finish .cancelled])
  obtain ⟨-, hlast, -⟩ := runMeets_append.1 hrun
  obtain ⟨hsession, -⟩ := hlast.untouched (by decide) rfl
  revert hsession
  decide

end Staaash.Uploads
