import Staaash.Uploads.Coverage
import Staaash.Uploads.Proofs.CallsProofs

/-!
# Proofs: what a statement does to the row and the calls of an upload

Few statements write the bytes and the chunks of a session. The others carry them over, or end the
session and its chunks.
-/

namespace Staaash.Uploads

open Staaash.Library

variable {u u' : Upload} {s : Statement} {session session' : UploadSession} {c : Call}

/-! ## The row -/

/-- The bytes of the session are carried over; its chunks are too, unless it ends. -/
structure Carries (session session' : UploadSession) : Prop where
  parallel : session'.parallel = session.parallel
  totalSizeBytes : session'.totalSizeBytes = session.totalSizeBytes
  receivedBytes : session'.receivedBytes = session.receivedBytes
  chunks : session'.completedChunks = session.completedChunks ∨ session'.completedChunks = []
  stillOpen : session'.terminal = false →
    session.terminal = false ∧ session'.completedChunks = session.completedChunks
  committing : session'.status = .committing → session.status = .committing
  completed : session'.status = .completed →
    session.status = .committing ∨ session.status = .completed

/-- How a statement writes the row. -/
inductive RowWrite (u : Upload) : Statement → UploadSession → UploadSession → Prop
  | record {session session' : UploadSession} {chunk : CompletedUploadChunk} {now : Nat}
    (hcall : .recording chunk now ∈ u.calls)
    (hrow : session.recordChunk now chunk = some session') :
    RowWrite u (.recordChunk chunk now) session session'
  | progress {session session' : UploadSession} {receivedBytes : Nat}
    (hcall : .progressing receivedBytes ∈ u.calls)
    (hrow : session.updateProgress u.clock receivedBytes = some session') :
    RowWrite u (.recordLegacy receivedBytes) session session'
  | begin {session session' : UploadSession} {expectedChecksum : Option String}
    (hcall : .completing expectedChecksum ∈ u.calls)
    (hrow : session.beginCommit u.clock expectedChecksum = some session') :
    RowWrite u (.beginCommit expectedChecksum) session session'
  | finish {session session' : UploadSession} {status : SessionStatus}
    (hcall : .ending status ∈ u.calls)
    (hrow : session.toTerminal u.clock status = some session') :
    RowWrite u (.finish status) session session'
  | carry {s : Statement} {session session' : UploadSession} (hother : s.ofChunk = false)
    (hcarries : Carries session session') : RowWrite u s session session'

/-- What becomes of the reservation and the row. -/
inductive RowAfter (u : Upload) (s : Statement) : Bool → Option UploadSession → Prop
  | same : RowAfter u s u.reserved u.session
  | reserve {new : NewSession} (hother : s.ofChunk = false) (hfresh : u.reserved = false) :
    RowAfter u s true (some (new.row u.clock))
  | drop (hother : s.ofChunk = false) : RowAfter u s u.reserved none
  | write {session session' : UploadSession} (hsession : u.session = some session)
    (hwrite : RowWrite u s session session') : RowAfter u s u.reserved (some session')

theorem UploadSession.not_terminal_iff :
    session.terminal = false ↔ session.status ≠ .completed ∧ session.status ≠ .failed ∧
      session.status ≠ .cancelled ∧ session.status ≠ .expired := by
  rw [← Bool.not_eq_true, UploadSession.terminal_iff]
  simp only [not_or]

theorem Carries.refl (session : UploadSession) : Carries session session :=
  ⟨rfl, rfl, rfl, .inl rfl, fun h => ⟨h, rfl⟩, id, .inr⟩

/-- A session goes on under another status. -/
theorem carries_on (hparallel : session'.parallel = session.parallel)
    (htotal : session'.totalSizeBytes = session.totalSizeBytes)
    (hreceived : session'.receivedBytes = session.receivedBytes)
    (hchunks : session'.completedChunks = session.completedChunks)
    (hopen : session.terminal = false)
    (hstatus : session'.status = .created ∨ session'.status = .receiving) :
    Carries session session' := by
  refine ⟨hparallel, htotal, hreceived, .inl hchunks, fun _ => ⟨hopen, hchunks⟩, ?_, ?_⟩
  · intro hcommitting
    rcases hstatus with hs | hs <;> simp [hs] at hcommitting
  · intro hcompleted
    rcases hstatus with hs | hs <;> simp [hs] at hcompleted

/-- A session ends. -/
theorem carries_end (hparallel : session'.parallel = session.parallel)
    (htotal : session'.totalSizeBytes = session.totalSizeBytes)
    (hreceived : session'.receivedBytes = session.receivedBytes)
    (hchunks : session'.completedChunks = session.completedChunks ∨ session'.completedChunks = [])
    (hstatus : session'.status = .failed ∨ session'.status = .cancelled ∨
      session'.status = .expired ∨ session'.status = .completed ∧ session.status = .committing) :
    Carries session session' := by
  refine ⟨hparallel, htotal, hreceived, hchunks, ?_, ?_, ?_⟩
  · intro hopen
    rw [UploadSession.not_terminal_iff] at hopen
    rcases hstatus with hs | hs | hs | hs <;> simp [hs] at hopen
  · intro hcommitting
    rcases hstatus with hs | hs | hs | hs <;> simp [hs] at hcommitting
  · intro hcompleted
    rcases hstatus with hs | hs | hs | hs
    · simp [hs] at hcompleted
    · simp [hs] at hcompleted
    · simp [hs] at hcompleted
    · exact .inl hs.2

theorem UploadSession.carries_activate {now : Nat} (h : session.activate now = some session') :
    Carries session session' := by
  obtain ⟨hstatus, hrow⟩ := Option.ite_none_right_eq_some.1 h
  obtain rfl := Option.some.inj hrow
  refine carries_on rfl rfl rfl rfl ?_ (.inl rfl)
  rw [UploadSession.not_terminal_iff, hstatus]
  decide

theorem UploadSession.carries_restore {now : Nat}
    (h : session.restoreAfterRollback now = some session') : Carries session session' := by
  obtain ⟨hguard, hrow⟩ := Option.ite_none_right_eq_some.1 h
  simp only [Bool.and_eq_true, decide_eq_true_eq] at hguard
  obtain rfl := Option.some.inj hrow
  refine carries_on rfl rfl rfl rfl ?_ (.inr rfl)
  rw [UploadSession.not_terminal_iff, hguard.1.1]
  decide

theorem UploadSession.carries_recoverStale {now : Nat}
    (h : session.recoverStale now = some session') : Carries session session' := by
  obtain ⟨hguard, hrow⟩ := Option.ite_none_right_eq_some.1 h
  unfold UploadSession.staleCommitting at hguard
  simp only [Bool.and_eq_true, decide_eq_true_eq] at hguard
  obtain rfl := Option.some.inj hrow
  refine carries_on rfl rfl rfl rfl ?_ (.inr rfl)
  rw [UploadSession.not_terminal_iff, hguard.1.1.1.1]
  decide

theorem UploadSession.carries_markReleased {now : Nat}
    (h : session.markReleased now = some session') : Carries session session' := by
  obtain ⟨-, hrow⟩ := Option.ite_none_right_eq_some.1 h
  obtain rfl := Option.some.inj hrow
  exact ⟨rfl, rfl, rfl, .inl rfl, fun h => ⟨h, rfl⟩, id, .inr⟩

theorem UploadSession.carries_link {mutationId : String}
    (h : session.link mutationId = some session') : Carries session session' := by
  obtain ⟨-, hrow⟩ := Option.ite_none_right_eq_some.1 h
  obtain rfl := Option.some.inj hrow
  exact ⟨rfl, rfl, rfl, .inl rfl, fun h => ⟨h, rfl⟩, id, .inr⟩

theorem UploadSession.carries_expire {now : Nat} (h : session.expire now = some session') :
    Carries session session' := by
  obtain ⟨-, hrow⟩ := Option.ite_none_right_eq_some.1 h
  obtain rfl := Option.some.inj hrow
  exact carries_end rfl rfl rfl (.inr rfl) (.inr (.inr (.inl rfl)))

theorem UploadSession.carries_complete {now : Nat} {mutationId fileId : String}
    (h : session.complete now mutationId fileId = some session') : Carries session session' := by
  obtain ⟨hguard, hrow⟩ := Option.ite_none_right_eq_some.1 h
  simp only [Bool.and_eq_true, decide_eq_true_eq] at hguard
  obtain rfl := Option.some.inj hrow
  exact carries_end rfl rfl rfl (.inr rfl) (.inr (.inr (.inr ⟨rfl, hguard.1.1⟩)))

theorem UploadSession.carries_abort (session : UploadSession) (now : Nat) (mutationId : String) :
    Carries session (session.abort now mutationId) := by
  unfold UploadSession.abort
  by_cases hlink : session.storageMutationId = some mutationId
  · rw [if_pos hlink]
    exact carries_end rfl rfl rfl (.inl rfl) (.inl rfl)
  · rw [if_neg hlink]
    exact .refl session

theorem UploadSession.carries_finish {now : Nat} {status : SessionStatus}
    (hstatus : status = .failed ∨ status = .cancelled)
    (h : session.toTerminal now status = some session') : Carries session session' := by
  obtain ⟨-, hrow⟩ := Option.ite_none_left_eq_some.1 h
  obtain rfl := Option.some.inj hrow
  refine carries_end rfl rfl rfl (.inr rfl) ?_
  rcases hstatus with rfl | rfl
  · exact .inl rfl
  · exact .inr (.inl rfl)

/-- An update is a write of the row that is there. -/
theorem RowAfter.of_update {u₁ : Upload} {f : UploadSession → Option UploadSession}
    (h : u₁.update f = some u') (hreserved : u₁.reserved = u.reserved)
    (hsame : u₁.session = u.session)
    (hf : ∀ session session', f session = some session' → RowWrite u s session session') :
    RowAfter u s u'.reserved u'.session := by
  unfold Upload.update at h
  obtain ⟨session', hbind, rfl⟩ := Option.map_eq_some_iff.1 h
  obtain ⟨session, hsession, hrow⟩ := Option.bind_eq_some_iff.1 hbind
  show RowAfter u s u₁.reserved (some session')
  rw [hreserved]
  exact .write (hsame ▸ hsession) (hf session session' hrow)

theorem rowAfter_transaction {fileId : String} {js : Journal.Statement} (hother : s.ofChunk = false)
    (h : u.inTransaction fileId js = some u') : RowAfter u s u'.reserved u'.session := by
  unfold Upload.inTransaction at h
  split at h
  · obtain ⟨u₁, hupdate, rfl⟩ := Option.map_eq_some_iff.1 h
    have hafter : RowAfter u s u₁.reserved u₁.session :=
      RowAfter.of_update hupdate rfl rfl fun session session' hrow =>
        .carry hother (UploadSession.carries_complete hrow)
    exact hafter
  · obtain ⟨-, h⟩ := Option.ite_none_right_eq_some.1 h
    obtain rfl := Option.some.inj h
    cases hsession : u.session with
    | none =>
      show RowAfter u s u.reserved none
      rw [← hsession]
      exact .same
    | some session => exact .write hsession (.carry hother (UploadSession.carries_abort session _ _))
  · obtain rfl := Option.some.inj h
    exact .same

/-- What a statement does to the row. -/
theorem rowAfter_of_act (h : u.act s = some u') : RowAfter u s u'.reserved u'.session := by
  cases s with
  | pass ms | stop c =>
    obtain rfl := Option.some.inj h
    exact .same
  | reserve new =>
    obtain ⟨hfresh, h⟩ := Option.ite_none_left_eq_some.1 h
    obtain rfl := Option.some.inj h
    exact .reserve rfl (by simpa using hfresh)
  | allocate now succeeds =>
    obtain ⟨-, h⟩ := Option.ite_none_right_eq_some.1 h
    split at h <;>
    · obtain rfl := Option.some.inj h
      exact .same
  | activate now =>
    obtain ⟨-, h⟩ := Option.ite_none_right_eq_some.1 h
    obtain rfl := Option.some.inj h
    cases hupdate : (u.leave (.activating now)).update fun session => session.activate now with
    | none => exact .same
    | some u' =>
      exact RowAfter.of_update hupdate rfl rfl fun session session' hrow =>
        .carry rfl (UploadSession.carries_activate hrow)
  | read request =>
    obtain ⟨session, -, h⟩ := Option.bind_eq_some_iff.1 h
    obtain ⟨-, h⟩ := Option.ite_none_right_eq_some.1 h
    obtain ⟨c, -, rfl⟩ := Option.map_eq_some_iff.1 h
    exact .same
  | lockChunk chunk now =>
    obtain ⟨session, -, h⟩ := Option.bind_eq_some_iff.1 h
    obtain ⟨-, h⟩ := Option.ite_none_right_eq_some.1 h
    obtain rfl := Option.some.inj h
    exact .same
  | writeChunk chunk now | writeLegacy range =>
    obtain ⟨-, h⟩ := Option.ite_none_right_eq_some.1 h
    obtain ⟨file, -, rfl⟩ := Option.map_eq_some_iff.1 h
    exact .same
  | recordChunk chunk now =>
    obtain ⟨hcall, h⟩ := Option.ite_none_right_eq_some.1 h
    exact RowAfter.of_update h rfl rfl fun session session' hrow => .record hcall hrow
  | recordLegacy receivedBytes =>
    obtain ⟨hcall, h⟩ := Option.ite_none_right_eq_some.1 h
    exact RowAfter.of_update h rfl rfl fun session session' hrow => .progress hcall hrow
  | beginCommit expectedChecksum =>
    obtain ⟨hguard, h⟩ := Option.ite_none_right_eq_some.1 h
    have hcall := of_decide_eq_true (Bool.and_eq_true_iff.1 hguard).1
    exact RowAfter.of_update h rfl rfl fun session session' hrow => .begin hcall hrow
  | verify expectedChecksum actualChecksum =>
    obtain ⟨-, h⟩ := Option.ite_none_right_eq_some.1 h
    split at h
    · obtain rfl := Option.some.inj h
      exact .same
    · split at h <;>
      · obtain rfl := Option.some.inj h
        exact .same
  | prepare fileId =>
    obtain ⟨-, h⟩ := Option.ite_none_right_eq_some.1 h
    split at h
    · exact RowAfter.of_update h rfl rfl fun session session' hrow =>
        .carry rfl (UploadSession.carries_link hrow)
    · obtain ⟨-, h⟩ := Option.ite_none_right_eq_some.1 h
      obtain rfl := Option.some.inj h
      exact .same
  | reject | refuse | interrupted | removeStaging | sweep now ttlMs | takeStaged hold | putBack hold =>
    obtain ⟨-, h⟩ := Option.ite_none_right_eq_some.1 h
    obtain rfl := Option.some.inj h
    exact .same
  | restore =>
    obtain ⟨-, h⟩ := Option.ite_none_right_eq_some.1 h
    exact RowAfter.of_update h rfl rfl fun session session' hrow =>
      .carry rfl (UploadSession.carries_restore hrow)
  | finish status =>
    obtain ⟨hguard, h⟩ := Option.ite_none_right_eq_some.1 h
    have hcall := of_decide_eq_true (Bool.and_eq_true_iff.1 hguard).1
    obtain rfl := Option.some.inj h
    cases hupdate : (u.goOn (.ending status) .cleaning).update fun session =>
        session.toTerminal u.clock status with
    | none => exact .same
    | some u' =>
      exact RowAfter.of_update hupdate rfl rfl fun session session' hrow => .finish hcall hrow
  | markReleased =>
    obtain ⟨-, h⟩ := Option.ite_none_right_eq_some.1 h
    exact RowAfter.of_update h rfl rfl fun session session' hrow =>
      .carry rfl (UploadSession.carries_markReleased hrow)
  | find finding now =>
    obtain ⟨-, h⟩ := Option.ite_none_right_eq_some.1 h
    obtain ⟨c, -, rfl⟩ := Option.map_eq_some_iff.1 h
    exact .same
  | recoverStale now =>
    obtain ⟨-, h⟩ := Option.ite_none_right_eq_some.1 h
    exact RowAfter.of_update h rfl rfl fun session session' hrow =>
      .carry rfl (UploadSession.carries_recoverStale hrow)
  | expire now =>
    obtain ⟨-, h⟩ := Option.ite_none_right_eq_some.1 h
    exact RowAfter.of_update h rfl rfl fun session session' hrow =>
      .carry rfl (UploadSession.carries_expire hrow)
  | dropRow =>
    obtain ⟨-, h⟩ := Option.ite_none_right_eq_some.1 h
    obtain rfl := Option.some.inj h
    exact .drop rfl
  | journal js =>
    obtain ⟨m, -, h⟩ := Option.bind_eq_some_iff.1 h
    obtain ⟨-, h⟩ := Option.ite_none_right_eq_some.1 h
    obtain ⟨u₁, htx, rfl⟩ := Option.map_eq_some_iff.1 h
    have hafter := rowAfter_transaction (s := .journal js) rfl htx
    exact hafter

/-! ## The calls -/

/-- A call that sends a chunk, completes the upload or ends it. -/
def Call.watched : Call → Bool
  | .sending _ _ | .writing _ _ | .recording _ _ | .sendingLegacy _ | .progressing _ | .completing _
  | .ending _ => true
  | _ => false

/-- How a call comes to be under way. -/
inductive Enters (u : Upload) : Call → Prop
  | request {session : UploadSession} {request : Request} {c : Call}
    (hsession : u.session = some session) (hreceivable : session.receivable u.clock = true)
    (hc : u.requested session request = some c) : Enters u c
  | lock {chunk : CompletedUploadChunk} {now : Nat} (hcall : .sending chunk now ∈ u.calls) :
    Enters u (.writing chunk now)
  | written {chunk : CompletedUploadChunk} {now : Nat} (hcall : .writing chunk now ∈ u.calls) :
    Enters u (.recording chunk now)
  | writtenLegacy {range : UploadByteRange} (hcall : .sendingLegacy range ∈ u.calls) :
    Enters u (.progressing (range.end + 1))
  | failing : Enters u (.ending .failed)
  | other {c : Call} (hother : c.watched = false) : Enters u c

theorem Upload.mem_goOn {next c' : Call} (h : c' ∈ (u.goOn c next).calls) :
    c' ∈ u.calls ∨ c' = next := by
  rcases List.mem_cons.1 h with rfl | hmem
  · exact .inr rfl
  · exact .inl (List.mem_of_mem_erase hmem)

theorem Upload.mem_leave {c' : Call} (h : c' ∈ (u.leave c).calls) : c' ∈ u.calls :=
  List.mem_of_mem_erase h

/-- The calls after one went on to another. -/
theorem Upload.enters_goOn {next c' : Call} (hnext : Enters u next)
    (h : c' ∈ (u.goOn c next).calls) : c' ∈ u.calls ∨ Enters u c' := by
  rcases Upload.mem_goOn h with hmem | rfl
  · exact .inl hmem
  · exact .inr hnext

theorem Upload.calls_update {f : UploadSession → Option UploadSession} (h : u.update f = some u') :
    u'.calls = u.calls := by
  unfold Upload.update at h
  obtain ⟨session', -, rfl⟩ := Option.map_eq_some_iff.1 h
  rfl

theorem calls_transaction {fileId : String} {js : Journal.Statement}
    (h : u.inTransaction fileId js = some u') : u'.calls = u.calls := by
  unfold Upload.inTransaction at h
  split at h
  · obtain ⟨u₁, hupdate, rfl⟩ := Option.map_eq_some_iff.1 h
    have hcalls := Upload.calls_update hupdate
    exact hcalls
  · obtain ⟨-, h⟩ := Option.ite_none_right_eq_some.1 h
    obtain rfl := Option.some.inj h
    rfl
  · obtain rfl := Option.some.inj h
    rfl

theorem Upload.watched_found {finding : Finding} {now : Nat} (h : u.found now finding = some c) :
    c.watched = false := by
  unfold Upload.found at h
  split at h <;>
  · obtain ⟨-, h⟩ := Option.ite_none_right_eq_some.1 h
    obtain rfl := Option.some.inj h
    rfl

/-- Every call after a statement was under way before it, or has just come. -/
theorem enters_of_act (h : u.act s = some u') : ∀ c ∈ u'.calls, c ∈ u.calls ∨ Enters u c := by
  intro c hc
  cases s with
  | pass ms =>
    obtain rfl := Option.some.inj h
    exact .inl hc
  | stop c =>
    obtain rfl := Option.some.inj h
    exact .inl (Upload.mem_leave hc)
  | reserve new =>
    obtain ⟨-, h⟩ := Option.ite_none_left_eq_some.1 h
    obtain rfl := Option.some.inj h
    rcases List.mem_cons.1 hc with rfl | hmem
    · exact .inr (.other rfl)
    · exact .inl hmem
  | allocate now succeeds =>
    obtain ⟨-, h⟩ := Option.ite_none_right_eq_some.1 h
    split at h
    · obtain rfl := Option.some.inj h
      exact Upload.enters_goOn (.other rfl) hc
    · obtain rfl := Option.some.inj h
      exact Upload.enters_goOn .failing hc
  | activate now =>
    obtain ⟨-, h⟩ := Option.ite_none_right_eq_some.1 h
    obtain rfl := Option.some.inj h
    cases hupdate : (u.leave (.activating now)).update fun session => session.activate now with
    | none =>
      rw [hupdate] at hc
      exact Upload.enters_goOn .failing hc
    | some u' =>
      rw [hupdate, Option.getD_some, Upload.calls_update hupdate] at hc
      exact .inl (Upload.mem_leave hc)
  | read request =>
    obtain ⟨session, hsession, h⟩ := Option.bind_eq_some_iff.1 h
    obtain ⟨hreceivable, h⟩ := Option.ite_none_right_eq_some.1 h
    obtain ⟨c', hc', rfl⟩ := Option.map_eq_some_iff.1 h
    rcases List.mem_cons.1 hc with rfl | hmem
    · exact .inr (.request hsession hreceivable hc')
    · exact .inl hmem
  | lockChunk chunk now =>
    obtain ⟨session, -, h⟩ := Option.bind_eq_some_iff.1 h
    obtain ⟨hguard, h⟩ := Option.ite_none_right_eq_some.1 h
    simp only [Bool.and_eq_true, decide_eq_true_eq] at hguard
    obtain rfl := Option.some.inj h
    exact Upload.enters_goOn (.lock hguard.1.1) hc
  | writeChunk chunk now =>
    obtain ⟨hcall, h⟩ := Option.ite_none_right_eq_some.1 h
    obtain ⟨file, -, rfl⟩ := Option.map_eq_some_iff.1 h
    exact Upload.enters_goOn (.written hcall) hc
  | recordChunk chunk now | recordLegacy receivedBytes =>
    obtain ⟨-, h⟩ := Option.ite_none_right_eq_some.1 h
    rw [Upload.calls_update h] at hc
    exact .inl (Upload.mem_leave hc)
  | writeLegacy range =>
    obtain ⟨hcall, h⟩ := Option.ite_none_right_eq_some.1 h
    obtain ⟨file, -, rfl⟩ := Option.map_eq_some_iff.1 h
    exact Upload.enters_goOn (.writtenLegacy hcall) hc
  | beginCommit expectedChecksum =>
    obtain ⟨-, h⟩ := Option.ite_none_right_eq_some.1 h
    rw [Upload.calls_update h] at hc
    exact Upload.enters_goOn (.other rfl) hc
  | verify expectedChecksum actualChecksum =>
    obtain ⟨-, h⟩ := Option.ite_none_right_eq_some.1 h
    split at h
    · obtain rfl := Option.some.inj h
      exact Upload.enters_goOn (.other rfl) hc
    · split at h
      · obtain rfl := Option.some.inj h
        exact Upload.enters_goOn (.other rfl) hc
      · obtain rfl := Option.some.inj h
        refine Upload.enters_goOn ?_ hc
        split
        · exact .other rfl
        · exact .failing
  | prepare fileId =>
    obtain ⟨-, h⟩ := Option.ite_none_right_eq_some.1 h
    split at h
    · rw [Upload.calls_update h] at hc
      exact Upload.enters_goOn (.other rfl) hc
    · obtain ⟨-, h⟩ := Option.ite_none_right_eq_some.1 h
      obtain rfl := Option.some.inj h
      exact Upload.enters_goOn (.other rfl) hc
  | reject =>
    obtain ⟨-, h⟩ := Option.ite_none_right_eq_some.1 h
    obtain rfl := Option.some.inj h
    exact Upload.enters_goOn .failing hc
  | refuse | interrupted | removeStaging =>
    obtain ⟨-, h⟩ := Option.ite_none_right_eq_some.1 h
    obtain rfl := Option.some.inj h
    exact Upload.enters_goOn (.other rfl) hc
  | restore | markReleased | recoverStale now | expire now =>
    obtain ⟨-, h⟩ := Option.ite_none_right_eq_some.1 h
    rw [Upload.calls_update h] at hc
    exact .inl (Upload.mem_leave hc)
  | finish status =>
    obtain ⟨-, h⟩ := Option.ite_none_right_eq_some.1 h
    obtain rfl := Option.some.inj h
    cases hupdate : (u.goOn (.ending status) .cleaning).update fun session =>
        session.toTerminal u.clock status with
    | none =>
      rw [hupdate] at hc
      exact Upload.enters_goOn (.other rfl) hc
    | some u' =>
      rw [hupdate, Option.getD_some, Upload.calls_update hupdate] at hc
      exact Upload.enters_goOn (.other rfl) hc
  | find finding now =>
    obtain ⟨-, h⟩ := Option.ite_none_right_eq_some.1 h
    obtain ⟨c', hc', rfl⟩ := Option.map_eq_some_iff.1 h
    rcases List.mem_cons.1 hc with rfl | hmem
    · exact .inr (.other (Upload.watched_found hc'))
    · exact .inl hmem
  | dropRow | sweep now ttlMs =>
    obtain ⟨-, h⟩ := Option.ite_none_right_eq_some.1 h
    obtain rfl := Option.some.inj h
    exact .inl (Upload.mem_leave hc)
  | journal js =>
    obtain ⟨m, -, h⟩ := Option.bind_eq_some_iff.1 h
    obtain ⟨-, h⟩ := Option.ite_none_right_eq_some.1 h
    obtain ⟨u₁, htx, rfl⟩ := Option.map_eq_some_iff.1 h
    have hcalls := calls_transaction htx
    exact .inl (hcalls ▸ hc)
  | takeStaged hold | putBack hold =>
    obtain ⟨-, h⟩ := Option.ite_none_right_eq_some.1 h
    obtain rfl := Option.some.inj h
    exact .inl hc

end Staaash.Uploads
