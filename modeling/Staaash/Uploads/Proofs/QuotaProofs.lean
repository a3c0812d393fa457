import Staaash.Uploads.Quota
import Staaash.Uploads.Proofs.CallsProofs

/-!
# Proofs: the quota

The committed total is the sum over the file rows, by the triggers. An update of a session never holds
more of the quota than before, where no lease has run out, and what adds to the sum has checked it. A
file that is replaced at the revision it was found at still has the size it was found with.
-/

namespace Staaash.Uploads

open Staaash.Library
open Staaash.Journal (Docket)

variable {a a' : Account} {s : QuotaStatement} {session session' : UploadSession}
  {m : UploadMutation} {found : FoundFile} {file : StoredFile}

/-! ## The invariant -/

/-- What was found under an id is what is there, as long as the revision is the one that was found. -/
def Account.Knows (a : Account) (found : FoundFile) : Prop :=
  found.fileId ∈ a.fileIds ∧ ∀ file, a.files.get found.fileId = some file →
    found.storageRevision ≤ file.storageRevision ∧
      (file.storageRevision = found.storageRevision → file.sizeBytes = found.sizeBytes)

structure AccountInv (a : Account) : Prop where
  total : a.committedStorageBytes = some (a.files.sum (·.sizeBytes))
  ids : ∀ fileId file, a.files.get fileId = some file → fileId ∈ a.fileIds
  found : ∀ found ∈ a.found, a.Knows found
  replaces : ∀ mutationId m, a.mutations.get mutationId = some m →
    ∀ found, m.replaces = some found → found.fileId = m.fileId ∧ a.Knows found
  resumable : ∀ mutationId m, a.mutations.get mutationId = some m → m.sessionId ≠ none →
    m.reservedBytes = none
  linked : ∀ sessionId session mutationId, a.sessions.get sessionId = some session →
    session.storageMutationId = some mutationId →
    ∃ m, a.mutations.get mutationId = some m ∧ m.sizeBytes = session.totalSizeBytes

theorem accountInv_empty : AccountInv Account.empty where
  total := rfl
  ids fileId file h := by cases h
  found found h := by cases h
  replaces mutationId m h := by cases h
  resumable mutationId m h := by cases h
  linked sessionId session mutationId h := by cases h

/-! ## What an update of a session holds -/

theorem UploadSession.held_le (now : Nat) : session.held now ≤ session.totalSizeBytes := by
  unfold UploadSession.held
  split
  · exact Nat.le_refl _
  · exact Nat.zero_le _

theorem UploadSession.held_of_committing (h : session.status = .committing) (now : Nat) :
    session.held now = session.totalSizeBytes := by
  unfold UploadSession.held
  rw [if_pos (by simp [h])]

theorem UploadSession.held_of_terminal (h : session.terminal = true) (now : Nat) :
    session.held now = 0 := by
  unfold UploadSession.held activeUploadSessionStatuses
  rw [UploadSession.terminal_iff] at h
  rcases h with hs | hs | hs | hs <;> simp [hs]

/-- A session that is active, with its lease still running, holds all of its size. -/
theorem UploadSession.held_of_active {now : Nat}
    (h : session.status ∈ activeUploadSessionStatuses) (hlease : now < session.expiresAt) :
    session.held now = session.totalSizeBytes := by
  unfold UploadSession.held
  rw [if_pos (by simp [h, hlease])]

theorem UploadSession.held_mono {now now' : Nat} (h : now ≤ now') :
    session.held now' ≤ session.held now := by
  by_cases hcommitting : session.status = .committing
  · rw [UploadSession.held_of_committing hcommitting now]
    exact UploadSession.held_le now'
  · by_cases hlive : session.status ∈ activeUploadSessionStatuses ∧ now' < session.expiresAt
    · rw [UploadSession.held_of_active hlive.1 (Nat.lt_of_le_of_lt h hlive.2)]
      exact UploadSession.held_le _
    · have hnone : session.held now' = 0 := by
        unfold UploadSession.held
        rw [if_neg (by simpa [hcommitting] using hlive)]
      rw [hnone]
      exact Nat.zero_le _

/-- An update that neither lengthens what the session holds nor changes its size or its link. -/
structure Holds (now : Nat) (session session' : UploadSession) : Prop where
  held : session'.held now ≤ session.held now
  size : session'.totalSizeBytes = session.totalSizeBytes
  link : session'.storageMutationId = session.storageMutationId

theorem holds_of_held {now : Nat} (hfull : session.held now = session.totalSizeBytes)
    (hsize : session'.totalSizeBytes = session.totalSizeBytes)
    (hlink : session'.storageMutationId = session.storageMutationId) :
    Holds now session session' := by
  refine ⟨?_, hsize, hlink⟩
  rw [hfull, ← hsize]
  exact UploadSession.held_le now

theorem holds_of_terminal {now : Nat} (hterminal : session'.terminal = true)
    (hsize : session'.totalSizeBytes = session.totalSizeBytes)
    (hlink : session'.storageMutationId = session.storageMutationId) :
    Holds now session session' := by
  refine ⟨?_, hsize, hlink⟩
  rw [UploadSession.held_of_terminal hterminal]
  exact Nat.zero_le _

/-- Receiving a chunk leaves the lease as it is. -/
theorem holds_of_receiving {now : Nat}
    (hold : session.status ∈ receivableUploadSessionStatuses) (hnew : session'.status = .receiving)
    (hexpires : session'.expiresAt = session.expiresAt)
    (hsize : session'.totalSizeBytes = session.totalSizeBytes)
    (hlink : session'.storageMutationId = session.storageMutationId) :
    Holds now session session' := by
  refine ⟨?_, hsize, hlink⟩
  have hactive : session.status ∈ activeUploadSessionStatuses := List.mem_cons_of_mem _ hold
  by_cases hlease : now < session.expiresAt
  · rw [UploadSession.held_of_active hactive hlease, ← hsize]
    exact UploadSession.held_le now
  · have hnone : session'.held now = 0 := by
      unfold UploadSession.held
      rw [if_neg (by simp [hnew, hexpires, hlease])]
    rw [hnone]
    exact Nat.zero_le _

theorem UploadSession.mem_of_receivable {now : Nat} (h : session.receivable now = true) :
    session.status ∈ receivableUploadSessionStatuses :=
  of_decide_eq_true (Bool.and_eq_true_iff.1 h).1

theorem finish_holds {now : Nat} {status : SessionStatus}
    (hstatus : status = .failed ∨ status = .cancelled)
    (h : session.toTerminal now status = some session') : Holds now session session' := by
  obtain ⟨-, hrow⟩ := Option.ite_none_left_eq_some.1 h
  obtain rfl := Option.some.inj hrow
  refine holds_of_terminal (UploadSession.terminal_iff.2 ?_) rfl rfl
  rcases hstatus with rfl | rfl
  · exact .inr (.inl rfl)
  · exact .inr (.inr (.inl rfl))

/-- One case for each update. -/
theorem SessionCall.holds {call : SessionCall} {sessionId : String} (hget : a.sessions.get sessionId = some session)
    (hok : LeasesInTime a (.session sessionId call))
    (h : call.update session a.clock = some session') : Holds a.clock session session' := by
  cases call with
  | activate now =>
    obtain ⟨-, h⟩ := Option.ite_none_right_eq_some.1 h
    obtain ⟨hstatus, hrow⟩ := Option.ite_none_right_eq_some.1 h
    obtain rfl := Option.some.inj hrow
    exact holds_of_held (UploadSession.held_of_active (by simp [hstatus, activeUploadSessionStatuses])
      (hok session hget hstatus)) rfl rfl
  | recordChunk chunk now =>
    obtain ⟨-, h⟩ := Option.ite_none_right_eq_some.1 h
    obtain ⟨hguard, hrow⟩ := Option.ite_none_right_eq_some.1 h
    obtain rfl := Option.some.inj hrow
    exact holds_of_receiving (UploadSession.mem_of_receivable (Bool.and_eq_true_iff.1 hguard).1)
      rfl rfl rfl rfl
  | updateProgress receivedBytes =>
    obtain ⟨hreceivable, hrow⟩ := Option.ite_none_right_eq_some.1 h
    obtain rfl := Option.some.inj hrow
    exact holds_of_receiving (UploadSession.mem_of_receivable hreceivable) rfl rfl rfl rfl
  | beginCommit expectedChecksum now =>
    obtain ⟨-, h⟩ := Option.ite_none_right_eq_some.1 h
    obtain ⟨hreceivable, hrow⟩ := Option.ite_none_right_eq_some.1 h
    obtain rfl := Option.some.inj hrow
    exact holds_of_held (UploadSession.held_of_active
      (List.mem_cons_of_mem _ (UploadSession.mem_of_receivable hreceivable))
      (hok session hget hreceivable)) rfl rfl
  | restore =>
    obtain ⟨hguard, hrow⟩ := Option.ite_none_right_eq_some.1 h
    simp only [Bool.and_eq_true, decide_eq_true_eq] at hguard
    obtain rfl := Option.some.inj hrow
    exact holds_of_held (UploadSession.held_of_committing hguard.1.1 _) rfl rfl
  | fail => exact finish_holds (.inl rfl) h
  | cancel => exact finish_holds (.inr rfl) h
  | markReleased =>
    obtain ⟨-, hrow⟩ := Option.ite_none_right_eq_some.1 h
    obtain rfl := Option.some.inj hrow
    exact ⟨Nat.le_refl _, rfl, rfl⟩
  | recoverStale now =>
    obtain ⟨-, h⟩ := Option.ite_none_right_eq_some.1 h
    obtain ⟨hguard, hrow⟩ := Option.ite_none_right_eq_some.1 h
    unfold UploadSession.staleCommitting at hguard
    simp only [Bool.and_eq_true, decide_eq_true_eq] at hguard
    obtain rfl := Option.some.inj hrow
    exact holds_of_held (UploadSession.held_of_committing hguard.1.1.1.1 _) rfl rfl
  | expire now =>
    obtain ⟨-, h⟩ := Option.ite_none_right_eq_some.1 h
    obtain ⟨-, hrow⟩ := Option.ite_none_right_eq_some.1 h
    obtain rfl := Option.some.inj hrow
    exact holds_of_terminal (UploadSession.terminal_iff.2 (.inr (.inr (.inr rfl)))) rfl rfl

/-! ## What the pieces of a statement keep -/

/-- A row of a session is written; where it is linked, the mutation commits its size. -/
theorem AccountInv.withSession (ha : AccountInv a) {sessionId : String}
    (hlinked : ∀ mutationId, session'.storageMutationId = some mutationId →
      ∃ m, a.mutations.get mutationId = some m ∧ m.sizeBytes = session'.totalSizeBytes) :
    AccountInv { a with sessions := a.sessions.set sessionId session' } := by
  refine ⟨ha.total, ha.ids, ha.found, ha.replaces, ha.resumable, ?_⟩
  intro sessionId' session mutationId hget hlink
  simp only [OrderedMap.get_set] at hget
  split at hget
  · cases hget
    exact hlinked mutationId hlink
  · exact ha.linked sessionId' session mutationId hget hlink

/-- The link stays as it is, or goes. -/
theorem AccountInv.linked_of_kept (ha : AccountInv a) {sessionId : String}
    (hget : a.sessions.get sessionId = some session)
    (hsize : session'.totalSizeBytes = session.totalSizeBytes)
    (hlink : session'.storageMutationId = session.storageMutationId ∨
      session'.storageMutationId = none) (mutationId : String)
    (h : session'.storageMutationId = some mutationId) :
    ∃ m, a.mutations.get mutationId = some m ∧ m.sizeBytes = session'.totalSizeBytes := by
  rcases hlink with hsame | hnone
  · rw [hsize]
    exact ha.linked sessionId session mutationId hget (hsame ▸ h)
  · rw [hnone] at h
    cases h

theorem used_withSession {sessionId : String} (hget : a.sessions.get sessionId = some session)
    (hheld : session'.held a.clock ≤ session.held a.clock) :
    ({ a with sessions := a.sessions.set sessionId session' } : Account).used ≤ a.used := by
  have hsum := OrderedMap.sum_set_of_get_eq_some (b := session')
    (f := fun session => session.held a.clock) hget
  unfold Account.used Account.reservedAt
  dsimp only
  omega

/-- A row of a mutation changes. -/
theorem AccountInv.withMutation (ha : AccountInv a) {mutationId : String} {m' : UploadMutation}
    (hget : a.mutations.get mutationId = some m) (hfile : m'.fileId = m.fileId)
    (hsize : m'.sizeBytes = m.sizeBytes) (hreplaces : m'.replaces = m.replaces)
    (hsession : m'.sessionId = m.sessionId)
    (hreserved : m'.reservedBytes = m.reservedBytes ∨ m'.reservedBytes = none) :
    AccountInv { a with mutations := a.mutations.set mutationId m' } := by
  refine ⟨ha.total, ha.ids, ha.found, ?_, ?_, ?_⟩
  · intro mutationId' m'' hget' found hfound
    simp only [OrderedMap.get_set] at hget'
    by_cases heq : mutationId' = mutationId
    · rw [if_pos heq] at hget'
      cases hget'
      rw [hfile]
      exact ha.replaces mutationId m hget found (hreplaces ▸ hfound)
    · rw [if_neg heq] at hget'
      exact ha.replaces mutationId' m'' hget' found hfound
  · intro mutationId' m'' hget' hsome
    simp only [OrderedMap.get_set] at hget'
    by_cases heq : mutationId' = mutationId
    · rw [if_pos heq] at hget'
      cases hget'
      rcases hreserved with hsame | hnone
      · rw [hsame]
        exact ha.resumable mutationId m hget (hsession ▸ hsome)
      · exact hnone
    · rw [if_neg heq] at hget'
      exact ha.resumable mutationId' m'' hget' hsome
  · intro sessionId session mutationId' hgetSession hlinked
    obtain ⟨m₀, hm₀, hm₀size⟩ := ha.linked sessionId session mutationId' hgetSession hlinked
    simp only [OrderedMap.get_set]
    by_cases heq : mutationId' = mutationId
    · subst heq
      rw [hget] at hm₀
      cases hm₀
      exact ⟨m', if_pos rfl, hsize.trans hm₀size⟩
    · exact ⟨m₀, (if_neg heq).trans hm₀, hm₀size⟩

/-- A mutation is prepared. -/
theorem AccountInv.withNewMutation (ha : AccountInv a) {mutationId : String}
    (hnew : a.mutations.get mutationId = none)
    (hreplaces : ∀ found, m.replaces = some found → found.fileId = m.fileId ∧ a.Knows found)
    (hreserved : m.sessionId ≠ none → m.reservedBytes = none) :
    AccountInv { a with mutations := a.mutations.set mutationId m } := by
  refine ⟨ha.total, ha.ids, ha.found, ?_, ?_, ?_⟩
  · intro mutationId' m' hget' found hfound
    simp only [OrderedMap.get_set] at hget'
    by_cases heq : mutationId' = mutationId
    · rw [if_pos heq] at hget'
      cases hget'
      exact hreplaces found hfound
    · rw [if_neg heq] at hget'
      exact ha.replaces mutationId' m' hget' found hfound
  · intro mutationId' m' hget' hsome
    simp only [OrderedMap.get_set] at hget'
    by_cases heq : mutationId' = mutationId
    · rw [if_pos heq] at hget'
      cases hget'
      exact hreserved hsome
    · rw [if_neg heq] at hget'
      exact ha.resumable mutationId' m' hget' hsome
  · intro sessionId session mutationId' hgetSession hlinked
    obtain ⟨m₀, hm₀, hm₀size⟩ := ha.linked sessionId session mutationId' hgetSession hlinked
    refine ⟨m₀, ?_, hm₀size⟩
    simp only [OrderedMap.get_set]
    rw [if_neg, hm₀]
    rintro rfl
    rw [hnew] at hm₀
    cases hm₀

/-- The rows of `File` change together with the total beside them. -/
theorem AccountInv.withFiles (ha : AccountInv a) {files : OrderedMap String StoredFile}
    {fileIds : List String} {committedStorageBytes : Option Nat}
    (htotal : committedStorageBytes = some (files.sum (·.sizeBytes)))
    (hids : ∀ fileId file, files.get fileId = some file → fileId ∈ fileIds)
    (hknows : ∀ found, a.Knows found → ({ a with files, fileIds } : Account).Knows found) :
    AccountInv { a with files, fileIds, committedStorageBytes } where
  total := htotal
  ids := hids
  found found hfound := hknows found (ha.found found hfound)
  replaces mutationId m hget found hfound :=
    ⟨(ha.replaces mutationId m hget found hfound).1,
      hknows found (ha.replaces mutationId m hget found hfound).2⟩
  resumable := ha.resumable
  linked := ha.linked

theorem Account.Knows.withFile (hknows : a.Knows found) {fileId : String} {file' : StoredFile}
    (hget : a.files.get fileId = some file) (hrevision : file.storageRevision < file'.storageRevision) :
    ({ a with files := a.files.set fileId file' } : Account).Knows found := by
  refine ⟨hknows.1, fun file'' hget' => ?_⟩
  simp only [OrderedMap.get_set] at hget'
  by_cases heq : found.fileId = fileId
  · rw [if_pos heq] at hget'
    cases hget'
    have hle := (hknows.2 file (heq ▸ hget)).1
    exact ⟨by omega, fun h => by omega⟩
  · rw [if_neg heq] at hget'
    exact hknows.2 file'' hget'

theorem Account.Knows.withNewFile (hknows : a.Knows found) {fileId : String}
    (hnew : fileId ∉ a.fileIds) (file' : StoredFile) :
    ({ a with
      files := a.files.set fileId file'
      fileIds := fileId :: a.fileIds } : Account).Knows found := by
  refine ⟨List.mem_cons_of_mem _ hknows.1, fun file'' hget' => ?_⟩
  simp only [OrderedMap.get_set] at hget'
  rw [if_neg (by rintro rfl; exact hnew hknows.1)] at hget'
  exact hknows.2 file'' hget'

/-! ## The file rows and their total -/

theorem Account.of_addUsage {newBytes oldBytes : Nat} (h : a.addUsage newBytes oldBytes = some a') :
    ∃ committed, a.committedStorageBytes = some committed ∧ oldBytes ≤ committed + newBytes ∧
      a' = { a with committedStorageBytes := some (committed + newBytes - oldBytes) } := by
  obtain ⟨committed, hcommitted, hguard⟩ := Option.bind_eq_some_iff.1 h
  obtain ⟨hle, hrow⟩ := Option.ite_none_right_eq_some.1 hguard
  exact ⟨committed, hcommitted, hle, (Option.some.inj hrow).symm⟩

/-- What the metadata operation of an upload does: the new size takes the place of the size that was
found. -/
structure Writes (a : Account) (m : UploadMutation) (a' : Account) : Prop where
  inv : AccountInv a'
  committed : a'.committedStorageBytes.getD 0 + m.replacedBytes =
    a.committedStorageBytes.getD 0 + m.sizeBytes
  sessions : a'.sessions = a.sessions
  mutations : a'.mutations = a.mutations
  clock : a'.clock = a.clock
  limit : a'.storageLimitBytes = a.storageLimitBytes

theorem AccountInv.writeFile (ha : AccountInv a)
    (hreplaces : ∀ found, m.replaces = some found → found.fileId = m.fileId ∧ a.Knows found)
    (h : a.writeFile m = some a') : Writes a m a' := by
  unfold Account.writeFile at h
  cases hfound : m.replaces with
  | none =>
    rw [hfound] at h
    obtain ⟨hnew, h⟩ := Option.ite_none_left_eq_some.1 h
    obtain ⟨committed, hcommitted, -, rfl⟩ := Account.of_addUsage h
    have hget : a.files.get m.fileId = none := by
      by_contra hne
      obtain ⟨file, hfile⟩ := Option.ne_none_iff_exists'.1 hne
      exact hnew (ha.ids m.fileId file hfile)
    have htotal := OrderedMap.sum_set_of_get_eq_none (b := (⟨m.sizeBytes, 0⟩ : StoredFile))
      (f := fun file => file.sizeBytes) hget
    have hold := Option.some.inj (hcommitted.symm.trans ha.total)
    refine ⟨ha.withFiles (congrArg some (by dsimp only at htotal ⊢; omega)) ?_ fun found hknows =>
      hknows.withNewFile hnew _, ?_, rfl, rfl, rfl, rfl⟩
    · intro fileId file hget'
      rw [OrderedMap.get_set] at hget'
      by_cases heq : fileId = m.fileId
      · rw [heq]
        exact List.mem_cons_self
      · rw [if_neg heq] at hget'
        exact List.mem_cons_of_mem _ (ha.ids fileId file hget')
    · simp [UploadMutation.replacedBytes, hfound, show a.committedStorageBytes = some committed from
        hcommitted]
  | some found =>
    rw [hfound] at h
    obtain ⟨file, hget, h⟩ := Option.bind_eq_some_iff.1 h
    obtain ⟨hrevision, h⟩ := Option.ite_none_right_eq_some.1 h
    obtain ⟨committed, hcommitted, hle, rfl⟩ := Account.of_addUsage h
    obtain ⟨hid, hknows⟩ := hreplaces found hfound
    have hsize : file.sizeBytes = found.sizeBytes := (hknows.2 file (hid ▸ hget)).2 hrevision
    have htotal := OrderedMap.sum_set_of_get_eq_some
      (b := (⟨m.sizeBytes, file.storageRevision + 1⟩ : StoredFile))
      (f := fun file => file.sizeBytes) hget
    have hold := Option.some.inj (hcommitted.symm.trans ha.total)
    refine ⟨ha.withFiles (congrArg some (by dsimp only at htotal ⊢; omega)) ?_ fun found hknows =>
      hknows.withFile hget (Nat.lt_succ_self _), ?_, rfl, rfl, rfl, rfl⟩
    · intro fileId file' hget'
      rw [OrderedMap.get_set] at hget'
      by_cases heq : fileId = m.fileId
      · exact heq ▸ ha.ids m.fileId file hget
      · rw [if_neg heq] at hget'
        exact ha.ids fileId file' hget'
    · have hreplaced : m.replacedBytes = found.sizeBytes := by
        simp [UploadMutation.replacedBytes, hfound]
      rw [hreplaced, show a.committedStorageBytes = some committed from hcommitted]
      simp only [Option.getD_some]
      omega

theorem AccountInv.deleteFiles (ha : AccountInv a) {fileIds : List String}
    (h : ({ a with files := a.files.filterKeys (· ∉ fileIds) } : Account).addUsage 0
      ((a.files.filterKeys (· ∈ fileIds)).sum (·.sizeBytes)) = some a') :
    AccountInv a' ∧ a'.used ≤ a.used ∧ a'.storageLimitBytes = a.storageLimitBytes := by
  obtain ⟨committed, hcommitted, hle, rfl⟩ := Account.of_addUsage h
  have hcommitted' : a.committedStorageBytes = some committed := hcommitted
  have hsplit := OrderedMap.sum_filterKeys (m := a.files) (f := fun file => file.sizeBytes)
    (fun fileId => decide (fileId ∈ fileIds))
  have hnot : (fun fileId => !decide (fileId ∈ fileIds)) =
      fun fileId => decide (fileId ∉ fileIds) := by
    funext fileId
    simp
  rw [hnot] at hsplit
  have hold := Option.some.inj (hcommitted'.symm.trans ha.total)
  have hgone : ∀ {fileId : String} {file : StoredFile},
      (a.files.filterKeys (· ∉ fileIds)).get fileId = some file → a.files.get fileId = some file := by
    intro fileId file hget
    rw [OrderedMap.get_filterKeys] at hget
    split at hget
    · exact hget
    · cases hget
  refine ⟨ha.withFiles (congrArg some (by dsimp only; omega)) (fun fileId file hget => ha.ids fileId file (hgone hget))
    fun found hknows => ⟨hknows.1, fun file hget => hknows.2 file (hgone hget)⟩, ?_, rfl⟩
  unfold Account.used Account.reservedAt
  rw [hcommitted']
  simp only [Option.getD_some]
  omega

/-! ## What a statement keeps -/

/-- The invariant, and a sum that has not grown, or only to the limit. -/
structure Keeps (a a' : Account) : Prop where
  inv : AccountInv a'
  bounded : a'.used ≤ a.used ∨ ∀ limit, a'.enforcedLimit = some limit → a'.used ≤ limit

theorem Account.roomFor_le {now newBytes oldBytes limit : Nat}
    (h : a.roomFor now newBytes oldBytes = true) (hlimit : a.enforcedLimit = some limit) :
    a.committedStorageBytes.getD 0 + a.reservedAt now + newBytes ≤ limit + oldBytes := by
  unfold Account.roomFor at h
  obtain ⟨committed, hcommitted, hroom⟩ := (Option.any_eq_true _ _).1 h
  rw [hlimit] at hroom
  rw [hcommitted]
  simpa using hroom

theorem Account.reservedAt_mono {now now' : Nat} (h : now ≤ now') :
    a.reservedAt now' ≤ a.reservedAt now := by
  have := OrderedMap.sum_le_sum (m := a.sessions) (f := fun session => session.held now')
    (g := fun session => session.held now) fun session => UploadSession.held_mono h
  unfold Account.reservedAt
  omega

theorem used_withMutation {mutationId : String} {m' : UploadMutation}
    (hget : a.mutations.get mutationId = some m) :
    ({ a with mutations := a.mutations.set mutationId m' } : Account).used + m.held =
      a.used + m'.held := by
  have hsum := OrderedMap.sum_set_of_get_eq_some (b := m') (f := UploadMutation.held) hget
  unfold Account.used Account.reservedAt
  dsimp only
  omega

theorem used_withNewMutation {mutationId : String} (hnew : a.mutations.get mutationId = none) :
    ({ a with mutations := a.mutations.set mutationId m } : Account).used = a.used + m.held := by
  have hsum := OrderedMap.sum_set_of_get_eq_none (b := m) (f := UploadMutation.held) hnew
  unfold Account.used Account.reservedAt
  dsimp only
  omega

/-- The row of the mutation, before the rest of its transaction. -/
theorem AccountInv.after (ha : AccountInv a) {mutationId : String}
    (hget : a.mutations.get mutationId = some m) (s : Journal.Statement) :
    AccountInv { a with mutations := a.mutations.set mutationId (m.after s) } := by
  refine ha.withMutation hget rfl rfl rfl rfl ?_
  unfold UploadMutation.after
  split
  · exact .inr rfl
  · exact .inl rfl

/-- The metadata commit of a direct upload: the reservation goes, and the sum is checked once more. -/
theorem AccountInv.commitDirect (ha : AccountInv a)
    (hreplaces : ∀ found, m.replaces = some found → found.fileId = m.fileId ∧ a.Knows found)
    (hroom : a.roomFor a.clock m.sizeBytes m.replacedBytes = true)
    (h : a.writeFile m = some a') : Keeps a a' := by
  have hwrites := ha.writeFile hreplaces h
  refine ⟨hwrites.inv, .inr fun limit hlimit => ?_⟩
  have hlimit' : a.enforcedLimit = some limit := by
    unfold Account.enforcedLimit at hlimit ⊢
    rwa [hwrites.limit] at hlimit
  have hle := Account.roomFor_le hroom hlimit'
  have hcommitted := hwrites.committed
  have hreserved : a'.reservedAt a'.clock = a.reservedAt a.clock := by
    unfold Account.reservedAt
    rw [hwrites.sessions, hwrites.mutations, hwrites.clock]
  unfold Account.used
  omega

/-- The metadata commit of a session: its bytes move from the session to the file. -/
theorem AccountInv.commitSession (ha : AccountInv a)
    (hreplaces : ∀ found, m.replaces = some found → found.fileId = m.fileId ∧ a.Knows found)
    {sessionId mutationId : String} {now : Nat}
    (hlinked : ∀ session, a.sessions.get sessionId = some session →
      session.storageMutationId = some mutationId → m.sizeBytes = session.totalSizeBytes)
    (h : ((a.writeFile m).bind fun a => ((a.sessions.get sessionId).bind fun session =>
      session.complete now mutationId m.fileId).map fun session =>
        { a with sessions := a.sessions.set sessionId session }) = some a') :
    AccountInv a' ∧ a'.used ≤ a.used := by
  obtain ⟨b, hwrite, h⟩ := Option.bind_eq_some_iff.1 h
  obtain ⟨session', hcomplete, rfl⟩ := Option.map_eq_some_iff.1 h
  obtain ⟨session, hget, hrow⟩ := Option.bind_eq_some_iff.1 hcomplete
  obtain ⟨hguard, hrow⟩ := Option.ite_none_right_eq_some.1 hrow
  simp only [Bool.and_eq_true, decide_eq_true_eq] at hguard
  have hwrites := ha.writeFile hreplaces hwrite
  have hsize := hlinked session (hwrites.sessions ▸ hget) hguard.2
  obtain rfl := Option.some.inj hrow
  refine ⟨hwrites.inv.withSession (hwrites.inv.linked_of_kept hget rfl (.inl rfl)), ?_⟩
  have hsum := OrderedMap.sum_set_of_get_eq_some (f := fun session => session.held b.clock)
    (b := { session with
      status := .completed, terminalAt := some now, stagingReleasedAt := some now,
      committedFileId := some m.fileId, completedChunks := [] }) hget
  have hheld : session.held b.clock = session.totalSizeBytes :=
    UploadSession.held_of_committing hguard.1.1 _
  have hnone : ({ session with
      status := .completed, terminalAt := some now, stagingReleasedAt := some now,
      committedFileId := some m.fileId, completedChunks := [] } : UploadSession).held b.clock = 0 :=
    UploadSession.held_of_terminal (UploadSession.terminal_iff.2 (.inl rfl)) b.clock
  have hcommitted := hwrites.committed
  rw [hnone, hheld, hwrites.sessions, hwrites.clock] at hsum
  unfold Account.used Account.reservedAt
  dsimp only
  rw [hwrites.mutations, hwrites.sessions, hwrites.clock]
  omega

theorem UploadSession.abort_holds (session : UploadSession) (now clock : Nat) (mutationId : String) :
    (session.abort now mutationId).held clock ≤ session.held clock ∧
      (session.abort now mutationId).totalSizeBytes = session.totalSizeBytes ∧
      ((session.abort now mutationId).storageMutationId = session.storageMutationId ∨
        (session.abort now mutationId).storageMutationId = none) := by
  unfold UploadSession.abort
  split
  · refine ⟨?_, rfl, .inr rfl⟩
    rw [UploadSession.held_of_terminal (UploadSession.terminal_iff.2 (.inr (.inl rfl)))]
    exact Nat.zero_le _
  · exact ⟨Nat.le_refl _, rfl, .inl rfl⟩

theorem AccountInv.journal (ha : AccountInv a) {mutationId : String} {s : Journal.Statement}
    (hget : a.mutations.get mutationId = some m)
    (h : ({ a with mutations := a.mutations.set mutationId (m.after s) } : Account).callback
      mutationId m s = some a') : Keeps a a' := by
  have hinv := ha.after hget s
  have hused : ({ a with mutations := a.mutations.set mutationId (m.after s) } : Account).used + m.held =
      a.used + (m.after s).held := used_withMutation hget
  have hheld : (m.after s).held ≤ m.held := by
    unfold UploadMutation.after UploadMutation.held
    split <;> simp
  have hplain : Keeps a { a with mutations := a.mutations.set mutationId (m.after s) } :=
    ⟨hinv, .inl (by omega)⟩
  have hreplaces := ha.replaces mutationId m hget
  cases s with
  | byHolder hold deed now =>
    cases deed with
    | commit =>
      simp only [Account.callback] at h
      cases hsession : m.sessionId with
      | none =>
        rw [hsession] at h
        obtain ⟨hroom, hwrite⟩ := Option.ite_none_right_eq_some.1 h
        have hkeeps := hinv.commitDirect hreplaces hroom hwrite
        refine ⟨hkeeps.inv, hkeeps.bounded.imp_left fun hle => ?_⟩
        omega
      | some sessionId =>
        rw [hsession] at h
        obtain ⟨hinv', hle⟩ := hinv.commitSession hreplaces (fun session hgetSession hlink => by
          obtain ⟨m', hm', hsize⟩ := ha.linked sessionId session mutationId hgetSession hlink
          rw [hget] at hm'
          cases hm'
          exact hsize) h
        exact ⟨hinv', .inl (by omega)⟩
    | abort =>
      simp only [Account.callback] at h
      split at h
      · obtain rfl := Option.some.inj h
        exact hplain
      · rename_i sessionId session hfound
        obtain ⟨sessionId', -, hmap⟩ := Option.bind_eq_some_iff.1 hfound
        obtain ⟨session', hgetSession, heq⟩ := Option.map_eq_some_iff.1 hmap
        cases heq
        obtain rfl := Option.some.inj h
        obtain ⟨hholds, hsize, hlink⟩ := session.abort_holds now a.clock mutationId
        have hle := used_withSession (a := { a with
          mutations := a.mutations.set mutationId (m.after (.byHolder hold .abort now)) })
          hgetSession hholds
        exact ⟨hinv.withSession (hinv.linked_of_kept hgetSession hsize hlink),
          .inl (Nat.le_trans hle (by omega))⟩
    | _ =>
      obtain rfl := Option.some.inj h
      exact hplain
  | _ =>
    obtain rfl := Option.some.inj h
    exact hplain

theorem AccountInv.knows_of_asFound (ha : AccountInv a) {fileId : String}
    {replaces : Option FoundFile} (h : a.asFound fileId replaces = true) :
    ∀ found, replaces = some found → found.fileId = fileId ∧ a.Knows found := by
  rintro found rfl
  unfold Account.asFound at h
  simp only [Bool.and_eq_true, decide_eq_true_eq] at h
  exact ⟨h.1.2, ha.found found h.1.1⟩

theorem AccountInv.act (ha : AccountInv a) (hok : LeasesInTime a s) (h : a.act s = some a') :
    Keeps a a' := by
  cases s with
  | pass ms =>
    obtain rfl := Option.some.inj h
    refine ⟨⟨ha.total, ha.ids, ha.found, ha.replaces, ha.resumable, ha.linked⟩, .inl ?_⟩
    exact Nat.add_le_add_left (Account.reservedAt_mono (Nat.le_add_right _ _)) _
  | setLimit storageLimitBytes =>
    obtain rfl := Option.some.inj h
    exact ⟨⟨ha.total, ha.ids, ha.found, ha.replaces, ha.resumable, ha.linked⟩,
      .inl (Nat.le_refl _)⟩
  | reserve sessionId new startedAt now admits =>
    obtain ⟨hguard, h⟩ := Option.ite_none_right_eq_some.1 h
    simp only [Bool.and_eq_true, Bool.not_eq_true', decide_eq_true_eq,
      OrderedMap.has_eq_false_iff] at hguard
    obtain ⟨⟨⟨⟨hstarted, -⟩, -⟩, hnew⟩, hroom⟩ := hguard
    obtain rfl := Option.some.inj h
    refine ⟨ha.withSession fun mutationId hlink => ?_, .inr fun limit hlimit => ?_⟩
    · cases hlink
    · have hle := Account.roomFor_le hroom hlimit
      have hmono := Account.reservedAt_mono (a := a) hstarted
      have hsum := OrderedMap.sum_set_of_get_eq_none (b := new.row now)
        (f := fun session => session.held a.clock) hnew
      have hheld : (new.row now).held a.clock ≤ new.totalSizeBytes := UploadSession.held_le _
      unfold Account.used Account.reservedAt at *
      dsimp only at *
      omega
  | session sessionId call =>
    obtain ⟨session', hbind, rfl⟩ := Option.map_eq_some_iff.1 h
    obtain ⟨session, hget, hupdate⟩ := Option.bind_eq_some_iff.1 hbind
    have hholds := SessionCall.holds hget hok hupdate
    exact ⟨ha.withSession (ha.linked_of_kept hget hholds.size (.inl hholds.link)),
      .inl (used_withSession hget hholds.held)⟩
  | dropSession sessionId =>
    obtain ⟨-, h⟩ := Option.ite_none_right_eq_some.1 h
    obtain rfl := Option.some.inj h
    refine ⟨⟨ha.total, ha.ids, ha.found, ha.replaces, ha.resumable, ?_⟩, .inl ?_⟩
    · intro sessionId' session mutationId hget hlinked
      rw [OrderedMap.get_filterKeys] at hget
      split at hget
      · exact ha.linked sessionId' session mutationId hget hlinked
      · cases hget
    · have hsplit := OrderedMap.sum_filterKeys (m := a.sessions)
        (f := fun session => session.held a.clock) fun sessionId' => decide (sessionId' ≠ sessionId)
      unfold Account.used Account.reservedAt
      dsimp only
      omega
  | findFile fileId =>
    obtain ⟨file, hget, rfl⟩ := Option.map_eq_some_iff.1 h
    refine ⟨⟨ha.total, ha.ids, fun found hfound => ?_, ha.replaces, ha.resumable, ha.linked⟩,
      .inl (Nat.le_refl _)⟩
    rcases List.mem_cons.1 hfound with rfl | hmem
    · refine ⟨ha.ids fileId file hget, fun file' hget' => ?_⟩
      obtain rfl := Option.some.inj (hget.symm.trans hget')
      exact ⟨Nat.le_refl _, fun _ => rfl⟩
    · exact ha.found found hmem
  | prepareDirect mutationId fileId sizeBytes replaces =>
    obtain ⟨hguard, h⟩ := Option.ite_none_right_eq_some.1 h
    simp only [Bool.and_eq_true, Bool.or_eq_true, Bool.not_eq_true', decide_eq_true_eq,
      OrderedMap.has_eq_false_iff] at hguard
    obtain ⟨⟨hroom, hnew⟩, hfound⟩ := hguard
    obtain rfl := Option.some.inj h
    refine ⟨ha.withNewMutation hnew (ha.knows_of_asFound hfound) fun hsome => absurd rfl hsome, ?_⟩
    rw [used_withNewMutation hnew]
    rcases hroom with hzero | hroom
    · exact .inl (by simp [UploadMutation.held, hzero])
    · refine .inr fun limit hlimit => ?_
      exact Account.roomFor_le hroom hlimit
  | prepareResumable sessionId fileId replaces =>
    obtain ⟨session, hget, h⟩ := Option.bind_eq_some_iff.1 h
    obtain ⟨hguard, h⟩ := Option.ite_none_right_eq_some.1 h
    simp only [Bool.and_eq_true, Bool.not_eq_true', OrderedMap.has_eq_false_iff] at hguard
    obtain ⟨linked, hlink, rfl⟩ := Option.map_eq_some_iff.1 h
    obtain ⟨-, hrow⟩ := Option.ite_none_right_eq_some.1 hlink
    obtain rfl := Option.some.inj hrow
    let m : UploadMutation :=
      ⟨.prepared, fileId, session.totalSizeBytes, replaces, some sessionId, none⟩
    have hinv := ha.withNewMutation (m := m) hguard.1 (ha.knows_of_asFound hguard.2) fun _ => rfl
    refine ⟨hinv.withSession fun mutationId hlink => ?_, .inl ?_⟩
    · cases hlink
      exact ⟨m, by rw [OrderedMap.get_set, if_pos rfl], rfl⟩
    · have hheld : ({ session with
          storageMutationId := some ("resumable-" ++ sessionId) } : UploadSession).held a.clock ≤
          session.held a.clock := Nat.le_refl _
      have hle := used_withSession
        (a := { a with mutations := a.mutations.set ("resumable-" ++ sessionId) m }) hget hheld
      have hused := used_withNewMutation (m := m) hguard.1
      have hnone : m.held = 0 := rfl
      rw [hnone, Nat.add_zero] at hused
      exact Nat.le_trans hle (Nat.le_of_eq hused)
  | journal mutationId s =>
    obtain ⟨m, hget, h⟩ := Option.bind_eq_some_iff.1 h
    obtain ⟨-, h⟩ := Option.ite_none_right_eq_some.1 h
    exact ha.journal hget h
  | reviseFile fileId =>
    obtain ⟨file, hget, rfl⟩ := Option.map_eq_some_iff.1 h
    have htotal := OrderedMap.sum_set_of_get_eq_some
      (b := { file with storageRevision := file.storageRevision + 1 })
      (f := fun file => file.sizeBytes) hget
    refine ⟨ha.withFiles (ha.total.trans (congrArg some (by dsimp only at htotal; omega))) ?_
      fun found hknows => hknows.withFile hget (Nat.lt_succ_self _), .inl (Nat.le_refl _)⟩
    intro fileId' file' hget'
    rw [OrderedMap.get_set] at hget'
    by_cases heq : fileId' = fileId
    · exact heq ▸ ha.ids fileId file hget
    · rw [if_neg heq] at hget'
      exact ha.ids fileId' file' hget'
  | deleteFiles fileIds =>
    obtain ⟨hinv, hle, -⟩ := ha.deleteFiles h
    exact ⟨hinv, .inl hle⟩
  | audit =>
    obtain ⟨hwrong, -⟩ := Option.ite_none_left_eq_some.1 h
    exact absurd ha.total hwrong

/-! ## Runs -/

theorem AccountInv.step (ha : AccountInv a) (hok : LeasesInTime a s) : Keeps a (a.step s) := by
  unfold Account.step
  cases hact : a.act s with
  | none => exact ⟨ha, .inl (Nat.le_refl _)⟩
  | some a' => exact ha.act hok hact

/-- The statements that only free space do not look at the limit. -/
theorem frees_anyway (a : Account) (hfrees : s.frees = true) (storageLimitBytes : Option Nat) :
    ({ a with storageLimitBytes } : Account).act s =
      (a.act s).map fun a' => { a' with storageLimitBytes } := by
  cases s with
  | pass ms => rfl
  | session sessionId call =>
    simp only [Account.act, Option.map_map]
    rfl
  | dropSession sessionId =>
    simp only [Account.act, apply_ite (Option.map _), Option.map_some, Option.map_none]
  | reviseFile fileId =>
    simp only [Account.act, Option.map_map]
    rfl
  | deleteFiles fileIds =>
    simp only [Account.act, Account.addUsage]
    cases a.committedStorageBytes with
    | none => rfl
    | some committed =>
      simp only [Option.bind_some, apply_ite (Option.map _), Option.map_some, Option.map_none]
  | journal mutationId s =>
    cases s with
    | byHolder executor deed now =>
      cases deed with
      | abort =>
        simp only [Account.act]
        cases a.mutations.get mutationId with
        | none => rfl
        | some m =>
          simp only [Option.bind_some, Account.callback, apply_ite (Option.map _), Option.map_none]
          congr 1
          cases m.sessionId.bind fun sessionId =>
            (a.sessions.get sessionId).map (sessionId, ·) <;> rfl
      | _ => cases hfrees
    | _ => cases hfrees
  | _ => cases hfrees

theorem AccountInv.quotaSafe (ha : AccountInv a) (hok : LeasesInTime a s) : QuotaSafe a s where
  within hgrows limit hlimit := by
    rcases (ha.step hok).bounded with hle | hwithin
    · exact absurd hgrows (Nat.not_lt.2 hle)
    · exact hwithin limit hlimit
  freeing := frees_anyway a
  total := ha.total

/-- The quota is safe as long as no session comes back after its lease. -/
theorem run_quotaSafe (statements : List QuotaStatement)
    (hok : RunMeets Account.step LeasesInTime Account.empty statements) :
    RunMeets Account.step QuotaSafe Account.empty statements :=
  (hok.invariant (fun _ _ hok ha => (ha.step hok).inv) accountInv_empty).mono
    fun _ _ h => h.2.quotaSafe h.1

/-- A file of six bytes is sent through a session under a limit of ten bytes. -/
def sessionUpload : List QuotaStatement :=
  let hold : Journal.Holding := ⟨⟨['w'], 1⟩, 1⟩
  [.setLimit (some 10), .reserve "s" ⟨6, none, 2, some 6, .fail⟩ 0 0 true, .session "s" (.activate 0),
    .session "s" (.recordChunk ⟨0, 0, 5, 6⟩ 0), .session "s" (.beginCommit (some "sum") 0),
    .prepareResumable "s" "file" none, .journal "resumable-s" (.claim ['w'] 0),
    .journal "resumable-s" (.readBack ⟨['w'], 1⟩), .journal "resumable-s" (.byHolder hold .commit 1)]

/-- A file of eight bytes takes its place. -/
def directUpload : List QuotaStatement :=
  let hold : Journal.Holding := ⟨⟨['w'], 1⟩, 1⟩
  [.findFile "file", .prepareDirect "direct" "file" 8 (some ⟨"file", 0, 6⟩),
    .journal "direct" (.claim ['w'] 0), .journal "direct" (.readBack ⟨['w'], 1⟩),
    .journal "direct" (.byHolder hold .commit 1)]

theorem run_quotaSafe_uploads :
    (Account.run .empty (sessionUpload ++ directUpload)).committedStorageBytes = some 8 ∧
    RunMeets Account.step QuotaSafe Account.empty (sessionUpload ++ directUpload) :=
  ⟨by decide, run_quotaSafe _ (by decide)⟩

/-- A session is activated after its bytes went to another one. -/
theorem late_activation_exceeds :
    ¬∀ statements, RunMeets Account.step QuotaSafe Account.empty statements := by
  intro hall
  have hrun := hall ([.setLimit (some 10), .reserve "first" ⟨6, none, 2, some 6, .fail⟩ 0 0 true,
    .pass uploadAllocationLeaseMs,
    .reserve "second" ⟨6, none, 2, some 6, .fail⟩ uploadAllocationLeaseMs uploadAllocationLeaseMs true]
    ++ [.session "first" (.activate 0)])
  obtain ⟨-, hlast, -⟩ := runMeets_append.1 hrun
  have hwithin := hlast.within (by decide) 10 (by decide)
  revert hwithin
  decide

end Staaash.Uploads
