import Staaash.Uploads.Proofs.CoverageProofs
import Staaash.Uploads.Proofs.RowsProofs

/-!
# Proofs: the bytes of a session are those of its chunks

A chunk on its way was accepted, and a completion on its way found all the chunks. A session that has
all of them takes no other, so its bytes are those of the file until it ends.
-/

namespace Staaash.Uploads

open Staaash.Library

variable {u u' : Upload} {s : Statement} {session session' : UploadSession} {c : Call}
  {chunkSize : Nat} {chunk : CompletedUploadChunk} {chunks : List CompletedUploadChunk}

/-! ## The list of the chunks -/

theorem insertChunk_perm (chunk : CompletedUploadChunk) (chunks : List CompletedUploadChunk) :
    (insertChunk chunk chunks).Perm (chunk :: chunks) := by
  unfold insertChunk
  refine List.perm_middle.trans ?_
  rw [List.takeWhile_append_dropWhile]

theorem insertChunk_cons (chunk first : CompletedUploadChunk) (rest : List CompletedUploadChunk) :
    insertChunk chunk (first :: rest) =
      if first.chunkIndex < chunk.chunkIndex then first :: insertChunk chunk rest
      else chunk :: first :: rest := by
  unfold insertChunk
  by_cases hlt : first.chunkIndex < chunk.chunkIndex
  · simp [hlt]
  · simp [hlt]

/-- The chunks stay in the order of their indices. -/
theorem insertChunk_increasing (hnew : ∀ other ∈ chunks, other.chunkIndex ≠ chunk.chunkIndex)
    (h : chunks.Pairwise fun a b => a.chunkIndex < b.chunkIndex) :
    (insertChunk chunk chunks).Pairwise fun a b => a.chunkIndex < b.chunkIndex := by
  induction chunks with
  | nil => exact List.pairwise_singleton _ _
  | cons first rest ih =>
    obtain ⟨hfirst, hrest⟩ := List.pairwise_cons.1 h
    rw [insertChunk_cons]
    by_cases hlt : first.chunkIndex < chunk.chunkIndex
    · rw [if_pos hlt, List.pairwise_cons]
      refine ⟨fun other hother => ?_, ih (fun o ho => hnew o (List.mem_cons_of_mem _ ho)) hrest⟩
      rcases List.mem_cons.1 ((insertChunk_perm chunk rest).mem_iff.1 hother) with rfl | hmem
      · exact hlt
      · exact hfirst other hmem
    · have hgt : chunk.chunkIndex < first.chunkIndex := by
        have hne := hnew first List.mem_cons_self
        omega
      rw [if_neg hlt, List.pairwise_cons]
      refine ⟨fun other hother => ?_, h⟩
      rcases List.mem_cons.1 hother with rfl | hmem
      · exact hgt
      · exact Nat.lt_trans hgt (hfirst other hmem)

/-! ## The invariant -/

/-- The session has all the chunks of its file. -/
def UploadSession.Full (session : UploadSession) (chunkSize : Nat) : Prop :=
  hasCompleteUploadChunkSet session.completedChunks session.totalSizeBytes chunkSize = true

structure UploadSession.Sound (session : UploadSession) (chunkSize : Nat) : Prop where
  received : session.terminal = false →
    session.receivedBytes = (session.completedChunks.map (·.sizeBytes)).sum
  accepted : ∀ chunk ∈ session.completedChunks, chunk.Accepted session.totalSizeBytes chunkSize
  increasing : session.completedChunks.Pairwise fun a b => a.chunkIndex < b.chunkIndex
  full : session.status = .committing → session.Full chunkSize
  total : session.status = .completed → session.receivedBytes = session.totalSizeBytes

/-- What a call that is under way may rely on. -/
def Backed (chunkSize : Nat) (reserved : Bool) (row : Option UploadSession) : Call → Prop
  | .sending chunk _ | .writing chunk _ | .recording chunk _ =>
    reserved = true ∧ ∀ session, row = some session → session.parallel = some chunkSize →
      chunk.Accepted session.totalSizeBytes chunkSize
  | .sendingLegacy _ | .progressing _ =>
    reserved = true ∧ ∀ session, row = some session → session.parallel ≠ some chunkSize
  | .completing _ =>
    reserved = true ∧ ∀ session, row = some session → session.parallel = some chunkSize →
      session.terminal = false → session.Full chunkSize
  | .ending status => status = .failed ∨ status = .cancelled
  | _ => True

structure ChunkInv (chunkSize : Nat) (u : Upload) : Prop where
  fresh : u.reserved = false → u.session = none
  sound : ∀ session, u.session = some session → session.parallel = some chunkSize →
    session.Sound chunkSize
  calls : ∀ c ∈ u.calls, Backed chunkSize u.reserved u.session c

theorem UploadSession.Full.sum (hpos : 0 < chunkSize) (h : session.Full chunkSize) :
    (session.completedChunks.map (·.sizeBytes)).sum = session.totalSizeBytes := by
  rw [hasCompleteUploadChunkSet_iff.1 h]
  exact gridChunks_sum hpos

/-- A session that has all the chunks has every chunk that could come. -/
theorem UploadSession.Full.has (hpos : 0 < chunkSize) (h : session.Full chunkSize)
    (hchunk : chunk.Accepted session.totalSizeBytes chunkSize) : chunk ∈ session.completedChunks := by
  rw [hasCompleteUploadChunkSet_iff.1 h]
  exact (mem_gridChunks hpos).2 hchunk

/-! ## Writes of the row -/

/-- What a write leaves of a session. -/
structure Moves (chunkSize : Nat) (session session' : UploadSession) : Prop where
  parallel : session'.parallel = session.parallel
  totalSizeBytes : session'.totalSizeBytes = session.totalSizeBytes
  full : session.parallel = some chunkSize → session'.terminal = false →
    session.terminal = false ∧ (session.Full chunkSize → session'.Full chunkSize)
  sound : session.parallel = some chunkSize → session'.Sound chunkSize

theorem Carries.full (h : Carries session session') (hopen : session'.terminal = false)
    (hfull : session.Full chunkSize) : session'.Full chunkSize := by
  unfold UploadSession.Full at hfull ⊢
  rwa [(h.stillOpen hopen).2, h.totalSizeBytes]

theorem Carries.sound (hpos : 0 < chunkSize) (h : Carries session session')
    (hsound : session.Sound chunkSize) : session'.Sound chunkSize := by
  refine ⟨?_, ?_, ?_, ?_, ?_⟩
  · intro hopen
    obtain ⟨hopen, hchunks⟩ := h.stillOpen hopen
    rw [h.receivedBytes, hchunks]
    exact hsound.received hopen
  · intro chunk hchunk
    rw [h.totalSizeBytes]
    rcases h.chunks with hchunks | hnone
    · exact hsound.accepted chunk (hchunks ▸ hchunk)
    · rw [hnone] at hchunk
      cases hchunk
  · rcases h.chunks with hchunks | hnone
    · rw [hchunks]
      exact hsound.increasing
    · rw [hnone]
      exact List.Pairwise.nil
  · intro hcommitting
    have hopen : session'.terminal = false := by
      rw [UploadSession.not_terminal_iff, hcommitting]
      decide
    exact h.full hopen (hsound.full (h.committing hcommitting))
  · intro hcompleted
    rw [h.receivedBytes, h.totalSizeBytes]
    rcases h.completed hcompleted with hcommitting | hcompleted
    · have hopen : session.terminal = false := by
        rw [UploadSession.not_terminal_iff, hcommitting]
        decide
      rw [hsound.received hopen, (hsound.full hcommitting).sum hpos]
    · exact hsound.total hcompleted

theorem Carries.moves (hpos : 0 < chunkSize) (h : Carries session session')
    (hsound : session.parallel = some chunkSize → session.Sound chunkSize) :
    Moves chunkSize session session' :=
  ⟨h.parallel, h.totalSizeBytes, fun _ hopen => ⟨(h.stillOpen hopen).1, h.full hopen⟩,
    fun hparallel => h.sound hpos (hsound hparallel)⟩

theorem UploadSession.open_of_receivable {now : Nat} (h : session.receivable now = true) :
    session.terminal = false := by
  simpa using UploadSession.not_terminal_of_receivable h

/-- A chunk that is recorded is new, and its bytes are counted with it. -/
theorem moves_record (hpos : 0 < chunkSize) {now : Nat}
    (haccepted : session.parallel = some chunkSize →
      chunk.Accepted session.totalSizeBytes chunkSize)
    (hsound : session.parallel = some chunkSize → session.Sound chunkSize)
    (h : session.recordChunk now chunk = some session') : Moves chunkSize session session' := by
  obtain ⟨hguard, hrow⟩ := Option.ite_none_right_eq_some.1 h
  obtain ⟨hreceivable, hnew⟩ := Bool.and_eq_true_iff.1 hguard
  have hopen := UploadSession.open_of_receivable hreceivable
  have hnew : ∀ other ∈ session.completedChunks, other.chunkIndex ≠ chunk.chunkIndex := by
    simpa using hnew
  obtain rfl := Option.some.inj hrow
  refine ⟨rfl, rfl, fun hparallel _ => ⟨hopen, fun hfull => ?_⟩, fun hparallel => ?_⟩
  · exact absurd rfl (hnew chunk (hfull.has hpos (haccepted hparallel)))
  · have hsound := hsound hparallel
    refine ⟨fun _ => ?_, fun other hother => ?_, insertChunk_increasing hnew hsound.increasing,
      nofun, nofun⟩
    · show session.receivedBytes + chunk.sizeBytes = _
      have hsum := ((insertChunk_perm chunk session.completedChunks).map (·.sizeBytes)).sum_nat
      have hreceived := hsound.received hopen
      rw [hsum, List.map_cons, List.sum_cons]
      omega
    · rcases List.mem_cons.1 ((insertChunk_perm chunk _).mem_iff.1 hother) with rfl | hmem
      · exact haccepted hparallel
      · exact hsound.accepted other hmem

/-- A commit begins after all the chunks were found. -/
theorem moves_begin {now : Nat} {expectedChecksum : Option String}
    (hfull : session.parallel = some chunkSize → session.terminal = false →
      session.Full chunkSize)
    (hsound : session.parallel = some chunkSize → session.Sound chunkSize)
    (h : session.beginCommit now expectedChecksum = some session') :
    Moves chunkSize session session' := by
  obtain ⟨hreceivable, hrow⟩ := Option.ite_none_right_eq_some.1 h
  have hopen := UploadSession.open_of_receivable hreceivable
  obtain rfl := Option.some.inj hrow
  refine ⟨rfl, rfl, fun _ _ => ⟨hopen, id⟩, fun hparallel => ?_⟩
  have hsound := hsound hparallel
  exact ⟨fun _ => hsound.received hopen, hsound.accepted, hsound.increasing,
    fun _ => hfull hparallel hopen, nofun⟩

theorem ChunkInv.moves (hu : ChunkInv chunkSize u) (hpos : 0 < chunkSize)
    (hsession : u.session = some session) (h : RowWrite u s session session') :
    Moves chunkSize session session' := by
  have hsound := hu.sound session hsession
  cases h with
  | record hcall hrow =>
    have hbacked : Backed chunkSize u.reserved u.session (.recording _ _) := hu.calls _ hcall
    exact moves_record hpos (hbacked.2 session hsession) hsound hrow
  | progress hcall hrow =>
    have hbacked : Backed chunkSize u.reserved u.session (.progressing _) := hu.calls _ hcall
    have hother := hbacked.2 session hsession
    obtain ⟨-, hrow⟩ := Option.ite_none_right_eq_some.1 hrow
    obtain rfl := Option.some.inj hrow
    exact ⟨rfl, rfl, fun hparallel => absurd hparallel hother,
      fun hparallel => absurd hparallel hother⟩
  | begin hcall hrow =>
    have hbacked : Backed chunkSize u.reserved u.session (.completing _) := hu.calls _ hcall
    exact moves_begin (hbacked.2 session hsession) hsound hrow
  | finish hcall hrow =>
    exact (UploadSession.carries_finish (hu.calls _ hcall) hrow).moves hpos hsound
  | carry hother hcarries => exact hcarries.moves hpos hsound

/-! ## Steps -/

/-- A call that has just come may rely on what the session was found to be. -/
theorem ChunkInv.entered (hu : ChunkInv chunkSize u) (h : Enters u c) :
    Backed chunkSize u.reserved u.session c := by
  cases h with
  | @request session request c hsession hreceivable hc =>
    have hreserved : u.reserved = true := by
      by_contra hfresh
      rw [hu.fresh (by simpa using hfresh)] at hsession
      cases hsession
    unfold Upload.requested at hc
    cases request with
    | chunk range =>
      cases hparallel : session.parallel with
      | some found =>
        simp only [hparallel] at hc
        obtain ⟨chunkIndex, hindex, rfl⟩ := Option.map_eq_some_iff.1 hc
        refine ⟨hreserved, fun session' hsession' hparallel' => ?_⟩
        obtain rfl := Option.some.inj (hsession.symm.trans hsession')
        obtain rfl := Option.some.inj (hparallel.symm.trans hparallel')
        exact ⟨range, hindex, rfl⟩
      | none =>
        simp only [hparallel] at hc
        obtain ⟨-, hc⟩ := Option.ite_none_right_eq_some.1 hc
        obtain rfl := Option.some.inj hc
        refine ⟨hreserved, fun session' hsession' hparallel' => ?_⟩
        obtain rfl := Option.some.inj (hsession.symm.trans hsession')
        rw [hparallel] at hparallel'
        cases hparallel'
    | complete expectedChecksum =>
      obtain ⟨hcomplete, hc⟩ := Option.ite_none_right_eq_some.1 hc
      obtain rfl := Option.some.inj hc
      refine ⟨hreserved, fun session' hsession' hparallel' _ => ?_⟩
      obtain rfl := Option.some.inj (hsession.symm.trans hsession')
      unfold UploadSession.uploadIsComplete at hcomplete
      rw [hparallel'] at hcomplete
      exact (Bool.and_eq_true_iff.1 hcomplete).2
    | cancel =>
      obtain rfl := Option.some.inj hc
      exact .inr rfl
  | lock hcall | written hcall =>
    have hbacked := hu.calls _ hcall
    exact hbacked
  | writtenLegacy hcall =>
    have hbacked := hu.calls _ hcall
    exact hbacked
  | failing => exact .inl rfl
  | other hother =>
    cases c with
    | sending | writing | recording | sendingLegacy | progressing | completing | ending =>
      cases hother
    | _ => trivial

/-- A call relies on the same after the row was written. -/
theorem Backed.write (hmoves : Moves chunkSize session session') {reserved : Bool}
    (h : Backed chunkSize reserved (some session) c) :
    Backed chunkSize reserved (some session') c := by
  have hparallel : session'.parallel = some chunkSize → session.parallel = some chunkSize :=
    fun h => hmoves.parallel ▸ h
  cases c with
  | sending chunk now | writing chunk now | recording chunk now =>
    refine ⟨h.1, fun session'' heq hp => ?_⟩
    obtain rfl := Option.some.inj heq
    rw [hmoves.totalSizeBytes]
    exact h.2 session rfl (hparallel hp)
  | sendingLegacy range | progressing receivedBytes =>
    refine ⟨h.1, fun session'' heq hp => ?_⟩
    obtain rfl := Option.some.inj heq
    exact h.2 session rfl (hparallel hp)
  | completing expectedChecksum =>
    refine ⟨h.1, fun session'' heq hp hopen => ?_⟩
    obtain rfl := Option.some.inj heq
    obtain ⟨hopen, hfull⟩ := hmoves.full (hparallel hp) hopen
    exact hfull (h.2 session rfl (hparallel hp) hopen)
  | ending status => exact h
  | _ => trivial

/-- A call that relies on a session is not under way before there is a reservation. -/
theorem Backed.reserve (h : Backed chunkSize false none c) (row : Option UploadSession) :
    Backed chunkSize true row c := by
  cases c with
  | sending | writing | recording | sendingLegacy | progressing | completing => cases h.1
  | ending status => exact h
  | _ => trivial

theorem Backed.drop {reserved : Bool} {row : Option UploadSession}
    (h : Backed chunkSize reserved row c) : Backed chunkSize reserved none c := by
  cases c with
  | sending | writing | recording | sendingLegacy | progressing | completing =>
    refine ⟨h.1, fun session hs => ?_⟩
    cases hs
  | ending status => exact h
  | _ => trivial

theorem sound_row (new : NewSession) (now : Nat) :
    (new.row now).Sound chunkSize :=
  ⟨fun _ => rfl, nofun, List.Pairwise.nil, nofun, nofun⟩

theorem ChunkInv.act (hu : ChunkInv chunkSize u) (hpos : 0 < chunkSize) (h : u.act s = some u') :
    ChunkInv chunkSize u' := by
  have hafter := rowAfter_of_act h
  have hcalls : ∀ c ∈ u'.calls, Backed chunkSize u.reserved u.session c := fun c hc =>
    (enters_of_act h c hc).elim (hu.calls c) hu.entered
  revert hafter
  generalize hreserved : u'.reserved = reserved
  generalize hrow : u'.session = row
  intro hafter
  cases hafter with
  | same =>
    refine ⟨fun hr => ?_, fun session hs => ?_, fun c hc => ?_⟩
    · rw [hrow]
      exact hu.fresh (hreserved ▸ hr)
    · exact hu.sound session (hrow ▸ hs)
    · rw [hreserved, hrow]
      exact hcalls c hc
  | @reserve new hother hfresh =>
    refine ⟨fun hr => ?_, fun session hs _ => ?_, fun c hc => ?_⟩
    · rw [hreserved] at hr
      cases hr
    · rw [hrow] at hs
      obtain rfl := Option.some.inj hs
      exact sound_row new u.clock
    · rw [hreserved, hrow]
      have hbacked := hcalls c hc
      rw [hfresh, hu.fresh hfresh] at hbacked
      exact hbacked.reserve _
  | drop hother =>
    refine ⟨fun _ => hrow, fun session hs => ?_, fun c hc => ?_⟩
    · rw [hrow] at hs
      cases hs
    · rw [hreserved, hrow]
      exact (hcalls c hc).drop
  | @write session session' hsession hwrite =>
    have hmoves := hu.moves hpos hsession hwrite
    refine ⟨fun hr => ?_, fun session'' hs hparallel => ?_, fun c hc => ?_⟩
    · rw [hreserved] at hr
      rw [hu.fresh hr] at hsession
      cases hsession
    · rw [hrow] at hs
      obtain rfl := Option.some.inj hs
      exact hmoves.sound (hmoves.parallel ▸ hparallel)
    · rw [hreserved, hrow]
      have hbacked := hcalls c hc
      rw [hsession] at hbacked
      exact hbacked.write hmoves

theorem chunkInv_empty (sessionId : String) : ChunkInv chunkSize (Upload.empty sessionId) :=
  ⟨fun _ => rfl, fun _ hsession => (nomatch hsession), fun _ hcall => (nomatch hcall)⟩

theorem ChunkInv.step (hpos : 0 < chunkSize) (hu : ChunkInv chunkSize u) :
    ChunkInv chunkSize (u.step s) := by
  unfold Upload.step
  cases hact : u.act s with
  | none => exact hu
  | some u' => exact hu.act hpos hact

theorem run_chunkInv (hpos : 0 < chunkSize) (sessionId : String) (statements : List Statement) :
    ChunkInv chunkSize ((Upload.empty sessionId).run statements) :=
  run_keeps (fun _ _ hu => hu.step hpos) statements (chunkInv_empty sessionId)

theorem UploadSession.Sound.counted (hpos : 0 < chunkSize) (h : session.Sound chunkSize) :
    Counted session := by
  refine ⟨h.received, ?_, ?_⟩
  · unfold List.Nodup
    rw [List.pairwise_map]
    exact h.increasing.imp fun hlt => Nat.ne_of_lt hlt
  · rintro (hcommitting | hcompleted)
    · have hopen : session.terminal = false := by
        rw [UploadSession.not_terminal_iff, hcommitting]
        decide
      rw [h.received hopen, (h.full hcommitting).sum hpos]
    · exact h.total hcompleted

/-! ## Recordings -/

/-- The session is over, or it has the chunk. -/
def Recorded (chunkIndex : Nat) (row : Option UploadSession) : Prop :=
  ∀ session, row = some session → session.terminal = false →
    ∃ chunk ∈ session.completedChunks, chunk.chunkIndex = chunkIndex

structure OnceInv (chunkIndex : Nat) (u : Upload) (n : Nat) : Prop where
  once : n ≤ 1
  recorded : n = 1 → u.reserved = true ∧ Recorded chunkIndex u.session

/-- A session that goes on keeps its chunks. -/
theorem ChunkInv.keeps (hu : ChunkInv chunkSize u) (h : RowWrite u s session session')
    (hopen : session'.terminal = false) :
    session.terminal = false ∧ ∀ chunk ∈ session.completedChunks, chunk ∈ session'.completedChunks := by
  have hcarries : Carries session session' →
      session.terminal = false ∧
        ∀ chunk ∈ session.completedChunks, chunk ∈ session'.completedChunks := by
    intro hcarries
    obtain ⟨hopen, hchunks⟩ := hcarries.stillOpen hopen
    exact ⟨hopen, fun chunk hchunk => hchunks ▸ hchunk⟩
  cases h with
  | record hcall hrow =>
    obtain ⟨hguard, hrow⟩ := Option.ite_none_right_eq_some.1 hrow
    obtain rfl := Option.some.inj hrow
    exact ⟨UploadSession.open_of_receivable (Bool.and_eq_true_iff.1 hguard).1, fun chunk hchunk =>
      (insertChunk_perm _ _).mem_iff.2 (List.mem_cons_of_mem _ hchunk)⟩
  | progress hcall hrow | begin hcall hrow =>
    obtain ⟨hreceivable, hrow⟩ := Option.ite_none_right_eq_some.1 hrow
    obtain rfl := Option.some.inj hrow
    exact ⟨UploadSession.open_of_receivable hreceivable, fun _ => id⟩
  | finish hcall hrow => exact hcarries (UploadSession.carries_finish (hu.calls _ hcall) hrow)
  | carry hother h => exact hcarries h

/-- A chunk that was recorded stays recorded. -/
theorem ChunkInv.stillRecorded (hu : ChunkInv chunkSize u) {chunkIndex : Nat} (h : u.act s = some u')
    (hreserved : u.reserved = true) (hrecorded : Recorded chunkIndex u.session) :
    u'.reserved = true ∧ Recorded chunkIndex u'.session := by
  have hafter := rowAfter_of_act h
  revert hafter
  generalize u'.reserved = reserved
  generalize u'.session = row
  intro hafter
  cases hafter with
  | same => exact ⟨hreserved, hrecorded⟩
  | reserve hother hfresh =>
    rw [hreserved] at hfresh
    cases hfresh
  | drop hother =>
    refine ⟨hreserved, fun session hs => ?_⟩
    cases hs
  | @write session session' hsession hwrite =>
    refine ⟨hreserved, fun session'' hs hopen => ?_⟩
    obtain rfl := Option.some.inj hs
    obtain ⟨hopen, hkeeps⟩ := hu.keeps hwrite hopen
    obtain ⟨chunk, hchunk, hindex⟩ := hrecorded session hsession hopen
    exact ⟨chunk, hkeeps chunk hchunk, hindex⟩

/-- A statement that records a chunk finds a session that goes on without it, and leaves one with it. -/
theorem recordChunk_act {now : Nat} (hu : ChunkInv chunkSize u)
    (h : u.act (.recordChunk chunk now) = some u') :
    ¬Recorded chunk.chunkIndex u.session ∧ u'.reserved = true ∧
      Recorded chunk.chunkIndex u'.session := by
  obtain ⟨hcall, h⟩ := Option.ite_none_right_eq_some.1 h
  have hbacked : Backed chunkSize u.reserved u.session (.recording chunk now) := hu.calls _ hcall
  unfold Upload.update at h
  obtain ⟨session', hbind, rfl⟩ := Option.map_eq_some_iff.1 h
  obtain ⟨session, hsession, hrow⟩ := Option.bind_eq_some_iff.1 hbind
  obtain ⟨hguard, hrow⟩ := Option.ite_none_right_eq_some.1 hrow
  obtain ⟨hreceivable, hnew⟩ := Bool.and_eq_true_iff.1 hguard
  have hnew : ∀ other ∈ session.completedChunks, other.chunkIndex ≠ chunk.chunkIndex := by
    simpa using hnew
  obtain rfl := Option.some.inj hrow
  refine ⟨fun hrecorded => ?_, hbacked.1, fun session'' hs _ => ?_⟩
  · obtain ⟨other, hother, hindex⟩ :=
      hrecorded session hsession (UploadSession.open_of_receivable hreceivable)
    exact hnew other hother hindex
  · obtain rfl := Option.some.inj hs
    exact ⟨chunk, (insertChunk_perm _ _).mem_iff.2 List.mem_cons_self, rfl⟩

theorem OnceInv.step {chunkIndex n : Nat} (hu : ChunkInv chunkSize u) (h : OnceInv chunkIndex u n) :
    OnceInv chunkIndex (u.step s)
      (tallied (Upload.records chunkIndex) (fun _ _ => false) u n s) := by
  unfold tallied
  rw [if_neg Bool.false_ne_true]
  unfold Upload.step
  cases hact : u.act s with
  | none =>
    have hnot : u.records chunkIndex s = false := by
      unfold Upload.records
      cases s <;> simp [hact]
    rw [hnot, if_neg Bool.false_ne_true]
    exact h
  | some u' =>
    rw [Option.getD_some]
    by_cases hrecords : u.records chunkIndex s = true
    · rw [if_pos hrecords]
      cases s with
      | recordChunk chunk now =>
        have hindex : chunk.chunkIndex = chunkIndex := by
          unfold Upload.records at hrecords
          exact of_decide_eq_true (Bool.and_eq_true_iff.1 hrecords).1
        subst hindex
        obtain ⟨hbefore, hafter⟩ := recordChunk_act hu hact
        have hnone : n = 0 := by
          by_contra hpos
          have hone : n = 1 := by
            have hle := h.once
            omega
          exact hbefore (h.recorded hone).2
        exact ⟨by omega, fun _ => hafter⟩
      | _ => cases hrecords
    · rw [if_neg hrecords]
      refine ⟨h.once, fun hone => ?_⟩
      obtain ⟨hreserved, hrecorded⟩ := h.recorded hone
      exact hu.stillRecorded hact hreserved hrecorded

/-- No run records a chunk twice. -/
theorem recordings_le_one (chunkIndex : Nat) (sessionId : String) (statements : List Statement) :
    recordings chunkIndex sessionId statements ≤ 1 := by
  have hall : RunMeets Upload.step (fun u _ => ChunkInv 1 u) (Upload.empty sessionId) statements :=
    run_meets (fun _ _ hu => hu.step Nat.one_pos) (fun _ _ hu => hu) (chunkInv_empty sessionId)
  exact (hall.tally_keeps (I := OnceInv chunkIndex) (fun _ _ _ hu h => h.step hu)
    ⟨Nat.zero_le 1, nofun⟩).once

/-- A request with a chunk leaves an open session open. -/
theorem open_of_chunk (hs : s.ofChunk = true) (hsession : u.session = some session)
    (hopen : session.terminal = false) :
    ∃ session', (u.step s).session = some session' ∧ session'.terminal = false := by
  unfold Upload.step
  cases hact : u.act s with
  | none => exact ⟨session, hsession, hopen⟩
  | some u' =>
    rw [Option.getD_some]
    have hafter := rowAfter_of_act hact
    revert hafter
    generalize u'.reserved = reserved
    generalize u'.session = row
    intro hafter
    cases hafter with
    | same => exact ⟨session, hsession, hopen⟩
    | reserve hother | drop hother =>
      rw [hs] at hother
      cases hother
    | write hsession' hwrite =>
      refine ⟨_, rfl, ?_⟩
      cases hwrite with
      | record hcall hrow | progress hcall hrow =>
        obtain ⟨-, hrow⟩ := Option.ite_none_right_eq_some.1 hrow
        obtain rfl := Option.some.inj hrow
        rfl
      | begin | finish => cases hs
      | carry hother =>
        rw [hs] at hother
        cases hother

/-- The chunks that the client sends are those that the server takes, a complete set of them is the
file, and a session counts each of them once. -/
theorem chunks_coverFile (totalSizeBytes chunkSizeBytes : Nat) (hpos : 0 < chunkSizeBytes) :
    CoversFile totalSizeBytes chunkSizeBytes where
  sent done range := mem_sendFileRanges hpos done
  distinct range range' chunkIndex h h' := getUploadChunkIndex_injective hpos h h'
  complete chunks horder := by
    rw [hasCompleteUploadChunkSet_iff]
    constructor
    · rintro rfl
      exact tiles_gridChunks hpos
    · intro htiles
      exact htiles.eq_gridChunks hpos horder
  assembled chunks α bytes hcomplete hlength := by
    obtain rfl := hasCompleteUploadChunkSet_iff.1 hcomplete
    subst hlength
    exact gridChunks_of hpos bytes
  counted sessionId statements session hsession _ hparallel :=
    ((run_chunkInv hpos sessionId statements).sound session hsession hparallel).counted hpos
  once sessionId statements chunkIndex := recordings_le_one chunkIndex sessionId statements
  stays _ _ _ hs hsession hopen := open_of_chunk hs hsession hopen

/-- One byte more than two chunks. -/
theorem chunks_coverFile_byteOver : CoversFile 21 10 ∧
    sendFileRanges 21 (some 10) [] = [⟨0, 9⟩, ⟨10, 19⟩, ⟨20, 20⟩] :=
  ⟨chunks_coverFile 21 10 (by decide), by decide⟩

end Staaash.Uploads
