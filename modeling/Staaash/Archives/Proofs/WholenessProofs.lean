import Staaash.Archives.Proofs.HandlerProofs

/-!
# Proofs: a ready archive is whole and stays ready

The invariant is kept by what publications do, and so by every run. An archive that is ready stays so, as no
call sets its status then.
-/

namespace Staaash.Archives

open Staaash.Library Staaash.Artifacts

variable {Body Byte : Type} {host : Host Body Byte} {request row : ZipArchiveRecord}
  {w w' : World Body Byte} {src : Sources Body} {desk : Desk Byte ReadyData} {call : Call Body Byte}
  {p p' : Publication ReadyData} {i : Nat}

/-! ## Publications -/

/-- A publication goes on, perhaps with a change to the names of files. -/
theorem Sound.setDesk (h : Sound host request w) (hdesk : DeskSound request.tmpKey request.archiveKey desk)
    (hnodes : desk.files.nodes = w.desk.files.nodes) (hopens : desk.opens = w.desk.opens)
    (hpublications : ∀ q ∈ desk.publications, PublicationSound request w q)
    (hleads : ∀ row ∈ w.archive, row.status = .ready → ∀ writer, LeadsTo w.desk.files request.archiveKey writer →
      LeadsTo desk.files request.archiveKey writer) : Sound host request { w with desk } := by
  refine ⟨h.settled, h.same, hdesk, h.outputs.of_nodes hnodes hopens, h.calls, ?_, ?_⟩
  · intro q hq
    obtain ⟨hhanded, hkey, hpending⟩ := hpublications q hq
    exact ⟨hhanded, hkey, hpending⟩
  · intro row hrow hstatus
    obtain ⟨hkey, writer, hlead, hhanded⟩ := h.ready row hrow hstatus
    exact ⟨hkey, writer, hleads row hrow hstatus writer hlead, hhanded⟩

/-- What a publication says of itself stays so as it goes on. -/
theorem Sound.publications_set (h : Sound host request w) (hp : p ∈ w.desk.publications)
    (hwriter : p'.writer = p.writer) (hdata : p'.data = p.data) (hpre : p'.preRevision = p.preRevision)
    (hopen : p'.committed = false → p.committed = false) :
    ∀ q ∈ (w.desk.setPublication p').publications, PublicationSound request w q := by
  intro q hq
  rcases Desk.mem_setPublication hq with rfl | ⟨hold, -⟩
  · obtain ⟨hhanded, hkey, hpending⟩ := h.publications p hp
    exact ⟨hwriter ▸ hhanded, hdata ▸ hkey, fun hfalse => hpre ▸ hpending (hopen hfalse)⟩
  · exact h.publications q hold

theorem Sound.validate (h : Sound host request w) {checksum : List Byte → String} {mutationId : String}
    (hvalidate : w.desk.validate checksum mutationId = some desk) : Sound host request { w with desk } := by
  obtain ⟨p, hp, rfl⟩ := Desk.validate_cases hvalidate
  exact h.setDesk (h.desk.validate hp checksum) rfl rfl
    (h.publications_set hp rfl rfl rfl fun hopen => hopen) fun _ _ _ _ hlead => hlead

theorem Sound.apply (h : Sound host request w) {mutationId : String}
    (hfinds : w.desk.FindsOutput mutationId) (happly : w.desk.apply mutationId = some desk) :
    Sound host request { w with desk } := by
  obtain ⟨p, p', files, hpub, hp', rfl⟩ := Desk.apply_cases happly
  obtain ⟨hp, -⟩ := Desk.publication_cases hpub
  have hdesk := h.desk.apply (keysApart request) hpub hp' hfinds
  rcases Publication.apply_cases hp' with ⟨_, _, _, _, -, -, hopen, -, rfl, rfl⟩ | ⟨_, _, -, hcommitted, rfl, rfl⟩
  · refine h.setDesk hdesk rfl rfl (h.publications_set hp rfl rfl rfl fun hfalse => hfalse) ?_
    -- A row with a publication in progress is not ready.
    intro row hrow hready
    obtain ⟨other, hother, -, hnot⟩ := (h.publications p hp).pending hopen
    rw [Option.mem_unique hrow hother] at hready
    exact absurd hready hnot
  · refine h.setDesk hdesk rfl rfl (h.publications_set hp rfl rfl rfl fun hfalse => hfalse) ?_
    intro row _ _ writer hlead
    exact hlead.apply (keysApart request) h.desk hp hcommitted hp'

/-- The commit of a publication whose file is in place. -/
theorem Sound.commit (h : Sound host request w) (hp : p ∈ w.desk.publications) (hopen : p.committed = false)
    (hdone : p.forwardDone = true) (hrow : w.archive = some row) :
    Sound host request { w with desk := w.desk.commit p, archive := some (row.publish p.data) } := by
  obtain ⟨hhanded, hkey, -⟩ := h.publications p hp
  have hnone := h.desk.publishing_commit hp hopen
  have hsame := h.same row hrow
  refine ⟨h.settled, ?_, h.desk.commit hp, h.outputs.of_nodes rfl rfl, ?_, ?_, ?_⟩
  · rintro _ ⟨⟩
    exact ⟨hsame.id, hsame.userId, hsame.contentKey, hsame.fileIds, hsame.folderIds, hsame.expiresAt⟩
  · intro j other hj
    have hsound := h.calls j other hj
    refine ⟨hsound.same, hsound.found.imp_right ?_, hsound.stage⟩
    rintro hfound _ ⟨⟩
    have hle := (hfound row hrow).1
    show _ ≤ row.storageRevision + 1 ∧ (_ = row.storageRevision + 1 → _)
    exact ⟨by omega, fun heq => by omega⟩
  · intro q hq
    have hset : ∀ q ∈ (w.desk.setPublication { p with committed := true }).publications,
        PublicationSound request w q :=
      h.publications_set hp rfl rfl rfl fun hfalse => by cases hfalse
    obtain ⟨hqHanded, hqKey, -⟩ := hset q hq
    refine ⟨hqHanded, hqKey, ?_⟩
    intro hfalse
    rw [Desk.committed_of_publishing hnone hq] at hfalse
    cases hfalse
  · rintro _ ⟨⟩ -
    refine ⟨congrArg some hkey, p.writer, ?_, hhanded⟩
    exact Publication.leadsTo_of_forwardDone (h.desk.carries p hp hopen) hdone

theorem Sound.purge (h : Sound host request w) (hnone : w.desk.publishing = false) (key : String) :
    Sound host request { w with archive := none, desk := w.desk.remove key } := by
  have hcommitted : ∀ {α : Prop} (p : Publication ReadyData), p ∈ w.desk.publications →
      p.committed = false → α := by
    intro α p hp hfalse
    rw [Desk.committed_of_publishing hnone hp] at hfalse
    cases hfalse
  refine ⟨h.settled, by simp, h.desk.remove fun p hp hopen => hcommitted p hp hopen,
    h.outputs.of_nodes rfl rfl, ?_, ?_, by simp⟩
  · intro j other hj
    have hsound := h.calls j other hj
    exact ⟨hsound.same, .inr (by simp), hsound.stage⟩
  · intro p hp
    obtain ⟨hhanded, hkey, -⟩ := h.publications p hp
    exact ⟨hhanded, hkey, hcommitted p hp⟩

/-- A call finds the row. -/
theorem Sound.find (h : Sound host request w) (hrow : w.archive = some row) (jobId : String) :
    Sound host request { w with
      calls := w.calls ++ [⟨jobId, row, if row.status = .ready then .over else .found⟩] } := by
  set last : Call Body Byte := ⟨jobId, row, if row.status = .ready then .over else .found⟩ with hlast
  have hcases : ∀ {j : Nat} {call : Call Body Byte}, (w.calls ++ [last])[j]? = some call →
      w.calls[j]? = some call ∨ call = last := by
    intro j call hj
    rw [List.getElem?_append] at hj
    split at hj
    · exact .inl hj
    · exact .inr (List.mem_singleton.1 (List.mem_of_getElem? hj))
  have hhandedKeep : ∀ {writer : Nat}, w.Handed writer →
      World.Handed { w with calls := w.calls ++ [last] } writer := by
    rintro writer ⟨j, call, x, hcall, hx⟩
    refine ⟨j, call, x, ?_, hx⟩
    rw [List.getElem?_append_left (List.getElem?_eq_some_iff.1 hcall).1, hcall]
  refine ⟨h.settled, h.same, h.desk, h.outputs.mono ?_, ?_, ?_, ?_⟩
  · intro j o ho
    obtain ⟨call, hcall, hstage⟩ := Option.bind_eq_some_iff.1 ho
    rcases hcases hcall with hold | rfl
    · exact Option.bind_eq_some_iff.2 ⟨call, hold, hstage⟩
    · rw [hlast] at hstage
      simp only at hstage
      split at hstage <;> cases hstage
  · intro j call hj
    rcases hcases hj with hold | rfl
    · exact h.calls j call hold
    · refine ⟨h.same row hrow, ?_, ?_⟩
      · by_cases hready : row.status = .ready
        · exact .inl (by simp [hlast, hready])
        · refine .inr ?_
          intro other hother
          rw [hrow] at hother
          obtain rfl := Option.some.inj hother
          exact ⟨Nat.le_refl _, fun _ => hready⟩
      · show StageSound _ _ _ (if _ then _ else _)
        split <;> trivial
  · intro p hp
    obtain ⟨hhanded, hkey, hpending⟩ := h.publications p hp
    exact ⟨hhandedKeep hhanded, hkey, hpending⟩
  · intro other hother hready
    obtain ⟨hkey, writer, hlead, hhanded⟩ := h.ready other hother hready
    exact ⟨hkey, writer, hlead, hhandedKeep hhanded⟩

/-! ## Runs -/

section Runs

theorem sound_requested (hsettled : src.Settled host.bodyOf) (now : Nat) :
    Sound host request (World.requested src now request : World Body Byte) where
  settled := hsettled
  same := by
    rintro _ ⟨⟩
    exact ⟨rfl, rfl, rfl, rfl, rfl, rfl⟩
  desk := Desk.sound_empty
  outputs := Outputs.none
  calls := by simp [World.requested]
  publications := by simp [World.requested, Desk.empty]
  ready := by
    rintro _ ⟨⟩ hready
    cases hready

variable [Inhabited Byte]

/-- A call writes the row in two places only. -/
theorem workerAct_archive {event : WorkerEvent} (hact : workerAct host w i call event = some w') :
    w'.now = w.now ∧ (w'.archive = w.archive ∨ call.stage.setsStatus event = true) := by
  cases event <;> simp only [workerAct] at hact <;> split at hact <;>
    grind [World.setStage, Stage.setsStatus, Option.map_eq_some_iff]

variable [DecidableEq Body] {e : Event Body}

theorem Sound.step (h : Sound host request w) (hv2 : request.hasContentKey = true) (hok : Orderly host w e) :
    Sound host request (step host w e) := by
  unfold Archives.step
  rcases hact : act host w e with _ | w'
  · exact h
  show Sound host request w'
  cases e with
  | source event =>
    have hsource : ∃ src', w.sources.act host.bodyOf event = some src' ∧ w' = { w with sources := src' } := by
      simp only [act] at hact
      split at hact
      · obtain ⟨-, hmap⟩ := Option.ite_none_left_eq_some.1 hact
        obtain ⟨src', hsrc, rfl⟩ := Option.map_eq_some_iff.1 hmap
        exact ⟨src', hsrc, rfl⟩
      · obtain ⟨src', hsrc, rfl⟩ := Option.map_eq_some_iff.1 hact
        exact ⟨src', hsrc, rfl⟩
    obtain ⟨src', hsrc, rfl⟩ := hsource
    refine h.source hsrc ?_
    rintro id rfl
    exact hok
  | find jobId =>
    obtain ⟨row, hrow, rfl⟩ := Option.map_eq_some_iff.1 hact
    exact h.find hrow jobId
  | worker i event =>
    obtain ⟨call, hcall, hworker⟩ := Option.bind_eq_some_iff.1 hact
    exact h.worker hv2 hcall hworker (hok call hcall).2
  | validate mutationId =>
    obtain ⟨desk, hvalidate, rfl⟩ := Option.map_eq_some_iff.1 hact
    exact h.validate hvalidate
  | apply mutationId =>
    obtain ⟨desk, happly, rfl⟩ := Option.map_eq_some_iff.1 hact
    exact h.apply hok happly
  | commit mutationId =>
    simp only [act] at hact
    split at hact
    · next p row hp hrow =>
      obtain ⟨⟨hopen, hdone, -⟩, hw⟩ := Option.ite_none_right_eq_some.1 hact
      obtain rfl := Option.some.inj hw
      exact h.commit (Desk.publication_cases hp).1 hopen hdone hrow
    · cases hact
  | cancel =>
    simp only [act] at hact
    split at hact
    · next row hrow =>
      obtain ⟨-, hw⟩ := Option.ite_none_right_eq_some.1 hact
      obtain rfl := Option.some.inj hw
      exact h.setArchive hrow ⟨rfl, rfl, rfl, rfl, rfl, rfl⟩ rfl (by simp)
    · cases hact
  | purge =>
    simp only [act] at hact
    split at hact
    · next row hrow =>
      obtain ⟨⟨-, -, hnone, -⟩, hw⟩ := Option.ite_none_right_eq_some.1 hact
      obtain rfl := Option.some.inj hw
      exact h.purge hnone row.archiveKey
    · cases hact
  | wait now =>
    obtain ⟨-, hw⟩ := Option.ite_none_right_eq_some.1 hact
    obtain rfl := Option.some.inj hw
    refine ⟨h.settled, h.same, h.desk, h.outputs, h.calls, ?_, h.ready⟩
    intro p hp
    obtain ⟨hhanded, hkey, hpending⟩ := h.publications p hp
    exact ⟨hhanded, hkey, hpending⟩

/-- No step takes a row that is ready out of service before it has expired. -/
theorem Sound.stays (h : Sound host request w) (hok : Orderly host w e) (hready : w.isReady = true)
    (hnow : w.now < request.expiresAt) :
    (Archives.step host w e).isReady = true ∨ request.expiresAt ≤ (Archives.step host w e).now := by
  obtain ⟨row, hrow, hstatus⟩ := Option.any_eq_true .. |>.1 hready
  rw [decide_eq_true_eq] at hstatus
  have hexpires := (h.same row hrow).expiresAt
  have hservable : w.servable = true := by
    unfold World.servable
    rw [hrow]
    simp [hstatus, hexpires, hnow]
  unfold Archives.step
  rcases hact : act host w e with _ | w'
  · exact .inl hready
  show w'.isReady = true ∨ _
  have hkeep : w'.archive = w.archive → w'.isReady = true := by
    intro harchive
    unfold World.isReady
    rw [harchive]
    exact hready
  refine .inl ?_
  cases e with
  | source event =>
    refine hkeep ?_
    simp only [act] at hact
    split at hact
    · obtain ⟨-, hmap⟩ := Option.ite_none_left_eq_some.1 hact
      obtain ⟨src', -, rfl⟩ := Option.map_eq_some_iff.1 hmap
      rfl
    · obtain ⟨src', -, rfl⟩ := Option.map_eq_some_iff.1 hact
      rfl
  | find jobId =>
    obtain ⟨other, -, rfl⟩ := Option.map_eq_some_iff.1 hact
    exact hkeep rfl
  | worker i event =>
    obtain ⟨call, hcall, hworker⟩ := Option.bind_eq_some_iff.1 hact
    rcases (workerAct_archive hworker).2 with harchive | hsets
    · exact hkeep harchive
    · rw [(hok call hcall).1 hsets] at hservable
      cases hservable
  | validate mutationId =>
    obtain ⟨desk, -, rfl⟩ := Option.map_eq_some_iff.1 hact
    exact hkeep rfl
  | apply mutationId =>
    obtain ⟨desk, -, rfl⟩ := Option.map_eq_some_iff.1 hact
    exact hkeep rfl
  | commit mutationId =>
    simp only [act] at hact
    split at hact
    · obtain ⟨-, hw⟩ := Option.ite_none_right_eq_some.1 hact
      obtain rfl := Option.some.inj hw
      rfl
    · cases hact
  | cancel =>
    simp only [act, hrow] at hact
    obtain ⟨hcancel, -⟩ := Option.ite_none_right_eq_some.1 hact
    rw [hstatus] at hcancel
    simp at hcancel
  | purge =>
    simp only [act, hrow] at hact
    obtain ⟨⟨hexpired, -⟩, -⟩ := Option.ite_none_right_eq_some.1 hact
    omega
  | wait now =>
    obtain ⟨-, hw⟩ := Option.ite_none_right_eq_some.1 hact
    obtain rfl := Option.some.inj hw
    exact hkeep rfl

/-- Time does not go back. -/
theorem now_le_step (w : World Body Byte) (e : Event Body) : w.now ≤ (step host w e).now := by
  unfold Archives.step
  rcases hact : act host w e with _ | w'
  · exact Nat.le_refl _
  show w.now ≤ w'.now
  cases e with
  | worker i event =>
    obtain ⟨call, hcall, hworker⟩ := Option.bind_eq_some_iff.1 hact
    exact Nat.le_of_eq (workerAct_archive hworker).1.symm
  | wait now =>
    obtain ⟨hle, hw⟩ := Option.ite_none_right_eq_some.1 hact
    obtain rfl := Option.some.inj hw
    exact hle
  | _ =>
    simp only [act] at hact
    grind [Option.map_eq_some_iff]

/-- The archive is ready, or has expired. -/
def StillReady (request : ZipArchiveRecord) (w : World Body Byte) : Prop :=
  w.isReady = true ∨ request.expiresAt ≤ w.now

theorem run_sound (hv2 : request.hasContentKey = true) {events : List (Event Body)}
    (hmeets : RunMeets (step host) (Orderly host) w events) (h : Sound host request w) :
    Sound host request (w.run host events) :=
  hmeets.keeps (fun _ _ hok hsound => hsound.step hv2 hok) h

theorem run_stillReady (hv2 : request.hasContentKey = true) {events : List (Event Body)}
    (hmeets : RunMeets (step host) (Orderly host) w events) (h : Sound host request w)
    (hready : StillReady request w) : StillReady request (w.run host events) := by
  refine (hmeets.keeps (I := fun w => Sound host request w ∧ StillReady request w) ?_ ⟨h, hready⟩).2
  rintro t e hok ⟨hsound, hstill⟩
  refine ⟨hsound.step hv2 hok, ?_⟩
  rcases hstill with hready | hexpired
  · by_cases hnow : t.now < request.expiresAt
    · exact hsound.stays hok hready hnow
    · exact .inr (Nat.le_trans (Nat.le_of_not_lt hnow) (now_le_step t e))
  · exact .inr (Nat.le_trans hexpired (now_le_step t e))

/-- In an orderly run every archive that becomes ready is whole, and stays ready until it expires. -/
theorem run_readyIsWhole {now : Nat} {events : List (Event Body)} (hsettled : src.Settled host.bodyOf)
    (hv2 : request.hasContentKey = true)
    (hmeets : RunMeets (step host) (Orderly host) (World.requested src now request : World Body Byte) events) :
    ReadyIsWhole host (World.requested src now request) events := by
  rintro older newer archive rfl harchive hready
  obtain ⟨hOlder, hNewer⟩ := runMeets_append.1 hmeets
  have hsound := run_sound hv2 hOlder (sound_requested hsettled now)
  refine ⟨hsound.isWhole harchive hready, ?_⟩
  intro hnow
  rw [(hsound.same archive harchive).expiresAt] at hnow
  have hstill : StillReady request ((World.requested src now request).run host older) := by
    refine .inl ?_
    unfold World.isReady
    rw [harchive]
    simp [hready]
  have hend := run_stillReady hv2 hNewer hsound hstill
  unfold World.run at hend hnow ⊢
  rw [List.foldl_append] at hnow ⊢
  rcases hend with hready' | hexpired
  · exact hready'
  · omega

end Runs

/-! ## Two calls -/

/-- The only file of `u`. -/
def loneFile : StoredFileRecord where
  id := "f"
  ownerUserId := "u"
  folderId := none
  originalName := "a"
  sizeBytes := 1
  contentChecksum := some "c"
  storageStatus := .available
  storageKey := "files/a"
  deletedAt := none
  storageRevision := 0

def loneSources : Sources String where
  rows := ⟨[], [loneFile]⟩
  folderRevision := fun _ => 0
  disk := fun key => if key = "files/a" then some "x" else none
  mutations := []
  usedIds := ["f"]

def plainHost : Host String Char where
  runtime := ⟨fun _ _ => .eq, fun _ => "k"⟩
  packer := ⟨fun _ _ _ r => if r.use = .streamed then r.body.toList else [], fun _ _ _ => ['.']⟩
  checksum := String.ofList
  bodyOf := fun _ => "x"

def loneRequest : ZipArchiveRecord where
  id := "z"
  userId := "u"
  contentKey := "v2:k"
  fileIds := ["f"]
  folderIds := []
  status := .queued
  storageKey := none
  fileName := none
  sizeBytes := none
  fileCount := none
  error := none
  expiresAt := 100
  storageRevision := 0

theorem loneSources_settled : loneSources.Settled plainHost.bodyOf := by
  refine ⟨by decide, by decide, ?_⟩
  intro file hfile _
  obtain rfl := List.mem_singleton.1 hfile
  rfl

def loneWorld : World String Char := .requested loneSources 0 loneRequest

/-- The rest of a call, up to the commit of its publication. -/
def publishing (i : Nat) : List (Event String) :=
  [.worker i .setProcessing, .worker i .load, .worker i .reconsider, .worker i .openSource,
    .worker i (.openOutput 0), .worker i .stream, .worker i .close, .worker i (.write 2), .worker i .finish,
    .worker i .compare, .worker i .measure, .worker i .prepare, .validate "archive-publish-z-j",
    .apply "archive-publish-z-j", .commit "archive-publish-z-j"]

/-- A call waits for a mutation of its source, begins to write and stalls; another call takes the job over
meanwhile and publishes. Then the first one goes on, to the end of its stream. -/
def takenOver : List (Event String) :=
  [.find "j", .worker 0 .mayStart, .worker 0 .setProcessing, .worker 0 .load,
    .source (.prepare ⟨"m", ["f"], [], []⟩), .worker 0 .reconsider, .source (.abort "m"),
    .worker 0 .load, .worker 0 .reconsider, .worker 0 .openSource, .worker 0 (.openOutput 0),
    .worker 0 .stream, .find "j", .worker 1 .mayStart] ++ publishing 1 ++ [.worker 0 .close]

theorem run_readyIsWhole_takenOver :
    ReadyIsWhole plainHost loneWorld takenOver ∧
      (loneWorld.run plainHost takenOver).isReady = true ∧
      (loneWorld.run plainHost takenOver).calls.length = 2 :=
  ⟨run_readyIsWhole loneSources_settled (by decide) (by decide +kernel), by decide +kernel,
    by decide +kernel⟩

/-- A call that was about to report that it has begun, and the one that took its job over meanwhile. -/
def overtaken : List (Event String) :=
  [.find "j", .worker 0 .mayStart, .find "j", .worker 1 .mayStart] ++ publishing 1

theorem late_processing_unreadies :
    ¬ ReadyIsWhole plainHost loneWorld (overtaken ++ [.worker 0 .setProcessing]) := by
  intro h
  have hready : (loneWorld.run plainHost overtaken).archive.map (fun row => (row.status, row.expiresAt)) =
      some (.ready, 100) := by decide +kernel
  obtain ⟨row, hrow, hpair⟩ := Option.map_eq_some_iff.1 hready
  obtain ⟨hstatus, hexpires⟩ := Prod.mk.inj hpair
  have hlate := (h overtaken [.worker 0 .setProcessing] row rfl hrow hstatus).2
  rw [hexpires] at hlate
  revert hlate
  decide +kernel

end Staaash.Archives
