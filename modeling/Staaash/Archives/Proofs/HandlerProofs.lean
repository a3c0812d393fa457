import Staaash.Archives.Proofs.GenerationProofs

/-!
# Proofs: the steps of a call

The invariant: every call has a true account of what it has in hand, the file of a publication is one that
its call has finished, and the archive is ready only with such a file in place. Here it is kept by what the
sources and the calls do.
-/

namespace Staaash.Archives

open Staaash.Library Staaash.Artifacts

variable {Body Byte : Type} {host : Host Body Byte} {request row row' : ZipArchiveRecord}
  {w w' : World Body Byte} {src src' : Sources Body} {desk : Desk Byte ReadyData} {call : Call Body Byte}
  {stage stage' : Stage Body Byte} {x : Writing Body Byte} {p : Publication ReadyData} {i writer : Nat}

/-! ## The invariant -/

/-- A call has handed over what the writer has written. -/
def World.Handed (w : World Body Byte) (writer : Nat) : Prop :=
  ∃ (i : Nat) (call : Call Body Byte) (x : Writing Body Byte), w.calls[i]? = some call ∧
    call.stage = .handedOver x ∧ x.output.writer = writer

def World.outputs (w : World Body Byte) (i : Nat) : Option (Output Nat Byte) :=
  (w.calls[i]?).bind (·.stage.output?)

structure PublicationSound (request : ZipArchiveRecord) (w : World Body Byte) (p : Publication ReadyData) :
    Prop where
  handed : w.Handed p.writer
  key : p.data.storageKey = request.archiveKey
  pending : p.committed = false →
    ∃ row ∈ w.archive, row.storageRevision = p.preRevision ∧ row.status ≠ .ready

structure Sound (host : Host Body Byte) (request : ZipArchiveRecord) (w : World Body Byte) : Prop where
  settled : w.sources.Settled host.bodyOf
  same : ∀ row ∈ w.archive, SameRequest request row
  desk : DeskSound request.tmpKey request.archiveKey w.desk
  outputs : Outputs w.desk w.outputs
  calls : ∀ (i : Nat) call, w.calls[i]? = some call → CallSound host request w.sources w.archive call
  publications : ∀ p ∈ w.desk.publications, PublicationSound request w p
  ready : ∀ row ∈ w.archive, row.status = .ready → row.storageKey = some request.archiveKey ∧
    ∃ writer, LeadsTo w.desk.files request.archiveKey writer ∧ w.Handed writer

theorem Sound.isWhole (h : Sound host request w) (hrow : w.archive = some row) (hready : row.status = .ready) :
    IsWhole host w row := by
  have hsame := h.same row hrow
  obtain ⟨hkey, writer, hlead, i, call, x, hcall, hstage, rfl⟩ := h.ready row hrow hready
  have hsound := (h.calls i call hcall).stage
  rw [hstage] at hsound
  obtain ⟨⟨rows, hread⟩, hcontent, hfaithful, houtput⟩ := hsound
  have hout : w.outputs i = some x.output := by
    unfold World.outputs
    rw [hcall, Option.bind_some, hstage]
    rfl
  obtain ⟨node, hget, hbytes⟩ := h.outputs.get hout hlead
  refine ⟨⟨request.archiveKey, node, rows, x.loaded.selection, x.calledAt, x.readings, hkey, hget, ?_, ?_,
    hfaithful, hbytes.trans houtput⟩⟩
  · rw [hsame.userId, hsame.fileIds, hsame.folderIds]
    exact hread
  · rw [hsame.contentKey]
    exact hcontent

/-! ## A call goes on -/

theorem getElem?_setStage (w : World Body Byte) (i j : Nat) (stage : Stage Body Byte) :
    (w.setStage i stage).calls[j]? =
      (w.calls[j]?).map fun call => if i = j then { call with stage } else call := by
  show (w.calls.modify i _)[j]? = _
  rw [List.getElem?_modify]
  by_cases hij : i = j <;> simp [hij]

theorem outputs_setStage (hcall : w.calls[i]? = some call) :
    (w.setStage i stage').outputs = Function.update w.outputs i stage'.output? := by
  funext j
  unfold World.outputs
  rw [getElem?_setStage]
  by_cases hj : j = i
  · subst hj
    rw [hcall, Function.update_self]
    simp
  · rw [Function.update_of_ne hj]
    simp [Ne.symm hj]

/-- A call that has handed over its output stays as it is. -/
theorem handed_setStage (hcall : w.calls[i]? = some call) (hnot : ∀ x, call.stage ≠ .handedOver x)
    (h : w.Handed writer) : (w.setStage i stage').Handed writer := by
  obtain ⟨j, other, x, hother, hstage, hwriter⟩ := h
  refine ⟨j, other, x, ?_, hstage, hwriter⟩
  rw [getElem?_setStage, hother]
  by_cases hij : i = j
  · subst hij
    rw [hcall] at hother
    obtain rfl := Option.some.inj hother
    exact absurd hstage (hnot x)
  · simp [hij]

/-- One call comes to another stage, perhaps with a change to the files. -/
theorem Sound.advance (h : Sound host request w) (hcall : w.calls[i]? = some call)
    (hnot : ∀ x, call.stage ≠ .handedOver x) (hover : call.stage = .over → stage' = .over)
    (hdesk : DeskSound request.tmpKey request.archiveKey desk)
    (houtputs : Outputs desk (Function.update w.outputs i stage'.output?))
    (hstage : StageSound host request w.sources stage') (hpublications : desk.publications = w.desk.publications)
    (hleads : ∀ writer, LeadsTo w.desk.files request.archiveKey writer →
      LeadsTo desk.files request.archiveKey writer) :
    Sound host request { w.setStage i stage' with desk } := by
  refine ⟨h.settled, h.same, hdesk, ?_, ?_, ?_, ?_⟩
  · show Outputs desk (w.setStage i stage').outputs
    rw [outputs_setStage hcall]
    exact houtputs
  · intro j other hj
    replace hj : (w.setStage i stage').calls[j]? = some other := hj
    rw [getElem?_setStage] at hj
    obtain ⟨before, hbefore, rfl⟩ := Option.map_eq_some_iff.1 hj
    have hsound := h.calls j before hbefore
    by_cases hij : i = j
    · subst hij
      rw [hcall] at hbefore
      obtain rfl := Option.some.inj hbefore
      rw [if_pos rfl]
      exact ⟨hsound.same, hsound.found.imp_left hover, hstage⟩
    · rw [if_neg hij]
      exact hsound
  · intro p hp
    replace hp : p ∈ desk.publications := hp
    rw [hpublications] at hp
    obtain ⟨hhanded, hkey, hpending⟩ := h.publications p hp
    exact ⟨handed_setStage hcall hnot hhanded, hkey, hpending⟩
  · intro row hrow hready
    obtain ⟨hkey, writer, hlead, hhanded⟩ := h.ready row hrow hready
    exact ⟨hkey, writer, hleads writer hlead, handed_setStage hcall hnot hhanded⟩

/-- The files stay as they are, and the call gives its output up at most. -/
theorem Sound.setStage (h : Sound host request w) (hcall : w.calls[i]? = some call)
    (hnot : ∀ x, call.stage ≠ .handedOver x) (hover : call.stage = .over → stage' = .over)
    (hout : stage'.output? = none ∨ stage'.output? = call.stage.output?)
    (hstage : StageSound host request w.sources stage') : Sound host request (w.setStage i stage') := by
  refine h.advance hcall hnot hover h.desk ?_ hstage rfl fun _ hlead => hlead
  rcases hout with hnone | hsame
  · rw [hnone]
    exact h.outputs.forget i
  · have hself : Function.update w.outputs i stage'.output? = w.outputs := by
      rw [hsame]
      refine Function.update_eq_self_iff.2 ?_
      unfold World.outputs
      rw [hcall, Option.bind_some]
    rw [hself]
    exact h.outputs

/-- The row is written, and is not ready then. -/
theorem Sound.setArchive (h : Sound host request w) (hrow : w.archive = some row)
    (hsame : SameRequest row row') (hrevision : row'.storageRevision = row.storageRevision)
    (hnot : row'.status ≠ .ready) : Sound host request { w with archive := some row' } := by
  have hrequest := h.same row hrow
  refine ⟨h.settled, ?_, h.desk, h.outputs, ?_, ?_, ?_⟩
  · rintro _ ⟨⟩
    exact ⟨hsame.id.trans hrequest.id, hsame.userId.trans hrequest.userId,
      hsame.contentKey.trans hrequest.contentKey, hsame.fileIds.trans hrequest.fileIds,
      hsame.folderIds.trans hrequest.folderIds, hsame.expiresAt.trans hrequest.expiresAt⟩
  · intro j other hj
    have hsound := h.calls j other hj
    refine ⟨hsound.same, hsound.found.imp_right ?_, hsound.stage⟩
    rintro hfound _ ⟨⟩
    rw [hrevision]
    exact ⟨(hfound row hrow).1, fun _ => hnot⟩
  · intro p hp
    obtain ⟨hhanded, hkey, hpending⟩ := h.publications p hp
    refine ⟨hhanded, hkey, ?_⟩
    intro hcommitted
    obtain ⟨before, hbefore, hpre, -⟩ := hpending hcommitted
    rw [hrow] at hbefore
    obtain rfl := Option.some.inj hbefore
    exact ⟨row', rfl, hrevision.trans hpre, hnot⟩
  · rintro _ ⟨⟩ hready
    exact absurd hready hnot

/-! ## The sources change -/

section SourceEvents

variable [DecidableEq Body] {selection : ArchiveSelection} {readings : List (Reading Body)} {e : SourceEvent Body}

theorem Chosen.act (h : Chosen host request src selection) (hact : src.act host.bodyOf e = some src') :
    Chosen host request src' selection :=
  ⟨h.read, fun file hfile => (h.tracked file hfile).act hact⟩

theorem Packing.act (h : Packing host request src selection readings)
    (hact : src.act host.bodyOf e = some src')
    (habort : ∀ id, e = .abort id → ∀ m ∈ src.mutations.find? (·.id = id), ∀ r ∈ readings,
      r.entry.file.id ∈ m.changed → r.body = host.bodyOf r.entry.file) :
    Packing host request src' selection readings := by
  refine ⟨h.toChosen.act hact, h.contentKey, h.listed, ?_⟩
  intro r hr
  refine (h.sourced r hr).act (h.tracked _ (h.toChosen.listed (h.listed r hr))) hact ?_
  intro id he m hm hchanged
  exact habort id he m hm r hr hchanged

theorem StageSound.act (h : StageSound host request src stage) (hact : src.act host.bodyOf e = some src')
    (habort : ∀ id, e = .abort id → ∀ m ∈ src.mutations.find? (·.id = id), ∀ r ∈ stage.readings,
      r.entry.file.id ∈ m.changed → r.body = host.bodyOf r.entry.file) :
    StageSound host request src' stage := by
  cases stage with
  | loaded l => exact Chosen.act h hact
  | opening l readings => exact ⟨h.1.act hact habort, h.2⟩
  | writing x => exact ⟨h.1.act hact habort, h.2⟩
  | written x => exact ⟨h.1.act hact habort, h.2⟩
  | compared x => exact ⟨h.1.act hact habort, h.2⟩
  | measured x m => exact ⟨h.1.act hact habort, h.2⟩
  | _ => exact h

theorem Sound.source (h : Sound host request w) (hact : w.sources.act host.bodyOf e = some src')
    (habort : ∀ id, e = .abort id → ∀ m ∈ w.sources.mutations.find? (·.id = id), ∀ call ∈ w.calls,
      ∀ r ∈ call.stage.readings, r.entry.file.id ∈ m.changed → r.body = host.bodyOf r.entry.file) :
    Sound host request { w with sources := src' } := by
  refine ⟨h.settled.act hact, h.same, h.desk, h.outputs, ?_, ?_, h.ready⟩
  · intro j call hcall
    have hsound := h.calls j call hcall
    refine ⟨hsound.same, hsound.found, hsound.stage.act hact ?_⟩
    intro id he m hm r hr
    exact habort id he m hm call (List.mem_of_getElem? hcall) r hr
  · intro p hp
    obtain ⟨hhanded, hkey, hpending⟩ := h.publications p hp
    exact ⟨hhanded, hkey, hpending⟩

end SourceEvents

/-! ## The steps of a call -/

section Workers

theorem Sound.openOutput (h : Sound host request w) (hcall : w.calls[i]? = some call) {l : Loaded}
    {readings : List (Reading Body)} (hstage : call.stage = .opening l readings)
    (hremaining : entriesRemaining .opened l.selection.entries readings = []) (calledAt : Nat) :
    Sound host request { w.setStage i
      (.writing (.begin host l calledAt (w.desk.openOutput request.tmpKey).2 readings)) with
      desk := (w.desk.openOutput request.tmpKey).1 } := by
  have hopening := (h.calls i call hcall).stage
  rw [hstage] at hopening
  obtain ⟨hpacking, hopened, hstreamed⟩ := hopening
  refine h.advance hcall (by simp [hstage]) (by simp [hstage]) (h.desk.openOutput (keysApart request))
    (h.outputs.openOutput h.desk i) ⟨hpacking, ⟨?_, ?_, ?_, ?_⟩⟩ rfl ?_
  · exact entriesRead_of_remaining hopened hremaining
  · show entriesRead .streamed readings <+: _
    rw [hstreamed]
    exact List.nil_prefix
  · intro hclosed
    cases hclosed
  · simp [Writing.begin, Desk.openOutput]
  · intro writer hlead
    exact hlead.openEmpty (keysApart request "").storage_tmp _

/-- The temporary file is removed by its name, whatever it is by now. -/
theorem Sound.stop (h : Sound host request w) (hcall : w.calls[i]? = some call)
    (hnot : ∀ x, call.stage ≠ .handedOver x) (hover : call.stage ≠ .over) :
    Sound host request { w.setStage i .failing with desk := w.desk.remove request.tmpKey } := by
  refine h.advance hcall hnot (fun hcontra => absurd hcontra hover) (h.desk.remove ?_)
    ((h.outputs.forget i).of_nodes rfl rfl) trivial rfl ?_
  · intro p _ _
    exact ⟨(keysApart request p.mutationId).incoming_tmp, (keysApart request p.mutationId).storage_tmp⟩
  · intro writer hlead
    exact hlead.remove (keysApart request "").storage_tmp

/-- The guards of a publication have found every source as it was read, and the row as it was found. -/
theorem guarded_cases (h : w.guarded call.archive x.loaded = true) :
    (∀ file ∈ x.loaded.selection.filesToZip, ∃ row ∈ w.sources.rows.files,
      row.id = file.id ∧ row.storageRevision = file.storageRevision) ∧
    ∃ row ∈ w.archive, row.storageRevision = call.archive.storageRevision := by
  unfold World.guarded at h
  simp only [Bool.and_eq_true, List.all_eq_true, List.any_eq_true, decide_eq_true_eq, Option.any_eq_true] at h
  obtain ⟨⟨hfiles, -⟩, row, hrow, hrevision⟩ := h
  exact ⟨fun file hfile => by simpa using hfiles file hfile, row, hrow, hrevision⟩

theorem Sound.prepare (h : Sound host request w) (hcall : w.calls[i]? = some call) {m : Measured}
    (hstage : call.stage = .measured x m)
    (hfresh : w.desk.publication (call.publication x m).mutationId = none)
    (hnone : w.desk.publishing = false) (hmutations : w.sources.mutations = [])
    (hguarded : w.guarded call.archive x.loaded = true) :
    Sound host request { w.setStage i (.handedOver x) with desk := w.desk.prepare (call.publication x m) } := by
  have hsound := h.calls i call hcall
  have hmeasured := hsound.stage
  rw [hstage] at hmeasured
  obtain ⟨hpacking, hstreaming, hfinished⟩ := hmeasured
  obtain ⟨hfiles, row, hrow, hrevision⟩ := guarded_cases hguarded
  have hout : HandedOver host request x := by
    refine hpacking.handOver hstreaming hfinished hmutations ?_
    intro file hfile
    obtain ⟨current, hcurrent, hid, hrev⟩ := hfiles file hfile
    exact (hpacking.tracked file hfile).mem hcurrent hid hrev
  have hhanded : Sound host request (w.setStage i (.handedOver x)) :=
    h.setStage hcall (by simp [hstage]) (by simp [hstage]) (.inr (by rw [hstage]; rfl)) hout
  have hdesk : DeskSound request.tmpKey request.archiveKey (w.desk.prepare (call.publication x m)) := by
    have hsteps : (call.publication x m).steps = buildArtifactPublishSteps (call.publication x m).mutationId
        request.tmpKey request.archiveKey m.sizeBytes m.checksum m.oldChecksum := by
      rw [← hsound.same.tmpKey, ← hsound.same.archiveKey]
      rfl
    refine h.desk.prepare ⟨_, _, _, hsteps⟩ ?_ hfresh hnone
    rw [← hsound.same.tmpKey, ← hsound.same.archiveKey]
    exact Publication.carries_prepared
  refine ⟨hhanded.settled, hhanded.same, hdesk, hhanded.outputs.of_nodes rfl rfl, hhanded.calls, ?_,
    hhanded.ready⟩
  intro q hq
  rcases List.mem_append.1 hq with hold | hnew
  · obtain ⟨hqHanded, hqKey, hqPending⟩ := hhanded.publications q hold
    exact ⟨hqHanded, hqKey, hqPending⟩
  · obtain rfl := List.mem_singleton.1 hnew
    refine ⟨⟨i, { call with stage := .handedOver x }, x, ?_, rfl, rfl⟩, hsound.same.archiveKey, ?_⟩
    · show (w.setStage i _).calls[i]? = _
      rw [getElem?_setStage, hcall]
      simp
    · intro _
      refine ⟨row, hrow, hrevision, ?_⟩
      rcases hsound.found with hover | hfound
      · rw [hstage] at hover
        cases hover
      · exact (hfound row hrow).2 hrevision.symm

variable [Inhabited Byte]

/-- A call writes to its file, where no other call has opened it since. -/
theorem Sound.write (h : Sound host request w) (hcall : w.calls[i]? = some call)
    (hstage : call.stage = .writing x) (howns : w.desk.OwnsOutput x.output) (length : Nat) :
    Sound host request { w.setStage i (.writing { x with
        output := (w.desk.write x.output (x.pending.take length)).2
        pending := x.pending.drop length }) with
      desk := (w.desk.write x.output (x.pending.take length)).1 } := by
  have hwriting := (h.calls i call hcall).stage
  rw [hstage] at hwriting
  obtain ⟨hpacking, hstreaming⟩ := hwriting
  have hout : w.outputs i = some x.output := by
    unfold World.outputs
    rw [hcall, Option.bind_some, hstage]
    rfl
  exact h.advance hcall (by simp [hstage]) (by simp [hstage]) (h.desk.write _ _)
    (h.outputs.write hout howns _) ⟨hpacking, hstreaming.write length⟩ rfl fun _ hlead => hlead.write _ _ _

/-- A step of a call that writes to its own file. -/
theorem Sound.worker (h : Sound host request w) (hv2 : request.hasContentKey = true)
    (hcall : w.calls[i]? = some call) {event : WorkerEvent} (hact : workerAct host w i call event = some w')
    (hown : ∀ o ∈ call.stage.writesTo event, w.desk.OwnsOutput o) :
    Sound host request w' := by
  have hsound := h.calls i call hcall
  have hstageSound := hsound.stage
  cases event with
  | mayStart =>
    simp only [workerAct] at hact
    split at hact
    · next hstage =>
      obtain rfl := Option.some.inj hact
      refine h.setStage hcall (by simp [hstage]) (by simp [hstage]) (.inl ?_) ?_
      · split <;> rfl
      · split <;> trivial
    · cases hact
  | setProcessing =>
    simp only [workerAct] at hact
    split at hact
    · next row hstage hrow =>
      obtain rfl := Option.some.inj hact
      refine Sound.setArchive (w := w.setStage i .loading) ?_ hrow ⟨rfl, rfl, rfl, rfl, rfl, rfl⟩ rfl (by simp)
      exact h.setStage hcall (by simp [hstage]) (by simp [hstage]) (.inl rfl) trivial
    · cases hact
  | load =>
    simp only [workerAct] at hact
    split at hact
    · next selection hstage hselect =>
      obtain rfl := Option.some.inj hact
      rw [hsound.same.select] at hselect
      refine h.setStage hcall (by simp [hstage]) (by simp [hstage]) (.inl rfl) ⟨⟨_, hselect⟩, ?_⟩
      intro file hfile
      exact h.settled.tracked ((selection_sources hselect).1 file hfile)
    · cases hact
  | reconsider =>
    simp only [workerAct] at hact
    split at hact
    · next l hstage =>
      rw [hstage] at hstageSound
      split at hact
      · obtain rfl := Option.some.inj hact
        exact h.setStage hcall (by simp [hstage]) (by simp [hstage]) (.inl rfl) trivial
      · obtain ⟨hmatches, hw⟩ := Option.ite_none_right_eq_some.1 hact
        obtain rfl := Option.some.inj hw
        have hkey := hsound.same.contentMatches hv2 hmatches
        refine h.setStage hcall (by simp [hstage]) (by simp [hstage]) (.inl rfl)
          ⟨⟨hstageSound, hkey, ?_, ?_⟩, List.nil_prefix, rfl⟩
        · intro r hr
          cases hr
        · intro r hr
          cases hr
    · cases hact
  | openSource =>
    simp only [workerAct] at hact
    split at hact
    · next l readings hstage =>
      rw [hstage] at hstageSound
      obtain ⟨hpacking, hopened, hstreamed⟩ := hstageSound
      obtain ⟨r, hread, rfl⟩ := Option.map_eq_some_iff.1 hact
      obtain ⟨huse, hentry, hdisk, hopened'⟩ := readNext_cases hread hopened
      refine h.setStage hcall (by simp [hstage]) (by simp [hstage]) (.inl rfl)
        ⟨hpacking.cons h.settled hentry hdisk, hopened', ?_⟩
      rw [entriesRead_cons, if_neg (by simp [huse])]
      exact hstreamed
    · cases hact
  | openOutput calledAt =>
    simp only [workerAct] at hact
    split at hact
    · next l readings hstage =>
      obtain ⟨hremaining, hw⟩ := Option.ite_none_right_eq_some.1 hact
      obtain rfl := Option.some.inj hw
      rw [hsound.same.tmpKey]
      exact h.openOutput hcall hstage hremaining calledAt
    · cases hact
  | sample index =>
    simp only [workerAct] at hact
    split at hact
    · next x hstage =>
      rw [hstage] at hstageSound
      obtain ⟨hpacking, hstreaming⟩ := hstageSound
      obtain ⟨hclosed, hmap⟩ := Option.ite_none_left_eq_some.1 hact
      obtain ⟨r, hbind, rfl⟩ := Option.map_eq_some_iff.1 hmap
      obtain ⟨entry, hentry, hread⟩ := Option.bind_eq_some_iff.1 hbind
      obtain ⟨rfl, huse, hdisk⟩ := readEntry_cases hread
      refine h.setStage hcall (by simp [hstage]) (by simp [hstage]) (.inr (by rw [hstage]; rfl))
        ⟨hpacking.cons h.settled (List.mem_of_getElem? hentry) hdisk,
          hstreaming.take (by simpa using hclosed) (by simp [huse]) ?_⟩
      rw [entriesRead_cons, if_neg (by simp [huse])]
      exact hstreaming.streamed
    · cases hact
  | stream =>
    simp only [workerAct] at hact
    split at hact
    · next x hstage =>
      rw [hstage] at hstageSound
      obtain ⟨hpacking, hstreaming⟩ := hstageSound
      obtain ⟨hclosed, hmap⟩ := Option.ite_none_left_eq_some.1 hact
      obtain ⟨r, hread, rfl⟩ := Option.map_eq_some_iff.1 hmap
      obtain ⟨huse, hentry, hdisk, hstreamed⟩ := readNext_cases hread hstreaming.streamed
      exact h.setStage hcall (by simp [hstage]) (by simp [hstage]) (.inr (by rw [hstage]; rfl))
        ⟨hpacking.cons h.settled hentry hdisk,
          hstreaming.take (by simpa using hclosed) (by simp [huse]) hstreamed⟩
    · cases hact
  | close =>
    simp only [workerAct] at hact
    split at hact
    · next x hstage =>
      rw [hstage] at hstageSound
      obtain ⟨hpacking, hstreaming⟩ := hstageSound
      obtain ⟨⟨hclosed, hremaining⟩, hw⟩ := Option.ite_none_right_eq_some.1 hact
      obtain rfl := Option.some.inj hw
      exact h.setStage hcall (by simp [hstage]) (by simp [hstage]) (.inr (by rw [hstage]; rfl))
        ⟨hpacking, hstreaming.close hclosed hremaining⟩
    · cases hact
  | write length =>
    simp only [workerAct] at hact
    split at hact
    · next x hstage =>
      obtain rfl := Option.some.inj hact
      exact h.write hcall hstage (hown x.output (by rw [hstage]; rfl)) length
    · cases hact
  | finish =>
    simp only [workerAct] at hact
    split at hact
    · next x hstage =>
      rw [hstage] at hstageSound
      obtain ⟨hpacking, hstreaming⟩ := hstageSound
      obtain ⟨⟨hclosed, hpending⟩, hw⟩ := Option.ite_none_right_eq_some.1 hact
      obtain rfl := Option.some.inj hw
      exact h.setStage hcall (by simp [hstage]) (by simp [hstage]) (.inr (by rw [hstage]; rfl))
        ⟨hpacking, hstreaming, hclosed, by simpa using hpending⟩
    · cases hact
  | compare =>
    simp only [workerAct] at hact
    split at hact
    · next x selection hstage hselect =>
      rw [hstage] at hstageSound
      obtain ⟨-, hw⟩ := Option.ite_none_right_eq_some.1 hact
      obtain rfl := Option.some.inj hw
      exact h.setStage hcall (by simp [hstage]) (by simp [hstage]) (.inr (by rw [hstage]; rfl)) hstageSound
    · cases hact
  | measure =>
    simp only [workerAct] at hact
    split at hact
    · next x hstage =>
      rw [hstage] at hstageSound
      obtain ⟨m, -, rfl⟩ := Option.map_eq_some_iff.1 hact
      exact h.setStage hcall (by simp [hstage]) (by simp [hstage]) (.inr (by rw [hstage]; rfl)) hstageSound
    · cases hact
  | prepare =>
    simp only [workerAct] at hact
    split at hact
    · next x m hstage =>
      obtain ⟨⟨hfresh, hnone, hmutations, hguarded⟩, hw⟩ := Option.ite_none_right_eq_some.1 hact
      obtain rfl := Option.some.inj hw
      exact h.prepare hcall hstage (Option.isNone_iff_eq_none.1 hfresh) hnone hmutations hguarded
    · cases hact
  | stop =>
    simp only [workerAct] at hact
    cases hstage : call.stage with
    | loading | loaded _ | opening _ _ =>
      rw [hstage] at hact
      obtain rfl := Option.some.inj hact
      exact h.setStage hcall (by simp [hstage]) (by simp [hstage]) (.inl rfl) trivial
    | writing _ | written _ | compared _ | measured _ _ =>
      rw [hstage] at hact
      obtain rfl := Option.some.inj hact
      rw [hsound.same.tmpKey]
      exact h.stop hcall (by simp [hstage]) (by simp [hstage])
    | _ =>
      rw [hstage] at hact
      cases hact
  | setFailed error =>
    simp only [workerAct] at hact
    split at hact
    · next row hstage hrow =>
      obtain rfl := Option.some.inj hact
      refine Sound.setArchive (w := w.setStage i .over) ?_ hrow ⟨rfl, rfl, rfl, rfl, rfl, rfl⟩ rfl (by simp)
      exact h.setStage hcall (by simp [hstage]) (by simp) (.inl rfl) trivial
    · cases hact

end Workers

end Staaash.Archives
