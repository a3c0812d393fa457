import Staaash.Archives.Generation
import Staaash.Artifacts.Proofs.PublishingProofs
import Staaash.Artifacts.Proofs.SourcesProofs

/-!
# Proofs: what the calls of the handler have in hand

A call has read its sources as its selection describes them, or its selection is out of date and cannot be
published. What it has written, and has still to write, is what the stream has given.
-/

namespace Staaash.Archives

open Staaash.Library Staaash.Artifacts

variable {Body Byte : Type} {host : Host Body Byte} {request archive archive' : ZipArchiveRecord}
  {src src' : Sources Body} {selection : ArchiveSelection} {loaded : Loaded}
  {readings : List (Reading Body)} {r : Reading Body} {x : Writing Body Byte} {i n : Nat}

/-! ## Selections -/

theorem describe_sources {rt : Runtime} {userId : String} {fileIds folderIds : List String}
    {folders : List FolderRecord} {files : List StoredFileRecord}
    (h : describeArchiveSelection rt userId fileIds folderIds folders files = .ok selection) :
    selection.filesToZip = files ∧ ∀ entry ∈ selection.entries, entry.file ∈ files := by
  unfold describeArchiveSelection at h
  simp only at h
  split at h
  · cases h
  · obtain rfl := Except.ok.inj h
    refine ⟨rfl, ?_⟩
    intro entry hentry
    obtain ⟨file, hfile, rfl⟩ := List.mem_map.1 (List.mem_mergeSort.1 hentry)
    exact hfile

/-- The sources of a selection are rows, and its entries are of these. -/
theorem selection_sources {rt : Runtime} {rows : Rows} {userId : String} {fileIds folderIds : List String}
    (h : readArchiveSelection rt rows userId fileIds folderIds = .ok selection) :
    (∀ file ∈ selection.filesToZip, file ∈ rows.files) ∧
      ∀ entry ∈ selection.entries, entry.file ∈ selection.filesToZip := by
  obtain ⟨hfiles, hentries⟩ := describe_sources h
  rw [hfiles]
  exact ⟨fun file hfile => (List.mem_filter.1 hfile).1, hentries⟩

/-! ## The same request -/

/-- What never changes of a row. -/
structure SameRequest (request archive : ZipArchiveRecord) : Prop where
  id : archive.id = request.id
  userId : archive.userId = request.userId
  contentKey : archive.contentKey = request.contentKey
  fileIds : archive.fileIds = request.fileIds
  folderIds : archive.folderIds = request.folderIds
  expiresAt : archive.expiresAt = request.expiresAt

theorem SameRequest.tmpKey (h : SameRequest request archive) : archive.tmpKey = request.tmpKey := by
  unfold ZipArchiveRecord.tmpKey
  rw [h.id]

theorem SameRequest.archiveKey (h : SameRequest request archive) :
    archive.archiveKey = request.archiveKey := by
  unfold ZipArchiveRecord.archiveKey
  rw [h.id]

theorem SameRequest.select {call : Call Body Byte} (h : SameRequest request call.archive) :
    call.select host src =
      readArchiveSelection host.runtime src.rows request.userId request.fileIds request.folderIds := by
  unfold Call.select
  rw [h.userId, h.fileIds, h.folderIds]

theorem SameRequest.contentMatches (h : SameRequest request archive) (hv2 : request.hasContentKey = true)
    {contentKey : String} (hmatches : archive.contentMatches contentKey = true) :
    contentKey = request.contentKey := by
  unfold ZipArchiveRecord.contentMatches ZipArchiveRecord.hasContentKey at hmatches
  unfold ZipArchiveRecord.hasContentKey at hv2
  rw [h.contentKey, hv2] at hmatches
  simpa using hmatches

theorem keysApart (request : ZipArchiveRecord) (mutationId : String) :
    KeysApart mutationId request.tmpKey request.archiveKey :=
  keysApart_of (by decide) (by decide) (by decide) (by decide) (by decide)

/-! ## Readings -/

theorem entriesRead_cons (use : Use) (r : Reading Body) :
    entriesRead use (r :: readings) =
      if r.use = use then entriesRead use readings ++ [r.entry] else entriesRead use readings := by
  unfold entriesRead
  by_cases h : r.use = use <;> simp [h]

theorem readEntry_cases {use : Use} {entry : ArchiveEntry} (h : readEntry src use entry = some r) :
    r.entry = entry ∧ r.use = use ∧ src.disk entry.file.storageKey = some r.body := by
  obtain ⟨body, hdisk, rfl⟩ := Option.map_eq_some_iff.1 h
  exact ⟨rfl, rfl, hdisk⟩

/-- The next entry is read. -/
theorem readNext_cases {use : Use} {entries : List ArchiveEntry}
    (h : readNext src use entries readings = some r) (hread : entriesRead use readings <+: entries) :
    r.use = use ∧ r.entry ∈ entries ∧ src.disk r.entry.file.storageKey = some r.body ∧
      entriesRead use (r :: readings) <+: entries := by
  obtain ⟨entry, hhead, hentry⟩ := Option.bind_eq_some_iff.1 h
  obtain ⟨rfl, huse, hdisk⟩ := readEntry_cases hentry
  obtain ⟨rest, hrest⟩ := List.head?_eq_some_iff.1 hhead
  have hsplit : entries = entriesRead use readings ++ r.entry :: rest := by
    obtain ⟨suffix, hsuffix⟩ := hread
    unfold entriesRemaining at hrest
    rw [← hsuffix, List.drop_left] at hrest
    rw [← hsuffix, hrest]
  refine ⟨huse, ?_, hdisk, ?_⟩
  · rw [hsplit]
    simp
  · rw [entriesRead_cons, if_pos huse]
    exact ⟨rest, by rw [hsplit]; simp⟩

theorem entriesRead_of_remaining {use : Use} {entries : List ArchiveEntry}
    (hread : entriesRead use readings <+: entries) (hremaining : entriesRemaining use entries readings = []) :
    entriesRead use readings = entries := by
  obtain ⟨suffix, hsuffix⟩ := hread
  unfold entriesRemaining at hremaining
  rw [← hsuffix, List.drop_left] at hremaining
  rw [← hsuffix, hremaining, List.append_nil]

/-! ## What a call has in hand -/

/-- A selection that was read for the request, whose files are kept track of. -/
structure Chosen (host : Host Body Byte) (request : ZipArchiveRecord) (src : Sources Body)
    (selection : ArchiveSelection) : Prop where
  read : ∃ rows, readArchiveSelection host.runtime rows request.userId request.fileIds request.folderIds =
    .ok selection
  tracked : ∀ file ∈ selection.filesToZip, src.Tracked file

/-- Readings of a selection with the right key. -/
structure Packing (host : Host Body Byte) (request : ZipArchiveRecord) (src : Sources Body)
    (selection : ArchiveSelection) (readings : List (Reading Body)) : Prop
    extends Chosen host request src selection where
  contentKey : selection.contentKey = request.contentKey
  listed : ∀ r ∈ readings, r.entry ∈ selection.entries
  sourced : ∀ r ∈ readings, src.Sourced host.bodyOf r.entry.file r.body

/-- A file that is being written, on its own. -/
structure Streaming (host : Host Body Byte) (x : Writing Body Byte) : Prop where
  opened : entriesRead .opened x.readings = x.loaded.selection.entries
  streamed : entriesRead .streamed x.readings <+: x.loaded.selection.entries
  ended : x.closed = true → entriesRead .streamed x.readings = x.loaded.selection.entries
  stream : x.output.written ++ x.pending =
    host.packer.stream x.calledAt x.loaded.selection.directories x.readings ++
      if x.closed then host.packer.close x.calledAt x.loaded.selection.directories x.readings else []

structure Finished (x : Writing Body Byte) : Prop where
  closed : x.closed = true
  pending : x.pending = []

/-- What was published is the whole output of faithful readings. -/
structure HandedOver (host : Host Body Byte) (request : ZipArchiveRecord) (x : Writing Body Byte) : Prop where
  read : ∃ rows, readArchiveSelection host.runtime rows request.userId request.fileIds request.folderIds =
    .ok x.loaded.selection
  contentKey : x.loaded.selection.contentKey = request.contentKey
  faithful : Faithful host x.loaded.selection.entries x.readings
  output : x.output.written = host.packer.output x.calledAt x.loaded.selection.directories x.readings

def StageSound (host : Host Body Byte) (request : ZipArchiveRecord) (src : Sources Body) :
    Stage Body Byte → Prop
  | .loaded l => Chosen host request src l.selection
  | .opening l readings => Packing host request src l.selection readings ∧
      entriesRead .opened readings <+: l.selection.entries ∧ entriesRead .streamed readings = []
  | .writing x => Packing host request src x.loaded.selection x.readings ∧ Streaming host x
  | .written x | .compared x | .measured x _ => Packing host request src x.loaded.selection x.readings ∧
      Streaming host x ∧ Finished x
  | .handedOver x => HandedOver host request x
  | _ => True

/-- A call has found the row before it became ready, unless it ended there. -/
structure CallSound (host : Host Body Byte) (request : ZipArchiveRecord) (src : Sources Body)
    (archive : Option ZipArchiveRecord) (call : Call Body Byte) : Prop where
  same : SameRequest request call.archive
  found : call.stage = .over ∨ ∀ row ∈ archive, call.archive.storageRevision ≤ row.storageRevision ∧
    (call.archive.storageRevision = row.storageRevision → row.status ≠ .ready)
  stage : StageSound host request src call.stage

theorem Chosen.listed (h : Chosen host request src selection) {entry : ArchiveEntry}
    (hentry : entry ∈ selection.entries) : entry.file ∈ selection.filesToZip := by
  obtain ⟨rows, hread⟩ := h.read
  exact (selection_sources hread).2 entry hentry

/-- A source is read. -/
theorem Packing.cons (h : Packing host request src selection readings) (hsettled : src.Settled host.bodyOf)
    (hentry : r.entry ∈ selection.entries) (hdisk : src.disk r.entry.file.storageKey = some r.body) :
    Packing host request src selection (r :: readings) := by
  refine ⟨h.toChosen, h.contentKey, ?_, ?_⟩
  · intro r' hr'
    rcases List.mem_cons.1 hr' with rfl | hold
    · exact hentry
    · exact h.listed r' hold
  · intro r' hr'
    rcases List.mem_cons.1 hr' with rfl | hold
    · exact hsettled.read hdisk
    · exact h.sourced r' hold

theorem Streaming.take (h : Streaming host x) (hopen : x.closed = false) (huse : r.use ≠ .opened)
    (hstreamed : entriesRead .streamed (r :: x.readings) <+: x.loaded.selection.entries) :
    Streaming host (x.take host r) := by
  refine ⟨?_, hstreamed, ?_, ?_⟩
  · show entriesRead .opened (r :: x.readings) = _
    rw [entriesRead_cons, if_neg huse]
    exact h.opened
  · intro hclosed
    rw [show (x.take host r).closed = x.closed from rfl, hopen] at hclosed
    cases hclosed
  · have hstream := h.stream
    rw [hopen] at hstream
    simp only [Bool.false_eq_true, if_false, List.append_nil] at hstream
    simp only [Writing.take, hopen, Bool.false_eq_true, if_false, List.append_nil, Packer.stream]
    rw [← List.append_assoc, hstream]

theorem Streaming.close (h : Streaming host x) (hopen : x.closed = false)
    (hremaining : entriesRemaining .streamed x.loaded.selection.entries x.readings = []) :
    Streaming host (x.end host) := by
  refine ⟨h.opened, h.streamed, fun _ => entriesRead_of_remaining h.streamed hremaining, ?_⟩
  have hstream := h.stream
  rw [hopen] at hstream
  simp only [Bool.false_eq_true, if_false, List.append_nil] at hstream
  simp only [Writing.end, if_true]
  rw [← List.append_assoc, hstream]

theorem Streaming.write (h : Streaming host x) (length : Nat) :
    Streaming host { x with
      output := { x.output with written := x.output.written ++ x.pending.take length }
      pending := x.pending.drop length } := by
  refine ⟨h.opened, h.streamed, h.ended, ?_⟩
  simp only [List.append_assoc, List.take_append_drop]
  exact h.stream

/-- All that is read and written, and nothing was out of date when it was published. -/
theorem Packing.handOver (h : Packing host request src x.loaded.selection x.readings)
    (hstreaming : Streaming host x) (hfinished : Finished x) (hnone : src.mutations = [])
    (hrows : ∀ file ∈ x.loaded.selection.filesToZip, file ∈ src.rows.files) :
    HandedOver host request x := by
  refine ⟨h.toChosen.read, h.contentKey, ⟨hstreaming.opened, hstreaming.ended hfinished.closed, h.listed, ?_⟩, ?_⟩
  · intro r hr
    exact (h.sourced r hr).described hnone (hrows _ (h.toChosen.listed (h.listed r hr)))
  · have hstream := hstreaming.stream
    rwa [hfinished.pending, List.append_nil, hfinished.closed, if_pos rfl] at hstream

end Staaash.Archives
