import Staaash.Artifacts.Publishing

/-!
# Proofs: where a publication carries its file

From its first rename on, the file that a publication has found under the temporary name is either under the
incoming name or under the name of the artifact, whatever else becomes of the temporary name. A writer who
keeps to the file that he was the last to open has in it what he has written.
-/

namespace Staaash.Artifacts

open Staaash.Library

variable {Byte Data : Type} {files files' : ArtifactFiles Byte} {key : String} {writer : Nat}
  {p p' : Publication Data} {mutationId tmpKey storageKey : String}

/-- The key leads to a file that the writer was the last to open. -/
def LeadsTo (files : ArtifactFiles Byte) (key : String) (writer : Nat) : Prop :=
  ∃ n node, files.names key = some n ∧ files.nodes[n]? = some node ∧ node.opener = writer

theorem LeadsTo.of_get {node : FileNode Nat Byte} (hget : files.get key = some node)
    (hopener : node.opener = writer) : LeadsTo files key writer := by
  obtain ⟨n, hname, hnode⟩ := Option.bind_eq_some_iff.1 hget
  exact ⟨n, node, hname, hnode, hopener⟩

theorem LeadsTo.openEmpty (h : LeadsTo files key writer) {name : String} (hne : key ≠ name) (opener : Nat) :
    LeadsTo (files.openEmpty name opener) key writer := by
  obtain ⟨n, node, hname, hnode, hopener⟩ := h
  obtain ⟨hname', hnode'⟩ := @OpenFiles.openEmpty_keeps _ _ _ _ _ _ _ opener _ hname hne
  exact ⟨n, node, hname', hnode'.trans hnode, hopener⟩

theorem LeadsTo.write [Inhabited Byte] (h : LeadsTo files key writer) (m offset : Nat) (piece : List Byte) :
    LeadsTo (files.write m offset piece) key writer := by
  obtain ⟨n, node, hname, hnode, hopener⟩ := h
  refine ⟨n, _, hname, by rw [OpenFiles.write_node, hnode]; rfl, ?_⟩
  by_cases hmn : m = n
  · simpa [hmn] using hopener
  · simpa [hmn] using hopener

theorem LeadsTo.remove (h : LeadsTo files key writer) {name : String} (hne : key ≠ name) :
    LeadsTo (files.remove name) key writer := by
  obtain ⟨n, node, hname, hnode, hopener⟩ := h
  exact ⟨n, node, by rw [OpenFiles.remove_names, if_neg hne, hname], hnode, hopener⟩

/-- A file that is moved. -/
theorem LeadsTo.renamed (h : LeadsTo files key writer) (target : String) :
    LeadsTo (files.rename key target) target writer := by
  obtain ⟨n, node, hname, hnode, hopener⟩ := h
  exact ⟨n, node, by rw [OpenFiles.rename_names, if_pos rfl, hname], hnode, hopener⟩

/-- A file beside the one that is moved. -/
theorem LeadsTo.rename (h : LeadsTo files key writer) {source target : String} (hsource : key ≠ source)
    (htarget : key ≠ target) : LeadsTo (files.rename source target) key writer := by
  obtain ⟨n, node, hname, hnode, hopener⟩ := h
  exact ⟨n, node, by rw [OpenFiles.rename_names, if_neg htarget, if_neg hsource, hname], hnode, hopener⟩

/-! ## Keys -/

/-- No two keys of a publication are the same. -/
structure KeysApart (mutationId tmpKey storageKey : String) : Prop where
  storage_tmp : storageKey ≠ tmpKey
  incoming_tmp : incomingKey mutationId storageKey ≠ tmpKey
  storage_incoming : storageKey ≠ incomingKey mutationId storageKey
  storage_backup : storageKey ≠ backupKey mutationId storageKey
  incoming_backup : incomingKey mutationId storageKey ≠ backupKey mutationId storageKey

/-- Strings that begin differently. -/
theorem append_ne {a b c d : String} (k : Nat) (ha : k ≤ a.toList.length) (hc : k ≤ c.toList.length)
    (h : a.toList.take k ≠ c.toList.take k) : a ++ b ≠ c ++ d := by
  intro heq
  have htake := congrArg (fun s : String => s.toList.take k) heq
  simp only [String.toList_append, List.take_append_of_le_length ha, List.take_append_of_le_length hc] at htake
  exact h htake

theorem keysApart_of {a b c d : String} (ha : 4 ≤ a.toList.length) (hc : 5 ≤ c.toList.length)
    (ha4 : a.toList.take 4 ≠ "tmp/".toList) (hc4 : c.toList.take 4 = "tmp/".toList)
    (hc5 : c.toList.take 5 ≠ "tmp/i".toList) : KeysApart mutationId (c ++ d) (a ++ b) where
  storage_tmp := append_ne 4 ha (by omega) (by rw [hc4]; exact ha4)
  incoming_tmp := append_ne 5 (by decide) hc (Ne.symm hc5)
  storage_incoming := append_ne 4 ha (by decide) ha4
  storage_backup := append_ne 4 ha (by decide) ha4
  incoming_backup := append_ne 5 (by decide) (by decide) (by decide)

/-! ## Steps -/

/-- Where the file of a publication is after some steps, once it has left the temporary name. -/
def carriedTo (mutationId storageKey : String) : Option String → Nat → Option String
  | _, 0 => none
  | none, _ => some storageKey
  | some _, 1 | some _, 2 => some (incomingKey mutationId storageKey)
  | some _, _ => some storageKey

/-- The steps are those of an artifact, and its file is where they have carried it. -/
def Carries (files : ArtifactFiles Byte) (tmpKey storageKey : String) (p : Publication Data) : Prop :=
  ∃ sizeBytes checksum oldChecksum,
    p.steps = buildArtifactPublishSteps p.mutationId tmpKey storageKey sizeBytes checksum oldChecksum ∧
    ∀ key ∈ carriedTo p.mutationId storageKey oldChecksum p.applied, LeadsTo files key p.writer

theorem carriedTo_cases {oldChecksum : Option String} {applied : Nat}
    (h : key ∈ carriedTo mutationId storageKey oldChecksum applied) :
    key = incomingKey mutationId storageKey ∨ key = storageKey := by
  unfold carriedTo at h
  split at h <;> simp_all

/-- What becomes of other names does not matter. -/
theorem Carries.mono (h : Carries files tmpKey storageKey p)
    (hkeep : ∀ key, key = incomingKey p.mutationId storageKey ∨ key = storageKey → LeadsTo files key p.writer →
      LeadsTo files' key p.writer) : Carries files' tmpKey storageKey p := by
  obtain ⟨sizeBytes, checksum, oldChecksum, hsteps, hcarried⟩ := h
  exact ⟨sizeBytes, checksum, oldChecksum, hsteps, fun key hkey =>
    hkeep key (carriedTo_cases hkey) (hcarried key hkey)⟩

namespace Publication

theorem apply_cases (h : p.apply files = some (p', files')) :
    (∃ sourceKey targetKey sizeBytes checksum, p.next = some (.rename sourceKey targetKey sizeBytes checksum) ∧
      p.validated = true ∧ p.committed = false ∧ (files.get sourceKey).isSome ∧
      p' = { p with applied := p.applied + 1, validated := false } ∧
      files' = files.rename sourceKey targetKey) ∨
    (∃ targetKey checksum, p.next = some (.deleteFile targetKey checksum) ∧ p.committed = true ∧
      p' = { p with applied := p.applied + 1 } ∧ files' = files.remove targetKey) := by
  unfold apply at h
  rcases hnext : p.next with _ | ⟨sourceKey, targetKey, sizeBytes, checksum⟩ | ⟨targetKey, checksum⟩
  · simp [hnext] at h
  · rw [hnext] at h
    obtain ⟨⟨hvalidated, hcommitted, hsource⟩, heq⟩ := Option.ite_none_right_eq_some.1 h
    obtain ⟨rfl, rfl⟩ := Prod.mk.inj (Option.some.inj heq)
    exact .inl ⟨sourceKey, targetKey, sizeBytes, checksum, rfl, hvalidated, hcommitted, hsource, rfl, rfl⟩
  · rw [hnext] at h
    obtain ⟨hcommitted, heq⟩ := Option.ite_none_right_eq_some.1 h
    obtain ⟨rfl, rfl⟩ := Prod.mk.inj (Option.some.inj heq)
    exact .inr ⟨targetKey, checksum, rfl, hcommitted, rfl, rfl⟩

/-- Only the backup is deleted. -/
theorem deletes_backup {sizeBytes : Nat} {checksum old : String} {oldChecksum : Option String}
    (hsteps : p.steps = buildArtifactPublishSteps mutationId tmpKey storageKey sizeBytes checksum oldChecksum)
    {targetKey : String} (hnext : p.next = some (.deleteFile targetKey old)) :
    targetKey = backupKey mutationId storageKey := by
  have hmem := List.mem_of_getElem? hnext
  rw [hsteps] at hmem
  unfold buildArtifactPublishSteps at hmem
  split at hmem <;> simp at hmem
  exact hmem.1

/-- A rename carries the file on, if the first one finds the file of the call. -/
theorem carries_apply (h : Carries files tmpKey storageKey p) (hkeys : KeysApart p.mutationId tmpKey storageKey)
    (happly : p.apply files = some (p', files'))
    (hfirst : p.applied = 0 → ∀ key ∈ p.next.bind PublishStep.sourceKey?, ∀ node ∈ files.get key,
      node.opener = p.writer) : Carries files' tmpKey storageKey p' := by
  obtain ⟨size, sum, oldChecksum, hsteps, hcarried⟩ := h
  rcases apply_cases happly with ⟨source, target, sizeBytes, checksum, hnext, -, -, hsource, rfl, rfl⟩ |
    ⟨target, checksum, hnext, -, rfl, rfl⟩
  · obtain ⟨node, hnode⟩ := Option.isSome_iff_exists.1 hsource
    have hopener : p.applied = 0 → LeadsTo files source p.writer := by
      intro hzero
      exact LeadsTo.of_get hnode (hfirst hzero source (by rw [hnext]; rfl) node hnode)
    refine ⟨size, sum, oldChecksum, hsteps, ?_⟩
    show ∀ key ∈ carriedTo p.mutationId storageKey oldChecksum (p.applied + 1), LeadsTo _ key p.writer
    unfold next at hnext
    rw [hsteps] at hnext
    cases oldChecksum with
    | none =>
      -- the only rename
      rcases happlied : p.applied with _ | k
      · rw [happlied] at hnext
        obtain ⟨rfl, rfl, -, -⟩ := PublishStep.rename.inj (Option.some.inj hnext)
        rintro key ⟨⟩
        exact (hopener happlied).renamed _
      · rw [happlied] at hnext
        simp [buildArtifactPublishSteps] at hnext
    | some old =>
      rcases happlied : p.applied with _ | _ | _ | k <;> rw [happlied] at hnext
      · obtain ⟨rfl, rfl, -, -⟩ := PublishStep.rename.inj (Option.some.inj hnext)
        rintro key ⟨⟩
        exact (hopener happlied).renamed _
      · obtain ⟨rfl, rfl, -, -⟩ := PublishStep.rename.inj (Option.some.inj hnext)
        rintro key ⟨⟩
        exact (hcarried _ (by rw [happlied]; rfl)).rename (Ne.symm hkeys.storage_incoming) hkeys.incoming_backup
      · obtain ⟨rfl, rfl, -, -⟩ := PublishStep.rename.inj (Option.some.inj hnext)
        rintro key ⟨⟩
        exact (hcarried _ (by rw [happlied]; rfl)).renamed _
      · rcases k with _ | k
        · cases Option.some.inj hnext
        · simp [buildArtifactPublishSteps] at hnext
  · obtain rfl := deletes_backup hsteps hnext
    refine ⟨size, sum, oldChecksum, hsteps, ?_⟩
    show ∀ key ∈ carriedTo p.mutationId storageKey oldChecksum (p.applied + 1), LeadsTo _ key p.writer
    unfold next at hnext
    rw [hsteps] at hnext
    cases oldChecksum with
    | none =>
      rcases happlied : p.applied with _ | k <;> rw [happlied] at hnext
      · cases Option.some.inj hnext
      · simp [buildArtifactPublishSteps] at hnext
    | some old =>
      rcases happlied : p.applied with _ | _ | _ | k <;> rw [happlied] at hnext
      · cases Option.some.inj hnext
      · cases Option.some.inj hnext
      · cases Option.some.inj hnext
      · rintro key ⟨⟩
        refine (hcarried storageKey ?_).remove hkeys.storage_backup
        rw [happlied]
        rfl

/-- A publication is committed when its file is in place. -/
theorem leadsTo_of_forwardDone (h : Carries files tmpKey storageKey p) (hdone : p.forwardDone = true) :
    LeadsTo files storageKey p.writer := by
  obtain ⟨size, sum, oldChecksum, hsteps, hcarried⟩ := h
  unfold forwardDone at hdone
  rw [hsteps] at hdone
  refine hcarried storageKey ?_
  cases oldChecksum with
  | none =>
    rcases happlied : p.applied with _ | k
    · rw [happlied] at hdone
      cases hdone
    · simp [carriedTo]
  | some old =>
    rcases happlied : p.applied with _ | _ | _ | k
    · rw [happlied] at hdone
      cases hdone
    · rw [happlied] at hdone
      cases hdone
    · rw [happlied] at hdone
      cases hdone
    · exact Option.mem_def.2 rfl

theorem carries_prepared {mutationId : String} {revision : Nat} {data : Data} {sizeBytes : Nat}
    {checksum : String} {oldChecksum : Option String} :
    Carries files tmpKey storageKey (.prepared mutationId writer revision data
      (buildArtifactPublishSteps mutationId tmpKey storageKey sizeBytes checksum oldChecksum)) := by
  refine ⟨sizeBytes, checksum, oldChecksum, rfl, ?_⟩
  intro key hkey
  cases hkey

end Publication

/-! ## The desk -/

/-- Every open file has had its writer, publications have different ids and the steps of an artifact, at most
one is not committed, and that one carries its file. -/
structure DeskSound (tmpKey storageKey : String) (desk : Desk Byte Data) : Prop where
  openers : ∀ node ∈ desk.files.nodes, node.opener < desk.opens
  steps : ∀ p ∈ desk.publications, ∃ sizeBytes checksum oldChecksum,
    p.steps = buildArtifactPublishSteps p.mutationId tmpKey storageKey sizeBytes checksum oldChecksum
  carries : ∀ p ∈ desk.publications, p.committed = false → Carries desk.files tmpKey storageKey p
  nodup : (desk.publications.map (·.mutationId)).Nodup
  alone : ∀ p ∈ desk.publications, ∀ q ∈ desk.publications, p.committed = false → q.committed = false → p = q

variable {desk desk' : Desk Byte Data} {o : Output Nat Byte} {q : Publication Data}

namespace Desk

theorem sound_empty : DeskSound tmpKey storageKey (empty : Desk Byte Data) := by
  refine ⟨?_, ?_, ?_, ?_, ?_⟩ <;> simp [empty, OpenFiles.none]

theorem committed_of_publishing (h : desk.publishing = false) (hp : p ∈ desk.publications) :
    p.committed = true := by
  unfold publishing at h
  rw [List.any_eq_false] at h
  simpa using h p hp

theorem publication_cases (h : desk.publication mutationId = some p) :
    p ∈ desk.publications ∧ p.mutationId = mutationId :=
  ⟨List.mem_of_find?_eq_some h, by simpa using List.find?_some h⟩

theorem mem_setPublication (h : q ∈ (desk.setPublication p').publications) :
    q = p' ∨ (q ∈ desk.publications ∧ q.mutationId ≠ p'.mutationId) := by
  obtain ⟨before, hbefore, rfl⟩ := List.mem_map.1 h
  by_cases hid : before.mutationId = p'.mutationId
  · rw [if_pos hid]
    exact .inl rfl
  · rw [if_neg hid]
    exact .inr ⟨hbefore, hid⟩

theorem validate_cases {checksum : List Byte → String} (h : desk.validate checksum mutationId = some desk') :
    ∃ p ∈ desk.publications, desk' = desk.setPublication (p.validate checksum desk.files) := by
  obtain ⟨p, hp, rfl⟩ := Option.map_eq_some_iff.1 h
  exact ⟨p, (publication_cases hp).1, rfl⟩

theorem apply_cases (h : desk.apply mutationId = some desk') :
    ∃ p p' files, desk.publication mutationId = some p ∧ p.apply desk.files = some (p', files) ∧
      desk' = { desk.setPublication p' with files } := by
  obtain ⟨p, hp, hmap⟩ := Option.bind_eq_some_iff.1 h
  obtain ⟨⟨p', files⟩, happly, rfl⟩ := Option.map_eq_some_iff.1 hmap
  exact ⟨p, p', files, hp, happly, rfl⟩

end Desk

namespace DeskSound

theorem openOutput (h : DeskSound tmpKey storageKey desk)
    (hkeys : ∀ mutationId, KeysApart mutationId tmpKey storageKey) :
    DeskSound tmpKey storageKey (desk.openOutput tmpKey).1 := by
  refine ⟨?_, h.steps, ?_, h.nodup, h.alone⟩
  · intro node hnode
    show node.opener < desk.opens + 1
    obtain ⟨n, hn⟩ := List.mem_iff_getElem?.1 hnode
    rw [show (desk.openOutput tmpKey).1.files = desk.files.openEmpty tmpKey desk.opens from rfl,
      OpenFiles.openEmpty_node] at hn
    split at hn
    · obtain rfl := Option.some.inj hn
      exact Nat.lt_succ_self _
    · have := h.openers node (List.mem_of_getElem? hn)
      omega
  · intro p hp hopen
    refine (h.carries p hp hopen).mono ?_
    intro key hkey hlead
    refine hlead.openEmpty ?_ _
    rcases hkey with rfl | rfl
    · exact (hkeys p.mutationId).incoming_tmp
    · exact (hkeys p.mutationId).storage_tmp

theorem write [Inhabited Byte] (h : DeskSound tmpKey storageKey desk) (o : Output Nat Byte)
    (piece : List Byte) : DeskSound tmpKey storageKey (desk.write o piece).1 := by
  refine ⟨?_, h.steps, ?_, h.nodup, h.alone⟩
  · intro node hnode
    obtain ⟨n, hn⟩ := List.mem_iff_getElem?.1 hnode
    rw [show (desk.write o piece).1.files = desk.files.write o.node o.written.length piece from rfl,
      OpenFiles.write_node] at hn
    obtain ⟨before, hbefore, rfl⟩ := Option.map_eq_some_iff.1 hn
    have := h.openers before (List.mem_of_getElem? hbefore)
    show (if _ then _ else before).opener < desk.opens
    split <;> exact this
  · intro p hp hopen
    exact (h.carries p hp hopen).mono fun key _ hlead => hlead.write _ _ _

/-- A name that no publication in progress needs. -/
theorem remove (h : DeskSound tmpKey storageKey desk) (hkey : ∀ p ∈ desk.publications, p.committed = false →
    incomingKey p.mutationId storageKey ≠ key ∧ storageKey ≠ key) :
    DeskSound tmpKey storageKey (desk.remove key) := by
  refine ⟨h.openers, h.steps, ?_, h.nodup, h.alone⟩
  intro p hp hopen
  refine (h.carries p hp hopen).mono ?_
  rintro _ (rfl | rfl) hlead
  · exact hlead.remove (hkey p hp hopen).1
  · exact hlead.remove (hkey p hp hopen).2

/-- A publication is prepared where no other one is in progress. -/
theorem prepare (h : DeskSound tmpKey storageKey desk)
    (hsteps : ∃ sizeBytes checksum oldChecksum,
      p.steps = buildArtifactPublishSteps p.mutationId tmpKey storageKey sizeBytes checksum oldChecksum)
    (hcarries : Carries desk.files tmpKey storageKey p) (hfresh : desk.publication p.mutationId = none)
    (hnone : desk.publishing = false) : DeskSound tmpKey storageKey (desk.prepare p) := by
  have hcommitted : ∀ q ∈ desk.publications, q.committed = false → False := by
    intro q hq hopen
    rw [Desk.committed_of_publishing hnone hq] at hopen
    cases hopen
  refine ⟨h.openers, ?_, ?_, ?_, ?_⟩
  · intro q hq
    rcases List.mem_append.1 hq with hold | hnew
    · exact h.steps q hold
    · obtain rfl := List.mem_singleton.1 hnew
      exact hsteps
  · intro q hq hopen
    rcases List.mem_append.1 hq with hold | hnew
    · exact (hcommitted q hold hopen).elim
    · obtain rfl := List.mem_singleton.1 hnew
      exact hcarries
  · show ((desk.publications ++ [p]).map (·.mutationId)).Nodup
    rw [List.map_append, List.nodup_append]
    refine ⟨h.nodup, List.nodup_singleton _, ?_⟩
    intro id hid id' hid' heq
    obtain ⟨q, hq, rfl⟩ := List.mem_map.1 hid
    obtain rfl := List.mem_singleton.1 hid'
    have := List.find?_eq_none.1 hfresh q hq
    simp only [decide_eq_true_eq] at this
    exact this heq
  · intro q hq q' hq' hopen hopen'
    rcases List.mem_append.1 hq with hold | hnew
    · exact (hcommitted q hold hopen).elim
    · rcases List.mem_append.1 hq' with hold' | hnew'
      · exact (hcommitted q' hold' hopen').elim
      · exact (List.mem_singleton.1 hnew).trans (List.mem_singleton.1 hnew').symm

/-- One publication goes on, perhaps with a change to the names of files. -/
theorem setPublication (h : DeskSound tmpKey storageKey desk) (hp : p ∈ desk.publications)
    (hid : p'.mutationId = p.mutationId) (hsteps : p'.steps = p.steps)
    (hopen : p'.committed = false → p.committed = false) (hnodes : files.nodes = desk.files.nodes)
    (hcarries : p'.committed = false → Carries files tmpKey storageKey p')
    (hothers : ∀ q ∈ desk.publications, q.mutationId ≠ p.mutationId → q.committed = false →
      Carries files tmpKey storageKey q) :
    DeskSound tmpKey storageKey { desk.setPublication p' with files } := by
  refine ⟨?_, ?_, ?_, ?_, ?_⟩
  · show ∀ node ∈ files.nodes, _
    rw [hnodes]
    exact h.openers
  · intro q hq
    rcases Desk.mem_setPublication hq with rfl | ⟨hold, -⟩
    · rw [hsteps, hid]
      exact h.steps p hp
    · exact h.steps q hold
  · intro q hq hqOpen
    rcases Desk.mem_setPublication hq with rfl | ⟨hold, hne⟩
    · exact hcarries hqOpen
    · exact hothers q hold (hid ▸ hne) hqOpen
  · have hids : (desk.setPublication p').publications.map (·.mutationId) =
        desk.publications.map (·.mutationId) := by
      simp only [Desk.setPublication, List.map_map]
      refine List.map_congr_left fun q _ => ?_
      by_cases hq : q.mutationId = p'.mutationId
      · simp [hq]
      · simp [hq]
    show ((desk.setPublication p').publications.map (·.mutationId)).Nodup
    rw [hids]
    exact h.nodup
  · intro q hq q' hq' hqOpen hqOpen'
    rcases Desk.mem_setPublication hq with rfl | ⟨hold, hne⟩ <;>
      rcases Desk.mem_setPublication hq' with rfl | ⟨hold', hne'⟩
    · rfl
    · exact absurd ((h.alone p hp q' hold' (hopen hqOpen) hqOpen') ▸ hid.symm) hne'
    · exact absurd ((h.alone p hp q hold (hopen hqOpen') hqOpen) ▸ hid.symm) hne
    · exact h.alone q hold q' hold' hqOpen hqOpen'

theorem validate (h : DeskSound tmpKey storageKey desk) (hp : p ∈ desk.publications)
    (checksum : List Byte → String) :
    DeskSound tmpKey storageKey (desk.setPublication (p.validate checksum desk.files)) := by
  have hnodes : desk.files.nodes = desk.files.nodes := rfl
  exact h.setPublication hp rfl rfl (fun hopen => hopen) hnodes (fun hopen => h.carries p hp hopen)
    fun q hq _ hopen => h.carries q hq hopen

/-- No step of a publication touches what another one carries. -/
theorem apply (h : DeskSound tmpKey storageKey desk)
    (hkeys : ∀ mutationId, KeysApart mutationId tmpKey storageKey)
    (hpub : desk.publication mutationId = some p) (happly : p.apply desk.files = some (p', files))
    (hfinds : desk.FindsOutput mutationId) :
    DeskSound tmpKey storageKey { desk.setPublication p' with files } := by
  obtain ⟨hp, -⟩ := Desk.publication_cases hpub
  rcases Publication.apply_cases happly with
    ⟨source, target, sizeBytes, checksum, hnext, hvalidated, hopen, -, rfl, rfl⟩ |
    ⟨target, checksum, hnext, hcommitted, rfl, rfl⟩
  · refine h.setPublication hp rfl rfl (fun _ => hopen) rfl ?_ ?_
    · intro _
      exact Publication.carries_apply (h.carries p hp hopen) (hkeys p.mutationId) happly
        (hfinds p hpub hvalidated)
    · intro q hq hne hqOpen
      exact absurd (congrArg (·.mutationId) (h.alone q hq p hp hqOpen hopen)) hne
  · obtain ⟨size, sum, oldChecksum, hbuild⟩ := h.steps p hp
    obtain rfl := Publication.deletes_backup hbuild hnext
    refine h.setPublication hp rfl rfl (fun hfalse => hfalse) rfl ?_ ?_
    · intro hfalse
      rw [show p.committed = false from hfalse] at hcommitted
      cases hcommitted
    · intro q hq _ hqOpen
      refine (h.carries q hq hqOpen).mono ?_
      rintro _ (rfl | rfl) hlead
      · exact hlead.remove (append_ne 5 (by decide) (by decide) (by decide))
      · exact hlead.remove (hkeys p.mutationId).storage_backup

theorem commit (h : DeskSound tmpKey storageKey desk) (hp : p ∈ desk.publications) :
    DeskSound tmpKey storageKey (desk.commit p) := by
  have hnodes : desk.files.nodes = desk.files.nodes := rfl
  exact h.setPublication hp rfl rfl (fun hfalse => by cases hfalse) hnodes (fun hfalse => by cases hfalse)
    fun q hq _ hopen => h.carries q hq hopen

/-- Nothing is in progress after the commit. -/
theorem publishing_commit (h : DeskSound tmpKey storageKey desk) (hp : p ∈ desk.publications)
    (hopen : p.committed = false) : (desk.commit p).publishing = false := by
  unfold Desk.publishing
  rw [List.any_eq_false]
  intro q hq hfalse
  rcases Desk.mem_setPublication hq with rfl | ⟨hold, hne⟩
  · cases hfalse
  · exact hne (congrArg (·.mutationId) (h.alone q hold p hp (by simpa using hfalse) hopen))

end DeskSound

/-- Once the last publication is committed, what lies at the storage key stays there. -/
theorem LeadsTo.apply (h : LeadsTo desk.files storageKey writer)
    (hkeys : ∀ mutationId, KeysApart mutationId tmpKey storageKey) (hsound : DeskSound tmpKey storageKey desk)
    (hp : p ∈ desk.publications) (hcommitted : p.committed = true)
    (happly : p.apply desk.files = some (p', files)) : LeadsTo files storageKey writer := by
  rcases Publication.apply_cases happly with ⟨_, _, _, _, -, -, hopen, -⟩ |
    ⟨target, checksum, hnext, -, rfl, rfl⟩
  · rw [hcommitted] at hopen
    cases hopen
  · obtain ⟨size, sum, oldChecksum, hbuild⟩ := hsound.steps p hp
    obtain rfl := Publication.deletes_backup hbuild hnext
    exact h.remove (hkeys p.mutationId).storage_backup

/-! ## Those at the desk -/

/-- What each of those who write has written is kept, and no two are the same writer. -/
structure Outputs (desk : Desk Byte Data) (outputs : Nat → Option (Output Nat Byte)) : Prop where
  had : ∀ i o, outputs i = some o → o.writer < desk.opens
  kept : ∀ i o, outputs i = some o → o.Kept desk.files.nodes
  apart : ∀ i j o o', outputs i = some o → outputs j = some o' → o.writer = o'.writer → i = j

variable {outputs outputs' : Nat → Option (Output Nat Byte)} {i : Nat}

namespace Outputs

theorem none : Outputs desk fun _ => Option.none := by
  refine ⟨?_, ?_, ?_⟩ <;> simp

/-- Names and publications do not matter. -/
theorem of_nodes (h : Outputs desk outputs) (hnodes : desk'.files.nodes = desk.files.nodes)
    (hopens : desk'.opens = desk.opens) : Outputs desk' outputs := by
  refine ⟨?_, ?_, h.apart⟩
  · rw [hopens]
    exact h.had
  · rw [hnodes]
    exact h.kept

/-- Some of them leave. -/
theorem mono (h : Outputs desk outputs) (hsub : ∀ i o, outputs' i = some o → outputs i = some o) :
    Outputs desk outputs' where
  had i o ho := h.had i o (hsub i o ho)
  kept i o ho := h.kept i o (hsub i o ho)
  apart i j o o' ho ho' := h.apart i j o o' (hsub i o ho) (hsub j o' ho')

theorem forget (h : Outputs desk outputs) (i : Nat) : Outputs desk (Function.update outputs i Option.none) := by
  refine h.mono ?_
  intro j o ho
  by_cases hj : j = i
  · subst hj
    simp at ho
  · rwa [Function.update_of_ne hj] at ho

/-- One of them has another output. -/
theorem update (h : Outputs desk outputs) {o : Output Nat Byte} (hhad : o.writer < desk'.opens)
    (hkept : o.Kept desk'.files.nodes) (hopens : desk.opens ≤ desk'.opens)
    (hothers : ∀ j o', j ≠ i → outputs j = some o' →
      o'.writer ≠ o.writer ∧ (o'.Kept desk.files.nodes → o'.Kept desk'.files.nodes)) :
    Outputs desk' (Function.update outputs i (some o)) := by
  have hcases : ∀ {j o'}, Function.update outputs i (some o) j = some o' →
      (j = i ∧ o' = o) ∨ (j ≠ i ∧ outputs j = some o') := by
    intro j o' ho'
    by_cases hj : j = i
    · subst hj
      rw [Function.update_self] at ho'
      exact .inl ⟨rfl, (Option.some.inj ho').symm⟩
    · rw [Function.update_of_ne hj] at ho'
      exact .inr ⟨hj, ho'⟩
  refine ⟨?_, ?_, ?_⟩
  · intro j o' ho'
    rcases hcases ho' with ⟨-, rfl⟩ | ⟨hj, hold⟩
    · exact hhad
    · have := h.had j o' hold
      omega
  · intro j o' ho'
    rcases hcases ho' with ⟨-, rfl⟩ | ⟨hj, hold⟩
    · exact hkept
    · exact (hothers j o' hj hold).2 (h.kept j o' hold)
  · intro j k o' o'' ho' ho'' hwriter
    rcases hcases ho' with ⟨rfl, rfl⟩ | ⟨hj, hold⟩ <;> rcases hcases ho'' with ⟨rfl, rfl⟩ | ⟨hk, hold'⟩
    · rfl
    · exact absurd hwriter.symm (hothers k o'' hk hold').1
    · exact absurd hwriter (hothers j o' hj hold).1
    · exact h.apart j k o' o'' hold hold' hwriter

/-- A new writer. -/
theorem openOutput (h : Outputs desk outputs) (hdesk : DeskSound tmpKey storageKey desk) (i : Nat) :
    Outputs (desk.openOutput tmpKey).1 (Function.update outputs i (some (desk.openOutput tmpKey).2)) := by
  refine h.update (Nat.lt_succ_self _) (Output.kept_opened ?_) (Nat.le_succ _) ?_
  · intro node hnode
    exact Nat.ne_of_lt (hdesk.openers node hnode)
  · intro j o hj ho
    have hlt := h.had j o ho
    exact ⟨Nat.ne_of_lt hlt, fun hkept => hkept.openEmpty (Nat.ne_of_gt hlt)⟩

/-- A write to a file that the writer was the last to open. -/
theorem write [Inhabited Byte] (h : Outputs desk outputs) (ho : outputs i = some o)
    (howns : desk.OwnsOutput o) (piece : List Byte) :
    Outputs (desk.write o piece).1 (Function.update outputs i (some (desk.write o piece).2)) := by
  refine h.update (h.had i o ho) ((h.kept i o ho).write piece) (Nat.le_refl _) ?_
  intro j o' hj ho'
  have hne : o'.writer ≠ o.writer := fun heq => hj (h.apart j i o' o ho' ho heq)
  refine ⟨hne, fun hkept => hkept.write_other ?_ _ _⟩
  intro node hnode
  rw [howns node hnode]
  exact Ne.symm hne

/-- What lies where the file of a writer is led to. -/
theorem get (h : Outputs desk outputs) (ho : outputs i = some o) (hlead : LeadsTo desk.files key o.writer) :
    ∃ node, desk.files.get key = some node ∧ node.bytes = o.written := by
  obtain ⟨n, node, hname, hnode, hopener⟩ := hlead
  refine ⟨node, ?_, (h.kept i o ho n node hnode hopener).2⟩
  unfold OpenFiles.get
  rw [hname, Option.bind_some, hnode]

end Outputs

end Staaash.Artifacts
