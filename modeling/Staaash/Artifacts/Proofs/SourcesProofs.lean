import Staaash.Artifacts.Sources

/-!
# Proofs: what a reader of the files can trust

A row that was read stays the row of its file or gives way to one of a higher revision. What was read from
the file is what the row describes, unless the row has given way or a mutation in progress may replace it.
-/

namespace Staaash.Artifacts

open Staaash.Archives (Rows StoredFileRecord)

variable {Body : Type} {bodyOf : StoredFileRecord → Body} {src src' : Sources Body}
  {e : SourceEvent Body} {file : StoredFileRecord} {m : SourceMutation}

namespace Sources

/-- The row that was read is the row of its file, or one of a higher revision is. -/
structure Tracked (src : Sources Body) (file : StoredFileRecord) : Prop where
  used : file.id ∈ src.usedIds
  kept : ∀ row ∈ src.rows.files, row.id = file.id → row = file ∨ file.storageRevision < row.storageRevision

/-- The row has given way, or may do so. -/
def Outdated (src : Sources Body) (file : StoredFileRecord) : Prop :=
  src.InProgress file.id ∨ file ∉ src.rows.files

/-- What was read from the file of a row. -/
def Sourced (bodyOf : StoredFileRecord → Body) (src : Sources Body) (file : StoredFileRecord) (body : Body) :
    Prop :=
  body = bodyOf file ∨ src.Outdated file

theorem Settled.tracked (h : src.Settled bodyOf) (hfile : file ∈ src.rows.files) : src.Tracked file := by
  refine ⟨h.used file hfile, ?_⟩
  intro row hrow hid
  exact .inl (List.inj_on_of_nodup_map h.nodup hrow hfile hid)

/-- A file is read where a row has it. -/
theorem Settled.read (h : src.Settled bodyOf) {body : Body} (hdisk : src.disk file.storageKey = some body) :
    src.Sourced bodyOf file body := by
  by_cases hout : src.Outdated file
  · exact .inr hout
  · unfold Outdated at hout
    rw [not_or, not_not] at hout
    have hholds := h.holds file hout.2 hout.1
    unfold Holds at hholds
    rw [hdisk] at hholds
    split at hholds
    · exact .inl (Option.some.inj hholds)
    · cases hholds

/-! ## What an event does -/

/-- A commit, spelled out. -/
structure Committed (bodyOf : StoredFileRecord → Body) (src : Sources Body) (m : SourceMutation) (rows : Rows) :
    Prop where
  mem : m ∈ src.mutations
  nodup : (rows.files.map (·.id)).Nodup
  follows : ∀ file ∈ rows.files, src.Follows m file
  holds : ∀ file ∈ rows.files, file.id ∈ m.changed → src.Holds bodyOf file

/-- A file that a mutation has changed is only in the hands of the others then. -/
theorem inProgress_erase (h : src.InProgress file.id) (hchanged : file.id ∉ m.changed) :
    ∃ other ∈ src.mutations.erase m, file.id ∈ other.changed := by
  obtain ⟨other, hother, hmem⟩ := h
  refine ⟨other, (List.mem_erase_of_ne ?_).2 hother, hmem⟩
  intro heq
  exact hchanged (heq ▸ hmem)

/-- A row after a commit that has the id of a row from before. -/
theorem Committed.row {rows : Rows} {row : StoredFileRecord} (h : Committed bodyOf src m rows)
    (htracked : src.Tracked file) (hrow : row ∈ rows.files) (hid : row.id = file.id) :
    (row ∈ src.rows.files ∧ row.id ∉ m.changed) ∨ file.storageRevision < row.storageRevision := by
  rcases h.follows row hrow with hsame | ⟨-, hused, hraised⟩
  · exact .inl hsame
  · obtain ⟨before, hbefore, hbeforeId⟩ := hused (hid ▸ htracked.used)
    have hlt := hraised before hbefore hbeforeId
    rcases htracked.kept before hbefore (hbeforeId.trans hid) with rfl | hlt'
    · exact .inr hlt
    · exact .inr (by omega)

/-- A row of the revision that was read is the row that was read. -/
theorem Tracked.mem {row : StoredFileRecord} (h : src.Tracked file) (hrow : row ∈ src.rows.files)
    (hid : row.id = file.id) (hrevision : row.storageRevision = file.storageRevision) :
    file ∈ src.rows.files := by
  rcases h.kept row hrow hid with rfl | hlt
  · exact hrow
  · omega

/-- Without mutations in progress and with the row unchanged, what was read is what the row describes. -/
theorem Sourced.described {body : Body} (h : src.Sourced bodyOf file body) (hnone : src.mutations = [])
    (hmem : file ∈ src.rows.files) : body = bodyOf file := by
  rcases h with hbody | ⟨other, hother, -⟩ | hgone
  · exact hbody
  · rw [hnone] at hother
    cases hother
  · exact absurd hmem hgone

variable [DecidableEq Body]

theorem act_cases (h : src.act bodyOf e = some src') :
    (∃ mutation, e = .prepare mutation ∧ src' = { src with mutations := src.mutations ++ [mutation] }) ∨
    (∃ key body, e = .place key body ∧
      (∀ file ∈ src.rows.files, file.storageKey = key → src.InProgress file.id) ∧
      src' = { src with disk := fun k => if k = key then body else src.disk k }) ∨
    (∃ id rows folderRevision m, e = .commit id rows folderRevision ∧ Committed bodyOf src m rows ∧
      src' = { src with
        rows, folderRevision
        mutations := src.mutations.erase m
        usedIds := src.usedIds ++ rows.files.map (·.id) }) ∨
    (∃ id m, e = .abort id ∧ src.mutations.find? (·.id = id) = some m ∧
      (∀ file ∈ src.rows.files, file.id ∈ m.changed → src.Holds bodyOf file) ∧
      src' = { src with mutations := src.mutations.erase m }) := by
  cases e with
  | prepare mutation =>
    obtain ⟨-, hsrc⟩ := Option.ite_none_right_eq_some.1 h
    exact .inl ⟨mutation, rfl, (Option.some.inj hsrc).symm⟩
  | place key body =>
    obtain ⟨hkey, hsrc⟩ := Option.ite_none_right_eq_some.1 h
    exact .inr (.inl ⟨key, body, rfl, hkey, (Option.some.inj hsrc).symm⟩)
  | commit id rows folderRevision =>
    simp only [act] at h
    rcases hm : src.mutations.find? (·.id = id) with _ | m
    · simp [hm] at h
    · rw [hm] at h
      obtain ⟨⟨hnodup, hall⟩, hsrc⟩ := Option.ite_none_right_eq_some.1 h
      exact .inr (.inr (.inl ⟨id, rows, folderRevision, m, rfl,
        ⟨List.mem_of_find?_eq_some hm, hnodup, fun file hfile => (hall file hfile).1,
          fun file hfile => (hall file hfile).2⟩, (Option.some.inj hsrc).symm⟩))
  | abort id =>
    simp only [act] at h
    rcases hm : src.mutations.find? (·.id = id) with _ | m
    · simp [hm] at h
    · rw [hm] at h
      obtain ⟨hholds, hsrc⟩ := Option.ite_none_right_eq_some.1 h
      exact .inr (.inr (.inr ⟨id, m, rfl, hm, hholds, (Option.some.inj hsrc).symm⟩))

theorem Tracked.act (h : src.Tracked file) (hact : src.act bodyOf e = some src') : src'.Tracked file := by
  rcases act_cases hact with ⟨mutation, -, rfl⟩ | ⟨key, body, -, -, rfl⟩ |
    ⟨id, rows, folderRevision, m, -, hcommit, rfl⟩ | ⟨id, m, -, -, -, rfl⟩
  · exact ⟨h.used, h.kept⟩
  · exact ⟨h.used, h.kept⟩
  · refine ⟨List.mem_append_left _ h.used, ?_⟩
    intro row hrow hid
    rcases hcommit.row h hrow hid with ⟨hold, -⟩ | hlt
    · exact h.kept row hold hid
    · exact .inr hlt
  · exact ⟨h.used, h.kept⟩

/-- What a rolled back mutation had changed was not read while it had. -/
theorem Sourced.act {body : Body} (h : src.Sourced bodyOf file body) (htracked : src.Tracked file)
    (hact : src.act bodyOf e = some src')
    (habort : ∀ id, e = .abort id → ∀ m ∈ src.mutations.find? (·.id = id), file.id ∈ m.changed →
      body = bodyOf file) : src'.Sourced bodyOf file body := by
  rcases h with hbody | hout
  · exact .inl hbody
  rcases act_cases hact with ⟨mutation, -, rfl⟩ | ⟨key, placed, -, -, rfl⟩ |
    ⟨id, rows, folderRevision, m, -, hcommit, rfl⟩ | ⟨id, m, he, hm, -, rfl⟩
  · refine .inr (hout.imp_left ?_)
    rintro ⟨other, hother, hmem⟩
    exact ⟨other, List.mem_append_left _ hother, hmem⟩
  · exact .inr hout
  · by_cases hrow : file ∈ rows.files
    · rcases hcommit.row htracked hrow rfl with ⟨hold, hchanged⟩ | hlt
      · rcases hout with hprogress | hgone
        · exact .inr (.inl (inProgress_erase hprogress hchanged))
        · exact absurd hold hgone
      · omega
    · exact .inr (.inr hrow)
  · rcases hout with hprogress | hgone
    · by_cases hchanged : file.id ∈ m.changed
      · exact .inl (habort id he m hm hchanged)
      · exact .inr (.inl (inProgress_erase hprogress hchanged))
    · exact .inr (.inr hgone)

theorem Settled.act (h : src.Settled bodyOf) (hact : src.act bodyOf e = some src') : src'.Settled bodyOf := by
  rcases act_cases hact with ⟨mutation, -, rfl⟩ | ⟨key, body, -, hkey, rfl⟩ |
    ⟨id, rows, folderRevision, m, -, hcommit, rfl⟩ | ⟨id, m, -, hm, hholds, rfl⟩
  · refine ⟨h.nodup, h.used, ?_⟩
    intro file hfile hprogress
    refine h.holds file hfile ?_
    rintro ⟨other, hother, hmem⟩
    exact hprogress ⟨other, List.mem_append_left _ hother, hmem⟩
  · refine ⟨h.nodup, h.used, ?_⟩
    intro file hfile hprogress
    show (if file.storageKey = key then body else src.disk file.storageKey) = _
    rw [if_neg]
    · exact h.holds file hfile hprogress
    · intro hstored
      exact hprogress (hkey file hfile hstored)
  · refine ⟨hcommit.nodup, ?_, ?_⟩
    · intro file hfile
      exact List.mem_append_right _ (List.mem_map_of_mem hfile)
    · intro file hfile hprogress
      by_cases hchanged : file.id ∈ m.changed
      · exact hcommit.holds file hfile hchanged
      · rcases hcommit.follows file hfile with ⟨hold, -⟩ | ⟨hmem, -⟩
        · refine h.holds file hold ?_
          intro hbefore
          exact hprogress (inProgress_erase hbefore hchanged)
        · exact absurd hmem hchanged
  · refine ⟨h.nodup, h.used, ?_⟩
    intro file hfile hprogress
    by_cases hchanged : file.id ∈ m.changed
    · exact hholds file hfile hchanged
    · refine h.holds file hfile ?_
      intro hbefore
      exact hprogress (inProgress_erase hbefore hchanged)

end Sources

end Staaash.Artifacts
