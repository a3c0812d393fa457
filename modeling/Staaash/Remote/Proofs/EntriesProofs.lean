import Staaash.Remote.Completeness

/-!
# Proofs: what the entries of a commit say

Which items a commit writes an entry for, what the entry says, in which order the entries stand, and
what is known of the items that have none: they are unchanged, or a folder above them went the same
way.
-/

namespace Staaash.Remote

open Relation
open Staaash.Library
open Staaash.Planner

variable {table : Table} {id : String} {row : Row}

theorem live_eq_some : table.live id = some row ↔ table.get id = some row ∧ row.live = true := by
  unfold Table.live
  rw [Option.bind_eq_some_iff]
  constructor
  · rintro ⟨found, hget, hlive⟩
    rw [Option.ite_none_right_eq_some, Option.some.injEq] at hlive
    exact ⟨hlive.2 ▸ hget, hlive.2 ▸ hlive.1⟩
  · rintro ⟨hget, hlive⟩
    exact ⟨row, hget, by rw [if_pos hlive]⟩

theorem live_eq_none : table.live id = none ↔ ∀ row, table.get id = some row → row.live = false := by
  constructor
  · intro h row hget
    by_contra hlive
    have hsome := live_eq_some.2 ⟨hget, Bool.not_eq_false _ ▸ hlive⟩
    rw [h] at hsome
    cases hsome
  · intro h
    cases hlive : table.live id with
    | none => rfl
    | some row =>
      obtain ⟨hget, hl⟩ := live_eq_some.1 hlive
      rw [h row hget] at hl
      cases hl

theorem liveUp_eq_some {parentId : String} :
    table.liveUp id = some parentId ↔
      ∃ row, table.live id = some row ∧ row.parentId = some parentId :=
  Option.bind_eq_some_iff

/-! ## Reading the rows -/

theorem mem_touchedRows {entities : List ItemKey} {type : ItemType} {item : ItemState} :
    item ∈ touchedRows table entities type ↔
      ∃ id row, (type, id) ∈ entities ∧ table.get id = some row ∧ row.type = type ∧
        row.isFilesRoot = false ∧ item = itemState table id row := by
  unfold touchedRows
  rw [List.mem_filterMap]
  constructor
  · rintro ⟨⟨entityType, id⟩, hmem, hitem⟩
    simp only [Option.ite_none_right_eq_some] at hitem
    obtain ⟨rfl, hitem⟩ := hitem
    obtain ⟨row, hget, hitem⟩ := Option.bind_eq_some_iff.1 hitem
    rw [Option.ite_none_right_eq_some, Option.some.injEq] at hitem
    exact ⟨id, row, hmem, hget, hitem.1.1, hitem.1.2, hitem.2.symm⟩
  · rintro ⟨id, row, hmem, hget, htype, hroot, rfl⟩
    refine ⟨(type, id), hmem, ?_⟩
    simp [hget, htype, hroot]

theorem get_readStorageItemSnapshot {entities : List ItemKey} {key : ItemKey} {item : ItemState} :
    (readStorageItemSnapshot table entities).get key = some item ↔
      key ∈ entities ∧ ∃ row, table.get key.2 = some row ∧ row.type = key.1 ∧
        row.isFilesRoot = false ∧ item = itemState table key.2 row := by
  have hrow : ∀ {type item}, item ∈ touchedRows table entities type → (item.type, item.id) = key →
      key ∈ entities ∧ ∃ row, table.get key.2 = some row ∧ row.type = key.1 ∧
        row.isFilesRoot = false ∧ item = itemState table key.2 row := by
    intro type item hitem hkey
    obtain ⟨id, row, hmem, hget, htype, hroot, rfl⟩ := mem_touchedRows.1 hitem
    subst hkey htype
    exact ⟨hmem, row, hget, rfl, hroot, rfl⟩
  have honly : ∀ {item}, (readStorageItemSnapshot table entities).get key = some item →
      key ∈ entities ∧ ∃ row, table.get key.2 = some row ∧ row.type = key.1 ∧
        row.isFilesRoot = false ∧ item = itemState table key.2 row := by
    intro item hget
    obtain ⟨hmem, hkey⟩ := OrderedMap.of_get_indexed hget
    rcases List.mem_append.1 hmem with hmem | hmem
    · exact hrow hmem hkey
    · exact hrow hmem hkey
  refine ⟨honly, ?_⟩
  rintro ⟨hmem, row, hget, htype, hroot, rfl⟩
  have hlisted : itemState table key.2 row ∈
      touchedRows table entities .folder ++ touchedRows table entities .file := by
    have hitem := mem_touchedRows.2 ⟨key.2, row, hmem, hget, htype, hroot, rfl⟩
    rw [List.mem_append]
    cases hkey : key.1 with
    | folder => exact .inl (hkey ▸ hitem)
    | file => exact .inr (hkey ▸ hitem)
  have hfound := OrderedMap.exists_get_ofList
    (List.mem_map_of_mem (f := fun item : ItemState => ((item.type, item.id), item)) hlisted)
  obtain ⟨item, hitem⟩ := hfound
  have hkey : (row.type, key.2) = key := by rw [htype]
  have hget' : (readStorageItemSnapshot table entities).get key = some item := hkey ▸ hitem
  obtain ⟨-, row', hrow', -, -, rfl⟩ := honly hget'
  rw [hget] at hrow'
  rw [hget', Option.some.inj hrow']

/-! ## Kinds -/

namespace Commit

variable {c : Commit} {key : ItemKey} {kind : StorageChangeKind}

/-- The rows that the mutation touches, as they were and as they are. -/
abbrev old (c : Commit) : StorageItemSnapshot := readStorageItemSnapshot c.before c.entities

abbrev new (c : Commit) : StorageItemSnapshot := readStorageItemSnapshot c.after c.entities

theorem kind_eq_some : c.kind key = some kind ↔ kindOf (c.old.get key) (c.new.get key) = some kind := by
  have honly : ∀ {kind}, c.kind key = some kind →
      kindOf (c.old.get key) (c.new.get key) = some kind := by
    intro kind hget
    obtain ⟨key', -, hkind⟩ := List.mem_filterMap.1 (OrderedMap.mem_of_get_ofList hget)
    obtain ⟨kind', hkind', heq⟩ := Option.map_eq_some_iff.1 hkind
    obtain ⟨rfl, rfl⟩ := Prod.mk.inj heq
    exact hkind'
  refine ⟨honly, fun hkind => ?_⟩
  have hkey : key ∈ (c.old.keys ++ c.new.keys).eraseDups := by
    rw [List.mem_eraseDups, List.mem_append, OrderedMap.mem_keys_iff, OrderedMap.mem_keys_iff]
    cases hold : c.old.get key with
    | some item => exact .inl ⟨item, rfl⟩
    | none =>
      cases hnew : c.new.get key with
      | some item => exact .inr ⟨item, rfl⟩
      | none =>
        rw [hold, hnew] at hkind
        cases hkind
  have hmem : (key, kind) ∈ (c.old.keys ++ c.new.keys).eraseDups.filterMap fun key =>
      (kindOf (c.old.get key) (c.new.get key)).map (key, ·) :=
    List.mem_filterMap.2 ⟨key, hkey, by rw [hkind, Option.map_some]⟩
  obtain ⟨kind', hkind'⟩ := OrderedMap.exists_get_ofList hmem
  have hkind'' : c.kind key = some kind' := hkind'
  rw [hkind'', ← hkind, honly hkind'']

theorem mem_entries {change : StorageChange} :
    change ∈ c.entries ↔ ∃ key kind current, c.kind key = some kind ∧
      currentOf c.old c.new key = some current ∧
      coveredByParent (kindsOf c.old c.new) kind (c.old.get key) current = false ∧
      change = toChange kind current := by
  unfold Commit.entries commitEntries appendStorageChanges
  rw [List.mem_map]
  constructor
  · rintro ⟨⟨kind, current⟩, hmem, rfl⟩
    obtain ⟨⟨key, kind'⟩, hentry, hitem⟩ := List.mem_filterMap.1 ((List.mem_insertionSort _).1 hmem)
    obtain ⟨current', hcurrent, hitem⟩ := Option.bind_eq_some_iff.1 hitem
    split at hitem
    · cases hitem
    · next hcovered =>
      obtain ⟨rfl, rfl⟩ := Prod.mk.inj (Option.some.inj hitem)
      exact ⟨key, kind', current', (OrderedMap.get_eq_some_iff _ _ _).2 hentry, hcurrent,
        Bool.not_eq_true _ ▸ hcovered, rfl⟩
  · rintro ⟨key, kind, current, hkind, hcurrent, hcovered, rfl⟩
    refine ⟨(kind, current), (List.mem_insertionSort _).2 (List.mem_filterMap.2 ?_), rfl⟩
    refine ⟨(key, kind), (OrderedMap.get_eq_some_iff _ _ _).1 hkind, ?_⟩
    simp [hcurrent, hcovered]

/-- An item that the commit tells of has an entry, or its folder went the same way. -/
theorem told_or_covered (hkind : c.kind key = some kind) :
    (∃ current, currentOf c.old c.new key = some current ∧ toChange kind current ∈ c.entries) ∨
    ∃ previous current, c.old.get key = some previous ∧ currentOf c.old c.new key = some current ∧
      kind ≠ .created ∧ kind ≠ .updated ∧ previous.parentId = current.parentId ∧
      c.kind (.folder, current.parentId.getD "") = some kind := by
  obtain ⟨current, hcurrent⟩ : ∃ current, currentOf c.old c.new key = some current := by
    have hkind := kind_eq_some.1 hkind
    unfold currentOf
    cases hnew : c.new.get key with
    | some item => exact ⟨item, rfl⟩
    | none =>
      cases hold : c.old.get key with
      | some item => exact ⟨item, rfl⟩
      | none =>
        rw [hold, hnew] at hkind
        cases hkind
  cases hcovered : coveredByParent (kindsOf c.old c.new) kind (c.old.get key) current with
  | false => exact .inl ⟨current, hcurrent, mem_entries.2 ⟨key, kind, current, hkind, hcurrent, hcovered, rfl⟩⟩
  | true =>
    simp only [coveredByParent, Bool.and_eq_true, decide_eq_true_eq] at hcovered
    obtain ⟨⟨⟨hcreated, hupdated⟩, hparent⟩, hfolder⟩ := hcovered
    obtain ⟨previous, hprevious, hparent⟩ := Option.map_eq_some_iff.1 hparent
    exact .inr ⟨previous, current, hprevious, hcurrent, hcreated, hupdated, hparent, hfolder⟩

/-! ## What the kinds mean -/

theorem kindOf_live {before : Option ItemState} {after : ItemState} (hlive : after.deletedAt = none)
    (hkind : kindOf before (some after) = some kind) :
    kind ≠ .trashed ∧ kind ≠ .deleted ∧ (kind = .created → before = none) ∧
      (kind = .restored → ∃ old, before = some old ∧ old.deletedAt ≠ none) := by
  cases before with
  | none =>
    simp only [kindOf, hlive, Option.isNone_none, if_true, Option.some.injEq] at hkind
    subst hkind
    simp
  | some old =>
    cases hold : old.deletedAt with
    | none =>
      simp only [kindOf, hlive, hold, Option.isNone_none, Option.isSome_none, Bool.and_false,
        Bool.false_and, Bool.false_eq_true, if_false] at hkind
      split at hkind
      · obtain rfl := Option.some.inj hkind
        simp
      · split at hkind
        · obtain rfl := Option.some.inj hkind
          simp
        · cases hkind
    | some time =>
      simp only [kindOf, hlive, hold, Option.isNone_none, Option.isSome_none, Option.isSome_some,
        Option.isNone_some, Bool.and_false, Bool.and_true, Bool.false_eq_true, if_false, if_true,
        Option.some.injEq] at hkind
      subst hkind
      simp [hold]

theorem kindOf_dead {before : Option ItemState} {after : ItemState} (hdead : after.deletedAt ≠ none)
    (hkind : kindOf before (some after) = some kind) :
    kind = .trashed ∧ ∃ old, before = some old ∧ old.deletedAt = none := by
  obtain ⟨time, htime⟩ := Option.ne_none_iff_exists'.1 hdead
  cases before with
  | none => simp [kindOf, htime] at hkind
  | some old =>
    cases hold : old.deletedAt with
    | none => simpa [kindOf, htime, hold, eq_comm] using hkind
    | some time' => simp [kindOf, htime, hold] at hkind

theorem kindOf_gone {before : Option ItemState} (hkind : kindOf before none = some kind) :
    kind = .deleted ∧ ∃ old, before = some old := by
  cases before with
  | none => cases hkind
  | some old => exact ⟨(Option.some.inj hkind).symm, old, rfl⟩

/-- A live item that nothing is told of is what it was. -/
theorem kindOf_eq_none {before : Option ItemState} {after : ItemState} (hlive : after.deletedAt = none)
    (hkind : kindOf before (some after) = none) :
    ∃ old, before = some old ∧ old.deletedAt = none ∧ old.parentId = after.parentId ∧
      old.name = after.name ∧ old.contentChecksum = after.contentChecksum ∧
      old.sizeBytes = after.sizeBytes ∧ old.clientModifiedAt = after.clientModifiedAt := by
  cases before with
  | none => simp [kindOf, hlive] at hkind
  | some old =>
    cases hold : old.deletedAt with
    | some time => simp [kindOf, hlive, hold] at hkind
    | none =>
      simp only [kindOf, hlive, hold, Option.isNone_none, Option.isSome_none, Bool.and_false,
        Bool.false_and, Bool.false_eq_true, if_false] at hkind
      split at hkind
      · cases hkind
      · next hmoved =>
        split at hkind
        · cases hkind
        · next hupdated =>
          push Not at hmoved hupdated
          exact ⟨old, rfl, hold, hmoved.1, hmoved.2, hupdated.1, hupdated.2.1, hupdated.2.2.1⟩

/-! ## What the entries mean -/

section Proper

variable (hc : c.Proper) {change : StorageChange} {parentId : String}

/-- The item that a row is shown as. -/
abbrev shown (id : String) (row : Row) : RemoteItem := fromSnapshot (snapshotItem id row)

theorem live_iff : row.live = true ↔ row.deletedAt = none := by
  simp [Row.live]

theorem get_new (c : Commit) (key : ItemKey) : c.new.get key = none ∨
    ∃ row, key ∈ c.entities ∧ c.after.get key.2 = some row ∧ row.type = key.1 ∧ row.isFilesRoot = false ∧
    c.new.get key = some (itemState c.after key.2 row) := by
  cases hnew : c.new.get key with
  | none => exact .inl rfl
  | some item =>
    obtain ⟨hmem, row, hget, htype, hroot, rfl⟩ := get_readStorageItemSnapshot.1 hnew
    exact .inr ⟨row, hmem, hget, htype, hroot, rfl⟩

include hc

/-- A row that is read before and is still there is read after. -/
theorem Proper.get_new_of_old {item : ItemState} {new : Row} (hold : c.old.get key = some item)
    (hget : c.after.get key.2 = some new) :
    new.isFilesRoot = false ∧ c.new.get key = some (itemState c.after key.2 new) := by
  obtain ⟨hmem, old, hold, htype, hroot, -⟩ := get_readStorageItemSnapshot.1 hold
  obtain ⟨htype', hroot', -⟩ := hc.kept key.2 old new hold hget
  have hroot : new.isFilesRoot = false := by rw [← hroot', hroot]
  exact ⟨hroot, get_readStorageItemSnapshot.2
    ⟨hmem, new, hget, by rw [← htype', htype], hroot, rfl⟩⟩

/-- An entry about a live item says what it is. -/
theorem Proper.told_live (htold : change ∈ c.entries)
    (hlive : c.after.live change.itemId = some row) :
    fromChange change = shown change.itemId row ∧ change.kind ≠ .trashed ∧
      change.kind ≠ .deleted ∧ row.isFilesRoot = false ∧
      (change.kind = .created → c.before.get change.itemId = none) := by
  obtain ⟨key, kind, current, hkind, hcurrent, -, rfl⟩ := mem_entries.1 htold
  have hkind := kind_eq_some.1 hkind
  rcases get_new c key with hnew | ⟨new, hmem, hget, htype, hroot, hnew⟩
  · -- the row would have been read
    rw [currentOf, hnew, Option.none_or] at hcurrent
    obtain ⟨-, old, -, -, -, rfl⟩ := get_readStorageItemSnapshot.1 hcurrent
    have := (hc.get_new_of_old hcurrent (live_eq_some.1 hlive).1).2
    rw [hnew] at this
    cases this
  · rw [currentOf, hnew, Option.some_or, Option.some.injEq] at hcurrent
    subst hcurrent
    obtain ⟨hget', hlive⟩ := live_eq_some.1 hlive
    obtain rfl : new = row := Option.some.inj (hget.symm.trans hget')
    rw [hnew] at hkind
    obtain ⟨htrashed, hdeleted, hcreated, -⟩ := kindOf_live (live_iff.1 hlive) hkind
    refine ⟨rfl, htrashed, hdeleted, hroot, fun hk => ?_⟩
    -- an item that was there before would have been read, too
    cases hbefore : c.before.get key.2 with
    | none => exact hbefore
    | some old =>
      obtain ⟨htype', hroot', -⟩ := hc.kept key.2 old new hbefore hget
      have hold : c.old.get key = some (itemState c.before key.2 old) :=
        get_readStorageItemSnapshot.2
          ⟨hmem, old, hbefore, by rw [htype', htype], by rw [hroot', hroot], rfl⟩
      rw [hcreated hk] at hold
      cases hold

/-- An entry about an item that is not live any more says so. -/
theorem Proper.told_dead (htold : change ∈ c.entries) (hdead : c.after.live change.itemId = none) :
    (change.kind = .trashed ∨ change.kind = .deleted) ∧
      ∀ old, c.before.get change.itemId = some old → old.storageRevision ≤ change.storageRevision := by
  obtain ⟨key, kind, current, hkind, hcurrent, -, rfl⟩ := mem_entries.1 htold
  have hkind := kind_eq_some.1 hkind
  rcases get_new c key with hnew | ⟨new, -, hget, -, -, hnew⟩
  · rw [hnew] at hkind
    refine ⟨.inr (kindOf_gone hkind).1, fun old hold => ?_⟩
    rw [currentOf, hnew, Option.none_or] at hcurrent
    obtain ⟨-, old', hold', -, -, rfl⟩ := get_readStorageItemSnapshot.1 hcurrent
    obtain rfl : old = old' := Option.some.inj (hold.symm.trans hold')
    exact Nat.le_refl _
  · rw [currentOf, hnew, Option.some_or, Option.some.injEq] at hcurrent
    subst hcurrent
    have hnotLive := live_eq_none.1 hdead new hget
    have hdeleted : new.deletedAt ≠ none := fun h => by
      rw [live_iff.2 h] at hnotLive
      cases hnotLive
    rw [hnew] at hkind
    refine ⟨.inl (kindOf_dead hdeleted hkind).1, fun old hold => ?_⟩
    exact (hc.kept key.2 old new hold hget).2.2

/-- A folder that was trashed or deleted is not live any more. -/
theorem Proper.live_of_gone (hkind : c.kind (.folder, parentId) = some kind)
    (hgone : kind = .trashed ∨ kind = .deleted) : c.after.live parentId = none := by
  have hkind := kind_eq_some.1 hkind
  rcases get_new c (.folder, parentId) with hnew | ⟨new, -, hget, -, -, hnew⟩
  · rw [hnew] at hkind
    obtain ⟨-, old, hold⟩ := kindOf_gone hkind
    refine live_eq_none.2 fun new hget => ?_
    rw [(hc.get_new_of_old hold hget).2] at hnew
    cases hnew
  · refine live_eq_none.2 fun new' hget' => ?_
    obtain rfl : new = new' := Option.some.inj (hget.symm.trans hget')
    by_contra hlive
    have hlive : new.live = true := Bool.not_eq_false _ ▸ hlive
    rw [hnew] at hkind
    obtain ⟨htrashed, hdeleted, -⟩ := kindOf_live (live_iff.1 hlive) hkind
    exact hgone.elim htrashed hdeleted

omit hc in
/-- An item that was restored was there before, in the trash. -/
theorem live_of_restored (hkind : c.kind key = some .restored) :
    c.before.live key.2 = none ∧ c.before.get key.2 ≠ none := by
  have hkind := kind_eq_some.1 hkind
  rcases get_new c key with hnew | ⟨new, -, -, -, -, hnew⟩
  · rw [hnew] at hkind
    cases (kindOf_gone hkind).1
  · rw [hnew] at hkind
    cases hlive : new.deletedAt with
    | some time =>
      have hdead : (itemState c.after key.2 new).deletedAt ≠ none := by simp [itemState, hlive]
      cases (kindOf_dead hdead hkind).1
    | none =>
      obtain ⟨old, hold, hdeleted⟩ := (kindOf_live hlive hkind).2.2.2 rfl
      obtain ⟨-, row, hget, -, -, rfl⟩ := get_readStorageItemSnapshot.1 hold
      refine ⟨live_eq_none.2 fun row' hget' => ?_, by rw [hget]; exact Option.some_ne_none row⟩
      obtain rfl : row = row' := Option.some.inj (hget.symm.trans hget')
      rw [← Bool.not_eq_true, live_iff]
      exact hdeleted

/-- A live item without an entry is as it was, or came back or moved with its folder. -/
theorem Proper.untold_live (hlive : c.after.live id = some row)
    (huntold : ∀ change ∈ c.entries, change.itemId ≠ id) :
    (∃ old, c.before.live id = some old ∧ old.parentId = row.parentId ∧
      ∀ item, Shows id old item → Shows id row item) ∨
    (c.before.live id = none ∧ c.kind (.folder, row.parentId.getD "") = some .restored) ∨
    (∃ key, key.2 = id ∧ c.kind key = some .moved ∧ c.before.up id = row.parentId ∧
      c.kind (.folder, row.parentId.getD "") = some .moved) := by
  obtain ⟨hget, hlive'⟩ := live_eq_some.1 hlive
  by_cases huntouched : (row.type, id) ∉ c.entities ∨ row.isFilesRoot = true
  · have hsame := hc.untouched id row (.inr hget) huntouched
    refine .inl ⟨row, ?_, rfl, fun _ h => h⟩
    rw [live_eq_some, ← hsame]
    exact ⟨hget, hlive'⟩
  · push Not at huntouched
    have hnew : c.new.get (row.type, id) = some (itemState c.after id row) :=
      get_readStorageItemSnapshot.2 ⟨huntouched.1, row, hget, rfl,
        Bool.not_eq_true _ ▸ huntouched.2, rfl⟩
    cases hkind : c.kind (row.type, id) with
    | none =>
      have hnone : kindOf (c.old.get (row.type, id)) (some (itemState c.after id row)) = none := by
        rw [← hnew, Option.eq_none_iff_forall_ne_some]
        intro kind hkind'
        rw [kind_eq_some.2 hkind'] at hkind
        cases hkind
      obtain ⟨item, hold, hdeleted, hp, hname, hchecksum, hsize, htime⟩ :=
        kindOf_eq_none (live_iff.1 hlive') hnone
      obtain ⟨-, old, hget', -, -, rfl⟩ := get_readStorageItemSnapshot.1 hold
      obtain ⟨htype, -, hrev⟩ := hc.kept id old row hget' hget
      refine .inl ⟨old, live_eq_some.2 ⟨hget', live_iff.2 hdeleted⟩, hp, ?_⟩
      rintro item ⟨hle, hitem⟩
      refine ⟨hle.trans hrev, ?_⟩
      have hp : old.parentId = row.parentId := hp
      have hname : old.name = row.name := hname
      have hchecksum : old.contentChecksum = row.contentChecksum := hchecksum
      have hsize : old.sizeBytes = row.sizeBytes := hsize
      have htime : old.clientModifiedAt = row.clientModifiedAt := htime
      simp only [fromSnapshot, snapshotItem, RemoteItem.mk.injEq, true_and] at hitem ⊢
      rw [← htype, ← hp, ← hname, ← hchecksum, ← hsize, ← htime]
      exact hitem
    | some kind =>
      rcases told_or_covered hkind with ⟨current, hcurrent, htold⟩ | hcovered
      · rw [currentOf, hnew, Option.some_or, Option.some.injEq] at hcurrent
        subst hcurrent
        exact absurd rfl (huntold _ htold)
      · obtain ⟨previous, current, hold, hcurrent, hcreated, hupdated, hp, hfolder⟩ := hcovered
        rw [currentOf, hnew, Option.some_or, Option.some.injEq] at hcurrent
        subst hcurrent
        have hkindOf := kind_eq_some.1 hkind
        rw [hnew] at hkindOf
        obtain ⟨htrashed, hdeleted, -⟩ := kindOf_live (live_iff.1 hlive') hkindOf
        obtain ⟨-, old, hget', -, -, rfl⟩ := get_readStorageItemSnapshot.1 hold
        cases kind with
        | created => exact absurd rfl hcreated
        | updated => exact absurd rfl hupdated
        | trashed => exact absurd rfl htrashed
        | deleted => exact absurd rfl hdeleted
        | restored => exact .inr (.inl ⟨(live_of_restored hkind).1, hfolder⟩)
        | moved =>
          refine .inr (.inr ⟨_, rfl, hkind, ?_, hfolder⟩)
          rw [Table.up, show c.before.get id = some old from hget', Option.bind_some]
          exact hp

/-- An item that is not live any more was trashed or deleted. -/
theorem Proper.gone (hlive : c.before.live id = some row) (hdead : c.after.live id = none) :
    c.old.get (row.type, id) = some (itemState c.before id row) ∧
    ∃ kind, c.kind (row.type, id) = some kind ∧ (kind = .trashed ∨ kind = .deleted) ∧
      ∀ current, currentOf c.old c.new (row.type, id) = some current → current.id = id := by
  obtain ⟨hget, hlive'⟩ := live_eq_some.1 hlive
  have htouched : (row.type, id) ∈ c.entities ∧ row.isFilesRoot = false := by
    by_contra huntouched
    have hsame := hc.untouched id row (.inl hget)
      (by rw [not_and_or, Bool.not_eq_false] at huntouched; exact huntouched)
    rw [live_eq_none.1 hdead row (hsame.trans hget)] at hlive'
    cases hlive'
  have hold : c.old.get (row.type, id) = some (itemState c.before id row) :=
    get_readStorageItemSnapshot.2 ⟨htouched.1, row, hget, rfl, htouched.2, rfl⟩
  refine ⟨hold, ?_⟩
  rcases get_new c (row.type, id) with hnew | ⟨new, -, hget', -, -, hnew⟩
  · refine ⟨.deleted, kind_eq_some.2 (by rw [hold, hnew]; rfl), .inr rfl, ?_⟩
    intro current hcurrent
    rw [currentOf, hnew, Option.none_or, hold, Option.some.injEq] at hcurrent
    rw [← hcurrent]
    rfl
  · refine ⟨.trashed, kind_eq_some.2 ?_, .inl rfl, ?_⟩
    · have hdeleted : new.deletedAt.isSome = true := by
        have := live_eq_none.1 hdead new hget'
        simpa [Row.live] using this
      have hnone : row.deletedAt.isNone = true := hlive'
      rw [hold, hnew]
      simp [kindOf, itemState, hdeleted, hnone]
    · intro current hcurrent
      rw [currentOf, hnew, Option.some_or, Option.some.injEq] at hcurrent
      rw [← hcurrent]
      rfl

/-- An item that is not live any more and has no entry went with its folder. -/
theorem Proper.untold_dead (hlive : c.before.live id = some row) (hdead : c.after.live id = none)
    (huntold : ∀ change ∈ c.entries, change.itemId ≠ id) (hparent : row.parentId = some parentId) :
    ∃ kind, c.kind (.folder, parentId) = some kind ∧ (kind = .trashed ∨ kind = .deleted) := by
  obtain ⟨hold, kind, hkind, hgone, hid⟩ := hc.gone hlive hdead
  rcases told_or_covered hkind with ⟨current, hcurrent, htold⟩ | hcovered
  · exact absurd (hid current hcurrent) (huntold _ htold)
  · obtain ⟨previous, current, hold', -, -, -, hp, hfolder⟩ := hcovered
    rw [hold, Option.some.injEq] at hold'
    rw [← hp, ← hold'] at hfolder
    have hfolder : c.kind (.folder, row.parentId.getD "") = some kind := hfolder
    rw [hparent] at hfolder
    exact ⟨kind, hfolder, hgone⟩

omit hc in
/-- An entry is about an item that something happened to. -/
theorem untold_of_kind_eq_none (hnone : ∀ type, c.kind (type, id) = none) :
    ∀ change ∈ c.entries, change.itemId ≠ id := by
  rintro change hmem rfl
  obtain ⟨key, kind, current, hkind, hcurrent, -, rfl⟩ := mem_entries.1 hmem
  have hid : current.id = key.2 := by
    rcases Option.or_eq_some_iff.1 hcurrent with hget | ⟨-, hget⟩
    · obtain ⟨-, row, -, -, -, rfl⟩ := get_readStorageItemSnapshot.1 hget
      rfl
    · obtain ⟨-, row, -, -, -, rfl⟩ := get_readStorageItemSnapshot.1 hget
      rfl
  have hkey := hnone key.1
  rw [show (toChange kind current).itemId = key.2 from hid] at hkey
  rw [show c.kind (key.1, key.2) = some kind from hkind] at hkey
  cases hkey

/-- A live item that nothing happened to is live after, in the same folder. -/
theorem Proper.same_of_kind_eq_none (hnone : ∀ type, c.kind (type, id) = none)
    (hlive : c.before.live id = some row) :
    ∃ new, c.after.live id = some new ∧ new.parentId = row.parentId ∧
      ∀ item, Shows id row item → Shows id new item := by
  cases hnew : c.after.live id with
  | none =>
    obtain ⟨-, kind, hkind, -⟩ := hc.gone hlive hnew
    rw [hnone] at hkind
    cases hkind
  | some new =>
    rcases hc.untold_live hnew (untold_of_kind_eq_none hnone) with ⟨old, hold, hp, hshows⟩ | ⟨hdead, -⟩ |
      ⟨key, rfl, hkind, -⟩
    · obtain rfl := Option.some.inj (hold.symm.trans hlive)
      exact ⟨new, rfl, hp.symm, hshows⟩
    · rw [hdead] at hlive
      cases hlive
    · rw [hnone key.1] at hkind
      cases hkind

end Proper

end Commit

end Staaash.Remote
