import Staaash.Service.Admission
import Staaash.Service.Proofs.IntentsProofs

/-!
# Proofs: paths

What a commit leaves of the rows, as far as names go, and of the live paths: a path stays as it is, as long
as no folder on it is written.
-/

namespace Staaash.Service

open Staaash.Library
open Staaash.Journal (Status)

variable {db db' : Database} {change : Change} {plan : Plan} {m m' : Mutation} {s s' : World}
variable {id : String} {item : Item} {parent : Option String} {path full : List String} {n : Nat}

/-! ## What a commit leaves of the names -/

/-- A row has the name and the parent that it should have, or has lost its parent. -/
structure Item.Slot (deleted : List String) (after item : Item) : Prop where
  type : item.type = after.type
  name : item.name = after.name
  deletedAt : item.deletedAt = after.deletedAt
  revision : item.storageRevision = after.storageRevision
  parent : item.parentId = after.parentId ∨
    item.parentId = none ∧ ∃ id ∈ deleted, after.parentId = some id

theorem Item.Follows.slot {deleted : List String} {after : Item} (h : after.Follows deleted item) :
    after.Slot deleted item := by
  obtain rfl | ⟨id, hid, hparent, rfl⟩ := h
  · exact ⟨rfl, rfl, rfl, rfl, .inl rfl⟩
  · exact ⟨rfl, rfl, rfl, rfl, .inr ⟨rfl, id, hid, hparent⟩⟩

theorem Item.Slot.live {deleted : List String} {after : Item} (h : after.Slot deleted item) :
    item.live = after.live := by
  unfold Item.live
  rw [h.deletedAt]

theorem Item.Slot.refl {deleted : List String} (item : Item) : item.Slot deleted item :=
  ⟨rfl, rfl, rfl, rfl, .inl rfl⟩

theorem Item.Slot.trans {deleted : List String} {after final : Item} (h : after.Slot deleted item)
    (h' : item.Slot [] final) : after.Slot deleted final := by
  refine ⟨h'.type.trans h.type, h'.name.trans h.name, h'.deletedAt.trans h.deletedAt,
    h'.revision.trans h.revision, ?_⟩
  obtain hsame | ⟨-, id, hid, -⟩ := h'.parent
  · rw [hsame]
    exact h.parent
  · exact absurd hid List.not_mem_nil

theorem Item.Slot.write {deleted : List String} {after : Item} (h : after.Slot deleted item)
    (data : ItemData) : (data.write after).Slot deleted (data.write item) := by
  refine ⟨h.type, ?_, ?_, ?_, ?_⟩
  · show data.name.getD item.name = data.name.getD after.name
    rw [h.name]
  · show data.deletedAt.getD item.deletedAt = data.deletedAt.getD after.deletedAt
    rw [h.deletedAt]
  · show item.storageRevision + 1 = after.storageRevision + 1
    rw [h.revision]
  · show data.parentId.getD item.parentId = data.parentId.getD after.parentId ∨
      data.parentId.getD item.parentId = none ∧
        ∃ id ∈ deleted, data.parentId.getD after.parentId = some id
    cases data.parentId with
    | none => exact h.parent
    | some parentId => exact .inl rfl

/-- What a commit does to the tables, as far as names go. -/
structure Committed (plan : Plan) (db db' : Database) : Prop where
  matched : ∀ change ∈ plan.changes, change.Matches db
  filesRoot : db'.filesRoot = db.filesRoot
  slot : ∀ id item, db'.items.get id = some item →
    ∃ after, plan.rowAfter db id = some after ∧ after.Slot (deletedIds plan.changes) item
  row : ∀ id after, plan.rowAfter db id = some after →
    ∃ item, db'.items.get id = some item ∧ after.Slot (deletedIds plan.changes) item

theorem deleteTrashEntry_slot {deleted : Option String} (h : db.deleteTrashEntry deleted = some db') :
    db'.filesRoot = db.filesRoot ∧ ∀ id, ∃ f : Item → Item,
      db'.items.get id = (db.items.get id).map f ∧ ∀ item : Item, item.Slot [] (f item) := by
  cases deleted with
  | none =>
    cases h
    exact ⟨rfl, fun id => ⟨fun item => item, Option.map_id'.symm, .refl⟩⟩
  | some entryId =>
    obtain ⟨-, h⟩ := Option.ite_none_right_eq_some.1 h
    cases h
    refine ⟨rfl, fun id => ⟨_, OrderedMap.get_mapValues _ _ _, fun item => ?_⟩⟩
    split <;> exact ⟨rfl, rfl, rfl, rfl, .inl rfl⟩

theorem committed_of_commit (hnodup : (plan.changes.map Change.id).Nodup)
    (h : db.commit plan = some db') : Committed plan db db' := by
  obtain ⟨db₁, db₂, hcreate, hchanges, hdelete⟩ := commit_eq_some h
  obtain ⟨hitems, hroot₁⟩ := createTrashEntry_items hcreate
  have hroot₂ := applyChanges_filesRoot hchanges
  obtain ⟨hroot₃, hfinal⟩ := deleteTrashEntry_slot hdelete
  obtain ⟨hmatched, hrows⟩ := applyChanges_spec hnodup hchanges
  have hafter : ∀ id, rowAfter plan.changes db₁ id = plan.rowAfter db id := by
    intro id
    show rowAfter plan.changes db₁ id = rowAfter plan.changes db id
    unfold rowAfter
    rw [hitems]
  have hmatches : ∀ change : Change, change.Matches db₁ → change.Matches db := by
    intro change hmatch
    cases change <;> simpa only [Change.Matches, Database.HasRevision, hitems] using hmatch
  refine ⟨fun change hmem => hmatches change (hmatched change hmem),
    hroot₃.trans (hroot₂.trans hroot₁), fun id item hget => ?_, fun id after hrow => ?_⟩
  · obtain ⟨f, hf, hslot⟩ := hfinal id
    rw [hf] at hget
    obtain ⟨mid, hmid, rfl⟩ := Option.map_eq_some_iff.1 hget
    have hfollows := hrows id
    rw [hmid, hafter] at hfollows
    cases hrow : plan.rowAfter db id with
    | none =>
      rw [hrow] at hfollows
      exact hfollows.elim
    | some after =>
      rw [hrow] at hfollows
      exact ⟨after, rfl, (Item.Follows.slot hfollows).trans (hslot mid)⟩
  · obtain ⟨f, hf, hslot⟩ := hfinal id
    have hfollows := hrows id
    rw [hafter, hrow] at hfollows
    cases hmid : db₂.items.get id with
    | none =>
      rw [hmid] at hfollows
      exact hfollows.elim
    | some mid =>
      rw [hmid] at hfollows hf
      exact ⟨f mid, hf, (Item.Follows.slot hfollows).trans (hslot mid)⟩

/-! ## Live paths -/

/-- The path that `livePath` finds, by the way up. -/
inductive Database.LiveAt (db : Database) : Option String → List String → Prop
  | top : LiveAt db none []
  | filesRoot {folder : Item} (hget : db.folder db.filesRoot = some folder)
      (hlive : folder.live = true) : LiveAt db (some db.filesRoot) []
  | inside {id : String} {folder : Item} {path : List String} (hget : db.folder id = some folder)
      (hlive : folder.live = true) (hid : id ≠ db.filesRoot) (hparent : LiveAt db folder.parentId path) :
      LiveAt db (some id) (path ++ [folder.name])

/-- And the one that a folder has after the plan. -/
inductive Plan.LiveAfter (plan : Plan) (db : Database) : Option String → List String → Prop
  | top : LiveAfter plan db none []
  | written {id : String} {folder : Item} {path : List String} (hwrites : plan.writes id = true)
      (hrow : plan.rowAfter db id = some folder) (hlive : folder.live = true)
      (hparent : LiveAfter plan db folder.parentId path) :
      LiveAfter plan db (some id) (path ++ [folder.name])
  | kept {id : String} {path : List String} (hwrites : plan.writes id = false)
      (hpath : db.LiveAt (some id) path) : LiveAfter plan db (some id) path

theorem liveAt_of_livePath (h : db.livePath n parent = some path) : db.LiveAt parent path := by
  induction n generalizing parent path with
  | zero =>
    cases parent with
    | none =>
      cases h
      exact .top
    | some id => cases h
  | succ n ih =>
    cases parent with
    | none =>
      cases h
      exact .top
    | some id =>
      obtain ⟨folder, hget, h⟩ := Option.bind_eq_some_iff.1 h
      obtain ⟨hlive, h⟩ := Option.ite_none_left_eq_some.1 h
      rw [Bool.not_eq_true', Bool.not_eq_false] at hlive
      split at h
      · rename_i hroot
        cases h
        subst hroot
        exact .filesRoot hget hlive
      · rename_i hroot
        obtain ⟨above, habove, rfl⟩ := Option.map_eq_some_iff.1 h
        exact .inside hget hlive hroot (ih habove)

theorem liveAfter_of_livePath (h : plan.livePath db n parent = some path) :
    plan.LiveAfter db parent path := by
  induction n generalizing parent path with
  | zero =>
    cases parent with
    | none =>
      cases h
      exact .top
    | some id => cases h
  | succ n ih =>
    cases parent with
    | none =>
      cases h
      exact .top
    | some id =>
      replace h : (if plan.writes id then _ else db.livePath (n + 1) (some id)) = some path := h
      split at h
      · rename_i hwrites
        obtain ⟨folder, hrow, h⟩ := Option.bind_eq_some_iff.1 h
        obtain ⟨hlive, h⟩ := Option.ite_none_right_eq_some.1 h
        obtain ⟨above, habove, rfl⟩ := Option.map_eq_some_iff.1 h
        exact .written hwrites hrow hlive (ih habove)
      · rename_i hwrites
        exact .kept (Bool.eq_false_iff.2 hwrites) (liveAt_of_livePath h)

/-- A folder has one live path. -/
theorem Database.LiveAt.unique {path' : List String} (h : db.LiveAt parent path)
    (h' : db.LiveAt parent path') : path = path' := by
  induction h generalizing path' with
  | top =>
    cases h'
    rfl
  | filesRoot hget hlive =>
    cases h' with
    | filesRoot => rfl
    | inside _ _ hid => exact absurd rfl hid
  | inside hget hlive hid hparent ih =>
    cases h' with
    | filesRoot => exact absurd rfl hid
    | inside hget' hlive' hid' hparent' =>
      obtain rfl := Option.some.inj (hget.symm.trans hget')
      rw [ih hparent']

/-! ## What stays -/

theorem writes_iff : plan.writes id = true ↔ ∃ change ∈ plan.changes, change.id = id := by
  unfold Plan.writes
  rw [List.any_eq_true]
  exact exists_congr fun change => and_congr_right fun _ => decide_eq_true_iff

theorem rowAfter_of_not_writes (hwrites : plan.writes id = false) :
    plan.rowAfter db id = db.items.get id := by
  have hnone : plan.changes.find? (fun change => change.id = id) = none := by
    refine List.find?_eq_none.2 fun change hmem hid => ?_
    rw [writes_iff.2 ⟨change, hmem, of_decide_eq_true hid⟩] at hwrites
    cases hwrites
  show rowAfter plan.changes db id = _
  unfold rowAfter
  rw [hnone]

theorem mem_deletedIds_iff : id ∈ deletedIds plan.changes ↔ ∃ revision, .delete id revision ∈ plan.changes := by
  unfold deletedIds
  rw [List.mem_filterMap]
  constructor
  · rintro ⟨change, hmem, hid⟩
    cases change with
    | create | update => cases hid
    | delete id' revision =>
      cases hid
      exact ⟨revision, hmem⟩
  · rintro ⟨revision, hmem⟩
    exact ⟨_, hmem, rfl⟩

theorem writes_of_mem_deletedIds (h : id ∈ deletedIds plan.changes) : plan.writes id = true := by
  obtain ⟨revision, hmem⟩ := mem_deletedIds_iff.1 h
  exact writes_iff.2 ⟨_, hmem, rfl⟩

namespace Committed

variable (h : Committed plan db db')
include h

/-- A row that is not written. -/
theorem other (hwrites : plan.writes id = false) (hget : db.items.get id = some item) :
    ∃ item', db'.items.get id = some item' ∧ item.Slot (deletedIds plan.changes) item' :=
  h.row id item (by rw [rowAfter_of_not_writes hwrites, hget])

theorem other' (hwrites : plan.writes id = false) (hget : db'.items.get id = some item) :
    ∃ old, db.items.get id = some old ∧ old.Slot (deletedIds plan.changes) item := by
  obtain ⟨after, hrow, hslot⟩ := h.slot id item hget
  exact ⟨after, (rowAfter_of_not_writes hwrites).symm.trans hrow, hslot⟩

theorem folder (hwrites : plan.writes id = false) (hget : db.folder id = some item) :
    ∃ item', db'.folder id = some item' ∧ item.Slot (deletedIds plan.changes) item' := by
  obtain ⟨hget, htype⟩ := Option.filter_eq_some_iff.1 hget
  obtain ⟨item', hget', hslot⟩ := h.other hwrites hget
  refine ⟨item', Option.filter_eq_some_iff.2 ⟨hget', ?_⟩, hslot⟩
  rw [hslot.type]
  exact htype

theorem folder' (hwrites : plan.writes id = false) (hget : db'.folder id = some item) :
    ∃ old, db.folder id = some old ∧ old.Slot (deletedIds plan.changes) item := by
  obtain ⟨hget, htype⟩ := Option.filter_eq_some_iff.1 hget
  obtain ⟨old, hold, hslot⟩ := h.other' hwrites hget
  refine ⟨old, Option.filter_eq_some_iff.2 ⟨hold, ?_⟩, hslot⟩
  rw [← hslot.type]
  exact htype

/-- A live path stays, where the plan writes no folder on it. -/
theorem liveAt (hpath : db.LiveAt parent path)
    (hkeeps : ∀ id above, db.LiveAt (some id) above → above <+: path → plan.writes id = false) :
    db'.LiveAt parent path := by
  induction hpath with
  | top => exact .top
  | filesRoot hget hlive =>
    obtain ⟨folder', hget', hslot⟩ := h.folder (hkeeps _ _ (.filesRoot hget hlive) (List.prefix_refl _)) hget
    rw [← h.filesRoot] at hget' ⊢
    exact .filesRoot hget' (hslot.live.trans hlive)
  | @inside id folder path hget hlive hid hparent ih =>
    have hself := hkeeps id _ (.inside hget hlive hid hparent) (List.prefix_refl _)
    obtain ⟨folder', hget', hslot⟩ := h.folder hself hget
    have habove := ih fun id' above habove hbegins =>
      hkeeps id' above habove (hbegins.trans (List.prefix_append _ _))
    have hsame : folder'.parentId = folder.parentId := by
      obtain hsame | ⟨-, id', hdeleted, hparentId⟩ := hslot.parent
      · exact hsame
      · rw [hparentId] at hparent
        have := hkeeps id' path hparent (List.prefix_append _ _)
        rw [writes_of_mem_deletedIds hdeleted] at this
        cases this
    rw [← hslot.name]
    refine .inside hget' (hslot.live.trans hlive) (h.filesRoot ▸ hid) ?_
    rw [hsame]
    exact habove

/-! ## What another plan still makes of the rows -/

variable {other : Plan}

theorem rowAfter (hwrites : plan.writes id = false) (hrow : other.rowAfter db id = some item) :
    ∃ item', other.rowAfter db' id = some item' ∧ item.Slot (deletedIds plan.changes) item' := by
  unfold Plan.rowAfter at hrow ⊢
  cases hfind : other.changes.find? fun change => change.id = id with
  | none =>
    rw [hfind] at hrow
    exact h.other hwrites hrow
  | some change =>
    rw [hfind] at hrow
    cases change with
    | create id' new => exact ⟨item, hrow, .refl item⟩
    | delete id' preRevision => cases hrow
    | update id' preRevision data =>
      obtain ⟨old, hget, rfl⟩ := Option.map_eq_some_iff.1 hrow
      obtain ⟨old', hget', hslot⟩ := h.other hwrites hget
      exact ⟨data.write old', Option.map_eq_some_iff.2 ⟨old', hget', rfl⟩, hslot.write data⟩

theorem rowAfter' (hwrites : plan.writes id = false) (hrow : other.rowAfter db' id = some item) :
    ∃ old, other.rowAfter db id = some old ∧ old.Slot (deletedIds plan.changes) item := by
  unfold Plan.rowAfter at hrow ⊢
  cases hfind : other.changes.find? fun change => change.id = id with
  | none =>
    rw [hfind] at hrow
    exact h.other' hwrites hrow
  | some change =>
    rw [hfind] at hrow
    cases change with
    | create id' new => exact ⟨item, hrow, .refl item⟩
    | delete id' preRevision => cases hrow
    | update id' preRevision data =>
      obtain ⟨new, hget, rfl⟩ := Option.map_eq_some_iff.1 hrow
      obtain ⟨old, hold, hslot⟩ := h.other' hwrites hget
      exact ⟨data.write old, Option.map_eq_some_iff.2 ⟨old, hold, rfl⟩, hslot.write data⟩

omit h in
/-- The plan writes no folder of a path that another plan has. -/
theorem notWritten (hapart : ∀ id, other.writes id = true → plan.writes id = false)
    (hkeeps : ∀ id above, db.LiveAt (some id) above → above <+: full → plan.writes id = false)
    (hpath : other.LiveAfter db (some id) path) (hbegins : path <+: full) : plan.writes id = false := by
  cases hpath with
  | written hwrites => exact hapart id hwrites
  | kept _ hpath => exact hkeeps id path hpath hbegins

theorem liveAfter (hapart : ∀ id, other.writes id = true → plan.writes id = false)
    (hpath : other.LiveAfter db parent path)
    (hkeeps : ∀ id above, db.LiveAt (some id) above → above <+: path → plan.writes id = false) :
    other.LiveAfter db' parent path := by
  induction hpath with
  | top => exact .top
  | kept hwrites hpath => exact .kept hwrites (h.liveAt hpath hkeeps)
  | @written id folder path hwrites hrow hlive hparent ih =>
    obtain ⟨folder', hrow', hslot⟩ := h.rowAfter (hapart id hwrites) hrow
    have habove := ih fun id' above habove hbegins =>
      hkeeps id' above habove (hbegins.trans (List.prefix_append _ _))
    have hsame : folder'.parentId = folder.parentId := by
      obtain hsame | ⟨-, id', hdeleted, hparentId⟩ := hslot.parent
      · exact hsame
      · rw [hparentId] at hparent
        have := notWritten hapart hkeeps hparent (List.prefix_append _ _)
        rw [writes_of_mem_deletedIds hdeleted] at this
        cases this
    rw [← hslot.name]
    refine .written hwrites hrow' (hslot.live.trans hlive) ?_
    rw [hsame]
    exact habove

end Committed

end Staaash.Service
