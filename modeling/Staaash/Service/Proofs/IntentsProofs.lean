import Staaash.Service.Intents

/-!
# Proofs: intents

What a commit makes of each row, as long as it writes no row twice.
-/

namespace Staaash.Service

open Staaash.Library

variable {db db' : Database} {change : Change} {changes : List Change} {plan : Plan}
variable {id : String} {item : Item}

def Database.HasRevision (db : Database) (id : String) (revision : Nat) : Prop :=
  ∃ item, db.items.get id = some item ∧ item.storageRevision = revision

/-- The row that a change was planned from is there. -/
def Change.Matches (change : Change) (db : Database) : Prop :=
  match change with
  | .create id _ => db.items.get id = none
  | .update id preRevision _ => db.HasRevision id preRevision
  | .delete id preRevision => db.HasRevision id preRevision

/-- The folders that are deleted. -/
def deletedIds (changes : List Change) : List String :=
  changes.filterMap fun
    | .delete id _ => some id
    | _ => none

/-- A row as it is, or without its parent, where that was deleted. -/
def Item.Follows (deleted : List String) (after item : Item) : Prop :=
  item = after ∨ ∃ id ∈ deleted, after.parentId = some id ∧ item = { after with parentId := none }

/-- The row is there or not, as it should be. -/
def Follows (deleted : List String) : Option Item → Option Item → Prop
  | none, none => True
  | some after, some item => after.Follows deleted item
  | _, _ => False

/-- The row after a list of changes. -/
def rowAfter (changes : List Change) (db : Database) (id : String) : Option Item :=
  match changes.find? fun change => change.id = id with
  | none => db.items.get id
  | some change => change.row (db.items.get id)

theorem Follows.refl {deleted : List String} (row : Option Item) : Follows deleted row row := by
  cases row with
  | none => trivial
  | some item => exact .inl rfl

theorem Follows.mono {deleted deleted' : List String} (h : ∀ id ∈ deleted, id ∈ deleted')
    {row row' : Option Item} (hrow : Follows deleted row row') : Follows deleted' row row' := by
  cases row <;> cases row' <;> try exact hrow
  obtain hsame | ⟨id, hid, hparent, hnull⟩ := hrow
  · exact .inl hsame
  · exact .inr ⟨id, h id hid, hparent, hnull⟩

theorem Follows.trans {deleted : List String} {row row' row'' : Option Item}
    (h : Follows deleted row row') (h' : Follows deleted row' row'') : Follows deleted row row'' := by
  cases row <;> cases row' <;> cases row'' <;> try exact h.elim
  · trivial
  · exact h'.elim
  · exact h'.elim
  obtain rfl | ⟨id, hid, hparent, rfl⟩ := h
  · exact h'
  · obtain rfl | ⟨id', -, hparent', -⟩ := h'
    · exact .inr ⟨id, hid, hparent, rfl⟩
    · cases hparent'

/-- A change does to a row without its parent what it does to the row. -/
theorem Follows.row {deleted : List String} {row row' : Option Item} (h : Follows deleted row row') :
    Follows deleted (change.row row) (change.row row') := by
  cases change with
  | create id item => exact .refl _
  | delete id preRevision => trivial
  | update id preRevision data =>
    cases row <;> cases row' <;> try exact h
    obtain rfl | ⟨id, hid, hparent, rfl⟩ := h
    · exact .inl rfl
    · cases hdata : data.parentId with
      | some parentId => exact .inl (by simp [ItemData.write, hdata])
      | none =>
        exact .inr ⟨id, hid, by simp [ItemData.write, hdata, hparent], by simp [ItemData.write, hdata]⟩

/-! ## One change -/

theorem put_eq_some (h : db.put id item = some db') : db' = { db with items := db.items.set id item } := by
  obtain ⟨-, h⟩ := Option.ite_none_right_eq_some.1 h
  exact (Option.some.inj h).symm

theorem get_put (h : db.put id item = some db') (id' : String) :
    db'.items.get id' = if id' = id then some item else db.items.get id' := by
  rw [put_eq_some h]
  exact OrderedMap.get_set _ _ _ _

theorem get_deleteItem (id id' : String) :
    Follows [id] (if id' = id then none else db.items.get id') ((db.deleteItem id).items.get id') := by
  unfold Database.deleteItem
  rw [OrderedMap.get_mapValues, OrderedMap.get_filterKeys]
  by_cases hid : id' = id
  · rw [if_pos hid, if_neg (by simpa using hid)]
    trivial
  · rw [if_neg hid, if_pos (by simpa using hid)]
    cases hget : db.items.get id' with
    | none => trivial
    | some item =>
      show Follows [id] (some item) (some (if item.parentId = some id then { item with parentId := none }
        else item))
      split
      · rename_i hparent
        exact .inr ⟨id, List.mem_singleton_self _, hparent, rfl⟩
      · exact .inl rfl

theorem applyChange_spec (h : db.applyChange change = some db') :
    change.Matches db ∧ (∀ id, Follows (deletedIds [change])
      (if id = change.id then change.row (db.items.get id) else db.items.get id) (db'.items.get id)) := by
  cases change with
  | create id item =>
    obtain ⟨hguard, h⟩ := Option.ite_none_right_eq_some.1 h
    rw [Bool.and_eq_true, Bool.not_eq_true'] at hguard
    refine ⟨(OrderedMap.has_eq_false_iff _ _).1 hguard.1, fun id' => ?_⟩
    rw [get_put h]
    exact .refl _
  | update id preRevision data =>
    obtain ⟨item, hget, h⟩ := Option.bind_eq_some_iff.1 h
    obtain ⟨hguard, h⟩ := Option.ite_none_right_eq_some.1 h
    rw [Bool.and_eq_true, decide_eq_true_eq] at hguard
    refine ⟨⟨item, hget, hguard.1⟩, fun id' => ?_⟩
    rw [get_put h]
    show Follows _ (if id' = id then _ else _) _
    split
    · rename_i hid
      rw [hid, hget]
      exact .refl _
    · exact .refl _
  | delete id preRevision =>
    obtain ⟨item, hget, h⟩ := Option.bind_eq_some_iff.1 h
    obtain ⟨hrevision, h⟩ := Option.ite_none_right_eq_some.1 h
    cases h
    exact ⟨⟨item, hget, hrevision⟩, fun id' => get_deleteItem id id'⟩

/-! ## All of them -/

theorem HasRevision.of_follows {deleted : List String} {revision : Nat}
    (h : db'.HasRevision id revision)
    (hrow : Follows deleted (db.items.get id) (db'.items.get id)) : db.HasRevision id revision := by
  obtain ⟨item, hget, hrevision⟩ := h
  rw [hget] at hrow
  cases hold : db.items.get id with
  | none =>
    rw [hold] at hrow
    exact hrow.elim
  | some old =>
    rw [hold] at hrow
    refine ⟨old, hold, ?_⟩
    obtain rfl | ⟨_, -, -, rfl⟩ := hrow
    · exact hrevision
    · exact hrevision

theorem Change.Matches.of_follows {deleted : List String} (h : change.Matches db')
    (hrow : Follows deleted (db.items.get change.id) (db'.items.get change.id)) : change.Matches db := by
  cases change with
  | create id item =>
    replace hrow : Follows deleted (db.items.get id) (db'.items.get id) := hrow
    rw [show db'.items.get id = none from h] at hrow
    show db.items.get id = none
    cases hget : db.items.get id with
    | none => rfl
    | some item =>
      rw [hget] at hrow
      exact hrow.elim
  | update id preRevision data => exact HasRevision.of_follows h hrow
  | delete id preRevision => exact HasRevision.of_follows h hrow

theorem applyChanges_spec (hnodup : (changes.map Change.id).Nodup)
    (h : changes.foldlM Database.applyChange db = some db') :
    (∀ change ∈ changes, change.Matches db) ∧
      ∀ id, Follows (deletedIds changes) (rowAfter changes db id) (db'.items.get id) := by
  induction changes generalizing db with
  | nil =>
    cases h
    exact ⟨fun _ h => (List.not_mem_nil h).elim, fun id => .refl _⟩
  | cons change changes ih =>
    obtain ⟨mid, hmid, hrest⟩ := Option.bind_eq_some_iff.1
      (show (db.applyChange change).bind _ = some db' from h)
    rw [List.map_cons, List.nodup_cons] at hnodup
    obtain ⟨hmatches, hrow⟩ := applyChange_spec hmid
    obtain ⟨hmatches', hrow'⟩ := ih hnodup.2 hrest
    have hhead : ∀ id ∈ deletedIds [change], id ∈ deletedIds (change :: changes) := by
      intro id hid
      unfold deletedIds at hid ⊢
      rw [List.filterMap_cons]
      split <;> simp_all
    have htail : ∀ id ∈ deletedIds changes, id ∈ deletedIds (change :: changes) := by
      intro id hid
      unfold deletedIds at hid ⊢
      rw [List.filterMap_cons]
      split
      · exact hid
      · exact List.mem_cons_of_mem _ hid
    have hother : ∀ {id}, id ≠ change.id →
        Follows (deletedIds (change :: changes)) (db.items.get id) (mid.items.get id) := by
      intro id hne
      have hfollows := (hrow id).mono hhead
      rwa [if_neg hne] at hfollows
    constructor
    · intro other hmem
      obtain rfl | hmem := List.mem_cons.1 hmem
      · exact hmatches
      · exact (hmatches' other hmem).of_follows (hother fun heq =>
          hnodup.1 (heq ▸ List.mem_map_of_mem hmem))
    · intro id
      have hfinal := (hrow' id).mono htail
      unfold rowAfter at hfinal ⊢
      rw [List.find?_cons]
      by_cases hid : change.id = id
      · rw [decide_eq_true hid]
        have hnone : changes.find? (fun change => change.id = id) = none := by
          refine List.find?_eq_none.2 fun other hmem => ?_
          intro heq
          exact hnodup.1 (hid ▸ (of_decide_eq_true heq) ▸ List.mem_map_of_mem hmem)
        rw [hnone] at hfinal
        have hfollows := (hrow id).mono hhead
        rw [if_pos hid.symm] at hfollows
        exact hfollows.trans hfinal
      · rw [decide_eq_false hid]
        refine Follows.trans ?_ hfinal
        cases changes.find? fun change => change.id = id with
        | none => exact hother (Ne.symm hid)
        | some later => exact (hother (Ne.symm hid)).row

theorem createTrashEntry_items {created : Option (String × TrashEntry)}
    (h : db.createTrashEntry created = some db') :
    db'.items = db.items ∧ db'.filesRoot = db.filesRoot := by
  cases created with
  | none =>
    cases h
    exact ⟨rfl, rfl⟩
  | some entry =>
    obtain ⟨-, h⟩ := Option.ite_none_left_eq_some.1 h
    cases h
    exact ⟨rfl, rfl⟩

theorem applyChange_filesRoot (h : db.applyChange change = some db') : db'.filesRoot = db.filesRoot := by
  cases change with
  | create id item =>
    obtain ⟨-, hput⟩ := Option.ite_none_right_eq_some.1 h
    rw [put_eq_some hput]
  | update id preRevision data =>
    obtain ⟨item, -, h⟩ := Option.bind_eq_some_iff.1 h
    obtain ⟨-, hput⟩ := Option.ite_none_right_eq_some.1 h
    rw [put_eq_some hput]
  | delete id preRevision =>
    obtain ⟨item, -, h⟩ := Option.bind_eq_some_iff.1 h
    obtain ⟨-, h⟩ := Option.ite_none_right_eq_some.1 h
    cases h
    rfl

theorem applyChanges_filesRoot (h : changes.foldlM Database.applyChange db = some db') :
    db'.filesRoot = db.filesRoot := by
  induction changes generalizing db with
  | nil =>
    cases h
    rfl
  | cons change changes ih =>
    obtain ⟨mid, hmid, hrest⟩ := Option.bind_eq_some_iff.1
      (show (db.applyChange change).bind _ = some db' from h)
    exact (ih hrest).trans (applyChange_filesRoot hmid)

/-- The parts of a commit. -/
theorem commit_eq_some (h : db.commit plan = some db') : ∃ db₁ db₂,
    db.createTrashEntry plan.createdTrashEntry = some db₁ ∧
    plan.changes.foldlM Database.applyChange db₁ = some db₂ ∧
    db₂.deleteTrashEntry plan.deletedTrashEntry = some db' := by
  obtain ⟨db₂, h, hdelete⟩ := Option.bind_eq_some_iff.1 h
  obtain ⟨db₁, hcreate, hchanges⟩ := Option.bind_eq_some_iff.1 h
  exact ⟨db₁, db₂, hcreate, hchanges, hdelete⟩

end Staaash.Service
