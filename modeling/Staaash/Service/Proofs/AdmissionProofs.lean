import Staaash.Service.Admission
import Staaash.Service.Proofs.PathsProofs

/-!
# Proofs: admission

As long as what is prepared is not outdated, an open mutation covers the paths of the names it takes and of
the folders it writes. Another one that moved, trashed or deleted a folder above them would need the same
paths, and so would one that takes the same name; so the answer of the check stays true until the commit.
Locks keep two mutations apart only where neither is an item of a batch.
-/

namespace Staaash.Service

open Staaash.Library
open Staaash.Journal (Status)

variable {db db' : Database} {change : Change} {plan : Plan} {m m' : Mutation} {s s' : World}
variable {ids : List String} {id : String} {item : Item} {target : NamespaceTarget} {a b : List String}
variable {parent : Option String}

/-! ## Locks -/

/-- What `Mutation.apart` answers. -/
structure Apart (m m' : Mutation) : Prop where
  account : m.holdsAccount = false
  account' : m'.holdsAccount = false
  disjoint : ∀ key ∈ m.plan.stepKeys, ∀ key' ∈ m'.plan.stepKeys, key.overlaps key' = false

theorem apart_of_eq_true (h : m.apart m' = true) : Apart m m' := by
  unfold Mutation.apart at h
  rw [Bool.and_eq_true, Bool.and_eq_true, Bool.not_eq_true', Bool.not_eq_true', Bool.not_eq_true'] at h
  obtain ⟨⟨haccount, haccount'⟩, hdisjoint⟩ := h
  refine ⟨haccount, haccount', fun key hkey key' hkey' => ?_⟩
  exact Bool.eq_false_iff.2 (List.any_eq_false.1
    (Bool.eq_false_iff.2 (List.any_eq_false.1 hdisjoint key hkey)) key' hkey')

theorem Apart.symm (h : Apart m m') : Apart m' m := by
  refine ⟨h.account', h.account, fun key hkey key' hkey' => ?_⟩
  have := h.disjoint key' hkey' key hkey
  unfold StorageKey.overlaps at this ⊢
  rwa [Bool.or_comm]

theorem contains_iff {key : StorageKey} {path : List String} :
    key.contains ⟨.files, path⟩ = true ↔ key.area = .files ∧ key.path <+: path := by
  unfold StorageKey.contains
  rw [Bool.and_eq_true, decide_eq_true_eq, List.isPrefixOf_iff_prefix]

theorem exists_key (haccount : m.holdsAccount = false) (h : m.covers ⟨.files, a⟩ = true) :
    ∃ key ∈ m.plan.stepKeys, key.area = .files ∧ key.path <+: a := by
  unfold Mutation.covers at h
  rw [haccount, Bool.false_or] at h
  obtain ⟨key, hmem, hcontains⟩ := List.any_eq_true.1 h
  exact ⟨key, hmem, contains_iff.1 hcontains⟩

/-- They do not cover a path and one below it. -/
theorem Apart.not_below (h : Apart m m') (ha : m.covers ⟨.files, a⟩ = true)
    (hb : m'.covers ⟨.files, b⟩ = true) : ¬a <+: b := by
  intro hbegins
  obtain ⟨key, hmem, harea, hpath⟩ := exists_key h.account ha
  obtain ⟨key', hmem', harea', hpath'⟩ := exists_key h.account' hb
  have hoverlap : key.overlaps key' = true := by
    unfold StorageKey.overlaps StorageKey.contains
    rw [harea, harea', decide_eq_true rfl, Bool.true_and, Bool.true_and, Bool.or_eq_true,
      List.isPrefixOf_iff_prefix, List.isPrefixOf_iff_prefix]
    exact List.prefix_or_prefix_of_prefix (hpath.trans hbegins) hpath'
  rw [h.disjoint key hmem key' hmem'] at hoverlap
  cases hoverlap

/-- Where it holds keys, they are those of its steps. -/
theorem stepKeys_of_resourceKeys (h : plan.resourceKeys ≠ []) : plan.resourceKeys = plan.stepKeys := by
  unfold Plan.resourceKeys at h ⊢
  by_cases hpurges : plan.purges = true
  · exact absurd (if_pos hpurges) h
  · exact if_neg hpurges

/-! ## Targets -/

theorem mem_targets : target ∈ plan.targets db ↔ ∃ change ∈ plan.changes, change.target db = some target :=
  List.mem_filterMap

theorem taken_iff : db.taken target = true ↔ ∃ id item, db.items.get id = some item ∧
    id ≠ target.entityId ∧ item.live = true ∧ item.parentId = target.parentId ∧
    item.name = target.name := by
  unfold Database.taken
  rw [List.any_eq_true]
  constructor
  · rintro ⟨⟨id, item⟩, hmem, h⟩
    simp only [ne_eq, Bool.and_eq_true, decide_eq_true_eq] at h
    exact ⟨id, item, (OrderedMap.get_eq_some_iff _ _ _).2 hmem, h.1.1.1, h.1.1.2, h.1.2, h.2⟩
  · rintro ⟨id, item, hget, hne, hlive, hparent, hname⟩
    refine ⟨(id, item), (OrderedMap.get_eq_some_iff _ _ _).1 hget, ?_⟩
    simp only [ne_eq, Bool.and_eq_true, decide_eq_true_eq]
    exact ⟨⟨⟨hne, hlive⟩, hparent⟩, hname⟩

theorem deletes_iff : plan.deletes id = true ↔ id ∈ deletedIds plan.changes := by
  rw [mem_deletedIds_iff]
  unfold Plan.deletes
  rw [List.any_eq_true]
  constructor
  · rintro ⟨change, hmem, h⟩
    cases change with
    | create | update => cases h
    | delete id' revision => exact ⟨revision, of_decide_eq_true h ▸ hmem⟩
  · rintro ⟨revision, hmem⟩
    exact ⟨_, hmem, decide_eq_true rfl⟩

theorem mem_newIds : id ∈ plan.newIds ↔ ∃ item, .create id item ∈ plan.changes := by
  unfold Plan.newIds
  rw [List.mem_filterMap]
  constructor
  · rintro ⟨change, hmem, hid⟩
    cases change with
    | update | delete => cases hid
    | create id' item =>
      cases hid
      exact ⟨item, hmem⟩
  · rintro ⟨item, hmem⟩
    exact ⟨_, hmem, rfl⟩

theorem target_update {preRevision : Nat} {data : ItemData} (hchanging : data.isNamespaceChanging = true)
    (hget : db.items.get id = some item) :
    (Change.update id preRevision data).target db =
      if (data.write item).live then some ⟨id, (data.write item).parentId, (data.write item).name⟩
      else none := by
  show (if data.isNamespaceChanging then (db.items.get id).bind _ else none) = _
  rw [if_pos hchanging, hget]
  rfl

/-- A live row after a plan has a place that the plan checked, or the one it had. -/
theorem placed {after : Item} (hrow : plan.rowAfter db id = some after) (hlive : after.live = true) :
    ⟨id, after.parentId, after.name⟩ ∈ plan.targets db ∨
      ∃ item, db.items.get id = some item ∧ item.live = true ∧ item.parentId = after.parentId ∧
        item.name = after.name := by
  unfold Plan.rowAfter at hrow
  cases hfind : plan.changes.find? fun change => change.id = id with
  | none =>
    rw [hfind] at hrow
    exact .inr ⟨after, hrow, hlive, rfl, rfl⟩
  | some change =>
    rw [hfind] at hrow
    have hmem := List.mem_of_find?_eq_some hfind
    have hid : change.id = id := by simpa using List.find?_some hfind
    cases change with
    | create id' item =>
      cases hrow
      exact .inl (mem_targets.2 ⟨_, hmem, by rw [← hid]; rfl⟩)
    | delete id' preRevision => cases hrow
    | update id' preRevision data =>
      obtain ⟨item, hget, rfl⟩ := Option.map_eq_some_iff.1 hrow
      by_cases hchanging : data.isNamespaceChanging = true
      · refine .inl (mem_targets.2 ⟨_, hmem, ?_⟩)
        rw [show id' = id from hid]
        rw [target_update hchanging hget]
        exact if_pos hlive
      · obtain ⟨hdeleted, hname, hparent⟩ : data.deletedAt ≠ some none ∧ data.name = none ∧
            data.parentId = none := by
          simpa [ItemData.isNamespaceChanging, and_assoc] using hchanging
        refine .inr ⟨item, hget, ?_, by simp [ItemData.write, hparent], by simp [ItemData.write, hname]⟩
        unfold Item.live ItemData.write at hlive
        unfold Item.live
        cases hdata : data.deletedAt with
        | none => simpa [hdata] using hlive
        | some deletedAt =>
          cases deletedAt with
          | none => exact absurd hdata hdeleted
          | some now => simp [hdata] at hlive

/-! ## An answer that is still true -/

/-- What the preparation of a mutation found out and what it covers. -/
structure Fresh (m : Mutation) (db : Database) (ids : List String) : Prop where
  matched : ∀ change ∈ m.plan.changes, change.Matches db
  made : ∀ id ∈ m.plan.newIds, id ∉ ids
  distinct : ((m.plan.targets db).map NamespaceTarget.place).Nodup
  free : ∀ target ∈ m.plan.targets db, db.taken target = false
  named : ∀ target ∈ m.plan.targets db, ∃ path, m.plan.LiveAfter db target.parentId path ∧
    m.covers ⟨.files, path ++ [target.name]⟩ = true
  written : ∀ id folder, m.plan.writes id = true → db.folder id = some folder → folder.live = true →
    ∃ path, db.LiveAt (some id) path ∧ m.covers ⟨.files, path⟩ = true
  emptied : ∀ id item parentId, db.items.get id = some item → item.live = true →
    item.parentId = some parentId → parentId ∈ deletedIds m.plan.changes →
    m.plan.writes id = true ∧ ∀ after, m.plan.rowAfter db id = some after → after.live = false

theorem rowAfter_of_deleted (hnodup : (plan.changes.map Change.id).Nodup)
    (h : id ∈ deletedIds plan.changes) : plan.rowAfter db id = none := by
  obtain ⟨revision, hmem⟩ := mem_deletedIds_iff.1 h
  unfold Plan.rowAfter
  cases hfind : plan.changes.find? fun change => change.id = id with
  | none => exact absurd (decide_eq_true rfl) (List.find?_eq_none.1 hfind _ hmem)
  | some change =>
    have hid : change.id = id := by simpa using List.find?_some hfind
    obtain rfl := List.inj_on_of_nodup_map hnodup (List.mem_of_find?_eq_some hfind) hmem hid
    rfl

/-- No live row has a parent that is deleted. -/
theorem Fresh.parent_kept (h : Fresh m db ids) (hnodup : (m.plan.changes.map Change.id).Nodup)
    {after : Item} {parentId : String} (hrow : m.plan.rowAfter db id = some after)
    (hlive : after.live = true) (hparent : after.parentId = some parentId) :
    parentId ∉ deletedIds m.plan.changes := by
  intro hdeleted
  obtain htarget | ⟨item, hget, hitem, hsame, -⟩ := placed hrow hlive
  · obtain ⟨path, hpath, -⟩ := h.named _ htarget
    replace hpath : m.plan.LiveAfter db after.parentId path := hpath
    rw [hparent] at hpath
    cases hpath with
    | written _ hfolder =>
      rw [rowAfter_of_deleted hnodup hdeleted] at hfolder
      cases hfolder
    | kept hwrites =>
      rw [writes_of_mem_deletedIds hdeleted] at hwrites
      cases hwrites
  · obtain ⟨-, hdead⟩ := h.emptied id item parentId hget hitem (hsame.trans hparent) hdeleted
    rw [hdead after hrow] at hlive
    cases hlive

/-- A live row after the commit of a mutation has its place. -/
theorem Fresh.placed_of_commit (h : Fresh m db ids) (hnodup : (m.plan.changes.map Change.id).Nodup)
    (hcommit : Committed m.plan db db') (hget : db'.items.get id = some item)
    (hlive : item.live = true) :
    ⟨id, item.parentId, item.name⟩ ∈ m.plan.targets db ∨
      ∃ old, db.items.get id = some old ∧ old.live = true ∧ old.parentId = item.parentId ∧
        old.name = item.name := by
  obtain ⟨after, hrow, hslot⟩ := hcommit.slot id item hget
  rw [hslot.live] at hlive
  have hparent : item.parentId = after.parentId := by
    obtain hsame | ⟨-, parentId, hdeleted, hparent⟩ := hslot.parent
    · exact hsame
    · exact absurd hdeleted (h.parent_kept hnodup hrow hlive hparent)
  rw [hparent, hslot.name]
  exact placed hrow hlive

/-- A commit keeps the names unique. -/
theorem Fresh.uniqueNames (h : Fresh m db ids) (hnodup : (m.plan.changes.map Change.id).Nodup)
    (hcommit : Committed m.plan db db') (hunique : db.UniqueNames) : db'.UniqueNames := by
  intro id id' item item' hget hget' hlive hlive' hparent hname
  have hfree : ∀ {id id' : String} {item item' old : Item},
      ⟨id, item.parentId, item.name⟩ ∈ m.plan.targets db → db.items.get id' = some old →
      old.live = true → old.parentId = item'.parentId → old.name = item'.name →
      item.parentId = item'.parentId → item.name = item'.name → id = id' := by
    intro id id' item item' old htarget hold hlive hparent hname hsame hsame'
    by_contra hne
    have htaken : db.taken ⟨id, item.parentId, item.name⟩ = true := taken_iff.2
      ⟨id', old, hold, Ne.symm hne, hlive, hparent.trans hsame.symm, hname.trans hsame'.symm⟩
    rw [h.free _ htarget] at htaken
    cases htaken
  obtain htarget | ⟨old, hold, holdLive, holdParent, holdName⟩ :=
    h.placed_of_commit hnodup hcommit hget hlive
  · obtain htarget' | ⟨old', hold', hlive', hparent', hname'⟩ :=
      h.placed_of_commit hnodup hcommit hget' hlive'
    · have hplace := List.inj_on_of_nodup_map h.distinct htarget htarget'
        (by simp only [NamespaceTarget.place, hparent, hname])
      exact congrArg NamespaceTarget.entityId hplace
    · exact hfree htarget hold' hlive' hparent' hname' hparent hname
  · obtain htarget' | ⟨old', hold', hlive', hparent', hname'⟩ :=
      h.placed_of_commit hnodup hcommit hget' hlive'
    · exact (hfree htarget' hold holdLive holdParent holdName hparent.symm hname.symm).symm
    · exact hunique id id' old old' hold hold' holdLive hlive'
        (holdParent.trans (hparent.trans hparent'.symm)) (holdName.trans (hname.trans hname'.symm))

/-! ## Another mutation that commits first -/

/-- What a commit does to the revision of a row that was there. -/
theorem Committed.revision (h : Committed plan db db') (hmade : id ∉ plan.newIds)
    (hget : db'.items.get id = some item) :
    ∃ old, db.items.get id = some old ∧ old.storageRevision ≤ item.storageRevision ∧
      (plan.writes id = true → old.storageRevision < item.storageRevision) := by
  obtain ⟨after, hrow, hslot⟩ := h.slot id item hget
  rw [hslot.revision]
  by_cases hwrites : plan.writes id = true
  · unfold Plan.rowAfter at hrow
    cases hfind : plan.changes.find? fun change => change.id = id with
    | none =>
      obtain ⟨change, hmem, hid⟩ := writes_iff.1 hwrites
      exact absurd (decide_eq_true hid) (List.find?_eq_none.1 hfind change hmem)
    | some change =>
      rw [hfind] at hrow
      have hid : change.id = id := by simpa using List.find?_some hfind
      cases change with
      | create id' new => exact absurd (mem_newIds.2 ⟨new, hid ▸ List.mem_of_find?_eq_some hfind⟩) hmade
      | delete id' preRevision => cases hrow
      | update id' preRevision data =>
        obtain ⟨old, hold, rfl⟩ := Option.map_eq_some_iff.1 hrow
        exact ⟨old, hold, Nat.le_succ _, fun _ => Nat.lt_succ_self _⟩
  · rw [rowAfter_of_not_writes (Bool.eq_false_iff.2 hwrites)] at hrow
    exact ⟨after, hrow, Nat.le_refl _, fun h => absurd h hwrites⟩

/-- The row that a change was planned from is no longer there. -/
def Change.Outrun (change : Change) (db : Database) (ids : List String) : Prop :=
  match change with
  | .create id _ => id ∈ ids
  | .update id preRevision _ | .delete id preRevision =>
    id ∈ ids ∧ ∀ item, db.items.get id = some item → preRevision < item.storageRevision

def Outrun (plan : Plan) (db : Database) (ids : List String) : Prop :=
  ∃ change ∈ plan.changes, change.Outrun db ids

variable {p q : Mutation}

theorem outrun_of_written (hp : Fresh p db ids) (hq : Fresh q db ids)
    (hknown : ∀ id item, db.items.get id = some item → id ∈ ids) (hcommit : Committed p.plan db db')
    (hwrites : p.plan.writes id = true) (hwrites' : q.plan.writes id = true) :
    Outrun q.plan db' (p.plan.newIds ++ ids) := by
  have hrow : ∀ revision, db.HasRevision id revision → id ∈ p.plan.newIds ++ ids ∧
      ∀ item, db'.items.get id = some item → revision < item.storageRevision := by
    rintro revision ⟨old, hget, rfl⟩
    have hmem := hknown id old hget
    refine ⟨List.mem_append_right _ hmem, fun item hget' => ?_⟩
    obtain ⟨old', hget'', -, hlt⟩ := hcommit.revision (fun h => hp.made id h hmem) hget'
    rw [hget] at hget''
    cases hget''
    exact hlt hwrites
  obtain ⟨change, hchange, rfl⟩ := writes_iff.1 hwrites'
  refine ⟨change, hchange, ?_⟩
  have hmatch := hq.matched change hchange
  cases change with
  | update id preRevision data => exact hrow preRevision hmatch
  | delete id preRevision => exact hrow preRevision hmatch
  | create id item =>
    obtain ⟨other, hother, hid⟩ := writes_iff.1 hwrites
    have hmatch' := hp.matched other hother
    have hnone : ∀ revision, ¬db.HasRevision id revision := by
      rintro revision ⟨old, hget, -⟩
      rw [show db.items.get id = none from hmatch] at hget
      cases hget
    obtain ⟨id', new⟩ | ⟨id', revision, data⟩ | ⟨id', revision⟩ := other
    · exact List.mem_append_left _ (mem_newIds.2 ⟨new, (show id' = id from hid) ▸ hother⟩)
    · exact absurd ((show id' = id from hid) ▸ hmatch') (hnone revision)
    · exact absurd ((show id' = id from hid) ▸ hmatch') (hnone revision)

theorem Outrun.keep (h : Outrun plan db ids) (hmade : ∀ id ∈ p.plan.newIds, id ∉ ids)
    (hcommit : Committed p.plan db db') : Outrun plan db' (p.plan.newIds ++ ids) := by
  obtain ⟨change, hchange, hout⟩ := h
  refine ⟨change, hchange, ?_⟩
  have hrow : ∀ id revision, (id ∈ ids ∧
      ∀ item, db.items.get id = some item → revision < item.storageRevision) →
      id ∈ p.plan.newIds ++ ids ∧ ∀ item, db'.items.get id = some item →
        revision < item.storageRevision := by
    rintro id revision ⟨hmem, hlt⟩
    refine ⟨List.mem_append_right _ hmem, fun item hget => ?_⟩
    obtain ⟨old, hold, hle, -⟩ := hcommit.revision (fun h => hmade id h hmem) hget
    exact Nat.lt_of_lt_of_le (hlt old hold) hle
  cases change with
  | create id item => exact List.mem_append_right _ hout
  | update id preRevision data => exact hrow id preRevision hout
  | delete id preRevision => exact hrow id preRevision hout

/-- A mutation that was outrun does not commit. -/
theorem Outrun.not_committed (h : Outrun plan db ids) (hmade : ∀ id ∈ plan.newIds, id ∉ ids) :
    ¬Committed plan db db' := by
  intro hcommit
  obtain ⟨change, hchange, hout⟩ := h
  have hmatch := hcommit.matched change hchange
  have hrow : ∀ id revision, db.HasRevision id revision →
      ¬(id ∈ ids ∧ ∀ item, db.items.get id = some item → revision < item.storageRevision) := by
    rintro id revision ⟨item, hget, rfl⟩ ⟨-, hlt⟩
    exact Nat.lt_irrefl _ (hlt item hget)
  cases change with
  | create id item => exact hmade id (mem_newIds.2 ⟨item, hchange⟩) hout
  | update id preRevision data => exact hrow id preRevision hmatch hout
  | delete id preRevision => exact hrow id preRevision hmatch hout

/-! ## One that shares no row with it -/

section Beside

variable {name : String}
variable (hp : Fresh p db ids) (hq : Fresh q db ids) (hapart : Apart p q)
variable (hbeside : ∀ id, q.plan.writes id = true → p.plan.writes id = false)

theorem Database.LiveAt.live {path : List String} (h : db.LiveAt (some id) path) :
    ∃ folder, db.folder id = some folder ∧ folder.live = true := by
  cases h with
  | filesRoot hget hlive => exact ⟨_, hget, hlive⟩
  | inside hget hlive => exact ⟨_, hget, hlive⟩

include hp hapart in
/-- No folder on a path that is covered is written by the other one. -/
theorem path_kept (hcovers : q.covers ⟨.files, b⟩ = true) {above : List String}
    (habove : db.LiveAt (some id) above) (hbegins : above <+: b) : p.plan.writes id = false := by
  refine Bool.eq_false_iff.2 fun hwrites => ?_
  obtain ⟨folder, hfolder, hlive⟩ := habove.live
  obtain ⟨path, hpath, hcovered⟩ := hp.written id folder hwrites hfolder hlive
  rw [hpath.unique habove] at hcovered
  exact hapart.not_below hcovered hcovers hbegins

include hp hq hapart hbeside in
/-- They take no name in the same folder. -/
theorem names_differ (ha : p.plan.LiveAfter db parent a) (hb : q.plan.LiveAfter db parent b)
    (hcovers : p.covers ⟨.files, a ++ [name]⟩ = true) : q.covers ⟨.files, b ++ [name]⟩ = false := by
  refine Bool.eq_false_iff.2 fun hcovers' => ?_
  cases ha with
  | top =>
    cases hb
    exact hapart.not_below hcovers hcovers' (List.prefix_refl _)
  | written hwrites hrow hlive hparent =>
    cases hb with
    | written hwrites' =>
      rw [hbeside _ hwrites'] at hwrites
      cases hwrites
    | kept _ hpath =>
      rw [path_kept hp hapart hcovers' hpath (List.prefix_append _ _)] at hwrites
      cases hwrites
  | kept hwrites hpath =>
    cases hb with
    | written hwrites' =>
      rw [path_kept hq hapart.symm hcovers hpath (List.prefix_append _ _)] at hwrites'
      cases hwrites'
    | kept _ hpath' =>
      rw [hpath.unique hpath'] at hcovers
      exact hapart.not_below hcovers hcovers' (List.prefix_refl _)

variable (hcommit : Committed p.plan db db')

include hp hq hapart hbeside hcommit

/-- A target stays where it was. -/
theorem target_of_commit (hchange : change ∈ q.plan.changes) :
    change.target db' = change.target db := by
  cases change with
  | create id item => rfl
  | delete id preRevision => rfl
  | update id preRevision data =>
    by_cases hchanging : data.isNamespaceChanging = true
    · obtain ⟨old, hold, -⟩ := hq.matched _ hchange
      have hwrites := hbeside id (writes_iff.2 ⟨_, hchange, rfl⟩)
      obtain ⟨new, hnew, hslot⟩ := hcommit.other hwrites hold
      have hwritten := hslot.write data
      rw [target_update hchanging hnew, target_update hchanging hold, hwritten.live, hwritten.name]
      by_cases hlive : (data.write old).live = true
      · rw [if_pos hlive, if_pos hlive]
        obtain hsame | ⟨-, parentId, hdeleted, hparent⟩ := hwritten.parent
        · rw [hsame]
        · -- its folder would be on a path that the mutation covers
          have htarget : ⟨id, (data.write old).parentId, (data.write old).name⟩ ∈ q.plan.targets db :=
            mem_targets.2 ⟨_, hchange, (target_update hchanging hold).trans (if_pos hlive)⟩
          obtain ⟨path, hpath, hcovers⟩ := hq.named _ htarget
          replace hpath : q.plan.LiveAfter db (data.write old).parentId path := hpath
          rw [hparent] at hpath
          have hkept := Committed.notWritten hbeside
            (fun id above habove hbegins => path_kept hp hapart hcovers habove
              (hbegins.trans (List.prefix_append _ _))) hpath (List.prefix_refl _)
          rw [writes_of_mem_deletedIds hdeleted] at hkept
          cases hkept
      · rw [if_neg hlive, if_neg hlive]
    · show (if data.isNamespaceChanging then _ else _) = if data.isNamespaceChanging then _ else _
      rw [if_neg hchanging, if_neg hchanging]

theorem targets_of_commit : q.plan.targets db' = q.plan.targets db :=
  List.filterMap_congr fun _ hchange => target_of_commit hp hq hapart hbeside hcommit hchange

variable (hnodup : (p.plan.changes.map Change.id).Nodup)

include hnodup

theorem free_of_commit (htarget : target ∈ q.plan.targets db) : db'.taken target = false := by
  refine Bool.eq_false_iff.2 fun htaken => ?_
  obtain ⟨id, item, hget, hne, hlive, hparent, hname⟩ := taken_iff.1 htaken
  obtain hplace | ⟨old, hold, holdLive, holdParent, holdName⟩ :=
    hp.placed_of_commit hnodup hcommit hget hlive
  · obtain ⟨path, hpath, hcovers⟩ := hp.named _ hplace
    obtain ⟨path', hpath', hcovers'⟩ := hq.named _ htarget
    replace hpath : p.plan.LiveAfter db item.parentId path := hpath
    replace hcovers : p.covers ⟨.files, path ++ [item.name]⟩ = true := hcovers
    rw [hparent] at hpath
    rw [hname] at hcovers
    rw [names_differ hp hq hapart hbeside hpath hpath' hcovers] at hcovers'
    cases hcovers'
  · have := taken_iff.2 ⟨id, old, hold, hne, holdLive, holdParent.trans hparent, holdName.trans hname⟩
    rw [hq.free target htarget] at this
    cases this

/-- What is live in a folder that the other one deletes was there before. -/
theorem emptied_of_commit {parentId : String} (hget : db'.items.get id = some item)
    (hlive : item.live = true) (hparent : item.parentId = some parentId)
    (hdeleted : parentId ∈ deletedIds q.plan.changes) :
    q.plan.writes id = true ∧ ∀ after, q.plan.rowAfter db' id = some after → after.live = false := by
  have hwrites' := writes_of_mem_deletedIds hdeleted
  obtain hplace | ⟨old, hold, holdLive, holdParent, -⟩ := hp.placed_of_commit hnodup hcommit hget hlive
  · obtain ⟨path, hpath, hcovers⟩ := hp.named _ hplace
    replace hpath : p.plan.LiveAfter db item.parentId path := hpath
    rw [hparent] at hpath
    cases hpath with
    | written hwrites =>
      rw [hbeside parentId hwrites'] at hwrites
      cases hwrites
    | kept _ hpath =>
      rw [path_kept hq hapart.symm hcovers hpath (List.prefix_append _ _)] at hwrites'
      cases hwrites'
  · obtain ⟨hwrites, hdead⟩ := hq.emptied id old parentId hold holdLive (holdParent.trans hparent) hdeleted
    refine ⟨hwrites, fun after hrow => ?_⟩
    obtain ⟨before, hbefore, hslot⟩ := hcommit.rowAfter' (hbeside id hwrites) hrow
    rw [hslot.live]
    exact hdead before hbefore

theorem Fresh.keep : Fresh q db' (p.plan.newIds ++ ids) := by
  have htargets := targets_of_commit hp hq hapart hbeside hcommit
  constructor
  · intro change hchange
    have hmatch := hq.matched change hchange
    have hwrites := hbeside change.id (writes_iff.2 ⟨change, hchange, rfl⟩)
    have hrow : ∀ revision, db.HasRevision change.id revision → db'.HasRevision change.id revision := by
      rintro revision ⟨old, hold, rfl⟩
      obtain ⟨new, hnew, hslot⟩ := hcommit.other hwrites hold
      exact ⟨new, hnew, hslot.revision⟩
    cases change with
    | update id preRevision data => exact hrow preRevision hmatch
    | delete id preRevision => exact hrow preRevision hmatch
    | create id item =>
      show db'.items.get id = none
      refine Option.eq_none_iff_forall_ne_some.2 fun new hnew => ?_
      obtain ⟨old, hold, -⟩ := hcommit.other' hwrites hnew
      cases hold.symm.trans (show db.items.get id = none from hmatch)
  · intro id hmade hmem
    obtain ⟨item, hchange⟩ := mem_newIds.1 hmade
    obtain hmem | hmem := List.mem_append.1 hmem
    · obtain ⟨item', hchange'⟩ := mem_newIds.1 hmem
      have hwrites : p.plan.writes id = true := writes_iff.2 ⟨_, hchange', rfl⟩
      rw [hbeside id (writes_iff.2 ⟨_, hchange, rfl⟩)] at hwrites
      cases hwrites
    · exact hq.made id hmade hmem
  · rw [htargets]
    exact hq.distinct
  · intro target htarget
    rw [htargets] at htarget
    exact free_of_commit hp hq hapart hbeside hcommit hnodup htarget
  · intro target htarget
    rw [htargets] at htarget
    obtain ⟨path, hpath, hcovers⟩ := hq.named target htarget
    refine ⟨path, hcommit.liveAfter hbeside hpath fun id above habove hbegins => ?_, hcovers⟩
    exact path_kept hp hapart hcovers habove (hbegins.trans (List.prefix_append _ _))
  · intro id folder hwrites hfolder hlive
    obtain ⟨old, hold, hslot⟩ := hcommit.folder' (hbeside id hwrites) hfolder
    obtain ⟨path, hpath, hcovers⟩ := hq.written id old hwrites hold (hslot.live.symm.trans hlive)
    exact ⟨path, hcommit.liveAt hpath fun id above habove hbegins =>
      path_kept hp hapart hcovers habove hbegins, hcovers⟩
  · intro id item parentId hget hlive hparent hdeleted
    exact emptied_of_commit hp hq hapart hbeside hcommit hnodup hget hlive hparent hdeleted

end Beside

/-! ## Every step -/

/-- What holds of a mutation that may still commit. -/
structure Pending (m : Mutation) (db : Database) (ids : List String) : Prop where
  nodup : (m.plan.changes.map Change.id).Nodup
  held : m.parentId = none → m.released = false
  answer : Outrun m.plan db ids ∨ Fresh m db ids

/-- It commits once. -/
structure Mutation.Sound (m : Mutation) : Prop where
  committed : m.status = .metadataCommitted → m.committed = true
  running : m.status ∈ [Status.prepared, .running, .retrying] → m.committed = false

structure World.Inv (s : World) : Prop where
  unique : s.db.UniqueNames
  known : ∀ id item, s.db.items.get id = some item → id ∈ s.ids
  sound : ∀ id m, s.mutations.get id = some m → m.Sound
  pending : ∀ id m, s.mutations.get id = some m → m.isOpen = true → Pending m s.db s.ids
  apart : ∀ id m id' m', s.mutations.get id = some m → s.mutations.get id' = some m' → id ≠ id' →
    m.isOpen = true → m'.isOpen = true → Apart m m'

theorem isOpen_iff : m.isOpen = true ↔ m.committed = false ∧ m.status ≠ .aborted := by
  unfold Mutation.isOpen
  rw [Bool.and_eq_true, Bool.not_eq_true', decide_eq_true_eq]

theorem status_of_after {deed : Deed} (h : m.after deed = some m') : m.status ≠ .aborted := by
  intro haborted
  unfold Mutation.after at h
  rw [haborted] at h
  cases deed <;> cases h

/-- A deed keeps the plan; a closed mutation stays closed, and an open one is not released. -/
theorem after_spec {deed : Deed} (h : m.after deed = some m') (hsound : m.Sound) :
    m'.plan = m.plan ∧ m'.parentId = m.parentId ∧ m'.Sound ∧
      (m'.isOpen = true → m.isOpen = true ∧ m'.released = m.released ∧ deed ≠ .commit) ∧
      (deed = .commit → m.isOpen = true) := by
  have hcommitted := hsound.committed
  have hrunning := hsound.running
  have haborted := status_of_after h
  cases deed <;> obtain ⟨hstatus, h⟩ := Option.ite_none_right_eq_some.1 h <;> cases h <;>
    refine ⟨rfl, rfl, ⟨?_, ?_⟩, ?_, ?_⟩ <;> simp_all [isOpen_iff]

theorem matched_of_valid (h : s.entityValid change.entity = true) :
    change.Matches s.db ∧ ∀ id item, change = .create id item → id ∉ s.ids := by
  cases change with
  | create id item =>
    obtain ⟨hrow, hmem⟩ := Bool.and_eq_true_iff.1 h
    rw [Bool.not_eq_true'] at hrow hmem
    refine ⟨(OrderedMap.has_eq_false_iff _ _).1 hrow, ?_⟩
    rintro _ _ ⟨⟩ hid
    cases hmem.symm.trans (List.contains_iff_mem.2 hid)
  | update id preRevision data =>
    obtain ⟨item, hget, hrevision⟩ := (Option.any_eq_true _ _).1 h
    exact ⟨⟨item, hget, of_decide_eq_true hrevision⟩, nofun⟩
  | delete id preRevision =>
    obtain ⟨item, hget, hrevision⟩ := (Option.any_eq_true _ _).1 h
    exact ⟨⟨item, hget, of_decide_eq_true hrevision⟩, nofun⟩

/-- What is prepared is fresh, when it is not outdated. -/
theorem fresh_of_admits (hvalid : m.plan.entities.all s.entityValid = true)
    (hfree : s.db.targetsFree m.plan = true) (hup : m.upToDate s.db = true) :
    Fresh m s.db s.ids := by
  have hmatched : ∀ change ∈ m.plan.changes, _ := fun change hchange => matched_of_valid
    (List.all_eq_true.1 hvalid _ (List.mem_append_left _ (List.mem_map_of_mem hchange)))
  obtain ⟨hdistinct, hfree⟩ := Bool.and_eq_true_iff.1 hfree
  unfold Mutation.upToDate at hup
  rw [Bool.and_eq_true, Bool.and_eq_true, List.all_eq_true, List.all_eq_true, List.all_eq_true] at hup
  obtain ⟨⟨hnamed, hwritten⟩, hemptied⟩ := hup
  constructor
  · exact fun change hchange => (hmatched change hchange).1
  · intro id hmade
    obtain ⟨item, hchange⟩ := mem_newIds.1 hmade
    exact (hmatched _ hchange).2 id item rfl
  · exact of_decide_eq_true hdistinct
  · intro target htarget
    exact (Bool.not_eq_true' _).mp (List.all_eq_true.1 hfree target htarget)
  · intro target htarget
    obtain ⟨path, hpath, hcovers⟩ := (Option.any_eq_true _ _).1 (hnamed target htarget)
    exact ⟨path, liveAfter_of_livePath hpath, hcovers⟩
  · intro id folder hwrites hfolder hlive
    obtain ⟨change, hchange, rfl⟩ := writes_iff.1 hwrites
    have := hwritten change hchange
    rw [hfolder, Option.any_some, hlive, Bool.not_true, Bool.false_or] at this
    obtain ⟨path, hpath, hcovers⟩ := (Option.any_eq_true _ _).1 this
    exact ⟨path, liveAt_of_livePath hpath, hcovers⟩
  · intro id item parentId hget hlive hparent hdeleted
    have : (!(item.live && item.parentId.any m.plan.deletes) ||
        m.plan.writes id && !(m.plan.rowAfter s.db id).any (·.live)) = true :=
      hemptied (id, item) ((OrderedMap.get_eq_some_iff _ _ _).1 hget)
    rw [hlive, hparent, Option.any_some, deletes_iff.2 hdeleted, Bool.and_self, Bool.not_true,
      Bool.false_or, Bool.and_eq_true] at this
    refine ⟨this.1, fun after hrow => ?_⟩
    have hdead := this.2
    rw [hrow, Option.any_some, Bool.not_eq_true'] at hdead
    exact hdead

/-- Where a mutation works, nothing else that is open does. -/
theorem apart_of_acquires (h : s.acquires m.plan m.parentId = true) (hunshared : s.unshared m = true)
    (hget : s.mutations.get id = some m') (hopen : m'.isOpen = true) (hpending : Pending m' s.db s.ids) :
    Apart m m' := by
  have hmem := (OrderedMap.get_eq_some_iff _ _ _).1 hget
  have hbeside : (!m'.isOpen || m.parentId = none && m'.parentId = none || m.apart m') = true :=
    List.all_eq_true.1 hunshared _ hmem
  rw [hopen, Bool.not_true, Bool.false_or, Bool.or_eq_true, Bool.and_eq_true, decide_eq_true_eq,
    decide_eq_true_eq] at hbeside
  obtain ⟨hown, hown'⟩ | hapart := hbeside
  · -- both hold their keys
    unfold World.acquires at h
    rw [hown, Option.isSome_none, Bool.false_or] at h
    have : (m'.released || m'.parentId.isSome || !(m'.plan.resourceKeys = [] ||
        m.plan.resourceKeys = [] || m.plan.resourceKeys.any fun key =>
          m'.plan.resourceKeys.any key.overlaps)) = true :=
      List.all_eq_true.1 (Bool.and_eq_true_iff.1 h).2 _ hmem
    rw [hpending.held hown', hown', Option.isSome_none, Bool.or_false, Bool.false_or, Bool.not_eq_true',
      Bool.or_eq_false_iff, Bool.or_eq_false_iff, decide_eq_false_iff_not, decide_eq_false_iff_not] at this
    obtain ⟨⟨hkeys', hkeys⟩, hdisjoint⟩ := this
    rw [stepKeys_of_resourceKeys hkeys, stepKeys_of_resourceKeys hkeys'] at hdisjoint
    refine apart_of_eq_true ?_
    unfold Mutation.apart Mutation.holdsAccount
    rw [decide_eq_false hkeys, decide_eq_false hkeys', hdisjoint, Bool.and_false, Bool.and_false]
    rfl
  · exact apart_of_eq_true hapart

theorem Fresh.of_eq (h : Fresh m db ids) (hplan : m'.plan = m.plan) (hparent : m'.parentId = m.parentId) :
    Fresh m' db ids := by
  obtain ⟨plan, parentId, _, _, _⟩ := m
  obtain ⟨plan', parentId', _, _, _⟩ := m'
  cases hplan
  cases hparent
  exact ⟨h.matched, h.made, h.distinct, h.free, h.named, h.written, h.emptied⟩

theorem Apart.of_eq (h : Apart m p) (hplan : m'.plan = m.plan) (hparent : m'.parentId = m.parentId) :
    Apart m' p := by
  refine ⟨?_, h.account', ?_⟩
  · unfold Mutation.holdsAccount
    rw [hplan, hparent]
    exact h.account
  · rw [hplan]
    exact h.disjoint

/-- A new row of one mutation. -/
theorem World.Inv.set (h : s.Inv) (hunique : db.UniqueNames)
    (hknown : ∀ id item, db.items.get id = some item → id ∈ ids) (hsound : m.Sound)
    (hothers : ∀ id' q, s.mutations.get id' = some q → id' ≠ id → q.isOpen = true →
      Pending q db ids)
    (hself : m.isOpen = true → Pending m db ids ∧
      ∀ id' q, s.mutations.get id' = some q → id' ≠ id → q.isOpen = true → Apart m q) :
    World.Inv { s with db, ids, mutations := s.mutations.set id m } := by
  constructor
  · exact hunique
  · exact hknown
  · intro id' q hget
    obtain ⟨rfl, rfl⟩ | ⟨-, hget⟩ := OrderedMap.get_set_eq_some.1 hget
    · exact hsound
    · exact h.sound id' q hget
  · intro id' q hget hopen
    obtain ⟨rfl, rfl⟩ | ⟨hne, hget⟩ := OrderedMap.get_set_eq_some.1 hget
    · exact (hself hopen).1
    · exact hothers id' q hget hne hopen
  · intro id₁ q₁ id₂ q₂ hnew₁ hnew₂ hne hopen₁ hopen₂
    obtain ⟨rfl, rfl⟩ | ⟨hne₁, hget₁⟩ := OrderedMap.get_set_eq_some.1 hnew₁
    · obtain ⟨rfl, rfl⟩ | ⟨hne₂, hget₂⟩ := OrderedMap.get_set_eq_some.1 hnew₂
      · exact absurd rfl hne
      · exact (hself hopen₁).2 id₂ q₂ hget₂ hne₂ hopen₂
    · obtain ⟨rfl, rfl⟩ | ⟨hne₂, hget₂⟩ := OrderedMap.get_set_eq_some.1 hnew₂
      · exact ((hself hopen₂).2 id₁ q₁ hget₁ hne₁ hopen₁).symm
      · exact h.apart id₁ q₁ id₂ q₂ hget₁ hget₂ hne hopen₁ hopen₂

/-- The others, when one commits. -/
theorem Pending.commit (hp : Pending p db ids) (hq : Pending q db ids) (hapart : Apart p q) (hfresh : Fresh p db ids)
    (hknown : ∀ id item, db.items.get id = some item → id ∈ ids) (hcommit : Committed p.plan db db') :
    Pending q db' (p.plan.newIds ++ ids) := by
  refine ⟨hq.nodup, hq.held, ?_⟩
  obtain hout | hfresh' := hq.answer
  · exact .inl (hout.keep hfresh.made hcommit)
  · by_cases hshared : ∃ id, q.plan.writes id = true ∧ p.plan.writes id = true
    · obtain ⟨id, hwrites', hwrites⟩ := hshared
      exact .inl (outrun_of_written hfresh hfresh' hknown hcommit hwrites hwrites')
    · have hbeside : ∀ id, q.plan.writes id = true → p.plan.writes id = false := fun id hwrites =>
        Bool.eq_false_iff.2 fun hwrites' => hshared ⟨id, hwrites, hwrites'⟩
      exact .inr (hfresh.keep hfresh' hapart hbeside hcommit hp.nodup)

theorem Committed.known (h : Committed plan db db')
    (hknown : ∀ id item, db.items.get id = some item → id ∈ ids) (id : String) (item : Item)
    (hget : db'.items.get id = some item) : id ∈ plan.newIds ++ ids := by
  by_cases hmade : id ∈ plan.newIds
  · exact List.mem_append_left _ hmade
  · obtain ⟨old, hold, -⟩ := h.revision hmade hget
    exact List.mem_append_right _ (hknown id old hold)

theorem World.Inv.deed (h : s.Inv) {deed : Deed} (hact : s.act (.deed id deed) = some s') : s'.Inv := by
  obtain ⟨m, hget, hact⟩ := Option.bind_eq_some_iff.1 hact
  obtain ⟨m', hafter, hact⟩ := Option.bind_eq_some_iff.1 hact
  obtain ⟨⟨db, ids⟩, hrows, rfl⟩ := Option.map_eq_some_iff.1 hact
  obtain ⟨hplan, hparent, hsound, hopen', hopen⟩ := after_spec hafter (h.sound id m hget)
  by_cases hdeed : deed = .commit
  · have hm := h.pending id m hget (hopen hdeed)
    subst hdeed
    obtain ⟨hmade, hrows⟩ := Option.ite_none_left_eq_some.1 hrows
    obtain ⟨db', hcommit, hrows⟩ := Option.map_eq_some_iff.1 hrows
    cases hrows
    have hcommitted := committed_of_commit hm.nodup hcommit
    have hmade : ∀ id ∈ m.plan.newIds, id ∉ s.ids := fun id hnew hmem =>
      hmade (List.any_eq_true.2 ⟨id, hnew, List.contains_iff_mem.2 hmem⟩)
    obtain hout | hfresh := hm.answer
    · exact absurd hcommitted (hout.not_committed hmade)
    · refine h.set (hfresh.uniqueNames hm.nodup hcommitted h.unique) (hcommitted.known h.known) hsound ?_
        fun hself => absurd rfl (hopen' hself).2.2
      intro id' q hq hne hqopen
      exact hm.commit (h.pending id' q hq hqopen)
        (h.apart id m id' q hget hq hne.symm (hopen rfl) hqopen) hfresh h.known hcommitted
  · have hsame : db = s.db ∧ ids = s.ids := by
      cases deed <;> first | exact absurd rfl hdeed | (cases hrows; exact ⟨rfl, rfl⟩)
    obtain ⟨rfl, rfl⟩ := hsame
    refine h.set h.unique h.known hsound (fun id' q hq _ hqopen => ?_) fun hself => ?_
    · exact h.pending id' q hq hqopen
    · obtain ⟨hmopen, hreleased, -⟩ := hopen' hself
      obtain ⟨hnodup, hheld, hanswer⟩ := h.pending id m hget hmopen
      refine ⟨⟨hplan ▸ hnodup, fun hown => hreleased.trans (hheld (hparent.symm.trans hown)), ?_⟩,
        fun id' q hq hne hqopen => (h.apart id m id' q hget hq hne.symm hmopen hqopen).of_eq hplan hparent⟩
      exact hanswer.imp (hplan ▸ ·) (·.of_eq hplan hparent)

theorem World.Inv.prepare (h : s.Inv) {planned : Nat}
    (hup : PreparesUpToDate s (.prepare planned id parent))
    (hact : s.act (.prepare planned id parent) = some s') : s'.Inv := by
  obtain ⟨plan, hplan, hact⟩ := Option.bind_eq_some_iff.1 hact
  obtain ⟨hadmits, hact⟩ := Option.ite_none_right_eq_some.1 hact
  cases hact
  obtain ⟨-, hadmits⟩ := Bool.and_eq_true_iff.1 hadmits
  unfold World.admits at hadmits
  simp only [Bool.and_eq_true, decide_eq_true_eq] at hadmits
  obtain ⟨⟨⟨⟨⟨hnodup, hacquires⟩, -⟩, hvalid⟩, hfree⟩, -⟩ := hadmits
  refine h.set h.unique h.known ⟨nofun, fun _ => rfl⟩ (fun id' q hq _ hqopen => ?_) fun _ => ⟨⟨?_, ?_, ?_⟩, ?_⟩
  · exact h.pending id' q hq hqopen
  · unfold Plan.entities at hnodup
    rw [List.map_append, List.map_map] at hnodup
    have hids : plan.changes.map (Prod.fst ∘ Change.entity) = plan.changes.map Change.id :=
      List.map_congr_left fun change _ => by cases change <;> rfl
    exact hids ▸ hnodup.of_append_left
  · exact fun _ => rfl
  · exact .inr (fresh_of_admits hvalid hfree (hup plan hplan).1)
  · intro id' q hq hne hqopen
    exact apart_of_acquires hacquires (hup plan hplan).2 hq hqopen (h.pending id' q hq hqopen)

theorem World.Inv.step (h : s.Inv) {e : Event} (hup : PreparesUpToDate s e) : (s.step e).Inv := by
  unfold World.step
  cases hact : s.act e with
  | none => exact h
  | some s' =>
    show s'.Inv
    cases e with
    | deed id deed => exact h.deed hact
    | prepare planned id parentId => exact h.prepare hup hact
    | plan request =>
      simp only [World.act] at hact
      split at hact
      · cases hact
        exact ⟨h.unique, h.known, h.sound, h.pending, h.apart⟩
      · cases hact
    | beginBatch id =>
      obtain ⟨-, hact⟩ := Option.ite_none_right_eq_some.1 hact
      cases hact
      exact ⟨h.unique, h.known, h.sound, h.pending, h.apart⟩
    | endBatch =>
      cases hact
      exact ⟨h.unique, h.known, h.sound, h.pending, h.apart⟩

theorem start_inv (h : db.UniqueNames) : (World.start db).Inv := by
  have hnone : ∀ id m, (World.start db).mutations.get id ≠ some m := fun id m hget =>
    Option.some_ne_none m (hget.symm.trans (OrderedMap.get_empty id))
  refine ⟨h, fun id item hget => (OrderedMap.mem_keys_iff _ _).2 ⟨item, hget⟩, ?_, ?_, ?_⟩
  · exact fun id m hget => absurd hget (hnone id m)
  · exact fun id m hget => absurd hget (hnone id m)
  · exact fun id m _ _ hget => absurd hget (hnone id m)

/-! ## Runs -/

variable {events : List Event}

/-- Sibling names stay unique in every state of a run that prepares nothing outdated. -/
theorem run_uniqueNames (hunique : db.UniqueNames)
    (hok : RunMeets World.step PreparesUpToDate (.start db) events) :
    RunMeets World.step (fun s e => (s.step e).db.UniqueNames) (.start db) events :=
  (hok.invariant (fun _ _ hup hinv => World.Inv.step hinv hup) (start_inv hunique)).mono
    fun _ _ h => (h.2.step h.1).unique

def oneFolder : Database where
  items := OrderedMap.ofList
    [("root", ⟨.folder, none, "Files", none, none, none, none, 0⟩),
      ("x", ⟨.folder, some "root", "X", none, none, none, none, 0⟩)]
  trashEntries := .empty
  filesRoot := "root"

/-- An upload is planned below `X`, which gets the name `Y` before the upload is prepared: it locks
`X/a`. The second one, that is planned afterwards, locks `Y/a`. -/
def outdatedUpload : List Event :=
  [.plan (.uploadFile "u1" "x" "a" "c1" .fail),
    .plan (.renameFolder "x" "Y" none),
    .prepare 1 "m1" none, .deed "m1" .claim, .deed "m1" .commit, .deed "m1" .beginFinalization,
    .prepare 0 "m2" none,
    .plan (.uploadFile "u2" "x" "a" "c2" .fail),
    .prepare 2 "m3" none,
    .deed "m2" .claim, .deed "m2" .commit, .deed "m3" .claim, .deed "m3" .commit]

/-- An item of a batch, that moves `a` into `X`, is prepared before `X` gets the name `Y`. It holds
nothing, so that the rename and the upload to `Y/a` go ahead beside it. -/
def movedBeside : List Event :=
  [.plan (.moveFile "f" (some "x") none),
    .prepare 0 "b1-0" (some "b1"),
    .plan (.renameFolder "x" "Y" none),
    .prepare 1 "m1" none, .deed "m1" .claim, .deed "m1" .commit, .deed "m1" .beginFinalization,
    .plan (.uploadFile "u1" "x" "a" "c1" .fail),
    .prepare 2 "m2" none, .deed "m2" .claim, .deed "m2" .commit,
    .deed "b1-0" .claim, .deed "b1-0" .commit]

def oneFile : Database where
  items := oneFolder.items.set "f"
    ⟨.file, some "root", "a", none, none, some ⟨.files, ["a"]⟩, some "c0", 0⟩
  trashEntries := .empty
  filesRoot := "root"

/-- An upload to `X` commits beside the item. -/
theorem run_uniqueNames_beside :
    RunMeets World.step (fun s e => (s.step e).db.UniqueNames) (.start oneFile)
      [.plan (.moveFile "f" (some "x") none), .plan (.uploadFile "u1" "x" "b" "c1" .fail),
        .prepare 0 "b1-0" (some "b1"), .prepare 1 "m1" none, .deed "m1" .claim, .deed "m1" .commit,
        .deed "b1-0" .claim, .deed "b1-0" .commit] :=
  run_uniqueNames (by decide +kernel) (by decide +kernel)

theorem outdated_upload_takes_name :
    (oneFolder.UniqueNames ∧ ¬RunMeets World.step (fun s e => (s.step e).db.UniqueNames)
      (.start oneFolder) outdatedUpload) ∧
    oneFile.UniqueNames ∧ ¬RunMeets World.step (fun s e => (s.step e).db.UniqueNames)
      (.start oneFile) movedBeside := by
  decide +kernel

end Staaash.Service
