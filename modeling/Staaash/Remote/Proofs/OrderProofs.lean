import Staaash.Remote.Proofs.EntriesProofs

/-!
# Proofs: parents come before their children

Entries stand in the order of the length of their paths. A path is as long as the item lies deep, as
long as the readers get to the top, so an entry about a folder comes before the entries about what is
live below it.
-/

namespace Staaash.Remote

open Relation
open Staaash.Library
open Staaash.Planner

variable {table : Table} {id parentId folderId : String} {row : Row} {n m : Nat}

/-! ## How long a path is -/

theorem depth_intercalate {names : List Rel} (hne : names ≠ [])
    (hnames : ∀ name ∈ names, '/' ∉ name) : depth (['/'].intercalate names) = names.length := by
  rw [depth, List.splitOn_intercalate '/' hnames hne]

theorem depth_name {name : Rel} (hname : '/' ∉ name) : depth name = 1 := by
  have h : depth (['/'].intercalate [name]) = [name].length :=
    depth_intercalate (by simp) (by simpa using hname)
  rwa [List.intercalate_singleton] at h

theorem depth_slash (front back : Rel) : depth (front ++ '/' :: back) = depth front + depth back := by
  rw [depth, List.splitOn_append_cons_self, List.length_append, depth, depth]

theorem folder_of_live (hlive : table.live id = some row) (htype : row.type = .folder) :
    table.folder id = some row := by
  rw [Table.folder, (live_eq_some.1 hlive).1, Option.bind_some, if_pos htype]

theorem endsWithin_up (hup : table.liveUp id = some parentId) (h : endsWithin table n id = true) :
    ∃ k, n = k + 1 ∧ endsWithin table k parentId = true := by
  unfold endsWithin at h
  rw [hup] at h
  cases n with
  | zero => cases h
  | succ k => exact ⟨k, rfl, h⟩

theorem Shallow.endsWithin (h : Shallow table) (id : String) : endsWithin table 1000 id = true := by
  by_cases hmem : id ∈ table.keys
  · exact h id hmem
  · have hget : table.get id = none := by
      by_contra hsome
      obtain ⟨row, hrow⟩ := Option.ne_none_iff_exists'.1 hsome
      exact hmem ((table.mem_keys_iff id).2 ⟨row, hrow⟩)
    have hup : table.liveUp id = none := by simp [Table.liveUp, Table.live, hget]
    unfold Remote.endsWithin
    rw [hup]

section Names

variable (hforest : LiveForest table) (hshallow : Shallow table)

/-- The name that a folder adds to the path. -/
def ownName (row : Row) : List Rel := if row.isFilesRoot then [] else [row.name]

/-- The names above a folder, and its own. -/
theorem folderNames_eq (hlive : table.live id = some row) (htype : row.type = .folder) :
    folderNames table n id =
      (match n, row.parentId with
        | n + 1, some parentId => folderNames table n parentId
        | _, _ => []) ++ ownName row := by
  rw [folderNames, folder_of_live hlive htype]
  rfl

include hforest

/-- Reading further up than the top changes nothing. -/
theorem folderNames_stable (hlive : table.live id = some row) (htype : row.type = .folder)
    (hends : endsWithin table n id = true) (hle : n ≤ m) :
    folderNames table m id = folderNames table n id := by
  induction n generalizing m id row with
  | zero =>
    have hup : row.parentId = none := by
      cases hp : row.parentId with
      | none => rfl
      | some parentId =>
        obtain ⟨k, hk, -⟩ := endsWithin_up (liveUp_eq_some.2 ⟨row, hlive, hp⟩) hends
        cases hk
    rw [folderNames_eq hlive htype, folderNames_eq hlive htype, hup]
    cases m <;> rfl
  | succ n ih =>
    rw [folderNames_eq hlive htype, folderNames_eq hlive htype]
    obtain ⟨j, rfl⟩ : ∃ j, m = j + 1 := ⟨m - 1, by omega⟩
    cases hp : row.parentId with
    | none => rfl
    | some parentId =>
      have hup := liveUp_eq_some.2 ⟨row, hlive, hp⟩
      obtain ⟨k, hk, hparent⟩ := endsWithin_up hup hends
      obtain rfl := Nat.succ.inj hk
      obtain ⟨parent, hplive, hptype⟩ := hforest.inFolder id parentId hup
      show folderNames table j parentId ++ _ = folderNames table n parentId ++ _
      rw [ih hplive hptype hparent (by omega)]

theorem named_folderNames (hlive : table.live id = some row) (htype : row.type = .folder) :
    ∀ name ∈ folderNames table n id, name ≠ [] ∧ '/' ∉ name := by
  induction n generalizing id row with
  | zero =>
    rw [folderNames_eq hlive htype]
    intro name hname
    have hname : name ∈ ownName row := hname
    unfold ownName at hname
    cases hroot : row.isFilesRoot with
    | true => simp [hroot] at hname
    | false =>
      rw [hroot, if_neg (by simp), List.mem_singleton] at hname
      rw [hname]
      exact hforest.named id row hlive hroot
  | succ n ih =>
    rw [folderNames_eq hlive htype]
    intro name hname
    rcases List.mem_append.1 hname with hname | hname
    · cases hp : row.parentId with
      | none => simp [hp] at hname
      | some parentId =>
        rw [hp] at hname
        obtain ⟨parent, hplive, hptype⟩ :=
          hforest.inFolder id parentId (liveUp_eq_some.2 ⟨row, hlive, hp⟩)
        exact ih hplive hptype name hname
    · unfold ownName at hname
      cases hroot : row.isFilesRoot with
      | true => simp [hroot] at hname
      | false =>
        rw [hroot, if_neg (by simp), List.mem_singleton] at hname
        rw [hname]
        exact hforest.named id row hlive hroot

include hshallow

/-- The path of a folder is the one of its parent, and its name. -/
theorem folderNames_child (hlive : table.live id = some row) (htype : row.type = .folder)
    (hp : row.parentId = some parentId) :
    folderNames table 1000 id = folderNames table 1000 parentId ++ ownName row := by
  have hup := liveUp_eq_some.2 ⟨row, hlive, hp⟩
  obtain ⟨k, hk, hparent⟩ := endsWithin_up hup (hshallow.endsWithin id)
  obtain rfl : k = 999 := by omega
  obtain ⟨parent, hplive, hptype⟩ := hforest.inFolder id parentId hup
  rw [folderNames_eq hlive htype, hp, folderNames_stable hforest hplive hptype hparent (by omega)]

/-- A folder above has no more names in its path. -/
theorem length_folderNames_le (hlive : table.live id = some row) (htype : row.type = .folder)
    (habove : AtOrAbove table.liveUp id folderId) :
    (folderNames table 1000 folderId).length ≤ (folderNames table 1000 id).length := by
  induction habove using ReflTransGen.head_induction_on generalizing row with
  | refl => exact Nat.le_refl _
  | @head id parentId hup _ ih =>
    obtain ⟨row', hlive', hp⟩ := liveUp_eq_some.1 hup
    obtain rfl : row' = row := Option.some.inj (hlive'.symm.trans hlive)
    obtain ⟨parent, hplive, hptype⟩ := hforest.inFolder id parentId hup
    rw [folderNames_child hforest hshallow hlive htype hp, List.length_append]
    have := ih hplive hptype
    omega

/-- A path is one name longer than the folder it is in. -/
theorem depth_path (hlive : table.live id = some row) (hroot : row.isFilesRoot = false)
    (hp : row.parentId = some parentId) :
    depth (itemState table id row).path = (folderNames table 1000 parentId).length + 1 := by
  obtain ⟨hname, hslash⟩ := hforest.named id row hlive hroot
  obtain ⟨parent, hplive, hptype⟩ := hforest.inFolder id parentId (liveUp_eq_some.2 ⟨row, hlive, hp⟩)
  have hnamed := named_folderNames hforest (n := 1000) hplive hptype
  have hown : ownName row = [row.name] := by simp [ownName, hroot]
  unfold itemState
  cases htype : row.type with
  | folder =>
    have hnames := folderNames_child hforest hshallow hlive htype hp
    rw [hown] at hnames
    show depth (['/'].intercalate (folderNames table 1000 id)) = _
    rw [hnames, depth_intercalate (by simp), List.length_append, List.length_singleton]
    intro name hmem
    rcases List.mem_append.1 hmem with hmem | hmem
    · exact (hnamed name hmem).2
    · rw [List.mem_singleton.1 hmem]
      exact hslash
  | file =>
    show depth (join (row.parentId.map (readFolderPath table)) row.name) = _
    rw [hp, Option.map_some]
    show depth (joinRel (['/'].intercalate (folderNames table 1000 parentId)) row.name) = _
    by_cases hnil : folderNames table 1000 parentId = []
    · rw [hnil, joinRel, List.intercalate_nil, if_pos rfl, depth_name hslash]
      rfl
    · have hpath : ['/'].intercalate (folderNames table 1000 parentId) ≠ [] := by
        obtain ⟨first, rest, hcons⟩ := List.exists_cons_of_ne_nil hnil
        have hfirst := (hnamed first (by rw [hcons]; exact List.mem_cons_self)).1
        rw [hcons]
        cases rest with
        | nil => rwa [List.intercalate_singleton]
        | cons next rest => simp [List.intercalate_cons_cons, hfirst]
      rw [joinRel, if_neg hpath, depth_slash, depth_name hslash,
        depth_intercalate hnil fun name hmem => (hnamed name hmem).2]

/-- A folder above an item has a shorter path. -/
theorem depth_lt_of_above {above : Row} (hlive : table.live id = some row)
    (hroot : row.isFilesRoot = false) (habove : Above table.liveUp id folderId)
    (hfolder : table.live folderId = some above) (hroot' : above.isFilesRoot = false) :
    depth (itemState table folderId above).path < depth (itemState table id row).path := by
  obtain ⟨parentId, hup, hrest⟩ := TransGen.head'_iff.1 habove
  obtain ⟨row', hlive', hp⟩ := liveUp_eq_some.1 hup
  obtain rfl : row' = row := Option.some.inj (hlive'.symm.trans hlive)
  obtain ⟨parent, hplive, hptype⟩ := hforest.inFolder id parentId hup
  have htype : above.type = .folder := by
    rcases ReflTransGen.cases_tail hrest with rfl | ⟨last, -, hlast⟩
    · obtain rfl := Option.some.inj (hplive.symm.trans hfolder)
      exact hptype
    · obtain ⟨found, hfound, htype⟩ := hforest.inFolder last folderId hlast
      obtain rfl := Option.some.inj (hfound.symm.trans hfolder)
      exact htype
  have hle := length_folderNames_le hforest hshallow hplive hptype hrest
  have hnamed := named_folderNames hforest (n := 1000) hfolder htype
  have hne : folderNames table 1000 folderId ≠ [] := by
    rw [folderNames_eq hfolder htype, ownName, hroot']
    simp
  have hdepth : depth (itemState table folderId above).path =
      (folderNames table 1000 folderId).length := by
    unfold itemState
    rw [htype]
    exact depth_intercalate hne fun name hmem => (hnamed name hmem).2
  rw [hdepth, depth_path hforest hshallow hlive hroot hp]
  omega

end Names

/-! ## The order of the entries -/

namespace Commit

variable {c : Commit}

/-- The length of the path that an entry about the item is put in order by. -/
def level (c : Commit) (id : String) : Nat :=
  match c.after.get id, c.before.get id with
  | some row, _ => depth (itemState c.after id row).path
  | none, some row => depth (itemState c.before id row).path
  | none, none => 0

theorem Proper.level_current (hc : c.Proper) {key : ItemKey} {current : ItemState}
    (hcurrent : currentOf c.old c.new key = some current) :
    c.level current.id = depth current.path := by
  rcases get_new c key with hnew | ⟨new, -, hget, -, -, hnew⟩
  · rw [currentOf, hnew, Option.none_or] at hcurrent
    obtain ⟨-, old, hget, -, -, rfl⟩ := get_readStorageItemSnapshot.1 hcurrent
    have hafter : c.after.get key.2 = none := by
      cases hafter : c.after.get key.2 with
      | none => rfl
      | some new =>
        rw [(hc.get_new_of_old hcurrent hafter).2] at hnew
        cases hnew
    show c.level key.2 = _
    rw [level, hafter, hget]
  · rw [currentOf, hnew, Option.some_or, Option.some.injEq] at hcurrent
    subst hcurrent
    show c.level key.2 = _
    rw [level, hget]

theorem Proper.pairwise_entries (hc : c.Proper) :
    c.entries.Pairwise fun a b => c.level a.itemId ≤ c.level b.itemId := by
  have : Std.Total fun a b : StorageChangeKind × ItemState => depth a.2.path ≤ depth b.2.path :=
    ⟨fun _ _ => Nat.le_total _ _⟩
  have : IsTrans (StorageChangeKind × ItemState) fun a b => depth a.2.path ≤ depth b.2.path :=
    ⟨fun _ _ _ => Nat.le_trans⟩
  have hsorted := List.pairwise_insertionSort
    (fun a b : StorageChangeKind × ItemState => depth a.2.path ≤ depth b.2.path)
    (uncovered c.old c.new)
  have hlevel : ∀ entry ∈ (uncovered c.old c.new).insertionSort
      fun a b => depth a.2.path ≤ depth b.2.path, c.level entry.2.id = depth entry.2.path := by
    rintro ⟨kind, current⟩ hmem
    obtain ⟨⟨key, kind'⟩, -, hitem⟩ := List.mem_filterMap.1 ((List.mem_insertionSort _).1 hmem)
    obtain ⟨current', hcurrent, hitem⟩ := Option.bind_eq_some_iff.1 hitem
    split at hitem
    · cases hitem
    · obtain ⟨-, rfl⟩ := Prod.mk.inj (Option.some.inj hitem)
      exact hc.level_current hcurrent
  refine List.pairwise_map.2 (hsorted.imp_of_mem fun {a b} ha hb hle => ?_)
  show c.level a.2.id ≤ c.level b.2.id
  rw [hlevel a ha, hlevel b hb]
  exact hle

/-- An entry about a live folder does not come after one about a live item below it. -/
theorem Proper.level_lt (hc : c.Proper) (hshallow : Shallow c.after) {above : Row}
    (hlive : c.after.live id = some row) (hroot : row.isFilesRoot = false)
    (habove : Above c.after.liveUp id folderId) (hfolder : c.after.live folderId = some above)
    (hroot' : above.isFilesRoot = false) : c.level folderId < c.level id := by
  rw [level, level, (live_eq_some.1 hlive).1, (live_eq_some.1 hfolder).1]
  exact depth_lt_of_above hc.after hshallow hlive hroot habove hfolder hroot'

end Commit

end Staaash.Remote
