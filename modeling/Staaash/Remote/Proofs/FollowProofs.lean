import Staaash.Library.Fuel
import Staaash.Remote.Proofs.ListingProofs

/-!
# Proofs: a commit tells a client everything

While the entries of a commit are applied, every item the tree shows is right, or is as it was before
and its own entry is still to come, or it is gone with a folder whose entry is still to come. What was
right all the way up to a pair folder stays so. When nothing is left to apply or to fetch, the tree
shows the live items below the pair folders.
-/

namespace Staaash.Remote

open Relation
open Staaash.Library
open Staaash.Planner

variable {c : Commit} {table : Table} {roots : List String} {t t' : RemoteTree}
  {es : List StorageChange} {reveal : List String} {id folderId parentId : String}
  {item : RemoteItem}

/-! ## Items that show a row -/

/-- The item shows the live row of its id. -/
def ShowsLive (table : Table) (id : String) (item : RemoteItem) : Prop :=
  ∃ row, table.live id = some row ∧ Shows id row item

theorem Shows.parentId_eq {row : Row} (h : Shows id row item) : item.parentId = row.parentId := by
  have := congrArg RemoteItem.parentId h.2
  exact this

theorem shows_shown (id : String) (row : Row) : Shows id row (Commit.shown id row) :=
  ⟨Nat.le_refl _, rfl⟩

theorem ShowsLive.liveUp (h : ShowsLive table id item) : table.liveUp id = item.parentId := by
  obtain ⟨row, hlive, hshows⟩ := h
  rw [Table.liveUp, hlive, Option.bind_some, hshows.parentId_eq]

theorem Under.live (h : Under table roots id) : ∃ row, table.live id = some row := by
  obtain ⟨rootId, -, habove⟩ := h
  obtain ⟨parentId, hup, -⟩ := TransGen.head'_iff.1 habove
  obtain ⟨row, hlive, -⟩ := liveUp_eq_some.1 hup
  exact ⟨row, hlive⟩

theorem under_iff :
    Under table roots id ↔
      ∃ parentId, table.liveUp id = some parentId ∧ (parentId ∈ roots ∨ Under table roots parentId) := by
  constructor
  · rintro ⟨rootId, hroot, habove⟩
    obtain ⟨parentId, hup, hrest⟩ := TransGen.head'_iff.1 habove
    refine ⟨parentId, hup, ?_⟩
    rcases ReflTransGen.cases_head hrest with rfl | ⟨next, hnext, hrest⟩
    · exact .inl hroot
    · exact .inr ⟨rootId, hroot, TransGen.head' hnext hrest⟩
  · rintro ⟨parentId, hup, hroot | ⟨rootId, hroot, habove⟩⟩
    · exact ⟨parentId, hroot, .single hup⟩
    · exact ⟨rootId, hroot, .head hup habove⟩

/-- The tree shows the rows of the item and of every folder above it, up to a pair folder. -/
inductive Sound (t : RemoteTree) (table : Table) : String → Prop
  | root {id parentId : String} {item : RemoteItem} : t.items.get id = some item →
    ShowsLive table id item → item.parentId = some parentId → parentId ∈ t.roots → Sound t table id
  | child {id parentId : String} {item : RemoteItem} : t.items.get id = some item →
    ShowsLive table id item → item.parentId = some parentId → Sound t table parentId →
    Sound t table id

theorem Sound.get (h : Sound t table id) :
    ∃ item, t.items.get id = some item ∧ ShowsLive table id item := by
  cases h with
  | root hget hshows => exact ⟨_, hget, hshows⟩
  | child hget hshows => exact ⟨_, hget, hshows⟩

theorem Sound.under (h : Sound t table id) : Under table t.roots id := by
  induction h with
  | root _ hshows hp hroot => exact under_iff.2 ⟨_, hshows.liveUp.trans hp, .inl hroot⟩
  | child _ hshows hp _ ih => exact under_iff.2 ⟨_, hshows.liveUp.trans hp, .inr ih⟩

/-- Where both trees show the same, what is sound in one is sound in the other. -/
theorem Sound.of_shown (h : Sound t table id) (hroots : t'.roots = t.roots)
    (hget : ∀ id, Sound t table id → ∃ item, t'.items.get id = some item ∧ ShowsLive table id item) :
    Sound t' table id := by
  induction h with
  | @root id parentId item hget' hshows hp hroot =>
    obtain ⟨item', hitem', hshows'⟩ := hget id (.root hget' hshows hp hroot)
    refine .root hitem' hshows' ?_ (hroots ▸ hroot)
    rw [← hshows'.liveUp, hshows.liveUp, hp]
  | @child id parentId item hget' hshows hp hsound ih =>
    obtain ⟨item', hitem', hshows'⟩ := hget id (.child hget' hshows hp hsound)
    refine .child hitem' hshows' ?_ ih
    rw [← hshows'.liveUp, hshows.liveUp, hp]

/-- Pair folders that are items of another one. -/
def Rooted (t : RemoteTree) (table : Table) : Prop :=
  ∀ rootId ∈ t.roots, ∀ item, t.items.get rootId = some item → Sound t table rootId

/-- A sound item lies in a sound one, or in a pair folder that is no item. -/
theorem Sound.up (h : Sound t table id) (hrooted : Rooted t table) (hup : t.up id = some parentId) :
    table.liveUp id = some parentId ∧
      (Sound t table parentId ∨ (parentId ∈ t.roots ∧ t.up parentId = none)) := by
  cases h with
  | @root _ parent item hget hshows hp hroot =>
    rw [RemoteTree.up, hget, Option.bind_some, hp] at hup
    obtain rfl := Option.some.inj hup
    refine ⟨hshows.liveUp.trans hp, ?_⟩
    cases hitem : t.items.get parent with
    | none => exact .inr ⟨hroot, by rw [RemoteTree.up, hitem]; rfl⟩
    | some above => exact .inl (hrooted parent hroot above hitem)
  | child hget hshows hp hsound =>
    rw [RemoteTree.up, hget, Option.bind_some, hp] at hup
    obtain rfl := Option.some.inj hup
    exact ⟨hshows.liveUp.trans hp, .inl hsound⟩

/-- Putting an item that shows its row keeps what is sound. -/
theorem Sound.put {new : RemoteItem} (h : Sound t table id) (hshows : ShowsLive table new.id new) :
    Sound (t.put new) table id := by
  refine h.of_shown RemoteTree.roots_put fun id hsound => ?_
  rw [RemoteTree.get_put]
  by_cases heq : id = new.id
  · rw [if_pos heq, heq]
    exact ⟨new, rfl, hshows⟩
  · rw [if_neg heq]
    exact hsound.get

theorem get_put_cases {new : RemoteItem} (hget : (t.put new).items.get id = some item) :
    (id = new.id ∧ item = new) ∨ (id ≠ new.id ∧ t.items.get id = some item) := by
  rw [RemoteTree.get_put] at hget
  by_cases heq : id = new.id
  · rw [if_pos heq] at hget
    exact .inl ⟨heq, (Option.some.inj hget).symm⟩
  · rw [if_neg heq] at hget
    exact .inr ⟨heq, hget⟩

theorem exists_get_put {new : RemoteItem} (hget : ∃ item, t.items.get id = some item) :
    ∃ item, (t.put new).items.get id = some item := by
  obtain ⟨item, hitem⟩ := hget
  rw [RemoteTree.get_put]
  split
  · exact ⟨_, rfl⟩
  · exact ⟨item, hitem⟩

/-- What lies above a sound item, below the pair folders, is sound. -/
theorem Sound.above (h : Sound t table id) (hrooted : Rooted t table)
    (habove : AtOrAbove t.up id folderId) (hfolder : folderId ∉ t.roots) :
    Sound t table folderId := by
  induction habove using ReflTransGen.head_induction_on with
  | refl => exact h
  | head hup hrest ih =>
    rcases (h.up hrooted hup).2 with hsound | ⟨hroot, hnone⟩
    · exact ih hsound
    · exact absurd (AtOrAbove.eq_of_up_eq_none hrest hnone ▸ hroot) hfolder

/-- Sound items name the parents of the rows. -/
theorem Sound.above_rows {x : String} (h : Sound t table id) (hrooted : Rooted t table)
    (habove : Above t.up id x) : Above table.liveUp id x := by
  induction habove using TransGen.head_induction_on with
  | single hup => exact .single (h.up hrooted hup).1
  | head hup hrest ih =>
    obtain ⟨hrow, hsound | ⟨-, hnone⟩⟩ := h.up hrooted hup
    · exact .head hrow (ih hsound)
    · obtain ⟨next, hnext, -⟩ := TransGen.head'_iff.1 hrest
      rw [hnone] at hnext
      cases hnext

/-- What is sound is in scope, as long as the way up is no longer than the loop goes. -/
theorem Sound.inScope (h : Sound t table id) (hshallow : Shallow table) :
    t.inScope (some id) = true := by
  have hrounds : ∀ {id}, Sound t table id → ∀ n, endsWithin table n id = true →
      t.inScopeFrom (n + 1) (some id) = true := by
    intro id h
    induction h with
    | @root id parentId item hget hshows hp hroot =>
      intro n hends
      obtain ⟨k, rfl, -⟩ := endsWithin_up (hshows.liveUp.trans hp) hends
      rw [RemoteTree.inScopeFrom, hget, Option.bind_some, hp, RemoteTree.inScopeFrom, if_pos hroot]
      split <;> rfl
    | @child id parentId item hget hshows hp _ ih =>
      intro n hends
      obtain ⟨k, rfl, hparent⟩ := endsWithin_up (hshows.liveUp.trans hp) hends
      rw [RemoteTree.inScopeFrom, hget, Option.bind_some, hp, ih k hparent]
      split <;> rfl
  exact RemoteTree.inScopeFrom_mono (by omega) (hrounds h 1000 (hshallow.endsWithin id))

/-! ## The invariant -/

/-- The commit writes an entry about the item. -/
def Told (c : Commit) (id : String) : Prop := ∃ change ∈ c.entries, change.itemId = id

/-- An entry about the item is still to be applied. -/
def Pending (es : List StorageChange) (id : String) : Prop := ∃ change ∈ es, change.itemId = id

theorem pending_cons {change : StorageChange} :
    Pending (change :: es) id ↔ id = change.itemId ∨ Pending es id := by
  simp [Pending, eq_comm]

/-- A commit that the feed can tell a client with these pair folders. -/
structure Fair (c : Commit) (roots : List String) : Prop where
  proper : c.Proper
  shallow : Shallow c.after
  keepsRoots : c.KeepsRoots roots
  renamesApart : c.RenamesApart

/-- An entry about a folder stands before the entries about live items below it. -/
theorem Fair.level_lt (hfair : Fair c roots) {low high : StorageChange} {row : Row}
    (hlow : low ∈ c.entries) (hhigh : high ∈ c.entries) (hlive : c.after.live low.itemId = some row)
    (habove : Above c.after.liveUp low.itemId high.itemId) :
    c.level high.itemId < c.level low.itemId := by
  obtain ⟨last, -, hup⟩ := TransGen.tail'_iff.1 habove
  obtain ⟨folder, hfolder, -⟩ := hfair.proper.after.inFolder last _ hup
  have hroot := (hfair.proper.told_live hlow hlive).2.2.2.1
  have hroot' := (hfair.proper.told_live hhigh hfolder).2.2.2.1
  exact hfair.proper.level_lt hfair.shallow hlive hroot habove hfolder hroot'

/-- The entries `es` are left to apply and the folders `reveal` to fetch. -/
structure Following (c : Commit) (t : RemoteTree) (es : List StorageChange) (reveal : List String) :
    Prop where
  wellFormed : t.WellFormed
  /-- The entries are applied from the first on. -/
  suffix : ∃ applied, c.entries = applied ++ es
  /-- What is shown lies in a pair folder or in something shown. -/
  closed : ∀ id item, t.items.get id = some item →
    ∃ parentId, item.parentId = some parentId ∧
      (parentId ∈ t.roots ∨ ∃ parent, t.items.get parentId = some parent)
  /-- What is not right will be told, or went with its folder. -/
  fresh : ∀ id item, t.items.get id = some item → ShowsLive c.after id item ∨
    (ShowsLive c.before id item ∧ (Pending es id ∨ (c.after.live id = none ∧ ¬ Told c id)))
  /-- What is not right all the way up is as it was. -/
  sound : ∀ id item, t.items.get id = some item → Sound t c.after id ∨
    (Under c.before t.roots id ∧ ShowsLive c.before id item)
  /-- What nothing is told of is shown where its folder is. -/
  kept : ∀ id parentId, c.after.liveUp id = some parentId → ¬ Told c id →
    (parentId ∈ t.roots ∨ ∃ parent, t.items.get parentId = some parent) →
    (∃ item, t.items.get id = some item) ∨
      ∃ folderId ∈ reveal, AtOrAbove c.after.liveUp parentId folderId
  /-- What was told is shown. -/
  came : ∀ id, Told c id → ¬ Pending es id → Under c.after t.roots id →
    (∃ item, t.items.get id = some item) ∨ ∃ folderId ∈ reveal, AtOrAbove c.after.liveUp id folderId
  /-- The folders to fetch are right. -/
  revealed : ∀ folderId ∈ reveal, Sound t c.after folderId
  /-- So are pair folders in other ones. -/
  rooted : Rooted t c.after

namespace Following

variable (h : Following c t es reveal) (hfair : Fair c t.roots)

include h hfair

/-- Along a cycle everything would be as it was before. -/
theorem acyclic : Acyclic t.up := by
  intro x hcycle
  have hbefore : ∀ z, Above t.up x z → AtOrAbove t.up z x → Above c.before.liveUp x z := by
    have hstep : ∀ y z, t.up y = some z → AtOrAbove t.up z x → AtOrAbove t.up x y →
        c.before.liveUp y = some z := by
      intro y z hyz hzx hxy
      obtain ⟨item, hget, hp⟩ := RemoteTree.up_eq_some.1 hyz
      rcases h.sound y item hget with hsound | ⟨-, hshows⟩
      · have hcycle : Above t.up y y := TransGen.head' hyz (hzx.trans hxy)
        exact absurd (hsound.above_rows h.rooted hcycle) (hfair.proper.after.acyclic y)
      · exact hshows.liveUp.trans hp
    intro z hxz
    induction hxz with
    | single hs => exact fun hzx => .single (hstep _ _ hs hzx .refl)
    | tail hxy hs ih =>
      intro hzx
      exact .tail (ih (hzx.head hs)) (hstep _ _ hs hzx hxy.to_reflTransGen)
  exact hfair.proper.before.acyclic x (hbefore x hcycle .refl)

/-- The entries about folders above a live item were applied before its own. -/
theorem settled_of_applied (hid : ¬ Pending es id) (htold : Told c id)
    (hunder : Under c.after t.roots id) (habove : AtOrAbove c.after.liveUp id folderId) :
    ¬ Pending es folderId := by
  rintro ⟨later, hlater, rfl⟩
  obtain ⟨earlier, hearlier, rfl⟩ := htold
  obtain ⟨applied, hsplit⟩ := h.suffix
  have happlied : earlier ∈ applied := by
    rw [hsplit, List.mem_append] at hearlier
    exact hearlier.resolve_right fun hmem => hid ⟨earlier, hmem, rfl⟩
  have hlater' : later ∈ c.entries := by rw [hsplit]; exact List.mem_append_right _ hlater
  have hsorted := hfair.proper.pairwise_entries
  rw [hsplit] at hsorted
  have hle := (List.pairwise_append.1 hsorted).2.2 earlier happlied later hlater
  obtain ⟨row, hlive⟩ := hunder.live
  rcases ReflTransGen.cases_head habove with heq | ⟨next, hnext, hrest⟩
  · exact hid ⟨later, hlater, heq.symm⟩
  · have hlt := hfair.level_lt hearlier hlater' hlive (TransGen.head' hnext hrest)
    omega

/-- What is shown and has nothing to come about it or above it is right all the way up. -/
theorem sound_of_settled (hget : t.items.get id = some item)
    (hlive : ∃ row, c.after.live id = some row)
    (hsettled : ∀ folderId, AtOrAbove c.after.liveUp id folderId → ¬ Pending es folderId) :
    Sound t c.after id := by
  induction acc_parent (h.acyclic hfair) t.finite_up id generalizing item with
  | intro id _ ih =>
    have hshows : ShowsLive c.after id item := by
      rcases h.fresh id item hget with hshows | ⟨-, hpending | ⟨hdead, -⟩⟩
      · exact hshows
      · exact absurd hpending (hsettled id .refl)
      · obtain ⟨row, hlive⟩ := hlive
        rw [hdead] at hlive
        cases hlive
    obtain ⟨parentId, hp, hroot | ⟨parent, hparent⟩⟩ := h.closed id item hget
    · exact .root hget hshows hp hroot
    · have hup := hshows.liveUp.trans hp
      obtain ⟨row, hrow, -⟩ := hfair.proper.after.inFolder id parentId hup
      refine .child hget hshows hp (ih parentId ?_ hparent ⟨row, hrow⟩ ?_)
      · exact RemoteTree.up_eq_some.2 ⟨item, hget, hp⟩
      · exact fun folderId habove => hsettled folderId (habove.head hup)

omit hfair in
/-- What lies below the pair folders with nothing to come about it or above it is shown, or will be
fetched. -/
theorem shown_of_settled (hunder : Under c.after t.roots id)
    (hsettled : ∀ folderId, AtOrAbove c.after.liveUp id folderId → ¬ Pending es folderId) :
    (∃ item, t.items.get id = some item) ∨
      ∃ folderId ∈ reveal, AtOrAbove c.after.liveUp id folderId := by
  obtain ⟨rootId, hroot, habove⟩ := hunder
  induction habove using TransGen.head_induction_on with
  | @single id hup =>
    by_cases htold : Told c id
    · exact h.came id htold (hsettled id .refl) ⟨rootId, hroot, .single hup⟩
    · rcases h.kept id rootId hup htold (.inl hroot) with hshown | ⟨folderId, hfolder, habove⟩
      · exact .inl hshown
      · exact .inr ⟨folderId, hfolder, habove.head hup⟩
  | @head id parentId hup hrest ih =>
    by_cases htold : Told c id
    · exact h.came id htold (hsettled id .refl) ⟨rootId, hroot, .head hup hrest⟩
    · rcases ih fun folderId habove => hsettled folderId (habove.head hup) with
        hparent | ⟨folderId, hfolder, habove⟩
      · rcases h.kept id parentId hup htold (.inr hparent) with hshown | ⟨folderId, hfolder, habove⟩
        · exact .inl hshown
        · exact .inr ⟨folderId, hfolder, habove.head hup⟩
      · exact .inr ⟨folderId, hfolder, habove.head hup⟩

end Following

/-! ## The steps -/

namespace Following

variable {change : StorageChange} {row : Row}

/-- An item without an entry has the parent it had, unless it came back with its folder. -/
theorem untold_cases (hfair : Fair c roots) (hup : c.after.liveUp id = some parentId)
    (htold : ¬ Told c id) :
    (c.before.liveUp id = some parentId ∧
      ∀ item, ShowsLive c.before id item → ShowsLive c.after id item) ∨
    (c.before.live id = none ∧ c.kind (.folder, parentId) = some .restored) := by
  obtain ⟨row, hlive, hp⟩ := liveUp_eq_some.1 hup
  have huntold : ∀ change ∈ c.entries, change.itemId ≠ id := fun change hmem heq =>
    htold ⟨change, hmem, heq⟩
  rcases hfair.proper.untold_live hlive huntold with ⟨old, hold, hparent, hshows⟩ | hrestored | hmoved
  · refine .inl ⟨liveUp_eq_some.2 ⟨old, hold, hparent.trans hp⟩, ?_⟩
    rintro item ⟨old', hold', hshown⟩
    obtain rfl := Option.some.inj (hold'.symm.trans hold)
    exact ⟨row, hlive, hshows item hshown⟩
  · rw [hp] at hrestored
    exact .inr hrestored
  · obtain ⟨key, rfl, hkind, hbefore, hfolder⟩ := hmoved
    rw [hp] at hbefore hfolder
    have hafter : c.after.up key.2 = some parentId :=
      Option.bind_eq_some_iff.2 ⟨row, (live_eq_some.1 hlive).1, hp⟩
    exact absurd hfolder (hfair.renamesApart key parentId hkind hbefore hafter)

/-- A folder with something in it that nothing is told of is not one that the commit created. -/
theorem folder_of_untold (hfair : Fair c roots) (hlive : c.after.live change.itemId = some row)
    (hitem : fromChange change = Commit.shown change.itemId row)
    (hcreated : change.kind = .created → c.before.get change.itemId = none)
    (hup : c.after.liveUp id = some change.itemId) (htold : ¬ Told c id) :
    change.itemType = .folder ∧ change.kind ≠ .created := by
  constructor
  · obtain ⟨folder, hfolder, htype⟩ := hfair.proper.after.inFolder id change.itemId hup
    obtain rfl := Option.some.inj (hfolder.symm.trans hlive)
    rw [← htype]
    exact congrArg RemoteItem.type hitem
  · intro hk
    rcases untold_cases hfair hup htold with ⟨hbefore, -⟩ | ⟨-, hrestored⟩
    · obtain ⟨old, hold, -⟩ := hfair.proper.before.inFolder id change.itemId hbefore
      rw [(live_eq_some.1 hold).1] at hcreated
      cases hcreated hk
    · exact (Commit.live_of_restored hrestored).2 (hcreated hk)

/-- What nothing is told of is shown where it is. -/
theorem parent_of_untold (h : Following c t es reveal) (hfair : Fair c t.roots)
    (hup : c.after.liveUp id = some parentId) (htold : ¬ Told c id) (hget : t.items.get id = some item) :
    item.parentId = some parentId := by
  rcases h.fresh id item hget with hshows | ⟨hshows, -⟩
  · rw [← hshows.liveUp, hup]
  · rcases untold_cases hfair hup htold with ⟨hbefore, -⟩ | ⟨hdead, -⟩
    · rw [← hshows.liveUp, hbefore]
    · obtain ⟨row, hlive, -⟩ := hshows
      rw [hdead] at hlive
      cases hlive

section Apply

variable (h : Following c t (change :: es) reveal) (hfair : Fair c t.roots)

include h

theorem change_mem : change ∈ c.entries := by
  obtain ⟨applied, hsplit⟩ := h.suffix
  rw [hsplit]
  exact List.mem_append_right _ List.mem_cons_self

theorem suffix_tail : ∃ applied, c.entries = applied ++ es := by
  obtain ⟨applied, hsplit⟩ := h.suffix
  exact ⟨applied ++ [change], by rw [hsplit, List.append_assoc, List.singleton_append]⟩

/-- The entries about the folders above a live item come before its own. -/
theorem settled_above (hfair : Fair c t.roots) (hlive : c.after.live change.itemId = some row)
    (hparent : row.parentId = some parentId) (habove : AtOrAbove c.after.liveUp parentId folderId) :
    ¬ Pending (change :: es) folderId := by
  rintro ⟨later, hlater, rfl⟩
  obtain ⟨applied, hsplit⟩ := h.suffix
  have hsorted := hfair.proper.pairwise_entries
  rw [hsplit] at hsorted
  have hle : c.level change.itemId ≤ c.level later.itemId := by
    rcases List.mem_cons.1 hlater with rfl | hlater
    · exact Nat.le_refl _
    · exact (List.pairwise_cons.1 (List.pairwise_append.1 hsorted).2.1).1 later hlater
  have hmem : later ∈ c.entries := by rw [hsplit]; exact List.mem_append_right _ hlater
  have hup := liveUp_eq_some.2 ⟨row, hlive, hparent⟩
  have hlt := hfair.level_lt h.change_mem hmem hlive (TransGen.head' hup habove)
  omega

/-- Nothing is told of a pair folder that lies in another one, and what is told of another one is ignored. -/
theorem skip (hfair : Fair c t.roots) (hroot : change.itemId ∈ t.roots) : Following c t es reveal := by
  have hnotUnder : ¬ Under c.after t.roots change.itemId := fun hunder =>
    Commit.untold_of_kind_eq_none (hfair.keepsRoots.within _ hroot hunder) change h.change_mem rfl
  refine ⟨h.wellFormed, h.suffix_tail, h.closed, ?_, h.sound, h.kept, ?_, h.revealed, h.rooted⟩
  · intro id item hget
    rcases h.fresh id item hget with hshows | ⟨hshows, hpending | hdead⟩
    · exact .inl hshows
    · rcases pending_cons.1 hpending with rfl | hpending
      · exact absurd (h.rooted _ hroot item hget).under hnotUnder
      · exact .inr ⟨hshows, .inl hpending⟩
    · exact .inr ⟨hshows, .inr hdead⟩
  · intro id htold hpending hunder
    refine h.came id htold (fun hp => ?_) hunder
    rcases pending_cons.1 hp with rfl | hp
    · exact hnotUnder hunder
    · exact hpending hp

/-- Removing an item that is not right all the way up leaves the rest as it should be. -/
theorem remove (hfair : Fair c t.roots) (hnotRoot : change.itemId ∉ t.roots)
    (hnotSound : ¬ Sound t c.after change.itemId)
    (hunder : Under c.after t.roots change.itemId →
      ∃ folderId ∈ reveal, AtOrAbove c.after.liveUp change.itemId folderId)
    (hwf : t'.WellFormed) (hroots : t'.roots = t.roots)
    (hitems : ∀ id item, t'.items.get id = some item ↔
      t.items.get id = some item ∧ ¬ AtOrAbove t.up id change.itemId) :
    Following c t' es reveal := by
  have hkeeps : ∀ id, Sound t c.after id → ¬ AtOrAbove t.up id change.itemId := fun id hsound habove =>
    hnotSound (hsound.above h.rooted habove hnotRoot)
  have hsound : ∀ id, Sound t c.after id → Sound t' c.after id := by
    intro id hsound
    refine hsound.of_shown hroots fun id hsound => ?_
    obtain ⟨item, hget, hshows⟩ := hsound.get
    exact ⟨item, (hitems id item).2 ⟨hget, hkeeps id hsound⟩, hshows⟩
  have hgone : ∀ {id item parentId}, t.items.get id = some item → item.parentId = some parentId →
      AtOrAbove t.up parentId change.itemId → AtOrAbove t.up id change.itemId := fun hget hp habove =>
    habove.head (RemoteTree.up_eq_some.2 ⟨_, hget, hp⟩)
  refine ⟨hwf, h.suffix_tail, ?_, ?_, ?_, ?_, ?_, fun folderId hf => hsound _ (h.revealed folderId hf),
    fun rootId hroot item hget =>
      hsound _ (h.rooted rootId (hroots ▸ hroot) item ((hitems _ _).1 hget).1)⟩
  · intro id item hget
    obtain ⟨hget, hnot⟩ := (hitems id item).1 hget
    obtain ⟨parentId, hp, hroot | ⟨parent, hparent⟩⟩ := h.closed id item hget
    · exact ⟨parentId, hp, .inl (hroots ▸ hroot)⟩
    · exact ⟨parentId, hp, .inr ⟨parent, (hitems parentId parent).2
        ⟨hparent, fun habove => hnot (hgone hget hp habove)⟩⟩⟩
  · intro id item hget
    obtain ⟨hget, hnot⟩ := (hitems id item).1 hget
    rcases h.fresh id item hget with hshows | ⟨hshows, hpending | hdead⟩
    · exact .inl hshows
    · rcases pending_cons.1 hpending with rfl | hpending
      · exact absurd .refl hnot
      · exact .inr ⟨hshows, .inl hpending⟩
    · exact .inr ⟨hshows, .inr hdead⟩
  · intro id item hget
    rw [hroots]
    exact (h.sound id item ((hitems id item).1 hget).1).imp_left (hsound id)
  · intro id parentId hup htold hparent
    have hparent' : parentId ∈ t.roots ∨ ∃ parent, t.items.get parentId = some parent := by
      rw [hroots] at hparent
      exact hparent.imp_right fun ⟨parent, hget⟩ => ⟨parent, ((hitems _ _).1 hget).1⟩
    rcases h.kept id parentId hup htold hparent' with ⟨item, hget⟩ | hreveal
    · refine .inl ⟨item, (hitems id item).2 ⟨hget, fun habove => ?_⟩⟩
      -- it is not the item itself, which is told of, so its folder would be gone
      have hp := h.parent_of_untold hfair hup htold hget
      rcases ReflTransGen.cases_head habove with rfl | ⟨next, hnext, hrest⟩
      · exact htold ⟨change, h.change_mem, rfl⟩
      · rw [RemoteTree.up, hget, Option.bind_some, hp] at hnext
        obtain rfl := Option.some.inj hnext
        rcases hparent with hroot | ⟨parent, hget'⟩
        · rw [hroots] at hroot
          cases hitem : t.items.get parentId with
          | none =>
            have hnone : t.up parentId = none := by rw [RemoteTree.up, hitem]; rfl
            exact hnotRoot (AtOrAbove.eq_of_up_eq_none hrest hnone ▸ hroot)
          | some parent =>
            exact hnotSound ((h.rooted parentId hroot parent hitem).above h.rooted hrest hnotRoot)
        · exact ((hitems _ _).1 hget').2 hrest
    · exact .inr hreveal
  · intro id htold hpending hunder'
    rw [hroots] at hunder'
    by_cases hid : id = change.itemId
    · subst hid
      exact .inr (hunder hunder')
    · have hpending' : ¬ Pending (change :: es) id := fun hp =>
        (pending_cons.1 hp).elim hid hpending
      rcases h.came id htold hpending' hunder' with ⟨item, hget⟩ | hreveal
      · have hsettled : Sound t c.after id := h.sound_of_settled hfair hget hunder'.live
          fun folderId habove => h.settled_of_applied hfair hpending' htold hunder' habove
        exact .inl ⟨item, (hitems id item).2 ⟨hget, hkeeps id hsettled⟩⟩
      · exact .inr hreveal

/-- Putting an item whose folder is in scope shows it; if it came into view as a folder, it is to be
fetched. -/
theorem put (hfair : Fair c t.roots) (hlive : c.after.live change.itemId = some row)
    (hitem : fromChange change = Commit.shown change.itemId row)
    (hp : row.parentId = some parentId)
    (hparent : parentId ∈ t.roots ∨ Sound t c.after parentId)
    (hcreated : change.kind = .created → c.before.get change.itemId = none) :
    Following c (t.put (fromChange change)) es
      (reveal ++ (if change.itemType = .folder ∧ !t.items.has change.itemId ∧ change.kind ≠ .created
        then some change.itemId else none).toList) := by
  have hid : (fromChange change).id = change.itemId := rfl
  have hshows : ShowsLive c.after change.itemId (fromChange change) :=
    ⟨row, hlive, hitem ▸ shows_shown _ _⟩
  have hp' : (fromChange change).parentId = some parentId :=
    hshows.liveUp.symm.trans (liveUp_eq_some.2 ⟨row, hlive, hp⟩)
  have hsound : ∀ id, Sound t c.after id → Sound (t.put (fromChange change)) c.after id := fun id hsound =>
    hsound.put hshows
  have hself : Sound (t.put (fromChange change)) c.after change.itemId := by
    have hget : (t.put (fromChange change)).items.get change.itemId = some (fromChange change) := by
      rw [RemoteTree.get_put, if_pos hid.symm]
    rcases hparent with hroot | hparent
    · exact .root hget hshows hp' (by rw [RemoteTree.roots_put]; exact hroot)
    · exact .child hget hshows hp' (hsound parentId hparent)
  refine ⟨h.wellFormed.put _, h.suffix_tail, ?_, ?_, ?_, ?_, ?_, ?_, ?_⟩
  · intro id item hitem'
    rw [RemoteTree.roots_put]
    rcases get_put_cases hitem' with ⟨rfl, rfl⟩ | ⟨-, hget'⟩
    · refine ⟨parentId, hp', hparent.imp_right fun hsound => ?_⟩
      obtain ⟨parent, hfound, -⟩ := hsound.get
      exact exists_get_put ⟨parent, hfound⟩
    · obtain ⟨parentId', hp', hin⟩ := h.closed id item hget'
      exact ⟨parentId', hp', hin.imp_right exists_get_put⟩
  · intro id item hitem'
    rcases get_put_cases hitem' with ⟨rfl, rfl⟩ | ⟨hne, hget'⟩
    · exact .inl hshows
    · rcases h.fresh id item hget' with hshows | ⟨hshows, hpending | hdead⟩
      · exact .inl hshows
      · exact .inr ⟨hshows, .inl ((pending_cons.1 hpending).resolve_left hne)⟩
      · exact .inr ⟨hshows, .inr hdead⟩
  · intro id item hitem'
    rw [RemoteTree.roots_put]
    rcases get_put_cases hitem' with ⟨rfl, rfl⟩ | ⟨-, hget'⟩
    · exact .inl hself
    · exact (h.sound id item hget').imp_left (hsound id)
  · intro id parentId' hup htold hin
    rw [RemoteTree.roots_put] at hin
    by_cases hknown : parentId' ∈ t.roots ∨ ∃ parent, t.items.get parentId' = some parent
    · rcases h.kept id parentId' hup htold hknown with hshown | ⟨folderId, hmem, habove⟩
      · exact .inl (exists_get_put hshown)
      · exact .inr ⟨folderId, List.mem_append_left _ hmem, habove⟩
    · -- its folder came into view just now
      push Not at hknown
      obtain ⟨parent, hfound⟩ := hin.resolve_left hknown.1
      rcases get_put_cases hfound with ⟨rfl, -⟩ | ⟨-, hget'⟩
      · refine .inr ⟨change.itemId, List.mem_append_right _ ?_, .refl⟩
        obtain ⟨htype, hkind⟩ := folder_of_untold hfair hlive hitem hcreated hup htold
        have hnew : t.items.has change.itemId = false := by
          rw [OrderedMap.has_eq_false_iff, Option.eq_none_iff_forall_ne_some]
          exact hknown.2
        rw [if_pos ⟨htype, by rw [hnew]; rfl, hkind⟩]
        exact List.mem_singleton.2 rfl
      · exact absurd hget' (hknown.2 parent)
  · intro id htold hpending hunder
    rw [RemoteTree.roots_put] at hunder
    by_cases heq : id = change.itemId
    · subst heq
      exact .inl ⟨fromChange change, by rw [RemoteTree.get_put, if_pos hid.symm]⟩
    · have hpending' : ¬ Pending (change :: es) id := fun hp =>
        (pending_cons.1 hp).elim heq hpending
      rcases h.came id htold hpending' hunder with hshown | ⟨folderId, hmem, habove⟩
      · exact .inl (exists_get_put hshown)
      · exact .inr ⟨folderId, List.mem_append_left _ hmem, habove⟩
  · intro folderId hmem
    rcases List.mem_append.1 hmem with hmem | hmem
    · exact hsound folderId (h.revealed folderId hmem)
    · split at hmem
      · rw [Option.toList_some, List.mem_singleton] at hmem
        exact hmem ▸ hself
      · cases hmem
  · intro rootId hroot item hitem'
    rcases get_put_cases hitem' with ⟨rfl, -⟩ | ⟨-, hget'⟩
    · exact hself
    · exact hsound rootId (h.rooted rootId (RemoteTree.roots_put ▸ hroot) item hget')

/-- The tree has nothing newer than the entry. -/
theorem takes (hfair : Fair c t.roots) : t.takes (fromChange change) = true := by
  unfold RemoteTree.takes
  cases hget : t.items.get (fromChange change).id with
  | none => rfl
  | some item =>
    have hbefore : ∀ old, c.before.get change.itemId = some old →
        old.storageRevision ≤ change.storageRevision := by
      intro old hold
      cases hlive : c.after.live change.itemId with
      | none => exact (hfair.proper.told_dead h.change_mem hlive).2 old hold
      | some row =>
        have hitem := (hfair.proper.told_live h.change_mem hlive).1
        have hrev : change.storageRevision = row.storageRevision := congrArg RemoteItem.rev hitem
        rw [hrev]
        exact (hfair.proper.kept _ old row hold (live_eq_some.1 hlive).1).2.2
    have hle : item.rev ≤ change.storageRevision := by
      rcases h.fresh _ item hget with ⟨row, hlive, hle, -⟩ | ⟨⟨old, hlive, hle, -⟩, -⟩
      · have hitem := (hfair.proper.told_live h.change_mem hlive).1
        have hrev : change.storageRevision = row.storageRevision := congrArg RemoteItem.rev hitem
        rw [hrev]
        exact hle
      · exact hle.trans (hbefore old (live_eq_some.1 hlive).1)
    exact decide_eq_true hle

/-- Removing what the entry is about, if it is known. -/
theorem removeKnown (hfair : Fair c t.roots) (hnotRoot : change.itemId ∉ t.roots)
    (hnotSound : ¬ Sound t c.after change.itemId)
    (hunder : Under c.after t.roots change.itemId →
      ∃ folderId ∈ reveal, AtOrAbove c.after.liveUp change.itemId folderId) :
    Ends (fun fuel => t.removeKnown fuel change.itemId) fun t' =>
      Following c t' es reveal ∧ t'.roots = t.roots := by
  unfold RemoteTree.removeKnown
  by_cases hhas : t.items.has change.itemId = true
  · simp only [hhas, if_true]
    refine ends_of_mono RemoteTree.removeSubtree_mono
      (h.wellFormed.removeSubtree_ends (h.acyclic hfair) _) ?_
    intro fuel t' ht'
    obtain ⟨hwf, hroots, hitems⟩ := h.wellFormed.removeSubtree ht'
    exact ⟨h.remove hfair hnotRoot hnotSound hunder hwf hroots hitems, hroots⟩
  · simp only [hhas, Bool.false_eq_true, if_false]
    refine ends_some ⟨h.remove hfair hnotRoot hnotSound hunder h.wellFormed rfl ?_, rfl⟩
    -- nothing known lies below what is not known
    intro id item
    refine ⟨fun hget => ⟨hget, fun habove => hhas ?_⟩, fun hget => hget.1⟩
    rcases ReflTransGen.cases_tail habove with heq | ⟨last, -, hlast⟩
    · rw [heq]
      exact (t.items.has_iff id).2 ⟨item, hget⟩
    · obtain ⟨child, hchild, hp⟩ := RemoteTree.up_eq_some.1 hlast
      obtain ⟨parentId, hp', hroot | hknown⟩ := h.closed last child hchild
      · exact absurd (Option.some.inj (hp'.symm.trans hp) ▸ hroot) hnotRoot
      · rw [Option.some.inj (hp'.symm.trans hp)] at hknown
        exact (t.items.has_iff _).2 hknown

/-- Applying the next entry. -/
theorem apply (hfair : Fair c t.roots) :
    Ends (fun fuel => t.apply fuel change) fun r =>
      Following c r.1 es (reveal ++ r.2.toList) ∧ r.1.roots = t.roots := by
  unfold RemoteTree.apply
  by_cases hroot : change.itemId ∈ t.roots
  · simp only [if_pos hroot]
    refine ends_some ⟨?_, rfl⟩
    rw [Option.toList_none, List.append_nil]
    exact h.skip hfair hroot
  simp only [if_neg hroot, h.takes hfair, Bool.not_true, Bool.false_eq_true, if_false]
  have hremoved : ¬ Sound t c.after change.itemId →
      (Under c.after t.roots change.itemId →
        ∃ folderId ∈ reveal, AtOrAbove c.after.liveUp change.itemId folderId) →
      Ends (fun fuel => (t.removeKnown fuel change.itemId).map fun t => (t, (none : Option String)))
        fun r => Following c r.1 es (reveal ++ r.2.toList) ∧ r.1.roots = t.roots := by
    intro hnotSound hunder
    refine (h.removeKnown hfair hroot hnotSound hunder).map fun t' ht' => ⟨?_, ht'.2⟩
    rw [Option.toList_none, List.append_nil]
    exact ht'.1
  cases hlive : c.after.live change.itemId with
  | none =>
    have hkind := (hfair.proper.told_dead h.change_mem hlive).1
    simp only [if_pos hkind]
    refine hremoved (fun hsound => ?_) fun hunder => ?_
    · obtain ⟨row, hrow⟩ := hsound.under.live
      rw [hlive] at hrow
      cases hrow
    · obtain ⟨row, hrow⟩ := hunder.live
      rw [hlive] at hrow
      cases hrow
  | some row =>
    obtain ⟨hitem, htrashed, hdeleted, -, hcreated⟩ := hfair.proper.told_live h.change_mem hlive
    have hkind : ¬ (change.kind = .trashed ∨ change.kind = .deleted) := by
      rintro (hk | hk)
      · exact htrashed hk
      · exact hdeleted hk
    have hp : change.parentId = row.parentId := congrArg RemoteItem.parentId hitem
    simp only [if_neg hkind]
    have hsettled : ∀ {parentId}, row.parentId = some parentId →
        ∀ folderId, AtOrAbove c.after.liveUp parentId folderId → ¬ Pending (change :: es) folderId :=
      fun hparent _ habove => h.settled_above hfair hlive hparent habove
    by_cases hscope : t.inScope change.parentId = true
    · simp only [hscope, Bool.not_true, Bool.false_eq_true, if_false]
      obtain ⟨parentId, hparent, hknown⟩ := RemoteTree.known_of_inScope hscope
      rw [hp] at hparent
      refine ends_some ⟨h.put hfair hlive hitem hparent (hknown.imp_right ?_) hcreated,
        RemoteTree.roots_put⟩
      rintro ⟨folder, hget⟩
      have hup := liveUp_eq_some.2 ⟨row, hlive, hparent⟩
      obtain ⟨parent, hplive, -⟩ := hfair.proper.after.inFolder _ parentId hup
      exact h.sound_of_settled hfair hget ⟨parent, hplive⟩ (hsettled hparent)
    · simp only [hscope, Bool.not_false, if_true]
      have hnotScope : ∀ {parentId}, row.parentId = some parentId →
          ¬ (parentId ∈ t.roots ∨ Sound t c.after parentId) := by
        intro parentId hparent hin
        rw [hp, hparent] at hscope
        rcases hin with hin | hin
        · exact hscope (RemoteTree.inScope_root hin)
        · exact hscope (hin.inScope hfair.shallow)
      refine hremoved (fun hsound => ?_) fun hunder => ?_
      · have hparent : ∀ {item parentId}, ShowsLive c.after change.itemId item →
            item.parentId = some parentId → row.parentId = some parentId := by
          intro item parentId hshows hp
          rw [← hp, ← hshows.liveUp, Table.liveUp, hlive, Option.bind_some]
        cases hsound with
        | root _ hshows hp hin => exact hnotScope (hparent hshows hp) (.inl hin)
        | child _ hshows hp hin => exact hnotScope (hparent hshows hp) (.inr hin)
      · obtain ⟨parentId, hup, hin⟩ := under_iff.1 hunder
        obtain ⟨row', hlive', hparent⟩ := liveUp_eq_some.1 hup
        obtain rfl : row' = row := Option.some.inj (hlive'.symm.trans hlive)
        have hunder' := hin.resolve_left fun hin => hnotScope hparent (.inl hin)
        rcases h.shown_of_settled hunder' (hsettled hparent) with ⟨folder, hget⟩ | hreveal
        · exact absurd (.inr (h.sound_of_settled hfair hget hunder'.live (hsettled hparent)))
            (hnotScope hparent)
        · obtain ⟨folderId, hmem, habove⟩ := hreveal
          exact ⟨folderId, hmem, habove.head hup⟩

end Apply

section Answer

variable {items : List RemoteItem} {x : String}

theorem mem_answer (hfair : Fair c roots) (hitems : items.Perm ((listing c.after folderId).map fromSnapshot)) :
    item ∈ items ↔ ∃ id row, c.after.live id = some row ∧ Above c.after.liveUp id folderId ∧
      item = Commit.shown id row := by
  rw [hitems.mem_iff, mem_listing hfair.proper.after hfair.shallow]

/-- The answer leaves an item alone that is not below the folder. -/
theorem get_beside_answer (hfair : Fair c roots)
    (hitems : items.Perm ((listing c.after folderId).map fromSnapshot))
    (hx : ¬ ∃ row, c.after.live x = some row ∧ Above c.after.liveUp x folderId) :
    (t.addUnder items).items.get x = t.items.get x := by
  refine RemoteTree.get_addUnder_other ?_
  intro a ha hid
  obtain ⟨y, row, hrow, habove, rfl⟩ := (mem_answer hfair hitems).1 ha
  obtain rfl : y = x := hid
  exact hx ⟨row, hrow, habove⟩

variable (h : Following c t es reveal) (hfair : Fair c t.roots)
  (hitems : items.Perm ((listing c.after folderId).map fromSnapshot))

include h hfair hitems

/-- Below the folder the answer shows every row, as nothing in the tree is newer. -/
theorem get_in_answer (hrow : c.after.live x = some row) (habove : Above c.after.liveUp x folderId) :
    (t.addUnder items).items.get x = some (Commit.shown x row) := by
  have hmem : Commit.shown x row ∈ items := (mem_answer hfair hitems).2 ⟨x, row, hrow, habove, rfl⟩
  refine RemoteTree.get_addUnder ?_ ?_ hmem
  · intro a ha b hb hab
    obtain ⟨y, row, hrow, -, rfl⟩ := (mem_answer hfair hitems).1 ha
    obtain ⟨z, row', hrow', -, rfl⟩ := (mem_answer hfair hitems).1 hb
    obtain rfl : y = z := hab
    rw [Option.some.inj (hrow.symm.trans hrow')]
  · intro a ha current hget
    obtain ⟨y, row, hrow, -, rfl⟩ := (mem_answer hfair hitems).1 ha
    have hget : t.items.get y = some current := hget
    rcases h.fresh y current hget with ⟨row', hrow', hle, -⟩ | ⟨⟨old, hold, hle, -⟩, -⟩
    · rw [Option.some.inj (hrow'.symm.trans hrow)] at hle
      exact hle
    · exact hle.trans (hfair.proper.kept y old row (live_eq_some.1 hold).1 (live_eq_some.1 hrow).1).2.2

theorem get_answer_cases (hget : (t.addUnder items).items.get x = some item) :
    (Above c.after.liveUp x folderId ∧ ShowsLive c.after x item) ∨ t.items.get x = some item := by
  by_cases hx : ∃ row, c.after.live x = some row ∧ Above c.after.liveUp x folderId
  · obtain ⟨row, hrow, habove⟩ := hx
    rw [h.get_in_answer hfair hitems hrow habove] at hget
    exact .inl ⟨habove, row, hrow, Option.some.inj hget ▸ shows_shown x row⟩
  · rw [get_beside_answer hfair hitems hx] at hget
    exact .inr hget

theorem exists_get_answer (hget : ∃ item, t.items.get x = some item) :
    ∃ item, (t.addUnder items).items.get x = some item := by
  by_cases hx : ∃ row, c.after.live x = some row ∧ Above c.after.liveUp x folderId
  · obtain ⟨row, hrow, habove⟩ := hx
    exact ⟨_, h.get_in_answer hfair hitems hrow habove⟩
  · rwa [get_beside_answer hfair hitems hx]

theorem exists_get_in_answer (habove : Above c.after.liveUp x folderId) :
    ∃ item, (t.addUnder items).items.get x = some item := by
  obtain ⟨next, hnext, -⟩ := TransGen.head'_iff.1 habove
  obtain ⟨row, hrow, -⟩ := liveUp_eq_some.1 hnext
  exact ⟨_, h.get_in_answer hfair hitems hrow habove⟩

theorem sound_answer (hsound : Sound t c.after x) : Sound (t.addUnder items) c.after x := by
  refine hsound.of_shown RemoteTree.roots_addUnder fun x hsound => ?_
  obtain ⟨item, hitem, hshows⟩ := hsound.get
  obtain ⟨item', hitem'⟩ := h.exists_get_answer hfair hitems ⟨item, hitem⟩
  refine ⟨item', hitem', ?_⟩
  rcases h.get_answer_cases hfair hitems hitem' with ⟨-, hshows'⟩ | hsame
  · exact hshows'
  · rwa [Option.some.inj (hsame.symm.trans hitem)]

/-- What is below the folder is right, as the folder is. -/
theorem sound_in_answer (hfolder : folderId ∈ reveal) (habove : Above c.after.liveUp x folderId) :
    Sound (t.addUnder items) c.after x := by
  have hself := h.sound_answer hfair hitems (h.revealed folderId hfolder)
  induction habove using TransGen.head_induction_on with
  | @single x hup =>
    obtain ⟨row, hrow, hp⟩ := liveUp_eq_some.1 hup
    exact .child (h.get_in_answer hfair hitems hrow (.single hup)) ⟨row, hrow, shows_shown x row⟩ hp hself
  | @head x next hup hrest ih =>
    obtain ⟨row, hrow, hp⟩ := liveUp_eq_some.1 hup
    exact .child (h.get_in_answer hfair hitems hrow (.head hup hrest)) ⟨row, hrow, shows_shown x row⟩ hp ih

/-- Fetching one of the folders that came into view. -/
theorem answer (hfolder : folderId ∈ reveal) : Following c (t.addUnder items) es (reveal.erase folderId) ∧
    (t.addUnder items).roots = t.roots := by
  have hroots : (t.addUnder items).roots = t.roots := RemoteTree.roots_addUnder
  have hget : ∀ {x item}, (t.addUnder items).items.get x = some item → _ := h.get_answer_cases hfair hitems
  have hstays : ∀ {x}, (∃ item, t.items.get x = some item) → _ := h.exists_get_answer hfair hitems
  have hcomes : ∀ {x}, Above c.after.liveUp x folderId → _ := h.exists_get_in_answer hfair hitems
  have hsound : ∀ x, Sound t c.after x → Sound (t.addUnder items) c.after x := fun _ =>
    h.sound_answer hfair hitems
  have hself := hsound folderId (h.revealed folderId hfolder)
  have hsoundBelow : ∀ {x}, Above c.after.liveUp x folderId → Sound (t.addUnder items) c.after x :=
    h.sound_in_answer hfair hitems hfolder
  have hreveal : ∀ {x}, (∃ g ∈ reveal, AtOrAbove c.after.liveUp x g) →
      AtOrAbove c.after.liveUp x folderId ∨ ∃ g ∈ reveal.erase folderId, AtOrAbove c.after.liveUp x g := by
    rintro x ⟨g, hg, habove⟩
    by_cases heq : g = folderId
    · exact .inl (heq ▸ habove)
    · exact .inr ⟨g, (List.mem_erase_of_ne heq).2 hg, habove⟩
  refine ⟨⟨h.wellFormed.addUnder items, h.suffix, ?_, ?_, ?_, ?_, ?_, ?_, ?_⟩, hroots⟩
  · intro x item hitem
    rw [hroots]
    rcases hget hitem with ⟨habove, hshows⟩ | hitem
    · obtain ⟨next, hup, hrest⟩ := TransGen.head'_iff.1 habove
      refine ⟨next, hshows.liveUp.symm.trans hup, .inr ?_⟩
      rcases ReflTransGen.cases_head hrest with rfl | ⟨above, hnext, hrest⟩
      · obtain ⟨folder, hfound, -⟩ := hself.get
        exact ⟨folder, hfound⟩
      · exact hcomes (TransGen.head' hnext hrest)
    · obtain ⟨parentId, hp, hin⟩ := h.closed x item hitem
      exact ⟨parentId, hp, hin.imp_right hstays⟩
  · intro x item hitem
    rcases hget hitem with ⟨-, hshows⟩ | hitem
    · exact .inl hshows
    · exact h.fresh x item hitem
  · intro x item hitem
    rw [hroots]
    rcases hget hitem with ⟨habove, -⟩ | hitem
    · exact .inl (hsoundBelow habove)
    · exact (h.sound x item hitem).imp_left (hsound x)
  · intro x parentId hup htold hin
    by_cases hparent : AtOrAbove c.after.liveUp parentId folderId
    · exact .inl (hcomes (TransGen.head' hup hparent))
    · have hin' : parentId ∈ t.roots ∨ ∃ parent, t.items.get parentId = some parent := by
        rw [hroots] at hin
        rcases hin with hin | ⟨parent, hfound⟩
        · exact .inl hin
        · rcases hget hfound with ⟨habove, -⟩ | hfound
          · exact absurd habove.to_reflTransGen hparent
          · exact .inr ⟨parent, hfound⟩
      rcases h.kept x parentId hup htold hin' with hshown | hrevealed
      · exact .inl (hstays hshown)
      · exact .inr ((hreveal hrevealed).resolve_left hparent)
  · intro x htold hpending hunder
    rw [hroots] at hunder
    rcases h.came x htold hpending hunder with hshown | hrevealed
    · exact .inl (hstays hshown)
    · rcases hreveal hrevealed with habove | hrevealed
      · rcases ReflTransGen.cases_head habove with rfl | ⟨next, hnext, hrest⟩
        · obtain ⟨folder, hfound, -⟩ := hself.get
          exact .inl ⟨folder, hfound⟩
        · exact .inl (hcomes (TransGen.head' hnext hrest))
      · exact .inr hrevealed
  · intro g hg
    exact hsound g (h.revealed g (List.mem_of_mem_erase hg))
  · intro rootId hroot item hitem
    rcases hget hitem with ⟨habove, -⟩ | hitem
    · exact hsoundBelow habove
    · exact hsound rootId (h.rooted rootId (hroots ▸ hroot) item hitem)

end Answer

/-- Nothing happens to the folders from a pair folder up to the one that it lies in, so what is shown of them
stays right. -/
theorem sound_between (hfair : Fair c t.roots) (hmirrors : Mirrors t c.before) {rootId : String}
    (hroot : rootId ∈ t.roots) (hunder : Under c.before t.roots id)
    (hbelow : AtOrAbove c.before.liveUp rootId id) : Sound t c.after id := by
  have hshow : ∀ {id parentId}, c.before.liveUp id = some parentId → Under c.before t.roots id →
      AtOrAbove c.before.liveUp rootId id → ∃ item, t.items.get id = some item ∧
        ShowsLive c.after id item ∧ item.parentId = some parentId := by
    intro id parentId hup hunder hbelow
    obtain ⟨item, hget⟩ := Option.isSome_iff_exists.1 (hmirrors.complete id hunder)
    have hlive : ShowsLive c.before id item := (hmirrors.shown id item hget).2
    have hp := hlive.liveUp.symm.trans hup
    obtain ⟨row, hrow, hshows⟩ := hlive
    obtain ⟨new, hnew, -, hsame⟩ := hfair.proper.same_of_kind_eq_none
      (hfair.keepsRoots.between rootId hroot id hbelow hunder) hrow
    exact ⟨item, hget, ⟨new, hnew, hsame item hshows⟩, hp⟩
  obtain ⟨outerId, houter, habove⟩ := hunder
  induction habove using TransGen.head_induction_on with
  | @single id hup =>
    obtain ⟨item, hget, hshows, hp⟩ := hshow hup ⟨outerId, houter, .single hup⟩ hbelow
    exact .root hget hshows hp houter
  | @head id next hup hrest ih =>
    obtain ⟨item, hget, hshows, hp⟩ := hshow hup ⟨outerId, houter, .head hup hrest⟩ hbelow
    exact .child hget hshows hp (ih (hbelow.tail hup))

/-- A tree that shows the rows before the commit. -/
theorem init (hwf : t.WellFormed) (hfair : Fair c t.roots) (hmirrors : Mirrors t c.before) :
    Following c t c.entries [] := by
  have hshown : ∀ {id item}, t.items.get id = some item → ShowsLive c.before id item :=
    fun hget => (hmirrors.shown _ _ hget).2
  refine ⟨hwf, ⟨[], rfl⟩, ?_, ?_, ?_, ?_, ?_, fun _ hmem => absurd hmem List.not_mem_nil, ?_⟩
  · intro id item hget
    obtain ⟨hunder, -⟩ := hmirrors.shown id item hget
    obtain ⟨parentId, hup, hin⟩ := under_iff.1 hunder
    refine ⟨parentId, (hshown hget).liveUp.symm.trans hup, hin.imp_right fun hin => ?_⟩
    exact Option.isSome_iff_exists.1 (hmirrors.complete parentId hin)
  · intro id item hget
    by_cases htold : Told c id
    · exact .inr ⟨hshown hget, .inl htold⟩
    · cases hlive : c.after.live id with
      | none => exact .inr ⟨hshown hget, .inr ⟨rfl, htold⟩⟩
      | some row =>
        refine .inl ?_
        obtain ⟨old, hold, hshows⟩ := hshown hget
        obtain ⟨parentId, hup, -⟩ := under_iff.1 (hmirrors.shown id item hget).1
        have hbefore : c.before.up id = some parentId := by
          obtain ⟨old', hold', hp⟩ := liveUp_eq_some.1 hup
          exact Option.bind_eq_some_iff.2 ⟨old', (live_eq_some.1 hold').1, hp⟩
        rcases hfair.proper.untold_live hlive fun change hmem heq => htold ⟨change, hmem, heq⟩ with
          ⟨old', hold', -, hsame⟩ | ⟨hdead, -⟩ | ⟨key, rfl, hkind, hparent, hfolder⟩
        · exact ⟨row, hlive, hsame item (Option.some.inj (hold.symm.trans hold') ▸ hshows)⟩
        · rw [hdead] at hold
          cases hold
        · have hp : row.parentId = some parentId := hparent.symm.trans hbefore
          have hafter : c.after.up key.2 = some parentId :=
            Option.bind_eq_some_iff.2 ⟨row, (live_eq_some.1 hlive).1, hp⟩
          rw [hp] at hfolder
          exact absurd hfolder (hfair.renamesApart key parentId hkind hbefore hafter)
  · intro id item hget
    exact .inr ⟨(hmirrors.shown id item hget).1, hshown hget⟩
  · intro id parentId hup htold hin
    rcases untold_cases hfair hup htold with ⟨hbefore, -⟩ | ⟨-, hrestored⟩
    · refine .inl (Option.isSome_iff_exists.1 (hmirrors.complete id (under_iff.2 ⟨parentId, hbefore, ?_⟩)))
      exact hin.imp_right fun ⟨parent, hget⟩ => (hmirrors.shown parentId parent hget).1
    · rcases hin with hin | ⟨parent, hget⟩
      · exact absurd rfl (hfair.keepsRoots.stays parentId hin _ hrestored).2.1
      · obtain ⟨row, hlive, -⟩ := hshown hget
        rw [(Commit.live_of_restored hrestored).1] at hlive
        cases hlive
  · exact fun id htold hpending _ => absurd htold hpending
  · exact fun rootId hroot item hget =>
      sound_between hfair hmirrors hroot (hmirrors.shown rootId item hget).1 .refl

/-- When nothing is left to apply or to fetch, the tree shows the rows after the commit. -/
theorem mirrors (h : Following c t [] []) (hfair : Fair c t.roots) : Mirrors t c.after := by
  have hnone : ∀ id, ¬ Pending [] id := by
    rintro id ⟨change, hmem, -⟩
    cases hmem
  have hlive : ∀ id item, t.items.get id = some item → ∃ row, c.after.live id = some row := by
    intro id
    induction acc_parent (h.acyclic hfair) t.finite_up id with
    | intro id _ ih =>
      intro item hget
      by_contra hdead
      have hdead : c.after.live id = none := by
        rw [Option.eq_none_iff_forall_ne_some]
        exact fun row hrow => hdead ⟨row, hrow⟩
      rcases h.fresh id item hget with ⟨row, hrow, -⟩ | ⟨⟨old, hold, hshows⟩, hpending | ⟨-, htold⟩⟩
      · rw [hdead] at hrow
        cases hrow
      · exact hnone id hpending
      · -- it went with its folder, which is still shown and went as well
        obtain ⟨parentId, hp, hin⟩ := h.closed id item hget
        obtain ⟨kind, hkind, hgone⟩ := hfair.proper.untold_dead hold hdead
          (fun change hmem heq => htold ⟨change, hmem, heq⟩) (hshows.parentId_eq.symm.trans hp)
        rcases hin with hin | ⟨parent, hparent⟩
        · obtain ⟨htrashed, -, hdeleted⟩ := hfair.keepsRoots.stays parentId hin kind hkind
          exact hgone.elim htrashed hdeleted
        · obtain ⟨row, hrow⟩ :=
            ih parentId (RemoteTree.up_eq_some.2 ⟨item, hget, hp⟩) parent hparent
          rw [hfair.proper.live_of_gone hkind hgone] at hrow
          cases hrow
  constructor
  · intro id item hget
    have hsound := h.sound_of_settled hfair hget (hlive id item hget) fun folderId _ => hnone folderId
    obtain ⟨item', hget', hshows⟩ := hsound.get
    exact ⟨hsound.under, Option.some.inj (hget'.symm.trans hget) ▸ hshows⟩
  · intro id hunder
    rcases h.shown_of_settled hunder fun folderId _ => hnone folderId with hshown | ⟨_, hmem, -⟩
    · exact Option.isSome_iff_exists.2 hshown
    · cases hmem

/-- Whatever order the folders are fetched in, the tree comes to show the rows after the commit. -/
theorem follows (h : Following c t es reveal) (hfair : Fair c t.roots)
    (hfollows : Follows c.after t es reveal t') : t'.roots = t.roots ∧ Mirrors t' c.after := by
  induction hfollows with
  | done => exact ⟨rfl, h.mirrors hfair⟩
  | apply hstep _ ih =>
    obtain ⟨hnext, hroots⟩ := (h.apply hfair).of_eq_some hstep
    obtain ⟨hroots', hmirrors⟩ := ih hnext (hroots ▸ hfair)
    exact ⟨hroots'.trans hroots, hmirrors⟩
  | answer hmem hperm _ ih =>
    obtain ⟨hnext, hroots⟩ := h.answer hfair hperm hmem
    obtain ⟨hroots', hmirrors⟩ := ih hnext (hroots ▸ hfair)
    exact ⟨hroots'.trans hroots, hmirrors⟩

/-- The entries can be applied to the end and the folders fetched. -/
theorem exists_follows (h : Following c t es reveal) (hfair : Fair c t.roots) :
    ∃ t', Follows c.after t es reveal t' := by
  induction es generalizing t reveal with
  | nil =>
    induction reveal generalizing t with
    | nil => exact ⟨t, .done⟩
    | cons folderId reveal ih =>
      obtain ⟨hnext, hroots⟩ := h.answer hfair (List.Perm.refl _) List.mem_cons_self
      rw [List.erase_cons_head] at hnext
      obtain ⟨t', ht'⟩ := ih hnext (hroots ▸ hfair)
      refine ⟨t', .answer List.mem_cons_self (List.Perm.refl _) ?_⟩
      rwa [List.erase_cons_head]
  | cons change es ih =>
    obtain ⟨fuel, ⟨mid, folder⟩, hstep⟩ := (h.apply hfair).exists_eq_some
    obtain ⟨hnext, hroots⟩ := (h.apply hfair).of_eq_some hstep
    obtain ⟨t', ht'⟩ := ih hnext (hroots ▸ hfair)
    exact ⟨t', .apply hstep ht'⟩

end Following

end Staaash.Remote
