import Staaash.Remote.Proofs.OrderProofs
import Staaash.Remote.Proofs.TreeProofs

/-!
# Proofs: snapshots, and what is in scope

A snapshot of a folder lists the live items below it. Added to a tree that has nothing newer, it sets
each of them and nothing else. A folder whose parents are known up to a pair folder is in scope.
-/

namespace Staaash.Remote

open Relation
open Staaash.Library
open Staaash.Planner

variable {table : Table} {id rootId : String} {row : Row} {n : Nat}

/-! ## Snapshots -/

theorem above_of_inTree (h : inTree table rootId n id = true) :
    AtOrAbove table.liveUp id rootId := by
  induction n generalizing id with
  | zero =>
    unfold inTree at h
    simp only [Bool.or_false, decide_eq_true_eq] at h
    exact h ▸ .refl
  | succ n ih =>
    unfold inTree at h
    rw [Bool.or_eq_true, decide_eq_true_eq] at h
    rcases h with rfl | h
    · exact .refl
    · cases hfolder : table.folder id with
      | none => simp [hfolder] at h
      | some row =>
        obtain ⟨found, hget, hrow⟩ := Option.bind_eq_some_iff.1 hfolder
        rw [Option.ite_none_right_eq_some, Option.some.injEq] at hrow
        obtain ⟨-, rfl⟩ := hrow
        rw [hfolder, Bool.and_eq_true] at h
        cases hp : found.parentId with
        | none => simp [hp] at h
        | some parentId =>
          rw [hp] at h
          exact .head (liveUp_eq_some.2 ⟨found, live_eq_some.2 ⟨hget, h.1⟩, hp⟩) (ih h.2)

theorem inTree_of_above (hforest : LiveForest table) (hlive : table.live id = some row)
    (htype : row.type = .folder) (hends : endsWithin table n id = true)
    (habove : AtOrAbove table.liveUp id rootId) : inTree table rootId n id = true := by
  induction n generalizing id row with
  | zero =>
    rcases ReflTransGen.cases_head habove with rfl | ⟨parentId, hup, -⟩
    · unfold inTree
      simp
    · obtain ⟨k, hk, -⟩ := endsWithin_up hup hends
      cases hk
  | succ n ih =>
    unfold inTree
    rcases ReflTransGen.cases_head habove with rfl | ⟨parentId, hup, hrest⟩
    · simp
    · obtain ⟨k, hk, hparent⟩ := endsWithin_up hup hends
      obtain rfl := Nat.succ.inj hk
      obtain ⟨parent, hplive, hptype⟩ := hforest.inFolder id parentId hup
      obtain ⟨row', hlive', hp⟩ := liveUp_eq_some.1 hup
      obtain rfl : row' = row := Option.some.inj (hlive'.symm.trans hlive)
      rw [folder_of_live hlive htype]
      simp [(live_eq_some.1 hlive).2, hp, ih hplive hptype hparent hrest]

/-- A snapshot lists the live items below the folder. -/
theorem mem_listing (hforest : LiveForest table) (hshallow : Shallow table) {item : RemoteItem} :
    item ∈ (listing table rootId).map fromSnapshot ↔
      ∃ id row, table.live id = some row ∧ Above table.liveUp id rootId ∧
        item = fromSnapshot (snapshotItem id row) := by
  have hlisted : ∀ id row, table.get id = some row → (listed table rootId id row = true ↔
      table.live id = some row ∧ Above table.liveUp id rootId) := by
    intro id row hget
    unfold listed
    cases htype : row.type with
    | folder =>
      simp only [Bool.and_eq_true, decide_eq_true_eq]
      constructor
      · rintro ⟨hne, hin⟩
        rcases ReflTransGen.cases_head (above_of_inTree hin) with rfl | ⟨parentId, hup, hrest⟩
        · exact absurd rfl hne
        · obtain ⟨row', hlive, -⟩ := liveUp_eq_some.1 hup
          obtain rfl := Option.some.inj ((live_eq_some.1 hlive).1.symm.trans hget)
          exact ⟨hlive, TransGen.head' hup hrest⟩
      · rintro ⟨hlive, habove⟩
        refine ⟨?_, inTree_of_above hforest hlive htype (hshallow.endsWithin id)
          habove.to_reflTransGen⟩
        rintro rfl
        exact hforest.acyclic id habove
    | file =>
      simp only [Bool.and_eq_true]
      constructor
      · rintro ⟨hlive, hin⟩
        cases hp : row.parentId with
        | none => simp [hp] at hin
        | some parentId =>
          rw [hp, Option.map_some, Option.getD_some] at hin
          have hlive := live_eq_some.2 ⟨hget, hlive⟩
          exact ⟨hlive, TransGen.head' (liveUp_eq_some.2 ⟨row, hlive, hp⟩) (above_of_inTree hin)⟩
      · rintro ⟨hlive, habove⟩
        obtain ⟨parentId, hup, hrest⟩ := TransGen.head'_iff.1 habove
        obtain ⟨row', hlive', hp⟩ := liveUp_eq_some.1 hup
        obtain rfl : row' = row := Option.some.inj (hlive'.symm.trans hlive)
        obtain ⟨parent, hplive, hptype⟩ := hforest.inFolder id parentId hup
        refine ⟨(live_eq_some.1 hlive).2, ?_⟩
        rw [hp, Option.map_some, Option.getD_some]
        exact inTree_of_above hforest hplive hptype (hshallow.endsWithin parentId) hrest
  rw [listing, List.map_map, List.mem_map]
  constructor
  · rintro ⟨⟨id, row⟩, hmem, rfl⟩
    obtain ⟨hentry, hin⟩ := List.mem_filter.1 hmem
    obtain ⟨hlive, habove⟩ := (hlisted id row ((table.get_eq_some_iff id row).2 hentry)).1 hin
    exact ⟨id, row, hlive, habove, rfl⟩
  · rintro ⟨id, row, hlive, habove, rfl⟩
    have hget := (live_eq_some.1 hlive).1
    exact ⟨(id, row), List.mem_filter.2 ⟨(table.get_eq_some_iff id row).1 hget,
      (hlisted id row hget).2 ⟨hlive, habove⟩⟩, rfl⟩

namespace RemoteTree

variable {t : RemoteTree} {item : RemoteItem} {items : List RemoteItem}

@[simp] theorem roots_addUnder : (t.addUnder items).roots = t.roots := by
  induction items generalizing t with
  | nil => rfl
  | cons first items ih =>
    show (RemoteTree.addUnder (if t.takes first then t.put first else t) items).roots = t.roots
    rw [ih]
    split
    · exact roots_put
    · rfl

/-- A snapshot changes no item that it does not list. -/
theorem get_addUnder_other (hid : ∀ item ∈ items, item.id ≠ id) :
    (t.addUnder items).items.get id = t.items.get id := by
  induction items generalizing t with
  | nil => rfl
  | cons first items ih =>
    have hrest := fun item hitem => hid item (List.mem_cons_of_mem first hitem)
    show (RemoteTree.addUnder (if t.takes first then t.put first else t) items).items.get id = _
    rw [ih hrest]
    split
    · rw [get_put, if_neg (hid first List.mem_cons_self).symm]
    · rfl

/-- A snapshot without anything older than the tree has sets each of its items. -/
theorem get_addUnder (hsame : ∀ a ∈ items, ∀ b ∈ items, a.id = b.id → a = b)
    (hnew : ∀ item ∈ items, ∀ current, t.items.get item.id = some current → current.rev ≤ item.rev)
    (hitem : item ∈ items) : (t.addUnder items).items.get item.id = some item := by
  induction items generalizing t item with
  | nil => exact absurd hitem List.not_mem_nil
  | cons first items ih =>
    have htakes : t.takes first = true := by
      unfold takes
      cases hget : t.items.get first.id with
      | none => rfl
      | some current => simpa using hnew first List.mem_cons_self current hget
    have hadd : t.addUnder (first :: items) = (t.put first).addUnder items := by
      show (if t.takes first then t.put first else t).addUnder items = _
      rw [if_pos htakes]
    rw [hadd]
    by_cases hlater : ∃ other ∈ items, other.id = item.id
    · obtain ⟨other, hother, hid⟩ := hlater
      rw [hsame item hitem other (List.mem_cons_of_mem _ hother) hid.symm]
      refine ih (fun a ha b hb => hsame a (List.mem_cons_of_mem _ ha) b (List.mem_cons_of_mem _ hb))
        ?_ hother
      intro later hlater current hget
      rw [get_put] at hget
      by_cases hid : later.id = first.id
      · rw [if_pos hid, Option.some.injEq] at hget
        rw [← hget, hsame later (List.mem_cons_of_mem _ hlater) first List.mem_cons_self hid]
      · rw [if_neg hid] at hget
        exact hnew later (List.mem_cons_of_mem _ hlater) current hget
    · have hfirst : item = first := by
        rcases List.mem_cons.1 hitem with rfl | hmem
        · rfl
        · exact absurd ⟨item, hmem, rfl⟩ hlater
      rw [get_addUnder_other fun other hother hid => hlater ⟨other, hother, hid⟩, get_put, hfirst,
        if_pos rfl]

theorem WellFormed.addUnder (h : t.WellFormed) (items : List RemoteItem) :
    (t.addUnder items).WellFormed := by
  induction items generalizing t with
  | nil => exact h
  | cons item items ih =>
    show (RemoteTree.addUnder (if t.takes item then t.put item else t) items).WellFormed
    split
    · exact ih (h.put item)
    · exact ih h

/-! ## Scope -/

/-- The folder is a pair folder or one that the tree knows. -/
theorem known_of_inScope {parentId : Option String} (h : t.inScope parentId = true) :
    ∃ folderId, parentId = some folderId ∧
      (folderId ∈ t.roots ∨ ∃ folder, t.items.get folderId = some folder) := by
  cases parentId with
  | none => cases h
  | some folderId =>
    refine ⟨folderId, rfl, ?_⟩
    by_cases hroot : folderId ∈ t.roots
    · exact .inl hroot
    · cases hget : t.items.get folderId with
      | some folder => exact .inr ⟨folder, rfl⟩
      | none =>
        unfold inScope inScopeFrom at h
        rw [if_neg hroot, hget] at h
        cases h

theorem inScope_root {folderId : String} (h : folderId ∈ t.roots) : t.inScope (some folderId) = true := by
  unfold inScope inScopeFrom
  rw [if_pos h]

/-- More rounds find what fewer rounds found. -/
theorem inScopeFrom_mono {n m : Nat} (hle : n ≤ m) {parentId : Option String}
    (h : t.inScopeFrom n parentId = true) : t.inScopeFrom m parentId = true := by
  induction n generalizing m parentId with
  | zero => cases h
  | succ n ih =>
    obtain ⟨k, rfl⟩ : ∃ k, m = k + 1 := ⟨m - 1, by omega⟩
    cases parentId with
    | none => cases h
    | some folderId =>
      rw [inScopeFrom] at h ⊢
      by_cases hroot : folderId ∈ t.roots
      · rw [if_pos hroot]
      · rw [if_neg hroot] at h ⊢
        exact ih (by omega) h

end RemoteTree

end Staaash.Remote
