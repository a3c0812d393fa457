import Staaash.Library.OrderedMap
import Staaash.Pair.Proofs.CollisionsProofs
import Staaash.Planner.Proofs.NamesProofs
import Staaash.Remote.Proofs.ForestProofs
import Staaash.Remote.Scope

/-!
# Proofs: the walk through a pair folder divides what is below it

The walk is turned into the list of its rounds. Every round for an item starts a block, the rounds
below that item; the blocks of two items of one folder share neither ids nor, unless both items are
left out, keys.
-/

namespace Staaash.Remote

open Relation
open Staaash.Library
open Staaash.Planner
open Staaash.Pair (KeysByName)

namespace RemoteTree

variable {t t' : RemoteTree} {item : RemoteItem}

/-! ## The trees that the methods make -/

/-- What a put and a removal keep is true of every tree that the methods make. -/
theorem Made.of_kept {p : RemoteTree → Prop} (hempty : ∀ roots, p (empty roots))
    (hroots : ∀ t roots, p t → p (t.setRoots roots)) (hput : ∀ t item, p t → p (t.put item))
    (hremove : ∀ t t' fuel id, p t → t.removeSubtree fuel id = some t' → p t') (h : t.Made) : p t := by
  have hputAll : ∀ (items : List RemoteItem) (t : RemoteTree), p t → p (items.foldl RemoteTree.put t) := by
    intro items
    induction items with
    | nil => exact fun _ ht => ht
    | cons item items ih => exact fun t ht => ih _ (hput t item ht)
  have hknown : ∀ {t t' : RemoteTree} {fuel : Nat} {id : String}, p t →
      t.removeKnown fuel id = some t' → p t' := by
    intro t t' fuel id ht hr
    unfold RemoteTree.removeKnown at hr
    split at hr
    · exact hremove _ _ _ _ ht hr
    · exact Option.some.inj hr ▸ ht
  induction h with
  | ofStore remoteItems roots => exact hputAll remoteItems _ (hempty roots)
  | clear _ _ => exact hempty _
  | setRoots roots _ ih => exact hroots _ roots ih
  | @replaceUnder t t' fuel rootId items _ hr ih =>
    unfold RemoteTree.replaceUnder at hr
    obtain ⟨cleared, hcleared, rfl⟩ := Option.map_eq_some_iff.1 hr
    refine hputAll items _ ?_
    unfold RemoteTree.removeUnder at hcleared
    generalize t.childrenOf (some rootId) = ids at hcleared
    clear hr
    revert hcleared ih
    generalize t = u
    intro ih hcleared
    induction ids generalizing u with
    | nil => exact Option.some.inj hcleared ▸ ih
    | cons id ids ihids =>
      rw [List.foldlM_cons] at hcleared
      obtain ⟨next, hnext, hrest⟩ := Option.bind_eq_some_iff.1 hcleared
      refine ihids next ?_ hrest
      split at hnext
      · exact hremove _ _ _ _ ih hnext
      · exact Option.some.inj hnext ▸ ih
  | @addUnder t items _ ih =>
    unfold RemoteTree.addUnder
    clear * - hput ih
    induction items generalizing t with
    | nil => exact ih
    | cons item items ihitems =>
      rw [List.foldl_cons]
      refine ihitems ?_
      split
      · exact hput t item ih
      · exact ih
  | @apply t t' fuel change folderId _ hr ih =>
    unfold RemoteTree.apply at hr
    split at hr
    · cases hr
      exact ih
    · split at hr
      · cases hr
        exact ih
      · split at hr
        · obtain ⟨removed, hremoved, heq⟩ := Option.map_eq_some_iff.1 hr
          cases heq
          exact hknown ih hremoved
        · split at hr
          · obtain ⟨removed, hremoved, heq⟩ := Option.map_eq_some_iff.1 hr
            cases heq
            exact hknown ih hremoved
          · cases hr
            exact hput _ _ ih
  | @set t t' fuel item _ hr ih =>
    unfold RemoteTree.set at hr
    split at hr
    · exact hknown ih hr
    · exact Option.some.inj hr ▸ hput _ _ ih

/-- The children of a folder are kept as a set. -/
def ChildSets (t : RemoteTree) : Prop := ∀ parentId, (t.childrenOf parentId).Nodup

theorem ChildSets.unlinked (h : t.ChildSets) (id : String) : (t.unlinked id).ChildSets := by
  intro p
  unfold RemoteTree.unlinked
  split
  · next previous _ =>
    unfold detach
    split
    · exact h p
    · next siblings hsiblings =>
      have hold : (t.childrenOf previous.parentId).Nodup := h _
      rw [childrenOf, hsiblings, Option.getD_some] at hold
      show (((t.children.set previous.parentId _).get p).getD []).Nodup
      rw [OrderedMap.get_set]
      split
      · exact hold.filter _
      · exact h p
  · exact h p

theorem ChildSets.put (h : t.ChildSets) (item : RemoteItem) : (t.put item).ChildSets := by
  intro p
  have hold := (h.unlinked item.id) item.parentId
  show ((((t.unlinked item.id).children.set item.parentId
    (if item.id ∈ (t.unlinked item.id).childrenOf item.parentId then
      (t.unlinked item.id).childrenOf item.parentId
    else (t.unlinked item.id).childrenOf item.parentId ++ [item.id])).get p).getD []).Nodup
  rw [OrderedMap.get_set]
  split
  · rw [Option.getD_some]
    split
    · exact hold
    · next hnot => exact hold.append (List.nodup_singleton _) (by simpa using hnot)
  · exact h.unlinked item.id p

theorem ChildSets.drop (h : t.ChildSets) (id : String) : (t.drop id).ChildSets := by
  intro p
  show ((((t.unlinked id).children.filterKeys (· ≠ some id)).get p).getD []).Nodup
  rw [OrderedMap.get_filterKeys]
  split
  · exact h.unlinked id p
  · exact List.nodup_nil

theorem ChildSets.removeSubtree (h : t.ChildSets) {fuel : Nat} {id : String}
    (hr : t.removeSubtree fuel id = some t') : t'.ChildSets := by
  unfold RemoteTree.removeSubtree at hr
  obtain ⟨ids, -, rfl⟩ := Option.map_eq_some_iff.1 hr
  generalize ids.filter t.items.has = ids
  clear hr
  induction ids generalizing t with
  | nil => exact h
  | cons id ids ih => exact ih (h.drop id)

theorem Made.wellFormed (h : t.Made) : t.WellFormed :=
  h.of_kept wellFormed_empty (fun _ _ h => ⟨h.keyed, h.indexed⟩) (fun _ item h => h.put item)
    fun _ _ _ _ h hr => (h.removeSubtree hr).1

theorem Made.childSets (h : t.Made) : t.ChildSets :=
  h.of_kept (fun _ _ => List.nodup_nil) (fun _ _ h => h) (fun _ item h => h.put item)
    fun _ _ _ _ h hr => h.removeSubtree hr

/-! ## The items of one folder -/

variable {P : Platform} {p x y : String} {entry other : RemoteItem × Nat}

def members (t : RemoteTree) (parentId : String) : List RemoteItem :=
  (t.childrenOf (some parentId)).filterMap t.items.get

theorem WellFormed.mem_members (h : t.WellFormed) :
    item ∈ t.members p ↔ t.items.get item.id = some item ∧ t.up item.id = some p := by
  unfold members
  rw [List.mem_filterMap]
  constructor
  · rintro ⟨c, hc, hget⟩
    rw [h.keyed c item hget]
    exact ⟨hget, h.up_iff.1 hc⟩
  · rintro ⟨hget, hup⟩
    exact ⟨item.id, h.up_iff.2 hup, hget⟩

theorem WellFormed.eq_of_id_eq (h : t.WellFormed) {a b : RemoteItem} (ha : a ∈ t.members p)
    (hb : b ∈ t.members p) (hid : a.id = b.id) : a = b := by
  have hget := (h.mem_members.1 ha).1
  rw [hid, (h.mem_members.1 hb).1] at hget
  exact (Option.some.inj hget).symm

theorem WellFormed.nodup_members (h : t.WellFormed) (hsets : t.ChildSets) : (t.members p).Nodup :=
  (hsets (some p)).filterMap fun c c' item hc hc' =>
    (h.keyed c item hc).symm.trans (h.keyed c' item hc')

theorem getD_byKey (key : Rel) : ((t.byKey P p).get key).getD [] =
    (t.members p).filter fun item => P.pathKey item.name = key := by
  have hgroup : ((t.byKey P p).get key).getD [] =
      (t.members p).filter fun item => some (P.pathKey item.name) = some key :=
    @OrderedMap.getD_group Rel _ RemoteItem (fun item => some (P.pathKey item.name)) _ (fun _ _ => rfl)
      (t.members p) key
  rw [hgroup]
  simp only [Option.some.injEq]

theorem group_eq {group : Rel × List RemoteItem} (h : group ∈ (t.byKey P p).entries) :
    group.2 = (t.members p).filter fun item => P.pathKey item.name = group.1 := by
  rw [← getD_byKey, ((t.byKey P p).get_eq_some_iff _ _).2 h, Option.getD_some]

theorem mem_entriesOf :
    entry ∈ t.entriesOf P p ↔ entry.1 ∈ t.members p ∧
      entry.2 = ((t.members p).filter fun item => P.pathKey item.name = P.pathKey entry.1.name).length := by
  unfold entriesOf
  rw [List.mem_flatMap]
  constructor
  · rintro ⟨group, hgroup, hmem⟩
    obtain ⟨item, hitem, rfl⟩ := List.mem_map.1 hmem
    have heq := group_eq hgroup
    rw [heq, List.mem_filter, decide_eq_true_eq] at hitem
    refine ⟨hitem.1, ?_⟩
    show group.2.length = _
    rw [heq, hitem.2]
  · rintro ⟨hmem, hlength⟩
    have hin := getD_byKey (t := t) (P := P) (p := p) (P.pathKey entry.1.name)
    rcases hget : (t.byKey P p).get (P.pathKey entry.1.name) with _ | group
    · rw [hget, Option.getD_none, eq_comm, List.filter_eq_nil_iff] at hin
      exact absurd (decide_eq_true rfl) (hin entry.1 hmem)
    · rw [hget, Option.getD_some] at hin
      refine ⟨(_, group), ((t.byKey P p).get_eq_some_iff _ _).1 hget, List.mem_map.2 ⟨entry.1, ?_, ?_⟩⟩
      · rw [hin, List.mem_filter]
        exact ⟨hmem, decide_eq_true rfl⟩
      · exact Prod.ext rfl (by rw [hlength, ← hin])

/-- No item of a folder has two entries. -/
theorem WellFormed.pairwise_entriesOf (h : t.WellFormed) (hsets : t.ChildSets) :
    (t.entriesOf P p).Pairwise fun a b => a.1.id ≠ b.1.id := by
  have hin : ∀ group ∈ (t.byKey P p).entries, ∀ entry ∈ group.2.map (·, group.2.length),
      entry.1 ∈ t.members p ∧ P.pathKey entry.1.name = group.1 := by
    intro group hgroup entry hentry
    obtain ⟨item, hitem, rfl⟩ := List.mem_map.1 hentry
    rw [group_eq hgroup, List.mem_filter, decide_eq_true_eq] at hitem
    exact hitem
  refine List.pairwise_flatMap.2 ⟨fun group hgroup => ?_, ?_⟩
  · rw [List.pairwise_map, group_eq hgroup]
    refine (((h.nodup_members hsets).filter _).imp_of_mem fun ha hb hne hid => ?_)
    exact hne (h.eq_of_id_eq (List.mem_filter.1 ha).1 (List.mem_filter.1 hb).1 hid)
  · refine (List.pairwise_map.1 (t.byKey P p).nodup).imp_of_mem fun hg hg' hne a ha b hb hid => hne ?_
    obtain ⟨hmem, hkey⟩ := hin _ hg a ha
    obtain ⟨hmem', hkey'⟩ := hin _ hg' b hb
    rw [← hkey, ← hkey', h.eq_of_id_eq hmem hmem' hid]

/-- Items of a folder whose keys are the same are in a group of more than one. -/
theorem one_lt_of_key_eq (hentry : entry ∈ t.entriesOf P p) (hother : other ∈ t.entriesOf P p)
    (hne : entry.1.id ≠ other.1.id) (hkey : P.pathKey entry.1.name = P.pathKey other.1.name) :
    1 < entry.2 := by
  obtain ⟨hmem, hlength⟩ := mem_entriesOf.1 hentry
  have hmem' := (mem_entriesOf.1 hother).1
  have htwo : [entry.1, other.1].Nodup := by
    rw [List.nodup_cons, List.mem_singleton]
    exact ⟨fun heq => hne (congrArg _ heq), List.nodup_singleton _⟩
  have hsub : [entry.1, other.1] ⊆
      (t.members p).filter fun item => P.pathKey item.name = P.pathKey entry.1.name := by
    intro item hitem
    rw [List.mem_filter, decide_eq_true_eq]
    rcases List.mem_cons.1 hitem with rfl | hitem
    · exact ⟨hmem, rfl⟩
    · rw [List.mem_singleton.1 hitem]
      exact ⟨hmem', hkey.symm⟩
  rw [hlength]
  exact (htwo.subperm hsub).length_le

theorem WellFormed.entry_up (h : t.WellFormed) (hentry : entry ∈ t.entriesOf P p) :
    t.items.get entry.1.id = some entry.1 ∧ t.up entry.1.id = some p :=
  h.mem_members.1 (mem_entriesOf.1 hentry).1

/-- Every item of a folder has an entry. -/
theorem WellFormed.exists_entry (h : t.WellFormed) (P : Platform) (hup : t.up x = some p) :
    ∃ entry ∈ t.entriesOf P p, entry.1.id = x := by
  obtain ⟨item, hget, -⟩ := up_eq_some.1 hup
  have hid := h.keyed x item hget
  subst hid
  refine ⟨(item, ((t.members p).filter fun each => P.pathKey each.name = P.pathKey item.name).length),
    mem_entriesOf.2 ⟨h.mem_members.2 ⟨hget, hup⟩, rfl⟩, rfl⟩

/-! ## The rounds of a walk -/

variable {R : Reading} {fuel : Nat} {rel : Rel} {v w : Visit}

theorem resultOf_append (vs ws : List Visit) : resultOf (vs ++ ws) =
    ⟨(resultOf vs).items ++ (resultOf ws).items, (resultOf vs).skipped ++ (resultOf ws).skipped,
      (resultOf vs).ignored ++ (resultOf ws).ignored⟩ := by
  simp only [resultOf, List.filterMap_append]

/-- The lists with what the rounds add to them. -/
def Scoped.add (acc : Scoped) (vs : List Visit) : Scoped :=
  ⟨acc.items ++ (resultOf vs).items, acc.skipped ++ (resultOf vs).skipped,
    acc.ignored ++ (resultOf vs).ignored⟩

theorem Scoped.add_append (acc : Scoped) (vs ws : List Visit) :
    acc.add (vs ++ ws) = (acc.add vs).add ws := by
  simp only [Scoped.add, resultOf_append, List.append_assoc]

/-- A round by the fate of its item. -/
theorem visit_fate {walk : String → Rel → Scoped → Option Scoped} {acc : Scoped} :
    visit R walk rel acc entry =
      match fateOf R (joinRel rel entry.1.name) entry with
      | .ignored => some { acc with ignored := acc.ignored ++ [⟨joinRel rel entry.1.name, entry.1⟩] }
      | .skipped reason =>
        some { acc with skipped := acc.skipped ++ [⟨joinRel rel entry.1.name, entry.1, reason⟩] }
      | .kept =>
        let acc := { acc with items := acc.items ++ [⟨joinRel rel entry.1.name, entry.1⟩] }
        if entry.1.type = .folder then walk entry.1.id (joinRel rel entry.1.name) acc else some acc := by
  obtain ⟨item, n⟩ := entry
  simp only [visit, fateOf]
  by_cases hout : (R.ignore item.name || R.leftOut item.id (joinRel rel item.name)) = true
  · rw [if_pos hout, if_pos hout]
  · rw [if_neg hout, if_neg hout]
    rcases (invalidNameReason R.windows item.name).or _ with _ | reason
    · rfl
    · rfl

theorem visit_eq {walk : String → Rel → Scoped → Option Scoped} {rounds : String → Rel → List Visit}
    (hwalk : ∀ id rel acc s, walk id rel acc = some s → s = acc.add (rounds id rel))
    {acc s : Scoped} (hv : visit R walk rel acc entry = some s) :
    s = acc.add (block R rounds rel entry) := by
  rw [visit_fate] at hv
  unfold block
  cases hfate : fateOf R (joinRel rel entry.1.name) entry with
  | ignored =>
    rw [hfate] at hv
    cases hv
    simp [hfate, Scoped.add, resultOf]
  | skipped reason =>
    rw [hfate] at hv
    cases hv
    simp [hfate, Scoped.add, resultOf]
  | kept =>
    rw [hfate] at hv
    by_cases hfolder : entry.1.type = .folder
    · rw [hwalk _ _ _ _ ((if_pos hfolder).symm.trans hv)]
      simp [hfate, hfolder, Scoped.add, resultOf]
    · cases (if_neg hfolder).symm.trans hv
      simp [hfate, hfolder, Scoped.add, resultOf]

theorem foldlM_visit_eq {walk : String → Rel → Scoped → Option Scoped}
    {rounds : String → Rel → List Visit}
    (hwalk : ∀ id rel acc s, walk id rel acc = some s → s = acc.add (rounds id rel))
    {entries : List (RemoteItem × Nat)} {acc s : Scoped}
    (hs : entries.foldlM (visit R walk rel) acc = some s) :
    s = acc.add (entries.flatMap (block R rounds rel)) := by
  induction entries generalizing acc with
  | nil =>
    cases hs
    simp [Scoped.add, resultOf]
  | cons entry entries ih =>
    rw [List.foldlM_cons] at hs
    obtain ⟨next, hnext, hrest⟩ := Option.bind_eq_some_iff.1 hs
    rw [List.flatMap_cons, Scoped.add_append, ← visit_eq hwalk hnext]
    exact ih hrest

/-- The walk adds to the lists what its rounds say. -/
theorem scopeFrom_eq {acc s : Scoped} (hs : t.scopeFrom R fuel p rel acc = some s) :
    s = acc.add (t.visits R fuel p rel) := by
  induction fuel generalizing p rel acc s with
  | zero => cases hs
  | succ fuel ih =>
    unfold scopeFrom at hs
    exact foldlM_visit_eq (fun _ _ _ _ h => ih h) hs

theorem mem_visits : v ∈ t.visits R (fuel + 1) p rel ↔
    ∃ entry ∈ t.entriesOf R.platform p, v ∈ block R (t.visits R fuel) rel entry := List.mem_flatMap

/-- A block holds the round for its item, and the rounds below it when the item is a kept folder. -/
theorem mem_block {rounds : String → Rel → List Visit} :
    v ∈ block R rounds rel entry ↔
      v = ⟨joinRel rel entry.1.name, entry.1, fateOf R (joinRel rel entry.1.name) entry⟩ ∨
        (fateOf R (joinRel rel entry.1.name) entry = .kept ∧ entry.1.type = .folder ∧
          v ∈ rounds entry.1.id (joinRel rel entry.1.name)) := by
  unfold block
  rw [List.mem_cons]
  refine or_congr_right ?_
  split
  · next h => simp [h]
  · next h =>
    simp only [List.not_mem_nil, false_iff]
    exact fun hall => h ⟨hall.1, hall.2.1⟩

theorem visits_known (h : t.WellFormed) (hv : v ∈ t.visits R fuel p rel) :
    t.items.get v.item.id = some v.item ∧ Above t.up v.item.id p := by
  induction fuel generalizing p rel with
  | zero => cases hv
  | succ fuel ih =>
    obtain ⟨entry, hentry, hv⟩ := mem_visits.1 hv
    obtain ⟨hget, hup⟩ := h.entry_up hentry
    rcases mem_block.1 hv with rfl | ⟨-, -, hv⟩
    · exact ⟨hget, .single hup⟩
    · obtain ⟨hget, habove⟩ := ih hv
      exact ⟨hget, habove.tail hup⟩

/-- The rounds of a block are for its item and what is below it. -/
theorem block_atOrAbove (h : t.WellFormed) (hv : v ∈ block R (t.visits R fuel) rel entry) :
    AtOrAbove t.up v.item.id entry.1.id := by
  rcases mem_block.1 hv with rfl | ⟨-, -, hv⟩
  · exact .refl
  · exact (visits_known h hv).2.to_reflTransGen

/-- What is at or below two items of one folder makes them one. -/
theorem eq_of_siblings (hacyclic : Acyclic t.up) {a b : String} (ha : t.up a = some p)
    (hb : t.up b = some p) (hxa : AtOrAbove t.up x a) (hxb : AtOrAbove t.up x b) : a = b := by
  have hunique : Relator.RightUnique fun x y => t.up x = some y := fun _ _ _ h h' =>
    Option.some.inj (h.symm.trans h')
  have hnot : ∀ {c d : String}, t.up c = some p → t.up d = some p → AtOrAbove t.up c d → c = d := by
    intro c d hc hd hcd
    rcases ReflTransGen.cases_head hcd with rfl | ⟨e, he, hed⟩
    · rfl
    · cases hunique hc he
      exact absurd (TransGen.tail' hed hd) (hacyclic p)
  rcases ReflTransGen.total_of_right_unique hunique hxa hxb with hab | hba
  · exact hnot ha hb hab
  · exact (hnot hb ha hba).symm

section Rounds

variable (h : t.WellFormed) (hsets : t.ChildSets) (hacyclic : Acyclic t.up)

include h hsets hacyclic

/-- The blocks of a folder's items are apart. -/
theorem block_unique (hentry : entry ∈ t.entriesOf R.platform p)
    (hother : other ∈ t.entriesOf R.platform p) (hx : AtOrAbove t.up x entry.1.id)
    (hx' : AtOrAbove t.up x other.1.id) : entry = other := by
  have hid := eq_of_siblings hacyclic (h.entry_up hentry).2 (h.entry_up hother).2 hx hx'
  exact List.inj_on_of_nodup_map (f := (·.1.id)) (List.pairwise_map.2 (h.pairwise_entriesOf hsets))
    hentry hother hid

/-- No item has two rounds. -/
theorem pairwise_visits : (t.visits R fuel p rel).Pairwise fun v w => v.item.id ≠ w.item.id := by
  induction fuel generalizing p rel with
  | zero => exact .nil
  | succ fuel ih =>
    refine List.pairwise_flatMap.2 ⟨fun entry hentry => ?_, ?_⟩
    · unfold block
      refine List.pairwise_cons.2 ⟨fun w hw hid => ?_, ?_⟩
      · have hw : w ∈ t.visits R fuel entry.1.id (joinRel rel entry.1.name) := by
          split at hw
          · exact hw
          · cases hw
        have habove := (visits_known h hw).2
        rw [← hid] at habove
        exact hacyclic _ habove
      · split
        · exact ih
        · exact .nil
    · refine (h.pairwise_entriesOf hsets).imp_of_mem fun hentry hother hne v hv w hw hid => hne ?_
      have hat := block_atOrAbove h hw
      rw [← hid] at hat
      rw [block_unique h hsets hacyclic hentry hother (block_atOrAbove h hv) hat]

/-- Nothing below an item that is left out has a round. -/
theorem not_above_leftOut (hv : v ∈ t.visits R fuel p rel) (hw : w ∈ t.visits R fuel p rel)
    (hfate : w.fate ≠ .kept) : ¬ Above t.up v.item.id w.item.id := by
  intro habove
  induction fuel generalizing p rel with
  | zero => cases hv
  | succ fuel ih =>
    obtain ⟨entry, hentry, hv⟩ := mem_visits.1 hv
    obtain ⟨other, hother, hw⟩ := mem_visits.1 hw
    have hat := block_atOrAbove h hv
    cases block_unique h hsets hacyclic hentry hother hat
      (habove.to_reflTransGen.trans (block_atOrAbove h hw))
    rcases mem_block.1 hw with rfl | ⟨-, -, hw⟩
    · rcases mem_block.1 hv with rfl | ⟨hkept, -, -⟩
      · exact hacyclic _ habove
      · exact hfate hkept
    · rcases mem_block.1 hv with rfl | ⟨-, -, hv⟩
      · exact hacyclic _ (habove.trans (visits_known h hw).2)
      · exact ih hv hw

end Rounds

theorem Named.below (hnamed : t.Named p) (hup : t.up x = some p) : t.Named x where
  name y item hget habove := hnamed.name y item hget (habove.tail hup)
  inFolder y z item hyz habove := hnamed.inFolder y z item hyz (habove.tail hup)

/-- A walk that ends has ended in every folder it went to. -/
theorem scopeFrom_ends {acc s : Scoped} (hs : t.scopeFrom R (fuel + 1) p rel acc = some s)
    (hentry : entry ∈ t.entriesOf R.platform p)
    (hkept : fateOf R (joinRel rel entry.1.name) entry = .kept) (hfolder : entry.1.type = .folder) :
    ∃ acc s, t.scopeFrom R fuel entry.1.id (joinRel rel entry.1.name) acc = some s := by
  unfold scopeFrom at hs
  generalize t.entriesOf R.platform p = entries at hs hentry
  induction entries generalizing acc with
  | nil => cases hentry
  | cons first entries ih =>
    rw [List.foldlM_cons] at hs
    obtain ⟨next, hnext, hrest⟩ := Option.bind_eq_some_iff.1 hs
    rcases List.mem_cons.1 hentry with rfl | hentry
    · rw [visit_fate, hkept] at hnext
      exact ⟨_, next, (if_pos hfolder).symm.trans hnext⟩
    · exact ih hrest hentry

/-- When the walk ends, every item below the folder has a round or is below one that is left out. -/
theorem visits_cover (h : t.WellFormed) (hnamed : t.Named p)
    {acc s : Scoped} (hs : t.scopeFrom R fuel p rel acc = some s) (hx : Above t.up x p) :
    ∃ v ∈ t.visits R fuel p rel, v.item.id = x ∨ (v.fate ≠ .kept ∧ Above t.up x v.item.id) := by
  induction fuel generalizing p rel acc s with
  | zero => cases hs
  | succ fuel ih =>
    obtain ⟨c, hxc, hc⟩ := TransGen.tail'_iff.1 hx
    obtain ⟨entry, hentry, rfl⟩ := h.exists_entry R.platform hc
    have hfirst : ∀ rounds : String → Rel → List Visit, (⟨joinRel rel entry.1.name, entry.1,
        fateOf R (joinRel rel entry.1.name) entry⟩ : Visit) ∈ block R rounds rel entry :=
      fun _ => mem_block.2 (.inl rfl)
    rcases reflTransGen_iff_eq_or_transGen.1 hxc with hid | hbelow
    · exact ⟨_, mem_visits.2 ⟨entry, hentry, hfirst _⟩, .inl hid⟩
    · by_cases hkept : fateOf R (joinRel rel entry.1.name) entry = .kept
      · obtain ⟨y, -, hy⟩ := TransGen.tail'_iff.1 hbelow
        have hfolder : entry.1.type = .folder :=
          hnamed.inFolder y entry.1.id entry.1 hy (.single hc) (h.entry_up hentry).1
        obtain ⟨acc', s', hs'⟩ := scopeFrom_ends hs hentry hkept hfolder
        obtain ⟨v, hv, hat⟩ := ih (hnamed.below hc) hs' hbelow
        exact ⟨v, mem_visits.2 ⟨entry, hentry, mem_block.2 (.inr ⟨hkept, hfolder, hv⟩)⟩, hat⟩
      · exact ⟨_, mem_visits.2 ⟨entry, hentry, hfirst _⟩, .inr ⟨hkept, hbelow⟩⟩

/-! ## Paths and keys -/

theorem joinRel_eq (rel name : Rel) :
    joinRel rel name = (if rel = [] then [] else rel ++ ['/']) ++ name := by
  unfold joinRel
  split <;> simp

theorem parentRel_joinRel {name : Rel} (hname : '/' ∉ name) : parentRel (joinRel rel name) = rel := by
  unfold joinRel
  split
  · next hrel => rw [parentRel_of_noSlash hname, hrel]
  · exact parentRel_of_slash hname

theorem joinRel_ne_nil {name : Rel} (hname : name ≠ []) : joinRel rel name ≠ [] := by
  rw [joinRel_eq]
  exact fun hnil => hname (List.append_eq_nil_iff.1 hnil).2

/-- A name ends where the path has its next slash. -/
theorem eq_of_atOrBelow {front a b k : Rel} (ha : '/' ∉ a) (hb : '/' ∉ b)
    (hka : AtOrBelow (front ++ a) k) (hkb : AtOrBelow (front ++ b) k) : a = b := by
  have hcut : ∀ {name : Rel}, '/' ∉ name → AtOrBelow (front ++ name) k →
      (k.drop front.length).takeWhile (· ≠ '/') = name := by
    intro name hname hk
    have hall : ∀ c ∈ name, decide (c ≠ '/') = true := fun c hc =>
      decide_eq_true fun heq => hname (heq ▸ hc)
    rcases hk with rfl | ⟨rest, rfl⟩
    · rw [List.drop_left, List.takeWhile_eq_self_iff.2 hall]
    · rw [List.append_assoc, List.drop_left, List.takeWhile_append_of_pos hall]
      simp
  rw [← hcut ha hka, hcut hb hkb]

theorem atOrBelow_trans {a b c : Rel} (hab : AtOrBelow a b) (hbc : AtOrBelow b c) : AtOrBelow a c := by
  rcases hab with rfl | hab
  · exact hbc
  · rcases hbc with rfl | hbc
    · exact .inr hab
    · exact .inr (hab.trans hbc)

theorem not_atOrBelow_of_below {a b : Rel} (h : Below a b) : ¬AtOrBelow b a := by
  rintro (heq | hba)
  · exact h.ne heq
  · exact h.ne (by have := h.length_lt; have := hba.length_lt; omega)

theorem below_pathKey (hP : KeysByName P) {a b : Rel} (h : Below a b) :
    Below (P.pathKey a) (P.pathKey b) := by
  obtain ⟨rest, rfl⟩ := h
  exact ⟨P.pathKey rest, hP.join a rest⟩

theorem pathKey_joinRel (hP : KeysByName P) (rel : Rel) :
    ∃ front, ∀ name, P.pathKey (joinRel rel name) = front ++ P.pathKey name := by
  by_cases hrel : rel = []
  · exact ⟨[], fun name => by rw [joinRel, if_pos hrel, List.nil_append]⟩
  · refine ⟨P.pathKey rel ++ ['/'], fun name => ?_⟩
    rw [joinRel, if_neg hrel, hP.join, List.append_assoc, List.singleton_append]

section Paths

variable (h : t.WellFormed) (hnamed : t.Named p)

include h hnamed

theorem entry_name (hentry : entry ∈ t.entriesOf R.platform p) :
    entry.1.name ≠ [] ∧ '/' ∉ entry.1.name :=
  hnamed.name _ _ (h.entry_up hentry).1 (.single (h.entry_up hentry).2)

/-- The rounds of a walk are for paths below the folder's. -/
theorem visits_below (hv : v ∈ t.visits R fuel p rel) (hrel : rel ≠ []) : Below rel v.rel := by
  induction fuel generalizing p rel with
  | zero => cases hv
  | succ fuel ih =>
    obtain ⟨entry, hentry, hv⟩ := mem_visits.1 hv
    have hfirst : Below rel (joinRel rel entry.1.name) :=
      ⟨entry.1.name, by rw [joinRel, if_neg hrel]⟩
    rcases mem_block.1 hv with rfl | ⟨-, -, hv⟩
    · exact hfirst
    · exact hfirst.trans (ih (hnamed.below (h.entry_up hentry).2) hv
        (joinRel_ne_nil (entry_name h hnamed hentry).1))

/-- The rounds below a kept folder are for paths below its own. -/
theorem block_below (hentry : entry ∈ t.entriesOf R.platform p)
    (hv : v ∈ t.visits R fuel entry.1.id (joinRel rel entry.1.name)) :
    Below (joinRel rel entry.1.name) v.rel :=
  visits_below h (hnamed.below (h.entry_up hentry).2) hv
    (joinRel_ne_nil (entry_name h hnamed hentry).1)

variable (hP : KeysByName R.platform)

include hP

theorem block_atOrBelow (hentry : entry ∈ t.entriesOf R.platform p)
    (hv : v ∈ block R (t.visits R fuel) rel entry) :
    AtOrBelow (R.platform.pathKey (joinRel rel entry.1.name)) (R.platform.pathKey v.rel) := by
  rcases mem_block.1 hv with rfl | ⟨-, -, hv⟩
  · exact .inl rfl
  · exact .inr (below_pathKey hP (block_below h hnamed hentry hv))

omit h hnamed hP in
theorem fateOf_ne_kept (hone : 1 < entry.2) : fateOf R rel entry ≠ .kept := by
  unfold fateOf
  rw [if_pos (show entry.2 > 1 from hone)]
  split
  · exact fun hkept => by cases hkept
  · cases invalidNameReason R.windows entry.1.name <;> exact fun hkept => by cases hkept

/-- A kept item has its block of keys for itself. -/
theorem block_key_unique (hentry : entry ∈ t.entriesOf R.platform p)
    (hother : other ∈ t.entriesOf R.platform p) (hne : entry.1.id ≠ other.1.id)
    (hkept : fateOf R (joinRel rel entry.1.name) entry = .kept) {k : Rel}
    (hk : AtOrBelow (R.platform.pathKey (joinRel rel entry.1.name)) k)
    (hk' : AtOrBelow (R.platform.pathKey (joinRel rel other.1.name)) k) : False := by
  obtain ⟨front, hfront⟩ := pathKey_joinRel hP rel
  rw [hfront] at hk hk'
  have hkey := eq_of_atOrBelow (hP.noSlash _ (entry_name h hnamed hentry).2)
    (hP.noSlash _ (entry_name h hnamed hother).2) hk hk'
  have hone := one_lt_of_key_eq hentry hother hne hkey
  exact fateOf_ne_kept hone hkept

/-- Where a kept item's key lies at or below another one, it lies below it and that one is kept too. -/
theorem visits_keys (hsets : t.ChildSets) (hv : v ∈ t.visits R fuel p rel)
    (hw : w ∈ t.visits R fuel p rel) (hkept : v.fate = .kept) (hne : v.item.id ≠ w.item.id)
    (hat : AtOrBelow (R.platform.pathKey w.rel) (R.platform.pathKey v.rel)) :
    w.fate = .kept ∧ Below (R.platform.pathKey w.rel) (R.platform.pathKey v.rel) := by
  induction fuel generalizing p rel with
  | zero => cases hv
  | succ fuel ih =>
    obtain ⟨entry, hentry, hv⟩ := mem_visits.1 hv
    obtain ⟨other, hother, hw⟩ := mem_visits.1 hw
    have hentryKept : fateOf R (joinRel rel entry.1.name) entry = .kept := by
      rcases mem_block.1 hv with rfl | ⟨hkept, -, -⟩
      · exact hkept
      · exact hkept
    by_cases hid : entry.1.id = other.1.id
    · cases List.inj_on_of_nodup_map (f := (·.1.id))
        (List.pairwise_map.2 (h.pairwise_entriesOf hsets)) hentry hother hid
      rcases mem_block.1 hw with rfl | ⟨-, -, hw⟩
      · rcases mem_block.1 hv with rfl | ⟨-, -, hv⟩
        · exact absurd rfl hne
        · exact ⟨hentryKept, below_pathKey hP (block_below h hnamed hentry hv)⟩
      · rcases mem_block.1 hv with rfl | ⟨-, -, hv⟩
        · exact absurd hat (not_atOrBelow_of_below
            (below_pathKey hP (block_below h hnamed hentry hw)))
        · exact ih (hnamed.below (h.entry_up hentry).2) hv hw
    · exact (block_key_unique h hnamed hP hentry hother hid hentryKept
        (block_atOrBelow h hnamed hP hentry hv)
        (atOrBelow_trans (block_atOrBelow h hnamed hP hother hw) hat)).elim

omit hnamed hP in
/-- An item lies in the folder of the walk, or in a folder that the walk has kept. -/
theorem visits_parent (hv : v ∈ t.visits R fuel p rel) :
    (v.item.parentId = some p ∧ v.rel = joinRel rel v.item.name) ∨
      ∃ w ∈ t.visits R fuel p rel, w.fate = .kept ∧ w.item.type = .folder ∧
        v.item.parentId = some w.item.id ∧ v.rel = joinRel w.rel v.item.name := by
  induction fuel generalizing p rel with
  | zero => cases hv
  | succ fuel ih =>
    obtain ⟨entry, hentry, hv⟩ := mem_visits.1 hv
    rcases mem_block.1 hv with rfl | ⟨hkept, hfolder, hv⟩
    · obtain ⟨hget, hup⟩ := h.entry_up hentry
      refine .inl ⟨?_, rfl⟩
      rw [up, hget] at hup
      exact hup
    · have hin : ∀ w ∈ block R (t.visits R fuel) rel entry, w ∈ t.visits R (fuel + 1) p rel :=
        fun w hw => mem_visits.2 ⟨entry, hentry, hw⟩
      rcases ih hv with ⟨hparent, hrel⟩ | ⟨w, hw, hrest⟩
      · exact .inr ⟨_, hin _ (mem_block.2 (.inl rfl)), hkept, hfolder, hparent, hrel⟩
      · exact .inr ⟨w, hin _ (mem_block.2 (.inr ⟨hkept, hfolder, hw⟩)), hrest⟩

end Paths

/-! ## The lists of a walk -/

section Lists

variable {vs : List Visit} {each : ScopedItem}

theorem mem_items : each ∈ (resultOf vs).items ↔
    ∃ v ∈ vs, v.fate = .kept ∧ each = ⟨v.rel, v.item⟩ := by
  simp only [resultOf, List.mem_filterMap]
  refine exists_congr fun v => and_congr_right fun _ => ?_
  cases v.fate <;> simp [eq_comm]

theorem mem_skipped {each : SkippedItem} : each ∈ (resultOf vs).skipped ↔
    ∃ v ∈ vs, ∃ reason, v.fate = .skipped reason ∧ each = ⟨v.rel, v.item, reason⟩ := by
  simp only [resultOf, List.mem_filterMap]
  refine exists_congr fun v => and_congr_right fun _ => ?_
  cases v.fate <;> simp [eq_comm]

theorem mem_ignored : each ∈ (resultOf vs).ignored ↔
    ∃ v ∈ vs, v.fate = .ignored ∧ each = ⟨v.rel, v.item⟩ := by
  simp only [resultOf, List.mem_filterMap]
  refine exists_congr fun v => and_congr_right fun _ => ?_
  cases v.fate <;> simp [eq_comm]

theorem mem_leftOut : each ∈ (resultOf vs).leftOut ↔
    ∃ v ∈ vs, v.fate ≠ .kept ∧ each = ⟨v.rel, v.item⟩ := by
  unfold Scoped.leftOut
  rw [List.mem_append, List.mem_map, mem_ignored]
  constructor
  · rintro (⟨out, hout, rfl⟩ | ⟨v, hv, hfate, heq⟩)
    · obtain ⟨v, hv, reason, hfate, rfl⟩ := mem_skipped.1 hout
      exact ⟨v, hv, by simp [hfate], rfl⟩
    · exact ⟨v, hv, by simp [hfate], heq⟩
  · rintro ⟨v, hv, hfate, rfl⟩
    rcases hv' : v.fate with _ | reason | _
    · exact absurd hv' hfate
    · exact .inl ⟨_, mem_skipped.2 ⟨v, hv, reason, hv', rfl⟩, rfl⟩
    · exact .inr ⟨v, hv, hv', rfl⟩

theorem mem_listed : each ∈ (resultOf vs).listed ↔ ∃ v ∈ vs, each = ⟨v.rel, v.item⟩ := by
  unfold Scoped.listed
  rw [List.mem_append, mem_items, mem_leftOut]
  constructor
  · rintro (⟨v, hv, -, heq⟩ | ⟨v, hv, -, heq⟩) <;> exact ⟨v, hv, heq⟩
  · rintro ⟨v, hv, heq⟩
    by_cases hkept : v.fate = .kept
    · exact .inl ⟨v, hv, hkept, heq⟩
    · exact .inr ⟨v, hv, hkept, heq⟩

/-- The lists hold the rounds, each once. -/
theorem listed_perm (vs : List Visit) :
    (resultOf vs).listed.Perm (vs.map fun v => ⟨v.rel, v.item⟩) := by
  induction vs with
  | nil => rfl
  | cons v vs ih =>
    rw [List.map_cons]
    refine .trans ?_ (ih.cons _)
    rcases hfate : v.fate with _ | reason | _
    · simp [Scoped.listed, Scoped.leftOut, resultOf, hfate]
    · simp [Scoped.listed, Scoped.leftOut, resultOf, hfate, List.perm_middle]
    · simp only [Scoped.listed, Scoped.leftOut, resultOf, List.filterMap_cons, hfate, ← List.append_assoc]
      exact List.perm_middle

/-- The list that a round adds to. -/
def Fate.place : Fate → Place
  | .kept => .items
  | .skipped _ => .skipped
  | .ignored => .ignored

theorem puts_of_mem (hv : v ∈ vs) : (resultOf vs).Puts t v.item.id v.fate.place := by
  rcases hfate : v.fate with _ | reason | _
  · exact ⟨_, mem_items.2 ⟨v, hv, hfate, rfl⟩, rfl⟩
  · exact ⟨_, mem_skipped.2 ⟨v, hv, reason, hfate, rfl⟩, rfl⟩
  · exact ⟨_, mem_ignored.2 ⟨v, hv, hfate, rfl⟩, rfl⟩

theorem puts_cases {place : Place} (hputs : (resultOf vs).Puts t x place) :
    (∃ v ∈ vs, v.item.id = x ∧ place = v.fate.place) ∨
      (place = .below ∧ ∃ v ∈ vs, v.fate ≠ .kept ∧ Above t.up x v.item.id) := by
  cases place with
  | items =>
    obtain ⟨each, heach, rfl⟩ := hputs
    obtain ⟨v, hv, hfate, rfl⟩ := mem_items.1 heach
    exact .inl ⟨v, hv, rfl, by rw [hfate]; rfl⟩
  | skipped =>
    obtain ⟨each, heach, rfl⟩ := hputs
    obtain ⟨v, hv, reason, hfate, rfl⟩ := mem_skipped.1 heach
    exact .inl ⟨v, hv, rfl, by rw [hfate]; rfl⟩
  | ignored =>
    obtain ⟨each, heach, rfl⟩ := hputs
    obtain ⟨v, hv, hfate, rfl⟩ := mem_ignored.1 heach
    exact .inl ⟨v, hv, rfl, by rw [hfate]; rfl⟩
  | below =>
    obtain ⟨each, heach, habove⟩ := hputs
    obtain ⟨v, hv, hfate, rfl⟩ := mem_leftOut.1 heach
    exact .inr ⟨rfl, v, hv, hfate, habove⟩

end Lists

/-- The rounds of a walk that ends divide what is below the folder. -/
theorem partitions_visits (h : t.WellFormed) (hsets : t.ChildSets) (hacyclic : Acyclic t.up)
    (hP : KeysByName R.platform) (hnamed : t.Named p) {acc s : Scoped}
    (hs : t.scopeFrom R fuel p [] acc = some s) :
    (resultOf (t.visits R fuel p [])).Partitions R.platform t p := by
  have honce : ((t.visits R fuel p []).map (·.item.id)).Nodup :=
    List.pairwise_map.2 (pairwise_visits h hsets hacyclic)
  have hlisted : ((resultOf (t.visits R fuel p [])).listed.map (·.item.id)).Nodup := by
    refine ((listed_perm _).map _).nodup_iff.2 ?_
    rw [List.map_map]
    exact honce
  have hsame : ∀ v ∈ t.visits R fuel p [], ∀ w ∈ t.visits R fuel p [], v.item.id = w.item.id → v = w :=
    fun v hv w hw hid => List.inj_on_of_nodup_map honce hv hw hid
  have hapart : ∀ each ∈ (resultOf (t.visits R fuel p [])).items,
      ∀ out ∈ (resultOf (t.visits R fuel p [])).leftOut,
      ¬AtOrBelow (R.platform.pathKey out.rel) (R.platform.pathKey each.rel) := by
    intro each heach out hout hat
    obtain ⟨v, hv, hkept, rfl⟩ := mem_items.1 heach
    obtain ⟨w, hw, hfate, rfl⟩ := mem_leftOut.1 hout
    have hne : v.item.id ≠ w.item.id := fun hid => hfate (hsame v hv w hw hid ▸ hkept)
    exact hfate (visits_keys h hnamed hP hsets hv hw hkept hne hat).1
  refine ⟨?_, hlisted, ?_, ?_, ?_, hapart, ?_⟩
  · intro each heach
    obtain ⟨v, hv, rfl⟩ := mem_listed.1 heach
    exact visits_known h hv
  · intro x item _ hx
    obtain ⟨v, hv, rfl | ⟨hfate, habove⟩⟩ := visits_cover h hnamed hs hx
    · refine ⟨v.fate.place, puts_of_mem hv, fun place hputs => ?_⟩
      rcases puts_cases hputs with ⟨w, hw, hid, rfl⟩ | ⟨rfl, w, hw, hfate, habove⟩
      · rw [hsame w hw v hv hid]
      · exact absurd habove (not_above_leftOut h hsets hacyclic hv hw hfate)
    · refine ⟨.below, ⟨_, mem_leftOut.2 ⟨v, hv, hfate, rfl⟩, habove⟩, fun place hputs => ?_⟩
      rcases puts_cases hputs with ⟨w, hw, rfl, -⟩ | ⟨rfl, -⟩
      · exact absurd habove (not_above_leftOut h hsets hacyclic hw hv hfate)
      · rfl
  · have hitems : ((resultOf (t.visits R fuel p [])).items.map (·.item.id)).Nodup :=
      hlisted.sublist ((List.sublist_append_left _ _).map _)
    refine hitems.of_map.map_on fun a ha b hb heq => ?_
    obtain ⟨v, hv, hkept, rfl⟩ := mem_items.1 ha
    obtain ⟨w, hw, -, rfl⟩ := mem_items.1 hb
    by_cases hid : v.item.id = w.item.id
    · rw [hsame v hv w hw hid]
    · exact absurd heq.symm (visits_keys h hnamed hP hsets hv hw hkept hid (.inl heq)).2.ne
  · intro each heach out hout hbelow
    exact hapart each heach out hout (.inr (below_pathKey hP hbelow))
  · intro each heach
    obtain ⟨v, hv, hfate, rfl⟩ := mem_items.1 heach
    obtain ⟨hget, habove⟩ := visits_known h hv
    have hname := (hnamed.name _ _ hget habove).2
    rcases visits_parent h hv with ⟨hparent, hrel⟩ | ⟨w, hw, hkept, hfolder, hparent, hrel⟩
    · refine .inl ⟨hparent, ?_⟩
      rw [hrel, parentRel_joinRel hname]
    · refine .inr ⟨_, mem_items.2 ⟨w, hw, hkept, rfl⟩, hfolder, hparent, ?_⟩
      rw [hrel, parentRel_joinRel hname]

/-- In every tree that the methods make and that has no cycle, the walk ends, and where the names below
the folder are names its lists divide what is below it. -/
theorem scope_partitions (R : Reading) (rootId : String) (hP : KeysByName R.platform) (hmade : t.Made)
    (hacyclic : Acyclic t.up) (hnamed : t.Named rootId) :
    ∃ n, ∀ fuel ≥ n, ∃ s, t.scope fuel R rootId = some s ∧ s.Partitions R.platform t rootId := by
  obtain ⟨n, hn⟩ := hmade.wellFormed.scope_ends hacyclic R rootId
  refine ⟨n, fun fuel hfuel => ?_⟩
  obtain ⟨s, hs⟩ := Option.isSome_iff_exists.1 (hn fuel hfuel)
  refine ⟨s, hs, ?_⟩
  have hlists : s = resultOf (t.visits R fuel rootId []) := by
    rw [scopeFrom_eq hs]
    simp only [Scoped.add, List.nil_append]
  rw [hlists]
  exact partitions_visits hmade.wellFormed hmade.childSets hacyclic hP hnamed hs

/-! ## Concrete trees -/

section Trees

/-- A computer that folds names to lower case, and leaves nothing out. -/
def foldingReading : Reading where
  platform := Staaash.Pair.folding
  windows := false
  ignore _ := false
  leftOut _ _ := false

def storedItem (id : String) (type : ItemType) (parentId : String) (name : String) : RemoteItem :=
  ⟨id, type, some parentId, name.toList, none, none, 1, none⟩

theorem acyclic_of_entries (rank : String → Nat)
    (hrank : ∀ entry ∈ t.items.entries, ∀ y ∈ entry.2.parentId, rank y < rank entry.1) :
    Acyclic t.up := by
  refine acyclic_of_rank rank fun x y hup => ?_
  obtain ⟨item, hget, hparent⟩ := up_eq_some.1 hup
  exact hrank (x, item) ((t.items.get_eq_some_iff x item).1 hget) y hparent

theorem named_of_entries
    (hname : ∀ entry ∈ t.items.entries, entry.2.name ≠ [] ∧ '/' ∉ entry.2.name)
    (hfolder : ∀ entry ∈ t.items.entries, ∀ above ∈ t.items.entries,
      entry.2.parentId = some above.1 → above.2.type = .folder) (rootId : String) :
    t.Named rootId where
  name x item hget _ := hname (x, item) ((t.items.get_eq_some_iff x item).1 hget)
  inFolder x y item hup _ hget := by
    obtain ⟨below, hbelow, hparent⟩ := up_eq_some.1 hup
    exact hfolder (x, below) ((t.items.get_eq_some_iff x below).1 hbelow) (y, item)
      ((t.items.get_eq_some_iff y item).1 hget) hparent

/-- Ids by how deep the item lies. -/
def rankOf (id : String) : Nat := if id = "root" then 0 else if id = "a" then 1 else 2

/-- A folder with a note in it, and next to it two notes of one name. -/
def notesTree : RemoteTree :=
  .ofStore [storedItem "a" .folder "root" "Docs", storedItem "b" .file "a" "note",
    storedItem "c" .file "root" "Note", storedItem "d" .file "root" "note"] ["root"]

theorem scope_partitions_notes :
    KeysByName foldingReading.platform ∧ notesTree.Made ∧ Acyclic notesTree.up ∧
      notesTree.Named "root" ∧
      ∃ n, ∀ fuel ≥ n, ∃ s, notesTree.scope fuel foldingReading "root" = some s ∧
        s.Partitions foldingReading.platform notesTree "root" := by
  have hP : KeysByName foldingReading.platform := Staaash.Pair.folding_keysByName
  have hmade : notesTree.Made := .ofStore _ _
  have hacyclic : Acyclic notesTree.up := acyclic_of_entries rankOf (by decide)
  have hnamed : notesTree.Named "root" := named_of_entries (by decide) (by decide) "root"
  exact ⟨hP, hmade, hacyclic, hnamed,
    scope_partitions foldingReading "root" hP hmade hacyclic hnamed⟩

/-- A note in a folder, and next to the folder a note whose name reads like that path. -/
def slashedTree : RemoteTree :=
  .ofStore [storedItem "a" .folder "root" "a", storedItem "b" .file "a" "b",
    storedItem "c" .file "root" "a/b"] ["root"]

/-- A note in a folder without a name, and next to the folder a note of the same name. -/
def namelessTree : RemoteTree :=
  .ofStore [storedItem "a" .folder "root" "", storedItem "b" .file "a" "b",
    storedItem "c" .file "root" "b"] ["root"]

/-- A note that names another note as its parent. -/
def inFileTree : RemoteTree :=
  .ofStore [storedItem "a" .file "root" "a", storedItem "b" .file "a" "b"] ["root"]

/-- Where a name is no name, or a file holds an item, keys meet and items vanish. -/
theorem scope_does_not_partition :
    (slashedTree.Made ∧ Acyclic slashedTree.up ∧
      ∃ s, slashedTree.scope 3 foldingReading "root" = some s ∧
        ¬(s.items.map fun each => foldingReading.platform.pathKey each.rel).Nodup) ∧
    (namelessTree.Made ∧ Acyclic namelessTree.up ∧
      ∃ s, namelessTree.scope 3 foldingReading "root" = some s ∧
        ¬(s.items.map fun each => foldingReading.platform.pathKey each.rel).Nodup) ∧
    inFileTree.Made ∧ Acyclic inFileTree.up ∧
      ∃ s, inFileTree.scope 3 foldingReading "root" = some s ∧
        inFileTree.items.has "b" = true ∧ Above inFileTree.up "b" "root" ∧
        ∀ place, ¬s.Puts inFileTree "b" place := by
  refine ⟨⟨.ofStore _ _, acyclic_of_entries rankOf (by decide), _, rfl, by decide⟩,
    ⟨.ofStore _ _, acyclic_of_entries rankOf (by decide), _, rfl, by decide⟩,
    .ofStore _ _, acyclic_of_entries rankOf (by decide), _, rfl, by decide,
    .head (b := "a") (by decide) (.single (by decide)), fun place hputs => ?_⟩
  cases place with
  | items =>
    obtain ⟨each, heach, hid⟩ := hputs
    cases List.mem_singleton.1 heach
    exact absurd hid (by decide)
  | skipped =>
    obtain ⟨each, heach, -⟩ := hputs
    cases heach
  | ignored =>
    obtain ⟨each, heach, -⟩ := hputs
    cases heach
  | below =>
    obtain ⟨each, heach, -⟩ := hputs
    cases heach

end Trees

end RemoteTree

end Staaash.Remote
