import Staaash.Planner.Safety
import Staaash.Planner.Proofs.NamesProofs

/-!
# Proofs: the planner's view of its input

What a lookup in the view says about the lists the view was built from.
-/

namespace Staaash.Planner

open Staaash.Library (OrderedMap)

variable {P : Platform} {input : PlanInput}

theorem of_locals_get {k : Rel} {here : LocalFile} (h : (view P input).locals.get k = some here) :
    here ∈ input.locals ∧ P.pathKey here.rel = k :=
  OrderedMap.of_get_indexed h

theorem locals_get_eq_none_iff {k : Rel} :
    (view P input).locals.get k = none ↔ ∀ each ∈ input.locals, P.pathKey each.rel ≠ k :=
  OrderedMap.get_indexed_eq_none_iff

theorem locals_get_of_mem (hd : (input.locals.map fun entry => P.pathKey entry.rel).Nodup)
    {here : LocalFile} (h : here ∈ input.locals) :
    (view P input).locals.get (P.pathKey here.rel) = some here :=
  OrderedMap.get_indexed_of_nodup hd h

theorem of_remote_get {k : Rel} {there : ScopedItem}
    (h : (view P input).remote.get k = some there) :
    there ∈ input.remote ∧ P.pathKey there.rel = k :=
  OrderedMap.of_get_indexed h

theorem remote_get_eq_none_iff {k : Rel} :
    (view P input).remote.get k = none ↔ ∀ each ∈ input.remote, P.pathKey each.rel ≠ k :=
  OrderedMap.get_indexed_eq_none_iff

theorem remote_get_of_mem (hd : input.DistinctKeys P) {there : ScopedItem}
    (h : there ∈ input.remote) : (view P input).remote.get (P.pathKey there.rel) = some there :=
  OrderedMap.get_indexed_of_nodup hd.onRemote h

theorem of_base_get {k : Rel} {previous : BaseEntry}
    (h : (view P input).base.get k = some previous) :
    previous ∈ input.base ∧ P.pathKey previous.rel = k :=
  OrderedMap.of_get_indexed h

theorem base_get_eq_none_iff {k : Rel} :
    (view P input).base.get k = none ↔ ∀ each ∈ input.base, P.pathKey each.rel ≠ k :=
  OrderedMap.get_indexed_eq_none_iff

theorem of_remoteById_get {id : String} {there : ScopedItem}
    (h : (view P input).remoteById.get id = some there) :
    there ∈ input.remote ∧ there.item.id = id :=
  OrderedMap.of_get_indexed h

theorem remoteById_has_iff {id : String} :
    (view P input).remoteById.has id = true ↔ ∃ each ∈ input.remote, each.item.id = id :=
  OrderedMap.has_indexed_iff

theorem mem_unsynced_iff {here : LocalFile} :
    here ∈ (input.locals.filter fun entry =>
      entry.ino ≠ UNKNOWN_INO && !(view P input).base.has (P.pathKey entry.rel)) ↔
    Unsynced P input here := by
  simp only [List.mem_filter, Unsynced, Bool.and_eq_true, decide_eq_true_eq, Bool.not_eq_true',
    OrderedMap.has_eq_false_iff, base_get_eq_none_iff]

theorem of_localByIno_get {ino : String} {here : LocalFile}
    (h : (view P input).localByIno.get ino = some here) :
    Unsynced P input here ∧ here.ino = ino := by
  obtain ⟨h1, h2⟩ := OrderedMap.of_get_indexed h
  exact ⟨mem_unsynced_iff.mp h1, h2⟩

theorem localByIno_has_iff {ino : String} :
    (view P input).localByIno.has ino = true ↔ ∃ here, Unsynced P input here ∧ here.ino = ino := by
  refine Iff.trans OrderedMap.has_indexed_iff ?_
  simp only [← mem_unsynced_iff]
  rfl

theorem mem_hidden_keys {k : Rel} :
    k ∈ (view P input).hidden.keys ↔ ∃ each ∈ input.allExcluded, P.pathKey each.rel = k := by
  simp [view]

theorem mem_hidden_inos {ino : String} :
    ino ∈ (view P input).hidden.inos ↔ ∃ each ∈ input.allExcluded, each.ino = some ino := by
  simp [view]

theorem mem_hidden_ids {id : String} :
    id ∈ (view P input).hidden.ids ↔ ∃ each ∈ input.allExcluded, each.remoteId = some id := by
  simp [view]

theorem stillOnServer_iff {previous : BaseEntry} :
    stillOnServer (view P input) previous = true ↔ OnServer input previous.remoteId := by
  simp only [stillOnServer, Bool.or_eq_true, remoteById_has_iff, List.contains_iff_mem,
    mem_hidden_ids, OnServer]

theorem stillHere_iff {previous : BaseEntry} :
    stillHere (view P input) previous = true ↔ InodeElsewhere P input previous.ino := by
  simp only [stillHere, Bool.and_eq_true, decide_eq_true_eq, Bool.or_eq_true, localByIno_has_iff,
    List.contains_iff_mem, mem_hidden_inos, InodeElsewhere]

end Staaash.Planner
