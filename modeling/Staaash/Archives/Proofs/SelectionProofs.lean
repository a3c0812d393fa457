import Staaash.Archives.Proofs.PathsProofs

/-!
# Proofs: an archive loses nothing when its top is unambiguous

Where a thing stands in the archive is where its path leads, so two things are in one place only when two
things at the top have one name.
-/

namespace Staaash.Archives

open Staaash.Layout (OwnerTree posixJoin segment_of_validateSegment)
open Staaash.Library
open Staaash.Library.PosixPath (Plain)

/-! ## Locations -/

section Locations

variable {path : List String}

theorem segments_join_plain (hne : path ≠ []) (hplain : ∀ name ∈ path, Plain name.toList) :
    PosixPath.segments (posixJoin path).toList = path.map String.toList := by
  have hsegs : ∀ seg ∈ path.map String.toList, Plain seg := by
    intro seg hseg
    obtain ⟨name, hname, rfl⟩ := List.mem_map.1 hseg
    exact hplain name hname
  refine OwnerTree.segments_posixJoin hne (fun name hname => ?_) ?_ (by simpa using hne) fun seg hseg => ?_
  · exact PosixPath.clean_of_segment (hplain name hname).1 (hplain name hname).2.2.2
  · rw [PosixPath.flatMap_segments fun seg hseg => (hsegs seg hseg).2.2.2,
      PosixPath.normalizeSegments_plain hsegs]
  · exact ⟨(hsegs seg hseg).1, (hsegs seg hseg).2.2.2⟩

theorem filter_plain {segs : List PosixPath.Segment} (h : ∀ seg ∈ segs, Plain seg) :
    segs.filter (· ≠ []) = segs :=
  List.filter_eq_self.2 fun seg hseg => decide_eq_true (h seg hseg).1

theorem location_join (hne : path ≠ []) (hplain : ∀ name ∈ path, Plain name.toList) :
    location (posixJoin path) = path.map String.toList := by
  unfold location
  rw [segments_join_plain hne hplain, filter_plain]
  intro seg hseg
  obtain ⟨name, hname, rfl⟩ := List.mem_map.1 hseg
  exact hplain name hname

theorem location_directory (hne : path ≠ []) (hplain : ∀ name ∈ path, Plain name.toList) :
    location (posixJoin path ++ "/") = path.map String.toList := by
  have hslash : PosixPath.segments (posixJoin path ++ "/").toList =
      PosixPath.segments (posixJoin path).toList ++ [[]] := by
    rw [String.toList_append]
    exact List.splitOn_append_cons_self (posixJoin path).toList []
  have hjoin := location_join hne hplain
  unfold location at hjoin ⊢
  rw [hslash, List.filter_append, hjoin]
  simp

theorem location_name {name : String} (hplain : Plain name.toList) : location name = [name.toList] := by
  unfold location
  rw [PosixPath.segments_eq_self hplain.2.2.2]
  exact filter_plain fun seg hseg => List.mem_singleton.1 hseg ▸ hplain

end Locations

/-! ## Directories -/

section Directories

variable {folders : List FolderRecord} {folderIds : List String}

/-- The directory under the first root. -/
def directoryAt (folders : List FolderRecord) (folderIds : List String) (id : String) : List String :=
  ((rootOf folders folderIds id).bind fun rootId => ((folderMapOf folders).get rootId).bind fun root =>
    ((folderMapOf folders).get id).map (directoryPath (folderMapOf folders) root)).toList

/-- The ids have been placed that are below one of the roots, each with its directory. -/
structure PlacedUpTo (folders : List FolderRecord) (folderIds roots : List String) (p : Placing) : Prop where
  directories : p.directories = p.placed.flatMap (directoryAt folders folderIds)
  nodup : p.placed.Nodup
  mem : ∀ id, id ∈ p.placed ↔ ∃ rootId ∈ roots, id ∈ descendantsIn folders rootId

theorem foldl_place {rootId : String} {dir : String → List String} {ids : List String} {p : Placing}
    (hdirectories : p.directories = p.placed.flatMap dir) (hnodup : p.placed.Nodup)
    (hdir : ∀ id ∈ ids, id ∉ p.placed →
      (((folderMapOf folders).get rootId).bind fun root =>
        ((folderMapOf folders).get id).map (directoryPath (folderMapOf folders) root)).toList = dir id) :
    let p' := ids.foldl (fun p id => p.place (folderMapOf folders) rootId id) p
    p'.directories = p'.placed.flatMap dir ∧ p'.placed.Nodup ∧
      ∀ id, id ∈ p'.placed ↔ id ∈ p.placed ∨ id ∈ ids := by
  induction ids generalizing p with
  | nil => exact ⟨hdirectories, hnodup, fun id => by simp⟩
  | cons id ids ih =>
    rw [List.foldl_cons]
    by_cases hmem : id ∈ p.placed
    · have hplace : p.place (folderMapOf folders) rootId id = p := if_pos hmem
      rw [hplace]
      obtain ⟨hdirectories', hnodup', hmem'⟩ :=
        ih hdirectories hnodup fun x hx => hdir x (List.mem_cons_of_mem _ hx)
      refine ⟨hdirectories', hnodup', fun x => ?_⟩
      rw [hmem', List.mem_cons]
      constructor
      · rintro (hx | hx)
        · exact .inl hx
        · exact .inr (.inr hx)
      · rintro (hx | rfl | hx)
        · exact .inl hx
        · exact .inl hmem
        · exact .inr hx
    · have hplaced : (p.place (folderMapOf folders) rootId id).placed = p.placed ++ [id] := by
        unfold Placing.place
        rw [if_neg hmem]
      have hadded : (p.place (folderMapOf folders) rootId id).directories = p.directories ++ dir id := by
        unfold Placing.place
        rw [if_neg hmem, ← hdir id List.mem_cons_self hmem]
      obtain ⟨hdirectories', hnodup', hmem'⟩ := ih (p := p.place (folderMapOf folders) rootId id)
        (by rw [hadded, hplaced, hdirectories, List.flatMap_append, List.flatMap_singleton])
        (by rw [hplaced]; simpa using hnodup.concat hmem)
        (by
          intro x hx hnot
          rw [hplaced] at hnot
          exact hdir x (List.mem_cons_of_mem _ hx) fun hin => hnot (List.mem_append_left _ hin))
      refine ⟨hdirectories', hnodup', fun x => ?_⟩
      rw [hmem', hplaced, List.mem_append, List.mem_singleton, List.mem_cons, or_assoc]

theorem get_descendants {rootId : String} (hroot : rootId ∈ folderIds) :
    (buildArchiveFolderIndex folders folderIds).descendantsByRootId.get rootId =
      some (descendantsIn folders rootId) := by
  cases hget : (buildArchiveFolderIndex folders folderIds).descendantsByRootId.get rootId with
  | none =>
    have hnone := (OrderedMap.get_ofList_eq_none_iff _ _).1 hget
    exact (hnone _ (List.mem_map.2 ⟨rootId, hroot, rfl⟩)).elim
  | some descendants =>
    obtain ⟨id, -, heq⟩ := List.mem_map.1 (OrderedMap.mem_of_get_ofList hget)
    obtain ⟨rfl, rfl⟩ := Prod.mk.inj heq
    rfl

theorem foldl_placeRoot (roots : List String) {rest : List String} (hsplit : folderIds = roots ++ rest) {p : Placing}
    (h : PlacedUpTo folders folderIds roots p) :
    PlacedUpTo folders folderIds folderIds (rest.foldl (fun p rootId =>
      (((buildArchiveFolderIndex folders folderIds).descendantsByRootId.get rootId).getD []).foldl
        (fun p id => p.place (folderMapOf folders) rootId id) p) p) := by
  induction rest generalizing roots p with
  | nil =>
    rw [List.append_nil] at hsplit
    rwa [List.foldl_nil, hsplit] at *
  | cons rootId rest ih =>
    rw [List.foldl_cons, get_descendants (by simp [hsplit]), Option.getD_some]
    have hdir : ∀ id ∈ descendantsIn folders rootId, id ∉ p.placed →
        (((folderMapOf folders).get rootId).bind fun root =>
          ((folderMapOf folders).get id).map (directoryPath (folderMapOf folders) root)).toList =
            directoryAt folders folderIds id := by
      intro id hid hnew
      have hfirst : rootOf folders folderIds id = some rootId := by
        refine List.find?_eq_some_iff_append.2 ⟨by simpa using hid, roots, rest, hsplit, fun r hr => ?_⟩
        have hnot : id ∉ descendantsIn folders r := fun hin => hnew ((h.mem id).2 ⟨r, hr, hin⟩)
        simpa using hnot
      unfold directoryAt
      rw [hfirst, Option.bind_some]
    obtain ⟨hdirectories, hnodup, hmem⟩ := foldl_place h.directories h.nodup hdir
    refine ih (roots ++ [rootId]) (by simp [hsplit]) ⟨hdirectories, hnodup, fun id => ?_⟩
    rw [hmem, h.mem]
    constructor
    · rintro (⟨r, hr, hin⟩ | hin)
      · exact ⟨r, List.mem_append_left _ hr, hin⟩
      · exact ⟨rootId, by simp, hin⟩
    · rintro ⟨r, hr, hin⟩
      rcases List.mem_append.1 hr with hr | hr
      · exact .inl ⟨r, hr, hin⟩
      · obtain rfl := List.mem_singleton.1 hr
        exact .inr hin

/-- One directory for each id below a root. -/
theorem listDirectories_eq (folders : List FolderRecord) (folderIds : List String) :
    ∃ placed : List String, placed.Nodup ∧
      (∀ id, id ∈ placed ↔ ∃ rootId ∈ folderIds, id ∈ descendantsIn folders rootId) ∧
      listDirectories (buildArchiveFolderIndex folders folderIds) folderIds =
        placed.flatMap (directoryAt folders folderIds) := by
  have hstart : PlacedUpTo folders folderIds [] ⟨[], []⟩ := ⟨rfl, List.nodup_nil, fun id => by simp⟩
  have h := foldl_placeRoot [] (List.nil_append folderIds).symm hstart
  exact ⟨_, h.nodup, h.mem, h.directories⟩

end Directories

end Staaash.Archives
