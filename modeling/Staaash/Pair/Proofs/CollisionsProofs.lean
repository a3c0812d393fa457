import Staaash.Pair.LocalScan
import Staaash.Pair.Proofs.ModesProofs
import Staaash.Planner.Proofs.DroppedProofs
import Staaash.Planner.Proofs.MoveSafetyProofs

/-!
# Proofs: local names that collide

The scan lists every folder above an entry. So the planner leaves a colliding path alone where the scan
did, and for every other one there is a server and a base with which it does not.
-/

namespace Staaash.Pair

open Staaash.Planner

variable {P : Platform} {input : PlanInput} {scan : LocalScan} {mode : SyncMode} {k : Rel}

/-! ## Scans -/

/-- The entry lies directly in the directory `rel` or in a folder of the list. -/
def InFolderOf (rel : Rel) (entries : List LocalFile) (entry : LocalFile) : Prop :=
  ∃ parent, ∃ name : DiskName, entry.rel = joinRel parent name.text ∧
    (parent = rel ∨ parent ≠ [] ∧ ∃ folder ∈ entries, folder.rel = parent ∧ folder.type = .folder)

theorem InFolderOf.mono {rel : Rel} {entries more : List LocalFile} {entry : LocalFile}
    (hsub : ∀ each ∈ entries, each ∈ more) (h : InFolderOf rel entries entry) :
    InFolderOf rel more entry := by
  obtain ⟨parent, name, hrel, hparent⟩ := h
  refine ⟨parent, name, hrel, ?_⟩
  rcases hparent with htop | ⟨hne, folder, hfolder, hfrel, htype⟩
  · exact .inl htop
  · exact .inr ⟨hne, folder, hsub folder hfolder, hfrel, htype⟩

theorem joinRel_ne_nil (rel : Rel) (name : DiskName) : joinRel rel name.text ≠ [] := by
  unfold joinRel
  by_cases hrel : rel = []
  · rw [if_pos hrel]
    exact name.nonempty
  · rw [if_neg hrel]
    simp

theorem inFolderOf_scanned {rel : Rel} {name : DiskName} {entry each : LocalFile}
    (hrel : entry.rel = joinRel rel name.text) (h : each ∈ (scanned entry).entries) :
    InFolderOf rel (scanned entry).entries each := by
  obtain rfl := List.mem_singleton.1 h
  exact ⟨rel, name, hrel, .inl rfl⟩

theorem inFolderOf_append {rel : Rel} {a b : LocalScan}
    (ha : ∀ entry ∈ a.entries, InFolderOf rel (a.append b).entries entry)
    (hb : ∀ entry ∈ b.entries, InFolderOf rel (a.append b).entries entry) :
    ∀ entry ∈ (a.append b).entries, InFolderOf rel (a.append b).entries entry := by
  intro entry hentry
  rcases List.mem_append.1 hentry with hmem | hmem
  · exact ha entry hmem
  · exact hb entry hmem

section Walk

variable {ignore leftOut : Rel → Bool}

mutual

/-- A folder is listed with what is in it. -/
theorem inFolderOf_scanDirent (rel : Rel) : (dirent : Dirent) →
    ∀ entry ∈ (scanDirent ignore leftOut rel dirent).entries,
      InFolderOf rel (scanDirent ignore leftOut rel dirent).entries entry
  | .unreadable name => nofun
  | .link name ino => nofun
  | .special name ino => by
    intro entry hentry
    unfold scanDirent at hentry
    split at hentry <;> cases hentry
  | .file name size mtimeMs ino => by
    unfold scanDirent
    split
    · nofun
    · exact fun entry hentry => inFolderOf_scanned rfl hentry
  | .folder name mtimeMs ino readable inside => by
    unfold scanDirent
    split
    · nofun
    split
    · refine inFolderOf_append (fun entry hentry => ?_) (fun entry hentry => ?_)
      · exact (inFolderOf_scanned rfl hentry).mono fun each heach => List.mem_append_left _ heach
      · obtain ⟨parent, child, hrel, hparent⟩ := inFolderOf_scanDirents _ inside entry hentry
        refine ⟨parent, child, hrel, .inr ?_⟩
        rcases hparent with rfl | ⟨hne, folder, hfolder, hfrel, htype⟩
        · exact ⟨joinRel_ne_nil rel name, _,
            List.mem_append_left _ (List.mem_singleton.2 rfl), rfl, rfl⟩
        · exact ⟨hne, folder, List.mem_append_right _ hfolder, hfrel, htype⟩
    · nofun

theorem inFolderOf_scanDirents (rel : Rel) : (dirents : List Dirent) →
    ∀ entry ∈ (scanDirents ignore leftOut rel dirents).entries,
      InFolderOf rel (scanDirents ignore leftOut rel dirents).entries entry
  | [] => nofun
  | dirent :: rest => by
    unfold scanDirents
    refine inFolderOf_append (fun entry hentry => ?_) (fun entry hentry => ?_)
    · exact (inFolderOf_scanDirent rel dirent entry hentry).mono
        fun each heach => List.mem_append_left _ heach
    · exact (inFolderOf_scanDirents rel rest entry hentry).mono
        fun each heach => List.mem_append_right _ heach

end

mutual

/-- What the scan leaves alone, it leaves alone on this computer. -/
theorem onLocal_scanDirent (rel : Rel) : (dirent : Dirent) →
    ∀ each ∈ (scanDirent ignore leftOut rel dirent).excluded, each.side = .onLocal
  | .unreadable name => by simp [scanDirent, leftAlone]
  | .link name ino => by simp [scanDirent, leftAlone]
  | .special name ino => by
    unfold scanDirent
    split <;> simp [leftAlone]
  | .file name size mtimeMs ino => by
    unfold scanDirent
    split <;> simp [leftAlone, scanned]
  | .folder name mtimeMs ino readable inside => by
    unfold scanDirent
    split
    · simp [leftAlone]
    split
    · intro each heach
      exact onLocal_scanDirents _ inside each heach
    · simp [leftAlone]

theorem onLocal_scanDirents (rel : Rel) : (dirents : List Dirent) →
    ∀ each ∈ (scanDirents ignore leftOut rel dirents).excluded, each.side = .onLocal
  | [] => nofun
  | dirent :: rest => by
    unfold scanDirents
    intro each heach
    rcases List.mem_append.1 heach with hmem | hmem
    · exact onLocal_scanDirent rel dirent each hmem
    · exact onLocal_scanDirents rel rest each hmem

end

end Walk

/-- Every folder above an entry of the scan is an entry of the scan. -/
theorem exists_folder_above {ignore leftOut : Rel → Bool} {root : List Dirent} (hP : KeysByName P)
    {p : Rel} (hp : p ≠ []) {entry : LocalFile}
    (hentry : entry ∈ (scanLocal ignore leftOut root).entries) (hbelow : Below p (P.pathKey entry.rel)) :
    ∃ folder ∈ (scanLocal ignore leftOut root).entries, P.pathKey folder.rel = p ∧
      folder.type = .folder := by
  -- the folder that an entry lies in has a shorter path
  induction hn : entry.rel.length using Nat.strong_induction_on generalizing entry with
  | _ n ih =>
    obtain ⟨parent, name, hrel, hparent⟩ := inFolderOf_scanDirents [] root entry hentry
    rcases hparent with rfl | ⟨hne, folder, hfolder, rfl, htype⟩
    · obtain ⟨rest, hkey⟩ := hbelow
      have hslash : '/' ∉ P.pathKey entry.rel := by
        rw [hrel]
        exact hP.noSlash name.text name.noSlash
      rw [hkey] at hslash
      simp at hslash
    · have hjoin : entry.rel = folder.rel ++ '/' :: name.text := by
        rw [hrel, joinRel, if_neg hne]
      rw [below_iff_parentRel hp, hjoin, hP.join, 
        parentRel_of_slash (hP.noSlash name.text name.noSlash)] at hbelow
      rcases hbelow with rfl | hbelow
      · exact ⟨folder, hfolder, rfl, htype⟩
      · refine ih folder.rel.length ?_ hfolder hbelow rfl
        rw [← hn, hjoin, List.length_append, List.length_cons]
        omega

/-! ## What the planner sees of a scan -/

theorem Scanned.key_of_mem (h : Scanned input scan) {each : LocalFile} (hmem : each ∈ input.locals) :
    ∃ entry ∈ scan.entries, entry.rel = each.rel ∧ entry.type = each.type := by
  obtain ⟨checksums, hlocals⟩ := h.locals
  rw [hlocals] at hmem
  obtain ⟨entry, hentry, rfl⟩ := List.mem_map.1 hmem
  exact ⟨entry, hentry, rfl, rfl⟩

theorem Scanned.mem_of_key (h : Scanned input scan) {entry : LocalFile}
    (hmem : entry ∈ scan.entries) :
    ∃ each ∈ input.locals, each.rel = entry.rel ∧ each.type = entry.type := by
  obtain ⟨checksums, hlocals⟩ := h.locals
  rw [hlocals]
  exact ⟨_, List.mem_map_of_mem hmem, rfl, rfl⟩

theorem collides_of_ne {a b : LocalFile} (ha : a ∈ scan.entries) (hb : b ∈ scan.entries)
    (hka : P.pathKey a.rel = k) (hkb : P.pathKey b.rel = k) (hne : a ≠ b) : Collides P scan k := by
  unfold Collides
  have hmem : ∀ {each}, each ∈ scan.entries → P.pathKey each.rel = k →
      each ∈ scan.entries.filter fun each => P.pathKey each.rel = k := by
    intro each he hk
    rw [List.mem_filter]
    exact ⟨he, decide_eq_true hk⟩
  have hina := hmem ha hka
  have hinb := hmem hb hkb
  generalize (scan.entries.filter fun each => P.pathKey each.rel = k) = found at hina hinb ⊢
  match found with
  | [] => cases hina
  | [only] =>
    rw [List.mem_singleton] at hina hinb
    exact absurd (hina.trans hinb.symm) hne
  | _ :: _ :: _ => exact Nat.one_lt_succ_succ _

theorem Collides.exists_entry (h : Collides P scan k) :
    ∃ entry ∈ scan.entries, P.pathKey entry.rel = k := by
  obtain ⟨entry, hentry⟩ := List.exists_mem_of_length_pos (Nat.lt_of_succ_lt h)
  rw [List.mem_filter] at hentry
  exact ⟨entry, hentry.1, of_decide_eq_true hentry.2⟩

/-! ## Paths that the scan left alone -/

theorem hides_iff : scan.hides P k = true ↔
    ∃ each ∈ scan.excluded, P.pathKey each.rel ≠ [] ∧ AtOrBelow (P.pathKey each.rel) k := by
  unfold LocalScan.hides AtOrBelow
  rw [covered_iff]
  simp only [List.mem_singleton, exists_eq_left, List.mem_map, mem_upwards]
  constructor
  · rintro ⟨_, ⟨hne, hk⟩, each, heach, rfl⟩
    exact ⟨each, heach, hne, hk.imp_left Eq.symm⟩
  · rintro ⟨each, heach, hne, hk⟩
    exact ⟨_, ⟨hne, hk.imp_left Eq.symm⟩, each, heach, rfl⟩

theorem below_iff_append {a b : Rel} : Below a b ↔ a ++ ['/'] <+: b := by
  simp only [Below, List.IsPrefix, List.append_assoc, List.cons_append, List.nil_append, eq_comm]

/-- Of two paths that lead to one path, one leads to the other. -/
theorem atOrBelow_or_below {a b : Rel} (ha : Below a k) (hb : AtOrBelow b k) :
    AtOrBelow b a ∨ Below a b := by
  rcases hb with rfl | hb
  · exact .inr ha
  · rw [below_iff_append] at ha hb
    rcases List.prefix_or_prefix_of_prefix ha hb with h | h
    · rcases List.prefix_concat_iff.1 h with heq | hpre
      · exact .inl (.inl (List.append_cancel_right heq))
      · exact .inr (below_iff_append.2 hpre)
    · rcases List.prefix_concat_iff.1 h with heq | hpre
      · exact .inl (.inl (List.append_cancel_right heq).symm)
      · exact .inl (.inr (below_iff_append.2 hpre))

/-- Below a path that was left alone nothing is planned. -/
theorem not_atOrBelow_of_notExcluded (h : Scanned input scan) (hhides : scan.hides P k = true)
    {t : Rel} (ht : NotExcluded P input t) : ¬AtOrBelow k t := by
  obtain ⟨each, heach, hne, hk⟩ := hides_iff.1 hhides
  obtain ⟨hnot, hnotBelow⟩ := ht each (List.mem_append_left _ (h.excluded each heach)) hne
  rintro (rfl | hbelow)
  · rcases hk with heq | hb
    · exact hnot heq.symm
    · exact hnotBelow hb
  · rcases hk with rfl | hb
    · exact hnotBelow hbelow
    · exact hnotBelow (hb.trans hbelow)

section Left

variable {ignore leftOut : Rel → Bool} {root : List Dirent}

theorem key_ne_nil (hP : KeysByName P) {entry : LocalFile}
    (hentry : entry ∈ (scanLocal ignore leftOut root).entries) : P.pathKey entry.rel ≠ [] := by
  obtain ⟨parent, name, hrel, -⟩ := inFolderOf_scanDirents [] root entry hentry
  rw [hrel]
  exact hP.nonempty _ (joinRel_ne_nil parent name)

/-- No key begins with a slash. -/
theorem not_below_nil (hP : KeysByName P) {entry : LocalFile}
    (hentry : entry ∈ (scanLocal ignore leftOut root).entries) : ¬Below [] (P.pathKey entry.rel) := by
  induction hn : entry.rel.length using Nat.strong_induction_on generalizing entry with
  | _ n ih =>
    obtain ⟨parent, name, hrel, hparent⟩ := inFolderOf_scanDirents [] root entry hentry
    rintro ⟨rest, hkey⟩
    rcases hparent with rfl | ⟨hne, folder, hfolder, rfl, -⟩
    · have hslash := hP.noSlash name.text name.noSlash
      have hname : entry.rel = name.text := hrel
      rw [← hname, hkey] at hslash
      simp at hslash
    · have hjoin : entry.rel = folder.rel ++ '/' :: name.text := by
        rw [hrel, joinRel, if_neg hne]
      have hshorter : folder.rel.length < n := by
        rw [← hn, hjoin, List.length_append, List.length_cons]
        omega
      rw [hjoin, hP.join] at hkey
      cases hfirst : P.pathKey folder.rel with
      | nil => exact key_ne_nil hP hfolder hfirst
      | cons c more =>
        rw [hfirst] at hkey
        obtain ⟨rfl, -⟩ := List.cons.inj hkey
        exact ih _ hshorter hfolder rfl ⟨more, hfirst⟩

/-- Above a path that was left alone lies an excluded one, and folders above that are not trashed. -/
theorem excluded_below_of_hides (h : Scanned input (scanLocal ignore leftOut root)) {p : Rel}
    (hhides : (scanLocal ignore leftOut root).hides P k = true) (hfree : NotExcluded P input p)
    (hbelow : Below p k) :
    ∃ each ∈ input.allExcluded, each.side = .onLocal ∧ Below p (P.pathKey each.rel) := by
  obtain ⟨each, heach, hne, hk⟩ := hides_iff.1 hhides
  have hmem : each ∈ input.allExcluded := List.mem_append_left _ (h.excluded each heach)
  obtain ⟨hnot, hnotBelow⟩ := hfree each hmem hne
  refine ⟨each, hmem, onLocal_scanDirents [] root each heach, ?_⟩
  have hk' : AtOrBelow (P.pathKey each.rel) k := hk
  rcases atOrBelow_or_below hbelow hk' with (heq | hb) | hb
  · exact absurd heq.symm hnot
  · exact absurd hb hnotBelow
  · exact hb

theorem leavesAlone_of_hides (hP : KeysByName P) (h : Scanned input (scanLocal ignore leftOut root))
    (hall : ∀ k, Collides P (scanLocal ignore leftOut root) k →
      (scanLocal ignore leftOut root).hides P k = true)
    (hcollides : Collides P (scanLocal ignore leftOut root) k) :
    LeavesAlone P k (plan P input).actions := by
  have habove : ∀ p, p ≠ [] → Below p k → ∃ each ∈ input.locals, P.pathKey each.rel = p ∧
      each.type = .folder := by
    intro p hp hbelow
    obtain ⟨entry, hentry, rfl⟩ := hcollides.exists_entry
    obtain ⟨folder, hfolder, hkey, htype⟩ := exists_folder_above hP hp hentry hbelow
    obtain ⟨each, heach, hrel, hsame⟩ := h.mem_of_key hfolder
    exact ⟨each, heach, hrel ▸ hkey, hsame.trans htype⟩
  refine ⟨fun a ha rel hrel => ?_, fun rel here ha hbelow => ?_, fun rel remote ha hbelow => ?_⟩
  · exact not_atOrBelow_of_notExcluded h (hall k hcollides) (plan_notExcluded ha hrel)
  · have hfree : NotExcluded P input (P.pathKey rel) :=
      plan_notExcluded ha (List.mem_singleton.2 rfl)
    obtain ⟨-, q, -, -, hremoved, rfl, -⟩ := trashLocal_mem_plan.mp ha
    obtain ⟨hhere, hkey⟩ := mem_of_localAt hremoved.stays
    obtain ⟨entry, hentry, hrel, htype⟩ := h.key_of_mem hhere
    have hq : P.pathKey rel ≠ [] := by
      rw [← hkey, ← hrel]
      exact key_ne_nil hP hentry
    cases hty : here.type with
    | folder =>
      obtain ⟨each, hmem, hside, hunder⟩ := excluded_below_of_hides h (hall k hcollides) hfree hbelow
      exact (hremoved.inside hty hq).2 each hmem hside hunder
    | file =>
      -- a file where the scan has a folder collides with it
      obtain ⟨each, heach, hkey', hfolder⟩ := habove _ hq hbelow
      obtain ⟨entry', hentry', hrel', htype'⟩ := h.key_of_mem heach
      have hne : entry ≠ entry' := by
        rintro rfl
        rw [htype, hty, hfolder] at htype'
        cases htype'
      have hboth : Collides P (scanLocal ignore leftOut root) (P.pathKey rel) :=
        collides_of_ne hentry hentry' (hrel ▸ hkey) (hrel' ▸ hkey') hne
      exact not_atOrBelow_of_notExcluded h (hall _ hboth) hfree (.inl rfl)
  · obtain ⟨-, q, there, -, -, hremoved, rfl, -, -⟩ := trashRemote_mem_plan.mp ha
    have hq : P.pathKey rel ≠ [] := by
      intro hroot
      obtain ⟨entry, hentry, rfl⟩ := hcollides.exists_entry
      rw [hroot] at hbelow
      exact not_below_nil hP hentry hbelow
    obtain ⟨each, heach, hkey, -⟩ := habove _ hq hbelow
    exact hremoved.missing each heach hkey

end Left

/-! ## Paths that the scan did not leave alone -/

/-- What the planner is given when nothing was ever synced. -/
def firstSync (mode : SyncMode) (scan : LocalScan) (remote : List ScopedItem) : PlanInput where
  pairId := "p"
  mode
  locals := scan.entries
  remote
  skipped := []
  excluded := scan.excluded
  base := []
  allowEmptied := true

theorem scanned_firstSync (mode : SyncMode) (scan : LocalScan) (remote : List ScopedItem) :
    Scanned (firstSync mode scan remote) scan :=
  ⟨⟨fun entry => entry.checksum, (List.map_id scan.entries).symm⟩, fun _ heach => heach⟩

/-- In a first sync every path that is not left alone comes up in the walk. -/
theorem mem_plan_firstSync {remote : List ScopedItem} (hhides : scan.hides P k = false)
    (hkey : k ∈ planKeys (view P (firstSync mode scan remote))) {a : Action}
    (ha : (decisionAt (view P (firstSync mode scan remote)) k).action = some a) :
    a ∈ (plan P (firstSync mode scan remote)).actions ∧ ∀ rel ∈ pathsOf a, P.pathKey rel = k := by
  set input := firstSync mode scan remote with hinput
  have hgone : ∀ p, p ∉ (walk (view P input) []).gone := by
    intro p hp
    rcases decisionAt_gone_iff.mp (mem_walk_gone.mp hp).2.2 with ⟨there, hdel, -⟩ | ⟨here, hdel, -⟩
    · obtain ⟨previous, hget, -⟩ := hdel.synced
      cases hget
    · obtain ⟨previous, hget, -⟩ := hdel.synced
      cases hget
  have hvisited : Visited (view P input) [] k := by
    refine ⟨hkey, ?_, fun p _ _ => hgone p⟩
    rw [covered_eq_false_iff]
    intro p hp set hset hmem
    rcases List.mem_cons.1 hset with rfl | hset
    · cases hmem
    · obtain rfl := List.mem_singleton.1 hset
      have hhidden : scan.hides P k = true := by
        unfold LocalScan.hides
        rw [covered_iff]
        refine ⟨p, hp, _, List.mem_singleton.2 rfl, ?_⟩
        obtain ⟨each, heach, rfl⟩ := mem_hidden_keys.mp hmem
        exact List.mem_map.2 ⟨each, by simpa [PlanInput.allExcluded, hinput, firstSync] using heach, rfl⟩
      rw [hhides] at hhidden
      cases hhidden
  refine ⟨mem_plan_actions.mpr ⟨rfl, Or.inr ⟨rfl, ?_⟩⟩, outcome_paths hkey (decide_outcome ha)⟩
  refine mem_walk_actions.mpr ⟨k, hvisited, Or.inr ⟨?_, ha⟩⟩
  rw [covered_eq_false_iff]
  intro p _ set hset hmem
  obtain rfl := List.mem_singleton.1 hset
  cases hmem

/-- A server item of the other type at the path of an entry. -/
def otherKind (here : LocalFile) : ScopedItem where
  rel := here.rel
  item :=
    { id := "r"
      type := if here.type = .folder then .file else .folder
      parentId := none
      name := baseName here.rel
      size := none
      checksum := none
      rev := 1
      modifiedAt := none }

theorem decisionAt_clash {v : View} {here : LocalFile} {there : ScopedItem}
    (hh : v.locals.get k = some here) (ht : v.remote.get k = some there)
    (hne : here.type ≠ there.item.type) (hm : v.mode ≠ .upload) :
    ∃ a, (decisionAt v k).action = some a := by
  unfold decisionAt Planner.decide
  rw [show (cellAt v k).here = some here from hh, show (cellAt v k).there = some there from ht]
  simp [hne, hm, Decision.only]

/-- There is a server with which a first sync acts on a path that is there and not left alone. -/
theorem exists_firstSync_action (mode : SyncMode) (hhides : scan.hides P k = false)
    {entry : LocalFile} (hentry : entry ∈ scan.entries) (hkey : P.pathKey entry.rel = k) :
    ∃ remote, ∃ a ∈ (plan P (firstSync mode scan remote)).actions,
      ∃ rel ∈ pathsOf a, P.pathKey rel = k := by
  have hacts : ∀ remote a, (decisionAt (view P (firstSync mode scan remote)) k).action = some a →
      ∃ a ∈ (plan P (firstSync mode scan remote)).actions, ∃ rel ∈ pathsOf a, P.pathKey rel = k := by
    intro remote a ha
    have hplanned : k ∈ planKeys (view P (firstSync mode scan remote)) := by
      cases hlocal : (view P (firstSync mode scan remote)).locals.get k with
      | none => exact absurd hkey (locals_get_eq_none_iff.mp hlocal entry hentry)
      | some here => exact mem_planKeys.mpr (Or.inl ⟨here, hlocal⟩)
    obtain ⟨hmem, hpaths⟩ := mem_plan_firstSync hhides hplanned ha
    refine ⟨a, hmem, ?_⟩
    cases a <;> exact ⟨_, List.mem_cons_self, hpaths _ List.mem_cons_self⟩
  cases hlocal : (view P (firstSync mode scan [])).locals.get k with
  | none => exact absurd hkey (locals_get_eq_none_iff.mp hlocal entry hentry)
  | some here =>
    by_cases hmode : mode = .download
    · -- a type clash comes up in every mode that writes to this computer
      have hsame : (view P (firstSync mode scan [otherKind here])).locals.get k = some here := hlocal
      have hthere : (view P (firstSync mode scan [otherKind here])).remote.get k =
          some (otherKind here) := by
        have hget := Library.OrderedMap.get_indexed_of_nodup
          (f := fun each : ScopedItem => P.pathKey each.rel) (l := [otherKind here])
          (List.nodup_singleton _) List.mem_cons_self
        have hk : P.pathKey (otherKind here).rel = k := (of_locals_get hlocal).2
        rw [hk] at hget
        exact hget
      have hne : here.type ≠ (otherKind here).item.type := by
        show here.type ≠ if here.type = .folder then .file else .folder
        cases here.type <;> decide
      have hmode' : (view P (firstSync mode scan [otherKind here])).mode ≠ .upload := by
        show mode ≠ .upload
        rw [hmode]
        exact SyncMode.noConfusion
      obtain ⟨a, ha⟩ := decisionAt_clash hsame hthere hne hmode'
      exact ⟨_, hacts _ a ha⟩
    · have hnone : (view P (firstSync mode scan [])).remote.get k = none := rfl
      obtain ⟨a, ha, -⟩ := decisionAt_onlyHere hlocal hnone (.inl hmode) (by
        rintro ⟨-, hsave, -⟩
        cases hsave)
      exact ⟨_, hacts _ a ha⟩

/-- A plan leaves the colliding names of a scan alone, whatever the server and the base hold, exactly
if the scan has left all of them alone for some other reason. -/
theorem collisionsLeftAlone_iff (P : Platform) (hP : KeysByName P) (mode : SyncMode)
    (ignore leftOut : Rel → Bool) (root : List Dirent) :
    CollisionsLeftAlone P mode (scanLocal ignore leftOut root) ↔
      ∀ k, Collides P (scanLocal ignore leftOut root) k →
        (scanLocal ignore leftOut root).hides P k = true := by
  constructor
  · intro halone k hcollides
    by_contra hhides
    obtain ⟨entry, hentry, hkey⟩ := hcollides.exists_entry
    obtain ⟨remote, a, ha, rel, hrel, hk⟩ :=
      exists_firstSync_action mode (by simpa using hhides) hentry hkey
    refine (halone _ rfl (scanned_firstSync mode _ remote) k hcollides).untouched a ha rel hrel ?_
    exact .inl hk
  · intro hall input _ hscanned k hcollides
    exact leavesAlone_of_hides hP hscanned hall hcollides

/-! ## Names on a disk that tells more apart than the app -/

section Disks

/-- The app folds the case of names. -/
def folding : Platform where
  caseInsensitive := true
  normalizeNfc := id
  toLowerCase := List.map Char.toLower

theorem toLower_eq_slash {c : Char} (h : c.toLower = '/') : c = '/' := by
  unfold Char.toLower at h
  split at h
  · have hval : c.val + ('a'.val - 'A'.val) = '/'.val := congrArg Char.val h
    grind
  · exact h

theorem folding_keysByName : KeysByName folding where
  join parent name := by
    show List.map Char.toLower (parent ++ '/' :: name) = _
    rw [List.map_append, List.map_cons]
    rfl
  noSlash name hname hslash := by
    obtain ⟨c, hc, hlower⟩ := List.mem_map.1 (hslash : '/' ∈ List.map Char.toLower name)
    exact hname (toLower_eq_slash hlower ▸ hc)
  nonempty name hne hnil := hne (List.map_eq_nil_iff.1 hnil)

def noteUpper : DiskName := ⟨"Note".toList, by decide, by decide⟩

def noteLower : DiskName := ⟨"note".toList, by decide, by decide⟩

def noteAll : DiskName := ⟨"NOTE".toList, by decide, by decide⟩

/-- Two notes, and a third that cannot be read. -/
def notes : List Dirent :=
  [.file noteUpper 3 1 "1", .file noteLower 4 2 "2", .unreadable noteAll]

theorem collisionsLeftAlone_iff_notes :
    CollisionsLeftAlone folding .twoWay (scanLocal (fun _ => false) (fun _ => false) notes) := by
  refine (collisionsLeftAlone_iff folding folding_keysByName .twoWay _ _ notes).2 fun k hcollides => ?_
  obtain ⟨entry, hentry, rfl⟩ := hcollides.exists_entry
  revert entry
  decide

/-- Two notes that can be read. -/
def twoNotes : LocalScan :=
  scanLocal (fun _ => false) (fun _ => false) [.file noteUpper 3 1 "1", .file noteLower 4 2 "2"]

/-- The second note is uploaded, as if it were the only one. -/
theorem twoNotes_uploaded : ¬CollisionsLeftAlone folding .twoWay twoNotes := by
  intro halone
  have hleft := halone (firstSync .twoWay twoNotes []) rfl (scanned_firstSync .twoWay twoNotes [])
    "note".toList (by decide)
  refine hleft.untouched (.upload "note".toList
    ⟨"note".toList, .file, 4, 2, "2", none⟩ none) (by decide) "note".toList (by decide) ?_
  exact .inl (by decide)

end Disks

end Staaash.Pair
