import Staaash.Pair.LocalEdits
import Staaash.Pair.Proofs.BaseProofs
import Staaash.Pair.Proofs.CollisionsProofs
import Staaash.Planner.Proofs.DeletionSafetyProofs

/-!
# Proofs: what an edit after the scan can lose

The planner has looked at all that a trashed folder holds at the scan. The handler looks at the path alone,
so what came below it since is trashed with it.
-/

namespace Staaash.Pair

open Staaash.Library Staaash.Library.Proc
open Staaash.Planner

variable {P : Platform} {input : PlanInput} {synced : BaseEntry → String} {rel : Rel} {here : LocalFile}

/-! ## The handler -/

/-- The first call answers with what it found, and changes nothing. -/
theorem triple_firstAsk (answers : List Answer) :
    Triple (fun d => d.answers = answers ∧ d.changes = []) ask
      (fun a d => d.changes = [] ∧ a ∈ answers.head?) fun _ d => d.changes = [] := by
  rintro d ⟨rfl, hchanges⟩
  unfold ask callFor
  cases d.answers with
  | nil => exact hchanges
  | cons a rest =>
    have hhead : a ∈ (a :: rest).head? := rfl
    simp only [Option.elim_none]
    cases a.ends with
    | returns => exact ⟨hchanges, hhead⟩
    | throws took => cases took <;> exact hchanges
    | stops took => cases took <;> exact hchanges

/-- The handler trashes its own path, after a look that found something there, and no changed file. -/
theorem of_trashed {pairId : String} {base : List BaseEntry} {rel target : Rel} {here : LocalFile}
    {answers : List Answer}
    (h : .onLocal (.trash target) ∈
      ((Desk.fresh pairId base).execute (.trashLocal rel here) answers).changes) :
    target = rel ∧ ∃ a ∈ answers.head?, ∃ now, a.stat = some now ∧
      (now.type = .file → sameEntry now here = true) := by
  let ok (c : Change) : Prop := ∀ t, c = .onLocal (.trash t) → t = rel ∧ ∃ a ∈ answers.head?, ∃ now,
    a.stat = some now ∧ (now.type = .file → sameEntry now here = true)
  have hstore : ∀ c, Only ok (store c) := fun c => only_store fun t hc => by cases hc
  have hlook : Triple (fun d => d.answers = answers ∧ d.changes = []) statLocal
      (fun found d => Allowed ok d ∧ ∃ a ∈ answers.head?, a.stat = found) fun _ => Allowed ok := by
    refine ((triple_firstAsk answers).exits fun d hd => ?_).bind fun a => triple_pure ?_
    · intro c hc
      rw [hd] at hc
      cases hc
    · rintro d ⟨hd, ha⟩
      refine ⟨fun c hc => ?_, a, ha, rfl⟩
      rw [hd] at hc
      cases hc
  have hrun : Triple (fun d => d.answers = answers ∧ d.changes = []) (handler (.trashLocal rel here))
      (fun _ => Allowed ok) fun _ => Allowed ok := by
    refine hlook.bind fun found => Triple.assume ?_
    rintro ⟨a, ha, hstat⟩
    cases found with
    | none => exact hstore _ _ closed_allowed
    | some now =>
      by_cases hchanged : (decide (now.type = .file) && !sameEntry now here) = true
      · simp only [if_pos hchanged]
        exact only_pure _ _ closed_allowed
      · simp only [if_neg hchanged]
        refine (only_change fun t ht => ?_).bind (fun _ => hstore _) _ closed_allowed
        have hsame : now.type = .file → sameEntry now here = true := by
          intro htype
          simpa [htype] using hchanged
        cases ht
        exact ⟨rfl, a, ha, now, hstat, hsame⟩
  have hafter : Allowed ok ((Desk.fresh pairId base).execute (.trashLocal rel here) answers) :=
    Triple.after hrun ⟨rfl, rfl⟩
  exact hafter _ h target rfl

/-! ## The disk at the scan -/

section Scan

variable {ignore leftOut : Rel → Bool} {content : Rel → String} {other : Rel → DiskNode}

/-- The scan has an entry for what is at a path, or has left the path or a folder above it alone. -/
def Shows (scan : LocalScan) (p : Rel) (node : DiskNode) : Prop :=
  (∃ each ∈ scan.excluded, each.rel ≠ [] ∧ (each.rel = p ∨ Below each.rel p)) ∨
    ∃ entry ∈ scan.entries, entry.rel = p ∧
      match node with
      | .file size mtimeMs ino _ =>
        entry.type = .file ∧ entry.size = size ∧ entry.mtimeMs = mtimeMs ∧ entry.ino = ino
      | .folder mtimeMs ino => entry.type = .folder ∧ entry.mtimeMs = mtimeMs ∧ entry.ino = ino
      | _ => False

theorem Shows.left {a b : LocalScan} {p : Rel} {node : DiskNode} (h : Shows a p node) :
    Shows (a.append b) p node := by
  rcases h with ⟨each, heach, hrel⟩ | ⟨entry, hentry, hrel⟩
  · exact .inl ⟨each, List.mem_append_left _ heach, hrel⟩
  · exact .inr ⟨entry, List.mem_append_left _ hentry, hrel⟩

theorem Shows.right {a b : LocalScan} {p : Rel} {node : DiskNode} (h : Shows b p node) :
    Shows (a.append b) p node := by
  rcases h with ⟨each, heach, hrel⟩ | ⟨entry, hentry, hrel⟩
  · exact .inl ⟨each, List.mem_append_right _ heach, hrel⟩
  · exact .inr ⟨entry, List.mem_append_right _ hentry, hrel⟩

theorem shows_leftAlone {rel p : Rel} {name : DiskName} {ino : Option String} {node : DiskNode}
    (h : joinRel rel name.text = p ∨ Below (joinRel rel name.text) p) :
    Shows (leftAlone (joinRel rel name.text) ino) p node :=
  .inl ⟨_, List.mem_singleton_self _, joinRel_ne_nil rel name, h⟩

theorem below_joinRel {rel : Rel} (hrel : rel ≠ []) (name : DiskName) : Below rel (joinRel rel name.text) := by
  unfold joinRel
  rw [if_neg hrel]
  exact ⟨name.text, rfl⟩

mutual

/-- What is in a directory lies below it. -/
theorem below_diskOfDirent {rel : Rel} (hrel : rel ≠ []) : (dirent : Dirent) →
    ∀ e ∈ diskOfDirent content other rel dirent, Below rel e.1
  | .unreadable name => by
    intro e he
    rw [List.mem_singleton.1 he]
    exact below_joinRel hrel name
  | .link name ino => by
    intro e he
    rw [List.mem_singleton.1 he]
    exact below_joinRel hrel name
  | .special name ino => by
    intro e he
    rw [List.mem_singleton.1 he]
    exact below_joinRel hrel name
  | .file name size mtimeMs ino => by
    intro e he
    rw [List.mem_singleton.1 he]
    exact below_joinRel hrel name
  | .folder name mtimeMs ino readable inside => by
    intro e he
    rcases List.mem_cons.1 he with rfl | he
    · exact below_joinRel hrel name
    · exact (below_joinRel hrel name).trans (below_diskOfDirents (joinRel_ne_nil rel name) inside e he)

theorem below_diskOfDirents {rel : Rel} (hrel : rel ≠ []) : (dirents : List Dirent) →
    ∀ e ∈ diskOfDirents content other rel dirents, Below rel e.1
  | [] => nofun
  | dirent :: rest => by
    intro e he
    rcases List.mem_append.1 he with he | he
    · exact below_diskOfDirent hrel dirent e he
    · exact below_diskOfDirents hrel rest e he

end

mutual

theorem shows_diskOfDirent (rel : Rel) : (dirent : Dirent) → ∀ e ∈ diskOfDirent content other rel dirent,
    Shows (scanDirent ignore leftOut rel dirent) e.1 e.2
  | .unreadable name => by
    intro e he
    rw [List.mem_singleton.1 he]
    exact shows_leftAlone (.inl rfl)
  | .link name ino => by
    intro e he
    rw [List.mem_singleton.1 he]
    exact shows_leftAlone (.inl rfl)
  | .special name ino => by
    intro e he
    rw [List.mem_singleton.1 he]
    unfold scanDirent
    split <;> exact shows_leftAlone (.inl rfl)
  | .file name size mtimeMs ino => by
    intro e he
    rw [List.mem_singleton.1 he]
    unfold scanDirent
    split
    · exact shows_leftAlone (.inl rfl)
    · exact .inr ⟨_, List.mem_singleton_self _, rfl, rfl, rfl, rfl, rfl⟩
  | .folder name mtimeMs ino readable inside => by
    intro e he
    have hat : joinRel rel name.text = e.1 ∨ Below (joinRel rel name.text) e.1 := by
      rcases List.mem_cons.1 he with rfl | he
      · exact .inl rfl
      · exact .inr (below_diskOfDirents (joinRel_ne_nil rel name) inside e he)
    unfold scanDirent
    split
    · exact shows_leftAlone hat
    split
    · rcases List.mem_cons.1 he with rfl | he
      · exact Shows.left (.inr ⟨_, List.mem_singleton_self _, rfl, rfl, rfl, rfl⟩)
      · exact Shows.right (shows_diskOfDirents _ inside e he)
    · exact shows_leftAlone hat

/-- The scan leaves nothing out without saying so. -/
theorem shows_diskOfDirents (rel : Rel) : (dirents : List Dirent) →
    ∀ e ∈ diskOfDirents content other rel dirents, Shows (scanDirents ignore leftOut rel dirents) e.1 e.2
  | [] => nofun
  | dirent :: rest => by
    intro e he
    unfold scanDirents
    rcases List.mem_append.1 he with he | he
    · exact (shows_diskOfDirent rel dirent e he).left
    · exact (shows_diskOfDirents rel rest e he).right

end

mutual

theorem onDisk_scanDirent (rel : Rel) : (dirent : Dirent) →
    ∀ entry ∈ (scanDirent ignore leftOut rel dirent).entries,
      ∃ node, (entry.rel, node) ∈ diskOfDirent content other rel dirent
  | .unreadable name => nofun
  | .link name ino => nofun
  | .special name ino => by
    unfold scanDirent
    split <;> nofun
  | .file name size mtimeMs ino => by
    unfold scanDirent
    split
    · nofun
    · intro entry hentry
      obtain rfl := List.mem_singleton.1 hentry
      exact ⟨_, List.mem_singleton_self _⟩
  | .folder name mtimeMs ino readable inside => by
    unfold scanDirent
    split
    · nofun
    split
    · intro entry hentry
      rcases List.mem_append.1 hentry with hentry | hentry
      · obtain rfl := List.mem_singleton.1 hentry
        exact ⟨_, List.mem_cons_self⟩
      · obtain ⟨node, hnode⟩ := onDisk_scanDirents _ inside entry hentry
        exact ⟨node, List.mem_cons_of_mem _ hnode⟩
    · nofun

/-- The entries of a scan are on the disk. -/
theorem onDisk_scanDirents (rel : Rel) : (dirents : List Dirent) →
    ∀ entry ∈ (scanDirents ignore leftOut rel dirents).entries,
      ∃ node, (entry.rel, node) ∈ diskOfDirents content other rel dirents
  | [] => nofun
  | dirent :: rest => by
    unfold scanDirents
    intro entry hentry
    rcases List.mem_append.1 hentry with hentry | hentry
    · obtain ⟨node, hnode⟩ := onDisk_scanDirent rel dirent entry hentry
      exact ⟨node, List.mem_append_left _ hnode⟩
    · obtain ⟨node, hnode⟩ := onDisk_scanDirents rel rest entry hentry
      exact ⟨node, List.mem_append_right _ hnode⟩

end

end Scan

/-! ## Looking at a disk -/

section Looking

variable {disk : Disk} {p q : Rel} {node : DiskNode}

/-- Two spellings of one path on the disk have one key. -/
theorem key_of_onDisk (h : onDisk P p = onDisk P q) : P.pathKey p = P.pathKey q := by
  unfold onDisk at h
  split at h
  · exact h
  · rw [h]

theorem Disk.mem_of_at (h : disk.at P p = some node) : ∃ q, onDisk P q = onDisk P p ∧ (q, node) ∈ disk := by
  unfold Disk.at at h
  obtain ⟨e, hfind, rfl⟩ := Option.map_eq_some_iff.1 h
  have hkey := List.find?_some hfind
  rw [decide_eq_true_iff] at hkey
  exact ⟨e.1, hkey, List.mem_of_find?_eq_some hfind⟩

theorem Disk.at_isSome (h : (p, node) ∈ disk) : (disk.at P p).isSome := by
  unfold Disk.at
  rw [Option.isSome_map, List.find?_isSome]
  exact ⟨_, h, decide_eq_true rfl⟩

theorem Disk.at_filter {f : Rel → Bool} (hkeeps : f (onDisk P p) = true) :
    Disk.at P (disk.filter fun e => f (onDisk P e.1)) p = disk.at P p := by
  unfold Disk.at
  rw [List.find?_filter]
  congr 2
  funext e
  by_cases he : onDisk P e.1 = onDisk P p
  · simp [he, hkeeps]
  · simp [he]

theorem Disk.at_cons :
    Disk.at P ((q, node) :: disk) p = if onDisk P q = onDisk P p then some node else disk.at P p := by
  unfold Disk.at
  by_cases hq : onDisk P q = onDisk P p
  · simp [hq]
  · simp [hq]

end Looking

/-! ## Edits -/

section Edits

variable (P input synced rel here) in
/-- What the handler would move to the trash has the base's content. -/
structure Guarded (disk : Disk) : Prop where
  below : (∀ p size mtimeMs ino content, (p, .file size mtimeMs ino content) ∈ disk →
      Below (onDisk P rel) (onDisk P p) → BaseContent P input synced (P.pathKey p) content) ∨
    ∃ node, disk.at P rel = some node ∧ ∀ mtimeMs ino, node ≠ .folder mtimeMs ino
  self : ∀ size mtimeMs ino content, disk.at P rel = some (.file size mtimeMs ino content) →
    size = here.size → mtimeMs = here.mtimeMs → ino = here.ino →
      BaseContent P input synced (P.pathKey rel) content

variable {disk : Disk} {q : Rel}

theorem Guarded.write {size : Nat} {mtimeMs : Int} {ino content : String}
    (h : Guarded P input synced rel here disk)
    (hharmless : Harmless P input synced rel here (.write q size mtimeMs ino content)) :
    Guarded P input synced rel here
      ((q, .file size mtimeMs ino content) :: disk.filter fun e => onDisk P e.1 ≠ onDisk P q) := by
  have hother : onDisk P q ≠ onDisk P rel →
      Disk.at P ((q, .file size mtimeMs ino content) :: disk.filter fun e => onDisk P e.1 ≠ onDisk P q) rel =
        disk.at P rel := by
    intro hne
    rw [Disk.at_cons, if_neg hne]
    exact Disk.at_filter (f := fun k => k ≠ onDisk P q) (decide_eq_true (Ne.symm hne))
  refine ⟨?_, fun size' mtimeMs' ino' content' hat hsize hmtime hino => ?_⟩
  · by_cases hq : onDisk P q = onDisk P rel
    · refine .inr ⟨.file size mtimeMs ino content, ?_, nofun⟩
      rw [Disk.at_cons, if_pos hq]
    · rcases h.below with hbelow | ⟨node, hat, hnode⟩
      · refine .inl fun p size' mtimeMs' ino' content' hmem hp => ?_
        rcases List.mem_cons.1 hmem with heq | hmem
        · cases heq
          rcases hharmless with hbase | ⟨hnot, -⟩
          · exact hbase
          · exact absurd hp hnot
        · exact hbelow p size' mtimeMs' ino' content' (List.mem_of_mem_filter hmem) hp
      · exact .inr ⟨node, (hother hq).trans hat, hnode⟩
  · by_cases hq : onDisk P q = onDisk P rel
    · rw [Disk.at_cons, if_pos hq] at hat
      cases hat
      rcases hharmless with hbase | ⟨-, hshows⟩
      · exact key_of_onDisk hq ▸ hbase
      · exact absurd ⟨hsize, hmtime, hino⟩ (hshows hq)
    · rw [hother hq] at hat
      exact h.self size' mtimeMs' ino' content' hat hsize hmtime hino

theorem Guarded.makeFolder {mtimeMs : Int} {ino : String} (h : Guarded P input synced rel here disk)
    (hfree : (disk.at P q).isSome = false) :
    Guarded P input synced rel here ((q, .folder mtimeMs ino) :: disk) := by
  refine ⟨?_, fun size' mtimeMs' ino' content' hat => ?_⟩
  · rcases h.below with hbelow | ⟨node, hat, hnode⟩
    · refine .inl fun p size' mtimeMs' ino' content' hmem hp => ?_
      rcases List.mem_cons.1 hmem with heq | hmem
      · cases heq
      · exact hbelow p size' mtimeMs' ino' content' hmem hp
    · refine .inr ⟨node, ?_, hnode⟩
      rw [Disk.at_cons, if_neg]
      · exact hat
      · intro hq
        -- both spellings find the same entry
        have hsame : disk.at P q = disk.at P rel := by
          unfold Disk.at
          rw [hq]
        rw [hsame, hat] at hfree
        cases hfree
  · rw [Disk.at_cons] at hat
    split at hat
    · cases hat
    · exact h.self size' mtimeMs' ino' content' hat

theorem Guarded.remove (h : Guarded P input synced rel here disk) :
    Guarded P input synced rel here (disk.filter fun e => !atOrBelow (onDisk P q) (onDisk P e.1)) := by
  by_cases hq : atOrBelow (onDisk P q) (onDisk P rel) = true
  · -- the path is gone with what is below it
    have hgone : ∀ {e}, e ∈ disk.filter (fun e => !atOrBelow (onDisk P q) (onDisk P e.1)) →
        ¬AtOrBelow (onDisk P rel) (onDisk P e.1) := by
      intro e he hrel
      have hnot := (List.mem_filter.1 he).2
      have hunder : atOrBelow (onDisk P q) (onDisk P e.1) = true := by
        rw [atOrBelow_iff] at hq ⊢
        rcases hrel with heq | hbelow
        · exact heq ▸ hq
        · rcases hq with heq | hq
          · exact .inr (heq ▸ hbelow)
          · exact .inr (Below.trans hq hbelow)
      rw [hunder] at hnot
      cases hnot
    refine ⟨.inl fun p _ _ _ _ hmem hp => absurd (.inr hp) (hgone hmem), fun _ _ _ _ hat => ?_⟩
    obtain ⟨p, hp, hmem⟩ := Disk.mem_of_at hat
    exact absurd (.inl hp) (hgone hmem)
  · have hsame : Disk.at P (disk.filter fun e => !atOrBelow (onDisk P q) (onDisk P e.1)) rel = disk.at P rel :=
      Disk.at_filter (f := fun k => !atOrBelow (onDisk P q) k) (by simpa using hq)
    refine ⟨?_, fun size mtimeMs ino content hat => ?_⟩
    · rcases h.below with hbelow | ⟨node, hat, hnode⟩
      · exact .inl fun p size mtimeMs ino content hmem =>
          hbelow p size mtimeMs ino content (List.mem_of_mem_filter hmem)
      · exact .inr ⟨node, hsame.trans hat, hnode⟩
    · rw [hsame] at hat
      exact h.self size mtimeMs ino content hat

theorem Guarded.edit {e : LocalEdit} (hharmless : Harmless P input synced rel here e)
    (h : Guarded P input synced rel here disk) : Guarded P input synced rel here (disk.edit P e) := by
  cases e with
  | write q size mtimeMs ino content =>
    simp only [Disk.edit]
    split
    · exact h
    · exact h.write hharmless
  | makeFolder q mtimeMs ino =>
    simp only [Disk.edit]
    split
    · exact h
    · rename_i hfree
      exact h.makeFolder (by simpa using hfree)
  | remove q => exact h.remove

/-- What the handler finds and moves is guarded. -/
theorem Guarded.keepsEdits (h : Guarded P input synced rel here disk) :
    KeepsEdits P input synced disk rel here := by
  rintro p size mtimeMs ino content hfile ⟨pairId, answers, target, hsees, htrash, hgoes⟩
  obtain ⟨rfl, a, ha, now, hstat, hsame⟩ := of_trashed htrash
  rw [hsees a ha] at hstat
  rcases hgoes with heq | ⟨⟨mtimeMs', ino', hfolder⟩, hbelow⟩
  · -- the file is at the path of the action, perhaps in another spelling
    have hat : disk.at P target = some (.file size mtimeMs ino content) := by
      rw [← hfile]
      unfold Disk.at
      rw [heq]
    have hnow : now = ⟨target, .file, size, mtimeMs, ino, none⟩ := by
      unfold Disk.stat at hstat
      rw [hat] at hstat
      exact (Option.some.inj hstat).symm
    have hentry := hsame (by rw [hnow])
    rw [hnow] at hentry
    unfold sameEntry at hentry
    simp only [Bool.and_eq_true, decide_eq_true_eq] at hentry
    rw [key_of_onDisk heq]
    exact h.self size mtimeMs ino content hat hentry.1.1 hentry.1.2 hentry.2
  · rcases h.below with hall | ⟨node, hat, hnode⟩
    · obtain ⟨q, hq, hmem⟩ := Disk.mem_of_at hfile
      rw [← key_of_onDisk hq]
      exact hall q size mtimeMs ino content hmem (hq ▸ hbelow)
    · rw [hfolder, Option.some.injEq] at hat
      exact absurd hat.symm (hnode _ _)

end Edits

/-! ## Plans -/

section Plans

variable {ignore leftOut : Rel → Bool} {content : Rel → String} {other : Rel → DiskNode} {root : List Dirent}

/-- An entry of the planner and the scan's. -/
theorem Scanned.entry (h : Scanned input (scanLocal ignore leftOut root)) {entry : LocalFile}
    (hentry : entry ∈ (scanLocal ignore leftOut root).entries) :
    ∃ each ∈ input.locals, each.rel = entry.rel ∧ each.type = entry.type ∧ each.size = entry.size ∧
      each.mtimeMs = entry.mtimeMs ∧ each.ino = entry.ino := by
  obtain ⟨checksums, hlocals⟩ := h.locals
  rw [hlocals]
  exact ⟨_, List.mem_map_of_mem hentry, rfl, rfl, rfl, rfl, rfl⟩

theorem below_key (hP : KeysByName P) {a b : Rel} (h : Below a b) : Below (P.pathKey a) (P.pathKey b) := by
  obtain ⟨rest, rfl⟩ := h
  exact ⟨P.pathKey rest, hP.join a rest⟩

theorem below_key_of_onDisk (hP : KeysByName P) {a b : Rel} (h : Below (onDisk P a) (onDisk P b)) :
    Below (P.pathKey a) (P.pathKey b) := by
  unfold onDisk at h
  split at h
  · exact h
  · exact below_key hP h

variable (hP : KeysByName P) (hscan : Scanned input (scanLocal ignore leftOut root))

include hP hscan

/-- What is on the disk at a path that sync does not leave alone, and does not leave alone above, is seen. -/
theorem seen_or_excluded {p : Rel} {node : DiskNode} (hmem : (p, node) ∈ diskOf content other root) :
    (∃ each ∈ input.allExcluded, each.side = .onLocal ∧ P.pathKey each.rel ≠ [] ∧
        AtOrBelow (P.pathKey each.rel) (P.pathKey p)) ∨
      ∃ each ∈ input.locals, each.rel = p ∧
        match node with
        | .file size mtimeMs ino _ =>
          each.type = .file ∧ each.size = size ∧ each.mtimeMs = mtimeMs ∧ each.ino = ino
        | .folder mtimeMs ino => each.type = .folder ∧ each.mtimeMs = mtimeMs ∧ each.ino = ino
        | _ => False := by
  have hshows : Shows (scanLocal ignore leftOut root) p node := shows_diskOfDirents [] root (p, node) hmem
  rcases hshows with ⟨each, heach, hne, hrel⟩ | ⟨entry, hentry, rfl, hnode⟩
  · refine .inl ⟨each, List.mem_append_left _ (hscan.excluded each heach),
      onLocal_scanDirents [] root each heach, hP.nonempty _ hne, ?_⟩
    rcases hrel with rfl | hbelow
    · exact .inl rfl
    · exact .inr (below_key hP hbelow)
  · obtain ⟨each, heach, hrel, htype, hsize, hmtime, hino⟩ := hscan.entry hentry
    refine .inr ⟨each, heach, hrel, ?_⟩
    cases node with
    | file size mtimeMs ino content => simpa [htype, hsize, hmtime, hino] using hnode
    | folder mtimeMs ino => simpa [htype, hsize, hmtime, hino] using hnode
    | link ino => exact hnode
    | special size mtimeMs ino => exact hnode

variable (hkeys : (input.locals.map fun entry => P.pathKey entry.rel).Nodup)
  (htold : ToldApart P input synced (diskOf content other root))
  (haction : .trashLocal rel here ∈ (plan P input).actions)

omit hP hscan in
include haction in
theorem trashLocal_rel : here ∈ input.locals ∧ rel = here.rel := by
  obtain ⟨-, k, -, -, hremoved, -, rfl⟩ := trashLocal_mem_plan.mp haction
  refine ⟨(mem_of_localAt hremoved.stays).1, ?_⟩
  unfold cellAt
  rw [locals_get_iff.mpr hremoved.stays]
  rfl

include hkeys htold haction

/-- Nothing at or below a trashed path had another content than the base's at the scan. -/
theorem guarded_diskOf : Guarded P input synced rel here (diskOf content other root) := by
  obtain ⟨hhere, rfl⟩ := trashLocal_rel haction
  have hne : P.pathKey here.rel ≠ [] := by
    obtain ⟨entry, hentry, hrel, -⟩ := hscan.key_of_mem hhere
    rw [← hrel]
    exact key_ne_nil hP hentry
  have hmay := trashLocal_mayTrash hkeys haction hne
  have hfree : ∀ each ∈ input.allExcluded, P.pathKey each.rel ≠ [] →
      ¬AtOrBelow (P.pathKey each.rel) (P.pathKey here.rel) := by
    intro each heach hnil hat
    obtain ⟨hnot, hnotBelow⟩ := hmay.notExcluded each heach hnil
    rcases hat with heq | hbelow
    · exact hnot heq.symm
    · exact hnotBelow hbelow
  have hsame : ∀ each ∈ input.locals, P.pathKey each.rel = P.pathKey here.rel → each = here :=
    fun each heach hkey => List.inj_on_of_nodup_map hkeys heach hhere hkey
  refine ⟨?_, fun size mtimeMs ino bytes hat hsize hmtime hino => ?_⟩
  · cases htype : here.type with
    | folder =>
      refine .inl fun p size mtimeMs ino bytes hmem hp => ?_
      have hbelow := below_key_of_onDisk hP hp
      rcases seen_or_excluded hP hscan hmem with ⟨each, heach, hside, hnil, hat⟩ | ⟨each, heach, rfl, hnode⟩
      · rcases atOrBelow_or_below hbelow hat with hover | hunder
        · exact absurd hover (hfree each heach hnil)
        · exact absurd hunder (hmay.excludedBelow htype each heach hside)
      · obtain ⟨hfile, hsize, hmtime, hino⟩ := hnode
        obtain ⟨previous, hprevious, -, hstat⟩ := hmay.filesBelow htype each heach hfile hbelow
        simp only [sameStat, Bool.and_eq_true, decide_eq_true_eq] at hstat
        obtain ⟨hbase, hsynced⟩ := htold.byStat _ _ _ _ _ hmem previous hprevious
          (hsize.symm.trans hstat.1.1) (hmtime.symm.trans hstat.1.2) (hino.symm.trans hstat.2)
        exact ⟨previous, hprevious, hbase, hsynced⟩
    | file =>
      obtain ⟨entry, hentry, hrel, -⟩ := hscan.key_of_mem hhere
      obtain ⟨node, hnode⟩ : ∃ node, (entry.rel, node) ∈ diskOf content other root :=
        onDisk_scanDirents [] root entry hentry
      rw [hrel] at hnode
      obtain ⟨first, hfirst⟩ := Option.isSome_iff_exists.1 (Disk.at_isSome (P := P) hnode)
      refine .inr ⟨first, hfirst, ?_⟩
      rintro mtimeMs ino rfl
      obtain ⟨p, hp, hmem⟩ := Disk.mem_of_at hfirst
      have hkey := key_of_onDisk hp
      rcases seen_or_excluded hP hscan hmem with ⟨each, heach, -, hnil, hat⟩ | ⟨each, heach, rfl, hfolder, -⟩
      · exact hfree each heach hnil (hkey ▸ hat)
      · rw [hsame each heach hkey, htype] at hfolder
        cases hfolder
  · obtain ⟨p, hp, hmem⟩ := Disk.mem_of_at hat
    have hkey := key_of_onDisk hp
    rcases seen_or_excluded hP hscan hmem with ⟨each, heach, -, hnil, hat⟩ | ⟨each, heach, rfl, hfile, -⟩
    · exact absurd (hkey ▸ hat) (hfree each heach hnil)
    · obtain rfl : here = each := (hsame each heach hkey).symm
      obtain ⟨previous, hprevious, -, hunchanged⟩ := hmay.synced
      rcases hunchanged hfile with hstat | ⟨-, hchecksum⟩
      · simp only [sameStat, Bool.and_eq_true, decide_eq_true_eq] at hstat
        obtain ⟨hbase, hsynced⟩ := htold.byStat _ _ _ _ _ hmem previous hprevious
          (hsize.trans hstat.1.1) (hmtime.trans hstat.1.2) (hino.trans hstat.2)
        exact ⟨previous, hprevious, hbase, hsynced⟩
      · cases hknown : here.checksum with
        | none =>
          rw [hknown] at hchecksum
          cases hchecksum
        | some checksum =>
          rw [hknown, Option.map_some, Option.some.injEq] at hchecksum
          obtain ⟨hbase, hsynced⟩ := htold.saved previous (of_base_get hprevious).1 checksum hchecksum.symm
          exact ⟨previous, hprevious, hbase,
            hsynced.trans (htold.byChecksum _ _ _ _ _ hmem here hhere rfl checksum hknown)⟩

/-- Over a run of edits none of which gives a file below the path another content than the base's, or one to
the path itself that its stat does not show, the handler trashes no edit. -/
theorem run_keepsEdits {edits : List LocalEdit}
    (hedits : RunMeets (Disk.edit P) (fun _ e => Harmless P input synced rel here e)
      (diskOf content other root) edits) :
    KeepsEdits P input synced (edits.foldl (Disk.edit P) (diskOf content other root)) rel here :=
  (hedits.keeps (fun _ _ hharmless h => h.edit hharmless)
    (guarded_diskOf hP hscan hkeys htold haction)).keepsEdits

end Plans

/-! ## A folder deleted on the server -/

section Reports

def docsName : DiskName := ⟨"docs".toList, by decide, by decide⟩

def reportName : DiskName := ⟨"report.txt".toList, by decide, by decide⟩

def keepName : DiskName := ⟨"keep.txt".toList, by decide, by decide⟩

def reportRel : Rel := "docs/report.txt".toList

def oldReport : String := "01d09d19c2139a46aebfb577780d123d7396e97201bc7ead210a2ebff8239dee"

def newReport : String := "6b106c86faff5b074c2346c4729b9b3bd3deb70830b714aa69f39a5e2162c17b"

def keepContent : String := "6ca7ea2feefc88ecb5ed6356ed963f47dc9137f82526fdd25d618ea626d0803f"

def reports : List Dirent :=
  [.file keepName 4 3 "9", .folder docsName 7 "10" true [.file reportName 4 5 "11"]]

def reportContent (rel : Rel) : String := if rel = reportRel then oldReport else keepContent

def reportDisk : Disk := diskOf reportContent (fun _ => .link "0") reports

def docsHere : LocalFile := ⟨"docs".toList, .folder, 0, 7, "10", none⟩

/-- All is synced, and the folder `docs` is gone on the server. -/
def docsDeleted : PlanInput where
  pairId := "p"
  mode := .twoWay
  locals := (scanLocal (fun _ => false) (fun _ => false) reports).entries
  remote := [⟨"keep.txt".toList,
    ⟨"k", .file, some "root", "keep.txt".toList, some 4, some keepContent, 1, none⟩⟩]
  skipped := []
  excluded := []
  base := [⟨"p", "docs".toList, .folder, "d", 1, none, 0, 7, "10"⟩,
    ⟨"p", reportRel, .file, "r", 1, some oldReport, 4, 5, "11"⟩,
    ⟨"p", "keep.txt".toList, .file, "k", 1, some keepContent, 4, 3, "9"⟩]
  allowEmptied := false

def syncedContent (entry : BaseEntry) : String := entry.checksum.getD ""

theorem docs_trashed : .trashLocal "docs".toList docsHere ∈ (plan folding docsDeleted).actions := by
  decide

theorem docsDeleted_scanned :
    Scanned docsDeleted (scanLocal (fun _ => false) (fun _ => false) reports) where
  locals := ⟨fun _ => none, by decide⟩
  excluded := by decide

theorem reports_toldApart : ToldApart folding docsDeleted syncedContent reportDisk where
  byStat := by
    have hfiles : reportDisk = [("keep.txt".toList, .file 4 3 "9" keepContent), ("docs".toList, .folder 7 "10"),
        (reportRel, .file 4 5 "11" oldReport)] := by decide
    intro rel size mtimeMs ino content hmem previous hprevious
    obtain ⟨hbase, hkey⟩ := of_base_get hprevious
    rw [hfiles] at hmem
    simp only [List.mem_cons, Prod.mk.injEq, DiskNode.file.injEq, reduceCtorEq, and_false, false_or,
      List.not_mem_nil, or_false] at hmem
    simp only [docsDeleted, List.mem_cons, List.not_mem_nil, or_false] at hbase
    rcases hmem with ⟨rfl, rfl, rfl, rfl, rfl⟩ | ⟨rfl, rfl, rfl, rfl, rfl⟩ <;>
      rcases hbase with rfl | rfl | rfl <;> revert hkey <;> decide
  byChecksum := by
    have hnone : ∀ here ∈ docsDeleted.locals, here.checksum = none := by decide
    intro rel size mtimeMs ino content _ here hhere _ checksum hchecksum
    rw [hnone here hhere] at hchecksum
    cases hchecksum
  saved := by decide

/-- A file is made beside the folder, and the folder is made again in another spelling, with the content that is
synced there. -/
theorem run_keepsEdits_saved :
    KeepsEdits folding docsDeleted syncedContent
      ([LocalEdit.write "new.txt".toList 16 900 "12" newReport, .remove "docs".toList,
          .makeFolder "DOCS".toList 8 "14", .write "DOCS/report.txt".toList 4 800 "13" oldReport].foldl
        (Disk.edit folding) reportDisk) "docs".toList docsHere := by
  refine run_keepsEdits folding_keysByName docsDeleted_scanned (by decide) reports_toldApart docs_trashed ?_
  refine ⟨.inr (by decide), trivial, trivial, .inl ?_, trivial⟩
  refine ⟨⟨"p", reportRel, .file, "r", 1, some oldReport, 4, 5, "11"⟩, ?_, rfl, rfl⟩
  unfold BaseAt
  decide

/-- The report is edited after the scan. -/
def reportEdit : LocalEdit := .write reportRel 16 900 "11" newReport

theorem edited_report_trashed :
    .trashLocal "docs".toList docsHere ∈ (plan folding docsDeleted).actions ∧
      ¬KeepsEdits folding docsDeleted syncedContent (reportDisk.edit folding reportEdit) "docs".toList docsHere := by
  refine ⟨docs_trashed, fun hkeeps => ?_⟩
  have hmoves : MovesToTrash folding (reportDisk.edit folding reportEdit) docsDeleted.base "docs".toList docsHere
      reportRel := by
    refine ⟨"p", [⟨.returns, some docsHere, none, none, "", [], false⟩,
      ⟨.returns, none, none, none, "", [], false⟩, ⟨.returns, none, none, none, "", [], false⟩],
      "docs".toList, ?_, by decide, .inr ⟨⟨7, "10", by decide⟩, by decide⟩⟩
    rintro a ha
    cases ha
    decide
  obtain ⟨previous, hprevious, -, hcontent⟩ := hkeeps reportRel 16 900 "11" newReport (by decide) hmoves
  have hbase : ∀ each ∈ docsDeleted.base, syncedContent each ≠ newReport := by decide
  exact hbase previous (of_base_get hprevious).1 hcontent

end Reports

end Staaash.Pair
