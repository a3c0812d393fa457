import Staaash.Feed.Proofs.ChangeLogProofs
import Staaash.Library.Fuel
import Staaash.Remote.Proofs.EntriesProofs
import Staaash.Remote.Proofs.TreeProofs

/-!
# Proofs: the server tree stays a forest

A put keeps the tree a forest just when the item is put apart from what lies below it; removals always
do. Whatever is put was read at some moment of the server, and no moment has a folder inside itself: so
what is put in step is put apart. In a run that keeps in step no step walks for ever, and neither does
any walk in a state it comes to.
-/

namespace Staaash.Remote

open Relation
open Staaash.Library
open Staaash.Planner

namespace RemoteTree

variable {t t' : RemoteTree} {item : RemoteItem}

/-- The item is not to be put under itself, or under a folder that the tree has below it. -/
def PutApart (t : RemoteTree) (item : RemoteItem) : Prop :=
  ∀ parentId, item.parentId = some parentId → ¬ AtOrAbove t.up parentId item.id

/-- A forest whose children are kept right. -/
structure Sane (t : RemoteTree) : Prop where
  wellFormed : t.WellFormed
  forest : t.Forest

/-- Putting an item keeps the tree a forest just when it is put apart. -/
theorem Sane.forest_put_iff (h : t.Sane) : (t.put item).Forest ↔ t.PutApart item := by
  unfold Forest PutApart
  rw [up_put]
  cases hp : item.parentId with
  | none =>
    refine ⟨fun _ _ he => (by cases he), fun _ => h.forest.mono ?_⟩
    intro x y hxy
    by_cases hx : x = item.id
    · rw [hx, Function.update_self] at hxy
      cases hxy
    · rwa [Function.update_of_ne hx] at hxy
  | some p =>
    rw [acyclic_update_iff h.forest]
    constructor
    · intro hapart q hq
      rwa [← Option.some.inj hq]
    · intro hapart
      exact hapart p rfl

theorem Sane.put (h : t.Sane) (hapart : t.PutApart item) : (t.put item).Sane :=
  ⟨h.wellFormed.put item, h.forest_put_iff.2 hapart⟩

theorem Sane.removeSubtree (h : t.Sane) (id : String) :
    Ends (fun fuel => t.removeSubtree fuel id) Sane := by
  refine ends_of_mono removeSubtree_mono (h.wellFormed.removeSubtree_ends h.forest id) ?_
  intro fuel t' ht'
  obtain ⟨hwf, -, hitems⟩ := h.wellFormed.removeSubtree ht'
  refine ⟨hwf, h.forest.mono fun x y hxy => ?_⟩
  obtain ⟨item, hget, hp⟩ := up_eq_some.1 hxy
  exact up_eq_some.2 ⟨item, ((hitems x item).1 hget).1, hp⟩

theorem Sane.removeKnown (h : t.Sane) (id : String) :
    Ends (fun fuel => t.removeKnown fuel id) Sane := by
  unfold RemoteTree.removeKnown
  split
  · exact h.removeSubtree id
  · exact ends_some h

theorem Sane.removeUnder (h : t.Sane) (rootId : String) :
    Ends (fun fuel => t.removeUnder fuel rootId) Sane := by
  refine ends_foldlM (fun t h child _ => ?_) h
  split
  · exact h.removeSubtree child
  · exact ends_some h

theorem Sane.putAll (h : t.Sane) {items : List RemoteItem} (hapart : t.ReplacePuts PutApart items) :
    (items.foldl RemoteTree.put t).Sane := by
  induction items generalizing t with
  | nil => exact h
  | cons item items ih => exact ih (h.put hapart.1) hapart.2

theorem Sane.addUnder (h : t.Sane) {items : List RemoteItem} (hapart : t.AddPuts PutApart items) :
    (t.addUnder items).Sane := by
  induction items generalizing t with
  | nil => exact h
  | cons item items ih =>
    show (RemoteTree.addUnder (if t.takes item then t.put item else t) items).Sane
    rw [AddPuts] at hapart
    by_cases htakes : t.takes item = true
    · rw [if_pos htakes] at hapart ⊢
      exact ih (h.put hapart.1) hapart.2
    · rw [if_neg htakes] at hapart ⊢
      exact ih h hapart

theorem Sane.apply (h : t.Sane) {change : StorageChange}
    (hapart : t.putsChange change = true → t.PutApart (fromChange change)) :
    Ends (fun fuel => t.apply fuel change) fun r => r.1.Sane := by
  unfold RemoteTree.apply
  by_cases hroot : change.itemId ∈ t.roots
  · simp only [if_pos hroot]
    exact ends_some h
  simp only [if_neg hroot]
  by_cases htakes : t.takes (fromChange change) = true
  case neg =>
    simp only [htakes, Bool.not_false, if_true]
    exact ends_some h
  simp only [htakes, Bool.not_true, Bool.false_eq_true, if_false]
  by_cases hkind : change.kind = .trashed ∨ change.kind = .deleted
  · simp only [if_pos hkind]
    exact (h.removeKnown change.itemId).map fun _ ht => ht
  simp only [if_neg hkind]
  by_cases hscope : t.inScope change.parentId = true
  · simp only [hscope, Bool.not_true, Bool.false_eq_true, if_false]
    refine ends_some (h.put (hapart ?_))
    rw [not_or] at hkind
    simp [putsChange, hroot, htakes, hkind, hscope]
  · simp only [hscope, Bool.not_false, if_true]
    exact (h.removeKnown change.itemId).map fun _ ht => ht

theorem Sane.set (h : t.Sane) (hapart : t.inScope item.parentId = true → t.PutApart item) :
    Ends (fun fuel => t.set fuel item) Sane := by
  unfold RemoteTree.set
  by_cases hscope : t.inScope item.parentId = true
  · simp only [hscope, Bool.not_true, Bool.false_eq_true, if_false]
    exact ends_some (h.put (hapart hscope))
  · simp only [hscope, Bool.not_false, if_true]
    exact h.removeKnown item.id

theorem sane_empty (roots : List String) : (empty roots).Sane := by
  refine ⟨wellFormed_empty roots, fun x hx => ?_⟩
  obtain ⟨y, hy, -⟩ := TransGen.head'_iff.1 hx
  cases hy

/-- Only the items and their children matter. -/
theorem Sane.setRoots (h : t.Sane) (roots : List String) : (t.setRoots roots).Sane :=
  ⟨⟨h.wellFormed.keyed, h.wellFormed.indexed⟩, h.forest⟩

theorem Sane.ofStore (h : t.Sane) (roots : List String) :
    (ofStore (t.items.entries.map Prod.snd) roots).Sane := by
  refine ⟨(wellFormed_empty roots).putAll _, h.forest.mono fun x y hxy => ?_⟩
  obtain ⟨item, hget, hp⟩ := up_eq_some.1 hxy
  rw [h.wellFormed.get_ofStore] at hget
  exact up_eq_some.2 ⟨item, hget, hp⟩

theorem Sane.walksEnd (h : t.Sane) : t.WalksEnd := by
  refine ⟨h.wellFormed.subtree_ends h.forest, fun R rootId => ?_⟩
  obtain ⟨n, hn⟩ := h.wellFormed.scope_ends h.forest R rootId
  obtain ⟨found, hfound⟩ := Option.isSome_iff_exists.1 (hn n (Nat.le_refl n))
  exact ⟨n, found, hfound⟩

end RemoteTree

/-! ## The engine -/

namespace Engine

variable {e : Engine} {s : Server} {p : Pulling} {idLe : String → String → Bool}

@[simp] theorem flag_tree (pairs : List SyncPair) (change : StorageChange) :
    (e.flag pairs change).tree = e.tree := by
  unfold flag
  split <;> rfl

theorem sane_applyPage (h : e.tree.Sane) (pairs : List SyncPair) {changes : List StorageChange}
    (hapart : e.tree.PagePuts RemoteTree.PutApart changes) :
    Ends (fun fuel => e.applyPage fuel pairs changes) fun r => r.1.tree.Sane := by
  induction changes generalizing e with
  | nil => exact ends_some h
  | cons change changes ih =>
    obtain ⟨n, r, hsane, hfuel, hall⟩ := h.apply hapart.1
    have hends : Ends (fun fuel => e.tree.apply fuel change)
        fun r => r.1.Sane ∧ r.1.PagePuts RemoteTree.PutApart changes :=
      ⟨n, r, ⟨hsane, hapart.2 n r.1 r.2 (hfuel n (Nat.le_refl n))⟩, hfuel, hall⟩
    exact hends.bind fun r hr => (ih hr.1 hr.2).map fun _ h => h

theorem sane_takePage {folderId : String} {gone : Engine} {done : Nat → Fetched → Option Engine}
    (h : e.tree.Sane) (hgone : gone.tree.Sane)
    (hdone : ∀ fetched, fetch idLe s folderId p.fetched = some (fetched, false) →
      Ends (fun fuel => done fuel fetched) fun e => e.tree.Sane) :
    Ends (fun fuel => e.takePage idLe s p folderId gone (done fuel)) fun e => e.tree.Sane := by
  unfold takePage
  cases hfetch : fetch idLe s folderId p.fetched with
  | none => exact ends_some hgone
  | some r =>
    obtain ⟨fetched, more⟩ := r
    cases more with
    | true => exact ends_some h
    | false => exact hdone fetched hfetch

theorem sane_takeSnapshot (h : e.tree.Sane) {pair : SyncPair} {fetched : Fetched}
    (hapart : ∀ fuel tree, e.tree.removeUnder fuel pair.remoteFolderId = some tree →
      tree.ReplacePuts RemoteTree.PutApart fetched.items) :
    Ends (fun fuel => e.takeSnapshot fuel pair fetched) fun e => e.tree.Sane := by
  obtain ⟨n, tree, hsane, hfuel, hall⟩ := h.removeUnder pair.remoteFolderId
  have hends : Ends (fun fuel => e.tree.removeUnder fuel pair.remoteFolderId)
      fun tree => tree.Sane ∧ tree.ReplacePuts RemoteTree.PutApart fetched.items :=
    ⟨n, tree, ⟨hsane, hapart n tree (hfuel n (Nat.le_refl n))⟩, hfuel, hall⟩
  refine (hends.map fun tree h => h.1.putAll h.2).map fun tree h => ?_
  show (lowerCursor _ _).tree.Sane
  unfold lowerCursor
  split
  · exact h
  · split
    · exact h
    · exact h

theorem sane_takeChanges (h : e.tree.Sane) {rest : List PullTask}
    {answer : Except Feed.ReadError (Feed.Page StorageChange)}
    (hapart : ∀ page, answer = .ok page → e.tree.PagePuts RemoteTree.PutApart (page.changes.map (·.change))) :
    Ends (fun fuel => e.takeChanges fuel p rest answer) fun e => e.tree.Sane := by
  match answer with
  | .ok page => exact (sane_applyPage h p.pairs (hapart page rfl)).map fun _ h => h
  | .error .expired => exact ends_some (RemoteTree.sane_empty e.tree.roots)
  | .error .noLastRow => exact ends_some h

/-- The next call of a pull ends, and keeps the tree a forest. -/
theorem sane_next {ownerUserId : String} (h : e.tree.Sane)
    (hapart : e.NextPuts idLe ownerUserId RemoteTree.PutApart s) :
    Ends (fun fuel => e.next idLe ownerUserId s fuel) fun e => e.tree.Sane := by
  unfold next
  cases hp : e.pulling with
  | none => exact ends_some h
  | some p =>
    have hapart := hapart p hp
    match hp' : p.todo with
    | [] =>
      simp only [hp']
      exact ends_some h
    | .pairIfNew pair :: rest =>
      simp only [hp']
      by_cases hready : pair.id ∈ e.ready
      · simp only [if_pos hready]
        exact ends_some h
      · simp only [if_neg hready]
        exact ends_some h
    | .pair pair :: rest =>
      simp only [hp'] at hapart ⊢
      refine sane_takePage h h fun fetched hfetch => ?_
      exact (sane_takeSnapshot h (hapart fetched hfetch)).map fun _ h => h
    | .reveal folderId :: rest =>
      simp only [hp'] at hapart ⊢
      refine sane_takePage h h fun fetched hfetch => ?_
      exact ends_some (h.addUnder (hapart fetched hfetch))
    | .changes :: rest =>
      simp only [hp'] at hapart ⊢
      exact sane_takeChanges h hapart
    | .endPage cursor hasMore :: rest =>
      simp only [hp']
      exact ends_some h

end Engine

/-! ## Runs -/

variable {idLe : String → String → Bool} {ownerUserId : String} {s : System}

theorem System.sane_step (h : s.engine.tree.Sane) {e : Event}
    (hapart : s.StepPuts idLe ownerUserId RemoteTree.PutApart e) :
    Ends (fun fuel => s.step idLe ownerUserId fuel e) fun s => s.engine.tree.Sane := by
  cases e with
  | commit after entities skipped createdAt => exact ends_some h
  | prune newest now => exact ends_some h
  | restore server => exact ends_some h
  | pull =>
    refine ends_some ?_
    show (Engine.pull _).tree.Sane
    unfold Engine.pull
    split
    · exact h
    · exact h
  | next => exact (Engine.sane_next h hapart).map fun _ h => h
  | fail => exact ends_some h
  | set item => exact (h.set hapart).map fun _ h => h
  | removeSubtree id => exact (h.removeSubtree id).map fun _ h => h
  | configure pairs => exact ends_some (h.setRoots _)
  | restart => exact ends_some (h.ofStore [])

/-! ## What is put was read -/

section Read

variable {past later : List Server} {item : RemoteItem} {mid : System} {e : Event}

theorem ReadFrom.mono (h : ReadFrom past item) (hle : ∀ server ∈ past, server ∈ later) :
    ReadFrom later item := by
  obtain ⟨server, hmem, hup⟩ := h
  exact ⟨server, hle server hmem, hup⟩

theorem Event.Real.mono (h : e.Real past) (hle : ∀ server ∈ past, server ∈ later) : e.Real later := by
  cases e with
  | set item => exact ReadFrom.mono h hle
  | restore server => exact hle server h
  | commit | prune | pull | next | fail | removeSubtree | configure | restart => trivial

/-- An entry names the folder that the item was in before or after the commit. -/
theorem up_of_mem_commitEntries {before after : Table} {entities : List ItemKey}
    {change : StorageChange} (h : change ∈ commitEntries before after entities) :
    after.up change.itemId = change.parentId ∨ before.up change.itemId = change.parentId := by
  have hrow : ∀ {table : Table} {key current},
      (readStorageItemSnapshot table entities).get key = some current →
        table.up current.id = current.parentId := by
    intro table key current hget
    obtain ⟨-, row, hrow, -, -, rfl⟩ := get_readStorageItemSnapshot.1 hget
    show (table.get key.2).bind (·.parentId) = row.parentId
    rw [hrow, Option.bind_some]
  obtain ⟨key, kind, current, -, hcurrent, -, rfl⟩ :=
    Commit.mem_entries (c := ⟨before, after, entities⟩) |>.1 h
  rcases Option.or_eq_some_iff.1 hcurrent with hnew | ⟨-, hold⟩
  · exact .inl (hrow hnew)
  · exact .inr (hrow hold)

/-- A page of a snapshot has the items in their folders. -/
theorem up_of_mem_fetch {server : Server} {folderId : String} {fetched fetched' : Fetched}
    {more : Bool} (h : Engine.fetch idLe server folderId fetched = some (fetched', more))
    (hmem : item ∈ fetched'.items) :
    item ∈ fetched.items ∨ server.now.table.up item.id = item.parentId := by
  obtain ⟨page, hpage, heq⟩ := Option.map_eq_some_iff.1 h
  obtain ⟨rfl, -⟩ := Prod.mk.inj heq
  rcases List.mem_append.1 hmem with hmem | hmem
  · exact .inl hmem
  · obtain ⟨listed, hlisted, rfl⟩ := List.mem_map.1 hmem
    obtain ⟨root, -, hpage⟩ := Option.bind_eq_some_iff.1 hpage
    obtain ⟨-, hpage⟩ := Option.ite_none_right_eq_some.1 hpage
    obtain rfl := Option.some.inj hpage
    have hlisting := (List.mem_insertionSort _).1 (List.mem_filter.1 (List.mem_of_mem_take hlisted)).1
    obtain ⟨⟨id, row⟩, hentry, rfl⟩ := List.mem_map.1 hlisting
    have hget := (server.now.table.get_eq_some_iff id row).2 (List.mem_filter.1 hentry).1
    right
    show (server.now.table.get id).bind (·.parentId) = row.parentId
    rw [hget, Option.bind_some]

/-- What the server has told so far, and what a pull has fetched, was so at some moment. -/
structure System.Known (past : List Server) (s : System) : Prop where
  now : s.server ∈ past
  log : ∀ server ∈ past, ∀ row ∈ server.log.rows, ReadFrom past (fromChange row.change)
  fetched : ∀ p, s.engine.pulling = some p → ∀ item ∈ p.fetched.items, ReadFrom past item

theorem fetched_goOn {e : Engine} {p p' : Pulling} {todo : List PullTask}
    (hp' : (e.goOn p todo).pulling = some p') : p'.fetched = .none := by
  unfold Engine.goOn at hp'
  split_ifs at hp' with htodo
  exact Option.some.inj hp' ▸ rfl

/-- A pull that goes on has read nothing yet, or another page. -/
theorem fetched_next {engine engine' : Engine} {server : Server} {fuel : Nat} {p' : Pulling}
    (h : engine.next idLe ownerUserId server fuel = some engine') (hp' : engine'.pulling = some p') :
    p'.fetched = .none ∨ ∃ p folderId, engine.pulling = some p ∧
      Engine.fetch idLe server folderId p.fetched = some (p'.fetched, true) := by
  -- a page is the last one, or the pull goes on with it
  have hpage : ∀ {p folderId gone} {done : Fetched → Option Engine}, engine.pulling = some p →
      engine.takePage idLe server p folderId gone done = some engine' →
      (gone.pulling = some p' → p'.fetched = .none) →
      (∀ fetched, done fetched = some engine' → p'.fetched = .none) →
      p'.fetched = .none ∨ ∃ p folderId, engine.pulling = some p ∧
        Engine.fetch idLe server folderId p.fetched = some (p'.fetched, true) := by
    intro p folderId gone done hp htake hgone hdone
    unfold Engine.takePage at htake
    split at htake
    · obtain rfl := Option.some.inj htake
      exact .inl (hgone hp')
    · next fetched hfetch =>
      obtain rfl := Option.some.inj htake
      obtain rfl := Option.some.inj hp'
      exact .inr ⟨p, folderId, hp, hfetch⟩
    · exact .inl (hdone _ htake)
  unfold Engine.next at h
  split at h
  · next hnone =>
    obtain rfl := Option.some.inj h
    rw [hnone] at hp'
    cases hp'
  · next p hp =>
    split at h
    · obtain rfl := Option.some.inj h
      cases hp'
    · left
      split_ifs at h with hready
      · exact fetched_goOn (Option.some.inj h ▸ hp')
      · exact fetched_goOn (Option.some.inj h ▸ hp')
    · refine hpage hp h fetched_goOn fun fetched hdone => ?_
      obtain ⟨e, -, rfl⟩ := Option.map_eq_some_iff.1 hdone
      exact fetched_goOn hp'
    · refine hpage hp h fetched_goOn fun fetched hdone => ?_
      exact fetched_goOn (Option.some.inj hdone ▸ hp')
    · left
      unfold Engine.takeChanges at h
      split at h
      · obtain ⟨⟨e, reveal⟩, -, rfl⟩ := Option.map_eq_some_iff.1 h
        exact fetched_goOn hp'
      · exact fetched_goOn (Option.some.inj h ▸ hp')
      · obtain rfl := Option.some.inj h
        cases hp'
    · exact .inl (fetched_goOn (Option.some.inj h ▸ hp'))

/-- A step that leaves the server as it is. -/
theorem System.Known.stays (h : s.Known past) {engine : Engine}
    (hfetched : ∀ p, engine.pulling = some p → ∀ item ∈ p.fetched.items, ReadFrom past item) :
    System.Known (s.server :: past) ⟨s.server, engine⟩ where
  now := List.mem_cons_self
  log server hmem row hrow := by
    have hmem : server ∈ past := by
      rcases List.mem_cons.1 hmem with rfl | hmem
      · exact h.now
      · exact hmem
    exact (h.log server hmem row hrow).mono fun _ => List.mem_cons_of_mem _
  fetched p hp item hitem := (hfetched p hp item hitem).mono fun _ => List.mem_cons_of_mem _

/-- A step of the server, whose rows are from before or tell of what it was or is. -/
theorem System.Known.goesOn (h : s.Known past) {server : Server}
    (hrows : ∀ row ∈ server.log.rows, ReadFrom (server :: past) (fromChange row.change)) :
    System.Known (server :: past) ⟨server, s.engine⟩ where
  now := List.mem_cons_self
  log server' hmem row hrow := by
    rcases List.mem_cons.1 hmem with rfl | hmem
    · exact hrows row hrow
    · exact (h.log server' hmem row hrow).mono fun _ => List.mem_cons_of_mem _
  fetched p hp item hitem := (h.fetched p hp item hitem).mono fun _ => List.mem_cons_of_mem _

theorem System.Known.step (h : s.Known past) (hreal : e.Real past)
    (hstep : s.Step idLe ownerUserId e mid) : mid.Known (mid.server :: past) := by
  obtain ⟨fuel, hstep⟩ := hstep
  have hold : ∀ {server : Server}, ∀ row ∈ s.server.log.rows,
      ReadFrom (server :: past) (fromChange row.change) := fun row hrow =>
    (h.log s.server h.now row hrow).mono fun _ => List.mem_cons_of_mem _
  cases e with
  | commit after entities skipped createdAt =>
    obtain rfl := Option.some.inj hstep
    refine h.goesOn fun row hrow => ?_
    rcases List.mem_append.1 hrow with hrow | hrow
    · exact hold row hrow
    · obtain ⟨draft, hdraft, hchange⟩ := Feed.exists_of_mem_number hrow
      obtain ⟨change, hmem, rfl⟩ := List.mem_map.1 hdraft
      rw [hchange]
      rcases up_of_mem_commitEntries hmem with hup | hup
      · exact ⟨_, List.mem_cons_self, hup⟩
      · exact ⟨s.server, List.mem_cons_of_mem _ h.now, hup⟩
  | prune newest now =>
    obtain rfl := Option.some.inj hstep
    exact h.goesOn fun row hrow => hold row (List.mem_filter.1 hrow).1
  | restore server =>
    obtain rfl := Option.some.inj hstep
    exact h.goesOn fun row hrow =>
      (h.log server hreal row hrow).mono fun _ => List.mem_cons_of_mem _
  | pull =>
    obtain rfl := Option.some.inj hstep
    refine h.stays fun p hp item hitem => ?_
    unfold Engine.pull at hp
    split at hp
    · exact h.fetched p hp item hitem
    · obtain rfl := Option.some.inj hp
      cases hitem
  | next =>
    obtain ⟨engine, hnext, rfl⟩ := Option.map_eq_some_iff.1 hstep
    refine h.stays fun p' hp' item hitem => ?_
    rcases fetched_next hnext hp' with hnone | ⟨p, folderId, hp, hfetch⟩
    · rw [hnone] at hitem
      cases hitem
    · rcases up_of_mem_fetch hfetch hitem with hmem | hup
      · exact h.fetched p hp item hmem
      · exact ⟨s.server, h.now, hup⟩
  | fail =>
    obtain rfl := Option.some.inj hstep
    exact h.stays fun p hp => by cases hp
  | set item =>
    obtain ⟨tree, -, rfl⟩ := Option.map_eq_some_iff.1 hstep
    exact h.stays h.fetched
  | removeSubtree id =>
    obtain ⟨tree, -, rfl⟩ := Option.map_eq_some_iff.1 hstep
    exact h.stays h.fetched
  | configure pairs =>
    obtain rfl := Option.some.inj hstep
    exact h.stays h.fetched
  | restart =>
    obtain rfl := Option.some.inj hstep
    exact h.stays fun p hp => by cases hp

end Read

/-! ## Runs in step -/

section Runs

variable {past : List Server} {item : RemoteItem} {t : RemoteTree}
variable {P Q : RemoteTree → RemoteItem → Prop}

/-- No moment has a folder inside itself, so what is put in step is put apart. -/
theorem RemoteTree.InStep.apart (h : t.InStep past item) (hread : ReadFrom past item) :
    t.PutApart item := by
  obtain ⟨server, -, hup, hagree⟩ := h hread
  intro parentId hparent
  exact not_atOrAbove_of_agree server.now.acyclic (hup.trans hparent) hagree

theorem RemoteTree.PagePuts.mono {changes : List StorageChange}
    (hPQ : ∀ t, ∀ change ∈ changes, P t (fromChange change) → Q t (fromChange change))
    (h : t.PagePuts P changes) : t.PagePuts Q changes := by
  induction changes generalizing t with
  | nil => trivial
  | cons change changes ih =>
    refine ⟨fun hputs => hPQ t change List.mem_cons_self (h.1 hputs), fun fuel mid folder hmid => ?_⟩
    exact ih (fun t change' hmem => hPQ t change' (List.mem_cons_of_mem _ hmem)) (h.2 fuel mid folder hmid)

theorem RemoteTree.ReplacePuts.mono {items : List RemoteItem}
    (hPQ : ∀ t, ∀ item ∈ items, P t item → Q t item) (h : t.ReplacePuts P items) :
    t.ReplacePuts Q items := by
  induction items generalizing t with
  | nil => trivial
  | cons item items ih =>
    refine ⟨hPQ t item List.mem_cons_self h.1, ?_⟩
    exact ih (fun t item' hmem => hPQ t item' (List.mem_cons_of_mem _ hmem)) h.2

theorem RemoteTree.AddPuts.mono {items : List RemoteItem}
    (hPQ : ∀ t, ∀ item ∈ items, P t item → Q t item) (h : t.AddPuts P items) :
    t.AddPuts Q items := by
  induction items generalizing t with
  | nil => trivial
  | cons item items ih =>
    have hrest : ∀ t, ∀ item' ∈ items, P t item' → Q t item' :=
      fun t item' hmem => hPQ t item' (List.mem_cons_of_mem _ hmem)
    rw [AddPuts] at h ⊢
    split_ifs at h ⊢ with htakes
    · exact ⟨hPQ t item List.mem_cons_self h.1, ih hrest h.2⟩
    · exact ih hrest h

/-- What a step puts was read at some moment. -/
theorem System.Known.mono (h : s.Known past) {e : Event} (hreal : e.Real past)
    (hPQ : ∀ t item, ReadFrom past item → P t item → Q t item)
    (hputs : s.StepPuts idLe ownerUserId P e) : s.StepPuts idLe ownerUserId Q e := by
  cases e with
  | next =>
    intro p hp
    have hputs := hputs p hp
    have hfetched : ∀ folderId fetched,
        Engine.fetch idLe s.server folderId p.fetched = some (fetched, false) →
          ∀ t, ∀ item ∈ fetched.items, P t item → Q t item := by
      intro folderId fetched hfetch t item hmem
      refine hPQ t item ?_
      rcases up_of_mem_fetch hfetch hmem with hmem | hup
      · exact h.fetched p hp item hmem
      · exact ⟨s.server, h.now, hup⟩
    match hp' : p.todo with
    | [] => trivial
    | .pairIfNew pair :: rest => trivial
    | .endPage cursor hasMore :: rest => trivial
    | .pair pair :: rest =>
      simp only [hp'] at hputs ⊢
      intro fetched hfetch fuel tree hremove
      exact (hputs fetched hfetch fuel tree hremove).mono (hfetched _ fetched hfetch)
    | .reveal folderId :: rest =>
      simp only [hp'] at hputs ⊢
      intro fetched hfetch
      exact (hputs fetched hfetch).mono (hfetched _ fetched hfetch)
    | .changes :: rest =>
      simp only [hp'] at hputs ⊢
      intro page hpage
      refine (hputs page hpage).mono fun t change hmem => hPQ t _ ?_
      obtain ⟨row, hrow, rfl⟩ := List.mem_map.1 hmem
      exact h.log s.server h.now row (Feed.mem_of_read hpage hrow)
  | set item => exact fun hscope => hPQ _ item hreal (hputs hscope)
  | commit | prune | restore | pull | fail | removeSubtree | configure | restart => trivial

/-- In a run that keeps in step every step ends, and the tree stays a forest. -/
theorem System.sane_run (h : s.engine.tree.Sane) (hknown : s.Known past) {events : List Event}
    (hin : s.RunInStep idLe ownerUserId past events) :
    (∃ s', s.Run idLe ownerUserId events s') ∧
    ∀ s', s.Run idLe ownerUserId events s' → s'.engine.tree.Sane := by
  induction events generalizing s past with
  | nil =>
    refine ⟨⟨s, rfl⟩, ?_⟩
    rintro s' rfl
    exact h
  | cons e events ih =>
    obtain ⟨hreal, hputs, hrest⟩ := hin
    have hends := System.sane_step h
      (hknown.mono hreal (fun _ _ hread hput => RemoteTree.InStep.apart hput hread) hputs)
    have hih := fun mid (hmid : s.Step idLe ownerUserId e mid) (hsane : mid.engine.tree.Sane) =>
      ih hsane (hknown.step hreal hmid) (hrest mid hmid)
    constructor
    · obtain ⟨fuel, mid, hmid⟩ := hends.exists_eq_some
      obtain ⟨s', hs'⟩ := (hih mid ⟨fuel, hmid⟩ (hends.of_eq_some hmid)).1
      exact ⟨s', mid, ⟨fuel, hmid⟩, hs'⟩
    · rintro s' ⟨mid, ⟨fuel, hmid⟩, hs'⟩
      exact (hih mid ⟨fuel, hmid⟩ (hends.of_eq_some hmid)).2 s' hs'

/-- The app as it is installed, and a server that has not told anything yet. -/
def System.start (now : Moment) : System := ⟨⟨now, .empty⟩, .start⟩

theorem System.known_start (now : Moment) :
    (System.start now).Known [(System.start now).server] where
  now := List.mem_cons_self
  log server hmem row hrow := by
    obtain rfl := List.mem_singleton.1 hmem
    cases hrow
  fetched p hp := by cases hp

/-- As long as what is put is in step with the tree, every step of the app ends, the tree stays a forest,
and every walk through it ends. -/
theorem run_staysForest (now : Moment) (events : List Event)
    (hin : (System.start now).RunInStep idLe ownerUserId [(System.start now).server] events) :
    (∃ s', (System.start now).Run idLe ownerUserId events s') ∧
    ∀ s', (System.start now).Run idLe ownerUserId events s' →
      s'.engine.tree.Forest ∧ s'.engine.tree.WalksEnd := by
  have hstart : (System.start now).engine.tree.Sane := RemoteTree.sane_empty []
  obtain ⟨hends, hsane⟩ := System.sane_run hstart (System.known_start now) hin
  refine ⟨hends, fun s' hs' => ?_⟩
  exact ⟨(hsane s' hs').forest, (hsane s' hs').walksEnd⟩

end Runs

/-! ## A folder that comes into view with another inside -/

section Runs

/-- Every row names a parent that is listed before it. -/
def ParentsFirst (table : Table) : Prop :=
  ∀ entry ∈ table.entries, ∀ parentId ∈ entry.2.parentId,
    table.keys.idxOf parentId < table.keys.idxOf entry.1

instance (table : Table) : Decidable (ParentsFirst table) :=
  inferInstanceAs (Decidable (∀ entry ∈ table.entries, ∀ parentId ∈ entry.2.parentId,
    table.keys.idxOf parentId < table.keys.idxOf entry.1))

def Moment.ofTable (table : Table) (h : ParentsFirst table) : Moment where
  table
  acyclic := by
    refine acyclic_of_rank table.keys.idxOf fun x y hxy => ?_
    obtain ⟨row, hrow, hp⟩ := Option.bind_eq_some_iff.1 hxy
    exact h (x, row) ((table.get_eq_some_iff x row).1 hrow) y hp

def folderRow (parentId : Option String) (name : Rel) (rev : Nat) : Row :=
  ⟨.folder, parentId, name, parentId = none, none, none, none, rev, none⟩

/-- The pair folder `r` holds `y`; `x` lies outside. -/
def outside : Moment :=
  .ofTable (.ofList [("files", folderRow none [] 0), ("r", folderRow (some "files") ['r'] 0),
    ("y", folderRow (some "r") ['y'] 0), ("x", folderRow (some "files") ['x'] 0)]) (by decide)

/-- `x` is moved into `y`. -/
def inside : Moment :=
  .ofTable (.ofList [("files", folderRow none [] 0), ("r", folderRow (some "files") ['r'] 0),
    ("y", folderRow (some "r") ['y'] 0), ("x", folderRow (some "y") ['x'] 1)]) (by decide)

/-- `x` is moved out again. -/
def outsideAgain : Moment :=
  .ofTable (.ofList [("files", folderRow none [] 0), ("r", folderRow (some "files") ['r'] 0),
    ("y", folderRow (some "r") ['y'] 0), ("x", folderRow (some "files") ['x'] 2)]) (by decide)

/-- `y` is moved into `x`. -/
def swapped : Moment :=
  .ofTable (.ofList [("files", folderRow none [] 0), ("r", folderRow (some "files") ['r'] 0),
    ("x", folderRow (some "files") ['x'] 2), ("y", folderRow (some "x") ['y'] 1)]) (by decide)

def byLength (a b : String) : Bool := a.length ≤ b.length

def started : System := .start outside

/-- The pair is set up and the feed read; `x` comes into view. -/
def revealing : List Event :=
  [.configure [⟨"pair", "r"⟩], .pull, .next, .next, .next, .next, .next,
    .commit inside [(.folder, "x")] 0 0, .pull, .next, .next]

/-- Before its contents are fetched, `x` leaves again and takes `y` in. -/
def mixing : List Event :=
  revealing ++ [.commit outsideAgain [(.folder, "x")] 0 0, .commit swapped [(.folder, "y")] 0 0,
    .next]

def System.runWith (fuel : Nat) (s : System) : List Event → Option System
  | [] => some s
  | e :: events => (s.step byLength "owner" fuel e).bind (·.runWith fuel events)

theorem System.run_of_runWith {fuel : Nat} {s s' : System} {events : List Event}
    (h : s.runWith fuel events = some s') : s.Run byLength "owner" events s' := by
  induction events generalizing s with
  | nil => exact (Option.some.inj h).symm
  | cons e events ih =>
    obtain ⟨mid, hmid, hrest⟩ := Option.bind_eq_some_iff.1 h
    exact ⟨mid, ⟨fuel, hmid⟩, ih hrest⟩

/-- The server has the item where it is put, and what the tree has below it where the tree has it. -/
def ShownNow (server : Server) (t : RemoteTree) (item : RemoteItem) : Prop :=
  server.now.table.up item.id = item.parentId ∧
    ∀ id, Above t.up id item.id → server.now.table.up id = t.up id

theorem shownNow_of_up {server : Server} {t : RemoteTree} {item : RemoteItem} (h : t.Forest)
    (hup : server.now.table.up item.id = item.parentId)
    (hothers : ∀ id parentId, id ≠ item.id → t.up id = some parentId →
      server.now.table.up id = some parentId) : ShownNow server t item := by
  refine ⟨hup, fun id habove => ?_⟩
  obtain ⟨parentId, hparent, -⟩ := TransGen.head'_iff.1 habove
  rw [hparent]
  refine hothers id parentId ?_ hparent
  rintro rfl
  exact h _ habove

/-- A snapshot of one moment, over what that moment shows. -/
theorem replacePuts_shownNow {server : Server} {t : RemoteTree} {items : List RemoteItem}
    (hitems : ∀ item ∈ items, server.now.table.up item.id = item.parentId)
    (hshown : ∀ id parentId, t.up id = some parentId → server.now.table.up id = some parentId) :
    t.ReplacePuts (ShownNow server) items := by
  induction items generalizing t with
  | nil => trivial
  | cons item items ih =>
    have hup := hitems item List.mem_cons_self
    refine ⟨shownNow_of_up (server.now.acyclic.mono hshown) hup fun id parentId _ => hshown id parentId,
      ih (fun item' hmem => hitems item' (List.mem_cons_of_mem _ hmem)) fun id parentId hparent => ?_⟩
    rw [RemoteTree.up_put] at hparent
    by_cases hid : id = item.id
    · rw [hid, Function.update_self] at hparent
      rw [hid, hup, hparent]
    · rw [Function.update_of_ne hid] at hparent
      exact hshown id parentId hparent

/-- A run that shows what the server has at each step is in step, and only the steps that are taken have
to. -/
theorem System.runInStep_of_runWith {s : System} {past : List Server} {events : List Event}
    (h : s.engine.tree.Sane) (hknown : s.Known past) (hrun : (s.runWith 0 events).isSome)
    (hall : ∀ n mid e, s.runWith 0 (events.take n) = some mid → events[n]? = some e →
      mid.engine.tree.Sane →
        e.Real [mid.server] ∧ mid.StepPuts byLength "owner" (ShownNow mid.server) e) :
    s.RunInStep byLength "owner" past events := by
  induction events generalizing s past with
  | nil => trivial
  | cons e events ih =>
    obtain ⟨hreal, hputs⟩ := hall 0 s e rfl rfl h
    have hreal := hreal.mono fun server hmem => List.mem_singleton.1 hmem ▸ hknown.now
    have hin := hknown.mono hreal (Q := RemoteTree.InStep past)
      (fun t item _ hput _ => ⟨s.server, hknown.now, hput⟩) hputs
    have hsane := System.sane_step h
      (hknown.mono hreal (fun _ _ hread hput => RemoteTree.InStep.apart hput hread) hin)
    obtain ⟨s', hs'⟩ := Option.isSome_iff_exists.1 hrun
    obtain ⟨mid, hmid, hrest⟩ := Option.bind_eq_some_iff.1 hs'
    refine ⟨hreal, hin, ?_⟩
    rintro mid' ⟨fuel', hmid'⟩
    rw [hsane.unique hmid' hmid]
    refine ih (hsane.of_eq_some hmid) (hknown.step hreal ⟨0, hmid⟩)
      (Option.isSome_iff_exists.2 ⟨s', hrest⟩) fun n last e' hlast => ?_
    refine hall (n + 1) last e' ?_
    rw [List.take_succ_cons, System.runWith, hmid, Option.bind_some, hlast]

/-- `r` holds `y` with `x` inside, and `z`. -/
def nested : Moment :=
  .ofTable (.ofList [("files", folderRow none [] 0), ("r", folderRow (some "files") ['r'] 0),
    ("y", folderRow (some "r") ['y'] 0), ("x", folderRow (some "y") ['x'] 0),
    ("z", folderRow (some "r") ['z'] 0)]) (by decide)

/-- `y` is moved into `z`. -/
def deeper : Moment :=
  .ofTable (.ofList [("files", folderRow none [] 0), ("r", folderRow (some "files") ['r'] 0),
    ("z", folderRow (some "r") ['z'] 0), ("y", folderRow (some "z") ['y'] 1),
    ("x", folderRow (some "y") ['x'] 0)]) (by decide)

/-- The pair's first snapshot puts `y`, `x` and `z`, and the answer to a move puts `y` into `z`. -/
def movedHere : List Event :=
  [.configure [⟨"pair", "r"⟩], .pull, .next, .next, .commit deeper [(.folder, "y")] 0 0,
    .set ⟨"y", .folder, some "z", ['y'], none, none, 1, none⟩]

theorem run_staysForest_movedHere :
    (∃ s', (System.start nested).Run byLength "owner" movedHere s') ∧
    ∀ s', (System.start nested).Run byLength "owner" movedHere s' →
      s'.engine.tree.Forest ∧ s'.engine.tree.WalksEnd := by
  refine run_staysForest nested movedHere ?_
  refine System.runInStep_of_runWith (RemoteTree.sane_empty []) (System.known_start nested)
    (by decide +kernel) ?_
  intro n mid e hmid he hsane
  match n with
  | 0 | 1 | 4 => cases he; exact ⟨trivial, trivial⟩
  | 2 =>
    have htodo : ((System.start nested).runWith 0 (movedHere.take 2)).map
        (fun s => s.engine.pulling.map (·.todo)) =
          some (some [.pairIfNew ⟨"pair", "r"⟩, .changes]) := by
      decide +kernel
    cases he
    refine ⟨trivial, fun p hp => ?_⟩
    rw [show (System.start nested).runWith 0 (movedHere.take 2) = some mid from hmid,
      Option.map_some, hp, Option.map_some, Option.some.injEq, Option.some.injEq] at htodo
    rw [htodo]
    trivial
  | 3 =>
    have hstate : ((System.start nested).runWith 0 (movedHere.take 3)).map (fun s =>
        (s.engine.pulling, (Engine.fetch byLength s.server "r" .none).map (·.1.items),
          s.engine.tree, s.server.now.table)) =
        some (some ⟨[⟨"pair", "r"⟩], [.pair ⟨"pair", "r"⟩, .changes], .none⟩,
          some [⟨"y", .folder, some "r", ['y'], none, none, 0, none⟩,
            ⟨"x", .folder, some "y", ['x'], none, none, 0, none⟩,
            ⟨"z", .folder, some "r", ['z'], none, none, 0, none⟩], .empty ["r"], nested.table) := by
      decide +kernel
    cases he
    rw [show (System.start nested).runWith 0 (movedHere.take 3) = some mid from hmid,
      Option.map_some, Option.some.injEq, Prod.mk.injEq, Prod.mk.injEq, Prod.mk.injEq] at hstate
    obtain ⟨hpulling, hitems, htree, htable⟩ := hstate
    refine ⟨trivial, fun p hp => ?_⟩
    obtain rfl := Option.some.inj (hpulling.symm.trans hp)
    intro fetched hfetched fuel tree hremove
    rw [htree] at hremove
    obtain rfl := Option.some.inj hremove
    rw [show Engine.fetch byLength mid.server "r" .none = some (fetched, false) from hfetched,
      Option.map_some, Option.some.injEq] at hitems
    rw [hitems]
    refine replacePuts_shownNow ?_ fun id parentId hparent => ?_
    · rw [htable]
      decide +kernel
    · cases hparent
  | 5 =>
    have hstate : ((System.start nested).runWith 0 (movedHere.take 5)).map (fun s =>
        (s.server.now.table, s.engine.tree.items.keys, s.engine.tree.up "x", s.engine.tree.up "z")) =
        some (deeper.table, ["y", "x", "z"], some "y", some "r") := by
      decide +kernel
    cases he
    rw [show (System.start nested).runWith 0 (movedHere.take 5) = some mid from hmid,
      Option.map_some, Option.some.injEq, Prod.mk.injEq, Prod.mk.injEq, Prod.mk.injEq] at hstate
    obtain ⟨htable, hkeys, hx, hz⟩ := hstate
    have hup : mid.server.now.table.up "y" = some "z" := by
      rw [htable]
      rfl
    refine ⟨⟨mid.server, List.mem_cons_self, hup⟩, fun _ => ?_⟩
    refine shownNow_of_up hsane.forest hup fun id parentId hne hparent => ?_
    obtain ⟨item, hget, -⟩ := RemoteTree.up_eq_some.1 hparent
    have hmem : id ∈ ["y", "x", "z"] := hkeys ▸ (OrderedMap.mem_keys_iff _ _).2 ⟨item, hget⟩
    rw [htable, ← hparent]
    rcases List.mem_cons.1 hmem with rfl | hmem
    · exact absurd rfl hne
    rcases List.mem_cons.1 hmem with rfl | hmem
    · exact hx.symm
    · obtain rfl := List.mem_singleton.1 hmem
      exact hz.symm
  | n + 6 => cases he

/-- The snapshot of `x` has `y` inside it, and the tree still has `x` inside `y`: each lies below the
other, and the walk from `x` never ends. -/
theorem mixing_closes_cycle :
    ∃ s', started.Run byLength "owner" mixing s' ∧ ¬ s'.engine.tree.Forest ∧
      ∀ fuel, s'.engine.tree.subtree fuel "x" = none := by
  obtain ⟨s', hs'⟩ : ∃ s', started.runWith 0 mixing = some s' :=
    Option.isSome_iff_exists.1 (by decide +kernel)
  have htree : (started.runWith 0 mixing).map (fun s => (s.engine.tree.up "x", s.engine.tree.up "y",
      s.engine.tree.childrenOf (some "x"), s.engine.tree.childrenOf (some "y"))) =
      some (some "y", some "x", ["y"], ["x"]) := by
    decide +kernel
  rw [hs', Option.map_some, Option.some.injEq, Prod.mk.injEq, Prod.mk.injEq, Prod.mk.injEq] at htree
  obtain ⟨hx, hy, hcx, hcy⟩ := htree
  refine ⟨s', System.run_of_runWith hs', fun hforest => hforest "x" (.tail (.single hx) hy), ?_⟩
  have hwalk : ∀ fuel, s'.engine.tree.subtree fuel "x" = none ∧
      s'.engine.tree.subtree fuel "y" = none := by
    intro fuel
    induction fuel with
    | zero => exact ⟨rfl, rfl⟩
    | succ fuel ih =>
      simp only [RemoteTree.subtree, Library.walk, List.nil_append, hcx, hcy, Option.map_eq_none_iff] at ih ⊢
      exact ⟨ih.2, ih.1⟩
  exact fun fuel => (hwalk fuel).1

end Runs

end Staaash.Remote
