import Staaash.Remote.Proofs.FollowProofs
import Staaash.Remote.Proofs.ForestProofs

/-!
# Proofs: which commits reach a client whole

The entries of a commit are enough for every client whose pair folders stay where the entries assume
them. They are not when a pair folder itself is trashed, when one is moved out of another with the folder
it lies in, when an item is renamed in a folder that is moved, or when the tree is deeper than the readers
look.
-/

namespace Staaash.Remote

open Relation
open Staaash.Library
open Staaash.Planner

section Checks

variable {table : Table} {id : String}

/-- The folders above an item, at most `n` of them. -/
def foldersAbove (table : Table) : Nat → String → List String
  | 0, _ => []
  | n + 1, id =>
    match table.liveUp id with
    | none => []
    | some parentId => parentId :: foldersAbove table n parentId

theorem mem_foldersAbove {n : Nat} {folderId : String} (hends : endsWithin table n id = true) :
    folderId ∈ foldersAbove table n id ↔ Above table.liveUp id folderId := by
  induction n generalizing id with
  | zero =>
    refine ⟨fun hmem => absurd hmem List.not_mem_nil, fun habove => ?_⟩
    obtain ⟨next, hup, -⟩ := TransGen.head'_iff.1 habove
    obtain ⟨k, hk, -⟩ := endsWithin_up hup hends
    cases hk
  | succ n ih =>
    cases hup : table.liveUp id with
    | none =>
      rw [foldersAbove, hup]
      refine ⟨fun hmem => absurd hmem List.not_mem_nil, fun habove => ?_⟩
      obtain ⟨next, hnext, -⟩ := TransGen.head'_iff.1 habove
      rw [hup] at hnext
      cases hnext
    | some parentId =>
      obtain ⟨k, hk, hparent⟩ := endsWithin_up hup hends
      obtain rfl := Nat.succ.inj hk
      rw [foldersAbove, hup, List.mem_cons, ih hparent]
      constructor
      · rintro (rfl | habove)
        · exact .single hup
        · exact .head hup habove
      · intro habove
        obtain ⟨next, hnext, hrest⟩ := TransGen.head'_iff.1 habove
        obtain rfl := Option.some.inj (hup.symm.trans hnext)
        rcases ReflTransGen.cases_head hrest with rfl | ⟨above, hstep, hrest⟩
        · exact .inl rfl
        · exact .inr (TransGen.head' hstep hrest)

/-- Whether an item lies below one of the pair folders. -/
def underBool (table : Table) (roots : List String) (id : String) : Bool :=
  (foldersAbove table 1000 id).any (· ∈ roots)

theorem underBool_iff (hshallow : Shallow table) {roots : List String} :
    underBool table roots id = true ↔ Under table roots id := by
  unfold underBool Under
  rw [List.any_eq_true]
  constructor
  · rintro ⟨rootId, hmem, hroot⟩
    exact ⟨rootId, by simpa using hroot, (mem_foldersAbove (hshallow.endsWithin id)).1 hmem⟩
  · rintro ⟨rootId, hroot, habove⟩
    exact ⟨rootId, (mem_foldersAbove (hshallow.endsWithin id)).2 habove, by simpa using hroot⟩

/-- A live row lies in a live folder that is listed before it, under a name that can be in a path. -/
def RowFits (table : Table) (entry : String × Row) : Prop :=
  (∀ parentId ∈ entry.2.parentId, table.keys.idxOf parentId < table.keys.idxOf entry.1 ∧
    ∃ parent ∈ table.live parentId, parent.type = .folder) ∧
  (entry.2.isFilesRoot = false → entry.2.name ≠ [] ∧ '/' ∉ entry.2.name)

instance (table : Table) (entry : String × Row) : Decidable (RowFits table entry) :=
  inferInstanceAs (Decidable (_ ∧ _))

theorem liveForest_of_rows (h : ∀ entry ∈ table.entries, entry.2.live = true → RowFits table entry) :
    LiveForest table := by
  have hrow : ∀ {id row}, table.live id = some row → RowFits table (id, row) := by
    intro id row hlive
    obtain ⟨hget, hlive⟩ := live_eq_some.1 hlive
    exact h (id, row) ((table.get_eq_some_iff id row).1 hget) hlive
  refine ⟨acyclic_of_rank table.keys.idxOf ?_, ?_, ?_⟩
  · intro x y hup
    obtain ⟨row, hlive, hp⟩ := liveUp_eq_some.1 hup
    exact ((hrow hlive).1 y hp).1
  · intro x y hup
    obtain ⟨row, hlive, hp⟩ := liveUp_eq_some.1 hup
    obtain ⟨parent, hparent, htype⟩ := ((hrow hlive).1 y hp).2
    exact ⟨parent, hparent, htype⟩
  · intro x row hlive hroot
    exact (hrow hlive).2 hroot

/-- What `Commit.Proper` asks for, row by row. -/
theorem Commit.proper_of_rows {c : Commit}
    (hbefore : ∀ entry ∈ c.before.entries, entry.2.live = true → RowFits c.before entry)
    (hafter : ∀ entry ∈ c.after.entries, entry.2.live = true → RowFits c.after entry)
    (hkept : ∀ entry ∈ c.before.entries, ∀ new ∈ c.after.get entry.1, entry.2.type = new.type ∧
      entry.2.isFilesRoot = new.isFilesRoot ∧ entry.2.storageRevision ≤ new.storageRevision)
    (huntouched : ∀ entry ∈ c.before.entries ++ c.after.entries,
      (entry.2.type, entry.1) ∉ c.entities ∨ entry.2.isFilesRoot = true →
      c.after.get entry.1 = c.before.get entry.1) : c.Proper := by
  refine ⟨liveForest_of_rows hbefore, liveForest_of_rows hafter, ?_, ?_⟩
  · intro id old new hold hnew
    exact hkept (id, old) ((c.before.get_eq_some_iff id old).1 hold) new hnew
  · intro id row hrow
    refine huntouched (id, row) (List.mem_append.2 (hrow.imp ?_ ?_))
    · exact (c.before.get_eq_some_iff id row).1
    · exact (c.after.get_eq_some_iff id row).1

/-- Nothing happened to an item, of whatever type. -/
def Commit.sparesBool (c : Commit) (id : String) : Bool :=
  c.kind (.folder, id) = none && c.kind (.file, id) = none

theorem Commit.kind_of_sparesBool {c : Commit} (h : c.sparesBool id = true) (type : ItemType) :
    c.kind (type, id) = none := by
  rw [Commit.sparesBool, Bool.and_eq_true, decide_eq_true_eq, decide_eq_true_eq] at h
  cases type with
  | folder => exact h.1
  | file => exact h.2

theorem Commit.keepsRoots_of_rows {c : Commit} {roots : List String} (hbefore : Shallow c.before)
    (hafter : Shallow c.after)
    (hbetween : ∀ rootId ∈ roots, ∀ id ∈ rootId :: foldersAbove c.before 1000 rootId,
      underBool c.before roots id = true → c.sparesBool id = true)
    (hwithin : ∀ rootId ∈ roots, underBool c.after roots rootId = true → c.sparesBool rootId = true)
    (hstays : ∀ rootId ∈ roots, ∀ kind ∈ c.kind (.folder, rootId),
      kind ≠ .trashed ∧ kind ≠ .restored ∧ kind ≠ .deleted) : c.KeepsRoots roots where
  between rootId hroot id habove hunder := by
    refine Commit.kind_of_sparesBool
      (hbetween rootId hroot id ?_ ((underBool_iff hbefore).2 hunder))
    rcases reflTransGen_iff_eq_or_transGen.1 habove with rfl | habove
    · exact List.mem_cons_self
    · exact List.mem_cons_of_mem _ ((mem_foldersAbove (hbefore.endsWithin rootId)).2 habove)
  within rootId hroot hunder :=
    Commit.kind_of_sparesBool (hwithin rootId hroot ((underBool_iff hafter).2 hunder))
  stays := hstays

theorem Commit.renamesApart_of_rows {c : Commit}
    (h : ∀ entry ∈ (kindsOf c.old c.new).entries, entry.2 = .moved →
      ∀ parentId ∈ c.before.up entry.1.2, c.after.up entry.1.2 = some parentId →
        c.kind (.folder, parentId) ≠ some .moved) : c.RenamesApart := by
  intro key parentId hkind hold hnew
  exact h (key, .moved) ((OrderedMap.get_eq_some_iff _ _ _).1 hkind) rfl parentId hold hnew

theorem mirrors_of_rows {t : RemoteTree} (hshallow : Shallow table)
    (hshown : ∀ entry ∈ t.items.entries, underBool table t.roots entry.1 = true ∧
      ∃ row ∈ table.live entry.1, Shows entry.1 row entry.2)
    (hcomplete : ∀ entry ∈ table.entries, underBool table t.roots entry.1 = true →
      t.items.has entry.1 = true) : Mirrors t table := by
  constructor
  · intro id item hget
    obtain ⟨hunder, row, hrow, hshows⟩ :=
      hshown (id, item) ((t.items.get_eq_some_iff id item).1 hget)
    exact ⟨(underBool_iff hshallow).1 hunder, row, hrow, hshows⟩
  · intro id hunder
    obtain ⟨row, hlive⟩ := hunder.live
    have hentry := (table.get_eq_some_iff id row).1 (live_eq_some.1 hlive).1
    exact hcomplete (id, row) hentry ((underBool_iff hshallow).2 hunder)

end Checks

/-! ## Commits that reach a client, and commits that do not -/

section Commits

def trashedRow (parentId : Option String) (name : Rel) (rev : Nat) : Row :=
  { folderRow parentId name rev with deletedAt := some 0 }

/-- The tree that shows the rows of `ids`. -/
def showing (table : Table) (roots ids : List String) : RemoteTree :=
  .ofStore (ids.filterMap fun id => (table.live id).map (Commit.shown id)) roots

theorem wellFormed_showing (table : Table) (roots ids : List String) :
    (showing table roots ids).WellFormed :=
  (RemoteTree.wellFormed_empty roots).putAll _

/-- The pair folder `q` lies in `a`, in the pair folder `r`. In it `s` is trashed, and the folder `d` in
that is moved out with what it holds. -/
def rescued : Commit where
  before := .ofList [("files", folderRow none [] 0), ("r", folderRow (some "files") ['r'] 0),
    ("a", folderRow (some "r") ['a'] 0), ("q", folderRow (some "a") ['q'] 0),
    ("s", folderRow (some "q") ['s'] 0), ("d", folderRow (some "s") ['d'] 0),
    ("e", folderRow (some "d") ['e'] 0)]
  after := .ofList [("files", folderRow none [] 0), ("r", folderRow (some "files") ['r'] 0),
    ("a", folderRow (some "r") ['a'] 0), ("q", folderRow (some "a") ['q'] 0),
    ("s", trashedRow (some "q") ['s'] 1), ("d", folderRow (some "q") ['d'] 1),
    ("e", folderRow (some "d") ['e'] 0)]
  entities := [(.folder, "s"), (.folder, "d")]

/-- A client that shows the rows before that. -/
def rescuing : RemoteTree := showing rescued.before ["r", "q"] ["a", "q", "s", "d", "e"]

/-- The pair folder `r` is trashed with the folder in it. -/
def trashedPair : Commit where
  before := .ofList [("files", folderRow none [] 0), ("r", folderRow (some "files") ['r'] 0),
    ("n", folderRow (some "r") ['n'] 0)]
  after := .ofList [("files", folderRow none [] 0), ("r", trashedRow (some "files") ['r'] 1),
    ("n", trashedRow (some "r") ['n'] 1)]
  entities := [(.folder, "r"), (.folder, "n")]

/-- The only entry is about the pair folder, which is not among the items. -/
theorem leftBehind_trashedPair : LeftBehind trashedPair (showing trashedPair.before ["r"] ["n"]) := by
  have hbefore : Shallow trashedPair.before := by decide +kernel
  have hentries : trashedPair.entries =
      [⟨.trashed, .folder, "r", some "files", ['r'], none, none, 1, none⟩] := by
    decide +kernel
  refine ⟨Commit.proper_of_rows (by decide +kernel) (by decide +kernel) (by decide +kernel)
    (by decide +kernel), wellFormed_showing _ _ _,
    mirrors_of_rows hbefore (by decide +kernel) (by decide +kernel),
    showing trashedPair.before ["r"] ["n"], ?_, ?_⟩
  · rw [hentries]
    refine .apply (?_ : RemoteTree.apply _ 0 _ = some (_, none)) .done
    rfl
  · intro hmirrors
    have hlive : trashedPair.after.live "n" = none := by decide +kernel
    have hshown : (showing trashedPair.before ["r"] ["n"]).items.get "n" =
        some ⟨"n", .folder, some "r", ['n'], none, none, 0, none⟩ := by
      decide +kernel
    obtain ⟨-, row, hrow, -⟩ := hmirrors.shown "n" _ hshown
    rw [hlive] at hrow
    cases hrow

/-- The folder `a` in the pair folder `r` holds the pair folder `q`, and is moved out of `r`. -/
def nestedPair : Commit where
  before := .ofList [("files", folderRow none [] 0), ("r", folderRow (some "files") ['r'] 0),
    ("a", folderRow (some "r") ['a'] 0), ("q", folderRow (some "a") ['q'] 0),
    ("n", folderRow (some "q") ['n'] 0)]
  after := .ofList [("files", folderRow none [] 0), ("r", folderRow (some "files") ['r'] 0),
    ("a", folderRow (some "files") ['a'] 1), ("q", folderRow (some "a") ['q'] 0),
    ("n", folderRow (some "q") ['n'] 0)]
  entities := [(.folder, "a")]

/-- What is in `q` goes with `a`, though it is still in a pair folder. -/
theorem leftBehind_nestedPair :
    LeftBehind nestedPair (showing nestedPair.before ["r", "q"] ["a", "q", "n"]) := by
  have hbefore : Shallow nestedPair.before := by decide +kernel
  have hafter : Shallow nestedPair.after := by decide +kernel
  have hentries : nestedPair.entries =
      [⟨.moved, .folder, "a", some "files", ['a'], none, none, 1, none⟩] := by
    decide +kernel
  have happly : ∃ t', (showing nestedPair.before ["r", "q"] ["a", "q", "n"]).apply 10
      ⟨.moved, .folder, "a", some "files", ['a'], none, none, 1, none⟩ = some (t', none) ∧
      t'.roots = ["r", "q"] ∧ t'.items.get "n" = none :=
    ⟨_, rfl, by decide +kernel, by decide +kernel⟩
  obtain ⟨t', happly, hroots, hgone⟩ := happly
  refine ⟨Commit.proper_of_rows (by decide +kernel) (by decide +kernel) (by decide +kernel)
    (by decide +kernel), wellFormed_showing _ _ _,
    mirrors_of_rows hbefore (by decide +kernel) (by decide +kernel), t', ?_, ?_⟩
  · rw [hentries]
    exact .apply happly .done
  · intro hmirrors
    have hunder : Under nestedPair.after t'.roots "n" := by
      rw [hroots, ← underBool_iff hafter]
      decide +kernel
    have hshown := hmirrors.complete "n" hunder
    rw [hgone] at hshown
    cases hshown

/-- The folder `a` and the folder `n` in it are renamed by one commit. -/
def renamedInside : Commit where
  before := .ofList [("files", folderRow none [] 0), ("r", folderRow (some "files") ['r'] 0),
    ("a", folderRow (some "r") ['a'] 0), ("n", folderRow (some "a") ['n'] 0)]
  after := .ofList [("files", folderRow none [] 0), ("r", folderRow (some "files") ['r'] 0),
    ("a", folderRow (some "r") ['b'] 1), ("n", folderRow (some "a") ['m'] 1)]
  entities := [(.folder, "a"), (.folder, "n")]

example : renamedInside.entries.map (·.itemId) = ["a"] := by decide +kernel

/-- The entry of `n` is taken to be covered by the one of `a`, which says nothing about names in it. -/
theorem leftBehind_renamedInside :
    LeftBehind renamedInside (showing renamedInside.before ["r"] ["a", "n"]) := by
  have hbefore : Shallow renamedInside.before := by decide +kernel
  have hentries : renamedInside.entries =
      [⟨.moved, .folder, "a", some "r", ['b'], none, none, 1, none⟩] := by
    decide +kernel
  have happly : ∃ t', (showing renamedInside.before ["r"] ["a", "n"]).apply 10
      ⟨.moved, .folder, "a", some "r", ['b'], none, none, 1, none⟩ = some (t', none) ∧
      t'.items.get "n" = some ⟨"n", .folder, some "a", ['n'], none, none, 0, none⟩ :=
    ⟨_, rfl, by decide +kernel⟩
  obtain ⟨t', happly, hstale⟩ := happly
  refine ⟨Commit.proper_of_rows (by decide +kernel) (by decide +kernel) (by decide +kernel)
    (by decide +kernel), wellFormed_showing _ _ _,
    mirrors_of_rows hbefore (by decide +kernel) (by decide +kernel), t', ?_, ?_⟩
  · rw [hentries]
    exact .apply happly .done
  · intro hmirrors
    obtain ⟨-, row, hrow, -, hshows⟩ := hmirrors.shown "n" _ hstale
    have hlive : renamedInside.after.live "n" = some (folderRow (some "a") ['m'] 1) := by
      decide +kernel
    obtain rfl := Option.some.inj (hrow.symm.trans hlive)
    exact absurd (congrArg RemoteItem.name hshows) (by decide)

/-! ### A folder that holds more than the readers look through -/

/-- The folder that lies `n` folders below `m`. -/
def deepId (n : Nat) : String := String.ofList ('m' :: List.replicate n 'k')

theorem deepId_toList (n : Nat) : (deepId n).toList = 'm' :: List.replicate n 'k' :=
  String.toList_ofList

theorem deepId_injective : Function.Injective deepId := by
  intro a b hab
  have hlength := congrArg (fun id => id.toList.length) hab
  simpa [deepId_toList] using hlength

theorem deepId_ne {n : Nat} {id : String} (hid : id.toList.head? ≠ some 'm') : deepId n ≠ id := by
  rintro rfl
  exact hid (by rw [deepId_toList, List.head?_cons])

def deepEntries (parentId : String) (rev : Nat) : List (String × Row) :=
  ("files", folderRow none [] 0) :: ("r", folderRow (some "files") ['r'] 0) ::
    ("m", folderRow (some parentId) ['m'] rev) ::
    (List.range 1001).map fun n => (deepId (n + 1), folderRow (some (deepId n)) ['k'] 0)

/-- The folder `m`, in the folder `parentId`, holds a chain of 1001 folders. -/
def deepTable (parentId : String) (rev : Nat) : Table where
  entries := deepEntries parentId rev
  nodup := by
    have hchain : ((List.range 1001).map fun n => deepId (n + 1)).Nodup :=
      List.nodup_range.map fun a b hab => Nat.succ.inj (deepId_injective hab)
    have hnew : ∀ id : String, id.toList.head? ≠ some 'm' ∨ id = deepId 0 →
        id ∉ (List.range 1001).map fun n => deepId (n + 1) := by
      intro id hid hmem
      obtain ⟨n, -, rfl⟩ := List.mem_map.1 hmem
      rcases hid with hid | hid
      · exact hid (by rw [deepId_toList, List.head?_cons])
      · exact absurd (deepId_injective hid) (Nat.succ_ne_zero n)
    have hkeys : (deepEntries parentId rev).map Prod.fst =
        "files" :: "r" :: "m" :: (List.range 1001).map fun n => deepId (n + 1) := by
      rw [deepEntries, List.map_cons, List.map_cons, List.map_cons, List.map_map]
      rfl
    rw [hkeys, List.nodup_cons, List.nodup_cons, List.nodup_cons, List.mem_cons, List.mem_cons,
      List.mem_cons]
    exact ⟨by simp [hnew "files" (.inl (by decide))], by simp [hnew "r" (.inl (by decide))],
      hnew "m" (.inr (by decide)), hchain⟩

variable {parentId id : String} {rev : Nat} {row : Row}

theorem deepTable_get (h : (deepTable parentId rev).get id = some row) :
    (id = "files" ∧ row = folderRow none [] 0) ∨
    (id = "r" ∧ row = folderRow (some "files") ['r'] 0) ∨
    (id = "m" ∧ row = folderRow (some parentId) ['m'] rev) ∨
    ∃ n < 1001, id = deepId (n + 1) ∧ row = folderRow (some (deepId n)) ['k'] 0 := by
  have hmem := ((deepTable parentId rev).get_eq_some_iff id row).1 h
  rcases List.mem_cons.1 hmem with heq | hmem
  · exact .inl (Prod.mk.inj heq)
  rcases List.mem_cons.1 hmem with heq | hmem
  · exact .inr (.inl (Prod.mk.inj heq))
  rcases List.mem_cons.1 hmem with heq | hmem
  · exact .inr (.inr (.inl (Prod.mk.inj heq)))
  obtain ⟨n, hn, heq⟩ := List.mem_map.1 hmem
  obtain ⟨hid, hrow⟩ := Prod.mk.inj heq
  exact .inr (.inr (.inr ⟨n, List.mem_range.1 hn, hid.symm, hrow.symm⟩))

theorem deepTable_get_deepId {n : Nat} (hn : n < 1001) : (deepTable parentId rev).get (deepId (n + 1)) =
    some (folderRow (some (deepId n)) ['k'] 0) := by
  refine ((deepTable parentId rev).get_eq_some_iff _ _).2 ?_
  refine List.mem_cons_of_mem _ (List.mem_cons_of_mem _ (List.mem_cons_of_mem _ ?_))
  exact List.mem_map.2 ⟨n, List.mem_range.2 hn, rfl⟩

theorem deepTable_live : (deepTable parentId rev).live id = (deepTable parentId rev).get id := by
  cases hget : (deepTable parentId rev).get id with
  | none => exact live_eq_none.2 fun row h => by rw [hget] at h; cases h
  | some row =>
    refine live_eq_some.2 ⟨hget, ?_⟩
    obtain ⟨-, rfl⟩ | ⟨-, rfl⟩ | ⟨-, rfl⟩ | ⟨n, -, -, rfl⟩ := deepTable_get hget <;> rfl

/-- Only the row of `m` depends on where it lies. -/
theorem deepTable_get_of_ne {parentId' : String} {rev' : Nat} (hid : id ≠ "m") :
    (deepTable parentId rev).get id = (deepTable parentId' rev').get id := by
  show ((deepEntries parentId rev).find? _).map _ = ((deepEntries parentId' rev').find? _).map _
  unfold deepEntries
  by_cases hfiles : id = "files"
  · subst hfiles
    rfl
  by_cases hr : id = "r"
  · subst hr
    rfl
  rw [List.find?_cons_of_neg (by simpa using Ne.symm hfiles),
    List.find?_cons_of_neg (by simpa using Ne.symm hr),
    List.find?_cons_of_neg (by simpa using Ne.symm hid),
    List.find?_cons_of_neg (by simpa using Ne.symm hfiles),
    List.find?_cons_of_neg (by simpa using Ne.symm hr),
    List.find?_cons_of_neg (by simpa using Ne.symm hid)]

theorem deepTable_liveUp {x y : String} (h : (deepTable parentId rev).liveUp x = some y) :
    (x = "r" ∧ y = "files") ∨ (x = "m" ∧ y = parentId) ∨
    ∃ n < 1001, x = deepId (n + 1) ∧ y = deepId n := by
  obtain ⟨row, hlive, hp⟩ := liveUp_eq_some.1 h
  rw [deepTable_live] at hlive
  obtain ⟨-, rfl⟩ | ⟨rfl, rfl⟩ | ⟨rfl, rfl⟩ | ⟨n, hn, rfl, rfl⟩ := deepTable_get hlive
  · cases hp
  · exact .inl ⟨rfl, (Option.some.inj hp).symm⟩
  · exact .inr (.inl ⟨rfl, (Option.some.inj hp).symm⟩)
  · exact .inr (.inr ⟨n, hn, rfl, (Option.some.inj hp).symm⟩)

theorem deepTable_liveForest (hparent : parentId = "files" ∨ parentId = "r") :
    LiveForest (deepTable parentId rev) := by
  refine ⟨acyclic_of_rank (fun x => if x = "files" then 0 else if x = "r" then 1 else x.length + 1) ?_,
    ?_, ?_⟩
  · intro x y h
    obtain ⟨rfl, rfl⟩ | ⟨rfl, rfl⟩ | ⟨n, -, rfl, rfl⟩ := deepTable_liveUp h
    · decide
    · rcases hparent with rfl | rfl <;> decide
    · have hne : ∀ k, deepId k ≠ "files" ∧ deepId k ≠ "r" :=
        fun k => ⟨deepId_ne (by decide), deepId_ne (by decide)⟩
      simp only [hne, if_false]
      rw [String.length, String.length, deepId_toList, deepId_toList]
      simp
  · intro x y h
    have hfolder : ∀ {id row}, (deepTable parentId rev).get id = some row → row.type = .folder →
        ∃ parent, (deepTable parentId rev).live id = some parent ∧ parent.type = .folder :=
      fun hget htype => ⟨_, deepTable_live.trans hget, htype⟩
    obtain ⟨-, rfl⟩ | ⟨-, rfl⟩ | ⟨n, hn, -, rfl⟩ := deepTable_liveUp h
    · exact hfolder rfl rfl
    · rcases hparent with rfl | rfl <;> exact hfolder rfl rfl
    · cases n with
      | zero => exact hfolder (rfl : _ = some (folderRow (some parentId) ['m'] rev)) rfl
      | succ n => exact hfolder (deepTable_get_deepId (by omega)) rfl
  · intro id row hlive hroot
    rw [deepTable_live] at hlive
    obtain ⟨-, rfl⟩ | ⟨-, rfl⟩ | ⟨-, rfl⟩ | ⟨n, -, -, rfl⟩ := deepTable_get hlive
    · cases hroot
    · exact ⟨List.cons_ne_nil _ _, by decide +revert⟩
    · exact ⟨List.cons_ne_nil _ _, fun hmem => absurd (List.mem_singleton.1 hmem) (by decide)⟩
    · exact ⟨List.cons_ne_nil _ _, fun hmem => absurd (List.mem_singleton.1 hmem) (by decide)⟩

theorem deepId_zero : deepId 0 = "m" := rfl

/-- A reader that goes up at most `n` folders does not get to `m` from a folder that lies deeper. -/
theorem le_of_inTree_deepTable {n depth : Nat} (hdepth : depth ≤ 1001)
    (h : inTree (deepTable parentId rev) "m" n (deepId depth) = true) : depth ≤ n := by
  induction n generalizing depth with
  | zero =>
    unfold inTree at h
    simp only [Bool.or_false, decide_eq_true_eq] at h
    exact (deepId_injective (h.trans deepId_zero.symm)).le
  | succ n ih =>
    cases depth with
    | zero => exact Nat.zero_le _
    | succ depth =>
      have hne : deepId (depth + 1) ≠ "m" := fun heq =>
        Nat.succ_ne_zero depth (deepId_injective (heq.trans deepId_zero.symm))
      have hfolder : (deepTable parentId rev).folder (deepId (depth + 1)) =
          some (folderRow (some (deepId depth)) ['k'] 0) := by
        rw [Table.folder, deepTable_get_deepId (by omega)]
        rfl
      unfold inTree at h
      rw [decide_eq_false hne, Bool.false_or, hfolder, Bool.and_eq_true] at h
      exact Nat.succ_le_succ (ih (by omega) h.2)

theorem above_deepTable {n : Nat} (hn : n ≤ 1001) :
    AtOrAbove (deepTable parentId rev).liveUp (deepId n) "m" := by
  induction n with
  | zero => exact .refl
  | succ n ih =>
    have hlive : (deepTable parentId rev).live (deepId (n + 1)) = _ :=
      deepTable_live.trans (deepTable_get_deepId hn)
    exact .head (liveUp_eq_some.2 ⟨_, hlive, rfl⟩) (ih (by omega))

/-- `m` is moved into the pair folder `r`. -/
def deepMove : Commit := ⟨deepTable "files" 0, deepTable "r" 1, [(.folder, "m")]⟩

theorem proper_deepMove : deepMove.Proper where
  before := deepTable_liveForest (.inl rfl)
  after := deepTable_liveForest (.inr rfl)
  kept := by
    intro id old new hold hnew
    by_cases hid : id = "m"
    · subst hid
      obtain rfl := Option.some.inj hold
      obtain rfl := Option.some.inj hnew
      decide
    · obtain rfl := Option.some.inj (hold.symm.trans ((deepTable_get_of_ne hid).trans hnew))
      exact ⟨rfl, rfl, le_rfl⟩
  untouched := by
    intro id row hrow huntouched
    by_cases hid : id = "m"
    · subst hid
      have hm : row.type = .folder ∧ row.isFilesRoot = false := by
        rcases hrow with hrow | hrow <;> obtain rfl := Option.some.inj hrow <;> decide
      rcases huntouched with hnot | hroot
      · exact absurd (hm.1 ▸ List.mem_singleton.2 rfl) hnot
      · exact absurd hroot (by rw [hm.2]; exact Bool.false_ne_true)
    · exact deepTable_get_of_ne hid

/-- The entry of that move. -/
def deepChange : StorageChange := ⟨.moved, .folder, "m", some "r", ['m'], none, none, 1, none⟩

theorem snapshot_deepMove_stops {n : Nat} (hn : n = 1000) {item : RemoteItem}
    (hitem : item ∈ (listing (deepTable "r" 1) "m").map fromSnapshot) : item.id ≠ deepId (n + 1) := by
  intro hid
  rw [listing, List.map_map, List.mem_map] at hitem
  obtain ⟨⟨id, row⟩, hmem, rfl⟩ := hitem
  obtain ⟨hentry, hlisted⟩ := List.mem_filter.1 hmem
  have hid : id = deepId (n + 1) := hid
  subst hid
  have hget := ((deepTable "r" 1).get_eq_some_iff _ _).2 hentry
  obtain rfl := Option.some.inj (hget.symm.trans (deepTable_get_deepId (by omega)))
  have hin := ((Bool.and_eq_true _ _).mp hlisted).2
  have hle := le_of_inTree_deepTable (by omega) hin
  omega

/-- The snapshot of `m` stops a thousand folders down. -/
theorem leftBehind_deepMove : LeftBehind deepMove (.empty ["r"]) := by
  have hentries : deepMove.entries = [deepChange] := by decide +kernel
  have hmirrors : Mirrors (.empty ["r"]) deepMove.before := by
    refine ⟨fun id item hget => absurd hget (Option.some_ne_none item).symm, ?_⟩
    rintro id ⟨rootId, hroot, habove⟩
    obtain rfl := List.mem_singleton.1 hroot
    obtain ⟨child, -, hup⟩ := TransGen.tail'_iff.1 habove
    obtain ⟨-, hr⟩ | ⟨-, hr⟩ | ⟨n, -, -, hr⟩ := deepTable_liveUp hup
    · exact absurd hr (by decide)
    · exact absurd hr (by decide)
    · exact absurd hr.symm (deepId_ne (by decide))
  have hup : (deepTable "r" 1).liveUp "m" = some "r" :=
    liveUp_eq_some.2 ⟨folderRow (some "r") ['m'] 1, deepTable_live, rfl⟩
  have hunder : Under deepMove.after ["r"] (deepId 1001) :=
    ⟨"r", List.mem_singleton.2 rfl, TransGen.tail' (above_deepTable le_rfl) hup⟩
  have happly : (RemoteTree.empty ["r"]).apply 0 deepChange =
      some ((RemoteTree.empty ["r"]).put (fromChange deepChange), some "m") := by
    decide +kernel
  refine ⟨proper_deepMove, RemoteTree.wellFormed_empty _, hmirrors,
    ((RemoteTree.empty ["r"]).put (fromChange deepChange)).addUnder
      ((listing (deepTable "r" 1) "m").map fromSnapshot), ?_, ?_⟩
  · rw [hentries]
    exact .apply happly (.answer (List.mem_singleton.2 rfl) (.refl _) .done)
  · intro hmirrors
    have hshown := hmirrors.complete (deepId 1001) (by
      rw [RemoteTree.roots_addUnder, RemoteTree.roots_put]
      exact hunder)
    rw [RemoteTree.get_addUnder_other fun item => snapshot_deepMove_stops rfl, RemoteTree.get_put,
      if_neg fun heq => absurd (deepId_injective (heq.trans deepId_zero.symm)) (by decide)] at hshown
    cases hshown

end Commits

end Staaash.Remote
