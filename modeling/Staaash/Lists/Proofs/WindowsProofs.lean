import Staaash.Lists.Windows

/-!
# Proofs: windows of lists

A window is a part of the full list, also where the statement has left out rows before it ranks them, and
the window around an item begins at it or shortly before it.
-/

namespace Staaash.Lists

open Staaash.Library
open Staaash.Library.Comparison

variable {db : Database} {t : Tables} {scope : ListScope} {q : ListQuery} {folderId : Option String}

/-! ## Orders that tell the items apart -/

theorem andThen_eq {α : Type} {c d : Comparison α} {a b : α} (h : (c.andThen d).compare a b = .eq) :
    d.compare a b = .eq := by
  unfold andThen at h
  simp only [compareLex] at h
  exact (Ordering.then_eq_eq.1 h).2

theorem directed_eq {α : Type} {c : Comparison α} {ascending : Bool} {a b : α}
    (h : (c.directed ascending).compare a b = .eq) : c.compare a b = .eq := by
  have := c.trans
  cases ascending
  · exact Std.OrientedCmp.eq_symm h
  · exact h

theorem recentListOrder_eq {tied : ListItem → Bool} {a b : ListItem}
    (h : (recentListOrder db tied).compare a b = .eq) : a.id = b.id := by
  have hid : (db.icu.on ListItem.id).compare a b = .eq := andThen_eq (andThen_eq (andThen_eq h))
  exact db.icu_eq _ _ hid

/-- Items that an order takes for alike have the same id. -/
theorem listOrder_eq {a b : ListItem} (h : (listOrder db scope q).compare a b = .eq) : a.id = b.id := by
  have hid : ((byId db).directed q.ascending).compare a b = .eq → a.id = b.id := by
    intro h
    have htext : (byId db).compare a b = .eq := directed_eq h
    exact db.text_eq _ _ htext
  cases scope with
  | folder => exact hid (andThen_eq (andThen_eq (andThen_eq h)))
  | favorites => exact hid (andThen_eq (andThen_eq (andThen_eq h)))
  | recent => exact recentListOrder_eq h
  | added => exact hid (andThen_eq (andThen_eq (andThen_eq h)))
  | trash => exact hid (andThen_eq (andThen_eq (andThen_eq h)))

theorem separates_of_id {c : Comparison ListItem} (hc : ∀ a b, c.compare a b = .eq → a.id = b.id) :
    c.Separates (listMatches db t scope q folderId) := by
  intro a ha b hb heq
  exact List.inj_on_of_nodup_map t.distinct (List.mem_of_mem_filter ha) (List.mem_of_mem_filter hb) (hc a b heq)

/-! ## The rows that a window needs -/

theorem byRecent_le {a b : ListItem} (h : (recentListOrder db fun _ => true).le a b) :
    byDate.nullable.reverse.le a.recentAt b.recentAt := by
  unfold recentListOrder at h
  exact le_of_andThen byRecent _ h

theorem byDate_eq {a b : Option Nat} (h : byDate.nullable.reverse.compare a b = .eq) : a = b := by
  cases a <;> cases b <;> simp_all [byDate, reverse, nullable, compareNullable, ofOrd]

/-- The cutoff leaves out no row of the window. -/
theorem take_recentWindowCutoff (all : Bool) :
    ((listOrder db scope q).rank (recentWindowCutoff scope all q (listMatches db t scope q folderId))).take
        (q.offset + q.limit) =
      ((listOrder db scope q).rank (listMatches db t scope q folderId)).take (q.offset + q.limit) := by
  unfold recentWindowCutoff
  split_ifs with hcut
  swap
  · rfl
  obtain ⟨hscope, -⟩ := Bool.and_eq_true_iff.1 hcut
  obtain rfl : scope = .recent := of_decide_eq_true hscope
  generalize hfound : listMatches db t .recent q folderId = found
  have hsep : (listOrder db .recent q).Separates found := hfound ▸ separates_of_id fun a b => listOrder_eq
  have hkeys : byDate.nullable.reverse.rank (found.map ListItem.recentAt) =
      ((listOrder db .recent q).rank found).map ListItem.recentAt :=
    rank_map (fun a _ b _ => byDate_eq) fun a b => byRecent_le
  rw [hkeys]
  split
  case h_1 => rfl
  case h_2 cutoff hcutoff =>
    rw [rank_filter hsep]
    obtain ⟨hlt, hget⟩ := List.getElem?_eq_some_iff.1 hcutoff
    rw [List.length_map] at hlt
    rw [List.getElem_map] at hget
    have hpos := q.limit_pos
    refine take_filter (fun x hx => ?_) (.inl (by omega))
    obtain ⟨i, hi, rfl⟩ := List.mem_take_iff_getElem.1 hx
    have hle : (listOrder db .recent q).le ((listOrder db .recent q).rank found)[i]
        ((listOrder db .recent q).rank found)[q.offset + q.limit - 1] := by
      obtain hlast | hbefore : i = q.offset + q.limit - 1 ∨ i < q.offset + q.limit - 1 := by omega
      · subst hlast
        exact ((listOrder db .recent q).le_total' _ _).elim id id
      · exact List.pairwise_iff_getElem.1 (pairwise_rank _ found) i _ (by omega) hlt hbefore
    have hdates := byRecent_le hle
    rw [hget] at hdates
    exact hdates

theorem drop_recentWindowCutoff (all : Bool) :
    (((listOrder db scope q).rank (recentWindowCutoff scope all q (listMatches db t scope q folderId))).drop
        q.offset).take q.limit =
      (((listOrder db scope q).rank (listMatches db t scope q folderId)).drop q.offset).take q.limit := by
  rw [List.take_drop, List.take_drop, take_recentWindowCutoff]

/-! ## The rows of the statement -/

theorem items_windowRows (total : Nat) (page : List (ListItem × Nat)) :
    (windowRows total page).filterMap WindowRow.item = page.map fun row => (row.1.id, row.1.kind) := by
  unfold windowRows
  split_ifs with hempty
  · subst hempty
    rfl
  · rw [List.filterMap_map]
    exact congrFun List.filterMap_eq_map' page

theorem total_windowRows (total : Nat) (page : List (ListItem × Nat)) :
    ((windowRows total page).head?.map WindowRow.total).getD 0 = total := by
  unfold windowRows
  split_ifs with hempty
  · rfl
  · obtain ⟨row, rest, rfl⟩ := List.exists_cons_of_ne_nil hempty
    rfl

/-- A window is a part of the full list, and the total counts the full list. -/
theorem getListWindow_eq (db : Database) (t : Tables) (scope : ListScope) (q : ListQuery)
    (folderId : Option String) (all : Bool) :
    getListWindow db t scope q folderId all none =
      { items :=
          if all then (fullList db t scope q folderId).drop q.offset
          else ((fullList db t scope q folderId).drop q.offset).take q.limit
        total := (fullList db t scope q folderId).length
        start := none } := by
  have hlength : (fullList db t scope q folderId).length = (listMatches db t scope q folderId).length := by
    unfold fullList
    rw [List.length_map, length_rank]
  unfold getListWindow
  dsimp only [Option.filter_none]
  rw [items_windowRows, total_windowRows, hlength]
  refine ListWindow.mk.injEq .. ▸ ⟨?_, rfl, rfl⟩
  rw [List.map_map]
  cases all with
  | true =>
    have hrows : recentWindowCutoff scope true q (listMatches db t scope q folderId) =
        listMatches db t scope q folderId := by
      unfold recentWindowCutoff
      rw [if_neg (by simp)]
    rw [hrows, if_pos rfl, if_pos rfl]
    exact List.map_drop
  | false =>
    rw [if_neg (by simp), if_neg (by simp), drop_recentWindowCutoff]
    unfold fullList
    rw [← List.map_drop, ← List.map_take]
    rfl

/-! ## Around an item -/

theorem filter_zipIdx {α : Type} (l : List α) (first k : Nat) :
    ((l.zipIdx k).filter fun row => decide (k + first ≤ row.2)) = (l.drop first).zipIdx (k + first) := by
  induction l generalizing first k with
  | nil => simp
  | cons x l ih =>
    cases first with
    | zero =>
      rw [List.drop_zero, Nat.add_zero, List.filter_eq_self.2]
      rintro ⟨y, i⟩ hmem
      exact decide_eq_true (List.le_snd_of_mem_zipIdx hmem)
    | succ n =>
      rw [List.zipIdx_cons, List.filter_cons_of_neg (by simp), List.drop_succ_cons]
      have hshift := ih n (k + 1)
      rw [show k + 1 + n = k + (n + 1) by omega] at hshift
      exact hshift

/-- Where the item with an id stands. -/
def positionOf (l : List ListItem) (id : String) : Nat :=
  ((l.zipIdx.find? fun row => row.1.id = id).map Prod.snd).getD 0

theorem positionOf_eq {l : List ListItem} {id : String} {p : Nat} (hids : (l.map ListItem.id).Nodup)
    (hp : (l[p]?).map ListItem.id = some id) : positionOf l id = p := by
  obtain ⟨item, hitem, rfl⟩ := Option.map_eq_some_iff.1 hp
  unfold positionOf
  cases hfind : l.zipIdx.find? fun row => row.1.id = item.id with
  | none =>
    have hnone := List.find?_eq_none.1 hfind (item, p) (List.mk_mem_zipIdx_iff_getElem?.2 hitem)
    simp at hnone
  | some row =>
    obtain ⟨other, i⟩ := row
    have hother := List.mk_mem_zipIdx_iff_getElem?.1 (List.mem_of_find?_eq_some hfind)
    have hsame : other.id = item.id := by simpa using List.find?_some hfind
    obtain ⟨hi, rfl⟩ := List.getElem?_eq_some_iff.1 hother
    obtain ⟨hj, rfl⟩ := List.getElem?_eq_some_iff.1 hitem
    have hi' : i < (l.map ListItem.id).length := by rwa [List.length_map]
    have hj' : p < (l.map ListItem.id).length := by rwa [List.length_map]
    show i = p
    have hsame' : (l.map ListItem.id)[i] = (l.map ListItem.id)[p] := by
      rw [List.getElem_map, List.getElem_map]
      exact hsame
    exact hids.getElem_inj_iff.1 hsame'

theorem positionOf_lt (l : List ListItem) (id : String) : positionOf l id = 0 ∨ positionOf l id < l.length := by
  unfold positionOf
  cases hfind : l.zipIdx.find? fun row => row.1.id = id with
  | none => exact .inl rfl
  | some row =>
    have hmem := List.mk_mem_zipIdx_iff_getElem?.1 (List.mem_of_find?_eq_some hfind)
    exact .inr (List.getElem?_eq_some_iff.1 hmem).1

theorem start_windowRows {l : List ListItem} {first limit : Nat} (total : Nat) (hlimit : 1 ≤ limit)
    (hfirst : first = 0 ∨ first < l.length) :
    ((windowRows total (((l.drop first).zipIdx first).take limit)).head?.bind WindowRow.position).getD 0 =
      first := by
  unfold windowRows
  split_ifs with hempty
  · obtain rfl | hlt := hfirst
    · rfl
    · have hlength := congrArg List.length hempty
      rw [List.length_take, List.length_zipIdx, List.length_drop, List.length_nil] at hlength
      omega
  · cases hdrop : l.drop first with
    | nil =>
      rw [hdrop, List.zipIdx_nil, List.take_nil] at hempty
      exact absurd rfl hempty
    | cons x rest =>
      obtain ⟨k, rfl⟩ : ∃ k, limit = k + 1 := ⟨limit - 1, by omega⟩
      rfl

/-- The window around an item is a window of the full list that begins at the item, or ten places before it at
most. A window of ten items or fewer may end before the item. -/
theorem getListWindow_around (db : Database) (t : Tables) (scope : ListScope) (q : ListQuery)
    (folderId : Option String) (all : Bool) {id : String} (hid : id ≠ "") :
    ∃ start, getListWindow db t scope q folderId all (some id) =
        { items := ((fullList db t scope q folderId).drop start).take q.limit
          total := (fullList db t scope q folderId).length
          start := some start } ∧
      ∀ p, ((fullList db t scope q folderId)[p]?).map Prod.fst = some id →
        start ≤ p ∧ p ≤ start + 10 := by
  have hids : (((listOrder db scope q).rank (listMatches db t scope q folderId)).map ListItem.id).Nodup := by
    refine ((rank_perm _ _).map _).nodup_iff.2 ?_
    exact t.distinct.sublist (List.filter_sublist.map _)
  have hlength : (fullList db t scope q folderId).length = (listMatches db t scope q folderId).length := by
    unfold fullList
    rw [List.length_map, length_rank]
  unfold getListWindow
  dsimp only
  rw [show (some id).filter (fun id => decide (id ≠ "")) = some id by simp [hid]]
  dsimp only
  rw [items_windowRows, total_windowRows, hlength]
  unfold fullList
  generalize (listOrder db scope q).rank (listMatches db t scope q folderId) = ranked at hids ⊢
  have hfilter : (ranked.zipIdx.filter fun row => decide (positionOf ranked id - 10 ≤ row.2)) =
      (ranked.drop (positionOf ranked id - 10)).zipIdx (positionOf ranked id - 10) := by
    have hzip := filter_zipIdx ranked (positionOf ranked id - 10) 0
    simpa only [Nat.zero_add] using hzip
  have hfirst : positionOf ranked id - 10 = 0 ∨ positionOf ranked id - 10 < ranked.length := by
    have hlt := positionOf_lt ranked id
    omega
  refine ⟨positionOf ranked id - 10, ?_, fun p hp => ?_⟩
  · have hrows := hfilter
    unfold positionOf at hrows
    rw [hrows]
    refine ListWindow.mk.injEq .. ▸ ⟨?_, rfl, ?_⟩
    · have hitem : (fun row : ListItem × Nat => (row.1.id, row.1.kind)) =
          (fun item : ListItem => (item.id, item.kind)) ∘ Prod.fst := rfl
      rw [hitem, ← List.map_map, List.map_take, List.zipIdx_map_fst, List.map_take, List.map_drop]
      rfl
    · exact congrArg some (start_windowRows _ q.limit_pos hfirst)
  · have hpos : positionOf ranked id = p := positionOf_eq hids (by
      rw [List.getElem?_map, Option.map_map] at hp
      exact hp)
    omega

namespace Windows

def plain : Database where
  natural := .ofOrd
  icu := .ofOrd
  text := .ofOrd
  icu_eq a b (h : compare a b = .eq) := Std.LawfulEqCmp.eq_of_compare h
  text_eq a b (h : compare a b = .eq) := Std.LawfulEqCmp.eq_of_compare h
  searchText text := text
  readable _ _ _ := true

def file (id name : String) : ListItem where
  id := id
  kind := .file
  name := name
  mime := "text/plain"
  size := 1
  created := 0
  modified := 0
  deleted := none
  favoriteAt := none
  pinnedAt := none
  recentAt := none
  parentId := some "home"
  action := none
  path := "Files"
  trashEntry := none
  available := true

def two : Tables := ⟨"user", [file "1" "b", file "2" "a"], by decide, []⟩

def first : ListQuery := ⟨0, 1, none, true, none, "", false, false, false, false, false, by decide, by decide⟩

end Windows

theorem getListWindow_around_two :
    ∃ start, getListWindow Windows.plain Windows.two .folder Windows.first (some "home") false (some "1") =
        { items := ((fullList Windows.plain Windows.two .folder Windows.first (some "home")).drop start).take 1
          total := (fullList Windows.plain Windows.two .folder Windows.first (some "home")).length
          start := some start } ∧
      ∀ p, ((fullList Windows.plain Windows.two .folder Windows.first (some "home"))[p]?).map Prod.fst =
        some "1" → start ≤ p ∧ p ≤ start + 10 :=
  getListWindow_around Windows.plain Windows.two .folder Windows.first (some "home") false (by decide)

end Staaash.Lists
