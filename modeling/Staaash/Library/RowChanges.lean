import Mathlib.Data.Finset.Dedup
import Mathlib.Data.Finset.Lattice.Basic
import Staaash.Library.OrderedMap

/-!
# Rows that change

Rows that lie in places. What a trigger sees of a statement, the rows that were inserted, deleted or updated,
tells in which places a live row is not what it was.
-/

namespace Staaash.Library

/-- Where a row lies, whether it counts there, and what about it is compared. -/
structure RowPlacement (α π β : Type) where
  home : α → Option π
  live : α → Bool
  columns : α → β

/-- The transition tables of a statement. -/
inductive Transition (κ α : Type)
  | insert (new : OrderedMap κ α)
  | delete (old : OrderedMap κ α)
  | update (old new : OrderedMap κ α)

namespace RowPlacement

variable {κ α π β : Type} [DecidableEq κ] [DecidableEq π] [DecidableEq β]
variable (p : RowPlacement α π β)

/-- The places of the rows that count. -/
def homes (rows : OrderedMap κ α) : Finset π :=
  (rows.entries.filterMap fun e => if p.live e.2 then p.home e.2 else none).toFinset

/-- The rows that are in both tables and not the same. -/
def differing (rows other : OrderedMap κ α) : OrderedMap κ α :=
  rows.filterKeys fun id => (rows.get id).any fun row => (other.get id).any fun row' =>
    p.columns row ≠ p.columns row'

/-- The places that a statement has changed something in. -/
def touched : Transition κ α → Finset π
  | .insert new => p.homes new
  | .delete old => p.homes old
  | .update old new => p.homes (p.differing old new) ∪ p.homes (p.differing new old)

/-- A row that counts in the place is gone or not the same. -/
def Altered (m m' : OrderedMap κ α) (place : π) : Prop :=
  ∃ id row, m.get id = some row ∧ p.live row = true ∧ p.home row = some place ∧
    ∀ row', m'.get id = some row' → p.columns row' ≠ p.columns row

variable {p} {m m₁ m' old new : OrderedMap κ α} {place : π}

omit [DecidableEq β] in
theorem mem_homes : place ∈ p.homes m ↔
    ∃ id row, m.get id = some row ∧ p.live row = true ∧ p.home row = some place := by
  unfold homes
  rw [List.mem_toFinset, List.mem_filterMap]
  constructor
  · rintro ⟨⟨id, row⟩, hmem, h⟩
    dsimp only at h
    split_ifs at h with hlive
    exact ⟨id, row, (OrderedMap.get_eq_some_iff m id row).2 hmem, hlive, h⟩
  · rintro ⟨id, row, hget, hlive, hhome⟩
    exact ⟨(id, row), (OrderedMap.get_eq_some_iff m id row).1 hget, by rw [if_pos hlive, hhome]⟩

omit [DecidableEq π] in
theorem get_differing {id : κ} {row : α} : (p.differing m m').get id = some row ↔
    m.get id = some row ∧ ∃ row', m'.get id = some row' ∧ p.columns row ≠ p.columns row' := by
  unfold differing
  rw [OrderedMap.get_filterKeys]
  cases hget : m.get id with
  | none => simp
  | some before =>
    cases hget' : m'.get id with
    | none => simp
    | some after =>
      by_cases hsame : p.columns before = p.columns after
      · simp only [Option.any_some, hsame, ne_eq, not_true_eq_false, decide_false, Bool.false_eq_true, if_false,
          Option.some.injEq]
        constructor
        · exact fun h => absurd h (by simp)
        · rintro ⟨rfl, row', rfl, hne⟩
          exact absurd hsame hne
      · simp only [Option.any_some, hsame, ne_eq, not_false_eq_true, decide_true, if_true, Option.some.injEq]
        constructor
        · rintro rfl
          exact ⟨rfl, after, rfl, hsame⟩
        · exact fun h => h.1

/-! ## What each kind of statement touches -/

theorem mem_touched_insert (hkept : ∀ id row, m.get id = some row → m'.get id = some row)
    (hnew : ∀ id row, new.get id = some row ↔ m'.get id = some row ∧ m.get id = none) :
    place ∈ p.touched (.insert new) ↔ p.Altered m m' place ∨ p.Altered m' m place := by
  unfold touched
  rw [mem_homes]
  constructor
  · rintro ⟨id, row, hget, hlive, hhome⟩
    obtain ⟨hget', hnone⟩ := (hnew id row).1 hget
    refine .inr ⟨id, row, hget', hlive, hhome, fun row' hrow' => ?_⟩
    rw [hnone] at hrow'
    cases hrow'
  · rintro (⟨id, row, hget, hlive, hhome, hdiff⟩ | ⟨id, row, hget, hlive, hhome, hdiff⟩)
    · exact absurd rfl (hdiff row (hkept id row hget))
    · refine ⟨id, row, (hnew id row).2 ⟨hget, ?_⟩, hlive, hhome⟩
      cases hbefore : m.get id with
      | none => rfl
      | some before =>
        obtain rfl := Option.some.inj ((hkept id before hbefore).symm.trans hget)
        exact absurd rfl (hdiff before hbefore)

theorem mem_touched_delete (hkept : ∀ id row, m'.get id = some row → m.get id = some row)
    (hold : ∀ id row, old.get id = some row ↔ m.get id = some row ∧ m'.get id = none) :
    place ∈ p.touched (.delete old) ↔ p.Altered m m' place ∨ p.Altered m' m place := by
  rw [Or.comm]
  exact mem_touched_insert hkept hold

theorem mem_homes_differing {rows : κ → Bool} (hsame : ∀ id, m'.get id = none → m.get id = none)
    (hold : ∀ id, old.get id = if rows id then m.get id else none)
    (hnew : ∀ id, new.get id = if rows id then m'.get id else none)
    (hrest : ∀ id row row', rows id = false → m.get id = some row → m'.get id = some row' →
      p.columns row = p.columns row') :
    place ∈ p.homes (p.differing old new) ↔ p.Altered m m' place := by
  rw [mem_homes]
  constructor
  · rintro ⟨id, row, hget, hlive, hhome⟩
    obtain ⟨hget, row', hget', hne⟩ := get_differing.1 hget
    rw [hold] at hget
    rw [hnew] at hget'
    split_ifs at hget hget'
    refine ⟨id, row, hget, hlive, hhome, fun other hother => ?_⟩
    obtain rfl := Option.some.inj (hget'.symm.trans hother)
    exact hne.symm
  · rintro ⟨id, row, hget, hlive, hhome, hdiff⟩
    obtain ⟨row', hget'⟩ : ∃ row', m'.get id = some row' :=
      Option.ne_none_iff_exists'.1 fun hnone => by
        rw [hsame id hnone] at hget
        cases hget
    have hrow : rows id = true := by
      by_contra hno
      exact hdiff row' hget' (hrest id row row' (Bool.eq_false_iff.2 hno) hget hget').symm
    refine ⟨id, row, get_differing.2 ⟨?_, row', ?_, (hdiff row' hget').symm⟩, hlive, hhome⟩
    · rw [hold, if_pos hrow, hget]
    · rw [hnew, if_pos hrow, hget']

theorem mem_touched_update {rows : κ → Bool} (hsame : ∀ id, m.get id = none ↔ m'.get id = none)
    (hold : ∀ id, old.get id = if rows id then m.get id else none)
    (hnew : ∀ id, new.get id = if rows id then m'.get id else none)
    (hrest : ∀ id row row', rows id = false → m.get id = some row → m'.get id = some row' →
      p.columns row = p.columns row') :
    place ∈ p.touched (.update old new) ↔ p.Altered m m' place ∨ p.Altered m' m place := by
  unfold touched
  rw [Finset.mem_union, mem_homes_differing (fun id => (hsame id).2) hold hnew hrest,
    mem_homes_differing (fun id => (hsame id).1) hnew hold
      fun id row row' hno hget hget' => (hrest id row' row hno hget' hget).symm]

omit [DecidableEq π] [DecidableEq β] in
theorem not_altered_self : ¬ p.Altered m m place := by
  rintro ⟨id, row, hget, -, -, hdiff⟩
  exact hdiff row hget rfl

theorem mem_touched_writeAll (hfresh : ∀ id, new.has id = true → m.get id = none) :
    place ∈ p.touched (.insert new) ↔
      p.Altered m (m.writeAll new) place ∨ p.Altered (m.writeAll new) m place := by
  have hnew : ∀ id row, new.get id = some row → m.get id = none := fun id row hget =>
    hfresh id ((OrderedMap.has_iff new id).2 ⟨row, hget⟩)
  refine mem_touched_insert (fun id row hget => ?_) fun id row => ?_
  · rw [OrderedMap.get_writeAll]
    cases hget' : new.get id with
    | none => exact hget
    | some row' =>
      rw [hnew id row' hget'] at hget
      cases hget
  · rw [OrderedMap.get_writeAll]
    constructor
    · intro hget
      rw [hget]
      exact ⟨rfl, hnew id row hget⟩
    · rintro ⟨hget, hnone⟩
      rwa [hnone, Option.or_none] at hget

theorem mem_touched_filterKeys {gone kept : κ → Bool} (hkept : ∀ id, kept id = !gone id) :
    place ∈ p.touched (.delete (m.filterKeys gone)) ↔
      p.Altered m (m.filterKeys kept) place ∨ p.Altered (m.filterKeys kept) m place := by
  refine mem_touched_delete (fun id row hget => ?_) fun id row => ?_
  · rw [OrderedMap.get_filterKeys] at hget
    split_ifs at hget
    exact hget
  · rw [OrderedMap.get_filterKeys, OrderedMap.get_filterKeys, hkept]
    cases hgone : gone id with
    | true => simp
    | false =>
      simp only [Bool.false_eq_true, if_false, Bool.not_false, if_true]
      constructor
      · exact fun h => absurd h (by simp)
      · rintro ⟨hget, hnone⟩
        rw [hnone] at hget
        cases hget

theorem mem_touched_mapValues {rows : κ → Bool} {f : κ → α → α}
    (hrest : ∀ id row, m.get id = some row → rows id = false → p.columns (f id row) = p.columns row) :
    place ∈ p.touched (.update (m.filterKeys rows) ((m.mapValues f).filterKeys rows)) ↔
      p.Altered m (m.mapValues f) place ∨ p.Altered (m.mapValues f) m place := by
  refine mem_touched_update (fun id => ?_) (fun id => OrderedMap.get_filterKeys _ _ _)
    (fun id => OrderedMap.get_filterKeys _ _ _) fun id row row' hno hget hget' => ?_
  · rw [OrderedMap.get_mapValues, Option.map_eq_none_iff]
  · rw [OrderedMap.get_mapValues, hget, Option.map_some] at hget'
    rw [← Option.some.inj hget', hrest id row hget hno]

omit [DecidableEq π] [DecidableEq β] in
/-- Rows go, and the others are updated. -/
theorem altered_trans (hsub : ∀ id row, m₁.get id = some row → m.get id = some row)
    (hsame : ∀ id, m₁.get id = none ↔ m'.get id = none) :
    (p.Altered m m' place ∨ p.Altered m' m place) ↔
      (p.Altered m m₁ place ∨ p.Altered m₁ m place) ∨ p.Altered m₁ m' place ∨ p.Altered m' m₁ place := by
  constructor
  · rintro (⟨id, row, hget, hlive, hhome, hdiff⟩ | ⟨id, row, hget, hlive, hhome, hdiff⟩)
    · cases hmid : m₁.get id with
      | none =>
        refine .inl (.inl ⟨id, row, hget, hlive, hhome, fun row' hrow' => ?_⟩)
        rw [hmid] at hrow'
        cases hrow'
      | some row₁ =>
        obtain rfl := Option.some.inj ((hsub id row₁ hmid).symm.trans hget)
        exact .inr (.inl ⟨id, row₁, hmid, hlive, hhome, hdiff⟩)
    · exact .inr (.inr ⟨id, row, hget, hlive, hhome, fun row' hrow' => hdiff row' (hsub id row' hrow')⟩)
  · rintro ((⟨id, row, hget, hlive, hhome, hdiff⟩ | ⟨id, row, hget, hlive, hhome, hdiff⟩) |
      ⟨id, row, hget, hlive, hhome, hdiff⟩ | ⟨id, row, hget, hlive, hhome, hdiff⟩)
    · refine .inl ⟨id, row, hget, hlive, hhome, fun row' hrow' => ?_⟩
      cases hmid : m₁.get id with
      | none =>
        rw [(hsame id).1 hmid] at hrow'
        cases hrow'
      | some row₁ =>
        obtain rfl := Option.some.inj ((hsub id row₁ hmid).symm.trans hget)
        exact absurd rfl (hdiff row₁ hmid)
    · exact absurd rfl (hdiff row (hsub id row hget))
    · exact .inl ⟨id, row, hsub id row hget, hlive, hhome, hdiff⟩
    · refine .inr ⟨id, row, hget, hlive, hhome, fun row' hrow' => ?_⟩
      obtain ⟨row₁, hmid⟩ : ∃ row₁, m₁.get id = some row₁ := Option.ne_none_iff_exists'.1 fun hnone => by
        rw [(hsame id).1 hnone] at hget
        cases hget
      obtain rfl := Option.some.inj ((hsub id row₁ hmid).symm.trans hrow')
      exact hdiff row₁ hmid

end RowPlacement

end Staaash.Library
