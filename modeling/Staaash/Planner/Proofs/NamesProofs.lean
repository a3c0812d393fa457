import Mathlib.Data.List.TakeWhile
import Mathlib.Tactic.Common
import Staaash.Planner.Names
import Staaash.Planner.Plan

/-!
# Proofs: paths and the walk upwards

The walk `upwards` visits exactly the non-empty path itself and the folders it lies below, so the
planner's loops over `parentRel` can be read as statements about `Below`.
-/

namespace Staaash.Planner

theorem parentRel_of_noSlash {rel : Rel} (h : '/' ∉ rel) : parentRel rel = [] := by
  have hd : rel.reverse.dropWhile (· ≠ '/') = [] := by
    rw [List.dropWhile_eq_nil_iff]
    intro c hc
    have hne : c ≠ '/' := fun e => h (e ▸ List.mem_reverse.mp hc)
    simpa using hne
  rw [parentRel, hd]
  simp

theorem parentRel_of_slash {a b : Rel} (h : '/' ∉ b) : parentRel (a ++ '/' :: b) = a := by
  have hd : (a ++ '/' :: b).reverse.dropWhile (· ≠ '/') = '/' :: a.reverse := by
    rw [List.reverse_append, List.reverse_cons, List.append_assoc, List.dropWhile_append_of_pos]
    · simp
    · intro c hc
      have hne : c ≠ '/' := fun e => h (e ▸ List.mem_reverse.mp hc)
      simpa using hne
  rw [parentRel, hd]
  simp

/-- A path has no slash, or splits at its last one. -/
theorem exists_last_slash (rel : Rel) :
    '/' ∉ rel ∨ ∃ a b, '/' ∉ b ∧ rel = a ++ '/' :: b := by
  induction rel with
  | nil => exact Or.inl (by simp)
  | cons c rest ih =>
    rcases ih with h | ⟨a, b, hb, rfl⟩
    · by_cases hc : c = '/'
      · exact Or.inr ⟨[], rest, h, by simp [hc]⟩
      · exact Or.inl (by simp [h, Ne.symm hc])
    · exact Or.inr ⟨c :: a, b, hb, rfl⟩

theorem parentRel_length_lt {rel : Rel} (h : rel ≠ []) : (parentRel rel).length < rel.length := by
  rcases exists_last_slash rel with hn | ⟨a, b, hb, rfl⟩
  · rw [parentRel_of_noSlash hn]
    exact List.length_pos_of_ne_nil h
  · rw [parentRel_of_slash hb]
    simp

/-- What lies strictly above a path: its folder, and what lies above that. -/
theorem below_iff_parentRel {folder key : Rel} (hf : folder ≠ []) :
    Below folder key ↔ folder = parentRel key ∨ Below folder (parentRel key) := by
  rcases exists_last_slash key with hn | ⟨a, b, hb, rfl⟩
  · rw [parentRel_of_noSlash hn]
    constructor
    · rintro ⟨rest, rfl⟩
      exact absurd hn (by simp)
    · rintro (h | ⟨rest, h⟩)
      · exact absurd h hf
      · exact absurd h (by simp)
  · rw [parentRel_of_slash hb]
    constructor
    · rintro ⟨rest, h⟩
      rcases List.append_eq_append_iff.mp h with ⟨c, hc, hc'⟩ | ⟨c, rfl, hc⟩
      · -- the last slash comes first, so the slash of `folder` would have to be in `b`
        cases c with
        | nil => exact Or.inl (by simpa using hc)
        | cons x c =>
          rw [List.cons_append] at hc'
          obtain ⟨-, hc'⟩ := List.cons.inj hc'
          exact absurd (by rw [hc']; simp) hb
      · cases c with
        | nil => exact Or.inl (by simp)
        | cons x c =>
          rw [List.cons_append] at hc
          obtain ⟨rfl, -⟩ := List.cons.inj hc
          exact Or.inr ⟨c, rfl⟩
    · rintro (rfl | ⟨rest, rfl⟩)
      · exact ⟨b, rfl⟩
      · exact ⟨rest ++ '/' :: b, by simp⟩

theorem mem_upwardsFrom (n : Nat) (p rel : Rel) (hn : rel.length ≤ n) :
    p ∈ upwardsFrom n rel ↔ p ≠ [] ∧ (p = rel ∨ Below p rel) := by
  induction n generalizing rel with
  | zero =>
    have hr : rel = [] := List.length_eq_zero_iff.mp (by omega)
    subst hr
    simp only [upwardsFrom, List.not_mem_nil, false_iff, not_and, not_or]
    intro hp
    exact ⟨hp, by rintro ⟨rest, h⟩; exact absurd h (by simp)⟩
  | succ n ih =>
    by_cases hr : rel = []
    · subst hr
      simp only [upwardsFrom, if_pos, List.not_mem_nil, false_iff, not_and, not_or]
      intro hp
      exact ⟨hp, by rintro ⟨rest, h⟩; exact absurd h (by simp)⟩
    · have hlt := parentRel_length_lt hr
      simp only [upwardsFrom, if_neg hr, List.mem_cons]
      rw [ih (parentRel rel) (by omega)]
      constructor
      · rintro (rfl | ⟨hp, h⟩)
        · exact ⟨hr, Or.inl rfl⟩
        · exact ⟨hp, Or.inr ((below_iff_parentRel hp).mpr h)⟩
      · rintro ⟨hp, rfl | h⟩
        · exact Or.inl rfl
        · exact Or.inr ⟨hp, (below_iff_parentRel hp).mp h⟩

/-- The walk upwards visits the path itself and every folder above it. -/
theorem mem_upwards {p rel : Rel} : p ∈ upwards rel ↔ p ≠ [] ∧ (p = rel ∨ Below p rel) :=
  mem_upwardsFrom rel.length p rel le_rfl

/-- The walk from the folder of a path visits exactly the folders strictly above the path. -/
theorem mem_upwards_parentRel {p rel : Rel} :
    p ∈ upwards (parentRel rel) ↔ p ≠ [] ∧ Below p rel := by
  rw [mem_upwards]
  constructor
  · rintro ⟨hp, h⟩
    exact ⟨hp, (below_iff_parentRel hp).mpr h⟩
  · rintro ⟨hp, h⟩
    exact ⟨hp, (below_iff_parentRel hp).mp h⟩

theorem Below.trans {a b c : Rel} (h1 : Below a b) (h2 : Below b c) : Below a c := by
  obtain ⟨r, rfl⟩ := h1
  obtain ⟨s, rfl⟩ := h2
  exact ⟨r ++ '/' :: s, by simp⟩

theorem Below.length_lt {a b : Rel} (h : Below a b) : a.length < b.length := by
  obtain ⟨r, rfl⟩ := h
  simp

theorem Below.ne {a b : Rel} (h : Below a b) : a ≠ b := by
  intro e
  have := h.length_lt
  rw [e] at this
  omega

theorem upwards_trans {a b c : Rel} (h1 : a ∈ upwards b) (h2 : b ∈ upwards c) :
    a ∈ upwards c := by
  rw [mem_upwards] at *
  obtain ⟨ha, h1⟩ := h1
  obtain ⟨-, h2⟩ := h2
  refine ⟨ha, ?_⟩
  rcases h1 with rfl | h1
  · exact h2
  · rcases h2 with rfl | h2
    · exact Or.inr h1
    · exact Or.inr (h1.trans h2)

/-! ## Proofs: covered paths and dirty folders

`covered` asks about a path and the folders above it. `dirtyFolders` marks every folder above a
path that is not clean; its early exit is safe because the marked folders are always closed under
the walk upwards.
-/

section Dirty

theorem covered_iff {key : Rel} {sets : List (List Rel)} :
    covered key sets = true ↔ ∃ p ∈ upwards key, ∃ set ∈ sets, p ∈ set := by
  simp [covered]

theorem covered_eq_false_iff {key : Rel} {sets : List (List Rel)} :
    covered key sets = false ↔ ∀ p ∈ upwards key, ∀ set ∈ sets, p ∉ set := by
  rw [← Bool.not_eq_true, covered_iff]
  push Not
  rfl

/-- A set of folders that contains, with every folder, all the folders above it. -/
def UpClosed (dirty : List Rel) : Prop := ∀ p ∈ dirty, ∀ q ∈ upwards p, q ∈ dirty

/-- Marking a walk upwards marks all of it, early exit or not, and keeps the set closed. -/
theorem markDirty_upwards (dirty : List Rel) (rel : Rel) (hc : UpClosed dirty) :
    UpClosed (markDirty dirty (upwards rel)) ∧
      ∀ p, p ∈ markDirty dirty (upwards rel) ↔ p ∈ dirty ∨ p ∈ upwards rel := by
  -- the walk adds folders innermost first, so the set is closed only once the walk has ended
  suffices h : ∀ (n : Nat) (dirty : List Rel) (rel : Rel), rel.length ≤ n →
      (∀ p ∈ dirty, ∀ q ∈ upwards p, q ∈ dirty ∨ q ∈ upwardsFrom n rel) →
      (∀ q ∈ upwardsFrom n rel, q ∈ dirty → ∀ r ∈ upwards q, r ∈ dirty) →
      UpClosed (markDirty dirty (upwardsFrom n rel)) ∧
        ∀ p, p ∈ markDirty dirty (upwardsFrom n rel) ↔ p ∈ dirty ∨ p ∈ upwardsFrom n rel by
    exact h rel.length dirty rel le_rfl (fun p hp q hq => Or.inl (hc p hp q hq))
      (fun q _ hq => hc q hq)
  clear hc
  intro n
  induction n with
  | zero =>
    intro dirty rel _ hc _
    simp only [upwardsFrom, List.not_mem_nil, or_false] at hc ⊢
    exact ⟨hc, fun p => Iff.rfl⟩
  | succ n ih =>
    intro dirty rel hn hc hk
    by_cases hr : rel = []
    · simp only [upwardsFrom, if_pos hr, List.not_mem_nil, or_false] at hc ⊢
      exact ⟨hc, fun p => Iff.rfl⟩
    have hlt := parentRel_length_lt hr
    have hup : ∀ q, q ∈ upwardsFrom (n + 1) rel ↔ q ∈ upwards rel := fun q => by
      rw [mem_upwardsFrom _ _ _ hn, mem_upwards]
    have hrest : ∀ q, q ∈ upwardsFrom n (parentRel rel) ↔ q ≠ [] ∧ Below q rel := fun q => by
      rw [mem_upwardsFrom _ _ _ (by omega), ← mem_upwards, mem_upwards_parentRel]
    have hself : rel ∈ upwardsFrom (n + 1) rel := by
      rw [hup, mem_upwards]
      exact ⟨hr, Or.inl rfl⟩
    have hcons : upwardsFrom (n + 1) rel = rel :: upwardsFrom n (parentRel rel) := by
      simp [upwardsFrom, hr]
    by_cases hd : rel ∈ dirty
    · -- known already: everything above it is known too, so stopping early loses nothing
      have hall : ∀ q ∈ upwardsFrom (n + 1) rel, q ∈ dirty := fun q hq =>
        hk rel hself hd q ((hup q).mp hq)
      have hm : markDirty dirty (upwardsFrom (n + 1) rel) = dirty := by
        rw [hcons, markDirty, if_pos (by simpa using hd)]
      rw [hm]
      exact ⟨fun p hp q hq => (hc p hp q hq).elim id (hall q),
        fun p => ⟨Or.inl, fun h => h.elim id (hall p)⟩⟩
    · have hm : markDirty dirty (upwardsFrom (n + 1) rel) =
          markDirty (rel :: dirty) (upwardsFrom n (parentRel rel)) := by
        rw [hcons, markDirty, if_neg (by simpa using hd)]
      have hc' : ∀ p ∈ rel :: dirty, ∀ q ∈ upwards p,
          q ∈ rel :: dirty ∨ q ∈ upwardsFrom n (parentRel rel) := by
        intro p hp q hq
        have hq' : q ∈ dirty ∨ q ∈ upwardsFrom (n + 1) rel := by
          rcases List.mem_cons.mp hp with rfl | hp
          · exact Or.inr ((hup q).mpr hq)
          · exact hc p hp q hq
        rw [hcons, List.mem_cons] at hq'
        rw [List.mem_cons]
        tauto
      have hk' : ∀ q ∈ upwardsFrom n (parentRel rel), q ∈ rel :: dirty →
          ∀ r ∈ upwards q, r ∈ rel :: dirty := by
        intro q hq hqd r hr'
        obtain ⟨hq0, hb⟩ := (hrest q).mp hq
        rcases List.mem_cons.mp hqd with rfl | hqd
        · exact absurd rfl hb.ne
        · have hqu : q ∈ upwardsFrom (n + 1) rel := by
            rw [hup, mem_upwards]
            exact ⟨hq0, Or.inr hb⟩
          exact List.mem_cons_of_mem _ (hk q hqu hqd r hr')
      obtain ⟨h1, h2⟩ := ih (rel :: dirty) (parentRel rel) (by omega) hc' hk'
      rw [hm]
      refine ⟨h1, fun p => ?_⟩
      rw [h2, hcons, List.mem_cons, List.mem_cons]
      tauto

/-- `dirtyFolders` marks exactly the folders above the paths that are not clean. -/
theorem mem_dirtyFolders {keys : List Rel} {isClean : Rel → Bool} {p : Rel} :
    p ∈ dirtyFolders keys isClean ↔
      p ≠ [] ∧ ∃ key ∈ keys, isClean key = false ∧ Below p key := by
  suffices h : ∀ (keys : List Rel) (dirty : List Rel), UpClosed dirty →
      ∀ p, p ∈ keys.foldl (fun dirty key =>
          if isClean key then dirty else markDirty dirty (upwards (parentRel key))) dirty ↔
        p ∈ dirty ∨ (p ≠ [] ∧ ∃ key ∈ keys, isClean key = false ∧ Below p key) by
    have := h keys [] (fun p hp => absurd hp (by simp)) p
    simpa [dirtyFolders] using this
  intro keys
  induction keys with
  | nil => intro dirty _ p; simp
  | cons key keys ih =>
    intro dirty hc p
    rw [List.foldl_cons]
    by_cases hk : isClean key = true
    · rw [if_pos hk, ih dirty hc p]
      simp [hk]
    · have hk' : isClean key = false := by simpa using hk
      obtain ⟨h1, h2⟩ := markDirty_upwards dirty (parentRel key) hc
      rw [if_neg hk, ih _ h1 p, h2, mem_upwards_parentRel]
      simp only [List.mem_cons, exists_eq_or_imp, hk', true_and]
      tauto

variable {P : Platform}

/-- A folder is marked as holding an excluded path exactly when one lies below it. -/
theorem mem_hiddenUnderOf {excluded : List Excluded} {side : Side} {p : Rel} :
    p ∈ hiddenUnderOf P excluded side ↔
      p ≠ [] ∧ ∃ each ∈ excluded, each.side = side ∧ Below p (P.pathKey each.rel) := by
  simp only [hiddenUnderOf, mem_dirtyFolders, List.mem_map, List.mem_filter, decide_eq_true_eq]
  constructor
  · rintro ⟨hp, key, ⟨each, ⟨he, hs⟩, rfl⟩, -, hb⟩
    exact ⟨hp, each, he, hs, hb⟩
  · rintro ⟨hp, each, he, hs, hb⟩
    exact ⟨hp, _, ⟨each, ⟨he, hs⟩, rfl⟩, trivial, hb⟩

end Dirty

end Staaash.Planner
