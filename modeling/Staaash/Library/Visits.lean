import Mathlib.Data.List.Perm.Subperm
import Mathlib.Logic.Relation

/-!
# Breadth first, with what was seen

The search that takes the first thing of a queue, notes it as seen, and queues those next to it that it has
not seen. When each thing is next to one other thing at most, as in a tree, the search notes nothing twice
and has seen all that can be reached, in as many rounds as there are things.
-/

namespace Staaash.Library

open Relation

variable {α : Type} [DecidableEq α]

/-- A set that keeps its members in the order in which they came. -/
def insertLast (seen : List α) (x : α) : List α := if x ∈ seen then seen else seen ++ [x]

theorem mem_foldl_insertLast {l seen : List α} {y : α} :
    y ∈ l.foldl insertLast seen ↔ y ∈ seen ∨ y ∈ l := by
  induction l generalizing seen with
  | nil => simp
  | cons x l ih =>
    rw [List.foldl_cons, ih, List.mem_cons]
    unfold insertLast
    by_cases hmem : x ∈ seen
    · rw [if_pos hmem]
      constructor
      · rintro (hy | hy)
        · exact .inl hy
        · exact .inr (.inr hy)
      · rintro (hy | rfl | hy)
        · exact .inl hy
        · exact .inl hmem
        · exact .inr hy
    · rw [if_neg hmem, List.mem_append, List.mem_singleton, or_assoc]

def visits (next : α → List α) : Nat → List α → List α → List α
  | _, [], seen => seen
  | 0, _ :: _, seen => seen
  | rounds + 1, x :: queue, seen =>
    let seen := insertLast seen x
    visits next rounds (queue ++ (next x).filter (· ∉ seen)) seen

variable {next : α → List α}

def Reaches (next : α → List α) : α → α → Prop := ReflTransGen fun x y => y ∈ next x

/-- Before a round of the search from `x`. -/
structure Visiting (next : α → List α) (up : α → Option α) (x : α) (queue seen : List α) : Prop where
  nodup : (seen ++ queue).Nodup
  reached : ∀ y ∈ seen ++ queue, Reaches next x y
  expanded : ∀ y ∈ seen, ∀ z ∈ next y, z ∈ seen ++ queue
  started : x ∈ seen ++ queue
  /-- What is queued, the first thing apart, has its one neighbour among the seen. -/
  waits : ∀ y ∈ queue, y = x ∧ seen = [] ∧ queue = [x] ∨ ∃ z ∈ seen, up y = some z

section Tree

variable {up : α → Option α} (hup : ∀ x, ∀ y ∈ next x, up y = some x) (hnodup : ∀ x, (next x).Nodup)
  {x : α} {queue seen : List α}

omit [DecidableEq α] in
theorem visiting_start (x : α) : Visiting next up x [x] [] where
  nodup := by simp
  reached := by
    intro y hy
    obtain rfl := List.mem_singleton.1 hy
    exact .refl
  expanded := fun _ hy => absurd hy List.not_mem_nil
  started := List.mem_singleton_self x
  waits := by
    intro y hy
    exact .inl ⟨List.mem_singleton.1 hy, rfl, rfl⟩

include hup hnodup in
theorem Visiting.step {y : α} (h : Visiting next up x (y :: queue) seen) :
    Visiting next up x (queue ++ (next y).filter (· ∉ seen ++ [y])) (seen ++ [y]) := by
  have hpop : seen ++ y :: queue = seen ++ [y] ++ queue := by simp
  have hnew : ∀ z ∈ (next y).filter (· ∉ seen ++ [y]), z ∈ next y ∧ z ∉ seen ++ [y] := by
    intro z hz
    obtain ⟨hz, hout⟩ := List.mem_filter.1 hz
    exact ⟨hz, of_decide_eq_true hout⟩
  have hy : y ∉ seen := by
    have hdisjoint := (List.nodup_append.1 h.nodup).2.2
    exact fun hmem => hdisjoint y hmem y List.mem_cons_self rfl
  -- what waits has its neighbour among the seen, and `y` was not seen
  have hqueue : ∀ z ∈ queue, z ∉ next y := by
    intro z hz hnext
    rcases h.waits z (List.mem_cons_of_mem _ hz) with ⟨-, -, hqueue⟩ | ⟨w, hw, hupz⟩
    · rw [List.cons.injEq] at hqueue
      rw [hqueue.2] at hz
      exact List.not_mem_nil hz
    · rw [hup y z hnext] at hupz
      obtain rfl := Option.some.inj hupz
      exact hy hw
  refine ⟨?_, ?_, ?_, ?_, ?_⟩
  · rw [← List.append_assoc, ← hpop]
    refine List.nodup_append.2 ⟨h.nodup, (hnodup y).filter _, ?_⟩
    rintro z hz w hw rfl
    obtain ⟨hnext, hout⟩ := hnew z hw
    rw [hpop] at hz
    rcases List.mem_append.1 hz with hz | hz
    · exact hout hz
    · exact hqueue z hz hnext
  · intro z hz
    rw [← List.append_assoc, ← hpop] at hz
    rcases List.mem_append.1 hz with hz | hz
    · exact h.reached z hz
    · exact (h.reached y (by simp)).tail (hnew z hz).1
  · intro z hz w hw
    rw [← List.append_assoc, ← hpop]
    rcases List.mem_append.1 hz with hz | hz
    · exact List.mem_append_left _ (h.expanded z hz w hw)
    · obtain rfl := List.mem_singleton.1 hz
      by_cases hseen : w ∈ seen ++ [z]
      · rw [hpop]
        exact List.mem_append_left _ (List.mem_append_left _ hseen)
      · exact List.mem_append_right _ (List.mem_filter.2 ⟨hw, decide_eq_true hseen⟩)
  · rw [← List.append_assoc, ← hpop]
    exact List.mem_append_left _ h.started
  · intro z hz
    rcases List.mem_append.1 hz with hz | hz
    · rcases h.waits z (List.mem_cons_of_mem _ hz) with ⟨-, -, hqueue⟩ | ⟨w, hw, hupz⟩
      · rw [List.cons.injEq] at hqueue
        rw [hqueue.2] at hz
        exact absurd hz List.not_mem_nil
      · exact .inr ⟨w, List.mem_append_left _ hw, hupz⟩
    · exact .inr ⟨y, by simp, hup y z (hnew z hz).1⟩

variable {dom : List α} (hdom : ∀ x, next x ⊆ dom)

omit [DecidableEq α] in
include hdom in
theorem Visiting.length_le (h : Visiting next up x queue seen) : (seen ++ queue).length ≤ dom.length + 1 := by
  have hsub : seen ++ queue ⊆ x :: dom := by
    intro y hy
    rcases ReflTransGen.cases_tail (h.reached y hy) with rfl | ⟨z, -, hz⟩
    · exact List.mem_cons_self
    · exact List.mem_cons_of_mem _ (hdom z hz)
  exact (h.nodup.subperm hsub).length_le

omit [DecidableEq α] in
/-- With nothing queued, everything is seen. -/
theorem Visiting.done (h : Visiting next up x [] seen) : seen.Nodup ∧ ∀ y, y ∈ seen ↔ Reaches next x y := by
  have hseen : seen ++ [] = seen := List.append_nil seen
  refine ⟨hseen ▸ h.nodup, fun y => ⟨fun hy => h.reached y (hseen.symm ▸ hy), fun hy => ?_⟩⟩
  induction hy with
  | refl => exact hseen ▸ h.started
  | tail _ hs ih => exact hseen ▸ h.expanded _ ih _ hs

include hup hnodup hdom in
theorem Visiting.visits {rounds : Nat} (h : Visiting next up x queue seen)
    (hrounds : dom.length + 1 ≤ rounds + seen.length) :
    (visits next rounds queue seen).Nodup ∧ ∀ y, y ∈ visits next rounds queue seen ↔ Reaches next x y := by
  induction rounds generalizing queue seen with
  | zero =>
    cases queue with
    | nil => exact h.done
    | cons y queue =>
      have hle := h.length_le hdom
      rw [List.length_append, List.length_cons] at hle
      omega
  | succ rounds ih =>
    cases queue with
    | nil => exact h.done
    | cons y queue =>
      have hy : y ∉ seen := by
        have hdisjoint := (List.nodup_append.1 h.nodup).2.2
        exact fun hmem => hdisjoint y hmem y List.mem_cons_self rfl
      have hinsert : insertLast seen y = seen ++ [y] := if_neg hy
      show (Library.visits next rounds _ (insertLast seen y)).Nodup ∧ ∀ z, _ ↔ _
      simp only [Library.visits, hinsert]
      refine ih (h.step hup hnodup) ?_
      rw [List.length_append, List.length_singleton]
      omega

include hup hnodup hdom in
theorem nodup_visits {rounds : Nat} (hrounds : dom.length < rounds) (x : α) :
    (visits next rounds [x] []).Nodup :=
  ((visiting_start x).visits hup hnodup hdom hrounds).1

include hup hnodup hdom in
theorem mem_visits {rounds : Nat} (hrounds : dom.length < rounds) {x y : α} :
    y ∈ visits next rounds [x] [] ↔ Reaches next x y :=
  ((visiting_start x).visits hup hnodup hdom hrounds).2 y

end Tree

end Staaash.Library
