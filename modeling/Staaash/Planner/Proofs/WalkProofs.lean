import Staaash.Planner.Proofs.DecideProofs
import Mathlib.Data.List.Induction

/-!
# Proofs: the walk over all paths

The walk visits folders before what they hold, so a path is passed over for a deleted folder
exactly when a folder strictly above it ends up in the set of deleted folders. This turns the loop
of `plan` into two equations, `mem_walk_gone` and `mem_walk_actions`.
-/

namespace Staaash.Planner

variable {v : View} {pending : List Rel}

theorem nodup_eraseDups {α : Type} [BEq α] [LawfulBEq α] (l : List α) : l.eraseDups.Nodup := by
  induction hn : l.length using Nat.strong_induction_on generalizing l with
  | _ n ih =>
    cases l with
    | nil => simp
    | cons a l =>
      rw [List.eraseDups_cons, List.nodup_cons]
      have hlen : (l.filter fun b => !b == a).length < n := by
        rw [← hn]
        exact Nat.lt_succ_of_le (List.length_filter_le _ _)
      refine ⟨?_, ih _ hlen _ rfl⟩
      simp [List.mem_eraseDups]

theorem Below.depth_lt {a b : Rel} (h : Below a b) : depth a < depth b := by
  obtain ⟨rest, rfl⟩ := h
  have hpos : 0 < (rest.splitOn '/').length :=
    List.length_pos_of_ne_nil (List.splitOn_ne_nil '/' rest)
  unfold depth
  rw [List.splitOn_append_cons_self, List.length_append]
  omega

theorem mem_planKeys {k : Rel} :
    k ∈ planKeys v ↔
      (∃ here, v.locals.get k = some here) ∨ (∃ there, v.remote.get k = some there) ∨
        ∃ previous, v.base.get k = some previous := by
  simp only [planKeys, List.mem_insertionSort, List.mem_eraseDups, List.mem_append,
    Staaash.Library.OrderedMap.mem_keys_iff, or_assoc]

theorem nodup_planKeys : (planKeys v).Nodup :=
  (List.perm_insertionSort _ _).nodup_iff.mpr (nodup_eraseDups _)

theorem pairwise_planKeys : (planKeys v).Pairwise fun a b => depth a ≤ depth b := by
  have : Std.Total fun a b : Rel => depth a ≤ depth b := ⟨fun a b => Nat.le_total _ _⟩
  have : IsTrans Rel fun a b => depth a ≤ depth b := ⟨fun a b c => Nat.le_trans⟩
  exact List.pairwise_insertionSort _ _

/-- The path is not left out for a move, an excluded path or a folder deleted above it. -/
def Reached (v : View) (pending gone : List Rel) (k : Rel) : Prop :=
  covered k [pending, v.hidden.keys] = false ∧ ∀ p, p ≠ [] → Below p k → p ∉ gone

/-- The decision `decide` takes about the path `k`. -/
def decisionAt (v : View) (k : Rel) : Decision := (decide v (cellAt v k) (dirtySides v) []).1

/-- The files `decide` wants hashed before it decides about the path `k`. -/
def hashAt (v : View) (k : Rel) : List LocalFile := (decide v (cellAt v k) (dirtySides v) []).2

/-- What the walk contributes for a path it reaches. -/
def ContributesAction (v : View) (k : Rel) (a : Action) : Prop :=
  (covered k [vanishedFolders v] = true ∧ ∃ previous, v.base.get k = some previous ∧
      a = .forget previous.rel) ∨
    (covered k [vanishedFolders v] = false ∧ (decisionAt v k).action = some a)

/-- The path is a folder whose deletion on one side is repeated on the other. -/
def ContributesGone (v : View) (k : Rel) : Prop :=
  covered k [vanishedFolders v] = false ∧ (decisionAt v k).gone = true

/-- One path of the walk, when no folder above it and not the path itself is marked later. -/
theorem walkKey_spec (acc : Walk) (k : Rel) (hk : k ∉ acc.gone) :
    (¬ Reached v pending acc.gone k →
      walkKey v (dirtySides v) (vanishedFolders v) pending acc k = acc) ∧
    (Reached v pending acc.gone k →
      (∀ a, a ∈ (walkKey v (dirtySides v) (vanishedFolders v) pending acc k).actions ↔
        a ∈ acc.actions ∨ ContributesAction v k a) ∧
      (∀ g, g ∈ (walkKey v (dirtySides v) (vanishedFolders v) pending acc k).gone ↔
        g ∈ acc.gone ∨ (g = k ∧ ContributesGone v k)) ∧
      (∀ f, f ∈ (walkKey v (dirtySides v) (vanishedFolders v) pending acc k).needsHash ↔
        f ∈ acc.needsHash ∨
          (covered k [vanishedFolders v] = false ∧ f ∈ hashAt v k))) := by
  have hcov : covered k [pending, acc.gone, v.hidden.keys] = false ↔
      Reached v pending acc.gone k := by
    unfold Reached
    rw [covered_eq_false_iff, covered_eq_false_iff]
    simp only [List.mem_cons, List.not_mem_nil, or_false, forall_eq_or_imp, forall_eq]
    constructor
    · intro h
      exact ⟨fun p hp => ⟨(h p hp).1, (h p hp).2.2⟩,
        fun p hp0 hp => (h p (mem_upwards.mpr ⟨hp0, Or.inr hp⟩)).2.1⟩
    · rintro ⟨h1, h2⟩ p hp
      refine ⟨(h1 p hp).1, ?_, (h1 p hp).2⟩
      obtain ⟨hp0, rfl | hb⟩ := mem_upwards.mp hp
      · exact hk
      · exact h2 p hp0 hb
  constructor
  · intro hn
    have : covered k [pending, acc.gone, v.hidden.keys] = true := by
      rw [← Bool.not_eq_false, hcov]
      exact hn
    rw [walkKey, if_pos this]
  · intro hr
    have hfalse := hcov.mpr hr
    have hsplit := @decide_needsHash v (cellAt v k) (dirtySides v) acc.needsHash
    unfold walkKey ContributesAction ContributesGone decisionAt hashAt
    rw [if_neg (by simp [hfalse])]
    by_cases hv : covered k [vanishedFolders v] = true
    · rw [if_pos hv]
      refine ⟨fun a => ?_, fun g => by simp [hv], fun f => by simp [hv]⟩
      rw [List.mem_append, Option.mem_toList, Option.map_eq_some_iff]
      have hback : (∃ previous, v.base.get k = some previous ∧ .forget previous.rel = a) ↔
          ∃ previous, v.base.get k = some previous ∧ a = .forget previous.rel := by
        simp only [eq_comm]
      rw [hback]
      simp only [hv, true_and, Bool.true_eq_false, false_and, or_false]
    · rw [if_neg hv]
      have hv' : covered k [vanishedFolders v] = false := by simpa using hv
      simp only [hsplit.1, hsplit.2, hv', Bool.false_eq_true, false_and, false_or, true_and,
        List.mem_append, Option.mem_toList]
      refine ⟨fun a => trivial, fun g => ?_, fun f => trivial⟩
      split_ifs with hg
      · simp [or_comm, hg]
      · simp [hg]

/-- The invariant of the walk: what it has collected so far is what the paths it has visited and
reached contribute. -/
def WalkInv (v : View) (pending : List Rel) (ks : List Rel) (acc : Walk) : Prop :=
  (∀ a, a ∈ acc.actions ↔ ∃ k ∈ ks, Reached v pending acc.gone k ∧ ContributesAction v k a) ∧
  (∀ g, g ∈ acc.gone ↔ g ∈ ks ∧ Reached v pending acc.gone g ∧ ContributesGone v g) ∧
  (∀ f, f ∈ acc.needsHash ↔ ∃ k ∈ ks, Reached v pending acc.gone k ∧
    covered k [vanishedFolders v] = false ∧ f ∈ hashAt v k)

theorem reached_congr {gone gone' : List Rel} {k : Rel}
    (h : ∀ p, p ≠ [] → Below p k → (p ∈ gone ↔ p ∈ gone')) :
    Reached v pending gone k ↔ Reached v pending gone' k := by
  unfold Reached
  constructor
  · rintro ⟨h1, h2⟩
    exact ⟨h1, fun p hp0 hp hg => h2 p hp0 hp ((h p hp0 hp).mpr hg)⟩
  · rintro ⟨h1, h2⟩
    exact ⟨h1, fun p hp0 hp hg => h2 p hp0 hp ((h p hp0 hp).mp hg)⟩

/-- One more path keeps the invariant: a path at least as deep as all before it lies above none of
them, so it changes nothing for them. -/
theorem WalkInv.snoc {ks : List Rel} {acc : Walk} {k : Rel} (h : WalkInv v pending ks acc)
    (hk : k ∉ ks) (hd : ∀ g ∈ ks, depth g ≤ depth k) :
    WalkInv v pending (ks ++ [k])
      (walkKey v (dirtySides v) (vanishedFolders v) pending acc k) := by
  obtain ⟨hact, hgone, hhash⟩ := h
  have hkg : k ∉ acc.gone := fun hg => hk ((hgone k).mp hg).1
  obtain ⟨hskip, hstep⟩ := @walkKey_spec v pending acc k hkg
  by_cases hr : Reached v pending acc.gone k
  · obtain ⟨ha, hg, hf⟩ := hstep hr
    set acc' := walkKey v (dirtySides v) (vanishedFolders v) pending acc k with hacc'
    have hold : ∀ g ∈ ks ++ [k], (Reached v pending acc'.gone g ↔ Reached v pending acc.gone g) := by
      intro g hgk
      apply reached_congr
      intro p hp0 hp
      rw [hg]
      constructor
      · rintro (h | ⟨rfl, -⟩)
        · exact h
        · exfalso
          have hlt := hp.depth_lt
          rcases List.mem_append.mp hgk with hm | hm
          · have := hd g hm
            omega
          · rw [List.mem_singleton.mp hm] at hlt
            omega
      · exact Or.inl
    have hnew : Reached v pending acc'.gone k := (hold k (by simp)).mpr hr
    refine ⟨fun a => ?_, fun g => ?_, fun f => ?_⟩
    · rw [ha, hact]
      constructor
      · rintro (⟨g, hgk, hgr, hc⟩ | hc)
        · exact ⟨g, by simp [hgk], (hold g (by simp [hgk])).mpr hgr, hc⟩
        · exact ⟨k, by simp, hnew, hc⟩
      · rintro ⟨g, hgk, hgr, hc⟩
        rcases List.mem_append.mp hgk with hm | hm
        · exact Or.inl ⟨g, hm, (hold g hgk).mp hgr, hc⟩
        · rw [List.mem_singleton.mp hm] at hc
          exact Or.inr hc
    · rw [hg, hgone]
      constructor
      · rintro (⟨hgk, hgr, hc⟩ | ⟨rfl, hc⟩)
        · exact ⟨by simp [hgk], (hold g (by simp [hgk])).mpr hgr, hc⟩
        · exact ⟨by simp, hnew, hc⟩
      · rintro ⟨hgk, hgr, hc⟩
        rcases List.mem_append.mp hgk with hm | hm
        · exact Or.inl ⟨hm, (hold g hgk).mp hgr, hc⟩
        · rw [List.mem_singleton.mp hm] at hc ⊢
          exact Or.inr ⟨rfl, hc⟩
    · rw [hf, hhash]
      constructor
      · rintro (⟨g, hgk, hgr, hc⟩ | hc)
        · exact ⟨g, by simp [hgk], (hold g (by simp [hgk])).mpr hgr, hc⟩
        · exact ⟨k, by simp, hnew, hc⟩
      · rintro ⟨g, hgk, hgr, hc⟩
        rcases List.mem_append.mp hgk with hm | hm
        · exact Or.inl ⟨g, hm, (hold g hgk).mp hgr, hc⟩
        · rw [List.mem_singleton.mp hm] at hc
          exact Or.inr hc
  · rw [hskip hr]
    have hcons : ∀ Q : Rel → Prop, (∃ g ∈ ks ++ [k], Reached v pending acc.gone g ∧ Q g) ↔
        ∃ g ∈ ks, Reached v pending acc.gone g ∧ Q g := by
      intro Q
      constructor
      · rintro ⟨g, hgk, hgr, hq⟩
        rcases List.mem_append.mp hgk with hm | hm
        · exact ⟨g, hm, hgr, hq⟩
        · rw [List.mem_singleton.mp hm] at hgr
          exact absurd hgr hr
      · rintro ⟨g, hgk, hgr, hq⟩
        exact ⟨g, by simp [hgk], hgr, hq⟩
    refine ⟨fun a => by rw [hact, hcons], fun g => ?_, fun f => by rw [hhash, hcons]⟩
    rw [hgone]
    constructor
    · rintro ⟨hgk, h⟩
      exact ⟨by simp [hgk], h⟩
    · rintro ⟨hgk, h⟩
      rcases List.mem_append.mp hgk with hm | hm
      · exact ⟨hm, h⟩
      · rw [List.mem_singleton.mp hm] at h
        exact absurd h.1 hr

theorem foldl_walkInv (ks : List Rel) (hnd : ks.Nodup)
    (hp : ks.Pairwise fun a b => depth a ≤ depth b) :
    WalkInv v pending ks (ks.foldl (walkKey v (dirtySides v) (vanishedFolders v) pending)
      { actions := [], needsHash := [], gone := [] }) := by
  induction ks using List.reverseRecOn with
  | nil => simp [WalkInv]
  | append_singleton ks k ih =>
    rw [List.foldl_append, List.foldl_cons, List.foldl_nil]
    rw [List.nodup_append] at hnd
    rw [List.pairwise_append] at hp
    refine (ih hnd.1 hp.1).snoc ?_ fun g hg => hp.2.2 g hg k (by simp)
    intro hk
    exact hnd.2.2 k hk k (by simp) rfl

theorem walk_inv (v : View) (pending : List Rel) :
    WalkInv v pending (planKeys v) (walk v pending) :=
  foldl_walkInv _ nodup_planKeys pairwise_planKeys

/-- The path `k` gets its own turn in the walk. -/
def Visited (v : View) (pending : List Rel) (k : Rel) : Prop :=
  k ∈ planKeys v ∧ Reached v pending (walk v pending).gone k

theorem mem_walk_actions {a : Action} :
    a ∈ (walk v pending).actions ↔ ∃ k, Visited v pending k ∧ ContributesAction v k a := by
  rw [(walk_inv v pending).1 a]
  simp only [Visited, and_assoc]

theorem mem_walk_gone {g : Rel} :
    g ∈ (walk v pending).gone ↔ Visited v pending g ∧ ContributesGone v g := by
  rw [(walk_inv v pending).2.1 g, Visited, and_assoc]

theorem mem_walk_needsHash {f : LocalFile} :
    f ∈ (walk v pending).needsHash ↔ ∃ k, Visited v pending k ∧
      covered k [vanishedFolders v] = false ∧ f ∈ hashAt v k := by
  rw [(walk_inv v pending).2.2 f]
  simp only [Visited, and_assoc]

theorem Visited.not_pending {k : Rel} (h : Visited v pending k) :
    covered k [pending, v.hidden.keys] = false := h.2.1

/-- An action of the walk comes from a path both sides and the base see as `cellAt` says, or is the
record of a path that went out of sight with its folder. -/
theorem outcome_of_mem_walk {a : Action} (h : a ∈ (walk v pending).actions) :
    ∃ k, Visited v pending k ∧
      ((∃ previous, v.base.get k = some previous ∧ a = .forget previous.rel) ∨
        ∃ gone, Outcome v (cellAt v k) (dirtySides v) a gone) := by
  obtain ⟨k, hk, ⟨-, hc⟩ | ⟨-, hc⟩⟩ := mem_walk_actions.mp h
  · exact ⟨k, hk, Or.inl hc⟩
  · exact ⟨k, hk, Or.inr ⟨_, decide_outcome hc⟩⟩

end Staaash.Planner
