import Mathlib.Algebra.BigOperators.Group.Finset.Basic
import Staaash.Library.Saturation

/-!
# Sums over subtrees

Things of a finite set, each of which may name its parent. The subtree of a thing holds what comes
under it through parents in the set; nothing is said against cycles. What all subtrees weigh follows
from a part of the set that is closed upwards, when the weights of the subtrees outside are known.
-/

namespace Staaash.Library

open Relation

variable {α M : Type} [DecidableEq α] [AddCommMonoid M]
variable {live live' T : Finset α} {up up' : α → Option α} {w w' : α → M} {x y z : α}

/-- The things that name `x` as their parent. -/
def children (live : Finset α) (up : α → Option α) (x : α) : Finset α :=
  live.filter fun c => up c = some x

/-- What comes under `x`, with `x` itself. -/
def subtree (live : Finset α) (up : α → Option α) (x : α) : Finset α :=
  saturate (children live up) live.card {x}

def treeSum (live : Finset α) (up : α → Option α) (w : α → M) (x : α) : M :=
  ∑ y ∈ subtree live up x, w y

/-- `x` comes under its own parent's subtree. -/
def OnCycle (live : Finset α) (up : α → Option α) (x : α) : Prop :=
  ∃ z, up x = some z ∧ z ∈ subtree live up x

/-- With a thing, its parent belongs to `T`. -/
def ClosedUp (live : Finset α) (up : α → Option α) (T : Finset α) : Prop :=
  ∀ x ∈ live, x ∈ T → ∀ y ∈ live, up x = some y → y ∈ T

theorem mem_children {c : α} : c ∈ children live up x ↔ c ∈ live ∧ up c = some x :=
  Finset.mem_filter

/-- The way up from `y` leads to `x`, through things of the set. -/
theorem mem_subtree :
    y ∈ subtree live up x ↔ ReflTransGen (fun y z => y ∈ live ∧ up y = some z) y x := by
  have hdom : ∀ x, children live up x ⊆ live := fun _ => Finset.filter_subset _ _
  unfold subtree
  rw [mem_saturate hdom (Nat.le_refl _), ← reflTransGen_swap]
  simp only [Finset.mem_singleton, exists_eq_left, mem_children]

theorem self_mem_subtree : x ∈ subtree live up x := mem_subtree.2 .refl

theorem mem_subtree_trans (hxy : y ∈ subtree live up x) (hyz : z ∈ subtree live up y) :
    z ∈ subtree live up x :=
  mem_subtree.2 ((mem_subtree.1 hyz).trans (mem_subtree.1 hxy))

theorem child_mem_subtree {c : α} (hc : c ∈ children live up x) : c ∈ subtree live up x :=
  mem_subtree.2 (.single (mem_children.1 hc))

theorem mem_live_of_mem_subtree (hx : x ∈ live) (hy : y ∈ subtree live up x) : y ∈ live := by
  rcases ReflTransGen.cases_head (mem_subtree.1 hy) with rfl | ⟨z, hz, -⟩
  · exact hx
  · exact hz.1

/-- Of two things on the way up from `z`, one comes under the other. -/
theorem subtree_total (hx : z ∈ subtree live up x) (hy : z ∈ subtree live up y) :
    x ∈ subtree live up y ∨ y ∈ subtree live up x := by
  have hunique : Relator.RightUnique fun y z => y ∈ live ∧ up y = some z := by
    intro a b c hb hc
    exact Option.some.inj (hb.2.symm.trans hc.2)
  rcases ReflTransGen.total_of_right_unique hunique (mem_subtree.1 hx) (mem_subtree.1 hy) with h | h
  · exact .inl (mem_subtree.2 h)
  · exact .inr (mem_subtree.2 h)

/-! ## A part that is closed upwards -/

section ClosedUp

variable (hT : ClosedUp live up T)

include hT

/-- What lies above a member is a member. -/
theorem ClosedUp.mem_of_mem_subtree (hx : x ∈ live) (hy : y ∈ subtree live up x) (hyT : y ∈ T) :
    x ∈ T := by
  have hpath := mem_subtree.1 hy
  clear hy
  induction hpath using ReflTransGen.head_induction_on with
  | refl => exact hyT
  | head hstep hpath ih =>
    refine ih (hT _ hstep.1 hyT _ ?_ hstep.2)
    rcases ReflTransGen.cases_head hpath with rfl | ⟨z, hz, -⟩
    · exact hx
    · exact hz.1

/-- The subtree of the part is the part of the subtree. -/
theorem ClosedUp.mem_subtree_inter_iff (hx : x ∈ T) :
    y ∈ subtree (live ∩ T) up x ↔ y ∈ subtree live up x ∧ y ∈ T := by
  constructor
  · intro hy
    have hpath := mem_subtree.1 hy
    refine ⟨mem_subtree.2 (ReflTransGen.mono (fun _ _ h => ?_) _ _ hpath), ?_⟩
    · exact ⟨(Finset.mem_inter.1 h.1).1, h.2⟩
    rcases ReflTransGen.cases_head hpath with rfl | ⟨z, hz, -⟩
    · exact hx
    · exact (Finset.mem_inter.1 hz.1).2
  · rintro ⟨hy, hyT⟩
    rw [mem_subtree] at hy ⊢
    induction hy using ReflTransGen.head_induction_on with
    | refl => exact .refl
    | @head y v hstep hpath ih =>
      refine .head ⟨Finset.mem_inter.2 ⟨hstep.1, hyT⟩, hstep.2⟩ (ih ?_)
      rcases ReflTransGen.cases_head hpath with rfl | ⟨z, hz, -⟩
      · exact hx
      · exact hT _ hstep.1 hyT _ hz.1 hstep.2

/-- A member and the subtrees that hang from it outside of the part. -/
def patch (live : Finset α) (up : α → Option α) (T : Finset α) (y : α) : Finset α :=
  insert y ((children (live \ T) up y).biUnion (subtree live up))

omit hT in
theorem mem_outside {c : α} :
    c ∈ children (live \ T) up y ↔ c ∈ live ∧ c ∉ T ∧ up c = some y := by
  rw [mem_children, Finset.mem_sdiff]
  tauto

/-- The subtrees that hang from members are apart from one another, and from the part. -/
theorem ClosedUp.eq_of_outside {c c' : α} (hc : c ∈ children (live \ T) up x)
    (hc' : c' ∈ children (live \ T) up y) (hx : x ∈ T) (hy : y ∈ T) (hz : z ∈ subtree live up c)
    (hz' : z ∈ subtree live up c') : c = c' := by
  have hapart : ∀ {x y c c'}, c ∈ children (live \ T) up x → c' ∈ children (live \ T) up y → x ∈ T →
      c ∈ subtree live up c' → c = c' := by
    intro x y c c' hc hc' hx hmem
    obtain ⟨-, -, hcx⟩ := mem_outside.1 hc
    obtain ⟨hlive', hcT', -⟩ := mem_outside.1 hc'
    rcases ReflTransGen.cases_head (mem_subtree.1 hmem) with heq | ⟨v, ⟨-, hv⟩, hpath⟩
    · exact heq
    · obtain rfl := Option.some.inj (hcx.symm.trans hv)
      exact absurd (hT.mem_of_mem_subtree hlive' (mem_subtree.2 hpath) hx) hcT'
  rcases subtree_total hz hz' with h | h
  · exact hapart hc hc' hx h
  · exact (hapart hc' hc hy h).symm

theorem ClosedUp.notMem_of_outside {c : α} (hc : c ∈ children (live \ T) up y)
    (hz : z ∈ subtree live up c) : z ∉ T :=
  fun hzT => (mem_outside.1 hc).2.1 (hT.mem_of_mem_subtree (mem_outside.1 hc).1 hz hzT)

theorem ClosedUp.mem_patch_disjoint (hx : x ∈ T) (hy : y ∈ T) (hzx : z ∈ patch live up T x)
    (hzy : z ∈ patch live up T y) : x = y := by
  unfold patch at hzx hzy
  rw [Finset.mem_insert, Finset.mem_biUnion] at hzx hzy
  rcases hzx with rfl | ⟨c, hc, hzc⟩
  · rcases hzy with rfl | ⟨c', hc', hzc'⟩
    · rfl
    · exact absurd hx (hT.notMem_of_outside hc' hzc')
  · rcases hzy with rfl | ⟨c', hc', hzc'⟩
    · exact absurd hy (hT.notMem_of_outside hc hzc)
    · obtain rfl := hT.eq_of_outside hc hc' hx hy hzc hzc'
      exact Option.some.inj ((mem_outside.1 hc).2.2.symm.trans (mem_outside.1 hc').2.2)

theorem ClosedUp.sum_patch (hy : y ∈ T) :
    ∑ z ∈ patch live up T y, w z = w y + ∑ c ∈ children (live \ T) up y, treeSum live up w c := by
  have hnot : y ∉ (children (live \ T) up y).biUnion (subtree live up) := by
    intro hmem
    obtain ⟨c, hc, hyc⟩ := Finset.mem_biUnion.1 hmem
    exact hT.notMem_of_outside hc hyc hy
  have hdisjoint : ((children (live \ T) up y : Finset α) : Set α).PairwiseDisjoint
      (subtree live up) := by
    intro c hc c' hc' hne
    refine Finset.disjoint_left.2 fun z hz hz' => hne ?_
    exact hT.eq_of_outside (Finset.mem_coe.1 hc) (Finset.mem_coe.1 hc') hy hy hz hz'
  unfold patch
  rw [Finset.sum_insert hnot, Finset.sum_biUnion hdisjoint]
  rfl

/-- Every thing of a subtree has its place with the first member above it. -/
theorem ClosedUp.subtree_eq_biUnion (hx : x ∈ T) :
    subtree live up x = (subtree (live ∩ T) up x).biUnion (patch live up T) := by
  refine Finset.ext fun z => ⟨fun hz => ?_, fun hz => ?_⟩
  · rw [mem_subtree] at hz
    induction hz using ReflTransGen.head_induction_on with
    | refl =>
      exact Finset.mem_biUnion.2 ⟨x, self_mem_subtree, Finset.mem_insert_self _ _⟩
    | @head z v hstep hpath ih =>
      obtain ⟨y, hy, hv⟩ := Finset.mem_biUnion.1 ih
      by_cases hzT : z ∈ T
      · have hz := (hT.mem_subtree_inter_iff hx).2 ⟨mem_subtree.2 (.head hstep hpath), hzT⟩
        exact Finset.mem_biUnion.2 ⟨z, hz, Finset.mem_insert_self _ _⟩
      · refine Finset.mem_biUnion.2 ⟨y, hy, Finset.mem_insert_of_mem (Finset.mem_biUnion.2 ?_)⟩
        rcases Finset.mem_insert.1 hv with rfl | hv
        · exact ⟨z, mem_outside.2 ⟨hstep.1, hzT, hstep.2⟩, self_mem_subtree⟩
        · obtain ⟨c, hc, hvc⟩ := Finset.mem_biUnion.1 hv
          exact ⟨c, hc, mem_subtree.2 (.head hstep (mem_subtree.1 hvc))⟩
  · obtain ⟨y, hy, hz⟩ := Finset.mem_biUnion.1 hz
    have hyx := ((hT.mem_subtree_inter_iff hx).1 hy).1
    rcases Finset.mem_insert.1 hz with rfl | hz
    · exact hyx
    · obtain ⟨c, hc, hzc⟩ := Finset.mem_biUnion.1 hz
      obtain ⟨hlive, -, hup⟩ := mem_outside.1 hc
      exact mem_subtree_trans (mem_subtree_trans hyx
        (child_mem_subtree (mem_children.2 ⟨hlive, hup⟩))) hzc

/-- A subtree weighs what its members weigh, and the subtrees that hang from them outside. -/
theorem ClosedUp.treeSum_eq (hx : x ∈ T) :
    treeSum live up w x = treeSum (live ∩ T) up
      (fun y => w y + ∑ c ∈ children (live \ T) up y, treeSum live up w c) x := by
  have hdisjoint : ((subtree (live ∩ T) up x : Finset α) : Set α).PairwiseDisjoint
      (patch live up T) := by
    intro y hy z hz hne
    have hyT := ((hT.mem_subtree_inter_iff hx).1 (Finset.mem_coe.1 hy)).2
    have hzT := ((hT.mem_subtree_inter_iff hx).1 (Finset.mem_coe.1 hz)).2
    exact Finset.disjoint_left.2 fun v hv hv' => hne (hT.mem_patch_disjoint hyT hzT hv hv')
  unfold treeSum
  rw [hT.subtree_eq_biUnion hx, Finset.sum_biUnion hdisjoint]
  refine Finset.sum_congr rfl fun y hy => ?_
  exact hT.sum_patch ((hT.mem_subtree_inter_iff hx).1 hy).2

end ClosedUp

/-- Away from a cycle, a subtree weighs what its root weighs, and the subtrees of the children. -/
theorem treeSum_of_not_onCycle (h : ¬ OnCycle live up x) :
    treeSum live up w x = w x + ∑ c ∈ children live up x, treeSum live up w c := by
  let T := insert x (live.filter fun y => x ∈ subtree live up y)
  have hx : x ∈ T := Finset.mem_insert_self _ _
  have hmem : ∀ {y}, y ∈ T ↔ y = x ∨ y ∈ live ∧ x ∈ subtree live up y := by
    intro y
    rw [Finset.mem_insert, Finset.mem_filter]
  have hT : ClosedUp live up T := by
    intro y hy hyT z hz hup
    have hzy : y ∈ subtree live up z := child_mem_subtree (mem_children.2 ⟨hy, hup⟩)
    rcases hmem.1 hyT with rfl | ⟨-, hxy⟩
    · exact hmem.2 (.inr ⟨hz, hzy⟩)
    · exact hmem.2 (.inr ⟨hz, mem_subtree_trans hzy hxy⟩)
  -- a child of `x` above `x` would close a cycle
  have hchild : ∀ c ∈ children live up x, c ∉ T := by
    intro c hc hcT
    obtain ⟨hlive, hup⟩ := mem_children.1 hc
    rcases hmem.1 hcT with rfl | ⟨-, hxc⟩
    · exact h ⟨c, hup, self_mem_subtree⟩
    · rcases ReflTransGen.cases_head (mem_subtree.1 hxc) with rfl | ⟨z, hz, hpath⟩
      · exact h ⟨x, hup, self_mem_subtree⟩
      · exact h ⟨z, hz.2, mem_subtree_trans (child_mem_subtree hc) (mem_subtree.2 hpath)⟩
  have hone : subtree (live ∩ T) up x = {x} := by
    refine Finset.eq_singleton_iff_unique_mem.2 ⟨self_mem_subtree, fun y hy => ?_⟩
    rcases ReflTransGen.cases_tail (mem_subtree.1 hy) with rfl | ⟨c, -, hc⟩
    · rfl
    · obtain ⟨hlive, hcT⟩ := Finset.mem_inter.1 hc.1
      exact absurd hcT (hchild c (mem_children.2 ⟨hlive, hc.2⟩))
  have hall : children (live \ T) up x = children live up x := by
    refine Finset.ext fun c => ⟨fun hc => ?_, fun hc => ?_⟩
    · obtain ⟨hlive, -, hup⟩ := mem_outside.1 hc
      exact mem_children.2 ⟨hlive, hup⟩
    · obtain ⟨hlive, hup⟩ := mem_children.1 hc
      exact mem_outside.2 ⟨hlive, hchild c hc, hup⟩
  rw [hT.treeSum_eq hx, ← hall]
  exact (congrArg (Finset.sum · _) hone).trans (Finset.sum_singleton _ _)

/-- A subtree is the same where no thing of it has changed. -/
theorem subtree_congr
    (h : ∀ y z, y ∉ T → z ∉ T → (y ∈ live ∧ up y = some z ↔ y ∈ live' ∧ up' y = some z))
    (hT : ∀ y, y ∈ subtree live up x → y ∉ T) (hT' : ∀ y, y ∈ subtree live' up' x → y ∉ T) :
    subtree live up x = subtree live' up' x := by
  have hmono : ∀ {live live' : Finset α} {up up' : α → Option α},
      (∀ y z, y ∉ T → z ∉ T → y ∈ live ∧ up y = some z → y ∈ live' ∧ up' y = some z) →
      (∀ y, y ∈ subtree live up x → y ∉ T) → subtree live up x ⊆ subtree live' up' x := by
    intro live live' up up' h hT y hy
    rw [mem_subtree] at hy ⊢
    induction hy using ReflTransGen.head_induction_on with
    | refl => exact .refl
    | head hstep hpath ih =>
      have hz := hT _ (mem_subtree.2 hpath)
      have hy := hT _ (mem_subtree.2 (.head hstep hpath))
      exact .head (h _ _ hy hz hstep) ih
  exact Finset.Subset.antisymm (hmono (fun y z hy hz => (h y z hy hz).1) hT)
    (hmono (fun y z hy hz => (h y z hy hz).2) hT')

end Staaash.Library
