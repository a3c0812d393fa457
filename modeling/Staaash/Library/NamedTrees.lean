import Mathlib.Data.List.Basic

/-!
# Trees of names

Things under one another, each with a name. The path of a thing is its own name after the path of what it is
under, except at the top, where the path is only the name. When siblings have different names, and the
things at the top have, no two things have one path.
-/

namespace Staaash.Library

variable {α ν : Type} {under : α → α → Prop} {name : α → ν} {top : α → Prop}

inductive Placed (under : α → α → Prop) (name : α → ν) (top : α → Prop) : α → List ν → Prop
  | atTop {x : α} (htop : top x) : Placed under name top x [name x]
  | inside {x y : α} {path : List ν} (hx : ¬top x) (hy : under x y) (hplaced : Placed under name top y path) :
    Placed under name top x (path ++ [name x])

namespace Placed

variable {x y : α} {path path' : List ν}

theorem ne_nil (h : Placed under name top x path) : path ≠ [] := by
  cases h with
  | atTop _ => exact List.cons_ne_nil _ _
  | inside _ _ _ => exact List.append_ne_nil_of_right_ne_nil _ (List.cons_ne_nil _ _)

theorem named (h : Placed under name top x path) : ∃ above, path = above ++ [name x] := by
  cases h with
  | atTop _ => exact ⟨[], rfl⟩
  | inside _ _ _ => exact ⟨_, rfl⟩

/-- A path of names that all have a property. -/
theorem forall_mem {P : ν → Prop} {Q : α → Prop} (hname : ∀ x, Q x → P (name x))
    (hunder : ∀ x y, under x y → Q y) (h : Placed under name top x path) (hx : Q x) : ∀ n ∈ path, P n := by
  induction h with
  | @atTop x htop =>
    intro n hn
    obtain rfl := List.mem_singleton.1 hn
    exact hname x hx
  | @inside x y path _ hy _ ih =>
    intro n hn
    rcases List.mem_append.1 hn with hn | hn
    · exact ih (hunder x y hy) n hn
    · obtain rfl := List.mem_singleton.1 hn
      exact hname x hx

/-- A thing has one path where it is under one thing at most. -/
theorem unique (hunder : ∀ {x y z}, under x y → under x z → y = z) (h : Placed under name top x path)
    (h' : Placed under name top x path') : path = path' := by
  induction h generalizing path' with
  | atTop htop =>
    cases h' with
    | atTop _ => rfl
    | inside hx _ _ => exact absurd htop hx
  | inside hx hy _ ih =>
    cases h' with
    | atTop htop => exact absurd htop hx
    | inside _ hy' hplaced' =>
      obtain rfl := hunder hy hy'
      rw [ih hplaced']

theorem injective (htops : ∀ {x y}, top x → top y → name x = name y → x = y)
    (hsiblings : ∀ {x y z}, under x z → under y z → name x = name y → x = y)
    (h : Placed under name top x path) (h' : Placed under name top y path) : x = y := by
  induction h generalizing y with
  | @atTop x htop =>
    generalize hpath : [name x] = path at h'
    cases h' with
    | atTop htop' => exact htops htop htop' (List.singleton_inj.1 hpath)
    | inside _ _ hplaced =>
      obtain ⟨n, init, hinit⟩ := List.exists_cons_of_ne_nil hplaced.ne_nil
      rw [hinit] at hpath
      simp at hpath
  | @inside x z path hx hz hplaced ih =>
    generalize hpath : path ++ [name x] = path' at h'
    cases h' with
    | atTop htop' =>
      obtain ⟨n, init, rfl⟩ := List.exists_cons_of_ne_nil hplaced.ne_nil
      simp at hpath
    | @inside y z' path'' hy hz' hplaced' =>
      obtain ⟨rfl, hname⟩ := List.append_inj' hpath rfl
      obtain rfl := ih hplaced'
      exact hsiblings hz hz' (List.singleton_inj.1 hname)

end Placed

end Staaash.Library
