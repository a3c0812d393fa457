import Staaash.Remote.Tree

/-!
# Proofs: what the calls of the server tree do

The children that are kept for each folder are the items that name it as their parent. With that, a
put changes one item, and a removal takes an item and everything below it and leaves the rest alone.
-/

namespace Staaash.Remote.RemoteTree

open Relation
open Staaash.Library
open Staaash.Planner

variable {t t' : RemoteTree} {id x : String} {item : RemoteItem} {parentId : Option String}

theorem up_eq_some : t.up id = some x ↔ ∃ item, t.items.get id = some item ∧ item.parentId = some x :=
  Option.bind_eq_some_iff

theorem WellFormed.up_iff (h : t.WellFormed) : id ∈ t.childrenOf (some x) ↔ t.up id = some x := by
  rw [h.indexed, up_eq_some]

theorem finite_up (t : RemoteTree) : {x | (t.up x).isSome}.Finite := by
  refine t.items.keys.finite_toSet.subset fun x hx => ?_
  obtain ⟨y, hy⟩ := Option.isSome_iff_exists.1 hx
  obtain ⟨item, hget, -⟩ := up_eq_some.1 hy
  exact (t.items.mem_keys_iff x).2 ⟨item, hget⟩

theorem wellFormed_empty (roots : List String) : (empty roots).WellFormed where
  keyed := fun _ _ h => by cases h
  indexed := fun p id => by simp [empty, childrenOf]

/-! ## Sets of children -/

@[simp] theorem detach_items : (t.detach parentId id).items = t.items := by
  unfold detach
  split <;> rfl

@[simp] theorem detach_roots : (t.detach parentId id).roots = t.roots := by
  unfold detach
  split <;> rfl

theorem mem_childrenOf_detach {p : Option String} :
    x ∈ (t.detach parentId id).childrenOf p ↔ x ∈ t.childrenOf p ∧ ¬ (p = parentId ∧ x = id) := by
  unfold detach
  split
  · next hnone =>
    refine ⟨fun h => ⟨h, ?_⟩, fun h => h.1⟩
    rintro ⟨rfl, -⟩
    simp [childrenOf, hnone] at h
  · next siblings hsome =>
    by_cases hp : p = parentId
    · subst hp
      simp [childrenOf, OrderedMap.get_set, hsome]
    · simp [childrenOf, OrderedMap.get_set, hp]

@[simp] theorem attach_items : (t.attach parentId id).items = t.items := rfl

@[simp] theorem attach_roots : (t.attach parentId id).roots = t.roots := rfl

theorem mem_childrenOf_attach {p : Option String} :
    x ∈ (t.attach parentId id).childrenOf p ↔ x ∈ t.childrenOf p ∨ (p = parentId ∧ x = id) := by
  by_cases hp : p = parentId
  · subst hp
    have hchildren : (t.attach p id).childrenOf p =
        if id ∈ t.childrenOf p then t.childrenOf p else t.childrenOf p ++ [id] := by
      show ((t.children.set p _).get p).getD [] = _
      rw [OrderedMap.get_set, if_pos rfl, Option.getD_some]
    rw [hchildren]
    by_cases hid : id ∈ t.childrenOf p
    · rw [if_pos hid]
      refine ⟨.inl, ?_⟩
      rintro (h | ⟨-, rfl⟩)
      · exact h
      · exact hid
    · rw [if_neg hid, List.mem_append, List.mem_singleton]
      simp
  · simp [attach, childrenOf, OrderedMap.get_set, hp]

/-! ## Putting an item -/

/-- The tree with the item taken out of its parent's children. -/
def unlinked (t : RemoteTree) (id : String) : RemoteTree :=
  match t.items.get id with
  | some previous => t.detach previous.parentId id
  | none => t

@[simp] theorem unlinked_items : (t.unlinked id).items = t.items := by
  unfold unlinked
  split <;> simp

@[simp] theorem unlinked_roots : (t.unlinked id).roots = t.roots := by
  unfold unlinked
  split <;> simp

/-- When only items that name a folder are among its children, the item is among none any more. -/
theorem mem_childrenOf_unlinked
    (h : ∀ p x, x ∈ t.childrenOf p → ∃ item, t.items.get x = some item ∧ item.parentId = p)
    {p : Option String} : x ∈ (t.unlinked id).childrenOf p ↔ x ∈ t.childrenOf p ∧ x ≠ id := by
  unfold unlinked
  split
  · next previous hprevious =>
    rw [mem_childrenOf_detach]
    refine and_congr_right fun hx => ?_
    constructor
    · rintro hne rfl
      obtain ⟨item, hitem, hp⟩ := h p x hx
      rw [hprevious] at hitem
      exact hne ⟨by rw [← hp, ← Option.some.inj hitem], rfl⟩
    · rintro hne ⟨-, hid⟩
      exact hne hid
  · next hnone =>
    refine ⟨fun hx => ⟨hx, ?_⟩, fun hx => hx.1⟩
    rintro rfl
    obtain ⟨item, hitem, -⟩ := h p x hx
    rw [hnone] at hitem
    cases hitem

theorem get_put : (t.put item).items.get x = if x = item.id then some item else t.items.get x := by
  show ((t.unlinked item.id).items.set item.id item).get x = _
  rw [unlinked_items, OrderedMap.get_set]

@[simp] theorem roots_put : (t.put item).roots = t.roots := unlinked_roots

theorem WellFormed.put (h : t.WellFormed) (item : RemoteItem) : (t.put item).WellFormed where
  keyed := by
    intro id item' hget
    rw [get_put] at hget
    by_cases hid : id = item.id
    · rw [if_pos hid] at hget
      rw [hid, ← Option.some.inj hget]
    · rw [if_neg hid] at hget
      exact h.keyed id item' hget
  indexed := by
    intro p id
    have hunlinked : id ∈ (t.unlinked item.id).childrenOf p ↔ id ∈ t.childrenOf p ∧ id ≠ item.id :=
      mem_childrenOf_unlinked fun p x hx => (h.indexed p x).1 hx
    have hmem : id ∈ (t.put item).childrenOf p ↔
        id ∈ (t.unlinked item.id).childrenOf p ∨ (p = item.parentId ∧ id = item.id) :=
      mem_childrenOf_attach
    rw [hmem, hunlinked, h.indexed, get_put]
    by_cases hid : id = item.id
    · simp [hid, eq_comm]
    · simp [hid]

theorem up_put : (t.put item).up = Function.update t.up item.id item.parentId := by
  funext x
  by_cases hx : x = item.id
  · simp [up, get_put, hx]
  · simp [up, get_put, hx, Function.update_of_ne]

theorem WellFormed.putAll (h : t.WellFormed) (items : List RemoteItem) :
    (items.foldl RemoteTree.put t).WellFormed := by
  induction items generalizing t with
  | nil => exact h
  | cons item items ih => exact ih (h.put item)

theorem items_putAll (items : List RemoteItem) :
    (items.foldl RemoteTree.put t).items = items.foldl (fun m item => m.set item.id item) t.items := by
  induction items generalizing t with
  | nil => rfl
  | cons item items ih =>
    have hput : (t.put item).items = t.items.set item.id item := by
      show (t.unlinked item.id).items.set item.id item = _
      rw [unlinked_items]
    rw [List.foldl_cons, List.foldl_cons, ih, hput]

/-- The store gives back the items it was given. -/
theorem WellFormed.get_ofStore (h : t.WellFormed) (roots : List String) :
    (ofStore (t.items.entries.map Prod.snd) roots).items.get x = t.items.get x := by
  have hkeys : ∀ entry ∈ t.items.entries, entry.2.id = entry.1 := fun entry hentry =>
    h.keyed entry.1 entry.2 ((t.items.get_eq_some_iff _ _).2 hentry)
  have hfold : (ofStore (t.items.entries.map Prod.snd) roots).items = .ofList t.items.entries := by
    show ((t.items.entries.map Prod.snd).foldl RemoteTree.put (empty roots)).items = _
    rw [items_putAll, List.foldl_map]
    refine List.foldl_ext _ _ _ fun m entry hentry => ?_
    rw [hkeys entry hentry]
  rw [hfold]
  refine Option.ext fun item => ?_
  constructor
  · intro hget
    exact (t.items.get_eq_some_iff x item).2 (OrderedMap.mem_of_get_ofList hget)
  · intro hget
    exact OrderedMap.get_ofList_of_nodup t.items.nodup ((t.items.get_eq_some_iff x item).1 hget)

/-! ## Removing items -/

theorem get_drop : (t.drop id).items.get x = if x = id then none else t.items.get x := by
  show ((t.unlinked id).items.filterKeys (· ≠ id)).get x = _
  rw [OrderedMap.get_filterKeys, unlinked_items]
  by_cases hx : x = id <;> simp [hx]

@[simp] theorem roots_drop : (t.drop id).roots = t.roots := unlinked_roots

theorem mem_childrenOf_drop
    (h : ∀ p x, x ∈ t.childrenOf p → ∃ item, t.items.get x = some item ∧ item.parentId = p)
    {p : Option String} :
    x ∈ (t.drop id).childrenOf p ↔ x ∈ t.childrenOf p ∧ x ≠ id ∧ p ≠ some id := by
  have hchildren : (t.drop id).childrenOf p =
      if p = some id then [] else (t.unlinked id).childrenOf p := by
    show ((((t.unlinked id).children.filterKeys (· ≠ some id)).get p).getD []) = _
    rw [OrderedMap.get_filterKeys]
    by_cases hp : p = some id
    · simp [hp]
    · simp [hp, childrenOf]
  rw [hchildren]
  by_cases hp : p = some id
  · simp [hp]
  · rw [if_neg hp, mem_childrenOf_unlinked h]
    simp [hp]

theorem foldl_drop (ids : List String)
    (h : ∀ p x, x ∈ t.childrenOf p → ∃ item, t.items.get x = some item ∧ item.parentId = p) :
    (ids.foldl drop t).roots = t.roots ∧
    (∀ x item, (ids.foldl drop t).items.get x = some item ↔
      t.items.get x = some item ∧ x ∉ ids) ∧
    ∀ p x, x ∈ (ids.foldl drop t).childrenOf p ↔
      x ∈ t.childrenOf p ∧ x ∉ ids ∧ ∀ id ∈ ids, p ≠ some id := by
  induction ids generalizing t with
  | nil => simp
  | cons id ids ih =>
    have hdrop : ∀ p x, x ∈ (t.drop id).childrenOf p →
        ∃ item, (t.drop id).items.get x = some item ∧ item.parentId = p := by
      intro p x hx
      obtain ⟨hx, hne, -⟩ := (mem_childrenOf_drop h).1 hx
      obtain ⟨item, hitem, hp⟩ := h p x hx
      exact ⟨item, by rw [get_drop, if_neg hne, hitem], hp⟩
    obtain ⟨hroots, hitems, hchildren⟩ := ih hdrop
    refine ⟨by rw [List.foldl_cons, hroots, roots_drop], ?_, ?_⟩
    · intro x item
      rw [List.foldl_cons, hitems, get_drop]
      by_cases hx : x = id <;> simp [hx]
    · intro p x
      rw [List.foldl_cons, hchildren, mem_childrenOf_drop h]
      simp only [List.mem_cons, not_or, forall_eq_or_imp]
      tauto

/-- The children of a folder, one step or more down, are what lies below it. -/
theorem WellFormed.reach_iff (h : t.WellFormed) :
    ReflTransGen (fun x c => c ∈ t.childrenOf (some x)) id x ↔ AtOrAbove t.up x id := by
  constructor
  · intro hreach
    induction hreach with
    | refl => exact .refl
    | tail _ hc ih => exact .head (h.up_iff.1 hc) ih
  · intro habove
    induction habove using ReflTransGen.head_induction_on with
    | refl => exact .refl
    | head hs _ ih => exact ih.tail (h.up_iff.2 hs)

/-- A removal takes the item and everything below it. -/
theorem WellFormed.removeSubtree (h : t.WellFormed) {fuel : Nat}
    (hr : t.removeSubtree fuel id = some t') :
    t'.WellFormed ∧ t'.roots = t.roots ∧
    ∀ x item, t'.items.get x = some item ↔ t.items.get x = some item ∧ ¬ AtOrAbove t.up x id := by
  unfold RemoteTree.removeSubtree at hr
  obtain ⟨ids, hids, rfl⟩ := Option.map_eq_some_iff.1 hr
  obtain ⟨hroots, hitems, hchildren⟩ :=
    foldl_drop (t := t) (ids.filter t.items.has) fun p x hx => (h.indexed p x).1 hx
  have hmem : ∀ x, x ∈ ids ↔ AtOrAbove t.up x id := by
    intro x
    rw [mem_walk hids, ← h.reach_iff]
    simp
  have hgone : ∀ x item, t.items.get x = some item →
      (x ∉ ids.filter t.items.has ↔ ¬ AtOrAbove t.up x id) := by
    intro x item hget
    simp [List.mem_filter, OrderedMap.has, hget, hmem]
  have hspec : ∀ x item, ((ids.filter t.items.has).foldl drop t).items.get x = some item ↔
      t.items.get x = some item ∧ ¬ AtOrAbove t.up x id := by
    intro x item
    rw [hitems]
    exact and_congr_right fun hget => hgone x item hget
  refine ⟨⟨?_, ?_⟩, hroots, hspec⟩
  · intro x item hget
    exact h.keyed x item ((hspec x item).1 hget).1
  · intro p x
    rw [hchildren, h.indexed]
    constructor
    · rintro ⟨⟨item, hget, hp⟩, hnot, -⟩
      exact ⟨item, (hspec x item).2 ⟨hget, (hgone x item hget).1 hnot⟩, hp⟩
    · rintro ⟨item, hget, hp⟩
      obtain ⟨hget, hnot⟩ := (hspec x item).1 hget
      refine ⟨⟨item, hget, hp⟩, (hgone x item hget).2 hnot, ?_⟩
      -- a folder that is removed takes its children along
      rintro q hq rfl
      have hq := (hmem q).1 (List.mem_filter.1 hq).1
      exact hnot (hq.head (up_eq_some.2 ⟨item, hget, hp⟩))

theorem removeSubtree_mono {fuel fuel' : Nat} (hle : fuel ≤ fuel')
    (hr : t.removeSubtree fuel id = some t') : t.removeSubtree fuel' id = some t' := by
  unfold removeSubtree at hr ⊢
  obtain ⟨ids, hids, rfl⟩ := Option.map_eq_some_iff.1 hr
  exact Option.map_eq_some_iff.2 ⟨ids, walk_mono hle hids, rfl⟩

/-- In a tree without a cycle every walk down ends. -/
theorem WellFormed.subtree_ends (h : t.WellFormed) (hacyclic : Acyclic t.up) (id : String) :
    ∃ fuel ids, t.subtree fuel id = some ids :=
  walk_ends hacyclic t.finite_up (fun _ _ hc => h.up_iff.1 hc) id

theorem WellFormed.removeSubtree_ends (h : t.WellFormed) (hacyclic : Acyclic t.up) (id : String) :
    ∃ fuel t', t.removeSubtree fuel id = some t' := by
  obtain ⟨fuel, ids, hids⟩ := h.subtree_ends hacyclic id
  exact ⟨fuel, _, by rw [RemoteTree.removeSubtree, hids, Option.map_some]⟩

/-! ## What is under a pair folder -/

theorem mem_byKey {P : Platform} {entry : Rel × List RemoteItem}
    (hentry : entry ∈ (t.byKey P id).entries) {item : RemoteItem} (hitem : item ∈ entry.2) :
    ∃ c ∈ t.childrenOf (some id), t.items.get c = some item := by
  have hfold : ∀ (items : List RemoteItem) (m : OrderedMap Rel (List RemoteItem)) {key group},
      (items.foldl (fun m item => m.set (P.pathKey item.name)
        ((m.get (P.pathKey item.name)).getD [] ++ [item])) m).get key = some group →
      ∀ item ∈ group, item ∈ items ∨ ∃ old, m.get key = some old ∧ item ∈ old := by
    intro items
    induction items with
    | nil =>
      intro m key group hget item hitem
      exact .inr ⟨group, hget, hitem⟩
    | cons first items ih =>
      intro m key group hget item hitem
      rcases ih _ hget item hitem with hin | ⟨old, hold, hin⟩
      · exact .inl (List.mem_cons_of_mem _ hin)
      · rw [OrderedMap.get_set] at hold
        by_cases hkey : key = P.pathKey first.name
        · rw [if_pos hkey] at hold
          rw [← Option.some.inj hold, List.mem_append, List.mem_singleton] at hin
          rcases hin with hin | rfl
          · cases hm : m.get (P.pathKey first.name) with
            | none => simp [hm] at hin
            | some before => exact .inr ⟨before, hkey ▸ hm, by simpa [hm] using hin⟩
          · exact .inl List.mem_cons_self
        · rw [if_neg hkey] at hold
          exact .inr ⟨old, hold, hin⟩
  have hget := ((t.byKey P id).get_eq_some_iff entry.1 entry.2).2 hentry
  rcases hfold _ _ hget item hitem with hin | ⟨old, hold, -⟩
  · obtain ⟨c, hc, hget⟩ := List.mem_filterMap.1 hin
    exact ⟨c, hc, hget⟩
  · cases hold

theorem WellFormed.up_of_mem_entriesOf (h : t.WellFormed) {P : Platform} {entry : RemoteItem × Nat}
    (hentry : entry ∈ t.entriesOf P id) : t.up entry.1.id = some id := by
  obtain ⟨⟨key, group⟩, hgroup, hmem⟩ := List.mem_flatMap.1 hentry
  obtain ⟨item, hitem, rfl⟩ := List.mem_map.1 hmem
  obtain ⟨c, hc, hget⟩ := mem_byKey hgroup hitem
  rw [h.keyed c item hget]
  exact h.up_iff.1 hc

/-- A round of the loop ends when its walk into a folder does. -/
theorem visit_isSome {R : Reading} {walk : String → Rel → Scoped → Option Scoped} {rel : Rel}
    {acc : Scoped} {entry : RemoteItem × Nat}
    (h : ∀ rel acc, (walk entry.1.id rel acc).isSome) : (visit R walk rel acc entry).isSome := by
  obtain ⟨item, group⟩ := entry
  simp only [visit]
  split
  · rfl
  · split
    · rfl
    · split
      · exact h ..
      · rfl

theorem foldlM_visit_isSome {R : Reading} {walk : String → Rel → Scoped → Option Scoped} {rel : Rel}
    {entries : List (RemoteItem × Nat)}
    (h : ∀ entry ∈ entries, ∀ rel acc, (walk entry.1.id rel acc).isSome) (acc : Scoped) :
    (entries.foldlM (visit R walk rel) acc).isSome := by
  induction entries generalizing acc with
  | nil => rfl
  | cons entry entries ih =>
    obtain ⟨next, hnext⟩ :=
      Option.isSome_iff_exists.1 (visit_isSome (h entry List.mem_cons_self) :
        (visit R walk rel acc entry).isSome)
    rw [List.foldlM_cons, hnext]
    exact ih (fun e he => h e (List.mem_cons_of_mem _ he)) next

/-- Among finitely many walks there is one that goes deepest. -/
theorem exists_fuel {R : Reading} {entries : List (RemoteItem × Nat)}
    (h : ∀ entry ∈ entries, ∃ n, ∀ fuel ≥ n, ∀ rel acc,
      (t.scopeFrom R fuel entry.1.id rel acc).isSome) :
    ∃ n, ∀ fuel ≥ n, ∀ entry ∈ entries, ∀ rel acc,
      (t.scopeFrom R fuel entry.1.id rel acc).isSome := by
  induction entries with
  | nil => exact ⟨0, fun _ _ _ he => by cases he⟩
  | cons entry entries ih =>
    obtain ⟨n, hn⟩ := h entry List.mem_cons_self
    obtain ⟨m, hm⟩ := ih fun e he => h e (List.mem_cons_of_mem _ he)
    refine ⟨max n m, fun fuel hfuel e he => ?_⟩
    rcases List.mem_cons.1 he with rfl | he
    · exact hn fuel (by omega)
    · exact hm fuel (by omega) e he

/-- In a tree without a cycle the walk through a pair folder ends. -/
theorem WellFormed.scope_ends (h : t.WellFormed) (hacyclic : Acyclic t.up) (R : Reading)
    (rootId : String) : ∃ n, ∀ fuel ≥ n, (t.scope fuel R rootId).isSome := by
  have hwalk : ∀ id, ∃ n, ∀ fuel ≥ n, ∀ rel acc, (t.scopeFrom R fuel id rel acc).isSome := by
    intro id
    induction acc_child hacyclic t.finite_up id with
    | intro id _ ih =>
      have hchildren : ∀ entry ∈ t.entriesOf R.platform id, ∃ n, ∀ fuel ≥ n, ∀ rel acc,
          (t.scopeFrom R fuel entry.1.id rel acc).isSome :=
        fun entry he => ih entry.1.id (h.up_of_mem_entriesOf he)
      obtain ⟨n, hn⟩ := exists_fuel hchildren
      refine ⟨n + 1, fun fuel hfuel rel acc => ?_⟩
      obtain ⟨fuel, rfl⟩ : ∃ k, fuel = k + 1 := ⟨fuel - 1, by omega⟩
      exact foldlM_visit_isSome (hn fuel (by omega)) acc
  obtain ⟨n, hn⟩ := hwalk rootId
  exact ⟨n, fun fuel hfuel => hn fuel hfuel [] ⟨[], [], []⟩⟩

end Staaash.Remote.RemoteTree
