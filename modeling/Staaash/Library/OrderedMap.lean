import Mathlib.Data.List.Nodup
import Mathlib.Data.List.Dedup

/-!
# Insertion-ordered maps

A finite map that remembers the order in which its keys were first written. Writing a key again
replaces its value in place, so the order of the keys never changes; building a map from a list of
pairs lets the last pair of a key win.
-/

namespace Staaash.Library

/-- A finite map as the list of its entries in the order their keys were first written. -/
structure OrderedMap (α β : Type) where
  /-- The entries, oldest key first. -/
  entries : List (α × β)
  /-- No key has two entries. -/
  nodup : (entries.map Prod.fst).Nodup
deriving DecidableEq

namespace OrderedMap

variable {α β : Type} [DecidableEq α]

/-- Replace the value of `k` where it stands, or append a new entry. -/
def setEntries (k : α) (b : β) : List (α × β) → List (α × β)
  | [] => [(k, b)]
  | (k', b') :: es => if k' = k then (k, b) :: es else (k', b') :: setEntries k b es

theorem mem_keys_setEntries (k x : α) (b : β) (es : List (α × β)) :
    x ∈ (setEntries k b es).map Prod.fst ↔ x = k ∨ x ∈ es.map Prod.fst := by
  induction es with
  | nil => simp [setEntries]
  | cons e es ih =>
    obtain ⟨k', b'⟩ := e
    by_cases h : k' = k
    · subst h; simp [setEntries]
    · simp only [setEntries, if_neg h, List.map_cons, List.mem_cons, ih]
      tauto

theorem nodup_setEntries (k : α) (b : β) {es : List (α × β)} (h : (es.map Prod.fst).Nodup) :
    ((setEntries k b es).map Prod.fst).Nodup := by
  induction es with
  | nil => simp [setEntries]
  | cons e es ih =>
    obtain ⟨k', b'⟩ := e
    rw [List.map_cons, List.nodup_cons] at h
    by_cases hk : k' = k
    · subst hk
      simpa [setEntries] using h
    · simp only [setEntries, if_neg hk, List.map_cons, List.nodup_cons, mem_keys_setEntries]
      exact ⟨fun hm => hm.elim hk h.1, ih h.2⟩

/-- The map with no entries. -/
def empty : OrderedMap α β := ⟨[], List.nodup_nil⟩

/-- Write `b` under `k`. -/
def set (m : OrderedMap α β) (k : α) (b : β) : OrderedMap α β :=
  ⟨setEntries k b m.entries, nodup_setEntries k b m.nodup⟩

/-- The value stored under `k`. -/
def get (m : OrderedMap α β) (k : α) : Option β := (m.entries.find? fun e => e.1 = k).map Prod.snd

/-- Whether `k` has an entry. -/
def has (m : OrderedMap α β) (k : α) : Bool := (m.get k).isSome

/-- The keys, oldest first. -/
def keys (m : OrderedMap α β) : List α := m.entries.map Prod.fst

/-- Write the pairs of a list one after the other, starting from the empty map. -/
def ofList (es : List (α × β)) : OrderedMap α β := es.foldl (fun m e => m.set e.1 e.2) empty

@[simp] theorem get_empty (k : α) : (empty : OrderedMap α β).get k = none := rfl

theorem get_set (m : OrderedMap α β) (k x : α) (b : β) :
    (m.set k b).get x = if x = k then some b else m.get x := by
  obtain ⟨es, hes⟩ := m
  simp only [set, get]
  clear hes
  induction es with
  | nil => by_cases h : k = x <;> simp [setEntries, h, eq_comm]
  | cons e es ih =>
    obtain ⟨k', b'⟩ := e
    by_cases hk : k' = k
    · subst hk
      by_cases hx : k' = x
      · subst hx; simp [setEntries]
      · simp [setEntries, hx, Ne.symm hx]
    · simp only [setEntries, if_neg hk]
      by_cases hx : k' = x
      · subst hx; simp [hk]
      · simp only [List.find?_cons, decide_eq_false hx]
        exact ih

theorem get_set_eq_some {m : OrderedMap α β} {k x : α} {b c : β} :
    (m.set k b).get x = some c ↔ x = k ∧ c = b ∨ x ≠ k ∧ m.get x = some c := by
  rw [get_set]
  split
  · rename_i h
    exact ⟨fun hb => .inl ⟨h, (Option.some.inj hb).symm⟩,
      fun hb => hb.elim (fun h' => congrArg some h'.2.symm) fun h' => absurd h h'.1⟩
  · rename_i h
    exact ⟨fun hc => .inr ⟨h, hc⟩, fun hc => hc.elim (fun h' => absurd h'.1 h) (·.2)⟩

theorem get_eq_some_iff (m : OrderedMap α β) (k : α) (b : β) :
    m.get k = some b ↔ (k, b) ∈ m.entries := by
  obtain ⟨es, hes⟩ := m
  simp only [get]
  induction es with
  | nil => simp
  | cons e es ih =>
    obtain ⟨k', b'⟩ := e
    rw [List.map_cons, List.nodup_cons] at hes
    by_cases hk : k' = k
    · subst hk
      have hno : (k', b) ∉ es := fun h => hes.1 (List.mem_map.mpr ⟨_, h, rfl⟩)
      simp [hno, eq_comm]
    · simp only [List.find?_cons, decide_eq_false hk]
      rw [ih hes.2]
      simp [Ne.symm hk]

theorem mem_keys_iff (m : OrderedMap α β) (k : α) : k ∈ m.keys ↔ ∃ b, m.get k = some b := by
  simp [keys, get_eq_some_iff]

theorem has_iff (m : OrderedMap α β) (k : α) : m.has k = true ↔ ∃ b, m.get k = some b := by
  simp [has, Option.isSome_iff_exists]

theorem has_eq_false_iff (m : OrderedMap α β) (k : α) : m.has k = false ↔ m.get k = none := by
  simp [has]

/-- Folding writes over a map: a key reads the last value written to it, or its old value. -/
theorem get_foldl_set (es : List (α × β)) (m : OrderedMap α β) (k : α) :
    (es.foldl (fun m e => m.set e.1 e.2) m).get k =
      ((es.reverse.find? fun e => e.1 = k).map Prod.snd).or (m.get k) := by
  induction es generalizing m with
  | nil => simp
  | cons e es ih =>
    rw [List.foldl_cons, ih, get_set, List.reverse_cons, List.find?_append]
    by_cases h : k = e.1
    · subst h
      cases es.reverse.find? fun e' => e'.1 = e.1 <;> simp
    · have h' : ¬ e.1 = k := fun hh => h hh.symm
      cases es.reverse.find? fun e' => e'.1 = k <;> simp [h, h']

theorem get_ofList (es : List (α × β)) (k : α) :
    (ofList es).get k = (es.reverse.find? fun e => e.1 = k).map Prod.snd := by
  simp [ofList, get_foldl_set]

/-- What a map built from pairs holds is one of the pairs. -/
theorem mem_of_get_ofList {es : List (α × β)} {k : α} {b : β} (h : (ofList es).get k = some b) :
    (k, b) ∈ es := by
  rw [get_ofList, Option.map_eq_some_iff] at h
  obtain ⟨⟨k', b'⟩, hf, rfl⟩ := h
  have hk := List.find?_some hf
  have hm := List.mem_of_find?_eq_some hf
  simp only [decide_eq_true_eq] at hk
  subst hk
  exact List.mem_reverse.mp hm

/-- Every key of the list of pairs is a key of the map. -/
theorem exists_get_ofList {es : List (α × β)} {k : α} {b : β} (h : (k, b) ∈ es) :
    ∃ b', (ofList es).get k = some b' := by
  rw [get_ofList]
  have hs : (es.reverse.find? fun e => e.1 = k).isSome := by
    rw [List.find?_isSome]
    exact ⟨(k, b), List.mem_reverse.mpr h, by simp⟩
  obtain ⟨e, he⟩ := Option.isSome_iff_exists.mp hs
  exact ⟨e.2, by simp [he]⟩

theorem get_ofList_eq_none_iff (es : List (α × β)) (k : α) :
    (ofList es).get k = none ↔ ∀ b, (k, b) ∉ es := by
  constructor
  · intro h b hb
    obtain ⟨b', hb'⟩ := exists_get_ofList hb
    rw [h] at hb'
    cases hb'
  · intro h
    cases hg : (ofList es).get k with
    | none => rfl
    | some b => exact absurd (mem_of_get_ofList hg) (h b)

/-- With pairwise distinct keys nothing is overwritten. -/
theorem get_ofList_of_nodup {es : List (α × β)} (hnd : (es.map Prod.fst).Nodup) {k : α} {b : β}
    (h : (k, b) ∈ es) : (ofList es).get k = some b := by
  obtain ⟨b', hb'⟩ := exists_get_ofList h
  have hm := mem_of_get_ofList hb'
  have : (k, b') = (k, b) := List.inj_on_of_nodup_map hnd hm h rfl
  rw [hb', (Prod.mk.inj this).2]

/-! ## Removing and renaming keys -/

theorem setEntries_of_notMem {k : α} {b : β} {es : List (α × β)} (h : k ∉ es.map Prod.fst) :
    setEntries k b es = es ++ [(k, b)] := by
  induction es with
  | nil => rfl
  | cons e es ih =>
    obtain ⟨k', b'⟩ := e
    rw [List.map_cons, List.mem_cons, not_or] at h
    rw [setEntries, if_neg (Ne.symm h.1), ih h.2, List.cons_append]

/-- Writing a new key appends an entry. -/
theorem entries_set_of_get_eq_none {m : OrderedMap α β} {k : α} (b : β) (h : m.get k = none) :
    (m.set k b).entries = m.entries ++ [(k, b)] := by
  refine setEntries_of_notMem fun hk => ?_
  obtain ⟨b', hb'⟩ := (mem_keys_iff m k).mp hk
  rw [h] at hb'
  cases hb'

omit [DecidableEq α] in
theorem nodup_filter_keys {es : List (α × β)} (p : α → Bool) (h : (es.map Prod.fst).Nodup) :
    ((es.filter fun e => p e.1).map Prod.fst).Nodup :=
  h.sublist (List.Sublist.map _ List.filter_sublist)

/-- Keep the entries whose key passes `p`. -/
def filterKeys (m : OrderedMap α β) (p : α → Bool) : OrderedMap α β :=
  ⟨m.entries.filter fun e => p e.1, nodup_filter_keys p m.nodup⟩

theorem get_filterKeys (m : OrderedMap α β) (p : α → Bool) (k : α) :
    (m.filterKeys p).get k = if p k then m.get k else none := by
  refine Option.ext fun b => ?_
  rw [get_eq_some_iff]
  by_cases hp : p k = true
  · rw [if_pos hp, get_eq_some_iff]
    simp [filterKeys, hp]
  · rw [if_neg hp]
    simp [filterKeys, hp]

omit [DecidableEq α] in
theorem nodup_map_keys {es : List (α × β)} {f : α → α}
    (hf : ∀ a ∈ es.map Prod.fst, ∀ b ∈ es.map Prod.fst, f a = f b → a = b)
    (h : (es.map Prod.fst).Nodup) : ((es.map fun e => (f e.1, e.2)).map Prod.fst).Nodup := by
  rw [List.map_map]
  have : (Prod.fst ∘ fun e : α × β => (f e.1, e.2)) = f ∘ Prod.fst := rfl
  rw [this, ← List.map_map]
  exact h.map_on hf

/-- Rename the keys in place; no two keys may end up equal. -/
def mapKeys (m : OrderedMap α β) (f : α → α)
    (hf : ∀ a ∈ m.keys, ∀ b ∈ m.keys, f a = f b → a = b) : OrderedMap α β :=
  ⟨m.entries.map fun e => (f e.1, e.2), nodup_map_keys hf m.nodup⟩

theorem get_mapKeys_eq_some {m : OrderedMap α β} {f : α → α}
    (hf : ∀ a ∈ m.keys, ∀ b ∈ m.keys, f a = f b → a = b) {k : α} {b : β} :
    (m.mapKeys f hf).get k = some b ↔ ∃ k', m.get k' = some b ∧ f k' = k := by
  rw [get_eq_some_iff]
  simp only [mapKeys, List.mem_map, Prod.mk.injEq, Prod.exists, get_eq_some_iff]
  constructor
  · rintro ⟨k', b', hm, hk, rfl⟩
    exact ⟨k', hm, hk⟩
  · rintro ⟨k', hm, hk⟩
    exact ⟨k', b, hm, hk, rfl⟩

/-! ## Changing many values at once -/

section Values

variable {γ : Type} {m n : OrderedMap α β} {k : α} {b : β}

/-- Change the values where they stand. -/
def mapValues (m : OrderedMap α β) (f : α → β → γ) : OrderedMap α γ :=
  ⟨m.entries.map fun e => (e.1, f e.1 e.2), by rw [List.map_map]; exact m.nodup⟩

theorem get_mapValues (m : OrderedMap α β) (f : α → β → γ) (k : α) :
    (m.mapValues f).get k = (m.get k).map (f k) := by
  refine Option.ext fun c => ?_
  rw [get_eq_some_iff, Option.map_eq_some_iff]
  simp only [mapValues, List.mem_map, Prod.mk.injEq, Prod.exists, get_eq_some_iff]
  constructor
  · rintro ⟨k', b, hmem, rfl, rfl⟩
    exact ⟨b, hmem, rfl⟩
  · rintro ⟨b, hmem, rfl⟩
    exact ⟨k, b, hmem, rfl, rfl⟩

theorem mapValues_eq_self {f : α → β → β} (h : ∀ k b, m.get k = some b → f k b = b) :
    m.mapValues f = m := by
  have hentries : (m.entries.map fun e => (e.1, f e.1 e.2)) = m.entries := by
    refine (List.map_congr_left fun e he => ?_).trans (List.map_id _)
    exact congrArg (Prod.mk e.1) (h e.1 e.2 ((get_eq_some_iff m e.1 e.2).2 he))
  obtain ⟨entries, hnd⟩ := m
  exact OrderedMap.mk.injEq .. |>.mpr hentries

/-- Write the entries of another map, which win. -/
def writeAll (m n : OrderedMap α β) : OrderedMap α β :=
  n.entries.foldl (fun m e => m.set e.1 e.2) m

theorem get_writeAll (m n : OrderedMap α β) (k : α) :
    (m.writeAll n).get k = (n.get k).or (m.get k) := by
  unfold writeAll
  rw [get_foldl_set]
  congr 1
  refine Option.ext fun b => ?_
  rw [get_eq_some_iff, Option.map_eq_some_iff]
  constructor
  · rintro ⟨e, he, rfl⟩
    have hkey := List.find?_some he
    have hmem := List.mem_reverse.1 (List.mem_of_find?_eq_some he)
    simp only [decide_eq_true_eq] at hkey
    subst hkey
    exact hmem
  · intro hmem
    obtain ⟨e, he⟩ : ∃ e, n.entries.reverse.find? (fun e => e.1 = k) = some e := by
      refine Option.isSome_iff_exists.1 (List.find?_isSome.2 ⟨(k, b), ?_, by simp⟩)
      exact List.mem_reverse.2 hmem
    have hkey := List.find?_some he
    have hmem' := List.mem_reverse.1 (List.mem_of_find?_eq_some he)
    simp only [decide_eq_true_eq] at hkey
    have heq : e = (k, b) := List.inj_on_of_nodup_map n.nodup hmem' hmem hkey
    exact ⟨e, he, by rw [heq]⟩

theorem entries_foldl_set {es : List (α × β)} (hnd : (es.map Prod.fst).Nodup)
    (h : ∀ e ∈ es, m.get e.1 = none) :
    (es.foldl (fun m e => m.set e.1 e.2) m).entries = m.entries ++ es := by
  induction es generalizing m with
  | nil => simp
  | cons e es ih =>
    rw [List.map_cons, List.nodup_cons] at hnd
    rw [List.foldl_cons, ih hnd.2, entries_set_of_get_eq_none e.2 (h e List.mem_cons_self),
      List.append_assoc]
    · rfl
    · intro e' he'
      have hne : e'.1 ≠ e.1 := fun heq => hnd.1 (heq ▸ List.mem_map.2 ⟨e', he', rfl⟩)
      rw [get_set, if_neg hne]
      exact h e' (List.mem_cons_of_mem _ he')

/-- New entries are appended. -/
theorem entries_writeAll (h : ∀ k, n.has k = true → m.get k = none) :
    (m.writeAll n).entries = m.entries ++ n.entries := by
  refine entries_foldl_set n.nodup fun e he => h e.1 ?_
  exact (has_iff n e.1).2 ⟨e.2, (get_eq_some_iff n e.1 e.2).2 he⟩

end Values

/-! ## Maps that index a list by a function of its elements -/

variable {f : β → α} {l : List β}

theorem get_indexed {k : α} :
    (ofList (l.map fun b => (f b, b))).get k = l.reverse.find? fun b => f b = k := by
  rw [get_ofList, ← List.map_reverse, List.find?_map, Option.map_map]
  exact Option.map_id'

theorem of_get_indexed {k : α} {b : β} (h : (ofList (l.map fun b => (f b, b))).get k = some b) :
    b ∈ l ∧ f b = k := by
  obtain ⟨b', hb', he⟩ := List.mem_map.mp (mem_of_get_ofList h)
  obtain ⟨h1, rfl⟩ := Prod.mk.inj he
  exact ⟨hb', h1⟩

theorem get_indexed_eq_none_iff {k : α} :
    (ofList (l.map fun b => (f b, b))).get k = none ↔ ∀ b ∈ l, f b ≠ k := by
  rw [get_ofList_eq_none_iff]
  constructor
  · intro h b hb hk
    exact h b (List.mem_map.mpr ⟨b, hb, by rw [hk]⟩)
  · intro h b hb
    obtain ⟨b', hb', he⟩ := List.mem_map.mp hb
    exact h b' hb' (Prod.mk.inj he).1

theorem get_indexed_of_nodup (hnd : (l.map f).Nodup) {b : β} (hb : b ∈ l) :
    (ofList (l.map fun b => (f b, b))).get (f b) = some b := by
  refine get_ofList_of_nodup ?_ (List.mem_map.mpr ⟨b, hb, rfl⟩)
  simpa [Function.comp_def] using hnd

theorem has_indexed_iff {k : α} :
    (ofList (l.map fun b => (f b, b))).has k = true ↔ ∃ b ∈ l, f b = k := by
  rw [← Bool.not_eq_false, has_eq_false_iff, get_indexed_eq_none_iff]
  push Not
  rfl

/-! ## Maps of some keys to the values of a function -/

section Tabulated

theorem set_eq_self {m : OrderedMap α β} {k : α} {b : β} (h : m.get k = some b) : m.set k b = m := by
  have hentries : ∀ es : List (α × β), (es.find? fun e => e.1 = k).map Prod.snd = some b →
      setEntries k b es = es := by
    intro es hes
    induction es with
    | nil => cases hes
    | cons e es ih =>
      obtain ⟨k', b'⟩ := e
      by_cases hk : k' = k
      · subst hk
        simp only [List.find?_cons, decide_true, Option.map_some, Option.some.injEq] at hes
        simp [setEntries, hes]
      · simp only [List.find?_cons, decide_eq_false hk] at hes
        simp only [setEntries, if_neg hk, ih hes]
  obtain ⟨es, hnodup⟩ := m
  unfold set
  congr
  exact hentries es h

/-- A key that comes again changes nothing. -/
theorem find?_entries_ofList_map (g : α → β) (p : α × β → Bool) (l : List α) :
    (ofList (l.map fun k => (k, g k))).entries.find? p = (l.map fun k => (k, g k)).find? p := by
  have hfold : ∀ m : OrderedMap α β, (∀ e ∈ m.entries, e.2 = g e.1) →
      ((l.map fun k => (k, g k)).foldl (fun m e => m.set e.1 e.2) m).entries.find? p =
        (m.entries ++ l.map fun k => (k, g k)).find? p := by
    induction l with
    | nil => exact fun m _ => by rw [List.map_nil, List.append_nil]; rfl
    | cons k l ih =>
      intro m hm
      rw [List.map_cons, List.foldl_cons]
      cases hget : m.get k with
      | none =>
        have hentries : (m.set k (g k)).entries = m.entries ++ [(k, g k)] :=
          entries_set_of_get_eq_none (g k) hget
        rw [ih, hentries, List.append_assoc]
        · rfl
        · rw [hentries]
          intro e he
          rcases List.mem_append.1 he with he | he
          · exact hm e he
          · rw [List.mem_singleton.1 he]
      | some b =>
        have hmem : (k, b) ∈ m.entries := (get_eq_some_iff m k b).1 hget
        obtain rfl : b = g k := hm _ hmem
        rw [set_eq_self hget, ih m hm, List.find?_append, List.find?_append]
        cases hfind : m.entries.find? p with
        | some e => rfl
        | none =>
          have hnot := List.find?_eq_none.1 hfind _ hmem
          rw [Option.none_or, Option.none_or, List.find?_cons_of_neg hnot]
  exact hfold empty fun _ he => absurd he List.not_mem_nil

end Tabulated

/-! ## Groups in the order of their members -/

section Groups

variable {γ : Type} {key : γ → Option α} {add : OrderedMap α (List γ) → γ → OrderedMap α (List γ)}

theorem getD_foldl_group
    (hadd : ∀ m x, add m x = match key x with
      | none => m
      | some k => m.set k ((m.get k).getD [] ++ [x]))
    (xs : List γ) (m : OrderedMap α (List γ)) (k : α) :
    ((xs.foldl add m).get k).getD [] = (m.get k).getD [] ++ xs.filter fun x => key x = some k := by
  induction xs generalizing m with
  | nil => simp
  | cons x xs ih =>
    rw [List.foldl_cons, ih, hadd]
    rcases hkey : key x with _ | own
    · simp [hkey]
    · by_cases hown : own = k
      · subst hown
        simp [hkey, get_set]
      · simp [hkey, get_set, hown, Ne.symm hown]

/-- The groups of a list, none of which is there before it has a member. -/
theorem getD_group (hadd : ∀ m x, add m x = match key x with
      | none => m
      | some k => m.set k ((m.get k).getD [] ++ [x]))
    (xs : List γ) (k : α) :
    ((xs.foldl add .empty).get k).getD [] = xs.filter fun x => key x = some k :=
  (getD_foldl_group hadd xs .empty k).trans (List.nil_append _)

end Groups

end OrderedMap

end Staaash.Library
