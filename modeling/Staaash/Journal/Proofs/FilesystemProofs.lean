import Staaash.Journal.Effects

/-!
# Proofs: the operations on the tree

What `mkdir`, `rename` and the making of folders on the way do to single keys, and what they leave
alone.
-/

namespace Staaash.Journal

open Staaash.Library (OrderedMap)

theorem Fs.ext {a b : Fs} (h : a.nodes.entries = b.nodes.entries) : a = b := by
  obtain ⟨⟨ea, _⟩, _, _⟩ := a
  obtain ⟨⟨eb, _⟩, _, _⟩ := b
  dsimp only at h
  subst h
  rfl

/-! ## Prefixes -/

theorem mem_prefixesFrom {base rest k : Key} :
    k ∈ prefixesFrom base rest ↔ ∃ p, p ≠ [] ∧ p <+: rest ∧ k = base ++ p := by
  induction rest generalizing base with
  | nil =>
    simp only [prefixesFrom, List.not_mem_nil, List.prefix_nil, false_iff, not_exists]
    rintro p ⟨h1, h2, -⟩
    exact h1 h2
  | cons s rest ih =>
    rw [prefixesFrom, List.mem_cons, ih]
    constructor
    · rintro (rfl | ⟨p, hp, hpre, rfl⟩)
      · exact ⟨[s], by simp, by simp, rfl⟩
      · exact ⟨s :: p, by simp, by simpa using hpre, by simp⟩
    · rintro ⟨p, hp, hpre, rfl⟩
      cases p with
      | nil => exact absurd rfl hp
      | cons x p =>
        rw [List.cons_prefix_cons] at hpre
        obtain ⟨rfl, hpre⟩ := hpre
        by_cases h : p = []
        · subst h
          exact Or.inl rfl
        · exact Or.inr ⟨p, h, hpre, by simp⟩

theorem mem_prefixes {key k : Key} : k ∈ prefixes key ↔ k ≠ [] ∧ k <+: key := by
  unfold prefixes
  rw [mem_prefixesFrom]
  constructor
  · rintro ⟨p, h1, h2, rfl⟩
    exact ⟨h1, h2⟩
  · rintro ⟨h1, h2⟩
    exact ⟨k, h1, h2, rfl⟩

theorem not_prefix_dirname {k : Key} (h : k ≠ []) : ¬ k <+: dirname k := by
  intro hp
  have hlen := hp.length_le
  have hpos : 0 < k.length := List.length_pos_of_ne_nil h
  rw [dirname, List.length_dropLast] at hlen
  omega

/-! ## `mkdir` -/

namespace Fs

variable {fs fs' : Fs}

theorem mkdir_eq_some {k : Key} (h : fs.mkdir k = some fs') :
    k ≠ [] ∧ fs.get k = none ∧ fs.IsDirectory (dirname k) ∧
      fs'.nodes = fs.nodes.set k .directory := by
  unfold mkdir at h
  split_ifs at h with hc
  obtain rfl := Option.some.inj h
  exact ⟨hc.1, hc.2.1, hc.2.2, rfl⟩

theorem get_mkdir {k : Key} (h : fs.mkdir k = some fs') (k' : Key) :
    fs'.get k' = if k' = k then some .directory else fs.get k' := by
  obtain ⟨-, -, -, hn⟩ := mkdir_eq_some h
  unfold get
  rw [hn, OrderedMap.get_set]

theorem entries_mkdir {k : Key} (h : fs.mkdir k = some fs') :
    fs'.nodes.entries = fs.nodes.entries ++ [(k, .directory)] := by
  obtain ⟨-, hk, -, hn⟩ := mkdir_eq_some h
  rw [hn]
  exact OrderedMap.entries_set_of_get_eq_none _ hk

/-! ## `rename` -/

theorem rename_eq_some {source target : Key} (h : fs.rename source target = some fs') :
    fs.get source ≠ none ∧ fs.get target = none ∧ target ≠ [] ∧
      fs.IsDirectory (dirname target) ∧ ¬ source <+: target ∧
      fs'.nodes.entries = fs.nodes.entries.map fun e => (moveKey source target e.1, e.2) := by
  unfold rename at h
  split_ifs at h with hc
  obtain rfl := Option.some.inj h
  exact ⟨hc.1, hc.2.1, hc.2.2.1, hc.2.2.2.1, hc.2.2.2.2, rfl⟩

theorem get_eq_some_iff {k : Key} {n : Node} : fs.get k = some n ↔ (k, n) ∈ fs.nodes.entries :=
  OrderedMap.get_eq_some_iff _ _ _

theorem get_rename {source target : Key} (h : fs.rename source target = some fs') {k : Key}
    {n : Node} :
    fs'.get k = some n ↔ ∃ k', fs.get k' = some n ∧ moveKey source target k' = k := by
  obtain ⟨-, -, -, -, -, hn⟩ := rename_eq_some h
  rw [get_eq_some_iff, hn, List.mem_map]
  constructor
  · rintro ⟨⟨k', n'⟩, hm, he⟩
    obtain ⟨rfl, rfl⟩ := Prod.mk.inj he
    exact ⟨k', get_eq_some_iff.mpr hm, rfl⟩
  · rintro ⟨k', hk', rfl⟩
    exact ⟨(k', n), get_eq_some_iff.mp hk', rfl⟩

theorem moveKey_append (source target rest : Key) :
    moveKey source target (source ++ rest) = target ++ rest := by
  rw [moveKey, if_pos (List.prefix_append _ _), List.drop_left]

theorem moveKey_outside {source target k : Key} (h : ¬ source <+: k) :
    moveKey source target k = k := if_neg h

theorem source_ne_nil {source target : Key} (h : fs.rename source target = some fs') :
    source ≠ [] := by
  obtain ⟨hs, -⟩ := rename_eq_some h
  exact fs.rooted source (mem_keys_iff.mpr hs)

/-- What was at or below the source is at or below the target. -/
theorem get_rename_target {source target : Key} (h : fs.rename source target = some fs')
    (rest : Key) : fs'.get (target ++ rest) = fs.get (source ++ rest) := by
  obtain ⟨-, ht, ht0, -, -, -⟩ := rename_eq_some h
  refine Option.ext fun n => ?_
  rw [get_rename h]
  constructor
  · rintro ⟨k', hk', hm⟩
    by_cases hs : source <+: k'
    · obtain ⟨r, rfl⟩ := hs
      rw [moveKey_append, List.append_cancel_left_eq] at hm
      rw [← hm]
      exact hk'
    · rw [moveKey_outside hs] at hm
      have := get_eq_none_below ht ht0 (List.prefix_append target rest)
      rw [← hm, hk'] at this
      cases this
  · intro hk
    exact ⟨_, hk, moveKey_append source target rest⟩

/-- Nothing is left at or below the source. -/
theorem get_rename_source {source target k : Key} (h : fs.rename source target = some fs')
    (hk : source <+: k) : fs'.get k = none := by
  obtain ⟨-, ht, ht0, -, hin, -⟩ := rename_eq_some h
  by_contra hne
  obtain ⟨n, hn⟩ := Option.ne_none_iff_exists'.mp hne
  obtain ⟨k', hk', hm⟩ := (get_rename h).mp hn
  by_cases hs : source <+: k'
  · obtain ⟨r, rfl⟩ := hs
    rw [moveKey_append] at hm
    have htk : target <+: k := ⟨r, hm⟩
    -- Of two keys above the same one, one lies above the other.
    rcases List.prefix_or_prefix_of_prefix hk htk with h1 | h1
    · exact hin h1
    · have hsource := get_eq_none_below ht ht0 h1
      obtain ⟨hs', -⟩ := rename_eq_some h
      exact hs' hsource
  · rw [moveKey_outside hs] at hm
    exact hs (hm ▸ hk)

/-- Elsewhere nothing changes. -/
theorem get_rename_other {source target k : Key} (h : fs.rename source target = some fs')
    (hs : ¬ source <+: k) (ht : ¬ target <+: k) : fs'.get k = fs.get k := by
  refine Option.ext fun n => ?_
  rw [get_rename h]
  constructor
  · rintro ⟨k', hk', hm⟩
    by_cases hs' : source <+: k'
    · obtain ⟨r, rfl⟩ := hs'
      rw [moveKey_append] at hm
      exact absurd ⟨r, hm⟩ ht
    · rw [moveKey_outside hs'] at hm
      rw [← hm]
      exact hk'
  · intro hk
    exact ⟨k, hk, moveKey_outside hs⟩

/-! ## Folders on the way -/

theorem ensureDirectory_eq_some {k : Key} (h : fs.ensureDirectory k = some fs') :
    (fs.get k = some .directory ∧ fs' = fs) ∨ (fs.get k = none ∧ fs.mkdir k = some fs') := by
  unfold ensureDirectory at h
  cases hk : fs.get k with
  | none =>
    rw [hk] at h
    exact Or.inr ⟨rfl, h⟩
  | some n =>
    rw [hk] at h
    cases n with
    | directory => exact Or.inl ⟨rfl, (Option.some.inj h).symm⟩
    | file bytes => cases h
    | other => cases h

theorem get_ensureDirectory_self {k : Key} (h : fs.ensureDirectory k = some fs') :
    fs'.get k = some .directory := by
  rcases ensureDirectory_eq_some h with ⟨hk, rfl⟩ | ⟨-, hm⟩
  · exact hk
  · rw [get_mkdir hm, if_pos rfl]

theorem get_ensureDirectory {k : Key} (h : fs.ensureDirectory k = some fs') (k' : Key) :
    fs'.get k' = fs.get k' ∨ (k' = k ∧ fs.get k' = none ∧ fs'.get k' = some .directory) := by
  rcases ensureDirectory_eq_some h with ⟨hk, rfl⟩ | ⟨hk, hm⟩
  · exact Or.inl rfl
  · rw [get_mkdir hm]
    by_cases he : k' = k
    · rw [if_pos he]
      exact Or.inr ⟨he, he ▸ hk, rfl⟩
    · exact Or.inl (if_neg he)

theorem ensureDirectories_cons {k : Key} {ks : List Key} :
    fs.ensureDirectories (k :: ks) = (fs.ensureDirectory k).bind (·.ensureDirectories ks) := rfl

theorem ensureDirectories_append {ks ls : List Key} :
    fs.ensureDirectories (ks ++ ls) =
      (fs.ensureDirectories ks).bind (·.ensureDirectories ls) := by
  unfold ensureDirectories
  rw [List.foldlM_append]
  rfl

/-- Making folders only adds folders at the keys asked for. -/
theorem get_ensureDirectories {ks : List Key} (h : fs.ensureDirectories ks = some fs') (k' : Key) :
    fs'.get k' = fs.get k' ∨ (k' ∈ ks ∧ fs.get k' = none ∧ fs'.get k' = some .directory) := by
  induction ks generalizing fs with
  | nil =>
    obtain rfl := Option.some.inj h
    exact Or.inl rfl
  | cons k ks ih =>
    obtain ⟨mid, hmid, hrest⟩ := Option.bind_eq_some_iff.mp h
    rcases ih hrest with he | ⟨hmem, hnone, hdir⟩
    · rw [he]
      rcases get_ensureDirectory hmid k' with h1 | ⟨rfl, h2, h3⟩
      · exact Or.inl h1
      · exact Or.inr ⟨by simp, h2, h3⟩
    · rcases get_ensureDirectory hmid k' with h1 | ⟨rfl, h2, h3⟩
      · rw [h1] at hnone
        exact Or.inr ⟨by simp [hmem], hnone, hdir⟩
      · rw [hnone] at h3
        cases h3

theorem get_ensureDirectories_of_ne_none {ks : List Key} (h : fs.ensureDirectories ks = some fs')
    {k : Key} (hk : fs.get k ≠ none) : fs'.get k = fs.get k := by
  rcases get_ensureDirectories h k with he | ⟨-, hn, -⟩
  · exact he
  · exact absurd hn hk

theorem isDirectory_of_ensureDirectories {ks : List Key} (h : fs.ensureDirectories ks = some fs')
    {k : Key} (hk : k ∈ ks) : fs'.get k = some .directory := by
  induction ks generalizing fs with
  | nil => cases hk
  | cons k' ks ih =>
    obtain ⟨mid, hmid, hrest⟩ := Option.bind_eq_some_iff.mp h
    rcases List.mem_cons.mp hk with rfl | hk
    · have hself := get_ensureDirectory_self hmid
      rw [get_ensureDirectories_of_ne_none hrest (by rw [hself]; exact Option.some_ne_none _), hself]
    · exact ih hrest hk

/-- Folders that are all there are made by doing nothing. -/
theorem ensureDirectories_of_directories {ks : List Key}
    (h : ∀ k ∈ ks, fs.get k = some .directory) : fs.ensureDirectories ks = some fs := by
  induction ks with
  | nil => rfl
  | cons k ks ih =>
    have hk : fs.ensureDirectory k = some fs := by
      unfold ensureDirectory
      rw [h k (by simp)]
    rw [ensureDirectories_cons, hk]
    exact ih fun k' hk' => h k' (by simp [hk'])

/-- Making folders can be interrupted and started again. -/
theorem ensureDirectories_resume {ks : List Key} {j : Nat}
    (h : fs.ensureDirectories (ks.take j) = some fs') (i : Nat) :
    fs'.ensureDirectories (ks.take i) = fs.ensureDirectories (ks.take (max i j)) := by
  have hdirs : ∀ l, l <+: ks.take j → fs'.ensureDirectories l = some fs' := fun l hl =>
    ensureDirectories_of_directories fun k hk =>
      isDirectory_of_ensureDirectories h (hl.subset hk)
  by_cases hij : i ≤ j
  · rw [Nat.max_eq_right hij, h]
    exact hdirs _ (List.take_prefix_take_left hij)
  · have hji : j ≤ i := by omega
    rw [Nat.max_eq_left hji]
    have hsplit : ks.take i = ks.take j ++ (ks.take i).drop j := by
      have htake : (ks.take i).take j = ks.take j := by rw [List.take_take, Nat.min_eq_left hji]
      rw [← htake, List.take_append_drop]
    rw [hsplit, ensureDirectories_append, ensureDirectories_append, h, hdirs _ List.prefix_rfl]

end Fs

/-! ## Safe ancestors -/

theorem safeAncestors_iff_aux {fs : Fs} {base rest : Key} :
    safeAncestors fs (prefixesFrom base rest) = true ↔
      ∀ k ∈ prefixesFrom base rest, fs.get k = none ∨ fs.get k = some .directory := by
  induction rest generalizing base with
  | nil => simp [prefixesFrom, safeAncestors]
  | cons s rest ih =>
    rw [prefixesFrom, safeAncestors]
    cases hk : fs.get (base ++ [s]) with
    | none =>
      simp only [true_iff]
      intro k hmem
      -- Below a missing folder everything is missing.
      left
      rcases List.mem_cons.mp hmem with rfl | hmem
      · exact hk
      · obtain ⟨p, -, -, rfl⟩ := mem_prefixesFrom.mp hmem
        exact Fs.get_eq_none_below hk (by simp) (List.prefix_append _ _)
    | some n =>
      cases n with
      | directory =>
        dsimp only
        rw [ih]
        constructor
        · intro h k hmem
          rcases List.mem_cons.mp hmem with rfl | hmem
          · exact Or.inr hk
          · exact h k hmem
        · intro h k hmem
          exact h k (by simp [hmem])
      | file bytes =>
        simp only [Bool.false_eq_true, false_iff, not_forall]
        exact ⟨base ++ [s], by simp, by simp [hk]⟩
      | other =>
        simp only [Bool.false_eq_true, false_iff, not_forall]
        exact ⟨base ++ [s], by simp, by simp [hk]⟩

theorem safeAncestors_iff {fs : Fs} {k : Key} :
    safeAncestors fs (prefixes k) = true ↔
      ∀ p, p ≠ [] → p <+: k → fs.get p = none ∨ fs.get p = some .directory := by
  unfold prefixes
  rw [safeAncestors_iff_aux]
  constructor
  · intro h p hp0 hp
    exact h p (mem_prefixes.mpr ⟨hp0, hp⟩)
  · intro h p hp
    obtain ⟨hp0, hpre⟩ := mem_prefixes.mp hp
    exact h p hp0 hpre

end Staaash.Journal
