import Mathlib.Data.List.Basic
import Staaash.Library.OrderedMap

/-!
# Storage keys and the files root

A storage key is a path below the files root, written with `/`. It is resolved to the list of its
names before anything touches the disk; a key that is malformed or leaves the root is refused.

The root is a finite map from keys to nodes in which every node lies in a folder. The operations are the file
system calls of the executor: each one either changes the tree in one go or is refused.
-/

namespace Staaash.Journal

open Staaash.Library (OrderedMap)

/-! ## Storage keys -/

/-- A string of the journal, as its characters. -/
abbrev Text := List Char

/-- A resolved storage key: the names from the files root down. The root itself is `[]`. -/
abbrev Key := List Text

/-- Codes of `StorageMutationRejectedError`. -/
inductive RejectionCode
  | userStorageQuotaExceeded
  | storagePathTooLong
  | storageMutationAborted
deriving DecidableEq, Repr

/-- The errors the executor tells apart. -/
inductive Err
  /-- `StorageMutationAmbiguityError` -/
  | ambiguity (message : String)
  /-- `StorageMutationIntentError` -/
  | intent (message : String)
  /-- `StorageMutationFenceError` -/
  | fence
  /-- `StorageMutationRejectedError` -/
  | rejected (code : RejectionCode)
  /-- A file system error with its code. -/
  | errno (code : String)
  /-- Anything else: a lost connection, a timeout, a file system that cannot sync. -/
  | other
deriving DecidableEq, Repr

/-- `path.posix.normalize` on the names of a relative path: `.` and empty names go, `..` takes the
name before it away unless there is none. -/
def normalizeSegments (segments : List Text) : List Text :=
  segments.foldl
    (fun acc segment =>
      if segment = [] || segment = ['.'] then acc
      else if segment = ['.', '.'] then
        if acc = [] || acc.getLast? = some ['.', '.'] then acc ++ [segment] else acc.dropLast
      else acc ++ [segment])
    []

/-- The names of the normalised key, with an empty last one where the key ends in `/`. -/
def normalizeStorageKey (storageKey : Text) : Except Err (List Text) :=
  if storageKey = [] || storageKey.contains '\\' || storageKey.head? = some '/' then
    .error (.ambiguity "Invalid mutation storage key.")
  else
    let normalized := normalizeSegments (storageKey.splitOn '/')
    if normalized = [] || normalized.head? = some ['.', '.'] then
      .error (.ambiguity "Mutation storage key escapes storage root.")
    else if storageKey.getLast? = some '/' then .ok (normalized ++ [[]])
    else .ok normalized

def resolveMutationStoragePath (storageKey : Text) : Except Err Key := do
  let key := (← normalizeStorageKey storageKey).filter (· ≠ [])
  if key = [] || (key.headD []).take 2 = ['.', '.'] then
    .error (.ambiguity "Mutation storage key escapes storage root.")
  else .ok key

/-- `path.dirname` -/
def dirname (key : Key) : Key := key.dropLast

/-- The folders one comes through from `base` along the names of `key`, each below the one before;
the last one is `base ++ key`. -/
def prefixesFrom (base : Key) : Key → List Key
  | [] => []
  | segment :: rest => (base ++ [segment]) :: prefixesFrom (base ++ [segment]) rest

/-- The folders on the way to `key`, and `key` itself last. -/
def prefixes (key : Key) : List Key := prefixesFrom [] key

/-- `key` with `source` at its front replaced by `target`. -/
def moveKey (source target key : Key) : Key :=
  if source <+: key then target ++ key.drop source.length else key

/-! ## Nodes -/

/-- What a path can be: a file with its bytes, a folder, or something else such as a link. -/
inductive Node
  | file (bytes : List UInt8)
  | directory
  | other
deriving DecidableEq, Repr

/-- The node types the journal records. -/
inductive NodeType
  | file
  | directory
  | other
deriving DecidableEq, Repr

def Node.type : Node → NodeType
  | .file _ => .file
  | .directory => .directory
  | .other => .other

/-- The tree below the files root. -/
structure Fs where
  nodes : OrderedMap Key Node
  /-- The root itself is not an entry. -/
  rooted : ∀ k ∈ nodes.keys, k ≠ []
  /-- Every entry lies in the root or in a folder. -/
  closed : ∀ k ∈ nodes.keys, dirname k = [] ∨ nodes.get (dirname k) = some .directory
deriving DecidableEq

namespace Fs

/-- The node at a key. -/
def get (fs : Fs) (k : Key) : Option Node := fs.nodes.get k

/-- The key is the root or a folder. -/
def IsDirectory (fs : Fs) (k : Key) : Prop := k = [] ∨ fs.get k = some .directory

instance (fs : Fs) (k : Key) : Decidable (fs.IsDirectory k) :=
  inferInstanceAs (Decidable (k = [] ∨ fs.get k = some .directory))

/-- The key has entries below it. -/
def hasEntries (fs : Fs) (k : Key) : Bool :=
  fs.nodes.keys.any fun k' => k <+: k' && k' ≠ k

variable {fs : Fs}

theorem mem_keys_iff {k : Key} : k ∈ fs.nodes.keys ↔ fs.get k ≠ none := by
  rw [OrderedMap.mem_keys_iff, Option.ne_none_iff_exists']
  rfl

/-- What lies above an entry is a folder. -/
theorem isDirectory_above {k p : Key} (hk : fs.get k ≠ none) (hp : p <+: k) (hne : p ≠ k) :
    fs.IsDirectory p := by
  induction hn : k.length generalizing k with
  | zero =>
    have : k = [] := List.length_eq_zero_iff.mp hn
    exact absurd this (fs.rooted k (mem_keys_iff.mpr hk))
  | succ n ih =>
    have hk0 : k ≠ [] := fs.rooted k (mem_keys_iff.mpr hk)
    have hp' : p <+: dirname k := by
      obtain ⟨x, hx⟩ : ∃ x, dirname k ++ [x] = k := ⟨_, List.dropLast_append_getLast hk0⟩
      rw [← hx] at hp
      rcases List.prefix_concat_iff.mp hp with h | h
      · exact absurd (h.trans hx) hne
      · exact h
    rcases fs.closed k (mem_keys_iff.mpr hk) with h | h
    · rw [h, List.prefix_nil] at hp'
      exact Or.inl hp'
    · by_cases he : p = dirname k
      · rw [he]
        exact Or.inr h
      · have hlen : (dirname k).length = n := by simp [dirname, hn]
        refine ih ?_ hp' he hlen
        rw [show fs.get (dirname k) = some .directory from h]
        exact Option.some_ne_none _

/-- Below a missing key there is nothing. -/
theorem get_eq_none_below {k p : Key} (hp : fs.get p = none) (hp0 : p ≠ []) (h : p <+: k) :
    fs.get k = none := by
  by_contra hk
  by_cases he : p = k
  · exact hk (he ▸ hp)
  · rcases isDirectory_above hk h he with h0 | hd
    · exact hp0 h0
    · rw [hp] at hd
      cases hd

/-! ## Making a folder -/

theorem mkdir_rooted {k : Key} (hk : k ≠ []) :
    ∀ k' ∈ (fs.nodes.set k Node.directory).keys, k' ≠ [] := by
  intro k' hk'
  rcases (OrderedMap.mem_keys_setEntries k k' _ _).mp hk' with rfl | h
  · exact hk
  · exact fs.rooted k' h

theorem mkdir_closed {k : Key} (hp : fs.IsDirectory (dirname k)) :
    ∀ k' ∈ (fs.nodes.set k Node.directory).keys, dirname k' = [] ∨
      (fs.nodes.set k Node.directory).get (dirname k') = some .directory := by
  intro k' hk'
  rw [OrderedMap.get_set]
  by_cases hd : dirname k' = k
  · exact Or.inr (if_pos hd)
  · rw [if_neg hd]
    rcases (OrderedMap.mem_keys_setEntries k k' _ _).mp hk' with rfl | h
    · exact hp
    · exact fs.closed k' h

/-- `mkdir`, refused where the key is taken or its folder missing. -/
def mkdir (fs : Fs) (k : Key) : Option Fs :=
  if h : k ≠ [] ∧ fs.get k = none ∧ fs.IsDirectory (dirname k) then
    some ⟨fs.nodes.set k .directory, mkdir_rooted h.1, mkdir_closed h.2.2⟩
  else none

/-! ## Renaming -/

theorem moveKey_injective {source target : Key} (ht : fs.get target = none) (ht0 : target ≠ []) :
    ∀ a ∈ fs.nodes.keys, ∀ b ∈ fs.nodes.keys,
      moveKey source target a = moveKey source target b → a = b := by
  have hfree : ∀ a ∈ fs.nodes.keys, ¬ target <+: a := fun a ha hp =>
    mem_keys_iff.mp ha (get_eq_none_below ht ht0 hp)
  intro a ha b hb hab
  unfold moveKey at hab
  split_ifs at hab with h1 h2 h2
  · obtain ⟨ra, rfl⟩ := h1
    obtain ⟨rb, rfl⟩ := h2
    simpa using hab
  · exact absurd ⟨_, hab⟩ (hfree b hb)
  · exact absurd ⟨_, hab.symm⟩ (hfree a ha)
  · exact hab

theorem moveKey_ne_nil {source target k : Key} (ht0 : target ≠ []) (hk : k ≠ []) :
    moveKey source target k ≠ [] := by
  unfold moveKey
  split_ifs
  · simp [ht0]
  · exact hk

theorem dirname_above (k : Key) : dirname k <+: k := List.dropLast_prefix k

theorem dirname_append {a b : Key} (hb : b ≠ []) : dirname (a ++ b) = a ++ dirname b :=
  List.dropLast_append_of_ne_nil hb

theorem rename_closed {source target : Key}
    (hp : fs.IsDirectory (dirname target)) (hin : ¬ source <+: target)
    (hf : ∀ a ∈ fs.nodes.keys, ∀ b ∈ fs.nodes.keys,
      moveKey source target a = moveKey source target b → a = b) :
    ∀ k ∈ (fs.nodes.mapKeys (moveKey source target) hf).keys, dirname k = [] ∨
      (fs.nodes.mapKeys (moveKey source target) hf).get (dirname k) = some .directory := by
  intro k hk
  obtain ⟨n, hn⟩ := (OrderedMap.mem_keys_iff _ _).mp hk
  obtain ⟨k', hk', rfl⟩ := (OrderedMap.get_mapKeys_eq_some hf).mp hn
  -- A folder outside the source keeps its key.
  have hstay : ∀ d : Key, ¬ source <+: d → fs.IsDirectory d →
      d = [] ∨ (fs.nodes.mapKeys (moveKey source target) hf).get d = some .directory := by
    intro d hd hdir
    rcases hdir with h | h
    · exact Or.inl h
    · refine Or.inr ((OrderedMap.get_mapKeys_eq_some hf).mpr ⟨d, h, ?_⟩)
      rw [moveKey, if_neg hd]
  have hclosed := fs.closed k' ((OrderedMap.mem_keys_iff _ _).mpr ⟨n, hk'⟩)
  by_cases hs : source <+: k'
  · obtain ⟨rest, rfl⟩ := hs
    have hmove : moveKey source target (source ++ rest) = target ++ rest := by
      rw [moveKey, if_pos (List.prefix_append _ _), List.drop_left]
    rw [hmove]
    by_cases hrest : rest = []
    · subst hrest
      rw [List.append_nil]
      exact hstay _ (fun h => hin (h.trans (dirname_above target))) hp
    · rw [dirname_append hrest]
      rw [dirname_append hrest] at hclosed
      right
      rcases hclosed with h | h
      · -- The source would be the root, which lies above every target.
        rw [List.append_eq_nil_iff] at h
        rw [h.1] at hin
        exact absurd List.nil_prefix hin
      · refine (OrderedMap.get_mapKeys_eq_some hf).mpr ⟨_, h, ?_⟩
        rw [moveKey, if_pos (List.prefix_append _ _), List.drop_left]
  · have hmove : moveKey source target k' = k' := by rw [moveKey, if_neg hs]
    rw [hmove]
    exact hstay _ (fun h => hs (h.trans (dirname_above k'))) hclosed

/-- `rename` of a node with everything below it. The executor has checked before the call that the
target is free; a folder cannot go below itself. -/
def rename (fs : Fs) (source target : Key) : Option Fs :=
  if h : fs.get source ≠ none ∧ fs.get target = none ∧ target ≠ [] ∧
      fs.IsDirectory (dirname target) ∧ ¬ source <+: target then
    let hf := moveKey_injective h.2.1 h.2.2.1
    some
      { nodes := fs.nodes.mapKeys (moveKey source target) hf
        rooted := by
          intro k hk
          obtain ⟨n, hn⟩ := (OrderedMap.mem_keys_iff _ _).mp hk
          obtain ⟨k', hk', rfl⟩ := (OrderedMap.get_mapKeys_eq_some hf).mp hn
          have hmem := (OrderedMap.mem_keys_iff _ _).mpr ⟨n, hk'⟩
          exact moveKey_ne_nil h.2.2.1 (fs.rooted k' hmem)
        closed := rename_closed h.2.2.2.1 h.2.2.2.2 hf }
  else none

/-! ## Removing -/

/-- The entry outlives a removal below `k` that left only `left` and the folders above them. -/
def outlives (k : Key) (left : List Key) (k' : Key) : Bool :=
  !(k <+: k') || left.any fun l => k' <+: l

theorem removeUnder_closed (k : Key) (left : List Key) :
    ∀ k' ∈ (fs.nodes.filterKeys (outlives k left)).keys, dirname k' = [] ∨
      (fs.nodes.filterKeys (outlives k left)).get (dirname k') = some .directory := by
  intro k' hk'
  obtain ⟨n, hn⟩ := (OrderedMap.mem_keys_iff _ _).mp hk'
  rw [OrderedMap.get_filterKeys] at hn
  split_ifs at hn with hout
  rcases fs.closed k' ((OrderedMap.mem_keys_iff _ _).mpr ⟨n, hn⟩) with h | h
  · exact Or.inl h
  · right
    rw [OrderedMap.get_filterKeys, if_pos]
    · exact h
    · simp only [outlives, Bool.or_eq_true, Bool.not_eq_true', decide_eq_false_iff_not,
        List.any_eq_true, decide_eq_true_eq] at hout ⊢
      rcases hout with hout | ⟨l, hl, hkl⟩
      · exact Or.inl fun hp => hout (hp.trans (dirname_above k'))
      · exact Or.inr ⟨l, hl, (dirname_above k').trans hkl⟩

/-- Remove `k` and everything below it. A recursive removal that was cut off leaves the entries of
`left` with the folders above them. -/
def removeUnder (fs : Fs) (k : Key) (left : List Key) : Fs where
  nodes := fs.nodes.filterKeys (outlives k left)
  rooted := by
    intro k' hk'
    obtain ⟨n, hn⟩ := (OrderedMap.mem_keys_iff _ _).mp hk'
    rw [OrderedMap.get_filterKeys] at hn
    split_ifs at hn
    exact fs.rooted k' ((OrderedMap.mem_keys_iff _ _).mpr ⟨n, hn⟩)
  closed := removeUnder_closed k left

end Fs

end Staaash.Journal
