import Mathlib.Logic.Function.Basic
import Mathlib.Data.List.Basic
import Mathlib.Data.List.Nodup

/-!
# Open files

A name leads to a node, and the node holds the bytes. Opening a name for writing empties its node. Whoever
has opened it goes on writing to that node, at an offset of his own, wherever the name is moved meanwhile.
-/

namespace Staaash.Library

/-- The bytes, and who was the last to open the node for writing. -/
structure FileNode (ω β : Type) where
  opener : ω
  bytes : List β
deriving DecidableEq, Repr

/-- Names that lead to nodes, no two to the same. -/
structure OpenFiles (κ ω β : Type) where
  nodes : List (FileNode ω β)
  names : κ → Option Nat
  bound : ∀ k n, names k = some n → n < nodes.length
  apart : ∀ k k' n, names k = some n → names k' = some n → k = k'

/-- The bytes after a write at an offset. What lies between the end and the offset is filled up. -/
def writeAt {β : Type} [Inhabited β] (bytes : List β) (offset : Nat) (piece : List β) : List β :=
  bytes.take offset ++ List.replicate (offset - bytes.length) default ++ piece ++
    bytes.drop (offset + piece.length)

@[simp] theorem writeAt_length {β : Type} [Inhabited β] (bytes piece : List β) :
    writeAt bytes bytes.length piece = bytes ++ piece := by
  simp [writeAt]

namespace OpenFiles

variable {κ ω β : Type} {f : OpenFiles κ ω β}

/-- No name leads anywhere. -/
def none : OpenFiles κ ω β where
  nodes := []
  names := fun _ => Option.none
  bound := by simp
  apart := by simp

def get (f : OpenFiles κ ω β) (name : κ) : Option (FileNode ω β) := (f.names name).bind (f.nodes[·]?)

/-- The node that the name leads to once it is opened. -/
def handle (f : OpenFiles κ ω β) (name : κ) : Nat := (f.names name).getD f.nodes.length

def openedNodes (f : OpenFiles κ ω β) (name : κ) (opener : ω) : List (FileNode ω β) :=
  match f.names name with
  | some n => f.nodes.set n ⟨opener, []⟩
  | Option.none => f.nodes ++ [⟨opener, []⟩]

theorem length_openedNodes (name : κ) (opener : ω) :
    (f.openedNodes name opener).length = max f.nodes.length (f.handle name + 1) := by
  unfold openedNodes handle
  rcases hname : f.names name with _ | n
  · simp
  · have hn := f.bound name n hname
    simp only [List.length_set, Option.getD_some]
    omega

theorem handle_eq {name k : κ} (h : f.names k = some (f.handle name)) : k = name := by
  unfold handle at h
  rcases hname : f.names name with _ | n
  · have hk := f.bound k _ h
    rw [hname] at hk
    simp at hk
  · rw [hname] at h
    exact f.apart k name n h hname

/-- A write through a descriptor. -/
def write [Inhabited β] (f : OpenFiles κ ω β) (n offset : Nat) (piece : List β) : OpenFiles κ ω β where
  nodes := f.nodes.modify n fun node => { node with bytes := writeAt node.bytes offset piece }
  names := f.names
  bound := by simpa using f.bound
  apart := f.apart

@[simp] theorem write_names [Inhabited β] (n offset : Nat) (piece : List β) :
    (f.write n offset piece).names = f.names := rfl

theorem write_node [Inhabited β] (n offset m : Nat) (piece : List β) :
    (f.write n offset piece).nodes[m]? =
      (f.nodes[m]?).map fun node =>
        if n = m then { node with bytes := writeAt node.bytes offset piece } else node := by
  show (f.nodes.modify n _)[m]? = _
  rw [List.getElem?_modify]
  by_cases hnm : n = m <;> simp [hnm]

variable [DecidableEq κ]

def openedNames (f : OpenFiles κ ω β) (name k : κ) : Option Nat :=
  if k = name then some (f.handle name) else f.names k

/-- `open` with the flags of a fresh output: the name is made if it is missing, and the node is emptied. -/
def openEmpty (f : OpenFiles κ ω β) (name : κ) (opener : ω) : OpenFiles κ ω β where
  nodes := f.openedNodes name opener
  names := f.openedNames name
  bound := by
    intro k n hk
    rw [length_openedNodes]
    unfold openedNames at hk
    split at hk
    · obtain rfl := Option.some.inj hk
      omega
    · have := f.bound k n hk
      omega
  apart := by
    intro k k' n hk hk'
    unfold openedNames at hk hk'
    split at hk <;> split at hk'
    · simp_all
    · obtain rfl := Option.some.inj hk
      exact absurd (handle_eq hk') ‹_›
    · obtain rfl := Option.some.inj hk'
      exact absurd (handle_eq hk) ‹_›
    · exact f.apart k k' n hk hk'

@[simp] theorem openEmpty_names (name k : κ) (opener : ω) :
    (f.openEmpty name opener).names k = if k = name then some (f.handle name) else f.names k := rfl

theorem openEmpty_node (name : κ) (opener : ω) (n : Nat) :
    (f.openEmpty name opener).nodes[n]? =
      if n = f.handle name then some ⟨opener, []⟩ else f.nodes[n]? := by
  show (f.openedNodes name opener)[n]? = _
  unfold openedNodes handle
  rcases hname : f.names name with _ | m
  · simp only [Option.getD_none, List.getElem?_append]
    by_cases hn : n < f.nodes.length
    · rw [if_pos hn, if_neg (by omega)]
    · rw [if_neg hn]
      by_cases hlen : n = f.nodes.length
      · simp [hlen]
      · rw [if_neg hlen, List.getElem?_eq_none (by simp; omega), List.getElem?_eq_none (by omega)]
  · have hm := f.bound name m hname
    simp only [Option.getD_some, List.getElem?_set]
    by_cases hn : m = n
    · subst hn
      simp [hm]
    · rw [if_neg hn, if_neg (Ne.symm hn)]

/-- What the target led to is lost. -/
def rename (f : OpenFiles κ ω β) (source target : κ) : OpenFiles κ ω β where
  nodes := f.nodes
  names := fun k => if k = target then f.names source else if k = source then Option.none else f.names k
  bound := by
    intro k n hk
    split at hk
    · exact f.bound source n hk
    · split at hk
      · simp at hk
      · exact f.bound k n hk
  apart := by
    intro k k' n hk hk'
    have := f.apart
    grind

@[simp] theorem rename_names (source target k : κ) :
    (f.rename source target).names k =
      if k = target then f.names source else if k = source then Option.none else f.names k := rfl

@[simp] theorem rename_nodes (source target : κ) : (f.rename source target).nodes = f.nodes := rfl

def remove (f : OpenFiles κ ω β) (name : κ) : OpenFiles κ ω β where
  nodes := f.nodes
  names := fun k => if k = name then Option.none else f.names k
  bound := by
    intro k n hk
    split at hk
    · simp at hk
    · exact f.bound k n hk
  apart := by
    intro k k' n hk hk'
    have := f.apart
    grind

@[simp] theorem remove_names (name k : κ) :
    (f.remove name).names k = if k = name then Option.none else f.names k := rfl

@[simp] theorem remove_nodes (name : κ) : (f.remove name).nodes = f.nodes := rfl

/-- Opening another name leaves a node as it is. -/
theorem openEmpty_keeps {name k : κ} {opener : ω} {n : Nat} (hk : f.names k = some n) (hne : k ≠ name) :
    (f.openEmpty name opener).names k = some n ∧ (f.openEmpty name opener).nodes[n]? = f.nodes[n]? := by
  refine ⟨by rw [openEmpty_names, if_neg hne, hk], ?_⟩
  rw [openEmpty_node, if_neg]
  intro hn
  subst hn
  exact hne (handle_eq hk)

end OpenFiles

/-! ## What a writer knows of its node -/

/-- A descriptor, and all that has been written through it. -/
structure Output (ω β : Type) where
  writer : ω
  node : Nat
  written : List β
deriving DecidableEq, Repr

namespace Output

variable {κ ω β : Type} [DecidableEq κ] {f : OpenFiles κ ω β} {o : Output ω β}

/-- Where the writer was the last to open a node, this is its node, and holds what it has written. -/
def Kept (nodes : List (FileNode ω β)) (o : Output ω β) : Prop :=
  ∀ n node, nodes[n]? = some node → node.opener = o.writer → n = o.node ∧ node.bytes = o.written

/-- A new writer opens a node. -/
theorem kept_opened {name : κ} {writer : ω} (hfresh : ∀ node ∈ f.nodes, node.opener ≠ writer) :
    Kept (f.openEmpty name writer).nodes ⟨writer, f.handle name, []⟩ := by
  intro n node hnode hopener
  rw [OpenFiles.openEmpty_node] at hnode
  split at hnode
  · next hn =>
    obtain rfl := Option.some.inj hnode
    exact ⟨hn, rfl⟩
  · exact absurd hopener (hfresh node (List.mem_of_getElem? hnode))

theorem Kept.openEmpty (h : o.Kept f.nodes) {name : κ} {writer : ω} (hne : writer ≠ o.writer) :
    o.Kept (f.openEmpty name writer).nodes := by
  intro n node hnode hopener
  rw [OpenFiles.openEmpty_node] at hnode
  split at hnode
  · obtain rfl := Option.some.inj hnode
    exact absurd hopener hne
  · exact h n node hnode hopener

omit [DecidableEq κ] in
/-- The writer goes on. -/
theorem Kept.write [Inhabited β] (h : o.Kept f.nodes) (piece : List β) :
    Kept (f.write o.node o.written.length piece).nodes { o with written := o.written ++ piece } := by
  intro n node hnode hopener
  rw [OpenFiles.write_node] at hnode
  obtain ⟨before, hbefore, rfl⟩ := Option.map_eq_some_iff.1 hnode
  by_cases hn : o.node = n
  · rw [if_pos hn] at hopener ⊢
    obtain ⟨-, hbytes⟩ := h n before hbefore hopener
    refine ⟨hn.symm, ?_⟩
    show writeAt before.bytes o.written.length piece = _
    rw [hbytes, writeAt_length]
  · rw [if_neg hn] at hopener
    exact absurd (h n before hbefore hopener).1 (Ne.symm hn)

omit [DecidableEq κ] in
/-- Somebody writes to a node that the writer was not the last to open. -/
theorem Kept.write_other [Inhabited β] (h : o.Kept f.nodes) {m : Nat}
    (hother : ∀ node ∈ f.nodes[m]?, node.opener ≠ o.writer) (offset : Nat) (piece : List β) :
    o.Kept (f.write m offset piece).nodes := by
  intro n node hnode hopener
  rw [OpenFiles.write_node] at hnode
  obtain ⟨before, hbefore, rfl⟩ := Option.map_eq_some_iff.1 hnode
  by_cases hn : m = n
  · subst hn
    rw [if_pos rfl] at hopener
    exact absurd hopener (hother before hbefore)
  · rw [if_neg hn] at hopener ⊢
    exact h n before hbefore hopener

end Output

end Staaash.Library
