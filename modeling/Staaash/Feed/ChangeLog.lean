import Mathlib.Data.List.Basic
import Mathlib.Order.Basic

/-!
# The change log

The `StorageChange` table of `storage-changes.ts`: how a committing transaction appends to it, how
a client reads it page by page from a cursor, and how old rows are pruned. What a row says about an
item is of no concern here and stays a parameter.
-/

namespace Staaash.Feed

variable {α : Type}

/-- One row of the table. `createdAt` is a time in milliseconds, set by the transaction that wrote
the row. -/
structure Entry (α : Type) where
  seq : Nat
  ownerUserId : String
  createdAt : Int
  change : α
deriving DecidableEq, Repr

/-- The table, in the order of its primary key, and the last value its sequence has given out. -/
structure ChangeLog (α : Type) where
  rows : List (Entry α)
  lastSeq : Nat
  sorted : rows.Pairwise fun a b => a.seq < b.seq
  bounded : ∀ row ∈ rows, row.seq ≤ lastSeq

def ChangeLog.empty : ChangeLog α where
  rows := []
  lastSeq := 0
  sorted := List.Pairwise.nil
  bounded := by simp

/-! ## Appending -/

/-- What a transaction writes, before the sequence numbers it. -/
structure Draft (α : Type) where
  ownerUserId : String
  createdAt : Int
  change : α

/-- Consecutive sequence values from `seq + 1` on. -/
def number (seq : Nat) : List (Draft α) → List (Entry α)
  | [] => []
  | d :: ds => ⟨seq + 1, d.ownerUserId, d.createdAt, d.change⟩ :: number (seq + 1) ds

theorem number_above (seq : Nat) (ds : List (Draft α)) :
    ∀ row ∈ number seq ds, seq < row.seq ∧ row.seq ≤ seq + ds.length := by
  induction ds generalizing seq with
  | nil => simp [number]
  | cons d ds ih =>
    intro row hrow
    rw [number, List.mem_cons] at hrow
    rw [List.length_cons]
    rcases hrow with rfl | hrow
    · exact ⟨Nat.lt_succ_self seq, by show seq + 1 ≤ _; omega⟩
    · have := ih (seq + 1) row hrow
      omega

theorem number_sorted (seq : Nat) (ds : List (Draft α)) :
    (number seq ds).Pairwise fun a b => a.seq < b.seq := by
  induction ds generalizing seq with
  | nil => exact List.Pairwise.nil
  | cons d ds ih =>
    refine List.Pairwise.cons ?_ (ih (seq + 1))
    intro row hrow
    exact (number_above (seq + 1) ds row hrow).1

/-- The rows of one commit. The advisory lock is held until then, so they come after every row that
was ever visible; `skipped` counts the values lost to transactions that were rolled back. -/
def ChangeLog.append (log : ChangeLog α) (skipped : Nat) (ds : List (Draft α)) : ChangeLog α where
  rows := log.rows ++ number (log.lastSeq + skipped) ds
  lastSeq := log.lastSeq + skipped + ds.length
  sorted := by
    refine List.pairwise_append.2 ⟨log.sorted, number_sorted _ ds, ?_⟩
    intro a ha b hb
    have hle := log.bounded a ha
    have hlt := (number_above _ ds b hb).1
    omega
  bounded := by
    intro row hrow
    rcases List.mem_append.1 hrow with hrow | hrow
    · have := log.bounded row hrow
      omega
    · exact (number_above _ ds row hrow).2

/-! ## Reading -/

/-- The smallest sequence value in the table. -/
def ChangeLog.oldest (log : ChangeLog α) : Option Nat := log.rows.head?.map (·.seq)

/-- The largest sequence value in the table. -/
def ChangeLog.newest (log : ChangeLog α) : Option Nat := log.rows.getLast?.map (·.seq)

/-- The cursor for "everything up to now". -/
def currentStorageChangeCursor (log : ChangeLog α) : Nat := log.newest.getD 0

/-- The ways a read ends without a page. -/
inductive ReadError
  | expired
  /-- A page of no rows has no last row to continue from. -/
  | noLastRow
deriving DecidableEq, Repr

structure Page (α : Type) where
  changes : List (Entry α)
  hasMore : Bool
  cursor : Nat
deriving DecidableEq, Repr

/-- A cursor ahead of the head, or before the oldest kept row. -/
def outside (log : ChangeLog α) (after : Nat) : Bool :=
  decide (currentStorageChangeCursor log < after) ||
    match log.oldest with
    | none => false
    | some oldest => decide ((after : Int) < (oldest : Int) - 1)

def readStorageChanges (log : ChangeLog α) (ownerUserId : String) (after limit : Nat) :
    Except ReadError (Page α) :=
  let head := currentStorageChangeCursor log
  if outside log after then .error .expired
  else
    let rows := (log.rows.filter fun row =>
      row.ownerUserId = ownerUserId && decide (after < row.seq) && decide (row.seq ≤ head)).take
        (limit + 1)
    let changes := rows.take limit
    if rows.length > limit then
      match changes.getLast? with
      | some last => .ok { changes, hasMore := true, cursor := last.seq }
      | none => .error .noLastRow
    else .ok { changes, hasMore := false, cursor := if head > after then head else after }

/-! ## Pruning -/

/-- `STORAGE_CHANGE_RETENTION_DAYS`, in milliseconds. -/
def retentionMs : Int := 90 * 86400000

/-- The rows that `deleteMany` selects: `newest` was read by a statement of its own before. -/
def prunable (newest : Nat) (now : Int) (row : Entry α) : Bool :=
  decide (row.seq < newest) && decide (row.createdAt < now - retentionMs)

/-- The second statement of `pruneStorageChanges`. -/
def ChangeLog.deleteMany (log : ChangeLog α) (newest : Nat) (now : Int) : ChangeLog α where
  rows := log.rows.filter fun row => !prunable newest now row
  lastSeq := log.lastSeq
  sorted := log.sorted.filter _
  bounded := fun row hrow => log.bounded row (List.mem_filter.1 hrow).1

/-! ## A client that follows the log -/

structure Client (α : Type) where
  start : Nat
  cursor : Nat
  received : List (Entry α)
  expired : Bool

/-- The log, every row that was ever appended to it, the prunes that have read the newest row and
not deleted yet, and one client. -/
structure System (α : Type) where
  log : ChangeLog α
  history : List (Entry α)
  pruning : List Nat
  client : Option (Client α)

inductive Event (α : Type)
  /-- A transaction commits. -/
  | append (skipped : Nat) (ds : List (Draft α))
  /-- `pruneStorageChanges` reads the newest row. -/
  | pruneRead
  /-- The prune that read `newest` deletes; `now` is its clock. -/
  | pruneDelete (newest : Nat) (now : Int)
  /-- The client starts at a cursor that is inside the log. -/
  | start (after : Nat)
  /-- The client reads its next page. -/
  | read (limit : Nat)

/-- The client keeps the page and its cursor, or learns that its cursor expired. Any other error
leaves it where it was. -/
def Client.receive (c : Client α) : Except ReadError (Page α) → Client α
  | .ok page => { c with cursor := page.cursor, received := c.received ++ page.changes }
  | .error .expired => { c with expired := true }
  | .error .noLastRow => c

variable (ownerUserId : String)

def System.step (s : System α) : Event α → System α
  | .append skipped ds =>
    { s with
      log := s.log.append skipped ds
      history := s.history ++ number (s.log.lastSeq + skipped) ds }
  | .pruneRead =>
    match s.log.newest with
    | none => s
    | some newest => { s with pruning := newest :: s.pruning }
  | .pruneDelete newest now =>
    if newest ∈ s.pruning then
      { s with log := s.log.deleteMany newest now, pruning := s.pruning.erase newest }
    else s
  | .start after =>
    if outside s.log after then s
    else { s with client := some ⟨after, after, [], false⟩ }
  | .read limit =>
    match s.client with
    | none => s
    | some c =>
      if c.expired then s
      else { s with client := some (c.receive (readStorageChanges s.log ownerUserId c.cursor limit)) }

def System.init : System α where
  log := .empty
  history := []
  pruning := []
  client := none

def System.run (s : System α) (events : List (Event α)) : System α :=
  events.foldl (System.step ownerUserId) s

/-! ## What a client is promised -/

/-- The owner's changes after `start`, up to and including `stop`. -/
def changesBetween (history : List (Entry α)) (start stop : Nat) : List (Entry α) :=
  history.filter fun row =>
    row.ownerUserId = ownerUserId && decide (start < row.seq) && decide (row.seq ≤ stop)

/-- What the client has received are the owner's changes up to its cursor, each once and in order;
and the page it would read now goes on from there, as far as the log reaches if it is the last one,
and further than the cursor if it is not. -/
def NeverSkips (s : System α) : Prop :=
  ∀ c, s.client = some c →
    c.received = changesBetween ownerUserId s.history c.start c.cursor ∧
    ∀ limit page, readStorageChanges s.log ownerUserId c.cursor limit = .ok page →
      c.received ++ page.changes = changesBetween ownerUserId s.history c.start page.cursor ∧
      (page.hasMore = true → c.cursor < page.cursor) ∧
      (page.hasMore = false → ∀ row ∈ s.history, row.seq ≤ page.cursor)

/-- The rows a prune selects come before the ones it keeps. -/
def PrunesFromTheStart (log : ChangeLog α) (newest : Nat) (now : Int) : Prop :=
  ∀ row ∈ log.rows, prunable newest now row = true →
    ∀ earlier ∈ log.rows, earlier.seq < row.seq → prunable newest now earlier = true

instance (log : ChangeLog α) (newest : Nat) (now : Int) :
    Decidable (PrunesFromTheStart log newest now) :=
  inferInstanceAs (Decidable (∀ row ∈ log.rows, prunable newest now row = true →
    ∀ earlier ∈ log.rows, earlier.seq < row.seq → prunable newest now earlier = true))

/-- If the event deletes, it deletes from the start of the log. -/
def KeepsTheEnd (s : System α) : Event α → Prop
  | .pruneDelete newest now => newest ∈ s.pruning → PrunesFromTheStart s.log newest now
  | _ => True

instance (s : System α) (e : Event α) : Decidable (KeepsTheEnd s e) :=
  match e with
  | .pruneDelete newest now =>
    inferInstanceAs (Decidable (newest ∈ s.pruning → PrunesFromTheStart s.log newest now))
  | .append _ _ | .pruneRead | .start _ | .read _ => isTrue trivial

/-- Every prune of the run deletes from the start of the log. -/
def PrunedFromTheStart : System α → List (Event α) → Prop
  | _, [] => True
  | s, e :: es => KeepsTheEnd s e ∧ PrunedFromTheStart (s.step ownerUserId e) es

instance decidablePrunedFromTheStart : (s : System α) → (events : List (Event α)) →
    Decidable (PrunedFromTheStart ownerUserId s events)
  | _, [] => isTrue trivial
  | s, e :: es =>
    haveI := decidablePrunedFromTheStart (s.step ownerUserId e) es
    inferInstanceAs (Decidable (KeepsTheEnd s e ∧ _))

end Staaash.Feed
