import Staaash.Library.OrderedMap
import Staaash.Library.Runs

/-!
# Loading a list

`useContinuousList`: the list that a page of the browser shows, which grows by loads and starts over when
its query changes. A task is a function of the answers its loads have had; answers come at any time. A
render and its effects are one event, and keys stand for queries.
-/

namespace Staaash.Lists

open Staaash.Library

variable {Key Value : Type}

/-! ## Pages -/

/-- An item is its id and the rest of it. -/
structure ListPage (Value : Type) where
  items : List (String × Value)
  total : Nat

/-- The page grows by the next one, or the list has changed too much. -/
def appendPage (before next : ListPage Value) : Option (ListPage Value) :=
  let items := next.items.foldl (fun m item => m.set item.1 item.2) (OrderedMap.ofList before.items)
  if items.entries.length ≤ before.items.length && before.items.length < next.total then none
  else some ⟨items.entries, next.total⟩

/-- What a load asks for. -/
inductive Request
  | window (offset limit : Nat)
  | all
deriving DecidableEq, Repr

/-- How far a task has come. -/
inductive Reading (Value : Type)
  | asks (request : Request)
  | failed
  | finished (page : ListPage Value)

/-- The loop of `readPrefix`, with the answers to the loads to come; `none` is a load that fails. -/
def readOn (count : Nat) : ListPage Value → List (Option (ListPage Value)) → Reading Value
  | page, answers =>
    if page.items.length < min count page.total then
      match answers with
      | [] => .asks (.window page.items.length (min 1000 (count - page.items.length)))
      | none :: _ => .failed
      | some next :: answers =>
        match appendPage page next with
        | none => .failed
        | some page => readOn count page answers
    else .finished page

def readPrefix (count : Nat) : List (Option (ListPage Value)) → Reading Value
  | [] => .asks (.window 0 (min 1000 count))
  | none :: _ => .failed
  | some page :: answers => readOn count page answers

/-- What `execute` is called with. -/
inductive Spec (Value : Type)
  | firstItems (count : Nat)
  | append (before : ListPage Value)
  | all

def Spec.read : Spec Value → List (Option (ListPage Value)) → Reading Value
  | .firstItems count, answers => readPrefix count answers
  | .append before, [] => .asks (.window before.items.length 100)
  | .append before, some next :: _ =>
    match appendPage before next with
    | none => .failed
    | some page => .finished page
  | .all, [] => .asks .all
  | .all, some page :: _ => .finished page
  | _, none :: _ => .failed

/-! ## The hook -/

structure Task (Key Value : Type) where
  /-- The query of its loads. -/
  query : Key
  spec : Spec Value
  browsing : Bool
  generation : Nat
  answers : List (Option (ListPage Value))
  settled : Bool

structure Hook (Key Value : Type) where
  key : Key
  page : ListPage Value
  generation : Nat
  browsed : Nat
  /-- The task whose promise is pending. -/
  pending : Option Nat
  tasks : List (Task Key Value)
  error : Bool
  /-- The query of the render that the task was called in, and the task. -/
  retry : Option (Key × Spec Value × Bool)

namespace Hook

def start (key : Key) (initial : ListPage Value) : Hook Key Value :=
  { key, page := initial, generation := 0, browsed := initial.items.length, pending := none, tasks := []
    error := false, retry := none }

variable [DecidableEq Key] (s : Hook Key Value)

/-- `execute`, of a render with the query `key`. -/
def execute (key : Key) (spec : Spec Value) (browsing : Bool) : Hook Key Value :=
  if key ≠ s.key then s
  else if s.pending.isSome then s
  else
    { s with
      error := false
      retry := some (key, spec, browsing)
      pending := some s.tasks.length
      tasks := s.tasks ++ [⟨key, spec, browsing, s.generation, [], false⟩] }

/-- `current.current.generation++; pending.current = null;` -/
def invalidate : Hook Key Value := { s with generation := s.generation + 1, pending := none }

/-- A render with another query or other first items, its effects, and those that are cleaned up. -/
def rerender (key : Key) : Hook Key Value :=
  let s := s.invalidate
  let wanted := if s.key = key then max 100 s.browsed else 100
  let s := if s.key = key then s else { s with page := ⟨[], 0⟩, browsed := 0 }
  ({ s.invalidate with key } : Hook Key Value).execute key (.firstItems wanted) true

def reload : Hook Key Value := s.invalidate.execute s.key (.firstItems (max 100 s.browsed)) true

/-- `loadMore`, of a render with the query `key` and the error that it shows. -/
def loadMore (key : Key) (error : Bool) : Hook Key Value :=
  match error, s.retry with
  | true, some (key, spec, browsing) => s.execute key spec browsing
  | _, _ => if s.page.total ≤ s.page.items.length then s else s.execute key (.append s.page) true

/-- The callback of `useListHistory`. -/
def restore (key : Key) (count : Nat) : Hook Key Value :=
  if count ≤ s.page.items.length then { s with browsed := max s.browsed count }
  else s.execute key (.firstItems count) true

def browse (id : String) : Hook Key Value :=
  match s.page.items.findIdx? fun item => item.1 = id with
  | none => s
  | some position => if position < s.browsed then s else { s with browsed := position + 1 }

/-- A load of a task is answered. -/
def answer (i : Nat) (a : Option (ListPage Value)) : Hook Key Value :=
  { s with tasks := s.tasks.modify i fun task => { task with answers := task.answers ++ [a] } }

/-- The end of `run`, for a task that has come to one. -/
def settle (i : Nat) : Hook Key Value :=
  match s.tasks[i]? with
  | none => s
  | some task =>
    if task.settled then s
    else
      let ended := { s with tasks := s.tasks.modify i fun task => { task with settled := true } }
      match task.spec.read task.answers with
      | .asks _ => s
      | .finished page =>
        if task.generation ≠ s.generation then ended
        else
          { ended with
            page, pending := none
            browsed := if task.browsing then page.items.length else s.browsed }
      | .failed =>
        if task.generation ≠ s.generation then ended else { ended with error := true, pending := none }

inductive Event (Key Value : Type)
  | rerender (key : Key)
  | reload
  | loadMore (key : Key) (error : Bool)
  | loadAll (key : Key)
  | restore (key : Key) (count : Nat)
  | browse (id : String)
  | answer (task : Nat) (a : Option (ListPage Value))
  | settle (task : Nat)

def step : Event Key Value → Hook Key Value
  | .rerender key => s.rerender key
  | .reload => s.reload
  | .loadMore key error => s.loadMore key error
  | .loadAll key => s.execute key .all false
  | .restore key count => s.restore key count
  | .browse id => s.browse id
  | .answer i a => s.answer i a
  | .settle i => s.settle i

end Hook

/-! ## Lists that do not change -/

/-- The answer of a server whose list stays the same. -/
def pageOf (list : List (String × Value)) : Request → ListPage Value
  | .window offset limit => ⟨(list.drop offset).take limit, list.length⟩
  | .all => ⟨list, list.length⟩

/-- A page shows the first items of a list, and how many there are. -/
def Shows (list : List (String × Value)) (page : ListPage Value) : Prop :=
  page = ⟨list.take page.items.length, list.length⟩

/-- The answers to a task are the answers of a server whose list stays the same. -/
def Answered (list : List (String × Value)) (read : List (Option (ListPage Value)) → Reading Value)
    (answers : List (Option (ListPage Value))) : Prop :=
  ∀ older a newer, answers = older ++ some a :: newer → ∀ request, read older = .asks request →
    a = pageOf list request

/-- Every load that is answered with a page is answered with the page of its query's list. -/
def Hook.Honest (listOf : Key → List (String × Value)) (s : Hook Key Value) : Hook.Event Key Value → Prop
  | .answer i (some page) => ∀ task ∈ s.tasks[i]?, ∀ request,
      task.spec.read task.answers = .asks request → page = pageOf (listOf task.query) request
  | _ => True

end Staaash.Lists
