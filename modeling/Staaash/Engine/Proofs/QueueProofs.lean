import Mathlib.Data.List.Nodup
import Mathlib.Data.List.Range
import Staaash.Engine.Queue

/-!
# Proofs: the sync engine's queue

What an event can do to the queue is said once, as a turn. Works are settled one at a time and in order, a
call of `syncNow` waits for a pass that has not begun, and an engine at rest has a wake-up ahead.
-/

namespace Staaash.Engine

open Staaash.Library

/-- The stages of a work. -/
def Stage.isOf : Stage → Work → Bool
  | .settings, .settings => true
  | .choice, .choice => true
  | .pulling _, .pass => true
  | .syncing _ _ _ _, .pass => true
  | .asking _ _ _ _, .pass => true
  | .closing, .close => true
  | _, _ => false

theorem Stage.closing_iff {stage : Stage} {w : Work} (hstage : stage.isOf w = true) :
    stage = .closing ↔ w = .close := by
  cases stage <;> cases w <;> simp_all [Stage.isOf]

namespace SyncEngine

variable {s : SyncEngine} {n m : Nat}

/-! ## Turns -/

/-- What the queue consists of. -/
structure Line where
  asked : Nat
  settled : List Nat
  begun : List Nat
  running : Option (Nat × Stage)
  queue : List (Nat × Work)
  stopped : Bool
  passWaiting : Option Nat
  closed : Nat

def line (s : SyncEngine) : Line :=
  ⟨s.asked, s.settled, s.begun, s.running, s.queue, s.stopped, s.passWaiting, s.closed⟩

/-- What one event can do to the queue. -/
inductive Turn (l : Line) : Line → Prop
  | idle : Turn l l
  | asks (w : Work) (hw : w ≠ .pass) (hclose : w ≠ .close) :
    Turn l { l with queue := l.queue ++ [(l.asked, w)], asked := l.asked + 1 }
  | asksPass (hnone : l.passWaiting = none) :
    Turn l { l with
      queue := l.queue ++ [(l.asked, .pass)], asked := l.asked + 1, passWaiting := some l.asked }
  | stops (hopen : l.stopped = false) :
    Turn l { l with queue := l.queue ++ [(l.asked, .close)], asked := l.asked + 1, stopped := true }
  | refuses (n : Nat) (w : Work) (rest : List (Nat × Work)) (hidle : l.running = none)
    (hfirst : l.queue = (n, w) :: rest) (hstopped : l.stopped = true) (hw : w ≠ .close) :
    Turn l { l with queue := rest, settled := l.settled ++ [n], running := none }
  | begins (n : Nat) (w : Work) (rest : List (Nat × Work)) (stage : Stage) (hidle : l.running = none)
    (hfirst : l.queue = (n, w) :: rest) (hopen : l.stopped = true → w = .close)
    (hstage : stage.isOf w = true) :
    Turn l { l with
      queue := rest, begun := l.begun ++ [n], running := some (n, stage)
      passWaiting := if w = .pass then none else l.passWaiting }
  | returns (n : Nat) (rest : List (Nat × Work)) (hidle : l.running = none)
    (hfirst : l.queue = (n, .pass) :: rest) (hopen : l.stopped = false) :
    Turn l { l with
      queue := rest, begun := l.begun ++ [n], settled := l.settled ++ [n], running := none
      passWaiting := none }
  | goesOn (n : Nat) (w : Work) (stage stage' : Stage) (hrunning : l.running = some (n, stage))
    (hstage : stage.isOf w = true) (hstage' : stage'.isOf w = true) :
    Turn l { l with running := some (n, stage') }
  | ends (n : Nat) (stage : Stage) (hrunning : l.running = some (n, stage)) :
    Turn l { l with
      running := none, settled := l.settled ++ [n]
      closed := if stage = .closing then l.closed + 1 else l.closed }

theorem line_request (s : SyncEngine) (delay : Nat) : (s.request delay).line = s.line := by
  unfold request
  split_ifs <;> rfl

theorem line_endPass (s : SyncEngine) (n : Nat) (retrySoon pullAgain : Bool) :
    (s.endPass n retrySoon pullAgain).line =
      { s.line with running := none, settled := s.settled ++ [n] } := by
  unfold endPass request
  dsimp only
  split_ifs <;> rfl

/-- A pass ends, or goes on with a pair. -/
theorem line_nextPair (s : SyncEngine) (n : Nat) (config : Config) (rest : List SyncPair)
    (retrySoon pullAgain : Bool) :
    (s.nextPair n config rest retrySoon pullAgain).line =
        { s.line with running := none, settled := s.settled ++ [n] } ∨
      ∃ rest', (s.nextPair n config rest retrySoon pullAgain).line =
        { s.line with running := some (n, .syncing config rest' retrySoon pullAgain) } := by
  unfold nextPair
  cases rest with
  | nil => exact .inl (line_endPass ..)
  | cons pair rest =>
    dsimp only
    split_ifs with hconfig
    · exact .inl (line_endPass ..)
    · exact .inr ⟨rest, rfl⟩

theorem turn_of_ends {t : SyncEngine} {stage : Stage} (hrunning : s.running = some (n, stage))
    (hstage : stage ≠ .closing)
    (ht : t.line = { s.line with running := none, settled := s.settled ++ [n] }) :
    Turn s.line t.line := by
  have hend := Turn.ends (l := s.line) n stage hrunning
  rw [if_neg hstage] at hend
  rw [ht]
  exact hend

/-- A pass goes on to its pairs, or ends. -/
theorem turn_of_nextPair {s' : SyncEngine} {stage : Stage} {config : Config} {rest : List SyncPair}
    {retrySoon pullAgain : Bool} (hrunning : s.running = some (n, stage))
    (hstage : stage.isOf .pass = true) (hline : s'.line = s.line) :
    Turn s.line (s'.nextPair n config rest retrySoon pullAgain).line := by
  have hclosing : stage ≠ .closing := by
    rintro rfl
    cases hstage
  have hsettled : s'.settled = s.settled := congrArg Line.settled hline
  obtain hend | ⟨rest', hgo⟩ := line_nextPair s' n config rest retrySoon pullAgain
  · rw [hline, hsettled] at hend
    exact turn_of_ends hrunning hclosing hend
  · rw [hgo, hline]
    exact Turn.goesOn n .pass stage _ hrunning hstage rfl

theorem turn_advance (s : SyncEngine) (answer : Answer) : Turn s.line (s.advance answer).line := by
  unfold advance
  split
  case h_1 n ok hrunning => exact turn_of_ends hrunning (by simp) rfl
  case h_2 n ok asks hrunning =>
    refine turn_of_ends hrunning (by simp) ?_
    cases asks
    · rfl
    · exact congrArg (fun l : Line => { l with running := none, settled := l.settled ++ [n] })
        (line_request s 0)
  case h_3 n config hrunning =>
    split_ifs with hconfig
    · exact turn_of_ends hrunning (by simp) rfl
    · exact turn_of_nextPair hrunning rfl rfl
  case h_4 n config hrunning =>
    exact turn_of_ends hrunning (by simp) (line_endPass ..)
  case h_5 n config hrunning =>
    split_ifs with hstopped
    · exact turn_of_ends hrunning (by simp) (line_endPass ..)
    · exact Turn.goesOn n .pass _ _ hrunning rfl rfl
  case h_6 n config rest retrySoon pullAgain soon again hrunning =>
    exact turn_of_nextPair hrunning rfl rfl
  case h_7 n config rest retrySoon pullAgain hrunning =>
    exact turn_of_ends hrunning (by simp) (line_endPass ..)
  case h_8 n config rest retrySoon pullAgain hrunning =>
    split_ifs with hstopped
    · exact turn_of_ends hrunning (by simp) (line_endPass ..)
    · exact Turn.goesOn n .pass _ _ hrunning rfl rfl
  case h_9 n config rest retrySoon pullAgain ok hrunning =>
    cases rest with
    | none => exact turn_of_ends hrunning (by simp) (line_endPass ..)
    | some rest =>
      cases ok
      · exact turn_of_ends hrunning (by simp) (line_endPass ..)
      · exact turn_of_nextPair hrunning rfl rfl
  case h_10 n hrunning => exact Turn.ends (l := s.line) n .closing hrunning
  case h_11 => exact Turn.idle

theorem turn_start (s : SyncEngine) : Turn s.line s.start.line := by
  unfold start
  split
  case h_2 => exact Turn.idle
  case h_1 n work queue hidle hfirst =>
    dsimp only
    split_ifs with hstopped
    · obtain ⟨hstopped, hwork⟩ := Bool.and_eq_true_iff.1 hstopped
      exact Turn.refuses (l := s.line) n work queue hidle hfirst hstopped (of_decide_eq_true hwork)
    · have hopen : s.stopped = true → work = .close := by
        intro h
        by_contra hwork
        exact hstopped (Bool.and_eq_true_iff.2 ⟨h, decide_eq_true hwork⟩)
      cases work with
      | pass =>
        have hnot : s.stopped = false := by
          rw [← Bool.not_eq_true]
          intro h
          cases hopen h
        have hreturn := Turn.returns (l := s.line) n queue hidle hfirst hnot
        have hbegin := fun config =>
          Turn.begins (l := s.line) n .pass queue (.pulling config) hidle hfirst hopen rfl
        unfold pass
        dsimp only
        cases hconfig : s.config with
        | none => exact hreturn
        | some config =>
          dsimp only
          split_ifs
          · exact hreturn
          · exact hreturn
          · exact hbegin config
      | settings => exact Turn.begins (l := s.line) n .settings queue _ hidle hfirst hopen rfl
      | choice => exact Turn.begins (l := s.line) n .choice queue _ hidle hfirst hopen rfl
      | close => exact Turn.begins (l := s.line) n .close queue _ hidle hfirst hopen rfl

theorem turn_configure (s : SyncEngine) (config : Config) : Turn s.line (s.configure config).line := by
  unfold configure
  dsimp only
  split_ifs
  · exact Turn.idle
  · exact Turn.idle
  · exact Turn.asks (l := s.line) .settings (by simp) (by simp)
  · exact Turn.asks (l := s.line) .settings (by simp) (by simp)

theorem turn_syncNow (s : SyncEngine) : Turn s.line s.syncNow.1.line := by
  unfold syncNow
  cases hwaiting : s.passWaiting with
  | none => exact Turn.asksPass (l := s.line) hwaiting
  | some n => exact Turn.idle

theorem turn_step (s : SyncEngine) (e : Event) : Turn s.line (s.step e).line := by
  cases e with
  | configure config => exact turn_configure s config
  | watched =>
    simp only [step]
    split_ifs
    · exact Turn.asks (l := s.line) .settings (by simp) (by simp)
    · exact Turn.idle
  | goesOn =>
    simp only [step]
    split_ifs
    · rw [line_request]
      exact Turn.idle
    · exact Turn.idle
  | changed =>
    simp only [step, line_request]
    exact Turn.idle
  | asked =>
    simp only [step, line_request]
    exact Turn.idle
  | choose => exact Turn.asks (l := s.line) .choice (by simp) (by simp)
  | liveUpdate =>
    simp only [step, line_request]
    exact Turn.idle
  | liveEnds => exact Turn.idle
  | refused => exact Turn.idle
  | stop =>
    simp only [step, stop]
    split_ifs with hstopped
    · exact Turn.idle
    · exact Turn.stops (l := s.line) (Bool.not_eq_true _ ▸ hstopped)
  | fire =>
    simp only [step]
    cases htimer : s.timer with
    | none => exact Turn.idle
    | some due =>
      dsimp only
      split_ifs
      · exact turn_syncNow { s with timer := none }
      · exact Turn.idle
  | start => exact turn_start s
  | advance answer => exact turn_advance s answer
  | tick ms => exact Turn.idle

/-! ## Works in turn -/

namespace Line

variable {l l' : Line}

/-- The works that have had their turn, oldest first, and the one that has it. -/
def turned (l : Line) : List Nat := l.settled ++ l.running.toList.map Prod.fst

def inOrder (l : Line) : List Nat := l.turned ++ l.queue.map Prod.fst

/-- The invariant of the queue. -/
structure InTurn (l : Line) : Prop where
  order : l.inOrder = List.range l.asked
  begun : l.begun.Sublist l.turned
  waits : ∀ n, l.passWaiting = some n → (n, .pass) ∈ l.queue ∨ l.stopped = true ∧ n ∈ l.settled
  pass : ∀ n, (n, .pass) ∈ l.queue → l.passWaiting = some n

theorem InTurn.nodup (h : l.InTurn) : l.inOrder.Nodup := h.order ▸ List.nodup_range

theorem mem_queue_of_cons {w : Work} {rest : List (Nat × Work)} (hfirst : l.queue = (n, w) :: rest) :
    (n, w) ∈ l.queue := by
  rw [hfirst]
  exact List.mem_cons_self

theorem inOrder_of_cons {w : Work} {rest : List (Nat × Work)} (hidle : l.running = none)
    (hfirst : l.queue = (n, w) :: rest) : l.inOrder = l.settled ++ [n] ++ rest.map Prod.fst := by
  unfold inOrder turned
  rw [hidle, hfirst]
  simp

theorem mem_append_entry {queue : List (Nat × Work)} {v w : Work} (hin : (n, v) ∈ queue ++ [(m, w)]) :
    (n, v) ∈ queue ∨ n = m ∧ v = w := by
  obtain hin | heq := List.mem_append.1 hin
  · exact .inl hin
  · exact .inr (Prod.mk.inj (List.mem_singleton.1 heq))

theorem inOrder_asks (h : l.InTurn) (w : Work) :
    l.turned ++ (l.queue ++ [(l.asked, w)]).map Prod.fst = List.range (l.asked + 1) := by
  rw [List.map_append, ← List.append_assoc, List.range_succ, ← h.order]
  rfl

theorem inTurn_asks (h : l.InTurn) {w : Work} (hw : w ≠ .pass) :
    InTurn { l with queue := l.queue ++ [(l.asked, w)], asked := l.asked + 1 } where
  order := inOrder_asks h w
  begun := h.begun
  waits n hn := (h.waits n hn).imp_left fun hin => List.mem_append_left _ hin
  pass n hn := by
    obtain hin | ⟨-, heq⟩ := mem_append_entry hn
    · exact h.pass n hin
    · exact absurd heq.symm hw

theorem inTurn_asksPass (h : l.InTurn) (hnone : l.passWaiting = none) :
    InTurn { l with
      queue := l.queue ++ [(l.asked, .pass)], asked := l.asked + 1, passWaiting := some l.asked } where
  order := inOrder_asks h .pass
  begun := h.begun
  waits n hn := by
    obtain rfl := Option.some.inj hn
    exact .inl (List.mem_append_right _ List.mem_cons_self)
  pass n hn := by
    obtain hin | ⟨rfl, -⟩ := mem_append_entry hn
    · have hsome := h.pass n hin
      rw [hnone] at hsome
      cases hsome
    · rfl

theorem inTurn_stops (h : l.InTurn) (hopen : l.stopped = false) :
    InTurn { l with queue := l.queue ++ [(l.asked, .close)], asked := l.asked + 1, stopped := true } where
  order := inOrder_asks h .close
  begun := h.begun
  waits n hn := by
    obtain hin | ⟨hstopped, -⟩ := h.waits n hn
    · exact .inl (List.mem_append_left _ hin)
    · rw [hopen] at hstopped
      cases hstopped
  pass n hn := by
    obtain hin | ⟨-, heq⟩ := mem_append_entry hn
    · exact h.pass n hin
    · cases heq

theorem inTurn_refuses (h : l.InTurn) {w : Work} {rest : List (Nat × Work)} (hidle : l.running = none)
    (hfirst : l.queue = (n, w) :: rest) (hstopped : l.stopped = true) :
    InTurn { l with queue := rest, settled := l.settled ++ [n], running := none } where
  order := by
    rw [← h.order, inOrder_of_cons hidle hfirst]
    simp [inOrder, turned]
  begun := by
    refine h.begun.trans ?_
    simp [turned, hidle]
  waits m hm := by
    obtain hin | ⟨-, hsettled⟩ := h.waits m hm
    · rw [hfirst] at hin
      obtain heq | hin := List.mem_cons.1 hin
      · obtain ⟨rfl, -⟩ := Prod.mk.inj heq
        exact .inr ⟨hstopped, List.mem_append_right _ List.mem_cons_self⟩
      · exact .inl hin
    · exact .inr ⟨hstopped, List.mem_append_left _ hsettled⟩
  pass m hm := h.pass m (hfirst ▸ List.mem_cons_of_mem _ hm)

/-- The work at the head of the queue is not among the others. -/
theorem InTurn.notMem_rest (h : l.InTurn) {v w : Work} {rest : List (Nat × Work)}
    (hfirst : l.queue = (n, w) :: rest) : (n, v) ∉ rest := by
  intro hin
  have hnodup : (l.queue.map Prod.fst).Nodup := (List.nodup_append.1 h.nodup).2.1
  rw [hfirst, List.map_cons, List.nodup_cons] at hnodup
  exact hnodup.1 (List.mem_map.2 ⟨(n, v), hin, rfl⟩)

theorem inTurn_begins (h : l.InTurn) {w : Work} {rest : List (Nat × Work)} {stage : Stage}
    (hidle : l.running = none) (hfirst : l.queue = (n, w) :: rest) :
    InTurn { l with
      queue := rest, begun := l.begun ++ [n], running := some (n, stage)
      passWaiting := if w = .pass then none else l.passWaiting } where
  order := by
    rw [← h.order, inOrder_of_cons hidle hfirst]
    simp [inOrder, turned]
  begun := by
    have hsub := h.begun
    unfold turned at hsub
    rw [hidle, Option.toList_none, List.map_nil, List.append_nil] at hsub
    exact hsub.append (List.Sublist.refl [n])
  waits m hm := by
    by_cases hw : w = .pass
    · rw [if_pos hw] at hm
      cases hm
    · rw [if_neg hw] at hm
      obtain hin | hsettled := h.waits m hm
      · rw [hfirst] at hin
        obtain heq | hin := List.mem_cons.1 hin
        · exact absurd (Prod.mk.inj heq).2.symm hw
        · exact .inl hin
      · exact .inr hsettled
  pass m hm := by
    have hwaiting := h.pass m (hfirst ▸ List.mem_cons_of_mem _ hm)
    by_cases hw : w = .pass
    · subst hw
      -- Only one pass waits, and this one has gone.
      have hfirstWaiting := h.pass n (mem_queue_of_cons hfirst)
      obtain rfl : n = m := Option.some.inj (hfirstWaiting.symm.trans hwaiting)
      exact absurd hm (h.notMem_rest hfirst)
    · rw [if_neg hw]
      exact hwaiting

theorem inTurn_returns (h : l.InTurn) {rest : List (Nat × Work)} (hidle : l.running = none)
    (hfirst : l.queue = (n, .pass) :: rest) :
    InTurn { l with
      queue := rest, begun := l.begun ++ [n], settled := l.settled ++ [n], running := none
      passWaiting := none } where
  order := by
    rw [← h.order, inOrder_of_cons hidle hfirst]
    simp [inOrder, turned]
  begun := by
    have hsub := h.begun
    unfold turned at hsub ⊢
    rw [hidle, Option.toList_none, List.map_nil, List.append_nil] at hsub
    rw [Option.toList_none, List.map_nil, List.append_nil]
    exact hsub.append (List.Sublist.refl [n])
  waits m hm := by cases hm
  pass m hm := by
    have hwaiting := h.pass m (hfirst ▸ List.mem_cons_of_mem _ hm)
    have hfirstWaiting := h.pass n (mem_queue_of_cons hfirst)
    obtain rfl : n = m := Option.some.inj (hfirstWaiting.symm.trans hwaiting)
    exact absurd hm (h.notMem_rest hfirst)

theorem inTurn_goesOn (h : l.InTurn) {stage stage' : Stage} (hrunning : l.running = some (n, stage)) :
    InTurn { l with running := some (n, stage') } := by
  have hturned : turned { l with running := some (n, stage') } = l.turned := by
    unfold turned
    rw [hrunning]
    rfl
  refine ⟨?_, ?_, h.waits, h.pass⟩
  · unfold inOrder
    rw [hturned]
    exact h.order
  · rw [hturned]
    exact h.begun

theorem inTurn_ends (h : l.InTurn) {stage : Stage} (hrunning : l.running = some (n, stage)) :
    InTurn { l with
      running := none, settled := l.settled ++ [n]
      closed := if stage = .closing then l.closed + 1 else l.closed } := by
  have hturned : l.settled ++ [n] = l.turned := by
    unfold turned
    rw [hrunning]
    rfl
  refine ⟨?_, ?_, fun m hm => ?_, h.pass⟩
  · rw [← h.order]
    unfold inOrder turned
    rw [hrunning]
    simp
  · have hsub := h.begun
    rw [← hturned] at hsub
    unfold turned
    simpa using hsub
  · exact (h.waits m hm).imp_right fun ⟨hstopped, hsettled⟩ => ⟨hstopped, List.mem_append_left _ hsettled⟩

theorem InTurn.turn (h : l.InTurn) (hturn : Turn l l') : l'.InTurn := by
  cases hturn with
  | idle => exact h
  | asks w hw _ => exact inTurn_asks h hw
  | asksPass hnone => exact inTurn_asksPass h hnone
  | stops hopen => exact inTurn_stops h hopen
  | refuses n w rest hidle hfirst hstopped _ => exact inTurn_refuses h hidle hfirst hstopped
  | begins n w rest stage hidle hfirst _ _ => exact inTurn_begins h hidle hfirst
  | returns n rest hidle hfirst _ => exact inTurn_returns h hidle hfirst
  | goesOn n w stage stage' hrunning _ _ => exact inTurn_goesOn h hrunning
  | ends n stage hrunning => exact inTurn_ends h hrunning

/-! ## The end of the store -/

/-- The store is to be closed by the work `n`, is being closed by it, or was closed by it. -/
inductive Shuts (l : Line) (n : Nat) : Prop
  | waits (hin : (n, .close) ∈ l.queue) (hstage : ∀ m, l.running ≠ some (m, .closing)) (hclosed : l.closed = 0)
  | runs (hrunning : l.running = some (n, .closing)) (hclosed : l.closed = 0)
  | closed (hrunning : l.running = none) (hsettled : n ∈ l.settled) (hclosed : l.closed = 1)

structure ShutBy (l : Line) (n : Nat) : Prop where
  shuts : l.Shuts n
  only : ∀ m, (m, .close) ∈ l.queue → m = n ∧ l.closed = 0 ∧ ∀ k, l.running ≠ some (k, .closing)

structure Unshut (l : Line) : Prop where
  closed : l.closed = 0
  queue : ∀ n, (n, .close) ∉ l.queue
  running : ∀ n, l.running ≠ some (n, .closing)

theorem Unshut.turn (h : l.Unshut) (hturn : Turn l l') (hopen : l'.stopped = false) : l'.Unshut := by
  obtain ⟨hclosed, hqueue, hrunning⟩ := h
  cases hturn with
  | idle => exact ⟨hclosed, hqueue, hrunning⟩
  | asks w hw hclose =>
    refine ⟨hclosed, fun n hn => ?_, hrunning⟩
    obtain hin | ⟨-, heq⟩ := mem_append_entry hn
    · exact hqueue n hin
    · exact hclose heq.symm
  | asksPass hnone =>
    refine ⟨hclosed, fun n hn => ?_, hrunning⟩
    obtain hin | ⟨-, heq⟩ := mem_append_entry hn
    · exact hqueue n hin
    · cases heq
  | stops _ => cases hopen
  | refuses n w rest hidle hfirst hstopped hw =>
    exact ⟨hclosed, fun m hm => hqueue m (hfirst ▸ List.mem_cons_of_mem _ hm), by simp⟩
  | begins n w rest stage hidle hfirst _ hstage =>
    refine ⟨hclosed, fun m hm => hqueue m (hfirst ▸ List.mem_cons_of_mem _ hm), fun m hm => ?_⟩
    obtain ⟨-, hclosing⟩ := Prod.mk.inj (Option.some.inj hm)
    obtain rfl := (Stage.closing_iff hstage).1 hclosing
    exact hqueue n (mem_queue_of_cons hfirst)
  | returns n rest hidle hfirst _ =>
    exact ⟨hclosed, fun m hm => hqueue m (hfirst ▸ List.mem_cons_of_mem _ hm), by simp⟩
  | goesOn n w stage stage' hruns hstage hstage' =>
    refine ⟨hclosed, hqueue, fun m hm => ?_⟩
    obtain ⟨-, hclosing⟩ := Prod.mk.inj (Option.some.inj hm)
    have hwas := (Stage.closing_iff hstage).2 ((Stage.closing_iff hstage').1 hclosing)
    exact hrunning n (by rw [hruns, hwas])
  | ends n stage hruns =>
    have hstage : stage ≠ .closing := by
      rintro rfl
      exact hrunning n hruns
    exact ⟨by rw [if_neg hstage]; exact hclosed, hqueue, by simp⟩

theorem Unshut.stops (h : l.Unshut) :
    ShutBy { l with queue := l.queue ++ [(l.asked, .close)], asked := l.asked + 1, stopped := true }
      l.asked := by
  refine ⟨.waits (List.mem_append_right _ List.mem_cons_self) h.running h.closed, fun m hm => ?_⟩
  obtain hin | ⟨rfl, -⟩ := mem_append_entry hm
  · exact absurd hin (h.queue m)
  · exact ⟨rfl, h.closed, h.running⟩

/-- Once the engine is stopped nothing begins but the work that closes the store. -/
theorem ShutBy.turn (h : l.ShutBy n) (hturns : l.InTurn) (hstopped : l.stopped = true) (hturn : Turn l l') :
    l'.stopped = true ∧ l'.ShutBy n ∧ ∀ k ∈ l'.begun, k ∈ l.begun ∨ k = n := by
  obtain ⟨hshuts, honly⟩ := h
  cases hturn with
  | idle => exact ⟨hstopped, ⟨hshuts, honly⟩, fun k hk => .inl hk⟩
  | asks w hw hclose =>
    refine ⟨hstopped, ⟨?_, fun m hm => ?_⟩, fun k hk => .inl hk⟩
    · cases hshuts with
      | waits hin hstage hclosed => exact .waits (List.mem_append_left _ hin) hstage hclosed
      | runs hrunning hclosed => exact .runs hrunning hclosed
      | closed hrunning hsettled hclosed => exact .closed hrunning hsettled hclosed
    · obtain hin | ⟨-, heq⟩ := mem_append_entry hm
      · exact honly m hin
      · exact absurd heq.symm hclose
  | asksPass hnone =>
    refine ⟨hstopped, ⟨?_, fun m hm => ?_⟩, fun k hk => .inl hk⟩
    · cases hshuts with
      | waits hin hstage hclosed => exact .waits (List.mem_append_left _ hin) hstage hclosed
      | runs hrunning hclosed => exact .runs hrunning hclosed
      | closed hrunning hsettled hclosed => exact .closed hrunning hsettled hclosed
    · obtain hin | ⟨-, heq⟩ := mem_append_entry hm
      · exact honly m hin
      · cases heq
  | stops hopen =>
    rw [hstopped] at hopen
    cases hopen
  | refuses m w rest hidle hfirst _ hw =>
    refine ⟨hstopped, ⟨?_, fun k hk => ?_⟩, fun k hk => .inl hk⟩
    · cases hshuts with
      | waits hin hstage hclosed =>
        rw [hfirst] at hin
        obtain heq | hin := List.mem_cons.1 hin
        · exact absurd (Prod.mk.inj heq).2.symm hw
        · exact .waits hin (by simp) hclosed
      | runs hrunning hclosed =>
        rw [hidle] at hrunning
        cases hrunning
      | closed hrunning hsettled hclosed => exact .closed rfl (List.mem_append_left _ hsettled) hclosed
    · obtain ⟨heq, hclosed, -⟩ := honly k (hfirst ▸ List.mem_cons_of_mem _ hk)
      exact ⟨heq, hclosed, by simp⟩
  | begins m w rest stage hidle hfirst hopen hstage =>
    obtain rfl := hopen hstopped
    obtain ⟨rfl, hclosed, -⟩ := honly m (mem_queue_of_cons hfirst)
    have hclosing := (Stage.closing_iff hstage).2 rfl
    subst hclosing
    refine ⟨hstopped, ⟨.runs rfl hclosed, fun k hk => ?_⟩, fun k hk => ?_⟩
    · obtain ⟨rfl, -, -⟩ := honly k (hfirst ▸ List.mem_cons_of_mem _ hk)
      exact absurd hk (hturns.notMem_rest hfirst)
    · exact (List.mem_append.1 hk).imp_right List.mem_singleton.1
  | returns m rest hidle hfirst hopen =>
    rw [hstopped] at hopen
    cases hopen
  | goesOn m w stage stage' hruns hstage hstage' =>
    have hsame : stage = .closing ↔ stage' = .closing :=
      (Stage.closing_iff hstage).trans (Stage.closing_iff hstage').symm
    have hnot : ∀ k, l.running ≠ some (k, .closing) → some (m, stage') ≠ some (k, .closing) := by
      rintro k hne heq
      obtain ⟨rfl, hclosing⟩ := Prod.mk.inj (Option.some.inj heq)
      exact hne (by rw [hruns, hsame.2 hclosing])
    refine ⟨hstopped, ⟨?_, fun k hk => ?_⟩, fun k hk => .inl hk⟩
    · cases hshuts with
      | waits hin hne hclosed => exact .waits hin (fun k => hnot k (hne k)) hclosed
      | runs hrunning hclosed =>
        obtain ⟨rfl, heq⟩ := Prod.mk.inj (Option.some.inj (hruns.symm.trans hrunning))
        exact .runs (by rw [hsame.1 heq]) hclosed
      | closed hrunning _ _ =>
        rw [hruns] at hrunning
        cases hrunning
    · obtain ⟨heq, hclosed, hne⟩ := honly k hk
      exact ⟨heq, hclosed, fun k => hnot k (hne k)⟩
  | ends m stage hruns =>
    have hkept : (∀ k, l.running ≠ some (k, .closing)) → stage ≠ .closing := by
      rintro hne rfl
      exact hne m hruns
    refine ⟨hstopped, ⟨?_, fun k hk => ?_⟩, fun k hk => .inl hk⟩
    · cases hshuts with
      | waits hin hne hclosed => exact .waits hin (by simp) (by rw [if_neg (hkept hne)]; exact hclosed)
      | runs hrunning hclosed =>
        obtain ⟨rfl, rfl⟩ := Prod.mk.inj (Option.some.inj (hruns.symm.trans hrunning))
        exact .closed rfl (List.mem_append_right _ List.mem_cons_self) (by rw [if_pos rfl, hclosed])
      | closed hrunning _ _ =>
        rw [hruns] at hrunning
        cases hrunning
    · obtain ⟨heq, hclosed, hne⟩ := honly k hk
      exact ⟨heq, by rw [if_neg (hkept hne)]; exact hclosed, by simp⟩

/-- Who closes the store is known from the moment the engine is stopped. -/
def Shutting (l : Line) : Prop :=
  (l.stopped = false → l.Unshut) ∧ (l.stopped = true → ∃ n, n < l.asked ∧ l.ShutBy n)

theorem Shutting.turn (h : l.Shutting) (hturns : l.InTurn) (hturn : Turn l l') : l'.Shutting := by
  by_cases hstopped : l.stopped = true
  · obtain ⟨n, hlt, hshut⟩ := h.2 hstopped
    obtain ⟨hstopped', hshut', -⟩ := hshut.turn hturns hstopped hturn
    have hasked : l.asked ≤ l'.asked := by
      cases hturn <;> first | exact le_rfl | exact Nat.le_succ _
    refine ⟨fun hopen => ?_, fun _ => ⟨n, by omega, hshut'⟩⟩
    rw [hstopped'] at hopen
    cases hopen
  · have hunshut := h.1 (by simpa using hstopped)
    refine ⟨hunshut.turn hturn, fun hnow => ?_⟩
    cases hturn with
    | stops hopen => exact ⟨l.asked, Nat.lt_succ_self _, hunshut.stops⟩
    | idle => exact absurd hnow hstopped
    | asks w hw hclose => exact absurd hnow hstopped
    | asksPass hnone => exact absurd hnow hstopped
    | refuses n w rest hidle hfirst hwas hw => exact absurd hwas hstopped
    | begins n w rest stage hidle hfirst hopen hstage => exact absurd hnow hstopped
    | returns n rest hidle hfirst hopen => exact absurd hnow hstopped
    | goesOn n w stage stage' hruns hstage hstage' => exact absurd hnow hstopped
    | ends n stage hruns => exact absurd hnow hstopped

end Line

theorem line_invariant (events : List Event) : (run events).line.InTurn ∧ (run events).line.Shutting := by
  refine run_keeps (I := fun s : SyncEngine => s.line.InTurn ∧ s.line.Shutting) ?_ events ?_
  · rintro s e ⟨hturns, hshutting⟩
    have hturn := turn_step s e
    exact ⟨hturns.turn hturn, hshutting.turn hturns hturn⟩
  · refine ⟨⟨rfl, List.Sublist.refl _, by simp [line, new], by simp [line, new]⟩, fun _ => ?_, by simp [line, new]⟩
    exact ⟨rfl, by simp [line, new], by simp [line, new]⟩

/-! ## What the queue is for -/

theorem settled_prefix (h : s.line.InTurn) (hn : n ∈ s.settled) (hm : m ≤ n) : m ∈ s.settled := by
  have hprefix : s.settled <+: List.range s.asked := by
    rw [← show _ = List.range s.asked from h.order]
    exact ⟨s.running.toList.map Prod.fst ++ s.queue.map Prod.fst, (List.append_assoc ..).symm⟩
  rw [List.prefix_iff_eq_take.1 hprefix, List.take_range, List.mem_range] at hn ⊢
  omega

theorem run_orderly (events : List Event) : (run events).Orderly := by
  obtain ⟨hturns, hshutting⟩ := line_invariant events
  refine ⟨hturns.order, hturns.begun, fun hstopped => ?_⟩
  obtain ⟨n, hlt, hshut⟩ := hshutting.2 hstopped
  refine ⟨n, hlt, fun more => ?_⟩
  have hkept := run_keeps
    (I := fun t : SyncEngine => t.line.InTurn ∧ t.line.stopped = true ∧ t.line.ShutBy n ∧
      ∀ k ∈ t.line.begun, k ∈ (run events).begun ∨ k = n)
    (fun t e ⟨hturns, hstopped, hshut, hbegun⟩ => by
      have hturn := turn_step t e
      obtain ⟨hstopped', hshut', hbegun'⟩ := hshut.turn hturns hstopped hturn
      exact ⟨hturns.turn hturn, hstopped', hshut', fun k hk => (hbegun' k hk).elim (hbegun k) .inr⟩)
    more ⟨hturns, hstopped, hshut, fun k hk => .inl hk⟩
  obtain ⟨hturns', -, hshut', hbegun'⟩ := hkept
  refine ⟨hbegun', ?_, fun hclosed => ?_⟩
  · cases hshut'.shuts with
    | waits _ _ hclosed => exact hclosed.le.trans (Nat.zero_le 1)
    | runs _ hclosed => exact hclosed.le.trans (Nat.zero_le 1)
    | closed _ _ hclosed => exact hclosed.le
  · cases hshut'.shuts with
    | waits _ _ hopen => exact absurd (hopen.symm.trans hclosed) (by simp)
    | runs _ hopen => exact absurd (hopen.symm.trans hclosed) (by simp)
    | closed hidle hsettled _ => exact ⟨hidle, fun k hk => settled_prefix hturns' hsettled hk⟩

/-- A pass stays in the queue until it has its turn. -/
theorem queued_turn {l l' : Line} (hin : (n, .pass) ∈ l.queue ∨ n ∈ l.turned) (hturn : Turn l l') :
    (n, .pass) ∈ l'.queue ∨ n ∈ l'.turned := by
  have hhead : ∀ {m w rest} {turned : List Nat}, l.running = none → l.queue = (m, w) :: rest →
      m ∈ turned → (∀ k ∈ l.settled, k ∈ turned) → (n, .pass) ∈ rest ∨ n ∈ turned := by
    intro m w rest turned hidle hfirst hm hkept
    obtain hin | hin := hin
    · rw [hfirst] at hin
      obtain heq | hin := List.mem_cons.1 hin
      · obtain ⟨rfl, -⟩ := Prod.mk.inj heq
        exact .inr hm
      · exact .inl hin
    · unfold Line.turned at hin
      rw [hidle, Option.toList_none, List.map_nil, List.append_nil] at hin
      exact .inr (hkept n hin)
  cases hturn with
  | idle => exact hin
  | asks w hw hclose => exact hin.imp_left (List.mem_append_left _)
  | asksPass hnone => exact hin.imp_left (List.mem_append_left _)
  | stops hopen => exact hin.imp_left (List.mem_append_left _)
  | refuses m w rest hidle hfirst hstopped hw =>
    exact hhead hidle hfirst (by simp [Line.turned]) fun k hk => by simp [Line.turned, hk]
  | begins m w rest stage hidle hfirst hopen hstage =>
    exact hhead hidle hfirst (by simp [Line.turned]) fun k hk => by simp [Line.turned, hk]
  | returns m rest hidle hfirst hopen =>
    exact hhead hidle hfirst (by simp [Line.turned]) fun k hk => by simp [Line.turned, hk]
  | goesOn m w stage stage' hruns hstage hstage' =>
    refine hin.imp_right fun hin => ?_
    unfold Line.turned at hin ⊢
    rw [hruns] at hin
    exact hin
  | ends m stage hruns =>
    refine hin.imp_right fun hin => ?_
    unfold Line.turned at hin ⊢
    rw [hruns] at hin
    simpa using hin

theorem syncNow_shares (events : List Event) (hopen : (run events).stopped = false) :
    (run events).Shares (run events).syncNow.1 (run events).syncNow.2 := by
  obtain ⟨hturns, -⟩ := line_invariant events
  generalize run events = s at hturns hopen
  have hturns' : s.syncNow.1.line.InTurn := hturns.turn (turn_syncNow s)
  have hfresh : s.syncNow.2 ∉ s.begun := by
    intro hbegun
    have hturned : s.syncNow.2 ∈ s.line.turned := hturns.begun.subset hbegun
    cases hwaiting : s.passWaiting with
    | none =>
      have hn : s.syncNow.2 = s.asked := by rw [syncNow, hwaiting]
      have hin : s.asked ∈ List.range s.asked := by
        rw [hn] at hturned
        rw [← show _ = List.range s.asked from hturns.order]
        exact List.mem_append_left _ hturned
      exact absurd (List.mem_range.1 hin) (lt_irrefl _)
    | some n =>
      have hn : s.syncNow.2 = n := by rw [syncNow, hwaiting]
      rw [hn] at hturned
      obtain hqueued | ⟨hstopped, -⟩ := hturns.waits n hwaiting
      · exact (List.nodup_append.1 hturns.nodup).2.2 n hturned n (List.mem_map.2 ⟨_, hqueued, rfl⟩) rfl
      · rw [show s.line.stopped = s.stopped from rfl, hopen] at hstopped
        cases hstopped
  have hwaiting : s.syncNow.1.passWaiting = some s.syncNow.2 := by
    unfold syncNow
    cases hwaiting : s.passWaiting with
    | none => rfl
    | some n => exact hwaiting
  have hqueued : (s.syncNow.2, .pass) ∈ s.syncNow.1.queue := by
    obtain hqueued | ⟨hstopped, -⟩ := hturns'.waits _ hwaiting
    · exact hqueued
    · have hsame : s.syncNow.1.line.stopped = s.stopped := by
        unfold syncNow
        cases s.passWaiting <;> rfl
      rw [hsame, hopen] at hstopped
      cases hstopped
  refine ⟨hfresh, hqueued, fun m hm => ?_, fun more => ?_⟩
  · exact Option.some.inj ((hturns'.pass m hm).symm.trans hwaiting)
  · have hkept := run_keeps
      (I := fun t : SyncEngine => t.line.InTurn ∧
        ((s.syncNow.2, .pass) ∈ t.line.queue ∨ s.syncNow.2 ∈ t.line.turned))
      (fun t e ⟨hturns, hin⟩ => ⟨hturns.turn (turn_step t e), queued_turn hin (turn_step t e)⟩)
      more ⟨hturns', .inl hqueued⟩
    obtain ⟨hturns'', hin | hin⟩ := hkept
    · refine .inr ?_
      have hstill : (more.foldl step s.syncNow.1).passWaiting = some s.syncNow.2 := hturns''.pass _ hin
      conv_lhs => rw [syncNow, hstill]
    · exact .inl hin

def oneFolder : Config := ⟨1, "https://files.example", "token", [⟨"p", "/home/files"⟩], false⟩

/-- The engine is set up, and its first pass begins. -/
def firstPass : List Event :=
  [.configure oneFolder, .watched, .start, .advance (.stored true), .goesOn, .fire, .start]

theorem syncNow_shares_firstPass :
    (run firstPass).Shares (run firstPass).syncNow.1 (run firstPass).syncNow.2 :=
  syncNow_shares firstPass (by decide)

/-! ## Wake-ups -/

/-- A pass at this stage asks for the next one when it ends. -/
def Stage.asksAgain (config : Option Config) : Stage → Prop
  | .pulling c => config = some c
  | .syncing _ _ _ _ | .asking _ _ _ _ => True
  | .settings | .choice | .closing => False

/-- An engine that is awake has a pass ahead, or a call of `configure` that will ask for one. -/
def Ahead (s : SyncEngine) : Prop :=
  s.Awake → s.timer.isSome = true ∨ s.passWaiting.isSome = true ∨
    (∃ n stage, s.running = some (n, stage) ∧ Stage.asksAgain s.config stage) ∨ s.calls ≠ []

/-- The call of `configure` that waits for a work waits for one that has not ended. -/
def Linked (s : SyncEngine) : Prop :=
  ∀ n, .waiting n ∈ s.calls → (n, .settings) ∈ s.queue ∨ s.running = some (n, .settings)

def Due (s : SyncEngine) : Prop := ∀ due, s.timer = some due → due ≤ s.now + fullPassMs

structure Wakes (s : SyncEngine) : Prop where
  ahead : s.Ahead
  linked : s.Linked
  due : s.Due

theorem ahead_of_calls (h : s.calls ≠ []) : s.Ahead := fun _ => .inr (.inr (.inr h))

/-- A request is heard, unless the engine is stopped. -/
theorem heard_request (s : SyncEngine) (delay : Nat) :
    (s.request delay).stopped = true ∨ (s.request delay).timer.isSome = true := by
  unfold request
  split_ifs with hstopped
  · exact .inl hstopped
  · exact .inr rfl

theorem ahead_of_heard (h : s.stopped = true ∨ s.timer.isSome = true) : s.Ahead := by
  intro hawake
  refine .inl (h.resolve_left ?_)
  rw [hawake.1]
  simp

theorem linked_request (h : s.Linked) (delay : Nat) : (s.request delay).Linked := by
  unfold request
  split_ifs
  · exact h
  · exact h

theorem due_request (h : s.Due) {delay : Nat} (hdelay : delay ≤ fullPassMs) : (s.request delay).Due := by
  unfold request
  split_ifs
  · exact h
  · intro due hdue
    obtain rfl := Option.some.inj hdue
    exact Nat.add_le_add_left hdelay _

theorem wakes_request (hlinked : s.Linked) (hdue : s.Due) {delay : Nat} (hdelay : delay ≤ fullPassMs) :
    (s.request delay).Wakes :=
  ⟨ahead_of_heard (heard_request s delay), linked_request hlinked delay, due_request hdue hdelay⟩

theorem nextDelay_le (s : SyncEngine) (retrySoon pullAgain : Bool) :
    s.nextDelay retrySoon pullAgain ≤ fullPassMs := by
  have hpoll : pollMs ≤ fullPassMs := by decide
  unfold nextDelay
  split_ifs
  · exact Nat.zero_le _
  · exact (Nat.min_le_left _ _).trans hpoll
  · exact hpoll
  · decide
  · exact le_rfl

theorem mem_calls_settle {resolved : Bool} (h : .waiting m ∈ (s.settle n resolved).calls) :
    .waiting m ∈ s.calls ∧ m ≠ n := by
  unfold settle at h
  cases resolved with
  | false =>
    obtain ⟨hin, hne⟩ := List.mem_filter.1 h
    exact ⟨hin, fun heq => of_decide_eq_true hne (heq ▸ rfl)⟩
  | true =>
    obtain ⟨c, hin, hc⟩ := List.mem_map.1 h
    split_ifs at hc with heq
    subst hc
    exact ⟨hin, fun hmn => heq (hmn ▸ rfl)⟩

theorem linked_settle {stage : Stage} (h : s.Linked) (hrunning : s.running = some (n, stage))
    (resolved : Bool) : (s.settle n resolved).Linked := by
  intro m hin
  obtain ⟨hin, hne⟩ := mem_calls_settle hin
  obtain hqueued | hruns := h m hin
  · exact .inl hqueued
  · rw [hrunning] at hruns
    exact absurd (Prod.mk.inj (Option.some.inj hruns)).1.symm hne

/-- A work that ends keeps what is ahead, where it was not to ask for a pass itself. -/
theorem ahead_settle {resolved : Bool} (h : s.Ahead)
    (hrunning : ∀ n stage, s.running = some (n, stage) → ¬ Stage.asksAgain s.config stage)
    (hcalls : resolved = true ∨ .waiting n ∉ s.calls) : (s.settle n resolved).Ahead := by
  intro hawake
  obtain htimer | hwaiting | ⟨m, stage', hruns, hasks⟩ | hne := h hawake
  · exact .inl htimer
  · exact .inr (.inl hwaiting)
  · exact absurd hasks (hrunning m stage' hruns)
  · refine .inr (.inr (.inr ?_))
    unfold settle
    cases resolved with
    | true =>
      rw [if_pos rfl, ne_eq, List.map_eq_nil_iff]
      exact hne
    | false =>
      have hnot := hcalls.resolve_left (by simp)
      rw [if_neg (by simp), List.filter_eq_self.2]
      · exact hne
      · intro c hc
        refine decide_eq_true ?_
        rintro rfl
        exact hnot hc

/-- A pass that ends asks for the next one. -/
theorem wakes_endPass {stage : Stage} (hlinked : s.Linked) (hdue : s.Due)
    (hrunning : s.running = some (n, stage)) (retrySoon pullAgain : Bool) :
    (s.endPass n retrySoon pullAgain).Wakes := by
  unfold endPass
  dsimp only
  generalize hs : ({ s with refusedPasses := if pullAgain then s.refusedPasses + 1 else 0 } : SyncEngine) = s'
  have hlinked' : s'.Linked := hs ▸ hlinked
  have hdue' : s'.Due := hs ▸ hdue
  have hwakes := wakes_request hlinked' hdue' (nextDelay_le s' retrySoon pullAgain)
  have hrunning' : (s'.request (s'.nextDelay retrySoon pullAgain)).running = some (n, stage) := by
    have hline := congrArg Line.running (line_request s' (s'.nextDelay retrySoon pullAgain))
    subst hs
    exact hline.trans hrunning
  exact ⟨ahead_of_heard (heard_request s' (s'.nextDelay retrySoon pullAgain)),
    linked_settle hwakes.linked hrunning' true, hwakes.due⟩

/-- Another stage of a pass. -/
theorem wakes_enter {stage stage' : Stage} (hlinked : s.Linked) (hdue : s.Due)
    (hrunning : s.running = some (n, stage)) (hstage : stage ≠ .settings)
    (hstage' : Stage.asksAgain s.config stage') : (s.enter n stage').Wakes := by
  refine ⟨fun _ => .inr (.inr (.inl ⟨n, stage', rfl, hstage'⟩)), fun m hin => ?_, hdue⟩
  obtain hqueued | hruns := hlinked m hin
  · exact .inl hqueued
  · rw [hrunning] at hruns
    exact absurd (Prod.mk.inj (Option.some.inj hruns)).2 hstage

theorem wakes_nextPair {stage : Stage} {config : Config} (hlinked : s.Linked) (hdue : s.Due)
    (hrunning : s.running = some (n, stage)) (hstage : stage ≠ .settings) (rest : List SyncPair)
    (retrySoon pullAgain : Bool) : (s.nextPair n config rest retrySoon pullAgain).Wakes := by
  unfold nextPair
  cases rest with
  | nil => exact wakes_endPass hlinked hdue hrunning _ _
  | cons pair rest =>
    dsimp only
    split_ifs
    · exact wakes_endPass hlinked hdue hrunning _ _
    · exact wakes_enter hlinked hdue hrunning hstage trivial

theorem wakes_advance (h : s.Wakes) (hturns : s.line.InTurn) (answer : Answer) (hstores : answer ≠ .stored false) :
    (s.advance answer).Wakes := by
  obtain ⟨hahead, hlinked, hdue⟩ := h
  have hends : ∀ {n stage} {resolved : Bool}, s.running = some (n, stage) → ¬ Stage.asksAgain s.config stage →
      (resolved = true ∨ stage ≠ .settings) → (s.settle n resolved).Wakes := by
    intro n stage resolved hrunning hasks hresolved
    refine ⟨ahead_settle hahead (fun m stage' hruns => ?_) (hresolved.imp_right fun hstage hin => ?_),
      linked_settle hlinked hrunning resolved, hdue⟩
    · obtain ⟨-, rfl⟩ := Prod.mk.inj (Option.some.inj (hrunning.symm.trans hruns))
      exact hasks
    · obtain hqueued | hruns := hlinked n hin
      · have hturned : n ∈ s.line.turned := by
          unfold Line.turned
          rw [show s.line.running = some (n, stage) from hrunning]
          simp
        exact (List.nodup_append.1 hturns.nodup).2.2 n hturned n (List.mem_map.2 ⟨_, hqueued, rfl⟩) rfl
      · rw [hrunning] at hruns
        exact hstage (Prod.mk.inj (Option.some.inj hruns)).2
  unfold advance
  split
  case h_1 n ok hrunning =>
    cases ok
    · exact absurd rfl hstores
    · exact hends hrunning id (.inl rfl)
  case h_2 n ok asks hrunning =>
    cases asks
    · exact hends hrunning id (.inr (by simp))
    · have hrunning' : (s.request 0).running = some (n, .choice) :=
        (congrArg Line.running (line_request s 0)).trans hrunning
      exact ⟨ahead_of_heard (heard_request s 0), linked_settle (linked_request hlinked 0) hrunning' ok,
        due_request hdue (Nat.zero_le _)⟩
  case h_3 n config hrunning =>
    split_ifs with hconfig
    · exact hends hrunning hconfig (.inl rfl)
    · exact wakes_nextPair (s := { s with failure := none }) hlinked hdue hrunning (by simp) _ _ _
  case h_4 n config hrunning => exact wakes_endPass (s := s.signOut) hlinked hdue hrunning _ _
  case h_5 n config hrunning =>
    split_ifs
    · exact wakes_endPass hlinked hdue hrunning _ _
    · exact wakes_enter hlinked hdue hrunning (by simp) trivial
  case h_6 n config rest retrySoon pullAgain soon again hrunning =>
    exact wakes_nextPair hlinked hdue hrunning (by simp) _ _ _
  case h_7 n config rest retrySoon pullAgain hrunning =>
    exact wakes_endPass (s := s.signOut) hlinked hdue hrunning _ _
  case h_8 n config rest retrySoon pullAgain hrunning =>
    split_ifs
    · exact wakes_endPass hlinked hdue hrunning _ _
    · exact wakes_enter hlinked hdue hrunning (by simp) trivial
  case h_9 n config rest retrySoon pullAgain ok hrunning =>
    let known : SyncEngine := { s with failure := some (if ok then .problem else .offline) }
    have hlinked' : known.Linked := hlinked
    have hdue' : known.Due := hdue
    have hrunning' : known.running = some (n, .asking config rest retrySoon pullAgain) := hrunning
    cases rest with
    | none => exact wakes_endPass hlinked' hdue' hrunning' _ _
    | some rest =>
      cases ok
      · exact wakes_endPass hlinked' hdue' hrunning' _ _
      · exact wakes_nextPair hlinked' hdue' hrunning' (by simp) _ _ _
  case h_10 n hrunning =>
    have hwakes := hends hrunning id (.inl (Eq.refl true))
    exact ⟨hwakes.ahead, hwakes.linked, hwakes.due⟩
  case h_11 => exact ⟨hahead, hlinked, hdue⟩

/-- A pass that returns at once does so because the engine is not awake. -/
theorem wakes_pass (hlinked : ∀ m, .waiting m ∈ s.calls → (m, .settings) ∈ s.queue) (hdue : s.Due) :
    (s.pass n).Wakes := by
  have hasleep : ¬ s.Awake → (s.settle n true).Wakes := fun hasleep =>
    ⟨fun hawake => absurd hawake hasleep, fun m hin => .inl (hlinked m (mem_calls_settle hin).1), hdue⟩
  unfold pass
  split
  case h_1 hconfig =>
    refine hasleep ?_
    rintro ⟨-, -, config, hsome, -⟩
    rw [hconfig] at hsome
    cases hsome
  case h_2 config hconfig =>
    split_ifs with hout hpaused
    · refine hasleep ?_
      rintro ⟨hopen, hin, -⟩
      rw [hopen, hin] at hout
      cases hout
    · refine hasleep ?_
      rintro ⟨-, -, config', hsome, hunpaused⟩
      obtain rfl := Option.some.inj (hconfig.symm.trans hsome)
      rw [hunpaused] at hpaused
      cases hpaused
    · exact ⟨fun _ => .inr (.inr (.inl ⟨n, _, rfl, hconfig⟩)), fun m hin => .inl (hlinked m hin), hdue⟩

/-- A work that is not a pass leaves what is ahead where it is. -/
theorem wakes_begins {stage : Stage} {queue : List (Nat × Work)} {begun : List Nat} (hahead : s.Ahead)
    (hidle : s.running = none) (hdue : s.Due)
    (hlinked : ∀ m, .waiting m ∈ s.calls → (m, .settings) ∈ queue ∨ some (n, stage) = some (m, .settings)) :
    ({ s with queue, begun }.enter n stage).Wakes := by
  refine ⟨fun hawake => ?_, hlinked, hdue⟩
  obtain htimer | hwaiting | ⟨m, stage', hruns, -⟩ | hcalls := hahead hawake
  · exact .inl htimer
  · exact .inr (.inl hwaiting)
  · rw [hidle] at hruns
    cases hruns
  · exact .inr (.inr (.inr hcalls))

theorem wakes_start (h : s.Wakes) : s.start.Wakes := by
  obtain ⟨hahead, hlinked, hdue⟩ := h
  unfold start
  split
  case h_2 => exact ⟨hahead, hlinked, hdue⟩
  case h_1 n work queue hidle hfirst =>
    have hqueued : ∀ m, .waiting m ∈ s.calls → (m, .settings) = (n, work) ∨ (m, .settings) ∈ queue := by
      intro m hin
      obtain hqueued | hruns := hlinked m hin
      · exact List.mem_cons.1 (hfirst ▸ hqueued)
      · rw [hidle] at hruns
        cases hruns
    have hrest : work ≠ .settings → ∀ m, .waiting m ∈ s.calls → (m, .settings) ∈ queue := by
      intro hwork m hin
      refine (hqueued m hin).resolve_left fun heq => ?_
      exact hwork (Prod.mk.inj heq).2.symm
    dsimp only
    split_ifs with hrefused
    · obtain ⟨hstopped, -⟩ := Bool.and_eq_true_iff.1 hrefused
      refine ⟨ahead_of_heard (.inl hstopped), fun m hin => ?_, hdue⟩
      obtain ⟨hin, hne⟩ := mem_calls_settle hin
      exact .inl ((hqueued m hin).resolve_left fun heq => hne (Prod.mk.inj heq).1)
    · cases work with
      | pass => exact wakes_pass (hrest (by simp)) hdue
      | settings =>
        refine wakes_begins hahead hidle hdue fun m hin => ?_
        obtain heq | hin := hqueued m hin
        · exact .inr (by rw [(Prod.mk.inj heq).1])
        · exact .inl hin
      | choice => exact wakes_begins hahead hidle hdue fun m hin => .inl (hrest (by simp) m hin)
      | close => exact wakes_begins hahead hidle hdue fun m hin => .inl (hrest (by simp) m hin)

theorem linked_asks (h : s.Linked) (w : Work) : (s.enqueue w).Linked := fun n hin =>
  (h n hin).imp_left (List.mem_append_left _)

theorem wakes_exclusiveSettings (hlinked : s.Linked) (hdue : s.Due) : s.exclusiveSettings.Wakes := by
  refine ⟨ahead_of_calls (by simp [exclusiveSettings]), fun n hin => ?_, hdue⟩
  obtain hin | heq := List.mem_append.1 hin
  · exact linked_asks hlinked .settings n hin
  · obtain rfl := Call.waiting.inj (List.mem_singleton.1 heq)
    exact .inl (List.mem_append_right _ List.mem_cons_self)

theorem wakes_configure (h : s.Wakes) (config : Config) : (s.configure config).Wakes := by
  obtain ⟨-, hlinked, hdue⟩ := h
  have hwatches : ∀ t : SyncEngine, t.Linked → t.Due → Wakes { t with calls := t.calls ++ [.watching] } := by
    intro t hlinked hdue
    refine ⟨ahead_of_calls (by simp), fun n hin => ?_, hdue⟩
    obtain hin | heq := List.mem_append.1 hin
    · exact hlinked n hin
    · cases List.mem_singleton.1 heq
  unfold configure
  dsimp only
  split_ifs
  · exact hwatches _ hlinked hdue
  · exact hwatches _ hlinked hdue
  · exact wakes_exclusiveSettings hlinked hdue
  · exact wakes_exclusiveSettings hlinked hdue

/-- A call that is over is no longer looked after. -/
theorem linked_erase (h : s.Linked) (c : Call) : ({ s with calls := s.calls.erase c }).Linked := fun n hin =>
  h n (List.mem_of_mem_erase hin)

theorem wakes_fire (h : s.Wakes) : (s.step .fire).Wakes := by
  obtain ⟨hahead, hlinked, hdue⟩ := h
  simp only [step]
  cases htimer : s.timer with
  | none => exact ⟨hahead, hlinked, hdue⟩
  | some due =>
    dsimp only
    split_ifs
    · unfold syncNow
      dsimp only
      cases hwaiting : s.passWaiting with
      | none =>
        refine ⟨fun _ => .inr (.inl rfl), linked_asks hlinked .pass, fun due hnone => ?_⟩
        cases hnone
      | some n =>
        refine ⟨fun _ => .inr (.inl (by simp)), hlinked, fun due hnone => ?_⟩
        cases hnone
    · exact ⟨hahead, hlinked, hdue⟩

theorem wakes_step (h : s.Wakes) (hturns : s.line.InTurn) {e : Event} (hstores : e.stores = true) :
    (s.step e).Wakes := by
  obtain ⟨hahead, hlinked, hdue⟩ := h
  cases e with
  | configure config => exact wakes_configure ⟨hahead, hlinked, hdue⟩ config
  | watched =>
    simp only [step]
    split_ifs
    · exact wakes_exclusiveSettings (linked_erase hlinked .watching) hdue
    · exact ⟨hahead, hlinked, hdue⟩
  | goesOn =>
    simp only [step]
    split_ifs
    · exact wakes_request (linked_erase hlinked .going) hdue (Nat.zero_le _)
    · exact ⟨hahead, hlinked, hdue⟩
  | changed => exact wakes_request hlinked hdue (by decide)
  | asked => exact wakes_request hlinked hdue (Nat.zero_le _)
  | choose => exact ⟨hahead, linked_asks hlinked .choice, hdue⟩
  | liveUpdate => exact wakes_request (s := { s with liveConnected := true }) hlinked hdue (by decide)
  | liveEnds => exact ⟨hahead, hlinked, hdue⟩
  | refused => exact ⟨fun hawake => absurd hawake.2.1 (by simp [step, signOut]), hlinked, hdue⟩
  | stop =>
    simp only [step, stop]
    split_ifs
    · exact ⟨hahead, hlinked, hdue⟩
    · refine ⟨ahead_of_heard (.inl rfl), linked_asks hlinked .close, fun due hnone => ?_⟩
      cases hnone
  | fire => exact wakes_fire ⟨hahead, hlinked, hdue⟩
  | start => exact wakes_start ⟨hahead, hlinked, hdue⟩
  | advance answer =>
    refine wakes_advance ⟨hahead, hlinked, hdue⟩ hturns answer ?_
    rintro rfl
    cases hstores
  | tick ms =>
    refine ⟨hahead, hlinked, fun due hd => (hdue due hd).trans ?_⟩
    show s.now + fullPassMs ≤ s.now + ms + fullPassMs
    omega

/-- An engine that is awake and at rest wakes up within ten minutes. -/
theorem rest_ends (events : List Event) (hstores : ∀ e ∈ events, e.stores = true)
    (hawake : (run events).Awake) (hrest : (run events).AtRest) :
    ∃ due, (run events).timer = some due ∧ due ≤ (run events).now + fullPassMs := by
  have hinvariant : (run events).line.InTurn ∧ (run events).Wakes := by
    have hmeets : RunMeets step (fun _ e => e.stores = true) new events := runMeets_of_forall hstores
    refine hmeets.keeps (I := fun s : SyncEngine => s.line.InTurn ∧ s.Wakes) ?_ ?_
    · rintro s e hstores ⟨hturns, hwakes⟩
      exact ⟨hturns.turn (turn_step s e), wakes_step hwakes hturns hstores⟩
    · refine ⟨(line_invariant []).1, fun hawake => ?_, fun n hin => ?_, fun due hnone => ?_⟩
      · obtain ⟨-, -, config, hsome, -⟩ := hawake
        cases hsome
      · cases hin
      · cases hnone
  obtain ⟨hturns, hwakes⟩ := hinvariant
  obtain ⟨hidle, hqueue, hwatching, hgoing⟩ := hrest
  have htimer : (run events).timer.isSome = true := by
    obtain htimer | hwaiting | ⟨n, stage, hruns, -⟩ | hcalls := hwakes.ahead hawake
    · exact htimer
    · obtain ⟨n, hn⟩ := Option.isSome_iff_exists.1 hwaiting
      obtain hin | ⟨hstopped, -⟩ := hturns.waits n hn
      · rw [show (run events).line.queue = [] from hqueue] at hin
        cases hin
      · rw [show (run events).line.stopped = false from hawake.1] at hstopped
        cases hstopped
    · rw [hidle] at hruns
      cases hruns
    · obtain ⟨c, hc⟩ := List.exists_mem_of_ne_nil _ hcalls
      cases c with
      | watching => exact absurd hc hwatching
      | going => exact absurd hc hgoing
      | waiting n =>
        obtain hin | hruns := hwakes.linked n hc
        · rw [hqueue] at hin
          cases hin
        · rw [hidle] at hruns
          cases hruns
  obtain ⟨due, hdue⟩ := Option.isSome_iff_exists.1 htimer
  exact ⟨due, hdue, hwakes.due due hdue⟩

/-- The first pass comes to its end. -/
def firstPassOver : List Event :=
  firstPass ++ [.advance .pulled, .advance (.synced false false)]

theorem rest_ends_firstPass :
    ∃ due, (run firstPassOver).timer = some due ∧ due ≤ (run firstPassOver).now + fullPassMs :=
  rest_ends firstPassOver (by decide) ⟨by decide, by decide, oneFolder, by decide, rfl⟩
    ⟨by decide, by decide, by decide, by decide⟩

example : (run firstPassOver).timer = some pollMs := by decide

end SyncEngine

end Staaash.Engine
