import Mathlib.Data.List.Nodup
import Mathlib.Data.List.Pairwise
import Staaash.Library.Runs
import Staaash.Transfers.RequestQueue

/-!
# The request lane loses no slot

`Orderly` is what every line of the lane keeps, `Sound` what also holds between its calls: whoever
waits, waits for slots that are all taken.
-/

namespace Staaash.Transfers.Lane

open Staaash.Library

variable {s : Lane} {id other : Nat} {a : Answer}

/-! ## Answers -/

@[simp] theorem answer_settle (s : Lane) (id other : Nat) (a : Answer) :
    (s.settle id a).answer other =
      if id = other ∧ s.answer other = some .pending then some a else s.answer other := by
  unfold answer settle
  rw [List.getElem?_modify]
  rcases s.requests[other]? with _ | r
  · simp
  · by_cases hid : id = other <;> by_cases hpending : r.answer = .pending <;> simp [hid, hpending]

@[simp] theorem isReleased_settle (s : Lane) (id other : Nat) (a : Answer) :
    (s.settle id a).isReleased other = s.isReleased other := by
  unfold isReleased settle
  rw [List.getElem?_modify]
  rcases s.requests[other]? with _ | r
  · rfl
  · by_cases hid : id = other <;> by_cases hpending : r.answer = .pending <;> simp [hid, hpending]

@[simp] theorem isAborted_settle (s : Lane) (id other : Nat) (a : Answer) :
    (s.settle id a).isAborted other = s.isAborted other := by
  unfold isAborted signalAborted settle
  rw [List.getElem?_modify]
  rcases s.requests[other]? with _ | r
  · rfl
  · by_cases hid : id = other <;> by_cases hpending : r.answer = .pending <;> simp [hid, hpending]

@[simp] theorem answer_listen (s : Lane) (id other : Nat) (listening : Bool) :
    (s.listen id listening).answer other = s.answer other := by
  unfold answer listen
  rw [List.getElem?_modify]
  rcases s.requests[other]? with _ | r
  · rfl
  · by_cases hid : id = other <;> simp [hid]

@[simp] theorem isReleased_listen (s : Lane) (id other : Nat) (listening : Bool) :
    (s.listen id listening).isReleased other = s.isReleased other := by
  unfold isReleased listen
  rw [List.getElem?_modify]
  rcases s.requests[other]? with _ | r
  · rfl
  · by_cases hid : id = other <;> simp [hid]

@[simp] theorem isAborted_listen (s : Lane) (id other : Nat) (listening : Bool) :
    (s.listen id listening).isAborted other = s.isAborted other := by
  unfold isAborted signalAborted listen
  rw [List.getElem?_modify]
  rcases s.requests[other]? with _ | r
  · rfl
  · by_cases hid : id = other <;> simp [hid]

@[simp] theorem answer_spend (s : Lane) (id other : Nat) :
    (s.spend id).answer other = s.answer other := by
  unfold answer spend
  rw [List.getElem?_modify]
  rcases s.requests[other]? with _ | r
  · rfl
  · by_cases hid : id = other <;> simp [hid]

@[simp] theorem isAborted_spend (s : Lane) (id other : Nat) :
    (s.spend id).isAborted other = s.isAborted other := by
  unfold isAborted signalAborted spend
  rw [List.getElem?_modify]
  rcases s.requests[other]? with _ | r
  · rfl
  · by_cases hid : id = other <;> simp [hid]

theorem isReleased_spend (s : Lane) (id other : Nat) :
    (s.spend id).isReleased other =
      (s.isReleased other || (decide (id = other) && (s.answer other).isSome)) := by
  unfold isReleased answer spend
  rw [List.getElem?_modify]
  rcases s.requests[other]? with _ | r
  · simp
  · by_cases hid : id = other <;> simp [hid]

theorem isAborted_abort (s : Lane) (signal other : Nat) :
    Lane.isAborted { s with aborted := signal :: s.aborted } other =
      (s.isAborted other || (s.requests[other]?.any fun r => r.signal == some signal)) := by
  show (s.requests[other]?.any fun r => r.signal.any ((signal :: s.aborted).contains ·)) =
    ((s.requests[other]?.any fun r => r.signal.any (s.aborted.contains ·)) || _)
  rcases s.requests[other]? with _ | r
  · rfl
  · rcases hsignal : r.signal with _ | mine
    · simp [hsignal]
    · simp only [Option.any_some, hsignal, List.contains_cons]
      rw [Bool.or_comm]
      rfl

theorem lt_of_answer (h : s.answer id = some a) : id < s.requests.length := by
  unfold answer at h
  obtain ⟨r, hr, -⟩ := Option.map_eq_some_iff.1 h
  exact (List.getElem?_eq_some_iff.1 hr).1

/-! ## What every line keeps -/

structure Orderly (s : Lane) : Prop where
  counted : s.running + s.returned.length = s.taken.length
  queued : ∀ id, id ∈ s.pending ↔ s.answer id = some .pending
  inOrder : s.pending.Pairwise (· < ·)
  resolved : ∀ id, id ∈ s.taken ↔ s.answer id = some .resolved
  takenInOrder : s.taken.Pairwise (· < ·)
  overtaken : ∀ id ∈ s.pending, s.isAborted id = false → ∀ other ∈ s.taken, other < id
  released : ∀ id, id ∈ s.returned ↔ s.isReleased id = true
  returnedOnce : s.returned.Nodup
  gaveBackTaken : ∀ id ∈ s.returned, id ∈ s.taken

structure Sound (s : Lane) : Prop extends s.Orderly where
  limited : s.running ≤ s.concurrency
  full : s.pending ≠ [] → s.running = s.concurrency

theorem Orderly.listen (h : s.Orderly) (id : Nat) (listening : Bool) :
    (s.listen id listening).Orderly where
  counted := h.counted
  queued other := by rw [answer_listen]; exact h.queued other
  inOrder := h.inOrder
  resolved other := by rw [answer_listen]; exact h.resolved other
  takenInOrder := h.takenInOrder
  overtaken other hother haborted :=
    h.overtaken other hother (by rw [isAborted_listen] at haborted; exact haborted)
  released other := by rw [isReleased_listen]; exact h.released other
  returnedOnce := h.returnedOnce
  gaveBackTaken := h.gaveBackTaken

/-- A waiting request that is rejected leaves the queue; any other one is left alone. -/
theorem Orderly.reject (h : s.Orderly) (id : Nat) :
    (settle { s with pending := s.pending.erase id } id .rejected).Orderly where
  counted := h.counted
  queued other := by
    have hnodup : s.pending.Nodup := h.inOrder.imp fun hlt => Nat.ne_of_lt hlt
    rw [answer_settle]
    show other ∈ s.pending.erase id ↔ _
    rw [hnodup.mem_erase_iff, h.queued]
    change _ ↔ (if id = other ∧ s.answer other = some .pending then _ else s.answer other) = _
    by_cases hid : id = other
    · subst hid
      by_cases hp : s.answer id = some .pending <;> simp [hp]
    · simp [hid, Ne.symm hid]
  inOrder := h.inOrder.sublist List.erase_sublist
  resolved other := by
    rw [answer_settle]
    show other ∈ s.taken ↔ (if id = other ∧ s.answer other = some .pending then _ else s.answer other) = _
    rw [h.resolved]
    by_cases hp : id = other ∧ s.answer other = some .pending
    · simp [hp]
    · rw [if_neg hp]
  takenInOrder := h.takenInOrder
  overtaken other hother haborted := by
    rw [isAborted_settle] at haborted
    exact h.overtaken other (List.mem_of_mem_erase hother) haborted
  released other := by rw [isReleased_settle]; exact h.released other
  returnedOnce := h.returnedOnce
  gaveBackTaken := h.gaveBackTaken

/-- The request takes a slot. -/
def start (s : Lane) (id : Nat) : Lane :=
  settle { s with
    running := s.running + 1
    taken := s.taken ++ [id]
    pending := s.pending.erase id } id .resolved

/-- A waiting request may take a slot if every one that came before it is answered or aborted. -/
theorem Orderly.start (h : s.Orderly) (hwaits : s.answer id = some .pending)
    (hlast : ∀ other ∈ s.taken, other < id)
    (hfirst : ∀ other ∈ s.pending, other < id → s.isAborted other = true) : (s.start id).Orderly where
  counted := by
    have hlength : (s.taken ++ [id]).length = s.taken.length + 1 := by simp
    have hcounted := h.counted
    show s.running + 1 + (s.returned.length : Int) = (s.taken ++ [id]).length
    omega
  queued other := by
    have hnodup : s.pending.Nodup := h.inOrder.imp fun hlt => Nat.ne_of_lt hlt
    unfold Lane.start
    rw [answer_settle]
    show other ∈ s.pending.erase id ↔
      (if id = other ∧ s.answer other = some .pending then _ else s.answer other) = _
    rw [hnodup.mem_erase_iff, h.queued]
    by_cases hid : id = other
    · subst hid
      simp [hwaits]
    · simp [hid, Ne.symm hid]
  inOrder := h.inOrder.sublist List.erase_sublist
  resolved other := by
    unfold Lane.start
    rw [answer_settle]
    show other ∈ s.taken ++ [id] ↔
      (if id = other ∧ s.answer other = some .pending then _ else s.answer other) = _
    rw [List.mem_append, List.mem_singleton, h.resolved]
    by_cases hid : id = other
    · subst hid
      simp [hwaits]
    · simp [hid, Ne.symm hid]
  takenInOrder := by
    show (s.taken ++ [id]).Pairwise (· < ·)
    refine List.pairwise_append.2 ⟨h.takenInOrder, List.pairwise_singleton _ _, ?_⟩
    intro other hother id' hid'
    rw [List.mem_singleton.1 hid']
    exact hlast other hother
  overtaken other hother haborted earlier hearlier := by
    have hnodup : s.pending.Nodup := h.inOrder.imp fun hlt => Nat.ne_of_lt hlt
    unfold Lane.start at haborted
    rw [isAborted_settle] at haborted
    obtain ⟨hne, hmem⟩ := hnodup.mem_erase_iff.1 hother
    rcases List.mem_append.1 hearlier with hearlier | hearlier
    · exact h.overtaken other hmem haborted earlier hearlier
    · rw [List.mem_singleton.1 hearlier]
      rcases Nat.lt_or_ge id other with hlt | hle
      · exact hlt
      · have hbefore := hfirst other hmem (by omega)
        rw [show s.isAborted other = false from haborted] at hbefore
        exact absurd hbefore (by simp)
  released other := by
    unfold Lane.start
    rw [isReleased_settle]
    exact h.released other
  returnedOnce := h.returnedOnce
  gaveBackTaken other hother := List.mem_append_left _ (h.gaveBackTaken other hother)

/-! ## The lines of the lane -/

/-- A slot is free. The longest waiting request that is not aborted takes it. -/
theorem Orderly.promote (h : s.Orderly) (hfree : s.running + 1 ≤ s.concurrency)
    (hfull : s.pending ≠ [] → s.running + 1 = s.concurrency) : (s.promote s.pending).Sound := by
  generalize hpending : s.pending = queue
  induction queue generalizing s with
  | nil =>
    exact { toOrderly := h, limited := by show s.running ≤ s.concurrency; omega
            full := fun hne => absurd hpending hne }
  | cons next rest ih =>
    have herase : s.pending.erase next = rest := by rw [hpending, List.erase_cons_head]
    have hmem : next ∈ s.pending := by rw [hpending]; exact List.mem_cons_self
    have hcapacity : s.running + 1 = s.concurrency := hfull (by rw [hpending]; simp)
    unfold promote
    by_cases haborted : s.isAborted next = true
    · have hnext : (settle { s with pending := rest } next .rejected).Orderly := by
        have hreject := h.reject next
        rw [herase] at hreject
        exact hreject
      have hrest : Lane.isAborted { s with pending := rest } next = true := haborted
      simp only [hrest, if_true]
      exact ih hnext hfree (fun _ => hcapacity) rfl
    · have hrest : ¬ Lane.isAborted { s with pending := rest } next = true := haborted
      simp only [hrest, if_false, Bool.false_eq_true]
      -- the first one that is not aborted has waited longest
      have hlistened := h.listen next false
      have hstart : ((s.listen next false).start next).Orderly := by
        refine hlistened.start (by rw [answer_listen]; exact (h.queued next).1 hmem) ?_ ?_
        · exact h.overtaken next hmem (by simpa using haborted)
        · intro other hother hlt
          have horder := h.inOrder
          rw [hpending] at horder
          have hother : other ∈ next :: rest := by rw [← hpending]; exact hother
          rcases List.mem_cons.1 hother with rfl | hother
          · omega
          · have hle := (List.pairwise_cons.1 horder).1 other hother
            omega
      have heq : ((Lane.listen { s with pending := rest } next false).tryStart next).2 =
          (s.listen next false).start next := by
        have hlt : (Lane.listen { s with pending := rest } next false).running < s.concurrency := by
          show s.running < s.concurrency
          omega
        unfold tryStart Lane.start
        rw [← herase] at hlt ⊢
        exact congrArg Prod.snd (if_pos hlt)
      rw [heq]
      exact { toOrderly := hstart
              limited := by show s.running + 1 ≤ s.concurrency; omega
              full := fun _ => hcapacity }

/-! ## The calls -/

theorem Orderly.spend (h : s.Orderly) (hresolved : s.answer id = some .resolved)
    (hheld : s.isReleased id = false) :
    Orderly { s.spend id with running := s.running - 1, returned := s.returned ++ [id] } := by
  have hnew : id ∉ s.returned := fun hmem => by simp [(h.released id).1 hmem] at hheld
  refine ⟨?_, ?_, h.inOrder, ?_, h.takenInOrder, ?_, ?_, ?_, ?_⟩
  · have hlength : (s.returned ++ [id]).length = s.returned.length + 1 := by simp
    have hcounted := h.counted
    show s.running - 1 + ((s.returned ++ [id]).length : Int) = s.taken.length
    omega
  · intro other
    show other ∈ s.pending ↔ (s.spend id).answer other = _
    rw [answer_spend]
    exact h.queued other
  · intro other
    show other ∈ s.taken ↔ (s.spend id).answer other = _
    rw [answer_spend]
    exact h.resolved other
  · intro other hother haborted
    refine h.overtaken other hother ?_
    rw [← isAborted_spend s id]
    exact haborted
  · intro other
    show other ∈ s.returned ++ [id] ↔ (s.spend id).isReleased other = true
    rw [List.mem_append, List.mem_singleton, h.released, isReleased_spend, Bool.or_eq_true]
    by_cases hid : id = other
    · subst hid
      simp [hresolved]
    · simp [hid, Ne.symm hid]
  · exact List.nodup_append.2 ⟨h.returnedOnce, List.nodup_singleton _, fun x hx y hy hxy =>
      hnew (by rw [← List.mem_singleton.1 hy, ← hxy]; exact hx)⟩
  · intro other hother
    rcases List.mem_append.1 hother with hother | hother
    · exact h.gaveBackTaken other hother
    · rw [List.mem_singleton.1 hother]
      exact (h.resolved id).2 hresolved

theorem Sound.release (h : s.Sound) (id : Nat) : (s.release id).Sound := by
  unfold Lane.release
  by_cases hcall : (decide (s.answer id = some .resolved) && !s.isReleased id) = true
  · rw [if_pos hcall]
    rw [Bool.and_eq_true, decide_eq_true_eq, Bool.not_eq_true'] at hcall
    have hlimited := h.limited
    refine (h.toOrderly.spend hcall.1 hcall.2).promote ?_ ?_
    · show s.running - 1 + 1 ≤ s.concurrency
      omega
    · intro hne
      have hfull := h.full hne
      show s.running - 1 + 1 = s.concurrency
      omega
  · rw [if_neg hcall]
    exact h

/-- The request of the next number arrives and waits. -/
def arrive (s : Lane) (signal : Option Nat) : Lane :=
  { s with
    requests := s.requests ++ [⟨signal, .pending, false, false⟩]
    pending := s.pending ++ [s.requests.length] }

theorem getElem?_arrive (s : Lane) (signal : Option Nat) (other : Nat) :
    (s.arrive signal).requests[other]? =
      if other = s.requests.length then some ⟨signal, .pending, false, false⟩ else s.requests[other]? := by
  show (s.requests ++ [_])[other]? = _
  rcases Nat.lt_trichotomy other s.requests.length with hlt | rfl | hgt
  · rw [List.getElem?_append_left hlt, if_neg (by omega)]
  · simp
  · rw [if_neg (by omega), List.getElem?_eq_none (by simp; omega), List.getElem?_eq_none (by omega)]

theorem answer_arrive (s : Lane) (signal : Option Nat) (other : Nat) :
    (s.arrive signal).answer other =
      if other = s.requests.length then some .pending else s.answer other := by
  unfold answer
  rw [getElem?_arrive]
  split <;> rfl

theorem isReleased_arrive (s : Lane) (signal : Option Nat) (other : Nat) :
    (s.arrive signal).isReleased other = s.isReleased other := by
  unfold isReleased
  rw [getElem?_arrive]
  split
  · rw [List.getElem?_eq_none (by omega)]
    rfl
  · rfl

theorem isAborted_arrive (s : Lane) (signal : Option Nat) {other : Nat}
    (hold : other < s.requests.length) : (s.arrive signal).isAborted other = s.isAborted other := by
  unfold isAborted
  rw [getElem?_arrive, if_neg (by omega)]
  rfl

theorem Orderly.arrive (h : s.Orderly) (signal : Option Nat) : (s.arrive signal).Orderly where
  counted := h.counted
  queued other := by
    rw [answer_arrive]
    show other ∈ s.pending ++ [s.requests.length] ↔ _
    rw [List.mem_append, List.mem_singleton, h.queued]
    by_cases hlast : other = s.requests.length <;> simp [hlast]
  inOrder := by
    show (s.pending ++ [s.requests.length]).Pairwise (· < ·)
    refine List.pairwise_append.2 ⟨h.inOrder, List.pairwise_singleton _ _, ?_⟩
    intro other hother last hlast
    rw [List.mem_singleton.1 hlast]
    exact lt_of_answer ((h.queued other).1 hother)
  resolved other := by
    rw [answer_arrive]
    show other ∈ s.taken ↔ _
    rw [h.resolved]
    by_cases hlast : other = s.requests.length
    · subst hlast
      have hnone : s.answer s.requests.length ≠ some .resolved := fun heq =>
        Nat.lt_irrefl _ (lt_of_answer heq)
      simp [hnone]
    · rw [if_neg hlast]
  takenInOrder := h.takenInOrder
  overtaken other hother haborted earlier hearlier := by
    have hearlier : earlier ∈ s.taken := hearlier
    rcases List.mem_append.1 hother with hother | hother
    · have hold := lt_of_answer ((h.queued other).1 hother)
      rw [isAborted_arrive s signal hold] at haborted
      exact h.overtaken other hother haborted earlier hearlier
    · rw [List.mem_singleton.1 hother]
      exact lt_of_answer ((h.resolved earlier).1 hearlier)
  released other := by rw [isReleased_arrive]; exact h.released other
  returnedOnce := h.returnedOnce
  gaveBackTaken := h.gaveBackTaken

theorem erase_arrived (h : s.Orderly) :
    (s.pending ++ [s.requests.length]).erase s.requests.length = s.pending := by
  have hnew : s.requests.length ∉ s.pending := fun hmem =>
    Nat.lt_irrefl _ (lt_of_answer ((h.queued _).1 hmem))
  rw [List.erase_append_right _ hnew, List.erase_cons_head, List.append_nil]

theorem Sound.acquire (h : s.Sound) (signal : Option Nat) : (s.acquire signal).Sound := by
  have harrived := h.toOrderly.arrive signal
  have herase := erase_arrived h.toOrderly
  unfold Lane.acquire tryStart
  by_cases hfree : s.running < s.concurrency
  · -- nobody waits while a slot is free
    have hnone : s.pending = [] := by
      by_contra hne
      have hfull := h.full hne
      omega
    have hstart : ((s.arrive signal).start s.requests.length).Orderly := by
      refine harrived.start (by rw [answer_arrive, if_pos rfl]) ?_ ?_
      · exact fun other hother => lt_of_answer ((h.resolved other).1 hother)
      · intro other hother hlt
        have hother : other ∈ s.pending ++ [s.requests.length] := hother
        rw [hnone, List.nil_append, List.mem_singleton] at hother
        omega
    have hpending : ((s.arrive signal).start s.requests.length).pending = s.pending := herase
    simp only [if_pos hfree]
    have heq : settle { s with
        requests := s.requests ++ [⟨signal, .pending, false, false⟩]
        running := s.running + 1
        taken := s.taken ++ [s.requests.length] } s.requests.length .resolved =
        (s.arrive signal).start s.requests.length := by
      unfold Lane.start Lane.arrive
      simp only [herase]
    simp only [if_true]
    rw [heq]
    exact { toOrderly := hstart
            limited := by show s.running + 1 ≤ s.concurrency; omega
            full := fun hne => absurd (hpending.trans hnone) hne }
  · have hlimited := h.limited
    have hfull : s.running = s.concurrency := by omega
    simp only [if_neg hfree, Bool.false_eq_true, if_false]
    by_cases haborted : s.signalAborted signal = true
    · rw [if_pos (show Lane.signalAborted { s with
        requests := s.requests ++ [⟨signal, .pending, false, false⟩] } signal = true from haborted)]
      have hreject := harrived.reject s.requests.length
      rw [show (s.arrive signal).pending = s.pending ++ [s.requests.length] from rfl, herase] at hreject
      exact { toOrderly := hreject, limited := h.limited, full := h.full }
    · rw [if_neg (show ¬ Lane.signalAborted { s with
        requests := s.requests ++ [⟨signal, .pending, false, false⟩] } signal = true from haborted)]
      have hlistened := harrived.listen s.requests.length signal.isSome
      exact { toOrderly := hlistened, limited := h.limited, full := fun _ => hfull }

theorem Sound.onAbort (h : s.Sound) (id : Nat) : (s.onAbort id).Sound := by
  unfold Lane.onAbort
  split
  · have hlistened := h.toOrderly.listen id false
    exact { toOrderly := hlistened.reject id
            limited := h.limited
            full := fun hne => h.full fun hnil => hne (by
              show s.pending.erase id = []
              rw [hnil]
              rfl) }
  · exact h

theorem Sound.abort (h : s.Sound) (signal : Nat) :
    Sound { s with aborted := signal :: s.aborted } where
  counted := h.counted
  queued := h.queued
  inOrder := h.inOrder
  resolved := h.resolved
  takenInOrder := h.takenInOrder
  overtaken id hid haborted := by
    rw [isAborted_abort, Bool.or_eq_false_iff] at haborted
    exact h.overtaken id hid haborted.1
  released := h.released
  returnedOnce := h.returnedOnce
  gaveBackTaken := h.gaveBackTaken
  limited := h.limited
  full := h.full

theorem Sound.step (h : s.Sound) (act : Act) : (s.step act).Sound := by
  cases act with
  | acquire signal => exact h.acquire signal
  | abort signal => exact h.abort signal
  | onAbort id => exact h.onAbort id
  | release id => exact h.release id

theorem sound_new (concurrency : Nat) : (new concurrency).Sound where
  counted := rfl
  queued id := by simp [new, answer]
  inOrder := List.Pairwise.nil
  resolved id := by simp [new, answer]
  takenInOrder := List.Pairwise.nil
  overtaken id hid := absurd hid List.not_mem_nil
  released id := by simp [new, isReleased]
  returnedOnce := List.nodup_nil
  gaveBackTaken id hid := absurd hid List.not_mem_nil
  limited := by simp [new]
  full hne := absurd rfl hne

theorem sound_run (concurrency : Nat) (acts : List Act) : ((new concurrency).run acts).Sound :=
  run_keeps (fun _ act h => h.step act) acts (sound_new concurrency)

/-! ## Who takes a slot -/

@[simp] theorem isAborted_tryStart (s : Lane) (id other : Nat) :
    (s.tryStart id).2.isAborted other = s.isAborted other := by
  unfold tryStart
  split
  · show (settle _ id .resolved).isAborted other = _
    rw [isAborted_settle]
    rfl
  · rfl

theorem isAborted_promote (s : Lane) (queue : List Nat) (other : Nat) :
    (s.promote queue).isAborted other = s.isAborted other := by
  induction queue generalizing s with
  | nil => rfl
  | cons next rest ih =>
    unfold promote
    dsimp only
    split
    · rw [ih, isAborted_settle]
      rfl
    · rw [isAborted_tryStart, isAborted_listen]
      rfl

theorem lt_of_isAborted (haborted : s.isAborted other = true) : other < s.requests.length := by
  unfold isAborted at haborted
  by_contra hge
  rw [List.getElem?_eq_none (by omega)] at haborted
  exact absurd haborted (by simp)

theorem isAborted_step (haborted : s.isAborted other = true)
    (act : Act) : (s.step act).isAborted other = true := by
  cases act with
  | acquire signal =>
    have harrived : Lane.isAborted { s with
        requests := s.requests ++ [⟨signal, .pending, false, false⟩] } other = true := by
      rw [← haborted]
      exact isAborted_arrive s signal (lt_of_isAborted haborted)
    show (s.acquire signal).isAborted other = true
    unfold acquire
    dsimp only
    split
    · rw [isAborted_tryStart]
      exact harrived
    · split
      · rw [isAborted_settle, isAborted_tryStart]
        exact harrived
      · show (listen _ _ _).isAborted other = true
        rw [isAborted_listen, isAborted_tryStart]
        exact harrived
  | abort signal =>
    show Lane.isAborted { s with aborted := signal :: s.aborted } other = true
    rw [isAborted_abort, haborted, Bool.true_or]
  | onAbort id =>
    show (s.onAbort id).isAborted other = true
    unfold onAbort
    split
    · rw [isAborted_settle]
      show (s.listen id false).isAborted other = true
      rw [isAborted_listen]
      exact haborted
    · exact haborted
  | release id =>
    show (s.release id).isAborted other = true
    unfold release
    split
    · rw [isAborted_promote]
      show (s.spend id).isAborted other = true
      rw [isAborted_spend]
      exact haborted
    · exact haborted

theorem mem_taken_tryStart (h : other ∈ (s.tryStart id).2.taken) : other ∈ s.taken ∨ other = id := by
  unfold tryStart at h
  split at h
  · rcases List.mem_append.1 (show other ∈ s.taken ++ [id] from h) with h | h
    · exact .inl h
    · exact .inr (List.mem_singleton.1 h)
  · exact .inl h

theorem mem_taken_promote {queue : List Nat} (h : other ∈ (s.promote queue).taken) :
    other ∈ s.taken ∨ s.isAborted other = false := by
  induction queue generalizing s with
  | nil => exact .inl h
  | cons next rest ih =>
    unfold promote at h
    dsimp only at h
    split at h
    · rcases ih h with h | h
      · exact .inl h
      · rw [isAborted_settle] at h
        exact .inr h
    · rename_i hnext
      rcases mem_taken_tryStart h with h | rfl
      · exact .inl h
      · exact .inr (Bool.eq_false_iff.2 hnext)

/-- Whoever takes a slot arrives with this very call, or has waited and is not aborted. -/
theorem mem_taken_step {act : Act} (h : other ∈ (s.step act).taken) :
    other ∈ s.taken ∨ other = s.requests.length ∨ s.isAborted other = false := by
  cases act with
  | acquire signal =>
    have h : other ∈ (s.acquire signal).taken := h
    unfold acquire at h
    dsimp only at h
    split at h
    · rcases mem_taken_tryStart h with h | h
      · exact .inl h
      · exact .inr (.inl h)
    · split at h
      · rcases mem_taken_tryStart (show other ∈ (tryStart _ _).2.taken from h) with h | h
        · exact .inl h
        · exact .inr (.inl h)
      · rcases mem_taken_tryStart (show other ∈ (tryStart _ _).2.taken from h) with h | h
        · exact .inl h
        · exact .inr (.inl h)
  | abort signal => exact .inl h
  | onAbort id =>
    have h : other ∈ (s.onAbort id).taken := h
    unfold onAbort at h
    split at h <;> exact .inl h
  | release id =>
    have h : other ∈ (s.release id).taken := h
    unfold release at h
    split at h
    · rcases mem_taken_promote h with h | h
      · exact .inl h
      · exact .inr (.inr ((isAborted_spend s id other).symm.trans h))
    · exact .inl h

theorem aborted_never_takes (haborted : s.isAborted id = true) (hnone : id ∉ s.taken) (acts : List Act) :
    id ∉ (s.run acts).taken := by
  refine (run_keeps (I := fun s : Lane => s.isAborted id = true ∧ id ∉ s.taken) ?_ acts
    ⟨haborted, hnone⟩).2
  intro s act h
  refine ⟨isAborted_step h.1 act, fun hmem => ?_⟩
  rcases mem_taken_step hmem with hmem | rfl | hfree
  · exact h.2 hmem
  · exact Nat.lt_irrefl _ (lt_of_isAborted h.1)
  · rw [h.1] at hfree
    exact absurd hfree (by simp)

/-! ## Counting slots -/

theorem concurrency_tryStart (s : Lane) (id : Nat) : (s.tryStart id).2.concurrency = s.concurrency := by
  unfold tryStart
  split <;> rfl

theorem concurrency_promote (s : Lane) (queue : List Nat) :
    (s.promote queue).concurrency = s.concurrency := by
  induction queue generalizing s with
  | nil => rfl
  | cons next rest ih =>
    unfold promote
    dsimp only
    split
    · exact ih _
    · exact concurrency_tryStart _ _

theorem concurrency_step (s : Lane) (act : Act) : (s.step act).concurrency = s.concurrency := by
  cases act with
  | acquire signal =>
    show (s.acquire signal).concurrency = _
    unfold acquire
    dsimp only
    split
    · exact concurrency_tryStart _ _
    · split
      · exact concurrency_tryStart _ _
      · exact concurrency_tryStart _ _
  | abort signal => rfl
  | onAbort id =>
    show (s.onAbort id).concurrency = _
    unfold onAbort
    split <;> rfl
  | release id =>
    show (s.release id).concurrency = _
    unfold release
    split
    · exact concurrency_promote _ _
    · rfl

theorem concurrency_run (s : Lane) (acts : List Act) : (s.run acts).concurrency = s.concurrency :=
  run_keeps (I := fun s' : Lane => s'.concurrency = s.concurrency)
    (fun s' act h => (concurrency_step s' act).trans h) acts rfl

theorem mem_holders : id ∈ s.holders ↔ id ∈ s.taken ∧ id ∉ s.returned := by
  unfold holders
  rw [List.mem_filter, Bool.not_eq_true', List.contains_eq_mem, decide_eq_false_iff_not]

theorem Orderly.holders_length (h : s.Orderly) : (s.holders.length : Int) = s.running := by
  have htaken : s.taken.Nodup := h.takenInOrder.imp fun hlt => Nat.ne_of_lt hlt
  have hperm : (s.taken.filter fun id => s.returned.contains id).Perm s.returned := by
    rw [List.perm_ext_iff_of_nodup (htaken.filter _) h.returnedOnce]
    intro id
    rw [List.mem_filter, List.contains_iff_mem]
    exact ⟨fun hid => hid.2, fun hid => ⟨h.gaveBackTaken id hid, hid⟩⟩
  have hsplit := List.length_eq_length_filter_add (l := s.taken) fun id => s.returned.contains id
  have hreturned := hperm.length_eq
  have hcounted := h.counted
  have hholders : s.holders.length = (s.taken.filter fun id => !s.returned.contains id).length := rfl
  omega

theorem returned_promote (s : Lane) (queue : List Nat) : (s.promote queue).returned = s.returned := by
  induction queue generalizing s with
  | nil => rfl
  | cons next rest ih =>
    unfold promote
    dsimp only
    split
    · exact ih _
    · unfold tryStart
      split <;> rfl

theorem Orderly.returned_release (h : s.Orderly) (hholds : id ∈ s.holders) :
    (s.release id).returned = s.returned ++ [id] := by
  obtain ⟨htaken, hheld⟩ := mem_holders.1 hholds
  have hreleased : s.isReleased id = false := by
    rw [← Bool.not_eq_true, ← h.released]
    exact hheld
  unfold release
  rw [if_pos (by rw [(h.resolved id).1 htaken, hreleased]; rfl)]
  exact returned_promote _ _

/-- Only a holder's `release` does anything. -/
theorem Orderly.release_of_not_holder (h : s.Orderly) (hfree : id ∉ s.holders) : s.release id = s := by
  unfold release
  refine if_neg fun hcall => hfree ?_
  rw [Bool.and_eq_true, decide_eq_true_eq, Bool.not_eq_true', ← Bool.not_eq_true, ← h.released] at hcall
  exact mem_holders.2 ⟨(h.resolved id).2 hcall.1, hcall.2⟩

end Staaash.Transfers.Lane
