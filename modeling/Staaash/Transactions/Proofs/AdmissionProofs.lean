import Mathlib.Data.List.Count
import Mathlib.Data.List.Pairwise
import Staaash.Library.Runs
import Staaash.Transactions.Admission

/-!
# One admitted operation per owner

The tickets of the calls form a chain, each phase says where its ticket stands in it, and the waiters that
are held are counted.
-/

namespace Staaash.Transactions.Process

open Staaash.Library

variable {s : Process} {id : Nat} {c c' : Call} {t : Ticket String}

/-! ## The table of calls -/

theorem lt_of_call (h : s.calls[id]? = some c) : id < s.calls.length :=
  (List.getElem?_eq_some_iff.1 h).1

theorem put_eq_some {other : Nat} {d : Call} (h : s.calls[id]? = some c)
    (hd : (s.put id c').calls[other]? = some d) :
    other = id ∧ d = c' ∨ other ≠ id ∧ s.calls[other]? = some d := by
  have hd : (s.calls.set id c')[other]? = some d := hd
  by_cases ho : other = id
  · subst ho
    rw [List.getElem?_set_self (lt_of_call h), Option.some.injEq] at hd
    exact .inl ⟨rfl, hd.symm⟩
  · rw [List.getElem?_set_ne (Ne.symm ho)] at hd
    exact .inr ⟨ho, hd⟩

theorem call_put_self (h : s.calls[id]? = some c) : (s.put id c').calls[id]? = some c' :=
  List.getElem?_set_self (lt_of_call h)

theorem call_put_of_ne {other : Nat} (hne : other ≠ id) :
    (s.put id c').calls[other]? = s.calls[other]? :=
  List.getElem?_set_ne (Ne.symm hne)

theorem ticket_of_call (h : s.calls[id]? = some c) : s.ticket id = c.ticket := by
  unfold ticket
  rw [h]
  rfl

theorem exists_call_of_ticket (h : s.ticket id = some t) :
    ∃ c, s.calls[id]? = some c ∧ c.ticket = some t := Option.bind_eq_some_iff.1 h

theorem ticket_put (h : s.calls[id]? = some c) :
    (s.put id c').ticket = Function.update s.ticket id c'.ticket := by
  funext other
  by_cases ho : other = id
  · subst ho
    rw [Function.update_self]
    exact ticket_of_call (call_put_self h)
  · rw [Function.update_of_ne ho]
    unfold ticket
    rw [call_put_of_ne ho]

theorem countP_put (h : s.calls[id]? = some c) (c' : Call) :
    ((s.put id c').calls.countP Call.waiting : Int) =
      s.calls.countP Call.waiting - (if c.waiting then 1 else 0) + (if c'.waiting then 1 else 0) := by
  obtain ⟨hlt, hget⟩ := List.getElem?_eq_some_iff.1 h
  show ((s.calls.set id c').countP Call.waiting : Int) = _
  rw [List.countP_set hlt, hget]
  by_cases hc : c.waiting = true
  · have hpos : 0 < s.calls.countP Call.waiting :=
      List.countP_pos_iff.2 ⟨c, List.mem_of_getElem? h, hc⟩
    rw [if_pos hc, if_pos hc]
    split <;> omega
  · rw [if_neg hc, if_neg hc]
    split <;> omega

/-! ## The invariant -/

/-- Where the phase says that the ticket stands. -/
def Fits (tickets : Nat → Option (Ticket String)) (t : Ticket String) : Phase → Prop
  | .queued verdict => t.completed = false ∧ (verdict = some .passed → IsFirst tickets t)
  | .turn | .operating _ _ | .pausing _ _ _ | .leaving => t.completed = false ∧ IsFirst tickets t
  | .released => t.completed = true ∧ IsFirst tickets t
  | .refused _ => t.completed = true

/-- The call was given its owner's turn. -/
def IsListed (c : Call) : Prop :=
  c.ticket.isSome = true ∧ (c.phase.isAdmitted = true ∨ c.phase = .released)

/-- What a call's phase says about its other fields, but for its ticket. -/
structure Proper (s : Process) (c : Call) : Prop where
  waits : c.waiting = c.phase.waits
  queued : ∀ v, c.phase = .queued v → c.ticket.isSome = true
  refused : ∀ v, c.phase = .refused v → v = .busy ∨ v = .cancelled ∧ s.signalAborted c.signal = true
  decided : c.phase = .queued (some .cancelled) → s.signalAborted c.signal = true

def InOrder (s : Process) (admitted : List Nat) : Prop :=
  admitted.Pairwise fun a b => s.ownerOf a = s.ownerOf b → a < b

structure Sound (s : Process) : Prop where
  chained : Chained s.ticket s.ownerTails
  counted : s.waitingRequests = s.calls.countP Call.waiting
  limited : s.waitingRequests ≤ maxWaitingRequests
  proper : ∀ (id : Nat) (c : Call), s.calls[id]? = some c → s.Proper c
  fits : ∀ (id : Nat) (c : Call) t, s.calls[id]? = some c → c.ticket = some t → Fits s.ticket t c.phase
  listed : ∀ (id : Nat) (c : Call), s.calls[id]? = some c → (id ∈ s.admitted ↔ IsListed c)
  arrived : ∀ id ∈ s.admitted, id < s.calls.length
  inOrder : s.InOrder s.admitted

theorem IsFirst.mono {tickets tickets' : Nat → Option (Ticket String)} (h : IsFirst tickets t)
    (hkept : ∀ p before, tickets p = some before → before.resolved = true →
      ∃ after, tickets' p = some after ∧ after.resolved = true) : IsFirst tickets' t := by
  intro p hp
  obtain ⟨before, hbefore, hresolved⟩ := h p hp
  exact hkept p before hbefore hresolved

theorem Fits.mono {tickets tickets' : Nat → Option (Ticket String)} {phase : Phase}
    (h : Fits tickets t phase)
    (hkept : ∀ p before, tickets p = some before → before.resolved = true →
      ∃ after, tickets' p = some after ∧ after.resolved = true) : Fits tickets' t phase := by
  cases phase with
  | queued v => exact ⟨h.1, fun hv => IsFirst.mono (h.2 hv) hkept⟩
  | turn => exact ⟨h.1, IsFirst.mono h.2 hkept⟩
  | operating _ _ => exact ⟨h.1, IsFirst.mono h.2 hkept⟩
  | pausing _ _ _ => exact ⟨h.1, IsFirst.mono h.2 hkept⟩
  | leaving => exact ⟨h.1, IsFirst.mono h.2 hkept⟩
  | released => exact ⟨h.1, IsFirst.mono h.2 hkept⟩
  | refused _ => exact h

theorem Fits.isFirst {tickets : Nat → Option (Ticket String)} {phase : Phase} (h : Fits tickets t phase)
    (hstage : phase.isAdmitted = true ∨ phase = .released) : IsFirst tickets t := by
  cases phase with
  | queued _ => rcases hstage with hbad | hbad <;> exact absurd hbad (by simp [Phase.isAdmitted])
  | turn => exact h.2
  | operating _ _ => exact h.2
  | pausing _ _ _ => exact h.2
  | leaving => exact h.2
  | released => exact h.2
  | refused _ => rcases hstage with hbad | hbad <;> exact absurd hbad (by simp [Phase.isAdmitted])

theorem Fits.open_of_admitted {tickets : Nat → Option (Ticket String)} {phase : Phase}
    (h : Fits tickets t phase) (hadmitted : phase.isAdmitted = true) : t.completed = false := by
  cases phase with
  | queued _ => exact h.1
  | turn => exact h.1
  | operating _ _ => exact h.1
  | pausing _ _ _ => exact h.1
  | leaving => exact h.1
  | released => exact absurd hadmitted (by simp [Phase.isAdmitted])
  | refused _ => exact absurd hadmitted (by simp [Phase.isAdmitted])

theorem Fits.over_of_completed {tickets : Nat → Option (Ticket String)} {phase : Phase}
    (h : Fits tickets t phase) (hcompleted : t.completed = true) :
    phase = .released ∨ ∃ v, phase = .refused v := by
  cases phase with
  | released => exact .inl rfl
  | refused v => exact .inr ⟨v, rfl⟩
  | _ =>
    have hopen : t.completed = false := h.1
    rw [hcompleted] at hopen
    exact absurd hopen (by simp)

/-! ## Moves of a call -/

/-- The call goes on as another one, and the waiters are counted again. -/
def move (s : Process) (id : Nat) (c c' : Call) : Process :=
  put { s with
    waitingRequests :=
      s.waitingRequests - (if c.waiting then 1 else 0) + (if c'.waiting then 1 else 0) } id c'

/-- Its ticket keeps its owner and stays through. -/
def Carries (c c' : Call) : Prop :=
  (c.ticket = none ∧ c'.ticket = none) ∨
    ∃ t t', c.ticket = some t ∧ c'.ticket = some t' ∧ t'.owner = t.owner ∧
      (t.resolved = true → t'.resolved = true)

theorem carries_of_same (h : c'.ticket = c.ticket) : Carries c c' := by
  rcases hc : c.ticket with _ | t
  · exact .inl ⟨hc, h.trans hc⟩
  · exact .inr ⟨t, t, hc, h.trans hc, rfl, id⟩

theorem ticket_complete (c : Call) :
    c.complete.ticket = c.ticket.map fun t => { t with completed := true } := rfl

theorem carries_complete (h : c'.ticket = c.complete.ticket) : Carries c c' := by
  rcases hc : c.ticket with _ | t
  · exact .inl ⟨hc, by rw [h, ticket_complete, hc, Option.map_none]⟩
  · exact .inr ⟨t, { t with completed := true }, hc, by rw [h, ticket_complete, hc, Option.map_some], rfl,
      id⟩

theorem Carries.isSome (h : Carries c c') : c'.ticket.isSome = c.ticket.isSome := by
  rcases h with ⟨hc, hc'⟩ | ⟨t, t', hc, hc', -⟩
  · rw [hc, hc']
  · rw [hc, hc']
    rfl

theorem Carries.ownerOf (h : Carries c c') (hc : s.calls[id]? = some c) :
    (s.put id c').ownerOf = s.ownerOf := by
  funext other
  unfold Process.ownerOf
  rw [ticket_put hc]
  by_cases ho : other = id
  · subst ho
    rw [Function.update_self, ticket_of_call hc]
    rcases h with ⟨hc, hc'⟩ | ⟨t, t', hc, hc', howner, -⟩
    · rw [hc, hc']
    · rw [hc, hc', Option.map_some, Option.map_some, howner]
  · rw [Function.update_of_ne ho]

theorem Carries.resolved (h : Carries c c') (hc : s.calls[id]? = some c) (p : Nat)
    (before : Ticket String) (hbefore : s.ticket p = some before) (hresolved : before.resolved = true) :
    ∃ after, (s.put id c').ticket p = some after ∧ after.resolved = true := by
  rw [ticket_put hc]
  by_cases hp : p = id
  · subst hp
    rw [ticket_of_call hc] at hbefore
    rcases h with ⟨hnone, -⟩ | ⟨t, t', ht, ht', -, hkept⟩
    · rw [hnone] at hbefore
      exact absurd hbefore (by simp)
    · rw [ht, Option.some.injEq] at hbefore
      exact ⟨t', (Function.update_self _ _ _).trans ht', hkept (hbefore ▸ hresolved)⟩
  · exact ⟨before, (Function.update_of_ne hp _ _).trans hbefore, hresolved⟩

/-- What a move keeps, where the call itself stays in step. -/
theorem Sound.move (h : s.Sound) (hc : s.calls[id]? = some c) (c' : Call) (hcarries : Carries c c')
    {admitted : List Nat} {tails : String → Option Nat}
    (hchained : Chained (Function.update s.ticket id c'.ticket) tails)
    (hlimit : c'.waiting = true → c.waiting = true ∨ s.waitingRequests < maxWaitingRequests)
    (hproper : s.Proper c') (hfits : ∀ t, c'.ticket = some t → Fits s.ticket t c'.phase)
    (hself : id ∈ admitted ↔ IsListed c')
    (hothers : ∀ other, other ≠ id → (other ∈ admitted ↔ other ∈ s.admitted))
    (hinOrder : s.InOrder admitted) :
    Sound { s.move id c c' with admitted := admitted, ownerTails := tails } := by
  have hticket : ({ s.move id c c' with admitted := admitted, ownerTails := tails } : Process).ticket =
      (s.put id c').ticket := rfl
  refine
    { chained := ?_, counted := ?_, limited := ?_, proper := ?_, fits := ?_, listed := ?_
      arrived := ?_, inOrder := ?_ }
  · rw [hticket, ticket_put hc]
    exact hchained
  · have hcount := countP_put hc c'
    have hcounted := h.counted
    show s.waitingRequests - _ + _ = ((s.put id c').calls.countP Call.waiting : Int)
    omega
  · have hlimited := h.limited
    show s.waitingRequests - (if c.waiting then 1 else 0) + (if c'.waiting then 1 else 0) ≤ _
    by_cases hwaiting : c'.waiting = true
    · rcases hlimit hwaiting with hold | hroom
      · rw [if_pos hwaiting, if_pos hold]
        omega
      · rw [if_pos hwaiting]
        split <;> omega
    · rw [if_neg hwaiting]
      split <;> omega
  · intro other d hd
    rcases put_eq_some hc hd with ⟨rfl, rfl⟩ | ⟨-, hold⟩
    · exact ⟨hproper.waits, hproper.queued, hproper.refused, hproper.decided⟩
    · have hd := h.proper other d hold
      exact ⟨hd.waits, hd.queued, hd.refused, hd.decided⟩
  · intro other d t hd ht
    rw [hticket]
    refine Fits.mono ?_ (hcarries.resolved hc)
    rcases put_eq_some hc hd with ⟨rfl, rfl⟩ | ⟨-, hold⟩
    · exact hfits t ht
    · exact h.fits other d t hold ht
  · intro other d hd
    show other ∈ admitted ↔ _
    rcases put_eq_some hc hd with ⟨rfl, rfl⟩ | ⟨hne, hold⟩
    · exact hself
    · rw [hothers other hne]
      exact h.listed other d hold
  · intro other hother
    have hlength : (s.put id c').calls.length = s.calls.length := List.length_set
    show other < (s.put id c').calls.length
    rw [hlength]
    by_cases ho : other = id
    · rw [ho]
      exact lt_of_call hc
    · exact h.arrived other ((hothers other ho).1 hother)
  · have howner : ({ s.move id c c' with admitted := admitted, ownerTails := tails } : Process).ownerOf =
        s.ownerOf := hcarries.ownerOf hc
    show List.Pairwise _ admitted
    rw [howner]
    exact hinOrder

theorem put_eq_move (hsame : c'.waiting = c.waiting) : s.put id c' = s.move id c c' := by
  unfold move
  rw [hsame, Int.sub_add_cancel]

theorem release_eq_move (hsame : c'.waiting = c.waiting) :
    s.release id c' = s.move id c { c' with waiting := false } := by
  unfold release move
  rw [hsame]
  by_cases hwaiting : c.waiting = true
  · rw [if_pos hwaiting, if_pos hwaiting]
    simp
  · rw [if_neg hwaiting, if_neg hwaiting]
    have hc' : ({ c' with waiting := false } : Call) = c' := by
      rw [← Bool.eq_false_iff.2 hwaiting, ← hsame]
    rw [hc']
    simp [hsame, hwaiting]

theorem acquire_eq_some {s' : Process} (hsame : c'.waiting = c.waiting) (h : s.acquire id c' = some s') :
    s' = s.move id c { c' with waiting := true } ∧
      (c.waiting = true ∨ s.waitingRequests < maxWaitingRequests) := by
  unfold acquire at h
  rw [hsame] at h
  by_cases hwaiting : c.waiting = true
  · rw [if_pos hwaiting, Option.some.injEq] at h
    have hc' : ({ c' with waiting := true } : Call) = c' := by rw [← hwaiting, ← hsame]
    refine ⟨?_, .inl hwaiting⟩
    rw [hc', ← put_eq_move hsame, h]
  · rw [if_neg hwaiting] at h
    split at h
    · exact absurd h (by simp)
    · rename_i hroom
      rw [Option.some.injEq] at h
      refine ⟨?_, .inr (by omega)⟩
      unfold move
      rw [← h, if_neg hwaiting]
      simp

/-- A move within a phase's side of the turn, with the same ticket. -/
theorem Sound.goOn (h : s.Sound) (hc : s.calls[id]? = some c) (hticket : c'.ticket = c.ticket)
    (hlimit : c'.waiting = true → c.waiting = true ∨ s.waitingRequests < maxWaitingRequests)
    (hproper : s.Proper c')
    (hfits : ∀ t, c.ticket = some t → Fits s.ticket t c.phase → Fits s.ticket t c'.phase)
    (hlisted : (c'.phase.isAdmitted = true ∨ c'.phase = .released) ↔
      (c.phase.isAdmitted = true ∨ c.phase = .released)) : (s.move id c c').Sound := by
  have hchained : Chained (Function.update s.ticket id c'.ticket) s.ownerTails := by
    rw [hticket, ← ticket_of_call hc, Function.update_eq_self]
    exact h.chained
  refine h.move hc c' (carries_of_same hticket) hchained hlimit hproper ?_ ?_ (fun _ _ => Iff.rfl) h.inOrder
  · intro t ht
    exact hfits t (hticket ▸ ht) (h.fits id c t hc (hticket ▸ ht))
  · rw [h.listed id c hc]
    unfold IsListed
    rw [hticket, hlisted]

/-- The call completes its ticket, as it ends. -/
theorem Sound.complete (h : s.Sound) (hc : s.calls[id]? = some c)
    (hticket : c'.ticket = c.complete.ticket) (hwaiting : c'.waiting = false) (hproper : s.Proper c')
    (hover : c'.phase.isOver = true)
    (hfirst : c'.phase = .released → ∀ t, c.ticket = some t → IsFirst s.ticket t)
    (hlisted : c'.phase = .released ↔ c.phase.isAdmitted = true ∨ c.phase = .released) :
    (s.move id c c').Sound := by
  have hcarries := carries_complete hticket
  have hchained : Chained (Function.update s.ticket id c'.ticket) s.ownerTails := by
    rw [hticket, ticket_complete]
    rcases ht : c.ticket with _ | t
    · rw [Option.map_none, ← ht, ← ticket_of_call hc, Function.update_eq_self]
      exact h.chained
    · exact h.chained.complete ((ticket_of_call hc).trans ht)
  refine h.move hc c' hcarries hchained (fun hbad => ?_) hproper ?_ ?_ (fun _ _ => Iff.rfl) h.inOrder
  · rw [hwaiting] at hbad
    exact absurd hbad (by simp)
  · intro t ht
    rw [hticket, ticket_complete, Option.map_eq_some_iff] at ht
    obtain ⟨before, hbefore, rfl⟩ := ht
    cases hphase : c'.phase with
    | released => exact ⟨rfl, hfirst hphase before hbefore⟩
    | refused _ => rfl
    | _ => rw [hphase] at hover; exact absurd hover (by simp [Phase.isOver])
  · rw [h.listed id c hc]
    unfold IsListed
    rw [hcarries.isSome]
    have hnot : c'.phase.isAdmitted = false := by
      cases hphase : c'.phase <;> simp_all [Phase.isOver, Phase.isAdmitted]
    rw [hnot, ← hlisted]
    simp

/-! ## The events -/

theorem Sound.takeTurn (h : s.Sound) (hc : s.calls[id]? = some c) {verdict : Verdict}
    (hphase : c.phase = .queued (some verdict)) : (s.takeTurn id c verdict).Sound := by
  have hproper := h.proper id c hc
  unfold Process.takeTurn
  by_cases hpassed : verdict = .passed
  · subst hpassed
    rw [if_pos rfl]
    by_cases haborted : s.signalAborted c.signal = true
    · rw [if_pos haborted, release_eq_move (c := c) (by rfl)]
      refine h.complete hc rfl rfl ⟨rfl, nofun, ?_, nofun⟩ rfl nofun ?_
      · rintro v hv
        exact .inr ⟨(Phase.refused.inj hv).symm, haborted⟩
      · rw [hphase]
        simp [Call.complete, Phase.isAdmitted]
    · rw [if_neg haborted, release_eq_move (c := c) (by rfl)]
      obtain ⟨t, ht⟩ := Option.isSome_iff_exists.1 (hproper.queued _ hphase)
      have hfits := h.fits id c t hc ht
      rw [hphase] at hfits
      have hidle : id ∉ s.admitted := fun hmem => by
        have hlisted := ((h.listed id c hc).1 hmem).2
        rw [hphase] at hlisted
        simp [Phase.isAdmitted] at hlisted
      have hchained : Chained (Function.update s.ticket id c.ticket) s.ownerTails := by
        rw [← ticket_of_call hc, Function.update_eq_self]
        exact h.chained
      refine h.move hc { c with phase := .turn, waiting := false } (carries_of_same rfl) hchained
        nofun ⟨rfl, nofun, nofun, nofun⟩ ?_ ?_ ?_ ?_
      · intro t' ht'
        rw [show c.ticket = some t' from ht', Option.some.injEq] at ht
        subst ht
        exact ⟨hfits.1, hfits.2 rfl⟩
      · refine ⟨fun _ => ⟨?_, .inl rfl⟩, fun _ => List.mem_append_right _ (List.mem_singleton.2 rfl)⟩
        show c.ticket.isSome = true
        rw [ht]
        rfl
      · intro other hne
        rw [List.mem_append, List.mem_singleton]
        exact ⟨fun hor => hor.resolve_right hne, .inl⟩
      · -- whoever was admitted before, of this owner, came before
        refine List.pairwise_append.2 ⟨h.inOrder, List.pairwise_singleton _ _, ?_⟩
        intro earlier hearlier id' hid' howner
        rw [List.mem_singleton.1 hid'] at howner ⊢
        have hlt := h.arrived earlier hearlier
        have hcall := List.getElem?_eq_getElem hlt
        obtain ⟨hsome, hstage⟩ := (h.listed earlier _ hcall).1 hearlier
        obtain ⟨te, hte⟩ := Option.isSome_iff_exists.1 hsome
        have hfirst := (h.fits earlier _ te hcall hte).isFirst hstage
        unfold ownerOf at howner
        rw [ticket_of_call hcall, ticket_of_call hc, hte, ht, Option.map_some, Option.map_some,
          Option.some.injEq] at howner
        rcases Nat.lt_trichotomy earlier id with hlt | heq | hgt
        · exact hlt
        · exact absurd (heq ▸ hearlier) hidle
        · have hresolved := h.chained.resolved_before ((ticket_of_call hc).trans ht)
            ((ticket_of_call hcall).trans hte) howner.symm hgt hfirst
          have hcompleted := h.chained.completed ((ticket_of_call hc).trans ht) hresolved
          rw [hfits.1] at hcompleted
          exact absurd hcompleted (by simp)
  · rw [if_neg hpassed, release_eq_move (c := c) (by rfl)]
    refine h.complete hc rfl rfl ⟨rfl, nofun, ?_, nofun⟩ rfl nofun ?_
    · rintro v hv
      have hv := Phase.refused.inj hv
      subst hv
      cases verdict with
      | passed => exact absurd rfl hpassed
      | busy => exact .inl rfl
      | cancelled => exact .inr ⟨rfl, hproper.decided hphase⟩
    · rw [hphase]
      simp [Call.complete, Phase.isAdmitted]

theorem Sound.put (h : s.Sound) (hc : s.calls[id]? = some c) (hticket : c'.ticket = c.ticket)
    (hwaiting : c'.waiting = c.waiting) (hproper : s.Proper c')
    (hfits : ∀ t, c.ticket = some t → Fits s.ticket t c.phase → Fits s.ticket t c'.phase)
    (hlisted : (c'.phase.isAdmitted = true ∨ c'.phase = .released) ↔
      (c.phase.isAdmitted = true ∨ c.phase = .released)) : (s.put id c').Sound := by
  rw [put_eq_move hwaiting]
  exact h.goOn hc hticket (fun hw => .inl (hwaiting ▸ hw)) hproper hfits hlisted

/-- An admitted call goes on in another phase between admission and release. -/
theorem Sound.stay (h : s.Sound) (hc : s.calls[id]? = some c) {phase : Phase} {waiting : Bool}
    (hadmitted : c.phase.isAdmitted = true) (hphase : phase.isAdmitted = true)
    (hwaits : waiting = phase.waits)
    (hlimit : waiting = true → c.waiting = true ∨ s.waitingRequests < maxWaitingRequests) :
    (s.move id c { c with phase := phase, waiting := waiting }).Sound := by
  refine h.goOn hc rfl hlimit ⟨hwaits, ?_, ?_, ?_⟩ ?_ ?_
  · rintro v hv
    rw [show phase = .queued v from hv] at hphase
    exact absurd hphase (by simp [Phase.isAdmitted])
  · rintro v hv
    rw [show phase = .refused v from hv] at hphase
    exact absurd hphase (by simp [Phase.isAdmitted])
  · intro hv
    rw [show phase = .queued (some .cancelled) from hv] at hphase
    exact absurd hphase (by simp [Phase.isAdmitted])
  · intro t _ hfits
    have hstands := And.intro (hfits.open_of_admitted hadmitted) (hfits.isFirst (.inl hadmitted))
    cases phase <;> first | exact hstands | exact absurd hphase (by simp [Phase.isAdmitted])
  · exact ⟨fun _ => .inl hadmitted, fun _ => .inl hphase⟩

theorem Sound.stayPut (h : s.Sound) (hc : s.calls[id]? = some c) {phase : Phase}
    (hadmitted : c.phase.isAdmitted = true) (hphase : phase.isAdmitted = true)
    (hwaits : c.waiting = phase.waits) : (s.put id { c with phase := phase }).Sound := by
  rw [put_eq_move (c := c) (by rfl)]
  exact h.stay hc hadmitted hphase hwaits .inl

theorem Sound.leave (h : s.Sound) (hc : s.calls[id]? = some c) (hadmitted : c.phase.isAdmitted = true) :
    (s.release id { c with phase := .leaving }).Sound := by
  rw [release_eq_move (c := c) (by rfl)]
  exact h.stay hc hadmitted rfl rfl nofun

theorem Sound.tryAgain (h : s.Sound) (hc : s.calls[id]? = some c) {deadline attempt : Nat}
    {verdict : Verdict} (hphase : c.phase = .pausing deadline attempt (some verdict)) (now : Nat) :
    (s.tryAgain id c deadline attempt verdict now).Sound := by
  have hadmitted : c.phase.isAdmitted = true := by rw [hphase]; rfl
  have hwaiting : c.waiting = true := by rw [(h.proper id c hc).waits, hphase]; rfl
  unfold Process.tryAgain
  split
  · exact h.leave hc hadmitted
  · exact h.stayPut hc hadmitted rfl (by rw [hwaiting]; simp [Phase.waits])

theorem Sound.resume (h : s.Sound) (hc : s.calls[id]? = some c) (now : Nat) :
    (s.resume id c now).Sound := by
  have hproper := h.proper id c hc
  unfold Process.resume
  split
  · rename_i verdict hphase
    exact h.takeTurn hc hphase
  · rename_i hphase
    have hadmitted : c.phase.isAdmitted = true := by rw [hphase]; rfl
    have hwaiting : c.waiting = false := by rw [hproper.waits, hphase]; rfl
    split
    · exact h.stayPut hc hadmitted rfl hwaiting
    · exact h.stayPut hc hadmitted rfl hwaiting
  · rename_i deadline attempt verdict hphase
    exact h.tryAgain hc hphase now
  · rename_i hphase
    have hwaiting : c.waiting = false := by rw [hproper.waits, hphase]; rfl
    rw [put_eq_move (c := c) (by rfl)]
    refine h.complete hc rfl hwaiting ⟨hwaiting, nofun, nofun, nofun⟩ rfl ?_ ?_
    · intro _ t ht
      have hfits := h.fits id c t hc ht
      rw [hphase] at hfits
      exact hfits.2
    · rw [hphase]
      simp [Call.complete, Phase.isAdmitted]
  · exact h

theorem Sound.finish (h : s.Sound) (hc : s.calls[id]? = some c) (result : Result) (now : Nat) :
    (s.finish id c result now).Sound := by
  unfold Process.finish
  split
  · rename_i hphase
    exact h.leave hc (by rw [hphase]; rfl)
  · rename_i deadline attempt retryable hphase
    have hadmitted : c.phase.isAdmitted = true := by rw [hphase]; rfl
    split
    · exact h.leave hc hadmitted
    · dsimp only
      split
      · exact h.leave hc hadmitted
      · rename_i s' hacquire
        obtain ⟨rfl, hroom⟩ := acquire_eq_some (c := c) (by rfl) hacquire
        exact h.stay hc hadmitted rfl rfl fun _ => hroom
  · exact h

/-- A wait is settled. It passes only where the ticket is the first one, and is cancelled only where the
signal is aborted. -/
theorem Sound.decideWait (h : s.Sound) (hc : s.calls[id]? = some c) {queue pause : Option Verdict}
    (hpassed : queue = some .passed → ∀ t, c.ticket = some t → IsFirst s.ticket t)
    (hcancelled : queue = some .cancelled → s.signalAborted c.signal = true) :
    (s.decideWait id c queue pause).Sound := by
  have hproper := h.proper id c hc
  unfold Process.decideWait
  split
  · rename_i hphase
    have hwaiting : c.waiting = true := by rw [hproper.waits, hphase]; rfl
    refine h.put hc rfl rfl ⟨hwaiting, fun _ _ => hproper.queued _ hphase, nofun, ?_⟩ ?_ ?_
    · exact fun hv => hcancelled (Phase.queued.inj hv)
    · intro t ht hfits
      rw [hphase] at hfits
      exact ⟨hfits.1, fun hv => hpassed hv t ht⟩
    · rw [hphase]
      simp [Phase.isAdmitted]
  · rename_i deadline attempt hphase
    have hwaiting : c.waiting = true := by rw [hproper.waits, hphase]; rfl
    exact h.stayPut hc (by rw [hphase]; rfl) rfl hwaiting
  · exact h

theorem Sound.pass (h : s.Sound) (hc : s.calls[id]? = some c) : (s.pass id c).Sound := by
  unfold Process.pass
  split
  · rename_i owner prior completed resolved forgotten ht
    split
    · rename_i hresolved
      refine h.decideWait hc (fun _ t ht' p hp => ?_) nofun
      rw [ht, Option.some.injEq] at ht'
      rw [← ht', Option.some.injEq] at hp
      rw [← hp]
      unfold isResolved at hresolved
      rcases hbefore : s.ticket prior with _ | before
      · rw [hbefore] at hresolved
        exact absurd hresolved (by simp)
      · rw [hbefore] at hresolved
        exact ⟨before, rfl, hresolved⟩
    · exact h
  · exact h

theorem Fits.congr {tickets : Nat → Option (Ticket String)} {t' : Ticket String} {phase : Phase}
    (h : Fits tickets t phase) (hcompleted : t'.completed = t.completed) (hprior : t'.prior = t.prior) :
    Fits tickets t' phase := by
  have hfirst : IsFirst tickets t → IsFirst tickets t' := fun hfirst p hp => hfirst p (hprior ▸ hp)
  cases phase with
  | queued v => exact ⟨hcompleted.trans h.1, fun hv => hfirst (h.2 hv)⟩
  | turn => exact ⟨hcompleted.trans h.1, hfirst h.2⟩
  | operating _ _ => exact ⟨hcompleted.trans h.1, hfirst h.2⟩
  | pausing _ _ _ => exact ⟨hcompleted.trans h.1, hfirst h.2⟩
  | leaving => exact ⟨hcompleted.trans h.1, hfirst h.2⟩
  | released => exact ⟨hcompleted.trans h.1, hfirst h.2⟩
  | refused _ => exact hcompleted.trans h

theorem isFirst_of_all (h : t.prior.all s.isResolved = true) : IsFirst s.ticket t := by
  intro p hp
  rw [hp, Option.all_some] at h
  unfold isResolved at h
  rcases hbefore : s.ticket p with _ | before
  · rw [hbefore] at h
    exact absurd h (by simp)
  · rw [hbefore] at h
    exact ⟨before, rfl, h⟩

theorem all_of_isFirst (h : IsFirst s.ticket t) : t.prior.all s.isResolved = true := by
  rcases hp : t.prior with _ | p
  · rfl
  · obtain ⟨before, hbefore, hresolved⟩ := h p hp
    rw [Option.all_some]
    unfold isResolved
    rw [hbefore]
    exact hresolved

/-- The ticket is through, or that is taken note of. -/
theorem Sound.mark (h : s.Sound) (hc : s.calls[id]? = some c) (ht : c.ticket = some t)
    (t' : Ticket String) {tails : String → Option Nat} (hcompleted : t'.completed = t.completed)
    (hprior : t'.prior = t.prior) (howner : t'.owner = t.owner)
    (hresolved : t.resolved = true → t'.resolved = true)
    (hchained : Chained (Function.update s.ticket id (some t')) tails) :
    Sound { s.put id { c with ticket := some t' } with ownerTails := tails } := by
  have hproper := h.proper id c hc
  rw [put_eq_move (c := c) (by rfl)]
  refine h.move hc { c with ticket := some t' }
    (.inr ⟨t, t', ht, rfl, howner, hresolved⟩) hchained .inl
    ⟨hproper.waits, fun _ _ => rfl, hproper.refused, hproper.decided⟩ ?_ ?_ (fun _ _ => Iff.rfl) h.inOrder
  · intro t'' ht''
    rw [← Option.some.inj ht'']
    exact (h.fits id c t hc ht).congr hcompleted hprior
  · show id ∈ s.admitted ↔ _
    rw [h.listed id c hc]
    unfold IsListed
    rw [ht]
    rfl

theorem Sound.settleTail (h : s.Sound) (hc : s.calls[id]? = some c) : (s.settleTail id c).Sound := by
  unfold Process.settleTail
  split
  · rename_i t ht
    split
    · rename_i hdue
      rw [Bool.and_eq_true] at hdue
      exact h.mark hc ht { t with resolved := true } rfl rfl rfl (fun _ => rfl)
        (h.chained.resolve ((ticket_of_call hc).trans ht) hdue.1 (isFirst_of_all hdue.2))
    · exact h
  · exact h

theorem Sound.forget (h : s.Sound) (hc : s.calls[id]? = some c) : (s.forget id c).Sound := by
  unfold Process.forget
  split
  · rename_i t ht
    split
    · rename_i hresolved
      have hmark := h.mark hc ht { t with forgotten := true } rfl rfl rfl (fun hr => hr)
        (h.chained.forget ((ticket_of_call hc).trans ht) hresolved)
      dsimp only
      show Sound (if s.ownerTails t.owner = some id then _ else _)
      by_cases htail : s.ownerTails t.owner = some id
      · rw [if_pos htail] at hmark ⊢
        exact hmark
      · rw [if_neg htail] at hmark ⊢
        exact hmark
    · exact h
  · exact h

theorem Sound.abort (h : s.Sound) (signal : Nat) :
    Sound { s with aborted := signal :: s.aborted } := by
  have hkept : ∀ mine, s.signalAborted mine = true →
      Process.signalAborted { s with aborted := signal :: s.aborted } mine = true := by
    intro mine hmine
    unfold signalAborted at hmine ⊢
    rcases mine with _ | mine
    · exact absurd hmine (by simp)
    · rw [Option.any_some, List.contains_iff_mem] at hmine ⊢
      exact List.mem_cons_of_mem _ hmine
  refine { h with proper := fun id c hc => ?_ }
  have hproper := h.proper id c hc
  refine ⟨hproper.waits, hproper.queued, fun v hv => ?_, fun hv => hkept _ (hproper.decided hv)⟩
  rcases hproper.refused v hv with hbusy | ⟨hcancelled, haborted⟩
  · exact .inl hbusy
  · exact .inr ⟨hcancelled, hkept _ haborted⟩

/-! ## Arrival -/

theorem call_push (s : Process) (c : Call) (other : Nat) (d : Call)
    (hd : (s.push c).calls[other]? = some d) :
    other = s.calls.length ∧ d = c ∨ other < s.calls.length ∧ s.calls[other]? = some d := by
  have hd : (s.calls ++ [c])[other]? = some d := hd
  rcases Nat.lt_or_ge other s.calls.length with hlt | hge
  · rw [List.getElem?_append_left hlt] at hd
    exact .inr ⟨hlt, hd⟩
  · rw [List.getElem?_append_right hge] at hd
    obtain ⟨hlt, hget⟩ := List.getElem?_eq_some_iff.1 hd
    have hzero : other - s.calls.length = 0 := by
      rw [List.length_singleton] at hlt
      omega
    exact .inl ⟨by omega, by simp [hzero] at hget; exact hget.symm⟩

theorem ticket_push (s : Process) (c : Call) :
    (s.push c).ticket = Function.update s.ticket s.calls.length c.ticket := by
  funext other
  unfold ticket
  show (s.calls ++ [c])[other]?.bind _ = _
  rcases Nat.lt_trichotomy other s.calls.length with hlt | rfl | hgt
  · rw [Function.update_of_ne (by omega), List.getElem?_append_left hlt]
  · rw [Function.update_self]
    simp
  · rw [Function.update_of_ne (by omega), List.getElem?_eq_none (by simp; omega),
      List.getElem?_eq_none (by omega)]

theorem lt_of_ticket {other : Nat} (h : s.ticket other = some t) : other < s.calls.length := by
  obtain ⟨c, hc, -⟩ := exists_call_of_ticket h
  exact lt_of_call hc

theorem Sound.push (h : s.Sound) (c : Call) {admitted : List Nat} {tails : String → Option Nat}
    (hchained : Chained (Function.update s.ticket s.calls.length c.ticket) tails)
    (hlimit : c.waiting = true → s.waitingRequests < maxWaitingRequests)
    (hproper : s.Proper c) (hfits : ∀ t, c.ticket = some t → Fits s.ticket t c.phase)
    (hadmitted : admitted = s.admitted ∧ ¬ IsListed c ∨
      admitted = s.admitted ++ [s.calls.length] ∧ IsListed c) :
    Sound { s.push c with
      ownerTails := tails
      waitingRequests := s.waitingRequests + (if c.waiting then 1 else 0)
      admitted := admitted } := by
  have hmem : ∀ other, other ∈ admitted → other ∈ s.admitted ∨ other = s.calls.length ∧ IsListed c := by
    intro other hother
    rcases hadmitted with ⟨rfl, -⟩ | ⟨rfl, hlisted⟩
    · exact .inl hother
    · rcases List.mem_append.1 hother with hother | hother
      · exact .inl hother
      · exact .inr ⟨List.mem_singleton.1 hother, hlisted⟩
  have hnew : s.calls.length ∉ s.admitted := fun hbad => Nat.lt_irrefl _ (h.arrived _ hbad)
  have hkept : ∀ p before, s.ticket p = some before → before.resolved = true →
      ∃ after, (s.push c).ticket p = some after ∧ after.resolved = true := by
    intro p before hbefore hresolved
    have hlt := lt_of_ticket hbefore
    refine ⟨before, ?_, hresolved⟩
    rw [ticket_push, Function.update_of_ne (by omega)]
    exact hbefore
  refine
    { chained := ?_, counted := ?_, limited := ?_, proper := ?_, fits := ?_, listed := ?_
      arrived := ?_, inOrder := ?_ }
  · show Chained (s.push c).ticket tails
    rw [ticket_push]
    exact hchained
  · show s.waitingRequests + _ = ((s.calls ++ [c]).countP Call.waiting : Int)
    rw [List.countP_append, List.countP_singleton, h.counted]
    split <;> simp
  · show s.waitingRequests + (if c.waiting then 1 else 0) ≤ maxWaitingRequests
    have hlimited := h.limited
    split
    · rename_i hwaiting
      have hroom := hlimit hwaiting
      omega
    · omega
  · intro other d hd
    rcases call_push s c other d hd with ⟨-, rfl⟩ | ⟨-, hold⟩
    · exact ⟨hproper.waits, hproper.queued, hproper.refused, hproper.decided⟩
    · have hd := h.proper other d hold
      exact ⟨hd.waits, hd.queued, hd.refused, hd.decided⟩
  · intro other d t hd ht
    refine Fits.mono (?_ : Fits s.ticket t d.phase) hkept
    rcases call_push s c other d hd with ⟨-, rfl⟩ | ⟨-, hold⟩
    · exact hfits t ht
    · exact h.fits other d t hold ht
  · intro other d hd
    show other ∈ admitted ↔ _
    rcases call_push s c other d hd with ⟨rfl, rfl⟩ | ⟨hlt, hold⟩
    · rcases hadmitted with ⟨rfl, hunlisted⟩ | ⟨rfl, hlisted⟩
      · exact ⟨fun hbad => absurd hbad hnew, fun hbad => absurd hbad hunlisted⟩
      · exact ⟨fun _ => hlisted, fun _ => List.mem_append_right _ (List.mem_singleton.2 rfl)⟩
    · rw [← h.listed other d hold]
      refine ⟨fun hother => (hmem other hother).resolve_right fun hbad => by omega, fun hother => ?_⟩
      rcases hadmitted with ⟨rfl, -⟩ | ⟨rfl, -⟩
      · exact hother
      · exact List.mem_append_left _ hother
  · intro other hother
    show other < (s.calls ++ [c]).length
    rw [List.length_append, List.length_singleton]
    rcases hmem other hother with hold | ⟨heq, -⟩
    · have hlt := h.arrived other hold
      omega
    · omega
  · have howner : ∀ other < s.calls.length, (s.push c).ownerOf other = s.ownerOf other := by
      intro other hlt
      unfold ownerOf
      rw [ticket_push, Function.update_of_ne (by omega)]
    have hold : s.admitted.Pairwise fun a b => (s.push c).ownerOf a = (s.push c).ownerOf b → a < b :=
      h.inOrder.imp_of_mem fun ha hb hlt => by
        rw [howner _ (h.arrived _ ha), howner _ (h.arrived _ hb)]
        exact hlt
    show List.Pairwise _ admitted
    rcases hadmitted with ⟨rfl, -⟩ | ⟨rfl, -⟩
    · exact hold
    · refine List.pairwise_append.2 ⟨hold, List.pairwise_singleton _ _, ?_⟩
      intro earlier hearlier last hlast _
      rw [List.mem_singleton.1 hlast]
      exact h.arrived earlier hearlier

/-- A call that has no ticket. -/
theorem Sound.pushFree (h : s.Sound) (signal : Option Nat) (phase : Phase) (hwaits : phase.waits = false)
    (hqueued : ∀ v, phase ≠ .queued v)
    (hrefused : ∀ v, phase = .refused v → v = .busy ∨ v = .cancelled ∧ s.signalAborted signal = true) :
    (s.push ⟨signal, none, phase, false⟩).Sound := by
  have hpush := @Sound.push s h ⟨signal, none, phase, false⟩ s.admitted s.ownerTails
    (by
      have hnone : s.ticket s.calls.length = none := by
        rcases ht : s.ticket s.calls.length with _ | t
        · rfl
        · exact absurd (lt_of_ticket ht) (Nat.lt_irrefl _)
      rw [← hnone, Function.update_eq_self]
      exact h.chained)
    nofun ⟨hwaits.symm, fun v hv => absurd hv (hqueued v), hrefused, fun hv => absurd hv (hqueued _)⟩
    nofun (.inl ⟨rfl, fun hlisted => absurd hlisted.1 (by simp)⟩)
  have heq : s.waitingRequests + (if false = true then 1 else 0) = s.waitingRequests := by simp
  rw [heq] at hpush
  exact hpush

theorem Sound.arrive (h : s.Sound) (ownerUserId : Option String) (signal : Option Nat) :
    (s.arrive ownerUserId signal).Sound := by
  have hnew : ∀ a t, s.ticket a = some t → a < s.calls.length := fun a t ht => lt_of_ticket ht
  unfold Process.arrive
  dsimp only
  split
  · rename_i haborted
    exact h.pushFree signal _ rfl nofun fun v hv => .inr ⟨(Phase.refused.inj hv).symm, haborted⟩
  · split
    · exact h.pushFree signal _ rfl nofun nofun
    · rename_i owner _
      have hdraw := h.chained.draw hnew owner
      split
      · rename_i htail
        rw [htail] at hdraw
        have hpush := h.push ⟨signal, some ⟨owner, none, false, false, false⟩, .turn, false⟩ hdraw nofun
          ⟨rfl, nofun, nofun, nofun⟩
          (fun t ht => by
            rw [← Option.some.inj ht]
            exact ⟨rfl, nofun⟩)
          (.inr ⟨rfl, rfl, .inl rfl⟩)
        have heq : s.waitingRequests + (if false = true then 1 else 0) = s.waitingRequests := by simp
        rw [heq] at hpush
        exact hpush
      · rename_i prior htail
        rw [htail] at hdraw
        split
        · exact h.pushFree signal _ rfl nofun fun v hv => .inl (Phase.refused.inj hv).symm
        · rename_i hroom
          exact h.push ⟨signal, some ⟨owner, some prior, false, false, false⟩, .queued none, true⟩ hdraw
            (fun _ => by omega) ⟨rfl, fun _ _ => rfl, nofun, nofun⟩
            (fun t ht => by
              rw [← Option.some.inj ht]
              exact ⟨rfl, nofun⟩)
            (.inl ⟨rfl, fun hlisted => by simp [IsListed, Phase.isAdmitted] at hlisted⟩)

theorem Sound.onCall (h : s.Sound) {f : Call → Process}
    (hf : ∀ c, s.calls[id]? = some c → (f c).Sound) : (s.onCall id f).Sound := by
  unfold Process.onCall
  split
  · exact h
  · rename_i c hc
    exact hf c hc

theorem Sound.step (h : s.Sound) (event : Event) : (s.step event).Sound := by
  cases event with
  | arrive ownerUserId signal => exact h.arrive ownerUserId signal
  | abort signal => exact h.abort signal
  | onAbort id =>
    refine h.onCall fun c hc => ?_
    split
    · rename_i haborted
      exact h.decideWait hc nofun fun _ => haborted
    · exact h
  | expire id => exact h.onCall fun c hc => h.decideWait hc nofun nofun
  | pass id => exact h.onCall fun c hc => h.pass hc
  | settleTail id => exact h.onCall fun c hc => h.settleTail hc
  | forget id => exact h.onCall fun c hc => h.forget hc
  | finish id result now => exact h.onCall fun c hc => h.finish hc result now
  | resume id now => exact h.onCall fun c hc => h.resume hc now

theorem sound_init : init.Sound where
  chained := chained_empty
  counted := rfl
  limited := by decide
  proper _ _ hc := absurd hc (by simp [init])
  fits _ _ _ hc := absurd hc (by simp [init])
  listed _ _ hc := absurd hc (by simp [init])
  arrived _ hid := absurd hid List.not_mem_nil
  inOrder := List.Pairwise.nil

theorem sound_run (events : List Event) : (init.run events).Sound :=
  run_keeps (fun _ event h => h.step event) events sound_init

/-! ## What a run shows -/

theorem Sound.unresolved (h : s.Sound) (ht : s.ticket id = some t) (hopen : t.completed = false) :
    t.resolved = false := by
  by_contra hresolved
  rw [h.chained.completed ht (Bool.not_eq_false _ ▸ hresolved)] at hopen
  exact absurd hopen (by simp)

/-- Two calls of an owner that are between admission and release are one call. -/
theorem Sound.holds_unique (h : s.Sound) {a b : Nat} {ta tb : Ticket String} (ha : s.Holds a ta)
    (hb : s.Holds b tb) (howner : ta.owner = tb.owner) : a = b := by
  obtain ⟨ca, hca, hta, hadmitteda⟩ := ha
  obtain ⟨cb, hcb, htb, hadmittedb⟩ := hb
  have hfitsa := h.fits a ca ta hca hta
  have hfitsb := h.fits b cb tb hcb htb
  have hticketa := (ticket_of_call hca).trans hta
  have hticketb := (ticket_of_call hcb).trans htb
  exact h.chained.first_unique hticketa hticketb howner (hfitsa.isFirst (.inl hadmitteda))
    (hfitsb.isFirst (.inl hadmittedb)) (h.unresolved hticketa (hfitsa.open_of_admitted hadmitteda))
    (h.unresolved hticketb (hfitsb.open_of_admitted hadmittedb))

/-- Whoever came before an admitted call of the same owner has released its turn, or given up. -/
theorem Sound.ended_before (h : s.Sound) {a b : Nat} {ta tb : Ticket String}
    (ha : s.ticket a = some ta) (hb : s.ticket b = some tb) (howner : ta.owner = tb.owner) (hlt : a < b)
    (hadmitted : b ∈ s.admitted) : s.HasEnded a := by
  obtain ⟨ca, hca, hta⟩ := exists_call_of_ticket ha
  obtain ⟨cb, hcb, htb⟩ := exists_call_of_ticket hb
  have hstage := ((h.listed b cb hcb).1 hadmitted).2
  have hresolved := h.chained.resolved_before ha hb howner hlt ((h.fits b cb tb hcb htb).isFirst hstage)
  have hcompleted := h.chained.completed ha hresolved
  refine ⟨ca, hca, ?_⟩
  rcases (h.fits a ca ta hca hta).over_of_completed hcompleted with hreleased | ⟨v, hrefused⟩
  · refine .inl ⟨hreleased, (h.listed a ca hca).2 ⟨?_, .inr hreleased⟩⟩
    rw [hta]
    rfl
  · rcases (h.proper a ca hca).refused v hrefused with rfl | ⟨rfl, haborted⟩
    · exact .inr (.inl hrefused)
    · exact .inr (.inr ⟨hrefused, haborted⟩)

theorem Sound.counts_waiting (h : s.Sound) :
    s.waitingRequests = s.calls.countP fun c => c.phase.waits := by
  rw [h.counted]
  refine congrArg _ (List.countP_congr fun c hc => ?_)
  obtain ⟨id, hid⟩ := List.getElem?_of_mem hc
  rw [(h.proper id c hid).waits]

end Staaash.Transactions.Process
