import Staaash.Durable.Requests
import Mathlib.Tactic.Common

/-!
# Proofs: once per idempotency key

A mutation keeps the key it was prepared under until it is aborted, and the key is unique. So the
mutation that a request executes has its payload, and has its key unless it is aborted and nothing can be
done with it.
-/

namespace Staaash.Durable

open Staaash.Journal (Status)
open Staaash.Library
open Staaash.Reconciliation (Deed)

variable {s s' : World} {e : Event} {i n : Nat} {r r' : Request} {id : String}
variable {m m' : Mutation} {deed : Deed} {step : RequestStep}

/-! ## Deeds -/

/-- Which statuses a committed mutation has, and which one that is not; only an aborted mutation has given
up its key. -/
structure Mutation.Fits (m : Mutation) : Prop where
  committed : m.committed = true → m.applied = true ∧
    m.status ∈ [Status.metadataCommitted, .finalizing, .succeeded, .recoveryRequired]
  uncommitted : m.committed = false →
    m.status ∈ [Status.prepared, .running, .retrying, .recoveryRequired, .aborted]
  key : m.idempotencyKey = if m.status = .aborted then none else m.input.idempotencyKey

theorem fits_prepared (input : Input) : (Mutation.prepared input).Fits :=
  ⟨nofun, fun _ => by simp [Mutation.prepared], rfl⟩

theorem Mutation.Fits.uncommitted_of (h : m.Fits)
    (hstatus : m.status ∈ [Status.prepared, .running, .retrying, .aborted]) :
    m.committed = false := by
  by_contra hcommitted
  have hin := (h.committed (by simpa using hcommitted)).2
  revert hstatus hin
  cases m.status <;> simp

theorem Mutation.Fits.committed_of (h : m.Fits)
    (hstatus : m.status ∈ [Status.metadataCommitted, .finalizing, .succeeded]) :
    m.committed = true := by
  by_contra hcommitted
  have hin := h.uncommitted (by simpa using hcommitted)
  revert hstatus hin
  cases m.status <;> simp

/-- What every deed keeps, and where none has an effect. -/
structure Mutation.Goes (m m' : Mutation) : Prop where
  fits : m'.Fits
  input : m'.input = m.input
  aborted : m.status ≠ .aborted
  succeeded : m.status ≠ .succeeded
  committed : m.committed = true → m'.committed = true

/-- A deed that does not abort leaves the key. -/
theorem goes_alive (hm : m.Fits) {before status : Status} {committed applied : Bool}
    (hbefore : m.status = before) (hlive : before ≠ .aborted ∧ before ≠ .succeeded)
    (hstatus : status ≠ .aborted)
    (hcommitted : committed = true → applied = true ∧
      status ∈ [Status.metadataCommitted, .finalizing, .succeeded, .recoveryRequired])
    (huncommitted : committed = false →
      status ∈ [Status.prepared, .running, .retrying, .recoveryRequired, .aborted])
    (hkeeps : m.committed = true → committed = true) :
    m.Goes { m with status, committed, applied } where
  fits := by
    refine ⟨hcommitted, huncommitted, ?_⟩
    rw [if_neg hstatus, hm.key, hbefore, if_neg hlive.1]
  input := rfl
  aborted := by
    rw [hbefore]
    exact hlive.1
  succeeded := by
    rw [hbefore]
    exact hlive.2
  committed := hkeeps

/-- A deed on an uncommitted mutation that leaves it so. -/
theorem goes_uncommitted (hm : m.Fits) {before status : Status} {applied : Bool}
    (hbefore : m.status = before) (hlive : before ∈ [Status.prepared, .running, .retrying])
    (hstatus : status ∈ [Status.prepared, .running, .retrying, .recoveryRequired]) :
    m.Goes { m with status, applied } := by
  have hfree : m.committed = false := hm.uncommitted_of (by
    rw [hbefore]
    revert hlive
    cases before <;> simp)
  have hlive' : before ≠ .aborted ∧ before ≠ .succeeded := by
    revert hlive
    cases before <;> simp
  refine goes_alive hm hbefore hlive' ?_ (fun hc => ?_) (fun _ => ?_) id
  · rintro rfl
    simp at hstatus
  · rw [hfree] at hc
    cases hc
  · revert hstatus
    cases status <;> simp

/-- A deed on a committed mutation. -/
theorem goes_committed (hm : m.Fits) {before status : Status} (hbefore : m.status = before)
    (hlive : before ∈ [Status.metadataCommitted, .finalizing])
    (hstatus : status ∈ [Status.finalizing, .succeeded, .recoveryRequired]) :
    m.Goes { m with status } := by
  have hdone : m.committed = true := hm.committed_of (by
    rw [hbefore]
    revert hlive
    cases before <;> simp)
  have hlive' : before ≠ .aborted ∧ before ≠ .succeeded := by
    revert hlive
    cases before <;> simp
  refine goes_alive hm hbefore hlive' ?_ (fun hc => ⟨(hm.committed hc).1, ?_⟩) (fun hc => ?_) id
  · rintro rfl
    simp at hstatus
  · revert hstatus
    cases status <;> simp
  · rw [hdone] at hc
    cases hc

theorem goes_of_after (hm : m.Fits) (h : m.after deed = some m') : m.Goes m' := by
  cases deed with
  | claim =>
    obtain ⟨hguard, rfl⟩ := by simpa [Mutation.after] using h
    rcases hguard with hstatus | hstatus | hstatus
    · exact goes_uncommitted hm hstatus (by simp) (by simp)
    · exact goes_uncommitted hm hstatus (by simp) (by simp)
    · exact goes_uncommitted hm hstatus (by simp) (by simp)
  | rename =>
    obtain ⟨⟨hrunning, -⟩, rfl⟩ := by simpa [Mutation.after] using h
    exact goes_uncommitted hm hrunning (by simp) (by simp [hrunning])
  | undo =>
    obtain ⟨⟨hrunning, -⟩, rfl⟩ := by simpa [Mutation.after] using h
    exact goes_uncommitted hm hrunning (by simp) (by simp [hrunning])
  | commit =>
    obtain ⟨⟨hrunning, happlied⟩, rfl⟩ := by simpa [Mutation.after] using h
    exact goes_alive hm hrunning (by simp) (by simp) (fun _ => ⟨happlied, by simp⟩) nofun fun _ => rfl
  | beginFinalization =>
    obtain ⟨hstatus, rfl⟩ := by simpa [Mutation.after] using h
    exact goes_committed hm hstatus (by simp) (by simp)
  | cleanup name => cases h
  | complete =>
    obtain ⟨hstatus, rfl⟩ := by simpa [Mutation.after] using h
    exact goes_committed hm hstatus (by simp) (by simp)
  | retry =>
    obtain ⟨hrunning, rfl⟩ := by simpa [Mutation.after] using h
    exact goes_uncommitted hm hrunning (by simp) (by simp)
  | requireRecovery =>
    obtain ⟨hguard, rfl⟩ := by simpa [Mutation.after] using h
    rcases hguard with hstatus | hstatus | hstatus
    · exact goes_uncommitted hm hstatus (by simp) (by simp)
    · exact goes_committed hm hstatus (by simp) (by simp)
    · exact goes_committed hm hstatus (by simp) (by simp)
  | abort =>
    obtain ⟨⟨hrunning, -⟩, rfl⟩ := by simpa [Mutation.after] using h
    have hfree := hm.uncommitted_of (by simp [hrunning])
    refine ⟨⟨fun hc => ?_, fun _ => by simp, rfl⟩, rfl, by simp [hrunning], by simp [hrunning], id⟩
    rw [show m.committed = true from hc] at hfree
    cases hfree

/-! ## Events -/

/-- Every way an event changes the world. -/
inductive Acts (s : World) : Event → World → Prop
  | begin {i : Nat} {input : Input} (hi : s.requests.get i = none) (hnew : s.admits input = true) :
      Acts s (.begin i input) { s with requests := s.requests.set i (.fresh input) }
  | request {i : Nat} {step : RequestStep} {r r' : Request} (hr : s.requests.get i = some r)
      (h : r.after s i step = some r') :
      Acts s (.request i step)
        { s with
          requests := s.requests.set i r'
          inFlight := if step = .send then (i, r.attempts) :: s.inFlight else s.inFlight }
  | takeEffect {i n : Nat} {r : Request} (hmem : (i, n) ∈ s.inFlight)
      (hr : s.requests.get i = some r)
      (hid : s.mutations.get r.input.mutationId = none) (hkey : s.keyTaken r.input = false) :
      Acts s (.takeEffect i n)
        { s with
          inFlight := s.inFlight.erase (i, n)
          mutations := s.mutations.set r.input.mutationId (.prepared r.input)
          effective := (i, n) :: s.effective }
  | ends {e : Event} {i n : Nat} (hmem : (i, n) ∈ s.inFlight) :
      Acts s e { s with inFlight := s.inFlight.erase (i, n) }
  | deed {executor : Option Nat} {id : String} {deed : Deed} {m m' : Mutation}
      (hexecutes : ∀ i ∈ executor, ∃ r, s.requests.get i = some r ∧ r.stage = .executing id)
      (hm : s.mutations.get id = some m) (h : m.after deed = some m') :
      Acts s (.deed executor id deed) { s with mutations := s.mutations.set id m' }

theorem acts_of_act (h : s.act e = some s') : Acts s e s' := by
  cases e with
  | begin i input =>
    obtain ⟨hguard, h⟩ := Option.ite_none_right_eq_some.mp h
    rw [Bool.and_eq_true, Bool.not_eq_true', OrderedMap.has_eq_false_iff] at hguard
    exact Option.some.inj h ▸ .begin hguard.1 hguard.2
  | request i step =>
    obtain ⟨r, hr, h⟩ := Option.bind_eq_some_iff.mp h
    obtain ⟨r', hafter, rfl⟩ := Option.map_eq_some_iff.mp h
    exact .request hr hafter
  | takeEffect i n =>
    obtain ⟨hmem, h⟩ := Option.ite_none_right_eq_some.mp h
    obtain ⟨r, hr, rfl⟩ := Option.map_eq_some_iff.mp h
    dsimp only
    split_ifs with htaken
    · exact .ends hmem
    · rw [Bool.or_eq_true, not_or, Bool.not_eq_true, Bool.not_eq_true,
        OrderedMap.has_eq_false_iff] at htaken
      exact .takeEffect hmem hr htaken.1 htaken.2
  | rollBack i n =>
    obtain ⟨hmem, h⟩ := Option.ite_none_right_eq_some.mp h
    exact Option.some.inj h ▸ .ends hmem
  | deed executor id deed =>
    obtain ⟨hexecutor, h⟩ := Option.ite_none_right_eq_some.mp h
    obtain ⟨m, hm, h⟩ := Option.bind_eq_some_iff.mp h
    obtain ⟨m', hafter, rfl⟩ := Option.map_eq_some_iff.mp h
    refine .deed (fun i hi => ?_) hm hafter
    obtain rfl := Option.mem_def.mp hi
    obtain ⟨r, hr, hstage⟩ := (Option.any_eq_true _ _).mp
      (show (s.requests.get i).any (fun r => r.stage = .executing id) = true from hexecutor)
    exact ⟨r, hr, of_decide_eq_true hstage⟩

theorem step_cases {I : World → Prop} (hact : ∀ s', Acts s e s' → I s') (hnone : I s) :
    I (s.step e) := by
  unfold World.step
  cases h : s.act e with
  | none => exact hnone
  | some s' => exact hact s' (acts_of_act h)

/-! ## Stages -/

/-- The request is on its way to another lookup, or waits. -/
def Stage.pending : Stage → Bool
  | .preparing | .sending | .sent _ | .duplicated | .resolving _ | .waiting => true
  | .replaying | .starting | .executing _ | .interrupted _ | .succeeded _ | .failed _ => false

/-- How a request gets to the stage that follows. -/
inductive Moved (s : World) (i : Nat) (r : Request) (step : RequestStep) : Stage → Prop
  | pending {stage} (h : stage.pending = true) : Moved s i r step stage
  | starting (h : r.stage = .replaying) : Moved s i r step .starting
  | prepared {n : Nat} (h : (i, n) ∈ s.effective) : Moved s i r step (.executing r.input.mutationId)
  | executes {id : String} {m : Mutation} (hfound : s.existing r.input = some (id, m))
      (hpayload : m.input.payload = r.input.payload) (hstatus : m.status = .prepared) :
      Moved s i r step (.executing id)
  | replays {id : String} {m : Mutation} (hfound : s.existing r.input = some (id, m))
      (hpayload : m.input.payload = r.input.payload) (hstatus : m.status = .succeeded) :
      Moved s i r step (.succeeded id)
  | returns {id : String} {m : Mutation} (hstage : r.stage = .executing id ∨ r.stage = .interrupted id)
      (hm : s.mutations.get id = some m) (hstatus : m.status = .succeeded) :
      Moved s i r step (.succeeded id)
  | breaks {id : String} (hstage : r.stage = .executing id) : Moved s i r step (.interrupted id)
  | keeps {failure} (h : failure.removes = false) : Moved s i r step (.failed failure)
  | refused {failure} (h : r.stage = .starting) : Moved s i r step (.failed failure)
  | missing {failure : Failure} (hstep : step = .lookUp) (hstage : r.stage = .resolving failure)
      (hbusy : failure ≠ .busy) (hfound : s.existing r.input = none) : Moved s i r step (.failed failure)
  | differs {failure : Failure} {id : String} {m : Mutation} (hfound : s.existing r.input = some (id, m))
      (hkey : r.input.key = none) (hpayload : m.input.payload ≠ r.input.payload) : Moved s i r step (.failed failure)
  | aborted {failure : Failure} {id : String} {m : Mutation} (hfound : s.existing r.input = some (id, m))
      (hstatus : m.status = .aborted) : Moved s i r step (.failed failure)
  | undone {failure : Failure} {id : String} {m : Mutation} (hstep : step = .lookUp)
      (hstage : r.stage = .interrupted id) (hm : s.mutations.get id = some m)
      (hstatus : m.status = .aborted) : Moved s i r step (.failed failure)
  | rejects {failure : Failure} {id : String} {m : Mutation} (hstep : step = .rejects)
      (hstage : r.stage = .executing id) (hm : s.mutations.get id = some m)
      (hover : m.status = .aborted ∨ m.committed = true) : Moved s i r step (.failed failure)
  | rethrows {failure : Failure} {id : String} (hstep : step = .rethrows)
      (hstage : r.stage = .executing id) : Moved s i r step (.failed failure)
  | givesUp {failure} (hstep : step = .giveUp failure) : Moved s i r step (.failed failure)

/-- A step of a request that goes on: its input stays, and it has removed nothing. -/
structure Request.Goes (s : World) (i : Nat) (r : Request) (step : RequestStep) (r' : Request) :
    Prop where
  input : r'.input = r.input
  removed : r'.removed = r.removed
  moved : Moved s i r step r'.stage

theorem existing_of_byKey {found : String × Mutation} (h : r.input.key.bind s.byKey = some found) :
    s.existing r.input = some found := by
  obtain ⟨key, hkey, hfound⟩ := Option.bind_eq_some_iff.mp h
  unfold World.existing
  rw [hkey]
  exact hfound

theorem removes_stateConflict (hstatus : m.status ≠ .aborted) :
    (mutationStateConflict m).removes = false := by
  rw [mutationStateConflict, if_neg hstatus]
  rfl

theorem goes_replay (hfound : s.existing r.input = some (id, m))
    (hpayload : m.input.payload = r.input.payload) : r.Goes s i step (r.replay id m) := by
  unfold Request.replay
  split_ifs with hprepared hsucceeded
  · exact ⟨rfl, rfl, .executes hfound hpayload hprepared⟩
  · exact ⟨rfl, rfl, .replays hfound hpayload hsucceeded⟩
  · by_cases haborted : m.status = .aborted
    · exact ⟨rfl, rfl, .aborted hfound haborted⟩
    · exact ⟨rfl, rfl, .keeps (removes_stateConflict haborted)⟩

theorem goes_throw {failure : Failure}
    (h : failure ≠ .busy → Moved s i r step (.failed failure)) :
    r.Goes s i step (r.throw failure) := by
  unfold Request.throw
  split_ifs with hbusy
  · exact ⟨rfl, rfl, .pending rfl⟩
  · exact ⟨rfl, rfl, h hbusy⟩

theorem goes_throwUncommitted {failure : Failure} (hstep : step = .lookUp)
    (hstage : r.stage = .resolving failure) (hfound : s.existing r.input = none) :
    r.Goes s i step (r.throwUncommitted failure) := by
  unfold Request.throwUncommitted
  split_ifs
  · exact ⟨rfl, rfl, .pending rfl⟩
  · exact ⟨rfl, rfl, .keeps rfl⟩
  · exact ⟨rfl, rfl, .pending rfl⟩
  · exact goes_throw fun hbusy => .missing hstep hstage hbusy hfound

/-- A lookup by the key alone, before or after the transaction. -/
theorem goes_byKey {stage : Stage} (hnone : Moved s i r step stage)
    (h : (match r.input.key.bind s.byKey with
      | none => some { r with stage }
      | some (id, m) =>
        if m.input.payload = r.input.payload then some (r.replay id m)
        else some { r with stage := .resolving .conflict }) = some r') : r.Goes s i step r' := by
  cases hfound : r.input.key.bind s.byKey with
  | none =>
    simp only [hfound, Option.some.injEq] at h
    exact h ▸ ⟨rfl, rfl, hnone⟩
  | some found =>
    obtain ⟨id, m⟩ := found
    simp only [hfound] at h
    split_ifs at h with hpayload
    · exact Option.some.inj h ▸ goes_replay (existing_of_byKey hfound) hpayload
    · exact Option.some.inj h ▸ ⟨rfl, rfl, .pending rfl⟩

theorem goes_replaying (hstage : r.stage = .replaying) (h : r.lookUp s = some r') :
    r.Goes s i step r' := by
  simp only [Request.lookUp, hstage] at h
  cases hfound : r.input.key.bind s.byKey with
  | none =>
    simp only [hfound, Option.some.injEq] at h
    exact h ▸ ⟨rfl, rfl, .starting hstage⟩
  | some found =>
    obtain ⟨id, m⟩ := found
    simp only [hfound] at h
    split_ifs at h with hpayload hstatus
    · exact Option.some.inj h ▸ ⟨rfl, rfl, .keeps rfl⟩
    · exact Option.some.inj h ▸
        ⟨rfl, rfl, .replays (existing_of_byKey hfound) (not_not.mp hpayload) hstatus⟩
    · obtain rfl := Option.some.inj h
      by_cases haborted : m.status = .aborted
      · exact ⟨rfl, rfl, .aborted (existing_of_byKey hfound) haborted⟩
      · exact ⟨rfl, rfl, .keeps (removes_stateConflict haborted)⟩

theorem goes_resolving {failure : Failure} (hstep : step = .lookUp)
    (hstage : r.stage = .resolving failure) (h : r.lookUp s = some r') : r.Goes s i step r' := by
  simp only [Request.lookUp, hstage] at h
  cases hfound : s.existing r.input with
  | none =>
    simp only [hfound, Option.some.injEq] at h
    exact h ▸ goes_throwUncommitted hstep hstage hfound
  | some found =>
    obtain ⟨id, m⟩ := found
    simp only [hfound] at h
    split_ifs at h with hpayload hkey
    · exact Option.some.inj h ▸ goes_replay hfound hpayload
    · exact Option.some.inj h ▸ ⟨rfl, rfl, .keeps rfl⟩
    · rw [Option.not_isSome_iff_eq_none] at hkey
      exact Option.some.inj h ▸ goes_throw fun _ => .differs hfound hkey hpayload

theorem goes_interrupted (hstep : step = .lookUp) (hstage : r.stage = .interrupted id)
    (h : r.lookUp s = some r') : r.Goes s i step r' := by
  simp only [Request.lookUp, hstage] at h
  cases hm : s.mutations.get id with
  | none =>
    simp only [hm, Option.some.injEq] at h
    exact h ▸ ⟨rfl, rfl, .keeps rfl⟩
  | some m =>
    simp only [hm] at h
    split_ifs at h with hstatus
    · exact Option.some.inj h ▸ ⟨rfl, rfl, .returns (Or.inr hstage) hm hstatus⟩
    · obtain rfl := Option.some.inj h
      by_cases haborted : m.status = .aborted
      · exact ⟨rfl, rfl, .undone hstep hstage hm haborted⟩
      · exact ⟨rfl, rfl, .keeps (removes_stateConflict haborted)⟩

theorem goes_lookUp (h : r.lookUp s = some r') : r.Goes s i .lookUp r' := by
  cases hstage : r.stage with
  | replaying => exact goes_replaying hstage h
  | preparing =>
    simp only [Request.lookUp, hstage] at h
    exact goes_byKey (.pending rfl) h
  | duplicated =>
    simp only [Request.lookUp, hstage] at h
    exact goes_byKey (.pending rfl) h
  | resolving failure => exact goes_resolving rfl hstage h
  | interrupted id => exact goes_interrupted rfl hstage h
  | starting | sending | sent attempt | waiting | executing id | succeeded id | failed failure =>
    simp [Request.lookUp, hstage] at h

theorem goes_lookUpFails (h : r.lookUpFails = some r') : r.Goes s i step r' := by
  unfold Request.lookUpFails at h
  cases hstage : r.stage with
  | replaying | resolving failure | interrupted id | executing id =>
    simp only [hstage, Option.some.injEq] at h
    exact h ▸ ⟨rfl, rfl, .keeps rfl⟩
  | preparing | duplicated =>
    simp only [hstage, Option.some.injEq] at h
    exact h ▸ ⟨rfl, rfl, .pending rfl⟩
  | starting | sending | sent attempt | waiting | succeeded id | failed failure => simp [hstage] at h

theorem goes_answered {answer : Answer} (h : r.answered s i n answer = some r') :
    r.Goes s i step r' := by
  cases answer with
  | committed =>
    obtain ⟨heffective, h⟩ := Option.ite_none_right_eq_some.mp h
    exact Option.some.inj h ▸ ⟨rfl, rfl, .prepared heffective⟩
  | uniqueViolation =>
    obtain ⟨-, h⟩ := Option.ite_none_right_eq_some.mp h
    exact Option.some.inj h ▸ ⟨rfl, rfl, .pending rfl⟩
  | failed failure =>
    obtain ⟨-, h⟩ := Option.ite_none_right_eq_some.mp h
    exact Option.some.inj h ▸ ⟨rfl, rfl, .pending rfl⟩

/-- Where a request can remove its staged file. -/
def Stage.cleans : Stage → Bool
  | .succeeded _ => true
  | .failed failure => failure.removes
  | _ => false

/-- A request that has ended takes no other step. -/
theorem live_of_after (h : r.after s i step = some r') (hstep : step ≠ .cleanUp) :
    r.stage.cleans = false := by
  cases hstage : r.stage with
  | succeeded id =>
    cases step <;> simp [Request.after, Request.lookUp, Request.lookUpFails, hstage] at h hstep
  | failed failure =>
    cases step <;> simp [Request.after, Request.lookUp, Request.lookUpFails, hstage] at h hstep
  | _ => rfl

theorem pending_of_send (h : r.after s i .send = some r') : r'.stage.pending = true := by
  obtain ⟨-, h⟩ := Option.ite_none_right_eq_some.mp h
  exact Option.some.inj h ▸ rfl

/-- A step of a request is the removal of its staged file at the end, or it goes on. -/
theorem removes_or_goes (h : r.after s i step = some r') :
    (step = .cleanUp ∧ r' = { r with removed := true } ∧ r.input.stagedKey.isSome = true ∧
      r.stage.cleans = true) ∨ (step ≠ .cleanUp ∧ r.Goes s i step r') := by
  cases step with
  | lookUp => exact Or.inr ⟨nofun, goes_lookUp h⟩
  | lookUpFails => exact Or.inr ⟨nofun, goes_lookUpFails h⟩
  | start =>
    obtain ⟨-, h⟩ := Option.ite_none_right_eq_some.mp h
    exact Or.inr ⟨nofun, Option.some.inj h ▸ ⟨rfl, rfl, .pending rfl⟩⟩
  | fail failure =>
    simp only [Request.after] at h
    split at h
    · rename_i hstage
      exact Or.inr ⟨nofun, Option.some.inj h ▸ ⟨rfl, rfl, .refused hstage⟩⟩
    · obtain ⟨-, h⟩ := Option.ite_none_right_eq_some.mp h
      exact Or.inr ⟨nofun, Option.some.inj h ▸ ⟨rfl, rfl, .pending rfl⟩⟩
    · cases h
  | send =>
    obtain ⟨-, h⟩ := Option.ite_none_right_eq_some.mp h
    exact Or.inr ⟨nofun, Option.some.inj h ▸ ⟨rfl, rfl, .pending rfl⟩⟩
  | answer answer =>
    simp only [Request.after] at h
    split at h
    · exact Or.inr ⟨nofun, goes_answered h⟩
    · cases h
  | retry =>
    obtain ⟨-, h⟩ := Option.ite_none_right_eq_some.mp h
    exact Or.inr ⟨nofun, Option.some.inj h ▸ ⟨rfl, rfl, .pending rfl⟩⟩
  | giveUp failure =>
    obtain ⟨-, h⟩ := Option.ite_none_right_eq_some.mp h
    exact Or.inr ⟨nofun, Option.some.inj h ▸ ⟨rfl, rfl, .givesUp rfl⟩⟩
  | returns =>
    simp only [Request.after] at h
    split at h
    · rename_i hstage
      obtain ⟨hsucceeded, h⟩ := Option.ite_none_right_eq_some.mp h
      obtain ⟨m, hm, hstatus⟩ := (Option.any_eq_true _ _).mp hsucceeded
      exact Or.inr ⟨nofun, Option.some.inj h ▸
        ⟨rfl, rfl, .returns (Or.inl hstage) hm (of_decide_eq_true hstatus)⟩⟩
    · cases h
  | rejects =>
    simp only [Request.after] at h
    split at h
    · rename_i hstage
      obtain ⟨hover, h⟩ := Option.ite_none_right_eq_some.mp h
      obtain ⟨m, hm, hover⟩ := (Option.any_eq_true _ _).mp hover
      rw [Bool.or_eq_true, decide_eq_true_eq] at hover
      exact Or.inr ⟨nofun, Option.some.inj h ▸ ⟨rfl, rfl, .rejects rfl hstage hm hover⟩⟩
    · cases h
  | rethrows =>
    simp only [Request.after] at h
    split at h
    · rename_i hstage
      obtain ⟨-, h⟩ := Option.ite_none_right_eq_some.mp h
      exact Or.inr ⟨nofun, Option.some.inj h ▸ ⟨rfl, rfl, .rethrows rfl hstage⟩⟩
    · cases h
  | breaks =>
    simp only [Request.after] at h
    split at h
    · rename_i hstage
      exact Or.inr ⟨nofun, Option.some.inj h ▸ ⟨rfl, rfl, .breaks hstage⟩⟩
    · cases h
  | cleanUp =>
    simp only [Request.after] at h
    split at h
    · rename_i hstage
      obtain ⟨hstaged, h⟩ := Option.ite_none_right_eq_some.mp h
      exact Or.inl ⟨rfl, (Option.some.inj h).symm, hstaged, by rw [hstage]; rfl⟩
    · rename_i failure hstage
      obtain ⟨hguard, h⟩ := Option.ite_none_right_eq_some.mp h
      rw [Bool.and_eq_true] at hguard
      exact Or.inl ⟨rfl, (Option.some.inj h).symm, hguard.1, by rw [hstage]; exact hguard.2⟩
    · cases h

/-! ## What a step leaves of the journal and of the requests -/

/-- The same mutation, or what a deed has made of it. -/
def Mutation.Becomes (m m' : Mutation) : Prop := m' = m ∨ m.Goes m'

theorem Mutation.Becomes.input (h : m.Becomes m') : m'.input = m.input := by
  rcases h with rfl | h
  · rfl
  · exact h.input

theorem Acts.row (h : Acts s e s') (hfits : ∀ id m, s.mutations.get id = some m → m.Fits)
    (hget : s'.mutations.get id = some m') :
    (∃ m, s.mutations.get id = some m ∧ m.Becomes m') ∨
      ∃ i n r, e = .takeEffect i n ∧ (i, n) ∈ s.inFlight ∧ s.requests.get i = some r ∧
        s.mutations.get r.input.mutationId = none ∧ s.keyTaken r.input = false ∧
        id = r.input.mutationId ∧ m' = .prepared r.input := by
  cases h with
  | takeEffect hmem hr hid hkey =>
    obtain ⟨rfl, rfl⟩ | ⟨-, hold⟩ := OrderedMap.get_set_eq_some.mp hget
    · exact Or.inr ⟨_, _, _, rfl, hmem, hr, hid, hkey, rfl, rfl⟩
    · exact Or.inl ⟨m', hold, Or.inl rfl⟩
  | deed _ hm hafter =>
    obtain ⟨rfl, rfl⟩ | ⟨-, hold⟩ := OrderedMap.get_set_eq_some.mp hget
    · exact Or.inl ⟨_, hm, Or.inr (goes_of_after (hfits _ _ hm) hafter)⟩
    · exact Or.inl ⟨m', hold, Or.inl rfl⟩
  | begin => exact Or.inl ⟨m', hget, Or.inl rfl⟩
  | request => exact Or.inl ⟨m', hget, Or.inl rfl⟩
  | ends => exact Or.inl ⟨m', hget, Or.inl rfl⟩

/-- The journal keeps its mutations. -/
theorem Acts.row_stays (h : Acts s e s') (hfits : ∀ id m, s.mutations.get id = some m → m.Fits)
    (hget : s.mutations.get id = some m) :
    ∃ m', s'.mutations.get id = some m' ∧ m.Becomes m' := by
  obtain ⟨m', hget'⟩ : ∃ m', s'.mutations.get id = some m' := by
    cases h with
    | takeEffect | deed =>
      dsimp only
      rw [OrderedMap.get_set]
      split_ifs
      · exact ⟨_, rfl⟩
      · exact ⟨m, hget⟩
    | begin | request | ends => exact ⟨m, hget⟩
  refine ⟨m', hget', ?_⟩
  rcases h.row hfits hget' with ⟨m₀, hold, hbecomes⟩ | ⟨_, _, _, -, -, -, hnone, -, rfl, -⟩
  · rw [hget] at hold
    obtain rfl := Option.some.inj hold
    exact hbecomes
  · rw [hget] at hnone
    cases hnone

/-- A request of the world after a step: new, one that has made the step, or as before. -/
theorem Acts.mem_requests (h : Acts s e s') (hget : s'.requests.get i = some r') :
    s.requests.get i = some r' ∨
      (s.requests.get i = none ∧ ∃ input, e = .begin i input ∧ s.admits input = true ∧
        r' = .fresh input) ∨
      ∃ r step, e = .request i step ∧ s.requests.get i = some r ∧ s'.mutations = s.mutations ∧
        ((r' = { r with removed := true } ∧ r.input.stagedKey.isSome = true ∧
          r.stage.cleans = true) ∨
        ((r.stage.cleans = false ∧ (step = .send → r'.stage.pending = true)) ∧
          r.Goes s i step r')) := by
  cases h with
  | begin hi hnew =>
    obtain ⟨rfl, rfl⟩ | ⟨-, hold⟩ := OrderedMap.get_set_eq_some.mp hget
    · exact Or.inr (Or.inl ⟨hi, _, rfl, hnew, rfl⟩)
    · exact Or.inl hold
  | request hr hafter =>
    obtain ⟨rfl, rfl⟩ | ⟨-, hold⟩ := OrderedMap.get_set_eq_some.mp hget
    · refine Or.inr (Or.inr ⟨_, _, rfl, hr, rfl, ?_⟩)
      rcases removes_or_goes hafter with ⟨-, hremoves⟩ | ⟨hstep, hgoes⟩
      · exact Or.inl hremoves
      · exact Or.inr ⟨⟨live_of_after hafter hstep, fun hsend => pending_of_send (hsend ▸ hafter)⟩, hgoes⟩
    · exact Or.inl hold
  | takeEffect => exact Or.inl hget
  | ends => exact Or.inl hget
  | deed => exact Or.inl hget

/-- No request forgets what it was asked for. -/
theorem Acts.request_stays (h : Acts s e s') (hget : s.requests.get i = some r) :
    ∃ r', s'.requests.get i = some r' ∧ r'.input = r.input := by
  obtain ⟨r', hget'⟩ : ∃ r', s'.requests.get i = some r' := by
    cases h with
    | begin | request =>
      dsimp only
      rw [OrderedMap.get_set]
      split_ifs
      · exact ⟨_, rfl⟩
      · exact ⟨r, hget⟩
    | takeEffect | ends | deed => exact ⟨r, hget⟩
  refine ⟨r', hget', ?_⟩
  rcases h.mem_requests hget' with hold | ⟨hnone, -⟩ | ⟨r₀, step, -, hold, -, hgoes⟩
  · rw [hget] at hold
    rw [Option.some.inj hold]
  · rw [hget] at hnone
    cases hnone
  · rw [hget] at hold
    obtain rfl := Option.some.inj hold
    rcases hgoes with ⟨rfl, -⟩ | ⟨-, hgoes⟩
    · rfl
    · exact hgoes.input

theorem Acts.mem_transactions (h : Acts s e s') :
    (∀ t ∈ s'.effective, t ∈ s.effective ∨ t ∈ s.inFlight ∧ ∃ r, s.requests.get t.1 = some r ∧
      s'.mutations.get r.input.mutationId = some (.prepared r.input)) ∧
    ∀ t ∈ s'.inFlight, t ∈ s.inFlight ∨ ∃ r, s.requests.get t.1 = some r ∧ e = .request t.1 .send ∧
      r.stage = .sending := by
  cases h with
  | begin => exact ⟨fun t ht => Or.inl ht, fun t ht => Or.inl ht⟩
  | @request i step r r' hr hafter =>
    refine ⟨fun t ht => Or.inl ht, fun t ht => ?_⟩
    dsimp only at ht
    split_ifs at ht with hsend
    · rcases List.mem_cons.mp ht with rfl | ht
      · subst hsend
        exact Or.inr ⟨r, hr, rfl, (Option.ite_none_right_eq_some.mp hafter).1⟩
      · exact Or.inl ht
    · exact Or.inl ht
  | takeEffect hmem hr hid hkey =>
    refine ⟨fun t ht => ?_, fun t ht => Or.inl (List.mem_of_mem_erase ht)⟩
    rcases List.mem_cons.mp ht with rfl | ht
    · refine Or.inr ⟨hmem, _, hr, ?_⟩
      dsimp only
      rw [OrderedMap.get_set, if_pos rfl]
    · exact Or.inl ht
  | ends => exact ⟨fun t ht => Or.inl ht, fun t ht => Or.inl (List.mem_of_mem_erase ht)⟩
  | deed => exact ⟨fun t ht => Or.inl ht, fun t ht => Or.inl ht⟩

/-! ## Who executes what -/

/-- The mutation that a request executes, or has succeeded with. -/
def Stage.mutation : Stage → Option String
  | .executing id | .interrupted id | .succeeded id => some id
  | _ => none

/-- The mutation has the payload of the input, and was prepared under its key. -/
def World.IsFor (s : World) (id : String) (input : Input) : Prop :=
  ∃ m, s.mutations.get id = some m ∧ m.input.payload = input.payload ∧
    ∀ key, input.key = some key → m.input.idempotencyKey = some key

structure RequestInv (s : World) : Prop where
  fits : ∀ id m, s.mutations.get id = some m → m.Fits
  unique : ∀ id₁ m₁ id₂ m₂ key, s.mutations.get id₁ = some m₁ → s.mutations.get id₂ = some m₂ →
    m₁.idempotencyKey = some key → m₂.idempotencyKey = some key → id₁ = id₂
  known : ∀ t, t ∈ s.inFlight ∨ t ∈ s.effective → ∃ r, s.requests.get t.1 = some r
  effective : ∀ t ∈ s.effective, ∀ r, s.requests.get t.1 = some r →
    ∃ m, s.mutations.get r.input.mutationId = some m ∧ m.input = r.input
  executes : ∀ i r id, s.requests.get i = some r → r.stage.mutation = some id → s.IsFor id r.input
  succeeded : ∀ i r id, s.requests.get i = some r → r.stage = .succeeded id →
    ∃ m, s.mutations.get id = some m ∧ m.status = .succeeded

theorem requestInv_empty : RequestInv .empty := by
  refine ⟨?_, ?_, ?_, ?_, ?_, ?_⟩ <;> intro _ <;> simp [World.empty]

theorem key_of_input {input : Input} {key : String} (h : input.key = some key) :
    input.idempotencyKey = some key :=
  (Option.filter_eq_some_iff.mp h).1

theorem not_keyTaken {input : Input} {key : String} (h : s.keyTaken input = false)
    (hkey : input.idempotencyKey = some key) (hm : s.mutations.get id = some m) :
    m.idempotencyKey ≠ some key := by
  intro hsame
  rw [World.keyTaken, hkey, Option.any_some, Option.isSome_eq_false_iff, Option.isNone_iff_eq_none,
    World.byKey, List.find?_eq_none] at h
  exact h (id, m) ((OrderedMap.get_eq_some_iff _ _ _).mp hm) (by simpa using hsame)

/-- A mutation that is not aborted keeps its key. -/
theorem Mutation.Fits.key_eq (h : m.Fits) {key : String} (hkey : m.idempotencyKey = some key) :
    m.status ≠ .aborted ∧ m.input.idempotencyKey = some key := by
  have hfits := h.key
  rw [hkey] at hfits
  by_cases haborted : m.status = .aborted
  · rw [if_pos haborted] at hfits
    cases hfits
  · rw [if_neg haborted] at hfits
    exact ⟨haborted, hfits.symm⟩

theorem Mutation.Becomes.key (h : m.Becomes m') (hm : m.Fits) {key : String}
    (hkey : m'.idempotencyKey = some key) : m.idempotencyKey = some key := by
  rcases h with rfl | h
  · exact hkey
  · rw [hm.key, if_neg h.aborted, ← h.input]
    exact (h.fits.key_eq hkey).2

/-- What a lookup has found. -/
theorem of_existing {input : Input} (h : s.existing input = some (id, m)) :
    s.mutations.get id = some m ∧
      ((∃ key, input.key = some key ∧ m.idempotencyKey = some key) ∨
        (input.key = none ∧ id = input.mutationId)) := by
  unfold World.existing at h
  cases hkey : input.key with
  | none =>
    simp only [hkey, Option.map_eq_some_iff] at h
    obtain ⟨m', hm, heq⟩ := h
    obtain ⟨rfl, rfl⟩ := Prod.mk.inj heq
    exact ⟨hm, Or.inr ⟨rfl, rfl⟩⟩
  | some key =>
    simp only [hkey] at h
    have hmem := List.mem_of_find?_eq_some h
    have hsame := List.find?_some (show s.mutations.entries.find? _ = some _ from h)
    exact ⟨(OrderedMap.get_eq_some_iff _ _ _).mpr hmem, Or.inl ⟨key, rfl, of_decide_eq_true hsame⟩⟩

theorem RequestInv.isFor_of_existing (h : RequestInv s) {input : Input}
    (hfound : s.existing input = some (id, m)) (hpayload : m.input.payload = input.payload) :
    s.IsFor id input := by
  obtain ⟨hm, hby⟩ := of_existing hfound
  refine ⟨m, hm, hpayload, fun key hkey => ?_⟩
  rcases hby with ⟨key', hkey', hsame⟩ | ⟨hnone, -⟩
  · rw [hkey] at hkey'
    obtain rfl := Option.some.inj hkey'
    exact ((h.fits id m hm).key_eq hsame).2
  · rw [hkey] at hnone
    cases hnone

theorem World.IsFor.act {input : Input} (h : s.IsFor id input) (hact : Acts s e s')
    (hfits : ∀ id m, s.mutations.get id = some m → m.Fits) : s'.IsFor id input := by
  obtain ⟨m, hm, hpayload, hkey⟩ := h
  obtain ⟨m', hm', hbecomes⟩ := hact.row_stays hfits hm
  refine ⟨m', hm', ?_, ?_⟩
  · rw [hbecomes.input]
    exact hpayload
  · rw [hbecomes.input]
    exact hkey

/-- A key has one mutation, before and after a step. -/
theorem RequestInv.unique_act (h : RequestInv s) (hact : Acts s e s') {id₁ id₂ key : String}
    {m₁ m₂ : Mutation} (h₁ : s'.mutations.get id₁ = some m₁) (h₂ : s'.mutations.get id₂ = some m₂)
    (hkey₁ : m₁.idempotencyKey = some key) (hkey₂ : m₂.idempotencyKey = some key) : id₁ = id₂ := by
  rcases hact.row h.fits h₁ with ⟨k₁, hold₁, hb₁⟩ | ⟨i₁, n₁, r₁, he₁, -, hr₁, -, hfree₁, rfl, rfl⟩
  · have hold₁' := hb₁.key (h.fits _ _ hold₁) hkey₁
    rcases hact.row h.fits h₂ with ⟨k₂, hold₂, hb₂⟩ | ⟨i₂, n₂, r₂, -, -, -, -, hfree₂, -, rfl⟩
    · exact h.unique id₁ k₁ id₂ k₂ key hold₁ hold₂ hold₁' (hb₂.key (h.fits _ _ hold₂) hkey₂)
    · exact absurd hold₁' (not_keyTaken hfree₂ hkey₂ hold₁)
  · rcases hact.row h.fits h₂ with ⟨k₂, hold₂, hb₂⟩ | ⟨i₂, n₂, r₂, he₂, -, hr₂, -, -, rfl, -⟩
    · exact absurd (hb₂.key (h.fits _ _ hold₂) hkey₂) (not_keyTaken hfree₁ hkey₁ hold₂)
    · rw [he₁] at he₂
      obtain ⟨rfl, rfl⟩ := Event.takeEffect.inj he₂
      rw [hr₁] at hr₂
      rw [Option.some.inj hr₂]

/-- What a request has taken up when it gets to a stage. -/
theorem RequestInv.isFor_of_moved (h : RequestInv s) {stage : Stage} (hr : s.requests.get i = some r)
    (hmoved : Moved s i r step stage) (hid : stage.mutation = some id) : s.IsFor id r.input := by
  cases hmoved with
  | prepared heffective =>
    obtain rfl := Option.some.inj hid
    obtain ⟨m, hm, hinput⟩ := h.effective _ heffective r hr
    refine ⟨m, hm, by rw [hinput], fun key hkey => ?_⟩
    rw [hinput]
    exact key_of_input hkey
  | executes hfound hpayload hstatus =>
    obtain rfl := Option.some.inj hid
    exact h.isFor_of_existing hfound hpayload
  | replays hfound hpayload hstatus =>
    obtain rfl := Option.some.inj hid
    exact h.isFor_of_existing hfound hpayload
  | returns hstage hm hstatus =>
    obtain rfl := Option.some.inj hid
    rcases hstage with hstage | hstage
    · exact h.executes i r _ hr (by rw [hstage]; rfl)
    · exact h.executes i r _ hr (by rw [hstage]; rfl)
  | breaks hstage =>
    obtain rfl := Option.some.inj hid
    exact h.executes i r _ hr (by rw [hstage]; rfl)
  | pending hpending =>
    cases stage <;> simp_all [Stage.pending, Stage.mutation]
  | _ => cases hid

theorem RequestInv.act (h : RequestInv s) (hact : Acts s e s') : RequestInv s' := by
  have hfor : ∀ id input, s.IsFor id input → s'.IsFor id input := fun id input hfor =>
    hfor.act hact h.fits
  constructor
  · intro id m' hget
    rcases hact.row h.fits hget with ⟨m, hold, rfl | hgoes⟩ | ⟨_, _, _, -, -, -, -, -, -, rfl⟩
    · exact h.fits id m' hold
    · exact hgoes.fits
    · exact fits_prepared _
  · intro id₁ m₁ id₂ m₂ key h₁ h₂ hkey₁ hkey₂
    exact h.unique_act hact h₁ h₂ hkey₁ hkey₂
  · intro t ht
    have hold : ∃ r, s.requests.get t.1 = some r := by
      rcases ht with ht | ht
      · rcases hact.mem_transactions.2 t ht with ht | ⟨r, hr, -⟩
        · exact h.known t (Or.inl ht)
        · exact ⟨r, hr⟩
      · rcases hact.mem_transactions.1 t ht with ht | ⟨-, r, hr, -⟩
        · exact h.known t (Or.inr ht)
        · exact ⟨r, hr⟩
    obtain ⟨r, hr⟩ := hold
    obtain ⟨r', hr', -⟩ := hact.request_stays hr
    exact ⟨r', hr'⟩
  · intro t ht r' hr'
    rcases hact.mem_transactions.1 t ht with ht | ⟨-, r, hr, hm⟩
    · obtain ⟨r, hr⟩ := h.known t (Or.inr ht)
      obtain ⟨r₀, hr₀, hinput⟩ := hact.request_stays hr
      rw [hr'] at hr₀
      obtain rfl := Option.some.inj hr₀
      obtain ⟨m, hm, hsame⟩ := h.effective t ht r hr
      obtain ⟨m', hm', hbecomes⟩ := hact.row_stays h.fits hm
      exact ⟨m', by rw [hinput]; exact hm', by rw [hbecomes.input, hsame, hinput]⟩
    · obtain ⟨r₀, hr₀, hinput⟩ := hact.request_stays hr
      rw [hr'] at hr₀
      obtain rfl := Option.some.inj hr₀
      exact ⟨_, by rw [hinput]; exact hm, hinput.symm⟩
  · intro i r' id hr' hid
    rcases hact.mem_requests hr' with hold | ⟨-, input, -, -, rfl⟩ | ⟨r, step, -, hr, -, hgoes⟩
    · exact hfor _ _ (h.executes i r' id hold hid)
    · cases hid
    · rcases hgoes with ⟨rfl, -⟩ | ⟨-, hgoes⟩
      · exact hfor _ _ (h.executes i r id hr hid)
      · rw [hgoes.input]
        exact hfor _ _ (h.isFor_of_moved hr hgoes.moved hid)
  · intro i r' id hr' hstage
    have hsucceeded : ∃ m, s.mutations.get id = some m ∧ m.status = .succeeded := by
      rcases hact.mem_requests hr' with hold | ⟨-, input, -, -, rfl⟩ | ⟨r, step, -, hr, -, hgoes⟩
      · exact h.succeeded i r' id hold hstage
      · cases hstage
      · rcases hgoes with ⟨rfl, -⟩ | ⟨-, hgoes⟩
        · exact h.succeeded i r id hr hstage
        · have hmoved := hgoes.moved
          rw [hstage] at hmoved
          cases hmoved with
          | pending hpending => cases hpending
          | replays hfound hpayload hstatus => exact ⟨_, (of_existing hfound).1, hstatus⟩
          | returns hstage hm hstatus => exact ⟨_, hm, hstatus⟩
    obtain ⟨m, hm, hstatus⟩ := hsucceeded
    obtain ⟨m', hm', rfl | hgoes⟩ := hact.row_stays h.fits hm
    · exact ⟨m', hm', hstatus⟩
    · exact absurd hstatus hgoes.succeeded

theorem requestInv_step (s : World) (e : Event) (h : RequestInv s) : RequestInv (s.step e) :=
  step_cases (fun _ hact => h.act hact) h

/-! ## The promise -/

theorem RequestInv.oncePerKey (h : RequestInv s) : OncePerKey s where
  once id₁ m₁ id₂ m₂ key h₁ h₂ hkey₁ hkey₂ hcommitted₁ hcommitted₂ := by
    have hkeeps : ∀ id m, s.mutations.get id = some m → m.input.idempotencyKey = some key →
        m.committed = true → m.idempotencyKey = some key := by
      intro id m hm hkey hcommitted
      have hfits := h.fits id m hm
      rw [hfits.key, if_neg, hkey]
      intro haborted
      have hin := (hfits.committed hcommitted).2
      rw [haborted] at hin
      simp at hin
    exact h.unique id₁ m₁ id₂ m₂ key h₁ h₂ (hkeeps _ _ h₁ hkey₁ hcommitted₁)
      (hkeeps _ _ h₂ hkey₂ hcommitted₂)
  succeeded i r id hr hstage := by
    obtain ⟨m, hm, hstatus⟩ := h.succeeded i r id hr hstage
    obtain ⟨m', hm', hpayload, -⟩ := h.executes i r id hr (by rw [hstage]; rfl)
    rw [hm] at hm'
    obtain rfl := Option.some.inj hm'
    exact ⟨m, hm, (h.fits id m hm).committed_of (by simp [hstatus]), hpayload⟩

theorem RequestInv.reusesNothing (h : RequestInv s) (e : Event) : ReusesNothing s e := by
  intro i hof hother
  obtain ⟨r, key, id, m, hr, hkey, hm, hused, hpayload⟩ := hother
  refine step_cases (I := fun s' => s'.mutations = s.mutations) (fun s' hact => ?_) rfl
  cases hact with
  | begin => rfl
  | request => rfl
  | ends => rfl
  | takeEffect hmem hr' hid hfree =>
    obtain rfl : _ = i := of_decide_eq_true hof
    rw [hr] at hr'
    obtain rfl := Option.some.inj hr'
    exact absurd hused (not_keyTaken hfree (key_of_input hkey) hm)
  | deed hexecutes hm' hafter =>
    obtain ⟨r', hr', hstage⟩ := hexecutes i (of_decide_eq_true hof)
    rw [hr] at hr'
    obtain rfl := Option.some.inj hr'
    obtain ⟨m₀, hm₀, hsame, hprepared⟩ := h.executes i r _ hr (by rw [hstage]; rfl)
    rw [hm'] at hm₀
    obtain rfl := Option.some.inj hm₀
    -- nothing can be done with an aborted mutation, and another one would have the key
    have hgoes := goes_of_after (h.fits _ _ hm') hafter
    have hkey' := (h.fits _ _ hm').key
    rw [if_neg hgoes.aborted, hprepared key hkey] at hkey'
    obtain rfl := h.unique _ _ _ _ key hm' hm hkey' hused
    rw [hm] at hm'
    obtain rfl := Option.some.inj hm'
    exact absurd hsame hpayload

/-- In every run at most one of the mutations that were prepared under a key is committed, requests
succeed with committed mutations of their payload, and a request whose key is in use for another payload
has no effect. -/
theorem run_oncePerKey (events : List Event) :
    OncePerKey (events.foldl World.step .empty) ∧
      RunMeets World.step ReusesNothing .empty events := by
  constructor
  · have hinv : RequestInv (events.foldl World.step .empty) :=
      run_keeps requestInv_step events requestInv_empty
    exact hinv.oncePerKey
  · exact run_meets requestInv_step (fun s e h => h.reusesNothing e) requestInv_empty

end Staaash.Durable
