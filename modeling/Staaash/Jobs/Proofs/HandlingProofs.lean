import Staaash.Jobs.Handling
import Staaash.Jobs.Proofs.CallsProofs

/-!
# Proofs: the handling of a job

A job that its worker does not hold is only held again by a claim. So the handling, which ends with an update
that gives the job back or with finding it given back, never leaves it to the end of the lease.
-/

namespace Staaash.Jobs

open Staaash.Library

variable {q q' : Queue} {deed : Statement} {jobId workerId : String} {job job' : BackgroundJob}

/-! ## Who holds the job -/

theorem Queue.held_eq_false_iff :
    q.held jobId workerId = false ↔ ∀ job, q.jobs.get jobId = some job → job.heldBy workerId = false := by
  unfold Queue.held
  cases q.jobs.get jobId with
  | none => simp
  | some job => simp

theorem BackgroundJob.heldBy_of_lockedBy (h : job.lockedBy ≠ some workerId) : job.heldBy workerId = false := by
  unfold BackgroundJob.heldBy
  simp [h]

theorem AdminAction.heldBy_update (action : AdminAction) (job : BackgroundJob) (actorUserId : String) (now : Nat) :
    (action.update job actorUserId now).heldBy workerId = false := by
  cases action with
  | cancel => rfl
  | retry => rfl
  | dismiss => rfl

theorem Failing.heldBy_update {f : Failing} {delayMs : Nat} (h : f.update delayMs job = some job') :
    job'.heldBy workerId = false := by
  refine BackgroundJob.heldBy_of_lockedBy ?_
  unfold Failing.update at h
  split_ifs at h with hretryable
  · obtain rfl := Option.some.inj h
    exact nofun
  · obtain ⟨-, hnone⟩ := BackgroundJob.of_markTerminal h
    rw [hnone]
    exact nofun

theorem Deed.heldBy_update {deed : Deed} {holder : String} {now : Nat}
    (h : deed.update job holder now = some job') (hjob : job.heldBy workerId = false) :
    job'.heldBy workerId = false := by
  cases deed with
  | renew leaseMs =>
    obtain ⟨hheld, heq⟩ := Option.ite_none_right_eq_some.1 h
    obtain rfl := Option.some.inj heq
    exact hjob
  | succeed =>
    obtain ⟨-, heq⟩ := Option.ite_none_right_eq_some.1 h
    obtain rfl := Option.some.inj heq
    exact BackgroundJob.heldBy_of_lockedBy nofun
  | terminal error =>
    obtain ⟨-, hnone⟩ := BackgroundJob.of_markTerminal h
    refine BackgroundJob.heldBy_of_lockedBy ?_
    rw [hnone]
    exact nofun

/-- A job comes to be held by a claim only. -/
theorem Writes.heldBy {id : String} (h : Writes q deed id job job')
    (hclaim : ∀ c, deed = .claimUpdate c → c.workerId ≠ workerId) (hjob : job.heldBy workerId = false) :
    job'.heldBy workerId = false := by
  cases h with
  | @claim c _ _ _ hupdate =>
    obtain ⟨-, heq⟩ := Option.ite_none_right_eq_some.1 hupdate
    obtain rfl := Option.some.inj heq
    refine BackgroundJob.heldBy_of_lockedBy fun hlocked => ?_
    exact hclaim c rfl (Option.some.inj hlocked)
  | byHolder hdeed => exact Deed.heldBy_update hdeed hjob
  | fail _ hfail => exact Failing.heldBy_update hfail
  | admin _ => exact AdminAction.heldBy_update _ _ _ _

theorem Queue.held_act (h : q.act deed = some q')
    (hclaim : ∀ c, deed = .claimUpdate c → c.workerId ≠ workerId) (hheld : q.held jobId workerId = false) :
    q'.held jobId workerId = false := by
  rw [Queue.held_eq_false_iff] at hheld ⊢
  intro job' hget
  obtain hjobs | ⟨schedule, id, -, hjobs⟩ | ⟨id, job, new, hold, hwrites, hjobs⟩ := act_cases h
  · rw [hjobs] at hget
    exact hheld job' hget
  · rw [hjobs, OrderedMap.get_set] at hget
    split_ifs at hget
    · obtain rfl := Option.some.inj hget
      rfl
    · exact hheld job' hget
  · rw [hjobs, OrderedMap.get_set] at hget
    split_ifs at hget with hid
    · obtain rfl := Option.some.inj hget
      exact hwrites.heldBy hclaim (hheld job (hid ▸ hold))
    · exact hheld job' hget

theorem Queue.held_step (hclaim : ∀ c, deed = .claimUpdate c → c.workerId ≠ workerId)
    (hheld : q.held jobId workerId = false) : (q.step deed).held jobId workerId = false := by
  unfold Queue.step
  cases hact : q.act deed with
  | none => exact hheld
  | some q' => exact Queue.held_act hact hclaim hheld

/-- An update that ends the job's attempt gives the job back. -/
theorem Queue.held_of_deed {deed : Deed} {now : Nat} (hdeed : ∀ leaseMs, deed ≠ .renew leaseMs)
    (h : q.act (.byHolder jobId workerId deed now) = some q') : q'.held jobId workerId = false := by
  obtain ⟨job, job', -, hupdate, rfl⟩ := Queue.update_eq_some.1 h
  rw [Queue.held_eq_false_iff]
  intro new hnew
  rw [OrderedMap.get_set, if_pos rfl] at hnew
  obtain rfl := Option.some.inj hnew
  refine BackgroundJob.heldBy_of_lockedBy ?_
  cases deed with
  | renew leaseMs => exact absurd rfl (hdeed leaseMs)
  | succeed =>
    obtain ⟨-, heq⟩ := Option.ite_none_right_eq_some.1 hupdate
    obtain rfl := Option.some.inj heq
    exact nofun
  | terminal error =>
    rw [(BackgroundJob.of_markTerminal hupdate).2]
    exact nofun

theorem Deed.isSome_update (deed : Deed) (now : Nat) (h : job.heldBy workerId = true) :
    (deed.update job workerId now).isSome = true := by
  cases deed with
  | renew leaseMs => simp [Deed.update, BackgroundJob.renew, h]
  | succeed => simp [Deed.update, BackgroundJob.markSucceeded, h]
  | terminal error => simp [Deed.update, BackgroundJob.markTerminal, h]

theorem Queue.held_of_deed_none {deed : Deed} {now : Nat}
    (h : q.act (.byHolder jobId workerId deed now) = none) : q.held jobId workerId = false := by
  rw [Queue.held_eq_false_iff]
  intro job hget
  by_contra hheld
  rw [Bool.not_eq_false] at hheld
  have hupdate : deed.update job workerId now = none := by
    unfold Queue.act Queue.update at h
    rw [Option.map_eq_none_iff, hget, Option.bind_some] at h
    exact h
  have hsome := deed.isSome_update now hheld
  rw [hupdate] at hsome
  exact nomatch hsome

theorem Queue.held_of_failUpdate {f : Failing} {delayMs : Nat} (h : q.act (.failUpdate f delayMs) = some q') :
    q'.held f.jobId workerId = false := by
  obtain ⟨-, hupdate⟩ := Option.ite_none_right_eq_some.1 h
  obtain ⟨job, job', -, hfail, rfl⟩ := Queue.update_eq_some.1 hupdate
  rw [Queue.held_eq_false_iff]
  intro new hnew
  rw [OrderedMap.get_set, if_pos rfl] at hnew
  obtain rfl := Option.some.inj hnew
  exact Failing.heldBy_update hfail

theorem Queue.held_of_failRead_none {error : JobError} {retryable : Bool} {now : Nat}
    (h : q.act (.failRead jobId workerId error retryable now) = none) : q.held jobId workerId = false := by
  rw [Queue.held_eq_false_iff]
  intro job hget
  refine BackgroundJob.heldBy_of_lockedBy fun hlocked => ?_
  have hread := Option.bind_eq_none_iff.1 h job hget
  unfold BackgroundJob.failsFor at hread
  rw [if_pos (decide_eq_true hlocked)] at hread
  exact nomatch hread

theorem Queue.failUpdate_ne_none {f : Failing} {delayMs : Nat} (hmem : f ∈ q.failing)
    (hretryable : f.retryable = true) (hsome : (q.jobs.get f.jobId).isSome = true) :
    q.act (.failUpdate f delayMs) ≠ none := by
  obtain ⟨job, hget⟩ := Option.isSome_iff_exists.1 hsome
  intro hact
  have hupdate : Queue.update { q with failing := q.failing.erase f } f.jobId (f.update delayMs) = none := by
    have hnone : (if f ∈ q.failing then _ else none) = none := hact
    rw [if_pos hmem] at hnone
    exact hnone
  unfold Queue.update Failing.update at hupdate
  rw [hget, Option.bind_some, if_pos hretryable] at hupdate
  exact nomatch hupdate

theorem Queue.held_of_cancelled (h : q.statusOf jobId = some .cancelled) : q.held jobId workerId = false := by
  rw [Queue.held_eq_false_iff]
  intro job hget
  unfold Queue.statusOf at h
  rw [hget] at h
  have hstatus : job.status = .cancelled := Option.some.inj h
  unfold BackgroundJob.heldBy
  simp [hstatus]

/-! ## Failures under way -/

theorem Queue.failing_update {f : BackgroundJob → Option BackgroundJob} (h : q.update jobId f = some q') :
    q'.failing = q.failing := by
  obtain ⟨job, job', -, -, rfl⟩ := Queue.update_eq_some.1 h
  rfl

/-- A failure under way is ended by its own worker. -/
theorem Queue.mem_failing_act {f : Failing} (h : q.act deed = some q')
    (hapart : deed.madeBy ≠ some f.workerId) (hmem : f ∈ q.failing) : f ∈ q'.failing := by
  cases deed with
  | scheduleFind schedule now =>
    obtain ⟨-, heq⟩ := Option.ite_none_left_eq_some.1 h
    exact Option.some.inj heq ▸ hmem
  | scheduleCreate schedule jobId =>
    obtain ⟨-, heq⟩ := Option.ite_none_right_eq_some.1 h
    exact Option.some.inj heq ▸ hmem
  | claimFind workerId lane queueName leaseMs now =>
    obtain ⟨_, -, rfl⟩ := Option.map_eq_some_iff.1 h
    exact hmem
  | claimUpdate c =>
    obtain ⟨-, hupdate⟩ := Option.ite_none_right_eq_some.1 h
    rw [Queue.failing_update hupdate]
    exact hmem
  | byHolder jobId workerId deed now =>
    rw [Queue.failing_update h]
    exact hmem
  | failRead jobId workerId error retryable now =>
    obtain ⟨job, -, hread⟩ := Option.bind_eq_some_iff.1 h
    obtain ⟨-, heq⟩ := Option.ite_none_right_eq_some.1 hread
    exact Option.some.inj heq ▸ List.mem_cons_of_mem _ hmem
  | failUpdate g delayMs =>
    obtain ⟨-, hupdate⟩ := Option.ite_none_right_eq_some.1 h
    rw [Queue.failing_update hupdate]
    have hne : f ≠ g := fun heq => hapart (heq ▸ rfl)
    exact (List.mem_erase_of_ne hne).2 hmem
  | adminRead jobId action actorUserId now =>
    obtain ⟨job, -, hread⟩ := Option.bind_eq_some_iff.1 h
    obtain ⟨-, heq⟩ := Option.ite_none_right_eq_some.1 hread
    exact Option.some.inj heq ▸ hmem
  | adminUpdate a =>
    obtain ⟨-, hupdate⟩ := Option.ite_none_right_eq_some.1 h
    rw [Queue.failing_update hupdate]
    exact hmem

/-- Jobs stay in the table. -/
theorem Queue.isSome_act (h : q.act deed = some q') (hsome : (q.jobs.get jobId).isSome = true) :
    (q'.jobs.get jobId).isSome = true := by
  obtain hjobs | ⟨_, _, -, hjobs⟩ | ⟨_, _, _, -, -, hjobs⟩ := act_cases h
  · rw [hjobs]
    exact hsome
  · rw [hjobs, OrderedMap.get_set]
    split_ifs
    · rfl
    · exact hsome
  · rw [hjobs, OrderedMap.get_set]
    split_ifs
    · rfl
    · exact hsome

/-! ## What a call leaves -/

/-- The stages that are come to when the job has been given back. -/
def Stage.given : Stage → Bool
  | .acking _ | .scheduling | .noting | .settled | .refused => true
  | _ => false

/-- The failure that has read the job. -/
def Stage.read : Stage → Option Failing
  | .retrying f => some f
  | _ => none

/-- The handling has ended without an answer to its last call, or before the job was settled. -/
def Stage.astray : Stage → Bool
  | .broken | .left => true
  | _ => false

/-- How many calls are left at most. -/
def Stage.rank : Stage → Nat
  | .handling => 8
  | .finishing => 7
  | .acking caught => if caught then 1 else 6
  | .succeeding => 6
  | .scheduling => 5
  | .catching _ => 4
  | .failing _ => 3
  | .retrying _ | .givingUp _ => 2
  | .noting => 1
  | .settled | .refused | .broken | .left => 0

namespace Handling

variable {s : Handling}

/-- The job is given back where the stage says so, and a failure that has read the job can update it. -/
structure Given (jobId workerId : String) (s : Handling) : Prop where
  job : s.jobId = jobId
  worker : s.workerId = workerId
  given : s.stage.given = true → s.q.held jobId workerId = false
  retrying : ∀ f, s.stage.read = some f → f.jobId = jobId ∧ f.workerId = workerId ∧ f.retryable = true ∧
    f ∈ s.q.failing ∧ (s.q.jobs.get jobId).isSome = true

theorem Given.of_open (hjob : s.jobId = jobId) (hworker : s.workerId = workerId) (hgiven : s.stage.given = false)
    (hread : s.stage.read = none) : s.Given jobId workerId := by
  refine ⟨hjob, hworker, fun h => ?_, fun f h => ?_⟩
  · rw [hgiven] at h
    exact nomatch h
  · rw [hread] at h
    exact nomatch h

theorem Given.of_held (hjob : s.jobId = jobId) (hworker : s.workerId = workerId)
    (hheld : s.q.held jobId workerId = false) (hread : s.stage.read = none) : s.Given jobId workerId := by
  refine ⟨hjob, hworker, fun _ => hheld, fun f h => ?_⟩
  rw [hread] at h
  exact nomatch h

theorem given_raise (hjob : s.jobId = jobId) (hworker : s.workerId = workerId) (error : Thrown) :
    (s.raise error).Given jobId workerId := by
  unfold raise
  split_ifs
  · exact .of_open hjob hworker rfl rfl
  · exact .of_open hjob hworker rfl rfl

theorem update_cases (reply : Reply) (done refused : Handling → Handling) (lost : Thrown → Handling → Handling) :
    (∃ q, s.q.act deed = some q ∧ s.update deed reply done refused lost = done { s with q }) ∨
      (s.q.act deed = none ∧ s.update deed reply done refused lost = refused s) ∨
      ∃ error q, reply ≠ .arrives ∧ s.update deed reply done refused lost = lost error { s with q } := by
  unfold Handling.update
  cases reply with
  | fails error => exact .inr (.inr ⟨error, s.q, nofun, rfl⟩)
  | isLost error => exact .inr (.inr ⟨error, _, nofun, rfl⟩)
  | arrives =>
    dsimp only
    cases hact : s.q.act deed with
    | none => exact .inr (.inl ⟨rfl, rfl⟩)
    | some q => exact .inl ⟨q, rfl, rfl⟩

theorem Given.call (h : s.Given jobId workerId) (now delayMs : Nat) (reply : Reply) :
    (s.call now delayMs reply).Given jobId workerId := by
  have hkept := h
  obtain ⟨rfl, rfl, hgiven, hretrying⟩ := h
  unfold Handling.call
  cases hstage : s.stage with
  | handling | left | broken | settled | refused => exact hkept
  | finishing =>
    cases reply with
    | fails error | isLost error => exact given_raise rfl rfl error
    | arrives =>
      dsimp only
      split_ifs with hcancelled hstopping haborted
      · exact .of_held rfl rfl (Queue.held_of_cancelled (of_decide_eq_true hcancelled)) rfl
      · exact .of_open rfl rfl rfl rfl
      · exact given_raise rfl rfl _
      · exact .of_open rfl rfl rfl rfl
  | acking caught =>
    have hheld := hgiven (by rw [hstage]; rfl)
    cases reply with
    | arrives => exact .of_held rfl rfl hheld rfl
    | fails error | isLost error =>
      dsimp only
      split_ifs
      · exact .of_open rfl rfl rfl rfl
      · exact given_raise rfl rfl error
  | succeeding =>
    dsimp only
    obtain ⟨q, hact, heq⟩ | ⟨-, heq⟩ | ⟨error, q, -, heq⟩ := update_cases reply _ _ _ <;> rw [heq]
    · exact .of_held rfl rfl (Queue.held_of_deed (by intro _ h; cases h) hact) rfl
    · exact given_raise rfl rfl _
    · exact given_raise (s := { s with q }) rfl rfl error
  | scheduling =>
    have hheld := hgiven (by rw [hstage]; rfl)
    cases reply with
    | arrives => exact .of_held rfl rfl hheld rfl
    | fails error | isLost error => exact given_raise rfl rfl error
  | catching error =>
    dsimp only
    split_ifs with hcancelled
    · rw [Bool.and_eq_true] at hcancelled
      exact .of_held rfl rfl (Queue.held_of_cancelled (of_decide_eq_true hcancelled.2)) rfl
    · exact .of_open rfl rfl rfl rfl
    · exact .of_open rfl rfl rfl rfl
  | givingUp error =>
    dsimp only
    obtain ⟨q, hact, heq⟩ | ⟨hact, heq⟩ | ⟨_, q, -, heq⟩ := update_cases reply _ _ _ <;> rw [heq]
    · exact .of_held rfl rfl (Queue.held_of_deed (by intro _ h; cases h) hact) rfl
    · exact .of_held rfl rfl (Queue.held_of_deed_none hact) rfl
    · exact .of_open rfl rfl rfl rfl
  | failing error =>
    cases reply with
    | fails _ | isLost _ => exact .of_open rfl rfl rfl rfl
    | arrives =>
      dsimp only
      cases hget : s.q.jobs.get s.jobId with
      | none =>
        refine .of_held rfl rfl (Queue.held_eq_false_iff.2 fun job hjob => ?_) rfl
        exact nomatch hget.symm.trans hjob
      | some job =>
        dsimp only
        cases hact : s.q.act (.failRead s.jobId s.workerId ⟨error.errorMessage, none⟩ true now) with
        | none => exact .of_held rfl rfl (Queue.held_of_failRead_none hact) rfl
        | some q =>
          obtain ⟨job', hget', hread⟩ := Option.bind_eq_some_iff.1 hact
          obtain ⟨-, hread⟩ := Option.ite_none_right_eq_some.1 hread
          obtain rfl := Option.some.inj (hget.symm.trans hget')
          obtain rfl := Option.some.inj hread
          refine ⟨rfl, rfl, fun h => (nomatch h), fun f hf => ?_⟩
          obtain rfl := Option.some.inj hf
          exact ⟨rfl, rfl, rfl, List.mem_cons_self, by rw [hget]; rfl⟩
  | retrying f =>
    obtain ⟨hjob, -, hretryable, hmem, hsome⟩ := hretrying f (by rw [hstage]; rfl)
    dsimp only
    obtain ⟨q, hact, heq⟩ | ⟨hact, heq⟩ | ⟨_, q, -, heq⟩ := update_cases reply _ _ _ <;> rw [heq]
    · have hheld : q.held f.jobId s.workerId = false := Queue.held_of_failUpdate hact
      rw [hjob] at hheld
      exact .of_held rfl rfl hheld rfl
    · exact absurd hact (Queue.failUpdate_ne_none hmem hretryable (hjob ▸ hsome))
    · exact .of_open rfl rfl rfl rfl
  | noting =>
    have hheld := hgiven (by rw [hstage]; rfl)
    cases reply with
    | arrives => exact .of_held rfl rfl hheld rfl
    | fails error | isLost error => exact .of_open rfl rfl rfl rfl

/-- A statement that does not claim the job for the worker, and does not end its failure. -/
theorem Given.acts (h : s.Given jobId workerId)
    (hclaim : ∀ c, deed = .claimUpdate c → c.workerId ≠ workerId)
    (hfailing : ∀ f, f.workerId = workerId → f ∈ s.q.failing → f ∈ (s.q.step deed).failing) :
    Given jobId workerId { s with q := s.q.step deed } := by
  obtain ⟨rfl, rfl, hgiven, hretrying⟩ := h
  refine ⟨rfl, rfl, fun hstage => Queue.held_step hclaim (hgiven hstage), fun f hf => ?_⟩
  obtain ⟨hjob, hworker, hretryable, hmem, hsome⟩ := hretrying f hf
  refine ⟨hjob, hworker, hretryable, hfailing f hworker hmem, ?_⟩
  unfold Queue.step
  cases hact : s.q.act deed with
  | none => exact hsome
  | some q => exact Queue.isSome_act hact hsome

theorem Given.step (h : s.Given jobId workerId) {e : Event} (hapart : s.Apart e) :
    (s.step e).Given jobId workerId := by
  obtain ⟨hjob, hworker, hgiven, hretrying⟩ := id h
  cases e with
  | others deed =>
    rw [← hworker] at h ⊢
    refine h.acts (fun c hc hname => hapart ?_) fun f hf hmem => ?_
    · rw [hc]
      exact congrArg some hname
    · unfold Queue.step
      cases hact : s.q.act deed with
      | none => exact hmem
      | some q => exact Queue.mem_failing_act hact (hf ▸ hapart) hmem
  | renews leaseMs now =>
    refine h.acts (fun c hc => nomatch hc) fun f _ hmem => ?_
    unfold Queue.step
    cases hact : s.q.act (.byHolder s.jobId s.workerId (.renew leaseMs) now) with
    | none => exact hmem
    | some q =>
      rw [Option.getD_some, Queue.failing_update hact]
      exact hmem
  | aborts => exact ⟨hjob, hworker, hgiven, hretrying⟩
  | stops => exact ⟨hjob, hworker, hgiven, hretrying⟩
  | handled thrown =>
    show Given jobId workerId (if s.stage = .handling then _ else s)
    split_ifs with hstage
    · cases thrown with
      | none => exact .of_open hjob hworker rfl rfl
      | some error => exact given_raise hjob hworker error
    · exact h
  | calls now delayMs reply => exact h.call now delayMs reply

/-! ## Undisturbed handlings -/

/-- Nothing has gone wrong with the handling. -/
structure Calm (s : Handling) : Prop where
  stopping : s.stopping = false
  stage : s.stage.astray = false

theorem calm_raise (h : s.stopping = false) (error : Thrown) : (s.raise error).Calm := by
  refine ⟨h, ?_⟩
  unfold raise
  dsimp only
  rw [if_neg (by rw [h]; exact Bool.false_ne_true)]
  rfl

theorem calm_update {done refused : Handling → Handling} {lost : Thrown → Handling → Handling}
    (hdone : ∀ q, (done { s with q }).Calm) (hrefused : (refused s).Calm) :
    (s.update deed .arrives done refused lost).Calm := by
  obtain ⟨q, -, heq⟩ | ⟨-, heq⟩ | ⟨_, _, hreply, -⟩ := update_cases .arrives done refused lost
  · rw [heq]
    exact hdone q
  · rw [heq]
    exact hrefused
  · exact absurd rfl hreply

theorem Calm.call (h : s.Calm) (now delayMs : Nat) : (s.call now delayMs .arrives).Calm := by
  have hstopping := h.stopping
  unfold Handling.call
  cases hstage : s.stage with
  | handling | left | broken | settled | refused => exact h
  | finishing =>
    dsimp only
    split_ifs with hcancelled hstop haborted
    · exact ⟨hstopping, rfl⟩
    · exact absurd hstop (by rw [hstopping]; exact Bool.false_ne_true)
    · exact calm_raise hstopping _
    · exact ⟨hstopping, rfl⟩
  | acking | scheduling | noting => exact ⟨hstopping, rfl⟩
  | succeeding => exact calm_update (fun _ => ⟨hstopping, rfl⟩) (calm_raise hstopping _)
  | givingUp | retrying => exact calm_update (fun _ => ⟨hstopping, rfl⟩) ⟨hstopping, rfl⟩
  | catching error =>
    dsimp only
    split_ifs
    · exact ⟨hstopping, rfl⟩
    · exact ⟨hstopping, rfl⟩
    · exact ⟨hstopping, rfl⟩
  | failing error =>
    dsimp only
    split
    · exact ⟨hstopping, rfl⟩
    · split
      · exact ⟨hstopping, rfl⟩
      · exact ⟨hstopping, rfl⟩

theorem Calm.step (h : s.Calm) {e : Event} (hcalm : e.disturbs = false) : (s.step e).Calm := by
  cases e with
  | others | renews | aborts => exact ⟨h.stopping, h.stage⟩
  | stops => exact nomatch hcalm
  | handled thrown =>
    show Calm (if s.stage = .handling then _ else s)
    split_ifs
    · cases thrown with
      | none => exact ⟨h.stopping, rfl⟩
      | some error => exact calm_raise h.stopping error
    · exact h
  | calls now delayMs reply =>
    have hreply : reply = .arrives := not_not.1 (of_decide_eq_false hcalm)
    rw [hreply]
    exact h.call now delayMs

/-! ## Runs -/

/-- A job whose handling has ended is not held any more, unless there was a shutdown or a call went wrong. -/
theorem run_settles {events : List Event} (h : RunMeets step Apart (start q jobId workerId) events) :
    let s := events.foldl step (start q jobId workerId)
    s.stage.ended = true →
      (s.stage.astray = true ∧ ∃ e ∈ events, e.disturbs = true) ∨ s.q.held jobId workerId = false := by
  intro s hended
  have hgiven : s.Given jobId workerId :=
    h.keeps (fun s e hapart hs => hs.step hapart) (.of_open rfl rfl rfl rfl)
  cases hastray : s.stage.astray with
  | false =>
    refine .inr (hgiven.given ?_)
    cases hstage : s.stage with
    | settled | refused => rfl
    | broken | left => rw [hstage] at hastray; exact nomatch hastray
    | _ => rw [hstage] at hended; exact nomatch hended
  | true =>
    refine .inl ⟨rfl, ?_⟩
    by_contra hnone
    have hcalm : s.Calm := (runMeets_of_forall (p := fun e => e.disturbs = false) fun e he =>
      Bool.eq_false_of_not_eq_true fun hdisturbs => hnone ⟨e, he, hdisturbs⟩).keeps
      (fun s e hcalm hs => hs.step hcalm) ⟨rfl, rfl⟩
    rw [hcalm.stage] at hastray
    exact nomatch hastray

/-! ## Every handling ends -/

theorem rank_raise (error : Thrown) : (s.raise error).stage.rank ≤ 4 := by
  unfold raise
  dsimp only
  split_ifs
  · exact Nat.zero_le 4
  · exact Nat.le_refl 4

theorem rank_update {reply : Reply} {done refused : Handling → Handling} {lost : Thrown → Handling → Handling}
    {n : Nat} (hdone : ∀ q, (done { s with q }).stage.rank ≤ n) (hrefused : (refused s).stage.rank ≤ n)
    (hlost : ∀ error q, (lost error { s with q }).stage.rank ≤ n) :
    (s.update deed reply done refused lost).stage.rank ≤ n := by
  obtain ⟨q, -, heq⟩ | ⟨-, heq⟩ | ⟨error, q, -, heq⟩ := update_cases reply done refused lost
  · rw [heq]
    exact hdone q
  · rw [heq]
    exact hrefused
  · rw [heq]
    exact hlost error q

theorem rank_call (hstage : s.stage ≠ .handling) (now delayMs : Nat) (reply : Reply) :
    (s.call now delayMs reply).stage.rank ≤ s.stage.rank - 1 := by
  unfold Handling.call
  cases hstage' : s.stage with
  | handling => exact absurd hstage' hstage
  | settled | refused | broken | left => exact Nat.le_of_eq (congrArg Stage.rank hstage')
  | finishing =>
    have hraise : ∀ error, (s.raise error).stage.rank ≤ 6 := fun error => Nat.le_trans (rank_raise error) (by decide)
    cases reply with
    | fails error | isLost error => exact hraise error
    | arrives =>
      dsimp only
      split_ifs
      · exact Nat.le_refl 6
      · exact Nat.zero_le 6
      · exact hraise _
      · exact Nat.le_refl 6
  | acking caught =>
    cases reply with
    | arrives => exact Nat.zero_le _
    | fails error | isLost error =>
      cases caught with
      | true => exact Nat.zero_le _
      | false => exact Nat.le_trans (rank_raise error) (by decide)
  | succeeding =>
    have hraise : ∀ (s : Handling) error, (s.raise error).stage.rank ≤ 5 := fun s error =>
      Nat.le_trans (rank_raise error) (by decide)
    exact rank_update (fun _ => Nat.le_refl 5) (hraise _ _) fun _ _ => hraise _ _
  | scheduling =>
    cases reply with
    | arrives => exact Nat.zero_le _
    | fails error | isLost error => exact rank_raise error
  | catching error =>
    dsimp only
    split_ifs
    · exact (by decide : 1 ≤ 3)
    · exact (by decide : 2 ≤ 3)
    · exact Nat.le_refl 3
  | givingUp error => exact rank_update (fun _ => Nat.le_refl 1) (Nat.zero_le 1) fun _ _ => Nat.zero_le 1
  | failing error =>
    cases reply with
    | fails | isLost => exact Nat.zero_le _
    | arrives =>
      dsimp only
      split
      · exact Nat.zero_le 2
      · split
        · exact Nat.zero_le 2
        · exact Nat.le_refl 2
  | retrying f => exact rank_update (fun _ => Nat.le_refl 1) (Nat.zero_le 1) fun _ _ => Nat.zero_le 1
  | noting =>
    cases reply with
    | arrives | fails | isLost => exact Nat.le_refl 0

/-- The event is the next call of the handling. -/
def Event.isCall : Event → Bool
  | .calls _ _ _ => true
  | _ => false

theorem ne_handling_of_rank {stage : Stage} (h : stage.rank ≤ 7) : stage ≠ .handling := by
  rintro rfl
  exact absurd h (by decide)

theorem rank_step (h : s.stage.rank ≤ 7) (e : Event) :
    (s.step e).stage.rank ≤ s.stage.rank - if e.isCall then 1 else 0 := by
  cases e with
  | others | renews | aborts | stops => exact Nat.le_refl _
  | handled thrown =>
    show (if s.stage = .handling then _ else s).stage.rank ≤ _
    rw [if_neg (ne_handling_of_rank h)]
    exact Nat.le_refl _
  | calls now delayMs reply => exact rank_call (ne_handling_of_rank h) now delayMs reply

theorem rank_run (h : s.stage.rank ≤ 7) (events : List Event) :
    (events.foldl step s).stage.rank ≤ s.stage.rank - events.countP Event.isCall := by
  induction events generalizing s with
  | nil => exact Nat.le_refl _
  | cons e events ih =>
    have hstep := rank_step h e
    have hrun := ih (s := s.step e) (by omega)
    rw [List.foldl_cons, List.countP_cons]
    split_ifs at hstep ⊢
    · omega
    · omega

theorem rank_handled (s : Handling) (thrown : Option Thrown) : (s.step (.handled thrown)).stage.rank ≤ 7 := by
  show (if s.stage = .handling then _ else s).stage.rank ≤ 7
  split_ifs with hstage
  · cases thrown with
    | none => exact Nat.le_refl 7
    | some error => exact Nat.le_trans (rank_raise error) (by decide)
  · cases hstage' : s.stage with
    | handling => exact absurd hstage' hstage
    | acking caught => cases caught <;> decide
    | _ => simp [Stage.rank]

theorem ended_of_rank {stage : Stage} (h : stage.rank = 0) : stage.ended = true := by
  cases stage with
  | settled | refused | broken | left => rfl
  | acking caught => cases caught <;> exact nomatch h
  | _ => exact nomatch h

/-- A handling whose handler has returned or thrown ends within seven calls, whatever comes of them. -/
theorem run_ends (q : Queue) (jobId workerId : String) (before after : List Event) (thrown : Option Thrown)
    (hcalls : 7 ≤ after.countP Event.isCall) :
    ((before ++ .handled thrown :: after).foldl step (start q jobId workerId)).stage.ended = true := by
  rw [List.foldl_append, List.foldl_cons]
  have hhandled := rank_handled (before.foldl step (start q jobId workerId)) thrown
  have hrun := rank_run hhandled after
  exact ended_of_rank (by omega)

/-! ## A job that is cancelled while its result is stored -/

def media : BackgroundJob where
  kind := .mediaDerivativeGenerate
  queueName := "default"
  priority := 0
  status := .running
  payloadJson := ⟨none, none⟩
  dedupeKey := none
  runAt := 0
  lockedAt := some 0
  lockedBy := some "worker"
  leaseExpiresAt := some 60000
  startedAt := some 0
  completedAt := none
  cancelledAt := none
  cancelledByUserId := none
  attemptCount := 1
  maxAttempts := 3
  lastError := none
  errorCode := none

def cancelledLate : List Event :=
  [.handled none, .others (.adminRead "job" .cancel "admin" 1), .calls 1 0 .arrives,
    .others (.adminUpdate ⟨"job", .cancel, "admin", 1⟩), .calls 2 0 .arrives, .calls 3 0 .arrives,
    .calls 4 0 .arrives]

theorem run_settles_cancelledLate :
    let q : Queue := { Queue.empty with jobs := .ofList [("job", media)] }
    let s := cancelledLate.foldl step (start q "job" "worker")
    (s.stage.astray = true ∧ ∃ e ∈ cancelledLate, e.disturbs = true) ∨ s.q.held "job" "worker" = false :=
  run_settles (by decide) (by decide)

theorem run_ends_cancelledLate :
    (List.foldl step (start Queue.empty "job" "worker")
      ([.aborts] ++ .handled none :: List.replicate 7 (.calls 1 0 .arrives))).stage.ended = true :=
  run_ends Queue.empty "job" "worker" [.aborts] (List.replicate 7 (.calls 1 0 .arrives)) none (by decide)

end Handling

end Staaash.Jobs
