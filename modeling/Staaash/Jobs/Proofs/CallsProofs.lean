import Staaash.Jobs.Calls

/-!
# Proofs: the outcome of a job is final

A lock is only kept by a running job. So a call whose check would still pass when its update arrives
finds a job that is running for its worker, or one that the admin action starts from, and neither is a
job that succeeded.
-/

namespace Staaash.Jobs

open Staaash.Library

variable {q q' : Queue} {s : Statement} {jobId workerId : String} {job job' : BackgroundJob}

theorem Queue.update_eq_some {f : BackgroundJob → Option BackgroundJob} :
    q.update jobId f = some q' ↔ ∃ job job', q.jobs.get jobId = some job ∧ f job = some job' ∧
      q' = { q with jobs := q.jobs.set jobId job' } := by
  unfold Queue.update
  rw [Option.map_eq_some_iff]
  constructor
  · rintro ⟨job', hbind, rfl⟩
    obtain ⟨job, hget, hf⟩ := Option.bind_eq_some_iff.1 hbind
    exact ⟨job, job', hget, hf, rfl⟩
  · rintro ⟨job, job', hget, hf, rfl⟩
    exact ⟨job', Option.bind_eq_some_iff.2 ⟨job, hget, hf⟩, rfl⟩

/-- The update of one job that a statement makes. -/
inductive Writes (q : Queue) : Statement → String → BackgroundJob → BackgroundJob → Prop
  | claim {c : Claiming} {job job' : BackgroundJob} (hmem : c ∈ q.claiming)
    (hclaim : job.claim c.workerId c.leaseMs c.now c.startedAt = some job') :
    Writes q (.claimUpdate c) c.jobId job job'
  | byHolder {jobId workerId : String} {deed : Deed} {now : Nat} {job job' : BackgroundJob}
    (hdeed : deed.update job workerId now = some job') :
    Writes q (.byHolder jobId workerId deed now) jobId job job'
  | fail {f : Failing} {delayMs : Nat} {job job' : BackgroundJob} (hmem : f ∈ q.failing)
    (hfail : f.update delayMs job = some job') : Writes q (.failUpdate f delayMs) f.jobId job job'
  | admin {a : Acting} {job : BackgroundJob} (hmem : a ∈ q.acting) :
    Writes q (.adminUpdate a) a.jobId job (a.action.update job a.actorUserId a.now)

/-- A statement leaves the jobs alone, adds one, or updates one. -/
theorem act_cases (h : q.act s = some q') :
    q'.jobs = q.jobs ∨
    (∃ (schedule : Schedule) (jobId : String), q.jobs.get jobId = none ∧ q'.jobs = q.jobs.set jobId schedule.job) ∨
    ∃ jobId job job', q.jobs.get jobId = some job ∧ Writes q s jobId job job' ∧
      q'.jobs = q.jobs.set jobId job' := by
  cases s with
  | scheduleFind schedule now =>
    simp only [Queue.act, Option.ite_none_left_eq_some, Option.some.injEq] at h
    exact .inl (h.2 ▸ rfl)
  | scheduleCreate schedule jobId =>
    simp only [Queue.act, Option.ite_none_right_eq_some, Bool.and_eq_true, Bool.not_eq_true',
      Option.some.injEq, OrderedMap.has_eq_false_iff] at h
    exact .inr (.inl ⟨schedule, jobId, h.1.2, h.2 ▸ rfl⟩)
  | claimFind workerId lane queueName leaseMs now =>
    obtain ⟨⟨jobId, job⟩, -, rfl⟩ := Option.map_eq_some_iff.1 h
    exact .inl rfl
  | claimUpdate c =>
    obtain ⟨hmem, hupdate⟩ := Option.ite_none_right_eq_some.1 h
    obtain ⟨job, job', hget, hclaim, rfl⟩ := Queue.update_eq_some.1 hupdate
    exact .inr (.inr ⟨c.jobId, job, job', hget, .claim hmem hclaim, rfl⟩)
  | byHolder jobId workerId deed now =>
    obtain ⟨job, job', hget, hdeed, rfl⟩ := Queue.update_eq_some.1 h
    exact .inr (.inr ⟨jobId, job, job', hget, .byHolder hdeed, rfl⟩)
  | failRead jobId workerId error retryable now =>
    obtain ⟨job, -, hread⟩ := Option.bind_eq_some_iff.1 h
    obtain ⟨-, hread⟩ := Option.ite_none_right_eq_some.1 hread
    exact .inl (Option.some.inj hread ▸ rfl)
  | failUpdate f delayMs =>
    obtain ⟨hmem, hupdate⟩ := Option.ite_none_right_eq_some.1 h
    obtain ⟨job, job', hget, hfail, rfl⟩ := Queue.update_eq_some.1 hupdate
    exact .inr (.inr ⟨f.jobId, job, job', hget, .fail hmem hfail, rfl⟩)
  | adminRead jobId action actorUserId now =>
    obtain ⟨job, -, hread⟩ := Option.bind_eq_some_iff.1 h
    obtain ⟨-, hread⟩ := Option.ite_none_right_eq_some.1 hread
    exact .inl (Option.some.inj hread ▸ rfl)
  | adminUpdate a =>
    obtain ⟨hmem, hupdate⟩ := Option.ite_none_right_eq_some.1 h
    obtain ⟨job, job', hget, hadmin, rfl⟩ := Queue.update_eq_some.1 hupdate
    obtain rfl := Option.some.inj hadmin
    exact .inr (.inr ⟨a.jobId, job, _, hget, .admin hmem, rfl⟩)

/-! ## What the updates ask for and leave -/

theorem BackgroundJob.of_heldBy (h : job.heldBy workerId = true) :
    job.status = .running ∧ job.lockedBy = some workerId := by
  unfold BackgroundJob.heldBy at h
  simpa using h

theorem BackgroundJob.of_due {now : Nat} (h : job.due now = true) :
    job.status = .queued ∨
      job.status = .running ∧ ∀ workerId, job.leasedTo workerId now = false := by
  unfold BackgroundJob.due at h
  rw [Bool.or_eq_true, Bool.and_eq_true, Bool.and_eq_true] at h
  rcases h with ⟨hqueued, -⟩ | ⟨hrunning, hexpired⟩
  · exact .inl (by simpa using hqueued)
  · refine .inr ⟨by simpa using hrunning, fun workerId => ?_⟩
    unfold BackgroundJob.leasedTo
    rw [Bool.and_eq_false_iff]
    right
    cases hlease : job.leaseExpiresAt with
    | none => rfl
    | some leaseExpiresAt =>
      rw [hlease] at hexpired
      simpa using hexpired

theorem BackgroundJob.of_claim {leaseMs now : Nat} {startedAt : Option Nat}
    (h : job.claim workerId leaseMs now startedAt = some job') :
    job.due now = true ∧ job'.status = .running := by
  obtain ⟨hdue, hjob⟩ := Option.ite_none_right_eq_some.1 h
  exact ⟨hdue, Option.some.inj hjob ▸ rfl⟩

theorem BackgroundJob.of_markTerminal {error : JobError} {now : Nat}
    (h : job.markTerminal workerId error now = some job') :
    job.heldBy workerId = true ∧ job'.lockedBy = none := by
  obtain ⟨hheld, hjob⟩ := Option.ite_none_right_eq_some.1 h
  exact ⟨hheld, Option.some.inj hjob ▸ rfl⟩

theorem Deed.of_update {deed : Deed} {now : Nat} (h : deed.update job workerId now = some job') :
    job.heldBy workerId = true ∧ (job'.status = .running ∨ job'.lockedBy = none) := by
  cases deed with
  | renew leaseMs =>
    obtain ⟨hheld, hjob⟩ := Option.ite_none_right_eq_some.1 h
    exact ⟨hheld, .inl (Option.some.inj hjob ▸ (BackgroundJob.of_heldBy hheld).1)⟩
  | succeed =>
    obtain ⟨hheld, hjob⟩ := Option.ite_none_right_eq_some.1 h
    exact ⟨hheld, .inr (Option.some.inj hjob ▸ rfl)⟩
  | terminal error =>
    obtain ⟨hheld, hnone⟩ := BackgroundJob.of_markTerminal h
    exact ⟨hheld, .inr hnone⟩

/-! ## Locks -/

/-- Only a running job is locked. -/
def Locked (q : Queue) : Prop :=
  ∀ jobId job workerId, q.jobs.get jobId = some job → job.lockedBy = some workerId →
    job.status = .running

theorem locked_empty : Locked Queue.empty := by
  intro jobId job workerId hget
  cases hget

/-- An update in time finds a job that its worker holds. -/
theorem Locked.held (hl : Locked q) (hok : ChecksInTime q s) (hget : q.jobs.get jobId = some job)
    (hwrites : Writes q s jobId job job') (hworker : s.worker = some (jobId, workerId)) :
    job.heldBy workerId = true := by
  cases hwrites with
  | claim hmem hclaim => cases hworker
  | byHolder hdeed =>
    cases hworker
    exact (Deed.of_update hdeed).1
  | @fail f delayMs job job' hmem hfail =>
    cases hworker
    unfold Failing.update at hfail
    by_cases hretryable : f.retryable = true
    · have hlocked : job.lockedBy = some f.workerId := by
        have hfails := hok hmem hretryable job hget
        unfold BackgroundJob.failsFor at hfails
        simpa using hfails
      unfold BackgroundJob.heldBy
      simp [hl f.jobId job f.workerId hget hlocked, hlocked]
    · rw [if_neg hretryable] at hfail
      exact (BackgroundJob.of_markTerminal hfail).1
  | admin hmem => cases hworker

/-- What an update in time finds: a job that is due, one that its worker holds, or one that the admin
action starts from. -/
theorem Locked.found (hl : Locked q) (hok : ChecksInTime q s) (hget : q.jobs.get jobId = some job)
    (hwrites : Writes q s jobId job job') :
    job.status = .queued ∨ job.status = .running ∨
      ∃ a, s = .adminUpdate a ∧ a.jobId = jobId ∧ job.status ∈ a.action.from := by
  cases hwrites with
  | claim hmem hclaim =>
    rcases BackgroundJob.of_due (BackgroundJob.of_claim hclaim).1 with hqueued | ⟨hrunning, -⟩
    · exact .inl hqueued
    · exact .inr (.inl hrunning)
  | byHolder hdeed =>
    exact .inr (.inl (BackgroundJob.of_heldBy (hl.held hok hget (.byHolder hdeed) rfl)).1)
  | fail hmem hfail =>
    exact .inr (.inl (BackgroundJob.of_heldBy (hl.held hok hget (.fail hmem hfail) rfl)).1)
  | @admin a job hmem => exact .inr (.inr ⟨a, rfl, rfl, hok hmem job hget⟩)

theorem Locked.writes (hl : Locked q) (hok : ChecksInTime q s) (hget : q.jobs.get jobId = some job)
    (hwrites : Writes q s jobId job job') (hlocked : job'.lockedBy = some workerId) :
    job'.status = .running := by
  cases hwrites with
  | claim hmem hclaim => exact (BackgroundJob.of_claim hclaim).2
  | byHolder hdeed =>
    rcases (Deed.of_update hdeed).2 with hrunning | hnone
    · exact hrunning
    · rw [hnone] at hlocked
      cases hlocked
  | @fail f delayMs job job' hmem hfail =>
    have hnone : job'.lockedBy = none := by
      unfold Failing.update at hfail
      by_cases hretryable : f.retryable = true
      · rw [if_pos hretryable] at hfail
        exact Option.some.inj hfail ▸ rfl
      · rw [if_neg hretryable] at hfail
        exact (BackgroundJob.of_markTerminal hfail).2
    rw [hnone] at hlocked
    cases hlocked
  | @admin a job hmem =>
    have hfrom := hok hmem job hget
    cases haction : a.action with
    | cancel =>
      rw [haction] at hlocked
      cases hlocked
    | retry =>
      rw [haction] at hlocked
      cases hlocked
    | dismiss =>
      -- the lock is left as it was, and a job that failed has none
      rw [haction] at hlocked hfrom
      have hrunning := hl a.jobId job workerId hget hlocked
      rw [hrunning] at hfrom
      exact absurd hfrom (by decide)

theorem Locked.step (hok : ChecksInTime q s) (hl : Locked q) : Locked (q.step s) := by
  unfold Queue.step
  cases hact : q.act s with
  | none => exact hl
  | some q' =>
    intro id job' workerId hget hlocked
    rw [Option.getD_some] at hget
    rcases act_cases hact with hjobs | ⟨schedule, jobId, -, hjobs⟩ |
        ⟨jobId, job, new, hold, hwrites, hjobs⟩
    · rw [hjobs] at hget
      exact hl id job' workerId hget hlocked
    · rw [hjobs, OrderedMap.get_set] at hget
      by_cases hid : id = jobId
      · rw [if_pos hid] at hget
        obtain rfl := Option.some.inj hget
        cases hlocked
      · rw [if_neg hid] at hget
        exact hl id job' workerId hget hlocked
    · rw [hjobs, OrderedMap.get_set] at hget
      by_cases hid : id = jobId
      · rw [if_pos hid] at hget
        obtain rfl := Option.some.inj hget
        exact hl.writes hok hold hwrites hlocked
      · rw [if_neg hid] at hget
        exact hl id job' workerId hget hlocked

/-! ## Outcomes -/

/-- A job that a step does not find due, held, or where an admin action starts, keeps its status. -/
theorem Locked.statusOf_step (hl : Locked q) (hok : ChecksInTime q s) {status : JobStatus}
    (hstatus : q.statusOf jobId = some status) (hqueued : status ≠ .queued)
    (hrunning : status ≠ .running)
    (hadmin : ∀ a, s = .adminUpdate a → a.jobId = jobId → status ∉ a.action.from) :
    (q.step s).statusOf jobId = some status := by
  obtain ⟨job, hget, rfl⟩ := Option.map_eq_some_iff.1 hstatus
  unfold Queue.step
  cases hact : q.act s with
  | none => exact hstatus
  | some q' =>
    show (q'.jobs.get jobId).map _ = _
    rcases act_cases hact with hjobs | ⟨schedule, id, hnone, hjobs⟩ |
        ⟨id, old, new, hold, hwrites, hjobs⟩
    · rw [hjobs, hget]
      rfl
    · have hid : jobId ≠ id := by
        rintro rfl
        rw [hnone] at hget
        cases hget
      rw [hjobs, OrderedMap.get_set, if_neg hid, hget]
      rfl
    · have hid : jobId ≠ id := by
        rintro rfl
        obtain rfl := Option.some.inj (hold.symm.trans hget)
        rcases hl.found hok hold hwrites with h | h | ⟨a, hs, ha, hfrom⟩
        · exact hqueued h
        · exact hrunning h
        · exact hadmin a hs ha hfrom
      rw [hjobs, OrderedMap.get_set, if_neg hid, hget]
      rfl

theorem Locked.heldAlone (hl : Locked q) (hok : ChecksInTime q s) : HeldAlone q s := by
  constructor
  · intro jobId workerId hworker hsome
    obtain ⟨q', hact⟩ := Option.isSome_iff_exists.1 hsome
    cases s with
    | byHolder id worker deed now =>
      cases hworker
      obtain ⟨job, job', hget, hdeed, -⟩ := Queue.update_eq_some.1 hact
      exact ⟨job, hget, (Deed.of_update hdeed).1⟩
    | failUpdate f delayMs =>
      cases hworker
      obtain ⟨hmem, hupdate⟩ := Option.ite_none_right_eq_some.1 hact
      obtain ⟨job, job', hget, hfail, -⟩ := Queue.update_eq_some.1 hupdate
      exact ⟨job, hget, hl.held hok hget (.fail hmem hfail) rfl⟩
    | scheduleFind | scheduleCreate | claimFind | claimUpdate | failRead | adminRead | adminUpdate =>
      cases hworker
  · rintro c rfl hsome job workerId hget
    obtain ⟨q', hact⟩ := Option.isSome_iff_exists.1 hsome
    obtain ⟨-, hupdate⟩ := Option.ite_none_right_eq_some.1 hact
    obtain ⟨found, job', hfound, hclaim, -⟩ := Queue.update_eq_some.1 hupdate
    obtain rfl := Option.some.inj (hfound.symm.trans hget)
    rcases BackgroundJob.of_due (BackgroundJob.of_claim hclaim).1 with hqueued | ⟨-, hexpired⟩
    · unfold BackgroundJob.leasedTo BackgroundJob.heldBy
      simp [hqueued]
    · exact hexpired workerId

/-- In every run in which the checks of failures and admin actions still pass when their updates
arrive, what a job came to is final, and only the holder of its lease works on it. -/
theorem run_outcomesFinal (older newer : List Statement)
    (h : RunMeets Queue.step ChecksInTime Queue.empty (older ++ newer)) :
    OutcomesFinal older newer := by
  obtain ⟨holder, hnewer⟩ := runMeets_append.1 h
  have hlocked : Locked (Queue.empty.run older) :=
    holder.keeps (fun _ _ hok hl => hl.step hok) locked_empty
  have hrun : Queue.empty.run (older ++ newer) = newer.foldl Queue.step (Queue.empty.run older) :=
    List.foldl_append
  refine ⟨?_, ?_, ?_⟩
  · intro jobId hsucceeded
    rw [hrun]
    refine (hnewer.keeps (I := fun q => Locked q ∧ q.statusOf jobId = some .succeeded) ?_
      ⟨hlocked, hsucceeded⟩).2
    rintro q s hok ⟨hl, hstatus⟩
    refine ⟨hl.step hok, hl.statusOf_step hok hstatus (by decide) (by decide) ?_⟩
    intro a _ _
    cases a.action <;> decide
  · intro jobId hcancelled hretries
    rw [hrun]
    refine ((hnewer.and_forall hretries).keeps
      (I := fun q => Locked q ∧ q.statusOf jobId = some .cancelled) ?_ ⟨hlocked, hcancelled⟩).2
    rintro q s ⟨hok, hretry⟩ ⟨hl, hstatus⟩
    refine ⟨hl.step hok, hl.statusOf_step hok hstatus (by decide) (by decide) ?_⟩
    rintro a rfl rfl
    cases haction : a.action with
    | cancel => decide
    | retry => simp [Statement.retries, haction] at hretry
    | dismiss => decide
  · exact (hnewer.invariant (fun _ _ hok hl => hl.step hok) hlocked).mono
      fun q s h => h.2.heldAlone h.1

/-! ## Runs that meet the condition, and runs that do not -/

section Runs

def cleanup : Schedule := ⟨.stagingCleanup, 0, ⟨none, none⟩, 5, 900000, none, "default", 0⟩

/-- A worker has claimed the job `j`. -/
def claimedBy (workerId : String) : List Statement :=
  [.scheduleFind cleanup 0, .scheduleCreate cleanup "j", .claimFind workerId .general "default" 60000 0,
    .claimUpdate ⟨"j", workerId, 60000, 0, none⟩]

def running (workerId : String) : BackgroundJob :=
  { cleanup.job with
    status := .running
    lockedAt := some 0
    lockedBy := some workerId
    leaseExpiresAt := some 60000
    startedAt := some 0
    attemptCount := 1 }

def broken : JobError := ⟨"broken", none⟩

/-- The job fails once, is claimed again and succeeds. -/
def secondAttempt : List Statement :=
  claimedBy "a" ++ [.failRead "j" "a" broken true 1,
    .failUpdate ⟨"j", "a", broken, true, 1, running "a"⟩ 30000,
    .claimFind "b" .general "default" 60000 30001, .claimUpdate ⟨"j", "b", 60000, 30001, some 0⟩,
    .byHolder "j" "b" .succeed 30002]

/-- A cancellation comes too late, and so does the first worker. -/
theorem run_outcomesFinal_secondAttempt :
    (Queue.empty.run secondAttempt).statusOf "j" = some .succeeded ∧
    OutcomesFinal secondAttempt
      [.adminRead "j" .cancel "admin" 30003, .byHolder "j" "a" .succeed 30004] :=
  ⟨by decide +kernel, run_outcomesFinal _ _ (by decide +kernel)⟩

/-- The lease of `a`, which has read the job, runs out; `b` claims the job. -/
def takenOver : List Statement :=
  claimedBy "a" ++ [.failRead "j" "a" broken true 1, .claimFind "b" .general "default" 60000 60000,
    .claimUpdate ⟨"j", "b", 60000, 60000, some 0⟩]

/-- The update of a failure finds its job by id alone: a job that succeeded or was cancelled after it
was read is queued again, and another worker's lease is taken away. -/
theorem outcomes_not_final :
    ¬ OutcomesFinal (takenOver ++ [.byHolder "j" "b" .succeed 60001])
      [.failUpdate ⟨"j", "a", broken, true, 1, running "a"⟩ 30000] ∧
    ¬ OutcomesFinal (claimedBy "a" ++ [.failRead "j" "a" broken true 1,
        .adminRead "j" .cancel "admin" 2, .adminUpdate ⟨"j", .cancel, "admin", 2⟩])
      [.failUpdate ⟨"j", "a", broken, true, 1, running "a"⟩ 30000] ∧
    ¬ OutcomesFinal takenOver [.failUpdate ⟨"j", "a", broken, true, 1, running "a"⟩ 30000] := by
  refine ⟨fun h => ?_, fun h => ?_, fun h => ?_⟩
  · exact absurd (h.succeeded "j" (by decide +kernel)) (by decide +kernel)
  · exact absurd (h.cancelled "j" (by decide +kernel) (by decide +kernel)) (by decide +kernel)
  · obtain ⟨job, hget, hheld⟩ := h.alone.1.held "j" "a" rfl (by decide +kernel)
    have hother : ((Queue.empty.run takenOver).jobs.get "j").map (·.lockedBy) = some (some "b") := by
      decide +kernel
    rw [hget, Option.map_some, (BackgroundJob.of_heldBy hheld).2] at hother
    exact absurd hother (by decide)

end Runs

end Staaash.Jobs
