import Staaash.Jobs.Calls
import Staaash.Jobs.Proofs.CallsProofs

/-!
# Proofs: how often a job is attempted

The claims since the last retry are at most the attempts that the job counts. A job that waits was
found with an attempt left, and so was one whose lease ran out.
-/

namespace Staaash.Jobs

open Staaash.Library

variable {q q' : Queue} {s : Statement} {jobId : String} {job job' : BackgroundJob} {n : Nat}

/-- The job has been claimed `n` times since it was last retried. -/
structure Counted (job : BackgroundJob) (n : Nat) : Prop where
  pos : 0 < job.maxAttempts
  bounded : n ≤ job.maxAttempts
  counted : n ≤ job.attemptCount
  waits : job.status = .queued → n < job.maxAttempts

/-- What the job has counted, if there is one. -/
def Counts (jobId : String) (jobs : JobTable) (n : Nat) : Prop :=
  match jobs.get jobId with
  | none => n = 0
  | some job => Counted job n

theorem Counts.of_get {jobs : JobTable} (h : Counts jobId jobs n) (hget : jobs.get jobId = some job) :
    Counted job n := by
  unfold Counts at h
  rwa [hget] at h

theorem Counts.of_none {jobs : JobTable} (h : Counts jobId jobs n) (hnone : jobs.get jobId = none) :
    n = 0 := by
  unfold Counts at h
  rwa [hnone] at h

/-- One job is written. -/
theorem Counts.set {jobs : JobTable} {id : String} {m : Nat} (h : Counts jobId jobs n)
    (hother : jobId ≠ id → m = n) (hsame : jobId = id → Counted job' m) :
    Counts jobId (jobs.set id job') m := by
  unfold Counts
  rw [OrderedMap.get_set]
  by_cases hid : jobId = id
  · rw [if_pos hid]
    exact hsame hid
  · rw [if_neg hid, hother hid]
    exact h

/-- An update that neither counts nor starts over, and leaves no job waiting that had no attempt. -/
theorem Counted.keep (h : Counted job n) (hmax : job'.maxAttempts = job.maxAttempts)
    (hcount : job'.attemptCount = job.attemptCount)
    (hwaits : job'.status = .queued → n < job.maxAttempts) : Counted job' n := by
  refine ⟨?_, ?_, ?_, ?_⟩
  · rw [hmax]
    exact h.pos
  · rw [hmax]
    exact h.bounded
  · rw [hcount]
    exact h.counted
  · rw [hmax]
    exact hwaits

/-! ## What each update does to the attempts -/

theorem BackgroundJob.claim_attempts {workerId : String} {leaseMs now : Nat} {startedAt : Option Nat}
    (h : job.claim workerId leaseMs now startedAt = some job') :
    job'.maxAttempts = job.maxAttempts ∧ job'.attemptCount = job.attemptCount + 1 := by
  obtain ⟨-, hjob⟩ := Option.ite_none_right_eq_some.1 h
  obtain rfl := Option.some.inj hjob
  exact ⟨rfl, rfl⟩

theorem BackgroundJob.markTerminal_attempts {workerId : String} {error : JobError} {now : Nat}
    (h : job.markTerminal workerId error now = some job') :
    job'.maxAttempts = job.maxAttempts ∧ job'.attemptCount = job.attemptCount ∧
      job'.status = .failed := by
  obtain ⟨-, hjob⟩ := Option.ite_none_right_eq_some.1 h
  obtain rfl := Option.some.inj hjob
  exact ⟨rfl, rfl, rfl⟩

/-- What a holder does leaves no job waiting. -/
theorem Deed.update_attempts {deed : Deed} {workerId : String} {now : Nat}
    (h : deed.update job workerId now = some job') :
    job'.maxAttempts = job.maxAttempts ∧ job'.attemptCount = job.attemptCount ∧
      job'.status ≠ .queued := by
  cases deed with
  | renew leaseMs =>
    obtain ⟨hheld, hjob⟩ := Option.ite_none_right_eq_some.1 h
    have hrunning := (BackgroundJob.of_heldBy hheld).1
    obtain rfl := Option.some.inj hjob
    refine ⟨rfl, rfl, ?_⟩
    show job.status ≠ .queued
    rw [hrunning]
    decide
  | succeed =>
    obtain ⟨-, hjob⟩ := Option.ite_none_right_eq_some.1 h
    obtain rfl := Option.some.inj hjob
    exact ⟨rfl, rfl, by simp⟩
  | terminal error =>
    obtain ⟨hmax, hcount, hfailed⟩ := BackgroundJob.markTerminal_attempts h
    refine ⟨hmax, hcount, ?_⟩
    rw [hfailed]
    decide

/-- A failure queues the job again exactly if it may be retried and an attempt was left when it was
read. -/
theorem Failing.update_attempts {f : Failing} {delayMs : Nat} (h : f.update delayMs job = some job') :
    job'.maxAttempts = job.maxAttempts ∧ job'.attemptCount = job.attemptCount ∧
      (job'.status = .queued ∧ f.retryable = true ∧ f.read.attemptLeft = true ∨
        job'.status = .dead ∨ job'.status = .failed) := by
  unfold Failing.update at h
  by_cases hretryable : f.retryable = true
  · rw [if_pos hretryable] at h
    obtain rfl := Option.some.inj h
    refine ⟨rfl, rfl, ?_⟩
    by_cases hread : f.read.maxAttempts ≤ f.read.attemptCount
    · refine .inr (.inl ?_)
      unfold BackgroundJob.markFailed
      simp [hread]
    · refine .inl ⟨?_, hretryable, ?_⟩
      · unfold BackgroundJob.markFailed
        simp [hread]
      · unfold BackgroundJob.attemptLeft
        simpa using hread
  · rw [if_neg hretryable] at h
    obtain ⟨hmax, hcount, hfailed⟩ := BackgroundJob.markTerminal_attempts h
    exact ⟨hmax, hcount, .inr (.inr hfailed)⟩

theorem AdminAction.update_attempts (job : BackgroundJob) (action : AdminAction) (actorUserId : String)
    (now : Nat) :
    (action.update job actorUserId now).maxAttempts = job.maxAttempts ∧
      (action.update job actorUserId now).attemptCount = job.attemptCount ∧
      (action ≠ .retry → (action.update job actorUserId now).status = .cancelled) := by
  cases action with
  | cancel => exact ⟨rfl, rfl, fun _ => rfl⟩
  | retry => exact ⟨rfl, rfl, fun h => absurd rfl h⟩
  | dismiss => exact ⟨rfl, rfl, fun _ => rfl⟩

/-! ## Runs -/

theorem tallied_of_none (hact : q.act s = none) :
    tallied (Queue.claims jobId) (Queue.retried jobId) q n s = n := by
  refine tallied_of_neither ?_ ?_
  · unfold Queue.claims
    cases s <;> simp [hact]
  · unfold Queue.retried
    simp [hact]

/-- The claims since the last retry never overtake the count of the job. -/
theorem Counts.act (hok : AttemptLeft q s) (hact : q.act s = some q') (h : Counts jobId q.jobs n) :
    Counts jobId q'.jobs (tallied (Queue.claims jobId) (Queue.retried jobId) q n s) := by
  cases s with
  | scheduleFind schedule now =>
    simp only [Queue.act, Option.ite_none_left_eq_some, Option.some.injEq] at hact
    obtain ⟨-, rfl⟩ := hact
    exact h
  | scheduleCreate schedule id =>
    simp only [Queue.act, Option.ite_none_right_eq_some, Bool.and_eq_true, Bool.not_eq_true',
      Option.some.injEq, OrderedMap.has_eq_false_iff, decide_eq_true_eq] at hact
    obtain ⟨⟨hmem, hnone⟩, rfl⟩ := hact
    refine Counts.set h (fun _ => rfl) ?_
    rintro rfl
    obtain rfl := h.of_none hnone
    have hpos := hok hmem
    exact ⟨hpos, Nat.zero_le _, Nat.zero_le _, fun _ => hpos⟩
  | claimFind workerId lane queueName leaseMs now =>
    obtain ⟨⟨id, job⟩, -, rfl⟩ := Option.map_eq_some_iff.1 hact
    exact h
  | claimUpdate c =>
    obtain ⟨hmem, hupdate⟩ := Option.ite_none_right_eq_some.1 hact
    obtain ⟨job, job', hget, hclaim, rfl⟩ := Queue.update_eq_some.1 hupdate
    refine Counts.set h (fun hne => ?_) ?_
    · refine tallied_of_neither ?_ rfl
      unfold Queue.claims
      simp [hne.symm]
    · rintro rfl
      have htallied : tallied (Queue.claims c.jobId) (Queue.retried c.jobId) q n (.claimUpdate c) =
          n + 1 := by
        unfold tallied Queue.claims Queue.retried Statement.retries
        simp [hact]
      rw [htallied]
      have hcounted := h.of_get hget
      obtain ⟨hdue, hrunning⟩ := BackgroundJob.of_claim hclaim
      obtain ⟨hmax, hcount⟩ := BackgroundJob.claim_attempts hclaim
      have hleft : n < job.maxAttempts := by
        rcases BackgroundJob.of_due hdue with hqueued | ⟨hrun, -⟩
        · exact hcounted.waits hqueued
        · have hattempt := hok hmem job hget hrun hdue
          unfold BackgroundJob.attemptLeft at hattempt
          have hlt : job.attemptCount < job.maxAttempts := by simpa using hattempt
          exact Nat.lt_of_le_of_lt hcounted.counted hlt
      refine ⟨hmax ▸ hcounted.pos, hmax ▸ hleft, ?_, fun hqueued => ?_⟩
      · have hle := hcounted.counted
        omega
      · rw [hrunning] at hqueued
        cases hqueued
  | byHolder id workerId deed now =>
    obtain ⟨job, job', hget, hdeed, rfl⟩ := Queue.update_eq_some.1 hact
    refine Counts.set h (fun _ => rfl) ?_
    rintro rfl
    obtain ⟨hmax, hcount, hwaits⟩ := Deed.update_attempts hdeed
    exact (h.of_get hget).keep hmax hcount fun hqueued => absurd hqueued hwaits
  | failRead id workerId error retryable now =>
    obtain ⟨job, -, hread⟩ := Option.bind_eq_some_iff.1 hact
    obtain ⟨-, hread⟩ := Option.ite_none_right_eq_some.1 hread
    obtain rfl := Option.some.inj hread
    exact h
  | failUpdate f delayMs =>
    obtain ⟨hmem, hupdate⟩ := Option.ite_none_right_eq_some.1 hact
    obtain ⟨job, job', hget, hfail, rfl⟩ := Queue.update_eq_some.1 hupdate
    refine Counts.set h (fun _ => rfl) ?_
    rintro rfl
    have hcounted := h.of_get hget
    obtain ⟨hmax, hcount, houtcome⟩ := Failing.update_attempts hfail
    refine hcounted.keep hmax hcount fun hqueued => ?_
    rcases houtcome with ⟨-, hretryable, hread⟩ | hdead | hfailed
    · have hattempt := hok hmem hretryable hread job hget
      unfold BackgroundJob.attemptLeft at hattempt
      have hlt : job.attemptCount < job.maxAttempts := by simpa using hattempt
      exact Nat.lt_of_le_of_lt hcounted.counted hlt
    · rw [hdead] at hqueued
      cases hqueued
    · rw [hfailed] at hqueued
      cases hqueued
  | adminRead id action actorUserId now =>
    obtain ⟨job, -, hread⟩ := Option.bind_eq_some_iff.1 hact
    obtain ⟨-, hread⟩ := Option.ite_none_right_eq_some.1 hread
    obtain rfl := Option.some.inj hread
    exact h
  | adminUpdate a =>
    obtain ⟨hmem, hupdate⟩ := Option.ite_none_right_eq_some.1 hact
    obtain ⟨job, job', hget, hadmin, rfl⟩ := Queue.update_eq_some.1 hupdate
    obtain rfl := Option.some.inj hadmin
    obtain ⟨hmax, hcount, hcancelled⟩ := AdminAction.update_attempts job a.action a.actorUserId a.now
    by_cases hretry : a.action = .retry
    · refine Counts.set h (fun hne => ?_) ?_
      · refine tallied_of_neither rfl ?_
        unfold Queue.retried Statement.retries
        simp [hne.symm]
      · rintro rfl
        have htallied : tallied (Queue.claims a.jobId) (Queue.retried a.jobId) q n (.adminUpdate a) =
            0 := by
          unfold tallied Queue.retried Statement.retries
          simp [hact, hretry]
        rw [htallied]
        have hpos := (h.of_get hget).pos
        exact ⟨hmax ▸ hpos, Nat.zero_le _, Nat.zero_le _, fun _ => hmax ▸ hpos⟩
    · have htallied : tallied (Queue.claims jobId) (Queue.retried jobId) q n (.adminUpdate a) = n := by
        refine tallied_of_neither rfl ?_
        unfold Queue.retried Statement.retries
        simp [hretry]
      rw [htallied]
      refine Counts.set h (fun _ => rfl) ?_
      rintro rfl
      refine (h.of_get hget).keep hmax hcount fun hqueued => ?_
      rw [hcancelled hretry] at hqueued
      cases hqueued

theorem Counts.step (hok : AttemptLeft q s) (h : Counts jobId q.jobs n) :
    Counts jobId (q.step s).jobs (tallied (Queue.claims jobId) (Queue.retried jobId) q n s) := by
  unfold Queue.step
  cases hact : q.act s with
  | none =>
    rw [tallied_of_none hact]
    exact h
  | some q' => exact h.act hok hact

theorem counts_empty : Counts jobId Queue.empty.jobs 0 := rfl

theorem run_counts {statements : List Statement}
    (h : RunMeets Queue.step AttemptLeft Queue.empty statements) (jobId : String) :
    Counts jobId (Queue.empty.run statements).jobs (attempts jobId statements) :=
  h.tally_keeps (I := fun q n => Counts jobId q.jobs n) (fun _ _ _ hok hn => hn.step hok)
    counts_empty

/-- In every run in which no lease runs out on a last attempt and no failure arrives that found an
attempt which the job no longer has, a job is claimed at most as often as it may be attempted. -/
theorem run_attemptsBounded (statements : List Statement)
    (h : RunMeets Queue.step AttemptLeft Queue.empty statements) : AttemptsBounded statements := by
  refine ⟨?_, ?_, ?_⟩
  · intro jobId job hget
    exact ((run_counts h jobId).of_get hget).bounded
  · intro jobId job hget hspent hqueued
    have hlt := ((run_counts h jobId).of_get hget).waits hqueued
    omega
  · rintro older f delayMs rfl hsome job hget hspent
    obtain ⟨q', hact⟩ := Option.isSome_iff_exists.1 hsome
    have hrun : Queue.empty.run (older ++ [.failUpdate f delayMs]) = q' := by
      unfold Queue.run
      rw [List.foldl_append]
      show ((Queue.empty.run older).act (.failUpdate f delayMs)).getD _ = q'
      rw [hact]
      rfl
    have hcounts := run_counts h f.jobId
    have hattempts : attempts f.jobId (older ++ [.failUpdate f delayMs]) = attempts f.jobId older :=
      tally_append _ _
    rw [hattempts] at hcounts
    have hwaits := (hcounts.of_get hget).waits
    rw [hrun] at hget
    obtain ⟨-, hupdate⟩ := Option.ite_none_right_eq_some.1 hact
    obtain ⟨found, failed, -, hfail, rfl⟩ := Queue.update_eq_some.1 hupdate
    rw [OrderedMap.get_set, if_pos rfl] at hget
    obtain rfl := Option.some.inj hget
    obtain ⟨-, -, ⟨hqueued, -⟩ | hended⟩ := Failing.update_attempts hfail
    · have hlt := hwaits hqueued
      omega
    · exact hended

/-- A job that failed once and succeeded in its second attempt. -/
theorem run_attemptsBounded_secondAttempt : AttemptsBounded secondAttempt :=
  run_attemptsBounded _ (by decide +kernel)

/-- The worker stalls in every attempt: its lease runs out, and it claims the job again. -/
def stalled (n : Nat) : List Statement :=
  claimedBy "a" ++ (List.range n).flatMap fun i =>
    [.claimFind "a" .general "default" 60000 (60000 * (i + 1)),
      .claimUpdate ⟨"j", "a", 60000, 60000 * (i + 1), some 0⟩]

/-- A job that may be attempted five times is claimed a sixth time, since a claim of a job whose lease
ran out asks for no attempt that is left. -/
theorem stalled_attempts : ¬ AttemptsBounded (stalled 5) := by
  intro h
  have hget : ((Queue.empty.run (stalled 5)).jobs.get "j").map (·.maxAttempts) = some 5 := by
    decide +kernel
  obtain ⟨job, hjob, hmax⟩ := Option.map_eq_some_iff.1 hget
  have hattempts : attempts "j" (stalled 5) = 6 := by decide +kernel
  have hle := h.bounded "j" job hjob
  omega

end Staaash.Jobs
