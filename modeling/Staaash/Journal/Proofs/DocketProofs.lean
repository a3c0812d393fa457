import Staaash.Journal.Docket

/-!
# Status, commit stamp and fencing under any interleaving

A retry takes the status it falls back to from a read of its own. If a commit takes effect between
that read and the update, the mutation goes back to `retrying` with its commit stamp set, and is
executed and committed once more. Where no commit comes in between, status and stamp agree in every
state. A claim takes its lease from the record as it is after the update, so a claim that was
overtaken under the same owner is handed the other claim's token.
-/

namespace Staaash.Journal

/-! ## What a row update does -/

theorem Row.of_claimForward {row row' : Row} {leaseOwner : Text} {now : Nat}
    (h : row.claimForward leaseOwner now = some row') :
    (row.status = .prepared ∨ row.status = .retrying ∨ row.status = .running) ∧
      row' = row.claim .running leaseOwner now := by
  unfold Row.claimForward at h
  split at h
  · rename_i hcond
    refine ⟨?_, (Option.some.inj h).symm⟩
    simp only [Bool.or_eq_true, Bool.and_eq_true, decide_eq_true_eq] at hcond
    tauto
  · cases h

theorem Row.of_claimFinalization {row row' : Row} {leaseOwner : Text} {now : Nat}
    (h : row.claimFinalization leaseOwner now = some row') :
    (row.status = .metadataCommitted ∨ row.status = .finalizing) ∧
      row' = row.claim .finalizing leaseOwner now := by
  unfold Row.claimFinalization at h
  split at h
  · rename_i hcond
    refine ⟨?_, (Option.some.inj h).symm⟩
    simp only [Bool.or_eq_true, Bool.and_eq_true, decide_eq_true_eq] at hcond
    tauto
  · cases h

theorem Row.of_fenced {row : Row} {lease : Lease} {now : Nat} (h : row.fenced lease now = true) :
    row.leaseToken = lease.token := by
  unfold Row.fenced at h
  simp only [Bool.and_eq_true, decide_eq_true_eq] at h
  exact h.1.1.2

theorem Row.of_heldBy {row : Row} {lease : Lease} {now : Nat} (h : row.heldBy lease now = true) :
    row.leaseToken = lease.token := by
  unfold Row.heldBy at h
  simp only [Bool.and_eq_true, decide_eq_true_eq] at h
  exact h.1.2

theorem Row.of_retry {row row' read : Row} {lease : Lease} {now : Nat}
    (h : row.retry read lease now = some row') :
    row.heldBy lease now = true ∧ row'.leaseToken = row.leaseToken ∧
      row'.status = retryStatusForMutation read ∧
      row'.metadataCommittedAt = row.metadataCommittedAt := by
  unfold Row.retry at h
  split at h
  · rename_i hheld
    cases h
    exact ⟨hheld, rfl, rfl, rfl⟩
  · cases h

theorem Row.of_retryNow {row row' : Row} {now : Nat} (h : row.retryNow now = some row') :
    row' = { row with nextAttemptAt := some now } := by
  unfold Row.retryNow at h
  split at h
  · exact (Option.some.inj h).symm
  · cases h

/-- What a deed does to status and stamp. -/
structure DeedEffect (deed : Deed) (row row' : Row) : Prop where
  commits : deed = .commit →
    row.status = .running ∧ row'.status = .metadataCommitted ∧ row'.metadataCommittedAt.isSome
  aborts : deed = .abort → row.metadataCommittedAt = none
  stamp : deed ≠ .commit → row'.metadataCommittedAt = row.metadataCommittedAt
  status : deed ≠ .commit →
    row'.status = row.status ∨ row'.status = .succeeded ∨ row'.status = .recoveryRequired ∨
      (row'.status = .aborted ∧ row.metadataCommittedAt = none) ∨
      (row'.status = .finalizing ∧ row.status = .metadataCommitted)

theorem Deed.of_update {deed : Deed} {row row' : Row} {lease : Lease} {now : Nat}
    (h : deed.update row lease now = some row') :
    row.leaseToken = lease.token ∧ row'.leaseToken = row.leaseToken ∧ DeedEffect deed row row' := by
  cases deed with
  | renew =>
    simp only [Deed.update, Row.renew, Option.ite_none_right_eq_some, Option.some.injEq] at h
    obtain ⟨hf, rfl⟩ := h
    exact ⟨Row.of_fenced hf, rfl, by simp, by simp, fun _ => rfl, fun _ => .inl rfl⟩
  | markApplied stepId =>
    simp only [Deed.update, Row.assertFence, Option.ite_none_right_eq_some, Option.some.injEq] at h
    obtain ⟨hf, rfl⟩ := h
    exact ⟨Row.of_fenced hf, rfl, by simp, by simp, fun _ => rfl, fun _ => .inl rfl⟩
  | markFailed =>
    simp only [Deed.update, Row.assertFence, Option.ite_none_right_eq_some, Option.some.injEq] at h
    obtain ⟨hf, rfl⟩ := h
    exact ⟨Row.of_fenced hf, rfl, by simp, by simp, fun _ => rfl, fun _ => .inl rfl⟩
  | commit =>
    simp only [Deed.update, Row.commit, Option.ite_none_right_eq_some, Option.some.injEq,
      Bool.and_eq_true, decide_eq_true_eq] at h
    obtain ⟨⟨hf, hstatus⟩, rfl⟩ := h
    exact ⟨Row.of_fenced hf, rfl, fun _ => ⟨hstatus, rfl, rfl⟩, by simp, by simp, by simp⟩
  | beginFinalization =>
    simp only [Deed.update, Row.beginFinalization, Option.ite_none_right_eq_some,
      Option.some.injEq, Bool.and_eq_true, decide_eq_true_eq] at h
    obtain ⟨⟨hf, hstatus⟩, rfl⟩ := h
    exact ⟨Row.of_fenced hf, rfl, by simp, by simp, fun _ => rfl,
      fun _ => .inr (.inr (.inr (.inr ⟨rfl, hstatus⟩)))⟩
  | complete =>
    simp only [Deed.update, Row.complete, Option.ite_none_right_eq_some, Option.some.injEq] at h
    obtain ⟨hf, rfl⟩ := h
    exact ⟨Row.of_fenced hf, rfl, by simp, by simp, fun _ => rfl, fun _ => .inr (.inl rfl)⟩
  | requireRecovery =>
    simp only [Deed.update, Row.requireRecovery, Option.ite_none_right_eq_some,
      Option.some.injEq] at h
    obtain ⟨hf, rfl⟩ := h
    exact ⟨Row.of_heldBy hf, rfl, by simp, by simp, fun _ => rfl, fun _ => .inr (.inr (.inl rfl))⟩
  | abort =>
    simp only [Deed.update, Row.abort, Option.ite_none_right_eq_some, Option.some.injEq,
      Bool.and_eq_true, decide_eq_true_eq] at h
    obtain ⟨⟨⟨hf, -⟩, hstamp⟩, rfl⟩ := h
    exact ⟨Row.of_fenced hf, rfl, by simp, fun _ => hstamp, fun _ => rfl,
      fun _ => .inr (.inr (.inr (.inl ⟨rfl, hstamp⟩)))⟩

/-! ## What a statement does -/

/-- The effect of a statement that took effect, one case a kind of statement. -/
inductive Takes (d : Docket) : Statement → Act → Docket → Prop
  | claim (leaseOwner now row) (h : d.row.claimForward leaseOwner now = some row) :
    Takes d (.claim leaseOwner now) (.claimed row.leaseToken)
      { d with row, claiming := ⟨leaseOwner, row.leaseToken⟩ :: d.claiming }
  | claimFinalization (leaseOwner now row)
      (h : d.row.claimFinalization leaseOwner now = some row) :
    Takes d (.claimFinalization leaseOwner now) (.claimedFinalization row.leaseToken)
      { d with row, claiming := ⟨leaseOwner, row.leaseToken⟩ :: d.claiming }
  | handedOut (c) (hc : c ∈ d.claiming) (howner : d.row.leaseOwner = some c.leaseOwner)
      (hexpires : d.row.leaseExpiresAt.isSome) :
    Takes d (.readBack c) (.handedOut ⟨⟨c.leaseOwner, d.row.leaseToken⟩, c.token⟩)
      { d with
        claiming := d.claiming.erase c
        holdings := ⟨⟨c.leaseOwner, d.row.leaseToken⟩, c.token⟩ :: d.holdings }
  | lost (c) (hc : c ∈ d.claiming) :
    Takes d (.readBack c) .lost { d with claiming := d.claiming.erase c }
  | did (h deed now row) (hh : h ∈ d.holdings) (hrow : deed.update d.row h.lease now = some row) :
    Takes d (.byHolder h deed now) (.did h deed)
      { d with row, applied := deed.marks d.applied }
  | retryRead (h) (hh : h ∈ d.holdings) :
    Takes d (.retryRead h) .retryRead { d with retrying := ⟨h, d.row⟩ :: d.retrying }
  | retried (r now row) (hr : r ∈ d.retrying)
      (hrow : d.row.retry r.read r.holding.lease now = some row) :
    Takes d (.retryWrite r now) (.retried r.holding)
      { d with row, retrying := d.retrying.erase r }
  | retriedNow (now row) (h : d.row.retryNow now = some row) :
    Takes d (.retryNow now) .retriedNow { d with row }

theorem takes_of_act {d d' : Docket} {s : Statement} {a : Act} (h : d.act s = some (a, d')) :
    Takes d s a d' := by
  cases s with
  | claim leaseOwner now =>
    obtain ⟨row, hrow, heq⟩ := Option.map_eq_some_iff.1 h
    cases heq
    exact .claim leaseOwner now row hrow
  | claimFinalization leaseOwner now =>
    obtain ⟨row, hrow, heq⟩ := Option.map_eq_some_iff.1 h
    cases heq
    exact .claimFinalization leaseOwner now row hrow
  | readBack c =>
    simp only [Docket.act] at h
    split at h
    · rename_i hc
      split at h
      · rename_i hcond
        simp only [Bool.and_eq_true, decide_eq_true_eq] at hcond
        cases h
        exact .handedOut c hc hcond.1 hcond.2
      · cases h
        exact .lost c hc
    · cases h
  | byHolder hold deed now =>
    simp only [Docket.act] at h
    split at h
    · rename_i hh
      obtain ⟨row, hrow, heq⟩ := Option.map_eq_some_iff.1 h
      cases heq
      exact .did hold deed now row hh hrow
    · cases h
  | retryRead hold =>
    simp only [Docket.act] at h
    split at h
    · rename_i hh
      cases h
      exact .retryRead hold hh
    · cases h
  | retryWrite r now =>
    simp only [Docket.act] at h
    split at h
    · rename_i hr
      obtain ⟨row, hrow, heq⟩ := Option.map_eq_some_iff.1 h
      cases heq
      exact .retried r now row hr hrow
    · cases h
  | retryNow now =>
    obtain ⟨row, hrow, heq⟩ := Option.map_eq_some_iff.1 h
    cases heq
    exact .retriedNow now row hrow

/-- A property of the docket is kept by a run if it is kept by every statement that takes effect. -/
theorem run_induction {P : Docket → Prop} {ok : Docket → Statement → Prop}
    (hstep : ∀ d s a d', ok d s → Takes d s a d' → P d → P { d' with log := a :: d'.log })
    {d : Docket} {statements : List Statement} (hok : Throughout ok d statements) (hd : P d) :
    P (d.run statements) := by
  induction statements generalizing d with
  | nil => exact hd
  | cons s rest ih =>
    refine ih hok.2 ?_
    unfold Docket.step
    cases hact : d.act s with
    | none => exact hd
    | some taken =>
      obtain ⟨a, d'⟩ := taken
      exact hstep d s a d' hok.1 (takes_of_act hact) hd

/-- The log of the docket is only ever extended by `Docket.step`. -/
theorem Takes.log_eq {d d' : Docket} {s : Statement} {a : Act} (h : Takes d s a d') :
    d'.log = d.log := by
  cases h <;> rfl

/-! ## Status and commit stamp -/

/-- A status that only follows a commit. -/
def FollowsCommit (row : Row) : Prop := row.status = .metadataCommitted ∨ row.status = .finalizing

/-- A status that follows a commit comes with the stamp, also in what a retry has read; and a stamp
that was read stays. -/
structure StampedStatus (d : Docket) : Prop where
  row : FollowsCommit d.row → d.row.metadataCommittedAt.isSome
  read : ∀ r ∈ d.retrying, FollowsCommit r.read → r.read.metadataCommittedAt.isSome
  kept : ∀ r ∈ d.retrying,
    r.read.metadataCommittedAt.isSome → d.row.metadataCommittedAt.isSome

theorem DeedEffect.isSome {deed : Deed} {row row' : Row} (h : DeedEffect deed row row')
    (hsome : row.metadataCommittedAt.isSome) : row'.metadataCommittedAt.isSome := by
  by_cases hdeed : deed = .commit
  · exact (h.commits hdeed).2.2
  · rw [h.stamp hdeed]
    exact hsome

theorem DeedEffect.followsCommit {deed : Deed} {row row' : Row} (h : DeedEffect deed row row')
    (hrow : FollowsCommit row → row.metadataCommittedAt.isSome) (hfollows : FollowsCommit row') :
    row'.metadataCommittedAt.isSome := by
  by_cases hdeed : deed = .commit
  · exact (h.commits hdeed).2.2
  · apply h.isSome
    apply hrow
    unfold FollowsCommit at hfollows ⊢
    rcases h.status hdeed with hs | hs | hs | ⟨hs, -⟩ | ⟨-, hs⟩
    · rwa [hs] at hfollows
    · simp [hs] at hfollows
    · simp [hs] at hfollows
    · simp [hs] at hfollows
    · exact .inl hs

theorem retryStatus_followsCommit {read : Row}
    (h : retryStatusForMutation read = .metadataCommitted ∨
      retryStatusForMutation read = .finalizing) :
    read.metadataCommittedAt.isSome ∨ FollowsCommit read := by
  unfold retryStatusForMutation at h
  split at h
  · rename_i hsome
    exact .inl hsome
  · split at h
    · rename_i hstatus
      simp only [Bool.or_eq_true, decide_eq_true_eq] at hstatus
      exact .inr hstatus
    · simp at h

theorem StampedStatus.step {d d' : Docket} {s : Statement} {a : Act} (h : Takes d s a d')
    (hd : StampedStatus d) : StampedStatus { d' with log := a :: d'.log } := by
  cases h with
  | claim leaseOwner now row hrow =>
    obtain ⟨-, rfl⟩ := Row.of_claimForward hrow
    refine ⟨?_, hd.read, hd.kept⟩
    intro hfollows
    rcases hfollows with hs | hs <;> cases hs
  | claimFinalization leaseOwner now row hrow =>
    obtain ⟨hstatus, rfl⟩ := Row.of_claimFinalization hrow
    exact ⟨fun _ => hd.row hstatus, hd.read, hd.kept⟩
  | handedOut c hc howner hexpires => exact ⟨hd.row, hd.read, hd.kept⟩
  | lost c hc => exact ⟨hd.row, hd.read, hd.kept⟩
  | did hold deed now row hh hrow =>
    obtain ⟨-, -, heffect⟩ := Deed.of_update hrow
    exact ⟨heffect.followsCommit hd.row, hd.read, fun r hr hsome =>
      heffect.isSome (hd.kept r hr hsome)⟩
  | retryRead hold hh =>
    refine ⟨hd.row, ?_, ?_⟩
    · intro r hr
      rcases List.mem_cons.1 hr with rfl | hr
      · exact hd.row
      · exact hd.read r hr
    · intro r hr
      rcases List.mem_cons.1 hr with rfl | hr
      · exact id
      · exact hd.kept r hr
  | retried r now row hr hrow =>
    obtain ⟨-, -, hstatus, hstamp⟩ := Row.of_retry hrow
    have hread : ∀ r' ∈ d.retrying.erase r, r' ∈ d.retrying := fun _ => List.mem_of_mem_erase
    refine ⟨?_, fun r' hr' => hd.read r' (hread r' hr'), ?_⟩
    · intro hfollows
      unfold FollowsCommit at hfollows
      simp only [hstatus] at hfollows
      show row.metadataCommittedAt.isSome
      rw [hstamp]
      rcases retryStatus_followsCommit hfollows with hsome | hfollows
      · exact hd.kept r hr hsome
      · exact hd.kept r hr (hd.read r hr hfollows)
    · intro r' hr' hsome
      show row.metadataCommittedAt.isSome
      rw [hstamp]
      exact hd.kept r' (hread r' hr') hsome
  | retriedNow now row hrow =>
    obtain rfl := Row.of_retryNow hrow
    exact ⟨hd.row, hd.read, hd.kept⟩

theorem stamped_prepared : StampedStatus Docket.prepared := by
  refine ⟨?_, ?_, ?_⟩
  · intro hfollows
    rcases hfollows with hs | hs <;> cases hs
  · intro r hr
    cases hr
  · intro r hr
    cases hr

/-- Status and stamp agree, the stamp says whether there was a commit, and there was one at most. -/
structure Agreeing (d : Docket) : Prop where
  stamped : StampedStatus d
  agrees : StampAgrees d.row
  commits : d.log.countP Act.commits = if d.row.metadataCommittedAt.isSome then 1 else 0
  once : DecidedOnce d.log

theorem StampAgrees.unstamped {row : Row} (h : StampAgrees row)
    (hs : row.status = .prepared ∨ row.status = .retrying ∨ row.status = .running) :
    row.metadataCommittedAt.isSome = false := by
  by_contra hsome
  rw [Bool.not_eq_false] at hsome
  have := h hsome
  rcases hs with hs | hs | hs <;> simp [hs] at this

theorem Agreeing.uncommitted {d : Docket} (hd : Agreeing d)
    (hs : d.row.metadataCommittedAt.isSome = false) : d.log.any Act.commits = false := by
  have hcount := hd.commits
  rw [hs] at hcount
  rw [List.any_eq_false]
  exact List.countP_eq_zero.1 hcount

/-- A statement that decides nothing and keeps the stamp only has to keep status and stamp in
agreement. -/
theorem Agreeing.keep {d d' : Docket} {s : Statement} {a : Act} (hd : Agreeing d)
    (h : Takes d s a d') (hundecided : a.undecided = false) (hcommits : a.commits = false)
    (hstamp : d'.row.metadataCommittedAt = d.row.metadataCommittedAt)
    (hagrees : StampAgrees d'.row) : Agreeing { d' with log := a :: d'.log } := by
  refine ⟨hd.stamped.step h, hagrees, ?_, ?_⟩
  · show (a :: d'.log).countP Act.commits = if d'.row.metadataCommittedAt.isSome then 1 else 0
    rw [List.countP_cons_of_neg (by simp [hcommits]), h.log_eq, hstamp]
    exact hd.commits
  · show DecidedOnce (a :: d'.log)
    rw [h.log_eq]
    refine ⟨?_, hd.once⟩
    intro hu
    rw [hundecided] at hu
    cases hu

theorem Agreeing.did {d : Docket} (hd : Agreeing d) {hold : Holding} {deed : Deed} {now : Nat}
    {row : Row} (hh : hold ∈ d.holdings) (hrow : deed.update d.row hold.lease now = some row) :
    Agreeing { d with row, applied := deed.marks d.applied, log := .did hold deed :: d.log } := by
  have htakes := Takes.did (d := d) hold deed now row hh hrow
  obtain ⟨-, -, heffect⟩ := Deed.of_update hrow
  by_cases hcommit : deed = .commit
  · subst hcommit
    obtain ⟨hrunning, hstatus, hsome⟩ := heffect.commits rfl
    have hunstamped := hd.agrees.unstamped (.inr (.inr hrunning))
    refine ⟨hd.stamped.step htakes, ?_, ?_, ?_⟩
    · intro _
      simp [hstatus]
    · show (Act.did hold .commit :: d.log).countP Act.commits = _
      have hcount := hd.commits
      rw [hunstamped] at hcount
      rw [List.countP_cons_of_pos rfl, hcount]
      simp only [hsome, if_true, if_false, Bool.false_eq_true]
    · exact ⟨fun _ => hd.uncommitted hunstamped, hd.once⟩
  · have hstamp := heffect.stamp hcommit
    have hagrees : StampAgrees row := by
      intro hsome
      rw [hstamp] at hsome
      have hbefore := hd.agrees hsome
      rcases heffect.status hcommit with hs | hs | hs | ⟨-, hnone⟩ | ⟨hs, -⟩
      · rwa [hs]
      · simp [hs]
      · simp [hs]
      · simp [hnone] at hsome
      · simp [hs]
    have hcommits : (Act.did hold deed).commits = false := by
      cases deed <;> first | rfl | exact absurd rfl hcommit
    by_cases habort : deed = .abort
    · subst habort
      have hnone := heffect.aborts rfl
      refine ⟨hd.stamped.step htakes, hagrees, ?_, ?_⟩
      · show (Act.did hold .abort :: d.log).countP Act.commits =
          if row.metadataCommittedAt.isSome then 1 else 0
        rw [List.countP_cons_of_neg (by simp [hcommits]), hstamp]
        exact hd.commits
      · exact ⟨fun _ => hd.uncommitted (by simp [hnone]), hd.once⟩
    · refine hd.keep htakes ?_ hcommits hstamp hagrees
      cases deed <;> first | rfl | exact absurd rfl hcommit | exact absurd rfl habort

theorem Agreeing.step {d d' : Docket} {s : Statement} {a : Act} (hok : RetriesInTime d s)
    (h : Takes d s a d') (hd : Agreeing d) : Agreeing { d' with log := a :: d'.log } := by
  have htakes := h
  cases h with
  | claim leaseOwner now row hrow =>
    obtain ⟨hstatus, rfl⟩ := Row.of_claimForward hrow
    have hunstamped := hd.agrees.unstamped hstatus
    refine ⟨hd.stamped.step htakes, ?_, ?_, ?_⟩
    · intro hsome
      have : d.row.metadataCommittedAt.isSome := hsome
      rw [hunstamped] at this
      cases this
    · exact hd.commits
    · exact ⟨fun _ => hd.uncommitted hunstamped, hd.once⟩
  | claimFinalization leaseOwner now row hrow =>
    obtain ⟨-, rfl⟩ := Row.of_claimFinalization hrow
    refine hd.keep htakes rfl rfl rfl ?_
    intro _
    simp [Row.claim]
  | handedOut c hc howner hexpires => exact hd.keep htakes rfl rfl rfl hd.agrees
  | lost c hc => exact hd.keep htakes rfl rfl rfl hd.agrees
  | did hold deed now row hh hrow => exact hd.did hh hrow
  | retryRead hold hh => exact hd.keep htakes rfl rfl rfl hd.agrees
  | retried r now row hr hrow =>
    obtain ⟨hheld, -, hstatus, hstamp⟩ := Row.of_retry hrow
    refine hd.keep htakes rfl rfl hstamp ?_
    intro hsome
    -- the read is no older than the stamp
    have hread : r.read.metadataCommittedAt.isSome = true := by
      rw [hok hr hheld, ← hstamp]
      exact hsome
    have : row.status = .finalizing := by
      rw [hstatus, retryStatusForMutation, if_pos hread]
    simp [this]
  | retriedNow now row hrow =>
    obtain rfl := Row.of_retryNow hrow
    exact hd.keep htakes rfl rfl rfl hd.agrees

theorem agreeing_prepared : Agreeing Docket.prepared := by
  refine ⟨stamped_prepared, ?_, rfl, trivial⟩
  intro hsome
  cases hsome

/-- In every run in which no commit takes effect between a retry's read and its update, status and
commit stamp agree, and a committed mutation is not begun again, not committed again and not
aborted. -/
theorem run_stampAgrees (statements : List Statement)
    (h : Throughout RetriesInTime Docket.prepared statements) :
    StampAgrees (Docket.prepared.run statements).row ∧
      DecidedOnce (Docket.prepared.run statements).log := by
  have := run_induction (P := Agreeing) (fun _ _ _ _ hok htakes hd => hd.step hok htakes) h
    agreeing_prepared
  exact ⟨this.agrees, this.once⟩

/-- A lease that is renewed, a commit, a retry and the cleanup by another executor. -/
theorem run_stampAgrees_retried :
    let statements : List Statement :=
      [.claim ['a'] 0, .readBack ⟨['a'], 1⟩, .byHolder ⟨⟨['a'], 1⟩, 1⟩ (.markApplied 7) 5,
        .byHolder ⟨⟨['a'], 1⟩, 1⟩ .renew 6, .byHolder ⟨⟨['a'], 1⟩, 1⟩ .commit 8,
        .retryRead ⟨⟨['a'], 1⟩, 1⟩,
        .retryWrite ⟨⟨⟨['a'], 1⟩, 1⟩, ⟨.metadataCommitted, some ['a'], 1, some 30006, 1, none, some 8⟩⟩ 9,
        .claimFinalization ['b'] 3000, .readBack ⟨['b'], 2⟩, .byHolder ⟨⟨['b'], 2⟩, 2⟩ .complete 3001]
    (Docket.prepared.run statements).row.status = .succeeded ∧
      StampAgrees (Docket.prepared.run statements).row ∧
        DecidedOnce (Docket.prepared.run statements).log :=
  ⟨by decide, run_stampAgrees _ (by decide)⟩

/-- The commit arrives after the retry has looked and before it writes. -/
theorem commit_before_retryWrite_falls_back :
    ¬ ∀ statements : List Statement, StampAgrees (Docket.prepared.run statements).row := by
  intro h
  have := h [.claim ['a'] 0, .readBack ⟨['a'], 1⟩, .retryRead ⟨⟨['a'], 1⟩, 1⟩,
    .byHolder ⟨⟨['a'], 1⟩, 1⟩ .commit 8,
    .retryWrite ⟨⟨⟨['a'], 1⟩, 1⟩, ⟨.running, some ['a'], 1, some 30000, 1, none, none⟩⟩ 9] (by decide)
  exact absurd this (by decide)

/-! ## Fencing -/

/-- No token is greater than the row's. -/
structure Bounded (d : Docket) : Prop where
  log : ∀ token ∈ claimedTokens d.log, token ≤ d.row.leaseToken
  claiming : ∀ c ∈ d.claiming, c.token ≤ d.row.leaseToken
  holdings : ∀ h ∈ d.holdings, h.lease.token ≤ d.row.leaseToken

/-- A statement other than a claim keeps the row's token. -/
theorem Bounded.keep {d d' : Docket} {a : Act} (hd : Bounded d)
    (htoken : d'.row.leaseToken = d.row.leaseToken)
    (hlog : claimedTokens (a :: d'.log) = claimedTokens d.log)
    (hclaiming : ∀ c ∈ d'.claiming, c ∈ d.claiming)
    (hholdings : ∀ h ∈ d'.holdings, h.lease.token ≤ d.row.leaseToken) :
    Bounded { d' with log := a :: d'.log } := by
  refine ⟨?_, ?_, ?_⟩
  · show ∀ token ∈ claimedTokens (a :: d'.log), token ≤ d'.row.leaseToken
    rw [htoken, hlog]
    exact hd.log
  · show ∀ c ∈ d'.claiming, c.token ≤ d'.row.leaseToken
    rw [htoken]
    exact fun c hc => hd.claiming c (hclaiming c hc)
  · show ∀ h ∈ d'.holdings, h.lease.token ≤ d'.row.leaseToken
    rw [htoken]
    exact hholdings

theorem Bounded.claim {d : Docket} (hd : Bounded d) (status : Status) (leaseOwner : Text)
    (now : Nat) {a : Act} (ha : claimedTokens (a :: d.log) =
      (d.row.leaseToken + 1) :: claimedTokens d.log) :
    Bounded { d with
      row := d.row.claim status leaseOwner now
      claiming := ⟨leaseOwner, d.row.leaseToken + 1⟩ :: d.claiming
      log := a :: d.log } := by
  refine ⟨?_, ?_, ?_⟩
  · show ∀ token ∈ claimedTokens (a :: d.log), token ≤ d.row.leaseToken + 1
    rw [ha]
    intro token htoken
    rcases List.mem_cons.1 htoken with rfl | htoken
    · exact Nat.le_refl _
    · exact Nat.le_succ_of_le (hd.log token htoken)
  · intro c hc
    show c.token ≤ d.row.leaseToken + 1
    rcases List.mem_cons.1 hc with rfl | hc
    · exact Nat.le_refl _
    · exact Nat.le_succ_of_le (hd.claiming c hc)
  · intro h hh
    exact Nat.le_succ_of_le (hd.holdings h hh)

theorem Bounded.step {d d' : Docket} {s : Statement} {a : Act} (h : Takes d s a d')
    (hd : Bounded d) : Bounded { d' with log := a :: d'.log } := by
  cases h with
  | claim leaseOwner now row hrow =>
    obtain ⟨-, rfl⟩ := Row.of_claimForward hrow
    exact hd.claim .running leaseOwner now rfl
  | claimFinalization leaseOwner now row hrow =>
    obtain ⟨-, rfl⟩ := Row.of_claimFinalization hrow
    exact hd.claim .finalizing leaseOwner now rfl
  | handedOut c hc howner hexpires =>
    refine hd.keep rfl rfl (fun _ => List.mem_of_mem_erase) ?_
    intro h hh
    rcases List.mem_cons.1 hh with rfl | hh
    · exact Nat.le_refl _
    · exact hd.holdings h hh
  | lost c hc => exact hd.keep rfl rfl (fun _ => List.mem_of_mem_erase) hd.holdings
  | did hold deed now row hh hrow =>
    exact hd.keep (Deed.of_update hrow).2.1 rfl (fun _ => id) hd.holdings
  | retryRead hold hh => exact hd.keep rfl rfl (fun _ => id) hd.holdings
  | retried r now row hr hrow =>
    exact hd.keep (Row.of_retry hrow).2.1 rfl (fun _ => id) hd.holdings
  | retriedNow now row hrow =>
    obtain rfl := Row.of_retryNow hrow
    exact hd.keep rfl rfl (fun _ => id) hd.holdings

/-- Every claim has its own token, which it is handed once if at all. -/
structure Fenced (d : Docket) : Prop where
  bounded : Bounded d
  own : ∀ h ∈ d.holdings, h.claimed = h.lease.token
  distinct : (d.claiming.map Claiming.token).Nodup
  unused : ∀ c ∈ d.claiming, ∀ token ∈ handedTokens d.log, token ≠ c.token
  handed : ∀ token ∈ handedTokens d.log, token ≤ d.row.leaseToken
  increasing : (handedTokens d.log).Pairwise (· > ·)
  reads : ∀ r ∈ d.retrying, r.holding ∈ d.holdings
  latest : DoneByLatest d.log

/-- The holder of the row's token came after every claim. -/
theorem Fenced.latest_holder {d : Docket} (hd : Fenced d) {h : Holding} (hh : h ∈ d.holdings)
    (htoken : d.row.leaseToken = h.lease.token) :
    ∀ token ∈ claimedTokens d.log, token ≤ h.lease.token ∧ token ≤ h.claimed := by
  intro token hmem
  have hle := hd.bounded.log token hmem
  have hown := hd.own h hh
  omega

theorem Fenced.claim {d : Docket} (hd : Fenced d) (status : Status) (leaseOwner : Text)
    (now : Nat) {a : Act} (hbounded : Bounded { d with
      row := d.row.claim status leaseOwner now
      claiming := ⟨leaseOwner, d.row.leaseToken + 1⟩ :: d.claiming
      log := a :: d.log })
    (hhanded : handedTokens (a :: d.log) = handedTokens d.log) (hholder : a.holder = none) :
    Fenced { d with
      row := d.row.claim status leaseOwner now
      claiming := ⟨leaseOwner, d.row.leaseToken + 1⟩ :: d.claiming
      log := a :: d.log } := by
  refine ⟨hbounded, hd.own, ?_, ?_, ?_, ?_, hd.reads, ?_, hd.latest⟩
  · refine List.nodup_cons.2 ⟨?_, hd.distinct⟩
    intro hmem
    obtain ⟨c, hc, heq⟩ := List.mem_map.1 hmem
    have htoken : c.token = d.row.leaseToken + 1 := heq
    have := hd.bounded.claiming c hc
    omega
  · intro c hc token htoken
    have htoken' : token ∈ handedTokens d.log := hhanded ▸ htoken
    rcases List.mem_cons.1 hc with rfl | hc
    · have := hd.handed token htoken'
      show token ≠ d.row.leaseToken + 1
      omega
    · exact hd.unused c hc token htoken'
  · intro token htoken
    have htoken' : token ∈ handedTokens d.log := hhanded ▸ htoken
    exact Nat.le_succ_of_le (hd.handed token htoken')
  · show (handedTokens (a :: d.log)).Pairwise (· > ·)
    rw [hhanded]
    exact hd.increasing
  · intro h hh
    rw [hholder] at hh
    cases hh

/-- A statement that neither claims nor hands out. -/
theorem Fenced.keep {d d' : Docket} {s : Statement} {a : Act} (hd : Fenced d)
    (h : Takes d s a d') (htoken : d'.row.leaseToken = d.row.leaseToken)
    (hhanded : handedTokens (a :: d.log) = handedTokens d.log)
    (hclaiming : d'.claiming.Sublist d.claiming) (hholdings : d'.holdings = d.holdings)
    (hreads : ∀ r ∈ d'.retrying, r.holding ∈ d.holdings)
    (hholder : ∀ hold, a.holder = some hold →
      hold ∈ d.holdings ∧ d.row.leaseToken = hold.lease.token) :
    Fenced { d' with log := a :: d'.log } := by
  have hlog := h.log_eq
  refine ⟨hd.bounded.step h, ?_, ?_, ?_, ?_, ?_, ?_, ?_⟩
  · show ∀ h ∈ d'.holdings, h.claimed = h.lease.token
    rw [hholdings]
    exact hd.own
  · exact hd.distinct.sublist (hclaiming.map _)
  · intro c hc token ht
    have ht' : token ∈ handedTokens (a :: d'.log) := ht
    rw [hlog, hhanded] at ht'
    exact hd.unused c (hclaiming.subset hc) token ht'
  · intro token ht
    have ht' : token ∈ handedTokens (a :: d'.log) := ht
    rw [hlog, hhanded] at ht'
    exact htoken ▸ hd.handed token ht'
  · show (handedTokens (a :: d'.log)).Pairwise (· > ·)
    rw [hlog, hhanded]
    exact hd.increasing
  · show ∀ r ∈ d'.retrying, r.holding ∈ d'.holdings
    rw [hholdings]
    exact hreads
  · show DoneByLatest (a :: d'.log)
    rw [hlog]
    refine ⟨?_, hd.latest⟩
    intro hold hsome
    obtain ⟨hmem, heq⟩ := hholder hold hsome
    exact hd.latest_holder hmem heq

theorem Fenced.handedOut {d : Docket} (hd : Fenced d) {c : Claiming} (hc : c ∈ d.claiming)
    (howner : d.row.leaseOwner = some c.leaseOwner) (hexpires : d.row.leaseExpiresAt.isSome)
    (hown : d.row.leaseToken = c.token) :
    Fenced { d with
      claiming := d.claiming.erase c
      holdings := ⟨⟨c.leaseOwner, d.row.leaseToken⟩, c.token⟩ :: d.holdings
      log := .handedOut ⟨⟨c.leaseOwner, d.row.leaseToken⟩, c.token⟩ :: d.log } := by
  have htakes := Takes.handedOut c hc howner hexpires
  have hother : ∀ c' ∈ d.claiming.erase c, c'.token ≠ c.token := by
    -- tokens are distinct, so what is left after the erasure has other ones
    intro c' hc' heq
    have hperm := (List.perm_cons_erase hc).map Claiming.token
    have hnodup := hperm.nodup_iff.1 hd.distinct
    rw [List.map_cons, List.nodup_cons] at hnodup
    exact hnodup.1 (List.mem_map.2 ⟨c', hc', heq⟩)
  have hnew : ∀ token ∈ handedTokens d.log, token < d.row.leaseToken := by
    intro token ht
    have hle := hd.handed token ht
    have hne := hd.unused c hc token ht
    omega
  refine ⟨hd.bounded.step htakes, ?_, ?_, ?_, ?_, ?_, ?_, ?_, hd.latest⟩
  · intro h hh
    rcases List.mem_cons.1 hh with rfl | hh
    · exact hown.symm
    · exact hd.own h hh
  · exact hd.distinct.sublist (List.erase_sublist.map _)
  · intro c' hc' token ht
    rcases List.mem_cons.1 ht with rfl | ht
    · have := hother c' hc'
      show d.row.leaseToken ≠ c'.token
      omega
    · exact hd.unused c' (List.mem_of_mem_erase hc') token ht
  · intro token ht
    rcases List.mem_cons.1 ht with rfl | ht
    · exact Nat.le_refl _
    · exact hd.handed token ht
  · exact List.pairwise_cons.2 ⟨hnew, hd.increasing⟩
  · intro r hr
    exact List.mem_cons_of_mem _ (hd.reads r hr)
  · intro h hh
    cases hh

theorem Fenced.step {d d' : Docket} {s : Statement} {a : Act} (hok : ReadsOwnClaim d s)
    (h : Takes d s a d') (hd : Fenced d) : Fenced { d' with log := a :: d'.log } := by
  have htakes := h
  cases h with
  | claim leaseOwner now row hrow =>
    obtain ⟨-, rfl⟩ := Row.of_claimForward hrow
    exact hd.claim .running leaseOwner now (hd.bounded.step htakes) rfl rfl
  | claimFinalization leaseOwner now row hrow =>
    obtain ⟨-, rfl⟩ := Row.of_claimFinalization hrow
    exact hd.claim .finalizing leaseOwner now (hd.bounded.step htakes) rfl rfl
  | handedOut c hc howner hexpires =>
    exact hd.handedOut hc howner hexpires (hok hc howner hexpires)
  | lost c hc => exact hd.keep htakes rfl rfl List.erase_sublist rfl hd.reads (by simp [Act.holder])
  | did hold deed now row hh hrow =>
    obtain ⟨htoken, hkeeps, -⟩ := Deed.of_update hrow
    refine hd.keep htakes hkeeps rfl (List.Sublist.refl _) rfl hd.reads ?_
    intro h heq
    cases heq
    exact ⟨hh, htoken⟩
  | retryRead hold hh =>
    refine hd.keep htakes rfl rfl (List.Sublist.refl _) rfl ?_ (by simp [Act.holder])
    intro r hr
    rcases List.mem_cons.1 hr with rfl | hr
    · exact hh
    · exact hd.reads r hr
  | retried r now row hr hrow =>
    obtain ⟨hheld, hkeeps, -⟩ := Row.of_retry hrow
    refine hd.keep htakes hkeeps rfl (List.Sublist.refl _) rfl ?_ ?_
    · intro r' hr'
      exact hd.reads r' (List.mem_of_mem_erase hr')
    · intro h heq
      cases heq
      exact ⟨hd.reads r hr, Row.of_heldBy hheld⟩
  | retriedNow now row hrow =>
    obtain rfl := Row.of_retryNow hrow
    exact hd.keep htakes rfl rfl (List.Sublist.refl _) rfl hd.reads (by simp [Act.holder])

theorem fenced_prepared : Fenced Docket.prepared := by
  refine ⟨⟨?_, ?_, ?_⟩, ?_, List.nodup_nil, ?_, ?_, List.Pairwise.nil, ?_, trivial⟩ <;>
    intro _ hmem <;> cases hmem

/-- In every run in which retries are in time and no claim is handed the token of another claim,
tokens only grow, at most one commit takes effect, and everything is done by the latest claim's
executor. -/
theorem run_fencing (statements : List Statement)
    (h : Throughout (fun d s => RetriesInTime d s ∧ ReadsOwnClaim d s) Docket.prepared
      statements) :
    Fencing (Docket.prepared.run statements).log := by
  obtain ⟨hagreeing, hfenced⟩ := run_induction (P := fun d => Agreeing d ∧ Fenced d)
    (fun _ _ _ _ hok htakes hd => ⟨hd.1.step hok.1 htakes, hd.2.step hok.2 htakes⟩) h
    ⟨agreeing_prepared, fenced_prepared⟩
  refine ⟨hfenced.increasing, ?_, hfenced.latest⟩
  rw [hagreeing.commits]
  split <;> omega

/-- An executor that stalls is taken over, and its commit is refused. -/
theorem run_fencing_takeover :
    let statements : List Statement :=
      [.claim ['a'] 0, .readBack ⟨['a'], 1⟩, .claim ['b'] 30000, .readBack ⟨['b'], 2⟩,
        .byHolder ⟨⟨['a'], 1⟩, 1⟩ .commit 30001, .byHolder ⟨⟨['b'], 2⟩, 2⟩ .commit 30002]
    (Docket.prepared.run statements).log.head? = some (.did ⟨⟨['b'], 2⟩, 2⟩ .commit) ∧
      Fencing (Docket.prepared.run statements).log :=
  ⟨by decide, run_fencing _ (by decide)⟩

/-- A commit that arrives inside a retry takes effect once more after the next claim. And two claims
under one owner string are handed the same token if the first stalls before it reads back. -/
theorem fencing_fails :
    (¬ Fencing (Docket.prepared.run
      [.claim ['a'] 0, .readBack ⟨['a'], 1⟩, .retryRead ⟨⟨['a'], 1⟩, 1⟩,
        .byHolder ⟨⟨['a'], 1⟩, 1⟩ .commit 8,
        .retryWrite ⟨⟨⟨['a'], 1⟩, 1⟩, ⟨.running, some ['a'], 1, some 30000, 1, none, none⟩⟩ 9,
        .claim ['b'] 3000, .readBack ⟨['b'], 2⟩, .byHolder ⟨⟨['b'], 2⟩, 2⟩ .commit 3001]).log) ∧
    ¬ Fencing (Docket.prepared.run
      [.claim ['a'] 0, .claim ['a'] 30000, .readBack ⟨['a'], 2⟩, .readBack ⟨['a'], 1⟩]).log := by
  constructor
  · intro h
    exact absurd h.once (by decide)
  · intro h
    exact absurd h.increasing (by decide)

end Staaash.Journal
