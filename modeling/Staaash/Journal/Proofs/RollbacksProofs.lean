import Staaash.Journal.Proofs.CommitSafetyProofs
import Staaash.Journal.Proofs.DocketProofs
import Staaash.Journal.Rollbacks

/-!
# Proofs: rollbacks beside everyone else

A renewal goes through for the lease that the row has, so a rollback that was overtaken by a claim changes
nothing any more, unless it had renewed before. A commit under another lease than that of a rollback has
overtaken it. What is left are the two ways that the condition names: a claim between the renewal and the
change or after it, and a late commit under the rollback's own lease.
-/

namespace Staaash.Journal

open Staaash.Library (RunMeets)

variable {d d' : Docket} {row row' : Row} {lease lease' : Lease} {now : Nat} {m : Mutation}
variable {s s' : Executors} {r : Reversal}

/-! ## The lease of the row -/

/-- The lease is no later than the row's, and it has the row's owner if it is the latest. -/
def Issued (row : Row) (lease : Lease) : Prop :=
  lease.token ≤ row.leaseToken ∧
    (lease.token = row.leaseToken → ∀ owner, row.leaseOwner = some owner → owner = lease.owner)

/-- The row is not claimed, and maybe let go of. -/
def Row.KeepsLease (row row' : Row) : Prop :=
  row'.leaseToken = row.leaseToken ∧ (row'.leaseOwner = row.leaseOwner ∨ row'.leaseOwner = none)

theorem Issued.keep (h : Issued row lease) (hkeeps : row.KeepsLease row') : Issued row' lease := by
  obtain ⟨htoken, howner⟩ := hkeeps
  refine ⟨htoken ▸ h.1, fun heq owner hsome => ?_⟩
  obtain hsame | hnone := howner
  · exact h.2 (heq.trans htoken) owner (hsame ▸ hsome)
  · rw [hnone] at hsome
    cases hsome

theorem Issued.claim (h : Issued row lease) (status : Status) (leaseOwner : Text) (now : Nat) :
    Issued (row.claim status leaseOwner now) lease := by
  have hlt : lease.token < row.leaseToken + 1 := Nat.lt_succ_of_le h.1
  exact ⟨Nat.le_of_lt hlt, fun heq => absurd heq (Nat.ne_of_lt hlt)⟩

theorem Row.owner_of_fenced (h : row.fenced lease now = true) : row.leaseOwner = some lease.owner := by
  unfold Row.fenced at h
  simp only [Bool.and_eq_true, decide_eq_true_eq] at h
  exact h.1.1.1

/-- Only one lease has the row's token. -/
theorem Issued.eq_of_fenced (h : Issued row lease) (hfenced : row.fenced lease' now = true)
    (htoken : lease.token = row.leaseToken) : lease = lease' := by
  have howner := h.2 htoken lease'.owner (Row.owner_of_fenced hfenced)
  have htoken' := htoken.trans (Row.of_fenced hfenced)
  cases lease
  cases lease'
  cases howner
  cases htoken'
  rfl

theorem Row.fenced_of_commit (h : row.commit lease now = some row') : row.fenced lease now = true := by
  unfold Row.commit at h
  obtain ⟨hcond, -⟩ := Option.ite_none_right_eq_some.1 h
  exact (Bool.and_eq_true_iff.1 hcond).1

theorem Row.of_renew (h : row.renew lease now = some row') :
    row.fenced lease now = true ∧ row' = { row with leaseExpiresAt := some (now + leaseMs) } := by
  unfold Row.renew at h
  obtain ⟨hfenced, h⟩ := Option.ite_none_right_eq_some.1 h
  exact ⟨hfenced, (Option.some.inj h).symm⟩

theorem Deed.keepsLease {deed : Deed} (h : deed.update row lease now = some row') :
    row.KeepsLease row' := by
  cases deed <;> obtain ⟨-, h⟩ := Option.ite_none_right_eq_some.1 h <;> cases h <;>
    first | exact ⟨rfl, .inl rfl⟩ | exact ⟨rfl, .inr rfl⟩

/-! ## A statement of the docket -/

/-- Only a claim gives the row a new lease, and what was handed out has one of the row's. -/
theorem Takes.leases {st : Statement} {a : Act} (h : Takes d st a d') :
    ((∃ status owner now, d'.row = d.row.claim status owner now) ∨ d.row.KeepsLease d'.row) ∧
      ∀ hold ∈ d'.holdings, hold ∈ d.holdings ∨ Issued d.row hold.lease ∧ d'.row = d.row := by
  cases h with
  | claim leaseOwner now row hrow =>
    exact ⟨.inl ⟨_, _, _, (Row.of_claimForward hrow).2⟩, fun hold hmem => .inl hmem⟩
  | claimFinalization leaseOwner now row hrow =>
    exact ⟨.inl ⟨_, _, _, (Row.of_claimFinalization hrow).2⟩, fun hold hmem => .inl hmem⟩
  | handedOut c hc howner hexpires =>
    refine ⟨.inr ⟨rfl, .inl rfl⟩, fun hold hmem => ?_⟩
    obtain rfl | hmem := List.mem_cons.1 hmem
    · refine .inr ⟨⟨Nat.le_refl _, fun _ owner hsome => ?_⟩, rfl⟩
      exact Option.some.inj (hsome.symm.trans howner)
    · exact .inl hmem
  | lost c hc => exact ⟨.inr ⟨rfl, .inl rfl⟩, fun hold hmem => .inl hmem⟩
  | did hold deed now row hh hrow => exact ⟨.inr (Deed.keepsLease hrow), fun hold hmem => .inl hmem⟩
  | retryRead hold hh => exact ⟨.inr ⟨rfl, .inl rfl⟩, fun hold hmem => .inl hmem⟩
  | retried r now row hr hrow =>
    obtain ⟨-, h⟩ := Option.ite_none_right_eq_some.1 hrow
    cases h
    exact ⟨.inr ⟨rfl, .inr rfl⟩, fun hold hmem => .inl hmem⟩
  | retriedNow now row hrow =>
    obtain rfl := Row.of_retryNow hrow
    exact ⟨.inr ⟨rfl, .inl rfl⟩, fun hold hmem => .inl hmem⟩

/-- What was handed out stays handed out. -/
theorem Takes.holdings {st : Statement} {a : Act} (h : Takes d st a d') {hold : Holding}
    (hmem : hold ∈ d.holdings) : hold ∈ d'.holdings := by
  cases h with
  | handedOut c hc howner hexpires => exact List.mem_cons_of_mem _ hmem
  | _ => exact hmem

/-- A commit sets the stamp, and nothing else changes it. -/
theorem Takes.stamp {st : Statement} {a : Act} (h : Takes d st a d') :
    d'.row.metadataCommittedAt.isSome = (a.commits || d.row.metadataCommittedAt.isSome) := by
  cases h with
  | claim leaseOwner now row hrow =>
    rw [(Row.of_claimForward hrow).2]
    rfl
  | claimFinalization leaseOwner now row hrow =>
    rw [(Row.of_claimFinalization hrow).2]
    rfl
  | did hold deed now row hh hrow =>
    obtain ⟨-, -, heffect⟩ := Deed.of_update hrow
    show row.metadataCommittedAt.isSome = _
    by_cases hcommit : deed = .commit
    · subst hcommit
      rw [(heffect.commits rfl).2.2]
      rfl
    · rw [heffect.stamp hcommit]
      cases deed <;> first | rfl | exact absurd rfl hcommit
  | retried r now row hr hrow =>
    rw [show ({ d with row, retrying := d.retrying.erase r } : Docket).row = row from rfl,
      (Row.of_retry hrow).2.2.2]
    rfl
  | retriedNow now row hrow =>
    obtain rfl := Row.of_retryNow hrow
    rfl
  | handedOut c hc howner hexpires => rfl
  | lost c hc => rfl
  | retryRead hold hh => rfl

/-! ## The invariant -/

structure Executors.Inv (s : Executors) : Prop where
  stamped : StampedStatus s.docket
  stamp : s.docket.row.metadataCommittedAt.isSome = s.committed
  issued : ∀ h ∈ s.docket.holdings, Issued s.docket.row h.lease
  held : ∀ r ∈ s.rollbacks, r.holding ∈ s.docket.holdings
  begun : ∀ r ∈ s.rollbacks, r.todo ≠ [] → r.holding.lease ∈ s.begun
  /-- A commit has overtaken every rollback that has something left to do. -/
  overtaken : s.committed = true → ∀ r ∈ s.rollbacks, r.todo ≠ [] →
    r.holding.lease.token < s.docket.row.leaseToken
  /-- Nothing has overtaken one that is poised. -/
  poised : ∀ r ∈ s.rollbacks, r.poised = true → r.holding.lease.token = s.docket.row.leaseToken
  /-- Nor one that has undone something. -/
  latest : ∀ lease ∈ s.undone, lease ∈ s.begun ∧ Issued s.docket.row lease ∧
    lease.token = s.docket.row.leaseToken
  apart : s.committed = true → s.undone = []

theorem Reversal.todo_of_poised (h : r.poised = true) : r.todo ≠ [] := by
  unfold Reversal.poised at h
  exact of_decide_eq_true (Bool.and_eq_true_iff.1 h).2

theorem Executors.Inv.not_poised (h : s.Inv) (hcommitted : s.committed = true) (hr : r ∈ s.rollbacks) :
    r.poised = false := by
  refine Bool.eq_false_iff.2 fun hpoised => ?_
  have hlt := h.overtaken hcommitted r hr (Reversal.todo_of_poised hpoised)
  exact Nat.ne_of_lt hlt (h.poised r hr hpoised)

/-- A claim comes when nothing is undone and no rollback is poised. -/
theorem Executors.Inv.free (h : s.Inv) {st : Statement} {a : Act} {d' : Docket}
    (hok : s.RollsBackInPeace (.statement st)) (htakes : Takes s.docket st a d') :
    s.docket.row.KeepsLease d'.row ∨ s.undone = [] ∧ ∀ r ∈ s.rollbacks, r.poised = false := by
  have htakes' := htakes
  cases htakes with
  | claim leaseOwner now row hrow => exact .inr (hok (Option.isSome_of_eq_some hrow))
  | claimFinalization leaseOwner now row hrow =>
    have hcommitted : s.committed = true := by
      rw [← h.stamp]
      exact h.stamped.row (Row.of_claimFinalization hrow).1
    exact .inr ⟨h.apart hcommitted, fun r hr => h.not_poised hcommitted hr⟩
  | did hold deed now row hh hrow => exact .inl (Deed.keepsLease hrow)
  | retried r now row hr hrow =>
    obtain ⟨-, h⟩ := Option.ite_none_right_eq_some.1 hrow
    cases h
    exact .inl ⟨rfl, .inr rfl⟩
  | retriedNow now row hrow =>
    obtain rfl := Row.of_retryNow hrow
    exact .inl ⟨rfl, .inl rfl⟩
  | handedOut c hc howner hexpires => exact .inl ⟨rfl, .inl rfl⟩
  | lost c hc => exact .inl ⟨rfl, .inl rfl⟩
  | retryRead hold hh => exact .inl ⟨rfl, .inl rfl⟩

/-- A commit has overtaken the rollbacks, and nothing was undone. -/
theorem Executors.Inv.commit (h : s.Inv) {hold : Holding} (hh : hold ∈ s.docket.holdings)
    (hok : s.RollsBackInPeace (.statement (.byHolder hold .commit now)))
    (hrow : s.docket.row.commit hold.lease now = some row) :
    s.undone = [] ∧ ∀ r ∈ s.rollbacks, r.todo ≠ [] →
      r.holding.lease.token < s.docket.row.leaseToken := by
  have hbegun := hok hh (Option.isSome_of_eq_some hrow)
  have hfenced := Row.fenced_of_commit hrow
  constructor
  · refine List.eq_nil_iff_forall_not_mem.2 fun lease hmem => ?_
    obtain ⟨hmem, hissued, htoken⟩ := h.latest lease hmem
    exact hbegun (hissued.eq_of_fenced hfenced htoken ▸ hmem)
  · intro r hr htodo
    have hissued := h.issued r.holding (h.held r hr)
    refine Nat.lt_of_le_of_ne hissued.1 fun htoken => ?_
    exact hbegun (hissued.eq_of_fenced hfenced htoken ▸ h.begun r hr htodo)

/-! ## Every turn -/

theorem Executors.Inv.statement (h : s.Inv) {st : Statement} {a : Act}
    (hok : s.RollsBackInPeace (.statement st)) (htakes : Takes s.docket st a d') :
    Executors.Inv { s with docket := { d' with log := a :: d'.log } } := by
  have hcommitted : Executors.committed { s with docket := { d' with log := a :: d'.log } } =
      (a.commits || s.committed) := by
    show (a :: d'.log).any Act.commits = _
    rw [htakes.log_eq]
    rfl
  have hissued : ∀ {lease}, Issued s.docket.row lease → Issued d'.row lease := by
    intro lease hlease
    obtain ⟨status, owner, now, hrow⟩ | hkeeps := htakes.leases.1
    · rw [hrow]
      exact hlease.claim status owner now
    · exact hlease.keep hkeeps
  have hfree := h.free hok htakes
  have hcommit : a.commits = true → s.undone = [] ∧ ∀ r ∈ s.rollbacks, r.todo ≠ [] →
      r.holding.lease.token < s.docket.row.leaseToken := by
    intro hcommits
    cases htakes with
    | did hold deed now row hh hrow =>
      cases deed with
      | commit => exact h.commit hh hok hrow
      | _ => cases hcommits
    | _ => cases hcommits
  have hle : s.docket.row.leaseToken ≤ d'.row.leaseToken := by
    obtain ⟨status, owner, now, hrow⟩ | hkeeps := htakes.leases.1
    · rw [hrow]
      exact Nat.le_succ _
    · exact Nat.le_of_eq hkeeps.1.symm
  constructor
  · exact h.stamped.step htakes
  · rw [hcommitted, ← h.stamp]
    exact htakes.stamp
  · intro hold hmem
    obtain hmem | ⟨hnew, hrow⟩ := htakes.leases.2 hold hmem
    · exact hissued (h.issued hold hmem)
    · exact hrow ▸ hnew
  · exact fun r hr => htakes.holdings (h.held r hr)
  · exact h.begun
  · intro hc r hr htodo
    rw [hcommitted, Bool.or_eq_true] at hc
    refine Nat.lt_of_lt_of_le ?_ hle
    exact hc.elim (fun hcommits => (hcommit hcommits).2 r hr htodo) fun hc => h.overtaken hc r hr htodo
  · intro r hr hpoised
    obtain hkeeps | ⟨-, hnone⟩ := hfree
    · exact (h.poised r hr hpoised).trans hkeeps.1.symm
    · rw [hnone r hr] at hpoised
      cases hpoised
  · intro lease hmem
    obtain hkeeps | ⟨hnone, -⟩ := hfree
    · obtain ⟨hbegun, hlease, htoken⟩ := h.latest lease hmem
      exact ⟨hbegun, hissued hlease, htoken.trans hkeeps.1.symm⟩
    · have : lease ∈ ([] : List Lease) := hnone ▸ hmem
      cases this
  · intro hc
    rw [hcommitted, Bool.or_eq_true] at hc
    exact hc.elim (fun hcommits => (hcommit hcommits).1) h.apart

/-- A rollback that began goes on, or another one begins. -/
theorem Executors.Inv.rollbacks (h : s.Inv) {rollbacks : List Reversal} {begun : List Lease}
    (hheld : ∀ r ∈ rollbacks, r.holding ∈ s.docket.holdings) (hmore : s.begun ⊆ begun)
    (hbegun : ∀ r ∈ rollbacks, r.todo ≠ [] → r.holding.lease ∈ begun)
    (hovertaken : s.committed = true → ∀ r ∈ rollbacks, r.todo ≠ [] →
      r.holding.lease.token < s.docket.row.leaseToken)
    (hpoised : ∀ r ∈ rollbacks, r.poised = true → r.holding.lease.token = s.docket.row.leaseToken) :
    Executors.Inv { s with rollbacks, begun } :=
  ⟨h.stamped, h.stamp, h.issued, hheld, hbegun, hovertaken, hpoised,
    fun lease hmem => (h.latest lease hmem).imp_left (hmore ·), h.apart⟩

/-- The same for one of them. -/
theorem Executors.Inv.putReversal (h : s.Inv) {n : Reversal} (hr : r ∈ s.rollbacks)
    (hholding : n.holding = r.holding) (htodo : n.todo ≠ [] → r.todo ≠ [])
    (hpoised : n.poised = true → r.holding.lease.token = s.docket.row.leaseToken) :
    (s.putReversal r n).Inv := by
  have hmem : ∀ q ∈ n :: s.rollbacks.erase r, q = n ∨ q ∈ s.rollbacks := fun q h =>
    (List.mem_cons.1 h).imp_right List.mem_of_mem_erase
  refine h.rollbacks ?_ (List.Subset.refl _) ?_ ?_ ?_
  · intro q hq
    obtain rfl | hq := hmem q hq
    · exact hholding ▸ h.held r hr
    · exact h.held q hq
  · intro q hq htodo''
    obtain rfl | hq := hmem q hq
    · exact hholding ▸ h.begun r hr (htodo htodo'')
    · exact h.begun q hq htodo''
  · intro hc q hq htodo''
    obtain rfl | hq := hmem q hq
    · rw [hholding]
      exact h.overtaken hc r hr (htodo htodo'')
    · exact h.overtaken hc q hq htodo''
  · intro q hq hpoised''
    obtain rfl | hq := hmem q hq
    · rw [hholding]
      exact hpoised hpoised''
    · exact h.poised q hq hpoised''

theorem Executors.Inv.renew (h : s.Inv) (hrow : s.docket.row.renew lease now = some row) :
    Executors.Inv { s with docket := { s.docket with row } } := by
  obtain ⟨-, rfl⟩ := Row.of_renew hrow
  refine ⟨⟨h.stamped.row, h.stamped.read, h.stamped.kept⟩, h.stamp, ?_, h.held, h.begun, h.overtaken, h.poised,
    ?_, h.apart⟩
  · exact fun hold hmem => (h.issued hold hmem).keep ⟨rfl, .inl rfl⟩
  · intro lease hmem
    obtain ⟨hbegun, hissued, htoken⟩ := h.latest lease hmem
    exact ⟨hbegun, hissued.keep ⟨rfl, .inl rfl⟩, htoken⟩

theorem Executors.Inv.step (h : s.Inv) {t : Turn} (hok : s.RollsBackInPeace t) : (s.step m t).Inv := by
  unfold Executors.step
  cases hact : s.act m t with
  | none => exact h
  | some s' =>
    show s'.Inv
    cases t with
    | statement st =>
      cases hact
      unfold Docket.step
      cases hdo : s.docket.act st with
      | none => exact h
      | some taken =>
        obtain ⟨a, d'⟩ := taken
        exact h.statement hok (takes_of_act hdo)
    | forward hold step =>
      obtain ⟨-, hact⟩ := Option.ite_none_right_eq_some.1 hact
      obtain ⟨fs, -, rfl⟩ := Option.map_eq_some_iff.1 hact
      exact ⟨h.stamped, h.stamp, h.issued, h.held, h.begun, h.overtaken, h.poised, h.latest, h.apart⟩
    | elsewhere fs =>
      cases hact
      exact ⟨h.stamped, h.stamp, h.issued, h.held, h.begun, h.overtaken, h.poised, h.latest, h.apart⟩
    | rollBack hold error known =>
      obtain ⟨⟨hheld, -, hstamp, -, -⟩, hact⟩ := Option.ite_none_right_eq_some.1 hact
      cases hact
      have hcommitted : s.committed = false := by
        rw [← h.stamp, hstamp]
        rfl
      have hmore : ∀ todo : List Step,
          s.begun ⊆ if todo = [] then s.begun else hold.lease :: s.begun := by
        intro todo
        split
        · exact List.Subset.refl _
        · exact List.subset_cons_self _ _
      refine h.rollbacks ?_ (hmore _) ?_ (fun hc => absurd hc (by rw [hcommitted]; exact Bool.false_ne_true)) ?_
      · exact List.forall_mem_cons.2 ⟨hheld, h.held⟩
      · refine List.forall_mem_cons.2 ⟨fun htodo => ?_, fun r hr htodo => hmore _ (h.begun r hr htodo)⟩
        rw [if_neg htodo]
        exact List.mem_cons_self
      · exact List.forall_mem_cons.2 ⟨fun hpoised => absurd hpoised (by simp [Reversal.poised]), h.poised⟩
    | renew r now =>
      obtain ⟨hr, hact⟩ := Option.ite_none_right_eq_some.1 hact
      obtain ⟨row, hrow, rfl⟩ := Option.map_eq_some_iff.1 hact
      have htoken := (Row.of_fenced (Row.of_renew hrow).1).symm
      have hput := h.putReversal (n := { r with checked := true }) hr rfl id fun _ => htoken
      exact hput.renew hrow
    | undo r =>
      simp only [Executors.act] at hact
      split at hact
      · cases hact
      · rename_i step rest htodo
        obtain ⟨⟨hr, hchecked⟩, hact⟩ := Option.ite_none_right_eq_some.1 hact
        obtain ⟨fs, -, rfl⟩ := Option.map_eq_some_iff.1 hact
        have hpoised : r.poised = true := by
          unfold Reversal.poised
          rw [hchecked, htodo]
          rfl
        have htoken := h.poised r hr hpoised
        have hput := h.putReversal (n := { r with todo := rest, checked := false }) hr rfl
          (fun _ => Reversal.todo_of_poised hpoised) fun hfalse => absurd hfalse (by simp [Reversal.poised])
        refine ⟨hput.stamped, hput.stamp, hput.issued, hput.held, hput.begun, hput.overtaken, hput.poised, ?_, ?_⟩
        · exact List.forall_mem_cons.2 ⟨⟨h.begun r hr (Reversal.todo_of_poised hpoised),
            h.issued r.holding (h.held r hr), htoken⟩, h.latest⟩
        · intro hc
          rw [h.not_poised hc hr] at hpoised
          cases hpoised
    | pass r =>
      obtain ⟨hr, hact⟩ := Option.ite_none_right_eq_some.1 hact
      cases hact
      refine h.putReversal hr rfl (fun htail hnil => htail ?_) fun hfalse =>
        absurd hfalse (by simp [Reversal.poised])
      show r.todo.tail = []
      rw [hnil]
      rfl
    | leave r =>
      cases hact
      refine h.rollbacks ?_ (List.Subset.refl _) ?_ ?_ ?_
      · exact fun r' hr' => h.held r' (List.mem_of_mem_erase hr')
      · exact fun r' hr' => h.begun r' (List.mem_of_mem_erase hr')
      · exact fun hc r' hr' => h.overtaken hc r' (List.mem_of_mem_erase hr')
      · exact fun r' hr' => h.poised r' (List.mem_of_mem_erase hr')

theorem prepared_inv (fs : Fs) : (Executors.prepared fs).Inv := by
  refine ⟨stamped_prepared, rfl, ?_, ?_, ?_, nofun, ?_, ?_, nofun⟩ <;> exact fun _ hmem => nomatch hmem

/-! ## Runs -/

/-- In every run in which rollbacks are left in peace, no mutation is both committed and undone. -/
theorem run_neverUndone (m : Mutation) (fs : Fs) (turns : List Turn)
    (hok : RunMeets (Executors.step m) Executors.RollsBackInPeace (.prepared fs) turns) :
    ¬((turns.foldl (Executors.step m) (.prepared fs)).committed = true ∧
      (turns.foldl (Executors.step m) (.prepared fs)).undone ≠ []) := by
  have hinv := hok.keeps (fun _ _ hpeace h => h.step hpeace) (prepared_inv fs)
  rintro ⟨hcommitted, hundone⟩
  exact hundone (hinv.apart hcommitted)

/-- What the executor of the first claim holds, and that of the second one. -/
def firstHolding : Holding := ⟨⟨['a'], 1⟩, 1⟩

def secondHolding : Holding := ⟨⟨['b'], 2⟩, 2⟩

/-- The first executor renames `a` to `b`, runs over the quota and goes on to undo. -/
def renamedOverQuota : List Turn :=
  [.statement (.claim ['a'] 0), .statement (.readBack ⟨['a'], 1⟩), .forward firstHolding renameStep,
    .statement (.byHolder firstHolding (.markApplied 1) 1),
    .rollBack firstHolding (.rejected .userStorageQuotaExceeded) [1]]

/-- The second executor commits when the lease of the first one has run out. -/
def committedBySecond : List Turn :=
  [.statement (.claim ['b'] 30010), .statement (.readBack ⟨['b'], 2⟩),
    .statement (.byHolder secondHolding .commit 30011)]

/-- A rollback that stalls before it renews finds out that it was overtaken. -/
theorem run_neverUndone_overtaken :
    let turns := renamedOverQuota ++ committedBySecond ++
      [.renew ⟨firstHolding, [renameStep], false⟩ 30012, .undo ⟨firstHolding, [renameStep], true⟩]
    (turns.foldl (Executors.step renameOnly) (.prepared (fileAt "a"))).committed = true ∧
      ¬((turns.foldl (Executors.step renameOnly) (.prepared (fileAt "a"))).committed = true ∧
        (turns.foldl (Executors.step renameOnly) (.prepared (fileAt "a"))).undone ≠ []) :=
  ⟨by decide +kernel, run_neverUndone renameOnly (fileAt "a") _ (by decide +kernel)⟩

/-- A commit that was given up takes effect after the rollback has read the row. And a rollback that stalls
between its renewal and its change undoes what another executor has committed meanwhile. -/
theorem committed_then_undone :
    (committed (run smallHost renameOnly (prepared (fileAt "a")) committedLate).log = true ∧
      undone (run smallHost renameOnly (prepared (fileAt "a")) committedLate).log = true ∧
      (run smallHost renameOnly (prepared (fileAt "a")) committedLate).fs = fileAt "a") ∧
    let turns := renamedOverQuota ++ [.renew ⟨firstHolding, [renameStep], false⟩ 10] ++
      committedBySecond ++ [.undo ⟨firstHolding, [renameStep], true⟩]
    (turns.foldl (Executors.step renameOnly) (.prepared (fileAt "a"))).committed = true ∧
      (turns.foldl (Executors.step renameOnly) (.prepared (fileAt "a"))).undone = [⟨['a'], 1⟩] ∧
      (turns.foldl (Executors.step renameOnly) (.prepared (fileAt "a"))).fs = fileAt "a" := by
  decide +kernel

end Staaash.Journal
