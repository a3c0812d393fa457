import Staaash.Journal.Resources
import Staaash.Journal.Proofs.DocketProofs

/-!
# Exclusion of the journal's resources

The query of `assertNoOverlappingOwnerResources` finds every active row that is, contains or lies
below a requested key. Rows are released by a commit's successors, by an abort and by a completion
only, and a mutation that has come that far never becomes open again.
-/

namespace Staaash.Journal

/-! ## Keys -/

theorem intercalate_append {sep : Text} {front back : List Text} (hfront : front ≠ [])
    (hback : back ≠ []) :
    sep.intercalate (front ++ back) = sep.intercalate front ++ sep ++ sep.intercalate back := by
  induction front with
  | nil => exact absurd rfl hfront
  | cons part front ih =>
    cases front with
    | nil => rw [List.singleton_append, List.intercalate_cons_of_ne_nil hback,
        List.intercalate_singleton]
    | cons next front =>
      have hnext : next :: front ≠ [] := List.cons_ne_nil next front
      rw [List.cons_append, List.intercalate_cons_of_ne_nil (by simp), ih hnext,
        List.intercalate_cons_of_ne_nil hnext]
      simp only [List.append_assoc]

/-- The key itself, and every key it lies below. -/
theorem mem_resourceKeyAndAncestors {key folder : Text} :
    folder ∈ resourceKeyAndAncestors key ↔ folder = key ∨ PathBelow folder key := by
  unfold resourceKeyAndAncestors
  simp only [List.mem_map, List.mem_range]
  constructor
  · rintro ⟨index, hindex, rfl⟩
    have hkey : key = ['/'].intercalate
        ((key.splitOn '/').take (index + 1) ++ (key.splitOn '/').drop (index + 1)) := by
      rw [List.take_append_drop, List.intercalate_splitOn]
    by_cases hdrop : (key.splitOn '/').drop (index + 1) = []
    · left
      rw [hdrop, List.append_nil] at hkey
      exact hkey.symm
    · right
      have htake : (key.splitOn '/').take (index + 1) ≠ [] := by
        rw [ne_eq, List.take_eq_nil_iff]
        simp
      rw [intercalate_append htake hdrop, List.append_assoc, List.singleton_append] at hkey
      exact ⟨_, hkey⟩
  · rintro (rfl | ⟨rest, rfl⟩)
    · have hpos := List.length_pos_iff.2 (List.splitOn_ne_nil '/' folder)
      refine ⟨(folder.splitOn '/').length - 1, by omega, ?_⟩
      rw [Nat.sub_add_cancel hpos, List.take_length, List.intercalate_splitOn]
    · have hpos := List.length_pos_iff.2 (List.splitOn_ne_nil '/' folder)
      refine ⟨(folder.splitOn '/').length - 1, ?_, ?_⟩
      · rw [List.splitOn_append_cons_self, List.length_append]
        omega
      · rw [List.splitOn_append_cons_self, Nat.sub_add_cancel hpos, List.take_left,
          List.intercalate_splitOn]

theorem OwnerResource.isOwnerKey {key : Text} (h : OwnerResource key) : isOwnerKey key = true := by
  obtain ⟨owner, hne, hslash, rfl | ⟨storageKey, rfl⟩⟩ := h
  · have hsplit : owner.splitOn '/' = [owner] := List.splitOn_eq_singleton hslash
    have hdrop : (ownerScheme ++ owner).drop ownerScheme.length = owner := List.drop_left
    have hstart : ownerScheme.isPrefixOf (ownerScheme ++ owner) = true :=
      List.isPrefixOf_iff_prefix.2 (List.prefix_append _ _)
    simp [Journal.isOwnerKey, ownerOfResourceKey, ownerResourceKey, hstart, hdrop, hsplit, hne]
  · have hsplit : (owner ++ '/' :: storageKey).splitOn '/' = owner :: storageKey.splitOn '/' :=
      List.splitOn_append_cons_self_of_not_mem hslash storageKey
    have hkey : storagePathResourceKey owner storageKey =
        ownerScheme ++ (owner ++ '/' :: storageKey) := List.append_assoc _ _ _
    have hdrop : (ownerScheme ++ (owner ++ '/' :: storageKey)).drop ownerScheme.length =
        owner ++ '/' :: storageKey := List.drop_left
    have hstart : ownerScheme.isPrefixOf (ownerScheme ++ (owner ++ '/' :: storageKey)) = true :=
      List.isPrefixOf_iff_prefix.2 (List.prefix_append _ _)
    simp [Journal.isOwnerKey, ownerOfResourceKey, hkey, hstart, hdrop, hsplit, hne]

theorem Overlap.symm {key key' : Text} (h : Overlap key key') : Overlap key' key := by
  rcases h with h | h | h
  · exact .inl h.symm
  · exact .inr (.inr h)
  · exact .inr (.inl h)

/-! ## Acquiring -/

/-- Resources that were granted overlap no active one of another mutation. -/
theorem acquire_noOverlap {resources : List Resource} {keys : List Text} {self : Text}
    (h : acquireStorageMutationResources resources keys self = .ok ()) {key : Text}
    (hkey : key ∈ keys) (howner : OwnerResource key) {r : Resource} (hr : r ∈ resources)
    (hactive : r.active = true) (hself : r.mutationId ≠ self) : ¬ Overlap key r.resourceKey := by
  unfold acquireStorageMutationResources at h
  split at h
  · rename_i hnil
    rw [hnil] at hkey
    cases hkey
  simp only at h
  split at h
  · cases h
  unfold assertNoOverlappingOwnerResources at h
  split at h
  · cases h
  rename_i hnone
  have hnot := List.find?_eq_none.1 hnone r hr
  have hrequested : key ∈ keys.filter isOwnerKey := List.mem_filter.2 ⟨hkey, howner.isOwnerKey⟩
  intro hoverlap
  apply hnot
  unfold overlapping
  simp only [hactive, hself, Bool.true_and, Bool.and_eq_true, Bool.or_eq_true, decide_eq_true_eq,
    ne_eq, not_false_eq_true, true_and, List.contains_iff_mem, List.mem_flatMap, List.any_eq_true]
  rcases hoverlap with heq | ⟨rest, hbelow⟩ | habove
  · exact .inl ⟨key, hrequested, mem_resourceKeyAndAncestors.2 (.inl heq.symm)⟩
  · refine .inr ⟨key, hrequested, List.isPrefixOf_iff_prefix.2 ⟨rest, ?_⟩⟩
    rw [hbelow, List.append_assoc, List.singleton_append]
  · exact .inl ⟨key, hrequested, mem_resourceKeyAndAncestors.2 (.inr habove)⟩

/-- Nothing is granted while someone holds the global resource. -/
theorem acquire_alone {resources : List Resource} {keys : List Text} {self id : Text}
    (h : acquireStorageMutationResources resources keys self = .ok ())
    (hglobal : HoldsIn resources id globalRecovery) : keys = [] := by
  obtain ⟨r, hr, hactive, -, hkey⟩ := hglobal
  unfold acquireStorageMutationResources at h
  split at h
  · assumption
  simp only at h
  split at h
  · cases h
  rename_i hnone
  have := List.find?_eq_none.1 hnone r hr
  simp [hactive, hkey] at this

/-! ## Rows -/

theorem holdsIn_append {resources more : List Resource} {id key : Text} :
    HoldsIn (resources ++ more) id key ↔ HoldsIn resources id key ∨ HoldsIn more id key := by
  unfold HoldsIn
  simp only [List.mem_append, or_and_right, exists_or]

theorem holdsIn_refence {resources : List Resource} {id id' key : Text} {token : Nat} :
    HoldsIn (refence resources id token) id' key ↔ HoldsIn resources id' key := by
  unfold HoldsIn refence
  simp only [List.mem_map]
  constructor
  · rintro ⟨_, ⟨r, hr, rfl⟩, hactive, hid, hkey⟩
    refine ⟨r, hr, ?_⟩
    split at hactive <;> simp_all [Resource.active]
  · rintro ⟨r, hr, hactive, hid, hkey⟩
    refine ⟨_, ⟨r, hr, rfl⟩, ?_⟩
    split <;> simp_all [Resource.active]

theorem holdsIn_release {resources : List Resource} {id id' key : Text} {now : Nat} :
    HoldsIn (release resources id now) id' key ↔ HoldsIn resources id' key ∧ id' ≠ id := by
  unfold HoldsIn release
  simp only [List.mem_map]
  constructor
  · rintro ⟨_, ⟨r, hr, rfl⟩, hactive, hid, hkey⟩
    split at hactive
    · simp [Resource.active] at hactive
    · rename_i hnot
      rw [if_neg hnot] at hid hkey
      refine ⟨⟨r, hr, hactive, hid, hkey⟩, ?_⟩
      rintro rfl
      simp [hid, hactive] at hnot
  · rintro ⟨⟨r, hr, hactive, hid, hkey⟩, hne⟩
    refine ⟨_, ⟨r, hr, rfl⟩, ?_⟩
    rw [if_neg (by simp [hid, hne])]
    exact ⟨hactive, hid, hkey⟩

theorem holdsIn_fresh {keys : List Text} {id id' key : Text} {token : Nat}
    (h : HoldsIn (keys.map fun key => (⟨key, id, token, none⟩ : Resource)) id' key) :
    id' = id ∧ key ∈ keys := by
  obtain ⟨r, hr, -, hid, hkey⟩ := h
  obtain ⟨k, hk, rfl⟩ := List.mem_map.1 hr
  exact ⟨hid.symm, hkey ▸ hk⟩

theorem holdsIn_missing {resources : List Resource} {keys : List Text} {id id' key : Text}
    {token : Nat} (h : HoldsIn (missing resources keys id token) id' key) :
    id' = id ∧ key ∈ keys := by
  obtain ⟨hid, hkey⟩ := holdsIn_fresh h
  exact ⟨hid, (List.mem_filter.1 hkey).1⟩

/-- A statement gives nobody a resource, and takes them from its own mutation only. -/
theorem holdsIn_settle {a : Act} {resources : List Resource} {id id' key : Text} {now : Nat}
    (h : HoldsIn (a.settle id now resources) id' key) : HoldsIn resources id' key := by
  unfold Act.settle at h
  split at h
  · exact holdsIn_refence.1 h
  · exact (holdsIn_release.1 h).1
  · exact (holdsIn_release.1 h).1
  · exact (holdsIn_release.1 h).1
  · exact h

theorem holdsIn_settle_other {a : Act} {resources : List Resource} {id id' key : Text} {now : Nat}
    (hne : id' ≠ id) (h : HoldsIn resources id' key) :
    HoldsIn (a.settle id now resources) id' key := by
  unfold Act.settle
  split
  · exact holdsIn_refence.2 h
  · exact holdsIn_release.2 ⟨h, hne⟩
  · exact holdsIn_release.2 ⟨h, hne⟩
  · exact holdsIn_release.2 ⟨h, hne⟩
  · exact h

/-! ## Open mutations -/

/-- A mutation that is over has no lease holder any more. -/
def Retired (d : Docket) : Prop :=
  d.row.status = .succeeded ∨ d.row.status = .aborted → d.row.leaseOwner = none

theorem Deed.update_owner {deed : Deed} {row row' : Row} {lease : Lease} {now : Nat}
    (h : deed.update row lease now = some row') : row.leaseOwner = some lease.owner := by
  cases deed <;>
    simp only [Deed.update, Row.renew, Row.assertFence, Row.commit, Row.beginFinalization,
      Row.complete, Row.requireRecovery, Row.abort, Row.fenced, Row.heldBy,
      Option.ite_none_right_eq_some, Bool.and_eq_true, decide_eq_true_eq] at h <;>
    tauto

theorem Deed.update_retired {deed : Deed} {row row' : Row} {lease : Lease} {now : Nat}
    (h : deed.update row lease now = some row') :
    row'.status = row.status ∨ row'.leaseOwner = none ∨
      (row'.status ≠ .succeeded ∧ row'.status ≠ .aborted) := by
  cases deed <;>
    simp only [Deed.update, Row.renew, Row.assertFence, Row.commit, Row.beginFinalization,
      Row.complete, Row.requireRecovery, Row.abort, Option.ite_none_right_eq_some,
      Option.some.injEq] at h <;>
    obtain ⟨-, rfl⟩ := h <;> simp

theorem Retired.open_status {d : Docket} (hd : Retired d) {owner : Text}
    (howner : d.row.leaseOwner = some owner) :
    d.row.status ≠ .succeeded ∧ d.row.status ≠ .aborted := by
  constructor
  · intro hs
    rw [hd (.inl hs)] at howner
    cases howner
  · intro hs
    rw [hd (.inr hs)] at howner
    cases howner

theorem Row.retry_owner {row row' read : Row} {lease : Lease} {now : Nat}
    (h : row.retry read lease now = some row') : row.leaseOwner = some lease.owner := by
  have hheld := (Row.of_retry h).1
  unfold Row.heldBy at hheld
  simp only [Bool.and_eq_true, decide_eq_true_eq] at hheld
  exact hheld.1.1

theorem retryStatus_open (read : Row) :
    retryStatusForMutation read ≠ .succeeded ∧ retryStatusForMutation read ≠ .aborted := by
  unfold retryStatusForMutation
  split
  · simp
  · split <;> simp

theorem Retired.step {d d' : Docket} {s : Statement} {a : Act} (h : Takes d s a d')
    (hd : Retired d) : Retired { d' with log := a :: d'.log } := by
  cases h with
  | claim leaseOwner now row hrow =>
    obtain ⟨-, rfl⟩ := Row.of_claimForward hrow
    rintro (hs | hs) <;> cases hs
  | claimFinalization leaseOwner now row hrow =>
    obtain ⟨-, rfl⟩ := Row.of_claimFinalization hrow
    rintro (hs | hs) <;> cases hs
  | handedOut c hc howner hexpires => exact hd
  | lost c hc => exact hd
  | did hold deed now row hh hrow =>
    obtain ⟨hsucceeded, haborted⟩ := hd.open_status (Deed.update_owner hrow)
    intro hs
    rcases Deed.update_retired hrow with heq | hnone | ⟨h1, h2⟩
    · rw [show row.status = d.row.status from heq] at hs
      exact (hs.elim hsucceeded haborted).elim
    · exact hnone
    · exact (hs.elim h1 h2).elim
  | retryRead hold hh => exact hd
  | retried r now row hr hrow =>
    obtain ⟨-, -, hstatus, -⟩ := Row.of_retry hrow
    obtain ⟨h1, h2⟩ := retryStatus_open r.read
    intro hs
    rw [show row.status = _ from hstatus] at hs
    exact (hs.elim h1 h2).elim
  | retriedNow now row hrow =>
    obtain rfl := Row.of_retryNow hrow
    exact hd

/-- The commit stamp stays. -/
theorem Takes.isSome {d d' : Docket} {s : Statement} {a : Act} (h : Takes d s a d')
    (hsome : d.row.metadataCommittedAt.isSome) : d'.row.metadataCommittedAt.isSome := by
  cases h with
  | claim leaseOwner now row hrow =>
    obtain ⟨-, rfl⟩ := Row.of_claimForward hrow
    exact hsome
  | claimFinalization leaseOwner now row hrow =>
    obtain ⟨-, rfl⟩ := Row.of_claimFinalization hrow
    exact hsome
  | did hold deed now row hh hrow => exact (Deed.of_update hrow).2.2.isSome hsome
  | retried r now row hr hrow =>
    obtain ⟨-, -, -, hstamp⟩ := Row.of_retry hrow
    exact hstamp ▸ hsome
  | retriedNow now row hrow =>
    obtain rfl := Row.of_retryNow hrow
    exact hsome
  | handedOut c hc howner hexpires => exact hsome
  | lost c hc => exact hsome
  | retryRead hold hh => exact hsome

/-- A mutation that is no longer open stays so. -/
theorem Takes.open_before {d d' : Docket} {s : Statement} {a : Act} (h : Takes d s a d')
    (hd : Retired d) (hopen : d'.Open) : d.Open := by
  have hstamp : d.row.metadataCommittedAt = none := by
    cases hsome : d.row.metadataCommittedAt with
    | none => rfl
    | some t =>
      have := h.isSome (by simp [hsome])
      simp [hopen.1] at this
  refine ⟨hstamp, ?_, ?_⟩ <;> intro hs <;> cases h with
  | claim leaseOwner now row hrow =>
    obtain ⟨hstatus, -⟩ := Row.of_claimForward hrow
    simp [hs] at hstatus
  | claimFinalization leaseOwner now row hrow =>
    obtain ⟨hstatus, -⟩ := Row.of_claimFinalization hrow
    simp [hs] at hstatus
  | did hold deed now row hh hrow =>
    obtain ⟨h1, h2⟩ := hd.open_status (Deed.update_owner hrow)
    simp_all
  | retried r now row hr hrow =>
    obtain ⟨h1, h2⟩ := hd.open_status (Row.retry_owner hrow)
    simp_all
  | retriedNow now row hrow =>
    obtain rfl := Row.of_retryNow hrow
    exact absurd hs (by first | exact hopen.2.1 | exact hopen.2.2)
  | handedOut c hc howner hexpires =>
    exact absurd hs (by first | exact hopen.2.1 | exact hopen.2.2)
  | lost c hc => exact absurd hs (by first | exact hopen.2.1 | exact hopen.2.2)
  | retryRead hold hh => exact absurd hs (by first | exact hopen.2.1 | exact hopen.2.2)

/-- While a mutation is open its resources stay with it. -/
theorem Takes.holds_open {d d' : Docket} {s : Statement} {a : Act} (h : Takes d s a d')
    (hstamped : StampedStatus d) (hopen : d'.Open) {resources : List Resource} {id key : Text}
    {now : Nat} (hholds : HoldsIn resources id key) :
    HoldsIn (a.settle id now resources) id key := by
  cases h with
  | claim leaseOwner now row hrow => exact holdsIn_refence.2 hholds
  | did hold deed now row hh hrow =>
    cases deed with
    | beginFinalization =>
      -- its status follows a commit
      exfalso
      obtain ⟨-, -, heffect⟩ := Deed.of_update hrow
      have hstatus : FollowsCommit d.row := by
        simp only [Deed.update, Row.beginFinalization, Option.ite_none_right_eq_some,
          Bool.and_eq_true, decide_eq_true_eq] at hrow
        exact .inl hrow.1.2
      have hsome := heffect.isSome (hstamped.row hstatus)
      rw [show row.metadataCommittedAt = none from hopen.1] at hsome
      cases hsome
    | complete =>
      simp only [Deed.update, Row.complete, Option.ite_none_right_eq_some, Option.some.injEq]
        at hrow
      obtain ⟨-, rfl⟩ := hrow
      exact absurd rfl hopen.2.2
    | abort =>
      simp only [Deed.update, Row.abort, Option.ite_none_right_eq_some, Option.some.injEq]
        at hrow
      obtain ⟨-, rfl⟩ := hrow
      exact absurd rfl hopen.2.1
    | renew => exact hholds
    | markApplied stepId => exact hholds
    | markFailed => exact hholds
    | commit => exact hholds
    | requireRecovery => exact hholds
  | claimFinalization leaseOwner now row hrow => exact hholds
  | handedOut c hc howner hexpires => exact hholds
  | lost c hc => exact hholds
  | retryRead hold hh => exact hholds
  | retried r now row hr hrow => exact hholds
  | retriedNow now row hrow => exact hholds

/-- A claim for the cleanup finds a commit. -/
theorem Takes.leaves_stamped {d d' : Docket} {s : Statement} {a : Act} (h : Takes d s a d')
    (hstamped : StampedStatus d) {id : Text} {now : Nat} {p : Releasing}
    (hp : p ∈ a.leaves id now) : p.mutationId = id ∧ d'.row.metadataCommittedAt.isSome := by
  cases h with
  | claimFinalization leaseOwner now row hrow =>
    rw [List.mem_singleton.1 hp]
    obtain ⟨hfollows, rfl⟩ := Row.of_claimFinalization hrow
    exact ⟨rfl, hstamped.row hfollows⟩
  | _ => cases hp

/-! ## The ledger -/

/-- Owner resources of different mutations do not overlap. -/
def ExclusiveIn (resources : List Resource) : Prop :=
  ∀ id id' key key', id ≠ id' → HoldsIn resources id key → HoldsIn resources id' key' →
    OwnerResource key → OwnerResource key' → ¬ Overlap key key'

structure LedgerInv (l : Ledger) : Prop where
  exclusive : ExclusiveIn l.resources
  named : ∀ id key, l.Holds id key → id ≠ []
  dockets : ∀ id d, l.dockets id = some d → id ≠ [] ∧ StampedStatus d ∧ Retired d
  releasing : ∀ p ∈ l.releasing,
    ∃ d, l.dockets p.mutationId = some d ∧ d.row.metadataCommittedAt.isSome
  kept : ∀ id d, l.dockets id = some d → d.Open → ∀ key ∈ l.preparedWith id, l.Holds id key

theorem ExclusiveIn.mono {resources resources' : List Resource} (h : ExclusiveIn resources)
    (hsub : ∀ id key, HoldsIn resources' id key → HoldsIn resources id key) :
    ExclusiveIn resources' := by
  intro id id' key key' hne hkey hkey'
  exact h id id' key key' hne (hsub id key hkey) (hsub id' key' hkey')

/-- Rows for keys that were granted to `id`. -/
theorem ExclusiveIn.append {resources more : List Resource} {keys : List Text} {self : Text}
    (h : ExclusiveIn resources) (id : Text)
    (hgranted : acquireStorageMutationResources resources keys self = .ok ())
    (hself : ∀ id' key, id' ≠ id → HoldsIn resources id' key → id' ≠ self)
    (hmore : ∀ id' key, HoldsIn more id' key → id' = id ∧ key ∈ keys) :
    ExclusiveIn (resources ++ more) := by
  have hnew : ∀ id' key key', id' ≠ id → key ∈ keys → HoldsIn resources id' key' →
      OwnerResource key → ¬ Overlap key key' := by
    intro id' key key' hne hkey hholds howner
    have hself' := hself id' key' hne hholds
    obtain ⟨r, hr, hactive, rfl, rfl⟩ := hholds
    exact acquire_noOverlap hgranted hkey howner hr hactive hself'
  intro a b key key' hne hkey hkey' howner howner'
  rcases holdsIn_append.1 hkey with hkey | hkey <;> rcases holdsIn_append.1 hkey' with hkey' | hkey'
  · exact h a b key key' hne hkey hkey' howner howner'
  · obtain ⟨rfl, hmem⟩ := hmore b key' hkey'
    exact fun ho => hnew a key' key hne hmem hkey howner' ho.symm
  · obtain ⟨rfl, hmem⟩ := hmore a key hkey
    exact hnew b key key' hne.symm hmem hkey' howner
  · obtain ⟨rfl, -⟩ := hmore a key hkey
    obtain ⟨rfl, -⟩ := hmore b key' hkey'
    exact absurd rfl hne

theorem LedgerInv.statement {l : Ledger} (hl : LedgerInv l) (id : Text) (s : Statement) :
    LedgerInv (l.statement id s) := by
  unfold Ledger.statement
  split
  · exact hl
  rename_i d hdocket
  split
  · exact hl
  rename_i a d' hact
  have htakes := takes_of_act hact
  obtain ⟨hid, hstamped, hretired⟩ := hl.dockets id d hdocket
  refine ⟨?_, ?_, ?_, ?_, ?_⟩
  · exact hl.exclusive.mono fun _ _ => holdsIn_settle
  · intro id' key hholds
    exact hl.named id' key (holdsIn_settle hholds)
  · intro id' e he
    by_cases heq : id' = id
    · subst heq
      simp only [Function.update_self, Option.some.injEq] at he
      subst he
      exact ⟨hid, hstamped.step htakes, hretired.step htakes⟩
    · simp only [Function.update_of_ne heq] at he
      exact hl.dockets id' e he
  · intro p hp
    rcases List.mem_append.1 hp with hp | hp
    · obtain ⟨heq, hsome⟩ := htakes.leaves_stamped hstamped hp
      rw [heq]
      exact ⟨_, Function.update_self .., hsome⟩
    · obtain ⟨e, he, hsome⟩ := hl.releasing p hp
      by_cases heq : p.mutationId = id
      · rw [heq] at he ⊢
        rw [hdocket] at he
        cases he
        exact ⟨_, Function.update_self .., htakes.isSome hsome⟩
      · exact ⟨e, by simp only [Function.update_of_ne heq]; exact he, hsome⟩
  · intro id' e he hopen key hkey
    by_cases heq : id' = id
    · subst heq
      simp only [Function.update_self, Option.some.injEq] at he
      subst he
      have hopen' : d'.Open := hopen
      have := hl.kept id' d hdocket (htakes.open_before hretired hopen') key hkey
      exact htakes.holds_open hstamped hopen' this
    · simp only [Function.update_of_ne heq] at he
      exact holdsIn_settle_other heq (hl.kept id' e he hopen key hkey)

/-- What a prepare that goes through has checked, and what it leaves. -/
theorem Ledger.of_prepare {l l' : Ledger} {input : PrepareInput} (h : l.prepare input = .ok l') :
    ∃ keys, acquireStorageMutationResources l.resources keys [] = .ok () ∧
      l.dockets input.id = none ∧
      l' =
        { l with
          dockets := Function.update l.dockets input.id (some Docket.prepared)
          preparedWith := Function.update l.preparedWith input.id keys
          resources := l.resources ++ keys.map fun key => ⟨key, input.id, 0, none⟩ } := by
  unfold Ledger.prepare at h
  dsimp only at h
  generalize (input.resourceKeys.getD (deriveStorageMutationResourceKeys input)).dedup = keys at h
  cases hgranted : acquireStorageMutationResources l.resources keys [] with
  | error e =>
    rw [hgranted] at h
    cases h
  | ok u =>
    rw [hgranted] at h
    have h' : (if (l.dockets input.id).isSome then _ else _) = Except.ok l' := h
    split at h'
    · cases h'
    rename_i hnew
    split at h'
    · cases h'
    cases h'
    refine ⟨keys, hgranted, ?_, rfl⟩
    simpa using hnew

theorem LedgerInv.prepare {l l' : Ledger} (hl : LedgerInv l) {input : PrepareInput}
    (h : l.prepare input = .ok l') : LedgerInv l' := by
  obtain ⟨keys, hgranted, hnew, rfl⟩ := Ledger.of_prepare h
  have hfresh : ∀ id' d, l.dockets id' = some d → id' ≠ input.id := by
    rintro id' d hd rfl
    rw [hnew] at hd
    cases hd
  refine ⟨?_, ?_, ?_, ?_, ?_⟩
  · refine hl.exclusive.append input.id hgranted ?_ fun _ _ => holdsIn_fresh
    intro id' key _ hholds
    exact hl.named id' key hholds
  · intro id' key hholds
    rcases holdsIn_append.1 hholds with hholds | hholds
    · exact hl.named id' key hholds
    · rw [(holdsIn_fresh hholds).1]
      exact input.named
  · intro id' d hd
    by_cases heq : id' = input.id
    · subst heq
      simp only [Function.update_self, Option.some.injEq] at hd
      subst hd
      refine ⟨input.named, stamped_prepared, ?_⟩
      rintro (hs | hs) <;> cases hs
    · simp only [Function.update_of_ne heq] at hd
      exact hl.dockets id' d hd
  · intro p hp
    obtain ⟨d, hd, hsome⟩ := hl.releasing p hp
    refine ⟨d, ?_, hsome⟩
    simp only [Function.update_of_ne (hfresh _ d hd)]
    exact hd
  · intro id' d hd hopen key hkey
    by_cases heq : id' = input.id
    · subst heq
      simp only [Function.update_self] at hkey
      refine holdsIn_append.2 (.inr ⟨⟨key, input.id, 0, none⟩, ?_, rfl, rfl, rfl⟩)
      exact List.mem_map.2 ⟨key, hkey, rfl⟩
    · simp only [Function.update_of_ne heq] at hd hkey
      exact holdsIn_append.2 (.inl (hl.kept id' d hd hopen key hkey))

/-- What a claim that goes through has checked, and what it leaves. -/
theorem Ledger.of_claim {l l' : Ledger} {id leaseOwner : Text} {now : Nat} {keys : List Text}
    (h : l.claim id leaseOwner now keys = .ok l') :
    l' = l ∨ ∃ d token, l.dockets id = some d ∧
      acquireStorageMutationResources l.resources keys.dedup id = .ok () ∧
      l' = { l with resources := l.resources ++ missing l.resources keys.dedup id token }.statement
        id (.claim leaseOwner now) := by
  unfold Ledger.claim at h
  dsimp only at h
  cases hgranted : acquireStorageMutationResources l.resources keys.dedup id with
  | error e =>
    rw [hgranted] at h
    cases h
  | ok u =>
    rw [hgranted] at h
    have h' : (if _ then _ else _) = Except.ok l' := h
    split at h'
    · cases h'
      exact .inl rfl
    cases hdocket : l.dockets id with
    | none =>
      simp only [hdocket, Option.bind_none] at h'
      cases h'
      exact .inl rfl
    | some d =>
      simp only [hdocket, Option.bind_some] at h'
      cases hrow : d.row.claimForward leaseOwner now with
      | none =>
        simp only [hrow] at h'
        cases h'
        exact .inl rfl
      | some row =>
        simp only [hrow] at h'
        cases h'
        exact .inr ⟨d, row.leaseToken, rfl, rfl, rfl⟩

theorem LedgerInv.claim {l l' : Ledger} (hl : LedgerInv l) {id leaseOwner : Text} {now : Nat}
    {keys : List Text} (h : l.claim id leaseOwner now keys = .ok l') : LedgerInv l' := by
  obtain rfl | ⟨d, token, hdocket, hgranted, rfl⟩ := Ledger.of_claim h
  · exact hl
  · apply LedgerInv.statement
    refine ⟨?_, ?_, hl.dockets, hl.releasing, ?_⟩
    · exact hl.exclusive.append id hgranted (fun _ _ hne _ => hne) fun _ _ => holdsIn_missing
    · intro id' key hholds
      rcases holdsIn_append.1 hholds with hholds | hholds
      · exact hl.named id' key hholds
      · rw [(holdsIn_missing hholds).1]
        exact (hl.dockets id d hdocket).1
    · intro id' e he hopen key hkey
      exact holdsIn_append.2 (.inl (hl.kept id' e he hopen key hkey))

theorem LedgerInv.release {l : Ledger} (hl : LedgerInv l) {p : Releasing} (hp : p ∈ l.releasing) :
    LedgerInv { l with
      resources := Journal.release (refence l.resources p.mutationId p.token) p.mutationId p.now
      releasing := l.releasing.erase p } := by
  have hsub : ∀ id key, HoldsIn (Journal.release (refence l.resources p.mutationId p.token)
      p.mutationId p.now) id key → HoldsIn l.resources id key := by
    intro id key hholds
    exact holdsIn_refence.1 (holdsIn_release.1 hholds).1
  refine ⟨hl.exclusive.mono hsub, ?_, hl.dockets, ?_, ?_⟩
  · intro id key hholds
    exact hl.named id key (hsub id key hholds)
  · intro q hq
    exact hl.releasing q (List.mem_of_mem_erase hq)
  · intro id d hd hopen key hkey
    obtain ⟨e, he, hsome⟩ := hl.releasing p hp
    refine holdsIn_release.2 ⟨holdsIn_refence.2 (hl.kept id d hd hopen key hkey), ?_⟩
    rintro rfl
    rw [he] at hd
    cases hd
    simp [hopen.1] at hsome

theorem LedgerInv.step {l : Ledger} (hl : LedgerInv l) (e : LedgerEvent) : LedgerInv (l.step e) := by
  cases e with
  | prepare input =>
    simp only [Ledger.step]
    split
    · rename_i l' h
      exact hl.prepare h
    · exact hl
  | claim id leaseOwner now keys =>
    simp only [Ledger.step]
    split
    · rename_i l' h
      exact hl.claim h
    · exact hl
  | statement id s => exact hl.statement id s
  | release p =>
    simp only [Ledger.step]
    split
    · rename_i hp
      exact hl.release hp
    · exact hl

theorem LedgerInv.run {l : Ledger} (hl : LedgerInv l) (events : List LedgerEvent) :
    LedgerInv (l.run events) := by
  induction events generalizing l with
  | nil => exact hl
  | cons e rest ih => exact ih (hl.step e)

theorem ledgerInv_empty : LedgerInv Ledger.empty := by
  refine ⟨?_, ?_, ?_, ?_, ?_⟩
  · rintro id id' key key' - ⟨r, hr, -⟩
    cases hr
  · rintro id key ⟨r, hr, -⟩
    cases hr
  · intro id d hd
    cases hd
  · intro p hp
    cases hp
  · intro id d hd
    cases hd

theorem holds_statement {l : Ledger} {id id' key : Text} {s : Statement}
    (h : (l.statement id s).Holds id' key) : l.Holds id' key := by
  unfold Ledger.statement at h
  split at h
  · exact h
  split at h
  · exact h
  · exact holdsIn_settle h

/-- While one mutation holds the global resource, no step gives anything to anyone. -/
theorem holds_step_alone {l : Ledger} {id : Text} (hglobal : l.Holds id globalRecovery)
    {e : LedgerEvent} {id' key : Text} (h : (l.step e).Holds id' key) : l.Holds id' key := by
  cases e with
  | prepare input =>
    simp only [Ledger.step] at h
    split at h
    · rename_i l' hprepare
      obtain ⟨keys, hgranted, -, rfl⟩ := Ledger.of_prepare hprepare
      obtain rfl := acquire_alone hgranted hglobal
      exact (holdsIn_append.1 h).resolve_right fun hnil => absurd (holdsIn_fresh hnil).2 (by simp)
    · exact h
  | claim id₁ leaseOwner now keys =>
    simp only [Ledger.step] at h
    split at h
    · rename_i l' hclaim
      obtain rfl | ⟨d, token, -, hgranted, rfl⟩ := Ledger.of_claim hclaim
      · exact h
      · rw [acquire_alone hgranted hglobal] at h
        exact (holdsIn_append.1 (holds_statement h)).resolve_right
          fun hnil => absurd (holdsIn_missing hnil).2 (by simp)
    · exact h
  | statement id₁ s => exact holds_statement h
  | release p =>
    simp only [Ledger.step] at h
    split at h
    · exact holdsIn_refence.1 (holdsIn_release.1 h).1
    · exact h

/-- In every state the journal can reach, by any interleaving, resources exclude each other and stay
with the mutation they were prepared for. -/
theorem run_excludes (events : List LedgerEvent) : Excludes (Ledger.empty.run events) := by
  have hl := ledgerInv_empty.run events
  refine ⟨hl.exclusive, ?_, hl.kept⟩
  intro id hglobal e id' key _ h
  exact holds_step_alone hglobal h

end Staaash.Journal
