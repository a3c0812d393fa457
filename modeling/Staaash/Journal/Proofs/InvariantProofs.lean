import Staaash.Journal.Guarantees
import Staaash.Journal.Proofs.CleanupProofs

/-!
# Proofs: the invariant of a run

The control flow of the executor is gone through once. What a proof wants to know about the tree is
a parameter, `Account`: predicates on the tree by the number of steps that are recorded, with the
laws that the single steps have to obey.
-/

namespace Staaash.Journal

open Staaash.Library (Proc Stop)
open Staaash.Library.Proc

/-! ## Recorded steps -/

/-- Of the steps `l` exactly the first `k` are among `ids`. -/
def Marked (l : List Step) (k : Nat) (ids : List Nat) : Prop :=
  k ≤ l.length ∧ ∀ i s, l[i]? = some s → (s.id ∈ ids ↔ i < k)

theorem Marked.unique {l : List Step} {j k : Nat} {ids : List Nat} (hj : Marked l j ids)
    (hk : Marked l k ids) : j = k := by
  by_contra hne
  rcases Nat.lt_or_gt_of_ne hne with h | h
  · have hs := List.getElem?_eq_getElem (Nat.lt_of_lt_of_le h hk.1)
    exact absurd ((hj.2 j _ hs).mp ((hk.2 j _ hs).mpr h)) (Nat.lt_irrefl j)
  · have hs := List.getElem?_eq_getElem (Nat.lt_of_lt_of_le h hj.1)
    exact absurd ((hk.2 k _ hs).mp ((hj.2 k _ hs).mpr h)) (Nat.lt_irrefl k)

theorem marked_nil (l : List Step) : Marked l 0 [] :=
  ⟨Nat.zero_le _, fun _ _ _ => by simp⟩

/-- Recording the next step. -/
theorem Marked.cons {l : List Step} {k : Nat} {ids : List Nat} {s : Step}
    (hl : (l.map Step.id).Nodup) (h : Marked l k ids) (hs : l[k]? = some s) :
    Marked l (k + 1) (s.id :: ids) := by
  obtain ⟨hk, -⟩ := List.getElem?_eq_some_iff.mp hs
  refine ⟨hk, fun i t ht => ?_⟩
  rw [List.mem_cons, h.2 i t ht]
  constructor
  · rintro (he | hi)
    · have hmap : (l.map Step.id)[i]? = (l.map Step.id)[k]? := by
        rw [List.getElem?_map, List.getElem?_map, ht, hs]
        exact congrArg some he
      obtain ⟨hi, -⟩ := List.getElem?_eq_some_iff.mp ht
      have := (List.getElem?_inj (by simpa using hi) hl).mp hmap
      omega
    · omega
  · intro hi
    by_cases he : i = k
    · subst he
      rw [hs] at ht
      obtain rfl := Option.some.inj ht
      exact Or.inl rfl
    · exact Or.inr (by omega)

/-- Recording a step of another list. -/
theorem Marked.cons_other {l : List Step} {k id : Nat} {ids : List Nat} (h : Marked l k ids)
    (hid : id ∉ l.map Step.id) : Marked l k (id :: ids) := by
  refine ⟨h.1, fun i s hs => ?_⟩
  have hne : s.id ≠ id := by
    intro he
    exact hid (he ▸ List.mem_map_of_mem (List.mem_of_getElem? hs))
  rw [List.mem_cons, h.2 i s hs]
  exact ⟨fun h => h.resolve_left hne, Or.inr⟩

variable {m : Mutation}

theorem nodup_forward : (m.forward.map Step.id).Nodup :=
  m.distinct.sublist (List.filter_sublist.map _)

theorem nodup_cleanup : (m.cleanup.map Step.id).Nodup :=
  m.distinct.sublist (List.filter_sublist.map _)

theorem eq_of_id_eq {s t : Step} (hs : s ∈ m.steps) (ht : t ∈ m.steps) (h : s.id = t.id) : s = t :=
  List.inj_on_of_nodup_map m.distinct hs ht h

theorem id_not_mem_cleanup {s : Step} (hs : s ∈ m.forward) : s.id ∉ m.cleanup.map Step.id := by
  intro h
  obtain ⟨t, ht, he⟩ := List.mem_map.mp h
  obtain ⟨hs1, hs2⟩ := List.mem_filter.mp hs
  obtain ⟨ht1, ht2⟩ := List.mem_filter.mp ht
  rw [eq_of_id_eq ht1 hs1 he] at ht2
  rw [ht2] at hs2
  cases hs2

theorem id_not_mem_forward {s : Step} (hs : s ∈ m.cleanup) : s.id ∉ m.forward.map Step.id := by
  intro h
  obtain ⟨t, ht, he⟩ := List.mem_map.mp h
  obtain ⟨hs1, hs2⟩ := List.mem_filter.mp hs
  obtain ⟨ht1, ht2⟩ := List.mem_filter.mp ht
  rw [eq_of_id_eq ht1 hs1 he, hs2] at ht2
  cases ht2

/-! ## Accounts of the tree -/

/-- An event that no account has to look at. -/
def Event.isNote : Event → Bool
  | .committed | .aborted | .completed | .rollback _ | .changed .undo _ => false
  | _ => true

/-- What is kept track of about the tree. -/
structure Account where
  /-- The condition on the log under which the rest is claimed. -/
  cond : Log → Prop
  /-- What is to be shown of the log. -/
  good : Log → Prop
  /-- The first `k` forward steps have had their effect, and nothing else. -/
  settled : Nat → Fs → Prop
  /-- The same, with the next step possibly under way. -/
  mid : Nat → Fs → Prop
  /-- A rollback that started on `X` with `k` steps has `i` of them left to undo. -/
  undoing : Fs → Nat → Nat → Fs → Prop
  /-- All forward steps and `c` cleanup steps have had their effect, the next possibly in part. -/
  sweeping : Nat → Fs → Prop

variable {T : Account} {H : Host}

/-- The laws of an account of the mutation `m`. -/
structure Account.Laws (T : Account) (H : Host) (m : Mutation) : Prop where
  cond_tail : ∀ {e log}, T.cond (e :: log) → T.cond log
  mid_of_settled : ∀ {k fs}, T.settled k fs → T.mid k fs
  settled_of_mid : ∀ {fs}, T.mid m.forward.length fs → T.settled m.forward.length fs
  mid_between : ∀ {k s X fs}, m.forward[k]? = some s → T.mid k X → Between H s X fs → T.mid k fs
  settled_effect : ∀ {k s X fs}, m.forward[k]? = some s → T.mid k X → effectOf H s X = some fs →
    T.settled (k + 1) fs
  undo_start : ∀ {k memory X log}, T.cond ((.rollback memory, X) :: log) →
    Marked m.forward k memory → T.mid k X → T.undoing X k k X
  undo_mid : ∀ {X k i j fs}, k ≤ j → T.undoing X k i fs → T.mid j X → T.mid j fs
  undo_settled : ∀ {X k i j fs}, k ≤ j → T.undoing X k i fs → T.settled j X → T.settled j fs
  undo_change : ∀ {X Y k i s op fs log}, T.cond ((.changed .undo op, fs) :: log) →
    m.forward[i]? = some s → T.undoing X k (i + 1) Y → UndoBetween H s Y fs →
    T.undoing X k (i + 1) fs
  undo_done : ∀ {X Y k i s fs}, m.forward[i]? = some s → T.undoing X k (i + 1) Y →
    T.undoing X k (i + 1) fs → UndoOf H s Y fs → T.undoing X k i fs
  sweep_start : ∀ {fs}, T.settled m.forward.length fs → T.sweeping 0 fs
  sweep_between : ∀ {c s X fs}, m.cleanup[c]? = some s → T.sweeping c X →
    Sweeping H s (ownedDelete m s) X fs → T.sweeping c fs
  sweep_done : ∀ {c s X fs}, m.cleanup[c]? = some s → T.sweeping c X →
    Swept H s (ownedDelete m s) X fs → T.sweeping (c + 1) fs
  good_note : ∀ {e fs log}, e.isNote = true → T.good log → T.good ((e, fs) :: log)
  good_commit : ∀ {fs log}, (T.cond log → T.settled m.forward.length fs) → T.good log →
    T.good ((.committed, fs) :: log)
  good_rollback : ∀ {memory fs log}, committed log = false → T.good log →
    T.good ((.rollback memory, fs) :: log)
  good_undo : ∀ {op fs log}, rollingBack log = true → T.good log →
    T.good ((.changed .undo op, fs) :: log)
  good_abort : ∀ {X k fs log}, (T.cond log → T.undoing X k 0 fs) → T.good log →
    T.good ((.aborted, fs) :: log)
  good_complete : ∀ {fs log}, (T.cond log → T.sweeping m.cleanup.length fs) → T.good log →
    T.good ((.completed, fs) :: log)

/-! ## The row -/

/-- The finalization has not begun. -/
def Status.isOpen : Status → Bool
  | .prepared | .running | .retrying | .metadataCommitted => true
  | _ => false

/-- The commit is still to come, going by the status. -/
def Status.isBefore : Status → Bool
  | .prepared | .running | .retrying => true
  | _ => false

/-- What the status says about the commit and about rollbacks. -/
def Legal (row : Row) (log : Log) : Prop :=
  match row.status with
  | .preparing => False
  | .metadataCommitted | .finalizing | .succeeded => row.metadataCommittedAt ≠ none
  | .aborted => rolledBack log = true
  | _ => True

/-- What holds of the row and the commits, in every state. `K` says that nothing but crashes
happens. -/
structure Rows (K : Prop) (w : World) : Prop where
  held : w.row.leaseOwner ≠ none → w.row.status = .running ∨ w.row.status = .metadataCommitted ∨
    w.row.status = .finalizing
  legal : Legal w.row w.log
  logged : committed w.log = true → w.row.metadataCommittedAt ≠ none
  flight : ∀ l, w.inFlight = some l → l.token ≤ w.row.leaseToken
  crashOnly : K → ∀ f ∈ w.schedule, f.crashOnly = true
  once : K → w.row.status.isBefore = true → w.row.metadataCommittedAt = none
  count : K → commits w.log = if w.row.metadataCommittedAt.isSome then 1 else 0

/-- What holds of the tree, in every state between two calls. -/
structure Inv (T : Account) (m : Mutation) (K : Prop) (w : World) : Prop where
  rows : Rows K w
  before : w.row.status.isOpen = true → ∃ k, Marked m.forward k w.applied ∧
    Marked m.cleanup 0 w.applied ∧ (T.cond w.log → T.mid k w.fs)
  all : w.row.status.isOpen = true → w.row.metadataCommittedAt ≠ none →
    Marked m.forward m.forward.length w.applied ∧ (T.cond w.log → T.settled m.forward.length w.fs)
  flight : ∀ l, w.inFlight = some l → l.token = w.row.leaseToken → w.row.status = .running →
    Marked m.forward m.forward.length w.applied ∧ (T.cond w.log → T.settled m.forward.length w.fs)
  after : w.row.status = .finalizing → Marked m.forward m.forward.length w.applied ∧
    ∃ c, Marked m.cleanup c w.applied ∧ (T.cond w.log → T.sweeping c w.fs)
  stuck : w.row.status = .recoveryRequired → T.cond w.log →
    (w.row.metadataCommittedAt = none → ∃ k, T.mid k w.fs) ∧
      (w.row.metadataCommittedAt ≠ none → ∃ c, T.sweeping c w.fs)
  finished : w.row.status = .succeeded → T.cond w.log → T.sweeping m.cleanup.length w.fs
  good : T.good w.log

variable {K : Prop}

theorem Event.ne_committed_of_isNote {e : Event} (h : e.isNote = true) : e ≠ .committed := by
  rintro rfl
  cases h

theorem committed_cons {e : Event} {fs : Fs} {log : Log} (h : e ≠ .committed) :
    committed ((e, fs) :: log) = committed log := by
  unfold committed
  rw [List.any_cons, decide_eq_false h, Bool.false_or]

theorem commits_cons {e : Event} {fs : Fs} {log : Log} (h : e ≠ .committed) :
    commits ((e, fs) :: log) = commits log := by
  unfold commits
  rw [List.countP_cons_of_neg]
  simpa using h

theorem rolledBack_cons {e : Event × Fs} {log : Log} (h : rolledBack log = true) :
    rolledBack (e :: log) = true := by
  unfold rolledBack at h ⊢
  rw [List.any_cons, h, Bool.or_true]

theorem Legal.mono {row row' : Row} {log log' : Log} (h : Legal row log)
    (hs : row'.status = row.status) (hm : row'.metadataCommittedAt = row.metadataCommittedAt)
    (hl : rolledBack log = true → rolledBack log' = true) : Legal row' log' := by
  unfold Legal at h ⊢
  rw [hs, hm]
  cases hst : row.status <;> rw [hst] at h <;> first | exact h | exact hl h

theorem Rows.stamped {w : World} (h : Rows K w)
    (hs : w.row.status = .metadataCommitted ∨ w.row.status = .finalizing) :
    w.row.metadataCommittedAt ≠ none := by
  have hlegal := h.legal
  unfold Legal at hlegal
  rcases hs with hs | hs <;> rw [hs] at hlegal <;> exact hlegal

/-- The log is the same, or has one more entry that is no commit. -/
def LogStep (log log' : Log) : Prop :=
  log' = log ∨ ∃ e fs, e ≠ Event.committed ∧ log' = (e, fs) :: log

/-- The facts about the row do not depend on the tree, on the steps or on the lease's expiry. -/
theorem Rows.of_eq {w w' : World} (h : Rows K w) (hs : w'.row.status = w.row.status)
    (ho : w'.row.leaseOwner = w.row.leaseOwner) (ht : w'.row.leaseToken = w.row.leaseToken)
    (hm : w'.row.metadataCommittedAt = w.row.metadataCommittedAt)
    (hf : w'.inFlight = w.inFlight ∨ w'.inFlight = none)
    (hl : ∀ f ∈ w'.schedule, f ∈ w.schedule) (hlog : LogStep w.log w'.log) : Rows K w' where
  held := by
    rw [hs, ho]
    exact h.held
  legal := by
    refine h.legal.mono hs hm fun hr => ?_
    rcases hlog with he | ⟨e, fs, -, he⟩
    · rwa [he]
    · rw [he]
      exact rolledBack_cons hr
  logged := by
    rw [hm]
    rcases hlog with he | ⟨e, fs, hne, he⟩
    · rw [he]
      exact h.logged
    · rw [he, committed_cons hne]
      exact h.logged
  flight := by
    intro l hfl
    rw [ht]
    rcases hf with hf | hf
    · exact h.flight l (hf ▸ hfl)
    · rw [hf] at hfl
      cases hfl
  crashOnly hK f hmem := h.crashOnly hK f (hl f hmem)
  once := by
    rw [hs, hm]
    exact h.once
  count := by
    rw [hm]
    rcases hlog with he | ⟨e, fs, hne, he⟩
    · rw [he]
      exact h.count
    · rw [he, commits_cons hne]
      exact h.count

/-- An event other than the commit, with a change of the tree or of the records. -/
theorem Rows.emit {w : World} (h : Rows K w) {e : Event} (he : e ≠ .committed) {fs : Fs}
    {applied memory : List Nat} : Rows K ({ w with fs, applied, memory }.emit e) :=
  h.of_eq rfl rfl rfl rfl (Or.inl rfl) (fun _ h => h) (Or.inr ⟨e, fs, he, rfl⟩)

/-- What the attempt has in memory does not matter. -/
theorem Rows.recall {w : World} (h : Rows K w) {memory : List Nat} {timer : Option Lease}
    {leaseFailure : Option Err} : Rows K { w with memory, timer, leaseFailure } :=
  h.of_eq rfl rfl rfl rfl (Or.inl rfl) (fun _ h => h) (Or.inl rfl)

/-- The lease is given up, with a new status. -/
theorem Rows.release {w : World} (h : Rows K w) {e : Event} (he : e ≠ .committed) {row : Row}
    (ho : row.leaseOwner = none) (ht : row.leaseToken = w.row.leaseToken)
    (hm : row.metadataCommittedAt = w.row.metadataCommittedAt)
    (hlegal : Legal row ((e, w.fs) :: w.log))
    (hb : K → row.status.isBefore = true → w.row.metadataCommittedAt = none) :
    Rows K ({ w with row }.emit e) where
  held hne := absurd ho hne
  legal := hlegal
  logged hc := by
    show row.metadataCommittedAt ≠ none
    rw [hm]
    exact h.logged ((committed_cons he).symm.trans hc)
  flight l hl := by
    show l.token ≤ row.leaseToken
    rw [ht]
    exact h.flight l hl
  crashOnly := h.crashOnly
  once hK hst := by
    show row.metadataCommittedAt = none
    rw [hm]
    exact hb hK hst
  count hK := by
    show _ = if row.metadataCommittedAt.isSome then 1 else 0
    rw [hm]
    exact (commits_cons he).trans (h.count hK)

/-! ## Between two calls -/

/-- What can happen to the world while an attempt runs, without the attempt. -/
inductive Drift : World → World → Prop
  | time (w : World) (now : Nat) (schedule : List Fault)
      (h : ∀ f ∈ schedule, f ∈ w.schedule) : Drift w { w with now, schedule }
  | renewed (w : World) (t : Nat) :
      Drift w { w with row := { w.row with leaseExpiresAt := some t } }
  | failure (w : World) (e : Err) : Drift w { w with leaseFailure := some e }
  | synced (w : World) (k : Key) : Drift w (w.emit (.synced k))
  | lost (w : World) : Drift w { w with inFlight := none }
  | commit (w : World) (l : Lease) (now : Nat) (hl : w.inFlight = some l)
      (ht : l.token = w.row.leaseToken) (hs : w.row.status = .running) :
      Drift w ({ w with
        row := { w.row with status := .metadataCommitted, metadataCommittedAt := some now }
        inFlight := none }.emit .committed)

theorem Row.commit_eq_some {row row' : Row} {l : Lease} {now : Nat}
    (h : row.commit l now = some row') :
    l.token = row.leaseToken ∧ row.status = .running ∧
      row' = { row with status := .metadataCommitted, metadataCommittedAt := some now } := by
  unfold Row.commit at h
  split_ifs at h with hc
  simp only [Row.fenced, Bool.and_eq_true, decide_eq_true_eq] at hc
  exact ⟨hc.1.1.1.2.symm, hc.2, (Option.some.inj h).symm⟩

theorem stable_of_drift {A : World → Prop} (h : ∀ w w', A w → Drift w w' → A w') : Stable A where
  renewed w t hw := h w _ hw (.renewed w t)
  synced w k hw := h w _ hw (.synced w k)
  tick := by
    have htimer : ∀ w r, A w → A (w.timerFires r) := by
      intro w r hw
      cases r with
      | idle => exact hw
      | due =>
        unfold World.timerFires
        dsimp only
        split
        · exact hw
        · split
          · rename_i row hr
            unfold Row.renew at hr
            split_ifs at hr
            obtain rfl := Option.some.inj hr
            exact h w _ hw (.renewed w _)
          · exact h w _ hw (.failure w .fence)
      | fails e =>
        unfold World.timerFires
        dsimp only
        split_ifs
        · exact h w _ hw (.failure w e)
        · exact hw
    have hdeliver : ∀ w, A w → A w.delivered := by
      intro w hw
      unfold World.delivered
      split
      · exact hw
      · rename_i l hl
        split
        · rename_i row hr
          obtain ⟨ht, hs, rfl⟩ := Row.commit_eq_some hr
          exact h w _ hw (.commit w l _ hl ht hs)
        · exact h w _ hw (.lost w)
    intro w hw
    unfold World.tick
    cases hsched : w.schedule with
    | nil => exact hw
    | cons f rest =>
      have hpassed := htimer _ f.renewal
        (h w _ hw (.time w (w.now + f.delay) rest fun g hg => by rw [hsched]; simp [hg]))
      dsimp only
      split_ifs
      · exact hdeliver _ hpassed
      · exact hpassed

/-- The commit takes effect. -/
theorem Rows.commit {w : World} (h : Rows K w) (hs : w.row.status = .running) (now : Nat) :
    Rows K ({ w with row := { w.row with
      status := .metadataCommitted, metadataCommittedAt := some now } }.emit .committed) where
  held _ := Or.inr (Or.inl rfl)
  legal := Option.some_ne_none now
  logged _ := Option.some_ne_none _
  flight := h.flight
  crashOnly := h.crashOnly
  once _ hb := by cases hb
  count := by
    intro hK
    have hnone := h.once hK (by rw [hs]; rfl)
    have hcount := h.count hK
    rw [hnone] at hcount
    show commits ((Event.committed, w.fs) :: w.log) = 1
    unfold commits at hcount ⊢
    rw [List.countP_cons_of_pos (by simp), hcount]
    rfl

theorem Rows.drift {w w' : World} (h : Rows K w) (hd : Drift w w') : Rows K w' := by
  cases hd with
  | time now schedule hs =>
    exact h.of_eq rfl rfl rfl rfl (Or.inl rfl) hs (Or.inl rfl)
  | renewed t => exact h.of_eq rfl rfl rfl rfl (Or.inl rfl) (fun _ h => h) (Or.inl rfl)
  | failure e => exact h.recall
  | synced k => exact h.emit (by simp)
  | lost => exact h.of_eq rfl rfl rfl rfl (Or.inr rfl) (fun _ h => h) (Or.inl rfl)
  | commit l now hl ht hs =>
    exact (h.commit hs now).of_eq rfl rfl rfl rfl (Or.inr rfl) (fun _ h => h) (Or.inl rfl)

section Laws

variable (hT : T.Laws H m)

include hT

/-- An event that changes neither the row nor the tree. -/
theorem Inv.note {w : World} (h : Inv T m K w) {e : Event} (he : e.isNote = true) :
    Inv T m K (w.emit e) where
  rows := h.rows.emit (Event.ne_committed_of_isNote he)
  before ho := by
    obtain ⟨k, hk, hc, hmid⟩ := h.before ho
    exact ⟨k, hk, hc, fun hcond => hmid (hT.cond_tail hcond)⟩
  all ho hm := ⟨(h.all ho hm).1, fun hcond => (h.all ho hm).2 (hT.cond_tail hcond)⟩
  flight l hl ht hr :=
    ⟨(h.flight l hl ht hr).1, fun hcond => (h.flight l hl ht hr).2 (hT.cond_tail hcond)⟩
  after hf := by
    obtain ⟨hn, c, hc, hsweep⟩ := h.after hf
    exact ⟨hn, c, hc, fun hcond => hsweep (hT.cond_tail hcond)⟩
  stuck hs hcond := h.stuck hs (hT.cond_tail hcond)
  finished hs hcond := h.finished hs (hT.cond_tail hcond)
  good := hT.good_note he h.good

theorem Inv.drift {w w' : World} (h : Inv T m K w) (hd : Drift w w') : Inv T m K w' := by
  have hrows := h.rows.drift hd
  cases hd with
  | time now schedule hs =>
    exact ⟨hrows, h.before, h.all, h.flight, h.after, h.stuck, h.finished, h.good⟩
  | renewed t => exact ⟨hrows, h.before, h.all, h.flight, h.after, h.stuck, h.finished, h.good⟩
  | failure e => exact ⟨hrows, h.before, h.all, h.flight, h.after, h.stuck, h.finished, h.good⟩
  | lost =>
    exact ⟨hrows, h.before, h.all, (fun _ hf => by cases hf), h.after, h.stuck, h.finished, h.good⟩
  | synced k => exact h.note hT rfl
  | commit l now hl ht hs =>
    obtain ⟨hn, hsettled⟩ := h.flight l hl ht hs
    obtain ⟨k, hk, hc, hmid⟩ := h.before (by rw [hs]; rfl)
    exact
      { rows := hrows
        before := fun _ => ⟨k, hk, hc, fun hcond => hmid (hT.cond_tail hcond)⟩
        all := fun _ _ => ⟨hn, fun hcond => hsettled (hT.cond_tail hcond)⟩
        flight := fun _ hf => by cases hf
        after := fun hf => by cases hf
        stuck := fun hf => by cases hf
        finished := fun hf => by cases hf
        good := hT.good_commit hsettled h.good }

end Laws

end Staaash.Journal
