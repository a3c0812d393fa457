import Staaash.Jobs.Waking

/-!
# Proofs: waking up

A worker that has looked at the queue and found it empty, and has not been woken since, knows of every job that
was queued later by a notification that is still on its way. Where it has read a job and another worker is
first, the notification of that claim wakes it; a lease that is renewed between the two sends none. A session
that was opened is the one in use, or was released once.
-/

namespace Staaash.Jobs

open Staaash.Library

theorem Session.notify_heard {session : Session} (hheard : session.notify.listening = .heard)
    (halive : session.notify.alive = true) : session.notify.inFlight ≠ 0 := by
  unfold Session.notify at hheard halive ⊢
  split_ifs at hheard halive ⊢ with hlistens
  · exact Nat.succ_ne_zero _
  · rw [hheard, halive] at hlistens
    exact absurd rfl hlistens

theorem Session.notify_listening (session : Session) : session.notify.listening = session.listening := by
  unfold Session.notify
  split_ifs
  · rfl
  · rfl

theorem Session.notify_releases (session : Session) : session.notify.releases = session.releases := by
  unfold Session.notify
  split_ifs
  · rfl
  · rfl

namespace Worker

variable {s : Worker} {i j : Nat}

theorem sessions_onSession (s : Worker) (i j : Nat) (f : Session → Session) :
    (s.onSession i f).sessions j = if j = i then f (s.sessions j) else s.sessions j := rfl

theorem phase_connect (s : Worker) : s.connect.phase = s.phase := by
  unfold connect
  split_ifs
  · rfl
  · rfl

/-! ## Nothing is missed -/

/-- What may be claimed has become so by the time that has passed. -/
def QueuedNone (s : Worker) : Prop := ∀ w ∈ s.waiting, w.cause ≠ .queued

theorem QueuedNone.of_subset {s' : Worker} (h : s.QueuedNone) (hsubset : ∀ w ∈ s'.waiting, w ∈ s.waiting) :
    s'.QueuedNone := fun w hw => h w (hsubset w hw)

theorem QueuedNone.append (h : s.QueuedNone) {job : String} {cause : Cause} (hcause : cause ≠ .queued) :
    QueuedNone { s with waiting := s.waiting ++ [⟨job, cause⟩] } := by
  intro w hw
  obtain hold | hnew := List.mem_append.mp hw
  · exact h w hold
  · rw [List.mem_singleton.mp hnew]
    exact hcause

/-- What the last look at the queue has told, where the worker goes by it. -/
def Told (s : Worker) : Prop :=
  match s.phase with
  | .found job => job ∈ s.waiting.map (·.job)
  | .answered none | .beating false | .sleeping false => s.QueuedNone
  | _ => True

/-- Where the worker is up to date, it has been woken, or what it was told still holds. -/
def Watched (s : Worker) : Prop := s.UpToDate → s.aborted = true ∨ s.Told

theorem watched_of_aborted (h : s.aborted = true) : s.Watched := fun _ => .inl h

theorem watched_of_told (h : s.Told) : s.Watched := fun _ => .inr h

theorem watched_of_late (h : ∀ i, s.client = some i → (s.sessions i).listening = .heard →
    (s.sessions i).alive = true → (s.sessions i).inFlight ≠ 0) : s.Watched := by
  rintro ⟨i, hclient, hheard, halive, hnone⟩
  exact absurd hnone (h i hclient hheard halive)

theorem watched_of_none (h : s.client = none) : s.Watched := by
  refine watched_of_late fun i hclient => ?_
  rw [h] at hclient
  exact nomatch hclient

theorem watched_notify (s : Worker) : s.notify.Watched :=
  watched_of_late fun _ _ hheard halive => Session.notify_heard hheard halive

theorem Watched.onSession (h : s.Watched) {f : Session → Session}
    (hf : s.client = some i → (f (s.sessions i)).listening = .heard → (f (s.sessions i)).alive = true →
      (f (s.sessions i)).inFlight = 0 → s.sessions i = f (s.sessions i)) : (s.onSession i f).Watched := by
  rintro ⟨j, hclient, hheard, halive, hnone⟩
  refine h ⟨j, hclient, ?_⟩
  rw [sessions_onSession] at hheard halive hnone
  split_ifs at hheard halive hnone with hj
  · rw [hj] at hclient hheard halive hnone ⊢
    rw [hf hclient hheard halive hnone]
    exact ⟨hheard, halive, hnone⟩
  · exact ⟨hheard, halive, hnone⟩

theorem Watched.drops (h : s.Watched) (i : Nat) : (s.drops i).Watched :=
  h.onSession fun _ _ halive _ => nomatch halive

theorem Watched.release (h : s.Watched) (i : Nat) : (s.release i).Watched :=
  h.onSession fun _ _ halive _ => nomatch halive

theorem Watched.disconnect (h : s.Watched) (i : Nat) : (s.disconnect i).Watched := by
  unfold Worker.disconnect
  split_ifs
  · exact (watched_of_none rfl).release i
  · exact h

theorem Watched.opens (h : s.Watched) (ok : Bool) : (s.opens ok).Watched := by
  unfold Worker.opens
  cases s.connecting with
  | none => exact h
  | some i =>
    dsimp only
    have hopened : (s.onSession i fun session => { session with listening := .opened, alive := true }).Watched :=
      h.onSession fun _ hheard _ _ => nomatch hheard
    split_ifs with hstage hok hclosed
    · exact h
    · exact h
    · exact Watched.release hopened i
    · refine watched_of_late fun j hclient hheard _ => ?_
      obtain rfl := Option.some.inj hclient
      have hlistening : (if i = i then _ else s.sessions i).listening = Listening.heard := hheard
      rw [if_pos rfl] at hlistening
      exact nomatch hlistening

theorem Watched.commits (h : s.Watched) : s.commits.Watched := by
  unfold Worker.commits
  cases s.connecting with
  | none => exact h
  | some i =>
    dsimp only
    split_ifs
    · exact h.onSession fun _ hheard _ _ => nomatch hheard
    · exact h

/-- Jobs queued before the session listens are found by the claim that its `LISTEN` causes. -/
theorem Watched.hears (h : s.Watched) (ok : Bool) : (s.hears ok).Watched := by
  unfold Worker.hears
  cases s.connecting with
  | none => exact h
  | some i =>
    dsimp only
    split
    · split_ifs with hclient
      · exact watched_of_aborted rfl
      · refine Watched.onSession (s := { s with connecting := none }) h fun hsame => ?_
        exact absurd hsame hclient
    · exact Watched.disconnect (s := { s with connecting := none }) h i
    · exact Watched.disconnect (s := { s with connecting := none }) h i
    · exact h

theorem Watched.delivers (h : s.Watched) (i : Nat) : (s.delivers i).Watched := by
  unfold Worker.delivers
  split_ifs with hnone
  · exact h
  · dsimp only
    split_ifs with hclient
    · exact watched_of_aborted rfl
    · exact h.onSession fun hsame => absurd hsame hclient

/-- The worker goes on to another place of its loop. -/
theorem Watched.moves (h : s.Watched) {phase : Phase} {processed : Bool} {idleDelayMs : Nat}
    (htold : s.Told → Told { s with phase, processed, idleDelayMs }) :
    Watched { s with phase, processed, idleDelayMs } := fun huptodate => (h huptodate).imp id htold

/-- The queue changes, and nobody is notified. -/
theorem Watched.waits (h : s.Watched) {waiting : List Waiting}
    (hfound : ∀ job, s.phase = .found job → job ∈ s.waiting.map (·.job) → job ∈ waiting.map (·.job))
    (hnone : s.QueuedNone → QueuedNone { s with waiting }) : Watched { s with waiting } := by
  refine fun huptodate => (h huptodate).imp id fun htold => ?_
  unfold Told at htold ⊢
  cases hphase : s.phase with
  | found job =>
    rw [hphase] at htold
    exact hfound job hphase htold
  | answered job =>
    rw [hphase] at htold
    cases job with
    | none => exact hnone htold
    | some job => trivial
  | beating failed =>
    rw [hphase] at htold
    cases failed with
    | true => trivial
    | false => exact hnone htold
  | sleeping failed =>
    rw [hphase] at htold
    cases failed with
    | true => trivial
    | false => exact hnone htold
  | arming => trivial
  | claiming => trivial
  | running job => trivial
  | left => trivial

/-- Time makes a job one that may be claimed. -/
theorem Watched.passes (h : s.Watched) (job : String) {cause : Cause} (hcause : cause ≠ .queued) :
    Watched { s with waiting := s.waiting ++ [⟨job, cause⟩] } := by
  refine h.waits (fun found _ hin => ?_) fun hnone => hnone.append hcause
  rw [List.map_append]
  exact List.mem_append_left _ hin

theorem Watched.renews (h : s.Watched) {job : String} (hleaves : s.phase ≠ .found job) :
    (s.step (.renews job)).Watched := by
  refine h.waits (fun found hphase hin => ?_) fun hnone => hnone.of_subset fun w hw => List.mem_of_mem_filter hw
  obtain ⟨w, hw, hjob⟩ := List.mem_map.mp hin
  have hother : w ≠ ⟨job, .lapsed⟩ := by
    rintro rfl
    have hsame : job = found := hjob
    exact hleaves (hsame ▸ hphase)
  exact List.mem_map.mpr ⟨w, List.mem_filter.mpr ⟨hw, decide_eq_true hother⟩, hjob⟩

/-- A pass ends after a claim that has found nothing, after a failure or at the shutdown. -/
theorem Watched.rest (h : s.Watched) {failed : Bool}
    (hend : s.phase = .answered none ∨ failed = true ∨ s.stopping = true) : (s.rest failed).Watched := by
  refine h.moves fun htold => ?_
  have hphase : (s.rest failed).phase = if s.stopping then .left else .beating failed := rfl
  show (s.rest failed).Told
  unfold Told
  rw [hphase]
  split_ifs with hstopping
  · trivial
  · cases failed with
    | true => trivial
    | false =>
      have hphase : s.phase = .answered none := by
        obtain hphase | hfailed | hstopped := hend
        · exact hphase
        · exact nomatch hfailed
        · exact absurd hstopped hstopping
      unfold Told at htold
      rw [hphase] at htold
      exact htold

theorem Watched.arms (h : s.Watched) : (s.step .arms).Watched := by
  show Watched (if s.phase ≠ .arming then s else _)
  split_ifs with hphase hstopping
  · exact h
  · exact watched_of_told trivial
  · refine watched_of_told ?_
    unfold Told
    rw [phase_connect]
    trivial

theorem Watched.finds (h : s.Watched) (place : Nat) : (s.step (.finds place)).Watched := by
  show Watched (if s.phase ≠ .claiming then s else _)
  split_ifs with hphase hwaiting
  · exact h
  · refine watched_of_told fun w hw => ?_
    rw [hwaiting] at hw
    exact absurd hw List.not_mem_nil
  · split
    · exact h
    · rename_i found hfound
      exact watched_of_told (List.mem_map_of_mem (List.mem_of_getElem? hfound))

/-- A job that is no longer there was taken by another worker, whose claim has notified. -/
theorem Watched.updates (h : s.Watched) : (s.step .updates).Watched := by
  unfold Worker.step
  dsimp only
  split
  · rename_i job hphase
    split_ifs with hjob
    · exact watched_notify _
    · refine h.moves fun htold => ?_
      unfold Told at htold
      rw [hphase] at htold
      exact absurd htold hjob
  · exact h

theorem Watched.claimFails (h : s.Watched) : (s.step .claimFails).Watched := by
  unfold Worker.step
  dsimp only
  split
  · exact h.rest (.inr (.inl rfl))
  · exact h.rest (.inr (.inl rfl))
  · exact h.rest (.inr (.inl rfl))
  · exact h

theorem Watched.claimed (h : s.Watched) : (s.step .claimed).Watched := by
  unfold Worker.step
  dsimp only
  split
  · rename_i hphase
    exact h.rest (.inl hphase)
  · split_ifs with hstopping
    · exact h.rest (.inr (.inr hstopping))
    · exact watched_of_told trivial
  · exact h

theorem Watched.handled (h : s.Watched) (ok : Bool) : (s.step (.handled ok)).Watched := by
  unfold Worker.step
  dsimp only
  split
  · split_ifs with hok hstopping
    · exact h.rest (.inr (.inl rfl))
    · exact Watched.rest (s := { s with processed := true }) h (.inr (.inr hstopping))
    · exact watched_of_told trivial
  · exact h

theorem Watched.beats (h : s.Watched) : (s.step .beats).Watched := by
  unfold Worker.step
  dsimp only
  split
  · rename_i failed hphase
    have hslept : s.Told → Told { s with phase := .sleeping failed } := by
      intro htold
      unfold Told at htold
      rw [hphase] at htold
      cases failed with
      | true => trivial
      | false => exact htold
    exact h.moves hslept
  · exact h

theorem Watched.step (h : s.Watched) (e : Event) (hleaves : s.LeavesTheFound e) : (s.step e).Watched := by
  cases e with
  | queues job => exact watched_notify _
  | comesDue job => exact h.passes job (by decide)
  | lapses job => exact h.passes job (by decide)
  | takes job => exact watched_notify _
  | renews job => exact h.renews hleaves
  | changes => exact watched_notify _
  | arms => exact h.arms
  | finds place => exact h.finds place
  | updates => exact h.updates
  | claimFails => exact h.claimFails
  | claimed => exact h.claimed
  | handled ok => exact h.handled ok
  | beats => exact h.beats
  | wakes =>
    unfold Worker.step
    dsimp only
    split
    · split_ifs
      · exact watched_of_told trivial
      · exact h
    · exact h
  | elapses =>
    unfold Worker.step
    dsimp only
    split
    · exact watched_of_told trivial
    · exact h
  | opens ok => exact h.opens ok
  | commits => exact h.commits
  | hears ok => exact h.hears ok
  | delivers i => exact h.delivers i
  | drops i => exact h.drops i
  | loses i => exact (h.drops i).disconnect i
  | stops =>
    show Watched (Worker.close _)
    unfold close
    split
    · exact watched_of_aborted rfl
    · exact watched_of_aborted rfl

theorem run_watched {events : List Event} (hleaves : RunMeets step LeavesTheFound new events) :
    (run events).Watched :=
  hleaves.keeps (fun _ e hleaves h => h.step e hleaves) (watched_of_none rfl)

theorem Watched.asleep (h : s.Watched) (hphase : s.phase = .sleeping false) (huptodate : s.UpToDate) :
    s.aborted = true ∨ s.QueuedNone := by
  refine (h huptodate).imp id fun htold => ?_
  unfold Told at htold
  rw [hphase] at htold
  exact htold

/-- A worker that sleeps after a pass that has not failed, has not been woken and is up to date misses no job
that was queued: what may be claimed is what has come due, or lost its lease, while it was not looking. -/
theorem run_missesNothing (events : List Event) (hleaves : RunMeets step LeavesTheFound new events)
    (hphase : (run events).phase = .sleeping false) (haborted : (run events).aborted = false)
    (huptodate : (run events).UpToDate) : ∀ w ∈ (run events).waiting, w.cause ≠ .queued := by
  obtain hwoken | hnone := (run_watched hleaves).asleep hphase huptodate
  · rw [haborted] at hwoken
    exact nomatch hwoken
  · exact hnone

/-- Another worker is first at a job, a second job is queued between the claim and the sleep, and a third comes
due during the sleep. -/
def queuedLate : List Event :=
  [.arms, .opens true, .commits, .hears true, .finds 0, .claimed, .beats, .wakes, .queues "first", .arms,
    .finds 0, .takes "first", .updates, .claimed, .queues "second", .beats, .delivers 0, .delivers 0, .wakes,
    .delivers 0, .arms, .finds 0, .updates, .claimed, .delivers 0, .handled true, .finds 0, .claimed, .beats,
    .wakes, .arms, .finds 0, .claimed, .beats, .comesDue "third"]

theorem run_missesNothing_queuedLate :
    (run queuedLate).waiting = [⟨"third", .due⟩] ∧ ∀ w ∈ (run queuedLate).waiting, w.cause ≠ .queued :=
  ⟨rfl, run_missesNothing queuedLate (by decide) rfl rfl ⟨0, rfl, rfl, rfl, rfl⟩⟩

/-- A claim has read a job whose lease has run out, another job waits, and the lease is renewed. -/
def renewedLate : List Event :=
  [.arms, .opens true, .commits, .hears true, .finds 0, .claimed, .beats, .wakes, .lapses "held",
    .queues "other", .delivers 0, .arms, .finds 0, .renews "held", .updates, .claimed, .beats]

example : (run renewedLate).phase = .sleeping false ∧ (run renewedLate).aborted = false ∧
    (run renewedLate).UpToDate ∧ (run renewedLate).waiting = [⟨"other", .queued⟩] :=
  ⟨rfl, rfl, ⟨0, rfl, rfl, rfl, rfl⟩, rfl⟩

/-! ## A waiting job wakes the worker -/

theorem wakes_of_sent (hclient : s.client = some i) (hsent : (s.sessions i).inFlight ≠ 0) :
    (s.delivers i).aborted = true := by
  unfold delivers
  rw [if_neg hsent]
  dsimp only
  rw [if_pos (show (s.onSession i _).client = some i from hclient)]
  rfl

theorem aborted_delivers (h : s.aborted = true) (i : Nat) : (s.delivers i).aborted = true := by
  unfold delivers
  split_ifs
  · exact h
  · dsimp only
    split_ifs
    · rfl
    · exact h

theorem aborted_delivered (h : s.aborted = true) (n : Nat) :
    (List.foldl step s (List.replicate n (.delivers i))).aborted = true := by
  induction n generalizing s with
  | zero => exact h
  | succ n ih => exact ih (aborted_delivers h i)

/-- Where a job that was queued waits for a sleeping worker that listens, the notifications that are on their way
wake it. -/
theorem run_wakes (events : List Event) (hleaves : RunMeets step LeavesTheFound new events)
    (hphase : (run events).phase = .sleeping false) (hclient : (run events).client = some i)
    (hheard : ((run events).sessions i).listening = .heard) (halive : ((run events).sessions i).alive = true)
    (hwaiting : ∃ w ∈ (run events).waiting, w.cause = .queued) :
    (run (events ++ List.replicate ((run events).sessions i).inFlight (.delivers i))).aborted = true := by
  have happend : ∀ more, run (events ++ more) = List.foldl step (run events) more := fun _ => List.foldl_append
  rw [happend]
  cases hsent : ((run events).sessions i).inFlight with
  | zero =>
    have huptodate : (run events).UpToDate := ⟨i, hclient, hheard, halive, hsent⟩
    obtain ⟨w, hw, hqueued⟩ := hwaiting
    exact ((run_watched hleaves).asleep hphase huptodate).resolve_right fun hnone => hnone w hw hqueued
  | succ n =>
    have hwoken : ((run events).delivers i).aborted = true :=
      wakes_of_sent hclient (by rw [hsent]; exact Nat.succ_ne_zero n)
    exact aborted_delivered hwoken n

theorem run_wakes_queuedLate :
    let asleep := queuedLate.take 16
    (run (asleep ++ List.replicate ((run asleep).sessions 0).inFlight (.delivers 0))).aborted = true :=
  run_wakes (queuedLate.take 16) (by decide) rfl rfl rfl rfl ⟨⟨"second", .queued⟩, by decide, rfl⟩

/-! ## Sessions are released once -/

/-- What was opened is held, or was released once. -/
structure Holds (s : Worker) (held : Option Nat) : Prop where
  released : ∀ i, (s.sessions i).releases = if (s.sessions i).listening = .connecting ∨ held = some i then 0 else 1
  opened : ∀ i, held = some i → (s.sessions i).listening ≠ .connecting
  /-- `connect` waits until no session is held. -/
  free : ∀ i, s.connecting = some i → (s.sessions i).listening = .connecting → held = none
  unasked : ∀ i, s.asked ≤ i → (s.sessions i).listening = .connecting
  asked : ∀ i, s.connecting = some i → i < s.asked

variable {held : Option Nat}

/-- Nothing of this depends on what was sent, on the queue or on the place of the loop. -/
theorem Holds.of_same {s' : Worker} (h : s.Holds held)
    (hlistening : ∀ i, (s'.sessions i).listening = .connecting ↔ (s.sessions i).listening = .connecting)
    (hreleases : ∀ i, (s'.sessions i).releases = (s.sessions i).releases)
    (hconnecting : ∀ i, s'.connecting = some i → s.connecting = some i) (hasked : s'.asked = s.asked) :
    s'.Holds held where
  released i := by
    rw [hreleases, h.released i]
    exact if_congr (or_congr_left (hlistening i).symm) rfl rfl
  opened i hheld := (hlistening i).not.mpr (h.opened i hheld)
  free i hcall hstage := h.free i (hconnecting i hcall) ((hlistening i).mp hstage)
  unasked i hi := (hlistening i).mpr (h.unasked i (hasked ▸ hi))
  asked i hcall := by
    rw [hasked]
    exact h.asked i (hconnecting i hcall)

theorem Holds.notify (h : s.Holds held) : s.notify.Holds held := by
  refine h.of_same (fun i => ?_) (fun i => Session.notify_releases _) (fun _ => id) rfl
  show (s.sessions i).notify.listening = .connecting ↔ _
  rw [Session.notify_listening]

theorem Holds.onSession (h : s.Holds held) {f : Session → Session}
    (hlistening : (f (s.sessions i)).listening = .connecting ↔ (s.sessions i).listening = .connecting)
    (hreleases : (f (s.sessions i)).releases = (s.sessions i).releases) : (s.onSession i f).Holds held := by
  refine h.of_same (fun j => ?_) (fun j => ?_) (fun _ => id) rfl
  · rw [sessions_onSession]
    split_ifs with hj
    · rw [hj]
      exact hlistening
    · rfl
  · rw [sessions_onSession]
    split_ifs with hj
    · rw [hj]
      exact hreleases
    · rfl

theorem Holds.release (h : s.Holds (some i)) : (s.release i).Holds none := by
  have hlistening : ∀ j, ((s.release i).sessions j).listening = (s.sessions j).listening := by
    intro j
    rw [Worker.release, sessions_onSession]
    split_ifs
    · rfl
    · rfl
  refine ⟨fun j => ?_, (fun _ hnone => nomatch hnone), fun _ _ _ => rfl, fun j hj => ?_, h.asked⟩
  · rw [hlistening, Worker.release, sessions_onSession]
    by_cases hj : j = i
    · rw [if_pos hj, hj]
      have hopened := h.opened i rfl
      rw [if_neg (not_or.mpr ⟨hopened, fun hsame => nomatch hsame⟩)]
      show (s.sessions i).releases + 1 = 1
      rw [h.released i, if_pos (.inr rfl)]
    · rw [if_neg hj, h.released j]
      refine if_congr (or_congr_right ⟨fun hsame => ?_, fun hnone => nomatch hnone⟩) rfl rfl
      exact absurd (Option.some.inj hsame).symm hj
  · rw [hlistening]
    exact h.unasked j hj

/-- The pool hands a session to the call of `listen`. -/
theorem Holds.opening (h : s.Holds held) (hcall : s.connecting = some i)
    (hstage : (s.sessions i).listening = .connecting) :
    (s.onSession i fun session => { session with listening := .opened, alive := true }).Holds (some i) := by
  have hnone : held = none := h.free i hcall hstage
  have hother : ∀ j, j ≠ i → ((s.onSession i fun session =>
      { session with listening := .opened, alive := true }).sessions j) = s.sessions j := by
    intro j hj
    rw [sessions_onSession, if_neg hj]
  have hopened : ((s.onSession i fun session =>
      { session with listening := .opened, alive := true }).sessions i) =
      { s.sessions i with listening := .opened, alive := true } := by
    rw [sessions_onSession, if_pos rfl]
  refine ⟨fun j => ?_, fun j hheld => ?_, fun j hcall' hconnecting => ?_, fun j hj => ?_, h.asked⟩
  · by_cases hj : j = i
    · rw [hj, hopened, if_pos (.inr rfl)]
      show (s.sessions i).releases = 0
      rw [h.released i, if_pos (.inl hstage)]
    · rw [hother j hj, h.released j, hnone]
      refine if_congr (or_congr_right ⟨(fun hsame => nomatch hsame), fun hsame => ?_⟩) rfl rfl
      exact absurd (Option.some.inj hsame).symm hj
  · obtain rfl := Option.some.inj hheld
    rw [hopened]
    exact fun hconnecting => nomatch hconnecting
  · obtain rfl := Option.some.inj (hcall.symm.trans hcall')
    rw [hopened] at hconnecting
    exact nomatch hconnecting
  · have hlt := h.asked i hcall
    rw [hother j (Nat.ne_of_gt (Nat.lt_of_lt_of_le hlt hj))]
    exact h.unasked j hj

/-- Only the session in use is held, and none is when the worker has stopped. -/
structure Accounted (s : Worker) : Prop where
  holds : s.Holds s.client
  closed : s.closed = true → s.client = none
  stopped : s.stopping = true → s.closed = true

theorem accounted_new : new.Accounted where
  holds := ⟨fun _ => rfl, (fun _ h => nomatch h), (fun _ h => nomatch h), fun _ _ => rfl, fun _ h => nomatch h⟩
  closed h := nomatch h
  stopped h := nomatch h

theorem Accounted.of_same {s' : Worker} (h : s.Accounted) (hholds : s.Holds s.client → s'.Holds s.client)
    (hclient : s'.client = s.client) (hclosed : s'.closed = s.closed) (hstopping : s'.stopping = s.stopping) :
    s'.Accounted where
  holds := by
    rw [hclient]
    exact hholds h.holds
  closed hended := hclient.trans (h.closed (hclosed ▸ hended))
  stopped hstopped := hclosed.trans (h.stopped (hstopping ▸ hstopped))

/-- The worker goes on to another place of its loop, and the queue and the signal may have changed. -/
theorem Accounted.moves (h : s.Accounted) {waiting : List Waiting} {phase : Phase} {aborted processed : Bool}
    {idleDelayMs : Nat} : Accounted { s with waiting, phase, aborted, processed, idleDelayMs } :=
  h.of_same (fun hholds => hholds.of_same (fun _ => .rfl) (fun _ => rfl) (fun _ => id) rfl) rfl rfl rfl

theorem Accounted.notify (h : s.Accounted) : s.notify.Accounted := h.of_same Holds.notify rfl rfl rfl

theorem Accounted.onSession (h : s.Accounted) {f : Session → Session}
    (hlistening : (f (s.sessions i)).listening = .connecting ↔ (s.sessions i).listening = .connecting)
    (hreleases : (f (s.sessions i)).releases = (s.sessions i).releases) : (s.onSession i f).Accounted :=
  h.of_same (fun hholds => hholds.onSession hlistening hreleases) rfl rfl rfl

theorem Accounted.returned (h : s.Accounted) : Accounted { s with connecting := none } :=
  h.of_same (fun hholds => hholds.of_same (fun _ => .rfl) (fun _ => rfl) (fun _ hcall => nomatch hcall) rfl)
    rfl rfl rfl

theorem Accounted.drops (h : s.Accounted) (i : Nat) : (s.drops i).Accounted := h.onSession .rfl rfl

theorem Accounted.disconnect (h : s.Accounted) (i : Nat) : (s.disconnect i).Accounted := by
  unfold Worker.disconnect
  split_ifs with hclient
  · have hholds : Holds { s with client := none } (some i) :=
      (hclient ▸ h.holds).of_same (fun _ => .rfl) (fun _ => rfl) (fun _ => id) rfl
    exact ⟨hholds.release, fun _ => rfl, h.stopped⟩
  · exact h

theorem Accounted.connect (h : s.Accounted) : s.connect.Accounted := by
  unfold Worker.connect
  split_ifs with hbusy
  · exact h
  · have hnone : s.client = none := by
      simp only [Bool.or_eq_true, not_or, Option.not_isSome_iff_eq_none] at hbusy
      exact hbusy.1.2
    refine ⟨⟨h.holds.released, h.holds.opened, fun _ _ _ => hnone, fun i hi => ?_, fun i hcall => ?_⟩,
      h.closed, h.stopped⟩
    · exact h.holds.unasked i (Nat.le_of_succ_le hi)
    · obtain rfl := Option.some.inj hcall
      exact Nat.lt_succ_self _

theorem Holds.close (h : s.Holds s.client) : s.close.Accounted := by
  unfold Worker.close
  split
  · rename_i hclient
    exact ⟨h.of_same (fun _ => .rfl) (fun _ => rfl) (fun _ => id) rfl, fun _ => hclient, fun _ => rfl⟩
  · rename_i i hclient
    rw [hclient] at h
    have hholds : Holds { s with closed := true, client := none } (some i) :=
      h.of_same (fun _ => .rfl) (fun _ => rfl) (fun _ => id) rfl
    exact ⟨hholds.release, fun _ => rfl, fun _ => rfl⟩

theorem Accounted.opens (h : s.Accounted) (ok : Bool) : (s.opens ok).Accounted := by
  unfold Worker.opens
  cases hcall : s.connecting with
  | none => exact h
  | some i =>
    dsimp only
    split_ifs with hstage hok hclosed
    · exact h
    · exact h.returned
    · have hholds := h.holds.opening hcall (not_not.mp hstage)
      have hreturned : Holds { s.onSession i fun session =>
          { session with listening := .opened, alive := true } with connecting := none } (some i) :=
        hholds.of_same (fun _ => .rfl) (fun _ => rfl) (fun _ hnone => nomatch hnone) rfl
      have hnone : s.client = none := h.closed hclosed
      refine ⟨?_, fun _ => hnone, h.stopped⟩
      show Holds _ s.client
      rw [hnone]
      exact hreturned.release
    · have hholds := h.holds.opening hcall (not_not.mp hstage)
      exact ⟨hholds.of_same (fun _ => .rfl) (fun _ => rfl) (fun _ => id) rfl,
        fun hended => absurd hended hclosed, h.stopped⟩

theorem Accounted.commits (h : s.Accounted) : s.commits.Accounted := by
  unfold Worker.commits
  cases s.connecting with
  | none => exact h
  | some i =>
    dsimp only
    split_ifs with hopened
    · refine h.onSession ⟨(fun hsame => nomatch hsame), fun hconnecting => ?_⟩ rfl
      rw [hconnecting] at hopened
      exact nomatch hopened
    · exact h

theorem Accounted.hears (h : s.Accounted) (ok : Bool) : (s.hears ok).Accounted := by
  unfold Worker.hears
  cases s.connecting with
  | none => exact h
  | some i =>
    dsimp only
    split
    · rename_i hcommitted
      have hheard : Accounted (Worker.onSession { s with connecting := none } i fun session =>
          { session with listening := .heard }) := by
        refine h.returned.onSession ⟨(fun hsame => nomatch hsame), fun hconnecting => ?_⟩ rfl
        have hsame : Listening.committed = .connecting := hcommitted.symm.trans hconnecting
        exact nomatch hsame
      split_ifs
      · exact hheard.moves
      · exact hheard
    · exact h.returned.disconnect i
    · exact h.returned.disconnect i
    · exact h

theorem Accounted.delivers (h : s.Accounted) (i : Nat) : (s.delivers i).Accounted := by
  unfold Worker.delivers
  split_ifs with hnone
  · exact h
  · have hdelivered : (s.onSession i fun session => { session with inFlight := session.inFlight - 1 }).Accounted :=
      h.onSession .rfl rfl
    dsimp only
    split_ifs
    · exact hdelivered.moves
    · exact hdelivered

theorem Accounted.step (h : s.Accounted) (e : Event) : (s.step e).Accounted := by
  cases e with
  | queues job => exact h.moves.notify
  | comesDue job => exact h.moves
  | lapses job => exact h.moves
  | takes job => exact h.moves.notify
  | renews job => exact h.moves
  | changes => exact h.notify
  | arms =>
    show Accounted (if s.phase ≠ .arming then s else _)
    split_ifs
    · exact h
    · exact h.moves
    · exact h.moves.connect
  | finds place =>
    show Accounted (if s.phase ≠ .claiming then s else _)
    split_ifs
    · exact h
    · exact h.moves
    · split
      · exact h
      · exact h.moves
  | updates =>
    unfold Worker.step
    dsimp only
    split
    · split_ifs
      · exact h.moves.notify
      · exact h.moves
    · exact h
  | claimFails =>
    unfold Worker.step
    dsimp only
    split
    · exact h.moves
    · exact h.moves
    · exact h.moves
    · exact h
  | claimed =>
    unfold Worker.step
    dsimp only
    split
    · exact h.moves
    · split_ifs
      · exact h.moves
      · exact h.moves
    · exact h
  | handled ok =>
    unfold Worker.step
    dsimp only
    split
    · split_ifs
      · exact h.moves
      · exact h.moves
      · exact h.moves
    · exact h
  | beats =>
    unfold Worker.step
    dsimp only
    split
    · exact h.moves
    · exact h
  | wakes =>
    unfold Worker.step
    dsimp only
    split
    · split_ifs
      · exact h.moves
      · exact h
    · exact h
  | elapses =>
    unfold Worker.step
    dsimp only
    split
    · exact h.moves
    · exact h
  | opens ok => exact h.opens ok
  | commits => exact h.commits
  | hears ok => exact h.hears ok
  | delivers i => exact h.delivers i
  | drops i => exact h.drops i
  | loses i => exact (h.drops i).disconnect i
  | stops =>
    have hholds : Holds { s with stopping := true, aborted := true } s.client :=
      h.holds.of_same (fun _ => .rfl) (fun _ => rfl) (fun _ => id) rfl
    exact hholds.close

/-- Every session that the pool has handed out is the one in use, or was released once; after the shutdown
none is in use. -/
theorem run_releasesOnce (events : List Event) :
    (∀ i, ((run events).sessions i).listening ≠ .connecting →
      ((run events).sessions i).releases = if (run events).client = some i then 0 else 1) ∧
    ((run events).stopping = true → (run events).client = none) := by
  have haccounted : (run events).Accounted := run_keeps (fun _ e h => h.step e) events accounted_new
  refine ⟨fun i hopened => ?_, fun hstopping => haccounted.closed (haccounted.stopped hstopping)⟩
  rw [haccounted.holds.released i]
  exact if_congr (or_iff_right hopened) rfl rfl

end Worker

end Staaash.Jobs
