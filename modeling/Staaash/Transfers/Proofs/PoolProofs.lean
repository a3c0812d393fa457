import Mathlib.Data.List.Induction
import Mathlib.Data.List.Nodup
import Mathlib.Data.List.Pairwise
import Mathlib.Data.List.Perm.Subperm
import Staaash.Library.Runs
import Staaash.Transfers.Pool

/-!
# The pool ends cleanly

`Kept` is what holds between the turns of the workers, and within a turn of all workers but the one whose
turn it is.
-/

namespace Staaash.Transfers.Pool

open Staaash.Library

variable {α ε : Type} {s : Pool α ε} {w lane : Nat} {e : ε}

/-- The error that a queued turn brings. -/
def brings? (job : Nat × Outcome ε) : Option ε := rejection? (.settled 0 0 job.2)

/-- The invariant, but for the worker `hole`, whose turn it is, and which was given `held`. -/
structure Kept (hole : Option Nat) (held : Option ε) (s : Pool α ε) : Prop where
  workers : s.workers = workersFrom 0 s.lanes
  launched : s.launched ≤ s.workers.length
  next : ∀ i, s.next i ≤ s.width i
  starts : ∀ i k, (i, k) ∈ s.starts ↔ k < s.next i
  startedOnce : s.starts.Nodup
  awaited : ∀ p ∈ s.running, ∃ w, s.awaits w = some p
  turning : ∀ w, hole = some w →
    (s.turn w = .fresh ∨ s.turn w = .queued) ∧ w < s.launched ∧ w ∉ s.jobs.map Prod.fst
  fresh : ∀ w, hole ≠ some w → (s.turn w = .fresh ↔ s.launched ≤ w)
  queued : ∀ w, hole ≠ some w → (s.turn w = .queued ↔ w ∈ s.jobs.map Prod.fst)
  queuedOnce : (s.jobs.map Prod.fst).Nodup
  calm : s.failure = none → ∀ event ∈ s.log, isCaught event = false
  stops : s.log.Pairwise fun earlier later => isCaught earlier = true → started? later = none
  onFatal : s.log.countP isOnFatal = if s.failure.isSome then 1 else 0
  unheard : s.failure = none → s.rejections = held.toList ++ s.jobs.filterMap brings?
  heard : ∀ e, s.failure = some e → s.rejections.head? = some e
  exhausted : s.failure = none → ∀ w lane, s.workers[w]? = some lane → s.turn w = .ended →
    s.next lane = s.width lane
  unthrown : ∀ w e, s.turn w ≠ .threw e
  finished : ∀ r, s.result = some r → (∀ w < s.workers.length, s.turn w = .ended) ∧
    r = match s.failure with | none => .ok () | some error => .error error

theorem mem_running {p : Nat × Nat} : p ∈ s.running ↔ p ∈ s.starts ∧ p ∉ s.settles := by
  unfold running
  rw [List.mem_filter, Bool.not_eq_true', List.contains_eq_mem, decide_eq_false_iff_not]

theorem awaits_eq_some {p : Nat × Nat} :
    s.awaits w = some p ↔ s.workers[w]? = some p.1 ∧ s.turn w = .awaiting p.2 := by
  unfold awaits
  constructor
  · intro h
    split at h
    · rename_i hworker hturn
      rw [Option.some.injEq] at h
      rw [← h]
      exact ⟨hworker, hturn⟩
    · exact absurd h (by simp)
  · intro h
    rw [h.1, h.2]

theorem Kept.result_none {held : Option ε} (h : s.Kept (some w) held) : s.result = none := by
  rcases hresult : s.result with _ | r
  · rfl
  · obtain ⟨hturn, hlt, -⟩ := h.turning w rfl
    have hended := (h.finished r hresult).1 w (Nat.lt_of_lt_of_le hlt h.launched)
    rcases hturn with hturn | hturn <;> rw [hturn] at hended <;> exact absurd hended (by simp)

/-! ## The turns -/

/-- The item that a worker starts in its turn. -/
theorem Kept.start (h : s.Kept (some w) none) (hlane : s.workers[w]? = some lane)
    (hfailure : s.failure = none) (hnext : s.next lane < s.width lane) :
    Kept none none { s.setTurn w (.awaiting (s.next lane)) with
      next := fun l => if l = lane then s.next lane + 1 else s.next l
      log := s.log ++ [.started lane (s.next lane)] } := by
  obtain ⟨hturn, hlaunched, hnojob⟩ := h.turning w rfl
  have hnew : (lane, s.next lane) ∉ s.starts := fun hmem =>
    Nat.lt_irrefl _ ((h.starts _ _).1 hmem)
  have hstarts : (s.log ++ [Event.started lane (s.next lane)]).filterMap started? =
      s.starts ++ [(lane, s.next lane)] := by
    rw [List.filterMap_append]
    rfl
  have hsettles : (s.log ++ [Event.started lane (s.next lane)]).filterMap settled? = s.settles := by
    rw [List.filterMap_append]
    exact List.append_nil _
  have hrejections : (s.log ++ [Event.started lane (s.next lane)]).filterMap rejection? = s.rejections := by
    rw [List.filterMap_append]
    exact List.append_nil _
  refine
    { workers := h.workers, launched := h.launched, next := ?_, starts := ?_, startedOnce := ?_
      awaited := ?_, turning := fun w' hw' => absurd hw' (by simp), fresh := ?_, queued := ?_
      queuedOnce := h.queuedOnce, calm := ?_, stops := ?_, onFatal := ?_, unheard := ?_, heard := ?_
      exhausted := ?_, unthrown := ?_, finished := ?_ }
  · intro i
    show (if i = lane then s.next lane + 1 else s.next i) ≤ s.width i
    by_cases hi : i = lane
    · rw [if_pos hi, hi]
      omega
    · rw [if_neg hi]
      exact h.next i
  · intro i k
    show (i, k) ∈ (s.log ++ [_]).filterMap started? ↔ k < (if i = lane then s.next lane + 1 else s.next i)
    rw [hstarts, List.mem_append, List.mem_singleton, h.starts, Prod.mk.injEq]
    by_cases hi : i = lane
    · subst hi
      rw [if_pos rfl]
      constructor
      · rintro (hk | ⟨-, hk⟩) <;> omega
      · intro hk
        rcases Nat.lt_or_ge k (s.next i) with hlt | hge
        · exact .inl hlt
        · exact .inr ⟨rfl, by omega⟩
    · rw [if_neg hi]
      exact ⟨fun hk => hk.elim id fun hk => absurd hk.1 hi, .inl⟩
  · show ((s.log ++ [_]).filterMap started?).Nodup
    rw [hstarts]
    exact List.nodup_append.2 ⟨h.startedOnce, List.nodup_singleton _, fun x hx y hy hxy =>
      hnew (by rw [← List.mem_singleton.1 hy, ← hxy]; exact hx)⟩
  · intro p hp
    obtain ⟨hp, hunsettled⟩ := mem_running.1 hp
    have hp : p ∈ (s.log ++ [Event.started lane (s.next lane)]).filterMap started? := hp
    have hunsettled : p ∉ (s.log ++ [Event.started lane (s.next lane)]).filterMap settled? := hunsettled
    rw [hstarts] at hp
    rw [hsettles] at hunsettled
    rcases List.mem_append.1 hp with hp | hp
    · obtain ⟨w', hw'⟩ := h.awaited p (mem_running.2 ⟨hp, hunsettled⟩)
      obtain ⟨hworker, hawaiting⟩ := awaits_eq_some.1 hw'
      have hne : w' ≠ w := by
        rintro rfl
        rcases hturn with hturn | hturn <;> rw [hturn] at hawaiting <;> exact absurd hawaiting (by simp)
      exact ⟨w', awaits_eq_some.2 ⟨hworker, (if_neg hne).trans hawaiting⟩⟩
    · rw [List.mem_singleton.1 hp]
      exact ⟨w, awaits_eq_some.2 ⟨hlane, if_pos rfl⟩⟩
  · intro w' _
    show (if w' = w then _ else s.turn w') = _ ↔ s.launched ≤ w'
    by_cases hw' : w' = w
    · subst hw'
      rw [if_pos rfl]
      exact ⟨fun hbad => absurd hbad (by simp), fun hle => by omega⟩
    · rw [if_neg hw']
      exact h.fresh w' (by simpa using Ne.symm hw')
  · intro w' _
    show (if w' = w then _ else s.turn w') = _ ↔ w' ∈ s.jobs.map Prod.fst
    by_cases hw' : w' = w
    · subst hw'
      rw [if_pos rfl]
      exact ⟨fun hbad => absurd hbad (by simp), fun hmem => absurd hmem hnojob⟩
    · rw [if_neg hw']
      exact h.queued w' (by simpa using Ne.symm hw')
  · intro _ event hevent
    rcases List.mem_append.1 hevent with hevent | hevent
    · exact h.calm hfailure event hevent
    · rw [List.mem_singleton.1 hevent]
      rfl
  · refine List.pairwise_append.2 ⟨h.stops, List.pairwise_singleton _ _, ?_⟩
    intro earlier hearlier _ _ hcaught
    rw [h.calm hfailure earlier hearlier] at hcaught
    exact absurd hcaught (by simp)
  · show (s.log ++ [_]).countP isOnFatal = _
    rw [List.countP_append, h.onFatal]
    rfl
  · intro hnone
    show (s.log ++ [_]).filterMap rejection? = _
    rw [hrejections]
    exact h.unheard hnone
  · intro e hsome
    show ((s.log ++ [_]).filterMap rejection?).head? = _
    rw [hrejections]
    exact h.heard e hsome
  · intro _ w' l hl hended
    have hended : (if w' = w then _ else s.turn w') = Turn.ended := hended
    show (if l = lane then s.next lane + 1 else s.next l) = s.width l
    by_cases hw' : w' = w
    · rw [if_pos hw'] at hended
      exact absurd hended (by simp)
    · rw [if_neg hw'] at hended
      have hfull := h.exhausted hfailure w' l hl hended
      by_cases hll : l = lane
      · rw [hll] at hfull
        omega
      · rw [if_neg hll]
        exact hfull
  · intro w' e hthrew
    have hthrew : (if w' = w then _ else s.turn w') = Turn.threw e := hthrew
    by_cases hw' : w' = w
    · rw [if_pos hw'] at hthrew
      exact absurd hthrew (by simp)
    · rw [if_neg hw'] at hthrew
      exact h.unthrown w' e hthrew
  · intro r hr
    exact absurd (h.result_none.symm.trans hr) (by simp)

/-- A worker's turn, and with it the worker, comes to an end. -/
theorem Kept.endTurn (h : s.Kept (some w) none)
    (hlast : s.failure = none → ∀ lane, s.workers[w]? = some lane → s.next lane = s.width lane) :
    (s.setTurn w .ended).Kept none none := by
  obtain ⟨hturn, hlaunched, hnojob⟩ := h.turning w rfl
  refine
    { workers := h.workers, launched := h.launched, next := h.next, starts := h.starts
      startedOnce := h.startedOnce, awaited := ?_, turning := fun w' hw' => absurd hw' (by simp)
      fresh := ?_, queued := ?_, queuedOnce := h.queuedOnce, calm := h.calm, stops := h.stops
      onFatal := h.onFatal, unheard := h.unheard, heard := h.heard, exhausted := ?_, unthrown := ?_
      finished := ?_ }
  · intro p hp
    obtain ⟨w', hw'⟩ := h.awaited p hp
    obtain ⟨hworker, hawaiting⟩ := awaits_eq_some.1 hw'
    have hne : w' ≠ w := by
      rintro rfl
      rcases hturn with hturn | hturn <;> rw [hturn] at hawaiting <;> exact absurd hawaiting (by simp)
    exact ⟨w', awaits_eq_some.2 ⟨hworker, (if_neg hne).trans hawaiting⟩⟩
  · intro w' _
    show (if w' = w then _ else s.turn w') = _ ↔ s.launched ≤ w'
    by_cases hw' : w' = w
    · subst hw'
      rw [if_pos rfl]
      exact ⟨fun hbad => absurd hbad (by simp), fun hle => by omega⟩
    · rw [if_neg hw']
      exact h.fresh w' (by simpa using Ne.symm hw')
  · intro w' _
    show (if w' = w then _ else s.turn w') = _ ↔ w' ∈ s.jobs.map Prod.fst
    by_cases hw' : w' = w
    · subst hw'
      rw [if_pos rfl]
      exact ⟨fun hbad => absurd hbad (by simp), fun hmem => absurd hmem hnojob⟩
    · rw [if_neg hw']
      exact h.queued w' (by simpa using Ne.symm hw')
  · intro hfailure w' lane hlane hended
    have hended : (if w' = w then Turn.ended else s.turn w') = Turn.ended := hended
    by_cases hw' : w' = w
    · rw [hw'] at hlane
      exact hlast hfailure lane hlane
    · rw [if_neg hw'] at hended
      exact h.exhausted hfailure w' lane hlane hended
  · intro w' e hthrew
    have hthrew : (if w' = w then Turn.ended else s.turn w') = Turn.threw e := hthrew
    by_cases hw' : w' = w
    · rw [if_pos hw'] at hthrew
      exact absurd hthrew (by simp)
    · rw [if_neg hw'] at hthrew
      exact h.unthrown w' e hthrew
  · intro r hr
    exact absurd (h.result_none.symm.trans hr) (by simp)

theorem Kept.goOn (h : s.Kept (some w) none) (hlane : s.workers[w]? = some lane) :
    (s.goOn w lane).Kept none none := by
  unfold Pool.goOn
  by_cases hmore : (s.failure.isNone && decide (s.next lane < s.width lane)) = true
  · rw [if_pos hmore]
    rw [Bool.and_eq_true, Option.isNone_iff_eq_none, decide_eq_true_eq] at hmore
    exact h.start hlane hmore.1 hmore.2
  · rw [if_neg hmore]
    refine h.endTurn fun hfailure lane' hlane' => ?_
    rw [hlane, Option.some.injEq] at hlane'
    have hle := h.next lane
    rw [hfailure, Option.isNone_none, Bool.true_and, decide_eq_true_eq] at hmore
    rw [← hlane']
    omega

/-- A worker is given a rejection, and what it then does is noted. -/
theorem Kept.caught (h : s.Kept (some w) (some e)) (noted : List (Event ε))
    (hnoted : ∀ event ∈ noted, isCaught event = true ∨ isOnFatal event = true)
    (hcalls : s.log.countP isOnFatal + noted.countP isOnFatal = 1) :
    Kept (some w) none { s with failure := some (s.failure.getD e), log := s.log ++ noted } := by
  have hsilent : ∀ event ∈ noted,
      started? event = none ∧ settled? event = none ∧ rejection? event = none := by
    intro event hevent
    have hcase := hnoted event hevent
    cases event <;> simp_all [isCaught, isOnFatal, started?, settled?, rejection?]
  have hstarts : (s.log ++ noted).filterMap started? = s.starts := by
    rw [List.filterMap_append, List.filterMap_eq_nil_iff.2 fun event hevent => (hsilent event hevent).1]
    exact List.append_nil _
  have hsettles : (s.log ++ noted).filterMap settled? = s.settles := by
    rw [List.filterMap_append, List.filterMap_eq_nil_iff.2 fun event hevent => (hsilent event hevent).2.1]
    exact List.append_nil _
  have hrejections : (s.log ++ noted).filterMap rejection? = s.rejections := by
    rw [List.filterMap_append, List.filterMap_eq_nil_iff.2 fun event hevent => (hsilent event hevent).2.2]
    exact List.append_nil _
  refine
    { workers := h.workers, launched := h.launched, next := h.next, starts := ?_
      startedOnce := ?_, awaited := ?_, turning := h.turning, fresh := h.fresh, queued := h.queued
      queuedOnce := h.queuedOnce, calm := fun hnone => absurd hnone (by simp), stops := ?_, onFatal := ?_
      unheard := fun hnone => absurd hnone (by simp), heard := ?_
      exhausted := fun hnone => absurd hnone (by simp), unthrown := h.unthrown, finished := ?_ }
  · intro i k
    show (i, k) ∈ (s.log ++ noted).filterMap started? ↔ _
    rw [hstarts]
    exact h.starts i k
  · show ((s.log ++ noted).filterMap started?).Nodup
    rw [hstarts]
    exact h.startedOnce
  · intro p hp
    obtain ⟨hp, hunsettled⟩ := mem_running.1 hp
    have hp : p ∈ (s.log ++ noted).filterMap started? := hp
    have hunsettled : p ∉ (s.log ++ noted).filterMap settled? := hunsettled
    rw [hstarts] at hp
    rw [hsettles] at hunsettled
    exact h.awaited p (mem_running.2 ⟨hp, hunsettled⟩)
  · refine List.pairwise_append.2 ⟨h.stops, ?_, fun _ _ later hlater _ => (hsilent later hlater).1⟩
    exact List.pairwise_of_forall_mem_list fun _ _ later hlater _ => (hsilent later hlater).1
  · show (s.log ++ noted).countP isOnFatal = 1
    rw [List.countP_append]
    exact hcalls
  · intro e' he'
    show ((s.log ++ noted).filterMap rejection?).head? = some e'
    rw [hrejections]
    have he' : s.failure.getD e = e' := Option.some.inj he'
    rcases hfailure : s.failure with _ | first
    · rw [hfailure, Option.getD_none] at he'
      rw [h.unheard hfailure, he']
      rfl
    · rw [hfailure, Option.getD_some] at he'
      rw [← he']
      exact h.heard first hfailure
  · intro r hr
    exact absurd (h.result_none.symm.trans hr) (by simp)

theorem Kept.catchError (h : s.Kept (some w) (some e)) : (catchError none s w e).Kept none none := by
  have hcalls := h.onFatal
  unfold Pool.catchError
  rcases hfailure : s.failure with _ | first
  · rw [hfailure] at hcalls
    have hcaught := h.caught [.caught e, .onFatal] (by simp [isCaught, isOnFatal])
      (by rw [hcalls]; rfl)
    have hended := hcaught.endTurn fun hnone => absurd hnone (by simp)
    rw [hfailure] at hended
    exact hended
  · rw [hfailure] at hcalls
    have hcaught := h.caught [.caught e] (by simp [isCaught]) (by rw [hcalls]; rfl)
    have hended := hcaught.endTurn fun hnone => absurd hnone (by simp)
    rw [hfailure] at hended
    have heq : s = { s with failure := some first } := by rw [← hfailure]
    rw [Option.isSome_some, if_pos rfl, heq]
    exact hended

/-! ## The steps -/

theorem Kept.launch (h : s.Kept none none) : s.launch.Kept none none := by
  unfold Pool.launch
  rcases hworker : s.workers[s.launched]? with _ | lane
  · exact h
  · have hlt : s.launched < s.workers.length := (List.getElem?_eq_some_iff.1 hworker).1
    have hfresh : s.turn s.launched = .fresh := (h.fresh s.launched (by simp)).2 (Nat.le_refl _)
    have hhole : Kept (some s.launched) none { s with launched := s.launched + 1 } := by
      refine
        { workers := h.workers, launched := hlt, next := h.next, starts := h.starts
          startedOnce := h.startedOnce, awaited := h.awaited, turning := ?_, fresh := ?_
          queued := fun w' _ => h.queued w' (by simp), queuedOnce := h.queuedOnce, calm := h.calm
          stops := h.stops, onFatal := h.onFatal, unheard := h.unheard, heard := h.heard
          exhausted := h.exhausted, unthrown := h.unthrown, finished := h.finished }
      · intro w hw
        rw [Option.some.injEq] at hw
        rw [← hw]
        refine ⟨.inl hfresh, Nat.lt_succ_self _, fun hmem => ?_⟩
        have hqueued := (h.queued s.launched (by simp)).2 hmem
        rw [hfresh] at hqueued
        exact absurd hqueued (by simp)
      · intro w hw
        have hne : s.launched ≠ w := fun heq => hw (by rw [heq])
        rw [h.fresh w (by simp)]
        show s.launched ≤ w ↔ s.launched + 1 ≤ w
        omega
    exact hhole.goOn hworker

/-- The turn that is first in the queue begins. -/
theorem Kept.begin (h : s.Kept none none) {outcome : Outcome ε} {rest : List (Nat × Outcome ε)}
    (hjobs : s.jobs = (w, outcome) :: rest) : Kept (some w) (brings? (w, outcome)) { s with jobs := rest } := by
  have honce := h.queuedOnce
  rw [hjobs, List.map_cons, List.nodup_cons] at honce
  have hmem : ∀ w', w' ∈ s.jobs.map Prod.fst ↔ w' = w ∨ w' ∈ rest.map Prod.fst := by
    intro w'
    rw [hjobs, List.map_cons, List.mem_cons]
  have hturn : s.turn w = .queued := (h.queued w (by simp)).2 ((hmem w).2 (.inl rfl))
  refine
    { workers := h.workers, launched := h.launched, next := h.next, starts := h.starts
      startedOnce := h.startedOnce, awaited := h.awaited, turning := ?_
      fresh := fun w' _ => h.fresh w' (by simp), queued := ?_, queuedOnce := honce.2, calm := h.calm
      stops := h.stops, onFatal := h.onFatal, unheard := ?_, heard := h.heard
      exhausted := h.exhausted, unthrown := h.unthrown, finished := h.finished }
  · intro w' hw'
    rw [Option.some.injEq] at hw'
    rw [← hw']
    refine ⟨.inr hturn, ?_, honce.1⟩
    by_contra hge
    have hfresh := (h.fresh w (by simp)).2 (by show s.launched ≤ w; exact Nat.le_of_not_lt hge)
    rw [hturn] at hfresh
    exact absurd hfresh (by simp)
  · intro w' hw'
    have hne : w' ≠ w := fun heq => hw' (by rw [heq])
    rw [h.queued w' (by simp), hmem w']
    exact ⟨fun hcase => hcase.resolve_left hne, .inr⟩
  · intro hnone
    have hunheard := h.unheard hnone
    rw [hjobs, List.filterMap_cons] at hunheard
    show s.rejections = _
    rw [hunheard]
    rcases brings? (w, outcome) with _ | e <;> rfl

theorem Kept.resume (h : s.Kept none none) : (s.resume none).Kept none none := by
  unfold Pool.resume
  by_cases hcalling : s.launched < s.workers.length
  · rw [if_pos hcalling]
    exact h
  · rw [if_neg hcalling]
    rcases hjobs : s.jobs with _ | ⟨⟨w, _ | e⟩, rest⟩
    · exact h
    · have hbegin := h.begin hjobs
      dsimp only
      rcases hworker : s.workers[w]? with _ | lane
      · exact h
      · exact hbegin.goOn hworker
    · exact (h.begin hjobs).catchError

theorem Kept.settle (h : s.Kept none none) (w : Nat) (outcome : Outcome ε) :
    (s.settle w outcome).Kept none none := by
  unfold Pool.settle
  rcases hawaits : s.awaits w with _ | ⟨lane, item⟩
  · exact h
  · obtain ⟨hworker, hturn⟩ := awaits_eq_some.1 hawaits
    dsimp only at hworker hturn ⊢
    have hlt : w < s.workers.length := (List.getElem?_eq_some_iff.1 hworker).1
    have hnojob : w ∉ s.jobs.map Prod.fst := fun hmem => by
      rw [(h.queued w (by simp)).2 hmem] at hturn
      exact absurd hturn (by simp)
    have hother : ∀ w' ≠ w, (if w' = w then Turn.queued else s.turn w') = s.turn w' :=
      fun w' hw' => if_neg hw'
    have hstarts : (s.log ++ [Event.settled lane item outcome]).filterMap started? = s.starts := by
      rw [List.filterMap_append]
      exact List.append_nil _
    have hsettles : (s.log ++ [Event.settled lane item outcome]).filterMap settled? =
        s.settles ++ [(lane, item)] := by
      rw [List.filterMap_append]
      rfl
    have hrejections : (s.log ++ [Event.settled lane item outcome]).filterMap rejection? =
        s.rejections ++ (brings? (w, outcome)).toList := by
      rw [List.filterMap_append]
      cases outcome <;> rfl
    refine
      { workers := h.workers, launched := h.launched, next := h.next, starts := ?_
        startedOnce := ?_, awaited := ?_, turning := fun w' hw' => absurd hw' (by simp), fresh := ?_
        queued := ?_, queuedOnce := ?_, calm := ?_, stops := ?_, onFatal := ?_, unheard := ?_
        heard := ?_, exhausted := ?_, unthrown := ?_, finished := ?_ }
    · intro i k
      show (i, k) ∈ (s.log ++ [_]).filterMap started? ↔ _
      rw [hstarts]
      exact h.starts i k
    · show ((s.log ++ [_]).filterMap started?).Nodup
      rw [hstarts]
      exact h.startedOnce
    · intro p hp
      have hstarted : p ∈ (s.log ++ [Event.settled lane item outcome]).filterMap started? :=
        (mem_running.1 hp).1
      have hunsettled : p ∉ (s.log ++ [Event.settled lane item outcome]).filterMap settled? :=
        (mem_running.1 hp).2
      rw [hstarts] at hstarted
      rw [hsettles, List.mem_append, List.mem_singleton, not_or] at hunsettled
      obtain ⟨w', hw'⟩ := h.awaited p (mem_running.2 ⟨hstarted, hunsettled.1⟩)
      have hne : w' ≠ w := fun heq => by
        rw [heq, hawaits, Option.some.injEq] at hw'
        exact hunsettled.2 hw'.symm
      obtain ⟨hworker', hawaiting⟩ := awaits_eq_some.1 hw'
      exact ⟨w', awaits_eq_some.2 ⟨hworker', (hother w' hne).trans hawaiting⟩⟩
    · intro w' _
      show (if w' = w then _ else s.turn w') = _ ↔ s.launched ≤ w'
      by_cases hw' : w' = w
      · have hbefore := h.fresh w (by simp)
        rw [hturn] at hbefore
        rw [if_pos hw', hw', ← hbefore]
        exact ⟨fun hbad => absurd hbad (by simp), fun hbad => absurd hbad (by simp)⟩
      · rw [if_neg hw']
        exact h.fresh w' (by simp)
    · intro w' _
      show (if w' = w then _ else s.turn w') = _ ↔ w' ∈ (s.jobs ++ [(w, outcome)]).map Prod.fst
      rw [List.map_append, List.mem_append, List.map_singleton, List.mem_singleton]
      by_cases hw' : w' = w
      · rw [if_pos hw']
        exact ⟨fun _ => .inr hw', fun _ => rfl⟩
      · rw [if_neg hw', h.queued w' (by simp)]
        exact ⟨.inl, fun hcase => hcase.resolve_right hw'⟩
    · show ((s.jobs ++ [(w, outcome)]).map Prod.fst).Nodup
      rw [List.map_append, List.map_singleton]
      exact List.nodup_append.2 ⟨h.queuedOnce, List.nodup_singleton _, fun x hx y hy hxy =>
        hnojob (by rw [← show y = w from List.mem_singleton.1 hy, ← hxy]; exact hx)⟩
    · intro hnone event hevent
      rcases List.mem_append.1 hevent with hevent | hevent
      · exact h.calm hnone event hevent
      · rw [List.mem_singleton.1 hevent]
        rfl
    · refine List.pairwise_append.2 ⟨h.stops, List.pairwise_singleton _ _, ?_⟩
      intro _ _ later hlater _
      rw [List.mem_singleton.1 hlater]
      rfl
    · show (s.log ++ [_]).countP isOnFatal = _
      rw [List.countP_append, h.onFatal]
      rfl
    · intro hnone
      show (s.log ++ [_]).filterMap rejection? = _ ++ (s.jobs ++ [(w, outcome)]).filterMap brings?
      rw [hrejections, h.unheard hnone, List.filterMap_append, List.append_assoc]
      rcases hbrings : brings? (w, outcome) with _ | e <;> simp [hbrings]
    · intro e hsome
      show ((s.log ++ [_]).filterMap rejection?).head? = _
      have hhead := h.heard e hsome
      rw [hrejections]
      rcases hrejected : s.rejections with _ | ⟨first, more⟩
      · rw [hrejected] at hhead
        exact absurd hhead (by simp)
      · rw [hrejected] at hhead
        exact hhead
    · intro hnone w' l hl hended
      have hended : (if w' = w then Turn.queued else s.turn w') = Turn.ended := hended
      by_cases hw' : w' = w
      · rw [if_pos hw'] at hended
        exact absurd hended (by simp)
      · rw [if_neg hw'] at hended
        exact h.exhausted hnone w' l hl hended
    · intro w' e hthrew
      have hthrew : (if w' = w then Turn.queued else s.turn w') = Turn.threw e := hthrew
      by_cases hw' : w' = w
      · rw [if_pos hw'] at hthrew
        exact absurd hthrew (by simp)
      · rw [if_neg hw'] at hthrew
        exact h.unthrown w' e hthrew
    · intro r hr
      have hended := (h.finished r hr).1 w hlt
      rw [hturn] at hended
      exact absurd hended (by simp)

theorem findSome?_threw_eq_none (h : ∀ w e, s.turn w ≠ .threw e) :
    ((List.range s.workers.length).findSome? fun w => threw? (s.turn w)) = none := by
  rw [List.findSome?_eq_none_iff]
  intro w _
  rcases hturn : s.turn w with _ | _ | _ | _ | e
  · rfl
  · rfl
  · rfl
  · rfl
  · exact absurd hturn (h w e)

theorem Kept.finish (h : s.Kept none none) : s.finish.Kept none none := by
  unfold Pool.finish
  split
  · exact h
  · rw [findSome?_threw_eq_none h.unthrown]
    dsimp only
    split
    · rename_i hended
      refine
        { workers := h.workers, launched := h.launched, next := h.next, starts := h.starts
          startedOnce := h.startedOnce, awaited := h.awaited, turning := h.turning, fresh := h.fresh
          queued := h.queued, queuedOnce := h.queuedOnce, calm := h.calm, stops := h.stops
          onFatal := h.onFatal, unheard := h.unheard, heard := h.heard, exhausted := h.exhausted
          unthrown := h.unthrown, finished := fun r hr => ⟨fun w hw => ?_, (Option.some.inj hr).symm⟩ }
      have hw := List.all_eq_true.1 hended w (List.mem_range.2 hw)
      show s.turn w = .ended
      rcases hturn : s.turn w with _ | _ | _ | _ | e
      · rw [hturn] at hw
        exact absurd hw (by simp [hasEnded])
      · rw [hturn] at hw
        exact absurd hw (by simp [hasEnded])
      · rw [hturn] at hw
        exact absurd hw (by simp [hasEnded])
      · rfl
      · exact absurd hturn (h.unthrown w e)
    · exact h

theorem Kept.step (h : s.Kept none none) (act : Act ε) : (s.step none act).Kept none none := by
  cases act with
  | launch => exact h.launch
  | settle w outcome => exact h.settle w outcome
  | resume => exact h.resume
  | finish => exact h.finish

theorem kept_start (lanes : List (Items α)) : (start lanes : Pool α ε).Kept none none where
  workers := rfl
  launched := Nat.zero_le _
  next _ := Nat.zero_le _
  starts i k := by simp [start, starts]
  startedOnce := List.nodup_nil
  awaited p hp := absurd (mem_running.1 hp).1 List.not_mem_nil
  turning w hw := absurd hw (by simp)
  fresh w _ := by simp [start]
  queued w _ := by simp [start]
  queuedOnce := List.nodup_nil
  calm _ event hevent := absurd hevent List.not_mem_nil
  stops := List.Pairwise.nil
  onFatal := rfl
  unheard _ := rfl
  heard e he := absurd he (by simp [start])
  exhausted _ w lane _ hended := absurd hended (by simp [start])
  unthrown w e := by simp [start]
  finished r hr := absurd hr (by simp [start])

theorem kept_run (lanes : List (Items α)) (acts : List (Act ε)) :
    ((start lanes : Pool α ε).run none acts).Kept none none :=
  run_keeps (fun _ act h => h.step act) acts (kept_start lanes)

theorem lanes_goOn (s : Pool α ε) (w lane : Nat) : (s.goOn w lane).lanes = s.lanes := by
  unfold Pool.goOn
  split <;> rfl

theorem lanes_step (onFatal : Option ε) (s : Pool α ε) (act : Act ε) :
    (s.step onFatal act).lanes = s.lanes := by
  cases act with
  | launch =>
    show s.launch.lanes = _
    unfold Pool.launch
    split
    · rfl
    · exact lanes_goOn _ _ _
  | settle w outcome =>
    show (s.settle w outcome).lanes = _
    unfold Pool.settle
    split <;> rfl
  | resume =>
    show (s.resume onFatal).lanes = _
    unfold Pool.resume
    split
    · rfl
    · split
      · rfl
      · unfold Pool.catchError
        split <;> rfl
      · split
        · rfl
        · exact lanes_goOn _ _ _
  | finish =>
    show s.finish.lanes = _
    unfold Pool.finish
    split
    · rfl
    · split
      · rfl
      · split <;> rfl

theorem lanes_run (onFatal : Option ε) (s : Pool α ε) (acts : List (Act ε)) :
    (s.run onFatal acts).lanes = s.lanes :=
  run_keeps (I := fun s' : Pool α ε => s'.lanes = s.lanes)
    (fun s' act h => (lanes_step onFatal s' act).trans h) acts rfl

/-! ## The workers of a lane -/

theorem le_of_mem_workersFrom {i j : Nat} {lanes : List (Items α)} (h : j ∈ workersFrom i lanes) :
    i ≤ j := by
  induction lanes generalizing i with
  | nil => exact absurd h List.not_mem_nil
  | cons lane rest ih =>
    rcases List.mem_append.1 h with h | h
    · exact Nat.le_of_eq (List.eq_of_mem_replicate h).symm
    · exact Nat.le_of_succ_le (ih h)

theorem count_workersFrom {i k : Nat} {lanes : List (Items α)} {lane : Items α}
    (h : lanes[k]? = some lane) :
    (workersFrom i lanes).count (i + k) = min lane.size lane.items.length := by
  induction lanes generalizing i k with
  | nil => exact absurd h (by simp)
  | cons first rest ih =>
    show (List.replicate (min first.size first.items.length) i ++ workersFrom (i + 1) rest).count _ = _
    rw [List.count_append]
    rcases k with _ | k
    · have hfirst : first = lane := by simpa using h
      have hlater : (workersFrom (i + 1) rest).count i = 0 :=
        List.count_eq_zero_of_not_mem fun hmem => by
          have hle := le_of_mem_workersFrom hmem
          omega
      rw [Nat.add_zero, hlater, List.count_replicate_self, hfirst, Nat.add_zero]
    · have hrest : rest[k]? = some lane := by simpa using h
      have hnone : (List.replicate (min first.size first.items.length) i).count (i + (k + 1)) = 0 :=
        List.count_eq_zero_of_not_mem fun hmem => by
          have heq := List.eq_of_mem_replicate hmem
          omega
      have hcount := ih (i := i + 1) hrest
      rw [show i + 1 + k = i + (k + 1) by omega] at hcount
      rw [hnone, hcount, Nat.zero_add]

/-- A list holds a value at as many places as it counts. -/
theorem length_places (l : List Nat) (i : Nat) :
    ((List.range l.length).filter fun w => decide (l[w]? = some i)).length = l.count i := by
  induction l using List.reverseRecOn with
  | nil => rfl
  | append_singleton l x ih =>
    have hsame : (List.range l.length).filter (fun w => decide ((l ++ [x])[w]? = some i)) =
        (List.range l.length).filter fun w => decide (l[w]? = some i) :=
      List.filter_congr fun w hw => by rw [List.getElem?_append_left (List.mem_range.1 hw)]
    rw [List.length_append, List.length_singleton, List.range_succ, List.filter_append,
      List.length_append, hsame, ih, List.count_append]
    by_cases hx : x = i <;> simp [hx]

theorem Kept.running_le (h : s.Kept none none) (i : Nat) :
    (s.running.filter (·.1 = i)).length ≤ s.workers.count i := by
  rw [← length_places]
  have hnodup : (s.running.filter fun p => decide (p.1 = i)).Nodup :=
    (h.startedOnce.filter _).filter _
  have hsub : s.running.filter (fun p => decide (p.1 = i)) ⊆
      ((List.range s.workers.length).filter fun w => decide (s.workers[w]? = some i)).filterMap
        s.awaits := by
    intro p hp
    rw [List.mem_filter, decide_eq_true_eq] at hp
    obtain ⟨w, hw⟩ := h.awaited p hp.1
    obtain ⟨hworker, -⟩ := awaits_eq_some.1 hw
    refine List.mem_filterMap.2 ⟨w, List.mem_filter.2 ⟨?_, ?_⟩, hw⟩
    · exact List.mem_range.2 (List.getElem?_eq_some_iff.1 hworker).1
    · rw [hworker, hp.2]
      exact decide_eq_true rfl
  exact Nat.le_trans (hnodup.subperm hsub).length_le (List.length_filterMap_le _ _)

/-! ## The end of the pool -/

theorem Kept.over (h : s.Kept none none) {r : Except ε Unit} (hr : s.result = some r) :
    s.running = [] ∧ s.jobs = [] := by
  obtain ⟨hended, -⟩ := h.finished r hr
  refine ⟨List.eq_nil_iff_forall_not_mem.2 fun p hp => ?_, ?_⟩
  · obtain ⟨w, hw⟩ := h.awaited p hp
    obtain ⟨hworker, hturn⟩ := awaits_eq_some.1 hw
    rw [hended w (List.getElem?_eq_some_iff.1 hworker).1] at hturn
    exact absurd hturn (by simp)
  · rcases hjobs : s.jobs with _ | ⟨⟨w, outcome⟩, rest⟩
    · rfl
    · have hqueued := (h.queued w (by simp)).2 (by rw [hjobs]; simp)
      have hlt : w < s.launched := by
        by_contra hge
        rw [(h.fresh w (by simp)).2 (Nat.le_of_not_lt hge)] at hqueued
        exact absurd hqueued (by simp)
      rw [hended w (Nat.lt_of_lt_of_le hlt h.launched)] at hqueued
      exact absurd hqueued (by simp)

/-- Every item of a lane that has a worker was run, if nothing failed. -/
theorem Kept.all_settled (h : s.Kept none none) {r : Except ε Unit} (hr : s.result = some r)
    (hfailure : s.failure = none) {i k : Nat} {items : Items α} (hitems : s.lanes[i]? = some items)
    (hsize : 0 < items.size) (hk : k < items.items.length) : (i, k) ∈ s.settles := by
  have hcount := count_workersFrom (i := 0) hitems
  rw [Nat.zero_add, ← h.workers] at hcount
  obtain ⟨w, hlt, hworker⟩ := List.getElem_of_mem (List.count_pos_iff.1 (by omega) : i ∈ s.workers)
  have hended := (h.finished r hr).1 w hlt
  have hfull := h.exhausted hfailure w i (by rw [List.getElem?_eq_getElem hlt, hworker]) hended
  have hwidth : s.width i = items.items.length := by
    unfold width
    rw [hitems]
    rfl
  have hstarted : (i, k) ∈ s.starts := (h.starts i k).2 (by omega)
  by_contra hrunning
  have hmem := mem_running.2 ⟨hstarted, hrunning⟩
  rw [(h.over hr).1] at hmem
  exact absurd hmem List.not_mem_nil

theorem Kept.finish_of_idle (h : s.Kept none none) (hidle : s.Idle) : s.finish.result.isSome = true := by
  obtain ⟨hlaunched, hjobs, hawaits⟩ := hidle
  have hended : ((List.range s.workers.length).all fun w => hasEnded (s.turn w)) = true := by
    rw [List.all_eq_true]
    intro w hw
    have hlt := List.mem_range.1 hw
    rcases hturn : s.turn w with _ | item | _ | _ | e
    · have hle := (h.fresh w (by simp)).1 hturn
      omega
    · have hsome : s.awaits w = some (s.workers[w], item) :=
        awaits_eq_some.2 ⟨List.getElem?_eq_getElem hlt, hturn⟩
      rw [hawaits w] at hsome
      exact absurd hsome (by simp)
    · have hmem := (h.queued w (by simp)).1 hturn
      rw [hjobs] at hmem
      exact absurd hmem List.not_mem_nil
    · rfl
    · rfl
  unfold Pool.finish
  split
  · rename_i hdone
    rw [Bool.or_eq_true, decide_eq_true_eq] at hdone
    exact hdone.resolve_left (by omega)
  · rw [findSome?_threw_eq_none h.unthrown]
    rfl

theorem Kept.endsCleanly (h : s.Kept none none)
    (hsizes : ∀ lane ∈ s.lanes, lane.items ≠ [] → 0 < lane.size) : s.EndsCleanly where
  startedOnce := h.startedOnce
  atMostSize i lane hlane := by
    have hcount := count_workersFrom (i := 0) hlane
    rw [Nat.zero_add, ← h.workers] at hcount
    have hle := h.running_le i
    omega
  stops := h.stops
  fatalOnce := by
    have hcalls := h.onFatal
    split at hcalls <;> omega
  fatal hsome := by
    obtain ⟨r, hr⟩ := Option.isSome_iff_exists.1 hsome
    have hcalls := h.onFatal
    rcases hfailure : s.failure with _ | e
    · have hunheard := h.unheard hfailure
      rw [(h.over hr).2] at hunheard
      rw [hfailure] at hcalls
      rw [hcalls, hunheard]
      simp
    · have hheard := h.heard e hfailure
      rw [hfailure] at hcalls
      rw [hcalls]
      refine ⟨fun _ hnil => ?_, fun _ => rfl⟩
      rw [hnil] at hheard
      exact absurd hheard (by simp)
  waits hsome := by
    obtain ⟨r, hr⟩ := Option.isSome_iff_exists.1 hsome
    exact (h.over hr).1
  resolves hr := by
    have hvalue := (h.finished _ hr).2
    rcases hfailure : s.failure with _ | e
    · have hunheard := h.unheard hfailure
      rw [(h.over hr).2] at hunheard
      refine ⟨hunheard, fun i lane hlane k hk => ?_⟩
      have hne : lane.items ≠ [] := List.ne_nil_of_length_pos (by omega)
      exact h.all_settled hr hfailure hlane (hsizes lane (List.mem_of_getElem? hlane) hne) hk
    · rw [hfailure] at hvalue
      exact absurd hvalue (by simp)
  rejects error hr := by
    have hvalue := (h.finished _ hr).2
    rcases hfailure : s.failure with _ | e
    · rw [hfailure] at hvalue
      exact absurd hvalue (by simp)
    · rw [hfailure] at hvalue
      rw [Except.error.inj hvalue]
      exact h.heard e hfailure
  settles hidle := h.finish_of_idle hidle

theorem run_endsCleanly (lanes : List (Items α))
    (hsizes : ∀ lane ∈ lanes, lane.items ≠ [] → 0 < lane.size) (acts : List (Act ε)) :
    ((start lanes : Pool α ε).run none acts).EndsCleanly := by
  refine (kept_run lanes acts).endsCleanly ?_
  rw [lanes_run]
  exact hsizes

/-- Two lanes; an item fails while another one runs, which then fails too. -/
theorem run_endsCleanly_of_two_lanes :
    ((start [⟨["a", "b"], 1⟩, ⟨["c"], 4⟩] : Pool String String).run none
      [.launch, .launch, .settle 1 (.rejected "network down"), .resume, .settle 0 (.rejected "aborted"),
        .resume, .finish]).EndsCleanly :=
  run_endsCleanly _ (by decide) _

/-- A callback that throws settles the pool with its own error, while an item still runs. -/
theorem throwing_onFatal_ends_early :
    ¬ ((start [⟨[1, 2], 2⟩] : Pool Nat String).run (some "not fatal")
      [.launch, .launch, .settle 0 (.rejected "network down"), .resume, .finish]).EndsCleanly := by
  intro hends
  have hrunning := hends.waits (by decide)
  exact absurd hrunning (by decide)

end Staaash.Transfers.Pool
