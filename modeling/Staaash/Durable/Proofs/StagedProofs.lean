import Staaash.Durable.Proofs.RequestsProofs

/-!
# Proofs: staged files

The staged file of an upload is named by one mutation at most, its own, and only the transactions of the
upload make that. Where the upload removes the file its mutation is closed: it was aborted or has
committed, or it was never made and no transaction is left that could, or another mutation has the key
of the upload for good.
-/

namespace Staaash.Durable

open Staaash.Journal (Status)
open Staaash.Library

variable {s s' : World} {e : Event} {i j n : Nat} {r r' : Request} {id : String}
variable {m m' : Mutation} {step : RequestStep}

/-! ## Uploads and their mutations -/

/-- Uploads have their staged files and their mutations to themselves. -/
structure UploadsApart (s : World) : Prop where
  origins : ∀ id m, s.mutations.get id = some m → m.input.mutationId = id ∧
    ∃ i r, s.requests.get i = some r ∧ m.input = r.input
  apart : ∀ i j r r', s.requests.get i = some r → s.requests.get j = some r' → i ≠ j →
    r.input.stagedKey.isSome = true →
    r'.input.mutationId ≠ r.input.mutationId ∧ r'.input.stagedKey ≠ r.input.stagedKey

theorem of_admits {input : Input} (h : s.admits input = true) (hr : s.requests.get i = some r)
    (hstaged : input.stagedKey.isSome = true ∨ r.input.stagedKey.isSome = true) :
    input.mutationId ≠ r.input.mutationId ∧ input.stagedKey ≠ r.input.stagedKey := by
  have hall := List.all_eq_true.mp h (i, r) ((OrderedMap.get_eq_some_iff _ _ _).mp hr)
  simp only [Bool.or_eq_true, Bool.and_eq_true, decide_eq_true_eq] at hall
  rcases hall with ⟨h₁, h₂⟩ | hne
  · rw [Option.isNone_iff_eq_none] at h₁ h₂
    rcases hstaged with h | h
    · rw [h₁] at h
      cases h
    · rw [h₂] at h
      cases h
  · exact hne

theorem UploadsApart.act (h : UploadsApart s) (hinv : RequestInv s) (hact : Acts s e s') :
    UploadsApart s' := by
  constructor
  · intro id m' hm'
    have hfrom : m'.input.mutationId = id ∧ ∃ i r, s.requests.get i = some r ∧ m'.input = r.input := by
      rcases hact.row hinv.fits hm' with ⟨m, hm, hbecomes⟩ | ⟨i, _, r, -, -, hr, -, -, rfl, rfl⟩
      · rw [hbecomes.input]
        exact h.origins id m hm
      · exact ⟨rfl, i, r, hr, rfl⟩
    obtain ⟨hid, i, r, hr, hinput⟩ := hfrom
    obtain ⟨r', hr', hsame⟩ := hact.request_stays hr
    exact ⟨hid, i, r', hr', hinput.trans hsame.symm⟩
  · have hold : ∀ i r', s'.requests.get i = some r' →
        (∃ r, s.requests.get i = some r ∧ r'.input = r.input) ∨
          (s.requests.get i = none ∧ e = .begin i r'.input ∧ s.admits r'.input = true) := by
      intro i r' hr'
      rcases hact.mem_requests hr' with hr | ⟨hnone, input, he, hadmits, rfl⟩ | ⟨r, _, -, hr, -, hgoes⟩
      · exact Or.inl ⟨r', hr, rfl⟩
      · exact Or.inr ⟨hnone, he, hadmits⟩
      · rcases hgoes with ⟨rfl, -⟩ | ⟨-, hgoes⟩
        · exact Or.inl ⟨r, hr, rfl⟩
        · exact Or.inl ⟨r, hr, hgoes.input⟩
    intro i j r r' hr hr' hne hstaged
    rcases hold i r hr with ⟨r₀, hr₀, hinput⟩ | ⟨-, he, hadmits⟩
    · rcases hold j r' hr' with ⟨r₁, hr₁, hinput'⟩ | ⟨-, -, hadmits⟩
      · rw [hinput, hinput']
        exact h.apart i j r₀ r₁ hr₀ hr₁ hne (hinput ▸ hstaged)
      · rw [hinput]
        exact of_admits hadmits hr₀ (Or.inr (hinput ▸ hstaged))
    · rcases hold j r' hr' with ⟨r₁, hr₁, hinput'⟩ | ⟨-, he', -⟩
      · rw [hinput']
        have hapart := of_admits hadmits hr₁ (Or.inl hstaged)
        exact ⟨hapart.1.symm, hapart.2.symm⟩
      · rw [he] at he'
        exact absurd (Event.begin.inj he').1 hne

/-- A mutation under the id of an upload is its own. -/
theorem UploadsApart.own (h : UploadsApart s) (hr : s.requests.get i = some r)
    (hstaged : r.input.stagedKey.isSome = true) (hm : s.mutations.get r.input.mutationId = some m) :
    m.input = r.input := by
  obtain ⟨hid, j, r', hr', hinput⟩ := h.origins _ m hm
  by_cases hij : i = j
  · subst hij
    rw [hr] at hr'
    rw [hinput, Option.some.inj hr']
  · have hne := (h.apart i j r r' hr hr' hij hstaged).1
    rw [hinput] at hid
    exact absurd hid hne

/-- A mutation that names the staged file of an upload is its own. -/
theorem UploadsApart.own_of_staged (h : UploadsApart s) (hr : s.requests.get i = some r)
    (hstaged : r.input.stagedKey.isSome = true) (hm : s.mutations.get id = some m)
    (hsame : m.input.stagedKey = r.input.stagedKey) : id = r.input.mutationId := by
  obtain ⟨hid, j, r', hr', hinput⟩ := h.origins _ m hm
  by_cases hij : i = j
  · subst hij
    rw [hr] at hr'
    rw [← hid, hinput, Option.some.inj hr']
  · have hne := (h.apart i j r r' hr hr' hij hstaged).2
    rw [hinput] at hsame
    exact absurd hsame hne

/-! ## Mutations that are closed -/

/-- The mutation needs no staged file any more, and no transaction of the request will make it. -/
structure World.Closed (s : World) (i : Nat) (id : String) : Prop where
  settled : ∀ m, s.mutations.get id = some m → m.status = .aborted ∨ m.committed = true
  unmade : s.mutations.get id = none → ∀ n, (i, n) ∉ s.inFlight

theorem closed_of_get (hm : s.mutations.get id = some m)
    (hover : m.status = .aborted ∨ m.committed = true) : s.Closed i id where
  settled m' hm' := by
    rw [hm] at hm'
    exact Option.some.inj hm' ▸ hover
  unmade hnone := by
    rw [hm] at hnone
    cases hnone

theorem closed_of_none (hnone : s.mutations.get id = none) (hfree : ∀ n, (i, n) ∉ s.inFlight) :
    s.Closed i id where
  settled m hm := by
    rw [hnone] at hm
    cases hm
  unmade _ := hfree

/-- Only a transaction of the upload makes its mutation. -/
theorem UploadsApart.made_by_own (h : UploadsApart s) (hinv : RequestInv s) (hact : Acts s e s')
    (hr : s.requests.get i = some r) (hstaged : r.input.stagedKey.isSome = true)
    (hm : s'.mutations.get r.input.mutationId = some m') :
    (∃ m, s.mutations.get r.input.mutationId = some m ∧ m.Becomes m') ∨
      ∃ n, e = .takeEffect i n ∧ (i, n) ∈ s.inFlight ∧
        s.mutations.get r.input.mutationId = none := by
  rcases hact.row hinv.fits hm with hold | ⟨j, n, r₀, he, hmem, hr₀, hnone, -, hid, -⟩
  · exact Or.inl hold
  · by_cases hij : i = j
    · subst hij
      rw [hid]
      exact Or.inr ⟨n, he, hmem, hnone⟩
    · exact absurd hid.symm (h.apart i j r r₀ hr hr₀ hij hstaged).1

/-- A step that is not another attempt of the request does not reopen its mutation. -/
theorem World.Closed.act (h : s.Closed i r.input.mutationId) (hapart : UploadsApart s)
    (hinv : RequestInv s) (hact : Acts s e s') (hr : s.requests.get i = some r)
    (hstaged : r.input.stagedKey.isSome = true)
    (hsends : e = .request i .send → r.stage ≠ .sending) :
    s'.Closed i r.input.mutationId := by
  constructor
  · intro m' hm'
    rcases hapart.made_by_own hinv hact hr hstaged hm' with ⟨m, hm, rfl | hgoes⟩ | ⟨n, -, hmem, hnone⟩
    · exact h.settled m' hm
    · rcases h.settled m hm with haborted | hcommitted
      · exact absurd haborted hgoes.aborted
      · exact Or.inr (hgoes.committed hcommitted)
    · exact absurd hmem (h.unmade hnone n)
  · intro hnone n hmem
    have hbefore : s.mutations.get r.input.mutationId = none := by
      cases hm : s.mutations.get r.input.mutationId with
      | none => rfl
      | some m =>
        obtain ⟨m', hm', -⟩ := hact.row_stays hinv.fits hm
        rw [hnone] at hm'
        cases hm'
    rcases hact.mem_transactions.2 _ hmem with hmem | ⟨r₀, hr₀, he, hsending⟩
    · exact h.unmade hbefore n hmem
    · rw [hr] at hr₀
      rw [← Option.some.inj hr₀] at hsending
      exact hsends he hsending

/-! ## What an upload knows of its own mutation -/

structure Knows (s : World) (i : Nat) (r : Request) : Prop where
  /-- Nothing has been sent. -/
  untouched : r.stage = .replaying ∨ r.stage = .starting →
    s.mutations.get r.input.mutationId = none ∧ ∀ n, (i, n) ∉ s.inFlight
  made : ∀ m, s.mutations.get r.input.mutationId = some m → s.tookEffect i = true
  /-- The mutation of another request was found by its key. -/
  keyed : ∀ id, r.stage.mutation = some id → id ≠ r.input.mutationId →
    r.input.key.isSome = true
  failed : ∀ failure, r.stage = .failed failure → failure.removes = true →
    s.Closed i r.input.mutationId

structure StagedInv (s : World) : Prop where
  requests : RequestInv s
  uploads : UploadsApart s
  knows : ∀ i r, s.requests.get i = some r → r.input.stagedKey.isSome = true → Knows s i r
  removed : ∀ i r, s.requests.get i = some r → r.removed = true →
    r.input.stagedKey.isSome = true ∧ r.stage.cleans = true

/-! ## One step -/

theorem tookEffect_iff : s.tookEffect i = true ↔ ∃ n, (i, n) ∈ s.effective := by
  simp [World.tookEffect]

theorem undecided_eq_false_iff : s.undecided i = false ↔ ∀ n, (i, n) ∉ s.inFlight := by
  simp only [World.undecided, List.any_eq_false, decide_eq_true_eq]
  exact ⟨fun h n hmem => h _ hmem rfl, fun h call hmem heq => h call.2 (heq ▸ hmem)⟩

/-- An upload's mutation that is not aborted has the upload's key. -/
theorem StagedInv.own_key (h : StagedInv s) (hr : s.requests.get i = some r)
    (hstaged : r.input.stagedKey.isSome = true) (hm : s.mutations.get r.input.mutationId = some m)
    (hlive : m.status ≠ .aborted) : m.idempotencyKey = r.input.idempotencyKey := by
  rw [(h.requests.fits _ m hm).key, if_neg hlive, h.uploads.own hr hstaged hm]

/-- Where a lookup finds nothing, the upload's own mutation is absent or aborted. -/
theorem StagedInv.aborted_of_missing (h : StagedInv s) (hr : s.requests.get i = some r)
    (hstaged : r.input.stagedKey.isSome = true) (hnone : s.existing r.input = none)
    (hm : s.mutations.get r.input.mutationId = some m) : m.status = .aborted := by
  by_contra hlive
  have hown := h.own_key hr hstaged hm hlive
  unfold World.existing at hnone
  cases hkey : r.input.key with
  | none =>
    simp only [hkey, Option.map_eq_none_iff] at hnone
    rw [hnone] at hm
    cases hm
  | some key =>
    simp only [hkey] at hnone
    rw [key_of_input hkey] at hown
    have hmiss := List.find?_eq_none.mp hnone (r.input.mutationId, m)
      ((OrderedMap.get_eq_some_iff _ _ _).mp hm)
    exact hmiss (by simpa using hown)

/-- Nothing under way and nothing effective: the mutation was never made. -/
theorem Knows.closed_of_quiet (h : Knows s i r) (hquiet : s.quiet i = true) :
    s.Closed i r.input.mutationId := by
  rw [World.quiet, Bool.and_eq_true, Bool.not_eq_true', Bool.not_eq_true'] at hquiet
  refine closed_of_none ?_ (undecided_eq_false_iff.mp hquiet.1)
  cases hm : s.mutations.get r.input.mutationId with
  | none => rfl
  | some m =>
    rw [h.made m hm] at hquiet
    cases hquiet.2

theorem StagedInv.closed_of_missing (h : StagedInv s) (hr : s.requests.get i = some r)
    (hstaged : r.input.stagedKey.isSome = true) (hnone : s.existing r.input = none)
    (hdecided : s.tookEffect i = true ∨ s.undecided i = false) :
    s.Closed i r.input.mutationId := by
  constructor
  · intro m hm
    exact Or.inl (h.aborted_of_missing hr hstaged hnone hm)
  · intro hmissing
    rcases hdecided with heffective | hdecided
    · obtain ⟨n, hmem⟩ := tookEffect_iff.mp heffective
      obtain ⟨m, hm, -⟩ := h.requests.effective _ hmem r hr
      rw [hmissing] at hm
      cases hm
    · exact undecided_eq_false_iff.mp hdecided

/-- An aborted mutation that a lookup finds is the upload's own. -/
theorem StagedInv.closed_of_aborted (h : StagedInv s) (hfound : s.existing r.input = some (id, m))
    (hstatus : m.status = .aborted) : s.Closed i r.input.mutationId := by
  obtain ⟨hm, ⟨key, -, hused⟩ | ⟨-, rfl⟩⟩ := of_existing hfound
  · exact absurd hstatus ((h.requests.fits _ m hm).key_eq hused).1
  · exact closed_of_get hm (Or.inl hstatus)

/-- What a request executes under another id was found by its key. -/
theorem keyed_of_existing (hfound : s.existing r.input = some (id, m))
    (hne : id ≠ r.input.mutationId) : r.input.key.isSome = true := by
  obtain ⟨-, ⟨key, hkey, -⟩ | ⟨-, hid⟩⟩ := of_existing hfound
  · rw [hkey]
    rfl
  · exact absurd hid hne

theorem Knows.keyed_of_moved (h : Knows s i r) {stage : Stage} (hmoved : Moved s i r step stage)
    (hid : stage.mutation = some id) (hne : id ≠ r.input.mutationId) :
    r.input.key.isSome = true := by
  cases hmoved with
  | pending hpending => cases stage <;> simp_all [Stage.pending, Stage.mutation]
  | prepared =>
    obtain rfl := Option.some.inj hid
    exact absurd rfl hne
  | executes hfound =>
    obtain rfl := Option.some.inj hid
    exact keyed_of_existing hfound hne
  | replays hfound =>
    obtain rfl := Option.some.inj hid
    exact keyed_of_existing hfound hne
  | returns hstage =>
    obtain rfl := Option.some.inj hid
    rcases hstage with hstage | hstage
    · exact h.keyed _ (by rw [hstage]; rfl) hne
    · exact h.keyed _ (by rw [hstage]; rfl) hne
  | breaks hstage =>
    obtain rfl := Option.some.inj hid
    exact h.keyed _ (by rw [hstage]; rfl) hne
  | _ => cases hid

/-- An upload that ends with an error which removes its file leaves its mutation closed. -/
theorem StagedInv.closed_of_moved (h : StagedInv s) {failure : Failure}
    (hr : s.requests.get i = some r) (hstaged : r.input.stagedKey.isSome = true)
    (hok : r.decides s i step = true) (hmoved : Moved s i r step (.failed failure))
    (hremoves : failure.removes = true) : s.Closed i r.input.mutationId := by
  have hknows := h.knows i r hr hstaged
  cases hmoved with
  | pending hpending => cases hpending
  | keeps hkeeps =>
    rw [hremoves] at hkeeps
    cases hkeeps
  | refused hstage =>
    obtain ⟨hnone, hfree⟩ := hknows.untouched (Or.inr hstage)
    exact closed_of_none hnone hfree
  | missing hstep hstage hbusy hfound =>
    refine h.closed_of_missing hr hstaged hfound ?_
    subst hstep
    have hlisted : failure ∈ [Failure.refused, .rejected, .cancelled] := by
      revert hremoves hbusy
      cases failure <;> simp [Failure.removes]
    simpa [Request.decides, hstage, hfound, hlisted] using hok
  | differs hfound hkey hpayload =>
    obtain ⟨hm, ⟨key, hkey', -⟩ | ⟨-, rfl⟩⟩ := of_existing hfound
    · rw [hkey] at hkey'
      cases hkey'
    · rw [h.uploads.own hr hstaged hm] at hpayload
      exact absurd rfl hpayload
  | aborted hfound hstatus => exact h.closed_of_aborted hfound hstatus
  | @undone _ id m hstep hstage hm hstatus =>
    subst hstep
    by_cases hown : id = r.input.mutationId
    · exact hown ▸ closed_of_get hm (Or.inl hstatus)
    · exact hknows.closed_of_quiet (by simpa [Request.decides, hstage, hown, hm, hstatus] using hok)
  | @rejects _ id m hstep hstage hm hover =>
    subst hstep
    by_cases hown : id = r.input.mutationId
    · exact hown ▸ closed_of_get hm hover
    · exact hknows.closed_of_quiet (by simpa [Request.decides, hstage, hown] using hok)
  | rethrows hstep hstage =>
    subst hstep
    simp only [Request.decides, hstage, Bool.and_eq_true] at hok
    exact hknows.closed_of_quiet hok.2
  | givesUp hstep =>
    subst hstep
    exact hknows.closed_of_quiet hok

/-- A mutation of an upload comes from one of its transactions. -/
theorem StagedInv.made_act (h : StagedInv s) (hact : Acts s e s') (hr : s.requests.get i = some r)
    (hstaged : r.input.stagedKey.isSome = true)
    (hm : s'.mutations.get r.input.mutationId = some m') : s'.tookEffect i = true := by
  rcases h.uploads.made_by_own h.requests hact hr hstaged hm with ⟨m, hm₀, -⟩ | ⟨n, rfl, -, hnone⟩
  · obtain ⟨n, hmem⟩ := tookEffect_iff.mp ((h.knows i r hr hstaged).made m hm₀)
    refine tookEffect_iff.mpr ⟨n, ?_⟩
    cases hact with
    | takeEffect => exact List.mem_cons_of_mem _ hmem
    | begin | request | ends | deed => exact hmem
  · cases hact with
    | takeEffect => exact tookEffect_iff.mpr ⟨n, List.mem_cons_self⟩
    | ends =>
      rw [hnone] at hm
      cases hm

/-- A step that leaves the upload's request alone. -/
theorem StagedInv.knows_of_same (h : StagedInv s) (hact : Acts s e s')
    (hr : s.requests.get i = some r) (hstaged : r.input.stagedKey.isSome = true) : Knows s' i r := by
  have hknows := h.knows i r hr hstaged
  constructor
  · intro hstage
    obtain ⟨hnone, hfree⟩ := hknows.untouched hstage
    constructor
    · cases hm : s'.mutations.get r.input.mutationId with
      | none => rfl
      | some m =>
        rcases h.uploads.made_by_own h.requests hact hr hstaged hm with ⟨m₀, hm₀, -⟩ | ⟨n, -, hmem, -⟩
        · rw [hnone] at hm₀
          cases hm₀
        · exact absurd hmem (hfree n)
    · intro n hmem
      rcases hact.mem_transactions.2 _ hmem with hmem | ⟨r₀, hr₀, -, hsending⟩
      · exact hfree n hmem
      · rw [hr] at hr₀
        rw [← Option.some.inj hr₀] at hsending
        rw [hsending] at hstage
        rcases hstage with hstage | hstage
        · cases hstage
        · cases hstage
  · intro m hm
    exact h.made_act hact hr hstaged hm
  · exact hknows.keyed
  · intro failure hstage hremoves
    refine (hknows.failed failure hstage hremoves).act h.uploads h.requests hact hr hstaged ?_
    rw [hstage]
    exact fun _ => nofun

/-- A new upload has a mutation id of its own. -/
theorem StagedInv.knows_fresh (h : StagedInv s) {input : Input}
    (hact : Acts s (.begin i input) s') (hi : s.requests.get i = none)
    (hadmits : s.admits input = true) (hstaged : input.stagedKey.isSome = true) :
    Knows s' i (.fresh input) := by
  have hnone : s'.mutations.get input.mutationId = none := by
    cases hm : s'.mutations.get input.mutationId with
    | none => rfl
    | some m' =>
      rcases hact.row h.requests.fits hm with ⟨m, hm, -⟩ | ⟨_, _, _, he, -⟩
      · obtain ⟨hid, j, r, hr, hinput⟩ := h.uploads.origins _ m hm
        rw [hinput] at hid
        exact absurd hid.symm (of_admits hadmits hr (Or.inl hstaged)).1
      · cases he
  constructor
  · intro _
    refine ⟨hnone, fun n hmem => ?_⟩
    rcases hact.mem_transactions.2 _ hmem with hmem | ⟨r, hr, -⟩
    · obtain ⟨r, hr⟩ := h.requests.known _ (Or.inl hmem)
      rw [hi] at hr
      cases hr
    · rw [hi] at hr
      cases hr
  · intro m hm
    rw [show s'.mutations.get input.mutationId = some m from hm] at hnone
    cases hnone
  · intro id hid
    cases hid
  · intro failure hstage
    cases hstage

/-- A step of the upload's request. -/
theorem StagedInv.knows_of_goes (h : StagedInv s) (hok : EndsDecided s (.request i step))
    (hact : Acts s (.request i step) s') (hsame : s'.mutations = s.mutations)
    (hr : s.requests.get i = some r) (hsends : step = .send → r'.stage.pending = true)
    (hgoes : r.Goes s i step r') (hstaged : r'.input.stagedKey.isSome = true) : Knows s' i r' := by
  rw [hgoes.input] at hstaged
  have hknows := h.knows i r hr hstaged
  have hmoved := hgoes.moved
  constructor
  · rw [hgoes.input, hsame]
    intro hstage
    have hreplaying : r.stage = .replaying := by
      rcases hstage with hstage | hstage
      · rw [hstage] at hmoved
        cases hmoved with
        | pending hpending => cases hpending
      · rw [hstage] at hmoved
        cases hmoved with
        | pending hpending => cases hpending
        | starting hreplaying => exact hreplaying
    obtain ⟨hnone, hfree⟩ := hknows.untouched (Or.inl hreplaying)
    refine ⟨hnone, fun n hmem => ?_⟩
    rcases hact.mem_transactions.2 _ hmem with hmem | ⟨r₀, hr₀, -, hsending⟩
    · exact hfree n hmem
    · rw [hr] at hr₀
      rw [← Option.some.inj hr₀, hreplaying] at hsending
      cases hsending
  · intro m hm
    rw [hgoes.input] at hm
    exact h.made_act hact hr hstaged hm
  · intro id hid hne
    rw [hgoes.input] at hne ⊢
    exact hknows.keyed_of_moved hmoved hid hne
  · intro failure hstage hremoves
    rw [hstage] at hmoved
    rw [hgoes.input]
    have hclosed := h.closed_of_moved hr hstaged (hok r hr hstaged) hmoved hremoves
    refine hclosed.act h.uploads h.requests hact hr hstaged fun he => ?_
    have hpending := hsends (Event.request.inj he).2
    rw [hstage] at hpending
    cases hpending

theorem StagedInv.act (h : StagedInv s) (hok : EndsDecided s e) (hact : Acts s e s') :
    StagedInv s' where
  requests := h.requests.act hact
  uploads := h.uploads.act h.requests hact
  knows i r' hr' hstaged := by
    rcases hact.mem_requests hr' with hr | ⟨hi, input, rfl, hadmits, rfl⟩ | ⟨r, step, rfl, hr, hsame, hgoes⟩
    · exact h.knows_of_same hact hr hstaged
    · exact h.knows_fresh hact hi hadmits hstaged
    · rcases hgoes with ⟨rfl, -, hcleans⟩ | ⟨⟨-, hsends⟩, hgoes⟩
      · have hknows := h.knows_of_same hact hr hstaged
        exact ⟨hknows.untouched, hknows.made, hknows.keyed, hknows.failed⟩
      · exact h.knows_of_goes hok hact hsame hr hsends hgoes hstaged
  removed i r' hr' hremoved := by
    rcases hact.mem_requests hr' with hr | ⟨-, input, -, -, rfl⟩ | ⟨r, step, -, hr, -, hgoes⟩
    · exact h.removed i r' hr hremoved
    · cases hremoved
    · rcases hgoes with ⟨rfl, hstaged, hcleans⟩ | ⟨⟨hlive, -⟩, hgoes⟩
      · exact ⟨hstaged, hcleans⟩
      · rw [hgoes.removed] at hremoved
        rw [(h.removed i r hr hremoved).2] at hlive
        cases hlive

/-! ## The promise -/

theorem stagedInv_empty : StagedInv .empty where
  requests := requestInv_empty
  uploads := ⟨fun _ _ hm => (by cases hm), fun _ _ _ _ hr => (by cases hr)⟩
  knows _ _ hr := by cases hr
  removed _ _ hr := by cases hr

theorem stagedInv_step (s : World) (e : Event) (hok : EndsDecided s e) (h : StagedInv s) :
    StagedInv (s.step e) :=
  step_cases (fun _ hact => h.act hok hact) h

/-- The mutation of an upload that has succeeded with another one is aborted where there is one: the
other one has its key for good. -/
theorem StagedInv.aborted_of_succeeded (h : StagedInv s) (hr : s.requests.get i = some r)
    (hstaged : r.input.stagedKey.isSome = true) (hstage : r.stage = .succeeded id)
    (hne : id ≠ r.input.mutationId) (hm : s.mutations.get r.input.mutationId = some m) :
    m.status = .aborted := by
  by_contra hlive
  have hmutation : r.stage.mutation = some id := by
    rw [hstage]
    rfl
  obtain ⟨key, hkey⟩ := Option.isSome_iff_exists.mp
    ((h.knows i r hr hstaged).keyed id hmutation hne)
  obtain ⟨m₀, hm₀, -, hkeyed⟩ := h.requests.executes i r id hr hmutation
  obtain ⟨m₁, hm₁, hsucceeded⟩ := h.requests.succeeded i r id hr hstage
  rw [hm₀] at hm₁
  obtain rfl := Option.some.inj hm₁
  have hother : m₀.idempotencyKey = some key := by
    rw [(h.requests.fits _ m₀ hm₀).key, if_neg (by simp [hsucceeded]), hkeyed key hkey]
  have hown : m.idempotencyKey = some key := by
    rw [h.own_key hr hstaged hm hlive, key_of_input hkey]
  exact hne (h.requests.unique _ _ _ _ key hm₀ hm hother hown)

/-- The upload's own mutation where its staged file is removed. -/
theorem StagedInv.settled (h : StagedInv s) (hr : s.requests.get i = some r)
    (hremoved : r.removed = true) (hm : s.mutations.get r.input.mutationId = some m) :
    m.status = .aborted ∨ m.committed = true := by
  obtain ⟨hstaged, hcleans⟩ := h.removed i r hr hremoved
  cases hstage : r.stage with
  | succeeded id =>
    by_cases hne : id = r.input.mutationId
    · obtain ⟨m₀, hm₀, hstatus⟩ := h.requests.succeeded i r id hr hstage
      rw [hne, hm] at hm₀
      obtain rfl := Option.some.inj hm₀
      exact Or.inr ((h.requests.fits _ m hm).committed_of (by simp [hstatus]))
    · exact Or.inl (h.aborted_of_succeeded hr hstaged hstage hne hm)
  | failed failure =>
    rw [hstage] at hcleans
    exact ((h.knows i r hr hstaged).failed failure hstage hcleans).settled m hm
  | _ =>
    rw [hstage] at hcleans
    cases hcleans

theorem StagedInv.stagedKept (h : StagedInv s) : StagedKept s := by
  intro i r hr hremoved id m hm hsame
  obtain rfl := h.uploads.own_of_staged hr (h.removed i r hr hremoved).1 hm hsame
  rcases h.settled hr hremoved hm with haborted | hcommitted
  · exact Or.inl haborted
  · exact Or.inr ((h.requests.fits _ m hm).committed hcommitted).1

/-- Staged files are kept as long as the journal needs them, in every run in which uploads end with an
error once their transactions are decided. -/
theorem run_stagedKept {events : List Event} (hok : RunMeets World.step EndsDecided .empty events) :
    StagedKept (events.foldl World.step .empty) :=
  (hok.keeps stagedInv_step stagedInv_empty).stagedKept

/-- An upload whose first attempt gets no answer, and which is cancelled while its second one has found
the storage busy. -/
def cancelledUpload (decided : Bool) : List Event :=
  [.begin 0 upload, .request 0 .lookUp, .request 0 .start, .request 0 .lookUp, .request 0 .send,
    .request 0 (.answer (.failed .unavailable)), .request 0 .lookUp, .request 0 .lookUp,
    .request 0 .send] ++
  (if decided then [.rollBack 0 0] else []) ++
  [.rollBack 0 1, .request 0 (.answer (.failed .busy)), .request 0 .lookUp,
    .request 0 (.giveUp .cancelled), .request 0 .cleanUp, .takeEffect 0 0]

/-- An upload that gets no answer twice, and whose second transaction takes effect after it has ended. -/
def unansweredUpload : List Event :=
  [.begin 0 upload, .request 0 .lookUp, .request 0 .start, .request 0 .lookUp, .request 0 .send,
    .request 0 (.answer (.failed .unavailable)), .request 0 .lookUp, .request 0 .lookUp,
    .request 0 .send, .request 0 (.answer (.failed .unavailable)), .request 0 .lookUp,
    .request 0 .cleanUp, .takeEffect 0 1]

theorem run_stagedKept_rolledBack :
    ((cancelledUpload true).foldl World.step .empty).requests.entries.any (·.2.removed) = true ∧
      StagedKept ((cancelledUpload true).foldl World.step .empty) ∧
      (unansweredUpload.foldl World.step .empty).mutations.get "m" = some (.prepared upload) ∧
      StagedKept (unansweredUpload.foldl World.step .empty) :=
  ⟨by decide +kernel, run_stagedKept (by decide +kernel), by decide +kernel,
    run_stagedKept (by decide +kernel)⟩

/-- The first transaction takes effect after all. -/
theorem cancelledUpload_dangles :
    ¬ StagedKept ((cancelledUpload false).foldl World.step .empty) := by
  intro h
  have hkept := h 0 ⟨upload, .failed .cancelled, true, 2, true⟩ (by decide +kernel) rfl "m"
    (.prepared upload) (by decide +kernel) rfl
  revert hkept
  decide +kernel

end Staaash.Durable
