import Staaash.Auth.Proofs.CodesProofs

/-!
# Proofs: sessions end with the password

A password change leaves no unrevoked session of its user but the one it keeps, and nothing takes a
revocation back. So an unrevoked session that is older than a password change is the one it keeps, as
long as none is created from an older credential.
-/

namespace Staaash.Auth

open Staaash.Library

variable {R : Runtime} {w w' : World} {s : Statement}

/-- What a password change leaves behind, and every later statement with it. -/
structure PasswordInv (w : World) : Prop where
  past : (∀ r ∈ w.replacements, r.committedAt < w.clock) ∧ (∀ t ∈ w.touching, t.seenAt < w.clock) ∧
    ∀ a ∈ w.accepted, a.acceptedAt < w.clock
  rows : ∀ id session, w.sessions.get id = some session → session.revokedAt = none →
    ∀ r ∈ w.replacements, r.userId = session.userId → r.Spares id session
  touching : ∀ t ∈ w.touching, ∀ r ∈ w.replacements, r.committedAt < t.seenAt →
    r.userId = t.session.userId → r.Spares t.id t.session
  accepted : EndsWithPassword w

theorem PasswordInv.tick (h : PasswordInv w) : PasswordInv w.tick where
  past := ⟨fun r hr => Nat.lt_succ_of_lt (h.past.1 r hr),
    fun t ht => Nat.lt_succ_of_lt (h.past.2.1 t ht), fun a ha => Nat.lt_succ_of_lt (h.past.2.2 a ha)⟩
  rows := h.rows
  touching := h.touching
  accepted := h.accepted

theorem Replacement.Spares.same {r : Replacement} {id : String} {session session' : Session}
    (h : r.Spares id session) (hsame : session.Same session') : r.Spares id session' := by
  rcases h with h | h
  · exact Or.inl h
  · refine Or.inr ?_
    rw [hsame.createdAt, hsame.credential]
    exact h

/-- The sessions of a user after a password change: the one it keeps. -/
theorem kept_of_revokeOthers {sessions : SessionTable} {userId id : String}
    {keepSessionId : Option String} {now : Nat} {session : Session}
    (hget : (sessions.revokeOthers userId keepSessionId now).get id = some session)
    (hnone : session.revokedAt = none) (huser : userId = session.userId) :
    keepSessionId = some id := by
  obtain ⟨-, hsel⟩ := get_revokeWhere_unrevoked hget hnone
  simpa [huser] using hsel

theorem PasswordInv.act (h : PasswordInv w) (hok : NotReplacedSince w s) (hact : Acts R w s w') :
    PasswordInv w'.tick := by
  have hclock := hact.clock_le
  have hreplaced : ∀ r ∈ w'.replacements, r ∈ w.replacements ∨ r.committedAt = w.clock := by
    intro r hr
    rcases hact.replacements with heq | ⟨r', -, -, -, heq⟩
    · exact Or.inl (heq ▸ hr)
    · rw [heq] at hr
      rcases List.mem_cons.mp hr with rfl | hr
      · exact Or.inr rfl
      · exact Or.inl hr
  constructor
  · refine ⟨fun r hr => ?_, fun t ht => ?_, fun a ha => ?_⟩
    · show r.committedAt < w'.clock + 1
      rcases hreplaced r hr with hr | hr
      · have := h.past.1 r hr
        omega
      · omega
    · show t.seenAt < w'.clock + 1
      rcases hact.mem_touching ht with ht | ⟨-, -, hseen⟩
      · have := h.past.2.1 t ht
        omega
      · omega
    · show a.acceptedAt < w'.clock + 1
      rcases hact.mem_accepted ha with ha | ⟨t, maxAge, -, -, rfl⟩
      · have := h.past.2.2 a ha
        omega
      · show w.clock < w'.clock + 1
        omega
  · intro id session' hget hnone r hr huser
    rcases hact.row hget with ⟨session, hold, hsame⟩ | ⟨o, _, _, _, rfl, ho, -, rfl⟩
    · have hspared : ∀ r ∈ w.replacements, r.userId = session'.userId → r.Spares id session' := by
        intro r hr huser
        rw [hsame.userId] at huser
        exact (h.rows id session hold (hsame.unrevoked hnone) r hr huser).same hsame
      rcases hact.replacements with heq | ⟨r', -, -, hsessions, heq⟩
      · exact hspared r (heq ▸ hr) huser
      · change r ∈ w'.replacements at hr
        rw [heq] at hr
        rcases List.mem_cons.mp hr with rfl | hr
        · change w'.sessions.get id = _ at hget
          rw [hsessions] at hget
          exact Or.inl (kept_of_revokeOthers hget hnone huser)
        · exact hspared r hr huser
    · -- a new session is newer than every password change, and by the condition so is what it rests on
      rcases hact.replacements with heq | ⟨_, hs, -⟩
      · have hr : r ∈ w.replacements := heq ▸ hr
        exact Or.inr ⟨h.past.1 r hr, hok ho r hr huser⟩
      · cases hs
  · intro t ht r hr hbefore huser
    rcases hact.mem_touching ht with ht | ⟨hget, haccepted, hseen⟩
    · rcases hreplaced r hr with hr | hr
      · exact h.touching t ht r hr hbefore huser
      · have := h.past.2.1 t ht
        omega
    · rcases hreplaced r hr with hr | hr
      · exact h.rows _ _ hget (Session.accepted_iff.mp haccepted).1 r hr huser
      · omega
  · intro a ha r hr hbefore huser
    rcases hact.mem_accepted ha with ha | ⟨t, maxAge, rfl, ht, rfl⟩
    · rcases hreplaced r hr with hr | hr
      · exact h.accepted a ha r hr hbefore huser
      · have := h.past.2.2 a ha
        omega
    · rcases hreplaced r hr with hr | hr
      · rcases hok ht r hr huser with hkept | hread
        · exact Or.inl hkept
        · exact h.touching t ht r hr hread huser
      · change r.committedAt < w.clock at hbefore
        omega

theorem passwordInv_initial (users : UserTable) : PasswordInv (World.initial users) := by
  refine ⟨⟨?_, ?_, ?_⟩, ?_, ?_, ?_⟩ <;> intro _ <;> simp [World.initial]

theorem PasswordInv.step (h : PasswordInv w) (hok : NotReplacedSince w s) :
    PasswordInv (w.step R s) :=
  step_cases (fun _ hact => h.act hok hact) h.tick

/-- Every one-time code opens at most one session, and only as it was issued; and no session outlives
the password it was opened with, in a run where none is created, and no call of `getSession` answered,
from before a password change that has committed since. -/
theorem run_endsWithPassword (R : Runtime) (users : UserTable) (statements : List Statement) :
    CodesOnce R ((World.initial users).run R statements) ∧
      (RunMeets (World.step R) NotReplacedSince (World.initial users) statements →
        EndsWithPassword ((World.initial users).run R statements)) := by
  constructor
  · have hinv : CodesInv R ((World.initial users).run R statements) :=
      run_keeps (fun _ _ h => h.step) statements (codesInv_initial users)
    exact hinv.codesOnce
  · intro hmeets
    have hinv : PasswordInv ((World.initial users).run R statements) :=
      hmeets.keeps (fun _ _ hok h => h.step hok) (passwordInv_initial users)
    exact hinv.accepted

/-- The user changes the password from the session `a` and signs in again. -/
def newPassword : List Statement :=
  [.signIn "m" "old", .createSession (signedIn 0) "a" "a" 0 9,
    .changeOwnPassword "u" "a" "old" "new", .replacePassword ⟨"u", "new", some "a", false⟩,
    .signIn "m" "new", .createSession (signedIn 4) "b" "b" 4 9,
    .getSession "b", .touch ⟨"b", (signedIn 4).session "b" 5 4 9, 6⟩ 9]

theorem run_endsWithPassword_newPassword :
    ((World.initial oneUser).run plainRuntime newPassword).accepted ≠ [] ∧
      EndsWithPassword ((World.initial oneUser).run plainRuntime newPassword) :=
  ⟨by decide +kernel, (run_endsWithPassword plainRuntime oneUser newPassword).2 (by decide +kernel)⟩

/-- Someone else has the old password checked just before it is changed, and gets a session after. -/
def lateSession : List Statement :=
  [.signIn "m" "old", .createSession (signedIn 0) "a" "a" 0 9,
    .signIn "m" "old",
    .changeOwnPassword "u" "a" "old" "new", .replacePassword ⟨"u", "new", some "a", false⟩,
    .createSession (signedIn 2) "b" "b" 5 9,
    .getSession "b", .touch ⟨"b", (signedIn 2).session "b" 5 5 9, 6⟩ 9]

theorem lateSession_accepted :
    ¬ EndsWithPassword ((World.initial oneUser).run plainRuntime lateSession) := by
  intro h
  have hspared := h ⟨"b", (signedIn 2).session "b" 5 5 9, 7⟩ (by decide +kernel)
    ⟨"u", some "a", 4⟩ (by decide +kernel) (by decide) rfl
  revert hspared
  decide

end Staaash.Auth
