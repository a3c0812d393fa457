import Mathlib.Data.Nat.Find
import Mathlib.Logic.Function.Basic

/-!
# Chains of tickets

Whoever wants a turn of an owner draws a ticket behind the last one of that owner, and a ticket is through
once it is completed and the one before it is through. A table holds the last ticket of each owner, until
it is through.
-/

namespace Staaash.Library

structure Ticket (ω : Type) where
  owner : ω
  /-- The ticket before it. -/
  prior : Option Nat
  completed : Bool
  /-- It is through. -/
  resolved : Bool
  /-- The table was told that it is through. -/
  forgotten : Bool
deriving DecidableEq, Repr

variable {ω : Type} {tickets : Nat → Option (Ticket ω)} {tails : ω → Option Nat} {id : Nat}
  {t : Ticket ω}

/-- The ticket has none before it, or one that is through. -/
def IsFirst (tickets : Nat → Option (Ticket ω)) (t : Ticket ω) : Prop :=
  ∀ p, t.prior = some p → ∃ before, tickets p = some before ∧ before.resolved = true

structure Chained (tickets : Nat → Option (Ticket ω)) (tails : ω → Option Nat) : Prop where
  prior : ∀ {b t p}, tickets b = some t → t.prior = some p →
    p < b ∧ ∃ before, tickets p = some before ∧ before.owner = t.owner
  chained : ∀ {a b ta tb}, tickets a = some ta → tickets b = some tb → ta.owner = tb.owner → a < b →
    ta.resolved = false → ∃ p, tb.prior = some p ∧ a ≤ p
  completed : ∀ {b t}, tickets b = some t → t.resolved = true → t.completed = true
  inOrder : ∀ {a b ta tb}, tickets a = some ta → tickets b = some tb → ta.owner = tb.owner → a < b →
    tb.resolved = true → ta.resolved = true
  last : ∀ {o p}, tails o = some p →
    (∃ t, tickets p = some t ∧ t.owner = o ∧ t.forgotten = false) ∧
    ∀ a ta, tickets a = some ta → ta.owner = o → a ≤ p
  settled : ∀ {o}, tails o = none → ∀ a ta, tickets a = some ta → ta.owner = o → ta.resolved = true

/-- Every ticket that comes before a first one is through. -/
theorem Chained.resolved_before (h : Chained tickets tails) {a b : Nat} {ta tb : Ticket ω}
    (ha : tickets a = some ta) (hb : tickets b = some tb) (howner : ta.owner = tb.owner) (hlt : a < b)
    (hfirst : IsFirst tickets tb) : ta.resolved = true := by
  by_contra hunresolved
  obtain ⟨p, hp, hle⟩ := h.chained ha hb howner hlt (Bool.not_eq_true _ ▸ hunresolved)
  obtain ⟨before, hbefore, hresolved⟩ := hfirst p hp
  rcases Nat.lt_or_eq_of_le hle with hlt' | rfl
  · obtain ⟨-, before', hbefore', hsame⟩ := h.prior hb hp
    rw [hbefore, Option.some.injEq] at hbefore'
    exact hunresolved (h.inOrder ha hbefore (by rw [howner, hbefore', hsame]) hlt' hresolved)
  · rw [ha, Option.some.injEq] at hbefore
    exact hunresolved (hbefore ▸ hresolved)

/-- Two first tickets of an owner, both not through, are one. -/
theorem Chained.first_unique (h : Chained tickets tails) {a b : Nat} {ta tb : Ticket ω}
    (ha : tickets a = some ta) (hb : tickets b = some tb) (howner : ta.owner = tb.owner)
    (hfirsta : IsFirst tickets ta) (hfirstb : IsFirst tickets tb) (hopena : ta.resolved = false)
    (hopenb : tb.resolved = false) : a = b := by
  rcases Nat.lt_trichotomy a b with hlt | heq | hgt
  · have hresolved := h.resolved_before ha hb howner hlt hfirstb
    rw [hopena] at hresolved
    exact absurd hresolved (by simp)
  · exact heq
  · have hresolved := h.resolved_before hb ha howner.symm hgt hfirsta
    rw [hopenb] at hresolved
    exact absurd hresolved (by simp)

/-- The table holds an owner only while one of its tickets is not completed, could be through now, or is
through and the table was not told. -/
theorem Chained.pending_of_tail (h : Chained tickets tails) {o : ω} {p : Nat} (hp : tails o = some p) :
    ∃ a t, tickets a = some t ∧ t.owner = o ∧
      (t.completed = false ∨ (t.resolved = false ∧ IsFirst tickets t) ∨
        (t.resolved = true ∧ t.forgotten = false)) := by
  obtain ⟨⟨last, hlast, howner, hremembered⟩, -⟩ := h.last hp
  by_cases hresolved : last.resolved = true
  · exact ⟨p, last, hlast, howner, .inr (.inr ⟨hresolved, hremembered⟩)⟩
  · -- the first ticket of the owner that is not through
    have hex : ∃ a t, tickets a = some t ∧ t.owner = o ∧ t.resolved = false :=
      ⟨p, last, hlast, howner, Bool.not_eq_true _ ▸ hresolved⟩
    classical
    obtain ⟨t, ht, hto, hopen⟩ := Nat.find_spec hex
    refine ⟨Nat.find hex, t, ht, hto, .inr (.inl ⟨hopen, fun q hq => ?_⟩)⟩
    obtain ⟨hlt, before, hbefore, hsame⟩ := h.prior ht hq
    refine ⟨before, hbefore, ?_⟩
    by_contra hunresolved
    exact Nat.find_min hex hlt ⟨before, hbefore, hsame.trans hto, Bool.not_eq_true _ ▸ hunresolved⟩

/-! ## What happens to tickets -/

theorem update_eq_some {t' : Ticket ω} {a : Nat} {ta : Ticket ω}
    (h : Function.update tickets id (some t') a = some ta) :
    a = id ∧ ta = t' ∨ a ≠ id ∧ tickets a = some ta := by
  by_cases ha : a = id
  · subst ha
    rw [Function.update_self, Option.some.injEq] at h
    exact .inl ⟨rfl, h.symm⟩
  · rw [Function.update_of_ne ha] at h
    exact .inr ⟨ha, h⟩

/-- A ticket keeps its owner and its place, and the flags stay in step. -/
theorem Chained.change {tails' : ω → Option Nat} {t' : Ticket ω} (h : Chained tickets tails)
    (ht : tickets id = some t) (howner : t'.owner = t.owner) (hprior : t'.prior = t.prior)
    (hcompleted : t'.resolved = true → t'.completed = true)
    (hkept : t.resolved = true → t'.resolved = true)
    (hearlier : t'.resolved = true →
      ∀ a ta, tickets a = some ta → ta.owner = t.owner → a < id → ta.resolved = true)
    (hlast : ∀ o p, tails' o = some p → tails o = some p ∧ (p = id → t'.forgotten = false))
    (hover : ∀ o, tails' o = none → ∀ a ta, tickets a = some ta → ta.owner = o → ta.resolved = true) :
    Chained (Function.update tickets id (some t')) tails' where
  prior {b tb p} hb hp := by
    have hold : ∃ tb', tickets b = some tb' ∧ tb'.prior = some p ∧ tb'.owner = tb.owner := by
      rcases update_eq_some hb with ⟨rfl, rfl⟩ | ⟨-, hbold⟩
      · exact ⟨t, ht, hprior ▸ hp, howner.symm⟩
      · exact ⟨tb, hbold, hp, rfl⟩
    obtain ⟨tb', htb', hp', hsame⟩ := hold
    obtain ⟨hlt, before, hbefore, hbo⟩ := h.prior htb' hp'
    refine ⟨hlt, ?_⟩
    by_cases hpid : p = id
    · subst hpid
      rw [ht, Option.some.injEq] at hbefore
      exact ⟨t', Function.update_self _ _ _, by rw [howner, hbefore, hbo, hsame]⟩
    · exact ⟨before, by rw [Function.update_of_ne hpid]; exact hbefore, hbo.trans hsame⟩
  chained {a b ta tb} ha hb hsame hlt hopen := by
    rcases update_eq_some ha with ⟨rfl, rfl⟩ | ⟨-, haold⟩
    · have hopen' : t.resolved = false := by
        by_contra hresolved
        rw [hkept (by simpa using hresolved)] at hopen
        exact absurd hopen (by simp)
      rcases update_eq_some hb with ⟨rfl, -⟩ | ⟨-, hbold⟩
      · exact absurd hlt (Nat.lt_irrefl _)
      · exact h.chained ht hbold (howner ▸ hsame) hlt hopen'
    · rcases update_eq_some hb with ⟨rfl, rfl⟩ | ⟨-, hbold⟩
      · rw [hprior]
        exact h.chained haold ht (hsame.trans howner) hlt hopen
      · exact h.chained haold hbold hsame hlt hopen
  completed {b tb} hb hresolved := by
    rcases update_eq_some hb with ⟨rfl, rfl⟩ | ⟨-, hbold⟩
    · exact hcompleted hresolved
    · exact h.completed hbold hresolved
  inOrder {a b ta tb} ha hb hsame hlt hresolved := by
    rcases update_eq_some ha with ⟨rfl, rfl⟩ | ⟨-, haold⟩
    · rcases update_eq_some hb with ⟨rfl, -⟩ | ⟨-, hbold⟩
      · exact absurd hlt (Nat.lt_irrefl _)
      · exact hkept (h.inOrder ht hbold (howner ▸ hsame) hlt hresolved)
    · rcases update_eq_some hb with ⟨rfl, rfl⟩ | ⟨-, hbold⟩
      · exact hearlier hresolved a ta haold (hsame.trans howner) hlt
      · exact h.inOrder haold hbold hsame hlt hresolved
  last {o p} hp := by
    obtain ⟨hp, hremembered⟩ := hlast o p hp
    obtain ⟨⟨last, hl, hlo, hlf⟩, hle⟩ := h.last hp
    refine ⟨?_, fun a ta ha hao => ?_⟩
    · by_cases hpid : p = id
      · subst hpid
        rw [ht, Option.some.injEq] at hl
        exact ⟨t', Function.update_self _ _ _, by rw [howner, hl, hlo], hremembered rfl⟩
      · exact ⟨last, by rw [Function.update_of_ne hpid]; exact hl, hlo, hlf⟩
    · rcases update_eq_some ha with ⟨rfl, rfl⟩ | ⟨-, haold⟩
      · exact hle a t ht (howner ▸ hao)
      · exact hle a ta haold hao
  settled {o} ho a ta ha hao := by
    rcases update_eq_some ha with ⟨rfl, rfl⟩ | ⟨-, haold⟩
    · exact hkept (hover o ho a t ht (howner ▸ hao))
    · exact hover o ho a ta haold hao

theorem Chained.complete (h : Chained tickets tails) (ht : tickets id = some t) :
    Chained (Function.update tickets id (some { t with completed := true })) tails :=
  h.change ht rfl rfl (fun _ => rfl) (fun hresolved => hresolved)
    (fun hresolved _ _ ha howner hlt => h.inOrder ha ht howner hlt hresolved)
    (fun o p hp => ⟨hp, fun hpid => by
      obtain ⟨⟨last, hl, -, hlf⟩, -⟩ := h.last hp
      rw [hpid, ht, Option.some.injEq] at hl
      exact hl ▸ hlf⟩)
    (fun _ ho => h.settled ho)

theorem Chained.resolve (h : Chained tickets tails) (ht : tickets id = some t)
    (hcompleted : t.completed = true) (hfirst : IsFirst tickets t) :
    Chained (Function.update tickets id (some { t with resolved := true })) tails :=
  h.change ht rfl rfl (fun _ => hcompleted) (fun _ => rfl)
    (fun _ _ _ ha howner hlt => h.resolved_before ha ht howner hlt hfirst)
    (fun o p hp => ⟨hp, fun hpid => by
      obtain ⟨⟨last, hl, -, hlf⟩, -⟩ := h.last hp
      rw [hpid, ht, Option.some.injEq] at hl
      exact hl ▸ hlf⟩)
    (fun _ ho => h.settled ho)

theorem chained_empty : Chained (fun _ => none) (fun _ : ω => none) where
  prior hb := absurd hb (by simp)
  chained ha := absurd ha (by simp)
  completed hb := absurd hb (by simp)
  inOrder ha := absurd ha (by simp)
  last hp := absurd hp (by simp)
  settled _ a ta ha := absurd ha (by simp)

section Tables

variable [DecidableEq ω]

/-- The table is told that a ticket is through, and drops it if it is the last one. -/
theorem Chained.forget (h : Chained tickets tails) (ht : tickets id = some t)
    (hresolved : t.resolved = true) :
    Chained (Function.update tickets id (some { t with forgotten := true }))
      (if tails t.owner = some id then Function.update tails t.owner none else tails) := by
  refine h.change ht rfl rfl (fun _ => (h.completed ht hresolved : t.completed = true))
    (fun hkept => hkept)
    (fun _ _ _ ha howner hlt => h.inOrder ha ht howner hlt hresolved) ?_ ?_
  · intro o p hp
    have hne : p = id → False := fun hpid => by
      subst hpid
      by_cases htail : tails t.owner = some p
      · rw [if_pos htail] at hp
        by_cases ho : o = t.owner
        · rw [ho, Function.update_self] at hp
          exact absurd hp (by simp)
        · rw [Function.update_of_ne ho] at hp
          obtain ⟨⟨last, hl, hlo, -⟩, -⟩ := h.last hp
          rw [ht, Option.some.injEq] at hl
          exact ho (hlo ▸ hl ▸ rfl)
      · rw [if_neg htail] at hp
        obtain ⟨⟨last, hl, hlo, -⟩, -⟩ := h.last hp
        rw [ht, Option.some.injEq] at hl
        rw [hl, hlo] at htail
        exact htail hp
    refine ⟨?_, fun hpid => absurd hpid hne⟩
    by_cases htail : tails t.owner = some id
    · rw [if_pos htail] at hp
      by_cases ho : o = t.owner
      · rw [ho, Function.update_self] at hp
        exact absurd hp (by simp)
      · rw [Function.update_of_ne ho] at hp
        exact hp
    · rw [if_neg htail] at hp
      exact hp
  · intro o ho a ta ha hao
    by_cases htail : tails t.owner = some id
    · by_cases hot : o = t.owner
      · -- the last ticket of the owner is through, and so are those before it
        have hle := (h.last htail).2 a ta ha (hao.trans hot)
        rcases Nat.lt_or_eq_of_le hle with hlt | rfl
        · exact h.inOrder ha ht (hao.trans hot) hlt hresolved
        · rw [ht, Option.some.injEq] at ha
          exact ha ▸ hresolved
      · rw [if_pos htail, Function.update_of_ne hot] at ho
        exact h.settled ho a ta ha hao
    · rw [if_neg htail] at ho
      exact h.settled ho a ta ha hao

/-- A new ticket is drawn behind the last one. -/
theorem Chained.draw (h : Chained tickets tails) (hnew : ∀ a t, tickets a = some t → a < id) (o : ω) :
    Chained (Function.update tickets id (some ⟨o, tails o, false, false, false⟩))
      (Function.update tails o (some id)) where
  prior {b tb p} hb hp := by
    rcases update_eq_some hb with ⟨rfl, rfl⟩ | ⟨-, hbold⟩
    · obtain ⟨⟨last, hl, hlo, -⟩, -⟩ := h.last hp
      have hlt := hnew p last hl
      exact ⟨hlt, last, by rw [Function.update_of_ne (by omega)]; exact hl, hlo⟩
    · obtain ⟨hlt, before, hbefore, hbo⟩ := h.prior hbold hp
      have hpnew := hnew p before hbefore
      exact ⟨hlt, before, by rw [Function.update_of_ne (by omega)]; exact hbefore, hbo⟩
  chained {a b ta tb} ha hb hsame hlt hopen := by
    rcases update_eq_some ha with ⟨rfl, rfl⟩ | ⟨-, haold⟩
    · rcases update_eq_some hb with ⟨rfl, -⟩ | ⟨-, hbold⟩
      · exact absurd hlt (Nat.lt_irrefl _)
      · have hbnew := hnew b tb hbold
        omega
    · rcases update_eq_some hb with ⟨rfl, rfl⟩ | ⟨-, hbold⟩
      · rcases htail : tails o with _ | p
        · rw [h.settled htail a ta haold hsame] at hopen
          exact absurd hopen (by simp)
        · exact ⟨p, rfl, (h.last htail).2 a ta haold hsame⟩
      · exact h.chained haold hbold hsame hlt hopen
  completed {b tb} hb hresolved := by
    rcases update_eq_some hb with ⟨rfl, rfl⟩ | ⟨-, hbold⟩
    · exact absurd hresolved (by simp)
    · exact h.completed hbold hresolved
  inOrder {a b ta tb} ha hb hsame hlt hresolved := by
    rcases update_eq_some hb with ⟨rfl, rfl⟩ | ⟨-, hbold⟩
    · exact absurd hresolved (by simp)
    · rcases update_eq_some ha with ⟨rfl, rfl⟩ | ⟨-, haold⟩
      · have hbnew := hnew b tb hbold
        omega
      · exact h.inOrder haold hbold hsame hlt hresolved
  last {o' p} hp := by
    by_cases ho : o' = o
    · subst ho
      rw [Function.update_self, Option.some.injEq] at hp
      subst hp
      refine ⟨⟨_, Function.update_self _ _ _, rfl, rfl⟩, fun a ta ha _ => ?_⟩
      rcases update_eq_some ha with ⟨rfl, -⟩ | ⟨-, haold⟩
      · exact Nat.le_refl _
      · exact Nat.le_of_lt (hnew a ta haold)
    · rw [Function.update_of_ne ho] at hp
      obtain ⟨⟨last, hl, hlo, hlf⟩, hle⟩ := h.last hp
      have hlt := hnew p last hl
      refine ⟨⟨last, by rw [Function.update_of_ne (by omega)]; exact hl, hlo, hlf⟩, fun a ta ha hao => ?_⟩
      rcases update_eq_some ha with ⟨rfl, rfl⟩ | ⟨-, haold⟩
      · exact absurd hao.symm ho
      · exact hle a ta haold hao
  settled {o'} ho a ta ha hao := by
    by_cases hoo : o' = o
    · rw [hoo, Function.update_self] at ho
      exact absurd ho (by simp)
    · rw [Function.update_of_ne hoo] at ho
      rcases update_eq_some ha with ⟨rfl, rfl⟩ | ⟨-, haold⟩
      · exact absurd hao.symm hoo
      · exact h.settled ho a ta haold hao

end Tables

end Staaash.Library
