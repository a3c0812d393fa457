import Mathlib.Data.List.Basic

/-!
# Records with their lengths

A list of records is written as one list, every record after its length and a separator that no length
is written with. However records are written like that, they can be read back.
-/

namespace Staaash.Library.Framing

variable {α : Type}

/-- What comes before the first separator is read back. -/
theorem append_sep_inj {sep : α} {a b r s : List α} (ha : sep ∉ a) (hb : sep ∉ b)
    (h : a ++ sep :: r = b ++ sep :: s) : a = b ∧ r = s := by
  induction a generalizing b with
  | nil =>
    cases b with
    | nil => exact ⟨rfl, (List.cons.inj h).2⟩
    | cons y b => exact absurd (List.cons.inj h).1 fun hy => hb (hy ▸ List.mem_cons_self)
  | cons x a ih =>
    cases b with
    | nil => exact absurd (List.cons.inj h).1 fun hx => ha (hx ▸ List.mem_cons_self)
    | cons y b =>
      obtain ⟨rfl, htail⟩ := List.cons.inj h
      obtain ⟨rfl, rfl⟩ := ih (fun hm => ha (List.mem_cons_of_mem _ hm))
        (fun hm => hb (List.mem_cons_of_mem _ hm)) htail
      exact ⟨rfl, rfl⟩

/-- What comes after the last separator is read back. -/
theorem append_sep_inj_right {sep : α} {a b r s : List α} (hr : sep ∉ r) (hs : sep ∉ s)
    (h : a ++ sep :: r = b ++ sep :: s) : a = b ∧ r = s := by
  have hreverse : r.reverse ++ sep :: a.reverse = s.reverse ++ sep :: b.reverse := by
    simpa using congrArg List.reverse h
  obtain ⟨hrs, hab⟩ := append_sep_inj (by simpa using hr) (by simpa using hs) hreverse
  exact ⟨List.reverse_injective hab, List.reverse_injective hrs⟩

variable (len : Nat → List α) (sep : α)

def frame (record : List α) : List α := len record.length ++ sep :: record

variable {len sep}

theorem frame_append_inj (hlen : Function.Injective len) (hsep : ∀ n, sep ∉ len n) {a b r s : List α}
    (h : frame len sep a ++ r = frame len sep b ++ s) : a = b ∧ r = s := by
  unfold frame at h
  rw [List.append_assoc, List.cons_append, List.append_assoc, List.cons_append] at h
  obtain ⟨hlength, hrest⟩ := append_sep_inj (hsep _) (hsep _) h
  exact List.append_inj hrest (hlen hlength)

theorem flatMap_frame_injective (hlen : Function.Injective len) (hsep : ∀ n, sep ∉ len n) :
    Function.Injective fun records : List (List α) => records.flatMap (frame len sep) := by
  have hne : ∀ a r : List α, frame len sep a ++ r ≠ [] := fun a r hnil => by
    simp [frame] at hnil
  intro as
  induction as with
  | nil =>
    intro bs h
    cases bs with
    | nil => rfl
    | cons b bs => exact absurd h.symm (hne b _)
  | cons a as ih =>
    intro bs h
    cases bs with
    | nil => exact absurd h (hne a _)
    | cons b bs =>
      obtain ⟨rfl, hrest⟩ := frame_append_inj hlen hsep h
      rw [ih hrest]

end Staaash.Library.Framing
