import Mathlib.Data.List.Lex
import Mathlib.Algebra.Order.Ring.Nat

/-!
# Precedence of semantic versions

The precedence of SemVer 2.0: major, minor and patch version are compared as numbers, then a release is
above its pre-releases, and these are compared identifier by identifier. Alphanumeric identifiers are texts
of any type with a strict order.
-/

namespace Staaash.Library.SemVer

inductive Identifier (Text : Type)
  | numeric (n : Nat)
  | alphanumeric (text : Text)
deriving DecidableEq, Repr

/-- A version without its build metadata, which precedence ignores. A release has no identifiers. -/
structure Version (Text : Type) where
  major : Nat
  minor : Nat
  patch : Nat
  prerelease : List (Identifier Text)
deriving DecidableEq, Repr

variable {Text : Type} [LT Text]

/-- Numbers are compared as numbers and texts as texts, and a number is below a text. -/
inductive Identifier.Precedes : Identifier Text → Identifier Text → Prop
  | numeric {m n : Nat} (h : m < n) : Precedes (.numeric m) (.numeric n)
  | mixed {n : Nat} {text : Text} : Precedes (.numeric n) (.alphanumeric text)
  | alphanumeric {s t : Text} (h : s < t) : Precedes (.alphanumeric s) (.alphanumeric t)

/-- The first identifiers that differ decide; where there are none, the longer list is above. -/
inductive PrereleasePrecedes : List (Identifier Text) → List (Identifier Text) → Prop
  | release {as : List (Identifier Text)} (ha : as ≠ []) : PrereleasePrecedes as []
  | identifiers {as bs : List (Identifier Text)} (ha : as ≠ []) (h : List.Lex Identifier.Precedes as bs) :
    PrereleasePrecedes as bs

structure SameCore (a b : Version Text) : Prop where
  major : a.major = b.major
  minor : a.minor = b.minor
  patch : a.patch = b.patch

inductive Version.Precedes : Version Text → Version Text → Prop
  | major {a b : Version Text} (h : a.major < b.major) : Precedes a b
  | minor {a b : Version Text} (hmajor : a.major = b.major) (h : a.minor < b.minor) : Precedes a b
  | patch {a b : Version Text} (hmajor : a.major = b.major) (hminor : a.minor = b.minor)
    (h : a.patch < b.patch) : Precedes a b
  | prerelease {a b : Version Text} (hcore : SameCore a b)
    (h : PrereleasePrecedes a.prerelease b.prerelease) : Precedes a b

variable {i j k : Identifier Text} {as bs cs : List (Identifier Text)} {a b c : Version Text}

section Strict

variable [Std.Irrefl (α := Text) (· < ·)]

theorem Identifier.Precedes.irrefl (i : Identifier Text) : ¬ i.Precedes i := by
  intro h
  cases h with
  | numeric h => exact absurd h (Nat.lt_irrefl _)
  | alphanumeric h => exact Std.Irrefl.irrefl _ h

theorem lex_irrefl (as : List (Identifier Text)) : ¬ List.Lex Identifier.Precedes as as := by
  induction as with
  | nil => nofun
  | cons i as ih =>
    intro h
    cases h with
    | cons h => exact ih h
    | rel h => exact Identifier.Precedes.irrefl i h

theorem PrereleasePrecedes.irrefl (as : List (Identifier Text)) : ¬ PrereleasePrecedes as as := by
  intro h
  cases h with
  | release ha => exact ha rfl
  | identifiers ha h => exact lex_irrefl as h

theorem Version.Precedes.irrefl (a : Version Text) : ¬ a.Precedes a := by
  intro h
  cases h with
  | major h => exact absurd h (Nat.lt_irrefl _)
  | minor _ h => exact absurd h (Nat.lt_irrefl _)
  | patch _ _ h => exact absurd h (Nat.lt_irrefl _)
  | prerelease _ h => exact PrereleasePrecedes.irrefl _ h

end Strict

section Transitive

variable [Trans (α := Text) (β := Text) (γ := Text) (· < ·) (· < ·) (· < ·)]

theorem Identifier.Precedes.trans (h : i.Precedes j) (h' : j.Precedes k) : i.Precedes k := by
  cases h with
  | numeric h =>
    cases h' with
    | numeric h' => exact .numeric (Nat.lt_trans h h')
    | mixed => exact .mixed
  | mixed =>
    cases h' with
    | alphanumeric h' => exact .mixed
  | alphanumeric h =>
    cases h' with
    | alphanumeric h' => exact .alphanumeric (Trans.trans h h')

theorem lex_trans (h : List.Lex Identifier.Precedes as bs) (h' : List.Lex Identifier.Precedes bs cs) :
    List.Lex Identifier.Precedes as cs := by
  induction h generalizing cs with
  | nil =>
    cases h' with
    | cons h' => exact .nil
    | rel h' => exact .nil
  | cons h ih =>
    cases h' with
    | cons h' => exact .cons (ih h')
    | rel h' => exact .rel h'
  | rel h =>
    cases h' with
    | cons h' => exact .rel h
    | rel h' => exact .rel (h.trans h')

theorem PrereleasePrecedes.trans (h : PrereleasePrecedes as bs) (h' : PrereleasePrecedes bs cs) :
    PrereleasePrecedes as cs := by
  cases h with
  | release ha =>
    cases h' with
    | release hb => exact absurd rfl hb
    | identifiers hb h' => exact absurd rfl hb
  | identifiers ha h =>
    cases h' with
    | release hb => exact .release ha
    | identifiers hb h' => exact .identifiers ha (lex_trans h h')

theorem Version.Precedes.trans (h : a.Precedes b) (h' : b.Precedes c) : a.Precedes c := by
  cases h with
  | major h =>
    cases h' with
    | major h' => exact .major (by omega)
    | minor hmajor h' => exact .major (by omega)
    | patch hmajor hminor h' => exact .major (by omega)
    | prerelease hcore h' => exact .major (hcore.major ▸ h)
  | minor hmajor h =>
    cases h' with
    | major h' => exact .major (by omega)
    | minor hmajor' h' => exact .minor (by omega) (by omega)
    | patch hmajor' hminor' h' => exact .minor (by omega) (by omega)
    | prerelease hcore h' => exact .minor (hmajor.trans hcore.major) (hcore.minor ▸ h)
  | patch hmajor hminor h =>
    cases h' with
    | major h' => exact .major (by omega)
    | minor hmajor' h' => exact .minor (by omega) (by omega)
    | patch hmajor' hminor' h' => exact .patch (by omega) (by omega) (by omega)
    | prerelease hcore h' =>
      exact .patch (hmajor.trans hcore.major) (hminor.trans hcore.minor) (hcore.patch ▸ h)
  | prerelease hcore h =>
    cases h' with
    | major h' => exact .major (hcore.major ▸ h')
    | minor hmajor' h' => exact .minor (hcore.major.trans hmajor') (hcore.minor ▸ h')
    | patch hmajor' hminor' h' =>
      exact .patch (hcore.major.trans hmajor') (hcore.minor.trans hminor') (hcore.patch ▸ h')
    | prerelease hcore' h' =>
      exact .prerelease ⟨hcore.major.trans hcore'.major, hcore.minor.trans hcore'.minor,
        hcore.patch.trans hcore'.patch⟩ (h.trans h')

end Transitive

end Staaash.Library.SemVer
