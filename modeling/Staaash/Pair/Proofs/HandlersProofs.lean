import Staaash.Pair.Handlers

/-!
# Proofs: what handlers change

`Only ok x` says that whatever the answers, `x` makes no change but such as `ok` allows: it keeps
whatever all of these keep. The rules follow the calls a handler is made of.
-/

namespace Staaash.Pair

open Staaash.Library Staaash.Library.Proc
open Staaash.Planner

variable {α β : Type} {ok : Change → Prop}

/-- The allowed changes keep `I`, and `I` does not look at the answers. -/
structure Closed (ok : Change → Prop) (I : Desk → Prop) : Prop where
  answers : ∀ d answers, I d → I { d with answers }
  change : ∀ d c, ok c → I d → I (d.change c)

def Only (ok : Change → Prop) (x : H α) : Prop :=
  ∀ I, Closed ok I → Triple I x (fun _ => I) fun _ => I

theorem Only.mono {ok' : Change → Prop} {x : H α} (hx : Only ok x) (h : ∀ c, ok c → ok' c) : Only ok' x :=
  fun I hI => hx I ⟨hI.answers, fun d c hc => hI.change d c (h c hc)⟩

theorem only_pure (a : α) : Only ok (pure a : H α) := fun _ _ => triple_pure fun _ h => h

theorem Only.bind {x : H α} {f : α → H β} (hx : Only ok x) (hf : ∀ a, Only ok (f a)) :
    Only ok (x >>= f) := fun I hI => Triple.bind (hx I hI) fun a => hf a I hI

theorem only_ite {c : Prop} [Decidable c] {x y : H α} (hx : Only ok x) (hy : Only ok y) :
    Only ok (if c then x else y) :=
  fun I hI => triple_ite (fun _ => hx I hI) fun _ => hy I hI

theorem only_throw : Only ok (Proc.throw () : H α) := fun _ _ => triple_throw fun _ h => h

theorem only_get : Only ok (get : H Desk) := fun _ _ => triple_get fun _ h => h

theorem only_callFor {c : Option Change} (hc : ∀ c', c = some c' → ok c') : Only ok (callFor c) := by
  intro I hI d hd
  unfold callFor
  cases hanswers : d.answers with
  | nil => exact hd
  | cons a answers =>
    have hbefore : I { d with answers } := hI.answers d answers hd
    have hafter : I (c.elim { d with answers } ({ d with answers } : Desk).change) := by
      cases c with
      | none => exact hbefore
      | some c => exact hI.change _ c (hc c rfl) hbefore
    simp only
    cases a.ends with
    | returns => exact hafter
    | throws took =>
      cases took
      · exact hbefore
      · exact hafter
    | stops took =>
      cases took
      · exact hbefore
      · exact hafter

theorem only_ask : Only ok ask := only_callFor fun _ h => by cases h

theorem only_change {c : Change} (hc : ok c) : Only ok (change c) :=
  only_callFor fun _ h => Option.some.inj h ▸ hc

theorem only_statLocal : Only ok statLocal := only_ask.bind fun _ => only_pure _

theorem only_remoteIdAt : Only ok remoteIdAt := only_ask.bind fun _ => only_pure _

theorem only_store {c : StoreChange} (hc : ok (.inStore c)) : Only ok (store c) :=
  (only_change hc).bind fun _ => only_pure _

theorem only_tree {c : TreeChange} (hc : ok (.inTree c)) : Only ok (tree c) :=
  (only_change hc).bind fun _ => only_pure _

theorem only_onServer {c : ServerChange} {current : RemoteItem} (hc : ok (.onServer c)) :
    Only ok (onServer c current) :=
  (only_change hc).bind fun _ => only_pure _

theorem only_record {rel : Rel} {here : LocalFile} {remote : RemoteItem}
    {checksum : Option String} (hc : ∀ entry, entry.rel = rel → ok (.inStore (.putBase entry))) :
    Only ok (record rel here remote checksum) :=
  only_get.bind fun _ => only_store (hc _ rfl)

/-- What a handler leaves, however it ends. -/
theorem Only.execute {a : Action} (ha : Only ok (handler a)) {I : Desk → Prop} (hI : Closed ok I)
    {d : Desk} (hd : I d) (answers : List Answer) : I (d.execute a answers) :=
  Triple.after (ha I hI) (hI.answers d answers hd)

theorem Only.executeAll {runs : List (Action × List Answer)}
    (hruns : ∀ run ∈ runs, Only ok (handler run.1)) {I : Desk → Prop} (hI : Closed ok I)
    {d : Desk} (hd : I d) : I (d.executeAll runs) := by
  induction runs generalizing d with
  | nil => exact hd
  | cons run rest ih =>
    exact ih (fun r hr => hruns r (List.mem_cons_of_mem _ hr))
      ((hruns run (by simp)).execute hI hd run.2)

/-- Every change so far is allowed. -/
def Allowed (ok : Change → Prop) (d : Desk) : Prop := ∀ c ∈ d.changes, ok c

theorem closed_allowed : Closed ok (Allowed ok) where
  answers := fun _ _ h => h
  change := by
    intro d c hc h c' hc'
    rcases List.mem_cons.1 hc' with rfl | hc'
    · exact hc
    · exact h c' hc'

end Staaash.Pair
