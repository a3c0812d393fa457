import Staaash.Pair.Moves
import Staaash.Pair.Proofs.HandlersProofs
import Staaash.Planner.Proofs.DroppedProofs

/-!
# Proofs: plans of moves

A move is planned exactly when it goes ahead, and what it was recognised by is all that is needed to
make it, but for one thing: nobody checks that it does not go into itself. The move made last leaves
an entry at its target, and so is never planned again.
-/

namespace Staaash.Pair

open Staaash.Library Staaash.Library.Proc
open Staaash.Planner

variable {P : Platform} {input : PlanInput} {v : View}

/-! ## Which moves are planned -/

/-- The moves among the actions of a plan: those of the entries whose move goes ahead and has its
folder. -/
theorem move_mem_plan_iff {a : Action} (ha : isMove a = true) :
    a ∈ (plan P input).actions ↔ ¬ Emptied input ∧ ∃ i b, GoesAhead P input i ∧ input.base[i]? = some b ∧
      ∃ move, recognisedMove P (view P input) b = some move ∧ move.action = some a := by
  rw [mem_plan_actions, holdFor_eq_none_iff, ← mem_foundMoves]
  refine and_congr_right fun _ => ?_
  constructor
  · rintro (⟨-, h⟩ | ⟨-, hw⟩)
    · exact h
    · exfalso
      obtain ⟨k, -, ⟨-, _, -, rfl⟩ | ⟨-, hact⟩⟩ := mem_walk_actions.mp hw
      · cases ha
      · have ho := decide_outcome hact
        generalize (decide _ (cellAt (view P input) k) _ []).1.gone = gone at ho
        cases ho <;> cases ha
  · intro h
    refine .inl ⟨fun hnil => ?_, h⟩
    rw [hnil] at h
    cases h

/-! ## What a planned move was recognised by -/

/-- Everything about a planned local move, but for its going into itself. -/
theorem of_moveLocal_mem {source target : Rel} {remote : RemoteItem}
    (h : .moveLocal source target remote ∈ (plan P input).actions) :
    ¬ Emptied input ∧ ∃ i b, GoesAhead P input i ∧ input.base[i]? = some b ∧ HasParent P input b ∧
      ∃ here there, CanFollow P input b here there ∧ source = here.rel ∧ target = there.rel ∧
        LocalParent P input target := by
  obtain ⟨hheld, i, b, hahead, hb, move, hmove, ha⟩ := (move_mem_plan_iff rfl).mp h
  have hparent : HasParent P input b := hasParent_iff.mpr ⟨move, hmove, by rw [ha]; rfl⟩
  refine ⟨hheld, i, b, hahead, hb, hparent, ?_⟩
  rcases recognisedMove_cases hmove with hs | hl
  · obtain ⟨here, there, hf, heq⟩ := serverMove_action hs ha
    obtain ⟨rfl, rfl, rfl⟩ := Action.moveLocal.inj heq
    refine ⟨here, there, followsServer_iff.mp hf, rfl, rfl, ?_⟩
    obtain ⟨hf', hparent⟩ | ⟨hr, -⟩ := hparent
    · obtain rfl := Option.some.inj ((remoteById_get_iff.mpr hf'.item).symm.trans hf.item)
      refine hparent.imp_right fun ⟨folder, hat, htype⟩ => ?_
      obtain ⟨hmem, hkey⟩ := mem_of_localAt hat
      exact ⟨folder, hmem, hkey, htype⟩
    · exact ((followsServer_iff.mp hf).not_canRepeat hr).elim
  · obtain ⟨_, _, _, _, _, _, heq⟩ := localMove_action hl ha
    cases heq

/-- Everything about a planned server move, but for its going into itself. -/
theorem of_moveRemote_mem {source target : Rel} {entry : BaseEntry} {here : LocalFile}
    (h : .moveRemote source target entry here ∈ (plan P input).actions) :
    ¬ Emptied input ∧ ∃ i, GoesAhead P input i ∧ input.base[i]? = some entry ∧ HasParent P input entry ∧
      source = entry.rel ∧ target = here.rel ∧ ∃ there, CanRepeat P input entry here there ∧
        (parentRel (P.pathKey target) = [] ∨
          ∃ folder ∈ input.remote, P.pathKey folder.rel = parentRel (P.pathKey target) ∧
            folder.item.type = .folder) := by
  obtain ⟨hheld, i, b, hahead, hb, move, hmove, ha⟩ := (move_mem_plan_iff rfl).mp h
  have hparent : HasParent P input b := hasParent_iff.mpr ⟨move, hmove, by rw [ha]; rfl⟩
  rcases recognisedMove_cases hmove with hs | hl
  · obtain ⟨_, _, _, heq⟩ := serverMove_action hs ha
    cases heq
  · obtain ⟨moved, there, -, hino, -, -, heq⟩ := localMove_action hl ha
    obtain ⟨rfl, rfl, rfl, rfl⟩ := Action.moveRemote.inj heq
    refine ⟨hheld, i, hahead, hb, hparent, rfl, rfl, ?_⟩
    obtain ⟨hf, -⟩ | ⟨hr, hparent⟩ := hparent
    · obtain ⟨_, _, hr⟩ := canRepeat_of_localMove hl
      exact (hf.not_canRepeat hr).elim
    · obtain rfl := Option.some.inj (((localByIno_get_iff hr.known).mpr hr.found).symm.trans hino)
      refine ⟨_, hr, hparent.imp_right fun ⟨folder, hat, htype⟩ => ?_⟩
      obtain ⟨hmem, hkey⟩ := mem_of_serverAt hat
      exact ⟨folder, hmem, hkey, htype⟩

/-! ## The move made last -/

theorem MakesAll.last {as : List Action} {before after : PlanInput}
    (h : MakesAll P as before after) (hne : as ≠ []) :
    ∃ a ∈ as, ∃ between, Makes P a between after := by
  induction h with
  | nil => exact absurd rfl hne
  | @cons a as before between after ha hs ih =>
    cases as with
    | nil =>
      cases hs
      exact ⟨a, by simp, before, ha⟩
    | cons a' as =>
      obtain ⟨last, hmem, between', hlast⟩ := ih (by simp)
      exact ⟨last, List.mem_cons_of_mem _ hmem, between', hlast⟩

/-- A local move leaves an entry at its target. -/
theorem MakesLocal.not_planned {source target : Rel} {remote : RemoteItem} {moved : LocalFile}
    {before after : PlanInput} (h : MakesLocal P source target remote moved before after) :
    .moveLocal source target remote ∉ (plan P after).actions := by
  intro hplan
  obtain ⟨-, i, b, -, -, -, here, there, hf, -, rfl, -⟩ := of_moveLocal_mem hplan
  refine hf.free moved h.mem.1 ?_
  rw [h.mem.2]

/-! ## What the handler of a server move records -/

/-- `n` more calls come back. -/
def Returning (n : Nat) (d : Desk) : Prop :=
  n ≤ d.answers.length ∧ ∀ a ∈ d.answers, a.ends = .returns

theorem Returning.mono {m n : Nat} {d : Desk} (h : Returning n d) (hm : m ≤ n) : Returning m d :=
  ⟨by have := h.1; omega, h.2⟩

/-- Nothing ends the computation early. -/
abbrev Never : Stop Unit → Desk → Prop := fun _ _ => False

theorem callFor_returning {n : Nat} {c : Option Change} :
    Triple (Returning (n + 1)) (callFor c)
      (fun _ d => Returning n d ∧
        ∀ entry, c = some (.inStore (.putBase entry)) → entry ∈ d.base) Never := by
  rintro d ⟨hlen, hall⟩
  unfold callFor
  cases hanswers : d.answers with
  | nil => simp [hanswers] at hlen
  | cons a answers =>
    rw [hanswers] at hlen hall
    have hrest : Returning n { d with answers } :=
      ⟨by simpa using hlen, fun b hb => hall b (List.mem_cons_of_mem _ hb)⟩
    simp only [hall a (by simp)]
    cases c with
    | none => exact ⟨hrest, fun entry he => by cases he⟩
    | some c =>
      refine ⟨hrest, fun entry he => ?_⟩
      obtain rfl := Option.some.inj he
      exact List.mem_cons_self

theorem returning_call {n : Nat} {c : Option Change} :
    Triple (Returning (n + 1)) (callFor c) (fun _ => Returning n) Never :=
  callFor_returning.post fun _ _ h => h.1

theorem record_returning {n : Nat} {rel : Rel} {here : LocalFile} {remote : RemoteItem}
    {checksum : Option String} :
    Triple (Returning (n + 1)) (record rel here remote checksum)
      (fun _ d => ∃ row ∈ d.base, row.rel = rel) Never := by
  refine Triple.bind (Q := fun _ => Returning (n + 1)) (triple_get fun _ h => h) fun d => ?_
  refine Triple.bind callFor_returning fun _ => triple_pure fun d hd => ?_
  exact ⟨_, hd.2 _ rfl, rfl⟩

theorem onServer_returning {n : Nat} {c : ServerChange} {current : RemoteItem} :
    Triple (Returning (n + 1)) (onServer c current) (fun _ => Returning n) Never :=
  Triple.bind returning_call fun _ => triple_pure fun _ h => h

theorem discard_returning {n : Nat} {c : Change} :
    Triple (Returning (n + 1)) (do let _ ← change c) (fun _ => Returning n) Never :=
  Triple.bind returning_call fun _ => triple_pure fun _ h => h

theorem moveItem_returning {n : Nat} {current : RemoteItem} {parentId : String} :
    Triple (Returning (n + 2)) (moveItem current parentId) (fun _ => Returning n) Never := by
  unfold moveItem
  refine triple_ite (fun _ => triple_pure fun d hd => hd.mono (by omega)) fun _ => ?_
  exact onServer_returning.bind fun _ => discard_returning.bind fun _ => triple_pure fun _ h => h

theorem renameItem_returning {n : Nat} {current item : RemoteItem} {name : Rel} :
    Triple (Returning (n + 2)) (renameItem current item name) (fun _ => Returning n) Never := by
  unfold renameItem
  refine triple_ite (fun _ => triple_pure fun d hd => hd.mono (by omega)) fun _ => ?_
  exact onServer_returning.bind fun _ => discard_returning.bind fun _ => triple_pure fun _ h => h

/-- A call that only looks takes the next answer. -/
theorem ask_takes {a : Answer} {rest : List Answer} (ha : a.ends = .returns) :
    Triple (fun d => d.answers = a :: rest) ask (fun b d => d.answers = rest ∧ b = a) Never := by
  intro d hd
  unfold ask callFor
  simp only [hd, ha]
  exact ⟨rfl, trivial⟩

/-- A handler that knows the item and its new folder, and whose calls all come back, records the
target. -/
theorem moveRemote_records {source target : Rel} {entry : BaseEntry} {here : LocalFile} {d : Desk}
    {tree parent : Answer} {rest : List Answer} {item : RemoteItem}
    (hreturns : ∀ a ∈ tree :: parent :: rest, a.ends = .returns)
    (hitem : tree.item = some item) (hid : parent.id.isSome = true) (hlen : 6 ≤ rest.length) :
    ∃ row ∈ (d.execute (.moveRemote source target entry here) (tree :: parent :: rest)).base,
      row.rel = target := by
  obtain ⟨id, hid⟩ := Option.isSome_iff_exists.mp hid
  have hrun : Triple (fun d => d.answers = tree :: parent :: rest)
      (moveRemote source target entry here) (fun _ d => ∃ row ∈ d.base, row.rel = target)
      Never := by
    unfold moveRemote
    refine (ask_takes (hreturns _ (by simp))).bind fun a => Triple.assume fun ha => ?_
    rw [ha, hitem]
    have hparent : Triple (fun d => d.answers = parent :: rest) remoteIdAt
        (fun x d => d.answers = rest ∧ x = some id) Never := by
      refine (ask_takes (hreturns _ (by simp))).bind fun b => triple_pure ?_
      rintro d ⟨hd, rfl⟩
      exact ⟨hd, hid⟩
    refine hparent.bind fun x => Triple.assume fun hx => ?_
    rw [hx]
    have hcalls : ∀ d : Desk, d.answers = rest → Returning 6 d := by
      rintro d rfl
      exact ⟨hlen, fun b hb => hreturns b (by simp [hb])⟩
    refine Triple.pre ?_ hcalls
    exact moveItem_returning.bind fun _ => renameItem_returning.bind fun _ =>
      discard_returning.bind fun _ => record_returning
  have hleft := hrun { d with answers := tree :: parent :: rest } rfl
  show ∃ row ∈ (Proc.after (moveRemote source target entry here) _).base, row.rel = target
  unfold Proc.after
  revert hleft
  cases moveRemote source target entry here { d with answers := tree :: parent :: rest } with
  | ok a d' => exact fun h => h
  | error e d' => exact fun h => False.elim h

/-- A server move leaves its target in the base table. -/
theorem MakesRemote.not_planned {source target : Rel} {entry : BaseEntry} {here : LocalFile}
    {there : ScopedItem} {item : RemoteItem} {answers : List Answer} {before after : PlanInput}
    (h : MakesRemote P source target entry here there item answers before after) :
    .moveRemote source target entry here ∉ (plan P after).actions := by
  intro hplan
  obtain ⟨-, i, -, -, -, -, htarget, there', hr, -⟩ := of_moveRemote_mem hplan
  obtain ⟨tree, parent, rest, rfl, htree, hparent, hlen⟩ := h.known
  obtain ⟨row, hrow, hrel⟩ := @moveRemote_records source target entry here
    (Desk.fresh before.pairId before.base) tree parent rest _ h.returned htree hparent hlen
  have hbase : row ∈ after.base := by
    rw [h.leaves]
    exact hrow
  obtain ⟨hunsynced, -⟩ := of_localByIno_get ((localByIno_get_iff hr.known).mpr hr.found)
  refine hunsynced.2.2 row hbase ?_
  rw [hrel, htarget]

theorem Makes.not_planned {a : Action} {before after : PlanInput} (h : Makes P a before after) :
    a ∉ (plan P after).actions := by
  cases h with
  | onLocal h => exact h.not_planned
  | onServer h => exact h.not_planned

/-! ## Moves that can be made -/

theorem MovesCanBeMade.noMoveIntoItself (h : MovesCanBeMade P input) :
    NoMoveIntoItself P input := by
  intro hheld i b hahead hb hparent
  obtain ⟨move, hmove, hready⟩ := hasParent_iff.mp hparent
  obtain ⟨a, ha⟩ := Option.isSome_iff_exists.mp hready
  have hplanned : isMove a = true → a ∈ (plan P input).actions := fun hmoves =>
    (move_mem_plan_iff hmoves).mpr ⟨hheld, i, b, hahead, hb, move, hmove, ha⟩
  constructor
  · rintro ⟨⟨here, hhere⟩, there, hitem, hbelow⟩
    rcases recognisedMove_cases hmove with hs | hl
    · obtain ⟨here, there', hf, rfl⟩ := serverMove_action hs ha
      obtain rfl := Option.some.inj ((remoteById_get_iff.mpr hitem).symm.trans hf.item)
      refine (h.onLocal _ _ _ (hplanned rfl)).apart (.inr ?_)
      rw [(of_locals_get hf.stays).2]
      exact hbelow
    · have hmissing := localMove_missing hl
      rw [locals_get_iff.mpr hhere] at hmissing
      cases hmissing
  · rintro ⟨hfree, moved, there, hfound, hitem, hroot, hin⟩
    rcases recognisedMove_cases hmove with hs | hl
    · obtain ⟨here, _, hf, -⟩ := serverMove_found hs
      obtain ⟨hmem, hkey⟩ := of_locals_get hf.stays
      exact hfree here hmem hkey
    · obtain ⟨moved', _, -, hino, -, -, rfl⟩ := localMove_action hl ha
      obtain ⟨_, _, hr⟩ := canRepeat_of_localMove hl
      obtain rfl := Option.some.inj (((localByIno_get_iff hr.known).mpr hfound).symm.trans hino)
      obtain ⟨there', hthere, hinside⟩ := h.onServer _ _ _ _ (hplanned rfl)
      obtain rfl := Option.some.inj ((remoteById_get_iff.mpr hitem).symm.trans hthere)
      obtain hinside | ⟨-, hout⟩ := hinside
      · exact hroot hinside
      · exact hout hin

/-- Every planned move can be made and no plan of moves repeats, exactly when no move that goes ahead
goes into itself. -/
theorem plan_moves_can_be_made_iff (P : Platform) (input : PlanInput) :
    MovesCanBeMade P input ↔ NoMoveIntoItself P input := by
  refine ⟨MovesCanBeMade.noMoveIntoItself, fun h => ⟨?_, ?_, ?_⟩⟩
  · intro source target remote hplan
    obtain ⟨hheld, i, b, hahead, hb, hhas, here, there, hf, rfl, rfl, hparent⟩ := of_moveLocal_mem hplan
    obtain ⟨hmem, hkey⟩ := mem_of_localAt hf.stays
    refine ⟨⟨here, hmem, rfl⟩, ?_, hf.free, hparent⟩
    rw [hkey]
    rintro (heq | hbelow)
    · exact hf.moved heq
    · exact (h hheld i b hahead hb hhas).1 ⟨⟨here, hf.stays⟩, there, hf.item, hbelow⟩
  · intro source target entry here hplan
    obtain ⟨hheld, i, hahead, hb, hhas, rfl, rfl, there, hr, hparent⟩ := of_moveRemote_mem hplan
    refine ⟨there, remoteById_get_iff.mpr hr.item, ?_⟩
    by_cases hroot : parentRel (P.pathKey here.rel) = []
    · exact .inl hroot
    · refine .inr ⟨hparent.resolve_left hroot, fun hin => ?_⟩
      exact (h hheld i entry hahead hb hhas).2 ⟨hr.missing, here, there, hr.found, hr.item, hroot, hin⟩
  · intro hne _ after hmade heq
    obtain ⟨a, ha, between, hlast⟩ := hmade.last hne
    refine hlast.not_planned ?_
    rw [heq]
    exact ha

/-- What the plan calls for, the disk and the server can do: without error or interference each
planned move is made. -/
theorem MovesCanBeMade.exists_makes (h : MovesCanBeMade P input) {a : Action}
    (ha : a ∈ (plan P input).actions) (hmove : isMove a = true) :
    ∃ after, Makes P a input after := by
  cases a with
  | moveLocal source target remote =>
    obtain ⟨-, i, b, -, -, -, here, there, hf, rfl, -, -⟩ := of_moveLocal_mem ha
    have hself : follow here.rel target here.rel = target := by
      simp [follow, atOrBelow, movedRel]
    have hmem : { here with rel := target } ∈ input.locals.map fun each =>
        { each with rel := follow here.rel target each.rel } := by
      refine List.mem_map.mpr ⟨here, (mem_of_localAt hf.stays).1, ?_⟩
      rw [hself]
    exact ⟨_, .onLocal ⟨h.onLocal _ _ _ ha, ⟨hmem, rfl⟩, rfl⟩⟩
  | moveRemote source target entry here =>
    obtain ⟨there, hid, hparent⟩ := h.onServer _ _ _ _ ha
    let answer : Answer := { sees none with item := some there.item, id := some there.item.id }
    have hreturned : ∀ b ∈ List.replicate 8 answer, b.ends = .returns := fun b hb => by
      rw [List.eq_of_mem_replicate hb]
      rfl
    exact ⟨_, .onServer ⟨of_remoteById_get hid, hparent, ⟨rfl, rfl⟩, hreturned,
      ⟨answer, answer, List.replicate 6 answer, rfl, rfl, rfl, by simp⟩, rfl⟩⟩
  | _ => cases hmove

/-- On the server a new folder took the name of a synced one, which was moved inside it. -/
def renamedAroundItself : PlanInput :=
  smallPair .twoWay [smallFolder "docs" "10"]
    [serverFolder "docs" "f2", serverFolder "docs/old" "f1"]
    [syncedAs (smallFolder "docs" "10") "f1" none]

/-- The plan is to move the folder into itself, and nothing else. -/
theorem renamedAroundItself_planned : renamedAroundItself.DistinctKeys linux ∧
    renamedAroundItself.ParentClosed linux ∧ ¬ MovesCanBeMade linux renamedAroundItself := by
  refine ⟨⟨by decide, by decide⟩, ⟨by decide, by decide⟩, fun h => ?_⟩
  have hcan := h.onLocal "docs".toList "docs/old".toList (serverFolder "docs/old" "f1").item
    (by decide)
  exact hcan.apart (Or.inr ⟨"old".toList, rfl⟩)

end Staaash.Pair
