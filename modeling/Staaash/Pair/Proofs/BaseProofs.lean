import Staaash.Pair.Base
import Staaash.Pair.Proofs.HandlersProofs
import Staaash.Pair.Proofs.MovesProofs
import Mathlib.Data.List.Pairwise

/-!
# Proofs: one row a key

The primary key keeps a spelling from having two rows. A pass only ever writes rows in the spellings that the base
has, that the planner names, or that moves lead to; where these are one spelling a key, so are the rows.
-/

namespace Staaash.Pair

open Staaash.Library Staaash.Library.Proc
open Staaash.Planner

variable {P : Platform} {input : PlanInput}

/-! ## Keys and spellings -/

theorem Segmentwise.pathKey (hP : Segmentwise P) (a b : Rel) :
    P.pathKey (a ++ '/' :: b) = P.pathKey a ++ '/' :: P.pathKey b := by
  unfold Platform.pathKey
  simp only
  split
  · rw [hP.normalizeNfc, hP.toLowerCase]
  · exact hP.normalizeNfc a b

theorem atOrBelow_iff {folder rel : Rel} :
    atOrBelow folder rel = true ↔ rel = folder ∨ Below folder rel := by
  unfold atOrBelow Below
  rw [Bool.or_eq_true, decide_eq_true_eq, List.isPrefixOf_iff_prefix]
  apply or_congr_right
  constructor
  · rintro ⟨rest, rfl⟩
    exact ⟨rest, by rw [List.append_assoc, List.singleton_append]⟩
  · rintro ⟨rest, rfl⟩
    exact ⟨rest, by rw [List.append_assoc, List.singleton_append]⟩

/-- A path that is spelled at or below another of the same key is spelled like it. -/
theorem Segmentwise.eq_of_atOrBelow (hP : Segmentwise P) {folder rel : Rel} (h : atOrBelow folder rel = true)
    (hkey : P.pathKey rel = P.pathKey folder) : rel = folder := by
  rcases atOrBelow_iff.1 h with rfl | ⟨rest, rfl⟩
  · rfl
  · rw [hP.pathKey] at hkey
    exact absurd (congrArg List.length hkey) (by simp)

theorem movedRel_self (source target : Rel) : movedRel source target source = target := by
  simp [movedRel]

/-! ## Rows and the primary key -/

/-- No spelling has two rows, and every row is spelled in one of the ways `S`. -/
structure RowsIn (S : Rel → Prop) (base : List BaseEntry) : Prop where
  primary : (base.map (·.rel)).Nodup
  spelled : ∀ row ∈ base, S row.rel

namespace RowsIn

variable {S : Rel → Prop} {base : List BaseEntry}

theorem filter (h : RowsIn S base) (p : BaseEntry → Bool) : RowsIn S (base.filter p) where
  primary := h.primary.sublist (List.filter_sublist.map _)
  spelled := fun row hrow => h.spelled row (List.mem_of_mem_filter hrow)

theorem putBase (h : RowsIn S base) {entry : BaseEntry} (hentry : S entry.rel) :
    RowsIn S (Pair.putBase base entry) := by
  refine ⟨List.nodup_cons.2 ⟨fun hmem => ?_, (h.filter _).primary⟩, fun row hrow => ?_⟩
  · obtain ⟨row, hrow, hrel⟩ := List.mem_map.1 hmem
    exact absurd hrel (by simpa using (List.mem_filter.1 hrow).2)
  · rcases List.mem_cons.1 hrow with rfl | hrow
    · exact hentry
    · exact h.spelled row (List.mem_of_mem_filter hrow)

theorem foldl_putBase {move : BaseEntry → BaseEntry} {rows : List BaseEntry} (h : RowsIn S base)
    (hrows : ∀ row ∈ rows, S (move row).rel) :
    RowsIn S (rows.foldl (fun acc row => Pair.putBase acc (move row)) base) := by
  induction rows generalizing base with
  | nil => exact h
  | cons row rest ih =>
    exact ih (h.putBase (hrows row (by simp))) fun each heach => hrows each (List.mem_cons_of_mem _ heach)

/-- A move keeps to the spellings, if these contain where it takes its rows. -/
theorem moveBaseTree {source target : Rel} (h : RowsIn S base)
    (hmoves : ∀ rel, S rel → atOrBelow source rel = true → S (movedRel source target rel)) :
    RowsIn S (Pair.moveBaseTree base source target) :=
  (h.filter _).foldl_putBase fun row hrow =>
    hmoves row.rel (h.spelled row (List.mem_of_mem_filter hrow)) (List.mem_filter.1 hrow).2

/-- Where a key has one spelling, it has one row. -/
theorem unique (h : RowsIn S base)
    (hone : ∀ rel rel', S rel → S rel' → P.pathKey rel = P.pathKey rel' → rel = rel') : Unique P base := by
  refine (List.pairwise_map.1 h.primary).imp_of_mem ?_
  intro a b ha hb hne hkey
  exact hne (hone _ _ (h.spelled a ha) (h.spelled b hb) hkey)

end RowsIn

theorem Unique.eq_of_pathKey {base : List BaseEntry} (h : Unique P base) {a b : BaseEntry}
    (ha : a ∈ base) (hb : b ∈ base) (heq : P.pathKey a.rel = P.pathKey b.rel) : a = b := by
  by_contra hne
  have : Std.Symm fun a b : BaseEntry => P.pathKey a.rel ≠ P.pathKey b.rel := ⟨fun _ _ h => h.symm⟩
  exact List.Pairwise.forall h ha hb hne heq

theorem Unique.nodup {base : List BaseEntry} (h : Unique P base) : (base.map (·.rel)).Nodup :=
  List.pairwise_map.2 (h.imp fun hne heq => hne (congrArg P.pathKey heq))

theorem Unique.perm {base base' : List BaseEntry} (h : Unique P base) (hperm : base'.Perm base) :
    Unique P base' :=
  (hperm.pairwise_iff fun hne => hne.symm).2 h

/-! ## What handlers change in the store -/

/-- The paths that a handler may write a row for. -/
def recorded : Action → List Rel
  | .moveLocal _ target _ => [target]
  | .moveRemote _ target _ _ => [target]
  | .trashLocal _ _ => []
  | .trashRemote _ _ => []
  | .forget _ => []
  | a => pathsOf a

/-- The path of a trash action. -/
def trashed : Action → Option Rel
  | .trashLocal rel _ => some rel
  | .trashRemote rel _ => some rel
  | _ => none

/-- Where a move starts and where it goes. -/
def movedBy : Action → Option (Rel × Rel)
  | .moveLocal source target _ => some (source, target)
  | .moveRemote source target _ _ => some (source, target)
  | _ => none

/-- The changes of the table by the handler of an action. -/
def StoreFor (a : Action) : Change → Prop
  | .inStore (.putBase entry) => entry.rel ∈ recorded a
  | .inStore (.deleteBase rel) => a = .forget rel
  | .inStore (.deleteBaseTree rel) => trashed a = some rel
  | .inStore (.moveBaseTree source target) => movedBy a = some (source, target)
  | .inStore (.addConflict rel _) => ∃ here localOnly unverified, a = .conflictCopy rel here localOnly unverified
  | _ => True

theorem only_downloadToTemp {ok : Change → Prop} (hlocal : ∀ c, ok (.onLocal c)) {rel : Rel} :
    Only ok (downloadToTemp rel) := by
  unfold downloadToTemp
  refine only_ask.bind fun body => (only_change (hlocal _)).bind fun _ => ?_
  split
  · exact only_pure _
  · exact (only_change (hlocal _)).bind fun _ => only_throw

theorem only_verify {ok : Change → Prop} (hlocal : ∀ c, ok (.onLocal c)) {rel : Rel}
    {u : Option Unverified} : Only ok (verify rel u) := by
  cases u with
  | none => exact only_pure _
  | some u =>
    exact (only_downloadToTemp hlocal).bind fun _ =>
      (only_change (hlocal _)).bind fun _ => only_pure _

theorem only_moveItem {ok : Change → Prop} (hserver : ∀ c, ok (.onServer c)) (htree : ∀ c, ok (.inTree c))
    {current : RemoteItem} {parentId : String} : Only ok (moveItem current parentId) := by
  unfold moveItem
  split
  · exact only_pure _
  · exact (only_onServer (hserver _)).bind fun _ => (only_tree (htree _)).bind fun _ => only_pure _

theorem only_renameItem {ok : Change → Prop} (hserver : ∀ c, ok (.onServer c)) (htree : ∀ c, ok (.inTree c))
    {current item : RemoteItem} {name : Rel} : Only ok (renameItem current item name) := by
  unfold renameItem
  split
  · exact only_pure _
  · exact (only_onServer (hserver _)).bind fun _ => (only_tree (htree _)).bind fun _ => only_pure _

/-- A handler makes no change of the table but those of its action. -/
theorem only_handler (a : Action) : Only (StoreFor a) (handler a) := by
  have hlocal : ∀ c, StoreFor a (.onLocal c) := fun _ => trivial
  cases a with
  | moveLocal source target remote =>
    have hmoves : StoreFor (.moveLocal source target remote) (.inStore (.moveBaseTree source target)) := rfl
    refine only_statLocal.bind fun found => ?_
    split
    · exact only_pure _
    refine (only_change (hlocal _)).bind fun _ => (only_store hmoves).bind fun _ => ?_
    refine only_statLocal.bind fun moved => only_get.bind fun d => ?_
    simp only
    split
    · exact only_record fun _ h => List.mem_singleton.2 h
    · exact only_pure _
  | moveRemote source target row here =>
    have hmoves : StoreFor (.moveRemote source target row here) (.inStore (.moveBaseTree source target)) := rfl
    refine only_ask.bind fun a => ?_
    split
    · refine only_remoteIdAt.bind fun parent => ?_
      split
      · refine (only_moveItem (fun _ => trivial) fun _ => trivial).bind fun item => ?_
        refine (only_renameItem (fun _ => trivial) fun _ => trivial).bind fun item => ?_
        exact (only_store hmoves).bind fun _ => only_record fun _ h => List.mem_singleton.2 h
      · exact only_pure _
    · exact only_pure _
  | link rel here remote => exact only_record fun _ h => List.mem_singleton.2 h
  | forget rel => exact only_store rfl
  | trashLocal rel here =>
    refine only_statLocal.bind fun now => ?_
    split
    · exact only_store rfl
    · split
      · exact only_pure _
      · exact (only_change (hlocal _)).bind fun _ => only_store rfl
  | trashRemote rel remote =>
    refine only_statLocal.bind fun now => ?_
    split
    · exact only_pure _
    · exact (only_change trivial).bind fun _ => (only_tree trivial).bind fun _ => only_store rfl
  | mkdir rel remote =>
    refine (only_change (hlocal _)).bind fun _ => only_statLocal.bind fun made => ?_
    split
    · exact only_record fun _ h => List.mem_singleton.2 h
    · exact only_pure _
  | createRemoteFolder rel here =>
    refine only_remoteIdAt.bind fun parent => ?_
    split
    · exact (only_onServer trivial).bind fun _ => (only_tree trivial).bind fun _ =>
        only_record fun _ h => List.mem_singleton.2 h
    · exact only_pure _
  | download rel remote expect =>
    refine only_ask.bind fun full => ?_
    split
    · exact only_pure _
    refine (only_change (hlocal _)).bind fun _ => ?_
    refine (only_downloadToTemp hlocal).bind fun checksum => only_statLocal.bind fun now => ?_
    refine only_ite ((only_change (hlocal _)).bind fun _ => only_pure _) ?_
    refine (only_change (hlocal _)).bind fun _ => only_statLocal.bind fun written => ?_
    split
    · exact only_record fun _ h => List.mem_singleton.2 h
    · exact only_pure _
  | upload rel here replace =>
    refine only_ask.bind fun busy => ?_
    split
    · exact only_pure _
    refine only_remoteIdAt.bind fun parent => ?_
    split
    · refine only_ask.bind fun hashed => only_statLocal.bind fun now => ?_
      split
      · split
        · exact only_pure _
        · exact (only_onServer trivial).bind fun _ => (only_tree trivial).bind fun _ =>
            only_record fun _ h => List.mem_singleton.2 h
      · exact only_pure _
    · exact only_pure _
  | keepMine rel here remote =>
    refine only_ask.bind fun busy => ?_
    split
    · exact only_pure _
    refine only_ask.bind fun hashed => Only.bind ?_ fun parent => ?_
    · split
      · exact only_pure _
      · exact only_remoteIdAt
    split
    · exact only_ask.bind fun _ => (only_onServer trivial).bind fun _ =>
        (only_onServer trivial).bind fun _ => (only_tree trivial).bind fun _ =>
          (only_tree trivial).bind fun _ => only_record fun _ h => List.mem_singleton.2 h
    · exact only_pure _
  | conflictCopy rel here localOnly unverified =>
    refine only_statLocal.bind fun now => ?_
    split
    · split
      · exact only_pure _
      · refine (only_verify hlocal).bind fun verified => ?_
        split
        · exact only_record fun _ h => List.mem_singleton.2 h
        · refine only_ask.bind fun _ => (only_change (hlocal _)).bind fun _ => ?_
          split
          · exact only_store ⟨_, _, _, rfl⟩
          · exact only_pure _
    · exact only_pure _

/-! ## The spellings of a pass -/

/-- The spellings of the paths that a pass may write rows for. -/
inductive Spelling (P : Platform) (input : PlanInput) (rel : Rel) : Prop
  | row {row : BaseEntry} (hrow : row ∈ input.base)
    (hmoves : Relation.ReflTransGen (MovesRow P input) row.rel rel) : Spelling P input rel
  | named (hmake : NoMoveToMake P input) (h : NamedAs P input (P.pathKey rel) rel) : Spelling P input rel

theorem NamedAs.eq {k rel rel' : Rel} (h : NamedAs P input k rel) (h' : NamedAs P input k rel') : rel = rel' := by
  cases h with
  | here h =>
    cases h' with
    | here h' => rw [Option.some.inj (h.symm.trans h')]
    | there missing => exact absurd (mem_of_localAt h).2 (missing _ (mem_of_localAt h).1)
  | there missing h =>
    cases h' with
    | here h' => exact absurd (mem_of_localAt h').2 (missing _ (mem_of_localAt h').1)
    | there _ h' => rw [Option.some.inj (h.symm.trans h')]

theorem not_movesRow (h : NoMoveToMake P input) {source target : Rel} :
    ¬ MovesRow P input source target := by
  rintro ⟨i, b, _, hahead, hb, hparent, -⟩
  exact h.2 i b hahead hb hparent

/-- A spelling that moves do not lead to is a row's own. -/
theorem eq_of_moves (h : NoMoveToMake P input) {source target : Rel}
    (hmoves : Relation.ReflTransGen (MovesRow P input) source target) : target = source := by
  obtain heq | ⟨_, hstep, -⟩ := hmoves.cases_head
  · exact heq.symm
  · exact absurd hstep (not_movesRow h)

/-- A key has one spelling in the pass. -/
theorem SpelledAlike.eq (halike : SpelledAlike P input) (hP : Segmentwise P) (hunique : Unique P input.base)
    {rel rel' : Rel} (h : Spelling P input rel) (h' : Spelling P input rel') (hkey : P.pathKey rel = P.pathKey rel') :
    rel = rel' := by
  have hnamed : ∀ {row rel : _}, row ∈ input.base → NamedAs P input (P.pathKey rel) rel →
      P.pathKey row.rel = P.pathKey rel → row.rel = rel := fun {row rel} hrow hnamed heq =>
    hP.eq_of_atOrBelow (halike.named row hrow _ rel hnamed (.inl heq)) heq
  cases h with
  | row hrow hmoves =>
    cases h' with
    | row hrow' hmoves' =>
      rcases Relation.reflTransGen_iff_eq_or_transGen.1 hmoves with rfl | hmoved
      · rcases Relation.reflTransGen_iff_eq_or_transGen.1 hmoves' with rfl | hmoved'
        · rw [hunique.eq_of_pathKey hrow hrow' hkey]
        · exact (halike.moved _ hrow' _ hmoved' _ hrow _ hmoves hkey.symm).symm
      · exact halike.moved _ hrow _ hmoved _ hrow' _ hmoves' hkey
    | named hmake h' =>
      obtain rfl := eq_of_moves hmake hmoves
      exact hnamed hrow h' hkey
  | named hmake h =>
    cases h' with
    | row hrow' hmoves' =>
      obtain rfl := eq_of_moves hmake hmoves'
      exact (hnamed hrow' h hkey.symm).symm
    | named _ h' => exact h.eq (hkey ▸ h')

/-! ## What a plan writes -/

theorem namedAs_of_here {k : Rel} {here : LocalFile} (h : (cellAt (view P input) k).here = some here) :
    (cellAt (view P input) k).rel = here.rel ∧ NamedAs P input (P.pathKey here.rel) here.rel := by
  have hat : LocalAt P input k here := locals_get_iff.1 h
  refine ⟨?_, ?_⟩
  · simp [cellAt, locals_get_iff.2 hat]
  · rw [(mem_of_localAt hat).2]
    exact .here hat

theorem namedAs_of_there {k : Rel} {there : ScopedItem} (hh : (cellAt (view P input) k).here = none)
    (h : (cellAt (view P input) k).there = some there) :
    (cellAt (view P input) k).rel = there.rel ∧ NamedAs P input (P.pathKey there.rel) there.rel := by
  have hat : ServerAt P input k there := remote_get_iff.1 h
  have hmissing : (view P input).locals.get k = none := hh
  refine ⟨?_, ?_⟩
  · simp [cellAt, hmissing, remote_get_iff.2 hat]
  · rw [(mem_of_serverAt hat).2]
    exact .there (locals_get_eq_none_iff.1 hmissing) hat

/-- What the walk writes or trashes, it names. -/
theorem namedAs_of_contributes {k rel : Rel} {a : Action} (h : ContributesAction (view P input) k a)
    (hrel : rel ∈ recorded a ∨ trashed a = some rel) : NamedAs P input (P.pathKey rel) rel := by
  rcases h with ⟨-, previous, -, rfl⟩ | ⟨-, hact⟩
  · rcases hrel with hrel | hrel <;> cases hrel
  · have hhere : ∀ {here}, (cellAt (view P input) k).here = some here → rel = (cellAt (view P input) k).rel →
        NamedAs P input (P.pathKey rel) rel := by
      rintro here hh rfl
      rw [(namedAs_of_here hh).1]
      exact (namedAs_of_here hh).2
    have hthere : ∀ {there}, (cellAt (view P input) k).here = none → (cellAt (view P input) k).there = some there →
        rel = (cellAt (view P input) k).rel ∨ rel = there.rel → NamedAs P input (P.pathKey rel) rel := by
      rintro there hh ht (rfl | rfl)
      · rw [(namedAs_of_there hh ht).1]
        exact (namedAs_of_there hh ht).2
      · exact (namedAs_of_there hh ht).2
    have ho := decide_outcome hact
    generalize (Planner.decide _ (cellAt (view P input) k) _ []).1.gone = gone at ho
    have hone : ∀ {r : Rel}, rel ∈ [r] ∨ none = some rel → rel = r := fun h =>
      h.elim List.mem_singleton.1 nofun
    have htrashed : ∀ {r : Rel}, rel ∈ ([] : List Rel) ∨ some r = some rel → rel = r := fun h =>
      h.elim nofun fun h => (Option.some.inj h).symm
    cases ho with
    | clash hh => exact hhere hh (hone hrel)
    | linkFolder hh => exact hhere hh (hone hrel)
    | trashRemoteFolder hh ht => exact hthere hh ht (.inl (htrashed hrel))
    | mkdir hh ht => exact hthere hh ht (.inr (hone hrel))
    | forget => rcases hrel with hrel | hrel <;> cases hrel
    | trashLocalFolder hh => exact hhere hh (htrashed hrel)
    | createRemoteFolder hh => exact hhere hh (hone hrel)
    | linkFile hh => exact hhere hh (hone hrel)
    | keepMine hh => exact hhere hh (hone hrel)
    | conflictCopy hh => exact hhere hh (hone hrel)
    | uploadReplace hh => exact hhere hh (hone hrel)
    | downloadReplace hh => exact hhere hh (hone hrel)
    | uploadNew hh => exact hhere hh (hone hrel)
    | trashLocalFile hh => exact hhere hh (htrashed hrel)
    | downloadNew hh ht => exact hthere hh ht (.inr (hone hrel))
    | trashRemoteFile hh ht => exact hthere hh ht (.inl (htrashed hrel))

/-- An action that is no move is planned only where no move is to be made first. -/
theorem contributes_of_planned {a : Action} (ha : a ∈ (plan P input).actions) (hmove : movedBy a = none) :
    NoMoveToMake P input ∧ ∃ k, Visited (view P input) (foundMoves P input).pending k ∧
      ContributesAction (view P input) k a := by
  obtain ⟨hhold, ⟨-, hfound⟩ | ⟨hmoves, hwalk⟩⟩ := mem_plan_actions.1 ha
  · obtain ⟨entry, -, move, hrecognised, hact⟩ := of_mem_planMoves hfound
    rcases recognisedMove_cases hrecognised with h | h
    · obtain ⟨_, _, _, rfl⟩ := serverMove_action h hact
      cases hmove
    · obtain ⟨_, _, _, _, _, _, rfl⟩ := localMove_action h hact
      cases hmove
  · exact ⟨noMoveToMake_iff.2 ⟨hhold, hmoves⟩, mem_walk_actions.1 hwalk⟩

/-- A planned move takes rows from where the base has its entry. -/
theorem movesRow_of_planned (halike : SpelledAlike P input) (hP : Segmentwise P) {a : Action} {source target : Rel}
    (ha : a ∈ (plan P input).actions) (hmove : movedBy a = some (source, target)) :
    (∃ row ∈ input.base, row.rel = source) ∧ ∀ rel, atOrBelow source rel = true →
      MovesRow P input rel (movedRel source target rel) := by
  cases a with
  | moveLocal source' target' remote =>
    cases hmove
    obtain ⟨-, i, b, hahead, hb, hparent, here, there, hf, rfl, rfl, -⟩ := of_moveLocal_mem ha
    have hmem : b ∈ input.base := List.mem_of_getElem? hb
    have hkey := (mem_of_localAt hf.stays).2
    have hsame : b.rel = here.rel :=
      hP.eq_of_atOrBelow (halike.named b hmem _ here.rel (.here hf.stays) (.inl rfl)) hkey.symm
    refine ⟨⟨b, hmem, hsame⟩, fun rel hrel => ?_⟩
    rw [← hsame] at hrel ⊢
    exact ⟨i, b, there.rel, hahead, hb, hparent, .onServer hf, hrel, rfl⟩
  | moveRemote source' target' entry here =>
    cases hmove
    obtain ⟨-, i, hahead, hb, hparent, rfl, rfl, there, hr, -⟩ := of_moveRemote_mem ha
    exact ⟨⟨entry, List.mem_of_getElem? hb, rfl⟩, fun rel hrel =>
      ⟨i, entry, here.rel, hahead, hb, hparent, .onLocal hr, hrel, rfl⟩⟩
  | _ => cases hmove

/-! ## One row a key -/

/-- The changes of the table by the handlers of a plan. -/
def PlanStores (P : Platform) (input : PlanInput) (c : Change) : Prop :=
  ∃ a ∈ (plan P input).actions, StoreFor a c

theorem only_planned {a : Action} (ha : a ∈ (plan P input).actions) : Only (PlanStores P input) (handler a) :=
  (only_handler a).mono fun _ hc => ⟨a, ha, hc⟩

/-- A pass writes rows in its own spellings. -/
theorem spelling_of_recorded (halike : SpelledAlike P input) (hP : Segmentwise P) {a : Action} {rel : Rel}
    (ha : a ∈ (plan P input).actions) (hrel : rel ∈ recorded a) : Spelling P input rel := by
  cases hmove : movedBy a with
  | none =>
    obtain ⟨hmake, k, -, hcontributes⟩ := contributes_of_planned ha hmove
    exact .named hmake (namedAs_of_contributes hcontributes (.inl hrel))
  | some move =>
    obtain ⟨source, target⟩ := move
    obtain ⟨⟨row, hrow, rfl⟩, hstep⟩ := movesRow_of_planned halike hP ha hmove
    have htarget : rel = target := by
      cases a with
      | moveLocal => cases hmove; exact List.mem_singleton.1 hrel
      | moveRemote => cases hmove; exact List.mem_singleton.1 hrel
      | _ => cases hmove
    have hself := hstep row.rel (atOrBelow_iff.2 (.inl rfl))
    rw [movedRel_self] at hself
    rw [htarget]
    exact .row hrow (.single hself)

theorem closed_rowsIn (halike : SpelledAlike P input) (hP : Segmentwise P) :
    Closed (PlanStores P input) fun d => RowsIn (Spelling P input) d.base := by
  refine ⟨fun _ _ h => h, ?_⟩
  rintro d c ⟨a, ha, hc⟩ h
  cases c with
  | inStore c =>
    cases c with
    | putBase entry => exact h.putBase (spelling_of_recorded halike hP ha hc)
    | deleteBase rel => exact h.filter _
    | deleteBaseTree rel => exact h.filter _
    | moveBaseTree source target =>
      obtain ⟨-, hstep⟩ := movesRow_of_planned halike hP ha hc
      refine h.moveBaseTree fun rel hrel hin => ?_
      cases hrel with
      | row hrow hmoves => exact .row hrow (hmoves.tail (hstep rel hin))
      | named hmake => exact absurd (hstep rel hin) (not_movesRow hmake)
    | addConflict rel copyRel => exact h
  | onLocal _ => exact h
  | onServer _ => exact h
  | inTree _ => exact h

section Passes

variable {base : List BaseEntry} {p : Pass} {runs : List (Action × List Answer)}

theorem rowsIn_start (hperm : input.base.Perm base) (hunique : Unique P base) : RowsIn (Spelling P input) base :=
  ⟨hunique.nodup, fun _ hrow => .row (hperm.mem_iff.2 hrow) .refl⟩

/-- After any of its handlers, a pass has rows in its spellings only. -/
theorem rowsIn_executeAll (hP : Segmentwise P) (hruns : OfPlan P input runs) (halike : SpelledAlike P input)
    (hperm : input.base.Perm base) (hunique : Unique P base) (pairId : String) :
    RowsIn (Spelling P input) ((Desk.fresh pairId base).executeAll runs).base :=
  Only.executeAll (fun run hrun => only_planned (hruns run hrun)) (closed_rowsIn halike hP)
    (d := Desk.fresh pairId base) (rowsIn_start hperm hunique)

/-- One pass leaves one row a key. -/
theorem Pass.unique_leaves (hP : Segmentwise P) (hfrom : p.PlansFrom P base) (halike : SpelledAlike P p.input)
    (hunique : Unique P base) : Unique P (p.leaves base) :=
  (rowsIn_executeAll hP hfrom.2 halike hfrom.1 hunique _).unique fun _ _ h h' =>
    halike.eq hP (hunique.perm hfrom.1) h h'

theorem unique_tableAfter (hP : Segmentwise P) {passes : List Pass} (hfrom : PassesFrom P base passes)
    (halike : ∀ p ∈ passes, SpelledAlike P p.input) (hunique : Unique P base) :
    Unique P (tableAfter base passes) := by
  induction passes generalizing base with
  | nil => exact hunique
  | cons p rest ih =>
    exact ih hfrom.2 (fun each heach => halike each (List.mem_cons_of_mem _ heach))
      (Pass.unique_leaves hP hfrom.1 (halike p (by simp)) hunique)

theorem passesFrom_append {base : List BaseEntry} {before after : List Pass} :
    PassesFrom P base (before ++ after) ↔
      PassesFrom P base before ∧ PassesFrom P (tableAfter base before) after := by
  induction before generalizing base with
  | nil => exact (and_iff_right trivial).symm
  | cons p rest ih =>
    exact (and_congr_right fun _ => ih).trans and_assoc.symm

end Passes

/-! ## Rows of paths that are gone -/

section Gone

theorem base_get_of_unique (h : Unique P input.base) {row : BaseEntry} (hrow : row ∈ input.base) :
    (view P input).base.get (P.pathKey row.rel) = some row := by
  cases hget : (view P input).base.get (P.pathKey row.rel) with
  | none => exact absurd rfl (base_get_eq_none_iff.1 hget row hrow)
  | some previous =>
    obtain ⟨hmem, hkey⟩ := of_base_get hget
    rw [h.eq_of_pathKey hmem hrow hkey]

/-- A path that neither side has is the base's alone. -/
theorem cellAt_of_gone {key : Rel} (h : GoneFromBoth P input key) :
    (cellAt (view P input) key).here = none ∧ (cellAt (view P input) key).there = none ∧
      ∀ row, (view P input).base.get key = some row → (cellAt (view P input) key).rel = row.rel := by
  have hl := locals_get_eq_none_iff.2 h.1
  have hr := remote_get_eq_none_iff.2 h.2
  refine ⟨hl, hr, ?_⟩
  intro row hrow
  simp [cellAt, hl, hr, hrow]

theorem plansRemoval (h : Unique P input.base) : PlansRemoval P input := by
  intro row hrow hgone hmake hsettled hshown
  obtain ⟨hhold, hmoves⟩ := noMoveToMake_iff.1 hmake
  have hcovered := covered_foundMoves_iff.2 ⟨hsettled, hshown⟩
  have hget := base_get_of_unique h hrow
  obtain ⟨hh, ht, hrel⟩ := cellAt_of_gone hgone
  have hkey : P.pathKey row.rel ∈ planKeys (view P input) := mem_planKeys.2 (.inr (.inr ⟨row, hget⟩))
  have hactions := (plan_of_walk (P := P) hhold hmoves).1
  rw [hactions]
  by_cases hreached : Reached (view P input) (foundMoves P input).pending (walkOf P input).gone
      (P.pathKey row.rel)
  · refine ⟨.forget row.rel, mem_walk_actions.2 ⟨_, ⟨hkey, hreached⟩, ?_⟩, rfl⟩
    by_cases hv : covered (P.pathKey row.rel) [vanishedFolders (view P input)] = true
    · exact .inl ⟨hv, row, hget, rfl⟩
    · refine .inr ⟨by simpa using hv, ?_⟩
      have hprev : (cellAt (view P input) (P.pathKey row.rel)).previous = some row := hget
      have hforget : forgetIfKnown (cellAt (view P input) (P.pathKey row.rel)) =
          some (.forget row.rel) := by
        simp [forgetIfKnown, hprev, hrel row hget]
      unfold decisionAt Planner.decide
      simp only [hh, ht, planFolder]
      split_ifs
      · exact hforget
      · exact hforget
  · -- the walk passes over the path only for a folder above that it deletes
    have habove : ∃ p, p ≠ [] ∧ Below p (P.pathKey row.rel) ∧ p ∈ (walkOf P input).gone := by
      by_contra hno
      exact hreached ⟨hcovered, fun p hp hbelow hmem => hno ⟨p, hp, hbelow, hmem⟩⟩
    obtain ⟨p, -, hbelow, hmem⟩ := habove
    obtain ⟨hvisited, hv, hdecided⟩ := mem_walk_gone.1 hmem
    obtain ⟨a, ha⟩ := decide_action_of_gone hdecided
    refine ⟨a, mem_walk_actions.2 ⟨p, hvisited, .inr ⟨hv, ha⟩⟩, ?_⟩
    have hp := pathKey_cellAt_rel hvisited.1
    have houtcome := decide_outcome ha
    rw [show (Planner.decide (view P input) (cellAt (view P input) p) (dirtySides (view P input))
      []).1.gone = true from hdecided] at houtcome
    cases houtcome with
    | trashLocalFolder => exact .inr (hp.symm ▸ hbelow)
    | trashRemoteFolder => exact .inr (hp.symm ▸ hbelow)

/-- What is planned to be forgotten is a row's own path, once neither side has it. -/
theorem rel_of_forget (h : Unique P input.base) {row : BaseEntry} {rel : Rel}
    (hrow : row ∈ input.base) (hgone : GoneFromBoth P input (P.pathKey row.rel))
    (ha : .forget rel ∈ (plan P input).actions) (hkey : P.pathKey rel = P.pathKey row.rel) :
    rel = row.rel := by
  obtain ⟨-, k, hk, ⟨-, previous, hget, heq⟩ | ⟨-, hact⟩⟩ := contributes_of_planned ha rfl
  · obtain ⟨hmem, -⟩ := of_base_get hget
    cases heq
    rw [h.eq_of_pathKey hmem hrow hkey]
  · have hrel : rel = (cellAt (view P input) k).rel := by
      have hout := decide_outcome hact
      generalize (Planner.decide _ (cellAt (view P input) k) _ []).1.gone = gone at hout
      cases hout with
      | forget => rfl
    have hk' : k = P.pathKey row.rel := by
      rw [← hkey, hrel, pathKey_cellAt_rel hk.1]
    rw [hrel, hk']
    exact (cellAt_of_gone hgone).2.2 row (base_get_of_unique h hrow)

/-- The planner names no path that neither side has. -/
theorem GoneFromBoth.not_namedAs {k rel : Rel} (h : GoneFromBoth P input k) : ¬ NamedAs P input k rel := by
  rintro (hat | ⟨-, hat⟩)
  · exact h.1 _ (mem_of_localAt hat).1 (mem_of_localAt hat).2
  · exact h.2 _ (mem_of_serverAt hat).1 (mem_of_serverAt hat).2

/-- What is planned for a row of a path that is gone is in no pass of moves, and removes the row's spelling. -/
theorem removes_of_plannedFor (halike : SpelledAlike P input) (hunique : Unique P input.base) {row : BaseEntry}
    (hrow : row ∈ input.base) (hgone : GoneFromBoth P input (P.pathKey row.rel)) {a : Action}
    (ha : a ∈ (plan P input).actions) (hplanned : PlannedFor P row a) :
    NoMoveToMake P input ∧ recorded a = [] ∧ movedBy a = none ∧ (∀ rel, a = .forget rel → rel = row.rel) ∧
      ∀ rel, trashed a = some rel → atOrBelow rel row.rel = true := by
  have hmove : movedBy a = none := by
    cases a <;> first | rfl | exact absurd hplanned id
  obtain ⟨hmake, k, -, hcontributes⟩ := contributes_of_planned ha hmove
  refine ⟨hmake, ?_, hmove, ?_, fun rel hrel => ?_⟩
  · cases a <;> first | rfl | exact absurd hplanned id
  · rintro rel rfl
    exact rel_of_forget hunique hrow hgone ha hplanned
  · refine halike.named row hrow _ rel (namedAs_of_contributes hcontributes (.inr hrel)) ?_
    cases a with
    | trashLocal => cases hrel; exact hplanned
    | trashRemote => cases hrel; exact hplanned
    | _ => cases hrel

/-- A row of a path that is gone is no longer there once its handler has changed the store. -/
theorem closed_removed (halike : SpelledAlike P input) (hP : Segmentwise P) (hunique : Unique P input.base)
    {row : BaseEntry} (hrow : row ∈ input.base) (hgone : GoneFromBoth P input (P.pathKey row.rel)) {a : Action}
    (ha : a ∈ (plan P input).actions) (hplanned : PlannedFor P row a) (stored : List StoreChange) :
    Closed (StoreFor a) fun d => RowsIn (Spelling P input) d.base ∧
      (d.stored ≠ stored → ∀ each ∈ d.base, P.pathKey each.rel ≠ P.pathKey row.rel) := by
  obtain ⟨hmake, hrecorded, hmove, hforget, htrashed⟩ := removes_of_plannedFor halike hunique hrow hgone ha hplanned
  have hself : Spelling P input row.rel := .row hrow .refl
  have hrows := closed_rowsIn halike hP
  refine ⟨fun _ _ h => h, fun d c hc h => ⟨hrows.change d c ⟨a, ha, hc⟩ h.1, ?_⟩⟩
  -- only the row's own spelling has its key, and that is removed
  have hspelled : ∀ each ∈ d.base, P.pathKey each.rel = P.pathKey row.rel → each.rel = row.rel :=
    fun each heach hkey => halike.eq hP hunique (h.1.spelled each heach) hself hkey
  cases c with
  | inStore c =>
    intro _ each heach hkey
    cases c with
    | putBase entry => rw [StoreFor, hrecorded] at hc; cases hc
    | deleteBase rel =>
      obtain ⟨hmem, hne⟩ := List.mem_filter.1 heach
      rw [hspelled each hmem hkey, ← hforget rel hc] at hne
      simp at hne
    | deleteBaseTree rel =>
      obtain ⟨hmem, hne⟩ := List.mem_filter.1 heach
      rw [hspelled each hmem hkey, htrashed rel hc] at hne
      cases hne
    | moveBaseTree source target => rw [StoreFor, hmove] at hc; cases hc
    | addConflict rel copyRel =>
      obtain ⟨here, localOnly, unverified, rfl⟩ := hc
      exact hplanned
  | onLocal _ => exact h.2
  | onServer _ => exact h.2
  | inTree _ => exact h.2

/-- No handler of the plan writes a row for a path that is gone. -/
theorem closed_gone {k : Rel} (hmake : NoMoveToMake P input) (halike : SpelledAlike P input) (hP : Segmentwise P)
    (hgone : GoneFromBoth P input k) :
    Closed (PlanStores P input) fun d => ∀ each ∈ d.base, P.pathKey each.rel ≠ k := by
  refine ⟨fun _ _ h => h, ?_⟩
  rintro d c ⟨a, ha, hc⟩ h
  cases c with
  | inStore c =>
    cases c with
    | putBase entry =>
      intro each heach
      rcases List.mem_cons.1 heach with rfl | heach
      · rintro rfl
        cases hmove : movedBy a with
        | none =>
          obtain ⟨-, _, -, hcontributes⟩ := contributes_of_planned ha hmove
          exact hgone.not_namedAs (namedAs_of_contributes hcontributes (.inl hc))
        | some move =>
          obtain ⟨source, target⟩ := move
          obtain ⟨⟨row, -, rfl⟩, hstep⟩ := movesRow_of_planned halike hP ha hmove
          exact not_movesRow hmake (hstep row.rel (atOrBelow_iff.2 (.inl rfl)))
      · exact h each (List.mem_of_mem_filter heach)
    | deleteBase rel => exact fun each heach => h each (List.mem_of_mem_filter heach)
    | deleteBaseTree rel => exact fun each heach => h each (List.mem_of_mem_filter heach)
    | moveBaseTree source target =>
      obtain ⟨⟨row, -, rfl⟩, hstep⟩ := movesRow_of_planned halike hP ha hc
      exact absurd (hstep row.rel (atOrBelow_iff.2 (.inl rfl))) (not_movesRow hmake)
    | addConflict rel copyRel => exact h
  | onLocal _ => exact h
  | onServer _ => exact h
  | inTree _ => exact h

/-- A pass removes the rows of paths that are gone as planned. -/
theorem Pass.removesPlanned {p : Pass} {base : List BaseEntry} (hP : Segmentwise P) (hfrom : p.PlansFrom P base)
    (halike : SpelledAlike P p.input) (hunique : Unique P base) : RemovesPlanned P base p := by
  intro row hrow hgone before a answers after hruns hplanned d hchanged
  obtain ⟨hperm, hplan⟩ := hfrom
  rw [hruns] at hplan
  have ha : a ∈ (plan P p.input).actions := hplan (a, answers) (by simp)
  have hrow' : row ∈ p.input.base := hperm.mem_iff.2 hrow
  have hunique' := hunique.perm hperm
  have hbefore : RowsIn (Spelling P p.input) d.base :=
    rowsIn_executeAll hP (fun run hrun => hplan run (List.mem_append_left _ hrun)) halike hperm hunique _
  have hremoved : ∀ each ∈ (d.execute a answers).base, P.pathKey each.rel ≠ P.pathKey row.rel :=
    ((only_handler a).execute (closed_removed halike hP hunique' hrow' hgone ha hplanned d.stored)
      ⟨hbefore, fun hne => absurd rfl hne⟩ answers).2 hchanged
  have hmake := (removes_of_plannedFor halike hunique' hrow' hgone ha hplanned).1
  have hleaves : p.leaves base = ((d.execute a answers).executeAll after).base := by
    unfold Pass.leaves Desk.executeAll
    rw [hruns, List.foldl_append, List.foldl_cons]
    rfl
  rw [hleaves]
  exact Only.executeAll (fun run hrun => only_planned (hplan run (by simp [hrun])))
    (closed_gone hmake halike hP hgone) hremoved

end Gone

/-- Paths are spelled alike where the sides spell the rows so, and the rows stay with moves among `paths`. -/
theorem spelledAlike_of_paths (paths : List Rel)
    (hsides : ∀ row ∈ input.base, ∀ rel ∈ input.locals.map (·.rel) ++ input.remote.map (·.rel),
      atOrBelow (P.pathKey rel) (P.pathKey row.rel) = true → atOrBelow rel row.rel = true)
    (hrows : ∀ row ∈ input.base, row.rel ∈ paths)
    (hmoves : ∀ source ∈ paths, ∀ target, MovesRow P input source target → target ∈ paths)
    (hone : ∀ rel ∈ paths, ∀ rel' ∈ paths, P.pathKey rel = P.pathKey rel' → rel = rel') :
    SpelledAlike P input := by
  have hreached : ∀ {row rel : _}, row ∈ input.base → Relation.ReflTransGen (MovesRow P input) row.rel rel →
      rel ∈ paths := by
    intro row rel hrow h
    induction h with
    | refl => exact hrows row hrow
    | tail _ hstep ih => exact hmoves _ ih _ hstep
  refine ⟨fun row hrow k rel hnamed hat => ?_, fun row hrow rel h other hother rel' h' hkey => ?_⟩
  · cases hnamed with
    | @here each h =>
      obtain ⟨hmem, rfl⟩ := mem_of_localAt h
      exact hsides row hrow _ (List.mem_append_left _ (List.mem_map_of_mem hmem)) (atOrBelow_iff.2 hat)
    | @there each _ h =>
      obtain ⟨hmem, rfl⟩ := mem_of_serverAt h
      exact hsides row hrow _ (List.mem_append_right _ (List.mem_map_of_mem hmem)) (atOrBelow_iff.2 hat)
  · exact hone _ (hreached hrow h.to_reflTransGen) _ (hreached hother h') hkey

/-- A disk that ignores the case of ASCII letters. -/
def mac : Platform :=
  { caseInsensitive := true, normalizeNfc := id, toLowerCase := List.map Char.toLower }

theorem mac_segmentwise : Segmentwise mac where
  normalizeNfc := fun _ _ => rfl
  toLowerCase := by
    intro a b
    simp only [mac, List.map_append, List.map_cons]
    rfl

/-- Every call returns and finds this. -/
def found (stat : Option LocalFile) (there : ScopedItem) (checksum : String) : Answer :=
  { ends := .returns, stat, item := some there.item, id := some "root", checksum, name := [], yes := false }

section Papers

def docs : LocalFile := smallFolder "Docs" "10"

def papers : LocalFile := smallFolder "Papers" "10"

def docsFile : LocalFile := smallFile "Docs/a" "11" (some "x")

def papersFile : LocalFile := smallFile "Papers/a" "11" (some "x")

/-- The folder and its file are new on this computer. -/
def docsMade : Pass where
  input := smallPair .twoWay [docs, docsFile] [] []
  runs := [(.createRemoteFolder docs.rel docs, List.replicate 4 (found none (serverFolder "Docs" "f1") "")),
    (.upload docsFile.rel docsFile none,
      List.replicate 7 (found (some docsFile) (serverFile "Docs/a" "r1" (some "x") 1) "x"))]

/-- The folder is renamed here. -/
def docsRenamed : Pass where
  input := smallPair .twoWay [papers, papersFile]
    [serverFolder "Docs" "f1", serverFile "Docs/a" "r1" (some "x") 1]
    [syncedAs docsFile "r1" (some "x"), syncedAs docs "f1" none]
  runs := [(.moveRemote docs.rel papers.rel (syncedAs docs "f1" none) papers,
    List.replicate 8 (found none (serverFolder "Papers" "f1") ""))]

/-- The folder is deleted here. -/
def papersDeleted : Pass where
  input := smallPair .twoWay []
    [serverFolder "Papers" "f1", serverFile "Papers/a" "r1" (some "x") 1]
    [syncedAs papers "f1" none, syncedAs papersFile "r1" (some "x")]
  runs := [(.trashRemote papers.rel (serverFolder "Papers" "f1").item,
    List.replicate 4 (found none (serverFolder "Papers" "f1") ""))]

theorem docsMade_plans : docsMade.PlansFrom mac [] ∧ docsMade.leaves [] = docsRenamed.input.base := by decide

theorem docsRenamed_plans : docsRenamed.PlansFrom mac docsRenamed.input.base ∧
    docsRenamed.leaves docsRenamed.input.base = papersDeleted.input.base := by decide

theorem papersDeleted_plans : papersDeleted.PlansFrom mac papersDeleted.input.base ∧
    papersDeleted.leaves papersDeleted.input.base = [] := by decide

theorem docsMade_alike : SpelledAlike mac docsMade.input :=
  spelledAlike_of_paths [] nofun nofun nofun nofun

theorem docsRenamed_alike : SpelledAlike mac docsRenamed.input := by
  refine spelledAlike_of_paths [docs.rel, docsFile.rel, papers.rel, papersFile.rel] (by decide) (by decide)
    ?_ (by decide)
  rintro source hsource target ⟨_, b, moveTo, -, hb, hparent, hrenames, hin, rfl⟩
  -- the file waits for its folder
  have hdocs : ∀ b ∈ docsRenamed.input.base, ∀ move ∈ recognisedMove mac (view mac docsRenamed.input) b,
      move.action.isSome = true → b.rel = docs.rel ∧ b.ino = "10" := by decide
  obtain ⟨move, hmove, hready⟩ := hasParent_iff.1 hparent
  obtain ⟨hrel, hino⟩ := hdocs b (List.mem_of_getElem? hb) move hmove hready
  have hto : moveTo = papers.rel := by
    cases hrenames with
    | onServer h =>
      have hgone : ∀ each ∈ docsRenamed.input.locals, mac.pathKey each.rel ≠ mac.pathKey docs.rel := by decide
      obtain ⟨hmem, hkey⟩ := mem_of_localAt h.stays
      exact absurd (hrel ▸ hkey) (hgone _ hmem)
    | onLocal h =>
      have hmoved : ∀ each ∈ docsRenamed.input.locals, each.ino = "10" → each.rel = papers.rel := by decide
      obtain ⟨hunsynced, hsame⟩ := of_localByIno_get ((localByIno_get_iff h.known).2 h.found)
      exact hmoved _ hunsynced.1 (hsame.trans hino)
  rw [hrel] at hin ⊢
  rw [hto]
  revert hin
  revert source
  decide

theorem papersDeleted_alike : SpelledAlike mac papersDeleted.input := by
  refine spelledAlike_of_paths [papers.rel, papersFile.rel] (by decide) (by decide) ?_ (by decide)
  rintro source _ target ⟨_, b, _, -, hb, hparent, -⟩
  have hnone : ∀ b ∈ papersDeleted.input.base, recognisedMove mac (view mac papersDeleted.input) b = none := by decide
  obtain ⟨move, hmove, -⟩ := hasParent_iff.1 hparent
  rw [hnone b (List.mem_of_getElem? hb)] at hmove
  cases hmove

end Papers

/-! ## A file renamed in letter case and edited -/

/-- A pass that uploads one file as the plan says. -/
def uploadPass (input : PlanInput) (here : LocalFile) (there : ScopedItem)
    (replace : Option Replace) : Pass :=
  { input, runs := [(.upload here.rel here replace, List.replicate 7 (found (some here) there (here.checksum.getD "")))] }

/-- A new file of this computer. -/
def newFile : Pass :=
  uploadPass (smallPair .twoWay [smallFile "a" "7" (some "x")] [] [])
    (smallFile "a" "7" (some "x")) (serverFile "a" "r1" (some "x") 1) none

/-- The row `newFile` leaves. -/
def newRow : BaseEntry := syncedAs (smallFile "a" "7" (some "x")) "r1" (some "x")

theorem newFile_plans : newFile.PlansFrom mac [] ∧ newFile.leaves [] = [newRow] := by decide

/-- The file, now spelled in another case and edited. -/
def recasedFile : LocalFile := { smallFile "A" "7" (some "y") with mtimeMs := 2000 }

def recased : Pass :=
  uploadPass (smallPair .twoWay [recasedFile] [serverFile "a" "r1" (some "x") 1] [newRow])
    recasedFile (serverFile "a" "r1" (some "y") 2) (some ⟨"r1", 1⟩)

end Staaash.Pair
