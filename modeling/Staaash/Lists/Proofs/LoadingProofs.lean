import Mathlib.Order.Basic
import Staaash.Library.Digits
import Staaash.Lists.Loading

/-!
# Proofs: loading a list

Reading the first items of a list ends whatever the server answers, and reads just them where the list does
not change. The list that is shown is then the beginning of the list of the current query, whatever answers
come late.
-/

namespace Staaash.Lists

open Staaash.Library

variable {Key Value : Type} {list : List (String × Value)} {page before next : ListPage Value} {count : Nat}

/-! ## Pages -/

theorem length_setEntries_le (m : OrderedMap String Value) (k : String) (v : Value) :
    m.entries.length ≤ (m.set k v).entries.length := by
  obtain ⟨es, hes⟩ := m
  show es.length ≤ (OrderedMap.setEntries k v es).length
  clear hes
  induction es with
  | nil => exact Nat.zero_le _
  | cons e es ih =>
    obtain ⟨k', v'⟩ := e
    unfold OrderedMap.setEntries
    split_ifs
    · exact Nat.le_refl _
    · exact Nat.succ_le_succ ih

theorem length_foldl_set_le (es : List (String × Value)) (m : OrderedMap String Value) :
    m.entries.length ≤ (es.foldl (fun m item => m.set item.1 item.2) m).entries.length := by
  induction es generalizing m with
  | nil => exact Nat.le_refl _
  | cons e es ih => exact Nat.le_trans (length_setEntries_le m e.1 e.2) (ih _)

theorem entries_ofList {es : List (String × Value)} (hnodup : (es.map Prod.fst).Nodup) :
    (OrderedMap.ofList es).entries = es := by
  unfold OrderedMap.ofList
  rw [OrderedMap.entries_foldl_set hnodup fun _ _ => rfl]
  rfl

/-- A page that was appended to has distinct ids, and has grown where more is left. -/
theorem appendPage_grows (h : appendPage before next = some page)
    (hbefore : (before.items.map Prod.fst).Nodup) :
    (page.items.map Prod.fst).Nodup ∧ page.total = next.total ∧ before.items.length ≤ page.items.length ∧
      (before.items.length < page.items.length ∨ page.total ≤ page.items.length) := by
  unfold appendPage at h
  dsimp only at h
  have hle := length_foldl_set_le next.items (OrderedMap.ofList before.items)
  rw [entries_ofList hbefore] at hle
  split_ifs at h with hsame
  obtain rfl := Option.some.inj h
  rw [Bool.and_eq_true_iff, decide_eq_true_eq, decide_eq_true_eq] at hsame
  refine ⟨OrderedMap.nodup _, rfl, hle, ?_⟩
  dsimp only
  omega

theorem nodup_of_appendPage (h : appendPage before next = some page) : (page.items.map Prod.fst).Nodup := by
  unfold appendPage at h
  dsimp only at h
  split_ifs at h
  obtain rfl := Option.some.inj h
  exact OrderedMap.nodup _

/-! ## Reading ends -/

theorem readOn_of_enough {answers : List (Option (ListPage Value))}
    (henough : min count page.total ≤ page.items.length) : readOn count page answers = .finished page := by
  unfold readOn
  rw [if_neg (by omega)]

/-- Every load brings a new item, or the loop is over. -/
theorem readOn_ends {answers : List (Option (ListPage Value))} (hnodup : (page.items.map Prod.fst).Nodup)
    (hlength : count ≤ page.items.length + answers.length) (request : Request) :
    readOn count page answers ≠ .asks request := by
  induction answers generalizing page with
  | nil =>
    rw [List.length_nil] at hlength
    rw [readOn_of_enough (by omega)]
    exact fun h => by cases h
  | cons a answers ih =>
    unfold readOn
    split_ifs with hmore
    · cases a with
      | none => exact fun h => by cases h
      | some next =>
        dsimp only
        cases happend : appendPage page next with
        | none => exact fun h => by cases h
        | some page' =>
          dsimp only
          obtain ⟨hnodup', -, -, hgrown⟩ := appendPage_grows happend hnodup
          rw [List.length_cons] at hlength
          obtain hgrown | hwhole := hgrown
          · exact ih hnodup' (by omega)
          · rw [readOn_of_enough (by omega)]
            exact fun h => by cases h
    · exact fun h => by cases h

/-- Whatever the server answers, reading ends after two loads more than items are wanted. -/
theorem readPrefix_ends (count : Nat) {answers : List (Option (ListPage Value))}
    (hlength : count + 2 ≤ answers.length) (request : Request) : readPrefix count answers ≠ .asks request := by
  cases answers with
  | nil => simp at hlength
  | cons a answers =>
    cases a with
    | none => exact fun h => by cases h
    | some page =>
      cases answers with
      | nil => simp at hlength
      | cons a answers =>
        show readOn count page (a :: answers) ≠ _
        unfold readOn
        split_ifs with hmore
        · cases a with
          | none => exact fun h => by cases h
          | some next =>
            dsimp only
            cases happend : appendPage page next with
            | none => exact fun h => by cases h
            | some page' =>
              simp only [List.length_cons] at hlength
              exact readOn_ends (nodup_of_appendPage happend) (by omega) request
        · exact fun h => by cases h

/-- A server that counts items which it never sends. -/
theorem readPrefix_ends_missing :
    readPrefix 1 (List.replicate 3 (some ⟨([] : List (String × Nat)), 5⟩)) ≠ .asks (.window 0 1) :=
  readPrefix_ends 1 (by decide) (.window 0 1)

/-! ## Reading a list that does not change -/

theorem Answered.snoc {read : List (Option (ListPage Value)) → Reading Value}
    {answers : List (Option (ListPage Value))} (h : Answered list read answers) {a : Option (ListPage Value)}
    (ha : ∀ page, a = some page → ∀ request, read answers = .asks request → page = pageOf list request) :
    Answered list read (answers ++ [a]) := by
  intro older b newer heq request hread
  obtain rfl | ⟨newer, last, rfl⟩ := List.eq_nil_or_concat newer
  · obtain ⟨rfl, hb⟩ := List.append_inj' heq rfl
    exact ha b (List.singleton_inj.1 hb) request hread
  · rw [List.concat_eq_append, ← List.cons_append, ← List.append_assoc] at heq
    obtain ⟨rfl, -⟩ := List.append_inj' heq rfl
    exact h older b newer rfl request hread

theorem Shows.take_eq (h : Shows list page) : page.items = list.take page.items.length := by
  have hitems := congrArg ListPage.items h
  exact hitems

theorem Shows.total_eq (h : Shows list page) : page.total = list.length := congrArg ListPage.total h

theorem shows_take (list : List (String × Value)) (n : Nat) : Shows list ⟨list.take n, list.length⟩ := by
  unfold Shows
  rw [ListPage.mk.injEq]
  refine ⟨?_, rfl⟩
  rw [List.length_take, List.take_eq_take_iff]
  omega

/-- The window after a page that shows the first items makes it longer. -/
theorem appendPage_window (hnodup : (list.map Prod.fst).Nodup) (h : Shows list before) {limit : Nat}
    (hlimit : 1 ≤ limit) (hmore : before.items.length < list.length) :
    appendPage before (pageOf list (.window before.items.length limit)) =
      some ⟨list.take (before.items.length + limit), list.length⟩ := by
  have hitems := h.take_eq
  have hbefore : (before.items.map Prod.fst).Nodup := by
    rw [hitems, List.map_take]
    exact hnodup.sublist (List.take_sublist _ _)
  have hentries : (((list.drop before.items.length).take limit).foldl (fun m item => m.set item.1 item.2)
      (OrderedMap.ofList before.items)).entries = list.take (before.items.length + limit) := by
    rw [OrderedMap.entries_foldl_set, entries_ofList hbefore, List.take_add, ← hitems]
    · rw [List.map_take, List.map_drop]
      exact (hnodup.sublist (List.drop_sublist _ _)).sublist (List.take_sublist _ _)
    · intro e he
      rw [OrderedMap.get_ofList_eq_none_iff]
      intro b hin
      rw [hitems] at hin
      have hsplit := hnodup
      rw [← List.take_append_drop before.items.length list, List.map_append] at hsplit
      exact (List.nodup_append.1 hsplit).2.2 _ (List.mem_map_of_mem hin) _
        (List.mem_map_of_mem (List.mem_of_mem_take he)) rfl
  unfold appendPage pageOf
  dsimp only
  rw [hentries, if_neg]
  intro hsame
  obtain ⟨hshort, -⟩ := Bool.and_eq_true_iff.1 hsame
  have hlength := of_decide_eq_true hshort
  rw [List.length_take] at hlength
  omega

theorem Answered.tail {read : List (Option (ListPage Value)) → Reading Value} {a : Option (ListPage Value)}
    {answers : List (Option (ListPage Value))} (h : Answered list read (a :: answers)) :
    Answered list (fun newer => read (a :: newer)) answers := by
  intro older b newer heq request hread
  exact h (a :: older) b newer (by rw [heq]; rfl) request hread

theorem readOn_nil (hmore : page.items.length < min count page.total) :
    readOn count page [] = .asks (.window page.items.length (min 1000 (count - page.items.length))) := by
  unfold readOn
  rw [if_pos hmore]

theorem readOn_none (hmore : page.items.length < min count page.total)
    (answers : List (Option (ListPage Value))) : readOn count page (none :: answers) = .failed := by
  unfold readOn
  rw [if_pos hmore]

/-- One load of the loop. -/
theorem readOn_window (hnodup : (list.map Prod.fst).Nodup) (h : Shows list page)
    (hmore : page.items.length < min count page.total) (answers : List (Option (ListPage Value))) :
    readOn count page
        (some (pageOf list (.window page.items.length (min 1000 (count - page.items.length)))) :: answers) =
      readOn count
        ⟨list.take (page.items.length + min 1000 (count - page.items.length)), list.length⟩ answers := by
  have htotal := h.total_eq
  conv_lhs => unfold readOn
  rw [if_pos hmore]
  dsimp only
  rw [appendPage_window hnodup h (by omega) (by omega)]

theorem readOn_whole (h : Shows list page) (hshort : page.items.length ≤ count)
    (henough : min count page.total ≤ page.items.length) (answers : List (Option (ListPage Value))) :
    readOn count page answers = .finished ⟨list.take count, list.length⟩ := by
  have htotal := h.total_eq
  have htake : list.take page.items.length = list.take count := by
    rw [List.take_eq_take_iff]
    omega
  rw [readOn_of_enough henough, h, htake]

/-- The loop reads just the first items, unless a load fails or there were too few loads. -/
theorem readOn_exact (hnodup : (list.map Prod.fst).Nodup) {answers : List (Option (ListPage Value))}
    (h : Shows list page) (hshort : page.items.length ≤ count)
    (hanswered : Answered list (readOn count page) answers) :
    readOn count page answers = .finished ⟨list.take count, list.length⟩ ∨
      (none ∈ answers ∧ readOn count page answers = .failed) ∨
      ∃ request, readOn count page answers = .asks request ∧
        page.items.length + 1000 * answers.length < min count list.length := by
  induction answers generalizing page with
  | nil =>
    have htotal := h.total_eq
    by_cases hmore : page.items.length < min count page.total
    · refine .inr (.inr ⟨_, readOn_nil hmore, ?_⟩)
      rw [List.length_nil]
      omega
    · exact .inl (readOn_whole h hshort (by omega) [])
  | cons a answers ih =>
    by_cases hmore : page.items.length < min count page.total
    · cases a with
      | none => exact .inr (.inl ⟨List.mem_cons_self, readOn_none hmore answers⟩)
      | some next =>
        obtain rfl := hanswered [] next answers rfl _ (readOn_nil hmore)
        have htail := hanswered.tail
        have htotal := h.total_eq
        simp only [readOn_window hnodup h hmore] at htail ⊢
        have hlength : (list.take (page.items.length + min 1000 (count - page.items.length))).length ≤ count := by
          rw [List.length_take]
          omega
        obtain hdone | ⟨hnone, hfailed⟩ | ⟨request, hasks, hfew⟩ := ih (shows_take list _) hlength htail
        · exact .inl hdone
        · exact .inr (.inl ⟨List.mem_cons_of_mem _ hnone, hfailed⟩)
        · refine .inr (.inr ⟨request, hasks, ?_⟩)
          dsimp only at hfew
          rw [List.length_take] at hfew
          rw [List.length_cons]
          omega
    · exact .inl (readOn_whole h hshort (by omega) (a :: answers))

/-- `readPrefix` of a list that does not change, with the loads that it asked for. -/
theorem readPrefix_exact (hnodup : (list.map Prod.fst).Nodup) {answers : List (Option (ListPage Value))}
    (hanswered : Answered list (readPrefix count) answers) :
    readPrefix count answers = .finished ⟨list.take count, list.length⟩ ∨
      (none ∈ answers ∧ readPrefix count answers = .failed) ∨
      ∃ request, readPrefix count answers = .asks request ∧
        (answers = [] ∨ 1000 * answers.length < min count list.length) := by
  cases answers with
  | nil => exact .inr (.inr ⟨_, rfl, .inl rfl⟩)
  | cons a answers =>
    cases a with
    | none => exact .inr (.inl ⟨List.mem_cons_self, rfl⟩)
    | some page =>
      obtain rfl := hanswered [] page answers rfl _ rfl
      have hlength : (list.take (min 1000 count)).length ≤ count := by
        rw [List.length_take]
        omega
      obtain hdone | ⟨hnone, hfailed⟩ | ⟨request, hasks, hfew⟩ :=
        readOn_exact hnodup (shows_take list (min 1000 count)) hlength hanswered.tail
      · exact .inl hdone
      · exact .inr (.inl ⟨List.mem_cons_of_mem _ hnone, hfailed⟩)
      · refine .inr (.inr ⟨request, hasks, .inr ?_⟩)
        dsimp only at hfew
        rw [List.length_take] at hfew
        rw [List.length_cons]
        omega

/-- The first items of a list that does not change are read in loads of a thousand. -/
theorem readPrefix_reads (hnodup : (list.map Prod.fst).Nodup) {answers : List (Option (ListPage Value))}
    (hanswered : Answered list (readPrefix count) answers) (hloaded : none ∉ answers) (hfirst : answers ≠ [])
    (hlength : min count list.length ≤ 1000 * answers.length) :
    readPrefix count answers = .finished ⟨list.take count, list.length⟩ := by
  obtain hdone | ⟨hnone, -⟩ | ⟨_, -, hempty | hfew⟩ := readPrefix_exact hnodup hanswered
  · exact hdone
  · exact absurd hnone hloaded
  · exact absurd hempty hfirst
  · omega

def numbered (n : Nat) : List (String × Nat) := (List.range n).map fun i => (String.ofList (Nat.toDigits 10 i), i)

theorem nodup_numbered (n : Nat) : ((numbered n).map Prod.fst).Nodup := by
  unfold numbered
  rw [List.map_map]
  exact List.nodup_range.map fun i j h => toDigits_injective (String.ofList_injective h)

theorem length_numbered (n : Nat) : (numbered n).length = n := by
  unfold numbered
  rw [List.length_map, List.length_range]

/-- A list of fifteen hundred items. -/
theorem readPrefix_reads_two :
    readPrefix 2000 [some (pageOf (numbered 1500) (.window 0 1000)), some (pageOf (numbered 1500) (.window 1000 1000))] =
      .finished ⟨(numbered 1500).take 2000, (numbered 1500).length⟩ := by
  have hpage : (pageOf (numbered 1500) (.window 0 1000)).items.length = 1000 := by
    simp [pageOf, length_numbered]
  have hsecond : readPrefix 2000 [some (pageOf (numbered 1500) (.window 0 1000))] = .asks (.window 1000 1000) := by
    show readOn 2000 _ [] = _
    rw [readOn_nil, hpage]
    · rfl
    · have htotal : (pageOf (numbered 1500) (.window 0 1000)).total = 1500 := by simp [pageOf, length_numbered]
      rw [hpage, htotal]
      decide
  have hnone : Answered (numbered 1500) (readPrefix 2000) [] := fun _ _ _ heq => by simp at heq
  have hfirst := hnone.snoc (a := some (pageOf (numbered 1500) (.window 0 1000))) fun page hpage request hasks => by
    obtain rfl := Reading.asks.inj hasks
    exact (Option.some.inj hpage).symm
  have hanswered := hfirst.snoc (a := some (pageOf (numbered 1500) (.window 1000 1000)))
    fun page hpage request hasks => by
      obtain rfl := Reading.asks.inj (hsecond.symm.trans hasks)
      exact (Option.some.inj hpage).symm
  exact readPrefix_reads (nodup_numbered 1500) hanswered (by simp) (by simp) (by rw [length_numbered]; decide)

/-! ## Tasks -/

/-- What a task starts from is the beginning of the list, and not all of it. -/
def Spec.Sound (list : List (String × Value)) : Spec Value → Prop
  | .append before => Shows list before ∧ before.items.length < list.length
  | _ => True

theorem sound_firstItems (list : List (String × Value)) (count : Nat) : (Spec.firstItems count).Sound list :=
  trivial

theorem sound_all (list : List (String × Value)) : (Spec.all : Spec Value).Sound list := trivial

/-- What comes of a task is the beginning of its list. -/
theorem shows_of_read {spec : Spec Value} (hnodup : (list.map Prod.fst).Nodup) (hsound : spec.Sound list)
    {answers : List (Option (ListPage Value))} (hanswered : Answered list spec.read answers)
    (hread : spec.read answers = .finished page) : Shows list page := by
  cases spec with
  | firstItems count =>
    obtain hdone | ⟨-, hfailed⟩ | ⟨request, hasks, -⟩ := readPrefix_exact hnodup hanswered
    · rw [show readPrefix count answers = _ from hread] at hdone
      obtain rfl := Reading.finished.inj hdone
      exact shows_take list count
    · exact nomatch hfailed.symm.trans hread
    · exact nomatch hasks.symm.trans hread
  | append before =>
    match answers, hread with
    | [], hread => exact nomatch hread
    | none :: _, hread => exact nomatch hread
    | some next :: answers, hread =>
      obtain rfl := hanswered [] next answers rfl _ rfl
      obtain ⟨hshows, hmore⟩ := hsound
      unfold Spec.read at hread
      dsimp only at hread
      rw [appendPage_window hnodup hshows (by omega) hmore] at hread
      obtain rfl := Reading.finished.inj hread
      exact shows_take list _
  | all =>
    match answers, hread with
    | [], hread => exact nomatch hread
    | none :: _, hread => exact nomatch hread
    | some next :: answers, hread =>
      obtain rfl := hanswered [] next answers rfl _ rfl
      obtain rfl := Reading.finished.inj hread
      have hshows := shows_take list list.length
      rw [List.take_length] at hshows
      exact hshows

/-! ## The task that is waited for -/

theorem getElem?_snoc_iff {α : Type} {l : List α} {a b : α} {i : Nat} :
    (l ++ [a])[i]? = some b ↔ l[i]? = some b ∨ (i = l.length ∧ b = a) := by
  rw [List.getElem?_append]
  split_ifs with hlt
  · have hne : i ≠ l.length := by omega
    simp [hne]
  · rw [List.getElem?_singleton, List.getElem?_eq_none (l := l) (by omega)]
    split_ifs with hi
    · have heq : i = l.length := by omega
      simp [heq, eq_comm]
    · have hne : i ≠ l.length := by omega
      simp [hne]

theorem getElem?_modify_iff {α : Type} {l : List α} {f : α → α} {b : α} {i j : Nat} :
    (l.modify i f)[j]? = some b ↔ ∃ a, l[j]? = some a ∧ b = if i = j then f a else a := by
  rw [List.getElem?_modify, Option.map_eq_map, Option.map_eq_some_iff]
  exact exists_congr fun a => and_congr_right fun _ => eq_comm

namespace Hook

variable {s s' : Hook Key Value} {key : Key}

/-- A load is shown as pending exactly when a task of the current generation runs, which is then the one. -/
structure Paced (s : Hook Key Value) : Prop where
  past : ∀ (i : Nat) (task : Task Key Value), s.tasks[i]? = some task → task.generation ≤ s.generation
  pending : ∀ i, s.pending = some i ↔
    ∃ task : Task Key Value, s.tasks[i]? = some task ∧ task.generation = s.generation ∧ task.settled = false

theorem Paced.congr (h : s.Paced) (htasks : s'.tasks = s.tasks) (hgeneration : s'.generation = s.generation)
    (hpending : s'.pending = s.pending) : s'.Paced := by
  obtain ⟨hpast, hrunning⟩ := h
  rw [← htasks, ← hgeneration] at hpast
  rw [← htasks, ← hgeneration, ← hpending] at hrunning
  exact ⟨hpast, hrunning⟩

theorem Paced.invalidate (h : s.Paced) : s.invalidate.Paced := by
  refine ⟨fun i task htask => Nat.le_succ_of_le (h.past i task htask), fun i => ⟨fun hi => (nomatch hi), ?_⟩⟩
  rintro ⟨task, htask, hgeneration, -⟩
  have hpast := h.past i task htask
  have hturned : task.generation = s.generation + 1 := hgeneration
  omega

theorem Paced.execute [DecidableEq Key] (h : s.Paced) (spec : Spec Value) (browsing : Bool) :
    (s.execute key spec browsing).Paced := by
  unfold Hook.execute
  split_ifs with hkey hpending
  · exact h
  · exact h
  · have hidle : ∀ (i : Nat) (task : Task Key Value), s.tasks[i]? = some task →
        task.generation = s.generation → task.settled ≠ false := by
      intro i task htask hgeneration hsettled
      rw [(h.pending i).2 ⟨task, htask, hgeneration, hsettled⟩] at hpending
      exact hpending rfl
    refine ⟨fun i task htask => ?_, fun i => ?_⟩
    · obtain htask | ⟨-, rfl⟩ := getElem?_snoc_iff.1 htask
      · exact h.past i task htask
      · exact Nat.le_refl _
    · constructor
      · intro hi
        exact ⟨_, getElem?_snoc_iff.2 (.inr ⟨(Option.some.inj hi).symm, rfl⟩), rfl, rfl⟩
      · rintro ⟨task, htask, hgeneration, hsettled⟩
        obtain htask | ⟨rfl, -⟩ := getElem?_snoc_iff.1 htask
        · exact absurd hsettled (hidle i task htask hgeneration)
        · rfl

theorem Paced.answer (h : s.Paced) (i : Nat) (a : Option (ListPage Value)) : (s.answer i a).Paced := by
  refine ⟨fun j task htask => ?_, fun j => (h.pending j).trans ?_⟩
  · obtain ⟨task', htask', rfl⟩ := getElem?_modify_iff.1 htask
    have hpast := h.past j task' htask'
    split_ifs
    · exact hpast
    · exact hpast
  · constructor
    · rintro ⟨task, htask, hgeneration, hsettled⟩
      refine ⟨_, getElem?_modify_iff.2 ⟨task, htask, rfl⟩, ?_⟩
      split_ifs
      · exact ⟨hgeneration, hsettled⟩
      · exact ⟨hgeneration, hsettled⟩
    · rintro ⟨task, htask, hrest⟩
      obtain ⟨task', htask', rfl⟩ := getElem?_modify_iff.1 htask
      refine ⟨task', htask', ?_⟩
      split_ifs at hrest
      · exact hrest
      · exact hrest

/-- A task is over. -/
theorem Paced.finish (h : s.Paced) {i : Nat} {task : Task Key Value} (htask : s.tasks[i]? = some task)
    (hsettled : task.settled = false) {pending : Option Nat}
    (hpending : pending = if task.generation = s.generation then none else s.pending) :
    Paced { s with tasks := s.tasks.modify i fun task => { task with settled := true }, pending } := by
  refine ⟨fun j task' htask' => ?_, fun j => ?_⟩
  · obtain ⟨task', hin, rfl⟩ := getElem?_modify_iff.1 htask'
    have hpast := h.past j task' hin
    split_ifs
    · exact hpast
    · exact hpast
  · show pending = some j ↔ _
    have hother : (∃ task' : Task Key Value,
        (s.tasks.modify i fun task => { task with settled := true })[j]? = some task' ∧
          task'.generation = s.generation ∧ task'.settled = false) ↔ i ≠ j ∧ s.pending = some j := by
      rw [h.pending j]
      constructor
      · rintro ⟨task', htask', hgeneration, hruns⟩
        obtain ⟨task', hin, rfl⟩ := getElem?_modify_iff.1 htask'
        split_ifs at hgeneration hruns with hij
        · exact ⟨hij, task', hin, hgeneration, hruns⟩
      · rintro ⟨hij, task', hin, hrest⟩
        refine ⟨task', getElem?_modify_iff.2 ⟨task', hin, ?_⟩, hrest⟩
        rw [if_neg hij]
    rw [hother, hpending]
    split_ifs with hgeneration
    · refine ⟨fun hi => (nomatch hi), fun hi => absurd ?_ hi.1⟩
      rw [(h.pending i).2 ⟨task, htask, hgeneration, hsettled⟩] at hi
      exact Option.some.inj hi.2
    · refine ⟨fun hj => ⟨?_, hj⟩, fun hi => hi.2⟩
      rintro rfl
      obtain ⟨task', hin, hcurrent, -⟩ := (h.pending i).1 hj
      obtain rfl := Option.some.inj (htask.symm.trans hin)
      exact hgeneration hcurrent

theorem settle_cases (s : Hook Key Value) (i : Nat) :
    s.settle i = s ∨ ∃ task, s.tasks[i]? = some task ∧ task.settled = false ∧
      let tasks := s.tasks.modify i fun task => { task with settled := true }
      (task.generation ≠ s.generation ∧ s.settle i = { s with tasks }) ∨
      (task.generation = s.generation ∧
        ((∃ page, task.spec.read task.answers = .finished page ∧
            s.settle i = { s with
              tasks, page, pending := none
              browsed := if task.browsing then page.items.length else s.browsed }) ∨
          s.settle i = { s with tasks, error := true, pending := none })) := by
  unfold settle
  cases htask : s.tasks[i]? with
  | none => exact .inl rfl
  | some task =>
    dsimp only
    cases hsettled : task.settled with
    | true => exact .inl rfl
    | false =>
      by_cases hgeneration : task.generation = s.generation
      · cases hread : task.spec.read task.answers with
        | asks request => exact .inl rfl
        | finished page =>
          refine .inr ⟨task, rfl, hsettled, .inr ⟨hgeneration, .inl ⟨page, hread, ?_⟩⟩⟩
          simp only [Bool.false_eq_true, if_false, if_neg (not_not.2 hgeneration)]
        | failed =>
          refine .inr ⟨task, rfl, hsettled, .inr ⟨hgeneration, .inr ?_⟩⟩
          simp only [Bool.false_eq_true, if_false, if_neg (not_not.2 hgeneration)]
      · cases hread : task.spec.read task.answers with
        | asks request => exact .inl rfl
        | finished page =>
          refine .inr ⟨task, rfl, hsettled, .inl ⟨hgeneration, ?_⟩⟩
          simp only [Bool.false_eq_true, if_false, if_pos hgeneration]
        | failed =>
          refine .inr ⟨task, rfl, hsettled, .inl ⟨hgeneration, ?_⟩⟩
          simp only [Bool.false_eq_true, if_false, if_pos hgeneration]

theorem Paced.settle (h : s.Paced) (i : Nat) : (s.settle i).Paced := by
  obtain heq | ⟨task, htask, hsettled, ⟨hlate, heq⟩ | ⟨hcurrent, ⟨page, -, heq⟩ | heq⟩⟩ := settle_cases s i
  · rw [heq]
    exact h
  · rw [heq]
    exact h.finish htask hsettled (if_neg hlate).symm
  · rw [heq]
    exact (h.finish htask hsettled (if_pos hcurrent).symm).congr rfl rfl rfl
  · rw [heq]
    exact (h.finish htask hsettled (if_pos hcurrent).symm).congr rfl rfl rfl

theorem paced_start (key : Key) (initial : ListPage Value) : (start key initial).Paced :=
  ⟨fun _ _ h => (nomatch h), fun _ => ⟨fun h => (nomatch h), fun ⟨_, h, _⟩ => (nomatch h)⟩⟩

/-! ## The list that is shown -/

variable {listOf : Key → List (String × Value)}

/-- The page and the tasks of a hook whose loads are answered with the pages of lists that stay the same. -/
structure Faithful (listOf : Key → List (String × Value)) (s : Hook Key Value) : Prop where
  page : s.page = ⟨[], 0⟩ ∨ Shows (listOf s.key) s.page
  tasks : ∀ (i : Nat) (task : Task Key Value), s.tasks[i]? = some task →
    task.spec.Sound (listOf task.query) ∧ Answered (listOf task.query) task.spec.read task.answers
  current : ∀ (i : Nat) (task : Task Key Value), s.tasks[i]? = some task → task.generation = s.generation →
    task.query = s.key
  retry : ∀ key spec browsing, s.retry = some (key, spec, browsing) → spec.Sound (listOf key)

theorem Faithful.invalidate (h : s.Faithful listOf) (hpaced : s.Paced) : s.invalidate.Faithful listOf := by
  refine ⟨h.page, h.tasks, fun i task htask hgeneration => ?_, h.retry⟩
  have hpast := hpaced.past i task htask
  have hturned : task.generation = s.generation + 1 := hgeneration
  omega

theorem Faithful.execute [DecidableEq Key] (h : s.Faithful listOf) {spec : Spec Value}
    (hsound : key = s.key → spec.Sound (listOf key)) (browsing : Bool) :
    (s.execute key spec browsing).Faithful listOf := by
  unfold Hook.execute
  split_ifs with hkey hpending
  · exact h
  · exact h
  · rw [not_not] at hkey
    refine ⟨h.page, fun i task htask => ?_, fun i task htask hgeneration => ?_, ?_⟩
    · obtain htask | ⟨-, rfl⟩ := getElem?_snoc_iff.1 htask
      · exact h.tasks i task htask
      · refine ⟨hsound hkey, fun older a newer heq => ?_⟩
        exact absurd (congrArg List.length heq) (by simp)
    · obtain htask | ⟨-, rfl⟩ := getElem?_snoc_iff.1 htask
      · exact h.current i task htask hgeneration
      · exact hkey
    · intro key' spec' browsing' heq
      obtain ⟨rfl, rfl, -⟩ := Option.some.inj heq
      exact hsound hkey

/-- A turn to another query leaves nothing of the page. -/
theorem Faithful.turn (h : s.Faithful listOf) (hpaced : s.Paced) (hpage : s.key = key ∨ s.page = ⟨[], 0⟩) :
    Faithful listOf { s.invalidate with key } := by
  refine ⟨?_, h.tasks, fun i task htask hgeneration => ?_, h.retry⟩
  · obtain rfl | hempty := hpage
    · exact h.page
    · exact .inl hempty
  · have hpast := hpaced.past i task htask
    have hturned : task.generation = s.generation + 1 := hgeneration
    omega

theorem Faithful.answer (h : s.Faithful listOf) {i : Nat} {a : Option (ListPage Value)}
    (hhonest : s.Honest listOf (.answer i a)) : (s.answer i a).Faithful listOf := by
  refine ⟨h.page, fun j task htask => ?_, fun j task htask hgeneration => ?_, h.retry⟩
  · obtain ⟨task', hin, rfl⟩ := getElem?_modify_iff.1 htask
    obtain ⟨hsound, hanswered⟩ := h.tasks j task' hin
    split_ifs with hij
    · refine ⟨hsound, hanswered.snoc ?_⟩
      rintro page rfl request hread
      exact hhonest task' (by rw [hij]; exact hin) request hread
    · exact ⟨hsound, hanswered⟩
  · obtain ⟨task', hin, rfl⟩ := getElem?_modify_iff.1 htask
    have hcurrent := h.current j task' hin
    split_ifs at hgeneration ⊢
    · exact hcurrent hgeneration
    · exact hcurrent hgeneration

/-- A task is over, and may have had its page shown. -/
theorem Faithful.finish (h : s.Faithful listOf) {i : Nat} {page : ListPage Value}
    (hpage : page = s.page ∨ Shows (listOf s.key) page) (browsed : Nat) (pending : Option Nat) (error : Bool) :
    Faithful listOf { s with
      tasks := s.tasks.modify i fun task => { task with settled := true }
      page, browsed, pending, error } := by
  refine ⟨?_, fun j task htask => ?_, fun j task htask hgeneration => ?_, h.retry⟩
  · obtain rfl | hshows := hpage
    · exact h.page
    · exact .inr hshows
  · obtain ⟨task', hin, rfl⟩ := getElem?_modify_iff.1 htask
    have hok := h.tasks j task' hin
    split_ifs
    · exact hok
    · exact hok
  · obtain ⟨task', hin, rfl⟩ := getElem?_modify_iff.1 htask
    have hcurrent := h.current j task' hin
    split_ifs at hgeneration ⊢
    · exact hcurrent hgeneration
    · exact hcurrent hgeneration

theorem Faithful.settle (h : s.Faithful listOf) (hnodup : ∀ key, ((listOf key).map Prod.fst).Nodup) (i : Nat) :
    (s.settle i).Faithful listOf := by
  obtain heq | ⟨task, htask, -, ⟨-, heq⟩ | ⟨hcurrent, ⟨page, hread, heq⟩ | heq⟩⟩ := settle_cases s i
  · rw [heq]
    exact h
  · rw [heq]
    exact h.finish (.inl rfl) _ _ _
  · rw [heq]
    obtain ⟨hsound, hanswered⟩ := h.tasks i task htask
    have hshows := shows_of_read (hnodup task.query) hsound hanswered hread
    rw [h.current i task htask hcurrent] at hshows
    exact h.finish (.inr hshows) _ _ _
  · rw [heq]
    exact h.finish (.inl rfl) _ _ _

/-! ## Runs -/

section Runs

variable [DecidableEq Key]

theorem Paced.step (h : s.Paced) (e : Event Key Value) : (s.step e).Paced := by
  cases e with
  | rerender key =>
    have hcleared : Paced (if s.invalidate.key = key then s.invalidate else
        { s.invalidate with page := ⟨[], 0⟩, browsed := 0 }) := by
      split_ifs
      · exact h.invalidate
      · exact h.invalidate.congr rfl rfl rfl
    refine Paced.execute ?_ _ _
    exact hcleared.invalidate.congr rfl rfl rfl
  | reload => exact h.invalidate.execute _ _
  | loadMore key error =>
    show (s.loadMore key error).Paced
    unfold loadMore
    split
    · exact h.execute _ _
    · split_ifs
      · exact h
      · exact h.execute _ _
  | loadAll key => exact h.execute _ _
  | restore key count =>
    show (s.restore key count).Paced
    unfold restore
    split_ifs
    · exact h.congr rfl rfl rfl
    · exact h.execute _ _
  | browse id =>
    show (s.browse id).Paced
    unfold browse
    split
    · exact h
    · split_ifs
      · exact h
      · exact h.congr rfl rfl rfl
  | answer i a => exact h.answer i a
  | settle i => exact h.settle i

/-- At most one task runs whose page may be shown, and it is the one whose load is shown as pending. -/
theorem run_paced (key : Key) (initial : ListPage Value) (events : List (Event Key Value)) :
    (events.foldl Hook.step (start key initial)).Paced :=
  run_keeps (fun _ e h => h.step e) events (paced_start key initial)

theorem Faithful.step (h : s.Faithful listOf) (hpaced : s.Paced)
    (hnodup : ∀ key, ((listOf key).map Prod.fst).Nodup) {e : Event Key Value} (hhonest : s.Honest listOf e) :
    (s.step e).Faithful listOf := by
  cases e with
  | rerender key =>
    refine Faithful.execute ?_ (fun _ => sound_firstItems _ _) _
    have hturned := h.invalidate hpaced
    have hstill := hpaced.invalidate
    by_cases hkey : s.invalidate.key = key
    · simp only [if_pos hkey]
      exact hturned.turn hstill (.inl hkey)
    · simp only [if_neg hkey]
      have hcleared : Faithful listOf { s.invalidate with page := ⟨[], 0⟩, browsed := 0 } :=
        ⟨.inl rfl, hturned.tasks, hturned.current, hturned.retry⟩
      exact hcleared.turn (hstill.congr rfl rfl rfl) (.inr rfl)
  | reload => exact (h.invalidate hpaced).execute (fun _ => sound_firstItems _ _) _
  | loadMore key error =>
    show (s.loadMore key error).Faithful listOf
    unfold loadMore
    split
    · rename_i spec browsing hretry
      exact h.execute (fun _ => h.retry _ _ _ hretry) _
    · split_ifs with hwhole
      · exact h
      · refine h.execute (fun hkey => ?_) _
        obtain hempty | hshows := h.page
        · rw [hempty] at hwhole
          exact absurd (Nat.le_refl 0) hwhole
        · rw [← hkey] at hshows
          rw [hshows.total_eq] at hwhole
          exact ⟨hshows, by omega⟩
  | loadAll key => exact h.execute (fun _ => sound_all _) _
  | restore key count =>
    show (s.restore key count).Faithful listOf
    unfold restore
    split_ifs
    · exact ⟨h.page, h.tasks, h.current, h.retry⟩
    · exact h.execute (fun _ => sound_firstItems _ _) _
  | browse id =>
    show (s.browse id).Faithful listOf
    unfold browse
    split
    · exact h
    · split_ifs
      · exact h
      · exact ⟨h.page, h.tasks, h.current, h.retry⟩
  | answer i a => exact h.answer hhonest
  | settle i => exact h.settle hnodup i

/-- The page is the beginning of the list of the current query, whatever answers come late. -/
theorem run_shows (hnodup : ∀ key, ((listOf key).map Prod.fst).Nodup) {initial : ListPage Value}
    (hinitial : Shows (listOf key) initial) {events : List (Event Key Value)}
    (h : RunMeets Hook.step (Honest listOf) (start key initial) events) :
    let s := events.foldl Hook.step (start key initial)
    s.page = ⟨[], 0⟩ ∨ Shows (listOf s.key) s.page := by
  have hstart : (start key initial).Faithful listOf :=
    ⟨.inr hinitial, fun _ _ h => (nomatch h), fun _ _ h => (nomatch h), fun _ _ _ h => (nomatch h)⟩
  have hkept := h.keeps (I := fun s => s.Paced ∧ s.Faithful listOf)
    (fun s e hhonest hs => ⟨hs.1.step e, hs.2.step hs.1 hnodup hhonest⟩) ⟨paced_start key initial, hstart⟩
  exact hkept.2.page

end Runs

/-- The files of one folder are answered when another one is shown already. -/
theorem run_shows_late :
    let listOf : Bool → List (String × Nat) := fun pictures => if pictures then [("a", 1), ("b", 2)] else [("c", 3)]
    let s := List.foldl Hook.step (start true ⟨[("a", 1)], 2⟩) [.loadMore true false, .rerender false,
      .answer 0 (some ⟨[("b", 2)], 2⟩), .answer 1 (some ⟨[("c", 3)], 1⟩), .settle 1, .settle 0]
    s.page = ⟨[], 0⟩ ∨ Shows (listOf s.key) s.page := by
  intro listOf
  have hnodup : ∀ key, ((listOf key).map Prod.fst).Nodup := by decide
  have hinitial : Shows (listOf true) ⟨[("a", 1)], 2⟩ := rfl
  refine run_shows hnodup hinitial ⟨trivial, trivial, ?_, ?_, trivial, trivial, trivial⟩
  · intro task htask request hread
    obtain rfl := Option.some.inj htask
    obtain rfl := Reading.asks.inj hread
    rfl
  · intro task htask request hread
    obtain rfl := Option.some.inj htask
    obtain rfl := Reading.asks.inj hread
    rfl

end Hook

end Staaash.Lists
