import Staaash.Feed.ChangeLog

/-!
# Following the change log

A client that follows the returned cursors misses nothing as long as every prune deletes from the
start of the log: the rows that are left are then a final part of the history, and a cursor that
passes the check of `readStorageChanges` lies within that part. A prune that leaves an older row
behind breaks this, and the check cannot tell.
-/

namespace Staaash.Feed

variable {α : Type} {ownerUserId : String}

abbrev Increasing (rows : List (Entry α)) : Prop := rows.Pairwise fun a b => a.seq < b.seq

/-! ## Increasing lists -/

theorem changesBetween_append (history later : List (Entry α)) (start stop : Nat) :
    changesBetween ownerUserId (history ++ later) start stop =
      changesBetween ownerUserId history start stop ++
        changesBetween ownerUserId later start stop := by
  unfold changesBetween
  rw [List.filter_append]

theorem changesBetween_eq_nil_of_le {rows : List (Entry α)} {start stop : Nat}
    (h : ∀ row ∈ rows, row.seq ≤ start) : changesBetween ownerUserId rows start stop = [] := by
  unfold changesBetween
  rw [List.filter_eq_nil_iff]
  intro row hrow
  have := h row hrow
  simp only [Bool.and_eq_true, decide_eq_true_eq, not_and]
  omega

theorem changesBetween_eq_nil_of_lt {rows : List (Entry α)} {start stop : Nat}
    (h : ∀ row ∈ rows, stop < row.seq) : changesBetween ownerUserId rows start stop = [] := by
  unfold changesBetween
  rw [List.filter_eq_nil_iff]
  intro row hrow
  have := h row hrow
  simp only [Bool.and_eq_true, decide_eq_true_eq, not_and]
  omega

/-- What lies between two cursors can be read in two pieces. -/
theorem changesBetween_trans {history : List (Entry α)} (sorted : Increasing history)
    {start mid stop : Nat} (hstart : start ≤ mid) (hstop : mid ≤ stop) :
    changesBetween ownerUserId history start mid ++ changesBetween ownerUserId history mid stop =
      changesBetween ownerUserId history start stop := by
  induction history with
  | nil => rfl
  | cons row rows ih =>
    obtain ⟨hrow, sorted'⟩ := List.pairwise_cons.1 sorted
    by_cases hmid : row.seq ≤ mid
    · have hnot : ¬ mid < row.seq := by omega
      have hle : row.seq ≤ stop := by omega
      have := ih sorted'
      simp only [changesBetween, List.filter_cons, hmid, hnot, hle, decide_true, decide_false,
        Bool.and_true, Bool.and_false, Bool.false_eq_true, if_false] at this ⊢
      split
      · rw [List.cons_append, this]
      · exact this
    · -- from here on the list lies after `mid`
      have hafter : ∀ r ∈ row :: rows, mid < r.seq := by
        intro r hr
        rcases List.mem_cons.1 hr with rfl | hr
        · omega
        · have := hrow r hr
          omega
      rw [changesBetween_eq_nil_of_lt hafter, List.nil_append]
      unfold changesBetween
      apply List.filter_congr
      intro r hr
      have h1 := hafter r hr
      have h2 : start < r.seq := by omega
      simp [h1, h2]

/-- The rows up to the last one of an initial part are that part. -/
theorem filter_le_last {rows : List (Entry α)} (sorted : Increasing rows) {n : Nat}
    {last : Entry α} (h : (rows.take n).getLast? = some last) :
    rows.filter (fun row => decide (row.seq ≤ last.seq)) = rows.take n := by
  obtain ⟨front, hfront⟩ := List.getLast?_eq_some_iff.1 h
  have hsplit : rows = front ++ [last] ++ rows.drop n := by
    rw [← hfront, List.take_append_drop]
  have hsorted : (front ++ [last] ++ rows.drop n).Pairwise fun a b => a.seq < b.seq :=
    hsplit ▸ sorted
  rw [List.pairwise_append, List.pairwise_append] at hsorted
  obtain ⟨⟨-, -, hle⟩, -, hlt⟩ := hsorted
  rw [hfront]
  conv_lhs => rw [hsplit]
  rw [List.filter_append]
  have htail : (rows.drop n).filter (fun row => decide (row.seq ≤ last.seq)) = [] := by
    rw [List.filter_eq_nil_iff]
    intro row hrow
    have := hlt last (by simp) row hrow
    simp only [decide_eq_true_eq]
    omega
  rw [htail, List.append_nil, List.filter_eq_self]
  intro row hrow
  rcases List.mem_append.1 hrow with hrow | hrow
  · have := hle row hrow last (by simp)
    exact decide_eq_true (by omega)
  · rw [List.mem_singleton.1 hrow]
    exact decide_eq_true (Nat.le_refl _)

/-! ## The ends of the log -/

theorem seq_le_head (log : ChangeLog α) {row : Entry α} (h : row ∈ log.rows) :
    row.seq ≤ currentStorageChangeCursor log := by
  unfold currentStorageChangeCursor ChangeLog.newest
  rcases List.eq_nil_or_concat log.rows with hnil | ⟨front, last, hrows⟩
  · rw [hnil] at h
    exact absurd h (by simp)
  · have hsorted := log.sorted
    rw [hrows, List.concat_eq_append] at h hsorted ⊢
    rw [List.getLast?_append, List.getLast?_singleton]
    show row.seq ≤ last.seq
    rcases List.mem_append.1 h with h | h
    · exact Nat.le_of_lt ((List.pairwise_append.1 hsorted).2.2 row h last (by simp))
    · exact Nat.le_of_eq (congrArg _ (List.mem_singleton.1 h))

theorem exists_newest {log : ChangeLog α} {newest : Nat} (h : log.newest = some newest) :
    ∃ row ∈ log.rows, row.seq = newest := by
  obtain ⟨row, hrow, heq⟩ := Option.map_eq_some_iff.1 h
  exact ⟨row, List.mem_of_getLast? hrow, heq⟩

theorem head_le_lastSeq (log : ChangeLog α) : currentStorageChangeCursor log ≤ log.lastSeq := by
  unfold currentStorageChangeCursor
  cases h : log.newest with
  | none => exact Nat.zero_le _
  | some newest =>
    obtain ⟨row, hrow, rfl⟩ := exists_newest h
    exact log.bounded row hrow

/-! ## The invariant -/

/-- The rows are a final part of the history, and not empty unless it is. -/
structure Kept (s : System α) : Prop where
  sorted : Increasing s.history
  bounded : ∀ row ∈ s.history, row.seq ≤ s.log.lastSeq
  final : s.log.rows <:+ s.history
  marked : s.log.rows = [] → s.history = []
  pruning : ∀ newest ∈ s.pruning, ∃ row ∈ s.log.rows, newest ≤ row.seq

/-- What the client has received, and where its cursor is. -/
structure Followed (ownerUserId : String) (s : System α) (c : Client α) : Prop where
  received : c.received = changesBetween ownerUserId s.history c.start c.cursor
  forward : c.start ≤ c.cursor
  bounded : c.cursor ≤ s.log.lastSeq

/-- A cursor that passes the check has every row that was pruned behind it. -/
theorem pruned_behind {s : System α} (hs : Kept s) {after : Nat} (h : outside s.log after = false)
    {gone : List (Entry α)} (hgone : gone ++ s.log.rows = s.history) :
    ∀ row ∈ gone, row.seq ≤ after := by
  intro row hrow
  cases hrows : s.log.rows with
  | nil =>
    have := hs.marked hrows
    rw [← hgone, List.append_eq_nil_iff] at this
    rw [this.1] at hrow
    exact absurd hrow (by simp)
  | cons first rest =>
    have hsorted : Increasing (gone ++ s.log.rows) := hgone ▸ hs.sorted
    have hlt := (List.pairwise_append.1 hsorted).2.2 row hrow first (by rw [hrows]; simp)
    simp only [outside, ChangeLog.oldest, hrows, List.head?_cons, Option.map_some,
      Bool.or_eq_false_iff, decide_eq_false_iff_not] at h
    omega

/-- The rows a read selects are the owner's changes after the cursor. -/
theorem selected_eq (ownerUserId : String) {s : System α} (hs : Kept s) {after : Nat}
    (h : outside s.log after = false) (stop : Nat) :
    (s.log.rows.filter fun row =>
        row.ownerUserId = ownerUserId && decide (after < row.seq) &&
          decide (row.seq ≤ currentStorageChangeCursor s.log)).filter
        (fun row => decide (row.seq ≤ stop)) =
      changesBetween ownerUserId s.history after stop := by
  obtain ⟨gone, hgone⟩ := hs.final
  rw [← hgone, changesBetween_append, changesBetween_eq_nil_of_le (pruned_behind hs h hgone),
    List.nil_append, List.filter_filter]
  apply List.filter_congr
  intro row hrow
  have := seq_le_head s.log hrow
  simp only [this, decide_true, Bool.and_true]
  exact Bool.and_comm _ _

/-- What a transaction writes is what it drafted. -/
theorem exists_of_mem_number {seq : Nat} {ds : List (Draft α)} {row : Entry α}
    (h : row ∈ number seq ds) : ∃ d ∈ ds, row.change = d.change := by
  induction ds generalizing seq with
  | nil => cases h
  | cons d ds ih =>
    rcases List.mem_cons.1 h with rfl | h
    · exact ⟨d, List.mem_cons_self, rfl⟩
    · obtain ⟨d', hmem, hchange⟩ := ih h
      exact ⟨d', List.mem_cons_of_mem _ hmem, hchange⟩

theorem mem_of_read {log : ChangeLog α} {after limit : Nat} {page : Page α} {row : Entry α}
    (h : readStorageChanges log ownerUserId after limit = .ok page) (hrow : row ∈ page.changes) :
    row ∈ log.rows := by
  have hpage : page.changes = (((log.rows.filter fun row =>
      row.ownerUserId = ownerUserId && decide (after < row.seq) &&
        decide (row.seq ≤ currentStorageChangeCursor log)).take (limit + 1)).take limit) := by
    unfold readStorageChanges at h
    simp only at h
    split at h
    · cases h
    split at h
    · split at h
      · rw [← Except.ok.inj h]
      · cases h
    · rw [← Except.ok.inj h]
  rw [hpage] at hrow
  exact (List.mem_filter.1 (List.mem_of_mem_take (List.mem_of_mem_take hrow))).1

/-- What a read that returns a page has found. -/
theorem read_spec {s : System α} (hs : Kept s) {after limit : Nat} {page : Page α}
    (h : readStorageChanges s.log ownerUserId after limit = .ok page) :
    page.changes = changesBetween ownerUserId s.history after page.cursor ∧
      after ≤ page.cursor ∧ (after ≤ s.log.lastSeq → page.cursor ≤ s.log.lastSeq) ∧
      (page.hasMore = true → after < page.cursor) ∧
      (page.hasMore = false → ∀ row ∈ s.history, row.seq ≤ page.cursor) := by
  unfold readStorageChanges at h
  simp only at h
  split at h
  · cases h
  rename_i hinside
  rw [Bool.not_eq_true] at hinside
  generalize hsel : (s.log.rows.filter fun row =>
    row.ownerUserId = ownerUserId && decide (after < row.seq) &&
      decide (row.seq ≤ currentStorageChangeCursor s.log)) = selected at h
  have hsorted : Increasing selected := hsel ▸ s.log.sorted.filter _
  have hbetween := fun stop => hsel ▸ selected_eq ownerUserId hs hinside stop
  rw [List.take_take, Nat.min_eq_left (Nat.le_succ limit)] at h
  have hhead := head_le_lastSeq s.log
  have hmem : ∀ row ∈ selected, after < row.seq ∧ row.seq ≤ s.log.lastSeq := by
    intro row hrow
    rw [← hsel, List.mem_filter] at hrow
    refine ⟨?_, s.log.bounded row hrow.1⟩
    have := hrow.2
    simp only [Bool.and_eq_true, decide_eq_true_eq] at this
    exact this.1.2
  split at h
  · -- a page is full: its last row is the cursor
    split at h
    · rename_i last hlast
      cases h
      have hin := hmem last (List.mem_of_mem_take (List.mem_of_getLast? hlast))
      refine ⟨?_, Nat.le_of_lt hin.1, fun _ => hin.2, fun _ => hin.1, by simp⟩
      show selected.take limit = _
      rw [← filter_le_last hsorted hlast]
      exact hbetween last.seq
    · cases h
  · rename_i hshort
    cases h
    simp only
    have hcursor : currentStorageChangeCursor s.log ≤
        (if currentStorageChangeCursor s.log > after then currentStorageChangeCursor s.log
          else after) := by
      split <;> omega
    have hall : selected.take limit = selected := by
      rw [List.length_take] at hshort
      exact List.take_of_length_le (by omega)
    refine ⟨?_, by split <;> omega, fun hle => by split <;> omega, by simp, fun _ row hrow => ?_⟩
    · rw [hall, ← hbetween, List.filter_eq_self.2]
      intro row hrow
      have hle := seq_le_head s.log (List.mem_of_mem_filter (hsel ▸ hrow))
      exact decide_eq_true (by omega)
    · obtain ⟨gone, hgone⟩ := hs.final
      rw [← hgone, List.mem_append] at hrow
      rcases hrow with hrow | hrow
      · have := pruned_behind hs hinside hgone row hrow
        split <;> omega
      · have := seq_le_head s.log hrow
        omega

/-! ## Steps keep the invariant -/

theorem Kept.append {s : System α} (hs : Kept s) (skipped : Nat) (ds : List (Draft α)) :
    Kept (s.step ownerUserId (.append skipped ds)) := by
  have habove := number_above (s.log.lastSeq + skipped) ds
  refine ⟨?_, ?_, ?_, ?_, ?_⟩
  · refine List.pairwise_append.2 ⟨hs.sorted, number_sorted _ ds, ?_⟩
    intro a ha b hb
    have hle := hs.bounded a ha
    have hlt := (habove b hb).1
    omega
  · intro row hrow
    show row.seq ≤ s.log.lastSeq + skipped + ds.length
    rcases List.mem_append.1 hrow with hrow | hrow
    · have := hs.bounded row hrow
      omega
    · exact (habove row hrow).2
  · obtain ⟨gone, hgone⟩ := hs.final
    refine ⟨gone, ?_⟩
    show gone ++ (s.log.rows ++ _) = s.history ++ _
    rw [← List.append_assoc, hgone]
  · intro hnil
    obtain ⟨hrows, hnew⟩ := List.append_eq_nil_iff.1 hnil
    exact List.append_eq_nil_iff.2 ⟨hs.marked hrows, hnew⟩
  · intro newest hnewest
    obtain ⟨row, hrow, hle⟩ := hs.pruning newest hnewest
    exact ⟨row, List.mem_append_left _ hrow, hle⟩

/-- A prune keeps a row it does not select, and with it every later one. -/
theorem dropWhile_prunable {log : ChangeLog α} {newest : Nat} {now : Int}
    (h : PrunesFromTheStart log newest now) :
    log.rows.filter (fun row => !prunable newest now row) =
      log.rows.dropWhile (prunable newest now) := by
  have hrows : ∀ rows : List (Entry α), Increasing rows → rows ⊆ log.rows →
      rows.filter (fun row => !prunable newest now row) = rows.dropWhile (prunable newest now) := by
    intro rows
    induction rows with
    | nil => intros; rfl
    | cons row rows ih =>
      intro sorted hsub
      obtain ⟨hlt, sorted'⟩ := List.pairwise_cons.1 sorted
      cases hp : prunable newest now row with
      | true =>
        rw [List.filter_cons_of_neg (by simp [hp]), List.dropWhile_cons_of_pos hp]
        exact ih sorted' fun r hr => hsub (List.mem_cons_of_mem _ hr)
      | false =>
        rw [List.dropWhile_cons_of_neg (by simp [hp]), List.filter_eq_self]
        intro r hr
        rcases List.mem_cons.1 hr with rfl | hr
        · simp [hp]
        · by_contra hr'
          rw [Bool.not_eq_true, Bool.not_eq_false'] at hr'
          have := h r (hsub (List.mem_cons_of_mem _ hr)) hr' row (hsub (by simp)) (hlt r hr)
          rw [hp] at this
          cases this
  exact hrows log.rows log.sorted (List.Subset.refl _)

theorem Kept.pruneDelete {s : System α} (hs : Kept s) {newest : Nat} {now : Int}
    (hmem : newest ∈ s.pruning) (hstart : PrunesFromTheStart s.log newest now) :
    Kept (s.step ownerUserId (.pruneDelete newest now)) := by
  -- a row that some prune has read as the newest, or a later one, is not selected
  have hkeeps : ∀ n ∈ s.pruning, ∃ row ∈ (s.log.deleteMany newest now).rows, n ≤ row.seq := by
    intro n hn
    obtain ⟨row, hrow, hle⟩ := hs.pruning n hn
    obtain ⟨other, hother, hge⟩ := hs.pruning newest hmem
    rcases Nat.lt_or_ge row.seq newest with hlt | hge'
    · refine ⟨other, List.mem_filter.2 ⟨hother, ?_⟩, by omega⟩
      have : ¬ other.seq < newest := by omega
      simp [prunable, this]
    · refine ⟨row, List.mem_filter.2 ⟨hrow, ?_⟩, hle⟩
      have : ¬ row.seq < newest := by omega
      simp [prunable, this]
  simp only [System.step, hmem, if_true]
  refine ⟨hs.sorted, hs.bounded, ?_, ?_, ?_⟩
  · show s.log.rows.filter _ <:+ s.history
    rw [dropWhile_prunable hstart]
    exact (List.dropWhile_suffix _).trans hs.final
  · intro hnil
    obtain ⟨row, hrow, -⟩ := hkeeps newest hmem
    simp only at hnil
    rw [hnil] at hrow
    exact absurd hrow (by simp)
  · intro n hn
    exact hkeeps n (List.mem_of_mem_erase hn)

theorem Kept.step {s : System α} (hs : Kept s) (e : Event α) (h : KeepsTheEnd s e) :
    Kept (s.step ownerUserId e) := by
  cases e with
  | append skipped ds => exact hs.append skipped ds
  | pruneRead =>
    simp only [System.step]
    split
    · exact hs
    · rename_i newest hnewest
      refine ⟨hs.sorted, hs.bounded, hs.final, hs.marked, ?_⟩
      intro n hn
      rcases List.mem_cons.1 hn with rfl | hn
      · obtain ⟨row, hrow, heq⟩ := exists_newest hnewest
        exact ⟨row, hrow, Nat.le_of_eq heq.symm⟩
      · exact hs.pruning n hn
  | pruneDelete newest now =>
    by_cases hmem : newest ∈ s.pruning
    · exact hs.pruneDelete hmem (h hmem)
    · simpa only [System.step, hmem, if_false] using hs
  | start after =>
    simp only [System.step]
    split
    · exact hs
    · exact ⟨hs.sorted, hs.bounded, hs.final, hs.marked, hs.pruning⟩
  | read limit =>
    simp only [System.step]
    split
    · exact hs
    · split
      · exact hs
      · exact ⟨hs.sorted, hs.bounded, hs.final, hs.marked, hs.pruning⟩

theorem Followed.page {s : System α} (hs : Kept s) {c : Client α} (hc : Followed ownerUserId s c)
    {limit : Nat} {page : Page α}
    (h : readStorageChanges s.log ownerUserId c.cursor limit = .ok page) :
    c.received ++ page.changes = changesBetween ownerUserId s.history c.start page.cursor := by
  obtain ⟨hchanges, hle, -⟩ := read_spec hs h
  rw [hc.received, hchanges]
  exact changesBetween_trans hs.sorted hc.forward hle

theorem Followed.read {s : System α} (hs : Kept s) {c : Client α} (hc : Followed ownerUserId s c)
    (limit : Nat) :
    Followed ownerUserId s (c.receive (readStorageChanges s.log ownerUserId c.cursor limit)) := by
  cases h : readStorageChanges s.log ownerUserId c.cursor limit with
  | ok page =>
    obtain ⟨-, hle, hbound, -⟩ := read_spec hs h
    refine ⟨hc.page hs h, ?_, hbound hc.bounded⟩
    exact Nat.le_trans hc.forward hle
  | error e =>
    cases e with
    | expired => exact ⟨hc.received, hc.forward, hc.bounded⟩
    | noLastRow => exact hc

theorem Followed.step {s : System α} (hs : Kept s)
    (hc : ∀ c, s.client = some c → Followed ownerUserId s c) (e : Event α) :
    ∀ c, (s.step ownerUserId e).client = some c → Followed ownerUserId (s.step ownerUserId e) c := by
  intro c hsome
  cases e with
  | append skipped ds =>
    have h := hc c hsome
    refine ⟨?_, h.forward, ?_⟩
    · -- the new rows come after the cursor
      show c.received = changesBetween ownerUserId (s.history ++ _) c.start c.cursor
      rw [changesBetween_append, ← h.received, changesBetween_eq_nil_of_lt, List.append_nil]
      intro row hrow
      have habove := (number_above _ ds row hrow).1
      have hbound := h.bounded
      omega
    · have := h.bounded
      show c.cursor ≤ s.log.lastSeq + skipped + ds.length
      omega
  | pruneRead =>
    cases hnewest : s.log.newest with
    | none =>
      simp only [System.step, hnewest] at hsome ⊢
      exact hc c hsome
    | some newest =>
      simp only [System.step, hnewest] at hsome ⊢
      have h := hc c hsome
      exact ⟨h.received, h.forward, h.bounded⟩
  | pruneDelete newest now =>
    by_cases hmem : newest ∈ s.pruning
    · simp only [System.step, hmem, if_true] at hsome ⊢
      have h := hc c hsome
      exact ⟨h.received, h.forward, h.bounded⟩
    · simp only [System.step, hmem, if_false] at hsome ⊢
      exact hc c hsome
  | start after =>
    by_cases hout : outside s.log after = true
    · simp only [System.step, hout, if_true] at hsome ⊢
      exact hc c hsome
    · simp only [System.step, hout, if_false, Bool.false_eq_true] at hsome ⊢
      cases hsome
      refine ⟨?_, Nat.le_refl _, ?_⟩
      · rw [changesBetween, List.filter_eq_nil_iff.2]
        intro row _
        simp only [Bool.and_eq_true, decide_eq_true_eq, not_and]
        omega
      · have hhead := head_le_lastSeq s.log
        simp only [outside, Bool.or_eq_true, decide_eq_true_eq, not_or] at hout
        show after ≤ s.log.lastSeq
        omega
  | read limit =>
    cases hclient : s.client with
    | none =>
      simp only [System.step, hclient] at hsome
      cases hsome
    | some c' =>
      have h := hc c' hclient
      by_cases hexp : c'.expired = true
      · simp only [System.step, hclient, hexp, if_true] at hsome ⊢
        cases hsome
        exact h
      · simp only [System.step, hclient, hexp, if_false, Bool.false_eq_true] at hsome ⊢
        cases hsome
        have := h.read hs limit
        exact ⟨this.received, this.forward, this.bounded⟩

/-! ## Runs -/

theorem kept_init : Kept (System.init : System α) := by
  refine ⟨List.Pairwise.nil, ?_, List.suffix_rfl, fun _ => rfl, ?_⟩
  · intro row hrow
    cases hrow
  · intro n hn
    cases hn

theorem run_followed {s : System α} (hs : Kept s)
    (hc : ∀ c, s.client = some c → Followed ownerUserId s c) (events : List (Event α))
    (h : PrunedFromTheStart ownerUserId s events) :
    Kept (s.run ownerUserId events) ∧
      ∀ c, (s.run ownerUserId events).client = some c →
        Followed ownerUserId (s.run ownerUserId events) c := by
  induction events generalizing s with
  | nil => exact ⟨hs, hc⟩
  | cons e es ih => exact ih (hs.step e h.1) (Followed.step hs hc e) h.2

/-- In every run whose prunes all delete from the start of the log, a client that follows the
cursors skips nothing. -/
theorem run_neverSkips (events : List (Event α))
    (h : PrunedFromTheStart ownerUserId System.init events) :
    NeverSkips ownerUserId (System.init.run ownerUserId events) := by
  obtain ⟨hkept, hfollowed⟩ := run_followed kept_init (fun c hc => by cases hc) events h
  intro c hc
  have hf := hfollowed c hc
  refine ⟨hf.received, ?_⟩
  intro limit page hpage
  obtain ⟨-, -, -, hmore, hlast⟩ := read_spec hkept hpage
  exact ⟨hf.page hkept hpage, hmore, hlast⟩

/-- The two changes that are left after a prune, read one by one. -/
theorem run_neverSkips_pruned :
    NeverSkips "u" (System.init.run "u"
      [.append 0 [⟨"u", 0, 'a'⟩], .append 1 [⟨"u", 1, 'b'⟩, ⟨"v", 1, 'c'⟩], .start 3, .pruneRead,
        .append 0 [⟨"u", 8000000000, 'd'⟩], .pruneDelete 4 8000000000, .read 1]) :=
  run_neverSkips _ (by decide)

/-- A transaction that began early and commits late gives a late row an early time. The prune takes
it and leaves the row before it, which then vouches for a cursor that has not passed the gap. -/
theorem prune_skips_late_commit :
    ¬ ∀ events : List (Event Char), NeverSkips "u" (System.init.run "u" events) := by
  intro h
  obtain ⟨hreceived, -⟩ := h [.append 0 [⟨"u", 8000000000, 'a'⟩], .start 1,
    .append 0 [⟨"u", 0, 'b'⟩], .append 0 [⟨"u", 8000000000, 'c'⟩], .pruneRead,
    .pruneDelete 3 8000000000, .read 500] ⟨1, 3, [⟨3, "u", 8000000000, 'c'⟩], false⟩ rfl
  exact absurd hreceived (by decide)

end Staaash.Feed
