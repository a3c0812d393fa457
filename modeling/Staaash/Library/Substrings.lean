import Mathlib.Data.List.Infix

/-!
# Substrings

Searching, counting and splitting by a pattern. A marker is a pattern whose first symbol occurs only
there, so no two of its occurrences overlap, and what stands before a marker counts apart.
-/

namespace Staaash.Library.Substrings

variable {α : Type} [DecidableEq α]

/-- Where the pattern occurs first. -/
def indexOf (pattern : List α) : List α → Option Nat
  | [] => if pattern = [] then some 0 else none
  | x :: text => if pattern <+: x :: text then some 0 else (indexOf pattern text).map (· + 1)

/-- What comes between the occurrences of a separator that is not empty. `skip` symbols still belong to
the occurrence found last, and `piece` is what has been read since. -/
def splitFrom (separator : List α) : Nat → List α → List α → List (List α)
  | _, piece, [] => [piece]
  | skip + 1, piece, _ :: text => splitFrom separator skip piece text
  | 0, piece, x :: text =>
    if separator <+: x :: text then piece :: splitFrom separator (separator.length - 1) [] text
    else splitFrom separator 0 (piece ++ [x]) text

def split (separator text : List α) : List (List α) := splitFrom separator 0 [] text

/-- At how many positions the pattern stands. -/
def occurrences (pattern : List α) : List α → Nat
  | [] => 0
  | x :: text => (if pattern <+: x :: text then 1 else 0) + occurrences pattern text

def Marker (pattern : List α) : Prop := ∃ x rest, pattern = x :: rest ∧ x ∉ rest

variable {pattern text xs ys before after : List α} {x y : α}

/-! ## Infixes -/

omit [DecidableEq α] in
/-- A prefix that does not have the symbol after its first one ends before the symbol. -/
theorem prefix_append_cons (hy : y ∉ pattern.tail) (h : pattern <+: x :: (xs ++ y :: ys)) :
    pattern <+: x :: xs := by
  rw [← List.cons_append] at h
  refine List.prefix_of_prefix_length_le h (List.prefix_append _ _) ?_
  by_contra hlong
  obtain ⟨longer, rfl⟩ := List.prefix_of_prefix_length_le (List.prefix_append (x :: xs) (y :: ys)) h (by omega)
  cases longer with
  | nil => simp at hlong
  | cons z longer =>
    rw [List.prefix_append_right_inj, List.cons_prefix_cons] at h
    exact hy (by simp [h.1])

omit [DecidableEq α] in
/-- A pattern without the symbol stands before it or after it. -/
theorem infix_append_cons (hy : y ∉ pattern) :
    pattern <:+: xs ++ y :: ys ↔ pattern <:+: xs ∨ pattern <:+: ys := by
  constructor
  · intro h
    induction xs with
    | nil =>
      rcases List.infix_cons_iff.1 h with hstarts | hpart
      · cases pattern with
        | nil => exact .inl List.nil_infix
        | cons z rest => exact absurd (List.cons_prefix_cons.1 hstarts).1 fun hz => hy (by simp [hz])
      · exact .inr hpart
    | cons x xs ih =>
      rcases List.infix_cons_iff.1 h with hstarts | hpart
      · exact .inl (prefix_append_cons (fun hm => hy (List.mem_of_mem_tail hm)) hstarts).isInfix
      · exact (ih hpart).imp_left fun hxs => hxs.trans (List.suffix_cons _ _).isInfix
  · rintro (h | h)
    · exact h.trans (List.prefix_append _ _).isInfix
    · exact h.trans ((List.suffix_cons _ _).trans (List.suffix_append _ _)).isInfix

/-! ## Counting -/

theorem occurrences_eq_zero (hne : pattern ≠ []) : occurrences pattern text = 0 ↔ ¬ pattern <:+: text := by
  induction text with
  | nil => simp [occurrences, hne]
  | cons x text ih =>
    rw [List.infix_cons_iff, not_or, ← ih, occurrences]
    split
    · rename_i h
      simp [h]
    · rename_i h
      simp [h]

theorem occurrences_append_cons (hy : y ∉ pattern.tail) :
    occurrences pattern (xs ++ y :: ys) = occurrences pattern xs + occurrences pattern (y :: ys) := by
  induction xs with
  | nil => simp [occurrences]
  | cons x xs ih =>
    have hiff : pattern <+: x :: (xs ++ y :: ys) ↔ pattern <+: x :: xs :=
      ⟨prefix_append_cons hy, fun h => h.trans ⟨y :: ys, by simp⟩⟩
    simp only [List.cons_append, occurrences, hiff, ih]
    omega

/-- Where no symbol of a text starts the pattern, it does not count. -/
theorem occurrences_append_of_forall_ne {rest : List α} (h : ∀ z ∈ xs, z ≠ x) :
    occurrences (x :: rest) (xs ++ ys) = occurrences (x :: rest) ys := by
  induction xs with
  | nil => rfl
  | cons z xs ih =>
    have hz : ¬ x :: rest <+: z :: (xs ++ ys) := fun hp =>
      h z List.mem_cons_self (List.cons_prefix_cons.1 hp).1.symm
    rw [List.cons_append, occurrences, if_neg hz, ih fun w hw => h w (List.mem_cons_of_mem _ hw), Nat.zero_add]

namespace Marker

omit [DecidableEq α] in
theorem ne_nil (hm : Marker pattern) : pattern ≠ [] := by
  obtain ⟨x, rest, rfl, -⟩ := hm
  exact List.cons_ne_nil _ _

/-- What comes after a marker has nothing to do with what comes before. -/
theorem occurrences_append (hm : Marker pattern) : occurrences pattern (pattern ++ ys) =
    1 + occurrences pattern ys := by
  obtain ⟨x, rest, rfl, hx⟩ := hm
  have hrest : ∀ z ∈ rest, z ≠ x := fun z hz heq => hx (heq ▸ hz)
  have hstarts : x :: rest <+: x :: (rest ++ ys) := List.prefix_append (x :: rest) ys
  rw [List.cons_append, occurrences, if_pos hstarts, occurrences_append_of_forall_ne hrest]

theorem occurrences_around (hm : Marker pattern) : occurrences pattern (before ++ pattern ++ after) =
    occurrences pattern before + 1 + occurrences pattern after := by
  have ⟨x, rest, heq, hx⟩ := hm
  have hcut : occurrences pattern (before ++ (pattern ++ after)) =
      occurrences pattern before + occurrences pattern (pattern ++ after) := by
    rw [show pattern ++ after = x :: (rest ++ after) by rw [heq]; rfl]
    exact occurrences_append_cons (by rw [heq]; exact hx)
  rw [List.append_assoc, hcut, hm.occurrences_append]
  omega

/-- Another marker that begins with the same symbol keeps what is before it and after it apart. -/
theorem occurrences_around_other {other : List α} (hm : Marker pattern) (ho : Marker other)
    (hhead : other.head? = pattern.head?) (hother : ¬ pattern <+: other ++ after) :
    occurrences pattern (before ++ other ++ after) = occurrences pattern before + occurrences pattern after := by
  have ⟨x, rest, heq, hx⟩ := hm
  have ⟨y, orest, hoeq, hy⟩ := ho
  have hxy : y = x := by
    rw [heq, hoeq] at hhead
    exact Option.some.inj hhead
  subst hxy
  have hcut : occurrences pattern (before ++ y :: (orest ++ after)) =
      occurrences pattern before + occurrences pattern (y :: (orest ++ after)) :=
    occurrences_append_cons (by rw [heq]; exact hx)
  have hrest : ∀ z ∈ orest, z ≠ y := fun z hz hzy => hy (hzy ▸ hz)
  rw [hoeq] at hother ⊢
  have hnot : ¬ pattern <+: y :: (orest ++ after) := hother
  rw [List.append_assoc, List.cons_append, hcut, occurrences, if_neg hnot, Nat.zero_add, heq,
    occurrences_append_of_forall_ne hrest]

/-- Splitting a text finds the marker wherever it stands. -/
theorem length_split (hm : Marker pattern) : (split pattern text).length = occurrences pattern text + 1 := by
  obtain ⟨x, rest, rfl, hx⟩ := hm
  have hfrom : ∀ text skip piece, (splitFrom (x :: rest) skip piece text).length =
      occurrences (x :: rest) (text.drop skip) + 1 := by
    intro text
    induction text with
    | nil =>
      intro skip piece
      cases skip <;> simp [splitFrom, occurrences]
    | cons y text ih =>
      intro skip piece
      cases skip with
      | succ skip => exact ih skip piece
      | zero =>
        rw [splitFrom, List.drop_zero, occurrences]
        split
        · rename_i h
          obtain ⟨-, later, rfl⟩ := List.cons_prefix_cons.1 h
          have hskip : ∀ z ∈ rest, z ≠ x := fun z hz heq => hx (heq ▸ hz)
          rw [List.length_cons, ih, List.length_cons, Nat.add_sub_cancel, List.drop_left,
            occurrences_append_of_forall_ne hskip]
          omega
        · rw [ih, List.drop_zero, Nat.zero_add]
  exact hfrom text 0 []

end Marker

/-! ## Searching -/

theorem indexOf_eq_none : indexOf pattern text = none ↔ ¬ pattern <:+: text := by
  induction text with
  | nil => simp [indexOf]
  | cons x text ih =>
    rw [indexOf, List.infix_cons_iff]
    split
    · rename_i h
      simp [h]
    · rename_i h
      simp [h, ih]

theorem exists_of_indexOf {i : Nat} (h : indexOf pattern text = some i) :
    ∃ before after, text = before ++ pattern ++ after ∧ before.length = i := by
  induction text generalizing i with
  | nil =>
    rw [indexOf] at h
    split at h
    · rename_i hnil
      cases h
      exact ⟨[], [], by simp [hnil], rfl⟩
    · cases h
  | cons x text ih =>
    rw [indexOf] at h
    split at h
    · rename_i hstarts
      cases h
      obtain ⟨after, heq⟩ := hstarts
      exact ⟨[], after, heq.symm, rfl⟩
    · obtain ⟨j, hj, rfl⟩ := Option.map_eq_some_iff.1 h
      obtain ⟨before, after, rfl, rfl⟩ := ih hj
      exact ⟨x :: before, after, rfl, rfl⟩

theorem Marker.indexOf_around (hm : Marker pattern) (h : ¬ pattern <:+: before) :
    indexOf pattern (before ++ pattern ++ after) = some before.length := by
  have ⟨x, rest, heq, hx⟩ := hm
  induction before with
  | nil =>
    have hstarts : x :: rest <+: x :: (rest ++ after) := List.prefix_append (x :: rest) after
    rw [heq, List.nil_append, List.cons_append, indexOf, if_pos hstarts, List.length_nil]
  | cons y before ih =>
    rw [List.infix_cons_iff, not_or] at h
    have hnot : ¬ pattern <+: y :: (before ++ pattern ++ after) := fun hp => by
      rw [List.append_assoc, heq, List.cons_append] at hp
      exact h.1 (heq ▸ prefix_append_cons hx hp)
    rw [List.cons_append, List.cons_append, indexOf, if_neg hnot, ih h.2]
    rfl

/-- A text has one beginning before its first marker. -/
theorem Marker.append_inj (hm : Marker pattern) {before' after' : List α} (h : ¬ pattern <:+: before)
    (h' : ¬ pattern <:+: before') (heq : before ++ pattern ++ after = before' ++ pattern ++ after') :
    before = before' ∧ after = after' := by
  have hlength : before.length = before'.length := by
    have hindex : indexOf pattern (before ++ pattern ++ after) = some before.length := hm.indexOf_around h
    rw [heq, hm.indexOf_around h'] at hindex
    exact (Option.some.inj hindex).symm
  obtain ⟨hfront, hafter⟩ := List.append_inj heq (by simp [hlength])
  exact ⟨(List.append_inj hfront hlength).1, hafter⟩

end Staaash.Library.Substrings
