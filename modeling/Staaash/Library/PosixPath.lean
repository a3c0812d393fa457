import Mathlib.Data.List.Basic
import Mathlib.Data.List.Infix
import Mathlib.Data.List.TakeWhile

/-!
# POSIX paths

`path.posix.normalize` and `path.posix.join` of Node, on lists of characters: a path is cut at its slashes,
segments that are empty or `.` are left out and `..` takes the segment before it away. Where every segment
is a plain one, joining is only gluing.
-/

namespace Staaash.Library.PosixPath

abbrev Segment := List Char

def dot : Segment := ['.']

def dotDot : Segment := ['.', '.']

/-- A segment that names an entry of the directory before it. -/
def Plain (seg : Segment) : Prop := seg ≠ [] ∧ seg ≠ dot ∧ seg ≠ dotDot ∧ '/' ∉ seg

instance (seg : Segment) : Decidable (Plain seg) := inferInstanceAs (Decidable (_ ∧ _))

def segments (path : List Char) : List Segment := path.splitOn '/'

def render (segs : List Segment) : List Char := ['/'].intercalate segs

/-- One segment in `normalizeString`. The ones before it are listed from the last one. -/
def push (aboveRoot : Bool) (done : List Segment) (seg : Segment) : List Segment :=
  if seg = [] ∨ seg = dot then done
  else if seg = dotDot then
    match done with
    | [] => if aboveRoot then [dotDot] else []
    | last :: rest =>
      if last = dotDot then if aboveRoot then dotDot :: last :: rest else last :: rest else rest
  else seg :: done

def normalizeSegments (aboveRoot : Bool) (segs : List Segment) : List Segment :=
  (segs.foldl (push aboveRoot) []).reverse

def normalize (path : List Char) : List Char :=
  if path = [] then dot
  else
    let absolute : Bool := path.head? = some '/'
    let trailing : Bool := path.getLast? = some '/'
    let body := render (normalizeSegments (!absolute) (segments path))
    if body = [] then if absolute then ['/'] else if trailing then ['.', '/'] else dot
    else (if absolute then ['/'] else []) ++ body ++ if trailing then ['/'] else []

def join (parts : List (List Char)) : List Char :=
  let parts := parts.filter (· ≠ [])
  if parts = [] then dot else normalize (render parts)

/-- `path.posix.resolve` of one path, as its segments from the root. -/
def resolve (cwd : List Segment) (path : List Char) : List Segment :=
  normalizeSegments false ((if path.head? = some '/' then [] else cwd) ++ segments path)

/-- How many segments two paths begin with together. -/
def commonLength : List Segment → List Segment → Nat
  | a :: as, b :: bs => if a = b then commonLength as bs + 1 else 0
  | _, _ => 0

/-- `path.posix.relative`. -/
def relative (cwd : List Segment) (source target : List Char) : List Char :=
  let common := commonLength (resolve cwd source) (resolve cwd target)
  render (List.replicate ((resolve cwd source).length - common) dotDot ++
    (resolve cwd target).drop common)

/-- From the last dot of the last segment, unless the segment begins with it or is `..`. -/
def extname (path : List Char) : List Char :=
  let segment := (path.reverse.dropWhile (· = '/')).takeWhile (· ≠ '/')
  let before := segment.dropWhile (· ≠ '.')
  if before = [] ∨ before = ['.'] ∨ segment = dotDot then []
  else '.' :: (segment.takeWhile (· ≠ '.')).reverse

variable {above : Bool} {seg : Segment} {segs done : List Segment} {parts : List (List Char)}

/-! ## Segments -/

theorem segments_eq_self (h : '/' ∉ seg) : segments seg = [seg] := List.splitOn_eq_singleton h

theorem segments_render (h : ∀ seg ∈ segs, '/' ∉ seg) (hne : segs ≠ []) : segments (render segs) = segs :=
  List.splitOn_intercalate '/' h hne

theorem segments_injective : Function.Injective segments := by
  intro path path' h
  have hrender : ∀ path, render (segments path) = path := fun path =>
    List.intercalate_splitOn '/'
  rw [← hrender path, ← hrender path', h]

theorem flatMap_segments (h : ∀ part ∈ parts, '/' ∉ part) : parts.flatMap segments = parts := by
  induction parts with
  | nil => rfl
  | cons part parts ih =>
    rw [List.flatMap_cons, segments_eq_self (h part List.mem_cons_self),
      ih fun part hmem => h part (List.mem_cons_of_mem _ hmem)]
    rfl

/-- The segments of what is glued are those of its parts. -/
theorem segments_render_parts (hne : parts ≠ []) :
    segments (render parts) = parts.flatMap segments := by
  induction parts with
  | nil => exact absurd rfl hne
  | cons part parts ih =>
    cases parts with
    | nil =>
      rw [List.flatMap_singleton]
      unfold render
      rw [List.intercalate_singleton]
    | cons next rest =>
      have hcut : render (part :: next :: rest) = part ++ '/' :: render (next :: rest) := by
        unfold render
        rw [List.intercalate_cons_cons]
        simp
      rw [hcut, List.flatMap_cons, ← ih (List.cons_ne_nil _ _)]
      exact List.splitOn_append_cons_self part (render (next :: rest))

/-! ## Normalizing -/

theorem push_plain (h : Plain seg) : push above done seg = seg :: done := by
  obtain ⟨hnil, hdot, hdotDot, -⟩ := h
  unfold push
  rw [if_neg (by simp [hnil, hdot]), if_neg hdotDot]

theorem foldl_push_plain (h : ∀ seg ∈ segs, Plain seg) :
    segs.foldl (push above) done = segs.reverse ++ done := by
  induction segs generalizing done with
  | nil => rfl
  | cons seg segs ih =>
    rw [List.foldl_cons, push_plain (h seg List.mem_cons_self),
      ih fun seg hmem => h seg (List.mem_cons_of_mem _ hmem), List.reverse_cons, List.append_assoc]
    rfl

theorem normalizeSegments_plain (h : ∀ seg ∈ segs, Plain seg) : normalizeSegments above segs = segs := by
  unfold normalizeSegments
  rw [foldl_push_plain h, List.append_nil, List.reverse_reverse]

/-- A dot after plain segments is left out. -/
theorem normalizeSegments_dot (h : ∀ seg ∈ segs, Plain seg) :
    normalizeSegments above (segs ++ [dot]) = segs := by
  unfold normalizeSegments
  rw [List.foldl_append, foldl_push_plain h, List.append_nil]
  exact List.reverse_reverse segs

/-- Two dots after plain segments take the last one away. -/
theorem normalizeSegments_dotDot (h : ∀ seg ∈ segs, Plain seg) (hne : segs ≠ []) :
    normalizeSegments above (segs ++ [dotDot]) = segs.dropLast := by
  obtain ⟨init, last, rfl⟩ := List.eq_nil_or_concat segs |>.resolve_left hne
  obtain ⟨-, -, hdotDot, -⟩ := h last (by simp)
  unfold normalizeSegments
  rw [List.concat_eq_append] at h ⊢
  rw [List.foldl_append, foldl_push_plain h, List.append_nil, List.reverse_append]
  show (push above (last :: init.reverse) dotDot).reverse = _
  unfold push
  rw [if_neg (by decide), if_pos rfl]
  show (if last = dotDot then _ else init.reverse).reverse = _
  rw [if_neg hdotDot, List.reverse_reverse, List.dropLast_concat]

/-- A part that does not begin or end with a slash. -/
def Clean (part : List Char) : Prop := part ≠ [] ∧ part.head? ≠ some '/' ∧ part.getLast? ≠ some '/'

theorem clean_of_segment (hnil : seg ≠ []) (hslash : '/' ∉ seg) : Clean seg := by
  refine ⟨hnil, fun hhead => hslash ?_, fun hlast => hslash ?_⟩
  · exact List.mem_of_mem_head? hhead
  · exact List.mem_of_getLast? hlast

theorem render_clean (hne : parts ≠ []) (h : ∀ part ∈ parts, Clean part) : Clean (render parts) := by
  induction parts with
  | nil => exact absurd rfl hne
  | cons part parts ih =>
    obtain ⟨hnil, hhead, hlast⟩ := h part List.mem_cons_self
    cases parts with
    | nil =>
      unfold render
      rw [List.intercalate_singleton]
      exact ⟨hnil, hhead, hlast⟩
    | cons next rest =>
      obtain ⟨hnil', -, hlast'⟩ := ih (List.cons_ne_nil _ _) fun part hmem => h part (List.mem_cons_of_mem _ hmem)
      have hcut : render (part :: next :: rest) = part ++ '/' :: render (next :: rest) := by
        unfold render
        rw [List.intercalate_cons_cons]
        simp
      rw [hcut]
      refine ⟨by simp, ?_, ?_⟩
      · rw [List.head?_append_of_ne_nil _ hnil]
        exact hhead
      · rw [List.getLast?_append_of_ne_nil _ (List.cons_ne_nil _ _), List.getLast?_cons_of_ne_nil hnil']
        exact hlast'

/-- Joining clean parts normalizes their segments. -/
theorem segments_join (hne : parts ≠ []) (h : ∀ part ∈ parts, Clean part)
    (hnormal : normalizeSegments true (parts.flatMap segments) ≠ [])
    (hplain : ∀ seg ∈ normalizeSegments true (parts.flatMap segments), seg ≠ [] ∧ '/' ∉ seg) :
    segments (join parts) = normalizeSegments true (parts.flatMap segments) := by
  have hfilter : parts.filter (fun part => part ≠ []) = parts :=
    List.filter_eq_self.2 fun part hmem => decide_eq_true (h part hmem).1
  obtain ⟨hnil, hhead, hlast⟩ := render_clean hne h
  have hbody : render (normalizeSegments true (parts.flatMap segments)) ≠ [] := by
    intro hempty
    have := segments_render (fun seg hmem => (hplain seg hmem).2) hnormal
    rw [hempty] at this
    exact (hplain [] (by rw [← this]; exact List.mem_singleton_self _)).1 rfl
  unfold join
  simp only [hfilter, if_neg hne]
  unfold normalize
  simp only [if_neg hnil, decide_eq_false hhead, decide_eq_false hlast, Bool.not_false,
    segments_render_parts hne, if_neg hbody]
  exact (congrArg segments (by simp)).trans (segments_render (fun seg hmem => (hplain seg hmem).2) hnormal)

theorem Plain.clean (h : Plain seg) : Clean seg := clean_of_segment h.1 h.2.2.2

/-- Plain parts that are joined are the segments. -/
theorem segments_join_plain (hne : parts ≠ []) (h : ∀ part ∈ parts, Plain part) :
    segments (join parts) = parts := by
  have hflat : parts.flatMap segments = parts := flatMap_segments fun part hmem => (h part hmem).2.2.2
  have hnormal : normalizeSegments true (parts.flatMap segments) = parts := by
    rw [hflat]
    exact normalizeSegments_plain h
  refine (segments_join hne (fun part hmem => (h part hmem).clean) ?_ ?_).trans hnormal
  · rw [hnormal]
    exact hne
  · rw [hnormal]
    exact fun seg hmem => ⟨(h seg hmem).1, (h seg hmem).2.2.2⟩

/-- A name that is joined to a path of plain segments is put at its end. -/
theorem join_render (h : ∀ seg ∈ segs, Plain seg) (hseg : Plain seg) :
    join [render segs, seg] = render (segs ++ [seg]) := by
  have hall : ∀ each ∈ segs ++ [seg], Plain each := fun each hmem => by
    rcases List.mem_append.1 hmem with hmem | hmem
    · exact h each hmem
    · exact List.mem_singleton.1 hmem ▸ hseg
  have hnormal : normalizeSegments true (segs ++ [seg]) = segs ++ [seg] := normalizeSegments_plain hall
  have hslash : ∀ each ∈ segs ++ [seg], each ≠ [] ∧ '/' ∉ each := fun each hmem =>
    ⟨(hall each hmem).1, (hall each hmem).2.2.2⟩
  have hjoin : ∀ parts : List (List Char), parts ≠ [] → (∀ part ∈ parts, Clean part) →
      parts.flatMap segments = segs ++ [seg] → join parts = render (segs ++ [seg]) := by
    intro parts hne hclean hflat
    refine segments_injective ((segments_join hne hclean ?_ ?_).trans ?_)
    · rw [hflat, hnormal]
      simp
    · rw [hflat, hnormal]
      exact hslash
    · rw [hflat, hnormal, segments_render (fun each hmem => (hslash each hmem).2) (by simp)]
  have hone : segments seg = [seg] := segments_eq_self hseg.2.2.2
  by_cases hnil : segs = []
  · subst hnil
    refine Eq.trans ?_ (hjoin [seg] (by simp) (by simpa using hseg.clean) (by simp [hone]))
    simp [join, render, hseg.1]
  · refine hjoin [render segs, seg] (by simp) ?_ ?_
    · intro part hpart
      rcases List.mem_cons.1 hpart with rfl | hpart
      · exact render_clean hnil fun each hmem => (h each hmem).clean
      · exact List.mem_singleton.1 hpart ▸ hseg.clean
    · rw [List.flatMap_cons, segments_render (fun each hmem => (h each hmem).2.2.2) hnil,
        List.flatMap_cons, hone]
      rfl

/-! ## Relative paths -/

theorem commonLength_append (as bs : List Segment) : commonLength as (as ++ bs) = as.length := by
  induction as with
  | nil => cases bs <;> rfl
  | cons a as ih => rw [List.cons_append, commonLength, if_pos rfl, ih, List.length_cons]

theorem normalizeSegments_append_plain {front : List Segment} (h : ∀ seg ∈ segs, Plain seg) :
    normalizeSegments above (front ++ segs) = normalizeSegments above front ++ segs := by
  unfold normalizeSegments
  rw [List.foldl_append, foldl_push_plain h, List.reverse_append, List.reverse_reverse]

/-- What lies below a path is found from there by its own segments. -/
theorem relative_below (cwd : List Segment) {source : List Char} (hsource : source ≠ [])
    (h : ∀ seg ∈ segs, Plain seg) (hne : segs ≠ []) :
    relative cwd source (source ++ '/' :: render segs) = render segs := by
  have hhead : (source ++ '/' :: render segs).head? = source.head? :=
    List.head?_append_of_ne_nil _ hsource
  have hsegments : segments (source ++ '/' :: render segs) = segments source ++ segs := by
    have := @segments_render_parts [source, render segs] (by simp)
    rw [List.flatMap_cons, List.flatMap_cons, List.flatMap_nil, List.append_nil,
      segments_render (fun seg hmem => (h seg hmem).2.2.2) hne] at this
    rw [← this]
    simp [render]
  have hresolve : resolve cwd (source ++ '/' :: render segs) = resolve cwd source ++ segs := by
    unfold resolve
    rw [hhead, hsegments, ← List.append_assoc]
    exact normalizeSegments_append_plain h
  unfold relative
  rw [hresolve]
  simp only [commonLength_append, Nat.sub_self, List.replicate_zero, List.nil_append, List.drop_left]

/-! ## The last segment -/

/-- What is put at a path's end is put at the end of its last segment. -/
theorem segments_append {path tail : List Char} (htail : '/' ∉ tail) :
    ∃ init last, segments (path ++ tail) = init ++ [last ++ tail] ∧ '/' ∉ last := by
  induction path with
  | nil => exact ⟨[], [], segments_eq_self htail, by simp⟩
  | cons c path ih =>
    obtain ⟨init, last, hsegments, hlast⟩ := ih
    unfold segments at hsegments ⊢
    rw [List.cons_append, List.splitOn_cons_eq_if_modifyHead, hsegments]
    split
    · exact ⟨[] :: init, last, rfl, hlast⟩
    · rename_i hc
      cases init with
      | nil =>
        refine ⟨[], c :: last, rfl, ?_⟩
        rw [List.mem_cons, not_or]
        exact ⟨fun heq => hc (beq_iff_eq.2 heq.symm), hlast⟩
      | cons first init => exact ⟨(c :: first) :: init, last, rfl, hlast⟩

theorem suffix_render (segs : List Segment) (seg : Segment) : seg <:+ render (segs ++ [seg]) := by
  unfold render
  induction segs with
  | nil =>
    rw [List.nil_append, List.intercalate_singleton]
  | cons first segs ih =>
    obtain ⟨next, rest, hrest⟩ := List.exists_cons_of_ne_nil (List.append_ne_nil_of_right_ne_nil segs
      (List.cons_ne_nil seg []))
    rw [List.cons_append, hrest, List.intercalate_cons_cons, ← hrest]
    exact ih.trans (List.suffix_append _ _)

/-- Joining keeps the end of the last part, where it cannot be a segment of dots. -/
theorem suffix_join {tail path : List Char} (hslash : '/' ∉ tail) {c : Char} (hc : c ∈ tail) (hdot : c ≠ '.') :
    tail <:+ join (parts ++ [path ++ tail]) := by
  have hne : tail ≠ [] := List.ne_nil_of_mem hc
  have hpart : path ++ tail ≠ [] := List.append_ne_nil_of_right_ne_nil _ hne
  obtain ⟨init, last, hsegments, hlast⟩ := @segments_append path tail hslash
  have hplain : Plain (last ++ tail) := by
    refine ⟨List.append_ne_nil_of_right_ne_nil _ hne, fun h => ?_, fun h => ?_, ?_⟩
    · have := h ▸ List.mem_append_right last hc
      simp only [dot, List.mem_singleton] at this
      exact hdot this
    · have := h ▸ List.mem_append_right last hc
      simp only [dotDot, List.mem_cons, List.not_mem_nil, or_false, or_self] at this
      exact hdot this
    · rw [List.mem_append, not_or]
      exact ⟨hlast, hslash⟩
  have hfilter : (parts ++ [path ++ tail]).filter (fun part => part ≠ []) =
      parts.filter (fun part => part ≠ []) ++ [path ++ tail] := by
    rw [List.filter_append, List.filter_singleton, decide_eq_true hpart, cond_true]
  unfold join
  rw [hfilter]
  generalize parts.filter (fun part => part ≠ []) = parts
  have hall : parts ++ [path ++ tail] ≠ [] := by simp
  have hend : path ++ tail <:+ render (parts ++ [path ++ tail]) := suffix_render parts (path ++ tail)
  have hsegs : segments (render (parts ++ [path ++ tail])) = parts.flatMap segments ++ init ++ [last ++ tail] := by
    rw [segments_render_parts hall, List.flatMap_append, List.flatMap_singleton, hsegments, List.append_assoc]
  simp only [if_neg hall]
  generalize render (parts ++ [path ++ tail]) = whole at hend hsegs
  have hwhole : whole ≠ [] := fun h => hpart (List.suffix_nil.1 (h ▸ hend))
  have htrailing : whole.getLast? ≠ some '/' := by
    obtain ⟨front, rfl⟩ := hend
    rw [← List.append_assoc, List.getLast?_append_of_ne_nil _ hne]
    exact fun h => hslash (List.mem_of_getLast? h)
  unfold normalize
  simp only [if_neg hwhole, hsegs, decide_eq_false htrailing]
  have hnormal : ∀ above, ∃ front, normalizeSegments above (parts.flatMap segments ++ init ++ [last ++ tail]) =
      front ++ [last ++ tail] := fun above => by
    unfold normalizeSegments
    rw [List.foldl_append, List.foldl_cons, List.foldl_nil, push_plain hplain, List.reverse_cons]
    exact ⟨_, rfl⟩
  obtain ⟨front, hfront⟩ := hnormal (!decide (whole.head? = some '/'))
  rw [hfront]
  have hsuffix : last ++ tail <:+ render (front ++ [last ++ tail]) := suffix_render front (last ++ tail)
  have hbody : render (front ++ [last ++ tail]) ≠ [] := fun h => hplain.1 (List.suffix_nil.1 (h ▸ hsuffix))
  rw [if_neg hbody]
  simp only [Bool.false_eq_true, if_false, List.append_nil]
  exact (List.suffix_append last tail).trans (hsuffix.trans (List.suffix_append _ _))

/-! ## Extensions -/

theorem mem_of_mem_extname {path : List Char} {c : Char} (h : c ∈ extname path) : c ∈ path := by
  have hsegment : ∀ d ∈ (path.reverse.dropWhile (· = '/')).takeWhile (· ≠ '/'), d ∈ path := fun d hd =>
    List.mem_reverse.1 ((List.dropWhile_suffix _).subset ((List.takeWhile_prefix _).subset hd))
  unfold extname at h
  simp only at h
  generalize (path.reverse.dropWhile (· = '/')).takeWhile (· ≠ '/') = segment at h hsegment
  split at h
  · cases h
  · rename_i hdots
    rcases List.mem_cons.1 h with rfl | h
    · obtain ⟨d, before, hbefore⟩ := List.exists_cons_of_ne_nil (not_or.1 hdots).1
      have hhead := List.head?_dropWhile_not (fun c : Char => decide (c ≠ '.')) segment
      rw [hbefore] at hhead
      have hd : d = '.' := by simpa using hhead
      exact hsegment _ ((List.dropWhile_suffix _).subset (by rw [hbefore, hd]; exact List.mem_cons_self))
    · exact hsegment c ((List.takeWhile_prefix _).subset (List.mem_reverse.1 h))

/-- A segment ends with its extension, which begins with its only dot, and does not consist of it. -/
theorem extname_cases (hslash : '/' ∉ seg) : extname seg = [] ∨
    ∃ base rest, base ≠ [] ∧ seg = base ++ extname seg ∧ extname seg = '.' :: rest ∧ '.' ∉ rest := by
  have hsegment : (seg.reverse.dropWhile (· = '/')).takeWhile (· ≠ '/') = seg.reverse := by
    have hmem : ∀ c ∈ seg.reverse, c ≠ '/' := by
      rintro c hc rfl
      exact hslash (List.mem_reverse.1 hc)
    rw [List.dropWhile_eq_self_iff.2, List.takeWhile_eq_self_iff.2]
    · simpa using hmem
    · intro hpos
      simpa using hmem _ (List.getElem_mem hpos)
  unfold extname
  simp only [hsegment]
  split
  · exact .inl rfl
  · next hdots =>
    rw [not_or, not_or] at hdots
    obtain ⟨hne, hsingle, -⟩ := hdots
    obtain ⟨c, before, hbefore⟩ := List.exists_cons_of_ne_nil hne
    have hc : c = '.' := by
      have hhead := List.head?_dropWhile_not (fun c : Char => decide (c ≠ '.')) seg.reverse
      rw [hbefore] at hhead
      simpa using hhead
    subst hc
    rw [hbefore] at hsingle
    refine .inr ⟨before.reverse, _, ?_, ?_, rfl, ?_⟩
    · intro hnil
      rw [List.reverse_eq_nil_iff.1 hnil] at hsingle
      exact hsingle rfl
    · have hsplit := List.takeWhile_append_dropWhile (p := fun c : Char => decide (c ≠ '.')) (l := seg.reverse)
      rw [hbefore] at hsplit
      have := congrArg List.reverse hsplit
      rw [List.reverse_append, List.reverse_cons, List.reverse_reverse, List.append_assoc] at this
      exact this.symm
    · intro hdot
      have := List.mem_takeWhile_imp (List.mem_reverse.1 hdot)
      simp at this

end Staaash.Library.PosixPath
