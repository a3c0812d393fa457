import Staaash.Layout.Keys
import Staaash.Layout.Proofs.NamesProofs
import Staaash.Service.Proofs.PathsProofs
import Mathlib.Data.List.Nodup

/-!
# Proofs: storage keys

A name that was checked has no slash, but may be `.` or `..`: white space other than a blank after the dots
passes the check of the last character. Where no name is, the segments of a key are the names on the way to
the item, and everything follows from the siblings' names.
-/

namespace Staaash.Layout

open Staaash.Library
open Staaash.Library.PosixPath (Plain Clean)
open Staaash.Service (Database Item pathSegmentsFrom)
open Staaash.Planner (ItemType)

/-! ## Checked names -/

variable {raw value : String} {kind : ItemType}

/-- A name is one segment of a path. -/
theorem segment_of_validateSegment (h : validateSegment raw kind = .ok value) :
    value.toList ≠ [] ∧ '/' ∉ value.toList := by
  have hchecked := (checked_of_validateSegment h).2
  exact ⟨hchecked.nonempty, fun hmem => hchecked.valid _ hmem (by decide)⟩

/-- The raw names that become dots: those that are only dots between white space, and do not end in a
blank or a dot. -/
theorem validateSegment_dots (hvalue : value = "." ∨ value = "..") :
    validateSegment raw kind = .ok value ↔
      trim raw = value ∧ raw.toList.getLast?.any (· ∈ [' ', '.']) = false := by
  rw [validateSegment_eq_ok]
  refine and_congr_right fun _ => ⟨fun h => (findSegmentError_eq_none.1 h).last, fun h => ?_⟩
  unfold findSegmentError
  rw [h]
  obtain rfl | rfl := hvalue <;> decide

/-! ## Storage ids -/

theorem mem_replaceRuns {inRun : Bool} {chars : List Char} {c : Char} (h : c ∈ replaceRuns inRun chars) :
    isStorageIdCharacter c = true := by
  induction chars generalizing inRun with
  | nil => cases h
  | cons d chars ih =>
    unfold replaceRuns at h
    split at h
    · rename_i hd
      obtain rfl | h := List.mem_cons.1 h
      · exact hd
      · exact ih h
    · split at h
      · exact ih h
      · obtain rfl | h := List.mem_cons.1 h
        · decide
        · exact ih h

theorem stripEnds_plain {chars : List Char} (h : ∀ c ∈ chars, isStorageIdCharacter c = true)
    (hnil : stripEnds chars ≠ []) : Plain (stripEnds chars) := by
  have hlast : ∀ c, (stripEnds chars).getLast? = some c → isDotOrDash c = false := by
    intro c hc
    unfold stripEnds at hc
    rw [List.getLast?_reverse] at hc
    have := List.head?_dropWhile_not isDotOrDash (chars.dropWhile isDotOrDash).reverse
    rw [hc] at this
    exact this
  refine ⟨hnil, fun hdot => ?_, fun hdots => ?_, fun hslash => ?_⟩
  · exact absurd (hlast '.' (by rw [hdot]; rfl)) (by decide)
  · exact absurd (hlast '.' (by rw [hdots]; rfl)) (by decide)
  · have hmem : '/' ∈ chars := (List.dropWhile_sublist _).subset (List.mem_reverse.1
      ((List.dropWhile_sublist _).subset (List.mem_reverse.1 hslash)))
    exact absurd (h '/' hmem) (by decide)

/-- The storage ids that are made for users are what a tree needs. -/
theorem generateStorageId_plain (email : String) {suffix : Option String}
    (hsuffix : ∀ token ∈ suffix, '/' ∉ token.toList) :
    Plain (generateStorageId email suffix).toList := by
  have hbase : Plain (getEmailStorageBase email).toList := by
    unfold getEmailStorageBase
    dsimp only
    split
    · decide
    · rename_i hnil
      rw [String.toList_ofList]
      exact stripEnds_plain (fun c => mem_replaceRuns) hnil
  cases suffix with
  | none => exact hbase
  | some token =>
    have hdash : '-' ∈ (generateStorageId email (some token)).toList := by
      show '-' ∈ (_ ++ "-" ++ token).toList
      simp
    refine ⟨List.ne_nil_of_mem hdash, fun hdot => ?_, fun hdot => ?_, fun hslash => ?_⟩
    · rw [hdot] at hdash
      exact absurd hdash (by decide)
    · rw [hdot] at hdash
      exact absurd hdash (by decide)
    · replace hslash : '/' ∈ (getEmailStorageBase email ++ "-" ++ token).toList := hslash
      rw [String.toList_append, String.toList_append] at hslash
      obtain hslash | hslash := List.mem_append.1 hslash
      · obtain hslash | hslash := List.mem_append.1 hslash
        · exact hbase.2.2.2 hslash
        · exact absurd hslash (by decide)
      · exact hsuffix token rfl hslash

/-! ## The way up -/

variable {db : Database} {parent : Option String} {path : List String} {n : Nat} {visited : List String}

/-- The loop finds the names of a live path: no folder on it is met twice. -/
theorem pathSegmentsFrom_eq (h : db.LiveAt parent path) (hn : path.length ≤ n)
    (hvisited : ∀ id ∈ visited, ∃ longer, db.LiveAt (some id) longer ∧ path.length < longer.length) :
    pathSegmentsFrom db.folder db.filesRoot n visited parent = path := by
  induction h generalizing n visited with
  | top => cases n <;> rfl
  | filesRoot hget hlive =>
    cases n with
    | zero => rfl
    | succ n =>
      unfold pathSegmentsFrom
      rw [if_pos (by simp)]
  | @inside id folder path hget hlive hid hparent ih =>
    cases n with
    | zero => simp at hn
    | succ n =>
      have hnew : visited.contains id = false := by
        refine Bool.eq_false_iff.2 fun hmem => ?_
        obtain ⟨longer, hlonger, hlt⟩ := hvisited id (List.contains_iff_mem.1 hmem)
        rw [hlonger.unique (.inside hget hlive hid hparent)] at hlt
        exact Nat.lt_irrefl _ hlt
      rw [List.length_append, List.length_singleton] at hn hvisited
      unfold pathSegmentsFrom
      rw [hnew, decide_eq_false hid, if_neg (by simp), hget]
      show pathSegmentsFrom _ _ _ _ _ ++ _ = _
      rw [ih (Nat.le_of_succ_le_succ hn) fun id' hmem => ?_]
      obtain rfl | hmem := List.mem_cons.1 hmem
      · exact ⟨_, .inside hget hlive hid hparent, by simp⟩
      · obtain ⟨longer, hlonger, hlt⟩ := hvisited id' hmem
        exact ⟨longer, hlonger, Nat.lt_of_succ_lt hlt⟩

/-- The folders on a live path are rows, each one once. -/
theorem exists_folders (h : db.LiveAt parent path) : ∃ ids : List String, ids.length = path.length ∧
    ids.Nodup ∧ ∀ id ∈ ids, id ∈ db.items.keys ∧
      ∃ shorter, db.LiveAt (some id) shorter ∧ shorter.length ≤ path.length := by
  induction h with
  | top => exact ⟨[], rfl, List.nodup_nil, nofun⟩
  | filesRoot => exact ⟨[], rfl, List.nodup_nil, nofun⟩
  | @inside id folder path hget hlive hid hparent ih =>
    obtain ⟨ids, hlength, hnodup, hids⟩ := ih
    have hself := Database.LiveAt.inside hget hlive hid hparent
    refine ⟨id :: ids, by simp [hlength], List.nodup_cons.2 ⟨fun hmem => ?_, hnodup⟩, fun id' hmem => ?_⟩
    · obtain ⟨-, shorter, hshorter, hle⟩ := hids id hmem
      rw [hshorter.unique hself, List.length_append, List.length_singleton] at hle
      omega
    · obtain rfl | hmem := List.mem_cons.1 hmem
      · obtain ⟨hrow, -⟩ := Option.filter_eq_some_iff.1 hget
        exact ⟨(OrderedMap.mem_keys_iff _ _).2 ⟨folder, hrow⟩, _, hself, Nat.le_refl _⟩
      · obtain ⟨hkey, shorter, hshorter, hle⟩ := hids id' hmem
        exact ⟨hkey, shorter, hshorter, by simp; omega⟩

theorem buildFolderPathSegments_eq (h : db.LiveAt parent path) :
    db.buildFolderPathSegments parent = path := by
  obtain ⟨ids, hlength, hnodup, hids⟩ := exists_folders h
  have hle := hnodup.length_le_of_subset fun id hmem => (hids id hmem).1
  have hkeys : db.items.keys.length = db.items.entries.length := List.length_map _
  refine pathSegmentsFrom_eq h ?_ nofun
  unfold Database.depth
  omega

/-! ## Segments of a key -/

namespace OwnerTree

variable {t : OwnerTree} {id id' : String} {item item' : Item}

/-- The segments of the directory of the owner. -/
def base (t : OwnerTree) : List PosixPath.Segment := ["files".toList, t.storageId.toList]

theorem base_plain (t : OwnerTree) : ∀ seg ∈ t.base, Plain seg := by
  intro seg hmem
  obtain rfl | hmem := List.mem_cons.1 hmem
  · decide
  · rw [List.mem_singleton.1 hmem]
    exact t.storageId_plain

/-- What is joined and normalized has the segments that it should have. -/
theorem segments_posixJoin {parts : List String} {segs : List PosixPath.Segment} (hne : parts ≠ [])
    (hclean : ∀ part ∈ parts, Clean part.toList)
    (hsegs : PosixPath.normalizeSegments true ((parts.map String.toList).flatMap PosixPath.segments) = segs)
    (hnil : segs ≠ []) (hsegments : ∀ seg ∈ segs, seg ≠ [] ∧ '/' ∉ seg) :
    PosixPath.segments (posixJoin parts).toList = segs := by
  subst hsegs
  unfold posixJoin
  rw [String.toList_ofList]
  refine PosixPath.segments_join (by simpa using hne) (fun part hmem => ?_) hnil hsegments
  obtain ⟨name, hname, rfl⟩ := List.mem_map.1 hmem
  exact hclean name hname

theorem segments_filesRoot {storageId : String} (h : Plain storageId.toList) :
    PosixPath.segments (getUserFilesRootStorageKey storageId).toList =
      ["files".toList, storageId.toList] := by
  have hplain : ∀ seg ∈ ["files".toList, storageId.toList], Plain seg := by
    intro seg hmem
    obtain rfl | hmem := List.mem_cons.1 hmem
    · decide
    · rw [List.mem_singleton.1 hmem]
      exact h
  refine segments_posixJoin (List.cons_ne_nil _ _) (fun part hmem => ?_) ?_ (List.cons_ne_nil _ _)
    fun seg hmem => ⟨(hplain seg hmem).1, (hplain seg hmem).2.2.2⟩
  · have hpart := hplain part.toList (List.mem_map_of_mem (f := String.toList) hmem)
    exact PosixPath.clean_of_segment hpart.1 hpart.2.2.2
  · show PosixPath.normalizeSegments true (["files".toList, storageId.toList].flatMap _) = _
    rw [PosixPath.flatMap_segments fun seg hmem => (hplain seg hmem).2.2.2]
    exact PosixPath.normalizeSegments_plain hplain

theorem segments_root (t : OwnerTree) :
    PosixPath.segments (getUserFilesRootStorageKey t.storageId).toList = t.base :=
  segments_filesRoot t.storageId_plain

theorem root_clean (t : OwnerTree) : Clean (getUserFilesRootStorageKey t.storageId).toList := by
  have hrender : (getUserFilesRootStorageKey t.storageId).toList = PosixPath.render t.base :=
    PosixPath.segments_injective (t.segments_root.trans
      (PosixPath.segments_render (fun seg hmem => (t.base_plain seg hmem).2.2.2) (List.cons_ne_nil _ _)).symm)
  rw [hrender]
  exact PosixPath.render_clean (List.cons_ne_nil _ _) fun part hmem =>
    PosixPath.clean_of_segment (t.base_plain part hmem).1 (t.base_plain part hmem).2.2.2

/-- The place of an item: the names on the way to it, and its own. -/
theorem IsItem.place (h : t.IsItem id item) : ∃ path, item.parentId.isSome = true ∧
    t.db.LiveAt item.parentId path ∧
    t.key id item = posixJoin (getUserFilesRootStorageKey t.storageId :: (path ++ [item.name])) := by
  obtain ⟨hget, hlive, hid⟩ := h
  obtain ⟨hsome, n, path, hpath⟩ := t.rooted id item hget hlive hid
  have hpath := Service.liveAt_of_livePath hpath
  refine ⟨path, hsome, hpath, ?_⟩
  unfold key buildStorageKey
  cases htype : item.type with
  | file =>
    show getActiveCommittedStorageKey _ _ _ = _
    rw [buildFolderPathSegments_eq hpath]
    rfl
  | folder =>
    have hfolder : t.db.folder id = some item := by
      unfold Database.folder
      rw [hget, Option.filter_some, if_pos (by rw [htype]; rfl)]
    show getActiveFolderStorageKey _ _ = _
    rw [buildFolderPathSegments_eq (.inside hfolder hlive hid hpath)]
    rfl

theorem IsItem.name (h : t.IsItem id item) : item.name.toList ≠ [] ∧ '/' ∉ item.name.toList := by
  obtain ⟨raw, hraw⟩ := t.normalized id item h.1 h.2.1 h.2.2
  exact segment_of_validateSegment hraw

/-- A folder on a live path is an item, but for the files root. -/
theorem isItem_of_folder (hget : t.db.folder id = some item) (hlive : item.live = true)
    (hid : id ≠ t.db.filesRoot) : t.IsItem id item :=
  ⟨(Option.filter_eq_some_iff.1 hget).1, hlive, hid⟩

/-- The names on a live path are segments. -/
theorem path_segments {parent : Option String} {path : List String} (h : t.db.LiveAt parent path) :
    ∀ name ∈ path, name.toList ≠ [] ∧ '/' ∉ name.toList := by
  induction h with
  | top => exact nofun
  | filesRoot => exact nofun
  | inside hget hlive hid hparent ih =>
    intro name hmem
    obtain hmem | hmem := List.mem_append.1 hmem
    · exact ih name hmem
    · rw [List.mem_singleton.1 hmem]
      exact (isItem_of_folder hget hlive hid).name

/-- The segments of a path below the owner's directory. -/
theorem segments_below_root {names : List String} {segs : List PosixPath.Segment}
    (hnames : ∀ name ∈ names, name.toList ≠ [] ∧ '/' ∉ name.toList)
    (hsegs : PosixPath.normalizeSegments true (t.base ++ names.map String.toList) = segs)
    (hnil : segs ≠ []) (hsegments : ∀ seg ∈ segs, seg ≠ [] ∧ '/' ∉ seg) :
    PosixPath.segments (posixJoin (getUserFilesRootStorageKey t.storageId :: names)).toList = segs := by
  refine segments_posixJoin (List.cons_ne_nil _ _) (fun part hmem => ?_) ?_ hnil hsegments
  · obtain rfl | hmem := List.mem_cons.1 hmem
    · exact t.root_clean
    · exact PosixPath.clean_of_segment (hnames part hmem).1 (hnames part hmem).2
  · rw [List.map_cons, List.flatMap_cons, t.segments_root, PosixPath.flatMap_segments fun part hmem => ?_]
    · exact hsegs
    · obtain ⟨name, hname, rfl⟩ := List.mem_map.1 hmem
      exact (hnames name hname).2

/-! ## Without dots -/

theorem plain_of_name {name : String} (h : name.toList ≠ [] ∧ '/' ∉ name.toList)
    (hdots : name ≠ "." ∧ name ≠ "..") : Plain name.toList := by
  refine ⟨h.1, fun hdot => hdots.1 ?_, fun hdot => hdots.2 ?_, h.2⟩
  · exact String.toList_inj.1 hdot
  · exact String.toList_inj.1 hdot

theorem path_plain (hdots : ∀ id item path, t.IsItem id item → t.db.LiveAt (some id) path →
    path.length ≤ n → item.name ≠ "." ∧ item.name ≠ "..") {parent : Option String} {path : List String}
    (h : t.db.LiveAt parent path) (hn : path.length ≤ n) :
    ∀ seg ∈ t.base ++ path.map String.toList, Plain seg := by
  have hnames : ∀ name ∈ path, Plain name.toList := by
    intro name hname
    induction h with
    | top => cases hname
    | filesRoot => cases hname
    | inside hget hlive hid hparent ih =>
      have hitem := isItem_of_folder hget hlive hid
      have hpath := Database.LiveAt.inside hget hlive hid hparent
      obtain hname | hname := List.mem_append.1 hname
      · rw [List.length_append, List.length_singleton] at hn
        exact ih (Nat.le_of_succ_le hn) hname
      · rw [List.mem_singleton.1 hname]
        exact plain_of_name hitem.name (hdots _ _ _ hitem hpath hn)
  intro seg hmem
  obtain hmem | hmem := List.mem_append.1 hmem
  · exact t.base_plain seg hmem
  · obtain ⟨name, hname, rfl⟩ := List.mem_map.1 hmem
    exact hnames name hname

/-- The segments of a key are the names on the way to the item. -/
theorem segments_key (hplain : ∀ path, t.db.LiveAt item.parentId path →
      ∀ seg ∈ t.base ++ (path ++ [item.name]).map String.toList, Plain seg)
    (h : t.IsItem id item) : ∃ path, t.db.LiveAt item.parentId path ∧
      PosixPath.segments (t.key id item).toList =
        t.base ++ (path ++ [item.name]).map String.toList := by
  obtain ⟨path, -, hpath, hkey⟩ := h.place
  have hplain := hplain path hpath
  refine ⟨path, hpath, ?_⟩
  rw [hkey]
  refine segments_below_root (fun name hmem => ?_) (PosixPath.normalizeSegments_plain hplain) (by simp [base])
    fun seg hmem => ⟨(hplain seg hmem).1, (hplain seg hmem).2.2.2⟩
  have := hplain name.toList (List.mem_append_right _ (List.mem_map_of_mem hmem))
  exact ⟨this.1, this.2.2.2⟩

theorem NoDots.plain (hdots : t.NoDots) (h : t.IsItem id item) {path : List String}
    (hpath : t.db.LiveAt item.parentId path) :
    ∀ seg ∈ t.base ++ (path ++ [item.name]).map String.toList, Plain seg := by
  intro seg hmem
  rw [List.map_append, ← List.append_assoc] at hmem
  obtain hmem | hmem := List.mem_append.1 hmem
  · exact path_plain (fun id item _ hitem _ _ => hdots id item hitem) hpath (Nat.le_refl _) seg hmem
  · rw [List.mem_singleton.1 hmem]
    exact plain_of_name h.name (hdots id item h)

theorem liveAt_cases {path : List String} (h : t.db.LiveAt (some id) path) :
    (id = t.db.filesRoot ∧ path = []) ∨ ∃ folder above, t.db.folder id = some folder ∧
      folder.live = true ∧ id ≠ t.db.filesRoot ∧ t.db.LiveAt folder.parentId above ∧
        path = above ++ [folder.name] := by
  cases h with
  | filesRoot => exact .inl ⟨rfl, rfl⟩
  | inside hget hlive hid hparent => exact .inr ⟨_, _, hget, hlive, hid, hparent, rfl⟩

/-- The folder with a live path is known by it. -/
theorem parent_unique {path : List String} {parent parent' : String}
    (h : t.db.LiveAt (some parent) path) (h' : t.db.LiveAt (some parent') path) : parent = parent' := by
  induction path using List.reverseRecOn generalizing parent parent' with
  | nil =>
    obtain ⟨rfl, -⟩ | ⟨_, _, -, -, -, -, hpath⟩ := liveAt_cases h
    · obtain ⟨rfl, -⟩ | ⟨_, _, -, -, -, -, hpath⟩ := liveAt_cases h'
      · rfl
      · simp at hpath
    · simp at hpath
  | append_singleton path name ih =>
    obtain ⟨-, hpath⟩ | ⟨folder, above, hget, hlive, hid, habove, hpath⟩ := liveAt_cases h
    · simp at hpath
    obtain ⟨-, hpath'⟩ | ⟨folder', above', hget', hlive', hid', habove', hpath'⟩ := liveAt_cases h'
    · simp at hpath'
    obtain ⟨rfl, hname⟩ := List.append_inj' hpath rfl
    obtain ⟨rfl, hname'⟩ := List.append_inj' hpath' rfl
    have hitem := isItem_of_folder hget hlive hid
    have hitem' := isItem_of_folder hget' hlive' hid'
    obtain ⟨_, hsome, -⟩ := hitem.place
    obtain ⟨_, hsome', -⟩ := hitem'.place
    obtain ⟨p, hp⟩ := Option.isSome_iff_exists.1 hsome
    obtain ⟨p', hp'⟩ := Option.isSome_iff_exists.1 hsome'
    rw [hp] at habove
    rw [hp'] at habove'
    have hparent : folder.parentId = folder'.parentId := by rw [hp, hp', ih habove habove']
    exact t.distinct parent parent' folder folder' hitem.1 hitem'.1 hlive hlive' hparent
      (List.singleton_inj.1 (hname.symm.trans hname'))

/-- Two items in one place are one. -/
theorem item_unique {path : List String} (h : t.IsItem id item) (h' : t.IsItem id' item')
    (hpath : t.db.LiveAt item.parentId path) (hpath' : t.db.LiveAt item'.parentId path)
    (hname : item.name = item'.name) : id = id' := by
  obtain ⟨_, hsome, -⟩ := h.place
  obtain ⟨_, hsome', -⟩ := h'.place
  obtain ⟨p, hp⟩ := Option.isSome_iff_exists.1 hsome
  obtain ⟨p', hp'⟩ := Option.isSome_iff_exists.1 hsome'
  rw [hp] at hpath
  rw [hp'] at hpath'
  have hparent : item.parentId = item'.parentId := by rw [hp, hp', parent_unique hpath hpath']
  exact t.distinct id id' item item' h.1 h'.1 h.2.1 h'.2.1 hparent hname

theorem map_toList_injective {names names' : List String}
    (h : t.base ++ names.map String.toList = t.base ++ names'.map String.toList) : names = names' :=
  List.map_injective_iff.2 (fun _ _ => String.toList_inj.1) (List.append_cancel_left h)

theorem NoDots.injective (hdots : t.NoDots) (h : t.IsItem id item) (h' : t.IsItem id' item')
    (hkey : t.key id item = t.key id' item') : id = id' := by
  obtain ⟨path, hpath, hsegments⟩ := segments_key (fun _ => hdots.plain h) h
  obtain ⟨path', hpath', hsegments'⟩ := segments_key (fun _ => hdots.plain h') h'
  rw [hkey, hsegments'] at hsegments
  obtain ⟨rfl, hname⟩ := List.append_inj' (map_toList_injective hsegments) rfl
  exact item_unique h h' hpath hpath' (List.singleton_inj.1 hname.symm)

theorem NoDots.below (hdots : t.NoDots) (h : t.IsItem id item) :
    StrictlyBelow (getUserFilesRootStorageKey t.storageId) (t.key id item) := by
  obtain ⟨path, hpath, hsegments⟩ := segments_key (fun _ => hdots.plain h) h
  refine ⟨?_, fun hroot => ?_, ?_⟩
  · unfold IsPathPrefix
    rw [hsegments, t.segments_root]
    exact List.prefix_append _ _
  · rw [← hroot, t.segments_root] at hsegments
    have := congrArg List.length hsegments
    simp at this
  · rw [hsegments]
    exact hdots.plain h hpath

theorem NoDots.otherOwners (hdots : t.NoDots) (h : t.IsItem id item) {storageId : String}
    (hplain : Plain storageId.toList) (hne : storageId ≠ t.storageId) :
    ¬IsPathPrefix (getUserFilesRootStorageKey storageId) (t.key id item) ∧
      ¬IsPathPrefix (t.key id item) (getUserFilesRootStorageKey storageId) := by
  obtain ⟨path, hpath, hsegments⟩ := segments_key (fun _ => hdots.plain h) h
  unfold IsPathPrefix
  rw [hsegments, segments_filesRoot hplain]
  constructor
  · intro hbegins
    have hsame := (List.cons_prefix_cons.1 (List.cons_prefix_cons.1 hbegins).2).1
    exact hne (String.toList_inj.1 hsame)
  · intro hbegins
    have := hbegins.length_le
    simp [base] at this

/-- Two items whose places are one below the other. -/
theorem above_of_prefix (h : t.IsItem id item) {path names : List String}
    (hpath : t.db.LiveAt item.parentId path) {parent : String} (hparent : t.db.LiveAt (some parent) names)
    (hbegins : path ++ [item.name] <+: names) : parent = id ∨ t.Above id parent := by
  generalize hp : some parent = p at hparent
  induction hparent generalizing parent with
  | top => cases hp
  | filesRoot =>
    have := hbegins.length_le
    simp at this
  | @inside folderId folder above hget hlive hid habove ih =>
    cases hp
    have hitem := isItem_of_folder hget hlive hid
    obtain hsame | hshorter := List.prefix_concat_iff.1 hbegins
    · obtain ⟨rfl, hname⟩ := List.append_inj' hsame rfl
      exact .inl (item_unique hitem h habove hpath (List.singleton_inj.1 hname.symm))
    · obtain ⟨_, hsome, -⟩ := hitem.place
      obtain ⟨q, hq⟩ := Option.isSome_iff_exists.1 hsome
      obtain rfl | hdeeper := ih hshorter hq.symm
      · exact .inr (.parent hitem.1 hq)
      · exact .inr (.deeper hdeeper hitem.1 hq)

theorem prefix_of_above (h : t.IsItem id item) {path : List String}
    (hpath : t.db.LiveAt item.parentId path) (habove : t.Above id id')
    {names : List String} (hget : t.db.items.get id' = some item')
    (hnames : t.db.LiveAt item'.parentId names) : path ++ [item.name] <+: names := by
  have hrow : ∀ {id item item' : _}, t.db.items.get id = some item → t.db.items.get id = some item' →
      item = item' := fun h h' => Option.some.inj (h.symm.trans h')
  induction habove generalizing item' names with
  | parent hget' hparent =>
    obtain rfl := hrow hget hget'
    rw [hparent] at hnames
    obtain ⟨hroot, -⟩ | ⟨folder, above, hfolder, -, -, habove, rfl⟩ := liveAt_cases hnames
    · exact absurd hroot h.2.2
    · obtain rfl := hrow (Option.filter_eq_some_iff.1 hfolder).1 h.1
      rw [hpath.unique habove]
  | deeper habove hget' hparent ih =>
    obtain rfl := hrow hget hget'
    rw [hparent] at hnames
    obtain ⟨hroot, -⟩ | ⟨folder, above, hfolder, -, -, hup, rfl⟩ := liveAt_cases hnames
    · subst hroot
      cases habove with
      | parent hget'' hparent'' => cases (t.filesRoot_top _ hget'').symm.trans hparent''
      | deeper _ hget'' hparent'' => cases (t.filesRoot_top _ hget'').symm.trans hparent''
    · exact (ih h (Option.filter_eq_some_iff.1 hfolder).1 hup).trans (List.prefix_append _ _)

theorem NoDots.prefix_iff (hdots : t.NoDots) (h : t.IsItem id item) (h' : t.IsItem id' item')
    (hne : id ≠ id') : IsPathPrefix (t.key id item) (t.key id' item') ↔ t.Above id id' := by
  obtain ⟨path, hpath, hsegments⟩ := segments_key (fun _ => hdots.plain h) h
  obtain ⟨path', hpath', hsegments'⟩ := segments_key (fun _ => hdots.plain h') h'
  unfold IsPathPrefix
  rw [hsegments, hsegments', List.prefix_append_right_inj]
  constructor
  · intro hbegins
    obtain ⟨names, hnames, hmap⟩ := List.prefix_map_iff.1 hbegins
    obtain rfl := map_toList_injective (congrArg (t.base ++ ·) hmap)
    obtain hsame | hshorter := List.prefix_concat_iff.1 hnames
    · obtain ⟨rfl, hname⟩ := List.append_inj' hsame rfl
      exact absurd (item_unique h h' hpath hpath' (List.singleton_inj.1 hname)) hne
    · obtain ⟨_, hsome, -⟩ := h'.place
      obtain ⟨p, hp⟩ := Option.isSome_iff_exists.1 hsome
      rw [hp] at hpath'
      obtain rfl | hdeeper := above_of_prefix h hpath hpath' hshorter
      · exact .parent h'.1 hp
      · exact .deeper hdeeper h'.1 hp
  · intro habove
    have hbegins := (prefix_of_above h hpath habove h'.1 hpath').trans (List.prefix_append _ [item'.name])
    exact hbegins.map String.toList

/-! ## With dots -/

/-- No key is that of a folder above the item. -/
theorem KeysConfined.not_above (hkeys : t.KeysConfined) (h : t.IsItem id item)
    {path names : List String} (hpath : t.db.LiveAt item.parentId path) {parent : Option String}
    (hparent : t.db.LiveAt parent names) (hle : names.length ≤ path.length)
    (hplain : ∀ seg ∈ t.base ++ names.map String.toList, Plain seg) :
    PosixPath.segments (t.key id item).toList ≠ t.base ++ names.map String.toList := by
  intro hsegments
  have hroot : names ≠ [] := by
    rintro rfl
    rw [List.map_nil, List.append_nil, ← t.segments_root] at hsegments
    exact (hkeys.below id item h).2.1 (String.toList_inj.1 (PosixPath.segments_injective hsegments)).symm
  cases parent with
  | none =>
    cases hparent
    exact hroot rfl
  | some folderId =>
    obtain ⟨-, hnil⟩ | ⟨folder, above, hget, hlive, hid, habove, rfl⟩ := liveAt_cases hparent
    · exact hroot hnil
    · have hitem := isItem_of_folder hget hlive hid
      obtain ⟨above', habove', hsegments'⟩ := segments_key (fun above' habove' => by
        rw [habove'.unique habove]
        exact hplain) hitem
      rw [habove'.unique habove] at hsegments'
      obtain rfl := hkeys.injective id item folderId folder h hitem (String.toList_inj.1
        (PosixPath.segments_injective (hsegments.trans hsegments'.symm)))
      obtain rfl := Option.some.inj (h.1.symm.trans hitem.1)
      rw [hpath.unique habove, List.length_append, List.length_singleton] at hle
      omega

theorem KeysConfined.name (hkeys : t.KeysConfined) (h : t.IsItem id item) {path : List String}
    (hpath : t.db.LiveAt item.parentId path)
    (hplain : ∀ seg ∈ t.base ++ path.map String.toList, Plain seg) :
    item.name ≠ "." ∧ item.name ≠ ".." := by
  obtain ⟨path', hsome, hpath', hkey⟩ := h.place
  obtain rfl := hpath'.unique hpath
  have hnames : ∀ name ∈ path' ++ [item.name], name.toList ≠ [] ∧ '/' ∉ name.toList := by
    intro name hmem
    obtain hmem | hmem := List.mem_append.1 hmem
    · exact path_segments hpath name hmem
    · rw [List.mem_singleton.1 hmem]
      exact h.name
  have hsplit : t.base ++ (path' ++ [item.name]).map String.toList =
      (t.base ++ path'.map String.toList) ++ [item.name.toList] := by
    rw [List.map_append, List.append_assoc]
    rfl
  constructor
  · intro hdot
    refine hkeys.not_above h hpath hpath (Nat.le_refl _) hplain ?_
    rw [hkey]
    refine segments_below_root hnames ?_ (by simp [base]) fun seg hmem => ⟨(hplain seg hmem).1, (hplain seg hmem).2.2.2⟩
    rw [hsplit, hdot]
    exact PosixPath.normalizeSegments_dot hplain
  · intro hdots
    have hsegs : PosixPath.normalizeSegments true
        (t.base ++ (path' ++ [item.name]).map String.toList) =
        (t.base ++ path'.map String.toList).dropLast := by
      rw [hsplit, hdots]
      exact PosixPath.normalizeSegments_dotDot hplain (by simp [base])
    have hnil : (t.base ++ path'.map String.toList).dropLast ≠ [] := by
      intro hnil
      have := congrArg List.length hnil
      simp [base] at this
    have hsegments := segments_below_root hnames hsegs hnil fun seg hmem =>
      have hseg := hplain seg (List.mem_of_mem_dropLast hmem)
      ⟨hseg.1, hseg.2.2.2⟩
    rw [← hkey] at hsegments
    obtain ⟨folderId, hfolderId⟩ := Option.isSome_iff_exists.1 hsome
    rw [hfolderId] at hpath
    obtain ⟨-, rfl⟩ | ⟨folder, above, hget, hlive, hid, habove, rfl⟩ := liveAt_cases hpath
    · -- the key is that of the directory with all owners
      have hbegins := (hkeys.below id item h).1
      unfold IsPathPrefix at hbegins
      rw [hsegments, t.segments_root] at hbegins
      have := hbegins.length_le
      simp [base] at this
    · refine hkeys.not_above h hpath' habove (by simp) (fun seg hmem => hplain seg ?_) ?_
      · rw [List.map_append, ← List.append_assoc]
        exact List.mem_append_left _ hmem
      · rw [hsegments, List.map_append, ← List.append_assoc]
        exact List.dropLast_concat

/-- The first dots on a way down: the names above are plain. -/
theorem KeysConfined.noDots (hkeys : t.KeysConfined) : t.NoDots := by
  have hlength : ∀ n id item path, t.IsItem id item → t.db.LiveAt item.parentId path → path.length = n →
      item.name ≠ "." ∧ item.name ≠ ".." := by
    intro n
    induction n using Nat.strong_induction_on with
    | _ n ih =>
      rintro id item path h hpath rfl
      refine hkeys.name h hpath (path_plain (fun id' item' path' h' hpath' hle => ?_) hpath (Nat.le_refl _))
      obtain ⟨hroot, -⟩ | ⟨folder, above, hget, -, -, habove, rfl⟩ := liveAt_cases hpath'
      · exact absurd hroot h'.2.2
      · obtain rfl := Option.some.inj ((Option.filter_eq_some_iff.1 hget).1.symm.trans h'.1)
        rw [List.length_append, List.length_singleton] at hle
        exact ih above.length (by omega) id' folder above h' habove rfl
  intro id item h
  obtain ⟨path, -, hpath, -⟩ := h.place
  exact hlength _ id item path h hpath rfl

/-- The keys say where the items are exactly if no name is `.` or `..`. -/
theorem keysConfined_iff (t : OwnerTree) : t.KeysConfined ↔ t.NoDots :=
  ⟨KeysConfined.noDots, fun hdots => ⟨fun _ _ => hdots.below, fun _ _ _ _ => hdots.injective,
    fun _ _ _ _ => hdots.prefix_iff, fun _ _ _ h => hdots.otherOwners h⟩⟩

/-- The condition on what was typed: no live item got its name from dots between white space whose last
character the check lets through. -/
theorem noDots_iff_typed (t : OwnerTree) : t.NoDots ↔ ∀ id item, t.IsItem id item → ∀ raw,
    trim raw = "." ∨ trim raw = ".." → raw.toList.getLast?.any (· ∈ [' ', '.']) = false →
      validateSegment raw item.type ≠ .ok item.name := by
  constructor
  · intro hdots id item h raw htrim _ hraw
    rw [(validateSegment_eq_ok.1 hraw).1] at htrim
    exact htrim.elim (hdots id item h).1 (hdots id item h).2
  · intro htyped id item h
    obtain ⟨raw, hraw⟩ := t.normalized id item h.1 h.2.1 h.2.2
    refine not_or.1 fun hvalue => ?_
    obtain ⟨htrim, hlast⟩ := (validateSegment_dots hvalue).1 hraw
    exact htyped id item h raw (htrim ▸ hvalue) hlast hraw

end OwnerTree

/-! ## A folder called `..` -/

def dottedRows : List (String × Item) :=
  [("root", ⟨.folder, none, "Files", none, none, none, none, 0⟩),
    ("x", ⟨.folder, some "root", "..", none, none, none, none, 0⟩)]

def dottedDatabase : Database := ⟨OrderedMap.ofList dottedRows, .empty, "root"⟩

theorem dottedDatabase_item {id : String} {item : Item} (hget : dottedDatabase.items.get id = some item)
    (hid : id ≠ dottedDatabase.filesRoot) :
    item = ⟨.folder, some "root", "..", none, none, none, none, 0⟩ := by
  have hmem : (id, item) ∈ dottedRows := (OrderedMap.get_eq_some_iff _ _ _).1 hget
  obtain hroot | hmem := List.mem_cons.1 hmem
  · exact absurd (congrArg Prod.fst hroot) hid
  · exact congrArg Prod.snd (List.mem_singleton.1 hmem)

/-- A folder in the files root, created with the name `..` and a tab after it. -/
def dottedTree : OwnerTree where
  storageId := generateStorageId "owner@example.com" none
  db := dottedDatabase
  storageId_plain := generateStorageId_plain _ nofun
  filesRoot_top := by
    rintro root hget
    cases hget
    rfl
  rooted := by
    intro id item hget _ hid
    obtain rfl := dottedDatabase_item hget hid
    exact ⟨rfl, 1, [], by decide⟩
  normalized := by
    intro id item hget _ hid
    obtain rfl := dottedDatabase_item hget hid
    exact ⟨"..\t", (validateSegment_dots (.inr rfl)).2 ⟨by decide, by decide⟩⟩
  distinct := by decide

/-- Its directory is the one that holds the directories of all owners. -/
theorem dotted_folder_is_files_directory :
    normalizeFolderName "..\t" = .ok ".." ∧
      buildFolderStorageKey "owner" dottedDatabase "x" = "files" ∧ ¬dottedTree.KeysConfined := by
  refine ⟨by decide, by decide, fun hkeys => ?_⟩
  have hitem : dottedTree.IsItem "x" ⟨.folder, some "root", "..", none, none, none, none, 0⟩ :=
    ⟨by decide, by decide, by decide⟩
  exact absurd rfl (hkeys.noDots "x" _ hitem).2

end Staaash.Layout
