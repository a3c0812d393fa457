import Mathlib.Algebra.Order.BigOperators.Group.List
import Mathlib.Data.Bool.AllAny
import Mathlib.Data.List.Perm.Basic
import Mathlib.Tactic.IntervalCases
import Staaash.Journal.Proofs.KeyOrderProofs
import Staaash.Library.Digits
import Staaash.Library.Framing

/-!
# Proofs: manifests agree, and tell trees apart

Every manifest lists the records of a tree in the order of its keys. A record says which key it is of
and what is there, and the lengths before the records say where one ends, so the input of the hash says
which tree it is of.
-/

namespace Staaash.Journal

open Staaash.Library
open Staaash.Library.PosixPath (Plain)

variable {H : Host} {fs : Fs} {root : Key} {k k' : Key}

/-! ## Bytes -/

theorem toList_loop (bytes : ByteArray) (i : Nat) (r : List UInt8) :
    ByteArray.toList.loop bytes i r = r.reverse ++ bytes.data.toList.drop i := by
  fun_induction ByteArray.toList.loop bytes i r with
  | case1 i r hlt ih =>
    have hi : i < bytes.data.toList.length := hlt
    have hget : bytes.get! i = bytes.data.toList[i] := getElem!_pos bytes.data i hlt
    rw [ih, List.drop_eq_getElem_cons hi, hget, List.reverse_cons, List.append_assoc]
    rfl
  | case2 i r hge =>
    rw [List.drop_eq_nil_of_le (Nat.le_of_not_lt hge), List.append_nil]

theorem utf8_eq (t : Text) : utf8 t = t.flatMap String.utf8EncodeChar := by
  have hbytes : (String.ofList t).toUTF8 = (t.flatMap String.utf8EncodeChar).toByteArray := by
    show (String.ofList t).toByteArray = _
    rw [String.toByteArray_ofList]
    rfl
  unfold utf8
  rw [hbytes, ByteArray.toList, toList_loop, List.reverse_nil, List.nil_append, List.drop_zero]
  exact List.toList_data_toByteArray

theorem utf8_injective : Function.Injective utf8 := by
  intro a b h
  have hencode : a.utf8Encode = b.utf8Encode := by
    rw [utf8_eq, utf8_eq] at h
    exact congrArg List.toByteArray h
  rw [← String.toByteArray_ofList, ← String.toByteArray_ofList] at hencode
  exact String.ofList_injective (String.toByteArray_inj.1 hencode)

theorem not_mem_utf8_toDigits (n : Nat) : (58 : UInt8) ∉ utf8 (Nat.toDigits 10 n) := by
  intro hmem
  rw [utf8_eq, List.mem_flatMap] at hmem
  obtain ⟨c, hc, hbyte⟩ := hmem
  have hdigit := Nat.isDigit_of_mem_toDigits (by decide) (by decide) hc
  have hall : ∀ d ∈ "0123456789".toList, (58 : UInt8) ∉ String.utf8EncodeChar d :=
    List.all_iff_forall_prop.1 (by decide)
  refine hall c ?_ hbyte
  simp only [Char.isDigit, Bool.and_eq_true, decide_eq_true_eq] at hdigit
  have hlow : 48 ≤ c.toNat := hdigit.1
  have hhigh : c.toNat ≤ 57 := hdigit.2
  have hofNat : c = Char.ofNat c.toNat := (Char.ofNat_toNat c).symm
  rw [hofNat]
  interval_cases c.toNat <;> decide

/-- The input of the hash says which records it was made of. -/
theorem manifestInput_injective : Function.Injective manifestInput := by
  have hframe : ∀ records, manifestInput records =
      (records.map utf8).flatMap (Framing.frame (fun n => utf8 (Nat.toDigits 10 n)) 58) := by
    intro records
    have hsep : utf8 [':'] = [58] := by
      rw [utf8_eq]
      decide
    unfold manifestInput Framing.frame
    rw [List.flatMap_map]
    refine congrArg (fun f => records.flatMap f) (funext fun record => ?_)
    rw [hsep, List.append_assoc, List.singleton_append]
  intro a b h
  have h : manifestInput a = manifestInput b := h
  rw [hframe, hframe] at h
  refine List.map_injective_iff.2 utf8_injective (Framing.flatMap_frame_injective ?_ ?_ h)
  · exact fun m n hmn => toDigits_injective (utf8_injective hmn)
  · exact not_mem_utf8_toDigits

/-! ## Records -/

def itemRecord (entry : Key × Item) : Text := (entry.2.captured entry.1).record

/-- A path that can be read back from its record, and what is there. -/
def Readable (entry : Key × Item) : Prop :=
  (entry.1 ≠ [] ∧ ∀ name ∈ entry.1, '/' ∉ name) ∧
    ∀ size checksum, entry.2 = .file size checksum → ' ' ∉ checksum

theorem joinKey_inj (hk : k ≠ [] ∧ ∀ name ∈ k, '/' ∉ name) (hk' : k' ≠ [] ∧ ∀ name ∈ k', '/' ∉ name)
    (h : joinKey k = joinKey k') : k = k' := by
  have hsplit := congrArg PosixPath.segments h
  exact (PosixPath.segments_render hk.2 hk.1).symm.trans
    (hsplit.trans (PosixPath.segments_render hk'.2 hk'.1))

theorem itemRecord_inj {a b : Key × Item} (ha : Readable a) (hb : Readable b)
    (h : itemRecord a = itemRecord b) : a = b := by
  obtain ⟨k, item⟩ := a
  obtain ⟨k', item'⟩ := b
  have hspace : ∀ n, ' ' ∉ Nat.toDigits 10 n := not_mem_toDigits (by decide)
  cases item with
  | directory =>
    cases item' with
    | directory =>
      have hkey : k = k' := joinKey_inj ha.1 hb.1 (List.append_cancel_left h)
      rw [hkey]
    | file size checksum => cases h
  | file size checksum =>
    cases item' with
    | directory => cases h
    | file size' checksum' =>
      have hjoined : (joinKey k ++ ' ' :: Nat.toDigits 10 size) ++ ' ' :: checksum =
          (joinKey k' ++ ' ' :: Nat.toDigits 10 size') ++ ' ' :: checksum' := by
        simp only [itemRecord, Item.captured, CapturedEntry.record, List.append_assoc] at h
        simpa using h
      obtain ⟨hfront, rfl⟩ := Framing.append_sep_inj_right (ha.2 _ _ rfl) (hb.2 _ _ rfl) hjoined
      obtain ⟨hkey, hsize⟩ := Framing.append_sep_inj_right (hspace _) (hspace _) hfront
      have hkey : k = k' := joinKey_inj ha.1 hb.1 hkey
      rw [hkey, toDigits_injective hsize]

/-- The records of a tree's entries in the order of their keys. -/
def inOrder (entries : List (Key × Item)) : List Text :=
  (entries.mergeSort fun a b => keyLe a.1 b.1).map itemRecord

theorem pairwise_inOrder {α : Type} (entries : List (Key × α)) :
    (entries.mergeSort fun a b => keyLe a.1 b.1).Pairwise fun a b => keyLe a.1 b.1 = true :=
  @List.pairwise_mergeSort (Key × α) (fun a b => keyLe a.1 b.1) (fun _ _ _ => keyLe_trans)
    (fun a b => keyLe_total a.1 b.1) entries

/-- A list in the order of its keys is the sorted one. -/
theorem eq_mergeSort {α : Type} {entries sorted : List (Key × α)} (hnodup : (entries.map Prod.fst).Nodup)
    (hperm : sorted.Perm entries) (hsorted : sorted.Pairwise fun a b => keyLe a.1 b.1 = true) :
    sorted = entries.mergeSort fun a b => keyLe a.1 b.1 := by
  refine List.Perm.eq_of_pairwise (fun a b ha hb hab hba => ?_) hsorted (pairwise_inOrder entries)
    (hperm.trans (List.mergeSort_perm _ _).symm)
  exact List.inj_on_of_nodup_map hnodup (hperm.subset ha) ((List.mergeSort_perm _ _).subset hb)
    (keyLe_antisymm hab hba)

theorem inOrder_perm {a b : List (Key × Item)} (hnodup : (b.map Prod.fst).Nodup) (h : a.Perm b) :
    inOrder a = inOrder b :=
  congrArg (List.map itemRecord)
    (eq_mergeSort hnodup ((List.mergeSort_perm a _).trans h) (pairwise_inOrder a))

theorem mem_inOrder {entries : List (Key × Item)} (hreadable : ∀ entry ∈ entries, Readable entry)
    {entry : Key × Item} (hentry : Readable entry) :
    itemRecord entry ∈ inOrder entries ↔ entry ∈ entries := by
  unfold inOrder
  rw [List.mem_map]
  constructor
  · rintro ⟨other, hmem, hrecord⟩
    have hmem := (List.mergeSort_perm _ _).subset hmem
    rwa [← itemRecord_inj (hreadable other hmem) hentry hrecord]
  · exact fun hmem => ⟨entry, (List.mergeSort_perm _ _).symm.subset hmem, rfl⟩

/-- The records say what the entries are. -/
theorem mem_of_inOrder_eq {a b : List (Key × Item)} (ha : ∀ entry ∈ a, Readable entry)
    (hb : ∀ entry ∈ b, Readable entry) (h : inOrder a = inOrder b) {entry : Key × Item} :
    entry ∈ a ↔ entry ∈ b := by
  constructor
  · intro hmem
    exact (mem_inOrder hb (ha entry hmem)).1 (h ▸ (mem_inOrder ha (ha entry hmem)).2 hmem)
  · intro hmem
    exact (mem_inOrder ha (hb entry hmem)).1 (h ▸ (mem_inOrder hb (hb entry hmem)).2 hmem)

theorem captured_relativeKey (entry : Key × Item) :
    (entry.2.captured entry.1).relativeKey = joinKey entry.1 := by
  obtain ⟨k, item⟩ := entry
  cases item <;> rfl

/-- In whatever order the entries of a tree are captured, their records come in the order of the keys. -/
theorem capturedRecords_eq {items : List (Key × Item)} (hnodup : (items.map Prod.fst).Nodup)
    (hreadable : ∀ entry ∈ items, Readable entry) {entries : List CapturedEntry}
    (hperm : entries.Perm (items.map fun entry => entry.2.captured entry.1)) :
    capturedRecords entries = inOrder items := by
  have hle : ∀ a b : CapturedEntry, Decidable.decide (compareKeys a.relativeKey b.relativeKey ≤ 0) = true ↔
      keyLe (a.relativeKey.splitOn '/') (b.relativeKey.splitOn '/') = true := fun a b => by
    rw [decide_eq_true_iff]
    exact compareParts_le_zero _ _
  have hkeys : ∀ a ∈ items, (a.2.captured a.1).relativeKey.splitOn '/' = a.1 := fun a ha => by
    rw [captured_relativeKey]
    exact PosixPath.segments_render (hreadable a ha).1.2 (hreadable a ha).1.1
  have hsorted : (entries.mergeSort fun a b => compareKeys a.relativeKey b.relativeKey ≤ 0) =
      (items.mergeSort fun a b => keyLe a.1 b.1).map fun entry => entry.2.captured entry.1 := by
    have hmem := fun entry => ((List.mergeSort_perm items fun a b => keyLe a.1 b.1).mem_iff (a := entry))
    refine @List.Perm.eq_of_pairwise _ (fun a b => Decidable.decide
      (compareKeys a.relativeKey b.relativeKey ≤ 0) = true) _ _ ?_ ?_ ?_ ?_
    · intro a b ha hb hab hba
      obtain ⟨x, hx, rfl⟩ := List.mem_map.1 (((List.mergeSort_perm _ _).trans hperm).subset ha)
      obtain ⟨y, hy, rfl⟩ := List.mem_map.1 hb
      have hy := (hmem y).1 hy
      rw [hle, hkeys x hx, hkeys y hy] at hab
      rw [hle, hkeys x hx, hkeys y hy] at hba
      rw [List.inj_on_of_nodup_map hnodup hx hy (keyLe_antisymm hab hba)]
    · refine List.pairwise_mergeSort (fun a b c hab hbc => ?_) (fun a b => ?_) entries
      · exact (hle a c).2 (keyLe_trans ((hle a b).1 hab) ((hle b c).1 hbc))
      · rw [Bool.or_eq_true, hle, hle, ← Bool.or_eq_true]
        exact keyLe_total _ _
    · rw [List.pairwise_map]
      refine (pairwise_inOrder items).imp_of_mem fun {x y} hx hy hxy => ?_
      rw [hle, hkeys x ((hmem x).1 hx), hkeys y ((hmem y).1 hy)]
      exact hxy
    · exact (List.mergeSort_perm _ _).trans (hperm.trans ((List.mergeSort_perm _ _).symm.map _))
  unfold capturedRecords inOrder
  rw [hsorted, List.map_map]
  rfl

/-! ## What is below a directory -/

theorem mem_below {node : Node} :
    (k, node) ∈ fs.below root ↔ k ≠ [] ∧ fs.get (root ++ k) = some node := by
  unfold Fs.below
  rw [List.mem_filterMap]
  constructor
  · rintro ⟨⟨full, n⟩, hmem, heq⟩
    have hget := ((fs.nodes.get_eq_some_iff full n).2 hmem)
    simp only at heq
    split at heq
    · next hbelow =>
      rw [Bool.and_eq_true, decide_eq_true_iff, decide_eq_true_iff] at hbelow
      obtain ⟨⟨rest, rfl⟩, hne⟩ := hbelow
      cases heq
      refine ⟨fun hnil => hne ?_, ?_⟩
      · rw [List.drop_left] at hnil
        rw [hnil, List.append_nil]
      · rw [List.drop_left]
        exact hget
    · cases heq
  · rintro ⟨hne, hget⟩
    refine ⟨(root ++ k, node), (fs.nodes.get_eq_some_iff _ _).1 hget, ?_⟩
    have hkey : root ++ k ≠ root := fun heq => hne (List.append_right_eq_self.1 heq)
    simp [hkey]

theorem nodup_below : ((fs.below root).map Prod.fst).Nodup := by
  have hpairwise := List.pairwise_map.1 fs.nodes.nodup
  unfold Fs.below
  rw [List.Nodup, List.pairwise_map, List.pairwise_filterMap]
  refine hpairwise.imp fun {a b} hne x hx y hy heq => hne ?_
  obtain ⟨ka, na⟩ := a
  obtain ⟨kb, nb⟩ := b
  simp only at hx hy
  split at hx
  · next ha =>
    split at hy
    · next hb =>
      cases hx
      cases hy
      rw [Bool.and_eq_true, decide_eq_true_iff] at ha hb
      obtain ⟨⟨resta, rfl⟩, -⟩ := ha
      obtain ⟨⟨restb, rfl⟩, -⟩ := hb
      simp only [List.drop_left] at heq
      rw [heq]
    · cases hy
  · cases hx

variable (H fs root) in
/-- What is below a directory, as far as a manifest can say it. -/
def itemsBelow : List (Key × Item) :=
  (fs.below root).filterMap fun entry => (entry.2.item H).map (entry.1, ·)

theorem mem_itemsBelow {item : Item} : (k, item) ∈ itemsBelow H fs root ↔
    k ≠ [] ∧ ∃ node, fs.get (root ++ k) = some node ∧ node.item H = some item := by
  unfold itemsBelow
  rw [List.mem_filterMap]
  constructor
  · rintro ⟨⟨k', node⟩, hmem, heq⟩
    obtain ⟨item', hitem, heq⟩ := Option.map_eq_some_iff.1 heq
    cases heq
    obtain ⟨hne, hget⟩ := mem_below.1 hmem
    exact ⟨hne, node, hget, hitem⟩
  · rintro ⟨hne, node, hget, hitem⟩
    exact ⟨(k, node), mem_below.2 ⟨hne, hget⟩, by rw [hitem]; rfl⟩

theorem nodup_itemsBelow : ((itemsBelow H fs root).map Prod.fst).Nodup := by
  unfold itemsBelow
  rw [List.Nodup, List.pairwise_map, List.pairwise_filterMap]
  refine (List.pairwise_map.1 nodup_below).imp fun {a b} hne x hx y hy heq => hne ?_
  obtain ⟨i, -, rfl⟩ := Option.map_eq_some_iff.1 hx
  obtain ⟨j, -, rfl⟩ := Option.map_eq_some_iff.1 hy
  exact heq

theorem manifestRecord_eq (entry : Key × Node) : manifestRecord H entry =
    match entry.2.item H with
    | some item => .ok (itemRecord (entry.1, item))
    | none => .error (.ambiguity "Tree manifest contains unsupported node.") := by
  obtain ⟨k, node⟩ := entry
  cases node with
  | file bytes => simp [manifestRecord, Node.item, itemRecord, Item.captured, CapturedEntry.record]
  | directory => rfl
  | other => rfl

theorem mapM_manifestRecord {entries : List (Key × Node)} {records : List Text} :
    entries.mapM (manifestRecord H) = .ok records ↔
      (∀ entry ∈ entries, entry.2.item H ≠ none) ∧
        records = (entries.filterMap fun entry => (entry.2.item H).map (entry.1, ·)).map itemRecord := by
  induction entries generalizing records with
  | nil =>
    rw [List.mapM_nil]
    simp [pure, Except.pure, eq_comm]
  | cons entry entries ih =>
    rw [List.mapM_cons, manifestRecord_eq, List.forall_mem_cons, List.filterMap_cons]
    rcases hitem : entry.2.item H with _ | item
    · simp [bind, Except.bind]
    · have hsome : some item ≠ none := Option.some_ne_none item
      rw [and_iff_right hsome]
      rcases hrest : entries.mapM (manifestRecord H) with e | rest
      · have hnot : ¬ ∀ entry ∈ entries, entry.2.item H ≠ none := fun hall => by
          rw [hrest] at ih
          cases ih.2 ⟨hall, rfl⟩
        refine ⟨fun h => ?_, fun h => absurd h.1 hnot⟩
        cases h
      · obtain ⟨hall, hrecords⟩ := ih.1 hrest
        rw [Option.map_some, List.map_cons, ← hrecords]
        constructor
        · intro h
          exact ⟨hall, (Except.ok.inj h).symm⟩
        · rintro ⟨-, rfl⟩
          rfl

/-- Reading a directory succeeds when it holds files and directories only. -/
theorem readTreeManifestRecords_eq_ok {records : List Text} :
    readTreeManifestRecords H fs root = .ok records ↔
      (∀ entry ∈ fs.below root, entry.2.item H ≠ none) ∧
        records = inOrder (itemsBelow H fs root) := by
  have hperm : ((fs.below root).mergeSort fun a b => keyLe a.1 b.1).Perm (fs.below root) :=
    List.mergeSort_perm _ _
  have hsorted : (((fs.below root).mergeSort fun a b => keyLe a.1 b.1).filterMap
      fun entry => (entry.2.item H).map (entry.1, ·)) =
      (itemsBelow H fs root).mergeSort fun a b => keyLe a.1 b.1 := by
    refine eq_mergeSort nodup_itemsBelow (hperm.filterMap _) ?_
    rw [List.pairwise_filterMap]
    refine (pairwise_inOrder (fs.below root)).imp fun {a b} hle x hx y hy => ?_
    obtain ⟨i, -, rfl⟩ := Option.map_eq_some_iff.1 hx
    obtain ⟨j, -, rfl⟩ := Option.map_eq_some_iff.1 hy
    exact hle
  unfold readTreeManifestRecords
  rw [mapM_manifestRecord, hsorted]
  refine and_congr_left' ?_
  exact forall_congr' fun entry => by rw [hperm.mem_iff]

/-! ## Recorded trees -/

variable {tree : Tree} {entries : List CapturedEntry}

theorem Tree.readable (tree : Tree) : ∀ entry ∈ tree.items.entries, Readable entry := by
  rintro ⟨k, item⟩ hmem
  have hget := (tree.items.get_eq_some_iff k item).2 hmem
  obtain ⟨hne, hplain⟩ := tree.named k ((tree.items.mem_keys_iff k).2 ⟨item, hget⟩)
  refine ⟨⟨hne, fun name hname => (hplain name hname).2.2.2⟩, fun size checksum heq => ?_⟩
  exact tree.spaceless k size checksum (hget.trans (congrArg some heq))

theorem Tree.capturedRecords_eq (hperm : entries.Perm tree.entries) :
    capturedRecords entries = inOrder tree.items.entries :=
  Staaash.Journal.capturedRecords_eq tree.items.nodup tree.readable hperm

/-- The input of the hash tells two trees apart. -/
theorem Tree.same_of_manifestInput_eq {a b : Tree} {as bs : List CapturedEntry} (ha : as.Perm a.entries)
    (hb : bs.Perm b.entries) (h : manifestInput (capturedRecords as) = manifestInput (capturedRecords bs)) :
    a.Same b := by
  have hrecords := manifestInput_injective h
  rw [Tree.capturedRecords_eq ha, Tree.capturedRecords_eq hb] at hrecords
  intro k
  refine Option.ext fun item => ?_
  rw [a.items.get_eq_some_iff, b.items.get_eq_some_iff]
  exact mem_of_inOrder_eq a.readable b.readable hrecords

theorem readable_itemsBelow (hspace : ∀ bytes, ' ' ∉ H.sha256 bytes) (hnamed : fs.Named) :
    ∀ entry ∈ itemsBelow H fs root, Readable entry := by
  rintro ⟨k, item⟩ hmem
  obtain ⟨hne, node, hget, hitem⟩ := mem_itemsBelow.1 hmem
  have hkey : root ++ k ∈ fs.nodes.keys := (fs.nodes.mem_keys_iff _).2 ⟨node, hget⟩
  refine ⟨⟨hne, fun name hname => ?_⟩, fun size checksum heq => ?_⟩
  · exact (hnamed _ hkey name (List.mem_append_right _ hname)).2.2.2
  · cases node with
    | file bytes =>
      cases hitem.trans (congrArg some heq)
      exact hspace bytes
    | directory => cases hitem.trans (congrArg some heq)
    | other => cases hitem

/-- A directory holds a tree when what is below it are the entries of the tree. -/
theorem holds_iff (hroot : fs.get root = some .directory) :
    fs.Holds H root tree ↔ (∀ entry ∈ fs.below root, entry.2.item H ≠ none) ∧
      ∀ entry, entry ∈ itemsBelow H fs root ↔ entry ∈ tree.items.entries := by
  constructor
  · rintro ⟨-, hall⟩
    refine ⟨?_, ?_⟩
    · rintro ⟨k, node⟩ hmem hnone
      obtain ⟨hne, hget⟩ := mem_below.1 hmem
      have := hall k hne
      rw [hget, Option.map_some, hnone] at this
      cases hitem : tree.items.get k <;> rw [hitem] at this <;> cases this
    · rintro ⟨k, item⟩
      rw [mem_itemsBelow, ← tree.items.get_eq_some_iff]
      constructor
      · rintro ⟨hne, node, hget, hitem⟩
        have := hall k hne
        rw [hget, Option.map_some, hitem] at this
        obtain ⟨item', hget', heq⟩ := Option.map_eq_some_iff.1 this.symm
        rw [hget', Option.some.inj heq]
      · intro hget'
        have hne := (tree.named k ((tree.items.mem_keys_iff k).2 ⟨item, hget'⟩)).1
        have := hall k hne
        rw [hget', Option.map_some] at this
        obtain ⟨node, hget, hitem⟩ := Option.map_eq_some_iff.1 this
        exact ⟨hne, node, hget, hitem⟩
  · rintro ⟨hitems, hsame⟩
    refine ⟨hroot, fun k hne => ?_⟩
    rcases hget : fs.get (root ++ k) with _ | node
    · rcases hget' : tree.items.get k with _ | item
      · rfl
      · have hmem := (hsame (k, item)).2 ((tree.items.get_eq_some_iff k item).1 hget')
        obtain ⟨-, node, hnode, -⟩ := mem_itemsBelow.1 hmem
        rw [hget] at hnode
        cases hnode
    · rcases hitem : node.item H with _ | item
      · exact absurd hitem (hitems (k, node) (mem_below.2 ⟨hne, hget⟩))
      · have hmem := (hsame (k, item)).1 (mem_itemsBelow.2 ⟨hne, node, hget, hitem⟩)
        rw [(tree.items.get_eq_some_iff k item).2 hmem, Option.map_some, Option.map_some, hitem]

/-- The records read from a directory that holds a tree are the captured ones. -/
theorem Fs.Holds.readTreeManifestRecords_eq (h : fs.Holds H root tree) (hperm : entries.Perm tree.entries) :
    readTreeManifestRecords H fs root = .ok (capturedRecords entries) := by
  obtain ⟨hitems, hsame⟩ := (holds_iff h.1).1 h
  refine readTreeManifestRecords_eq_ok.2 ⟨hitems, ?_⟩
  rw [Tree.capturedRecords_eq hperm]
  refine (inOrder_perm tree.items.nodup ?_).symm
  exact (List.perm_ext_iff_of_nodup nodup_itemsBelow.of_map tree.items.nodup.of_map).2 hsame

theorem treeManifestMatches_eq (records : List Text) : treeManifestMatches H fs root
      (hashTreeManifestRecords H records) =
    (readTreeManifestRecords H fs root).map fun read =>
      Decidable.decide (hashTreeManifestRecords H read = hashTreeManifestRecords H records) := by
  have hstarts : "v2:".toList <+: hashTreeManifestRecords H records := List.prefix_append _ _
  unfold treeManifestMatches
  cases readTreeManifestRecords H fs root with
  | error e => rfl
  | ok read =>
    exact congrArg Except.ok (if_pos hstarts)

/-- The check of a captured digest passes exactly when the directory holds the captured tree. -/
theorem treeManifestMatches_iff (hspace : ∀ bytes, ' ' ∉ H.sha256 bytes)
    (hfree : Function.Injective H.sha256) (hnamed : fs.Named) (hroot : fs.get root = some .directory)
    (hperm : entries.Perm tree.entries) :
    treeManifestMatches H fs root (calculateCapturedTreeManifestDigest H entries) = .ok true ↔
      fs.Holds H root tree := by
  unfold calculateCapturedTreeManifestDigest
  rw [treeManifestMatches_eq]
  constructor
  · intro h
    rcases hread : readTreeManifestRecords H fs root with e | read
    · rw [hread] at h
      cases h
    · rw [hread] at h
      have hhash := of_decide_eq_true (Except.ok.inj h)
      have hrecords := manifestInput_injective (hfree (List.append_cancel_left hhash))
      obtain ⟨hitems, rfl⟩ := readTreeManifestRecords_eq_ok.1 hread
      rw [Tree.capturedRecords_eq hperm] at hrecords
      exact (holds_iff hroot).2 ⟨hitems, fun entry =>
        mem_of_inOrder_eq (readable_itemsBelow hspace hnamed) tree.readable hrecords⟩
  · intro h
    rw [h.readTreeManifestRecords_eq hperm]
    simp [Except.map]

/-! ## The walk -/

section Walk

/-- What a directory holds as one entry after the other, every directory before what it holds. -/
def preorder (fs : Fs) : Nat → Key → Key → List (Key × Node)
  | 0, _, _ => []
  | fuel + 1, directoryPath, rel =>
    ((readdir fs directoryPath).mergeSort fun left right => textLe left.1 right.1).flatMap
      fun (name, node) => (rel ++ [name], node) ::
        if node = .directory then preorder fs fuel (directoryPath ++ [name]) (rel ++ [name]) else []

theorem mem_readdir {directoryPath : Key} {name : Text} {node : Node} :
    (name, node) ∈ readdir fs directoryPath ↔ fs.get (directoryPath ++ [name]) = some node := by
  unfold readdir
  rw [List.mem_filterMap]
  constructor
  · rintro ⟨⟨k, n⟩, hmem, heq⟩
    simp only at heq
    split at heq
    · next hdir =>
      obtain ⟨last, hlast, heq⟩ := Option.map_eq_some_iff.1 heq
      cases heq
      have hk : k = directoryPath ++ [name] := by
        obtain ⟨front, rfl⟩ := List.getLast?_eq_some_iff.1 hlast
        rw [← hdir, dirname, List.dropLast_concat]
      rw [← hk]
      exact (fs.nodes.get_eq_some_iff k node).2 hmem
    · cases heq
  · intro hget
    refine ⟨(directoryPath ++ [name], node), (fs.nodes.get_eq_some_iff _ _).1 hget, ?_⟩
    simp [dirname]

theorem nodup_readdir (fs : Fs) (directoryPath : Key) :
    ((readdir fs directoryPath).map Prod.fst).Nodup := by
  unfold readdir
  rw [List.Nodup, List.pairwise_map, List.pairwise_filterMap]
  refine (List.pairwise_map.1 fs.nodes.nodup).imp fun {a b} hne x hx y hy heq => hne ?_
  obtain ⟨ka, na⟩ := a
  obtain ⟨kb, nb⟩ := b
  simp only at hx hy
  split at hx
  · next ha =>
    split at hy
    · next hb =>
      obtain ⟨la, hla, rfl⟩ := Option.map_eq_some_iff.1 hx
      obtain ⟨lb, hlb, rfl⟩ := Option.map_eq_some_iff.1 hy
      obtain ⟨fa, rfl⟩ := List.getLast?_eq_some_iff.1 hla
      obtain ⟨fb, rfl⟩ := List.getLast?_eq_some_iff.1 hlb
      have heq : la = lb := heq
      rw [dirname, List.dropLast_concat] at ha hb
      rw [ha, hb, heq]
    · cases hy
  · cases hx

/-- The names of a directory in their order, each of them once. -/
theorem pairwise_readdir (fs : Fs) (directoryPath : Key) :
    ((readdir fs directoryPath).mergeSort fun left right => textLe left.1 right.1).Pairwise
      fun left right => textLe left.1 right.1 = true ∧ left.1 ≠ right.1 := by
  have hperm : ((readdir fs directoryPath).mergeSort fun left right => textLe left.1 right.1).Perm _ :=
    List.mergeSort_perm _ _
  refine List.Pairwise.and ?_ (List.pairwise_map.1 ((hperm.map Prod.fst).nodup_iff.2 (nodup_readdir fs _)))
  exact @List.pairwise_mergeSort (Text × Node) (fun left right => textLe left.1 right.1)
    (fun _ _ _ => textLe_trans) (fun left right => textLe_total left.1 right.1) _

variable {fuel : Nat} {directoryPath rel : Key} {node : Node}

theorem mem_preorder_succ {entry : Key × Node} : entry ∈ preorder fs (fuel + 1) directoryPath rel ↔
    ∃ name node, fs.get (directoryPath ++ [name]) = some node ∧
      (entry = (rel ++ [name], node) ∨ (node = .directory ∧
        entry ∈ preorder fs fuel (directoryPath ++ [name]) (rel ++ [name]))) := by
  rw [preorder, List.mem_flatMap]
  constructor
  · rintro ⟨⟨name, node⟩, hmem, hentry⟩
    refine ⟨name, node, mem_readdir.1 ((List.mergeSort_perm _ _).subset hmem), ?_⟩
    rcases List.mem_cons.1 hentry with heq | hentry
    · exact .inl heq
    · split at hentry
      · next hdir => exact .inr ⟨hdir, hentry⟩
      · cases hentry
  · rintro ⟨name, node, hget, hentry⟩
    refine ⟨(name, node), (List.mergeSort_perm _ _).symm.subset (mem_readdir.2 hget), ?_⟩
    rcases hentry with heq | ⟨hdir, hentry⟩
    · exact heq ▸ List.mem_cons_self
    · exact List.mem_cons_of_mem _ (by rw [if_pos hdir]; exact hentry)

theorem mem_preorder_below (hmem : (k, node) ∈ preorder fs fuel directoryPath rel) :
    ∃ below, below ≠ [] ∧ k = rel ++ below ∧ fs.get (directoryPath ++ below) = some node := by
  induction fuel generalizing directoryPath rel with
  | zero => cases hmem
  | succ fuel ih =>
    obtain ⟨name, node', hget, heq | ⟨-, hmem⟩⟩ := mem_preorder_succ.1 hmem
    · cases heq
      exact ⟨[name], by simp, rfl, hget⟩
    · obtain ⟨below, -, rfl, hget⟩ := ih hmem
      exact ⟨name :: below, by simp, by simp, by simpa using hget⟩

/-- Deep enough, the walk comes to everything below the directory. -/
theorem mem_preorder {below : Key} (hfuel : below.length ≤ fuel) (hne : below ≠ [])
    (hget : fs.get (directoryPath ++ below) = some node) :
    (rel ++ below, node) ∈ preorder fs fuel directoryPath rel := by
  induction fuel generalizing directoryPath rel below with
  | zero => exact absurd (List.length_eq_zero_iff.1 (Nat.le_zero.1 hfuel)) hne
  | succ fuel ih =>
    obtain ⟨name, rest, rfl⟩ := List.exists_cons_of_ne_nil hne
    by_cases hrest : rest = []
    · subst hrest
      exact mem_preorder_succ.2 ⟨name, node, hget, .inl rfl⟩
    · have hsplit : directoryPath ++ name :: rest = (directoryPath ++ [name]) ++ rest := by simp
      have hdir : fs.get (directoryPath ++ [name]) = some .directory := by
        refine (Fs.isDirectory_above (k := directoryPath ++ name :: rest) ?_ ?_ ?_).resolve_left (by simp)
        · rw [hget]
          exact Option.some_ne_none _
        · rw [hsplit]
          exact List.prefix_append _ _
        · rw [hsplit]
          exact fun heq => hrest (List.append_right_eq_self.1 heq.symm)
      rw [hsplit] at hget
      have hin : (rel ++ [name] ++ rest, node) ∈ preorder fs fuel (directoryPath ++ [name]) (rel ++ [name]) :=
        ih (Nat.le_of_succ_le_succ hfuel) hrest hget
      refine mem_preorder_succ.2 ⟨name, .directory, hdir, .inr ⟨rfl, ?_⟩⟩
      rwa [List.append_assoc] at hin

/-- The walk keeps to the order of the keys, and comes to each of them once. -/
theorem pairwise_preorder : (preorder fs fuel directoryPath rel).Pairwise
    fun a b => keyLe a.1 b.1 = true ∧ a.1 ≠ b.1 := by
  induction fuel generalizing directoryPath rel with
  | zero => exact .nil
  | succ fuel ih =>
    rw [preorder, List.pairwise_flatMap]
    refine ⟨?_, ?_⟩
    · rintro ⟨name, node⟩ -
      refine List.pairwise_cons.2 ⟨fun b hb => ?_, ?_⟩
      · split at hb
        · obtain ⟨below, hne, hkey, -⟩ := @mem_preorder_below _ b.1 _ _ _ b.2 hb
          rw [hkey]
          exact ⟨keyLe_append _ _, fun heq => hne (List.append_right_eq_self.1 heq.symm)⟩
        · cases hb
      · split
        · exact ih
        · exact .nil
    · refine (pairwise_readdir fs directoryPath).imp fun {left right} hlr a ha b hb => ?_
      have hat : ∀ {each : Text × Node} {entry : Key × Node}, entry ∈ (rel ++ [each.1], each.2) ::
          (if each.2 = .directory then preorder fs fuel (directoryPath ++ [each.1]) (rel ++ [each.1])
            else []) → ∃ below, entry.1 = rel ++ each.1 :: below := by
        intro each entry hentry
        rcases List.mem_cons.1 hentry with rfl | hentry
        · exact ⟨[], rfl⟩
        · split at hentry
          · obtain ⟨below, -, hkey, -⟩ := @mem_preorder_below _ entry.1 _ _ _ entry.2 hentry
            exact ⟨below, by rw [hkey, List.append_assoc, List.singleton_append]⟩
          · cases hentry
      obtain ⟨belowa, ha⟩ := hat ha
      obtain ⟨belowb, hb⟩ := hat hb
      rw [ha, hb]
      refine ⟨keyLe_of_next rel hlr.1 hlr.2 belowa belowb, fun heq => hlr.2 ?_⟩
      exact (List.cons.inj (List.append_cancel_left heq)).1

/-- The walk comes to what is below the directory in the order of the keys. -/
theorem preorder_eq (hfuel : ∀ k ∈ fs.nodes.keys, k.length ≤ fuel) :
    preorder fs fuel root [] = (fs.below root).mergeSort fun a b => keyLe a.1 b.1 := by
  have hpairwise : (preorder fs fuel root []).Pairwise fun a b => keyLe a.1 b.1 = true ∧ a.1 ≠ b.1 :=
    pairwise_preorder
  have hnodup : ((preorder fs fuel root []).map Prod.fst).Nodup :=
    List.pairwise_map.2 (hpairwise.imp fun h => h.2)
  refine eq_mergeSort nodup_below ?_ (hpairwise.imp fun h => h.1)
  refine (List.perm_ext_iff_of_nodup hnodup.of_map nodup_below.of_map).2 ?_
  rintro ⟨k, node⟩
  rw [mem_below]
  constructor
  · intro hmem
    obtain ⟨below, hne, rfl, hget⟩ := mem_preorder_below hmem
    exact ⟨hne, hget⟩
  · rintro ⟨hne, hget⟩
    have hkey := hfuel (root ++ k) ((fs.nodes.mem_keys_iff _).2 ⟨node, hget⟩)
    rw [List.length_append] at hkey
    have hlength : k.length ≤ fuel := by omega
    exact mem_preorder hlength hne hget

/-- The entries of a directory are recorded one after the other, when the walk of every directory among
them is. -/
theorem visitEntries_eq {inside : Text → Text → Option (Except Err (List Text))}
    {found : Text → List (Key × Node)} (hrel : ∀ name ∈ rel, Plain name)
    {listed : List (Text × Node)} (hlisted : ∀ each ∈ listed, Plain each.1)
    (hinside : ∀ each ∈ listed, each.2 = .directory → inside each.1 (joinKey (rel ++ [each.1])) =
      some ((found each.1).mapM (manifestRecord H))) :
    visitEntries H inside (joinKey rel) listed =
      some ((listed.flatMap fun (name, node) => (rel ++ [name], node) ::
        if node = .directory then found name else []).mapM (manifestRecord H)) := by
  induction listed with
  | nil => rfl
  | cons each listed ih =>
    obtain ⟨name, node⟩ := each
    have hrest := ih (fun each hmem => hlisted each (List.mem_cons_of_mem _ hmem))
      fun each hmem => hinside each (List.mem_cons_of_mem _ hmem)
    have hjoin : PosixPath.join [joinKey rel, name] = joinKey (rel ++ [name]) :=
      PosixPath.join_render hrel (hlisted _ List.mem_cons_self)
    rw [List.flatMap_cons, List.cons_append, List.mapM_cons, List.mapM_append]
    unfold visitEntries
    cases node with
    | directory =>
      have hown := hinside (name, .directory) List.mem_cons_self rfl
      simp only [hjoin, hown, hrest, if_true]
      rcases (found name).mapM (manifestRecord H) with e | below
      · rfl
      · rcases (List.flatMap _ listed).mapM (manifestRecord H) with e | records <;> rfl
    | file bytes =>
      simp only [hjoin, hrest, reduceCtorEq, if_false, List.mapM_nil]
      rcases (List.flatMap _ listed).mapM (manifestRecord H) with e | records <;> rfl
    | other => rfl

theorem visit_eq (hnamed : fs.Named) (hrel : ∀ name ∈ rel, Plain name)
    (hfuel : ∀ below, fs.get (directoryPath ++ below) ≠ none → below.length < fuel) (hpos : 0 < fuel) :
    visit H fs fuel directoryPath (joinKey rel) =
      some ((preorder fs fuel directoryPath rel).mapM (manifestRecord H)) := by
  induction fuel generalizing directoryPath rel with
  | zero => exact absurd hpos (Nat.lt_irrefl 0)
  | succ fuel ih =>
    have hget : ∀ each ∈ (readdir fs directoryPath).mergeSort fun left right => textLe left.1 right.1,
        fs.get (directoryPath ++ [each.1]) = some each.2 := fun each hmem =>
      mem_readdir.1 ((List.mergeSort_perm _ _).subset hmem)
    have hplain : ∀ each ∈ (readdir fs directoryPath).mergeSort fun left right => textLe left.1 right.1,
        Plain each.1 := fun each hmem =>
      hnamed _ ((fs.nodes.mem_keys_iff _).2 ⟨_, hget each hmem⟩) each.1 (by simp)
    refine @visitEntries_eq H rel _ (fun name => preorder fs fuel (directoryPath ++ [name]) (rel ++ [name]))
      hrel _ hplain fun each hmem hdir => ?_
    refine ih (fun name hname => ?_) (fun below hbelow => ?_) ?_
    · rcases List.mem_append.1 hname with hname | hname
      · exact hrel name hname
      · exact List.mem_singleton.1 hname ▸ hplain each hmem
    · have := hfuel (each.1 :: below) (by simpa using hbelow)
      rw [List.length_cons] at this
      omega
    · have := hfuel [each.1] (by rw [hget each hmem]; exact Option.some_ne_none _)
      rw [List.length_singleton] at this
      omega

/-- The recursive walk reads what sorting all paths below the directory gives. -/
theorem visit_reads (hnamed : fs.Named) (root : Key) :
    ∃ n, ∀ fuel ≥ n, visit H fs fuel root [] = some (readTreeManifestRecords H fs root) := by
  obtain ⟨depth, hdepth⟩ : ∃ depth, ∀ k ∈ fs.nodes.keys, k.length ≤ depth :=
    ⟨(fs.nodes.keys.map List.length).sum, fun k hk =>
      List.le_sum_of_mem (List.mem_map_of_mem hk)⟩
  refine ⟨depth + 1, fun fuel hfuel => ?_⟩
  have hall : ∀ k ∈ fs.nodes.keys, k.length ≤ fuel := fun k hk => (hdepth k hk).trans (by omega)
  unfold readTreeManifestRecords
  rw [← preorder_eq hall]
  have hrel : ∀ name ∈ ([] : Key), Plain name := by simp
  refine visit_eq hnamed hrel (fun below hbelow => ?_) (by omega)
  obtain ⟨node, hget⟩ := Option.ne_none_iff_exists'.1 hbelow
  have := hdepth _ ((fs.nodes.mem_keys_iff _).2 ⟨node, hget⟩)
  rw [List.length_append] at this
  omega

end Walk

/-! ## Capturing -/

theorem relativeKey_member (cwd : List Text) {rootStorageKey : Text} (hroot : rootStorageKey ≠ [])
    (hk : k ≠ [] ∧ ∀ name ∈ k, Plain name) :
    relativeKey cwd rootStorageKey (memberKey rootStorageKey k) = .ok (joinKey k) := by
  have hrelative : PosixPath.relative cwd rootStorageKey (memberKey rootStorageKey k) = joinKey k :=
    PosixPath.relative_below cwd hroot hk.2 hk.1
  obtain ⟨name, rest, rfl⟩ := List.exists_cons_of_ne_nil hk.1
  have hname := hk.2 name List.mem_cons_self
  have hsegments : PosixPath.segments (joinKey (name :: rest)) = name :: rest :=
    PosixPath.segments_render (fun name hmem => (hk.2 name hmem).2.2.2) hk.1
  -- a path that goes up begins with two dots
  have hnot : ∀ other : Text, PosixPath.segments other = PosixPath.dotDot :: (PosixPath.segments other).tail →
      joinKey (name :: rest) ≠ other := by
    rintro other hother rfl
    rw [hsegments] at hother
    exact hname.2.2.1 (List.cons.inj hother).1
  have hempty : joinKey (name :: rest) ≠ [] := by
    intro hnil
    rw [hnil] at hsegments
    cases hsegments
    exact hname.1 rfl
  have hup : ¬ "../".toList <+: joinKey (name :: rest) := by
    rintro ⟨more, heq⟩
    have hsplit : PosixPath.segments ("../".toList ++ more) =
        PosixPath.dotDot :: PosixPath.segments more :=
      List.splitOn_append_cons_self PosixPath.dotDot more
    refine hnot _ ?_ heq.symm
    rw [hsplit]
    rfl
  have hdots : joinKey (name :: rest) ≠ "..".toList := hnot _ (by decide)
  unfold relativeKey
  simp only [hrelative, hempty, hdots, hup, decide_false, Bool.or_self, Bool.false_eq_true, if_false]

theorem mapM_ok {α β : Type} {f : α → Except Err β} {g : α → β} {xs : List α}
    (h : ∀ x ∈ xs, f x = .ok (g x)) : xs.mapM f = .ok (xs.map g) := by
  induction xs with
  | nil => rfl
  | cons x xs ih =>
    rw [List.mapM_cons, h x List.mem_cons_self, ih fun y hy => h y (List.mem_cons_of_mem _ hy)]
    rfl

theorem captureFile_eq (cwd : List Text) {rootStorageKey : Text} (hroot : rootStorageKey ≠ [])
    {file : StoredFile} {item : Item} (hk : k ≠ [] ∧ ∀ name ∈ k, Plain name)
    (h : file.Records H fs rootStorageKey k item) :
    ∃ checksum, captureFile H cwd fs rootStorageKey file = .ok (item.captured k, file.id, checksum) := by
  obtain ⟨hkey, checksum, rfl, hchecksum⟩ := h
  have hrelative := relativeKey_member cwd hroot hk
  rw [← hkey] at hrelative
  refine ⟨checksum, ?_⟩
  unfold captureFile
  rcases hchecksum with hsome | ⟨hnone, hdisk⟩
  · rw [hsome, hrelative]
    rfl
  · rw [hnone, hdisk, hrelative]
    rfl

/-- From the rows of a tree the digest of its entries is captured. -/
theorem captureFolderTreeManifest_eq (cwd : List Text) {rootStorageKey : Text} (hroot : rootStorageKey ≠ [])
    {folderStorageKeys : List Text} {files : List StoredFile}
    (hrows : tree.RecordedBy H fs rootStorageKey folderStorageKeys files) :
    ∃ manifest entries, captureFolderTreeManifest H cwd fs rootStorageKey folderStorageKeys files =
      .ok manifest ∧ entries.Perm tree.entries ∧
      manifest.digest = calculateCapturedTreeManifestDigest H entries := by
  obtain ⟨directories, listed, hperm, rfl, hfiles⟩ := hrows
  have hplain : ∀ entry ∈ directories.map (·, Item.directory) ++ listed,
      entry.1 ≠ [] ∧ ∀ name ∈ entry.1, Plain name := fun entry hmem =>
    tree.named entry.1 (List.mem_map_of_mem (hperm.subset hmem))
  have hdirectories : (directories.map (memberKey rootStorageKey)).mapM (relativeKey cwd rootStorageKey) =
      .ok (directories.map joinKey) := by
    rw [List.mapM_map]
    refine mapM_ok fun k hk => relativeKey_member cwd hroot (hplain (k, .directory) ?_)
    exact List.mem_append_left _ (List.mem_map_of_mem hk)
  have hcaptured : ∃ captured, files.mapM (captureFile H cwd fs rootStorageKey) = .ok captured ∧
      captured.map Prod.fst = listed.map fun entry => entry.2.captured entry.1 := by
    have hlisted : ∀ entry ∈ listed, entry.1 ≠ [] ∧ ∀ name ∈ entry.1, Plain name := fun entry hmem =>
      hplain entry (List.mem_append_right _ hmem)
    clear hperm hplain
    induction hfiles with
    | nil => exact ⟨[], rfl, rfl⟩
    | @cons file entry files listed hrecords _ ih =>
      obtain ⟨captured, hmap, hfst⟩ := ih fun entry hmem => hlisted entry (List.mem_cons_of_mem _ hmem)
      obtain ⟨checksum, hfile⟩ := captureFile_eq cwd hroot (hlisted entry List.mem_cons_self) hrecords
      refine ⟨(entry.2.captured entry.1, file.id, checksum) :: captured, ?_, ?_⟩
      · rw [List.mapM_cons, hfile, hmap]
        rfl
      · rw [List.map_cons, List.map_cons, hfst]
  obtain ⟨captured, hmap, hfst⟩ := hcaptured
  let entries := (directories.map joinKey).map .directory ++ captured.map Prod.fst
  refine ⟨⟨calculateCapturedTreeManifestDigest H entries, .ofList (captured.map Prod.snd)⟩, entries,
    ?_, ?_, rfl⟩
  · unfold captureFolderTreeManifest
    rw [hdirectories, hmap]
    rfl
  · have := hperm.map fun entry => entry.2.captured entry.1
    rw [List.map_append, List.map_map] at this
    show ((directories.map joinKey).map CapturedEntry.directory ++ _).Perm _
    rw [hfst, List.map_map]
    exact this

end Staaash.Journal
