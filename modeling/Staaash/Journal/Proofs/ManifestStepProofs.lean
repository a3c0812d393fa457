import Staaash.Journal.Proofs.CalmProofs
import Staaash.Journal.Proofs.CommitSafetyProofs
import Staaash.Journal.Proofs.ManifestProofs

/-!
# Proofs: a step on a folder is applied to the recorded tree

A rename, or a delete that is not of the mutation's own quarantine, leaves the disk alone unless the
folder holds the tree whose digest was captured, and goes through where nothing else is in its way.
-/

namespace Staaash.Journal

open Staaash.Library (OrderedMap Proc Stop)
open Staaash.Library.Proc

variable {H : Host} {m : Mutation} {step : Step} {fs after : Fs} {source target k : Key} {digest : Text}
  {tree : Tree} {entries : List CapturedEntry} {lease : Lease} {status : Status} {memory : List Nat}

theorem stable_true : Stable fun _ => True := ⟨fun _ _ => trivial, fun _ _ _ => trivial, fun _ _ _ => trivial⟩

theorem Step.Fingerprint.truthy_digest (h : step.Fingerprint digest) (hne : digest ≠ []) :
    truthy step.treeManifestDigest = some digest := by
  rw [h.digest]
  simp [truthy, hne]

/-- With a captured digest as its fingerprint, a step expects a directory that matches the digest. -/
theorem checkExpectedNode_iff (h : step.Fingerprint digest) (hne : digest ≠ []) :
    (checkExpectedNode H fs k step).isOk = true ↔
      fs.get k = some .directory ∧ treeManifestMatches H fs k digest = .ok true := by
  unfold checkExpectedNode
  rcases hget : fs.get k with _ | node
  · simp [Except.isOk, Except.toBool]
  · have htype := h.type
    have hsize := h.size
    cases node with
    | file bytes => simp [htype, Node.type, bind, Except.bind, Except.isOk, Except.toBool]
    | other => simp [htype, Node.type, bind, Except.bind, Except.isOk, Except.toBool]
    | directory =>
      simp only [htype, hsize, h.checksum, assertExpectedNodeChecksum, assertExpectedTreeManifest,
        h.truthy_digest hne, Node.type]
      rcases hmatch : treeManifestMatches H fs k digest with e | same
      · simp [truthy, bind, Except.bind, Except.isOk, Except.toBool]
      · cases same <;> simp [truthy, bind, Except.bind, Except.isOk, Except.toBool]

theorem captured_ne_nil (H : Host) (entries : List CapturedEntry) :
    calculateCapturedTreeManifestDigest H entries ≠ [] := by
  unfold calculateCapturedTreeManifestDigest hashTreeManifestRecords
  simp

section Steps

variable (hspace : ∀ bytes, ' ' ∉ H.sha256 bytes) (hfree : Function.Injective H.sha256)
  (hnamed : fs.Named) (hperm : entries.Perm tree.entries)
  (hdigest : step.Fingerprint (calculateCapturedTreeManifestDigest H entries))

include hspace hfree hnamed hperm hdigest

theorem checkExpectedNode_iff_holds :
    (checkExpectedNode H fs k step).isOk = true ↔ fs.Holds H k tree := by
  rw [checkExpectedNode_iff hdigest (captured_ne_nil H entries)]
  constructor
  · rintro ⟨hroot, hmatch⟩
    exact (treeManifestMatches_iff hspace hfree hnamed hroot hperm).1 hmatch
  · intro hholds
    exact ⟨hholds.1, (treeManifestMatches_iff hspace hfree hnamed hholds.1 hperm).2 hholds⟩

/-- Where the folder holds another tree, and so does the one it may be at by now, a rename is refused and
leaves the disk alone. -/
theorem rename_refused (hwork : step.work = some (.rename source target)) (hnot : ¬ fs.Holds H source tree)
    (hmoved : fs.get source = none → ¬ fs.Holds H target tree) :
    Triple (fun w => w.fs = fs) (applyFilesystemStep H m step (assertLease lease)) (fun _ _ => False)
      fun _ w => w.fs = fs := by
  have haction := (Step.work_eq_rename hwork).1
  have hready : ∀ work, step.work = some work → ¬ work.Ready H step fs := by
    rintro work hw hr
    cases hwork.symm.trans hw
    exact hnot ((checkExpectedNode_iff_holds hspace hfree hnamed hperm hdigest).1 hr.2.2.2.2)
  have heffect : effectOf H step fs = none := by
    unfold effectOf
    rw [hwork]
    have hdone : ¬ Work.Done H step fs (.rename source target) := fun hd =>
      hmoved hd.2.2.1 ((checkExpectedNode_iff_holds hspace hfree hnamed hperm hdigest).1 hd.2.2.2.2)
    simp only [hready _ hwork, hdone, if_false]
  have hallow : Allows (fun _ => True) .forward H step fs := ⟨fun _ _ _ _ _ => trivial, fun _ _ _ _ _ _ _ => trivial⟩
  unfold applyFilesystemStep
  rw [haction]
  refine (triple_applyRename haction stable_true (leaseCheck_assertLease lease) hallow).weaken
    (fun w hw => ⟨trivial, hw⟩) (fun _ w hw => ?_) fun _ w hw => ?_
  · rw [heffect] at hw
    cases hw.2
  · rcases hw.2 with heq | ⟨work, hw, hr, -⟩ | hsome
    · exact heq
    · exact absurd hr (hready work hw)
    · rw [heffect] at hsome
      cases hsome

/-- Where the folder holds the recorded tree and nothing else is in the way, the rename goes through. -/
theorem rename_applied (hwork : step.work = some (.rename source target))
    (hclear : RenameClear fs source target after) (hholds : fs.Holds H source tree) :
    Total (Calm lease status memory fs) (applyFilesystemStep H m step (assertLease lease))
      fun _ => Calm lease status memory after := by
  refine total_applyFilesystemStep_forward ?_
  have hready : Work.Ready H step fs (.rename source target) := by
    refine ⟨hclear.safeSource, hclear.safeTarget, ?_, hclear.free, ?_⟩
    · rw [hholds.1]
      exact Option.some_ne_none _
    · exact (checkExpectedNode_iff_holds hspace hfree hnamed hperm hdigest).2 hholds
  rw [effectOf_of_ready hwork hready]
  exact hclear.moved

theorem deletable_iff_holds {node : Node} (haction : step.action = .deleteTree)
    (hnode : fs.get k = some node) : Deletable H step false fs k node ↔ fs.Holds H k tree := by
  have htruthy := hdigest.truthy_digest (captured_ne_nil H entries)
  unfold Deletable
  rw [haction]
  constructor
  · rintro ⟨rfl, digest, hsome, same, hsame, hallowed⟩
    cases htruthy.symm.trans hsome
    rw [Bool.or_false] at hallowed
    rw [hallowed] at hsame
    exact (treeManifestMatches_iff hspace hfree hnamed hnode hperm).1 hsame
  · intro hholds
    cases hnode.symm.trans hholds.1
    exact ⟨rfl, _, htruthy, true, (treeManifestMatches_iff hspace hfree hnamed hnode hperm).2 hholds, rfl⟩

variable (haction : step.action = .deleteTree) {key : Text} (hvictim : step.victim = some (key, target))

include haction

omit hspace hfree hnamed hperm hdigest in
/-- A delete looks up first whether it may remove what is left of the mutation's own quarantine. -/
theorem triple_deleteTree {owned : Bool} (howned : isOwnedQuarantineTreeDelete m memory step = .ok owned)
    {P : World → Prop} {Q : Unit → World → Prop} {E : Stop Err → World → Prop}
    (hmemory : ∀ w, P w → w.memory = memory)
    (h : Triple P (applyDelete H step (assertLease lease) owned) Q E) :
    Triple P (applyFilesystemStep H m step (assertLease lease)) Q E := by
  unfold applyFilesystemStep
  rw [haction]
  refine Triple.bind (Q := fun s w => P w ∧ s = w) (triple_get fun w hw => ⟨hw, rfl⟩) fun s => ?_
  rintro w ⟨hw, rfl⟩
  rw [hmemory _ hw, howned]
  exact h s hw

include hvictim

/-- Where the folder holds another tree, a delete is refused and leaves the disk alone. -/
theorem delete_refused (howned : isOwnedQuarantineTreeDelete m memory step = .ok false)
    (htarget : fs.get target ≠ none) (hnot : ¬ fs.Holds H target tree) :
    Triple (fun w => w.fs = fs ∧ w.memory = memory) (applyFilesystemStep H m step (assertLease lease))
      (fun _ _ => False) fun _ w => w.fs = fs := by
  have hdeletable : ∀ node, fs.get target = some node → ¬ Deletable H step false fs target node :=
    fun node hnode hd =>
      hnot ((deletable_iff_holds hspace hfree hnamed hperm hdigest haction hnode).1 hd)
  have hgone : ∀ gone, ¬ Gone H step false fs target gone := by
    rintro gone (⟨hnone, -⟩ | ⟨node, hnode, hd, -⟩)
    · exact htarget hnone
    · exact hdeletable node hnode hd
  have hcleanup : isCleanup step.action = true := by rw [haction]; rfl
  refine triple_deleteTree haction howned (fun w hw => hw.2) ?_
  refine (triple_applyDelete (A := fun _ => True) (X := fs) hcleanup stable_true
    (leaseCheck_assertLease lease) fun _ _ _ _ _ => trivial).weaken (fun w hw => ⟨trivial, hw.1⟩)
    (fun _ w hw => ?_) fun _ w hw => ?_
  · obtain ⟨key', target', hv, -, ⟨gone, hg, -⟩, -⟩ := hw.2
    cases hvictim.symm.trans hv
    exact hgone gone hg
  · rcases hw.2 with heq | ⟨key', target', hv, ⟨node, hnode, hd, -⟩ | ⟨gone, -, hg, -⟩⟩
    · exact heq
    · cases hvictim.symm.trans hv
      exact absurd hd (hdeletable node hnode)
    · cases hvictim.symm.trans hv
      exact absurd hg (hgone gone)

/-- Where the folder holds the recorded tree and nothing else is in the way, the delete goes through. -/
theorem delete_applied (howned : isOwnedQuarantineTreeDelete m memory step = .ok false)
    (hclear : DeleteClear fs key target after) (hholds : fs.Holds H target tree) :
    Total (Calm lease status memory fs) (applyFilesystemStep H m step (assertLease lease))
      fun _ => Calm lease status memory after := by
  have hcleanup : isCleanup step.action = true := by rw [haction]; rfl
  refine triple_deleteTree haction howned (fun w hw => hw.memory) (total_applyDelete hcleanup ?_)
  refine ⟨key, target, hvictim, hclear.safe, ⟨_, .inr ⟨.directory, hholds.1, ?_, rfl⟩, hclear.pruned⟩,
    hclear.closed⟩
  exact (deletable_iff_holds hspace hfree hnamed hperm hdigest haction hholds.1).2 hholds

end Steps

theorem calculateCapturedTreeManifestDigest_perm {listed : List CapturedEntry}
    (hperm : entries.Perm tree.entries) (hlisted : listed.Perm tree.entries) :
    calculateCapturedTreeManifestDigest H listed = calculateCapturedTreeManifestDigest H entries := by
  unfold calculateCapturedTreeManifestDigest
  rw [Tree.capturedRecords_eq hlisted, Tree.capturedRecords_eq hperm]

/-- The walk through a folder that holds a tree, and the rows of the tree in any order, come to one digest;
two trees never give the hash the same to read. So a step that carries the digest renames or deletes the
recorded tree and no other, unless it deletes what is left of a tree in the mutation's own quarantine. -/
theorem manifests_tell_trees_apart (H : Host) (hspace : ∀ bytes, ' ' ∉ H.sha256 bytes)
    (hfree : Function.Injective H.sha256) (fs : Fs) (hnamed : fs.Named) (tree : Tree)
    (entries : List CapturedEntry) (hperm : entries.Perm tree.entries) :
    (∀ root, fs.Holds H root tree → ∃ n, ∀ fuel ≥ n, ∃ records,
      visit H fs fuel root [] = some (.ok records) ∧
        hashTreeManifestRecords H records = calculateCapturedTreeManifestDigest H entries) ∧
    (∀ (other : Tree) (listed : List CapturedEntry), listed.Perm other.entries →
      manifestInput (capturedRecords listed) = manifestInput (capturedRecords entries) → other.Same tree) ∧
    (∀ cwd rootStorageKey folderStorageKeys files, rootStorageKey ≠ [] →
      tree.RecordedBy H fs rootStorageKey folderStorageKeys files →
      ∃ manifest, captureFolderTreeManifest H cwd fs rootStorageKey folderStorageKeys files = .ok manifest ∧
        manifest.digest = calculateCapturedTreeManifestDigest H entries) ∧
    ∀ (m : Mutation) (step : Step) (lease : Lease) (memory : List Nat),
      step.Fingerprint (calculateCapturedTreeManifestDigest H entries) →
      (∀ source target, step.work = some (.rename source target) →
        (¬ fs.Holds H source tree → (fs.get source = none → ¬ fs.Holds H target tree) →
          Triple (fun w => w.fs = fs) (applyFilesystemStep H m step (assertLease lease))
            (fun _ _ => False) fun _ w => w.fs = fs) ∧
        ∀ after status, RenameClear fs source target after → fs.Holds H source tree →
          Total (Calm lease status memory fs) (applyFilesystemStep H m step (assertLease lease))
            fun _ => Calm lease status memory after) ∧
      ∀ key target, step.action = .deleteTree → step.victim = some (key, target) →
        isOwnedQuarantineTreeDelete m memory step = .ok false →
        (fs.get target ≠ none → ¬ fs.Holds H target tree →
          Triple (fun w => w.fs = fs ∧ w.memory = memory) (applyFilesystemStep H m step (assertLease lease))
            (fun _ _ => False) fun _ w => w.fs = fs) ∧
        ∀ after status, DeleteClear fs key target after → fs.Holds H target tree →
          Total (Calm lease status memory fs) (applyFilesystemStep H m step (assertLease lease))
            fun _ => Calm lease status memory after := by
  refine ⟨fun root hholds => ?_, fun other listed hlisted hinput => ?_, ?_, ?_⟩
  · obtain ⟨n, hn⟩ : ∃ n, ∀ fuel ≥ n, visit H fs fuel root [] = some (readTreeManifestRecords H fs root) :=
      visit_reads hnamed root
    refine ⟨n, fun fuel hfuel => ⟨capturedRecords entries, ?_, rfl⟩⟩
    rw [hn fuel hfuel, hholds.readTreeManifestRecords_eq hperm]
  · exact Tree.same_of_manifestInput_eq hlisted hperm hinput
  · intro cwd rootStorageKey folderStorageKeys files hroot hrows
    obtain ⟨manifest, listed, hmanifest, hlisted, hdigest⟩ := captureFolderTreeManifest_eq cwd hroot hrows
    exact ⟨manifest, hmanifest, hdigest.trans (calculateCapturedTreeManifestDigest_perm hperm hlisted)⟩
  · intro m step lease memory hdigest
    refine ⟨fun source target hwork => ⟨?_, ?_⟩, fun key target haction hvictim howned => ⟨?_, ?_⟩⟩
    · exact fun hnot hmoved => rename_refused hspace hfree hnamed hperm hdigest hwork hnot hmoved
    · exact fun after status hclear hholds =>
        rename_applied hspace hfree hnamed hperm hdigest hwork hclear hholds
    · exact fun htarget hnot =>
        delete_refused hspace hfree hnamed hperm hdigest haction hvictim howned htarget hnot
    · exact fun after status hclear hholds =>
        delete_applied hspace hfree hnamed hperm hdigest haction hvictim howned hclear hholds

/-! ## Renaming a folder -/

/-- A host that knows the empty file; no two files have the same digits. -/
def hexHost : Host where
  sha256 bytes :=
    if bytes = [] then emptyChecksum
    else '0' :: bytes.flatMap fun byte => [Nat.digitChar (byte.toNat / 16), Nat.digitChar (byte.toNat % 16)]
  directorySize _ := 0

theorem digitChar_inj : ∀ m < 16, ∀ n < 16, Nat.digitChar m = Nat.digitChar n → m = n := by decide

theorem hexHost_spaceless (bytes : List UInt8) : ' ' ∉ hexHost.sha256 bytes := by
  have hdigit : ∀ n < 16, ' ' ≠ Nat.digitChar n := by decide
  show ' ' ∉ if bytes = [] then emptyChecksum else _
  split
  · decide
  · rw [List.mem_cons, List.mem_flatMap]
    rintro (h | ⟨byte, -, h⟩)
    · cases h
    · have hbyte := byte.toNat_lt
      simp only [List.mem_cons, List.not_mem_nil, or_false] at h
      rcases h with h | h
      · exact hdigit _ (by omega) h
      · exact hdigit _ (by omega) h

theorem hexHost_injective : Function.Injective hexHost.sha256 := by
  have hdigits : ∀ as bs : List UInt8,
      (as.flatMap fun byte => [Nat.digitChar (byte.toNat / 16), Nat.digitChar (byte.toNat % 16)]) =
        (bs.flatMap fun byte => [Nat.digitChar (byte.toNat / 16), Nat.digitChar (byte.toNat % 16)]) →
      as = bs := by
    intro as
    induction as with
    | nil =>
      rintro (_ | ⟨b, bs⟩) h
      · rfl
      · cases h
    | cons a as ih =>
      rintro (_ | ⟨b, bs⟩) h
      · cases h
      · simp only [List.flatMap_cons, List.cons_append, List.nil_append, List.cons.injEq] at h
        have ha := a.toNat_lt
        have hb := b.toNat_lt
        have hhigh := digitChar_inj _ (by omega) _ (by omega) h.1
        have hlow := digitChar_inj _ (by omega) _ (by omega) h.2.1
        rw [UInt8.toNat_inj.1 (show a.toNat = b.toNat by omega), ih bs h.2.2]
  have hmark : ∀ rest, emptyChecksum ≠ '0' :: rest := fun rest h => by cases h
  intro as bs h
  change (if as = [] then emptyChecksum else _) = (if bs = [] then emptyChecksum else _) at h
  split at h
  · rename_i has
    split at h
    · rename_i hbs
      exact has.trans hbs.symm
    · exact absurd h (hmark _)
  · split at h
    · exact absurd h.symm (hmark _)
    · exact hdigits as bs (List.cons.inj h).2

/-- A folder `a` with a file `x` in it, and beside it an empty file `a.b`, which the order of whole keys has before
`a/x`. -/
def nestedTree : Tree where
  items := ⟨[(["a.b".toList], .file 0 emptyChecksum), (["a".toList], .directory),
    (["a".toList, "x".toList], .file 1 (hexHost.sha256 [1]))], by decide⟩
  named := by decide
  closed := by decide
  spaceless := by
    intro k size checksum h
    have hmem := (OrderedMap.get_eq_some_iff _ _ _).1 h
    simp only [List.mem_cons, List.not_mem_nil, or_false, Prod.mk.injEq, Item.file.injEq, reduceCtorEq, and_false,
      false_or] at hmem
    obtain ⟨-, -, rfl⟩ | ⟨-, -, rfl⟩ := hmem
    · decide
    · exact hexHost_spaceless [1]

/-- The same, with `x` beside `a` too. -/
def flatTree : Tree where
  items := ⟨[(["a.b".toList], .file 0 emptyChecksum), (["a".toList], .directory),
    (["x".toList], .file 1 (hexHost.sha256 [1]))], by decide⟩
  named := by decide
  closed := by decide
  spaceless := by
    intro k size checksum h
    have hmem := (OrderedMap.get_eq_some_iff _ _ _).1 h
    simp only [List.mem_cons, List.not_mem_nil, or_false, Prod.mk.injEq, Item.file.injEq, reduceCtorEq, and_false,
      false_or] at hmem
    obtain ⟨-, -, rfl⟩ | ⟨-, -, rfl⟩ := hmem
    · decide
    · exact hexHost_spaceless [1]

/-- The entries as the rows give them: the folder first, then the files. -/
def nestedEntries : List CapturedEntry :=
  [.directory "a".toList, .file "a/x".toList 1 (hexHost.sha256 [1]), .file "a.b".toList 0 emptyChecksum]

theorem nestedEntries_perm : nestedEntries.Perm nestedTree.entries := by decide +kernel

def nestedDigest : Text := calculateCapturedTreeManifestDigest hexHost nestedEntries

def nestedAt (name : String) : Fs where
  nodes := ⟨[([name.toList], .directory), ([name.toList, "a.b".toList], .file []),
    ([name.toList, "a".toList], .directory), ([name.toList, "a".toList, "x".toList], .file [1])], by simp⟩
  rooted := by simp [OrderedMap.keys]
  closed := by simp [OrderedMap.keys, OrderedMap.get, dirname]

theorem holds_nestedTree : (nestedAt "drafts").Holds hexHost ["drafts".toList] nestedTree := by
  refine ⟨rfl, fun k hk => ?_⟩
  by_cases hdotted : k = ["a.b".toList]
  · rw [hdotted]
    decide +kernel
  · by_cases hfolder : k = ["a".toList]
    · rw [hfolder]
      decide +kernel
    · by_cases hinner : k = ["a".toList, "x".toList]
      · rw [hinner]
        decide +kernel
      · have hdisk : (nestedAt "drafts").get (["drafts".toList] ++ k) = none := by
          simpa [nestedAt, Fs.get, OrderedMap.get, Ne.symm hk] using
            ⟨Ne.symm hdotted, Ne.symm hfolder, Ne.symm hinner⟩
        have htree : nestedTree.items.get k = none := by
          simpa [nestedTree, OrderedMap.get] using ⟨Ne.symm hdotted, Ne.symm hfolder, Ne.symm hinner⟩
        rw [hdisk, htree]
        rfl

/-- The rows of the folder and of its files; the one of `a.b` has no checksum yet. -/
def nestedFolders : List Text := ["drafts/a".toList]

def nestedFiles : List StoredFile :=
  [⟨"1", "drafts/a/x".toList, 1, some (hexHost.sha256 [1])⟩, ⟨"2", "drafts/a.b".toList, 0, none⟩]

theorem recordedBy_nestedTree :
    nestedTree.RecordedBy hexHost (nestedAt "drafts") "drafts".toList nestedFolders nestedFiles := by
  refine ⟨[["a".toList]], [(["a".toList, "x".toList], .file 1 (hexHost.sha256 [1])),
    (["a.b".toList], .file 0 emptyChecksum)], by decide +kernel, by decide, ?_⟩
  refine .cons ⟨by decide, _, rfl, .inl rfl⟩ (.cons ⟨by decide, _, rfl, .inr ⟨rfl, ?_⟩⟩ .nil)
  decide +kernel

/-- The folder `drafts` becomes `notes`. -/
def folderStep : Step where
  id := 1
  action := .rename
  sourceKey := some "drafts".toList
  targetKey := some "notes".toList
  expectedNodeType := some .directory
  expectedSizeBytes := none
  expectedChecksum := none
  treeManifestDigest := some nestedDigest

def folderRename : Mutation where
  kind := .folderRename
  parentId := none
  steps := [folderStep]
  distinct := by simp

/-- The mutation right after its claim. -/
def claimedFolderRename : World :=
  let w := prepared (nestedAt "drafts")
  { w with row := { w.row with status := .running, leaseOwner := some ['w'], leaseToken := 1,
                               leaseExpiresAt := some 30000 } }

theorem manifests_tell_trees_apart_nestedFolder :
    (∃ n, ∀ fuel ≥ n, ∃ records,
      visit hexHost (nestedAt "drafts") fuel ["drafts".toList] [] = some (.ok records) ∧
        hashTreeManifestRecords hexHost records = nestedDigest) ∧
      manifestInput (capturedRecords flatTree.entries) ≠ manifestInput (capturedRecords nestedEntries) ∧
      (∃ manifest, captureFolderTreeManifest hexHost [] (nestedAt "drafts") "drafts".toList nestedFolders nestedFiles =
        .ok manifest ∧ manifest.digest = nestedDigest) ∧
      ∃ w, applyFilesystemStep hexHost folderRename folderStep (assertLease ⟨['w'], 1⟩)
        claimedFolderRename = .ok () w ∧ w.fs = nestedAt "notes" := by
  have hnamed : (nestedAt "drafts").Named := by
    show ∀ k ∈ [["drafts".toList], ["drafts".toList, "a.b".toList], ["drafts".toList, "a".toList],
      ["drafts".toList, "a".toList, "x".toList]], _
    decide
  obtain ⟨hagree, hapart, hcaptured, hsteps⟩ := manifests_tell_trees_apart hexHost hexHost_spaceless
    hexHost_injective (nestedAt "drafts") hnamed nestedTree nestedEntries nestedEntries_perm
  refine ⟨hagree _ holds_nestedTree, fun hinput => ?_, hcaptured [] _ _ _ (by decide) recordedBy_nestedTree, ?_⟩
  · have hsame := hapart flatTree flatTree.entries (.refl _) hinput ["x".toList]
    revert hsame
    decide
  · have hrename := (hsteps folderRename folderStep ⟨['w'], 1⟩ [] ⟨rfl, rfl, rfl, rfl⟩).1 ["drafts".toList]
      ["notes".toList] (by decide +kernel)
    have hcalm := hrename.2 (nestedAt "notes") .running ⟨by decide, by decide, by decide, by decide +kernel⟩
      holds_nestedTree claimedFolderRename ⟨rfl, rfl, rfl, rfl, rfl, rfl⟩
    revert hcalm
    cases applyFilesystemStep hexHost folderRename folderStep (assertLease ⟨['w'], 1⟩) claimedFolderRename with
    | ok a w => exact fun hcalm => ⟨w, rfl, hcalm.fs⟩
    | error e w => exact fun hcalm => hcalm.elim

/-! ## An interrupted delete -/

/-- An empty file `a` in a folder. -/
def album : Tree where
  items := ⟨[(["a".toList], .file 0 emptyChecksum)], by decide⟩
  named := by decide
  closed := by decide
  spaceless := by
    intro k size checksum h
    have hmem := (OrderedMap.get_eq_some_iff _ _ _).1 h
    simp only [List.mem_cons, List.not_mem_nil, or_false, Prod.mk.injEq, Item.file.injEq] at hmem
    obtain ⟨-, -, rfl⟩ := hmem
    decide

def albumAt : Fs where
  nodes := ⟨[(["album".toList], .directory), (["album".toList, "a".toList], .file [])], by decide⟩
  rooted := by decide
  closed := by decide

def quarantineStep : Step where
  id := 1
  action := .rename
  sourceKey := some "album".toList
  targetKey := some "tmp/quarantine/m/album".toList
  expectedNodeType := some .directory
  expectedSizeBytes := none
  expectedChecksum := none
  treeManifestDigest := some (calculateCapturedTreeManifestDigest hexHost album.entries)

def drainStep : Step where
  id := 2
  action := .deleteTree
  sourceKey := none
  targetKey := some "tmp/quarantine/m/album".toList
  expectedNodeType := some .directory
  expectedSizeBytes := none
  expectedChecksum := none
  treeManifestDigest := some (calculateCapturedTreeManifestDigest hexHost album.entries)

/-- The album is moved into the mutation's quarantine and deleted there. -/
def folderPurge : Mutation where
  kind := .folderPurge
  parentId := none
  steps := [quarantineStep, drainStep]
  distinct := by decide

def quarantined : Key := ["tmp".toList, "quarantine".toList, "m".toList, "album".toList]

/-- The removal of the album is cut off once `a` is gone. -/
def interrupted : Attempt := attempt 0 (faultAt 38 (.crashed (.partly [quarantined])))

def recovery : Attempt where
  cleanupOnly := true
  leaseOwner := ['w']
  wait := 60000
  schedule := []

theorem interrupted_delete_finishes :
    drainStep.Fingerprint (calculateCapturedTreeManifestDigest hexHost album.entries) ∧
      ¬ (run hexHost folderPurge (prepared albumAt) [interrupted]).fs.Holds hexHost quarantined album ∧
      (run hexHost folderPurge (prepared albumAt) [interrupted]).fs.get quarantined = some .directory ∧
      2 ∈ (run hexHost folderPurge (prepared albumAt) [interrupted, recovery]).applied ∧
      (run hexHost folderPurge (prepared albumAt) [interrupted, recovery]).fs.get quarantined = none := by
  refine ⟨⟨rfl, rfl, rfl, rfl⟩, fun h => ?_, by decide +kernel, by decide +kernel, by decide +kernel⟩
  have hlost : (run hexHost folderPurge (prepared albumAt) [interrupted]).fs.get
      (quarantined ++ ["a".toList]) = none := by decide +kernel
  have hkept := h.2 ["a".toList] (by simp)
  rw [hlost] at hkept
  revert hkept
  decide

end Staaash.Journal
