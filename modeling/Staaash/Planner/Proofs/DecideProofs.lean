import Staaash.Planner.Proofs.ViewProofs

/-!
# Proofs: what a decision about one path can be

`Outcome` lists every way `decide` can answer with an action, with the guards that were passed on
the way. Results about plans go by cases on it and never unfold `decide` again.
-/

namespace Staaash.Planner

variable {v : View} {cell : Cell} {dirty : BySide} {needsHash : List LocalFile}

/-- The actions a decision about `cell` can give, and whether everything below goes with it. -/
inductive Outcome (v : View) (cell : Cell) (dirty : BySide) : Action → Bool → Prop
  | clash {here there} (hh : cell.here = some here) (ht : cell.there = some there)
      (hne : here.type ≠ there.item.type) (hm : v.mode ≠ .upload) {localOnly : Bool} :
      Outcome v cell dirty (.conflictCopy cell.rel here localOnly none) false
  | linkFolder {here there} (hh : cell.here = some here) (ht : cell.there = some there)
      (hf : here.type = .folder) : Outcome v cell dirty (.link cell.rel here there.item) false
  | trashRemoteFolder {there previous} (hh : cell.here = none) (ht : cell.there = some there)
      (hp : cell.previous = some previous) (hf : there.item.type = .folder)
      (hm : v.mode = .twoWay) (hd : cell.key ∉ dirty.onRemote)
      (hs : stillHere v previous = false) :
      Outcome v cell dirty (.trashRemote cell.rel there.item) true
  | mkdir {there} (hh : cell.here = none) (ht : cell.there = some there)
      (hf : there.item.type = .folder) (hm : v.mode ≠ .upload) :
      Outcome v cell dirty (.mkdir there.rel there.item) false
  | forget {previous} (hp : cell.previous = some previous)
      (hm : cell.here = none ∨ cell.there = none) : Outcome v cell dirty (.forget cell.rel) false
  | trashLocalFolder {here previous} (hh : cell.here = some here) (ht : cell.there = none)
      (hp : cell.previous = some previous) (hf : here.type = .folder) (hm : v.mode ≠ .upload)
      (hd : cell.key ∉ dirty.onLocal) (hs : stillOnServer v previous = false) :
      Outcome v cell dirty (.trashLocal cell.rel here) true
  | createRemoteFolder {here} (hh : cell.here = some here) (ht : cell.there = none)
      (hf : here.type = .folder) (hm : v.mode ≠ .download) :
      Outcome v cell dirty (.createRemoteFolder cell.rel here) false
  | linkFile {here there mine} (hh : cell.here = some here) (ht : cell.there = some there)
      (hf : here.type = .file) (hft : there.item.type = .file)
      (hc : checksumOf here cell.previous = some mine) (he : mine = there.item.checksum) :
      Outcome v cell dirty (.link cell.rel here there.item) false
  | keepMine {here there mine} (hh : cell.here = some here) (ht : cell.there = some there)
      (hf : here.type = .file) (hft : there.item.type = .file)
      (hc : checksumOf here cell.previous = some mine) (hm : v.mode = .upload) :
      Outcome v cell dirty (.keepMine cell.rel here there.item) false
  | conflictCopy {here there mine} (hh : cell.here = some here) (ht : cell.there = some there)
      (hf : here.type = .file) (hft : there.item.type = .file)
      (hc : checksumOf here cell.previous = some mine) (hm : v.mode ≠ .upload)
      {localOnly : Bool} {unverified : Option Unverified} :
      Outcome v cell dirty (.conflictCopy cell.rel here localOnly unverified) false
  | uploadReplace {here there mine} (hh : cell.here = some here) (ht : cell.there = some there)
      (hf : here.type = .file) (hft : there.item.type = .file)
      (hc : checksumOf here cell.previous = some mine)
      (hl : localChanged cell.previous mine = true) (hr : remoteChanged cell.previous there = false)
      (hm : v.mode ≠ .download) :
      Outcome v cell dirty
        (.upload cell.rel here (some { remoteId := there.item.id, rev := there.item.rev })) false
  | downloadReplace {here there mine} (hh : cell.here = some here) (ht : cell.there = some there)
      (hf : here.type = .file) (hft : there.item.type = .file)
      (hc : checksumOf here cell.previous = some mine)
      (hl : localChanged cell.previous mine = false) (hr : remoteChanged cell.previous there = true)
      (hm : v.mode ≠ .upload) :
      Outcome v cell dirty (.download cell.rel there.item (some here)) false
  | uploadNew {here} (hh : cell.here = some here) (ht : cell.there = none)
      (hf : here.type = .file) (hm : v.mode ≠ .download) :
      Outcome v cell dirty (.upload cell.rel here none) false
  | trashLocalFile {here previous} (hh : cell.here = some here) (ht : cell.there = none)
      (hp : cell.previous = some previous) (hf : here.type = .file) (hm : v.mode ≠ .upload)
      (hs : stillOnServer v previous = false) (hu : UnchangedHere here previous) :
      Outcome v cell dirty (.trashLocal cell.rel here) false
  | downloadNew {there} (hh : cell.here = none) (ht : cell.there = some there)
      (hf : there.item.type = .file) (hm : v.mode ≠ .upload) :
      Outcome v cell dirty (.download there.rel there.item none) false
  | trashRemoteFile {there previous} (hh : cell.here = none) (ht : cell.there = some there)
      (hp : cell.previous = some previous) (hf : there.item.type = .file) (hm : v.mode = .twoWay)
      (hs : stillHere v previous = false) (hu : UnchangedThere there previous) :
      Outcome v cell dirty (.trashRemote cell.rel there.item) false

theorem ItemType.eq_file_of_ne {t : ItemType} (h : t ≠ .folder) : t = .file := by
  cases t
  · exact absurd rfl h
  · rfl

theorem forgetIfKnown_eq_some {a : Action} (h : forgetIfKnown cell = some a) :
    a = .forget cell.rel ∧ ∃ previous, cell.previous = some previous := by
  unfold forgetIfKnown at h
  cases hp : cell.previous with
  | none => rw [hp] at h; cases h
  | some previous =>
    rw [hp] at h
    exact ⟨(Option.some.inj h).symm, previous, rfl⟩

theorem forget_outcome {a : Action} (hm : cell.here = none ∨ cell.there = none)
    (h : forgetIfKnown cell = some a) : Outcome v cell dirty a false := by
  obtain ⟨rfl, previous, hp⟩ := forgetIfKnown_eq_some h
  exact .forget hp hm

theorem folderOnlyThere_outcome {there : ScopedItem} {a : Action} (hh : cell.here = none)
    (ht : cell.there = some there) (hf : there.item.type = .folder)
    (h : (folderOnlyThere v cell there dirty.onRemote).action = some a) :
    Outcome v cell dirty a (folderOnlyThere v cell there dirty.onRemote).gone := by
  unfold folderOnlyThere at h ⊢
  cases hp : cell.previous with
  | none =>
    simp only [hp, Bool.false_eq_true, if_false] at h ⊢
    split_ifs at h ⊢ with hm
    · obtain rfl := Option.some.inj h
      exact .mkdir hh ht hf (by simpa using hm)
    · exact forget_outcome (Or.inl hh) h
  | some previous =>
    simp only [hp] at h ⊢
    split_ifs at h ⊢ with hdel hm
    · obtain rfl := Option.some.inj h
      simp only [Bool.and_eq_true, decide_eq_true_eq, Bool.not_eq_true', List.contains_eq_mem,
        decide_eq_false_iff_not] at hdel
      exact .trashRemoteFolder hh ht hp hf hdel.1.1 hdel.1.2 hdel.2
    · obtain rfl := Option.some.inj h
      exact .mkdir hh ht hf (by simpa using hm)
    · exact forget_outcome (Or.inl hh) h

theorem folderOnlyHere_outcome {here : LocalFile} {a : Action} (hh : cell.here = some here)
    (ht : cell.there = none) (hf : here.type = .folder)
    (h : (folderOnlyHere v cell here dirty.onLocal).action = some a) :
    Outcome v cell dirty a (folderOnlyHere v cell here dirty.onLocal).gone := by
  unfold folderOnlyHere at h ⊢
  cases hp : cell.previous with
  | none =>
    simp only [hp, Bool.false_eq_true, if_false] at h ⊢
    split_ifs at h ⊢ with hm
    · obtain rfl := Option.some.inj h
      exact .createRemoteFolder hh ht hf (by simpa using hm)
    · exact forget_outcome (Or.inr ht) h
  | some previous =>
    simp only [hp] at h ⊢
    split_ifs at h ⊢ with hdel hm
    · obtain rfl := Option.some.inj h
      simp only [Bool.and_eq_true, decide_eq_true_eq, Bool.not_eq_true', List.contains_eq_mem,
        decide_eq_false_iff_not] at hdel
      exact .trashLocalFolder hh ht hp hf hdel.1.1 hdel.1.2 hdel.2
    · obtain rfl := Option.some.inj h
      exact .createRemoteFolder hh ht hf (by simpa using hm)
    · exact forget_outcome (Or.inr ht) h

theorem fileOnBothSides_outcome {here : LocalFile} {there : ScopedItem} {mine : Option String}
    {a : Action} (hh : cell.here = some here) (ht : cell.there = some there)
    (hf : here.type = .file) (hft : there.item.type = .file)
    (hc : checksumOf here cell.previous = some mine)
    (h : fileOnBothSides v cell here there mine = some a) : Outcome v cell dirty a false := by
  unfold fileOnBothSides at h
  by_cases he : mine = there.item.checksum
  · simp only [he, if_true] at h
    split_ifs at h
    obtain rfl := Option.some.inj h
    exact .linkFile hh ht hf hft hc he
  · simp only [if_neg he] at h
    cases hl : localChanged cell.previous mine <;> cases hr : remoteChanged cell.previous there <;>
      simp only [hl, hr, Bool.not_true, Bool.not_false, Bool.and_true, Bool.and_false,
        Bool.false_eq_true, if_true, if_false] at h
    · cases h
    · split_ifs at h with hm
      obtain rfl := Option.some.inj h
      exact .downloadReplace hh ht hf hft hc hl hr (by simpa using hm)
    · split_ifs at h with hm
      · obtain rfl := Option.some.inj h
        exact .conflictCopy hh ht hf hft hc (by rw [hm]; simp)
      · obtain rfl := Option.some.inj h
        exact .uploadReplace hh ht hf hft hc hl hr (by simpa using hm)
    · split_ifs at h with hm <;> obtain rfl := Option.some.inj h
      · exact .keepMine hh ht hf hft hc hm
      · exact .conflictCopy hh ht hf hft hc (by simpa using hm)
      · exact .conflictCopy hh ht hf hft hc (by simpa using hm)

theorem fileOnlyHere_outcome {here : LocalFile} {a : Action} (hh : cell.here = some here)
    (ht : cell.there = none) (hf : here.type = .file)
    (h : fileOnlyHere v cell here = some a) : Outcome v cell dirty a false := by
  unfold fileOnlyHere at h
  cases hp : cell.previous with
  | none =>
    simp only [hp, Option.map_none, Option.getD_none, Bool.false_eq_true, if_false, Bool.not_false,
      Bool.and_true] at h
    split_ifs at h with hm
    · obtain rfl := Option.some.inj h
      refine .uploadNew hh ht hf ?_
      intro hdl
      simp [hdl] at hm
    · exact forget_outcome (Or.inr ht) h
  | some previous =>
    simp only [hp, Option.map_some, Option.getD_some] at h
    split_ifs at h with hs hm hu
    · obtain rfl := Option.some.inj h
      exact .forget hp (Or.inr ht)
    · obtain rfl := Option.some.inj h
      refine .uploadNew hh ht hf ?_
      intro hdl
      simp [hdl] at hm
    · obtain rfl := Option.some.inj h
      simp only [Bool.or_eq_true, Bool.and_eq_true, decide_eq_true_eq, not_or] at hm hu
      exact .trashLocalFile hh ht hp hf hm.1 (by simpa using hs) hu
    · exact forget_outcome (Or.inr ht) h

theorem fileOnlyThere_outcome {there : ScopedItem} {a : Action} (hh : cell.here = none)
    (ht : cell.there = some there) (hf : there.item.type = .file)
    (h : fileOnlyThere v cell there = some a) : Outcome v cell dirty a false := by
  unfold fileOnlyThere at h
  cases hp : cell.previous with
  | none =>
    simp only [hp, Option.map_none, Option.getD_none, Bool.false_eq_true, if_false, Bool.not_false,
      Bool.and_true, Bool.false_and] at h
    split_ifs at h with hm
    · obtain rfl := Option.some.inj h
      refine .downloadNew hh ht hf ?_
      intro hup
      simp [hup] at hm
    · exact forget_outcome (Or.inl hh) h
  | some previous =>
    simp only [hp, Option.map_some, Option.getD_some] at h
    split_ifs at h with hm hs hu
    · obtain rfl := Option.some.inj h
      refine .downloadNew hh ht hf ?_
      intro hup
      simp [hup] at hm
    · obtain rfl := Option.some.inj h
      exact .forget hp (Or.inl hh)
    · obtain rfl := Option.some.inj h
      simp only [Bool.and_eq_true, decide_eq_true_eq] at hu
      exact .trashRemoteFile hh ht hp hf hu.2 (by simpa using hs) hu.1
    · exact forget_outcome (Or.inl hh) h

/-- Every action `decide` gives is one of the listed outcomes. -/
theorem decide_outcome {a : Action} (h : (decide v cell dirty needsHash).1.action = some a) :
    Outcome v cell dirty a (decide v cell dirty needsHash).1.gone := by
  unfold decide at h ⊢
  cases hh : cell.here with
  | none =>
    cases ht : cell.there with
    | none =>
      simp only [hh, ht, planFolder] at h ⊢
      split_ifs at h ⊢
      all_goals exact forget_outcome (Or.inl hh) h
    | some there =>
      simp only [hh, ht, planFolder, Option.map_none, Option.map_some, Option.none_or,
        Option.some_or, Option.some.injEq] at h ⊢
      split_ifs at h ⊢ with hf
      · exact folderOnlyThere_outcome hh ht hf h
      · exact fileOnlyThere_outcome hh ht (ItemType.eq_file_of_ne hf) h
  | some here =>
    cases ht : cell.there with
    | none =>
      simp only [hh, ht, planFolder, Option.map_some, Option.some_or, Option.some.injEq] at h ⊢
      split_ifs at h ⊢ with hf hs
      · exact folderOnlyHere_outcome hh ht hf h
      · cases h
      · exact fileOnlyHere_outcome hh ht (ItemType.eq_file_of_ne hf) h
    | some there =>
      simp only [hh, ht, planFolder, Option.map_some, Option.some_or, Option.some.injEq,
        decide_eq_true_eq] at h ⊢
      split_ifs at h ⊢ with hne hm hf
      · cases h
      · obtain rfl := Option.some.inj h
        exact .clash hh ht hne hm
      · unfold folderOnBothSides at h ⊢
        split_ifs at h ⊢
        · obtain rfl := Option.some.inj h
          exact .linkFolder hh ht hf
        · cases h
      · have hfile := ItemType.eq_file_of_ne hf
        have hfile' : there.item.type = .file := by
          rw [not_not] at hne
          rw [← hne, hfile]
        cases hc : checksumOf here cell.previous with
        | none => rw [hc] at h; cases h
        | some mine =>
          rw [hc] at h
          exact fileOnBothSides_outcome hh ht hfile hfile' hc h

theorem decide_action_of_gone
    (h : (decide v cell dirty needsHash).1.gone = true) :
    ∃ a, (decide v cell dirty needsHash).1.action = some a := by
  unfold decide at h ⊢
  cases hh : cell.here with
  | none =>
    cases ht : cell.there with
    | none =>
      simp only [hh, ht, planFolder] at h
      split_ifs at h <;> cases h
    | some there =>
      simp only [hh, ht, planFolder, folderOnlyThere] at h ⊢
      split_ifs at h ⊢
      all_goals first | exact ⟨_, rfl⟩ | cases h
  | some here =>
    cases ht : cell.there with
    | none =>
      simp only [hh, ht, planFolder, folderOnlyHere] at h ⊢
      split_ifs at h ⊢
      all_goals first | exact ⟨_, rfl⟩ | cases h
    | some there =>
      simp only [hh, ht, planFolder, folderOnBothSides] at h
      split_ifs at h
      · cases h
      · cases h
      · cases h
      · cases h
      · cases hc : checksumOf here cell.previous <;> rw [hc] at h <;> cases h

/-- The decision does not look at the files collected for hashing; it only adds to them. -/
theorem decide_needsHash :
    (decide v cell dirty needsHash).1 = (decide v cell dirty []).1 ∧
      (decide v cell dirty needsHash).2 = needsHash ++ (decide v cell dirty []).2 := by
  unfold decide
  cases cell.here with
  | none => cases cell.there <;> dsimp only <;> split_ifs <;> simp
  | some here =>
    cases cell.there with
    | none => dsimp only; split_ifs <;> simp
    | some there =>
      dsimp only
      split_ifs
      · simp
      · simp
      · simp
      · cases checksumOf here cell.previous <;> simp

end Staaash.Planner
