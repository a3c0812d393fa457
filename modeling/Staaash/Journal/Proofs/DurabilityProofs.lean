import Staaash.Journal.Guarantees
import Staaash.Journal.Proofs.PhaseProofs

/-!
# Proofs: durable before recorded

Syncs only take volatile entries away, so what is said of all volatile entries survives everything
but a change of the tree. The executor's functions are gone through once, with a condition on the
volatile entries at each point where the tree has just changed.
-/

namespace Staaash.Journal

open Staaash.Library (Proc Stop)
open Staaash.Library.Proc

variable {m : Mutation} {H : Host} {lease : M Unit} {phase : Phase}

/-! ## Logs -/

/-- Every event of the log comes as `Q` says, given what is older. -/
def AtEvents (Q : Event → Fs → Log → Prop) (log : Log) : Prop :=
  ∀ newer older e fs, log = newer ++ (e, fs) :: older → Q e fs older

theorem AtEvents.cons {Q : Event → Fs → Log → Prop} {log : Log} {e : Event} {fs : Fs}
    (hlog : AtEvents Q log) (he : Q e fs log) : AtEvents Q ((e, fs) :: log) := by
  intro newer older e' fs' heq
  cases newer with
  | nil =>
    obtain ⟨h1, rfl⟩ := List.cons.inj heq
    obtain ⟨rfl, rfl⟩ := Prod.mk.inj h1
    exact he
  | cons _ newer =>
    obtain ⟨-, h2⟩ := List.cons.inj heq
    exact hlog newer older e' fs' h2

theorem IsMarked.cons {log : Log} {id : Nat} (h : IsMarked log id) (e : Event × Fs) :
    IsMarked (e :: log) id := by
  obtain ⟨fs, hfs⟩ := h
  exact ⟨fs, List.mem_cons_of_mem _ hfs⟩

theorem begun_cons {e : Event} {fs : Fs} {log : Log} (h : e.begins = false) :
    begun ((e, fs) :: log) = begun log := by
  rw [begun, h]
  rfl

theorem mem_volatile_synced {k e : Key} {fs : Fs} {log : Log} :
    e ∈ volatile ((.synced k, fs) :: log) ↔ e ∈ volatile log ∧ dirname e ≠ k := by
  rw [volatile, List.mem_filter, decide_eq_true_eq]

/-! ## What the executor keeps -/

/-- An event is in order: the record of a step is that of a durable effect, provided that the step
has found nothing volatile, and a commit comes after all records. -/
def InOrder (m : Mutation) (e : Event) (fs : Fs) (older : Log) : Prop :=
  match e with
  | .marked id => ∀ step ∈ m.steps, step.id = id → FoundSettled step (begun older) →
      ∀ k, step.Touches fs k → k ∉ volatile older
  | .committed => ∀ step ∈ m.forward, IsMarked older step.id
  | _ => True

/-- What `p` says of the tree holds of all volatile entries. -/
def Volatile (p : Fs → Key → Prop) (w : World) : Prop := ∀ e ∈ volatile w.log, p w.fs e

structure Orderly (m : Mutation) (w : World) : Prop where
  events : AtEvents (InOrder m) w.log
  /-- The folder of a volatile entry is there. -/
  rooted : Volatile (fun fs e => fs.IsDirectory (dirname e)) w
  applied : ∀ id ∈ w.applied, IsMarked w.log id
  memory : ∀ id ∈ w.memory, IsMarked w.log id
  flight : w.inFlight ≠ none → ∀ step ∈ m.forward, IsMarked w.log step.id

/-- An event that neither changes the tree nor has to come in order. -/
theorem Orderly.note {w w' : World} (h : Orderly m w) {e : Event} (he : InOrder m e w.fs w.log)
    (hv : ∀ k ∈ volatile ((e, w.fs) :: w.log), k ∈ volatile w.log)
    (hlog : w'.log = (e, w.fs) :: w.log) (hfs : w'.fs = w.fs)
    (happlied : ∀ id ∈ w'.applied, id ∈ w.applied ∨ e = .marked id)
    (hmemory : ∀ id ∈ w'.memory, id ∈ w.memory ∨ IsMarked w.log id)
    (hflight : w'.inFlight ≠ none → w.inFlight ≠ none) : Orderly m w' where
  events := by
    rw [hlog]
    exact h.events.cons he
  rooted := by
    intro k hk
    rw [hlog] at hk
    rw [hfs]
    exact h.rooted k (hv k hk)
  applied := by
    intro id hid
    rw [hlog]
    rcases happlied id hid with hid | rfl
    · exact (h.applied id hid).cons _
    · exact ⟨w.fs, by simp⟩
  memory := by
    intro id hid
    rw [hlog]
    rcases hmemory id hid with hid | hid
    · exact (h.memory id hid).cons _
    · exact hid.cons _
  flight := by
    intro hf step hs
    rw [hlog]
    exact (h.flight (hflight hf) step hs).cons _

/-- A new row, other times, the timer or the memory of the attempt. -/
theorem Orderly.recall {w w' : World} (h : Orderly m w) (hlog : w'.log = w.log) (hfs : w'.fs = w.fs)
    (happlied : w'.applied = w.applied)
    (hmemory : ∀ id ∈ w'.memory, id ∈ w.memory ∨ IsMarked w.log id)
    (hflight : w'.inFlight ≠ none → w.inFlight ≠ none) : Orderly m w' where
  events := hlog ▸ h.events
  rooted := by
    unfold Volatile
    rw [hlog, hfs]
    exact h.rooted
  applied := by
    rw [hlog, happlied]
    exact h.applied
  memory := by
    intro id hid
    rw [hlog]
    rcases hmemory id hid with hid | hid
    · exact h.memory id hid
    · exact hid
  flight := by
    intro hf
    rw [hlog]
    exact h.flight (hflight hf)

theorem Orderly.drift {w w' : World} (h : Orderly m w) (hd : Drift w w') : Orderly m w' := by
  cases hd with
  | time now schedule hs => exact h.recall rfl rfl rfl (fun _ => .inl) id
  | renewed t => exact h.recall rfl rfl rfl (fun _ => .inl) id
  | failure e => exact h.recall rfl rfl rfl (fun _ => .inl) id
  | synced k =>
    exact h.note (e := .synced k) trivial (fun _ hk => (mem_volatile_synced.1 hk).1) rfl rfl
      (fun _ => .inl) (fun _ => .inl) id
  | lost => exact h.recall rfl rfl rfl (fun _ => .inl) fun hf => absurd rfl hf
  | commit l now hl ht hs =>
    refine h.note (e := .committed) (h.flight ?_) (fun _ hk => hk) rfl rfl (fun _ => .inl)
      (fun _ => .inl) fun hf => absurd rfl hf
    rw [hl]
    exact Option.some_ne_none _

theorem drift_log {w w' : World} (hd : Drift w w') :
    begun w'.log = begun w.log ∧ (∀ k ∈ volatile w'.log, k ∈ volatile w.log) ∧
      ∀ id, IsMarked w.log id → IsMarked w'.log id := by
  cases hd with
  | synced k => exact ⟨rfl, fun _ hk => (mem_volatile_synced.1 hk).1, fun _ h => h.cons _⟩
  | commit l now hl ht hs => exact ⟨rfl, fun _ hk => hk, fun _ h => h.cons _⟩
  | _ => exact ⟨rfl, fun _ hk => hk, fun _ h => h⟩

theorem Volatile.drift {p : Fs → Key → Prop} {w w' : World} (h : Volatile p w) (hd : Drift w w') :
    Volatile p w' := by
  intro e he
  rw [hd.fs]
  exact h e ((drift_log hd).2.1 e he)

/-- The work on a step: what was begun, and the records that are there. -/
structure During (m : Mutation) (log : Log) (ids : List Nat) (w : World) : Prop where
  kept : Orderly m w
  begun : begun w.log = log
  marked : ∀ id ∈ ids, IsMarked w.log id

theorem During.drift {log : Log} {ids : List Nat} {w w' : World} (h : During m log ids w)
    (hd : Drift w w') : During m log ids w' where
  kept := h.kept.drift hd
  begun := (drift_log hd).1.trans h.begun
  marked id hid := (drift_log hd).2.2 id (h.marked id hid)

variable {log : Log} {ids : List Nat} {A : World → Prop}

theorem During.stable (m : Mutation) (log : Log) (ids : List Nat) : Stable (During m log ids) :=
  stable_of_drift fun _ _ h hd => h.drift hd

/-- A condition on the volatile entries is stable. -/
theorem stable_volatile (hA : ∀ w w', A w → Drift w w' → A w') (p : Fs → Key → Prop) :
    Stable fun w => A w ∧ Volatile p w :=
  stable_of_drift fun w w' h hd => ⟨hA w w' h.1 hd, h.2.drift hd⟩

/-! ## Changes -/

theorem During.changed {w : World} (h : During m log ids w) {op : FsOp} {fs : Fs}
    (hr : ∀ e ∈ op.unsettles fs (volatile w.log), fs.IsDirectory (dirname e)) :
    During m log ids ({ w with fs }.emit (.changed phase op)) where
  kept :=
    { events := h.kept.events.cons trivial
      rooted := hr
      applied := fun id hid => (h.kept.applied id hid).cons _
      memory := fun id hid => (h.kept.memory id hid).cons _
      flight := fun hf step hs => (h.kept.flight hf step hs).cons _ }
  begun := h.begun
  marked id hid := (h.marked id hid).cons _

theorem isDirectory_mkdir {fs fs' : Fs} {k d : Key} (h : fs.mkdir k = some fs')
    (hd : fs.IsDirectory d) : fs'.IsDirectory d := by
  rcases hd with hd | hd
  · exact .inl hd
  · refine .inr ?_
    rw [Fs.get_mkdir h]
    split_ifs
    · rfl
    · exact hd

theorem During.mkdir {w : World} (h : During m log ids w) {fs : Fs} {k : Key}
    (hfs : w.fs.mkdir k = some fs) :
    During m log ids ({ w with fs }.emit (.changed phase (.mkdir k))) := by
  refine h.changed fun e he => ?_
  rcases List.mem_cons.1 he with rfl | he
  · exact isDirectory_mkdir hfs (Fs.mkdir_eq_some hfs).2.2.1
  · exact isDirectory_mkdir hfs (h.kept.rooted e he)

/-- A folder outside the source stays, one at or below it moves along. -/
theorem isDirectory_rename {fs fs' : Fs} {source target d : Key}
    (h : fs.rename source target = some fs') (hd : fs.IsDirectory d) :
    fs'.IsDirectory (moveKey source target d) := by
  rcases hd with rfl | hd
  · refine .inl (Fs.moveKey_outside fun hp => ?_)
    exact Fs.source_ne_nil h (List.prefix_nil.1 hp)
  · exact .inr ((Fs.get_rename h).2 ⟨d, hd, rfl⟩)

theorem dirname_moveEntry {source target e : Key} (he : e ≠ []) :
    dirname (moveEntry source target e) = moveKey source target (dirname e) := by
  unfold moveEntry
  by_cases hs : e = source
  · subst hs
    rw [if_pos rfl, Fs.moveKey_outside (not_prefix_dirname he)]
  · rw [if_neg hs]
    by_cases hp : source <+: e
    · obtain ⟨rest, rfl⟩ := hp
      have hrest : rest ≠ [] := by
        rintro rfl
        exact hs (List.append_nil _)
      rw [Fs.moveKey_append, Fs.dirname_append hrest, Fs.dirname_append hrest, Fs.moveKey_append]
    · rw [Fs.moveKey_outside hp, Fs.moveKey_outside fun h => hp (h.trans (Fs.dirname_above e))]

theorem During.rename {w : World} (h : During m log ids w) {fs : Fs} {source target : Key}
    (hfs : w.fs.rename source target = some fs) :
    During m log ids ({ w with fs }.emit (.changed phase (.rename source target))) := by
  obtain ⟨hs, -, ht0, htarget, hin, -⟩ := Fs.rename_eq_some hfs
  have hs0 := Fs.source_ne_nil hfs
  have hsource : w.fs.IsDirectory (dirname source) := by
    rcases w.fs.closed source (Fs.mem_keys_iff.2 hs) with hd | hd
    · exact .inl hd
    · exact .inr hd
  refine h.changed fun e he => ?_
  simp only [FsOp.unsettles, List.mem_cons, List.mem_map] at he
  rcases he with rfl | rfl | ⟨e, he, rfl⟩
  · have := isDirectory_rename hfs hsource
    rwa [Fs.moveKey_outside (not_prefix_dirname hs0)] at this
  · have := isDirectory_rename hfs htarget
    rwa [Fs.moveKey_outside fun hp => hin (hp.trans (Fs.dirname_above e))] at this
  · have hdir := isDirectory_rename hfs (h.kept.rooted e he)
    by_cases he0 : e = []
    · subst he0
      refine .inl ?_
      unfold moveEntry
      rw [if_neg (Ne.symm hs0), Fs.moveKey_outside fun hp => hs0 (List.prefix_nil.1 hp)]
      rfl
    · rwa [dirname_moveEntry he0]

/-- A node that was there is removed, with all or some of what lies below it. -/
theorem During.removed {w : World} (h : During m log ids w) {op : FsOp} {k : Key} {left : List Key}
    (hk : w.fs.get k ≠ none)
    (hop : op = .unlink k ∨ op = .removeTree k ∨ op = .rmdir k) :
    During m log ids
      ({ w with fs := w.fs.removeUnder k left }.emit (.changed phase op)) := by
  have hk0 : k ≠ [] := w.fs.rooted k (Fs.mem_keys_iff.2 hk)
  have hdir : (w.fs.removeUnder k left).IsDirectory (dirname k) := by
    rcases w.fs.closed k (Fs.mem_keys_iff.2 hk) with hd | hd
    · exact .inl hd
    · refine .inr ?_
      rw [Fs.get_removeUnder, if_pos]
      · exact hd
      · simp [Fs.outlives, not_prefix_dirname hk0]
  have hleft : ∀ e ∈ (FsOp.rmdir k).unsettles (w.fs.removeUnder k left) (volatile w.log),
      (w.fs.removeUnder k left).IsDirectory (dirname e) := by
    intro e he
    rcases List.mem_cons.1 he with rfl | he
    · exact hdir
    · obtain ⟨e, -, rfl⟩ := List.mem_map.1 he
      split_ifs with hd
      · exact hd
      · exact hdir
  refine h.changed ?_
  rcases hop with rfl | rfl | rfl <;> exact hleft

/-! ## Syncs -/

theorem volatile_stable (m : Mutation) (log : Log) (ids : List Nat) (p : Fs → Key → Prop) :
    Stable fun w => During m log ids w ∧ Volatile p w :=
  stable_volatile (fun _ _ h hd => h.drift hd) p

theorem Volatile.mono {p q : Fs → Key → Prop} {w : World} (h : Volatile p w)
    (hpq : ∀ e, p w.fs e → q w.fs e) : Volatile q w := fun e he => hpq e (h e he)

theorem Volatile.and {p q : Fs → Key → Prop} {w : World} (hp : Volatile p w) (hq : Volatile q w) :
    Volatile (fun fs e => p fs e ∧ q fs e) w := fun e he => ⟨hp e he, hq e he⟩

/-- A sync leaves no volatile entry in its folder. -/
theorem triple_syncDirectory_settles {k : Key} (hA : Stable A) :
    Triple A (syncDirectory k)
      (fun _ w => A w ∧ w.fs.IsDirectory k ∧ Volatile (fun _ e => dirname e ≠ k) w) fun _ => A := by
  refine hA.call ?_ (fun _ _ h => h.1) fun _ h => h
  intro w hw
  by_cases hk : w.fs.IsDirectory k
  · simp only [if_pos hk]
    exact ⟨hA.synced w k hw, hk, fun e he => (mem_volatile_synced.1 he).2⟩
  · simp only [if_neg hk]
    exact hw

theorem triple_syncAll_settles (hA : ∀ w w', A w → Drift w w' → A w') (p : Fs → Key → Prop)
    (ks : List Key) :
    Triple (fun w => A w ∧ Volatile p w) (syncAll ks)
      (fun _ w => A w ∧ Volatile (fun fs e => p fs e ∧ dirname e ∉ ks) w) fun _ => A := by
  induction ks generalizing p with
  | nil => exact triple_pure fun w h => ⟨h.1, h.2.mono fun e he => ⟨he, List.not_mem_nil⟩⟩
  | cons k ks ih =>
    refine Triple.seq (Q := fun _ w => A w ∧ Volatile (fun fs e => p fs e ∧ dirname e ≠ k) w) ?_ ?_
    · refine (triple_syncDirectory_settles (stable_volatile hA p)).weaken (fun _ h => h) ?_
        fun _ _ h => h.1
      exact fun _ w h => ⟨h.1.1, h.1.2.and h.2.2⟩
    · refine (ih fun fs e => p fs e ∧ dirname e ≠ k).post fun _ w h => ⟨h.1, h.2.mono ?_⟩
      rintro e ⟨⟨hp, hk⟩, hks⟩
      exact ⟨hp, fun hmem => (List.mem_cons.1 hmem).elim hk hks⟩

theorem triple_syncParents_settles (hA : ∀ w w', A w → Drift w w' → A w') (p : Fs → Key → Prop)
    (items : List Key) :
    Triple (fun w => A w ∧ Volatile p w) (syncParents items)
      (fun _ w => A w ∧
        Volatile (fun fs e => p fs e ∧ ∀ item ∈ items, dirname e ≠ dirname item) w)
      fun _ => A := by
  refine (triple_syncAll_settles hA p _).post fun _ w h => ⟨h.1, h.2.mono ?_⟩
  rintro e ⟨hp, he⟩
  refine ⟨hp, fun item hitem heq => he ?_⟩
  rw [List.mem_eraseDups, heq]
  exact List.mem_map_of_mem hitem

/-! ## Folders on the way -/

/-- What is there of the way to `target` is not volatile, under the condition `C`. -/
def Laid (C : Prop) (target : Key) (fs : Fs) (e : Key) : Prop :=
  C → e ∈ prefixes target → fs.get e = none

variable {C : Prop} {target : Key}

theorem triple_ensureDurableDirectorySegment_laid {next : Key} (hl : LeaseCheck lease) :
    Triple (fun w => During m log ids w ∧ Volatile (Laid C target) w)
      (ensureDurableDirectorySegment phase lease next)
      (fun _ w => During m log ids w ∧ Volatile (Laid C target) w)
      fun _ => During m log ids := by
  have hA := volatile_stable m log ids (Laid C target)
  have hleft : ∀ w, During m log ids w ∧ Volatile (Laid C target) w → During m log ids w :=
    fun _ h => h.1
  unfold ensureDurableDirectorySegment
  refine ((triple_pathState hA).weaken (fun _ h => h) (fun _ _ h => h.1)
    fun _ => hleft).bind fun n => ?_
  cases n with
  | some n =>
    cases n with
    | directory => exact triple_pure fun _ h => h
    | file bytes => exact triple_throw hleft
    | other => exact triple_throw hleft
  | none =>
    refine Triple.seq ((hl _ hA).exits hleft) ?_
    -- the new folder is volatile until the one it lies in is synced
    refine Triple.seq (Q := fun _ w => During m log ids w ∧
      Volatile (fun fs e => e = next ∨ Laid C target fs e) w) ?_ ?_
    · refine (triple_fsCall hA hleft ?_).post ?_
      · intro w fs hw hf
        cases hm : w.fs.mkdir next with
        | none => rw [hm] at hf; cases hf
        | some fs' =>
          rw [hm] at hf
          obtain rfl := Except.ok.inj hf
          exact hw.1.mkdir hm
      · rintro _ w ⟨hE, before, hb, hf, hw⟩
        refine ⟨hE, ?_⟩
        cases hm : before.fs.mkdir next with
        | none => rw [hm] at hf; cases hf
        | some fs' =>
          rw [hm] at hf
          have hfs := Except.ok.inj hf
          intro e he
          rw [hw] at he
          rcases List.mem_cons.1 he with rfl | he
          · exact .inl rfl
          · by_cases hne : e = next
            · exact .inl hne
            · refine .inr fun hc hp => ?_
              rw [← hfs, Fs.get_mkdir hm, if_neg hne]
              exact hb.2 e he hc hp
    · refine Triple.seq ((triple_syncDirectory (volatile_stable _ _ _ _)).exits fun _ h => h.1) ?_
      refine (triple_syncDirectory_settles (volatile_stable _ _ _ _)).weaken (fun _ h => h) ?_
        fun _ _ h => h.1
      rintro _ w ⟨⟨hd, hv⟩, -, hs⟩
      refine ⟨hd, (hv.and hs).mono ?_⟩
      rintro e ⟨rfl | he, hne⟩
      · exact absurd rfl hne
      · exact he

theorem triple_durableMkdirWithinRoot_laid {k : Key} (hl : LeaseCheck lease) :
    Triple (fun w => During m log ids w ∧ Volatile (Laid C target) w)
      (durableMkdirWithinRoot phase lease k)
      (fun _ w => During m log ids w ∧ Volatile (Laid C target) w)
      fun _ => During m log ids := by
  have hsegments : ∀ ks, Triple (fun w => During m log ids w ∧ Volatile (Laid C target) w)
      (ensureSegments phase lease ks)
      (fun _ w => During m log ids w ∧ Volatile (Laid C target) w) fun _ => During m log ids := by
    intro ks
    induction ks with
    | nil => exact triple_pure fun _ h => h
    | cons next rest ih => exact Triple.seq (triple_ensureDurableDirectorySegment_laid hl) ih
  unfold durableMkdirWithinRoot
  refine triple_ite (fun _ => triple_pure fun _ h => h) fun _ => ?_
  exact Triple.seq ((triple_assertSafeStorageAncestors (volatile_stable _ _ _ _)).weaken (fun _ h => h)
    (fun _ _ h => h.1) fun _ _ h => h.1) (hsegments _)

/-! ## Renames and mkdirs -/

/-- Nothing volatile is in place for the work, under the condition `C`. -/
def Unfound (C : Prop) (work : Work) (fs : Fs) (e : Key) : Prop := C → ¬ work.InPlace fs e

/-- No volatile entry belongs to the effect of the work, under the condition `C`. -/
def Settled (C : Prop) (work : Work) (_ : Fs) (e : Key) : Prop :=
  C → match work with
    | .rename source target => e ≠ source ∧ e ∉ prefixes target
    | .mkdir target _ => e ∉ prefixes target

theorem exists_of_prefix {fs : Fs} {e k : Key} (h : fs.get k ≠ none) (he : e ∈ prefixes k) :
    fs.get e ≠ none := by
  obtain ⟨he0, hp⟩ := mem_prefixes.1 he
  intro hnone
  exact h (Fs.get_eq_none_below hnone he0 hp)

/-- All but the last folder of the way are there once its folder is. -/
theorem exists_of_isDirectory {fs : Fs} {e k : Key} (h : fs.IsDirectory (dirname k))
    (he : e ∈ prefixes k) (hne : e ≠ k) : fs.get e ≠ none := by
  obtain ⟨he0, hp⟩ := mem_prefixes.1 he
  have hk0 : k ≠ [] := by
    rintro rfl
    exact he0 (List.prefix_nil.1 hp)
  have hbelow : e <+: dirname k := by
    obtain ⟨x, hx⟩ : ∃ x, dirname k ++ [x] = k := ⟨_, List.dropLast_append_getLast hk0⟩
    rw [← hx] at hp
    rcases List.prefix_concat_iff.1 hp with h | h
    · exact absurd (h.trans hx) hne
    · exact h
  rcases h with h | h
  · rw [h] at hbelow
    exact absurd (List.prefix_nil.1 hbelow) he0
  · apply exists_of_prefix _ (mem_prefixes.2 ⟨he0, hbelow⟩)
    rw [h]
    exact Option.some_ne_none _

/-- A rename makes its two names volatile; the folders on the way stay settled. -/
theorem volatile_rename {w : World} {fs : Fs} {source : Key} (hv : Volatile (Laid C target) w)
    (hfs : w.fs.rename source target = some fs) :
    Volatile (fun _ e => C → (e = source ∨ e ∈ prefixes target) → e = source ∨ e = target)
      ({ w with fs }.emit (.changed phase (.rename source target))) := by
  obtain ⟨-, -, ht0, hdir, hin, -⟩ := Fs.rename_eq_some hfs
  intro e he hc hmem
  rcases List.mem_cons.1 he with rfl | he
  · exact .inl rfl
  rcases List.mem_cons.1 he with rfl | he
  · exact .inr rfl
  obtain ⟨e₀, he₀, rfl⟩ := List.mem_map.1 he
  unfold moveEntry at hmem ⊢
  by_cases hs : e₀ = source
  · rw [if_pos hs]
    exact .inl hs
  rw [if_neg hs] at hmem ⊢
  rcases hmem with hmem | hmem
  · exact .inl hmem
  refine .inr ?_
  by_cases hp : source <+: e₀
  · -- it has gone below the target
    obtain ⟨rest, rfl⟩ := hp
    rw [Fs.moveKey_append] at hmem ⊢
    have hlen := (mem_prefixes.1 hmem).2.length_le
    rw [List.length_append] at hlen
    rw [List.length_eq_zero_iff.1 (show rest.length = 0 by omega), List.append_nil]
  · rw [Fs.moveKey_outside hp] at hmem ⊢
    by_contra hne
    exact exists_of_isDirectory hdir hmem hne (hv e₀ he₀ hc hmem)

theorem triple_renameInto {step : Step} {source : Key} {node : Node} (hl : LeaseCheck lease) :
    Triple (fun w => During m log ids w ∧ w.fs.get source = some node ∧
        Volatile (Unfound C (.rename source target)) w)
      (do
        validateExpectedNode H source step
        syncRenameSource source node
        syncDirectory (dirname source)
        durableMkdirWithinRoot phase lease (dirname target)
        lease
        fsCall phase (.rename source target) fun fs =>
          match fs.rename source target with
          | some fs => .ok fs
          | none => .error (.errno "EINVAL")
        syncParents [source, target])
      (fun _ w => During m log ids w ∧ Volatile (Settled C (.rename source target)) w)
      fun _ => During m log ids := by
  have hA : Stable fun w => During m log ids w ∧ w.fs.get source = some node ∧
      Volatile (Unfound C (.rename source target)) w :=
    stable_of_drift fun w w' h hd => ⟨h.1.drift hd, by rw [hd.fs]; exact h.2.1, h.2.2.drift hd⟩
  have hleft : ∀ w, (During m log ids w ∧ w.fs.get source = some node ∧
      Volatile (Unfound C (.rename source target)) w) → During m log ids w := fun _ h => h.1
  refine Triple.seq ((triple_readCall hA).weaken (fun _ h => h) (fun _ _ h => h.1) fun _ => hleft) ?_
  refine Triple.seq ((triple_syncRenameSource hA).exits hleft) ?_
  -- with the source's folder synced, what is left volatile of the way is not there
  refine Triple.seq (Q := fun _ w => During m log ids w ∧ Volatile (Laid C target) w) ?_ ?_
  · refine (triple_syncDirectory_settles hA).weaken (fun _ h => h) ?_ fun _ => hleft
    rintro _ w ⟨⟨hd, hsource, hv⟩, -, hs⟩
    refine ⟨hd, (hv.and hs).mono ?_⟩
    rintro e ⟨hunfound, hne⟩ hc hmem
    by_contra hget
    exact hunfound hc (.inr ⟨hmem, hget, .inr hne⟩)
  refine Triple.seq (triple_durableMkdirWithinRoot_laid hl) ?_
  refine Triple.seq ((hl _ (volatile_stable _ _ _ _)).exits fun _ h => h.1) ?_
  refine Triple.seq (Q := fun _ w => During m log ids w ∧
    Volatile (fun _ e => C → (e = source ∨ e ∈ prefixes target) → e = source ∨ e = target) w) ?_ ?_
  · refine (triple_fsCall (volatile_stable _ _ _ _) (fun _ h => h.1) ?_).post ?_
    · intro w fs hw hf
      cases hm : w.fs.rename source target with
      | none => rw [hm] at hf; cases hf
      | some fs' =>
        rw [hm] at hf
        obtain rfl := Except.ok.inj hf
        exact hw.1.rename hm
    · rintro _ w ⟨hE, before, hb, hf, hw⟩
      refine ⟨hE, ?_⟩
      cases hm : before.fs.rename source target with
      | none => rw [hm] at hf; cases hf
      | some fs' =>
        rw [hm] at hf
        have hfs := Except.ok.inj hf
        rw [hw, ← hfs]
        exact volatile_rename hb.2 hm
  · refine (triple_syncParents_settles (fun _ _ h hd => h.drift hd) _ _).post
      fun _ w h => ⟨h.1, h.2.mono ?_⟩
    rintro e ⟨he, hne⟩ hc
    have hboth : ¬ (e = source ∨ e ∈ prefixes target) := by
      intro hmem
      rcases he hc hmem with rfl | rfl
      · exact hne e (by simp) rfl
      · exact hne e (by simp) rfl
    exact ⟨fun h => hboth (.inl h), fun h => hboth (.inr h)⟩

theorem triple_applyRename_settles {step : Step} (C : Prop) (log : Log) (ids : List Nat)
    (hl : LeaseCheck lease) :
    Triple (fun w => During m log ids w ∧ ∀ source target,
        assertRenameStepIntent step = .ok () →
        resolveMutationStoragePath (step.sourceKey.getD []) = .ok source →
        resolveMutationStoragePath (step.targetKey.getD []) = .ok target →
        Volatile (Unfound C (.rename source target)) w)
      (applyRename H phase step lease)
      (fun _ w => During m log ids w ∧ ∃ source target,
        assertRenameStepIntent step = .ok () ∧
        resolveMutationStoragePath (step.sourceKey.getD []) = .ok source ∧
        resolveMutationStoragePath (step.targetKey.getD []) = .ok target ∧
        Volatile (Settled C (.rename source target)) w)
      fun _ => During m log ids := by
  unfold applyRename
  refine (triple_check.exits fun _ h => h.1).bind fun u => Triple.assume fun hi => ?_
  refine (triple_check.exits fun _ h => h.1).bind fun source => Triple.assume fun hs => ?_
  refine (triple_check.exits fun _ h => h.1).bind fun target => Triple.assume fun ht => ?_
  refine Triple.weaken (P := fun w => During m log ids w ∧
      Volatile (Unfound C (.rename source target)) w)
    (Q := fun _ w => During m log ids w ∧ Volatile (Settled C (.rename source target)) w)
    ?_ (fun w h => ⟨h.1, h.2 source target hi hs ht⟩) ?_ fun _ _ h => h
  · have hA := volatile_stable m log ids
      (Unfound C (.rename source target))
    have hleft : ∀ w, (During m log ids w ∧ Volatile (Unfound C (.rename source target)) w) →
        During m log ids w := fun _ h => h.1
    refine Triple.seq ((triple_assertSafeStorageAncestors hA).weaken (fun _ h => h)
      (fun _ _ h => h.1) fun _ => hleft) ?_
    refine Triple.seq ((triple_assertSafeStorageAncestors hA).weaken (fun _ h => h)
      (fun _ _ h => h.1) fun _ => hleft) ?_
    refine ((triple_pathState hA).exits hleft).bind fun sourceState => ?_
    have hA' : Stable fun w => (During m log ids w ∧ Volatile (Unfound C (.rename source target)) w) ∧
        w.fs.get source = sourceState := hA.tree (fun fs => fs.get source = sourceState)
    refine ((triple_pathState hA').exits fun _ h => h.1.1).bind fun targetState => ?_
    cases sourceState with
    | some node =>
      cases targetState with
      | some _ => exact triple_throw fun _ h => h.1.1.1
      | none =>
        exact (triple_renameInto hl).pre fun w h => ⟨h.1.1.1, h.1.2, h.1.1.2⟩
    | none =>
      cases targetState with
      | none => exact triple_throw fun _ h => h.1.1.1
      | some node =>
        -- found made: the two names and all of the way are in place
        refine (triple_readCall (hA'.tree fun fs => fs.get target = some node)).weaken
          (fun _ h => h) ?_ fun _ _ h => h.1.1.1
        rintro _ w ⟨⟨⟨⟨hd, hv⟩, hsource⟩, htarget⟩, -⟩
        refine ⟨hd, hv.mono fun e hunfound hc => ⟨?_, ?_⟩⟩
        · rintro rfl
          exact hunfound hc (.inl ⟨rfl, hsource⟩)
        · intro hmem
          have hthere : w.fs.get target ≠ none := by
            rw [htarget]
            exact Option.some_ne_none _
          exact hunfound hc (.inr ⟨hmem, exists_of_prefix hthere hmem, .inl hsource⟩)
  · exact fun _ w h => ⟨h.1, source, target, hi, hs, ht, h.2⟩

theorem triple_applyMkdir_settles {step : Step} (hl : LeaseCheck lease) :
    Triple (fun w => During m log ids w ∧ ∀ key target digest, truthy step.targetKey = some key →
        truthy step.treeManifestDigest = some digest →
        resolveMutationStoragePath key = .ok target →
        Volatile (Unfound C (.mkdir target digest)) w)
      (applyMkdir H step lease)
      (fun _ w => During m log ids w ∧ ∃ key target digest, truthy step.targetKey = some key ∧
        truthy step.treeManifestDigest = some digest ∧
        resolveMutationStoragePath key = .ok target ∧
        Volatile (Settled C (.mkdir target digest)) w)
      fun _ => During m log ids := by
  unfold applyMkdir
  cases hk : truthy step.targetKey with
  | none => exact triple_throw fun _ h => h.1
  | some key =>
    cases hd : truthy step.treeManifestDigest with
    | none => exact triple_throw fun _ h => h.1
    | some digest =>
      refine (triple_check.exits fun _ h => h.1).bind fun target => Triple.assume fun ht => ?_
      refine Triple.weaken (P := fun w => During m log ids w ∧ Volatile (Laid C target) w)
        (Q := fun _ w => During m log ids w ∧ Volatile (Settled C (.mkdir target digest)) w)
        ?_ ?_ ?_ fun _ _ h => h
      · have hA := volatile_stable m log ids (Laid C target)
        have hleft : ∀ w, (During m log ids w ∧ Volatile (Laid C target) w) →
            During m log ids w := fun _ h => h.1
        -- the folder itself is synced at the end in any case, so it is there with its whole way
        have hsync : Triple (fun w => During m log ids w ∧ Volatile (Laid C target) w)
            (syncDirectory target)
            (fun _ w => During m log ids w ∧ Volatile (Settled C (.mkdir target digest)) w)
            fun _ => During m log ids := by
          refine (triple_syncDirectory_settles hA).weaken (fun _ h => h) ?_ fun _ => hleft
          rintro _ w ⟨⟨hd, hv⟩, hdir, -⟩
          refine ⟨hd, hv.mono fun e hlaid hc hmem => ?_⟩
          refine exists_of_prefix (k := target) ?_ hmem (hlaid hc hmem)
          rcases hdir with h0 | hdir
          · exact absurd h0 (prefixes_ne_nil_of_mem hmem)
          · rw [hdir]
            exact Option.some_ne_none _
        refine Triple.seq ((triple_assertSafeStorageAncestors hA).weaken (fun _ h => h)
          (fun _ _ h => h.1) fun _ => hleft) ?_
        refine ((triple_pathState hA).weaken (fun _ h => h) (fun _ _ h => h.1)
          fun _ => hleft).bind fun state => ?_
        cases state with
        | none => exact Triple.seq (triple_durableMkdirWithinRoot_laid hl) hsync
        | some node =>
          cases node with
          | directory =>
            refine ((triple_readCall hA).weaken (fun _ h => h) (fun _ _ h => h.1)
              fun _ => hleft).bind fun same => ?_
            refine triple_ite (fun _ => ?_) fun _ => ?_
            · exact Triple.seq (Q := fun _ w => During m log ids w ∧ Volatile (Laid C target) w)
                (triple_throw hleft) hsync
            · exact hsync
          | file bytes => exact triple_throw hleft
          | other => exact triple_throw hleft
      · rintro w ⟨hd', hv⟩
        refine ⟨hd', (hv key target digest rfl rfl ht).mono fun e hunfound hc hmem => ?_⟩
        by_contra hget
        exact hunfound hc ⟨hmem, hget⟩
      · exact fun _ w h => ⟨h.1, key, target, digest, rfl, rfl, ht, h.2⟩

/-! ## The folders of an artifact -/

theorem nil_not_mem_normalizeSegments (segments : List Text) : [] ∉ normalizeSegments segments := by
  unfold normalizeSegments
  have hfold : ∀ (l acc : List Text), [] ∉ acc → [] ∉ l.foldl
      (fun acc segment =>
        if segment = [] || segment = ['.'] then acc
        else if segment = ['.', '.'] then
          if acc = [] || acc.getLast? = some ['.', '.'] then acc ++ [segment] else acc.dropLast
        else acc ++ [segment]) acc := by
    intro l
    induction l with
    | nil => exact fun _ h => h
    | cons segment rest ih =>
      intro acc hacc
      have happend : segment ≠ [] → [] ∉ acc ++ [segment] := by
        intro hne hmem
        rcases List.mem_append.1 hmem with h | h
        · exact hacc h
        · exact hne (List.mem_singleton.1 h).symm
      rw [List.foldl_cons]
      refine ih _ ?_
      split_ifs with h1 h2 h3
      · exact hacc
      · exact happend fun h => by rw [h] at h2; cases h2
      · exact fun h => hacc ((List.dropLast_subset acc) h)
      · exact happend fun h => h1 (by rw [h]; rfl)
  exact hfold segments [] List.not_mem_nil

/-- An artifact's folder has three names, and the one of its kind two. -/
theorem ownedRoot_eq {key : Text} {target artifactRoot kindRoot : Key}
    (hr : getOwnedArtifactRoot key = .ok (some (artifactRoot, kindRoot)))
    (ht : resolveMutationStoragePath key = .ok target) :
    3 ≤ target.length ∧ artifactRoot = target.take 3 ∧ kindRoot = target.take 2 := by
  unfold getOwnedArtifactRoot at hr
  unfold resolveMutationStoragePath at ht
  cases hn : normalizeStorageKey key with
  | error e => rw [hn] at ht; cases ht
  | ok segments =>
    rw [hn] at hr ht
    simp only [bind, Except.bind, pure, Except.pure, Except.ok.injEq] at hr ht
    split_ifs at hr with hc
    obtain ⟨rfl, rfl⟩ := Prod.mk.inj (Option.some.inj hr)
    split_ifs at ht
    obtain rfl := Except.ok.inj ht
    have hlen : 4 ≤ segments.length := by
      simp only [Bool.or_eq_true, not_or, decide_eq_true_eq] at hc
      omega
    -- at most the last name is empty
    obtain ⟨names, hnames, hsegments⟩ : ∃ names : List Text, [] ∉ names ∧
        (segments = names ∨ segments = names ++ [[]]) := by
      refine ⟨_, nil_not_mem_normalizeSegments (key.splitOn '/'), ?_⟩
      unfold normalizeStorageKey at hn
      simp only at hn
      split_ifs at hn
      · exact .inr (Except.ok.inj hn).symm
      · exact .inl (Except.ok.inj hn).symm
    have hfilter : ∀ l : List Text, [] ∉ l → l.filter (· ≠ []) = l := by
      intro l hl
      refine List.filter_eq_self.2 fun a ha => ?_
      simpa using fun h : a = [] => hl (h ▸ ha)
    have htake : ∀ n, [] ∉ names.take n := fun n h => hnames (List.mem_of_mem_take h)
    rcases hsegments with rfl | rfl
    · rw [hfilter _ hnames, hfilter _ (htake 3)]
      exact ⟨by omega, rfl, rfl⟩
    · rw [List.length_append, List.length_singleton] at hlen
      rw [List.filter_append, hfilter _ hnames, List.take_append_of_le_length (by omega),
        List.take_append_of_le_length (by omega), hfilter _ (htake 3)]
      simp only [ne_eq, not_true_eq_false, decide_false, Bool.false_eq_true, not_false_eq_true,
        List.filter_cons_of_neg, List.filter_nil, List.append_nil]
      exact ⟨by omega, trivial, List.take_append_of_le_length (by omega)⟩

theorem mem_takeWhile_of_pairwise {α : Type} {p : α → Bool} {l : List α} {x : α}
    (hl : l.Pairwise fun a b => p b = true → p a = true) (hx : x ∈ l) (hp : p x = true) :
    x ∈ l.takeWhile p := by
  induction l with
  | nil => cases hx
  | cons y ys ih =>
    obtain ⟨hy, hys⟩ := List.pairwise_cons.1 hl
    rcases List.mem_cons.1 hx with rfl | hx
    · rw [List.takeWhile_cons_of_pos hp]
      exact List.mem_cons_self
    · rw [List.takeWhile_cons_of_pos (hy x hx hp)]
      exact List.mem_cons_of_mem _ (ih hys hx)

theorem pairwise_prefixesFrom (base rest : Key) : (prefixesFrom base rest).Pairwise (· <+: ·) := by
  induction rest generalizing base with
  | nil => exact List.Pairwise.nil
  | cons s rest ih =>
    refine List.pairwise_cons.2 ⟨fun k hk => ?_, ih _⟩
    obtain ⟨p, -, -, rfl⟩ := mem_prefixesFrom.1 hk
    exact List.prefix_append _ _

/-- Every folder of the artifact on the way to the node is tried. -/
theorem mem_artifactFolders {artifactRoot d target : Key} (hd : d ∈ prefixes target)
    (hroot : artifactRoot <+: d) :
    d ∈ (prefixes target).reverse.takeWhile (artifactRoot <+: ·) := by
  refine mem_takeWhile_of_pairwise ?_ (List.mem_reverse.2 hd) (decide_eq_true hroot)
  rw [List.pairwise_reverse]
  refine (pairwise_prefixesFrom [] target).imp fun {a b} hab h => ?_
  exact decide_eq_true ((of_decide_eq_true h).trans hab)

/-! ## Deletes -/

/-- What is gone of the way to `target` is not volatile, under the condition `C`. -/
def Cleared (C : Prop) (target : Key) (fs : Fs) (e : Key) : Prop :=
  C → e ∈ prefixes target → fs.get e ≠ none

/-- A removed folder is the only entry that its removal unsettles. -/
theorem volatile_removed {w : World} {op : FsOp} {d : Key} (hd0 : d ≠ [])
    (hop : op = .unlink d ∨ op = .removeTree d ∨ op = .rmdir d)
    (hv : Volatile (Cleared C target) w) :
    Volatile (fun fs e => e = d ∨ Cleared C target fs e)
      ({ w with fs := w.fs.removeUnder d [] }.emit (.changed phase op)) := by
  have hmain : ∀ e ∈ (FsOp.rmdir d).unsettles (w.fs.removeUnder d []) (volatile w.log),
      e = d ∨ Cleared C target (w.fs.removeUnder d []) e := by
    intro e he
    rcases List.mem_cons.1 he with rfl | he
    · exact .inl rfl
    obtain ⟨e₀, he₀, rfl⟩ := List.mem_map.1 he
    split_ifs with hdir
    · by_cases hed : e₀ = d
      · exact .inl hed
      refine .inr fun hc hmem => ?_
      have hout : ¬ d <+: e₀ := by
        intro hp
        -- its folder would have gone too
        have hp' : d <+: dirname e₀ := by
          have he0 : e₀ ≠ [] := (mem_prefixes.1 hmem).1
          obtain ⟨x, hx⟩ : ∃ x, dirname e₀ ++ [x] = e₀ := ⟨_, List.dropLast_append_getLast he0⟩
          rw [← hx] at hp
          rcases List.prefix_concat_iff.1 hp with h | h
          · exact absurd (hx.symm.trans h.symm) hed
          · exact h
        rcases hdir with h | h
        · rw [h] at hp'
          exact hd0 (List.prefix_nil.1 hp')
        · rw [Fs.get_removeUnder] at h
          simp [Fs.outlives, hp'] at h
      rw [Fs.get_removeUnder, if_pos (by simp [Fs.outlives, hout])]
      exact hv e₀ he₀ hc hmem
    · exact .inl rfl
  rcases hop with rfl | rfl | rfl <;> exact hmain

theorem ne_nil_of_get {fs : Fs} {k : Key} (h : fs.get k ≠ none) : k ≠ [] :=
  fs.rooted k (Fs.mem_keys_iff.2 h)

/-- A folder that is tried is gone unless it has entries, and its removal is synced. -/
theorem triple_removeArtifactDirectory_cleared {d : Key} (C : Prop) (target : Key) (log : Log)
    (ids : List Nat) (gone : List Key) :
    Triple (fun w => During m log ids w ∧ (∀ k ∈ gone, w.fs.get k = none) ∧
        Volatile (Cleared C target) w)
      (removeArtifactDirectory phase d)
      (fun r w => During m log ids w ∧ (∀ k ∈ gone, w.fs.get k = none) ∧
        (r ≠ .notEmpty → w.fs.get d = none) ∧ Volatile (Cleared C target) w)
      fun _ => During m log ids := by
  have hA : Stable fun w => During m log ids w ∧ (∀ k ∈ gone, w.fs.get k = none) ∧
      Volatile (Cleared C target) w :=
    stable_of_drift fun w w' h hd => ⟨h.1.drift hd, by rw [hd.fs]; exact h.2.1, h.2.2.drift hd⟩
  unfold removeArtifactDirectory
  refine Triple.bind (Q := fun r w => During m log ids w ∧ (∀ k ∈ gone, w.fs.get k = none) ∧
    (r ≠ .notEmpty → w.fs.get d = none) ∧
    Volatile (fun fs e => (r = .removed ∧ e = d) ∨ Cleared C target fs e) w) ?_ fun r => ?_
  · refine hA.call ?_ (fun _ _ h => h.1) fun _ h => h.1
    rintro w ⟨hw, hgone, hv⟩
    dsimp only
    cases hd : w.fs.get d with
    | none => exact ⟨hw, hgone, fun _ => hd, hv.mono fun _ => .inr⟩
    | some node =>
      cases node with
      | file bytes => exact hw
      | other => exact hw
      | directory =>
        by_cases he : w.fs.hasEntries d = true
        · simp only [he, if_true]
          exact ⟨hw, hgone, fun h => absurd rfl h, hv.mono fun _ => .inr⟩
        · rw [Bool.not_eq_true] at he
          have hd' : w.fs.get d ≠ none := by
            rw [hd]
            exact Option.some_ne_none _
          simp only [he, Bool.false_eq_true, if_false]
          refine ⟨hw.removed hd' (.inr (.inr rfl)), ?_, fun _ => Fs.get_removeUnder_self _ _, ?_⟩
          · exact fun k hk => Fs.get_removeUnder_of_none (hgone k hk)
          · refine (volatile_removed (ne_nil_of_get hd') (.inr (.inr rfl)) hv).mono ?_
            rintro e (he | he)
            · exact .inl ⟨trivial, he⟩
            · exact .inr he
  · by_cases hr : r = .removed
    · subst hr
      refine Triple.pre (P := fun w => (During m log ids w ∧ (∀ k ∈ gone, w.fs.get k = none) ∧
        w.fs.get d = none) ∧ Volatile (fun fs e => e = d ∨ Cleared C target fs e) w) ?_ ?_
      · have hdrift : ∀ w w' : World, (During m log ids w ∧ (∀ k ∈ gone, w.fs.get k = none) ∧
            w.fs.get d = none) → Drift w w' → During m log ids w' ∧
            (∀ k ∈ gone, w'.fs.get k = none) ∧ w'.fs.get d = none :=
          fun w w' h hd => ⟨h.1.drift hd, by rw [hd.fs]; exact h.2⟩
        rw [if_pos rfl]
        refine Triple.seq ((triple_syncParents_settles hdrift _ [d]).exits fun _ h => h.1)
          (triple_pure fun w h => ⟨h.1.1, h.1.2.1, fun _ => h.1.2.2, h.2.mono ?_⟩)
        rintro e ⟨rfl | he, hne⟩
        · exact absurd rfl (hne e (List.mem_singleton_self e))
        · exact he
      · rintro w ⟨hw, hgone, hd, hv⟩
        refine ⟨⟨hw, hgone, hd (by simp)⟩, hv.mono ?_⟩
        rintro e (⟨-, he⟩ | he)
        · exact .inl he
        · exact .inr he
    · rw [if_neg hr]
      refine triple_pure fun w h => ⟨h.1, h.2.1, h.2.2.1, h.2.2.2.mono ?_⟩
      rintro e (⟨he, -⟩ | he)
      · exact absurd he hr
      · exact he

theorem triple_removeArtifactDirectories_cleared (ks gone : List Key) :
    Triple (fun w => During m log ids w ∧ (∀ k ∈ gone, w.fs.get k = none) ∧
        Volatile (Cleared C target) w)
      (removeArtifactDirectories ks)
      (fun all w => During m log ids w ∧ (all = true → ∀ k ∈ gone ++ ks, w.fs.get k = none) ∧
        Volatile (Cleared C target) w)
      fun _ => During m log ids := by
  induction ks generalizing gone with
  | nil =>
    refine triple_pure fun w h => ⟨h.1, fun _ => ?_, h.2.2⟩
    rw [List.append_nil]
    exact h.2.1
  | cons d rest ih =>
    unfold removeArtifactDirectories
    refine (triple_removeArtifactDirectory_cleared C target log ids gone).bind fun r => ?_
    refine triple_ite (fun hr => ?_) fun hr => ?_
    · exact triple_pure fun w h => ⟨h.1, (fun hf => by cases hf), h.2.2.2⟩
    · refine (ih (gone ++ [d])).weaken ?_ ?_ fun _ _ h => h
      · rintro w ⟨hw, hgone, hd, hv⟩
        refine ⟨hw, fun k hk => ?_, hv⟩
        rcases List.mem_append.1 hk with hk | hk
        · exact hgone k hk
        · rw [List.mem_singleton.1 hk]
          exact hd hr
      · rintro all w ⟨hw, hall, hv⟩
        refine ⟨hw, fun h => ?_, hv⟩
        rw [show gone ++ d :: rest = gone ++ [d] ++ rest by simp]
        exact hall h

/-- Once all of an artifact's folders are gone and the folder of its kind is synced, nothing that is
gone of the way is volatile. -/
theorem volatile_artifactGone {key : Text} {artifactRoot kindRoot : Key} {w : World}
    (hr : getOwnedArtifactRoot key = .ok (some (artifactRoot, kindRoot)))
    (ht : resolveMutationStoragePath key = .ok target) (hw : During m log ids w)
    (hgone : ∀ k ∈ (prefixes (dirname target)).reverse.takeWhile (artifactRoot <+: ·),
      w.fs.get k = none)
    (hdir : w.fs.IsDirectory kindRoot) (hv : Volatile (fun _ e => dirname e ≠ kindRoot) w) :
    Volatile (Cleared True target) w := by
  obtain ⟨hlen, rfl, rfl⟩ := ownedRoot_eq hr ht
  intro e he _ hmem hnone
  obtain ⟨he0, hp⟩ := mem_prefixes.1 hmem
  have hlast : dirname e = target.take (e.length - 1) := by
    have heq := List.prefix_iff_eq_take.1 hp
    rw [dirname, List.dropLast_eq_take, heq, List.take_take, List.length_take]
    congr 1
    omega
  rcases Nat.lt_or_ge 3 e.length with hlong | hshort
  · -- its folder was one of the artifact's
    have hbelow : dirname e ∈ prefixes (dirname target) := by
      refine mem_prefixes.2 ⟨?_, ?_⟩
      · intro h0
        have hzero : (dirname e).length = 0 := by rw [h0]; rfl
        rw [dirname, List.length_dropLast] at hzero
        omega
      · rw [hlast, dirname, List.dropLast_eq_take]
        exact List.take_prefix_take_left (by have := hp.length_le; omega)
    have hroot : target.take 3 <+: dirname e := by
      rw [hlast]
      exact List.take_prefix_take_left (by omega)
    have hmissing := hgone _ (mem_artifactFolders hbelow hroot)
    rcases hw.kept.rooted e he with h | h
    · exact (mem_prefixes.1 hbelow).1 h
    · rw [hmissing] at h
      cases h
  · by_cases h3 : e.length = 3
    · apply hv e he
      rw [hlast, h3]
    · have hkind : e ∈ prefixes (target.take 2) := by
        refine mem_prefixes.2 ⟨he0, ?_⟩
        rw [List.prefix_iff_eq_take.1 hp]
        exact List.take_prefix_take_left (by omega)
      refine exists_of_prefix ?_ hkind hnone
      rcases hdir with h | h
      · have hzero : (target.take 2).length = 0 := by rw [h]; rfl
        rw [List.length_take] at hzero
        omega
      · rw [h]
        exact Option.some_ne_none _

theorem triple_removeEmptyArtifactAncestors_cleared {key : Text}
    (ht : resolveMutationStoragePath key = .ok target) :
    Triple (fun w => During m log ids w ∧ Volatile (Cleared C target) w)
      (removeEmptyArtifactAncestors key target)
      (fun all w => During m log ids w ∧ Volatile (Cleared (C ∨ all = true) target) w)
      fun _ => During m log ids := by
  have hfalse : ∀ w, Volatile (Cleared C target) w →
      Volatile (Cleared (C ∨ false = true) target) w := by
    intro w hv
    refine hv.mono fun e he hc => he ?_
    rcases hc with hc | hc
    · exact hc
    · cases hc
  unfold removeEmptyArtifactAncestors
  refine (triple_check.exits fun _ h => h.1).bind fun r => Triple.assume fun hr => ?_
  cases r with
  | none => exact triple_pure fun w h => ⟨h.1, hfalse w h.2⟩
  | some roots =>
    obtain ⟨artifactRoot, kindRoot⟩ := roots
    refine ((triple_removeArtifactDirectories_cleared _ []).pre
      fun w h => ⟨h.1, (fun _ hk => by cases hk), h.2⟩).bind fun all => ?_
    cases all with
    | false => exact triple_pure fun w h => ⟨h.1, hfalse w h.2.2⟩
    | true =>
      rw [if_pos rfl]
      have hA : Stable fun w => During m log ids w ∧ (true = true →
          ∀ k ∈ [] ++ (prefixes (dirname target)).reverse.takeWhile (artifactRoot <+: ·),
            w.fs.get k = none) ∧ Volatile (Cleared C target) w :=
        stable_of_drift fun w w' h hd =>
          ⟨h.1.drift hd, by rw [hd.fs]; exact h.2.1, h.2.2.drift hd⟩
      refine Triple.seq ((triple_syncDirectory_settles hA).exits fun _ h => h.1)
        (triple_pure ?_)
      rintro w ⟨⟨hw, hgone, -⟩, hdir, hv⟩
      refine ⟨hw, ?_⟩
      exact (volatile_artifactGone hr ht hw (hgone rfl) hdir hv).mono fun e he _ => he trivial

/-- A sync of the folder a missing node was in settles all that is gone of its way. -/
theorem triple_sealParent :
    Triple (During m log ids) (syncParents [target])
      (fun _ w => During m log ids w ∧ Volatile (Cleared True target) w)
      fun _ => During m log ids := by
  have hone : (([target].map dirname).eraseDups : List Key) = [dirname target] := by
    simp [List.eraseDups_cons]
  unfold syncParents
  rw [hone]
  refine Triple.seq (triple_syncDirectory_settles (During.stable m log ids)) (triple_pure ?_)
  rintro w ⟨hw, hdir, hv⟩
  refine ⟨hw, hv.mono fun e hne _ hmem => ?_⟩
  apply exists_of_isDirectory hdir hmem
  rintro rfl
  exact hne rfl

/-- A check that throws stands before the rest. -/
theorem triple_guarded {α : Type} {c : Prop} [Decidable c] {fails : M Unit} {rest : M α} {P : World → Prop}
    {Q : α → World → Prop} {E : Stop Err → World → Prop} (hfails : Triple P fails (fun _ => P) E)
    (hrest : Triple P rest Q E) :
    Triple P (if c then fails >>= fun _ => rest else rest) Q E :=
  triple_ite (fun _ => Triple.seq hfails hrest) fun _ => hrest

theorem triple_deleteMutationFile_kept {step : Step} (hl : LeaseCheck lease) :
    Triple (During m log ids) (deleteMutationFile H target step lease)
      (fun _ => During m log ids) fun _ => During m log ids := by
  have hA := During.stable m log ids
  unfold deleteMutationFile
  refine triple_guarded (triple_throw fun _ h => h) ?_
  refine Triple.seq ((triple_readCall hA).post fun _ _ h => h.1) (Triple.seq (hl _ hA) ?_)
  refine (triple_fsCall hA (fun _ h => h) ?_).post fun _ _ h => h.1
  intro w fs hw hf
  cases hget : w.fs.get target with
  | none => rw [hget] at hf; cases hf
  | some node =>
    have hthere : w.fs.get target ≠ none := by
      rw [hget]
      exact Option.some_ne_none _
    cases node with
    | directory => rw [hget] at hf; cases hf
    | file bytes =>
      rw [hget] at hf
      obtain rfl := Except.ok.inj hf
      exact hw.removed hthere (.inl rfl)
    | other =>
      rw [hget] at hf
      obtain rfl := Except.ok.inj hf
      exact hw.removed hthere (.inl rfl)

theorem triple_removeTree_kept :
    Triple (fun w => During m log ids w ∧ w.fs.get target ≠ none) (removeTree target)
      (fun _ => During m log ids) fun _ => During m log ids := by
  have hA := (During.stable m log ids).tree fun fs => fs.get target ≠ none
  refine triple_callWith (R := fun w => During m log ids w ∧ w.fs.get target ≠ none)
    (E := fun _ => During m log ids) hA.tick ?_ (fun _ _ h _ => h) (fun _ _ h => h) ?_
  · rintro w ⟨hw, hget⟩
    exact hw.removed hget (.inr (.inl rfl))
  · rintro took w ⟨hw, hget⟩ s
    cases took with
    | partly left => exact hw.removed hget (.inr (.inl rfl))
    | no => exact hw
    | yes => exact hw
    | later => exact hw

theorem triple_deleteMutationTree_kept {step : Step} {node : Node} {owned : Bool}
    (hl : LeaseCheck lease) :
    Triple (fun w => During m log ids w ∧ w.fs.get target ≠ none)
      (deleteMutationTree H target node step lease owned)
      (fun _ => During m log ids) fun _ => During m log ids := by
  have hA := (During.stable m log ids).tree fun fs => fs.get target ≠ none
  have hleft : ∀ w, (During m log ids w ∧ w.fs.get target ≠ none) → During m log ids w :=
    fun _ h => h.1
  have hremove : Triple (fun w => During m log ids w ∧ w.fs.get target ≠ none)
      (do
        lease
        removeTree target)
      (fun _ => During m log ids) fun _ => During m log ids :=
    Triple.seq ((hl _ hA).exits hleft) triple_removeTree_kept
  unfold deleteMutationTree
  refine triple_guarded (triple_throw hleft) ?_
  cases truthy step.treeManifestDigest with
  | none => exact triple_throw hleft
  | some digest =>
    refine ((triple_readCall hA).weaken (fun _ h => h) (fun _ _ h => h.1)
      fun _ => hleft).bind fun same => ?_
    exact triple_guarded (triple_throw hleft) hremove

theorem triple_removeMutationDirectory_kept {node : Node} (hl : LeaseCheck lease) :
    Triple (During m log ids) (removeMutationDirectory target node lease)
      (fun _ => During m log ids) fun _ => During m log ids := by
  have hA := During.stable m log ids
  unfold removeMutationDirectory
  refine triple_guarded (triple_throw fun _ h => h) (Triple.seq (hl _ hA) ?_)
  refine (triple_fsCall hA (fun _ h => h) ?_).post fun _ _ h => h.1
  intro w fs hw hf
  split at hf
  · rename_i hget
    split_ifs at hf
    obtain rfl := Except.ok.inj hf
    refine hw.removed ?_ (.inr (.inr rfl))
    rw [hget]
    exact Option.some_ne_none _
  · cases hf

/-- A delete step that returns has settled all that is gone of its way, also where it found the node
missing. -/
theorem triple_applyDelete_cleared {step : Step} {owned : Bool} (hl : LeaseCheck lease) :
    Triple (During m log ids) (applyDelete H step lease owned)
      (fun _ w => During m log ids w ∧ ∀ key target, step.victim = some (key, target) →
        Volatile (Cleared True target) w)
      fun _ => During m log ids := by
  have hA := During.stable m log ids
  unfold applyDelete
  cases hk : truthy (step.targetKey.or step.sourceKey) with
  | none => exact triple_throw fun _ h => h
  | some key =>
    refine triple_check.bind fun target => Triple.assume fun ht => ?_
    refine Triple.post (Q := fun _ w => During m log ids w ∧ Volatile (Cleared True target) w) ?_ ?_
    · refine Triple.seq ((triple_assertSafeStorageAncestors hA).post fun _ _ h => h.1) ?_
      refine (triple_pathState hA).bind fun state => ?_
      cases state with
      | none =>
        refine ((triple_removeEmptyArtifactAncestors_cleared (C := False) ht).pre
          fun w h => ⟨h.1, fun _ _ hf => absurd hf id⟩).bind fun all => ?_
        cases all with
        | false => exact triple_sealParent.pre fun _ h => h.1
        | true =>
          exact triple_pure fun w h => ⟨h.1, h.2.mono fun e he _ => he (.inr rfl)⟩
      | some node =>
        have hrest : Triple (During m log ids)
            (do
              syncParents [target]
              let _ ← removeEmptyArtifactAncestors key target)
            (fun _ w => During m log ids w ∧ Volatile (Cleared True target) w)
            fun _ => During m log ids := by
          refine Triple.seq triple_sealParent ?_
          refine (triple_removeEmptyArtifactAncestors_cleared ht).bind fun all => ?_
          exact triple_pure fun w h => ⟨h.1, h.2.mono fun e he _ => he (.inl trivial)⟩
        have hthere : ∀ w, (During m log ids w ∧ w.fs.get target = some node) →
            During m log ids w ∧ w.fs.get target ≠ none := by
          intro w h
          refine ⟨h.1, ?_⟩
          rw [h.2]
          exact Option.some_ne_none _
        cases step.action with
        | deleteFile =>
          exact Triple.seq ((triple_deleteMutationFile_kept hl).pre fun _ h => h.1) hrest
        | deleteTree => exact Triple.seq ((triple_deleteMutationTree_kept hl).pre hthere) hrest
        | removeEmptyDirectory =>
          exact Triple.seq ((triple_removeMutationDirectory_kept hl).pre fun _ h => h.1) hrest
        | rename =>
          exact Triple.seq ((triple_removeMutationDirectory_kept hl).pre fun _ h => h.1) hrest
        | mkdir =>
          exact Triple.seq ((triple_removeMutationDirectory_kept hl).pre fun _ h => h.1) hrest
    · rintro _ w ⟨hw, hv⟩
      refine ⟨hw, fun key' target' hvictim => ?_⟩
      obtain ⟨hk', ht'⟩ := Step.victim_eq_some hvictim
      rw [hk] at hk'
      obtain rfl := Option.some.inj hk'
      rw [ht] at ht'
      obtain rfl := Except.ok.inj ht'
      exact hv

/-! ## Steps -/

/-- Between two steps: the tree is as it was at the last claim or record, and nothing has become
volatile since. -/
structure AtRest (m : Mutation) (ids : List Nat) (w : World) : Prop where
  kept : Orderly m w
  tree : ∃ e older, begun w.log = (e, w.fs) :: older
  settled : ∀ e ∈ volatile w.log, e ∈ volatile (begun w.log)
  marked : ∀ id ∈ ids, IsMarked w.log id

theorem AtRest.drift {w w' : World} (h : AtRest m ids w) (hd : Drift w w') : AtRest m ids w' where
  kept := h.kept.drift hd
  tree := by
    rw [(drift_log hd).1, hd.fs]
    exact h.tree
  settled e he := by
    rw [(drift_log hd).1]
    exact h.settled e ((drift_log hd).2.1 e he)
  marked id hid := (drift_log hd).2.2 id (h.marked id hid)

theorem AtRest.stable : Stable (AtRest m ids) := stable_of_drift fun _ _ h hd => h.drift hd

/-- The last event is a claim or a record. -/
theorem atRest_begins {w : World} {e : Event} {older : Log} (hw : Orderly m w)
    (he : e.begins = true) (hlog : w.log = (e, w.fs) :: older)
    (hmarked : ∀ id ∈ ids, IsMarked w.log id) : AtRest m ids w := by
  have hbegun : begun w.log = w.log := by
    rw [hlog, begun, he]
    rfl
  refine ⟨hw, ⟨e, older, ?_⟩, ?_, hmarked⟩
  · rw [hbegun, hlog]
  · rw [hbegun]
    exact fun _ h => h

theorem AtRest.during {w : World} (h : AtRest m ids w) : During m (begun w.log) ids w :=
  ⟨h.kept, rfl, h.marked⟩

/-- What the step may find in place is not volatile, if nothing volatile was there at the start. -/
theorem AtRest.unfound {w : World} (h : AtRest m ids w) {step : Step} {work : Work}
    (hw : step.work = some work) :
    Volatile (Unfound (FoundSettled step (begun w.log)) work) w := by
  obtain ⟨e, older, hbegun⟩ := h.tree
  intro k hk hfound hplace
  exact hfound work hw e w.fs older hbegun k hplace (h.settled k hk)

theorem not_mem_volatile_of_settled {w : World} {step : Step} {work : Work}
    (hw : step.work = some work) (hv : Volatile (Settled C work) w) :
    C → ∀ e, step.Touches w.fs e → e ∉ volatile w.log := by
  intro hC e htouch he
  unfold Step.Touches at htouch
  rw [hw] at htouch
  have hsettled := hv e he hC
  cases work with
  | rename source target => exact htouch.elim hsettled.1 hsettled.2
  | mkdir target digest => exact hsettled htouch

theorem Step.work_of_cleanup {step : Step} (h : isCleanup step.action = true) :
    step.work = none := by
  unfold Step.work
  cases ha : step.action with
  | rename => rw [ha] at h; cases h
  | mkdir => rw [ha] at h; cases h
  | deleteFile => rfl
  | deleteTree => rfl
  | removeEmptyDirectory => rfl

/-- A step that returns has had an effect that is durable, if it found nothing volatile in place. -/
theorem triple_applyFilesystemStep_durable {step : Step} {start : Log} (hl : LeaseCheck lease) :
    Triple (fun w => AtRest m ids w ∧ begun w.log = start) (applyFilesystemStep H m step lease)
      (fun _ w => During m start ids w ∧
        (FoundSettled step start → ∀ e, step.Touches w.fs e → e ∉ volatile w.log))
      fun _ => During m start ids := by
  have hdelete : isCleanup step.action = true →
      Triple (fun w => AtRest m ids w ∧ begun w.log = start)
        (do
          let owned ← check (isOwnedQuarantineTreeDelete m (← get).memory step)
          applyDelete H step lease owned)
        (fun _ w => During m start ids w ∧
          (FoundSettled step start → ∀ e, step.Touches w.fs e → e ∉ volatile w.log))
        fun _ => During m start ids := by
    intro hc
    refine Triple.pre (P := During m start ids) ?_ fun w h => h.2 ▸ h.1.during
    refine (triple_get (Q := fun _ => During m start ids) fun _ h => h).bind fun s => ?_
    refine triple_check.bind fun owned => ?_
    refine ((triple_applyDelete_cleared hl).pre fun _ h => h.1).post ?_
    rintro _ w ⟨hw, hv⟩
    refine ⟨hw, fun _ e htouch he => ?_⟩
    unfold Step.Touches at htouch
    rw [Step.work_of_cleanup hc] at htouch
    obtain ⟨key, target, hvictim, hmem, hget⟩ := htouch
    exact hv key target hvictim e he trivial hmem hget
  unfold applyFilesystemStep
  cases ha : step.action with
  | rename =>
    refine (triple_applyRename_settles (FoundSettled step start) _ _ hl).weaken ?_ ?_
      fun _ _ h => h
    · rintro w ⟨hw, rfl⟩
      exact ⟨hw.during, fun s t hi hs ht => hw.unfound (Step.work_of_rename ha hi hs ht)⟩
    · rintro _ w ⟨hw, source, target, hi, hs, ht, hv⟩
      exact ⟨hw, not_mem_volatile_of_settled (Step.work_of_rename ha hi hs ht) hv⟩
  | mkdir =>
    refine (triple_applyMkdir_settles (C := FoundSettled step start) hl).weaken ?_ ?_
      fun _ _ h => h
    · rintro w ⟨hw, rfl⟩
      exact ⟨hw.during, fun key target digest hk hd ht =>
        hw.unfound (Step.work_of_mkdir ha hk hd ht)⟩
    · rintro _ w ⟨hw, key, target, digest, hk, hd, ht, hv⟩
      exact ⟨hw, not_mem_volatile_of_settled (Step.work_of_mkdir ha hk hd ht) hv⟩
  | deleteFile => exact hdelete (by rw [ha]; rfl)
  | deleteTree => exact hdelete (by rw [ha]; rfl)
  | removeEmptyDirectory => exact hdelete (by rw [ha]; rfl)

variable {held : Lease}

/-- The record of a durable step is in order. -/
theorem triple_markStorageMutationStepApplied_durable {step : Step} {start : Log}
    (hs : step ∈ m.steps) :
    Triple (fun w => During m start ids w ∧
        (FoundSettled step start → ∀ e, step.Touches w.fs e → e ∉ volatile w.log))
      (markStorageMutationStepApplied step.id held)
      (fun _ => AtRest m (step.id :: ids)) fun _ => Orderly m := by
  have hA : Stable fun w => During m start ids w ∧
      (FoundSettled step start → ∀ e, step.Touches w.fs e → e ∉ volatile w.log) := by
    refine stable_of_drift fun w w' h hd => ⟨h.1.drift hd, fun hfound e htouch he => ?_⟩
    rw [hd.fs] at htouch
    exact h.2 hfound e htouch ((drift_log hd).2.1 e he)
  refine triple_rowCall hA (fun _ h => h.1.kept) (fun _ h => h.kept) ?_
  rintro w w' ⟨hw, hdurable⟩ hf
  split_ifs at hf
  obtain rfl := Option.some.inj hf
  have hkept : Orderly m ({ w with applied := step.id :: w.applied }.emit (.marked step.id)) := by
    refine hw.kept.note (e := .marked step.id) ?_ (fun _ hk => hk) rfl rfl ?_ (fun _ => .inl) id
    · intro other hother hid hfound
      rw [eq_of_id_eq hother hs hid] at hfound ⊢
      rw [hw.begun] at hfound
      exact hdurable hfound
    · intro id hid
      rcases List.mem_cons.1 hid with rfl | hid
      · exact .inr rfl
      · exact .inl hid
  refine atRest_begins hkept (e := .marked step.id) rfl rfl fun id hid => ?_
  rcases List.mem_cons.1 hid with rfl | hid
  · exact ⟨w.fs, List.mem_cons_self⟩
  · exact (hw.marked id hid).cons _

theorem triple_start {α : Type} {Q : α → World → Prop} {E : Stop Err → World → Prop} {x : M α}
    (h : ∀ start, Triple (fun w => A w ∧ begun w.log = start) x Q E) : Triple A x Q E :=
  fun w hw => h (begun w.log) w ⟨hw, rfl⟩

theorem triple_applyStorageMutationStep_durable {step : Step} (hs : step ∈ m.steps) :
    Triple (AtRest m ids) (applyStorageMutationStep H m held step)
      (fun _ => AtRest m (step.id :: ids)) fun _ => Orderly m := by
  unfold applyStorageMutationStep
  refine Triple.seq ((leaseCheck_assertLease held _ AtRest.stable).exits fun _ h => h.kept) ?_
  refine triple_start fun start => ?_
  refine Triple.seq (Q := fun _ w => During m start ids w ∧
    (FoundSettled step start → ∀ e, step.Touches w.fs e → e ∉ volatile w.log)) ?_ ?_
  · refine Triple.exits (I := During m start ids) ?_ fun _ h => h.kept
    refine (triple_applyFilesystemStep_durable (leaseCheck_assertLease held)).handle
      (fun _ h => h) fun e => ?_
    exact Triple.seq ((triple_readCall (During.stable _ _ _)).post fun _ _ h => h.1)
      (triple_throw fun _ h => h)
  · refine Triple.seq (triple_markStorageMutationStepApplied_durable hs) ?_
    refine triple_modify fun w h => ?_
    refine ⟨h.kept.recall rfl rfl rfl (fun id hid => ?_) id, h.tree, h.settled, h.marked⟩
    rcases List.mem_cons.1 hid with rfl | hid
    · exact .inr (h.marked _ List.mem_cons_self)
    · exact .inl hid

/-- All steps of the phase are on record when the loop is through. -/
theorem triple_applyStorageMutationSteps_durable {cleanup : Bool} {steps : List Step}
    (hsteps : ∀ step ∈ steps, step ∈ m.steps) :
    Triple (AtRest m ids) (applyStorageMutationSteps H m held cleanup steps)
      (fun _ w => AtRest m ids w ∧
        ∀ step ∈ steps, isCleanup step.action = cleanup → IsMarked w.log step.id)
      fun _ => Orderly m := by
  induction steps generalizing ids with
  | nil => exact triple_pure fun w h => ⟨h, fun _ hs => by cases hs⟩
  | cons step rest ih =>
    have hrest : ∀ s ∈ rest, s ∈ m.steps := fun s hs => hsteps s (List.mem_cons_of_mem _ hs)
    -- the step is on record by now, or of the other phase
    have hloop : ∀ done : List Nat, (isCleanup step.action = cleanup → step.id ∈ done) →
        (∀ id ∈ ids, id ∈ done) →
        Triple (AtRest m done) (applyStorageMutationSteps H m held cleanup rest)
          (fun _ w => AtRest m ids w ∧
            ∀ s ∈ step :: rest, isCleanup s.action = cleanup → IsMarked w.log s.id)
          fun _ => Orderly m := by
      intro done hdone hids
      refine (ih hrest).post ?_
      rintro _ w ⟨hw, hmarked⟩
      refine ⟨⟨hw.kept, hw.tree, hw.settled, fun id hid => hw.marked id (hids id hid)⟩, ?_⟩
      intro s hs hc
      rcases List.mem_cons.1 hs with rfl | hs
      · exact hw.marked _ (hdone hc)
      · exact hmarked s hs hc
    unfold applyStorageMutationSteps
    refine (triple_get (Q := fun s w => AtRest m ids w ∧ s = w) fun w h => ⟨h, rfl⟩).bind
      fun s => ?_
    refine triple_ite (fun hc => ?_) fun hc => ?_
    · refine Triple.seq ((triple_applyStorageMutationStep_durable (hsteps step List.mem_cons_self)).pre
        fun _ h => h.1) (hloop (step.id :: ids) (fun _ => List.mem_cons_self) ?_)
      exact fun id hid => List.mem_cons_of_mem _ hid
    · by_cases hmem : step.id ∈ s.memory
      · refine (hloop (step.id :: ids) (fun _ => List.mem_cons_self)
          fun id hid => List.mem_cons_of_mem _ hid).pre ?_
        rintro w ⟨hw, rfl⟩
        refine ⟨hw.kept, hw.tree, hw.settled, fun id hid => ?_⟩
        rcases List.mem_cons.1 hid with rfl | hid
        · exact hw.kept.memory _ hmem
        · exact hw.marked id hid
      · refine (hloop ids (fun hphase => absurd ?_ hc) fun _ hid => hid).pre fun _ h => h.1
        simp only [List.contains_eq_mem, hmem, hphase, decide_false, Bool.not_false, decide_true,
          Bool.and_self]

end Staaash.Journal
