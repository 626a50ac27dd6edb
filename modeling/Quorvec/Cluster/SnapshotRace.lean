import Quorvec.Cluster.StateMachine
import Mathlib.Data.Prod.Lex

/-!
# Snapshots that are built while others are installed

The builder is a clone of the store: it reads the state, draws an index and
stores its snapshot, each under another lock.  The store itself applies entries
and installs snapshots at the same time; an install replaces the state first and
then the current snapshot.

A build that is stored after a whole install puts an older snapshot in the place
of the installed one.  No other order of the steps takes the current snapshot
back.
-/

namespace Quorvec

/-- The derived order of the log ids: by leader, then by index; no id comes
first. -/
def LogId.rank (last : Option LogId) : WithBot (ℕ ×ₗ ℕ ×ₗ ℕ) :=
  match last with
  | none => ⊥
  | some id => ((toLex (id.leaderId.term,
      toLex (id.leaderId.nodeId.toNat, id.index)) : ℕ ×ₗ ℕ ×ₗ ℕ) :
        WithBot (ℕ ×ₗ ℕ ×ₗ ℕ))

section Types

variable (Membership : Type)

structure NamedSnapshot extends StoredSnapshot Membership where
  snapshotId : String

/-- A build between its locks. -/
structure Build where
  /-- What was read. -/
  image : StoredSnapshot Membership
  snapshotId : Option String
  /-- How many installs had replaced the state when it was read. -/
  seen : ℕ

/-- A store and its builder. -/
structure SharedStore where
  store : StateMachineStore Membership
  snapshotIdx : ℕ
  /-- The id of the current snapshot. -/
  snapshotId : Option String
  /-- The builder, while it builds. -/
  build : Option (Build Membership)
  /-- The snapshot that is being installed, between the two locks. -/
  installing : Option (NamedSnapshot Membership)
  /-- How many installs have replaced the state. -/
  begun : ℕ
  /-- How many installs have replaced the current snapshot. -/
  ended : ℕ

/-- A step under one lock. -/
inductive SharedStep
  | apply (entries : List (Entry Membership))
  | readState
  | drawIndex
  | storeBuilt
  | installState (snapshot : NamedSnapshot Membership)
  | storeInstalled

end Types

variable {Membership : Type}

/-- Each entry comes after the ones before it. -/
def Follows (last : Option LogId) : List (Entry Membership) → Prop
  | [] => True
  | e :: entries => LogId.rank last < LogId.rank (some e.logId) ∧
      Follows (some e.logId) entries

instance Follows.decidable (last : Option LogId) :
    (entries : List (Entry Membership)) → Decidable (Follows last entries)
  | [] => .isTrue trivial
  | e :: entries =>
      have := Follows.decidable (some e.logId) entries
      inferInstanceAs (Decidable (_ ∧ _))

namespace SharedStore

variable (json : Json) (leaderText : LeaderId → String)

/-- The id of a built snapshot. -/
def builtId (last : Option LogId) (idx : ℕ) : String :=
  match last with
  | some last => s!"{leaderText last.leaderId}-{last.index}-{idx}"
  | none => s!"--{idx}"

/-- The id of the snapshot that the store opens with. -/
def restoredId (last : LogId) : String :=
  s!"{leaderText last.leaderId}-{last.index}-restored"

def «open» [Inhabited Membership] (file : Option (SmDisk Membership)) :
    SharedStore Membership :=
  { store := .open json file
    snapshotIdx := 0
    snapshotId :=
      (file.getD default).lastApplied.map (restoredId leaderText)
    build := none
    installing := none
    begun := 0
    ended := 0 }

/-- `get_current_snapshot`. -/
def getCurrentSnapshot (s : SharedStore Membership) :
    Option (StoredSnapshot Membership × Option String) :=
  s.store.snapshot.map fun snapshot => (snapshot, s.snapshotId)

/-- One step; `none` if it cannot happen.  Entries are applied in the order of
the log, only newer snapshots are installed, and neither happens while a
snapshot is being installed. -/
def step (s : SharedStore Membership) :
    SharedStep Membership → Option (SharedStore Membership)
  | .apply entries =>
      if s.installing.isNone ∧ Follows s.store.inner.lastApplied entries then
        some { s with store := (s.store.apply entries).1 }
      else none
  | .readState =>
      if s.build.isNone then
        let image : StoredSnapshot Membership :=
          { lastLogId := s.store.inner.lastApplied
            lastMembership := s.store.inner.lastMembership
            data := json.toVec s.store.inner.state }
        some { s with
          build := some { image, snapshotId := none, seen := s.begun } }
      else none
  | .drawIndex =>
      match s.build with
      | some { image, snapshotId := none, seen } =>
          let idx := s.snapshotIdx + 1
          some { s with
            snapshotIdx := idx
            build := some
              { image, seen
                snapshotId := builtId leaderText image.lastLogId idx } }
      | _ => none
  | .storeBuilt =>
      match s.build with
      | some { image, snapshotId := some snapshotId, .. } =>
          some { s with
            store := { s.store with snapshot := some image }
            snapshotId
            build := none }
      | _ => none
  | .installState snapshot =>
      if s.installing.isNone ∧
          LogId.rank s.store.inner.lastApplied <
            LogId.rank snapshot.lastLogId then
        match s.store.installMem json snapshot.toStoredSnapshot with
        | none => some s
        | some store =>
            some { s with
              store := store.persist
              installing := some snapshot
              begun := s.begun + 1 }
      else none
  | .storeInstalled =>
      match s.installing with
      | none => none
      | some snapshot =>
          some { s with
            store := { s.store with snapshot := some snapshot.toStoredSnapshot }
            snapshotId := some snapshot.snapshotId
            installing := none
            ended := s.ended + 1 }

/-- An install that replaced the state after the build has read it has replaced
the current snapshot. -/
def Overtaken (s : SharedStore Membership) : Prop :=
  ∃ b, s.build = some b ∧ b.seen < s.ended

/-- The current snapshot is still there, or a later one. -/
def KeepsSnapshot (s s' : SharedStore Membership) : Prop :=
  ∀ old, s.getCurrentSnapshot = some old →
    ∃ new, s'.getCurrentSnapshot = some new ∧
      LogId.rank old.1.lastLogId ≤ LogId.rank new.1.lastLogId

def run (s : SharedStore Membership) (steps : List (SharedStep Membership)) :
    Option (SharedStore Membership) :=
  steps.foldlM (step json leaderText) s

/-- Between any two moments of a run, the current snapshot does not go back. -/
def NeverGoesBack (s : SharedStore Membership)
    (steps : List (SharedStep Membership)) : Prop :=
  ∀ before between after s₁ s₂, steps = before ++ (between ++ after) →
    s.run json leaderText before = some s₁ →
    s₁.run json leaderText between = some s₂ → s₁.KeepsSnapshot s₂

/-- No build is stored after it has been overtaken. -/
def StoresInTime (s : SharedStore Membership)
    (steps : List (SharedStep Membership)) : Prop :=
  ∀ before after s₁, steps = before ++ .storeBuilt :: after →
    s.run json leaderText before = some s₁ → ¬ s₁.Overtaken

end SharedStore

/-! ## What a step does -/

section Steps

open SharedStore

variable {json : Json} {leaderText : LeaderId → String}
variable {s s' : SharedStore Membership} {e : SharedStep Membership}

theorem Follows.rank_le {inner : SmDisk Membership}
    {entries : List (Entry Membership)}
    (h : Follows inner.lastApplied entries) :
    LogId.rank inner.lastApplied ≤
      LogId.rank (inner.applyEntries entries).1.lastApplied := by
  induction entries generalizing inner with
  | nil => exact le_rfl
  | cons e entries ih =>
      have hlast : (inner.applyEntry e).1.lastApplied = some e.logId := by
        rcases e with ⟨logId, _ | req | m⟩ <;> rfl
      obtain ⟨hlt, hrest⟩ := h
      rw [← hlast] at hlt hrest
      exact hlt.le.trans (ih hrest)

namespace SharedStore

theorem step_apply {entries : List (Entry Membership)}
    (h : s.step json leaderText (.apply entries) = some s') :
    s.installing = none ∧ Follows s.store.inner.lastApplied entries ∧
      s' = { s with store := (s.store.apply entries).1 } := by
  rw [step] at h
  split_ifs at h with hcan
  exact ⟨Option.isNone_iff_eq_none.mp hcan.1, hcan.2, (Option.some.inj h).symm⟩

theorem step_readState (h : s.step json leaderText .readState = some s') :
    ∃ image : StoredSnapshot Membership,
      image.lastLogId = s.store.inner.lastApplied ∧
      s' = { s with
        build := some { image, snapshotId := none, seen := s.begun } } := by
  rw [step] at h
  split_ifs at h
  exact ⟨_, rfl, (Option.some.inj h).symm⟩

theorem step_drawIndex (h : s.step json leaderText .drawIndex = some s') :
    ∃ b snapshotId, s.build = some b ∧
      s' = { s with
        snapshotIdx := s.snapshotIdx + 1
        build := some { b with snapshotId := some snapshotId } } := by
  rcases hbuild : s.build with _ | ⟨image, _ | snapshotId, seen⟩
  · simp [step, hbuild] at h
  · simp only [step, hbuild] at h
    exact ⟨_, _, rfl, (Option.some.inj h).symm⟩
  · simp [step, hbuild] at h

theorem step_storeBuilt (h : s.step json leaderText .storeBuilt = some s') :
    ∃ b, s.build = some b ∧
      s' = { s with
        store := { s.store with snapshot := some b.image }
        snapshotId := b.snapshotId
        build := none } := by
  rcases hbuild : s.build with _ | ⟨image, _ | snapshotId, seen⟩
  · simp [step, hbuild] at h
  · simp [step, hbuild] at h
  · simp only [step, hbuild] at h
    exact ⟨_, rfl, (Option.some.inj h).symm⟩

theorem step_installState {snapshot : NamedSnapshot Membership}
    (h : s.step json leaderText (.installState snapshot) = some s') :
    s' = s ∨
      s.installing = none ∧
        LogId.rank s.store.inner.lastApplied <
          LogId.rank snapshot.lastLogId ∧
        ∃ inner : SmDisk Membership,
          inner.lastApplied = snapshot.lastLogId ∧
          s' = { s with
            store := { s.store with inner, file := some inner }
            installing := some snapshot
            begun := s.begun + 1 } := by
  rw [step] at h
  split_ifs at h with hcan
  rw [StateMachineStore.installMem] at h
  cases hread : json.fromSlice snapshot.data with
  | none =>
      rw [hread] at h
      exact .inl (Option.some.inj h).symm
  | some state =>
      rw [hread] at h
      exact .inr ⟨Option.isNone_iff_eq_none.mp hcan.1, hcan.2, _, rfl,
        (Option.some.inj h).symm⟩

theorem step_storeInstalled
    (h : s.step json leaderText .storeInstalled = some s') :
    ∃ snapshot, s.installing = some snapshot ∧
      s' = { s with
        store := { s.store with snapshot := some snapshot.toStoredSnapshot }
        snapshotId := some snapshot.snapshotId
        installing := none
        ended := s.ended + 1 } := by
  rw [step] at h
  split at h
  · cases h
  · exact ⟨_, ‹_›, (Option.some.inj h).symm⟩

end SharedStore

/-! ## The order of the snapshots -/

/-- What was read, against what has been installed since. -/
structure Build.InStep (b : Build Membership) (s : SharedStore Membership) :
    Prop where
  seen_le : b.seen ≤ s.begun
  image_le : LogId.rank b.image.lastLogId ≤
    LogId.rank s.store.inner.lastApplied
  older : b.seen < s.begun →
    LogId.rank b.image.lastLogId < LogId.rank s.store.inner.lastApplied
  whole : s.installing ≠ none → b.seen = s.begun →
    LogId.rank s.store.inner.lastApplied ≤ LogId.rank b.image.lastLogId
  overtaken : b.seen < s.ended → ∃ snapshot,
    s.store.snapshot = some snapshot ∧
      LogId.rank b.image.lastLogId < LogId.rank snapshot.lastLogId
  inTime : s.ended ≤ b.seen → ∀ snapshot, s.store.snapshot = some snapshot →
    LogId.rank snapshot.lastLogId ≤ LogId.rank b.image.lastLogId

namespace SharedStore

/-- The state is as late as the current snapshot, and as what was read. -/
structure Sound (s : SharedStore Membership) : Prop where
  current_le : ∀ snapshot, s.store.snapshot = some snapshot →
    LogId.rank snapshot.lastLogId ≤ LogId.rank s.store.inner.lastApplied
  idle : s.installing = none → s.begun = s.ended
  installing : ∀ snapshot, s.installing = some snapshot →
    snapshot.lastLogId = s.store.inner.lastApplied ∧ s.begun = s.ended + 1
  build : ∀ b, s.build = some b → b.InStep s

theorem sound_open [Inhabited Membership]
    (file : Option (SmDisk Membership)) :
    Sound («open» json leaderText file) := by
  constructor
  · intro snapshot hsnapshot
    obtain ⟨_, -, rfl⟩ := Option.map_eq_some_iff.mp hsnapshot
    exact le_rfl
  · exact fun _ => rfl
  · exact fun snapshot hsnapshot => nomatch hsnapshot
  · exact fun b hb => nomatch hb

/-- The state goes forward while no snapshot is being installed. -/
theorem Sound.apply (h : s.Sound) {entries : List (Entry Membership)}
    (hidle : s.installing = none)
    (hfollows : Follows s.store.inner.lastApplied entries) :
    Sound { s with store := (s.store.apply entries).1 } := by
  have hle := hfollows.rank_le
  constructor
  · exact fun snapshot hsnapshot => (h.current_le snapshot hsnapshot).trans hle
  · exact h.idle
  · intro snapshot hsnapshot
    rw [hidle] at hsnapshot
    cases hsnapshot
  · intro b hb
    have hb' := h.build b hb
    exact ⟨hb'.seen_le, hb'.image_le.trans hle,
      fun hseen => (hb'.older hseen).trans_le hle,
      fun hne => absurd hidle hne, hb'.overtaken, hb'.inTime⟩

/-- What is read now is the latest state. -/
theorem Sound.readState (h : s.Sound) {image : StoredSnapshot Membership}
    (himage : image.lastLogId = s.store.inner.lastApplied)
    (snapshotId : Option String) :
    Sound { s with build := some { image, snapshotId, seen := s.begun } } := by
  have hended : s.ended ≤ s.begun := by
    cases hinstalling : s.installing with
    | none => exact (h.idle hinstalling).ge
    | some snapshot =>
        rw [(h.installing snapshot hinstalling).2]
        exact Nat.le_succ _
  refine ⟨h.current_le, h.idle, h.installing, ?_⟩
  rintro _ ⟨⟩
  refine ⟨le_rfl, (congrArg LogId.rank himage).le,
    fun hlt => absurd hlt (lt_irrefl _),
    fun _ _ => (congrArg LogId.rank himage).ge,
    fun hlt => absurd hlt hended.not_gt, fun _ snapshot hsnapshot => ?_⟩
  rw [himage]
  exact h.current_le snapshot hsnapshot

/-- Everything that was read before is older than an install. -/
theorem Sound.installState (h : s.Sound) {inner : SmDisk Membership}
    {snapshot : NamedSnapshot Membership} (hidle : s.installing = none)
    (hnewer : LogId.rank s.store.inner.lastApplied <
      LogId.rank snapshot.lastLogId)
    (hinner : inner.lastApplied = snapshot.lastLogId) :
    Sound { s with
      store := { s.store with inner, file := some inner }
      installing := some snapshot
      begun := s.begun + 1 } := by
  have hlt : LogId.rank s.store.inner.lastApplied <
      LogId.rank inner.lastApplied := hinner ▸ hnewer
  constructor
  · exact fun old hold => (h.current_le old hold).trans hlt.le
  · exact fun hnone => nomatch hnone
  · rintro _ ⟨⟩
    exact ⟨hinner.symm, congrArg (· + 1) (h.idle hidle)⟩
  · intro b hb
    have hb' := h.build b hb
    have hseen : b.seen < s.begun + 1 := Nat.lt_succ_of_le hb'.seen_le
    exact ⟨hseen.le, hb'.image_le.trans hlt.le,
      fun _ => hb'.image_le.trans_lt hlt,
      fun _ heq => absurd heq hseen.ne, hb'.overtaken, hb'.inTime⟩

/-- An installed snapshot overtakes what was read before it. -/
theorem Sound.storeInstalled (h : s.Sound)
    {snapshot : NamedSnapshot Membership}
    (hsnapshot : s.installing = some snapshot) (snapshotId : Option String) :
    Sound { s with
      store := { s.store with snapshot := some snapshot.toStoredSnapshot }
      snapshotId
      installing := none
      ended := s.ended + 1 } := by
  obtain ⟨hlast, hbegun⟩ := h.installing snapshot hsnapshot
  constructor
  · rintro _ ⟨⟩
    exact (congrArg LogId.rank hlast).le
  · exact fun _ => hbegun
  · exact fun _ hnone => nomatch hnone
  · intro b hb
    have hb' := h.build b hb
    refine ⟨hb'.seen_le, hb'.image_le, hb'.older,
      fun hne => absurd rfl hne, fun hlt => ⟨_, rfl, ?_⟩, ?_⟩
    · rw [hlast]
      exact hb'.older (hbegun ▸ hlt)
    · rintro hle _ ⟨⟩
      rw [hlast]
      have hinstalling : s.installing ≠ none := by simp [hsnapshot]
      exact hb'.whole hinstalling
        (le_antisymm hb'.seen_le (hbegun ▸ hle))

theorem Sound.step (h : s.Sound)
    (hstep : s.step json leaderText e = some s') : s'.Sound := by
  cases e with
  | apply entries =>
      obtain ⟨hidle, hfollows, rfl⟩ := step_apply hstep
      exact h.apply hidle hfollows
  | readState =>
      obtain ⟨image, himage, rfl⟩ := step_readState hstep
      exact h.readState himage none
  | drawIndex =>
      obtain ⟨b, snapshotId, hb, rfl⟩ := step_drawIndex hstep
      refine ⟨h.current_le, h.idle, h.installing, ?_⟩
      rintro _ ⟨⟩
      have hb' := h.build b hb
      exact ⟨hb'.seen_le, hb'.image_le, hb'.older, hb'.whole, hb'.overtaken,
        hb'.inTime⟩
  | storeBuilt =>
      obtain ⟨b, hb, rfl⟩ := step_storeBuilt hstep
      refine ⟨?_, h.idle, h.installing, fun _ hnone => nomatch hnone⟩
      rintro _ ⟨⟩
      exact (h.build b hb).image_le
  | installState snapshot =>
      obtain rfl | ⟨hidle, hnewer, inner, hinner, rfl⟩ := step_installState hstep
      · exact h
      · exact h.installState hidle hnewer hinner
  | storeInstalled =>
      obtain ⟨snapshot, hsnapshot, rfl⟩ := step_storeInstalled hstep
      exact h.storeInstalled hsnapshot _

theorem keepsSnapshot_of_eq (h : s'.store.snapshot = s.store.snapshot) :
    s.KeepsSnapshot s' := by
  intro old hold
  obtain ⟨snapshot, hsnapshot, rfl⟩ := Option.map_eq_some_iff.mp hold
  exact ⟨(snapshot, s'.snapshotId), by rw [getCurrentSnapshot, h, hsnapshot]; rfl,
    le_rfl⟩

theorem KeepsSnapshot.trans {s'' : SharedStore Membership}
    (h : s.KeepsSnapshot s') (h' : s'.KeepsSnapshot s'') :
    s.KeepsSnapshot s'' := by
  intro old hold
  obtain ⟨mid, hmid, hle⟩ := h old hold
  obtain ⟨new, hnew, hle'⟩ := h' mid hmid
  exact ⟨new, hnew, hle.trans hle'⟩

/-- A snapshot takes the place of the current one. -/
theorem keepsSnapshot_iff {snapshot : StoredSnapshot Membership}
    (h : s'.store.snapshot = some snapshot) :
    s.KeepsSnapshot s' ↔ ∀ old, s.store.snapshot = some old →
      LogId.rank old.lastLogId ≤ LogId.rank snapshot.lastLogId := by
  have hnew : s'.getCurrentSnapshot = some (snapshot, s'.snapshotId) := by
    rw [getCurrentSnapshot, h]
    rfl
  constructor
  · intro hkeeps old hold
    obtain ⟨new, hnew', hle⟩ := hkeeps (old, s.snapshotId) (by
      rw [getCurrentSnapshot, hold]
      rfl)
    rw [hnew, Option.some.injEq] at hnew'
    rwa [← hnew'] at hle
  · intro hle old hold
    obtain ⟨snapshot', hsnapshot', rfl⟩ := Option.map_eq_some_iff.mp hold
    exact ⟨_, hnew, hle snapshot' hsnapshot'⟩

/-- A build is not older than the current snapshot exactly if no install has
overtaken it. -/
theorem Sound.keepsSnapshot_storeBuilt (h : s.Sound)
    (hstep : s.step json leaderText .storeBuilt = some s') :
    s.KeepsSnapshot s' ↔ ¬ s.Overtaken := by
  obtain ⟨b, hb, rfl⟩ := step_storeBuilt hstep
  have hb' := h.build b hb
  rw [keepsSnapshot_iff rfl]
  constructor
  · rintro hle ⟨b', hb'', hseen⟩
    obtain rfl : b = b' := Option.some.inj (hb.symm.trans hb'')
    obtain ⟨snapshot, hsnapshot, hlt⟩ := hb'.overtaken hseen
    exact (hle snapshot hsnapshot).not_gt hlt
  · intro hnot
    exact hb'.inTime (not_lt.mp fun hseen => hnot ⟨b, hb, hseen⟩)

/-- No other step takes the current snapshot back. -/
theorem Sound.keepsSnapshot (h : s.Sound)
    (hstep : s.step json leaderText e = some s')
    (he : e = .storeBuilt → ¬ s.Overtaken) : s.KeepsSnapshot s' := by
  cases e with
  | apply entries =>
      obtain ⟨-, -, rfl⟩ := step_apply hstep
      exact keepsSnapshot_of_eq rfl
  | readState =>
      obtain ⟨image, -, rfl⟩ := step_readState hstep
      exact keepsSnapshot_of_eq rfl
  | drawIndex =>
      obtain ⟨b, snapshotId, -, rfl⟩ := step_drawIndex hstep
      exact keepsSnapshot_of_eq rfl
  | storeBuilt => exact (h.keepsSnapshot_storeBuilt hstep).mpr (he rfl)
  | installState snapshot =>
      obtain rfl | ⟨-, -, inner, -, rfl⟩ := step_installState hstep
      · exact keepsSnapshot_of_eq rfl
      · exact keepsSnapshot_of_eq rfl
  | storeInstalled =>
      obtain ⟨snapshot, hsnapshot, rfl⟩ := step_storeInstalled hstep
      refine (keepsSnapshot_iff rfl).mpr fun old hold => ?_
      rw [(h.installing snapshot hsnapshot).1]
      exact h.current_le old hold

/-! ## Runs -/

theorem run_cons {steps : List (SharedStep Membership)}
    {t : SharedStore Membership} :
    s.run json leaderText (e :: steps) = some t ↔
      ∃ s', s.step json leaderText e = some s' ∧
        s'.run json leaderText steps = some t := by
  rw [run, List.foldlM_cons]
  exact Option.bind_eq_some_iff

theorem run_append {before after : List (SharedStep Membership)}
    {t : SharedStore Membership} :
    s.run json leaderText (before ++ after) = some t ↔
      ∃ s', s.run json leaderText before = some s' ∧
        s'.run json leaderText after = some t := by
  rw [run, List.foldlM_append]
  exact Option.bind_eq_some_iff

theorem Sound.run {steps : List (SharedStep Membership)} (h : s.Sound)
    (hrun : s.run json leaderText steps = some s') : s'.Sound := by
  induction steps generalizing s with
  | nil => exact Option.some.inj hrun ▸ h
  | cons e steps ih =>
      obtain ⟨s₁, hstep, hrest⟩ := run_cons.mp hrun
      exact ih (h.step hstep) hrest

theorem StoresInTime.of_append {before steps : List (SharedStep Membership)}
    (h : s.StoresInTime json leaderText (before ++ steps))
    (hrun : s.run json leaderText before = some s') :
    s'.StoresInTime json leaderText steps := by
  rintro between after s₁ rfl hbetween
  exact h (before ++ between) after s₁ (List.append_assoc ..).symm
    (run_append.mpr ⟨s', hrun, hbetween⟩)

theorem Sound.keepsSnapshot_run {between after : List (SharedStep Membership)}
    (h : s.Sound) (hrun : s.run json leaderText between = some s')
    (htime : s.StoresInTime json leaderText (between ++ after)) :
    s.KeepsSnapshot s' := by
  induction between generalizing s with
  | nil =>
      obtain rfl := Option.some.inj hrun
      exact keepsSnapshot_of_eq rfl
  | cons e between ih =>
      obtain ⟨s₁, hstep, hrest⟩ := run_cons.mp hrun
      have hfirst : s.KeepsSnapshot s₁ := h.keepsSnapshot hstep fun he =>
        htime [] (between ++ after) s (he ▸ rfl) rfl
      have hlater : s₁.StoresInTime json leaderText (between ++ after) :=
        @StoresInTime.of_append _ _ _ s s₁ [e] _ htime
          (run_cons.mpr ⟨s₁, hstep, rfl⟩)
      exact hfirst.trans (ih (h.step hstep) hrest hlater)

/-- The current snapshot goes back in a run exactly if a build is stored after
it has been overtaken. -/
theorem neverGoesBack_iff [Inhabited Membership]
    (file : Option (SmDisk Membership)) {steps : List (SharedStep Membership)}
    (hrun : («open» json leaderText file).run json leaderText steps =
      some s) :
    («open» json leaderText file).NeverGoesBack json leaderText steps ↔
      («open» json leaderText file).StoresInTime json leaderText steps := by
  have hopen : Sound («open» json leaderText file) := sound_open file
  constructor
  · rintro hnever before after s₁ rfl hbefore
    obtain ⟨s₁', hbefore', hrest⟩ := run_append.mp hrun
    obtain rfl : s₁ = s₁' := Option.some.inj (hbefore.symm.trans hbefore')
    obtain ⟨s₂, hstep, -⟩ := run_cons.mp hrest
    refine ((hopen.run hbefore).keepsSnapshot_storeBuilt hstep).mp ?_
    exact hnever before [.storeBuilt] after s₁ s₂ rfl hbefore
      (run_cons.mpr ⟨s₂, hstep, rfl⟩)
  · rintro htime before between after s₁ s₂ rfl hbefore hbetween
    exact (hopen.run hbefore).keepsSnapshot_run hbetween
      (htime.of_append hbefore)

/-! ## Steps that nothing comes between -/

theorem run_build (h : s.build = none) :
    s.run json leaderText [.readState, .drawIndex, .storeBuilt] =
      some { s with
        store := (s.store.buildSnapshot json).1
        snapshotIdx := s.snapshotIdx + 1
        snapshotId := builtId leaderText s.store.inner.lastApplied
          (s.snapshotIdx + 1) } := by
  rcases s with ⟨store, idx, snapshotId, build, installing, begun, ended⟩
  cases h
  rfl

/-- The steps of an install. -/
theorem run_install {snapshot : NamedSnapshot Membership}
    (h : s.installing = none)
    (hnewer : LogId.rank s.store.inner.lastApplied <
      LogId.rank snapshot.lastLogId) :
    s.run json leaderText [.installState snapshot, .storeInstalled] =
      (s.store.installSnapshot json snapshot.toStoredSnapshot).map fun store =>
        { s with
          store
          snapshotId := some snapshot.snapshotId
          begun := s.begun + 1
          ended := s.ended + 1 } := by
  have hcan : s.installing.isNone ∧ LogId.rank s.store.inner.lastApplied <
      LogId.rank snapshot.lastLogId := ⟨Option.isNone_iff_eq_none.mpr h, hnewer⟩
  rcases s with ⟨store, idx, snapshotId, build, installing, begun, ended⟩
  cases h
  rw [run, List.foldlM_cons, step, if_pos hcan,
    StateMachineStore.installSnapshot, StateMachineStore.installMem]
  cases json.fromSlice snapshot.data with
  | none => rfl
  | some state => rfl

end SharedStore

end Steps

namespace SharedStore

/-- A serialization that reads everything as the empty metadata. -/
def blankJson : Json :=
  { toVec := fun _ => [], fromSlice := fun _ => some .empty }

def leaderName (leaderId : LeaderId) : String :=
  s!"{leaderId.term}-{leaderId.nodeId}"

/-- The entry of an index, in the first term. -/
def blankEntry (index : ℕ) : Entry Unit :=
  { logId := ⟨⟨1, 1⟩, index⟩, payload := .blank }

def blankSnapshot (index : ℕ) : NamedSnapshot Unit :=
  { lastLogId := some ⟨⟨1, 1⟩, index⟩
    lastMembership := default
    data := []
    snapshotId := "" }

/-- The store opens on no file. -/
def blankStart : SharedStore Unit := «open» blankJson leaderName none

/-- An entry is applied during a build, between two installs. -/
theorem neverGoesBack_iff_installs :
    blankStart.NeverGoesBack blankJson leaderName
      [.installState (blankSnapshot 5), .storeInstalled, .readState,
        .apply [blankEntry 6], .drawIndex, .storeBuilt,
        .installState (blankSnapshot 9), .storeInstalled] := by
  refine (neverGoesBack_iff none (rfl : run blankJson leaderName _ _ =
    some _)).mpr ?_
  rintro before after s₁ hsteps hbefore ⟨b, hb, hseen⟩
  rcases before with _ | ⟨_, _ | ⟨_, _ | ⟨_, _ | ⟨_, _ | ⟨_, _ | ⟨_,
    _ | ⟨_, _ | ⟨_, before⟩⟩⟩⟩⟩⟩⟩⟩ <;> simp at hsteps
  obtain ⟨rfl, rfl, rfl, rfl, rfl, -⟩ := hsteps
  cases hbefore
  cases hb
  exact absurd hseen (by decide)

/-- A snapshot is installed during a build. -/
theorem not_neverGoesBack :
    ∃ steps s, run blankJson leaderName blankStart steps = some s ∧
      ¬ blankStart.NeverGoesBack blankJson leaderName steps := by
  let before : List (SharedStep Unit) :=
    [.apply [blankEntry 1], .readState, .installState (blankSnapshot 5),
      .storeInstalled, .drawIndex]
  refine ⟨before ++ [.storeBuilt], _, rfl, fun hnever => ?_⟩
  obtain ⟨new, hnew, hle⟩ :=
    hnever before [.storeBuilt] [] _ _ rfl rfl rfl _ rfl
  cases hnew
  exact absurd hle (by decide)

end SharedStore

end Quorvec
