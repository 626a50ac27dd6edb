import Quorvec.Storage.Hints

/-!
# Buffering and replaying hints

A node buffers hints at any time, and one background task replays them: it
reads the whole log, pushes each hint to its target, and rewrites the log with
the hints that could not be pushed.  The lock covers each access to the log but
not the pass as a whole, so hints may be buffered while a pass is running.

The rewrite keeps what the pass decided to keep.  A hint that was buffered
after the read is not among it.
-/

namespace Quorvec

open ByteCodec

/-! ## Accesses to the log, each under the lock -/

section Log

variable (crc32 : Bytes → UInt32)

/-- `NodeState::buffer_hint`. -/
def bufferHint (log : Option Bytes) (h : Hint) : Option Bytes :=
  ((HintLog.open log).append crc32 h).close

/-- `NodeState::read_all_hints`. -/
def readAllHints (log : Option Bytes) : Except OutOfRange (List Hint) :=
  HintLog.readAll crc32 log

/-- `NodeState::rewrite_hints`. -/
def rewriteHints (keep : List Hint) : Option Bytes :=
  if keep.isEmpty then HintLog.clear
  else (keep.foldl (HintLog.append crc32) (HintLog.open HintLog.clear)).close

end Log

/-! ## The interleaving -/

/-- What pushing one hint comes to. -/
inductive PushOutcome
  /-- The target is not in the directory. -/
  | unknownTarget
  | pushed
  /-- The target cannot be reached or answers with an error. -/
  | failed
deriving DecidableEq, Repr

/-- A pass of `replay_hints` that has read the log. -/
structure ReplayPass where
  /-- The log as it was read. -/
  image : Option Bytes
  /-- The hints that are still to be tried. -/
  hints : List Hint
  keep : List Hint

/-- The hint log of a node and its replay task, with the history of both. -/
structure HintState where
  log : Option Bytes
  pass : Option ReplayPass
  /-- The hints for which `buffer_hint` returned. -/
  buffered : List Hint
  /-- The hints whose push succeeded. -/
  pushed : List Hint

inductive HintStep
  | bufferHint (h : Hint)
  /-- The replay task starts a pass. -/
  | readAll
  /-- The pass tries its next hint. -/
  | push (outcome : PushOutcome)
  /-- The pass ends. -/
  | rewrite

/-- The result of trying the next hint. -/
def ReplayPass.push (p : ReplayPass) (outcome : PushOutcome) :
    Option (ReplayPass × List Hint) :=
  match p.hints with
  | [] => none
  | h :: hints =>
      match outcome with
      | .pushed => some ({ p with hints }, [h])
      | _ => some ({ p with hints, keep := p.keep ++ [h] }, [])

namespace HintState

variable (crc32 : Bytes → UInt32)

def init : HintState :=
  { log := none, pass := none, buffered := [], pushed := [] }

/-- One step; `none` if it is not the turn of this step. -/
def step (s : HintState) : HintStep → Option HintState
  | .bufferHint h => some { s with
      log := Quorvec.bufferHint crc32 s.log h
      buffered := s.buffered ++ [h] }
  | .readAll =>
      match s.pass, readAllHints crc32 s.log with
      -- an empty log ends the pass
      | none, .ok [] => some s
      | none, .ok hints =>
          some { s with pass := some { image := s.log, hints, keep := [] } }
      | _, _ => none
  | .push outcome => do
      let (pass, pushed) ← (← s.pass).push outcome
      return { s with pass := some pass, pushed := s.pushed ++ pushed }
  | .rewrite => do
      let pass ← s.pass
      if pass.hints.isEmpty then
        return { s with log := rewriteHints crc32 pass.keep, pass := none }
      else none

/-- Every buffered hint that was not pushed is still read from the log. -/
def Kept (s : HintState) : Prop :=
  ∃ all, readAllHints crc32 s.log = .ok all ∧
    ∀ h, s.buffered.count h ≤ s.pushed.count h + all.count h

/-- The runs whose steps are all admitted. -/
inductive Run (Admits : HintState → HintStep → Prop) : HintState → Prop
  | init : Run Admits init
  | step {s s' : HintState} (e : HintStep) :
      Run Admits s → Admits s e → s.step crc32 e = some s' → Run Admits s'

end HintState

/-- No undelivered hint is lost in the runs that are admitted. -/
def HintsKept (crc32 : Bytes → UInt32)
    (Admits : HintState → HintStep → Prop) : Prop :=
  ∀ s, HintState.Run crc32 Admits s → s.Kept crc32

/-- A hint fits its frame, and a log is rewritten only when it is still the
one that the pass has read. -/
def HintStep.Undisturbed (s : HintState) : HintStep → Prop
  | .bufferHint h => h.FitsFrame
  | .rewrite => ∀ p, s.pass = some p → s.log = p.image
  | _ => True

/-! ## The accounts of a run -/

section Log

variable {crc32 : Bytes → UInt32}

theorem holds_rewriteHints {keep : List Hint}
    (hkeep : ∀ h ∈ keep, h.FitsFrame) :
    HintLog.Holds crc32 (rewriteHints crc32 keep) keep := by
  refine ⟨?_, hkeep⟩
  unfold rewriteHints
  split_ifs with hempty
  · rw [List.isEmpty_iff.mp hempty]
    rfl
  · rw [HintLog.close_eq, Option.getD_some, HintLog.contents_foldl_append,
      HintLog.contents_open]
    rfl

end Log

namespace HintState

variable {crc32 : Bytes → UInt32}

/-- The books of a pass: `read` was in the log when the pass began, `late` was
buffered since. -/
structure PassBooks (crc32 : Bytes → UInt32) (s : HintState) (p : ReplayPass)
    (read late : List Hint) : Prop where
  image : HintLog.Holds crc32 p.image read
  log : HintLog.Holds crc32 s.log (read ++ late)
  same : late = [] → s.log = p.image
  /-- What the pass still has is part of what it read. -/
  rest_le : ∀ h, p.hints.count h + p.keep.count h ≤ read.count h
  balance : ∀ h, s.buffered.count h =
    s.pushed.count h + (p.hints.count h + p.keep.count h) + late.count h

/-- Every buffered hint is accounted for. -/
inductive Books (crc32 : Bytes → UInt32) (s : HintState) : Prop
  | idle (all : List Hint) :
      s.pass = none → HintLog.Holds crc32 s.log all →
      (∀ h, s.buffered.count h = s.pushed.count h + all.count h) →
      Books crc32 s
  | busy (p : ReplayPass) (read late : List Hint) :
      s.pass = some p → PassBooks crc32 s p read late → Books crc32 s

theorem Books.kept {s : HintState} (h : Books crc32 s) : s.Kept crc32 := by
  cases h with
  | idle all _ hlog hbalance =>
      exact ⟨all, hlog.readAll, fun h => (hbalance h).le⟩
  | busy p read late _ hp =>
      refine ⟨read ++ late, hp.log.readAll, fun h => ?_⟩
      have hrest := hp.rest_le h
      rw [hp.balance, List.count_append]
      omega

/-- Nothing was buffered since the read if and only if the log is still the
one that was read. -/
theorem PassBooks.late_eq_nil_iff {s : HintState} {p : ReplayPass}
    {read late : List Hint} (h : PassBooks crc32 s p read late) :
    late = [] ↔ s.log = p.image := by
  constructor
  · exact h.same
  · intro hsame
    have hread := h.log.readAll
    rw [hsame, h.image.readAll, Except.ok.injEq] at hread
    exact List.append_right_eq_self.mp hread.symm

section Steps

variable {s : HintState}

theorem books_init : Books crc32 init :=
  .idle [] rfl HintLog.holds_none fun _ => rfl

theorem Books.bufferHint (h : Books crc32 s) {new : Hint}
    (hnew : new.FitsFrame) :
    Books crc32 { s with
      log := Quorvec.bufferHint crc32 s.log new
      buffered := s.buffered ++ [new] } := by
  cases h with
  | idle all hpass hlog hbalance =>
      refine .idle (all ++ [new]) hpass (hlog.append hnew) fun h => ?_
      rw [List.count_append, List.count_append, hbalance, Nat.add_assoc]
  | busy p read late hpass hp =>
      refine .busy p read (late ++ [new]) hpass ⟨hp.image, ?_, ?_,
        hp.rest_le, fun h => ?_⟩
      · rw [← List.append_assoc]
        exact hp.log.append hnew
      · intro hempty
        simp at hempty
      · rw [List.count_append, List.count_append, hp.balance, Nat.add_assoc]

theorem Books.readAll (h : Books crc32 s) {s' : HintState}
    (hstep : s.step crc32 .readAll = some s') : Books crc32 s' := by
  cases h with
  | busy p read late hpass _ => simp [step, hpass] at hstep
  | idle all hpass hlog hbalance =>
      have hread : readAllHints crc32 s.log = .ok all := hlog.readAll
      cases all with
      | nil =>
          simp only [step, hpass, hread, Option.some.injEq] at hstep
          rw [← hstep]
          exact .idle [] hpass hlog hbalance
      | cons h hints =>
          simp only [step, hpass, hread, Option.some.injEq] at hstep
          rw [← hstep]
          refine .busy _ (h :: hints) [] rfl ⟨hlog, ?_, fun _ => rfl,
            fun x => ?_, fun x => ?_⟩
          · rwa [List.append_nil]
          · simp
          · simpa using hbalance x

/-- A hint that is tried is pushed or kept. -/
theorem ReplayPass.push_cases {p p' : ReplayPass} {o : PushOutcome}
    {pushed : List Hint} (h : p.push o = some (p', pushed)) :
    p'.image = p.image ∧ (∀ x, p'.hints.count x + p'.keep.count x +
      pushed.count x = p.hints.count x + p.keep.count x) := by
  unfold ReplayPass.push at h
  cases hhints : p.hints with
  | nil => simp [hhints] at h
  | cons a hints =>
      simp only [hhints] at h
      cases o with
      | pushed =>
          simp only [Option.some.injEq, Prod.mk.injEq] at h
          obtain ⟨rfl, rfl⟩ := h
          refine ⟨rfl, fun x => ?_⟩
          simp only [List.count_cons, List.count_nil]
          omega
      | unknownTarget | failed =>
          simp only [Option.some.injEq, Prod.mk.injEq] at h
          obtain ⟨rfl, rfl⟩ := h
          refine ⟨rfl, fun x => ?_⟩
          simp only [List.count_append, List.count_cons, List.count_nil]
          omega

theorem Books.push (h : Books crc32 s) {o : PushOutcome} {s' : HintState}
    (hstep : s.step crc32 (.push o) = some s') : Books crc32 s' := by
  cases h with
  | idle all hpass _ _ => simp [step, hpass] at hstep
  | busy p read late hpass hp =>
      cases hpush : p.push o with
      | none => simp [step, hpass, hpush] at hstep
      | some out =>
          obtain ⟨p', pushed⟩ := out
          obtain ⟨himage, hcount⟩ := ReplayPass.push_cases hpush
          simp only [step, hpass, hpush, Option.bind_eq_bind,
            Option.bind_some, Option.pure_def, Option.some.injEq] at hstep
          rw [← hstep]
          refine .busy p' read late rfl ⟨himage ▸ hp.image, hp.log,
            fun hlate => himage ▸ hp.same hlate, fun x => ?_, fun x => ?_⟩
          · have hrest := hp.rest_le x
            have htried := hcount x
            omega
          · have hbalance := hp.balance x
            have htried := hcount x
            show s.buffered.count x = (s.pushed ++ pushed).count x + _ + _
            rw [List.count_append]
            omega

/-- What the end of a pass leaves. -/
theorem Books.rewrite_cases (h : Books crc32 s) {s' : HintState}
    (hstep : s.step crc32 .rewrite = some s') :
    ∃ p keep late, s.pass = some p ∧ s'.pass = none ∧
      HintLog.Holds crc32 s'.log keep ∧ (late = [] ↔ s.log = p.image) ∧
      ∀ h, s'.buffered.count h =
        s'.pushed.count h + keep.count h + late.count h := by
  cases h with
  | idle all hpass _ _ => simp [step, hpass] at hstep
  | busy p read late hpass hp =>
      by_cases hnil : p.hints = []
      · simp only [step, hpass, hnil, List.isEmpty_nil, Option.bind_eq_bind,
          Option.bind_some, if_true, Option.pure_def, Option.some.injEq]
          at hstep
        have hkeep : ∀ h ∈ p.keep, h.FitsFrame := by
          intro h hh
          apply hp.image.2
          have hrest := hp.rest_le h
          have hpos := List.count_pos_iff.mpr hh
          exact List.count_pos_iff.mp (by omega)
        rw [← hstep]
        refine ⟨p, p.keep, late, hpass, rfl, holds_rewriteHints hkeep,
          hp.late_eq_nil_iff, fun h => ?_⟩
        have hbalance := hp.balance h
        rwa [hnil, List.count_nil, Nat.zero_add] at hbalance
      · simp [step, hpass, List.isEmpty_iff, hnil] at hstep

theorem Books.rewrite (h : Books crc32 s) {s' : HintState}
    (hsame : HintStep.Undisturbed s .rewrite)
    (hstep : s.step crc32 .rewrite = some s') : Books crc32 s' := by
  obtain ⟨p, keep, late, hpass, hpass', hlog, hlate, hbalance⟩ :=
    h.rewrite_cases hstep
  have hnil : late = [] := hlate.mpr (hsame p hpass)
  refine .idle keep hpass' hlog fun x => ?_
  rw [hbalance, hnil, List.count_nil, Nat.add_zero]

/-- The end of a pass keeps all hints only if nothing was buffered since its
read. -/
theorem Books.kept_rewrite_iff (h : Books crc32 s) {s' : HintState}
    (hstep : s.step crc32 .rewrite = some s') :
    s'.Kept crc32 ↔ HintStep.Undisturbed s .rewrite := by
  constructor
  · rintro ⟨all, hread, hle⟩ p hp
    obtain ⟨p', keep, late, hpass, -, hlog, hlate, hbalance⟩ :=
      h.rewrite_cases hstep
    have hall : readAllHints crc32 s'.log = .ok keep := hlog.readAll
    rw [hall, Except.ok.injEq] at hread
    rw [hpass, Option.some.injEq] at hp
    rw [← hp, ← hlate, List.eq_nil_iff_forall_not_mem]
    intro x hx
    have hpos := List.count_pos_iff.mpr hx
    have hlost := hle x
    rw [hbalance, hread] at hlost
    omega
  · intro hsame
    exact (h.rewrite hsame hstep).kept

theorem Books.step (h : Books crc32 s) {e : HintStep}
    (he : HintStep.Undisturbed s e) {s' : HintState}
    (hstep : s.step crc32 e = some s') : Books crc32 s' := by
  cases e with
  | bufferHint new =>
      rw [← Option.some.inj hstep]
      exact h.bufferHint he
  | readAll => exact h.readAll hstep
  | push o => exact h.push hstep
  | rewrite => exact h.rewrite he hstep

theorem Run.books (h : Run crc32 HintStep.Undisturbed s) :
    Books crc32 s := by
  induction h with
  | init => exact books_init
  | step e _ he hstep ih => exact ih.step he hstep

end Steps

end HintState

/-- No undelivered hint is lost as long as each pass rewrites the log that it
has read, and the first pass to do otherwise loses hints. -/
theorem hintsKept_of_undisturbed (crc32 : Bytes → UInt32) :
    HintsKept crc32 HintStep.Undisturbed ∧
      ∀ s s', HintState.Run crc32 HintStep.Undisturbed s →
        s.step crc32 .rewrite = some s' →
        (s'.Kept crc32 ↔ HintStep.Undisturbed s .rewrite) :=
  ⟨fun _ hrun => hrun.books.kept,
    fun _ _ hrun hstep => hrun.books.kept_rewrite_iff hstep⟩

/-- A hint that is buffered while a pass pushes another one is erased when the
pass ends. -/
theorem not_hintsKept : ¬ ∃ crc32, HintsKept crc32 fun _ _ => True := by
  rintro ⟨crc32, hall⟩
  let hint (target : UInt64) : Hint :=
    { targetNode := target, collection := "c", shardIdx := 0, op := .delete
      hlc := Hlc.new 1 0, id := 7, vector := [], payload := [] }
  have hfits : (hint 2).FitsFrame := by
    rw [Hint.FitsFrame, Hint.length_encodeHint]
    decide
  -- a pass reads the hint for node 2
  have hlog : HintLog.Holds crc32 (bufferHint crc32 none (hint 2))
      [hint 2] := HintLog.holds_none.append hfits
  have hread : readAllHints crc32 (bufferHint crc32 none (hint 2)) =
      .ok [hint 2] := hlog.readAll
  let s₁ : HintState :=
    { log := bufferHint crc32 none (hint 2)
      pass := some
        { image := bufferHint crc32 none (hint 2), hints := [hint 2]
          keep := [] }
      buffered := [hint 2], pushed := [] }
  have hstart : HintState.Run crc32 (fun _ _ => True) s₁ :=
    (HintState.Run.init.step (.bufferHint (hint 2)) trivial rfl).step
      .readAll trivial (by simp [HintState.step, HintState.init, hread, s₁])
  -- the hint for node 3 is buffered before the pass ends
  have hrun := ((hstart.step (.push .pushed) trivial rfl).step
    (.bufferHint (hint 3)) trivial rfl).step .rewrite trivial rfl
  obtain ⟨all, hempty, hle⟩ := hall _ hrun
  have hnil : all = [] := (Except.ok.inj hempty).symm
  have hlost : [hint 2, hint 3].count (hint 3) ≤
      [hint 2].count (hint 3) + all.count (hint 3) := hle (hint 3)
  rw [hnil] at hlost
  exact absurd hlost (by decide)

end Quorvec
