import Quorvec.Cluster.Meta

/-!
# The durable state machine

The state machine holds the metadata, the id of the last entry that it has
applied and the last membership.  After each batch of entries it writes all
three to one file at once, and they are what it starts from again.  A snapshot
is all three as well.

Whatever mix of batches, snapshots and restarts a store has seen, it holds what
the entries up to the last applied one make of the empty metadata.
-/

namespace Quorvec

open ByteCodec

structure LeaderId where
  term : ℕ
  nodeId : NodeId
deriving DecidableEq

structure LogId where
  leaderId : LeaderId
  index : ℕ
deriving DecidableEq

section Types

variable (Membership : Type)

inductive EntryPayload
  | blank
  | normal (req : MetaRequest)
  | membership (m : Membership)

structure Entry where
  logId : LogId
  payload : EntryPayload Membership

structure StoredMembership where
  logId : Option LogId
  membership : Membership

/-- The image of the state machine on disk. -/
structure SmDisk where
  lastApplied : Option LogId
  lastMembership : StoredMembership Membership
  state : MetaState

structure SnapshotMeta where
  lastLogId : Option LogId
  lastMembership : StoredMembership Membership

structure StoredSnapshot extends SnapshotMeta Membership where
  /-- The serialized metadata. -/
  data : Bytes

/-- The state in memory, the snapshot that can be served, and the file. -/
structure StateMachineStore where
  inner : SmDisk Membership
  snapshot : Option (StoredSnapshot Membership)
  file : Option (SmDisk Membership)

/-- The entries of a log by index. -/
structure RaftLog where
  entries : List (Entry Membership)
  indexed : ∀ (i : ℕ) e, entries[i]? = some e → e.logId.index = i

end Types

/-- The serialization of the metadata. -/
structure Json where
  toVec : MetaState → Bytes
  fromSlice : Bytes → Option MetaState

variable {Membership : Type} [Inhabited Membership]

instance : Inhabited (StoredMembership Membership) :=
  ⟨{ logId := none, membership := default }⟩

instance : Inhabited (SmDisk Membership) :=
  ⟨{ lastApplied := none, lastMembership := default, state := .empty }⟩

/-- One turn of the loop over a batch. -/
def SmDisk.applyEntry (inner : SmDisk Membership) (e : Entry Membership) :
    SmDisk Membership × String :=
  let inner := { inner with lastApplied := some e.logId }
  match e.payload with
  | .blank => (inner, "blank")
  | .normal req =>
      let (state, note) := inner.state.apply req
      ({ inner with state }, note)
  | .membership m =>
      ({ inner with lastMembership := ⟨some e.logId, m⟩ }, "membership")

/-- The loop over a batch. -/
def SmDisk.applyEntries (inner : SmDisk Membership) :
    List (Entry Membership) → SmDisk Membership × List String
  | [] => (inner, [])
  | e :: entries =>
      let (inner, note) := inner.applyEntry e
      let (inner, notes) := applyEntries inner entries
      (inner, note :: notes)

namespace StateMachineStore

variable (json : Json)

/-- Open the store on its file, with a snapshot of what it holds. -/
def «open» (file : Option (SmDisk Membership)) :
    StateMachineStore Membership :=
  let disk := file.getD default
  { inner := disk
    snapshot := disk.lastApplied.map fun _ =>
      { lastLogId := disk.lastApplied
        lastMembership := disk.lastMembership
        data := json.toVec disk.state }
    file }

def persist (st : StateMachineStore Membership) :
    StateMachineStore Membership := { st with file := some st.inner }

/-- Apply a batch in memory. -/
def applyMem (st : StateMachineStore Membership)
    (entries : List (Entry Membership)) : StateMachineStore Membership :=
  { st with inner := (st.inner.applyEntries entries).1 }

def apply (st : StateMachineStore Membership)
    (entries : List (Entry Membership)) :
    StateMachineStore Membership × List String :=
  ((st.applyMem entries).persist, (st.inner.applyEntries entries).2)

def buildSnapshot (st : StateMachineStore Membership) :
    StateMachineStore Membership × StoredSnapshot Membership :=
  let stored : StoredSnapshot Membership :=
    { lastLogId := st.inner.lastApplied
      lastMembership := st.inner.lastMembership
      data := json.toVec st.inner.state }
  ({ st with snapshot := some stored }, stored)

/-- Install a snapshot in memory; fails if it cannot be read. -/
def installMem (st : StateMachineStore Membership)
    (snapshot : StoredSnapshot Membership) :
    Option (StateMachineStore Membership) :=
  (json.fromSlice snapshot.data).map fun state =>
    { st with
      inner :=
        { state
          lastApplied := snapshot.lastLogId
          lastMembership := snapshot.lastMembership } }

def installSnapshot (st : StateMachineStore Membership)
    (snapshot : StoredSnapshot Membership) :
    Option (StateMachineStore Membership) :=
  (st.installMem json snapshot).map fun st =>
    { st.persist with snapshot := some snapshot }

end StateMachineStore

/-! ## Runs -/

/-- The index of the entry after the last applied one. -/
def nextIndex : Option LogId → ℕ
  | none => 0
  | some id => id.index + 1

/-- What some entries make of the empty metadata. -/
def image (entries : List (Entry Membership)) : SmDisk Membership where
  lastApplied := entries.getLast?.map Entry.logId
  lastMembership := (entries.filterMap fun e =>
    match e.payload with
    | .membership m => some ⟨some e.logId, m⟩
    | _ => none).getLast?.getD default
  state := (entries.filterMap fun e =>
    match e.payload with
    | .normal req => some req
    | _ => none).foldl (fun s req => (s.apply req).1) .empty

/-- The serialization reads back what it has written for the states of the
log. -/
def Json.RoundTrips (json : Json) (log : RaftLog Membership) : Prop :=
  ∀ n, json.fromSlice (json.toVec (image (log.entries.take n)).state) =
    some (image (log.entries.take n)).state

/-- The stores of some nodes, and the snapshots that they have handed out. -/
structure StoreSystem (Membership : Type) where
  store : NodeId → StateMachineStore Membership
  sent : List (StoredSnapshot Membership)

inductive StoreStep (Membership : Type)
  /-- The next entries are applied. -/
  | apply (node : NodeId) (count : ℕ)
  | build (node : NodeId)
  /-- The current snapshot is read. -/
  | serve (node : NodeId)
  | install (node : NodeId) (snapshot : StoredSnapshot Membership)
  /-- The process ends between two operations and starts again. -/
  | reopen (node : NodeId)
  /-- The process ends while it applies, before or after the file is
  replaced. -/
  | crashApply (node : NodeId) (count : ℕ) (written : Bool)
  | crashInstall (node : NodeId) (snapshot : StoredSnapshot Membership)
      (written : Bool)

namespace StateMachineStore

variable (json : Json) (log : RaftLog Membership)

/-- The next entries by what the store reports as applied. -/
def nextEntries (st : StateMachineStore Membership) (count : ℕ) :
    List (Entry Membership) :=
  (log.entries.drop (nextIndex st.inner.lastApplied)).take count

/-- Batches of these lengths are applied. -/
def applyBatches (st : StateMachineStore Membership) (counts : List ℕ) :
    StateMachineStore Membership :=
  counts.foldl (fun st count => (st.apply (st.nextEntries log count)).1) st

/-- A process that has changed its state in memory ends, before or after it
has replaced the file. -/
def crashed (st changed : StateMachineStore Membership) (written : Bool) :
    StateMachineStore Membership :=
  «open» json (if written then changed.persist.file else st.file)

/-- The state in memory, and the one that a restart finds, are what the entries
up to the last applied one make of the empty metadata. -/
structure Replays (st : StateMachineStore Membership) : Prop where
  memory : st.inner = image (log.entries.take (nextIndex st.inner.lastApplied))
  file : («open» json st.file).inner = image (log.entries.take
    (nextIndex («open» json st.file).inner.lastApplied))

end StateMachineStore

namespace StoreSystem

variable (json : Json) (log : RaftLog Membership)

def set (s : StoreSystem Membership) (node : NodeId)
    (st : StateMachineStore Membership) : StoreSystem Membership :=
  { s with store := Function.update s.store node st }

/-- One step; `none` if it cannot happen. -/
def step (s : StoreSystem Membership) :
    StoreStep Membership → Option (StoreSystem Membership)
  | .apply node count =>
      let st := s.store node
      some (s.set node (st.apply (st.nextEntries log count)).1)
  | .build node =>
      let (st, snapshot) := (s.store node).buildSnapshot json
      some { s.set node st with sent := snapshot :: s.sent }
  | .serve node =>
      some { s with sent := (s.store node).snapshot.toList ++ s.sent }
  | .install node snapshot => do
      let st ← (s.store node).installSnapshot json snapshot
      return s.set node st
  | .reopen node => some (s.set node (.open json (s.store node).file))
  | .crashApply node count written =>
      let st := s.store node
      some (s.set node
        (st.crashed json (st.applyMem (st.nextEntries log count)) written))
  | .crashInstall node snapshot written => do
      let st ← (s.store node).installMem json snapshot
      return s.set node ((s.store node).crashed json st written)

/-- Only snapshots that were handed out are installed. -/
def Delivers (s : StoreSystem Membership) : StoreStep Membership → Prop
  | .install _ snapshot => snapshot ∈ s.sent
  | .crashInstall _ snapshot _ => snapshot ∈ s.sent
  | _ => True

/-- The runs of stores that start empty. -/
inductive Run : StoreSystem Membership → Prop
  | init : Run { store := fun _ => .open json none, sent := [] }
  | step {s s' : StoreSystem Membership} (e : StoreStep Membership) :
      Run s → s.Delivers e → s.step json log e = some s' → Run s'

/-- In every run, the state of a store, in memory and after a restart, is the
fold of the entries up to the last applied one; and a store that installs a
snapshot and applies batches up to some entry ends as an empty store that
applies batches up to that entry. -/
def InstallReplays : Prop :=
  ∀ s, Run json log s →
    (∀ node, (s.store node).Replays json log) ∧
    ∀ snapshot ∈ s.sent, ∀ node, ∃ st,
      (s.store node).installSnapshot json snapshot = some st ∧
      st.inner.lastApplied = snapshot.lastLogId ∧
      ∀ counts counts',
        nextIndex snapshot.lastLogId + counts.sum = counts'.sum →
        (st.applyBatches log counts).inner =
            image (log.entries.take counts'.sum) ∧
          ((StateMachineStore.open json none).applyBatches log counts').inner =
            image (log.entries.take counts'.sum)

end StoreSystem

/-! ## Applying entries -/

theorem applyEntry_image (entries : List (Entry Membership))
    (e : Entry Membership) :
    ((image entries).applyEntry e).1 = image (entries ++ [e]) := by
  rcases e with ⟨logId, _ | req | m⟩ <;>
    simp [SmDisk.applyEntry, image, List.filterMap_append]

theorem applyEntries_image (entries batch : List (Entry Membership)) :
    ((image entries).applyEntries batch).1 = image (entries ++ batch) := by
  induction batch generalizing entries with
  | nil => simp [SmDisk.applyEntries]
  | cons e batch ih =>
      have hnext := ih (entries ++ [e])
      rw [← applyEntry_image, List.append_assoc] at hnext
      simpa [SmDisk.applyEntries] using hnext

theorem nextIndex_image (log : RaftLog Membership) {n : ℕ}
    (hn : n ≤ log.entries.length) :
    nextIndex (image (log.entries.take n)).lastApplied = n := by
  rcases n with _ | n
  · rfl
  · have hget : (log.entries.take (n + 1)).getLast? = log.entries[n]? := by
      rw [List.getLast?_eq_getElem?, List.length_take, min_eq_left hn,
        Nat.add_sub_cancel, List.getElem?_take, if_pos (Nat.lt_succ_self n)]
    have hentry := List.getElem?_eq_getElem hn
    have hindex := log.indexed n _ hentry
    simp only [image, hget, hentry, Option.map_some, nextIndex, hindex]

namespace StateMachineStore

variable {json : Json} {log : RaftLog Membership}
variable {st : StateMachineStore Membership}

/-- The first `n` entries were applied. -/
def AppliedTo (log : RaftLog Membership) (n : ℕ)
    (inner : SmDisk Membership) : Prop :=
  n ≤ log.entries.length ∧ inner = image (log.entries.take n)

theorem AppliedTo.eq {n : ℕ} {inner : SmDisk Membership}
    (h : AppliedTo log n inner) :
    inner = image (log.entries.take (nextIndex inner.lastApplied)) := by
  obtain ⟨hn, rfl⟩ := h
  rw [nextIndex_image log hn]

theorem appliedTo_default : AppliedTo log 0 default :=
  ⟨Nat.zero_le _, rfl⟩

theorem AppliedTo.applyMem {n : ℕ} (h : AppliedTo log n st.inner)
    (count : ℕ) :
    AppliedTo log (min (n + count) log.entries.length)
      (st.applyMem (st.nextEntries log count)).inner := by
  obtain ⟨hn, hinner⟩ := h
  refine ⟨min_le_right _ _, ?_⟩
  have hnext : nextIndex st.inner.lastApplied = n := by
    rw [hinner, nextIndex_image log hn]
  have htake : log.entries.take (min (n + count) log.entries.length) =
      log.entries.take (n + count) := by
    rw [List.take_eq_take_iff]
    omega
  rw [StateMachineStore.applyMem, nextEntries, hnext, htake, List.take_add]
  dsimp only
  rw [hinner, applyEntries_image]

/-- The snapshot of the first `n` entries. -/
def Captures (json : Json) (log : RaftLog Membership) (n : ℕ)
    (snapshot : StoredSnapshot Membership) : Prop :=
  ∃ inner, AppliedTo log n inner ∧ snapshot.lastLogId = inner.lastApplied ∧
    snapshot.lastMembership = inner.lastMembership ∧
    snapshot.data = json.toVec inner.state

/-- A snapshot that can be read is installed as what it captures. -/
theorem Captures.installMem (hjson : json.RoundTrips log) {n : ℕ}
    {snapshot : StoredSnapshot Membership} (h : Captures json log n snapshot)
    (st : StateMachineStore Membership) :
    ∃ inner, AppliedTo log n inner ∧
      inner.lastApplied = snapshot.lastLogId ∧
      st.installMem json snapshot = some { st with inner } := by
  obtain ⟨inner, happlied, hlast, hmembership, hdata⟩ := h
  refine ⟨inner, happlied, hlast.symm, ?_⟩
  have hread : json.fromSlice snapshot.data = some inner.state := by
    rw [hdata, happlied.2]
    exact hjson n
  rw [StateMachineStore.installMem, hread, hlast, hmembership]
  rfl

/-- The state in memory, the file and the snapshot each stand for a prefix of
the log. -/
structure Sound (json : Json) (log : RaftLog Membership)
    (st : StateMachineStore Membership) : Prop where
  memory : ∃ n, AppliedTo log n st.inner
  file : ∃ n, AppliedTo log n (st.file.getD default)
  snapshot : ∀ snapshot, st.snapshot = some snapshot →
    ∃ n, Captures json log n snapshot

theorem Sound.replays (h : Sound json log st) : st.Replays json log := by
  obtain ⟨n, hmemory⟩ := h.memory
  obtain ⟨m, hfile⟩ := h.file
  exact ⟨hmemory.eq, hfile.eq⟩

theorem sound_open {file : Option (SmDisk Membership)}
    (h : ∃ n, AppliedTo log n (file.getD default)) :
    Sound json log («open» json file) := by
  constructor
  · exact h
  · exact h
  · intro snapshot hsnapshot
    obtain ⟨n, happlied⟩ := h
    simp only [«open», Option.map_eq_some_iff] at hsnapshot
    obtain ⟨last, -, rfl⟩ := hsnapshot
    exact ⟨n, _, happlied, rfl, rfl, rfl⟩

theorem Sound.crashed (h : Sound json log st)
    {changed : StateMachineStore Membership}
    (hchanged : ∃ n, AppliedTo log n changed.inner) (written : Bool) :
    Sound json log (st.crashed json changed written) := by
  apply sound_open
  cases written
  · exact h.file
  · exact hchanged

theorem Sound.apply (h : Sound json log st) (count : ℕ) :
    Sound json log (st.apply (st.nextEntries log count)).1 := by
  obtain ⟨n, hmemory⟩ := h.memory
  have happlied := hmemory.applyMem count
  exact ⟨⟨_, happlied⟩, ⟨_, happlied⟩, h.snapshot⟩

theorem Sound.buildSnapshot (h : Sound json log st) :
    Sound json log (st.buildSnapshot json).1 ∧
      ∃ n, Captures json log n (st.buildSnapshot json).2 := by
  obtain ⟨n, hmemory⟩ := h.memory
  have hcaptures : Captures json log n (st.buildSnapshot json).2 :=
    ⟨_, hmemory, rfl, rfl, rfl⟩
  refine ⟨⟨h.memory, h.file, ?_⟩, n, hcaptures⟩
  intro snapshot hsnapshot
  rw [← Option.some.inj hsnapshot]
  exact ⟨n, hcaptures⟩

/-- Installing a snapshot that was taken succeeds. -/
theorem Captures.installSnapshot (hjson : json.RoundTrips log) {n : ℕ}
    {snapshot : StoredSnapshot Membership}
    (hsnapshot : Captures json log n snapshot)
    (st : StateMachineStore Membership) :
    ∃ st', st.installSnapshot json snapshot = some st' ∧
      AppliedTo log n st'.inner ∧
      st'.inner.lastApplied = snapshot.lastLogId ∧ Sound json log st' := by
  obtain ⟨inner, happlied, hlast, hinstall⟩ := hsnapshot.installMem hjson st
  refine ⟨{ st with inner, file := some inner, snapshot := some snapshot },
    ?_, happlied, hlast, ⟨n, happlied⟩, ⟨n, happlied⟩, ?_⟩
  · rw [StateMachineStore.installSnapshot, hinstall]
    rfl
  intro other hother
  rw [← Option.some.inj hother]
  exact ⟨n, hsnapshot⟩

theorem AppliedTo.applyBatches {n : ℕ} (h : AppliedTo log n st.inner)
    (counts : List ℕ) :
    (st.applyBatches log counts).inner =
      image (log.entries.take (n + counts.sum)) := by
  induction counts generalizing n st with
  | nil => exact h.2
  | cons count counts ih =>
      have hnext := @ih (st.apply (st.nextEntries log count)).1 _
        (h.applyMem count)
      rw [applyBatches, List.foldl_cons]
      rw [applyBatches] at hnext
      rw [hnext]
      apply congrArg image
      rw [List.take_eq_take_iff, List.sum_cons]
      omega

end StateMachineStore

namespace StoreSystem

open StateMachineStore

variable {json : Json} {log : RaftLog Membership}
variable {s s' : StoreSystem Membership}

structure Sound (json : Json) (log : RaftLog Membership)
    (s : StoreSystem Membership) : Prop where
  store : ∀ node, (s.store node).Sound json log
  sent : ∀ snapshot ∈ s.sent, ∃ n, Captures json log n snapshot

theorem Sound.set (h : Sound json log s) (node : NodeId)
    {st : StateMachineStore Membership} (hst : st.Sound json log) :
    Sound json log (s.set node st) := by
  refine ⟨fun other => ?_, h.sent⟩
  by_cases hother : other = node
  · subst hother
    simpa [StoreSystem.set] using hst
  · simpa [StoreSystem.set, hother] using h.store other

theorem Sound.step (hjson : json.RoundTrips log) (h : Sound json log s)
    {e : StoreStep Membership} (he : s.Delivers e)
    (hstep : s.step json log e = some s') : Sound json log s' := by
  rcases e with ⟨node, count⟩ | node | node | ⟨node, snapshot⟩ | node |
    ⟨node, count, written⟩ | ⟨node, snapshot, written⟩
  · rw [← Option.some.inj hstep]
    exact h.set node ((h.store node).apply count)
  · rw [← Option.some.inj hstep]
    obtain ⟨hst, hcaptures⟩ := (h.store node).buildSnapshot
    refine ⟨(h.set node hst).store, fun snapshot hmem => ?_⟩
    rcases List.mem_cons.mp hmem with rfl | hmem
    · exact hcaptures
    · exact h.sent snapshot hmem
  · rw [← Option.some.inj hstep]
    refine ⟨h.store, fun snapshot hmem => ?_⟩
    rcases List.mem_append.mp hmem with hmem | hmem
    · exact (h.store node).snapshot snapshot (Option.mem_toList.mp hmem)
    · exact h.sent snapshot hmem
  · obtain ⟨n, hsnapshot⟩ := h.sent snapshot he
    obtain ⟨st, hinstall, -, -, hst⟩ :=
      hsnapshot.installSnapshot hjson (s.store node)
    simp only [StoreSystem.step, hinstall, Option.bind_eq_bind,
      Option.bind_some, Option.pure_def, Option.some.injEq] at hstep
    rw [← hstep]
    exact h.set node hst
  · rw [← Option.some.inj hstep]
    exact h.set node (sound_open (h.store node).file)
  · rw [← Option.some.inj hstep]
    obtain ⟨n, hmemory⟩ := (h.store node).memory
    exact h.set node
      ((h.store node).crashed ⟨_, hmemory.applyMem count⟩ written)
  · obtain ⟨n, hsnapshot⟩ := h.sent snapshot he
    obtain ⟨inner, happlied, -, hinstall⟩ :=
      hsnapshot.installMem hjson (s.store node)
    simp only [StoreSystem.step, hinstall, Option.bind_eq_bind,
      Option.bind_some, Option.pure_def, Option.some.injEq] at hstep
    rw [← hstep]
    exact h.set node ((h.store node).crashed ⟨n, happlied⟩ written)

theorem Run.sound (hjson : json.RoundTrips log) (h : Run json log s) :
    Sound json log s := by
  induction h with
  | init =>
      refine ⟨fun node => sound_open ⟨0, appliedTo_default⟩, ?_⟩
      simp
  | step e _ he hstep ih => exact ih.step hjson he hstep

end StoreSystem

/-- The serialized empty metadata. -/
def emptyJson : Bytes :=
  "\x7b\"nodes\":\x7b\x7d,\"collections\":\x7b\x7d,\"shard_states\":[]\x7d".toUTF8.toList

/-- Installing a metadata snapshot equals replaying the log. -/
theorem installReplays (json : Json) (log : RaftLog Membership)
    (hjson : json.RoundTrips log) : StoreSystem.InstallReplays json log := by
  intro s hrun
  have h := hrun.sound hjson
  refine ⟨fun node => (h.store node).replays, fun snapshot hmem node => ?_⟩
  obtain ⟨n, hsnapshot⟩ := h.sent snapshot hmem
  obtain ⟨st, hinstall, happlied, hlast, -⟩ :=
    hsnapshot.installSnapshot hjson (s.store node)
  refine ⟨st, hinstall, hlast, fun counts counts' hsum => ?_⟩
  have hn : nextIndex snapshot.lastLogId = n := by
    rw [← hlast, happlied.2, nextIndex_image log happlied.1]
  have hempty : StateMachineStore.AppliedTo log 0
      (StateMachineStore.open json none : StateMachineStore Membership).inner :=
    StateMachineStore.appliedTo_default
  constructor
  · rw [happlied.applyBatches, ← hsum, hn]
  · rw [hempty.applyBatches, Nat.zero_add]

/-- The theorem for the log of a cluster that has only been formed. -/
theorem installReplays_formed :
    StoreSystem.InstallReplays
      { toVec := fun m => if m.nodes.isEmpty then emptyJson else []
        fromSlice := fun bytes =>
          if bytes = emptyJson then some .empty
          else some (MetaState.empty.apply (.registerNode 1 "a")).1 }
      ({ entries :=
          [{ logId := ⟨⟨0, 0⟩, 0⟩, payload := .membership [1] },
            { logId := ⟨⟨1, 1⟩, 1⟩, payload := .blank },
            { logId := ⟨⟨1, 1⟩, 2⟩,
              payload := .normal (.registerNode 1 "a") }]
         indexed := by
          intro i e he
          rcases i with _ | _ | _ | i
          · rw [← Option.some.inj he]
          · rw [← Option.some.inj he]
          · rw [← Option.some.inj he]
          · simp at he } : RaftLog (List NodeId)) := by
  apply installReplays
  have hjson : emptyJson ≠ [] := by decide +kernel
  intro n
  rcases n with _ | _ | _ | n <;>
    simp [image, MetaState.apply, MetaState.empty, hjson.symm]

end Quorvec
