import Quorvec.Cluster.StateMachine

/-!
# The durable log

The log store keeps the entries by index, the id of the last entry that was
purged, the vote and the committed id, and writes one image of all of them
after every change.  The image goes to a second file that is then renamed, so
that a crash leaves the old image or the new one.
-/

namespace Quorvec

open ByteCodec

/-! ## Writing a file at once -/

/-- A file, and the temporary file next to it. -/
structure AtomicFile where
  file : Option Bytes
  tmp : Option Bytes

namespace AtomicFile

/-- `atomic_write`: write the temporary file and rename it. -/
def atomicWrite (_ : AtomicFile) (bytes : Bytes) : AtomicFile :=
  { file := some bytes, tmp := none }

/-- What a crash during `atomicWrite` leaves. -/
inductive Crashed (dir : AtomicFile) (bytes : Bytes) : AtomicFile → Prop
  | before : Crashed dir bytes dir
  /-- The temporary file was created and holds some of the bytes. -/
  | torn (k : ℕ) : Crashed dir bytes { dir with tmp := some (bytes.take k) }
  | renamed : Crashed dir bytes (dir.atomicWrite bytes)

theorem Crashed.file_cases {dir dir' : AtomicFile} {bytes : Bytes}
    (h : Crashed dir bytes dir') :
    dir'.file = dir.file ∨ dir'.file = some bytes := by
  cases h with
  | before => exact .inl rfl
  | torn k => exact .inl rfl
  | renamed => exact .inr rfl

end AtomicFile

/-! ## The store -/

structure Vote where
  leaderId : LeaderId
  committed : Bool
deriving DecidableEq

section Types

variable (Membership : Type)

/-- The image of the log store. -/
structure LogDisk where
  lastPurgedLogId : Option LogId
  log : Std.ExtTreeMap ℕ (Entry Membership)
  committed : Option LogId
  vote : Option Vote

/-- The serialization of the image. -/
structure LogJson where
  toVec : LogDisk Membership → Bytes
  fromSlice : Bytes → Option (LogDisk Membership)

/-- The log store in memory, and its files. -/
structure LogStore where
  inner : LogDisk Membership
  dir : AtomicFile

/-- A call of the storage interface that changes the log. -/
inductive LogCall
  | saveVote (vote : Vote)
  | saveCommitted (committed : Option LogId)
  | append (entries : List (Entry Membership))
  | truncate (logId : LogId)
  | purge (logId : LogId)

end Types

variable {Membership : Type}

namespace LogDisk

def empty : LogDisk Membership :=
  { lastPurgedLogId := none, log := ∅, committed := none, vote := none }

instance : Inhabited (LogDisk Membership) := ⟨empty⟩

/-- The last purged id and the last id: that of the entry with the greatest
key, or else the last purged one. -/
def getLogState (disk : LogDisk Membership) : Option LogId × Option LogId :=
  let last := (disk.log.maxKey?.bind fun k => disk.log[k]?).map Entry.logId
  (disk.lastPurgedLogId, match last with
    | none => disk.lastPurgedLogId
    | some x => some x)

def saveVote (disk : LogDisk Membership) (vote : Vote) : LogDisk Membership :=
  { disk with vote := some vote }

def saveCommitted (disk : LogDisk Membership) (committed : Option LogId) :
    LogDisk Membership :=
  { disk with committed }

def append (disk : LogDisk Membership) (entries : List (Entry Membership)) :
    LogDisk Membership :=
  { disk with
    log := entries.foldl (fun log e => log.insert e.logId.index e) disk.log }

/-- Remove the entries with the given keys. -/
def removeKeys (disk : LogDisk Membership) (keys : List ℕ) :
    LogDisk Membership :=
  { disk with log := keys.foldl (fun log k => log.erase k) disk.log }

def truncate (disk : LogDisk Membership) (logId : LogId) :
    LogDisk Membership :=
  disk.removeKeys (disk.log.keys.filter (logId.index ≤ ·))

def purge (disk : LogDisk Membership) (logId : LogId) : LogDisk Membership :=
  let disk := { disk with lastPurgedLogId := some logId }
  disk.removeKeys (disk.log.keys.filter (· ≤ logId.index))

end LogDisk

/-- What a call does to the image in memory. -/
def LogCall.mem (call : LogCall Membership) (disk : LogDisk Membership) :
    LogDisk Membership :=
  match call with
  | saveVote vote => disk.saveVote vote
  | saveCommitted committed => disk.saveCommitted committed
  | append entries => disk.append entries
  | truncate logId => disk.truncate logId
  | purge logId => disk.purge logId

namespace LogStore

variable (json : LogJson Membership)

/-- Open the store; fails if the file cannot be read. -/
def «open» (dir : AtomicFile) : Option (LogStore Membership) :=
  match dir.file with
  | none => some { inner := default, dir }
  | some bytes => (json.fromSlice bytes).map fun inner => { inner, dir }

def persist (st : LogStore Membership) : LogStore Membership :=
  { st with dir := st.dir.atomicWrite (json.toVec st.inner) }

/-- Each call changes the image and writes it before it returns. -/
def call (st : LogStore Membership) (c : LogCall Membership) :
    LogStore Membership :=
  persist json { st with inner := c.mem st.inner }

/-- A store over calls that are admitted, crashes and restarts. -/
inductive Run (Admits : LogDisk Membership → LogCall Membership → Prop) :
    LogStore Membership → Prop
  | init {st : LogStore Membership} :
      «open» json { file := none, tmp := none } = some st → Run Admits st
  | call {st : LogStore Membership} (c : LogCall Membership) : Run Admits st →
      Admits st.inner c → Run Admits (st.call json c)
  | crash {st st' : LogStore Membership} {dir : AtomicFile}
      (c : LogCall Membership) : Run Admits st → Admits st.inner c →
      AtomicFile.Crashed st.dir (json.toVec (c.mem st.inner)) dir →
      «open» json dir = some st' → Run Admits st'

end LogStore

/-! ## What the log is -/

namespace LogDisk

/-- Keys are the indexes of their entries, and they are the numbers from the
one after the last purged index up to some bound. -/
structure Contiguous (disk : LogDisk Membership) : Prop where
  indexed : ∀ (i : ℕ) e, disk.log[i]? = some e → e.logId.index = i
  interval : ∃ n, ∀ i, i ∈ disk.log ↔
    nextIndex disk.lastPurgedLogId ≤ i ∧
      i < nextIndex disk.lastPurgedLogId + n

/-- The reported ids: the greatest entry is the last one, and without entries
the purged id is. -/
structure Reports (disk : LogDisk Membership) : Prop where
  purged : disk.getLogState.1 = disk.lastPurgedLogId
  last_of_greatest : ∀ (i : ℕ) e, disk.log[i]? = some e →
    (∀ j ∈ disk.log, j ≤ i) → disk.getLogState.2 = some e.logId
  last_of_empty : disk.log = ∅ → disk.getLogState.2 = disk.lastPurgedLogId

end LogDisk

namespace LogCall

/-- What openraft promises of a call: entries follow the last id or the purge
point, and nothing purged is truncated. -/
def Respects (disk : LogDisk Membership) : LogCall Membership → Prop
  | append entries => ∀ (i : ℕ) e, entries[i]? = some e →
      e.logId.index = nextIndex disk.getLogState.2 + i
  | truncate logId => nextIndex disk.lastPurgedLogId ≤ logId.index
  | _ => True

/-- The purge point does not go back. -/
def Forward (disk : LogDisk Membership) : LogCall Membership → Prop
  | purge logId => ∀ purged, disk.lastPurgedLogId = some purged →
      purged.index ≤ logId.index
  | _ => True

/-- The serialization reads back the image that the call writes. -/
def ReadsBack (json : LogJson Membership) (disk : LogDisk Membership)
    (c : LogCall Membership) : Prop :=
  json.fromSlice (json.toVec (c.mem disk)) = some (c.mem disk)

/-- A call changes exactly what it names. -/
def Exact (old new : LogDisk Membership) : LogCall Membership → Prop
  | saveVote vote => new = { old with vote := some vote }
  | saveCommitted committed => new = { old with committed }
  | append entries => new = { old with log := new.log } ∧
      ∀ i, new.log[i]? = if i < nextIndex old.getLogState.2 then old.log[i]?
        else entries[i - nextIndex old.getLogState.2]?
  | truncate logId => new = { old with log := new.log } ∧
      ∀ i, new.log[i]? = if logId.index ≤ i then none else old.log[i]?
  | purge logId =>
      new = { old with lastPurgedLogId := some logId, log := new.log } ∧
      ∀ i, new.log[i]? = if i ≤ logId.index then none else old.log[i]?

end LogCall

/-- The store is an exact, contiguous log in every state, its files hold what
memory does, every call changes exactly what it names, and a crash during a
call leaves the state before or after it. -/
def LogExact (json : LogJson Membership)
    (Admits : LogDisk Membership → LogCall Membership → Prop) : Prop :=
  ∀ st, LogStore.Run json Admits st →
    st.inner.Contiguous ∧ st.inner.Reports ∧
    LogStore.open json st.dir = some st ∧
    ∀ c, Admits st.inner c →
      c.Exact st.inner (st.call json c).inner ∧
      ∀ dir, AtomicFile.Crashed st.dir (json.toVec (c.mem st.inner)) dir →
        ∃ st', LogStore.open json dir = some st' ∧
          (st'.inner = st.inner ∨ st'.inner = (st.call json c).inner)

/-! ## Lookups -/

namespace LogDisk

variable {disk : LogDisk Membership}

theorem getElem?_removeKeys (keys : List ℕ) (i : ℕ) :
    (disk.removeKeys keys).log[i]? =
      if i ∈ keys then none else disk.log[i]? := by
  simp only [removeKeys]
  induction keys using List.reverseRecOn with
  | nil => rfl
  | append_singleton keys k ih =>
    rw [List.foldl_append, List.foldl_cons, List.foldl_nil,
      Std.ExtTreeMap.getElem?_erase, ih]
    by_cases hk : k = i
    · simp [hk]
    · have hcmp : ¬ compare k i = .eq := by
        rwa [Std.compare_eq_iff_eq]
      rw [if_neg hcmp]
      simp [Ne.symm hk]

theorem getElem?_removeKeys_filter (p : ℕ → Bool) (i : ℕ) :
    (disk.removeKeys (disk.log.keys.filter p)).log[i]? =
      if p i then none else disk.log[i]? := by
  rw [getElem?_removeKeys]
  by_cases hi : i ∈ disk.log
  · simp [hi]
  · simp [hi]

theorem getElem?_truncate (logId : LogId) (i : ℕ) :
    (disk.truncate logId).log[i]? =
      if logId.index ≤ i then none else disk.log[i]? := by
  simp [truncate, getElem?_removeKeys_filter]

theorem getElem?_purge (logId : LogId) (i : ℕ) :
    (disk.purge logId).log[i]? =
      if i ≤ logId.index then none else disk.log[i]? := by
  have h := @getElem?_removeKeys_filter _
    { disk with lastPurgedLogId := some logId } (· ≤ logId.index) i
  simpa only [purge, decide_eq_true_eq] using h

/-- Entries with consecutive indexes stand at these indexes. -/
theorem getElem?_append {entries : List (Entry Membership)} {next : ℕ}
    (h : ∀ (j : ℕ) e, entries[j]? = some e → e.logId.index = next + j)
    (i : ℕ) :
    (disk.append entries).log[i]? =
      if next ≤ i ∧ i < next + entries.length then entries[i - next]?
      else disk.log[i]? := by
  simp only [append]
  induction entries using List.reverseRecOn with
  | nil => simp
  | append_singleton entries e ih =>
    have hlast : e.logId.index = next + entries.length :=
      h entries.length e (by simp)
    have hinit := ih fun j e' he' => h j e' (by
      rw [List.getElem?_append_left (List.getElem?_eq_some_iff.mp he').1]
      exact he')
    rw [List.foldl_append, List.foldl_cons, List.foldl_nil,
      Std.ExtTreeMap.getElem?_insert, hinit, List.length_append,
      List.length_singleton]
    by_cases hi : e.logId.index = i
    · have hcmp : compare e.logId.index i = .eq := by
        rwa [Std.compare_eq_iff_eq]
      have hpos : i - next = entries.length := by omega
      rw [if_pos hcmp, if_pos (by omega), hpos]
      simp
    · have hcmp : ¬ compare e.logId.index i = .eq := by
        rwa [Std.compare_eq_iff_eq]
      rw [if_neg hcmp]
      by_cases hin : next ≤ i ∧ i < next + entries.length
      · rw [if_pos hin, if_pos (by omega),
          List.getElem?_append_left (by omega)]
      · rw [if_neg hin, if_neg (by omega)]

/-! ## The log stays contiguous -/

theorem mem_log_iff (i : ℕ) : i ∈ disk.log ↔ ∃ e, disk.log[i]? = some e := by
  rw [Std.ExtTreeMap.mem_iff_isSome_getElem?, Option.isSome_iff_exists]

theorem getLogState_of_greatest {i : ℕ} {e : Entry Membership}
    (he : disk.log[i]? = some e) (hmax : ∀ j ∈ disk.log, j ≤ i) :
    disk.getLogState.2 = some e.logId := by
  have hkey : disk.log.maxKey? = some i := by
    rw [Std.ExtTreeMap.maxKey?_eq_some_iff_mem_and_forall]
    refine ⟨(mem_log_iff i).mpr ⟨e, he⟩, fun j hj => ?_⟩
    rw [Std.isLE_compare]
    exact hmax j hj
  simp [getLogState, hkey, he]

theorem getLogState_of_empty (h : disk.log = ∅) :
    disk.getLogState.2 = disk.lastPurgedLogId := by
  simp [getLogState, h]

theorem reports (disk : LogDisk Membership) : disk.Reports :=
  ⟨rfl, fun _ _ => getLogState_of_greatest, getLogState_of_empty⟩

/-- The next index is the end of the interval. -/
theorem Contiguous.exists_interval (h : disk.Contiguous) :
    ∃ n, (∀ i, i ∈ disk.log ↔ nextIndex disk.lastPurgedLogId ≤ i ∧
        i < nextIndex disk.lastPurgedLogId + n) ∧
      nextIndex disk.getLogState.2 = nextIndex disk.lastPurgedLogId + n := by
  obtain ⟨n, hn⟩ := h.interval
  refine ⟨n, hn, ?_⟩
  rcases n with _ | n
  · have hempty : disk.log = ∅ := by
      apply Std.ExtTreeMap.ext_getElem?
      intro i
      rw [Std.ExtTreeMap.getElem?_empty]
      apply Std.ExtTreeMap.getElem?_eq_none
      rw [hn]
      omega
    rw [getLogState_of_empty hempty, Nat.add_zero]
  · have hlast := (hn (nextIndex disk.lastPurgedLogId + n)).mpr (by omega)
    obtain ⟨e, he⟩ := (mem_log_iff _).mp hlast
    rw [getLogState_of_greatest he fun j hj => by
      have hj' := (hn j).mp hj
      omega]
    show e.logId.index + 1 = _
    rw [h.indexed _ e he]
    omega

theorem contiguous_empty : (empty : LogDisk Membership).Contiguous := by
  refine ⟨fun i e he => ?_, 0, fun i => ?_⟩
  · simp [empty] at he
  · simp [empty]

theorem Contiguous.of_kept (h : disk.Contiguous) {disk' : LogDisk Membership}
    {p : ℕ → Prop} [DecidablePred p]
    (hlog : ∀ i, disk'.log[i]? = if p i then none else disk.log[i]?)
    (hinterval : ∃ n, ∀ i, i ∈ disk.log ∧ ¬ p i ↔
      nextIndex disk'.lastPurgedLogId ≤ i ∧
        i < nextIndex disk'.lastPurgedLogId + n) :
    disk'.Contiguous := by
  constructor
  · intro i e he
    rw [hlog] at he
    split_ifs at he
    exact h.indexed i e he
  · obtain ⟨n, hn⟩ := hinterval
    refine ⟨n, fun i => ?_⟩
    rw [← hn, mem_log_iff, mem_log_iff, hlog]
    split_ifs with hp <;> simp [hp]

theorem Contiguous.truncate (h : disk.Contiguous) (logId : LogId) :
    (disk.truncate logId).Contiguous := by
  refine h.of_kept (getElem?_truncate logId) ?_
  obtain ⟨n, hn⟩ := h.interval
  refine ⟨min (nextIndex disk.lastPurgedLogId + n) logId.index -
    nextIndex disk.lastPurgedLogId, fun i => ?_⟩
  show _ ↔ nextIndex disk.lastPurgedLogId ≤ i ∧
    i < nextIndex disk.lastPurgedLogId + _
  rw [hn]
  omega

theorem Contiguous.purge (h : disk.Contiguous) {logId : LogId}
    (hforward : (LogCall.purge logId).Forward disk) :
    (disk.purge logId).Contiguous := by
  refine h.of_kept (getElem?_purge logId) ?_
  obtain ⟨n, hn⟩ := h.interval
  have hle : nextIndex disk.lastPurgedLogId ≤ logId.index + 1 := by
    rcases hpurged : disk.lastPurgedLogId with _ | purged
    · exact Nat.zero_le _
    · exact Nat.succ_le_succ (hforward purged hpurged)
  refine ⟨nextIndex disk.lastPurgedLogId + n - (logId.index + 1),
    fun i => ?_⟩
  show _ ↔ logId.index + 1 ≤ i ∧ i < logId.index + 1 + _
  rw [hn]
  omega

theorem Contiguous.append (h : disk.Contiguous)
    {entries : List (Entry Membership)}
    (hentries : (LogCall.append entries).Respects disk) :
    (disk.append entries).Contiguous := by
  obtain ⟨n, hn, hnext⟩ := h.exists_interval
  have hlog := @getElem?_append _ disk _ _ hentries
  rw [hnext] at hlog
  constructor
  · intro i e he
    rw [hlog] at he
    split_ifs at he with hin
    · rw [hentries _ e he, hnext]
      omega
    · exact h.indexed i e he
  · refine ⟨n + entries.length, fun i => ?_⟩
    show _ ↔ nextIndex disk.lastPurgedLogId ≤ i ∧
      i < nextIndex disk.lastPurgedLogId + _
    rw [mem_log_iff, hlog]
    split_ifs with hin
    · simp only [List.getElem?_eq_some_iff, exists_comm, exists_eq',
        exists_prop, and_true]
      omega
    · rw [← mem_log_iff, hn]
      omega

end LogDisk

namespace LogCall

variable {disk : LogDisk Membership} {c : LogCall Membership}

theorem contiguous_mem (h : disk.Contiguous) (hrespects : c.Respects disk)
    (hforward : c.Forward disk) : (c.mem disk).Contiguous := by
  cases c with
  | saveVote | saveCommitted => exact ⟨h.indexed, h.interval⟩
  | append entries => exact h.append hrespects
  | truncate logId => exact h.truncate logId
  | purge logId => exact h.purge hforward

theorem exact_mem (h : disk.Contiguous) (hrespects : c.Respects disk) :
    c.Exact disk (c.mem disk) := by
  cases c with
  | saveVote | saveCommitted => rfl
  | append entries =>
    refine ⟨rfl, fun i => ?_⟩
    obtain ⟨n, hn, hnext⟩ := h.exists_interval
    show (disk.append entries).log[i]? = _
    rw [LogDisk.getElem?_append hrespects]
    by_cases hi : i < nextIndex disk.getLogState.2
    · rw [if_neg (by omega), if_pos hi]
    · rw [if_neg hi]
      split_ifs with hin
      · rfl
      · have hlate : entries.length ≤ i - nextIndex disk.getLogState.2 := by
          omega
        rw [List.getElem?_eq_none hlate]
        apply Std.ExtTreeMap.getElem?_eq_none
        rw [hn]
        omega
  | truncate logId => exact ⟨rfl, LogDisk.getElem?_truncate logId⟩
  | purge logId => exact ⟨rfl, LogDisk.getElem?_purge logId⟩

/-- A call of the contract that does not move the purge point back. -/
structure InOrder (json : LogJson Membership) (disk : LogDisk Membership)
    (c : LogCall Membership) : Prop where
  respects : c.Respects disk
  readsBack : c.ReadsBack json disk
  forward : c.Forward disk

end LogCall

/-! ## Over a run -/

namespace LogStore

variable {json : LogJson Membership} {st st' : LogStore Membership}

/-- The log is contiguous, and the files hold what memory does. -/
structure Sound (json : LogJson Membership) (st : LogStore Membership) :
    Prop where
  contiguous : st.inner.Contiguous
  durable : «open» json st.dir = some st

theorem open_of_file_eq (h : «open» json st.dir = some st) {dir : AtomicFile}
    (hfile : dir.file = st.dir.file) :
    «open» json dir = some { st with dir } := by
  rcases hbytes : st.dir.file with _ | bytes
  · simp only [«open», hbytes] at h
    simp only [«open», hfile, hbytes]
    rw [← Option.some.inj h]
  · simp only [«open», hbytes] at h
    obtain ⟨inner, hinner, hst⟩ := Option.map_eq_some_iff.mp h
    have hsame : inner = st.inner := congrArg LogStore.inner hst
    simp only [«open», hfile, hbytes, hinner, Option.map_some, hsame]

theorem open_of_written {disk : LogDisk Membership} {dir : AtomicFile}
    (hread : json.fromSlice (json.toVec disk) = some disk)
    (hfile : dir.file = some (json.toVec disk)) :
    «open» json dir = some { inner := disk, dir } := by
  simp only [«open», hfile, hread, Option.map_some]

theorem Sound.crashed (h : Sound json st) {c : LogCall Membership}
    (hread : c.ReadsBack json st.inner) {dir : AtomicFile}
    (hdir : AtomicFile.Crashed st.dir (json.toVec (c.mem st.inner)) dir) :
    ∃ inner, «open» json dir = some { inner, dir } ∧
      (inner = st.inner ∨ inner = c.mem st.inner) := by
  rcases hdir.file_cases with hfile | hfile
  · exact ⟨st.inner, open_of_file_eq h.durable hfile, .inl rfl⟩
  · exact ⟨c.mem st.inner, open_of_written hread hfile, .inr rfl⟩

theorem sound_init
    (h : «open» json { file := none, tmp := none } = some st) :
    Sound json st := by
  have hst : st = { inner := default, dir := { file := none, tmp := none } } :=
    (Option.some.inj h).symm
  subst hst
  exact ⟨LogDisk.contiguous_empty, rfl⟩

theorem Sound.call (h : Sound json st) {c : LogCall Membership}
    (hc : c.InOrder json st.inner) : Sound json (st.call json c) :=
  ⟨LogCall.contiguous_mem h.contiguous hc.respects hc.forward,
    open_of_written hc.readsBack rfl⟩

theorem Sound.crash (h : Sound json st) {c : LogCall Membership}
    (hc : c.InOrder json st.inner) {dir : AtomicFile}
    (hdir : AtomicFile.Crashed st.dir (json.toVec (c.mem st.inner)) dir)
    (hopen : «open» json dir = some st') : Sound json st' := by
  obtain ⟨inner, hinner, hcases⟩ := h.crashed hc.readsBack hdir
  rw [hinner] at hopen
  rw [← Option.some.inj hopen]
  refine ⟨?_, hinner⟩
  rcases hcases with rfl | rfl
  · exact h.contiguous
  · exact (h.call hc).contiguous

theorem Run.sound (h : Run json (fun disk c => c.InOrder json disk) st) : Sound json st := by
  induction h with
  | init hopen => exact sound_init hopen
  | call c _ hc ih => exact ih.call hc
  | crash c _ hc hdir hopen ih => exact ih.crash hc hdir hopen

end LogStore

/-- As long as the purge point does not go back, the log store is an exact,
contiguous log that survives a crash at any point. -/
theorem logExact_of_inOrder (json : LogJson Membership) :
    LogExact json fun disk c => c.InOrder json disk := by
  intro st hrun
  have h := hrun.sound
  refine ⟨h.contiguous, st.inner.reports, h.durable, fun c hc =>
    ⟨LogCall.exact_mem h.contiguous hc.respects, fun dir hdir => ?_⟩⟩
  obtain ⟨inner, hopen, hcases⟩ := h.crashed hc.readsBack hdir
  exact ⟨_, hopen, hcases⟩

/-! ## A purge point that goes back -/

namespace PurgedBack

/-- The images of a store that is purged up to index 5, gets the entry 6, and is
purged up to index 3. -/
def disk (purged : ℕ) (log : List ℕ) : LogDisk Unit where
  lastPurgedLogId := some ⟨⟨1, 1⟩, purged⟩
  log := log.foldl (fun log i =>
    log.insert i { logId := ⟨⟨1, 1⟩, i⟩, payload := .blank }) ∅
  committed := none
  vote := none

def entry : Entry Unit := { logId := ⟨⟨1, 1⟩, 6⟩, payload := .blank }

/-- Some text for an image, by its purge point and whether it has an entry. -/
def text (disk : LogDisk Unit) : Bytes :=
  [UInt8.ofNat (nextIndex disk.lastPurgedLogId),
    if disk.log.isEmpty then 0 else 1]

def json : LogJson Unit where
  toVec := text
  fromSlice bytes :=
    if bytes = [6, 0] then some (disk 5 [])
    else if bytes = [6, 1] then some (disk 5 [6])
    else if bytes = [4, 1] then some (disk 3 [6])
    else none

end PurgedBack

open PurgedBack in
/-- A log is purged beyond its end, gets an entry, and is purged again at a lower
index: the entry does not follow the purge point. -/
theorem not_logExact : ¬ ∀ json : LogJson Unit, LogExact json fun disk c =>
    c.Respects disk ∧ c.ReadsBack json disk := by
  intro hall
  have hrun₀ : LogStore.Run json (fun disk c =>
      c.Respects disk ∧ c.ReadsBack json disk)
      { inner := default, dir := { file := none, tmp := none } } :=
    .init rfl
  have hrun₁ := hrun₀.call (.purge ⟨⟨1, 1⟩, 5⟩) ⟨trivial, rfl⟩
  have hrun₂ := hrun₁.call (.append [entry]) ⟨by
    intro i e he
    rcases i with _ | i
    · rw [← Option.some.inj he, LogDisk.getLogState_of_empty rfl]
      rfl
    · simp at he, rfl⟩
  have hrun₃ := hrun₂.call (.purge ⟨⟨1, 1⟩, 3⟩) ⟨trivial, rfl⟩
  obtain ⟨n, hn⟩ := (hall json _ hrun₃).1.interval
  have hsix := (hn 6).mp (by decide +kernel)
  have hfour := (hn 4).mpr ⟨by decide +kernel, by omega⟩
  exact absurd hfour (by decide +kernel)

end Quorvec
