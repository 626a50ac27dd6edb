import Quorvec.Storage.Acknowledged

/-!
# The shards of a node

A node keeps a directory for each shard that it ever held, and opens a shard
when it is first asked for it.  Dropping a shard closes it; its directory
stays, and a later access opens it again.
-/

namespace Quorvec

open ByteCodec LastWriterWins

/-- One shard of one collection. -/
structure ShardKey where
  collection : String
  shardIdx : UInt32
deriving DecidableEq

/-- A shard together with what is needed to open it. -/
structure ShardRef where
  collection : String
  shardIdx : UInt32
  dim : ℕ
  metric : Metric

def ShardRef.key (sref : ShardRef) : ShardKey :=
  { collection := sref.collection, shardIdx := sref.shardIdx }

/-- A point as the data plane returns it. -/
structure StoredPoint where
  id : UInt64
  hlc : Hlc
  tombstone : Bool
  vector : List F32
  payload : Bytes
deriving DecidableEq

/-- The versioned point of an id; `none` if the shard never saw the id. -/
def Shard.storedPoint (s : Shard) (id : UInt64) :
    Except ShardError (Option StoredPoint) :=
  match s.version id with
  | none => .ok none
  | some v => do
      let vector ← s.vectorOf id v
      return some
        { id, hlc := v.hlc, tombstone := v.tombstone, vector, payload := [] }

inductive ShardStoreError
  | shard (e : ShardError)
  | dimMismatch (expected got : ℕ)
deriving DecidableEq, Repr

/-- The directory of a shard, or the shard that is open on it. -/
inductive ShardSlot
  | closed (dir : ShardDir)
  | opened (s : Shard)

/-- The shards of a node by key. -/
structure ShardStore where
  snapshotWalMb : ℕ
  walBatchMs : ℕ
  slots : ShardKey → ShardSlot

/-- What a shard holds in memory; nothing if it is not open. -/
def ShardSlot.registers : ShardSlot → UInt64 → Option (Hlc × Content)
  | .closed _ => fun _ => none
  | .opened s => Quorvec.registers s.mem

namespace ShardStore

/-- A node with an empty data directory. -/
def new (snapshotWalMb walBatchMs : ℕ) : ShardStore :=
  { snapshotWalMb, walBatchMs, slots := fun _ => .closed .empty }

/-- Replace one slot. -/
def put (st : ShardStore) (key : ShardKey) (slot : ShardSlot) : ShardStore :=
  { st with slots := Function.update st.slots key slot }

/-- Get the shard, opening it if needed. -/
def getOrOpen (R : Runtime) (st : ShardStore) (sref : ShardRef) :
    ShardStore × Except ShardStoreError Shard :=
  match st.slots sref.key with
  | .opened s => (st, .ok s)
  | .closed dir =>
      match Shard.open R dir sref.dim sref.metric st.snapshotWalMb
          st.walBatchMs with
      | .ok s => (st.put sref.key (.opened s), .ok s)
      | .error e =>
          (st.put sref.key
            (.closed (Shard.dirAfterOpen R dir sref.dim sref.metric)),
            .error (.shard e))

/-- Whether the shard is open here. -/
def hasShard (st : ShardStore) (collection : String) (shardIdx : UInt32) :
    Bool :=
  match st.slots { collection, shardIdx } with
  | .opened _ => true
  | .closed _ => false

/-- An operation on the shard, under its lock. -/
def access {α : Type} (R : Runtime) (st : ShardStore) (sref : ShardRef)
    (op : Shard → Shard × Except ShardError α) :
    ShardStore × Except ShardStoreError α :=
  match st.getOrOpen R sref with
  | (st, .error e) => (st, .error e)
  | (st, .ok s) =>
      match op s with
      | (s, .ok a) => (st.put sref.key (.opened s), .ok a)
      | (s, .error e) => (st.put sref.key (.opened s), .error (.shard e))

/-- Every record of a shard. -/
def records (R : Runtime) (st : ShardStore) (sref : ShardRef) :
    ShardStore × Except ShardStoreError (List Shard.ShardRecordRow) :=
  st.access R sref fun s => (s, s.records)

/-- The live points of a shard. -/
def shardLen (R : Runtime) (st : ShardStore) (sref : ShardRef) :
    ShardStore × Except ShardStoreError ℕ :=
  st.access R sref fun s => (s, .ok s.len)

/-- Close a shard; its directory stays. -/
def dropShard (st : ShardStore) (collection : String) (shardIdx : UInt32) :
    ShardStore :=
  match st.slots { collection, shardIdx } with
  | .opened s => st.put { collection, shardIdx } (.closed s.close)
  | .closed _ => st

def upsert (R : Runtime) (st : ShardStore) (sref : ShardRef) (hlc : Hlc)
    (id : UInt64) (vector : List F32) (payload : Bytes) :
    ShardStore × Except ShardStoreError WriteOutcome :=
  if vector.length ≠ sref.dim then
    (st, .error (.dimMismatch sref.dim vector.length))
  else st.access R sref fun s => s.upsertVersioned R hlc id vector payload

def delete (R : Runtime) (st : ShardStore) (sref : ShardRef) (hlc : Hlc)
    (id : UInt64) : ShardStore × Except ShardStoreError WriteOutcome :=
  st.access R sref fun s => s.deleteVersioned R hlc id

/-- The versioned point of an id. -/
def getVersioned (R : Runtime) (st : ShardStore) (sref : ShardRef)
    (id : UInt64) : ShardStore × Except ShardStoreError (Option StoredPoint) :=
  st.access R sref fun s => (s, s.storedPoint id)

def searchShard (R : Runtime) (st : ShardStore) (sref : ShardRef)
    (query : List F32) (k efSearch : ℕ) :
    ShardStore × Except ShardStoreError (List (UInt64 × F32)) :=
  st.access R sref fun s => (s, s.search R query k efSearch)

/-- Close all shards of a collection; their directories stay. -/
def dropCollection (st : ShardStore) (collection : String) : ShardStore :=
  { st with slots := fun key =>
      if key.collection = collection then
        match st.slots key with
        | .opened s => .closed s.close
        | .closed dir => .closed dir
      else st.slots key }

/-! ## One operation -/

section Access

variable {R : Runtime} {st : ShardStore} {sref : ShardRef}

/-- The shard that an operation works on: the open one, or the one that the
directory opens to. -/
def Serves (R : Runtime) (st : ShardStore) (sref : ShardRef) (s : Shard) :
    Prop :=
  st.slots sref.key = .opened s ∨ ∃ dir, st.slots sref.key = .closed dir ∧
    Shard.open R dir sref.dim sref.metric st.snapshotWalMb st.walBatchMs =
      .ok s

theorem slots_put_self (key : ShardKey) (slot : ShardSlot) :
    (st.put key slot).slots key = slot := Function.update_self _ _ _

theorem slots_put_of_ne {key key' : ShardKey} (h : key' ≠ key)
    (slot : ShardSlot) : (st.put key slot).slots key' = st.slots key' :=
  Function.update_of_ne h _ _

theorem put_same {key : ShardKey} {slot : ShardSlot}
    (h : st.slots key = slot) : st.put key slot = st := by
  rw [put, ← h, Function.update_eq_self]

theorem getOrOpen_cases (R : Runtime) (st : ShardStore) (sref : ShardRef) :
    (∃ dir dir' e, st.slots sref.key = .closed dir ∧
        st.getOrOpen R sref = (st.put sref.key (.closed dir'), .error e)) ∨
      ∃ s, Serves R st sref s ∧
        st.getOrOpen R sref = (st.put sref.key (.opened s), .ok s) := by
  unfold getOrOpen
  split
  · next s hslot =>
      right
      exact ⟨s, .inl hslot, by rw [put_same hslot]⟩
  · next dir hslot =>
      split
      · next s hopen =>
          right
          exact ⟨s, .inr ⟨dir, hslot, hopen⟩, rfl⟩
      · next e _ =>
          left
          exact ⟨dir, _, _, hslot, rfl⟩

/-- An operation on a shard that opens. -/
theorem access_of_getOrOpen {α : Type} {s : Shard}
    (h : st.getOrOpen R sref = (st.put sref.key (.opened s), .ok s))
    (op : Shard → Shard × Except ShardError α) :
    st.access R sref op = (st.put sref.key (.opened (op s).1),
      (op s).2.mapError .shard) := by
  have hput : ∀ slot, (st.put sref.key (.opened s)).put sref.key slot =
      st.put sref.key slot := by
    intro slot
    simp only [put, Function.update_idem]
  rw [access, h]
  rcases hop : op s with ⟨s', e | a⟩ <;> simp only [hop, hput] <;> rfl

theorem getOrOpen_of_serves {s : Shard} (h : Serves R st sref s) :
    st.getOrOpen R sref = (st.put sref.key (.opened s), .ok s) := by
  rcases h with hslot | ⟨dir, hslot, hopen⟩
  · rw [put_same hslot, getOrOpen]
    simp only [hslot]
  · simp only [getOrOpen, hslot, hopen]

theorem serves_unique {s s' : Shard} (h : Serves R st sref s)
    (h' : Serves R st sref s') : s = s' := by
  have hopen := getOrOpen_of_serves h
  rw [getOrOpen_of_serves h'] at hopen
  exact (Except.ok.inj (Prod.mk.inj hopen).2).symm

theorem read_of_opened {α : Type} {s : Shard}
    (h : st.slots sref.key = .opened s) (f : Shard → Except ShardError α) :
    st.access R sref (fun s => (s, f s)) =
      (st, (f s).mapError .shard) := by
  rw [access_of_getOrOpen (getOrOpen_of_serves (.inl h)), put_same h]

/-- An operation fails to open the shard, or runs on the shard it serves. -/
theorem access_cases {α : Type} (R : Runtime) (st : ShardStore)
    (sref : ShardRef) (op : Shard → Shard × Except ShardError α) :
    (∃ dir dir' e, st.slots sref.key = .closed dir ∧
        st.access R sref op = (st.put sref.key (.closed dir'), .error e)) ∨
      ∃ s, Serves R st sref s ∧
        st.access R sref op = (st.put sref.key (.opened (op s).1),
          (op s).2.mapError .shard) := by
  rcases getOrOpen_cases R st sref with
    ⟨dir, dir', e, hslot, hopen⟩ | ⟨s, hs, hopen⟩
  · left
    exact ⟨dir, dir', e, hslot, by rw [access, hopen]⟩
  · right
    exact ⟨s, hs, access_of_getOrOpen hopen op⟩

theorem slots_access_of_ne {α : Type} {key : ShardKey} (h : key ≠ sref.key)
    (op : Shard → Shard × Except ShardError α) :
    (st.access R sref op).1.slots key = st.slots key := by
  rcases access_cases R st sref op with
    ⟨dir, dir', e, -, heq⟩ | ⟨s, -, heq⟩ <;> rw [heq] <;>
    exact slots_put_of_ne h _

/-- An operation that takes no version back leaves the slot with none taken
back. -/
theorem atLeast_access {α : Type} {op : Shard → Shard × Except ShardError α}
    {id : UInt64} {t : Hlc}
    (hop : ∀ s, AtLeast (registers s.mem id) t →
      AtLeast (registers (op s).1.mem id) t)
    {key : ShardKey} (h : AtLeast ((st.slots key).registers id) t) :
    AtLeast (((st.access R sref op).1.slots key).registers id) t := by
  by_cases hkey : key = sref.key
  · rw [hkey] at h ⊢
    rcases access_cases R st sref op with
      ⟨dir, dir', e, hslot, -⟩ | ⟨s, hs, heq⟩
    · rw [hslot] at h
      obtain ⟨p, hp, -⟩ := h
      simp [ShardSlot.registers] at hp
    · rw [heq, slots_put_self]
      apply hop
      rcases hs with hslot | ⟨dir, hslot, -⟩
      · rwa [hslot] at h
      · rw [hslot] at h
        obtain ⟨p, hp, -⟩ := h
        simp [ShardSlot.registers] at hp
  · rwa [slots_access_of_ne hkey]

end Access

/-! ## Versioned writes -/

section Write

variable {R : Runtime} {st : ShardStore} {sref : ShardRef}

/-- The operation codes of the wire. -/
def opUpsert : UInt32 := 0

def opDelete : UInt32 := 1

/-- Apply a point operation by its code. -/
def write (R : Runtime) (st : ShardStore) (sref : ShardRef) (op : UInt32)
    (hlc : Hlc) (id : UInt64) (vector : List F32) (payload : Bytes) :
    ShardStore × Except ShardStoreError WriteOutcome :=
  if op = opDelete then st.delete R sref hlc id
  else st.upsert R sref hlc id vector payload

/-- The versioned write of a point operation. -/
def callOf (op : UInt32) (hlc : Hlc) (id : UInt64) (vector : List F32)
    (payload : Bytes) : ShardCall :=
  if op = opDelete then .delete hlc id else .upsert hlc id vector payload

theorem hlc_callOf (op : UInt32) (hlc : Hlc) (id : UInt64)
    (vector : List F32) (payload : Bytes) :
    (callOf op hlc id vector payload).hlc = hlc := by
  unfold callOf
  split_ifs <;> rfl

theorem id_callOf (op : UInt32) (hlc : Hlc) (id : UInt64)
    (vector : List F32) (payload : Bytes) :
    (callOf op hlc id vector payload).id = id := by
  unfold callOf
  split_ifs <;> rfl

/-- A point operation is refused for its dimension, or is a versioned write to
the shard. -/
theorem write_cases (R : Runtime) (st : ShardStore) (sref : ShardRef)
    (op : UInt32) (hlc : Hlc) (id : UInt64) (vector : List F32)
    (payload : Bytes) :
    (∃ e, st.write R sref op hlc id vector payload = (st, .error e)) ∨
      st.write R sref op hlc id vector payload =
        st.access R sref (fun s =>
          (callOf op hlc id vector payload).apply R s) := by
  unfold write callOf
  split_ifs with hop
  · right
    rfl
  · unfold upsert
    split_ifs with hdim
    · left
      exact ⟨_, rfl⟩
    · right
      rfl

variable {op : UInt32} {hlc : Hlc} {id : UInt64} {vector : List F32}
variable {payload : Bytes}

theorem slots_write_of_ne {key : ShardKey} (h : key ≠ sref.key) :
    (st.write R sref op hlc id vector payload).1.slots key =
      st.slots key := by
  rcases write_cases R st sref op hlc id vector payload with ⟨e, heq⟩ | heq <;>
    rw [heq]
  exact slots_access_of_ne h _

theorem atLeast_write {key : ShardKey} {id' : UInt64} {t : Hlc}
    (h : AtLeast ((st.slots key).registers id') t) :
    AtLeast (((st.write R sref op hlc id vector payload).1.slots
      key).registers id') t := by
  rcases write_cases R st sref op hlc id vector payload with ⟨e, heq⟩ | heq
  · rwa [heq]
  · rw [heq]
    exact atLeast_access (fun s hs => Shard.atLeast_apply hs) h

/-- A write that is acknowledged is held. -/
theorem atLeast_write_of_ok {out : WriteOutcome}
    (h : (st.write R sref op hlc id vector payload).2 = .ok out) :
    AtLeast (((st.write R sref op hlc id vector payload).1.slots
      sref.key).registers id) hlc := by
  rcases write_cases R st sref op hlc id vector payload with ⟨e, heq⟩ | heq
  · rw [heq] at h
    simp at h
  · rw [heq] at h ⊢
    rcases access_cases R st sref fun s =>
        (callOf op hlc id vector payload).apply R s with
      ⟨dir, dir', e, -, haccess⟩ | ⟨s, -, haccess⟩
    · rw [haccess] at h
      simp at h
    · rw [haccess] at h ⊢
      rw [slots_put_self]
      rcases hres : ((callOf op hlc id vector payload).apply R s).2 with e | a
      · simp [hres, Except.mapError] at h
      · have hheld := Shard.atLeast_apply_of_ok hres
        rwa [hlc_callOf, id_callOf] at hheld

end Write

end ShardStore

end Quorvec
