import Quorvec.Node.KeptSlot
import Quorvec.Node.Transfer
import Quorvec.Support.CallMachine

/-!
# The shards of a node as one map of registers

The abstract view of a node's storage is a family of registers for each shard:
the stamp and the content of every id.  Nothing else is there: no directories,
no open shards, no logs.  The shards that a node keeps, which it opens when they
are asked for, closes when they are dropped, and finds again after a restart,
answer every sequence of calls as this map does.

What a search finds depends on the index and not on the registers alone; that a
search changes nothing is part of the statement.
-/

namespace Quorvec

open LastWriterWins CallMachine TotalCorrectness

namespace ShardStore

/-- The stored vector of a live id. -/
def get (R : Runtime) (st : ShardStore) (sref : ShardRef) (id : UInt64) :
    ShardStore × Except ShardStoreError (Option (List F32)) :=
  st.access R sref fun s => (s, s.get id)

/-- The process ends, and starts again with other settings. -/
def restart (st : ShardStore) (snapshotWalMb walBatchMs : ℕ) : ShardStore where
  snapshotWalMb := snapshotWalMb
  walBatchMs := walBatchMs
  slots key :=
    match st.slots key with
    | .opened s => .closed s.close
    | .closed dir => .closed dir

end ShardStore

/-! ## Calls and replies -/

/-- A call to the storage of a node. -/
inductive StoreCall
  | write (key : ShardKey) (op : UInt32) (hlc : Hlc) (id : UInt64)
      (vector : List F32) (payload : ByteCodec.Bytes)
  | get (key : ShardKey) (id : UInt64)
  | getVersioned (key : ShardKey) (id : UInt64)
  | shardLen (key : ShardKey)
  | records (key : ShardKey)
  | searchShard (key : ShardKey) (query : List F32) (k efSearch : ℕ)
  | dropShard (key : ShardKey)
  | dropCollection (collection : String)
  | restart (snapshotWalMb walBatchMs : ℕ)

/-- What a call returns.  The rows of a shard come in no particular order. -/
inductive StoreReply
  | written (out : Except ShardStoreError WriteOutcome)
  | vector (out : Except ShardStoreError (Option (List F32)))
  | point (out : Except ShardStoreError (Option StoredPoint))
  | length (out : Except ShardStoreError ℕ)
  | rows (out : Except ShardStoreError (Set Shard.ShardRecordRow))
  | done

/-- The record of a write fits its frame. -/
def StoreCall.FitsFrame : StoreCall → Prop
  | write _ op hlc id vector payload =>
      (ShardStore.callOf op hlc id vector payload).record.FitsFrame
  | _ => True

instance : DecidablePred StoreCall.FitsFrame
  | .write _ op hlc id vector payload =>
      inferInstanceAs (Decidable
        (ShardStore.callOf op hlc id vector payload).record.FitsFrame)
  | .get .. | .getVersioned .. | .shardLen .. | .records .. | .searchShard ..
  | .dropShard .. | .dropCollection .. | .restart .. => .isTrue trivial

/-- The calls whose records fit their frames. -/
abbrev FittingCall := { c : StoreCall // c.FitsFrame }

section Model

variable (R : Runtime) (schemas : String → CollectionSchema)

/-- What opens a shard. -/
def refOf (key : ShardKey) : ShardRef :=
  shardRef key.collection key.shardIdx (schemas key.collection)

/-- The rows as a set. -/
def rowSet (out : Except ShardStoreError (List Shard.ShardRecordRow)) :
    Except ShardStoreError (Set Shard.ShardRecordRow) :=
  out.map fun rows => {row | row ∈ rows}

/-- The storage of a node answers a call. -/
def storeCall (st : ShardStore) (c : FittingCall) : ShardStore × StoreReply :=
  match c.1 with
  | .write key op hlc id vector payload =>
      let (st, out) :=
        st.write R (refOf schemas key) op hlc id vector payload
      (st, .written out)
  | .get key id =>
      let (st, out) := st.get R (refOf schemas key) id
      (st, .vector out)
  | .getVersioned key id =>
      let (st, out) := st.getVersioned R (refOf schemas key) id
      (st, .point out)
  | .shardLen key =>
      let (st, out) := st.shardLen R (refOf schemas key)
      (st, .length out)
  | .records key =>
      let (st, out) := st.records R (refOf schemas key)
      (st, .rows (rowSet out))
  | .searchShard key query k efSearch =>
      ((st.searchShard R (refOf schemas key) query k efSearch).1, .done)
  | .dropShard key => (st.dropShard key.collection key.shardIdx, .done)
  | .dropCollection collection => (st.dropCollection collection, .done)
  | .restart snapshotWalMb walBatchMs =>
      (st.restart snapshotWalMb walBatchMs, .done)

/-- The registers of all shards. -/
abbrev RegisterMap := ShardKey → Registers

/-- The ids that have a vector. -/
def liveIds (regs : Registers) : Set UInt64 :=
  {id | ∃ p, regs id = some p ∧ p.2.isSome}

/-- What the map answers. -/
noncomputable def mapCall (map : RegisterMap) (c : FittingCall) :
    RegisterMap × StoreReply :=
  match c.1 with
  | .write key op hlc id vector _ =>
      let dim := (refOf schemas key).dim
      if op ≠ ShardStore.opDelete ∧ vector.length ≠ dim then
        (map, .written (.error (.dimMismatch dim vector.length)))
      else
        (Function.update map key
          (deliverWith offer (map key) (id, hlc, contentOf op vector)),
          .written (.ok
            (if Beats hlc (map key id) then .applied else .stale)))
  | .get key id => (map, .vector (.ok ((map key id).bind Prod.snd)))
  | .getVersioned key id => (map, .point (.ok ((map key id).map (pointOf id))))
  | .shardLen key => (map, .length (.ok (liveIds (map key)).ncard))
  | .records key =>
      (map, .rows (.ok {row | ∃ p, map key row.id = some p ∧
        row = Shard.rowOf row.id p}))
  | _ => (map, .done)

/-- The slots keep the registers of the map. -/
def Represents (st : ShardStore) (map : RegisterMap) : Prop :=
  ∀ key, (st.slots key).Keeps R (refOf schemas key).dim
    (refOf schemas key).metric (map key)

end Model

/-! ## One call -/

section Step

variable {R : Runtime} {schemas : String → CollectionSchema}
variable {st : ShardStore} {map : RegisterMap}

/-- An operation on one shard. -/
theorem Represents.access (h : Represents R schemas st map) {α : Type}
    {key : ShardKey} {op : Shard → Shard × Except ShardError α}
    {regs : Registers}
    (hop : ∀ s : Shard,
      s.Keeps R (refOf schemas key).dim (refOf schemas key).metric (map key) →
      (op s).1.Keeps R (refOf schemas key).dim (refOf schemas key).metric
        regs) :
    Represents R schemas (st.access R (refOf schemas key) op).1
      (Function.update map key regs) := by
  intro key'
  by_cases hkey : key' = key
  · subst hkey
    obtain ⟨s, hs, haccess⟩ :=
      ShardStore.access_of_keeps (h key') op
    rw [haccess, Function.update_self]
    show ((st.put (refOf schemas key').key _).slots
      (refOf schemas key').key).Keeps R _ _ _
    rw [ShardStore.slots_put_self]
    exact hop s hs
  · rw [Function.update_of_ne hkey, ShardStore.slots_access_of_ne hkey]
    exact h key'

/-- Reading a shard. -/
theorem Represents.read (h : Represents R schemas st map) {α : Type}
    (key : ShardKey) (f : Shard → Except ShardError α) {a : α}
    (hf : ∀ s : Shard,
      s.Keeps R (refOf schemas key).dim (refOf schemas key).metric (map key) →
      f s = .ok a) :
    (st.access R (refOf schemas key) fun s => (s, f s)).2 = .ok a ∧
      Represents R schemas
        (st.access R (refOf schemas key) fun s => (s, f s)).1 map := by
  constructor
  · obtain ⟨s, hs, haccess⟩ :=
      ShardStore.access_of_keeps (h key) fun s => (s, f s)
    rw [haccess, hf s hs]
    rfl
  · have hsame := @Represents.access R schemas st map h α key
      (fun s => (s, f s)) (map key) fun s hs => hs
    rwa [Function.update_eq_self] at hsame

/-- A write that fits its frame is refused for its vector, or is an offer to
the registers. -/
theorem Represents.write (h : Represents R schemas st map) (key : ShardKey)
    {op : UInt32} {hlc : Hlc} {id : UInt64} {vector : List F32}
    {payload : ByteCodec.Bytes}
    (hfits : (ShardStore.callOf op hlc id vector payload).record.FitsFrame)
    (hvector : ∀ v, contentOf op vector = some v →
      v.length = (refOf schemas key).dim) :
    (st.write R (refOf schemas key) op hlc id vector payload).2 =
        .ok (if Beats hlc (map key id) then .applied else .stale) ∧
      Represents R schemas
        (st.write R (refOf schemas key) op hlc id vector payload).1
        (Function.update map key
          (deliverWith offer (map key) (id, hlc, contentOf op vector))) := by
  have hwrite := @ShardStore.write_eq_access R st (refOf schemas key) op hlc id
    vector payload hvector
  have hcall := @ShardStore.offered_callOf op hlc id vector payload
  have hstep : ∀ s : Shard, s.Keeps R (refOf schemas key).dim
      (refOf schemas key).metric (map key) →
      Shard.Stepped R s (ShardStore.callOf op hlc id vector payload).record
        ((ShardStore.callOf op hlc id vector payload).apply R s) := by
    intro s hs
    refine Shard.apply_stepped hs.1.valid ?_
    rw [hs.1.dim_eq]
    exact ShardStore.hasDim_callOf hvector
  constructor
  · obtain ⟨s, hs, haccess⟩ := @ShardStore.access_of_keeps R st
      (refOf schemas key) _ _ (h key)
      fun s => (ShardStore.callOf op hlc id vector payload).apply R s
    have hbeats : Beats hlc (map key id) ↔
        Beats (ShardStore.callOf op hlc id vector payload).record.hlc
          (registers s.mem
            (ShardStore.callOf op hlc id vector payload).record.id) := by
      rw [← hs.2, ← ShardCall.hlc, ← ShardCall.id, ShardStore.hlc_callOf,
        ShardStore.id_callOf]
    rw [hwrite, haccess]
    split_ifs with hwins
    · rw [(hstep s hs).applied (hbeats.mp hwins)]
      rfl
    · rw [(hstep s hs).stale (mt hbeats.mpr hwins)]
      rfl
  · rw [hwrite]
    refine h.access fun s hs => ⟨hs.1.apply hfits, ?_⟩
    rw [← hs.2, ← hcall]
    exact (hstep s hs).registers_eq

/-- Closing a slot, or leaving it as it is. -/
theorem Represents.close (h : Represents R schemas st map)
    {st' : ShardStore}
    (hslots : ∀ key, st'.slots key = st.slots key ∨
      ∃ s, st.slots key = .opened s ∧ st'.slots key = .closed s.close) :
    Represents R schemas st' map := by
  intro key
  have hkeeps := h key
  rcases hslots key with heq | ⟨s, hopened, hclosed⟩
  · rwa [heq]
  · rw [hopened] at hkeeps
    rw [hclosed]
    exact ShardSlot.keeps_close hkeeps

theorem Represents.dropShard (h : Represents R schemas st map)
    (key : ShardKey) :
    Represents R schemas (st.dropShard key.collection key.shardIdx) map := by
  refine h.close fun key' => ?_
  unfold ShardStore.dropShard
  split
  · next s hs =>
      by_cases hkey : key' = key
      · subst hkey
        exact .inr ⟨s, hs, ShardStore.slots_put_self _ _⟩
      · exact .inl (ShardStore.slots_put_of_ne hkey _)
  · exact .inl rfl

theorem Represents.dropCollection (h : Represents R schemas st map)
    (collection : String) :
    Represents R schemas (st.dropCollection collection) map :=
  fun key => ShardStore.keeps_dropCollection (h key) collection

theorem Represents.restart (h : Represents R schemas st map)
    (snapshotWalMb walBatchMs : ℕ) :
    Represents R schemas (st.restart snapshotWalMb walBatchMs) map := by
  refine h.close fun key => ?_
  cases hslot : st.slots key with
  | closed dir => exact .inl (by simp [ShardStore.restart, hslot])
  | opened s => exact .inr ⟨s, rfl, by simp [ShardStore.restart, hslot]⟩

/-- One call. -/
theorem simulates_storeCall (R : Runtime)
    (schemas : String → CollectionSchema) :
    Simulates (Represents R schemas) (storeCall R schemas)
      (mapCall schemas) := by
  rintro st map ⟨c, hfits⟩ h
  cases c with
  | write key op hlc id vector payload =>
      by_cases hbad : op ≠ ShardStore.opDelete ∧
          vector.length ≠ (refOf schemas key).dim
      · have hrefused := @ShardStore.write_refused R st (refOf schemas key) op
          hlc id vector payload fun hall => hbad.2 (hall vector (by
            rw [contentOf, if_neg hbad.1]))
        simp only [storeCall, mapCall, if_pos hbad, hrefused]
        exact ⟨trivial, h⟩
      · have hvector : ∀ v, contentOf op vector = some v →
            v.length = (refOf schemas key).dim := by
          intro v hv
          unfold contentOf at hv
          split_ifs at hv with hop
          rw [← Option.some.inj hv]
          by_contra hlength
          exact hbad ⟨hop, hlength⟩
        obtain ⟨hout, hnext⟩ := h.write key hfits hvector
        simp only [storeCall, mapCall, if_neg hbad]
        exact ⟨congrArg StoreReply.written hout, hnext⟩
  | get key id =>
      obtain ⟨hout, hnext⟩ := h.read key (fun s => s.get id) fun s hs => by
        rw [Shard.get_eq hs.1.valid, hs.2]
      exact ⟨congrArg StoreReply.vector hout, hnext⟩
  | getVersioned key id =>
      obtain ⟨hout, hnext⟩ := h.read key (fun s => s.storedPoint id)
        fun s hs => by rw [Shard.storedPoint_eq hs.1.valid, hs.2]
      exact ⟨congrArg StoreReply.point hout, hnext⟩
  | shardLen key =>
      obtain ⟨hout, hnext⟩ := h.read key (fun s => .ok s.len) fun s hs => by
        rw [Shard.len_eq hs.1.valid, hs.2]
      exact ⟨congrArg StoreReply.length hout, hnext⟩
  | records key =>
      have hrows : ∀ s : Shard, s.Keeps R (refOf schemas key).dim
          (refOf schemas key).metric (map key) →
          ∃ rows, s.records = .ok rows ∧ ∀ row, row ∈ rows ↔
            ∃ p, map key row.id = some p ∧ row = Shard.rowOf row.id p := by
        intro s hs
        obtain ⟨rows, hok, hmem⟩ := Shard.records_returns hs.1.valid
        exact ⟨rows, hok, fun row => by rw [hmem, hs.2]⟩
      obtain ⟨s, hs, haccess⟩ :=
        ShardStore.access_of_keeps (h key) fun s => (s, s.records)
      obtain ⟨rows, hok, hmem⟩ := hrows s hs
      constructor
      · have hout : (st.records R (refOf schemas key)).2 = .ok rows := by
          rw [ShardStore.records, haccess, hok]
          rfl
        show StoreReply.rows (rowSet (st.records R (refOf schemas key)).2) = _
        rw [hout]
        exact congrArg (fun rows => StoreReply.rows (.ok rows))
          (Set.ext fun row => hmem row)
      · have hsame := @Represents.access R schemas st map h _ key
          (fun s => (s, s.records)) (map key) fun s hs => hs
        rw [Function.update_eq_self] at hsame
        exact hsame
  | searchShard key query k efSearch =>
      have hsame := @Represents.access R schemas st map h _ key
        (fun s => (s, s.search R query k efSearch)) (map key) fun s hs => hs
      rw [Function.update_eq_self] at hsame
      exact ⟨rfl, hsame⟩
  | dropShard key => exact ⟨rfl, h.dropShard key⟩
  | dropCollection collection => exact ⟨rfl, h.dropCollection collection⟩
  | restart snapshotWalMb walBatchMs =>
      exact ⟨rfl, h.restart snapshotWalMb walBatchMs⟩

end Step

/-! ## Every sequence of calls -/

theorem represents_new (R : Runtime) {schemas : String → CollectionSchema}
    (hdim : ∀ collection, 0 < (schemas collection).dim.toNat)
    (snapshotWalMb walBatchMs : ℕ) :
    Represents R schemas (.new snapshotWalMb walBatchMs) fun _ _ => none :=
  fun key => ShardSlot.blank_unused _ _ (hdim key.collection)

/-- The storage of a node answers every sequence of calls as the map of
registers does. -/
theorem store_answers_as_map (R : Runtime)
    {schemas : String → CollectionSchema}
    (hdim : ∀ collection, 0 < (schemas collection).dim.toNat)
    (snapshotWalMb walBatchMs : ℕ) (calls : List FittingCall) :
    (run (storeCall R schemas) (.new snapshotWalMb walBatchMs) calls).2 =
      (run (mapCall schemas) (fun _ _ => none) calls).2 :=
  ((simulates_storeCall R schemas).run
    (represents_new R hdim snapshotWalMb walBatchMs) calls).1

/-- A point that is written is read after its shard was dropped and the node
restarted. -/
theorem store_answers_as_map_restart :
    let schemas : String → CollectionSchema := fun _ =>
      { dim := 1, metric := .l2, shardCount := 1, replicationN := 1 }
    let key : ShardKey := { collection := "c", shardIdx := 0 }
    let calls : List FittingCall :=
      [⟨.write key 0 (Hlc.new 1 0) 7 [0] [], by decide⟩,
        ⟨.dropShard key, trivial⟩, ⟨.restart 0 10, trivial⟩,
        ⟨.get key 7, trivial⟩]
    (run (storeCall .constant schemas) (.new 0 0) calls).2 =
      (run (mapCall schemas) (fun _ _ => none) calls).2 := by
  intro schemas key calls
  exact store_answers_as_map .constant (fun _ => by decide) 0 0 calls

end Quorvec
