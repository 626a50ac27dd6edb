import Quorvec.Node.Convergence
import Quorvec.Node.Transfer

/-!
# Replicas never invent or regress data

Shard transfers are added to the writes, hints and repairs that reach the
replicas: a source enumerates its records, and a target applies them, in any
order and number.  Whatever a replica then returns for an id, or enumerates, is
a write that a coordinator stamped, and it is replaced by newer ones only.
-/

namespace Quorvec

open LastWriterWins ByteCodec

inductive ReplicaStep
  | data (e : DataStep)
  /-- A source enumerates the records of a shard. -/
  | stream (source : NodeId) (collection : String) (shardIdx : UInt32)
  /-- A target applies a record that was enumerated. -/
  | pull (target : NodeId) (reading : ℕ) (collection : String)
      (shardIdx : UInt32) (row : Shard.ShardRecordRow)

namespace DataPlane

section Step

variable (R : Runtime) (xxh64 : Bytes → UInt64)

/-- One step; `none` if it cannot happen. -/
def replicaStep (s : DataPlane) : ReplicaStep → Option DataPlane
  | .data e => s.step R xxh64 e
  | .stream source collection shardIdx =>
      match (s.world source).metadata.collections[collection]? with
      | none => none
      | some schema =>
          match (s.world source).streamShard R collection shardIdx schema with
          | (state, .ok rows) => some { s with
              world := Function.update s.world source state
              sent := rows.map (·.request collection shardIdx) ++ s.sent }
          | (state, .error _) =>
              some { s with world := Function.update s.world source state }
  | .pull target reading collection shardIdx row =>
      if row.request collection shardIdx ∈ s.sent then
        match (s.world target).metadata.collections[collection]? with
        | none => none
        | some schema =>
            match (s.world target).pullRecord R reading collection shardIdx
                schema row with
            | (state, .ok _) =>
                some (s.taken target (row.request collection shardIdx) state)
            | (state, .error _) =>
                some { s with world := Function.update s.world target state }
      else none

/-- The runs of the replicas, with transfers. -/
inductive ReplicaRun (metadata : MetaState) : DataPlane → Prop
  | init {s : DataPlane} : Initial metadata s → ReplicaRun metadata s
  | step {s s' : DataPlane} (e : ReplicaStep) : ReplicaRun metadata s →
      s.replicaStep R xxh64 e = some s' → ReplicaRun metadata s'

end Step

end DataPlane

/-- In every run, what a replica returns for an id and what it enumerates are
writes that were stamped, and a step replaces what is returned for an id by a
newer version only. -/
def ReplicasFaithful (R : Runtime) (xxh64 : Bytes → UInt64)
    (metadata : MetaState) : Prop :=
  ∀ s, DataPlane.ReplicaRun R xxh64 metadata s →
    ∀ (node : NodeId) (collection : String) (shardIdx : UInt32) schema,
      metadata.collections[collection]? = some schema →
      (∀ id, ∃ seen,
        ((s.world node).readLocal R collection shardIdx schema id).2 =
          .ok seen ∧
        (∀ p, seen = some p → ∃ req ∈ s.issued,
          req.key = { collection, shardIdx } ∧ req.id = id ∧
            p = pointOf id req.written) ∧
        ∀ e s', s.replicaStep R xxh64 e = some s' → ∀ p, seen = some p →
          ∃ p', ((s'.world node).readLocal R collection shardIdx schema
              id).2 = .ok (some p') ∧
            (p' = p ∨ p.hlc < p'.hlc)) ∧
      ∃ rows, ((s.world node).streamShard R collection shardIdx schema).2 =
          .ok rows ∧
        ∀ row ∈ rows, ∃ req ∈ s.issued,
          req.key = { collection, shardIdx } ∧ req.id = row.id ∧
            row = Shard.rowOf row.id req.written

/-! ## What a step does to a replica -/

namespace NodeState

variable {metadata : MetaState} {old new : NodeState}

/-- Reads see what they saw, or one offer more. -/
def Evolves (metadata : MetaState) (old new : NodeState) : Prop :=
  SameData metadata old new ∨ ∃ req, Takes metadata old req new

/-- A register changes to a newer version only. -/
theorem Evolves.eq_or_lt (h : Evolves metadata old new) {key : ShardKey}
    {id : UInt64} {p : Hlc × Content}
    (hp : (old.shards.slots key).registers id = some p) :
    ∃ q, (new.shards.slots key).registers id = some q ∧
      (q = p ∨ p.1 < q.1) := by
  rcases h with hsame | ⟨req, htakes⟩
  · exact ⟨p, by rw [hsame.registers_eq, hp], .inl rfl⟩
  · by_cases hkey : key = req.key
    · subst hkey
      rw [htakes.registers_eq]
      rcases deliver_eq_or_lt hp (req.id, req.written) with
        hsame | ⟨q, hq, hlt⟩
      · exact ⟨p, hsame, .inl rfl⟩
      · exact ⟨q, hq, .inr hlt⟩
    · exact ⟨p, by rw [htakes.other key hkey, hp], .inl rfl⟩

theorem SameData.refl (hvalid : old.ValidShards metadata) :
    SameData metadata old old := ⟨rfl, hvalid, fun _ => rfl⟩

end NodeState

namespace DataPlane

variable {R : Runtime} {xxh64 : Bytes → UInt64} {metadata : MetaState}
variable {s s' : DataPlane}

/-- A step that changes one node. -/
theorem Sound.evolves_update (h : Sound metadata s) {node : NodeId}
    {state : NodeState}
    (hstate : NodeState.Evolves metadata (s.world node) state)
    (hworld : s'.world = Function.update s.world node state)
    (node' : NodeId) :
    NodeState.Evolves metadata (s.world node') (s'.world node') := by
  rw [hworld]
  by_cases hnode : node' = node
  · subst hnode
    rwa [Function.update_self]
  · rw [Function.update_of_ne hnode]
    exact .inl (.refl (h.replica node').valid)

theorem Sound.evolves_stamped (h : Sound metadata s) {node : NodeId}
    {out : NodeState × Except RouterError ReplicaWriteRequest}
    (hout : Stamps metadata (s.world node) out) (node' : NodeId) :
    NodeState.Evolves metadata (s.world node')
      ((s.stamped node out).world node') := by
  obtain ⟨clock, hclock⟩ := hout.clock
  have hsame : NodeState.SameData metadata (s.world node) out.1 := by
    rw [hclock]
    exact ⟨rfl, (h.replica node).valid, fun _ => rfl⟩
  rcases out with ⟨state, e | req⟩ <;>
    exact h.evolves_update (.inl hsame) rfl node'

theorem Sound.evolves_step (h : Sound metadata s) {e : DataStep}
    (hstep : s.step R xxh64 e = some s') (node' : NodeId) :
    NodeState.Evolves metadata (s.world node') (s'.world node') := by
  rcases e with ⟨node, reading, collection, id, vector, payload⟩ |
    ⟨node, reading, collection, id⟩ | ⟨node, reading, req⟩ | ⟨node, req⟩ |
    ⟨source, collection, shardIdx, id⟩
  · rw [← Option.some.inj hstep]
    exact h.evolves_stamped
      (stamps_upsert (h.replica node).metadata_eq _ _ _ _ _) node'
  · rw [← Option.some.inj hstep]
    exact h.evolves_stamped
      (stamps_delete (h.replica node).metadata_eq _ _ _) node'
  · obtain ⟨-, state, hs', htakes⟩ := h.receive_cases hstep
    exact h.evolves_update (.inr ⟨req, htakes⟩) (hs' ▸ rfl) node'
  · obtain ⟨-, state, hs', htakes⟩ := h.receiveLocal_cases hstep
    exact h.evolves_update (.inr ⟨req, htakes⟩) (hs' ▸ rfl) node'
  · obtain ⟨state, sent, hsame, -, rfl⟩ := h.repair_cases hstep
    exact h.evolves_update (.inl hsame) rfl node'

/-! ## Transfers -/

/-- A source enumerates what it holds, and that was issued. -/
theorem Sound.streamShard (h : Sound metadata s) (source : NodeId)
    {collection : String} {schema : CollectionSchema}
    (hschema : metadata.collections[collection]? = some schema)
    (shardIdx : UInt32) :
    ∃ state rows, (s.world source).streamShard R collection shardIdx schema =
        (state, .ok rows) ∧
      NodeState.SameData metadata (s.world source) state ∧
      ∀ row ∈ rows, ∃ req ∈ s.issued,
        req.key = { collection, shardIdx } ∧ req.id = row.id ∧
          row = Shard.rowOf row.id req.written := by
  have hvalid := (h.replica source).valid
  obtain ⟨shards, rows, hstream, hread, hmem, -⟩ :=
    NodeState.streamShard_of_valid (h.admissible _ _ hschema)
      (hvalid _ _ _ hschema)
  refine ⟨_, rows, hstream, ⟨rfl, hvalid.update hschema hread.valid
    hread.other, fun key => ?_⟩, fun row hrow => ?_⟩
  · by_cases hkey : key = { collection, shardIdx }
    · rw [hkey]
      exact hread.registers_eq
    · exact congrArg ShardSlot.registers (hread.other key hkey)
  · obtain ⟨p, hp, heq⟩ := (hmem row).mp hrow
    obtain ⟨req, hreq, hkey, hid, rfl⟩ :=
      (h.replica source).held_from_issued hp
    exact ⟨req, hreq, hkey, hid, heq⟩

/-- A target takes a record like any other request. -/
theorem Sound.pullRecord (h : Sound metadata s) (target : NodeId)
    (reading : ℕ) {collection : String} {schema : CollectionSchema}
    (hschema : metadata.collections[collection]? = some schema)
    {shardIdx : UInt32} {row : Shard.ShardRecordRow}
    (hrow : row.request collection shardIdx ∈ s.sent) :
    ∃ state out, (s.world target).pullRecord R reading collection shardIdx
        schema row = (state, .ok out) ∧
      NodeState.Takes metadata (s.world target)
        (row.request collection shardIdx) state := by
  have hvalid := (h.replica target).valid
  have hwritten := row.written_request collection shardIdx
  obtain ⟨known, hknown, hdim⟩ := (h.sent _ hrow).fits h.fits
  have hsame : schema = known :=
    Option.some.inj (hschema.symm.trans hknown)
  rw [← hsame, hwritten] at hdim
  obtain ⟨shards, hpull, hslot, hreg, hother⟩ :=
    NodeState.pullRecord_of_valid (h.admissible _ _ hschema)
      (hvalid _ _ _ hschema) reading hdim
  refine ⟨_, _, hpull, rfl, hvalid.update hschema hslot hother, ?_, hother⟩
  rw [hwritten]
  exact hreg

/-- One step with transfers. -/
theorem Sound.replicaStep (h : Sound metadata s) {e : ReplicaStep}
    (hstep : s.replicaStep R xxh64 e = some s') :
    Sound metadata s' ∧ ∀ node,
      NodeState.Evolves metadata (s.world node) (s'.world node) := by
  rcases e with e | ⟨source, collection, shardIdx⟩ |
    ⟨target, reading, collection, shardIdx, row⟩
  · exact ⟨h.step hstep, h.evolves_step hstep⟩
  · rcases hschema : (s.world source).metadata.collections[collection]? with
      _ | schema
    · simp [DataPlane.replicaStep, hschema] at hstep
    · have hknown := hschema
      rw [(h.replica source).metadata_eq] at hknown
      obtain ⟨state, rows, hstream, hsame, hrows⟩ :=
        Sound.streamShard (R := R) (s := s) h source hknown shardIdx
      simp only [DataPlane.replicaStep, hschema, hstream,
        Option.some.injEq] at hstep
      subst hstep
      refine ⟨?_, h.evolves_update (.inl hsame) rfl⟩
      have hupdate := h.update hsame
      refine ⟨hupdate.admissible, hupdate.replica, hupdate.fits, ?_⟩
      intro req hreq
      rcases List.mem_append.mp hreq with hreq | hreq
      · obtain ⟨row, hrow, rfl⟩ := List.mem_map.mp hreq
        obtain ⟨old, hold, hkey, hid, heq⟩ := hrows row hrow
        refine ⟨old, hold, hkey, hid, ?_⟩
        rw [row.written_request, heq, Shard.written_rowOf]
      · exact h.sent req hreq
  · by_cases hrow : row.request collection shardIdx ∈ s.sent
    · rcases hschema : (s.world target).metadata.collections[collection]? with
        _ | schema
      · simp [DataPlane.replicaStep, hrow, hschema] at hstep
      · have hknown := hschema
        rw [(h.replica target).metadata_eq] at hknown
        obtain ⟨state, out, hpull, htakes⟩ :=
          Sound.pullRecord (R := R) (s := s) h target reading hknown hrow
        simp only [DataPlane.replicaStep, if_pos hrow, hschema, hpull,
          Option.some.injEq] at hstep
        subst hstep
        exact ⟨h.taken (h.sent _ hrow) htakes,
          h.evolves_update (.inr ⟨_, htakes⟩) rfl⟩
    · simp [DataPlane.replicaStep, hrow] at hstep

theorem ReplicaRun.sound (h : ReplicaRun R xxh64 metadata s) :
    Sound metadata s := by
  induction h with
  | init hinit => exact hinit.sound
  | step e _ hstep ih => exact (ih.replicaStep hstep).1

end DataPlane

/-- Replicas hold stamped writes only, and never go back. -/
theorem replicas_faithful (R : Runtime) (xxh64 : Bytes → UInt64)
    (metadata : MetaState) : ReplicasFaithful R xxh64 metadata := by
  intro s hrun node collection shardIdx schema hschema
  have h := hrun.sound
  constructor
  · intro id
    refine ⟨_, h.readLocal node hschema shardIdx id, ?_, ?_⟩
    · intro p hp
      obtain ⟨q, hq, rfl⟩ := Option.map_eq_some_iff.mp hp
      obtain ⟨req, hreq, hkey, hid, rfl⟩ :=
        (h.replica node).held_from_issued hq
      exact ⟨req, hreq, hkey, hid, rfl⟩
    · intro e s' hstep p hp
      obtain ⟨q, hq, rfl⟩ := Option.map_eq_some_iff.mp hp
      obtain ⟨hsound, hevolves⟩ := h.replicaStep hstep
      obtain ⟨q', hq', hle⟩ := (hevolves node).eq_or_lt hq
      refine ⟨pointOf id q', ?_, hle.imp_left (congrArg (pointOf id))⟩
      rw [hsound.readLocal node hschema, hq', Option.map_some]
  · obtain ⟨state, rows, hstream, -, hrows⟩ :=
      h.streamShard node hschema shardIdx
    exact ⟨rows, by rw [hstream], hrows⟩

end Quorvec
