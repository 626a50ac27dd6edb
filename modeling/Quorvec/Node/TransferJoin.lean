import Quorvec.Node.CutOver
import Quorvec.Node.OpenedSlot

/-!
# A transfer is a join

The records of a transfer are applied one by one, and live writes to the same
shard arrive at the target in between.  What the target ends up with is, for
each id, a write of the greatest stamp among what the source had open when it
was enumerated, what the target held, in memory or on disk, and what arrived.

A source that has the shard on disk only enumerates nothing, so that the target
turns to another one.
-/

namespace Quorvec

open LastWriterWins ByteCodec

/-- A transfer in progress at its target. -/
structure Pull where
  target : NodeState
  /-- The records that are still to be applied. -/
  remaining : List Shard.ShardRecordRow
  /-- The count that `pull_shard` will return. -/
  applied : ℕ
  /-- The records that beat what the target held when they were applied. -/
  won : List Shard.ShardRecordRow
  /-- The live writes that the target has taken meanwhile. -/
  arrived : List ReplicaWriteRequest

inductive PullStep
  /-- The next record is applied. -/
  | record (reading : ℕ)
  /-- A coordinator's write arrives. -/
  | live (reading : ℕ) (req : ReplicaWriteRequest)
  /-- A write that the target coordinates itself. -/
  | liveLocal (req : ReplicaWriteRequest)

namespace Pull

section Step

variable (R : Runtime) (collection : String) (shardIdx : UInt32)
variable (schema : CollectionSchema)

/-- What the target holds of the shard. -/
def registers (s : Pull) : Registers :=
  s.target.shards.held R (shardRef collection shardIdx schema)

/-- One step; `none` if it cannot happen, or if it ends the transfer with an
error. -/
def step (s : Pull) : PullStep → Option Pull
  | .record reading =>
      match s.remaining with
      | [] => none
      | row :: remaining =>
          match s.target.pullRecord R reading collection shardIdx schema
              row with
          | (target, .ok outcome) => some { s with
              target, remaining
              applied := if outcome = .applied then s.applied + 1
                else s.applied
              won :=
                if Beats row.hlc
                  (s.registers R collection shardIdx schema row.id)
                then row :: s.won else s.won }
          | (_, .error _) => none
  | .live reading req =>
      if req.key = { collection, shardIdx } then
        match s.target.replicaWrite R reading req with
        | (target, .ok _) =>
            some { s with target, arrived := req :: s.arrived }
        | (target, .error _) => some { s with target }
      else none
  | .liveLocal req =>
      if req.key = { collection, shardIdx } then
        match s.target.shards.write R (shardRef collection shardIdx schema)
            req.op (Hlc.unpack req.hlc) req.id req.vector req.payload with
        | (shards, .ok _) => some { s with
            target := { s.target with shards }
            arrived := req :: s.arrived }
        | (shards, .error _) =>
            some { s with target := { s.target with shards } }
      else none

/-- A source and a target with shards of the dimension, open or on disk. -/
structure Starts (source target : NodeState) : Prop where
  dim_pos : 0 < schema.dim.toNat
  source_dim : (source.shards.slots { collection, shardIdx }).HasDim R
    schema.dim.toNat
  target_dim : (target.shards.slots { collection, shardIdx }).HasDim R
    schema.dim.toNat
  same_dim : ∀ known, target.metadata.collections[collection]? = some known →
    known.dim = schema.dim

/-- The transfers from a source to a target, at any point. -/
inductive Run (source target : NodeState) : Pull → Prop
  | start {source' : NodeState} {rows : List Shard.ShardRecordRow} :
      Starts R collection shardIdx schema source target →
      source.streamShard R collection shardIdx schema = (source', .ok rows) →
      Run source target
        { target, remaining := rows, applied := 0, won := [], arrived := [] }
  | step {s s' : Pull} (e : PullStep) : Run source target s →
      s.step R collection shardIdx schema e = some s' → Run source target s'

end Step

end Pull

/-- The writes to an id that meet in a transfer. -/
def joined (source target : Registers) (arrived : List ReplicaWriteRequest)
    (id : UInt64) : Set (Hlc × Content) :=
  {p | source id = some p ∨ target id = some p ∨
    ∃ req ∈ arrived, req.id = id ∧ req.written = p}

/-- At the end of a transfer each id has a write of the greatest stamp among
all that met. -/
def Pull.Joins (R : Runtime) (collection : String) (shardIdx : UInt32)
    (schema : CollectionSchema) (source : Registers) (target : NodeState)
    (s : Pull) : Prop :=
  s.remaining = [] → ∀ id, IsWinner
    (joined source
      (target.shards.held R (shardRef collection shardIdx schema)) s.arrived
      id)
    (s.registers R collection shardIdx schema id)

/-- A transfer is lossless: it does not get stuck, it counts the records that
won, it never replaces a version but by a newer one, and at its end each id has
a write of the greatest stamp among all that met: what the source had open,
what the target held, and what arrived. -/
def TransferJoins (R : Runtime) : Prop :=
  ∀ (collection : String) (shardIdx : UInt32) (schema : CollectionSchema)
    (source target : NodeState) (s : Pull),
    Pull.Run R collection shardIdx schema source target s →
      (s.remaining ≠ [] → ∀ reading, ∃ s',
        s.step R collection shardIdx schema (.record reading) = some s') ∧
      s.applied = s.won.length ∧
      (∀ e s', s.step R collection shardIdx schema e = some s' →
        ∀ id p, s.registers R collection shardIdx schema id = some p →
          s'.registers R collection shardIdx schema id = some p ∨
            ∃ q, s'.registers R collection shardIdx schema id = some q ∧
              p.1 < q.1) ∧
      s.Joins R collection shardIdx schema
        (source.shards.slots { collection, shardIdx }).registers target

/-! ## The invariant -/

namespace Pull

variable {R : Runtime} {collection : String} {shardIdx : UInt32}
variable {schema : CollectionSchema} {source target regs : Registers}
variable {s s' : Pull}

/-- What holds during a transfer; `source` and `target` are the registers at
its start, and `regs` those that the target holds now. -/
structure Sound (R : Runtime) (collection : String) (shardIdx : UInt32)
    (schema : CollectionSchema) (source target regs : Registers) (s : Pull) :
    Prop where
  dim_pos : 0 < schema.dim.toNat
  same_dim : ∀ known,
    s.target.metadata.collections[collection]? = some known →
      known.dim = schema.dim
  opens : (s.target.shards.slots { collection, shardIdx }).OpensTo R
    schema.dim.toNat regs
  rows : ∀ row ∈ s.remaining, source row.id = some row.written ∧
    ∀ v, row.written.2 = some v → v.length = schema.dim.toNat
  mem : ∀ id p, regs id = some p → p ∈ joined source target s.arrived id
  source_held : ∀ id p, source id = some p →
    Shard.rowOf id p ∈ s.remaining ∨ AtLeast (regs id) p.1
  target_held : ∀ id p, target id = some p → AtLeast (regs id) p.1
  arrived_held : ∀ req ∈ s.arrived, AtLeast (regs req.id) req.written.1
  count : s.applied = s.won.length

theorem Sound.registers_eq
    (h : Sound R collection shardIdx schema source target regs s) :
    s.registers R collection shardIdx schema = regs :=
  ShardStore.held_of_opensTo _ (shardRef collection shardIdx schema) h.opens

/-- The target takes a live write. -/
theorem Sound.takes
    (h : Sound R collection shardIdx schema source target regs s)
    {req : ReplicaWriteRequest} {state : NodeState}
    (hmeta : state.metadata = s.target.metadata)
    (hopens : (state.shards.slots { collection, shardIdx }).OpensTo R
      schema.dim.toNat (deliverWith offer regs (req.id, req.written))) :
    Sound R collection shardIdx schema source target
      (deliverWith offer regs (req.id, req.written))
      { s with target := state, arrived := req :: s.arrived } := by
  refine ⟨h.dim_pos, hmeta ▸ h.same_dim, hopens, h.rows, ?_, ?_, ?_, ?_,
    h.count⟩
  · intro id p hp
    rcases eq_or_of_deliver hp with hold | ⟨rfl, rfl⟩
    · rcases h.mem id p hold with hsource | htarget | ⟨old, hold, hwritten⟩
      · exact .inl hsource
      · exact .inr (.inl htarget)
      · exact .inr (.inr ⟨old, List.mem_cons_of_mem _ hold, hwritten⟩)
    · exact .inr (.inr ⟨req, List.mem_cons_self, rfl, rfl⟩)
  · exact fun id p hp => (h.source_held id p hp).imp_right fun hheld =>
      hheld.deliver _
  · exact fun id p hp => (h.target_held id p hp).deliver _
  · intro x hx
    rcases List.mem_cons.mp hx with rfl | hx
    · exact atLeast_deliver _ (x.id, x.written)
    · exact (h.arrived_held x hx).deliver _

/-- Nothing that reads see has changed at the target. -/
theorem Sound.same
    (h : Sound R collection shardIdx schema source target regs s)
    {state : NodeState} (hmeta : state.metadata = s.target.metadata)
    (hslot : state.shards.slots { collection, shardIdx } =
      s.target.shards.slots { collection, shardIdx }) :
    Sound R collection shardIdx schema source target regs
      { s with target := state } := by
  refine ⟨h.dim_pos, hmeta ▸ h.same_dim, ?_, h.rows, h.mem, h.source_held,
    h.target_held, h.arrived_held, h.count⟩
  show (state.shards.slots { collection, shardIdx }).OpensTo R _ _
  rw [hslot]
  exact h.opens

/-- The next record is applied. -/
theorem Sound.record
    (h : Sound R collection shardIdx schema source target regs s)
    {row : Shard.ShardRecordRow} {remaining : List Shard.ShardRecordRow}
    (hremaining : s.remaining = row :: remaining) (reading : ℕ) :
    ∃ s', s.step R collection shardIdx schema (.record reading) = some s' ∧
      s'.remaining = remaining ∧ s'.arrived = s.arrived ∧
      Sound R collection shardIdx schema source target
        (deliverWith offer regs (row.id, row.written)) s' := by
  have hrow := h.rows row (hremaining ▸ List.mem_cons_self)
  obtain ⟨shards, hpull, hopens⟩ :=
    NodeState.pullRecord_of_opensTo h.dim_pos h.opens reading hrow.2
  let next : Pull := { s with
    target := { s.target with
      shards
      clock := HlcClock.update s.target.clock reading row.hlc }
    remaining
    applied := if Beats row.hlc (regs row.id) then s.applied + 1
      else s.applied
    won := if Beats row.hlc (regs row.id) then row :: s.won else s.won }
  have hstep : s.step R collection shardIdx schema (.record reading) =
      some next := by
    simp only [step, hremaining, hpull, h.registers_eq, next]
    split_ifs <;> simp_all
  refine ⟨next, hstep, rfl, rfl, h.dim_pos, h.same_dim, hopens, ?_, ?_, ?_,
    ?_, ?_, ?_⟩
  · exact fun x hx => h.rows x (hremaining ▸ List.mem_cons_of_mem row hx)
  · intro id p hp
    rcases eq_or_of_deliver hp with hold | ⟨rfl, rfl⟩
    · exact h.mem id p hold
    · exact .inl hrow.1
  · intro id p hp
    rcases h.source_held id p hp with hin | hheld
    · rw [hremaining] at hin
      rcases List.mem_cons.mp hin with heq | hin
      · right
        rw [← heq, Shard.written_rowOf]
        exact atLeast_deliver _ (id, p)
      · exact .inl hin
    · exact .inr (hheld.deliver _)
  · exact fun id p hp => (h.target_held id p hp).deliver _
  · exact fun req hreq => (h.arrived_held req hreq).deliver _
  · show (if _ then _ else _) = List.length (if _ then _ else _)
    rw [h.count]
    split_ifs <;> rfl

/-- The target is sent a live write, through its handler or by itself. -/
theorem Sound.write
    (h : Sound R collection shardIdx schema source target regs s)
    {req : ReplicaWriteRequest} (hkey : req.key = { collection, shardIdx })
    {known : CollectionSchema} (hknown : known.dim = schema.dim)
    (state : NodeState) (hstate : state.shards = s.target.shards)
    (hmeta : state.metadata = s.target.metadata) :
    (∃ e, state.shards.write R (shardRef req.collection req.shardIdx known)
        req.op (Hlc.unpack req.hlc) req.id req.vector req.payload =
          (state.shards, .error e)) ∨
      ∃ shards out, state.shards.write R
          (shardRef req.collection req.shardIdx known) req.op
          (Hlc.unpack req.hlc) req.id req.vector req.payload =
            (shards, .ok out) ∧
        Sound R collection shardIdx schema source target
          (deliverWith offer regs (req.id, req.written))
          { s with
            target := { state with shards }, arrived := req :: s.arrived } := by
  let sref := shardRef req.collection req.shardIdx known
  have hslotKey : sref.key = { collection, shardIdx } := hkey
  have hdimEq : sref.dim = schema.dim.toNat := congrArg UInt32.toNat hknown
  have hslot : (state.shards.slots sref.key).OpensTo R sref.dim regs := by
    rw [hslotKey, hdimEq, hstate]
    exact h.opens
  rcases ShardStore.write_cases_of_opensTo (hdimEq ▸ h.dim_pos) hslot req.op
    (Hlc.unpack req.hlc) req.id req.vector req.payload with
    herror | ⟨shards, out, hwrite, hopens⟩
  · exact .inl herror
  · rw [hslotKey, hdimEq] at hopens
    exact .inr ⟨shards, out, hwrite, h.takes hmeta hopens⟩

/-- A write that another node sends during the transfer. -/
theorem Sound.live
    (h : Sound R collection shardIdx schema source target regs s)
    {reading : ℕ} {req : ReplicaWriteRequest}
    (hstep : s.step R collection shardIdx schema (.live reading req) =
      some s') :
    Sound R collection shardIdx schema source target regs s' ∨
      ∃ w, Sound R collection shardIdx schema source target
        (deliverWith offer regs w) s' := by
  by_cases hkey : req.key = { collection, shardIdx }
  · have hcollection : req.collection = collection :=
      congrArg ShardKey.collection hkey
    cases hknown : s.target.metadata.collections[req.collection]? with
    | none =>
        simp only [Pull.step, if_pos hkey, NodeState.replicaWrite, hknown,
          Option.some.injEq] at hstep
        exact .inl (hstep ▸ h.same rfl rfl)
    | some known =>
        have hdim := h.same_dim known (hcollection ▸ hknown)
        rcases h.write hkey hdim { s.target with
            clock := HlcClock.update s.target.clock reading
              (Hlc.unpack req.hlc) } rfl rfl with
          ⟨e, hwrite⟩ | ⟨shards, out, hwrite, hsound⟩
        · simp only at hwrite
          simp only [Pull.step, if_pos hkey, NodeState.replicaWrite,
            hknown, NodeState.applyReplicaWrite, hwrite,
            Option.some.injEq] at hstep
          exact .inl (hstep ▸ h.same rfl rfl)
        · simp only at hwrite
          simp only [Pull.step, if_pos hkey, NodeState.replicaWrite,
            hknown, NodeState.applyReplicaWrite, hwrite,
            Option.some.injEq] at hstep
          exact .inr ⟨_, hstep ▸ hsound⟩
  · simp [Pull.step, hkey] at hstep

/-- A write that the target makes itself during the transfer. -/
theorem Sound.liveLocal
    (h : Sound R collection shardIdx schema source target regs s)
    {req : ReplicaWriteRequest}
    (hstep : s.step R collection shardIdx schema (.liveLocal req) = some s') :
    Sound R collection shardIdx schema source target regs s' ∨
      ∃ w, Sound R collection shardIdx schema source target
        (deliverWith offer regs w) s' := by
  by_cases hkey : req.key = { collection, shardIdx }
  · have hcollection : req.collection = collection :=
      congrArg ShardKey.collection hkey
    have hshard : req.shardIdx = shardIdx :=
      congrArg ShardKey.shardIdx hkey
    rcases h.write hkey rfl s.target rfl rfl with
      ⟨e, hwrite⟩ | ⟨shards, out, hwrite, hsound⟩
    · rw [hcollection, hshard] at hwrite
      simp only [Pull.step, if_pos hkey, hwrite, Option.some.injEq]
        at hstep
      exact .inl (hstep ▸ h.same rfl rfl)
    · rw [hcollection, hshard] at hwrite
      simp only [Pull.step, if_pos hkey, hwrite, Option.some.injEq]
        at hstep
      exact .inr ⟨_, hstep ▸ hsound⟩
  · simp [Pull.step, hkey] at hstep

/-- Every step leaves the registers, or offers them a write. -/
theorem Sound.step
    (h : Sound R collection shardIdx schema source target regs s)
    {e : PullStep} (hstep : s.step R collection shardIdx schema e = some s') :
    Sound R collection shardIdx schema source target regs s' ∨
      ∃ w, Sound R collection shardIdx schema source target
        (deliverWith offer regs w) s' := by
  cases e with
  | record reading =>
      cases hremaining : s.remaining with
      | nil => simp [Pull.step, hremaining] at hstep
      | cons row remaining =>
          obtain ⟨next, hnext, -, -, hsound⟩ :=
            h.record (R := R) hremaining reading
          rw [hnext, Option.some.injEq] at hstep
          exact .inr ⟨_, hstep ▸ hsound⟩
  | live reading req => exact h.live hstep
  | liveLocal req => exact h.liveLocal hstep

/-- Every transfer between shards of the dimension. -/
theorem Run.sound {source target : NodeState}
    (hrun : Run R collection shardIdx schema source target s) :
    ∃ regs, Sound R collection shardIdx schema
      (source.shards.slots { collection, shardIdx }).registers
      (target.shards.held R (shardRef collection shardIdx schema)) regs s := by
  induction hrun with
  | start hstart hstream =>
      obtain ⟨found, hfound, hmem, hdims⟩ :=
        NodeState.streamShard_of_hasDim hstart.dim_pos hstart.source_dim
      rw [hstream, Prod.mk.injEq, Except.ok.injEq] at hfound
      obtain ⟨-, rfl⟩ := hfound
      obtain ⟨regs, hopens⟩ := hstart.target_dim.opensTo
      have hheld : target.shards.held R (shardRef collection shardIdx schema)
          = regs := ShardStore.held_of_opensTo _ _ hopens
      refine ⟨regs, hstart.dim_pos, hstart.same_dim, hopens, ?_, ?_, ?_, ?_,
        by simp, rfl⟩
      · intro row hrow
        obtain ⟨p, hp, heq⟩ := (hmem row).mp hrow
        refine ⟨?_, hdims row hrow⟩
        rw [hp, heq, Shard.written_rowOf]
      · exact fun id p hp => .inr (.inl (hheld ▸ hp))
      · exact fun id p hp => .inl ((hmem _).mpr ⟨p, hp, rfl⟩)
      · exact fun id p hp => ⟨p, hheld ▸ hp, le_rfl⟩
  | step e _ hstep ih =>
      obtain ⟨regs, h⟩ := ih
      rcases h.step hstep with hsame | ⟨w, hoffered⟩
      · exact ⟨regs, hsame⟩
      · exact ⟨_, hoffered⟩

theorem Run.finish {source target : NodeState}
    (hrun : Run R collection shardIdx schema source target s) :
    ∃ s', Run R collection shardIdx schema source target s' ∧
      s'.remaining = [] ∧ s'.arrived = s.arrived := by
  induction hrows : s.remaining generalizing s with
  | nil => exact ⟨s, hrun, hrows, rfl⟩
  | cons row remaining ih =>
      obtain ⟨regs, h⟩ := hrun.sound
      obtain ⟨next, hstep, hremaining, harrived, -⟩ := h.record hrows 0
      obtain ⟨s', hrun', hend, harrived'⟩ :=
        ih (hrun.step (.record 0) hstep) hremaining
      exact ⟨s', hrun', hend, harrived'.trans harrived⟩

/-- A write of the dimension can arrive at any time. -/
theorem Run.arrive {source target : NodeState}
    (hrun : Run R collection shardIdx schema source target s)
    (req : ReplicaWriteRequest) (hkey : req.key = { collection, shardIdx })
    (hvector : ∀ v, contentOf req.op req.vector = some v →
      v.length = schema.dim.toNat) :
    ∃ s', Run R collection shardIdx schema source target s' ∧
      s'.arrived = req :: s.arrived := by
  obtain ⟨regs, h⟩ := hrun.sound
  let sref := shardRef collection shardIdx schema
  obtain ⟨hout, -⟩ := @ShardStore.write_of_opensTo R regs s.target.shards sref
    req.op (Hlc.unpack req.hlc) req.id req.vector req.payload h.dim_pos h.opens
    hvector
  rcases hwrite : s.target.shards.write R sref req.op (Hlc.unpack req.hlc)
    req.id req.vector req.payload with ⟨shards, res⟩
  rw [hwrite] at hout
  let next : Pull := { s with
    target := { s.target with shards }, arrived := req :: s.arrived }
  have hstep : s.step R collection shardIdx schema (.liveLocal req) =
      some next := by
    simp only [Pull.step, if_pos hkey]
    rw [hwrite, show res = _ from hout]
  exact ⟨next, hrun.step _ hstep, rfl⟩

end Pull

/-- Shard transfers are lossless joins under live writes. -/
theorem transfer_joins (R : Runtime) : TransferJoins R := by
  intro collection shardIdx schema source target s hrun
  obtain ⟨regs, h⟩ := hrun.sound
  refine ⟨fun hne reading => ?_, h.count, fun e s' hstep id p hp => ?_,
    fun hend id => ?_⟩
  · obtain ⟨row, remaining, hremaining⟩ := List.exists_cons_of_ne_nil hne
    obtain ⟨s', hstep, -⟩ := h.record hremaining reading
    exact ⟨s', hstep⟩
  · rw [h.registers_eq] at hp
    rcases h.step hstep with hsame | ⟨w, hoffered⟩
    · exact .inl (by rw [hsame.registers_eq, hp])
    · rw [hoffered.registers_eq]
      exact deliver_eq_or_lt hp w
  · rw [h.registers_eq]
    refine ⟨h.mem id, ?_⟩
    rintro p (hsource | htarget | ⟨req, hreq, rfl, rfl⟩)
    · exact (h.source_held id p hsource).resolve_left (by simp [hend])
    · exact h.target_held id p htarget
    · exact h.arrived_held req hreq

/-! ## A target that has restarted -/

section Restarted

variable {R : Runtime}

theorem hasDim_onePoint_dropped : (((onePoint R).dropShard "c" 0).slots
    { collection := "c", shardIdx := 0 }).HasDim R 1 := by
  obtain ⟨s, hclosed, hkeeps⟩ := exists_onePoint_dropped R
  obtain ⟨s', hopen, -⟩ := ShardSlot.keeps_close hkeeps 0 0
  rw [hclosed]
  refine .closed (fun image himage => ?_) hopen
  rw [← hkeeps.1.dim_eq]
  exact hkeeps.1.valid.snap image himage

theorem held_onePoint_dropped : ((onePoint R).dropShard "c" 0).held R
    (shardRef "c" 0 pairSchema) = onePointRegs := by
  obtain ⟨s, hclosed, hkeeps⟩ := exists_onePoint_dropped R
  have hdisk := ShardSlot.keeps_close hkeeps
  rw [← hclosed] at hdisk
  obtain ⟨s', hs', hopen⟩ := @ShardStore.getOrOpen_of_keeps R
    ((onePoint R).dropShard "c" 0) (shardRef "c" 0 pairSchema) _ hdisk
  rw [ShardStore.held, hopen]
  exact hs'.2

/-- A node with this shard. -/
def pairNode (shards : ShardStore) : NodeState :=
  { metadata := pairMeta, shards, clock := Hlc.zero, hintLog := none }

theorem pairNode_dim (shards : ShardStore) (known : CollectionSchema)
    (h : (pairNode shards).metadata.collections["c"]? = some known) :
    known.dim = pairSchema.dim := by
  have hknown : pairMeta.collections["c"]? = some pairSchema := by
    decide +kernel
  rw [show (pairNode shards).metadata = pairMeta from rfl, hknown] at h
  exact congrArg CollectionSchema.dim (Option.some.inj h).symm

/-- A delete of the point, stamped after it. -/
def lateDelete : ReplicaWriteRequest where
  collection := "c"
  shardIdx := 0
  op := ShardStore.opDelete
  id := 7
  hlc := (Hlc.new 2 0).pack
  vector := []
  payload := []

/-- A delete of the point arrives at a target that has it on disk, while the
source has the point open: the delete wins. -/
theorem transfer_joins_onDisk :
    ∃ s, Pull.Run .constant "c" 0 pairSchema (pairNode (onePoint .constant))
        (pairNode ((onePoint .constant).dropShard "c" 0)) s ∧
      s.remaining = [] ∧
      s.registers .constant "c" 0 pairSchema 7 = some (Hlc.new 2 0, none) := by
  obtain ⟨shard, hslot, hkeeps⟩ := exists_onePoint .constant
  have hsource : ((pairNode (onePoint .constant)).shards.slots
      { collection := "c", shardIdx := 0 }).HasDim .constant
        pairSchema.dim.toNat := by
    rw [show (pairNode (onePoint .constant)).shards = onePoint .constant from
      rfl, hslot]
    exact .opened hkeeps.1.valid hkeeps.1.dim_eq
  obtain ⟨rows, hrows, -, -⟩ :=
    NodeState.streamShard_of_hasDim (by decide) hsource
  have hstart := Pull.Run.start ⟨by decide, hsource, hasDim_onePoint_dropped,
    pairNode_dim _⟩ hrows
  obtain ⟨mid, hmid, harrived⟩ := hstart.arrive lateDelete rfl (by
    intro v hv
    simp [contentOf, lateDelete] at hv)
  obtain ⟨s, hrun, hend, hsame⟩ := hmid.finish
  rw [harrived] at hsame
  refine ⟨s, hrun, hend, ?_⟩
  obtain ⟨-, -, -, hjoins⟩ := transfer_joins .constant "c" 0 pairSchema _ _ s
    hrun
  obtain ⟨hmem, hleast⟩ := hjoins hend 7
  have hwritten : lateDelete.written = (Hlc.new 2 0, none) := by
    decide
  obtain ⟨p, hp, hle⟩ := hleast (Hlc.new 2 0, none)
    (.inr (.inr ⟨lateDelete, hsame ▸ List.mem_cons_self, rfl, hwritten⟩))
  have hnotOld : onePointRegs 7 ≠ some p := by
    intro hold
    have hp' : (Hlc.new 1 0, some [0]) = p := Option.some.inj hold
    rw [← hp'] at hle
    exact absurd hle (by decide)
  rw [hp]
  rcases hmem p hp with hsource' | htarget | ⟨req, hreq, -, hreqWritten⟩
  · have hreg : ((pairNode (onePoint .constant)).shards.slots
        { collection := "c", shardIdx := 0 }).registers = onePointRegs := by
      rw [show (pairNode (onePoint .constant)).shards = onePoint .constant
        from rfl, hslot]
      exact hkeeps.2
    exact absurd (hreg ▸ hsource') hnotOld
  · exact absurd (held_onePoint_dropped (R := .constant) ▸ htarget) hnotOld
  · rw [hsame] at hreq
    obtain rfl := List.mem_singleton.mp hreq
    rw [← hreqWritten, hwritten]

/-- The source has restarted: it has its point on disk, and the target gets
none. -/
theorem not_transfer_joins : ¬ ∃ R, ∀ (collection : String)
    (shardIdx : UInt32) (schema : CollectionSchema) (source target : NodeState)
    (s : Pull), Pull.Run R collection shardIdx schema source target s →
      s.Joins R collection shardIdx schema
        (source.shards.held R (shardRef collection shardIdx schema))
        target := by
  rintro ⟨R, hall⟩
  let source := pairNode ((onePoint R).dropShard "c" 0)
  let target := pairNode (ShardStore.new 0 0)
  obtain ⟨shard, hclosed, -⟩ := exists_onePoint_dropped R
  have hstream : source.streamShard R "c" 0 pairSchema = (source, .ok []) := by
    have hnone : source.shards.hasShard "c" 0 = false := by
      rw [show source.shards = (onePoint R).dropShard "c" 0 from rfl,
        ShardStore.hasShard, hclosed]
    rw [NodeState.streamShard, if_neg (by simp [hnone])]
  obtain ⟨empty, hempty, -⟩ :=
    Shard.open_empty_returns R (by decide : 0 < 1) .l2 0 0
  have htarget : (target.shards.slots
      { collection := "c", shardIdx := 0 }).HasDim R pairSchema.dim.toNat :=
    .closed (fun image himage => by simp [ShardDir.empty] at himage) hempty
  have hrun := Pull.Run.start ⟨by decide, hasDim_onePoint_dropped, htarget,
    pairNode_dim _⟩ hstream
  obtain ⟨-, hleast⟩ := hall "c" 0 pairSchema source target _ hrun rfl 7
  obtain ⟨p, hp, -⟩ := hleast (Hlc.new 1 0, some [0]) (.inl (by
    show (((onePoint R).dropShard "c" 0).held R _) 7 = _
    rw [held_onePoint_dropped]
    rfl))
  have hnone : target.shards.held R (shardRef "c" 0 pairSchema) =
      fun _ => none :=
    ShardStore.held_of_opensTo _ _ (Shard.open_empty_returns R (by decide))
  rw [Pull.registers, hnone] at hp
  simp at hp

end Restarted

end Quorvec
