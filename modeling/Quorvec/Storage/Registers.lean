import Quorvec.Hnsw.KeyedStore
import Quorvec.Storage.Shard
import Quorvec.Support.LastWriterWins

/-!
# The memory of a shard as last-writer-wins registers

A valid memory is a valid index together with a version map that says of every
id it knows whether the index holds a vector for it.  Such a memory is a family
of registers, one for each id, which hold the stamp of the winner and its
content: a vector, or nothing for a tombstone.

Accepted writes and replayed records act on the memory as offers to these
registers; the live path demands a strictly greater stamp, and replay is
lenient.
-/

namespace Quorvec

open TotalCorrectness LastWriterWins

/-- The content of a write: a vector, or nothing for a delete. -/
abbrev Content := Option (List F32)

/-- The registers of a memory. -/
def registers (m : Memory) (id : UInt64) : Option (Hlc × Content) :=
  m.2[id]?.map fun v => (v.hlc, m.1.store id)

/-- Index and versions tell the same story. -/
structure Memory.Valid (dim : ℕ) (m : Memory) : Prop where
  index : m.1.Valid
  fits : m.1.params.Fits
  dim_eq : m.1.dim = dim
  tombstone_eq : ∀ id v, m.2[id]? = some v →
    v.tombstone = (m.1.store id).isNone
  versioned : ∀ id, m.2[id]? = none → m.1.store id = none

namespace WalRecord

/-- What the record writes. -/
def content (r : WalRecord) : Content :=
  match r.op with
  | .upsert => some r.vector
  | .delete => none

/-- The offer that the record makes. -/
def offered (r : WalRecord) : UInt64 × Hlc × Content :=
  (r.id, r.hlc, r.content)

/-- The vector of an upsert has the shard's dimension. -/
def HasDim (dim : ℕ) (r : WalRecord) : Prop :=
  ∀ v, r.content = some v → v.length = dim

@[simp] theorem content_ofUpsert (hlc : Hlc) (id : UInt64) (v : List F32)
    (payload : ByteCodec.Bytes) :
    (ofUpsert hlc id v payload).content = some v := rfl

@[simp] theorem content_ofDelete (hlc : Hlc) (id : UInt64) :
    (ofDelete hlc id).content = none := rfl

end WalRecord

section Memory

variable {R : Runtime} {dim : ℕ} {m : Memory}

theorem versions_eq (h : m.Valid dim) (id : UInt64) :
    m.2[id]? = (registers m id).map
      fun p => { hlc := p.1, tombstone := p.2.isNone } := by
  rw [registers]
  cases hv : m.2[id]? with
  | none => rfl
  | some v => simp [← h.tombstone_eq id v hv]

theorem store_eq (h : m.Valid dim) (id : UInt64) :
    m.1.store id = (registers m id).bind Prod.snd := by
  rw [registers]
  cases hv : m.2[id]? with
  | none => exact h.versioned id hv
  | some v => rfl

theorem length_of_registers (h : m.Valid dim) {id : UInt64} {t : Hlc}
    {v : List F32} (hreg : registers m id = some (t, some v)) :
    v.length = dim := by
  have hstore : m.1.store id = some v := by
    rw [store_eq h, hreg]
    rfl
  rw [← h.dim_eq]
  exact HnswIndex.length_of_store h.index hstore

/-- The outcome of writing `c` with stamp `t` to `id`. -/
structure Written (dim : ℕ) (m : Memory) (id : UInt64) (t : Hlc) (c : Content)
    (m' : Memory) : Prop where
  valid : m'.Valid dim
  registers_eq : registers m' = Function.update (registers m) id (some (t, c))

/-- Index and versions are updated together. -/
theorem written_of_updated (h : m.Valid dim) {id : UInt64} {t : Hlc}
    {c : Content} {index : HnswIndex} (hindex : m.1.Updated id c index) :
    Written dim m id t c
      (index, m.2.insert id { hlc := t, tombstone := c.isNone }) := by
  have hget : ∀ k, (m.2.insert id
      ({ hlc := t, tombstone := c.isNone } : PointVersion))[k]? =
      if k = id then some { hlc := t, tombstone := c.isNone }
      else m.2[k]? := by
    intro k
    rw [Std.ExtTreeMap.getElem?_insert]
    by_cases hk : k = id
    · simp [hk]
    · simp [hk, Ne.symm hk]
  refine ⟨⟨hindex.valid, hindex.kind.params ▸ h.fits,
    hindex.kind.dim.trans h.dim_eq, ?_, ?_⟩, ?_⟩
  · intro k v hv
    rw [hget] at hv
    rw [hindex.store_eq]
    by_cases hk : k = id
    · subst hk
      rw [if_pos rfl, Option.some.injEq] at hv
      rw [← hv, Function.update_self]
    · rw [if_neg hk] at hv
      rw [Function.update_of_ne hk, h.tombstone_eq k v hv]
  · intro k hk
    rw [hget] at hk
    rw [hindex.store_eq]
    by_cases hkid : k = id
    · rw [if_pos hkid] at hk
      simp at hk
    · rw [if_neg hkid] at hk
      rw [Function.update_of_ne hkid, h.versioned k hk]
  · funext k
    simp only [registers, hget, hindex.store_eq]
    by_cases hk : k = id
    · subst hk
      simp
    · rw [if_neg hk, Function.update_of_ne hk, Function.update_of_ne hk,
        registers]

theorem applyOp_returns (h : m.Valid dim) {r : WalRecord}
    (hr : r.HasDim dim) :
    Returns (applyOp R m r) (Written dim m r.id r.hlc r.content) := by
  unfold applyOp
  cases hop : r.op with
  | upsert =>
      have hcontent : r.content = some r.vector := by
        rw [WalRecord.content, hop]
      have hlen : r.vector.length = m.1.dim := by
        rw [h.dim_eq, hr r.vector hcontent]
      obtain ⟨index, hinsert, hindex⟩ :=
        HnswIndex.insert_returns (K := R.kernel) h.fits h.index r.id hlen
      rw [hcontent]
      exact ⟨_, by rw [hinsert]; rfl, written_of_updated h hindex⟩
  | delete =>
      have hcontent : r.content = none := by
        rw [WalRecord.content, hop]
      obtain ⟨⟨index, removed⟩, hdelete, hindex, -⟩ :=
        HnswIndex.delete_returns h.index r.id
      rw [hcontent]
      exact ⟨_, by rw [hdelete]; rfl, written_of_updated h hindex⟩

/-- A write that succeeds has the index's dimension. -/
theorem hasDim_of_applyOp {r : WalRecord} {m' : Memory} (h : m.Valid dim)
    (happly : applyOp R m r = .ok m') : r.HasDim dim := by
  intro v hv
  unfold WalRecord.content at hv
  unfold applyOp at happly
  cases hop : r.op with
  | delete => simp [hop] at hv
  | upsert =>
      simp only [hop, Option.some.injEq] at hv
      by_contra hlen
      have hne : r.vector.length ≠ m.1.dim := by
        rwa [h.dim_eq, hv]
      simp [hop, HnswIndex.insert, hne] at happly

/-- Replaying a record is a lenient offer. -/
theorem applyRecord_returns (h : m.Valid dim) {r : WalRecord}
    (hr : r.HasDim dim) :
    Returns (applyRecord R m r) (fun m' => m'.Valid dim ∧
      registers m' = deliverWith offerLenient (registers m) r.offered) := by
  have hreg : registers m r.id =
      m.2[r.id]?.map fun v => (v.hlc, m.1.store r.id) := rfl
  have hwrite : offerLenient (registers m r.id) (r.hlc, r.content) =
      some (r.hlc, r.content) →
      Returns (applyOp R m r) (fun m' => m'.Valid dim ∧
        registers m' = deliverWith offerLenient (registers m) r.offered) := by
    intro haccept
    refine (applyOp_returns h hr).mono fun m' hm' => ⟨hm'.valid, ?_⟩
    rw [hm'.registers_eq, ← haccept]
    rfl
  unfold applyRecord
  cases hv : m.2[r.id]? with
  | none =>
      refine hwrite ?_
      rw [hreg, hv]
      rfl
  | some v =>
      rw [hv, Option.map_some] at hreg
      dsimp only
      split_ifs with hlt
      · refine Returns.pure ⟨h, ?_⟩
        have hskip : offerLenient (registers m r.id) (r.hlc, r.content) =
            registers m r.id := by
          rw [hreg]
          exact if_pos hlt
        rw [deliverWith, WalRecord.offered, hskip, Function.update_eq_self]
      · refine hwrite ?_
        rw [hreg]
        exact if_neg hlt

/-- Whatever a directory holds, replay keeps the memory valid. -/
theorem valid_of_applyRecord {r : WalRecord} {m' : Memory} (h : m.Valid dim)
    (happly : applyRecord R m r = .ok m') : m'.Valid dim := by
  have hop : applyOp R m r = .ok m' → m'.Valid dim := fun hop =>
    ((applyOp_returns h (hasDim_of_applyOp h hop)).of_eq_ok hop).valid
  unfold applyRecord at happly
  cases hv : m.2[r.id]? with
  | none =>
      rw [hv] at happly
      exact hop happly
  | some v =>
      simp only [hv] at happly
      split_ifs at happly
      · rw [ByteCodec.pure_eq_ok, Except.ok.injEq] at happly
        exact happly ▸ h
      · exact hop happly

/-- What holds of the memory and is kept by every record holds after replay. -/
theorem holds_of_replay {P : Memory → Prop} {snapOffset pos : ℕ}
    {records : List WalRecord} {m' : Memory}
    (hrecord : ∀ {m r m'}, P m → applyRecord R m r = .ok m' → P m') (h : P m)
    (hreplay : replay R snapOffset records pos m = .ok m') : P m' := by
  induction records generalizing m pos with
  | nil =>
      rw [replay, ByteCodec.pure_eq_ok, Except.ok.injEq] at hreplay
      exact hreplay ▸ h
  | cons r records ih =>
      rw [replay] at hreplay
      split_ifs at hreplay
      · cases happly : applyRecord R m r with
        | error e => simp [happly] at hreplay
        | ok m₁ =>
            rw [happly, ByteCodec.ok_bind] at hreplay
            exact ih (hrecord h happly) hreplay
      · exact ih h hreplay

theorem valid_of_replay {snapOffset pos : ℕ} {records : List WalRecord}
    {m' : Memory} (h : m.Valid dim)
    (hreplay : replay R snapOffset records pos m = .ok m') :
    m'.Valid dim :=
  holds_of_replay valid_of_applyRecord h hreplay

theorem startMemory_valid {metric : Metric} {index : HnswIndex}
    (hnew : HnswIndex.new dim metric = .ok index) :
    Memory.Valid dim (index, ∅) ∧ registers (index, ∅) = fun _ => none := by
  have hdim : 0 < dim := by
    by_contra hdim
    simp [HnswIndex.new, HnswIndex.withParams, hdim] at hnew
  obtain ⟨hvalid, hdimEq, -, hstore⟩ :=
    (HnswIndex.new_returns metric hdim).of_eq_ok hnew
  refine ⟨⟨hvalid, HnswIndex.fits_of_withParams hnew (by decide), hdimEq, ?_,
    ?_⟩, ?_⟩
  · intro id v hv
    simp at hv
  · intro id _
    rw [hstore]
  · funext id
    simp [registers]

end Memory

end Quorvec
