import Quorvec.Node.KeptSlot
import Quorvec.Node.Transfer

/-!
# Shards that hold certain writes only

A shard may be open, or may be opened again, under another dimension or metric
than the one it was created with.  Whatever it is opened with, what it shows is
in its memory, its snapshot or its log.  So if these hold certain writes only,
and only such writes are sent to the shard, then it never shows anything else.
-/

namespace Quorvec

open TotalCorrectness LastWriterWins ByteCodec

section Within

variable (R : Runtime) (W : UInt64 → Hlc × Content → Prop)

/-- All versions in memory are such writes. -/
structure Memory.Within (m : Memory) : Prop where
  valid : m.Valid m.1.dim
  held : ∀ id p, registers m id = some p → W id p

/-- All versions in the files are such writes. -/
structure ShardDir.Within (dir : ShardDir) : Prop where
  snap : ∀ image, dir.snap = some image →
    Memory.Within W (image.index, image.versions)
  log : ∀ rs goodEnd file, Wal.recover R.crc32 dir.wal =
    .ok ((rs, goodEnd), file) → ∀ r ∈ rs, W r.id (r.hlc, r.content)

/-- All versions of an open shard are such writes. -/
structure Shard.Within (s : Shard) : Prop where
  mem : Memory.Within W s.mem
  snap : ∀ image, s.snap = some image →
    Memory.Within W (image.index, image.versions)
  clean : s.wal.Clean
  log : ∃ rs, s.wal.writer.contents = Wal.logBytes R.crc32 rs ∧
    ∀ r ∈ rs, r.FitsFrame ∧ W r.id (r.hlc, r.content)

def ShardSlot.Within : ShardSlot → Prop
  | .opened s => s.Within R W
  | .closed dir => dir.Within R W

end Within

variable {R : Runtime} {W W' : UInt64 → Hlc × Content → Prop}

theorem Memory.Within.mono {m : Memory} (h : Memory.Within W m)
    (hsub : ∀ id p, W id p → W' id p) : Memory.Within W' m :=
  ⟨h.valid, fun id p hp => hsub id p (h.held id p hp)⟩

theorem ShardSlot.Within.mono {slot : ShardSlot} (h : slot.Within R W)
    (hsub : ∀ id p, W id p → W' id p) : slot.Within R W' := by
  cases slot with
  | closed dir =>
      exact ⟨fun image himage => (h.snap image himage).mono hsub,
        fun rs goodEnd file hrecover r hr =>
          hsub _ _ (h.log rs goodEnd file hrecover r hr)⟩
  | opened s =>
      obtain ⟨rs, hcontents, hrs⟩ := h.log
      exact ⟨h.mem.mono hsub, fun image himage => (h.snap image himage).mono
        hsub, h.clean, rs, hcontents, fun r hr =>
          ⟨(hrs r hr).1, hsub _ _ (hrs r hr).2⟩⟩

theorem ShardSlot.within_unused : (ShardSlot.closed .empty).Within R W := by
  refine ⟨by simp [ShardDir.empty], fun rs goodEnd file hrecover r hr => ?_⟩
  simp only [ShardDir.empty, Wal.recover, pure_eq_ok, Except.ok.injEq,
    Prod.mk.injEq] at hrecover
  rw [← hrecover.1.1] at hr
  simp at hr

/-! ## Opening -/

section Open

variable {m m' : Memory} {r : WalRecord}

theorem Memory.Within.applyOp (h : Memory.Within W m)
    (hr : W r.id (r.hlc, r.content)) (happly : applyOp R m r = .ok m') :
    Memory.Within W m' := by
  have hdim := hasDim_of_applyOp h.valid happly
  have hwritten := (applyOp_returns h.valid hdim).of_eq_ok happly
  refine ⟨hwritten.valid.dim_eq.symm ▸ hwritten.valid, fun id p hp => ?_⟩
  rw [hwritten.registers_eq] at hp
  by_cases hid : id = r.id
  · subst hid
    rw [Function.update_self, Option.some.injEq] at hp
    exact hp ▸ hr
  · rw [Function.update_of_ne hid] at hp
    exact h.held id p hp

theorem Memory.Within.applyRecord (h : Memory.Within W m)
    (hr : W r.id (r.hlc, r.content)) (happly : applyRecord R m r = .ok m') :
    Memory.Within W m' := by
  unfold Quorvec.applyRecord at happly
  split at happly
  · split_ifs at happly
    · rw [pure_eq_ok, Except.ok.injEq] at happly
      exact happly ▸ h
    · exact h.applyOp hr happly
  · exact h.applyOp hr happly

theorem Memory.Within.replay {offset pos : ℕ} {rs : List WalRecord}
    (h : Memory.Within W m) (hrs : ∀ r ∈ rs, W r.id (r.hlc, r.content))
    (hreplay : replay R offset rs pos m = .ok m') : Memory.Within W m' := by
  induction rs generalizing m pos with
  | nil =>
      rw [Quorvec.replay, pure_eq_ok, Except.ok.injEq] at hreplay
      exact hreplay ▸ h
  | cons r rs ih =>
      have htail := fun x hx => hrs x (List.mem_cons_of_mem r hx)
      rw [Quorvec.replay] at hreplay
      split_ifs at hreplay
      · cases happly : Quorvec.applyRecord R m r with
        | error e => simp [happly] at hreplay
        | ok next =>
            rw [happly, ok_bind] at hreplay
            exact ih (h.applyRecord (hrs r List.mem_cons_self) happly) htail
              hreplay
      · exact ih h htail hreplay

theorem ShardDir.Within.startImage {dir : ShardDir} (h : dir.Within R W)
    {dim offset : ℕ} {metric : Metric} {image : Memory}
    (hstart : Shard.startImage dir.snap dim metric = .ok (image, offset)) :
    Memory.Within W image := by
  rcases hsnap : dir.snap with _ | snap
  · rw [hsnap, Shard.startImage] at hstart
    cases hnew : HnswIndex.new dim metric with
    | error e => simp [hnew] at hstart
    | ok index =>
        simp only [hnew, Except.ok.injEq, Prod.mk.injEq] at hstart
        obtain ⟨rfl, -⟩ := hstart
        obtain ⟨hvalid, hnone⟩ := startMemory_valid hnew
        exact ⟨hvalid.dim_eq.symm ▸ hvalid, by simp [hnone]⟩
  · rw [hsnap, Shard.startImage, Except.ok.injEq, Prod.mk.injEq] at hstart
    obtain ⟨rfl, -⟩ := hstart
    exact h.snap snap hsnap

/-- A log that was recovered recovers to the same records. -/
theorem Wal.recover_again {crc32 : Bytes → UInt32}
    {file file' file'' : Option Bytes} {rs rs' : List WalRecord}
    {goodEnd goodEnd' : ℕ}
    (h : Wal.recover crc32 file = .ok ((rs, goodEnd), file'))
    (h' : Wal.recover crc32 file' = .ok ((rs', goodEnd'), file'')) :
    rs' = rs := by
  cases file with
  | none =>
      simp only [Wal.recover, pure_eq_ok, Except.ok.injEq, Prod.mk.injEq] at h
      obtain ⟨⟨rfl, -⟩, rfl⟩ := h
      simp only [Wal.recover, pure_eq_ok, Except.ok.injEq, Prod.mk.injEq] at h'
      exact h'.1.1.symm
  | some content =>
      obtain ⟨found, t, rfl, hfound, ht⟩ :=
        Wal.exists_logBytes_append crc32 content
      rw [Wal.recover_logBytes_append hfound ht] at h
      simp only [Except.ok.injEq, Prod.mk.injEq] at h
      obtain ⟨⟨rfl, -⟩, rfl⟩ := h
      rw [Wal.recover_logBytes hfound] at h'
      simp only [Except.ok.injEq, Prod.mk.injEq] at h'
      exact h'.1.1.symm

/-- Whatever a directory is opened as, it shows what its files hold. -/
theorem ShardDir.Within.open {dir : ShardDir} (h : dir.Within R W)
    {dim mb batchMs : ℕ} {metric : Metric} {s : Shard}
    (hopen : Shard.open R dir dim metric mb batchMs = .ok s) :
    s.Within R W := by
  obtain ⟨image, offset, rs, goodEnd, walFile, m, hstart, hrecover, hreplay,
    rfl⟩ := Shard.open_cases hopen
  obtain ⟨hfits, hfile, -⟩ := Wal.recover_cases hrecover
  have hrs := h.log rs goodEnd walFile hrecover
  refine ⟨(h.startImage hstart).replay hrs hreplay, h.snap,
    Wal.clean_open _ _, rs, ?_, fun r hr => ⟨hfits r hr, hrs r hr⟩⟩
  rw [Wal.contents_open, hfile]

/-- An opening that fails may cut the log. -/
theorem ShardDir.Within.dirAfterOpen {dir : ShardDir} (h : dir.Within R W)
    (dim : ℕ) (metric : Metric) :
    (Shard.dirAfterOpen R dir dim metric).Within R W := by
  rw [Shard.dirAfterOpen]
  split
  · next start records walFile hstart hrecover =>
    refine ⟨h.snap, fun rs goodEnd file hagain r hr => ?_⟩
    have hsame := Wal.recover_again hrecover hagain
    exact h.log _ _ _ hrecover r (hsame ▸ hr)
  · exact h

end Open

/-! ## Writing -/

section Write

variable {s : Shard}

theorem Shard.Within.snapshotNow (h : s.Within R W) :
    s.snapshotNow.Within R W := by
  obtain ⟨rs, hcontents, hrs⟩ := h.log
  refine ⟨h.mem, fun image himage => ?_,
    Wal.clean_of_synced (Wal.synced_flush h.clean), rs,
    (Wal.contents_flush s.wal).trans hcontents, hrs⟩
  rw [← Option.some.inj himage]
  exact h.mem

theorem Shard.Within.maybeSnapshot (h : s.Within R W) :
    s.maybeSnapshot.Within R W := by
  rcases Shard.maybeSnapshot_cases s with hs | hs <;> rw [hs]
  · exact h
  · exact h.snapshotNow

/-- The record of a write that the index refuses stays in the log. -/
theorem Shard.Within.logAndApply (h : s.Within R W) {r : WalRecord}
    (hfits : r.FitsFrame) (hr : W r.id (r.hlc, r.content)) :
    (s.logAndApply R r).1.Within R W := by
  obtain ⟨rs, hcontents, hrs⟩ := h.log
  have hlog : ∃ rs', (s.wal.append R.crc32 r).1.writer.contents =
      Wal.logBytes R.crc32 rs' ∧
        ∀ x ∈ rs', x.FitsFrame ∧ W x.id (x.hlc, x.content) := by
    refine ⟨rs ++ [r], Wal.contents_append_of_logBytes hcontents r, ?_⟩
    intro x hx
    rcases List.mem_append.mp hx with hx | hx
    · exact hrs x hx
    · rw [List.mem_singleton.mp hx]
      exact ⟨hfits, hr⟩
  rw [Shard.logAndApply]
  dsimp only
  split
  · exact ⟨h.mem, h.snap, Wal.clean_append _ _, hlog⟩
  · next index versions happly =>
    apply Shard.Within.maybeSnapshot
    exact ⟨h.mem.applyOp hr happly, h.snap, Wal.clean_append _ _, hlog⟩

/-- A write of one of those. -/
theorem Shard.Within.apply (h : s.Within R W) {c : ShardCall}
    (hfits : c.record.FitsFrame)
    (hc : W c.record.id (c.record.hlc, c.record.content)) :
    (c.apply R s).1.Within R W := by
  rcases Shard.apply_cases R s c with ⟨e, hrefused⟩ | hwrite
  · rw [hrefused]
    exact h
  · have hlog := h.logAndApply hfits hc
    rw [hwrite, Shard.acceptVersioned]
    split_ifs
    · exact h
    · rcases hcase : s.logAndApply R c.record with ⟨s', e | _⟩ <;>
        rw [hcase] at hlog <;> exact hlog

/-- Closing a shard. -/
theorem Shard.Within.close (h : s.Within R W) : s.close.Within R W := by
  obtain ⟨rs, hcontents, hrs⟩ := h.log
  refine ⟨h.snap, fun rs' goodEnd file hrecover r hr => ?_⟩
  have hclose : s.wal.close = Wal.logBytes R.crc32 rs :=
    (Wal.close_of_clean h.clean).trans hcontents
  rw [Shard.close, hclose, Wal.recover_logBytes fun r hr => (hrs r hr).1]
    at hrecover
  simp only [Except.ok.injEq, Prod.mk.injEq] at hrecover
  rw [← hrecover.1.1] at hr
  exact (hrs r hr).2

end Write

/-! ## Reading -/

section Read

variable {s : Shard}

/-- The shard as its index sees it. -/
def Shard.asIndexed (s : Shard) : Shard :=
  { s with dim := s.index.dim, snap := none }

theorem Shard.Within.asIndexed (h : s.Within R W) : s.asIndexed.Valid :=
  ⟨h.mem.valid, by simp [Shard.asIndexed]⟩

theorem Shard.Within.storedPoint (h : s.Within R W) {id : UInt64}
    {point : StoredPoint} (hpoint : s.storedPoint id = .ok (some point)) :
    ∃ p, W id p ∧ point = pointOf id p := by
  have heq : s.storedPoint id =
      .ok ((registers s.mem id).map (pointOf id)) :=
    Shard.storedPoint_eq h.asIndexed id
  rw [heq, Except.ok.injEq] at hpoint
  obtain ⟨p, hp, rfl⟩ := Option.map_eq_some_iff.mp hpoint
  exact ⟨p, h.mem.held id p hp, rfl⟩

theorem Shard.Within.records (h : s.Within R W)
    {rows : List Shard.ShardRecordRow} (hrows : s.records = .ok rows)
    {row : Shard.ShardRecordRow} (hrow : row ∈ rows) :
    ∃ p, W row.id p ∧ row = Shard.rowOf row.id p := by
  have hmem := (Shard.records_returns h.asIndexed).of_eq_ok hrows
  obtain ⟨p, hp, heq⟩ := (hmem row).mp hrow
  exact ⟨p, h.mem.held row.id p hp, heq⟩

theorem Shard.Within.search (h : s.Within R W) {query : List F32}
    {k efSearch : ℕ} {hits : List (UInt64 × F32)}
    (hhits : s.search R query k efSearch = .ok hits) {hit : UInt64 × F32}
    (hhit : hit ∈ hits) : ∃ p, W hit.1 p ∧ p.2.isSome := by
  have hvalid := h.mem.valid
  have hstore := store_eq hvalid hit.1
  rw [Shard.search] at hhits
  cases hsearch : s.index.search R.kernel query k efSearch with
  | error e => simp [hsearch] at hhits
  | ok found =>
      rw [hsearch, Except.ok.injEq] at hhits
      have hsome := HnswIndex.search_ensures hvalid.index query k efSearch
        found hsearch hit (hhits ▸ hhit)
      rcases hreg : registers s.mem hit.1 with _ | p
      · rw [hstore, hreg] at hsome
        simp at hsome
      · rw [hstore, hreg] at hsome
        exact ⟨p, h.mem.held hit.1 p hreg, hsome⟩

end Read

/-! ## Stores -/

namespace ShardStore

section Within

variable {st : ShardStore} {sref : ShardRef}

theorem within_dropCollection {key : ShardKey}
    (h : (st.slots key).Within R W) (collection : String) :
    ((st.dropCollection collection).slots key).Within R W := by
  simp only [dropCollection]
  split_ifs
  · rcases hcase : st.slots key with dir | s
    · rwa [hcase] at h
    · rw [hcase] at h
      exact Shard.Within.close h
  · exact h

/-- An operation fails to open the shard, or runs on one that holds such writes
only. -/
theorem access_within {α : Type} (h : (st.slots sref.key).Within R W)
    {op : Shard → Shard × Except ShardError α}
    (hop : ∀ s : Shard, s.Within R W → (op s).1.Within R W) :
    ((st.access R sref op).1.slots sref.key).Within R W ∧
      ∀ a, (st.access R sref op).2 = .ok a →
        ∃ s : Shard, s.Within R W ∧ (op s).2 = .ok a := by
  rcases hslot : st.slots sref.key with dir | s
  · rw [hslot] at h
    cases hopen : Shard.open R dir sref.dim sref.metric st.snapshotWalMb
        st.walBatchMs with
    | error e =>
        have hfails : st.getOrOpen R sref = (st.put sref.key
            (.closed (Shard.dirAfterOpen R dir sref.dim sref.metric)),
            .error (.shard e)) := by
          simp only [getOrOpen, hslot, hopen]
        rw [access, hfails]
        refine ⟨?_, by simp⟩
        rw [slots_put_self]
        exact h.dirAfterOpen _ _
    | ok s =>
        have hs : s.Within R W := h.open hopen
        rw [access_of_getOrOpen (getOrOpen_of_serves
          (.inr ⟨dir, hslot, hopen⟩)), slots_put_self]
        refine ⟨hop s hs, fun a ha => ⟨s, hs, ?_⟩⟩
        cases hout : (op s).2 <;> simp_all [Except.mapError]
  · rw [hslot] at h
    rw [access_of_getOrOpen (getOrOpen_of_serves (.inl hslot)),
      slots_put_self]
    refine ⟨hop s h, fun a ha => ⟨s, h, ?_⟩⟩
    cases hout : (op s).2 <;> simp_all [Except.mapError]

/-- A point operation that fits its frame and is one of those writes. -/
theorem write_within (h : (st.slots sref.key).Within R W) {op : UInt32}
    {hlc : Hlc} {id : UInt64} {vector : List F32} {payload : Bytes}
    (hfits : (callOf op hlc id vector payload).record.FitsFrame)
    (hw : W id (hlc, contentOf op vector)) :
    ((st.write R sref op hlc id vector payload).1.slots sref.key).Within R
      W := by
  rcases write_cases R st sref op hlc id vector payload with ⟨e, heq⟩ | heq
  · rw [heq]
    exact h
  · rw [heq]
    have hoffered := @offered_callOf op hlc id vector payload
    simp only [WalRecord.offered, Prod.mk.injEq] at hoffered
    obtain ⟨hid, hstamp, hcontent⟩ := hoffered
    refine (access_within h fun s hs => hs.apply hfits ?_).1
    rw [hid, hstamp, hcontent]
    exact hw

end Within

end ShardStore

end Quorvec
