import Quorvec.Hnsw.SoundSearch
import Quorvec.Storage.LegacyWrites

/-!
# Directories that are opened again under another configuration

Dropping a collection leaves the directories of its shards in place, so a
shard may be opened on the files of earlier ones, of any dimension and metric.
A snapshot is restored as it is, and the dimension and the metric that the
shard is opened with are not compared with its index.

The shard works as it was opened exactly if there is no snapshot, or its index
has that dimension and metric.  The log needs no condition: a record that does
not fit makes the opening fail, unless it is skipped.
-/

namespace Quorvec

open TotalCorrectness LastWriterWins ByteCodec Framing

/-- What every memory is, whatever shard it belongs to. -/
structure Memory.Sound (m : Memory) : Prop where
  valid : m.Valid m.1.dim
  wellFormed : m.1.WellFormed

/-- The steps of a shard: writes through either interface, accepted or not, and
snapshots. -/
inductive Life (R : Runtime) (s : Shard) : Shard → Prop
  | start : Life R s s
  | write {s' : Shard} (w : ShardWrite) :
      Life R s s' → Life R s (w.apply R s')
  | snapshotNow {s' : Shard} : Life R s s' → Life R s s'.snapshotNow

/-- The directories that earlier shards leave behind, of any dimensions and
metrics.  A shard may be closed or crash after any step, and a crash or an
opening that fails may cut the log: its contents are arbitrary here. -/
inductive LeftBehind (R : Runtime) : ShardDir → Prop
  | empty : LeftBehind R .empty
  | left {dir : ShardDir} {dim : ℕ} {metric : Metric} {mb batchMs : ℕ}
      {s s' : Shard} (wal : Option Bytes) :
      LeftBehind R dir → Shard.open R dir dim metric mb batchMs = .ok s →
      Life R s s' → LeftBehind R { wal, snap := s'.snap }

/-- The shard works under the configuration. -/
structure Shard.ServesAs (R : Runtime) (dim : ℕ) (metric : Metric)
    (s : Shard) : Prop where
  /-- Upserts of the dimension that are not stale are applied. -/
  applies : ∀ hlc id vector payload, vector.length = dim →
    s.isStale id hlc = false →
      (s.upsertVersioned R hlc id vector payload).2 = .ok .applied
  index_dim : s.index.dim = dim
  index_metric : s.index.metric = metric
  /-- A get finds vectors of the dimension. -/
  get : ∀ id, ∃ found, s.get id = .ok found ∧
    ∀ v, found = some v → v.length = dim
  /-- A search for no more results than fit a list answers with distances under
  the metric. -/
  search : ∀ query, query.length = dim → ∀ k < 2 ^ 59, ∀ ef, ∃ hits,
    s.search R query k ef = .ok hits ∧
      ∀ hit ∈ hits, ∃ v, s.get hit.1 = .ok (some v) ∧
        hit.2 = R.kernel.distance metric v query
  /-- The directory can be opened again. -/
  reopens : ∀ mb batchMs, ∃ s',
    Shard.open R s.close dim metric mb batchMs = .ok s'

/-! ## Memories -/

section Memory

variable {R : Runtime} {m m' : Memory} {r : WalRecord}

theorem Memory.Sound.of_applyOp (h : m.Sound) (happly : applyOp R m r = .ok m') :
    m'.Sound ∧ m.1.SameKind m'.1 := by
  have hdim := hasDim_of_applyOp h.valid happly
  have hwritten := (applyOp_returns h.valid hdim).of_eq_ok happly
  have hparts : m'.1.WellFormed ∧ m.1.SameKind m'.1 := by
    unfold applyOp at happly
    cases hop : r.op with
    | upsert =>
        have hlen : r.vector.length = m.1.dim :=
          hdim r.vector (by rw [WalRecord.content, hop])
        obtain ⟨index, hinsert, hindex⟩ :=
          HnswIndex.insert_returns (K := R.kernel) h.valid.fits h.valid.index
            r.id hlen
        have hwell := HnswIndex.insert_wellFormed h.wellFormed r.id hlen index
          hinsert
        simp only [hop, hinsert, Except.ok.injEq] at happly
        exact happly ▸ ⟨hwell, hindex.kind⟩
    | delete =>
        obtain ⟨⟨index, removed⟩, hdelete, hindex, -⟩ :=
          HnswIndex.delete_returns h.valid.index r.id
        have hwell := (HnswIndex.delete_wellFormed h.wellFormed
          r.id).of_eq_ok hdelete
        simp only [hop, hdelete, Except.ok.injEq] at happly
        exact happly ▸ ⟨hwell, hindex.kind⟩
  exact ⟨⟨hparts.2.dim.symm ▸ hwritten.valid, hparts.1⟩, hparts.2⟩

theorem Memory.Sound.of_applyRecord (h : m.Sound)
    (happly : applyRecord R m r = .ok m') :
    m'.Sound ∧ m.1.SameKind m'.1 := by
  unfold applyRecord at happly
  split at happly
  · split_ifs at happly
    · rw [pure_eq_ok, Except.ok.injEq] at happly
      exact happly ▸ ⟨h, rfl, rfl, rfl⟩
    · exact h.of_applyOp happly
  · exact h.of_applyOp happly

theorem Memory.Sound.of_replay {offset pos : ℕ} {rs : List WalRecord}
    (h : m.Sound) (hreplay : replay R offset rs pos m = .ok m') :
    m'.Sound ∧ m.1.SameKind m'.1 := by
  refine holds_of_replay (P := fun m' => m'.Sound ∧ m.1.SameKind m'.1) ?_
    ⟨h, rfl, rfl, rfl⟩ hreplay
  rintro m₁ r m₂ ⟨hm₁, hkind⟩ happly
  obtain ⟨hm₂, hkind'⟩ := hm₁.of_applyRecord happly
  exact ⟨hm₂, hkind'.dim.trans hkind.dim, hkind'.metric.trans hkind.metric,
    hkind'.params.trans hkind.params⟩

theorem Memory.sound_new {dim : ℕ} {metric : Metric} {index : HnswIndex}
    (hnew : HnswIndex.new dim metric = .ok index) :
    Memory.Sound (index, ∅) ∧ index.dim = dim ∧ index.metric = metric := by
  have hdim := (HnswIndex.admissible_of_withParams hnew).1
  obtain ⟨-, hdimEq, hmetric, -⟩ :=
    (HnswIndex.new_returns metric hdim).of_eq_ok hnew
  have hvalid := (startMemory_valid hnew).1
  exact ⟨⟨hdimEq.symm ▸ hvalid, HnswIndex.withParams_wellFormed hnew⟩,
    hdimEq, hmetric⟩

end Memory

/-! ## Earlier shards -/

/-- Both images of a shard, whatever it was opened with. -/
structure Shard.Sound (s : Shard) : Prop where
  mem : s.mem.Sound
  snap : ∀ image, s.snap = some image →
    Memory.Sound (image.index, image.versions)

section Earlier

variable {R : Runtime} {s s' : Shard}

theorem Shard.Sound.snapshotNow (h : s.Sound) : s.snapshotNow.Sound where
  mem := h.mem
  snap image himage := by
    rw [← Option.some.inj himage]
    exact h.mem

theorem Shard.Sound.logAndApply (h : s.Sound) (r : WalRecord) :
    (s.logAndApply R r).1.Sound := by
  rw [Shard.logAndApply]
  dsimp only
  split
  · exact ⟨h.mem, h.snap⟩
  · rename_i index versions happly
    have hmem := (h.mem.of_applyOp happly).1
    have hnext : ({ s with
        wal := (s.wal.append R.crc32 r).1, index, versions } : Shard).Sound :=
      ⟨hmem, h.snap⟩
    rcases Shard.maybeSnapshot_cases { s with
        wal := (s.wal.append R.crc32 r).1, index, versions } with hs | hs <;>
      rw [hs]
    · exact hnext
    · exact hnext.snapshotNow

theorem Shard.Sound.acceptVersioned (h : s.Sound) (r : WalRecord) :
    (s.acceptVersioned R r).1.Sound := by
  have hlog := h.logAndApply (R := R) r
  rw [Shard.acceptVersioned]
  split_ifs
  · exact h
  · rcases hcase : s.logAndApply R r with ⟨s', e | _⟩ <;>
      rw [hcase] at hlog <;> exact hlog

theorem Shard.Sound.write (h : s.Sound) (w : ShardWrite) :
    (w.apply R s).Sound := by
  rcases w with (⟨hlc, id, vector, payload⟩ | ⟨hlc, id⟩) |
    (⟨hlc, id, vector, payload⟩ | ⟨hlc, id⟩)
  · show (s.upsertVersioned R hlc id vector payload).1.Sound
    rw [Shard.upsertVersioned]
    split_ifs
    · exact h
    · exact h.acceptVersioned _
  · exact h.acceptVersioned _
  · show (s.upsert R hlc id vector payload).1.Sound
    rw [Shard.upsert]
    split_ifs
    · exact h
    · exact h.logAndApply _
  · have hlog := h.logAndApply (R := R) (.ofDelete hlc id)
    show (s.delete R hlc id).1.Sound
    rw [Shard.delete]
    rcases hcase : s.logAndApply R (.ofDelete hlc id) with ⟨s', e | _⟩ <;>
      rw [hcase] at hlog
    · exact hlog
    · cases s.index.delete id <;> exact hlog

theorem Life.sound (h : Life R s s') (hs : s.Sound) : s'.Sound := by
  induction h with
  | start => exact hs
  | write w _ ih => exact ih.write w
  | snapshotNow _ ih => exact ih.snapshotNow

/-- A shard opens to what its snapshot or a new index says. -/
theorem Shard.sound_of_open {dir : ShardDir} {dim mb batchMs : ℕ}
    {metric : Metric}
    (hdir : ∀ image, dir.snap = some image →
      Memory.Sound (image.index, image.versions))
    (hopen : Shard.open R dir dim metric mb batchMs = .ok s) :
    s.Sound ∧
      (∀ image, dir.snap = some image → image.index.SameKind s.index) ∧
      (dir.snap = none → s.index.dim = dim ∧ s.index.metric = metric) := by
  obtain ⟨image, offset, rs, goodEnd, walFile, m, hstart, -, hreplay, rfl⟩ :=
    Shard.open_cases hopen
  cases hsnap : dir.snap with
  | none =>
      rw [hsnap, Shard.startImage] at hstart
      cases hnew : HnswIndex.new dim metric with
      | error e => simp [hnew] at hstart
      | ok index =>
          simp only [hnew, Except.ok.injEq, Prod.mk.injEq] at hstart
          obtain ⟨rfl, rfl⟩ := hstart
          obtain ⟨hsound, hdim, hmetric⟩ := Memory.sound_new hnew
          obtain ⟨hm, hkind⟩ := hsound.of_replay hreplay
          refine ⟨⟨hm, by simp⟩, by simp, fun _ => ⟨?_, ?_⟩⟩
          · exact hkind.dim.trans hdim
          · exact hkind.metric.trans hmetric
  | some start =>
      rw [hsnap, Shard.startImage, Except.ok.injEq, Prod.mk.injEq] at hstart
      obtain ⟨rfl, rfl⟩ := hstart
      obtain ⟨hm, hkind⟩ := (hdir start hsnap).of_replay hreplay
      refine ⟨⟨hm, fun image himage => ?_⟩, fun image himage => ?_, by simp⟩
      · exact hdir image (hsnap.trans himage)
      · rw [← Option.some.inj himage]
        exact hkind

theorem LeftBehind.sound {dir : ShardDir} (h : LeftBehind R dir) :
    ∀ image, dir.snap = some image →
      Memory.Sound (image.index, image.versions) := by
  induction h with
  | empty => simp [ShardDir.empty]
  | left wal _ hopen hlife ih =>
      exact (hlife.sound (Shard.sound_of_open ih hopen).1).snap

end Earlier

theorem Shard.beats_of_fresh {s : Shard} {id : UInt64} {hlc : Hlc}
    (h : s.isStale id hlc = false) : Beats hlc (registers s.mem id) := by
  by_contra hnot
  have hstale : s.isStale id hlc = true := isStale_iff.mpr hnot
  simp [hstale] at h

/-! ## A shard that fits its index -/

/-- The index and the files fit the configuration. -/
structure Shard.Fits (R : Runtime) (dim : ℕ) (metric : Metric) (s : Shard) :
    Prop where
  valid : s.Valid
  dim_eq : s.dim = dim
  sound : s.mem.Sound
  metric_eq : s.index.metric = metric
  onDisk : ∃ rs offset m, OnDisk R dim metric s rs offset m ∧ m.Valid dim

section Fits

variable {R : Runtime} {dim : ℕ} {metric : Metric} {s : Shard}

theorem Shard.Fits.index_dim (h : s.Fits R dim metric) : s.index.dim = dim :=
  h.valid.mem.dim_eq.trans h.dim_eq

theorem Shard.Fits.snapshotNow (h : s.Fits R dim metric) :
    s.snapshotNow.Fits R dim metric := by
  obtain ⟨rs, offset, m, hdisk, -⟩ := h.onDisk
  exact ⟨valid_snapshotNow h.valid, h.dim_eq, h.sound, h.metric_eq, rs, _, _,
    hdisk.snapshotNow, h.dim_eq ▸ h.valid.mem⟩

/-- One write.  The record may lie below the offset of the snapshot, where it
will be skipped, or not. -/
theorem Shard.Fits.apply (h : s.Fits R dim metric) {c : ShardCall}
    (hdim : c.record.HasDim dim) (hfits : c.record.FitsFrame) :
    (c.apply R s).1.Fits R dim metric := by
  have hdim' : c.record.HasDim s.dim := h.dim_eq ▸ hdim
  by_cases hbeats : Beats c.record.hlc (registers s.mem c.record.id)
  swap
  · rwa [(apply_stepped (R := R) h.valid hdim').stale hbeats]
  obtain ⟨rs, offset, m, hdisk, hm⟩ := h.onDisk
  obtain ⟨live, happly, hlive⟩ := applyOp_returns (R := R) h.valid.mem hdim'
  obtain ⟨hsound, hkind⟩ := h.sound.of_applyOp happly
  obtain ⟨m', hreplay, hm'⟩ : Returns (replay R offset [c.record]
      (Wal.logBytes R.crc32 rs).length m) (Memory.Valid dim) := by
    rw [replay]
    split_ifs
    · refine (applyRecord_returns hm hdim).bind fun m' hm' => ?_
      exact Returns.pure hm'.1
    · exact Returns.pure hm
  have hnext : ({ s with
      wal := (s.wal.append R.crc32 c.record).1
      index := live.1
      versions := live.2 } : Shard).Fits R dim metric :=
    ⟨⟨hlive.valid, h.valid.snap⟩, h.dim_eq, hsound,
      hkind.metric.trans h.metric_eq, _, _, _,
      hdisk.append hfits hreplay live.1 live.2, hm'⟩
  rw [apply_of_accepted hdim' hbeats happly]
  rcases maybeSnapshot_cases { s with
      wal := (s.wal.append R.crc32 c.record).1
      index := live.1
      versions := live.2 } with hs | hs <;> rw [hs]
  · exact hnext
  · exact hnext.snapshotNow

theorem Shard.Fits.runCalls (h : s.Fits R dim metric)
    {calls : List ShardCall}
    (hcalls : ∀ c ∈ calls, c.record.HasDim dim ∧ c.record.FitsFrame) :
    (Shard.runCalls R s calls).Fits R dim metric := by
  induction calls generalizing s with
  | nil => exact h
  | cons c calls ih =>
      obtain ⟨hdim, hfits⟩ := hcalls c List.mem_cons_self
      exact ih (h.apply hdim hfits) fun c' hc' =>
        hcalls c' (List.mem_cons_of_mem c hc')

theorem Shard.Fits.servesAs (h : s.Fits R dim metric) :
    s.ServesAs R dim metric where
  applies hlc id vector payload hlen hfresh := by
    have hdim : (ShardCall.upsert hlc id vector payload).record.HasDim
        s.dim := by
      intro v hv
      have hv' : vector = v := Option.some.inj hv
      rw [← hv', hlen, h.dim_eq]
    exact (apply_stepped (R := R) h.valid hdim).applied
      (beats_of_fresh hfresh)
  index_dim := h.index_dim
  index_metric := h.metric_eq
  get id := by
    refine ⟨_, get_eq h.valid id, fun v hv => ?_⟩
    rw [← store_eq h.valid.mem id] at hv
    rw [← h.index_dim]
    exact HnswIndex.length_of_store h.valid.mem.index hv
  search query hlen k hk ef := by
    obtain ⟨hits, hsearch, hhits⟩ := h.sound.wellFormed.search_distances
      (K := R.kernel) (hlen.trans h.index_dim.symm) hk ef
    refine ⟨hits, ?_, fun hit hhit => ?_⟩
    · have hsearch' : s.index.search R.kernel query k ef = .ok hits :=
        hsearch
      rw [Shard.search, hsearch']
    · obtain ⟨v, hv, hdist⟩ := hhits hit hhit
      have hv' : s.index.getVector hit.1 = .ok (some v) := hv
      refine ⟨v, ?_, h.metric_eq ▸ hdist⟩
      rw [Shard.get, hv']
  reopens mb batchMs := by
    obtain ⟨rs, offset, m, hdisk, -⟩ := h.onDisk
    obtain ⟨s', hopen, -⟩ := hdisk.open_close mb batchMs
    exact ⟨s', hopen⟩

/-- A shard whose snapshot has the dimension and the metric. -/
theorem Shard.fits_of_open {dir : ShardDir} {mb batchMs : ℕ}
    (hdir : LeftBehind R dir)
    (hopen : Shard.open R dir dim metric mb batchMs = .ok s)
    (hmatch : ∀ image, dir.snap = some image →
      image.index.dim = dim ∧ image.index.metric = metric) :
    s.Fits R dim metric := by
  obtain ⟨hsound, hkind, hnew⟩ := Shard.sound_of_open hdir.sound hopen
  have hsnap : dir.Valid dim := fun image himage =>
    (hmatch image himage).1 ▸ (hdir.sound image himage).valid
  obtain ⟨hvalid, hdim⟩ := valid_of_open hsnap hopen
  obtain ⟨rs, offset, hdisk, -⟩ := onDisk_open hopen
  refine ⟨hvalid, hdim, hsound.mem, ?_, rs, offset, s.mem, hdisk,
    hdim ▸ hvalid.mem⟩
  cases hcase : dir.snap with
  | none => exact (hnew hcase).2
  | some image =>
      exact (hkind image hcase).metric.trans (hmatch image hcase).2

/-- Whatever earlier shards left behind: a shard that opens goes on to work
under its dimension and metric exactly if its snapshot was taken under them,
or there is none. -/
theorem LeftBehind.servesAs_iff {dir : ShardDir} {mb batchMs : ℕ}
    (hdir : LeftBehind R dir)
    (hopen : Shard.open R dir dim metric mb batchMs = .ok s) :
    (∀ calls : List ShardCall,
      (∀ c ∈ calls, c.record.HasDim dim ∧ c.record.FitsFrame) →
        (Shard.runCalls R s calls).ServesAs R dim metric) ↔
      ∀ image, dir.snap = some image →
        image.index.dim = dim ∧ image.index.metric = metric := by
  constructor
  · intro hall image himage
    have hserves := hall [] (by simp)
    obtain ⟨-, hkind, -⟩ := Shard.sound_of_open hdir.sound hopen
    exact ⟨(hkind image himage).dim.symm.trans hserves.index_dim,
      (hkind image himage).metric.symm.trans hserves.index_metric⟩
  · intro hmatch calls hcalls
    exact ((Shard.fits_of_open hdir hopen hmatch).runCalls hcalls).servesAs

/-- An upsert that the index refuses has been logged. -/
theorem Shard.upsertVersioned_of_error {hlc : Hlc} {id : UInt64}
    {vector : List F32} {payload : Bytes} {e : ShardError}
    (hlen : vector.length = s.dim) (hfresh : s.isStale id hlc = false)
    (happly : applyOp R s.mem (.ofUpsert hlc id vector payload) = .error e) :
    s.upsertVersioned R hlc id vector payload =
      ({ s with wal := (s.wal.append R.crc32
          (.ofUpsert hlc id vector payload)).1 }, .error e) := by
  let s' : Shard := { s with
    wal := (s.wal.append R.crc32 (.ofUpsert hlc id vector payload)).1 }
  have hmem : applyOp R s'.mem (.ofUpsert hlc id vector payload) =
      .error e := happly
  have hlog : s.logAndApply R (.ofUpsert hlc id vector payload) =
      (s', .error e) := by
    simp only [Shard.logAndApply, s', hmem]
  have haccept : s.acceptVersioned R (.ofUpsert hlc id vector payload) =
      (s', .error e) := by
    rw [Shard.acceptVersioned, hlog]
    exact if_neg (hfresh.symm ▸ Bool.false_ne_true)
  rw [Shard.upsertVersioned, if_neg (not_not_intro hlen), haccept]

/-- A record that fails on replay makes every opening fail. -/
theorem OnDisk.open_fails {rs : List WalRecord} {offset : ℕ} {m : Memory}
    (h : OnDisk R dim metric s rs offset m) {r : WalRecord}
    (hr : r.FitsFrame) {e : ShardError}
    (hreplay : replay R offset [r] (Wal.logBytes R.crc32 rs).length m =
      .error e) (mb batchMs : ℕ) :
    Shard.open R
        ({ s with wal := (s.wal.append R.crc32 r).1 } : Shard).close
        dim metric mb batchMs = .error e := by
  obtain ⟨image, hstart, hold⟩ := h.replays
  have hclose : (s.wal.append R.crc32 r).1.close =
      Wal.logBytes R.crc32 (rs ++ [r]) :=
    (Wal.close_of_clean (Wal.clean_append _ _)).trans
      (Wal.contents_append_of_logBytes h.contents r)
  have hfits : ∀ x ∈ rs ++ [r], x.FitsFrame := by
    intro x hx
    rcases List.mem_append.mp hx with hx | hx
    · exact h.fits x hx
    · rwa [List.mem_singleton.mp hx]
  -- the records before replay as they did
  have hall : replay R offset (rs ++ [r]) 0 image = .error e := by
    rw [replay_append, hold, ok_bind, Nat.zero_add, hreplay]
  simp only [Shard.open, Shard.close, hclose, hstart,
    Wal.recover_logBytes hfits, hall, ok_bind]
  rfl

/-- Under another dimension, an upsert that is neither stale nor skipped on
replay fails after it was logged, and the directory cannot be opened any
more. -/
theorem LeftBehind.upsert_poisons {dir : ShardDir} {mb batchMs : ℕ}
    (hdir : LeftBehind R dir)
    (hopen : Shard.open R dir dim metric mb batchMs = .ok s)
    {image : Snapshot} (himage : dir.snap = some image)
    (hne : image.index.dim ≠ dim) {hlc : Hlc} {id : UInt64}
    {vector : List F32} {payload : Bytes} (hlen : vector.length = dim)
    (hfresh : s.isStale id hlc = false)
    (hfits : (WalRecord.ofUpsert hlc id vector payload).FitsFrame)
    (hreach : image.walOffset < Wal.intactEnd R.crc32 dir.wal +
      framedLen (.ofUpsert hlc id vector payload)) :
    ∃ e, (s.upsertVersioned R hlc id vector payload).2 = .error e ∧
      ∀ mb batchMs,
        Shard.open R (s.upsertVersioned R hlc id vector payload).1.close
          dim metric mb batchMs = .error e := by
  obtain ⟨hsound, hkind, -⟩ := Shard.sound_of_open hdir.sound hopen
  obtain ⟨rs, offset, hdisk, hend, hsnap, hdim, -⟩ := onDisk_open hopen
  obtain ⟨rfl, -⟩ := hdisk.eq_of_covered (hsnap.trans himage)
  have hindex : s.index.dim = image.index.dim := (hkind image himage).dim
  let r : WalRecord := .ofUpsert hlc id vector payload
  obtain ⟨e, happly⟩ : ∃ e, applyOp R s.mem r = .error e := by
    cases hcase : applyOp R s.mem r with
    | error e => exact ⟨e, rfl⟩
    | ok m' =>
        have hrdim := hasDim_of_applyOp hsound.mem.valid hcase vector rfl
        exact absurd (hindex.symm.trans (hrdim.symm.trans hlen)) hne
  have hbeats : Beats r.hlc (registers s.mem r.id) :=
    Shard.beats_of_fresh hfresh
  have hreplay : replay R image.walOffset [r]
      (Wal.logBytes R.crc32 rs).length s.mem = .error e := by
    rw [replay, if_pos (hend ▸ hreach), applyRecord_of_beats hbeats, happly]
    rfl
  have hupsert := Shard.upsertVersioned_of_error (R := R)
    (hlen.trans hdim.symm) hfresh happly
  refine ⟨e, by rw [hupsert], fun mb batchMs => ?_⟩
  rw [hupsert]
  exact hdisk.open_fails hfits hreplay mb batchMs

end Fits

/-- A shard of dimension 1 that took a snapshot is opened again. -/
theorem LeftBehind.servesAs_iff_again : ∃ dir s,
    LeftBehind .constant dir ∧ dir.snap.isSome ∧
      Shard.open .constant dir 1 .l2 0 0 = .ok s ∧
      (Shard.runCalls .constant s
        [.upsert (Hlc.new 1 0) 7 [0] []]).ServesAs .constant 1 .l2 := by
  obtain ⟨index, hnew, -⟩ := HnswIndex.new_returns .l2 one_pos
  obtain ⟨s₀, hopen₀⟩ :
      ∃ s, Shard.open .constant .empty 1 .l2 0 0 = .ok s :=
    ⟨_, Shard.open_empty_eq .constant hnew 0 0⟩
  obtain ⟨index', hnew', hmem⟩ := Shard.open_empty hopen₀
  obtain ⟨-, hdim, hmetric⟩ := Memory.sound_new hnew'
  have hindex : s₀.index = index' := congrArg Prod.fst hmem
  let dir : ShardDir := { wal := none, snap := s₀.snapshotNow.snap }
  have hdir : LeftBehind .constant dir :=
    .left none .empty hopen₀ (.snapshotNow .start)
  obtain ⟨s, hopen⟩ : ∃ s, Shard.open .constant dir 1 .l2 0 0 = .ok s := by
    simp [Shard.open, dir, Shard.startImage, Shard.snapshotNow, Wal.recover,
      replay]
  refine ⟨dir, s, hdir, rfl, hopen, (hdir.servesAs_iff hopen).mpr ?_ _ ?_⟩
  · intro image himage
    rw [← Option.some.inj himage]
    exact ⟨hindex ▸ hdim, hindex ▸ hmetric⟩
  · intro c hc
    rw [List.mem_singleton] at hc
    rw [hc]
    decide

/-- A shard of dimension 1 takes a snapshot, and its directory is opened with
dimension 2: an upsert of that dimension fails, and so does every later
opening. -/
theorem LeftBehind.not_servesAs : ∃ dir s,
    LeftBehind .constant dir ∧
      Shard.open .constant dir 2 .l2 0 0 = .ok s ∧
      s.isStale 7 (Hlc.new 1 0) = false ∧
      let written := s.upsertVersioned .constant (Hlc.new 1 0) 7 [0, 0] []
      written.2 = .error (.ofIndex (.dimMismatch 1 2)) ∧
        ∃ e, Shard.open .constant written.1.close 2 .l2 0 0 = .error e := by
  have hrun : (match Shard.open .constant .empty 1 .l2 0 0 with
      | .error _ => false
      | .ok s₀ =>
          match Shard.open .constant s₀.snapshotNow.close 2 .l2 0 0 with
          | .error _ => false
          | .ok s =>
              let written :=
                s.upsertVersioned .constant (Hlc.new 1 0) 7 [0, 0] []
              decide (s.isStale 7 (Hlc.new 1 0) = false ∧
                written.2 = .error (.ofIndex (.dimMismatch 1 2))) &&
                match Shard.open .constant written.1.close 2 .l2 0 0 with
                | .error _ => true
                | .ok _ => false) = true := by
    decide +kernel
  cases hopen₀ : Shard.open .constant .empty 1 .l2 0 0 with
  | error e => simp [hopen₀] at hrun
  | ok s₀ =>
      simp only [hopen₀] at hrun
      cases hopen : Shard.open .constant s₀.snapshotNow.close 2 .l2 0 0 with
      | error e => simp [hopen] at hrun
      | ok s =>
          simp only [hopen, Bool.and_eq_true, decide_eq_true_eq] at hrun
          obtain ⟨⟨hfresh, hfails⟩, hreopen⟩ := hrun
          have hdir : LeftBehind .constant s₀.snapshotNow.close :=
            .left _ .empty hopen₀ (.snapshotNow .start)
          refine ⟨_, s, hdir, hopen, hfresh, hfails, ?_⟩
          split at hreopen
          · rename_i e herror
            exact ⟨e, herror⟩
          · simp at hreopen

end Quorvec
