import Quorvec.Cluster.LogStore
import Quorvec.Support.SavedCells

/-!
# The metadata of a node after a power failure

A node keeps the log and the state machine in two files of one directory, and
replaces one of them in every call that changes something, before the call
returns.  That a file is replaced is certain to be on the disk only when the
directory has been synced, and the result of that sync is not looked at.
-/

namespace Quorvec

open ByteCodec StableStorage

/-- The files of the metadata. -/
inductive RaftCell
  /-- `raft-log.json` -/
  | log
  /-- `raft-sm.json` -/
  | sm
deriving DecidableEq

section Types

variable (Membership : Type)

/-- The serialization of the image of the state machine. -/
structure SmJson where
  toVec : SmDisk Membership → Bytes
  fromSlice : Bytes → Option (SmDisk Membership)

structure RaftJson where
  log : LogJson Membership
  sm : SmJson Membership
  state : Json

/-- The two stores of a node. -/
structure RaftStores where
  log : LogStore Membership
  sm : StateMachineStore Membership

/-- What the two files are to hold. -/
structure RaftImage where
  log : LogDisk Membership
  sm : SmDisk Membership

/-- A call of the storage interfaces. -/
inductive RaftCall
  | log (c : LogCall Membership)
  | apply (entries : List (Entry Membership))
  | installSnapshot (snapshot : StoredSnapshot Membership)
  | buildSnapshot

end Types

section Model

variable {Membership : Type} [Inhabited Membership]

/-- `read_json`: nothing if the file does not exist; fails if it cannot be
read. -/
def readJson {α : Type} (fromSlice : Bytes → Option α) :
    Option Bytes → Option (Option α)
  | none => some none
  | some bytes => (fromSlice bytes).map some

namespace RaftStores

variable (json : RaftJson Membership)

def image (st : RaftStores Membership) : RaftImage Membership :=
  { log := st.log.inner, sm := st.sm.inner }

/-- Open both stores. -/
def «open» (files : Files (CellFile RaftCell)) :
    Option (RaftStores Membership) := do
  let log ← LogStore.open json.log
    { file := files (.file .log), tmp := files (.tmp .log) }
  let file ← readJson json.sm.fromSlice (files (.file .sm))
  return { log, sm := .open json.state file }

/-- What a call does, and the file that it writes; `none` if the call fails
before it has changed anything. -/
def call (st : RaftStores Membership) : RaftCall Membership →
    Option (RaftStores Membership × Option (RaftCell × Bytes))
  | .log c =>
      let log := st.log.call json.log c
      some ({ st with log }, some (.log, json.log.toVec log.inner))
  | .apply entries =>
      let sm := (st.sm.apply entries).1
      some ({ st with sm }, some (.sm, json.sm.toVec sm.inner))
  | .installSnapshot snapshot =>
      (st.sm.installSnapshot json.state snapshot).map fun sm =>
        ({ st with sm }, some (.sm, json.sm.toVec sm.inner))
  | .buildSnapshot =>
      some ({ st with sm := (st.sm.buildSnapshot json.state).1 }, none)

end RaftStores

/-- The writes of a call. -/
def callOps (save : Option (RaftCell × Bytes)) (dirSynced : Bool) :
    List (DirOp (CellFile RaftCell)) :=
  match save with
  | none => []
  | some (cell, bytes) => saveOps cell bytes dirSynced

/-- The serialization reads back an image. -/
structure RaftJson.ReadsBack (json : RaftJson Membership)
    (image : RaftImage Membership) : Prop where
  log : json.log.fromSlice (json.log.toVec image.log) = some image.log
  sm : json.sm.fromSlice (json.sm.toVec image.sm) = some image.sm

/-- The images that files may hold after a call: those since the last sync of
the directory. -/
def imagesAfter (save : Option (RaftCell × Bytes)) (dirSynced : Bool)
    (image : RaftImage Membership) (since : List (RaftImage Membership)) :
    List (RaftImage Membership) :=
  if save.isSome && dirSynced then [image] else image :: since

/-- Where the process of a node is. -/
inductive RaftPhase (Membership : Type)
  | stopped
  | running (st : RaftStores Membership)

/-- The life of a node's metadata: calls, stops at any point of a write, and
new starts.  The list has the images since the directory was last synced. -/
inductive RaftLife (json : RaftJson Membership) :
    RaftPhase Membership → List (RaftImage Membership) →
    Dir (CellFile RaftCell) → Prop
  | first : RaftLife json .stopped [{ log := default, sm := default }]
      (.found fun _ => none)
  | opened {st : RaftStores Membership} {since : List (RaftImage Membership)}
      {d : Dir (CellFile RaftCell)} : RaftLife json .stopped since d →
      RaftStores.open json d.files = some st →
      RaftLife json (.running st) (st.image :: since) d
  | call {st st' : RaftStores Membership}
      {since : List (RaftImage Membership)} {d : Dir (CellFile RaftCell)}
      {c : RaftCall Membership} {save : Option (RaftCell × Bytes)}
      (dirSynced : Bool) : RaftLife json (.running st) since d →
      st.call json c = some (st', save) → json.ReadsBack st'.image →
      RaftLife json (.running st') (imagesAfter save dirSynced st'.image since)
        (d.run (callOps save dirSynced))
  /-- The process ends between two calls. -/
  | ended {st : RaftStores Membership} {since : List (RaftImage Membership)}
      {d : Dir (CellFile RaftCell)} : RaftLife json (.running st) since d →
      RaftLife json .stopped since d
  /-- The process ends in the course of a call. -/
  | killed {st st' : RaftStores Membership}
      {since : List (RaftImage Membership)} {d : Dir (CellFile RaftCell)}
      {c : RaftCall Membership} {save : Option (RaftCell × Bytes)}
      {dirSynced : Bool} {done : List (DirOp (CellFile RaftCell))} :
      RaftLife json (.running st) since d →
      st.call json c = some (st', save) → json.ReadsBack st'.image →
      Begun (callOps save dirSynced) done →
      RaftLife json .stopped (st'.image :: since) (d.run done)
  | powerFailed {st : RaftStores Membership}
      {since : List (RaftImage Membership)} {d : Dir (CellFile RaftCell)}
      {files : Files (CellFile RaftCell)} : RaftLife json .stopped since d →
      d.Leaves files → RaftStores.open json files = some st →
      RaftLife json .stopped [st.image] (.found files)

/-- The files are read as images of the list. -/
def ReopensTo (json : RaftJson Membership) (files : Files (CellFile RaftCell))
    (images : List (RaftImage Membership)) : Prop :=
  ∃ st, RaftStores.open json files = some st ∧
    (∃ i ∈ images, st.image.log = i.log) ∧ ∃ i ∈ images, st.image.sm = i.sm

/-- What a power failure, or only the end of the process, leaves of the
metadata. -/
structure RaftSurvives (json : RaftJson Membership) : Prop where
  /-- Each file holds an image since the directory was last synced. -/
  stopped : ∀ {since d}, RaftLife json .stopped since d →
    ∀ files, d.Leaves files → ReopensTo json files since
  /-- In the course of a call on synced files nothing but that call is in
  doubt. -/
  during : ∀ {st since d}, RaftLife json (.running st) since d →
    (∀ i ∈ since, i = st.image) →
    ∀ {c st' save dirSynced}, st.call json c = some (st', save) →
    json.ReadsBack st'.image →
    ∀ done, Begun (callOps save dirSynced) done →
    ∀ files, (d.run done).Leaves files →
      ∃ re, RaftStores.open json files = some re ∧
        (re.image = st.image ∨ re.image = st'.image)
  /-- A call that has synced the directory is not lost. -/
  after : ∀ {st since d}, RaftLife json (.running st) since d →
    ∀ {c st' save}, st.call json c = some (st', some save) →
    json.ReadsBack st'.image →
    ∀ files, (d.run (callOps (some save) true)).Leaves files →
      ∃ re, RaftStores.open json files = some re ∧ re.image = st'.image

end Model

/-! ## What the files are read as -/

section Reads

variable {Membership : Type} [Inhabited Membership]
variable {json : RaftJson Membership}

/-- The bytes of a file, or its absence, stand for an image. -/
def Reads {α : Type} [Inhabited α] (fromSlice : Bytes → Option α)
    (bytes : Option Bytes) (disk : α) : Prop :=
  (readJson fromSlice bytes).map (·.getD default) = some disk

theorem reads_none {α : Type} [Inhabited α] (fromSlice : Bytes → Option α) :
    Reads fromSlice none default := rfl

theorem reads_some {α : Type} [Inhabited α] {fromSlice : Bytes → Option α}
    {bytes : Bytes} {disk : α} (h : fromSlice bytes = some disk) :
    Reads fromSlice (some bytes) disk := by
  simp [Reads, readJson, h]

theorem Reads.unique {α : Type} [Inhabited α] {fromSlice : Bytes → Option α}
    {bytes : Option Bytes} {disk disk' : α} (h : Reads fromSlice bytes disk)
    (h' : Reads fromSlice bytes disk') : disk = disk' :=
  Option.some.inj (h.symm.trans h')

/-- Opening reads both files. -/
theorem RaftStores.open_iff {files : Files (CellFile RaftCell)}
    {image : RaftImage Membership} :
    (∃ st, RaftStores.open json files = some st ∧ st.image = image) ↔
      Reads json.log.fromSlice (files (.file .log)) image.log ∧
        Reads json.sm.fromSlice (files (.file .sm)) image.sm := by
  have hlog : (LogStore.open json.log
      { file := files (.file .log), tmp := files (.tmp .log) }).map
        LogStore.inner =
      (readJson json.log.fromSlice (files (.file .log))).map
        (·.getD default) := by
    rcases files (.file .log) with _ | bytes
    · rfl
    · simp only [LogStore.open, readJson, Option.map_map]
      rfl
  constructor
  · rintro ⟨st, hopen, rfl⟩
    simp only [RaftStores.open, Option.bind_eq_bind, Option.pure_def,
      Option.bind_eq_some_iff] at hopen
    obtain ⟨log, hlogOpen, file, hfile, hst⟩ := hopen
    rw [← Option.some.inj hst]
    constructor
    · rw [Reads, ← hlog, hlogOpen]
      rfl
    · rw [Reads, hfile]
      rfl
  · rintro ⟨hreadLog, hreadSm⟩
    rw [Reads, ← hlog] at hreadLog
    obtain ⟨log, hlogOpen, hinner⟩ := Option.map_eq_some_iff.mp hreadLog
    obtain ⟨file, hfile, hdisk⟩ := Option.map_eq_some_iff.mp hreadSm
    refine ⟨{ log, sm := .open json.state file }, ?_, ?_⟩
    · simp [RaftStores.open, hlogOpen, hfile]
    · rcases image with ⟨_, _⟩
      rw [RaftStores.image, hinner, RaftImage.mk.injEq]
      exact ⟨rfl, hdisk⟩

/-- The bytes under the name of a cell stand for its part of an image. -/
def RaftJson.CellReads (json : RaftJson Membership) (cell : RaftCell)
    (bytes : Option Bytes) (image : RaftImage Membership) : Prop :=
  match cell with
  | .log => Reads json.log.fromSlice bytes image.log
  | .sm => Reads json.sm.fromSlice bytes image.sm

theorem RaftStores.open_of_cellReads {files : Files (CellFile RaftCell)}
    {image : RaftImage Membership}
    (h : ∀ cell, json.CellReads cell (files (.file cell)) image) :
    ∃ st, RaftStores.open json files = some st ∧ st.image = image :=
  open_iff.mpr ⟨h .log, h .sm⟩

theorem RaftStores.cellReads_of_open {files : Files (CellFile RaftCell)}
    {st : RaftStores Membership} (h : RaftStores.open json files = some st) :
    ∀ cell, json.CellReads cell (files (.file cell)) st.image := by
  obtain ⟨hlog, hsm⟩ := open_iff.mp ⟨st, h, rfl⟩
  rintro (_ | _)
  · exact hlog
  · exact hsm

theorem reopensTo_of_cellReads {files : Files (CellFile RaftCell)}
    {images : List (RaftImage Membership)}
    (h : ∀ cell, ∃ i ∈ images, json.CellReads cell (files (.file cell)) i) :
    ReopensTo json files images := by
  obtain ⟨i, hi, hlog⟩ := h .log
  obtain ⟨j, hj, hsm⟩ := h .sm
  obtain ⟨st, hopen, himage⟩ := @RaftStores.open_iff _ _ json files
    { log := i.log, sm := j.sm } |>.mpr ⟨hlog, hsm⟩
  refine ⟨st, hopen, ⟨i, hi, ?_⟩, j, hj, ?_⟩
  · rw [himage]
  · rw [himage]

/-- What a call writes. -/
inductive Saves (json : RaftJson Membership)
    (image image' : RaftImage Membership) :
    Option (RaftCell × Bytes) → Prop
  | nothing : image' = image → Saves json image image' none
  | cell (cell : RaftCell) (bytes : Bytes) :
      json.CellReads cell (some bytes) image' →
      (∀ cell' ≠ cell, ∀ b, json.CellReads cell' b image →
        json.CellReads cell' b image') →
      Saves json image image' (some (cell, bytes))

theorem RaftStores.saves_of_call {st st' : RaftStores Membership}
    {c : RaftCall Membership} {save : Option (RaftCell × Bytes)}
    (hcall : st.call json c = some (st', save))
    (hread : json.ReadsBack st'.image) :
    Saves json st.image st'.image save := by
  cases c with
  | log c =>
      simp only [call, Option.some.injEq, Prod.mk.injEq] at hcall
      obtain ⟨rfl, rfl⟩ := hcall
      refine .cell _ _ (reads_some hread.log) ?_
      rintro (_ | _) hne b hb
      · exact absurd rfl hne
      · exact hb
  | apply entries =>
      simp only [call, Option.some.injEq, Prod.mk.injEq] at hcall
      obtain ⟨rfl, rfl⟩ := hcall
      refine .cell _ _ (reads_some hread.sm) ?_
      rintro (_ | _) hne b hb
      · exact hb
      · exact absurd rfl hne
  | installSnapshot snapshot =>
      simp only [call, Option.map_eq_some_iff, Prod.mk.injEq] at hcall
      obtain ⟨sm, -, rfl, rfl⟩ := hcall
      refine .cell _ _ (reads_some hread.sm) ?_
      rintro (_ | _) hne b hb
      · exact hb
      · exact absurd rfl hne
  | buildSnapshot =>
      simp only [call, Option.some.injEq, Prod.mk.injEq] at hcall
      obtain ⟨rfl, rfl⟩ := hcall
      exact .nothing rfl

end Reads

/-! ## Over a life -/

section Life

variable {Membership : Type} [Inhabited Membership]
variable {json : RaftJson Membership} {images : Images RaftCell}
variable {d : Dir (CellFile RaftCell)} {since : List (RaftImage Membership)}
variable {image image' : RaftImage Membership}
variable {save : Option (RaftCell × Bytes)} {dirSynced : Bool}

/-- The cells have held images of the list. -/
structure HoldsSince (json : RaftJson Membership)
    (since : List (RaftImage Membership)) (images : Images RaftCell)
    (d : Dir (CellFile RaftCell)) : Prop where
  keeps : Keeps d images
  reads : ∀ cell, ∀ b ∈ (images cell).all,
    ∃ i ∈ since, json.CellReads cell b i

/-- The cells hold the image. -/
def HoldsNow (json : RaftJson Membership) (image : RaftImage Membership)
    (images : Images RaftCell) : Prop :=
  ∀ cell, json.CellReads cell (images cell).now image

theorem HoldsSince.mono (h : HoldsSince json since images d)
    {since' : List (RaftImage Membership)} (hsub : since ⊆ since') :
    HoldsSince json since' images d := by
  refine ⟨h.keeps, fun cell b hb => ?_⟩
  obtain ⟨i, hi, hreads⟩ := h.reads cell b hb
  exact ⟨i, hsub hi, hreads⟩

theorem HoldsSince.reopens (h : HoldsSince json since images d)
    {files : Files (CellFile RaftCell)} (hleaves : d.Leaves files) :
    ReopensTo json files since :=
  reopensTo_of_cellReads fun cell =>
    h.reads cell _ (h.keeps.leaves hleaves cell)

theorem HoldsSince.reopens_only (h : HoldsSince json since images d)
    (honly : ∀ i ∈ since, i = image) {files : Files (CellFile RaftCell)}
    (hleaves : d.Leaves files) :
    ∃ re, RaftStores.open json files = some re ∧ re.image = image := by
  refine RaftStores.open_of_cellReads fun cell => ?_
  obtain ⟨i, hi, hreads⟩ := h.reads cell _ (h.keeps.leaves hleaves cell)
  rwa [honly i hi] at hreads

/-- A cell is saved. -/
theorem HoldsSince.saved (h : HoldsSince json since images d)
    (hnow : HoldsNow json image images) {cell : RaftCell} {bytes : Bytes}
    (hsaves : Saves json image image' (some (cell, bytes))) {synced : Bool}
    {d' : Dir (CellFile RaftCell)}
    (hkeeps : Keeps d' (images.saved cell bytes synced)) :
    HoldsSince json (imagesAfter (some (cell, bytes)) synced image' since)
        (images.saved cell bytes synced) d' ∧
      HoldsNow json image' (images.saved cell bytes synced) := by
  cases hsaves with
  | cell _ _ hself hother =>
      have hhead : image' ∈
          imagesAfter (some (cell, bytes)) synced image' since := by
        cases synced <;> simp [imagesAfter]
      have hold : synced = false →
          since ⊆ imagesAfter (some (cell, bytes)) synced image' since := by
        rintro rfl
        exact List.subset_cons_self _ _
      refine ⟨⟨hkeeps, fun cell' b hb => ?_⟩, fun cell' => ?_⟩
      · by_cases hcell : cell' = cell
        · subst hcell
          rcases Images.all_saved_self hb with rfl | ⟨hsynced, hb⟩
          · exact ⟨image', hhead, hself⟩
          · exact (h.mono (hold hsynced)).reads cell' b hb
        · rcases Images.all_saved_of_ne hcell hb with rfl | ⟨hsynced, hb⟩
          · exact ⟨image', hhead, hother cell' hcell _ (hnow cell')⟩
          · exact (h.mono (hold hsynced)).reads cell' b hb
      · by_cases hcell : cell' = cell
        · subst hcell
          rw [Images.now_saved_self]
          exact hself
        · rw [Images.now_saved_of_ne hcell]
          exact hother cell' hcell _ (hnow cell')

/-- A call that is done. -/
theorem HoldsSince.call (h : HoldsSince json since images d)
    (hnow : HoldsNow json image images)
    (hsaves : Saves json image image' save) :
    ∃ images', HoldsSince json (imagesAfter save dirSynced image' since)
        images' (d.run (callOps save dirSynced)) ∧
      HoldsNow json image' images' := by
  cases hsaves with
  | nothing heq =>
      subst heq
      exact ⟨images, h.mono (List.subset_cons_self _ _), hnow⟩
  | cell cell bytes hself hother =>
      exact ⟨_, h.saved hnow (.cell cell bytes hself hother) h.keeps.saved⟩

/-- A call that was begun has changed nothing, or has saved a cell. -/
theorem HoldsSince.begun (h : HoldsSince json since images d)
    {done : List (DirOp (CellFile RaftCell))}
    (hdone : Begun (callOps save dirSynced) done) :
    HoldsSince json since images (d.run done) ∨
      ∃ cell bytes synced, save = some (cell, bytes) ∧
        Keeps (d.run done) (images.saved cell bytes synced) := by
  rcases save with _ | ⟨cell, bytes⟩
  · left
    cases hdone
    exact h
  · rcases h.keeps.begun hdone with hkeeps | ⟨synced, hkeeps⟩
    · exact .inl ⟨hkeeps, h.reads⟩
    · exact .inr ⟨cell, bytes, synced, rfl, hkeeps⟩

/-- After a save that followed on synced files, the image before it is found
or the one after it. -/
theorem HoldsSince.reopens_saved (h : HoldsSince json since images d)
    (hnow : HoldsNow json image images) (honly : ∀ i ∈ since, i = image)
    {cell : RaftCell} {bytes : Bytes}
    (hsaves : Saves json image image' (some (cell, bytes))) {synced : Bool}
    {d' : Dir (CellFile RaftCell)}
    (hkeeps : Keeps d' (images.saved cell bytes synced))
    {files : Files (CellFile RaftCell)} (hleaves : d'.Leaves files) :
    ∃ re, RaftStores.open json files = some re ∧
      (re.image = image ∨ re.image = image') := by
  have hheld : ∀ cell, ∀ b ∈ (images cell).all, json.CellReads cell b image :=
    by
      intro cell b hb
      obtain ⟨i, hi, hreads⟩ := h.reads cell b hb
      rwa [honly i hi] at hreads
  have hothers : ∀ cell' ≠ cell,
      json.CellReads cell' (files (.file cell')) image := by
    intro cell' hcell
    rcases Images.all_saved_of_ne hcell (hkeeps.leaves hleaves cell') with
      heq | ⟨-, hb⟩
    · rw [heq]
      exact hnow cell'
    · exact hheld cell' _ hb
  cases hsaves with
  | cell _ _ hself hother =>
      rcases Images.all_saved_self (hkeeps.leaves hleaves cell) with
        heq | ⟨-, hb⟩
      · obtain ⟨re, hopen, himage⟩ := @RaftStores.open_of_cellReads _ _ json
          files image' fun cell' => by
            by_cases hcell : cell' = cell
            · rw [hcell, heq]
              exact hself
            · exact hother cell' hcell _ (hothers cell' hcell)
        exact ⟨re, hopen, .inr himage⟩
      · obtain ⟨re, hopen, himage⟩ :=
          RaftStores.open_of_cellReads fun cell' => by
            by_cases hcell : cell' = cell
            · rw [hcell]
              exact hheld cell _ hb
            · exact hothers cell' hcell
        exact ⟨re, hopen, .inl himage⟩

omit [Inhabited Membership] in
theorem imagesAfter_subset :
    imagesAfter save dirSynced image since ⊆ image :: since := by
  unfold imagesAfter
  split_ifs
  · simp
  · exact List.Subset.refl _

/-- The cells hold images of the list, and those of a running node its own. -/
def RaftPhase.Holds (json : RaftJson Membership)
    (since : List (RaftImage Membership)) (d : Dir (CellFile RaftCell)) :
    RaftPhase Membership → Prop
  | .stopped => ∃ images, HoldsSince json since images d
  | .running st => ∃ images, HoldsSince json since images d ∧
      HoldsNow json st.image images

theorem RaftLife.holds {phase : RaftPhase Membership}
    (h : RaftLife json phase since d) : phase.Holds json since d := by
  induction h with
  | first =>
      refine ⟨_, keeps_found _, fun cell b hb => ?_⟩
      obtain rfl : b = none := by
        simpa [CellImages.all, CellImages.settled] using hb
      refine ⟨_, List.mem_singleton_self _, ?_⟩
      cases cell with
      | log => exact reads_none _
      | sm => exact reads_none _
  | opened _ hopen ih =>
      obtain ⟨images, hholds⟩ := ih
      refine ⟨images, hholds.mono (List.subset_cons_self _ _), fun cell => ?_⟩
      rw [← hholds.keeps.files]
      exact RaftStores.cellReads_of_open hopen cell
  | call dirSynced _ hcall hread ih =>
      obtain ⟨images, hholds, hnow⟩ := ih
      exact hholds.call hnow (RaftStores.saves_of_call hcall hread)
  | ended _ ih =>
      obtain ⟨images, hholds, -⟩ := ih
      exact ⟨images, hholds⟩
  | killed _ hcall hread hdone ih =>
      obtain ⟨images, hholds, hnow⟩ := ih
      have hsaves := RaftStores.saves_of_call hcall hread
      rcases hholds.begun hdone with
        hsame | ⟨cell, bytes, synced, rfl, hkeeps⟩
      · exact ⟨_, hsame.mono (List.subset_cons_self _ _)⟩
      · exact ⟨_, (hholds.saved hnow hsaves hkeeps).1.mono
          imagesAfter_subset⟩
  | powerFailed _ _ hopen _ =>
      refine ⟨_, keeps_found _, fun cell b hb => ?_⟩
      refine ⟨_, List.mem_singleton_self _, ?_⟩
      obtain rfl : b = _ := List.mem_singleton.mp hb
      exact RaftStores.cellReads_of_open hopen cell

/-- Whenever a node stops, with or without a power failure, its metadata can be
opened and is what it was after a call since the directory was last synced; a
call that has synced it is not lost. -/
theorem raftSurvives (json : RaftJson Membership) : RaftSurvives json where
  stopped h files hleaves := by
    obtain ⟨images, hholds⟩ := h.holds
    exact hholds.reopens hleaves
  during h honly _ _ _ _ hcall hread done hdone files hleaves := by
    obtain ⟨images, hholds, hnow⟩ := h.holds
    have hsaves := RaftStores.saves_of_call hcall hread
    rcases hholds.begun hdone with
      hsame | ⟨cell, bytes, synced, rfl, hkeeps⟩
    · obtain ⟨re, hopen, himage⟩ := hsame.reopens_only honly hleaves
      exact ⟨re, hopen, .inl himage⟩
    · exact hholds.reopens_saved hnow honly hsaves hkeeps hleaves
  after h _ _ _ hcall hread files hleaves := by
    obtain ⟨images, hholds, hnow⟩ := h.holds
    obtain ⟨images', hafter, -⟩ := HoldsSince.call hholds hnow
      (RaftStores.saves_of_call hcall hread)
    refine hafter.reopens_only ?_ hleaves
    simp [imagesAfter]

end Life

namespace TwoVotes

/-- The log of a node that has voted for itself in a term, and nothing else. -/
def voted (term : ℕ) : LogDisk Unit where
  lastPurgedLogId := none
  log := ∅
  committed := none
  vote := some { leaderId := ⟨term, 1⟩, committed := false }

/-- Some text for such logs, and for a state machine that has applied
nothing. -/
def json : RaftJson Unit where
  log :=
    { toVec := fun disk =>
        [UInt8.ofNat ((disk.vote.map fun v => v.leaderId.term).getD 0)]
      fromSlice := fun bytes =>
        if bytes = [1] then some (voted 1)
        else if bytes = [2] then some (voted 2)
        else none }
  sm :=
    { toVec := fun _ => [0]
      fromSlice := fun bytes => if bytes = [0] then some default else none }
  state := { toVec := fun _ => [], fromSlice := fun _ => none }

def saveVote (term : ℕ) : RaftCall Unit :=
  .log (.saveVote { leaderId := ⟨term, 1⟩, committed := false })

end TwoVotes

open TwoVotes in
/-- A node saves a vote, and the power fails in the course of saving the next
one: the node is opened with the one vote or the other. -/
theorem raftSurvives_votes : ∃ st since d,
    RaftLife json (.running st) since d ∧ st.log.inner = voted 1 ∧
      ∀ done, Begun (saveOps RaftCell.log [2] false) done →
      ∀ files, (d.run done).Leaves files →
        ∃ re, RaftStores.open json files = some re ∧
          (re.log.inner = voted 1 ∨ re.log.inner = voted 2) := by
  have hopened : RaftLife json (.running _) _ (.found fun _ => none) :=
    .opened .first rfl
  have hfirst := hopened.call (c := saveVote 1) true rfl ⟨rfl, rfl⟩
  refine ⟨_, _, _, hfirst, rfl, fun done hdone files hleaves => ?_⟩
  obtain ⟨re, hopen, himage⟩ := (raftSurvives json).during hfirst
    (fun i hi => List.mem_singleton.mp hi) (c := saveVote 2) rfl ⟨rfl, rfl⟩
    done hdone files hleaves
  exact ⟨re, hopen, himage.imp (congrArg RaftImage.log)
    (congrArg RaftImage.log)⟩

end Quorvec
