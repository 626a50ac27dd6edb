import Quorvec.Support.StableStorage

/-!
# Values that are saved to files

Each of some cells has a file that is replaced when the cell is saved.  What
the cell has held since the directory was last synced is all that a power
failure can leave of it.
-/

namespace StableStorage

open ByteCodec

/-- The file of a cell, and the file that is to replace it. -/
inductive CellFile (C : Type)
  | file (cell : C)
  | tmp (cell : C)
deriving DecidableEq

/-- Save a cell; the sync of the directory may fail. -/
def saveOps {C : Type} (cell : C) (bytes : Bytes) (dirSynced : Bool) :
    List (DirOp (CellFile C)) :=
  replaceFile (.tmp cell) (.file cell) bytes dirSynced

/-- What a cell holds, and what it has held since the directory was last
synced, latest first. -/
structure CellImages where
  now : Option Bytes
  earlier : List (Option Bytes)

namespace CellImages

/-- All that a power failure may leave. -/
def all (i : CellImages) : List (Option Bytes) := i.now :: i.earlier

/-- What is on the disk for certain. -/
def settled (now : Option Bytes) : CellImages := ⟨now, []⟩

def save (i : CellImages) (bytes : Bytes) : CellImages := ⟨some bytes, i.all⟩

/-- The name of the file. -/
def entry (i : CellImages) : DirEntry :=
  ⟨i.now.map .stored, i.earlier.map (Option.map .stored)⟩

theorem visible_entry (i : CellImages) : i.entry.visible = i.now := by
  rcases i with ⟨_ | bytes, earlier⟩ <;> rfl

theorem entry_save (i : CellImages) (bytes : Bytes) :
    (i.save bytes).entry = i.entry.replace (some (.stored bytes)) := rfl

theorem settle_entry (i : CellImages) :
    i.entry.settle = (settled i.now).entry := rfl

theorem remains_stored_iff {now bytes : Option Bytes} :
    Remains (now.map .stored) bytes ↔ bytes = now := by
  cases now with
  | none => rfl
  | some b =>
      simp only [Option.map_some, Remains, CachedFile.leaves_stored_iff,
        exists_eq_right]

theorem survives_entry_iff {i : CellImages} {bytes : Option Bytes} :
    i.entry.Survives bytes ↔ bytes ∈ i.all := by
  have hall : i.entry.current :: i.entry.older =
      i.all.map (Option.map .stored) := rfl
  simp only [DirEntry.Survives, hall, List.mem_map, exists_exists_and_eq_and,
    remains_stored_iff, exists_eq_right']

end CellImages

/-- What the cells have held. -/
abbrev Images (C : Type) := C → CellImages

section Cells

variable {C : Type}

/-- The directory holds the cells. -/
def Keeps (d : Dir (CellFile C)) (images : Images C) : Prop :=
  ∀ cell, d (.file cell) = (images cell).entry

theorem Keeps.files {d : Dir (CellFile C)} {images : Images C}
    (h : Keeps d images) (cell : C) :
    d.files (.file cell) = (images cell).now := by
  rw [Dir.files, h, CellImages.visible_entry]

theorem Keeps.leaves {d : Dir (CellFile C)} {images : Images C}
    (h : Keeps d images) {files : Files (CellFile C)} (hleaves : d.Leaves files)
    (cell : C) : files (.file cell) ∈ (images cell).all := by
  have hsurvives := hleaves (.file cell)
  rwa [h, CellImages.survives_entry_iff] at hsurvives

theorem keeps_found (files : Files (CellFile C)) :
    Keeps (.found files) fun cell => .settled (files (.file cell)) :=
  fun _ => rfl

variable [DecidableEq C]

namespace Images

def saved (images : Images C) (cell : C) (bytes : Bytes) (dirSynced : Bool) :
    Images C :=
  let images := Function.update images cell ((images cell).save bytes)
  if dirSynced then fun cell => .settled (images cell).now else images

theorem now_saved_self (images : Images C) (cell : C) (bytes : Bytes)
    (dirSynced : Bool) :
    (images.saved cell bytes dirSynced cell).now = some bytes := by
  cases dirSynced <;>
    simp [saved, CellImages.settled, CellImages.save, Function.update_self]

theorem now_saved_of_ne {images : Images C} {cell cell' : C}
    (h : cell' ≠ cell) (bytes : Bytes) (dirSynced : Bool) :
    (images.saved cell bytes dirSynced cell').now = (images cell').now := by
  cases dirSynced <;>
    simp [saved, CellImages.settled, Function.update_of_ne h]

/-- Saving leaves what was there, or the new bytes. -/
theorem all_saved_self {images : Images C} {cell : C} {bytes : Bytes}
    {dirSynced : Bool} {b : Option Bytes}
    (hb : b ∈ (images.saved cell bytes dirSynced cell).all) :
    b = some bytes ∨ dirSynced = false ∧ b ∈ (images cell).all := by
  cases dirSynced with
  | true =>
      left
      simpa [saved, CellImages.all, CellImages.settled, CellImages.save,
        Function.update_self] using hb
  | false =>
      simpa [saved, CellImages.all, CellImages.save, Function.update_self]
        using hb

theorem all_saved_of_ne {images : Images C} {cell cell' : C}
    (h : cell' ≠ cell) {bytes : Bytes} {dirSynced : Bool} {b : Option Bytes}
    (hb : b ∈ (images.saved cell bytes dirSynced cell').all) :
    b = (images cell').now ∨ dirSynced = false ∧ b ∈ (images cell').all := by
  cases dirSynced with
  | true =>
      left
      simpa [saved, CellImages.all, CellImages.settled,
        Function.update_of_ne h] using hb
  | false =>
      right
      simpa [saved, Function.update_of_ne h] using hb

end Images

variable {d : Dir (CellFile C)} {images : Images C} {cell : C} {bytes : Bytes}
variable {dirSynced : Bool}

/-- The rename makes the new bytes visible. -/
theorem Keeps.renamed (h : Keeps d images) :
    Keeps (renamed d (.tmp cell) (.file cell) bytes)
      (images.saved cell bytes false) := by
  intro cell'
  by_cases hcell : cell' = cell
  · subst hcell
    rw [renamed_self d (by simp), h, ← CellImages.entry_save]
    simp [Images.saved]
  · rw [renamed_of_ne (by simpa using hcell) (by simp), h]
    simp [Images.saved, Function.update_of_ne hcell]

theorem Keeps.settled (h : Keeps d (images.saved cell bytes false)) :
    Keeps (DirOp.syncDir.apply d) (images.saved cell bytes true) := by
  intro cell'
  show (d (.file cell')).settle = _
  rw [h, CellImages.settle_entry]
  rfl

theorem Keeps.saved (h : Keeps d images) :
    Keeps (d.run (saveOps cell bytes dirSynced))
      (images.saved cell bytes dirSynced) := by
  rw [saveOps, run_replaceFile]
  cases dirSynced with
  | false => exact h.renamed
  | true => exact h.renamed.settled

/-- A save that was begun is done, or has changed no cell; whether the
directory was synced is another matter. -/
theorem Keeps.begun (h : Keeps d images) {done : List (DirOp (CellFile C))}
    (hdone : Begun (saveOps cell bytes dirSynced) done) :
    Keeps (d.run done) images ∨
      ∃ synced, Keeps (d.run done) (images.saved cell bytes synced) := by
  have hreached := reached_of_begun (d := d) _ _ hdone
  generalize d.run done = d' at hreached
  cases hreached with
  | before hd => exact .inl fun cell' => by rw [hd _ (by simp), h]
  | renamed => exact .inr ⟨false, h.renamed⟩
  | synced => exact .inr ⟨true, h.renamed.settled⟩

end Cells

end StableStorage
