import Quorvec.Support.ByteCodec

/-!
# Files and power failures

What is written to a file is seen at once, and is on the disk when the file has
been synced.  A power failure leaves the synced bytes of a file and some of the
bytes that follow them.  A name of a directory that was created or renamed may
stand for what it stood for before, until the directory is synced; syncing a
file makes its own name durable.

A process that stops has done some of the operations of a sequence and perhaps
a part of a write.  Replacing a file by a synced one is atomic: wherever the
sequence stops, with or without a power failure, the name stands for the old
bytes or for the new ones.
-/

namespace StableStorage

open ByteCodec

/-! ## Files -/

/-- A file, and how many of its bytes are on the disk for certain. -/
structure CachedFile where
  content : Bytes
  synced : ℕ
  synced_le : synced ≤ content.length

namespace CachedFile

/-- A new file. -/
def empty : CachedFile := ⟨[], 0, le_rfl⟩

/-- A file that is on the disk. -/
def stored (content : Bytes) : CachedFile := ⟨content, content.length, le_rfl⟩

def write (f : CachedFile) (bytes : Bytes) : CachedFile where
  content := f.content ++ bytes
  synced := f.synced
  synced_le := by
    rw [List.length_append]
    exact f.synced_le.trans (Nat.le_add_right _ _)

def sync (f : CachedFile) : CachedFile := stored f.content

/-- What a power failure leaves of the bytes. -/
def Leaves (f : CachedFile) (bytes : Bytes) : Prop :=
  ∃ n, f.synced ≤ n ∧ bytes = f.content.take n

theorem leaves_content (f : CachedFile) : f.Leaves f.content :=
  ⟨_, f.synced_le, List.take_length.symm⟩

theorem leaves_stored_iff {content bytes : Bytes} :
    (stored content).Leaves bytes ↔ bytes = content := by
  constructor
  · rintro ⟨n, hn, rfl⟩
    exact List.take_of_length_le hn
  · rintro rfl
    exact leaves_content (stored _)

end CachedFile

/-- What a name may stand for after a power failure. -/
def Remains : Option CachedFile → Option Bytes → Prop
  | none, bytes => bytes = none
  | some f, bytes => ∃ b, bytes = some b ∧ f.Leaves b

/-! ## Directories -/

/-- A name of a directory. -/
structure DirEntry where
  current : Option CachedFile
  /-- What else the name may stand for after a power failure. -/
  older : List (Option CachedFile)

namespace DirEntry

/-- A name that was never used. -/
def unused : DirEntry := ⟨none, []⟩

/-- A name as it is found on the disk. -/
def found (bytes : Option Bytes) : DirEntry := ⟨bytes.map .stored, []⟩

/-- What the name is seen to stand for. -/
def visible (e : DirEntry) : Option Bytes := e.current.map CachedFile.content

/-- What a power failure leaves under the name. -/
def Survives (e : DirEntry) (bytes : Option Bytes) : Prop :=
  ∃ o ∈ e.current :: e.older, Remains o bytes

/-- The number of bytes that no power failure takes away. -/
def safe (e : DirEntry) : ℕ :=
  match e.older with
  | [] => (e.current.map CachedFile.synced).getD 0
  | _ :: _ => 0

/-- The name stands for something else. -/
def replace (e : DirEntry) (file : Option CachedFile) : DirEntry :=
  ⟨file, e.current :: e.older⟩

/-- Open for writing, with no content. -/
def create (e : DirEntry) : DirEntry := e.replace (some .empty)

/-- Open for appending. -/
def ensure (e : DirEntry) : DirEntry :=
  match e.current with
  | none => e.create
  | some _ => e

def write (e : DirEntry) (bytes : Bytes) : DirEntry :=
  { e with current := e.current.map (·.write bytes) }

def sync (e : DirEntry) : DirEntry :=
  match e.current with
  | none => e
  | some f => ⟨some f.sync, []⟩

/-- Shorten the file and sync it. -/
def cut (e : DirEntry) (length : ℕ) : DirEntry :=
  found (e.visible.map (List.take length))

/-- The name is on the disk. -/
def settle (e : DirEntry) : DirEntry := { e with older := [] }

@[simp] theorem visible_found (bytes : Option Bytes) :
    (found bytes).visible = bytes := by
  cases bytes <;> rfl

@[simp] theorem visible_write (e : DirEntry) (bytes : Bytes) :
    (e.write bytes).visible = e.visible.map (· ++ bytes) := by
  rcases e with ⟨_ | f, older⟩ <;> rfl

@[simp] theorem visible_sync (e : DirEntry) : e.sync.visible = e.visible := by
  rcases e with ⟨_ | f, older⟩ <;> rfl

@[simp] theorem visible_cut (e : DirEntry) (length : ℕ) :
    (e.cut length).visible = e.visible.map (List.take length) :=
  visible_found _

theorem visible_ensure (e : DirEntry) :
    e.ensure.visible = some (e.visible.getD []) := by
  rcases e with ⟨_ | f, older⟩ <;> rfl

theorem survives_visible (e : DirEntry) : e.Survives e.visible := by
  refine ⟨e.current, List.mem_cons_self, ?_⟩
  rcases e with ⟨_ | f, older⟩
  · rfl
  · exact ⟨_, rfl, f.leaves_content⟩

theorem survives_found_iff {bytes bytes' : Option Bytes} :
    (found bytes).Survives bytes' ↔ bytes' = bytes := by
  cases bytes with
  | none => simp [Survives, found, Remains]
  | some b =>
      simp only [Survives, found, Option.map_some, List.mem_singleton,
        exists_eq_left, Remains, CachedFile.leaves_stored_iff,
        exists_eq_right]

theorem survives_settle {e : DirEntry} {bytes : Option Bytes}
    (h : e.settle.Survives bytes) : e.Survives bytes := by
  obtain ⟨o, ho, hremains⟩ := h
  rw [List.mem_singleton.mp ho] at hremains
  exact ⟨e.current, List.mem_cons_self, hremains⟩

theorem survives_replace {e : DirEntry} {content : Bytes} {bytes : Option Bytes}
    (h : (e.replace (some (.stored content))).Survives bytes) :
    bytes = some content ∨ e.Survives bytes := by
  obtain ⟨o, ho, hremains⟩ := h
  rcases List.mem_cons.mp ho with rfl | ho
  · left
    obtain ⟨b, hb, hleaves⟩ := hremains
    rw [hb, CachedFile.leaves_stored_iff.mp hleaves]
  · exact .inr ⟨o, ho, hremains⟩

/-! ### Appending -/

@[simp] theorem safe_write (e : DirEntry) (bytes : Bytes) :
    (e.write bytes).safe = e.safe := by
  rcases e with ⟨_ | f, _ | ⟨o, older⟩⟩ <;> rfl

@[simp] theorem safe_ensure (e : DirEntry) : e.ensure.safe = e.safe := by
  rcases e with ⟨_ | f, _ | ⟨o, older⟩⟩ <;> rfl

@[simp] theorem safe_found (bytes : Option Bytes) :
    (found bytes).safe = (bytes.getD []).length := by
  cases bytes <;> rfl

@[simp] theorem safe_cut (e : DirEntry) (length : ℕ) :
    (e.cut length).safe = ((e.visible.getD []).take length).length := by
  rw [cut, safe_found]
  cases e.visible <;> simp

theorem safe_le_settle (e : DirEntry) : e.safe ≤ e.settle.safe := by
  rcases e with ⟨f, _ | ⟨o, older⟩⟩
  · exact le_rfl
  · exact Nat.zero_le _

theorem safe_sync {e : DirEntry} {content : Bytes}
    (h : e.visible = some content) : e.sync.safe = content.length := by
  rcases e with ⟨_ | f, older⟩
  · cases h
  · rw [← Option.some.inj h]
    rfl

theorem safe_le (e : DirEntry) : e.safe ≤ (e.visible.getD []).length := by
  rcases e with ⟨_ | f, _ | ⟨o, older⟩⟩
  · exact Nat.zero_le _
  · exact Nat.zero_le _
  · exact f.synced_le
  · exact Nat.zero_le _

/-- The name stood for nothing before its file was created. -/
def Fresh (e : DirEntry) : Prop := ∀ o ∈ e.older, o = none

theorem fresh_found (bytes : Option Bytes) : (found bytes).Fresh := by
  simp [Fresh, found]

theorem Fresh.write {e : DirEntry} (h : e.Fresh) (bytes : Bytes) :
    (e.write bytes).Fresh := h

theorem Fresh.sync {e : DirEntry} (h : e.Fresh) : e.sync.Fresh := by
  rcases e with ⟨_ | f, older⟩
  · exact h
  · simp [Fresh, DirEntry.sync]

theorem Fresh.settle (e : DirEntry) : e.settle.Fresh := by
  simp [Fresh, DirEntry.settle]

theorem Fresh.ensure {e : DirEntry} (h : e.Fresh) : e.ensure.Fresh := by
  rcases e with ⟨_ | f, older⟩
  · intro o ho
    rcases List.mem_cons.mp ho with rfl | ho
    · rfl
    · exact h o ho
  · exact h

/-- A file that is appended to loses a part of its end, and nothing of what is
on the disk. -/
theorem Fresh.survives {e : DirEntry} (h : e.Fresh) {bytes : Option Bytes}
    (hbytes : e.Survives bytes) :
    ∃ n ≥ e.safe, bytes.getD [] = (e.visible.getD []).take n := by
  obtain ⟨o, ho, hremains⟩ := hbytes
  have hnone : o = none → e.safe = 0 →
      ∃ n ≥ e.safe, bytes.getD [] = (e.visible.getD []).take n := by
    rintro rfl hsafe
    exact ⟨0, by rw [hsafe], by rw [show bytes = none from hremains]; simp⟩
  rcases e with ⟨_ | f, older⟩
  · refine hnone ?_ (by rcases older with _ | ⟨o, older⟩ <;> rfl)
    rcases List.mem_cons.mp ho with rfl | ho
    · rfl
    · exact h o ho
  · rcases List.mem_cons.mp ho with rfl | ho
    · obtain ⟨b, rfl, n, hn, rfl⟩ := hremains
      refine ⟨n, ?_, rfl⟩
      rcases older with _ | ⟨o, older⟩
      · exact hn
      · exact Nat.zero_le _
    · refine hnone (h o ho) ?_
      rcases older with _ | ⟨o, older⟩
      · cases ho
      · rfl

end DirEntry

/-- The names of a directory. -/
abbrev Dir (N : Type) := N → DirEntry

/-- What the names stand for. -/
abbrev Files (N : Type) := N → Option Bytes

inductive DirOp (N : Type)
  /-- Open for writing, with no content. -/
  | create (name : N)
  /-- Open for appending. -/
  | ensure (name : N)
  | write (name : N) (bytes : Bytes)
  | sync (name : N)
  /-- Shorten the file and sync it. -/
  | cut (name : N) (length : ℕ)
  | rename (source target : N)
  | syncDir

namespace Dir

variable {N : Type}

/-- The directory as everybody sees it. -/
def files (d : Dir N) : Files N := fun name => (d name).visible

/-- The directory as it is found on the disk. -/
def found (files : Files N) : Dir N := fun name => .found (files name)

/-- A power failure leaves these files. -/
def Leaves (d : Dir N) (files : Files N) : Prop :=
  ∀ name, (d name).Survives (files name)

variable [DecidableEq N]

def change (d : Dir N) (name : N) (f : DirEntry → DirEntry) : Dir N :=
  Function.update d name (f (d name))

@[simp] theorem change_self (d : Dir N) (name : N) (f : DirEntry → DirEntry) :
    d.change name f name = f (d name) := Function.update_self _ _ _

theorem change_of_ne {name name' : N} (h : name' ≠ name) (d : Dir N)
    (f : DirEntry → DirEntry) : d.change name f name' = d name' :=
  Function.update_of_ne h _ _

end Dir

section Run

variable {N : Type} [DecidableEq N]

def DirOp.apply (d : Dir N) : DirOp N → Dir N
  | .create name => d.change name .create
  | .ensure name => d.change name .ensure
  | .write name bytes => d.change name (·.write bytes)
  | .sync name => d.change name .sync
  | .cut name length => d.change name (·.cut length)
  | .rename source target =>
      (d.change source (·.replace none)).change target
        (·.replace (d source).current)
  | .syncDir => fun name => (d name).settle

def Dir.run (d : Dir N) (ops : List (DirOp N)) : Dir N :=
  ops.foldl DirOp.apply d

@[simp] theorem Dir.run_nil (d : Dir N) : d.run [] = d := rfl

@[simp] theorem Dir.run_cons (d : Dir N) (op : DirOp N)
    (ops : List (DirOp N)) : d.run (op :: ops) = (op.apply d).run ops := rfl

@[simp] theorem Dir.run_append (d : Dir N) (ops ops' : List (DirOp N)) :
    d.run (ops ++ ops') = (d.run ops).run ops' := List.foldl_append

end Run

/-! ## Stopping -/

section Stop

variable {N : Type}

/-- What may have been done of a sequence of operations. -/
inductive Begun : List (DirOp N) → List (DirOp N) → Prop
  | stop (ops : List (DirOp N)) : Begun ops []
  | part {name : N} {bytes t : Bytes} (h : t <+: bytes)
      (ops : List (DirOp N)) :
      Begun (.write name bytes :: ops) [.write name t]
  | next (op : DirOp N) {ops done : List (DirOp N)} :
      Begun ops done → Begun (op :: ops) (op :: done)

theorem begun_self (ops : List (DirOp N)) : Begun ops ops := by
  induction ops with
  | nil => exact .stop []
  | cons op ops ih => exact .next op ih

variable [DecidableEq N] {d d' : Dir N} {ops ops' : List (DirOp N)}

/-- How a process leaves its directory when it stops in the course of some
operations, alone or together with the machine. -/
inductive Stopped (d : Dir N) (ops : List (DirOp N)) : Dir N → Prop
  | exit {done : List (DirOp N)} : Begun ops done → Stopped d ops (d.run done)
  | powerFailure {done : List (DirOp N)} {files : Files N} :
      Begun ops done → (d.run done).Leaves files →
      Stopped d ops (.found files)

/-- What holds wherever a sequence stops: before it, within its first write,
and wherever the rest stops. -/
theorem forall_begun_cons {P : Dir N → Prop} {op : DirOp N} (hstart : P d)
    (hpart : ∀ name bytes, op = .write name bytes → ∀ t, t <+: bytes →
      P (d.change name (·.write t)))
    (hrest : ∀ done, Begun ops done → P ((op.apply d).run done)) :
    ∀ done, Begun (op :: ops) done → P (d.run done) := by
  intro done hdone
  cases hdone with
  | stop => exact hstart
  | part ht => exact hpart _ _ rfl _ ht
  | next _ h => exact hrest _ h

theorem forall_begun_cons_whole {P : Dir N → Prop} {op : DirOp N}
    (hop : ∀ name bytes, op ≠ .write name bytes) (hstart : P d)
    (hrest : ∀ done, Begun ops done → P ((op.apply d).run done)) :
    ∀ done, Begun (op :: ops) done → P (d.run done) :=
  forall_begun_cons hstart (fun name bytes h => absurd h (hop name bytes))
    hrest

theorem forall_begun_nil {P : Dir N → Prop} (hstart : P d) :
    ∀ done, Begun ([] : List (DirOp N)) done → P (d.run done) := by
  intro done hdone
  cases hdone
  exact hstart

theorem forall_begun_append {P : Dir N → Prop}
    (h : ∀ done, Begun ops done → P (d.run done))
    (h' : ∀ done, Begun ops' done → P ((d.run ops).run done)) :
    ∀ done, Begun (ops ++ ops') done → P (d.run done) := by
  induction ops generalizing d with
  | nil => exact h'
  | cons op ops ih =>
      refine forall_begun_cons (h _ (.stop _)) ?_
        (ih (fun done hdone => h _ (.next op hdone)) h')
      rintro name bytes rfl t ht
      exact h _ (.part ht ops)

end Stop

/-! ## Replacing a file -/

section Replace

variable {N : Type}

/-- Write a file under another name, sync it and rename it; the sync of the
directory may fail. -/
def replaceFile (tmp name : N) (bytes : Bytes) (dirSynced : Bool) :
    List (DirOp N) :=
  [.create tmp, .write tmp bytes, .sync tmp, .rename tmp name] ++
    if dirSynced then [.syncDir] else []

variable [DecidableEq N] {d d' : Dir N} {tmp name : N} {bytes : Bytes}

/-- The names other than the temporary one: only that of the replaced file may
stand for something new, and this is the whole of the new bytes. -/
structure Replaced (d : Dir N) (tmp name : N) (bytes : Bytes) (d' : Dir N) :
    Prop where
  visible : (d' name).visible = (d name).visible ∨
    (d' name).visible = some bytes
  survives : ∀ b, (d' name).Survives b →
    b = some bytes ∨ (d name).Survives b
  other : ∀ name', name' ≠ name → name' ≠ tmp →
    d' name' = d name' ∨ d' name' = (d name').settle

omit [DecidableEq N] in
theorem replaced_of_eq (h : tmp ≠ name) (hd : ∀ n, n ≠ tmp → d' n = d n) :
    Replaced d tmp name bytes d' where
  visible := .inl (by rw [hd name h.symm])
  survives b hb := .inr (hd name h.symm ▸ hb)
  other n _ hn := .inl (hd n hn)

/-- The directory after the rename. -/
def renamed (d : Dir N) (tmp name : N) (bytes : Bytes) : Dir N :=
  d.run [.create tmp, .write tmp bytes, .sync tmp, .rename tmp name]

theorem renamed_self (d : Dir N) (h : tmp ≠ name) (bytes : Bytes) :
    renamed d tmp name bytes name =
      (d name).replace (some (.stored bytes)) := by
  simp only [renamed, Dir.run_cons, Dir.run_nil, DirOp.apply,
    Dir.change_self, Dir.change_of_ne h.symm]
  rfl

theorem renamed_of_ne {n : N} (hn : n ≠ name) (hn' : n ≠ tmp) :
    renamed d tmp name bytes n = d n := by
  simp only [renamed, Dir.run_cons, Dir.run_nil, DirOp.apply,
    Dir.change_of_ne hn, Dir.change_of_ne hn']

theorem replaced_renamed (h : tmp ≠ name) :
    Replaced d tmp name bytes (renamed d tmp name bytes) := by
  refine ⟨.inr (by rw [renamed_self d h]; rfl), fun b hb => ?_,
    fun n hn hn' => .inl (renamed_of_ne hn hn')⟩
  rw [renamed_self d h] at hb
  exact DirEntry.survives_replace hb

theorem replaced_settled (h : tmp ≠ name) :
    Replaced d tmp name bytes
      (DirOp.syncDir.apply (renamed d tmp name bytes)) := by
  have hold := @replaced_renamed N _ d tmp name bytes h
  refine ⟨hold.visible, fun b hb => hold.survives b ?_,
    fun n hn hn' => .inr ?_⟩
  · exact DirEntry.survives_settle hb
  · show (renamed d tmp name bytes n).settle = _
    rw [renamed_of_ne hn hn']

/-- How far the replacement of a file has come. -/
inductive Reached (d : Dir N) (tmp name : N) (bytes : Bytes) : Dir N → Prop
  /-- Only the temporary file has changed. -/
  | before {d' : Dir N} (hd : ∀ n, n ≠ tmp → d' n = d n) :
      Reached d tmp name bytes d'
  | renamed : Reached d tmp name bytes (renamed d tmp name bytes)
  | synced :
      Reached d tmp name bytes (DirOp.syncDir.apply (renamed d tmp name bytes))

/-- Wherever the replacement stops. -/
theorem reached_of_begun (dirSynced : Bool) :
    ∀ done, Begun (replaceFile tmp name bytes dirSynced) done →
      Reached d tmp name bytes (d.run done) := by
  refine forall_begun_append ?_ ?_
  · refine forall_begun_cons_whole (by simp) ?_
      (forall_begun_cons ?_ ?_ (forall_begun_cons_whole (by simp) ?_
        (forall_begun_cons_whole (by simp) ?_ (forall_begun_nil ?_))))
    · exact .before fun _ _ => rfl
    · exact .before fun n hn => Dir.change_of_ne hn _ _
    · intro name' bytes' hop t _
      cases hop
      refine .before fun n hn => ?_
      simp only [DirOp.apply, Dir.change_of_ne hn]
    · refine .before fun n hn => ?_
      simp only [DirOp.apply, Dir.change_of_ne hn]
    · refine .before fun n hn => ?_
      simp only [DirOp.apply, Dir.change_of_ne hn]
    · exact .renamed
  · cases dirSynced with
    | false => exact forall_begun_nil .renamed
    | true =>
        exact forall_begun_cons_whole (by simp) .renamed
          (forall_begun_nil .synced)

theorem Reached.replaced (h : tmp ≠ name)
    (hreached : Reached d tmp name bytes d') :
    Replaced d tmp name bytes d' := by
  cases hreached with
  | before hd => exact replaced_of_eq h hd
  | renamed => exact replaced_renamed h
  | synced => exact replaced_settled h

theorem run_replaceFile (d : Dir N) (tmp name : N) (bytes : Bytes)
    (dirSynced : Bool) :
    d.run (replaceFile tmp name bytes dirSynced) =
      if dirSynced then DirOp.syncDir.apply (renamed d tmp name bytes)
      else renamed d tmp name bytes := by
  cases dirSynced <;> rfl

/-- Wherever the replacement of a file stops, the name stands for the old bytes
or for the new ones, also after a power failure; afterwards it is seen to stand
for the new ones, and once the directory is synced it does so for good. -/
theorem replaceFile_atomic (d : Dir N) (h : tmp ≠ name) (bytes : Bytes)
    (dirSynced : Bool) :
    (∀ done, Begun (replaceFile tmp name bytes dirSynced) done →
      Replaced d tmp name bytes (d.run done)) ∧
    ((d.run (replaceFile tmp name bytes dirSynced)) name).visible =
      some bytes ∧
    (dirSynced = true → ∀ b,
      ((d.run (replaceFile tmp name bytes dirSynced)) name).Survives b →
        b = some bytes) := by
  have hsettled : DirOp.syncDir.apply (renamed d tmp name bytes) name =
      .found (some bytes) := by
    show (renamed d tmp name bytes name).settle = _
    rw [renamed_self d h]
    rfl
  refine ⟨fun done hdone => (reached_of_begun dirSynced done hdone).replaced h,
    ?_, ?_⟩
  · rw [run_replaceFile]
    split_ifs
    · rw [hsettled, DirEntry.visible_found]
    · rw [renamed_self d h]
      rfl
  · rintro rfl b hb
    rw [run_replaceFile, if_pos rfl, hsettled] at hb
    exact DirEntry.survives_found_iff.mp hb

end Replace

end StableStorage
