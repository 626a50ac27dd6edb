import Quorvec.Hnsw.BruteForce
import Quorvec.Support.CallMachine

/-!
# Both indexes are the same keyed store

The store of a dimension is the partial map from each id to its last inserted
vector.  Both implementations of the index answer every sequence of calls as
the store does.
-/

namespace Quorvec

open TotalCorrectness

/-- The operations of the trait that change or read the stored vectors.  An
insert leaves a state whether or not it fails. -/
structure VectorIndex (σ : Type) where
  insert : σ → UInt64 → List F32 → σ × Except IndexError Unit
  delete : σ → UInt64 → Except IndexError (σ × Bool)
  getVector : σ → UInt64 → Except IndexError (Option (List F32))
  len : σ → ℕ

/-- An insert checks the length of the vector before it writes anything.  A
write that panics is taken to leave the old state. -/
def insertChecked {σ : Type} (dim : ℕ) (s : σ) (vector : List F32)
    (written : Except IndexError σ) : σ × Except IndexError Unit :=
  if vector.length ≠ dim then (s, .error (.dimMismatch dim vector.length))
  else match written with
    | .ok s' => (s', .ok ())
    | .error e => (s, .error e)

def HnswIndex.vectorIndex (K : Kernel) : VectorIndex HnswIndex where
  insert idx id vector :=
    insertChecked idx.dim idx vector (idx.insert K id vector)
  delete := HnswIndex.delete
  getVector := HnswIndex.getVector
  len := HnswIndex.len

def BruteForceIndex.vectorIndex : VectorIndex BruteForceIndex where
  insert idx id vector :=
    insertChecked idx.dim idx vector (idx.insert id vector)
  delete := BruteForceIndex.delete
  getVector := BruteForceIndex.getVector
  len := BruteForceIndex.len

inductive VectorIndexCall
  | insert (id : UInt64) (vector : List F32)
  | delete (id : UInt64)
  | getVector (id : UInt64)
  | len
deriving DecidableEq, Repr

inductive VectorIndexReply
  | inserted
  | deleted (removed : Bool)
  | vector (v : Option (List F32))
  | length (n : ℕ)
deriving DecidableEq, Repr

abbrev VectorIndexResult := Except IndexError VectorIndexReply

/-- The partial map from ids to vectors. -/
abbrev VectorStore := UInt64 → Option (List F32)

/-- The calls of the store of dimension `dim`. -/
noncomputable def VectorStore.call (dim : ℕ) (m : VectorStore) :
    VectorIndexCall → VectorStore × VectorIndexResult
  | .insert id vector =>
      if vector.length = dim then
        (Function.update m id (some vector), .ok .inserted)
      else (m, .error (.dimMismatch dim vector.length))
  | .delete id => (Function.update m id none, .ok (.deleted (m id).isSome))
  | .getVector id => (m, .ok (.vector (m id)))
  | .len => (m, .ok (.length {id | (m id).isSome}.ncard))

section Insert

variable {σ : Type} {dim : ℕ} {s s' : σ} {vector : List F32}

theorem insertChecked_mismatch (h : vector.length ≠ dim)
    (written : Except IndexError σ) :
    insertChecked dim s vector written =
      (s, .error (.dimMismatch dim vector.length)) :=
  if_pos h

theorem insertChecked_of_ok (h : vector.length = dim)
    {written : Except IndexError σ} (hok : written = .ok s') :
    insertChecked dim s vector written = (s', .ok ()) := by
  simp [insertChecked, h, hok]

theorem insertChecked_of_error (h : vector.length = dim)
    {written : Except IndexError σ} {e : IndexError}
    (herror : written = .error e) :
    insertChecked dim s vector written = (s, .error e) := by
  simp [insertChecked, h, herror]

end Insert

namespace VectorIndex

variable {σ : Type} (I : VectorIndex σ)

/-- One call.  A panic of `delete` is taken to leave the old state. -/
def call (s : σ) : VectorIndexCall → σ × VectorIndexResult
  | .insert id vector =>
      let (s, result) := I.insert s id vector
      (s, result.map fun _ => .inserted)
  | .delete id =>
      match I.delete s id with
      | .ok (s', removed) => (s', .ok (.deleted removed))
      | .error e => (s, .error e)
  | .getVector id => (s, (I.getVector s id).map .vector)
  | .len => (s, .ok (.length (I.len s)))

/-- Every operation does to the states what it means for the partial maps that
they hold. -/
structure Implements (dim : ℕ) (Holds : σ → VectorStore → Prop) : Prop where
  insert : ∀ {s m}, Holds s m → ∀ (id : UInt64) (vector : List F32),
    vector.length = dim → ∃ s', I.insert s id vector = (s', .ok ()) ∧
      Holds s' (Function.update m id (some vector))
  mismatch : ∀ {s m}, Holds s m → ∀ (id : UInt64) (vector : List F32),
    vector.length ≠ dim →
      I.insert s id vector = (s, .error (.dimMismatch dim vector.length))
  delete : ∀ {s m}, Holds s m → ∀ id : UInt64,
    Returns (I.delete s id) (fun r =>
      Holds r.1 (Function.update m id none) ∧ r.2 = (m id).isSome)
  getVector : ∀ {s m}, Holds s m → ∀ id : UInt64,
    I.getVector s id = .ok (m id)
  len : ∀ {s m}, Holds s m → I.len s = {id | (m id).isSome}.ncard

variable {I} {dim : ℕ} {Holds : σ → VectorStore → Prop}

/-- An implementation answers as the store does. -/
theorem Implements.simulates (h : I.Implements dim Holds) :
    CallMachine.Simulates Holds I.call (VectorStore.call dim) := by
  intro s m c hm
  cases c with
  | insert id vector =>
      by_cases hdim : vector.length = dim
      · obtain ⟨s', hinsert, hs'⟩ := h.insert hm id vector hdim
        simp only [call, hinsert, VectorStore.call, if_pos hdim]
        exact ⟨rfl, hs'⟩
      · simp only [call, h.mismatch hm id vector hdim, VectorStore.call,
          if_neg hdim]
        exact ⟨rfl, hm⟩
  | delete id =>
      obtain ⟨⟨s', removed⟩, hdelete, hs', hremoved⟩ := h.delete hm id
      simp only [call, hdelete, VectorStore.call, ← hremoved]
      exact ⟨trivial, hs'⟩
  | getVector id =>
      simp only [call, h.getVector hm, VectorStore.call]
      exact ⟨rfl, hm⟩
  | len =>
      simp only [call, h.len hm, VectorStore.call]
      exact ⟨trivial, hm⟩

/-- A call that the store refuses changes nothing. -/
theorem Implements.call_of_error (h : I.Implements dim Holds) {s : σ}
    {m : VectorStore} (hm : Holds s m) {c : VectorIndexCall} {e : IndexError}
    (he : (VectorStore.call dim m c).2 = .error e) :
    I.call s c = (s, .error e) := by
  cases c with
  | insert id vector =>
      by_cases hdim : vector.length = dim
      · simp [VectorStore.call, hdim] at he
      · simp only [VectorStore.call, if_neg hdim, Except.error.injEq] at he
        simp only [call, h.mismatch hm id vector hdim, ← he]
        rfl
  | delete id => simp [VectorStore.call] at he
  | getVector id => simp [VectorStore.call] at he
  | len => simp [VectorStore.call] at he

end VectorIndex

/-- The graph index implements the store. -/
theorem HnswIndex.implements (K : Kernel) (dim : ℕ) :
    (vectorIndex K).Implements dim
      (fun idx m => (idx.Valid ∧ idx.params.Fits) ∧ idx.dim = dim ∧
        idx.store = m) where
  insert := by
    rintro idx m ⟨⟨h, hfits⟩, rfl, rfl⟩ id vector hdim
    obtain ⟨idx', hinsert, hup⟩ := insert_returns (K := K) hfits h id hdim
    exact ⟨idx', insertChecked_of_ok hdim hinsert,
      ⟨hup.valid, hup.kind.params ▸ hfits⟩, hup.kind.dim, hup.store_eq⟩
  mismatch := by
    rintro idx m ⟨-, rfl, -⟩ id vector hdim
    exact insertChecked_mismatch hdim _
  delete := by
    rintro idx m ⟨⟨h, hfits⟩, rfl, rfl⟩ id
    exact (delete_returns h id).mono fun r hr =>
      ⟨⟨⟨hr.1.valid, hr.1.kind.params ▸ hfits⟩, hr.1.kind.dim,
        hr.1.store_eq⟩, hr.2⟩
  getVector := by
    rintro idx m ⟨⟨h, -⟩, -, rfl⟩ id
    exact getVector_eq h id
  len := by
    rintro idx m ⟨⟨h, -⟩, -, rfl⟩
    exact len_eq h

/-- The exact index implements the store. -/
theorem BruteForceIndex.implements (dim : ℕ) :
    vectorIndex.Implements dim
      (fun idx m => idx.Valid ∧ idx.dim = dim ∧ idx.store = m) where
  insert := by
    rintro idx m ⟨h, rfl, rfl⟩ id vector hdim
    obtain ⟨idx', hinsert, hup⟩ := insert_returns h id hdim
    exact ⟨idx', insertChecked_of_ok hdim hinsert, hup.valid, hup.dim_eq,
      hup.store_eq⟩
  mismatch := by
    rintro idx m ⟨-, rfl, -⟩ id vector hdim
    exact insertChecked_mismatch hdim _
  delete := by
    rintro idx m ⟨h, rfl, rfl⟩ id
    exact (delete_returns h id).mono fun r hr =>
      ⟨⟨hr.1.valid, hr.1.dim_eq, hr.1.store_eq⟩, hr.2⟩
  getVector := by
    rintro idx m ⟨h, -, rfl⟩ id
    exact getVector_eq h id
  len := by
    rintro idx m ⟨h, -, rfl⟩
    exact len_eq h

end Quorvec
