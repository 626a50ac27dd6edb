import Quorvec.Support.PosixPath

/-!
# The directories of shards

A shard lives under the data directory in a directory of its collection, which
is named by whatever non-empty string a client has chosen.  The name is joined
as a path, so it may lead elsewhere.  Two shards have directories of their own,
in the data directory, exactly if their names lead into the data directory, to
different places, and not into each other's shards.
-/

namespace Quorvec

open PosixPath

/-- The check of `create_collection`. -/
def acceptsName (name : String) : Bool := name ≠ ""

/-- `format!("shard_{shard_idx}")`. -/
def shardDirName (shardIdx : UInt32) : List Char :=
  "shard_".toList ++ Nat.toDigits 10 shardIdx.toNat

/-- The path of a shard's directory. -/
def shardDir (dataDir collection : String) (shardIdx : UInt32) : List Char :=
  join (join dataDir.toList collection.toList) (shardDirName shardIdx)

def walFile : List Char := "shard.wal".toList

def snapshotFile : List Char := "shard.snap".toList

theorem shardDirName_eq (i : UInt32) :
    shardDirName i = "shard_".toList ++ Nat.toDigits 10 i.toNat := rfl

theorem shardDirName_inj {i j : UInt32} (h : shardDirName i = shardDirName j) :
    i = j := by
  have hdigits := List.append_cancel_left h
  have hvalue := congrArg (Nat.ofDigitChars 10 · 0) hdigits
  simp only [Nat.ofDigitChars_ten_toDigits] at hvalue
  exact UInt32.toNat_inj.mp hvalue

theorem isPlain_shardDirName (i : UInt32) : IsPlain (shardDirName i) := by
  have hlong : 6 ≤ (shardDirName i).length := by
    rw [shardDirName_eq, List.length_append]
    exact Nat.le_add_right 6 _
  refine ⟨?_, ?_, ?_, ?_⟩
  · rw [shardDirName_eq, List.mem_append, not_or]
    refine ⟨by decide, fun hdigit => ?_⟩
    have hdigit := Nat.isDigit_of_mem_toDigits (by decide) (by decide) hdigit
    exact absurd hdigit (by decide)
  all_goals
    intro heq
    rw [heq] at hlong
    simp at hlong

theorem shardDirName_ne {file : List Char}
    (hfile : file ∈ [walFile, snapshotFile]) (i : UInt32) :
    shardDirName i ≠ file := by
  intro heq
  have hfifth : (shardDirName i)[5]? = some '_' := by
    rw [shardDirName_eq, List.getElem?_append_left (by decide)]
    rfl
  rw [heq] at hfifth
  simp only [List.mem_cons, List.not_mem_nil, or_false] at hfile
  rcases hfile with rfl | rfl
  · exact absurd hfifth (by decide)
  · exact absurd hfifth (by decide)

section Places

variable (cwd : Directory) (dataDir : String)

/-- Where the data directory is. -/
def dataPlace : Directory := resolve cwd dataDir.toList

/-- Where a collection's name leads. -/
def namePlace (collection : String) : Directory :=
  resolve (dataPlace cwd dataDir) collection.toList

/-- Where a shard's directory is. -/
def shardPlace (collection : String) (shardIdx : UInt32) : Directory :=
  resolve cwd (shardDir dataDir collection shardIdx)

/-- Two shards have different directories, neither has the other's files in it,
and both are strictly inside the data directory. -/
structure Separate (c₁ : String) (i₁ : UInt32) (c₂ : String) (i₂ : UInt32) :
    Prop where
  ne : shardPlace cwd dataDir c₁ i₁ ≠ shardPlace cwd dataDir c₂ i₂
  left : ∀ file ∈ [walFile, snapshotFile],
    ¬ shardPlace cwd dataDir c₁ i₁ <+: shardPlace cwd dataDir c₂ i₂ ++ [file]
  right : ∀ file ∈ [walFile, snapshotFile],
    ¬ shardPlace cwd dataDir c₂ i₂ <+: shardPlace cwd dataDir c₁ i₁ ++ [file]
  inside₁ : dataPlace cwd dataDir <+: shardPlace cwd dataDir c₁ i₁ ∧
    dataPlace cwd dataDir ≠ shardPlace cwd dataDir c₁ i₁
  inside₂ : dataPlace cwd dataDir <+: shardPlace cwd dataDir c₂ i₂ ∧
    dataPlace cwd dataDir ≠ shardPlace cwd dataDir c₂ i₂

variable {cwd dataDir} {c c₁ c₂ : String} {i i₁ i₂ : UInt32}

theorem shardPlace_eq (c : String) (i : UInt32) :
    shardPlace cwd dataDir c i =
      namePlace cwd dataDir c ++ [shardDirName i] := by
  rw [shardPlace, shardDir, resolve_join, resolve_join,
    resolve_of_isPlain (isPlain_shardDirName i), namePlace, dataPlace]

theorem shardPlace_inj : shardPlace cwd dataDir c₁ i₁ =
      shardPlace cwd dataDir c₂ i₂ ↔
    namePlace cwd dataDir c₁ = namePlace cwd dataDir c₂ ∧ i₁ = i₂ := by
  rw [shardPlace_eq, shardPlace_eq]
  constructor
  · intro h
    obtain ⟨hname, hshard⟩ := List.append_inj' h rfl
    exact ⟨hname, shardDirName_inj (List.cons.inj hshard).1⟩
  · rintro ⟨hname, rfl⟩
    rw [hname]

/-- A directory has a shard's file in it if it is the shard's directory or the
shard's name leads into it. -/
theorem shardPlace_prefix_iff {file : List Char}
    (hfile : file ∈ [walFile, snapshotFile]) :
    shardPlace cwd dataDir c₁ i₁ <+:
        shardPlace cwd dataDir c₂ i₂ ++ [file] ↔
      shardPlace cwd dataDir c₁ i₁ = shardPlace cwd dataDir c₂ i₂ ∨
        shardPlace cwd dataDir c₁ i₁ <+: namePlace cwd dataDir c₂ := by
  have hne : shardPlace cwd dataDir c₁ i₁ ≠
      shardPlace cwd dataDir c₂ i₂ ++ [file] := by
    rw [shardPlace_eq c₁]
    intro heq
    have hlast := (List.append_inj' heq rfl).2
    exact shardDirName_ne hfile i₁ (List.cons.inj hlast).1
  rw [List.prefix_concat_iff, or_iff_right hne, shardPlace_eq c₂,
    List.prefix_concat_iff]

theorem inside_iff : (dataPlace cwd dataDir <+: shardPlace cwd dataDir c i ∧
      dataPlace cwd dataDir ≠ shardPlace cwd dataDir c i) ↔
    dataPlace cwd dataDir <+: namePlace cwd dataDir c := by
  rw [shardPlace_eq, List.prefix_concat_iff]
  constructor
  · rintro ⟨heq | hpre, hne⟩
    · exact absurd heq hne
    · exact hpre
  · intro hpre
    refine ⟨.inr hpre, fun heq => ?_⟩
    have hlen := hpre.length_le
    rw [heq, List.length_append, List.length_singleton] at hlen
    omega

/-- Names that lead into the data directory, not to one place with equal indices
and not into each other's shards. -/
theorem separate_of_places
    (hinside₁ : dataPlace cwd dataDir <+: namePlace cwd dataDir c₁)
    (hinside₂ : dataPlace cwd dataDir <+: namePlace cwd dataDir c₂)
    (hname : namePlace cwd dataDir c₁ = namePlace cwd dataDir c₂ → i₁ ≠ i₂)
    (hleft : ¬ shardPlace cwd dataDir c₁ i₁ <+: namePlace cwd dataDir c₂)
    (hright : ¬ shardPlace cwd dataDir c₂ i₂ <+: namePlace cwd dataDir c₁) :
    Separate cwd dataDir c₁ i₁ c₂ i₂ := by
  have hne : shardPlace cwd dataDir c₁ i₁ ≠ shardPlace cwd dataDir c₂ i₂ := by
    intro heq
    obtain ⟨hsame, hidx⟩ := shardPlace_inj.mp heq
    exact hname hsame hidx
  refine ⟨hne, fun file hfile hpre => ?_, fun file hfile hpre => ?_,
    inside_iff.mpr hinside₁, inside_iff.mpr hinside₂⟩
  · exact ((shardPlace_prefix_iff hfile).mp hpre).elim hne hleft
  · exact ((shardPlace_prefix_iff hfile).mp hpre).elim (Ne.symm hne) hright

/-- Shards whose collections have names of one component are separate. -/
theorem separate_of_isPlain (h₁ : IsPlain c₁.toList) (h₂ : IsPlain c₂.toList)
    (hne : (c₁, i₁) ≠ (c₂, i₂)) : Separate cwd dataDir c₁ i₁ c₂ i₂ := by
  have hplace : ∀ {c : String}, IsPlain c.toList →
      namePlace cwd dataDir c = dataPlace cwd dataDir ++ [c.toList] :=
    fun h => resolve_of_isPlain h _
  have hlength : ∀ {c c' : String} {i : UInt32}, IsPlain c.toList →
      IsPlain c'.toList →
        ¬ shardPlace cwd dataDir c i <+: namePlace cwd dataDir c' := by
    intro c c' i h h' hpre
    have hlen := hpre.length_le
    rw [shardPlace_eq, hplace h, hplace h'] at hlen
    simp at hlen
  refine separate_of_places ?_ ?_ (fun hname hidx => ?_) (hlength h₁ h₂)
    (hlength h₂ h₁)
  · rw [hplace h₁]
    exact List.prefix_append _ _
  · rw [hplace h₂]
    exact List.prefix_append _ _
  · rw [hplace h₁, hplace h₂] at hname
    have hlast := (List.append_inj' hname rfl).2
    have hname := String.toList_inj.mp (List.cons.inj hlast).1
    exact hne (Prod.ext hname hidx)

/-- Two shards are separate exactly if both names lead to the data directory or
below it, not to one place with equal indices, and neither to a place in the
other's shard. -/
theorem separate_iff (cwd : Directory) (dataDir c₁ c₂ : String)
    (i₁ i₂ : UInt32) : Separate cwd dataDir c₁ i₁ c₂ i₂ ↔
      dataPlace cwd dataDir <+: namePlace cwd dataDir c₁ ∧
      dataPlace cwd dataDir <+: namePlace cwd dataDir c₂ ∧
      (namePlace cwd dataDir c₁ = namePlace cwd dataDir c₂ → i₁ ≠ i₂) ∧
      ¬ namePlace cwd dataDir c₁ ++ [shardDirName i₁] <+:
        namePlace cwd dataDir c₂ ∧
      ¬ namePlace cwd dataDir c₂ ++ [shardDirName i₂] <+:
        namePlace cwd dataDir c₁ := by
  rw [← shardPlace_eq, ← shardPlace_eq]
  constructor
  · rintro ⟨hne, hleft, hright, hinside₁, hinside₂⟩
    have hwal : walFile ∈ [walFile, snapshotFile] := List.mem_cons_self
    refine ⟨inside_iff.mp hinside₁, inside_iff.mp hinside₂, ?_, ?_, ?_⟩
    · rintro hname rfl
      exact hne (shardPlace_inj.mpr ⟨hname, rfl⟩)
    · exact fun hpre =>
        hleft _ hwal ((shardPlace_prefix_iff hwal).mpr (.inr hpre))
    · exact fun hpre =>
        hright _ hwal ((shardPlace_prefix_iff hwal).mpr (.inr hpre))
  · rintro ⟨hinside₁, hinside₂, hname, hleft, hright⟩
    exact separate_of_places hinside₁ hinside₂ hname hleft hright

end Places

/-- The name `b/../a` leads to the place of `a`, the name `a/shard_0` into its
first shard, and two dots lead out of the data directory. -/
theorem not_separate_dots :
    (acceptsName "a" ∧ acceptsName "b/../a" ∧ acceptsName "a/shard_0" ∧
      acceptsName "..") ∧
    shardPlace [] "/data" "a" 0 = shardPlace [] "/data" "b/../a" 0 ∧
    ¬ Separate [] "/data" "a" 0 "b/../a" 0 ∧
    ¬ Separate [] "/data" "a" 0 "a/shard_0" 0 ∧
    ¬ Separate [] "/data" "a" 0 ".." 0 := by
  refine ⟨by decide, by decide, fun h => ?_, fun h => ?_, fun h => ?_⟩
  · exact absurd h.ne (by decide)
  · exact absurd (h.left walFile List.mem_cons_self) (by decide)
  · exact absurd h.inside₂.1 (by decide)

end Quorvec
