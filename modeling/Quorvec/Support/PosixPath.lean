import Mathlib

/-!
# Paths and the directories they lead to

A path is a list of characters.  Joining takes an absolute path as it is and
puts a separator before any other.  Where a path leads, in a tree without links,
is found by walking its components from the root or from a directory: empty
components and single dots stay, two dots go up, and the root is its own parent.
-/

namespace PosixPath

/-- The names on the way down from the root. -/
abbrev Directory := List (List Char)

def isAbsolute (p : List Char) : Bool := p.head? = some '/'

/-- `Path::join`. -/
def join (p q : List Char) : List Char :=
  if isAbsolute q then q
  else if p = [] ∨ p.getLast? = some '/' then p ++ q
  else p ++ '/' :: q

/-- The components that are not empty and not a single dot. -/
def components (p : List Char) : Directory :=
  (p.splitOn '/').filter fun c => c ≠ [] ∧ c ≠ ['.']

/-- One component of a walk. -/
def enter (dir : Directory) (c : List Char) : Directory :=
  if c = ['.', '.'] then dir.dropLast else dir ++ [c]

/-- Where the path leads from a directory. -/
def resolve (dir : Directory) (p : List Char) : Directory :=
  (components p).foldl enter (if isAbsolute p then [] else dir)

theorem components_append_slash (p q : List Char) :
    components (p ++ '/' :: q) = components p ++ components q := by
  rw [components, List.splitOn_append_cons_self, List.filter_append, components,
    components]

theorem components_nil : components [] = [] := by
  rw [components, List.splitOn_nil]
  rfl

theorem components_join {p q : List Char} (hq : ¬ isAbsolute q) :
    components (join p q) = components p ++ components q := by
  rw [join, if_neg hq]
  split_ifs with hp
  · rcases hp with rfl | hlast
    · rw [components_nil, List.nil_append, List.nil_append]
    · obtain ⟨p, rfl⟩ := List.getLast?_eq_some_iff.mp hlast
      rw [List.append_assoc, List.singleton_append, components_append_slash,
        components_append_slash, components_nil, List.append_nil]
  · exact components_append_slash p q

theorem isAbsolute_join {p q : List Char} (hq : ¬ isAbsolute q) :
    isAbsolute (join p q) = isAbsolute p := by
  rw [join, if_neg hq]
  rcases p with _ | ⟨c, p⟩
  · simpa [isAbsolute] using hq
  · split_ifs <;> rfl

theorem resolve_join (dir : Directory) (p q : List Char) :
    resolve dir (join p q) = resolve (resolve dir p) q := by
  by_cases hq : isAbsolute q
  · rw [join, if_pos hq, resolve, resolve, if_pos hq, if_pos hq]
  · rw [resolve, components_join hq, isAbsolute_join hq, List.foldl_append,
      resolve, if_neg hq, resolve]

/-- A name that is one component. -/
def IsPlain (c : List Char) : Prop :=
  '/' ∉ c ∧ c ≠ [] ∧ c ≠ ['.'] ∧ c ≠ ['.', '.']

theorem resolve_of_isPlain {c : List Char} (h : IsPlain c) (dir : Directory) :
    resolve dir c = dir ++ [c] := by
  obtain ⟨hslash, hne, hdot, hdots⟩ := h
  have habsolute : ¬ isAbsolute c := by
    intro hc
    rw [isAbsolute, decide_eq_true_eq, List.head?_eq_some_iff] at hc
    obtain ⟨rest, rfl⟩ := hc
    exact hslash List.mem_cons_self
  have hcomponents : components c = [c] := by
    rw [components, List.splitOn_eq_singleton hslash,
      List.filter_cons_of_pos (by simp [hne, hdot]), List.filter_nil]
  rw [resolve, hcomponents, if_neg habsolute, List.foldl_cons, List.foldl_nil,
    enter, if_neg hdots]

end PosixPath
