import OxideSource.Core.Io

/-!
# Paths and file systems

Paths are byte strings and are compared by components, as `std::path` does on Unix.
A file system enters the model only through its canonicalisation, a partial function
that may be a different one at every call.
-/

namespace OxideSource

/-- `Path`, `PathBuf`. -/
abbrev Path := Bytes

/-- `std::path::Component`. -/
inductive Component where
  | rootDir
  | curDir
  | parentDir
  | normal (name : Bytes)
  deriving DecidableEq, Repr

namespace Path

/-- A segment behind the first: empty ones and dots are skipped. -/
def bodyComponent (segment : Bytes) : Option Component :=
  if segment = [] ∨ segment = [46] then none
  else if segment = [46, 46] then some .parentDir
  else some (.normal segment)

/-- `Path::components`. -/
def components (p : Path) : List Component :=
  let segments := p.splitOn 47
  let body := segments.filterMap bodyComponent
  if p.head? = some 47 then .rootDir :: body
  -- A leading dot is kept when the path is relative.
  else if segments.head? = some [46] then .curDir :: body
  else body

/-- `PathBuf == PathBuf`. -/
def same (a b : Path) : Bool := decide (components a = components b)

/-- The loop of `under_root`. -/
def underComponents : List Component → List Component → Bool
  | a :: r, b :: c => if a = b then underComponents r c else false
  | _ :: _, [] => false
  | [], _ => true

/-- `under_root`. -/
def underRoot (root child : Path) : Bool := underComponents (components root) (components child)

/-- `starts_with` goes by whole components. -/
theorem underComponents_iff {r c : List Component} : underComponents r c = true ↔ r <+: c := by
  induction r generalizing c with
  | nil => simp [underComponents]
  | cons a r ih =>
      cases c with
      | nil => simp [underComponents]
      | cons b c =>
          rw [underComponents, List.cons_prefix_cons]
          by_cases hab : a = b
          · simp [hab, ih]
          · simp [hab]

/-- `child` lies at or under `root`, component by component. -/
def Under (root child : Path) : Prop := components root <+: components child

/-- The loop of `under_root` decides it. -/
theorem underRoot_iff {root child : Path} : underRoot root child = true ↔ Under root child :=
  underComponents_iff

/-- The ancestors of an absolute path: the root, the path cut at one of its later
slashes, and the path itself. -/
def ancestors (p : Path) : List Path :=
  [47] :: ((List.range p.length).filter fun n => n ≠ 0 ∧ p[n]? = some 47).map p.take ++ [p]

end Path

/-- The canonicalisation of one moment: a partial function whose results are absolute
fixed points. -/
structure Canonicalization where
  canonicalize : Path → IoResult Path
  absolute : ∀ {d p}, canonicalize d = .ok p → p.head? = some 47
  fixed : ∀ {d p}, canonicalize d = .ok p → canonicalize p = .ok p

/-- A file system at one moment, as its canonicalisation: what resolves is absolute,
resolves to itself, and so do its ancestors. -/
structure FileSystem extends Canonicalization where
  ancestors : ∀ {d p}, canonicalize d = .ok p → ∀ q ∈ Path.ancestors p, canonicalize q = .ok q

instance : CoeOut FileSystem Canonicalization := ⟨FileSystem.toCanonicalization⟩

namespace FileSystem

/-- The canonicalisation that a table of names lists. -/
def lookup (table : List (Path × Path)) (d : Path) : IoResult Path :=
  match table.find? fun e => e.1 = d with
  | some e => .ok e.2
  | none => .error ⟨.notFound, ["No such file or directory (os error 2)"]⟩

/-- What is found in a table is one of its values. -/
theorem exists_of_lookup {table : List (Path × Path)} {d p : Path} (h : lookup table d = .ok p) :
    ∃ e ∈ table, e.2 = p := by
  unfold lookup at h
  split at h
  · rename_i e he
    exact ⟨e, List.mem_of_find?_eq_some he, Except.ok.inj h⟩
  · cases h

/-- Every name in the table leads to an absolute path whose ancestors are their own. -/
def Lawful (table : List (Path × Path)) : Prop :=
  ∀ e ∈ table, e.2.head? = some 47 ∧ ∀ q ∈ Path.ancestors e.2, lookup table q = .ok q

instance (table : List (Path × Path)) : Decidable (Lawful table) :=
  inferInstanceAs (Decidable (∀ e ∈ table, _))

/-- A lawful table is a file system. -/
def ofTable (table : List (Path × Path)) (h : Lawful table) : FileSystem where
  canonicalize := lookup table
  absolute := by
    intro d p hd
    obtain ⟨e, he, rfl⟩ := exists_of_lookup hd
    exact (h e he).1
  fixed := by
    intro d p hd
    obtain ⟨e, he, rfl⟩ := exists_of_lookup hd
    exact (h e he).2 _ (by simp [Path.ancestors])
  ancestors := by
    intro d p hd
    obtain ⟨e, he, rfl⟩ := exists_of_lookup hd
    exact (h e he).2

end FileSystem

end OxideSource
