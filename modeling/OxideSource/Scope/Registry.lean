import OxideSource.Scope.Verdicts
import OxideSource.Uri.Nesting

/-!
# The registry and its scoped file driver

A registry sends a URI to the opener of its lower-cased scheme. The scoped opener
replaces the `file` entry alone and finds its scope in a process-global slot. The
composite openers resolve their parts through `open_bytes`, whose `file` driver is the
unscoped one.
-/

namespace OxideSource

open Uri

/-- The openers of the crate, as a registry holds them. -/
inductive Opener where
  | openFile
  | openFileScoped
  | openMem
  | openData
  | openConcat
  | openSlice
  deriving DecidableEq, Repr

/-- `SourceRegistry`: the opener of each lower-cased scheme. -/
structure SourceRegistry where
  openers : Text → Option Opener

namespace SourceRegistry

/-- `SourceRegistry::new`. -/
def new : SourceRegistry := ⟨fun _ => none⟩

/-- `SourceRegistry::register_bytes`, which replaces a prior registration. -/
def registerBytes (registry : SourceRegistry) (scheme : Text) (opener : Opener) : SourceRegistry :=
  ⟨fun s => if s = scheme then some opener else registry.openers s⟩

/-- `with_defaults`. -/
def withDefaults : SourceRegistry :=
  ((((new.registerBytes "file".toList .openFile).registerBytes "mem".toList .openMem).registerBytes
    "data".toList .openData).registerBytes "concat".toList .openConcat).registerBytes
    "slice".toList .openSlice

end SourceRegistry

/-- A registry beside the process-global slot `active`. -/
structure Process where
  active : Option FileScope
  registry : SourceRegistry

/-- `FileScope::register_into`. -/
def FileScope.registerInto (scope : FileScope) (process : Process) : Process where
  active := some scope
  registry := process.registry.registerBytes "file".toList .openFileScoped

section Opening

variable {F : Type} (w : World F) (fs : FileSystem)

/-- `open_file_scoped`. -/
def openFileScoped (active : Option FileScope) (uri : Text) : Opening (Reader F) :=
  match active with
  | none => .of (.error (.invalid ["file driver: no FileScope installed"]))
  | some scope => scope.open w fs uri

variable [Target] [ReadSeek F]

/-- Call an opener. -/
def Opener.call (active : Option FileScope) (uri : Text) : Opener → Opening (Reader F)
  | .openFile => OxideSource.openFile w uri
  | .openFileScoped => OxideSource.openFileScoped w fs active uri
  | .openMem => OxideSource.openMem w uri
  | .openData => OxideSource.openData uri
  | .openConcat => OxideSource.openConcat (openBytes w) uri
  | .openSlice => OxideSource.openSlice (openBytes w) uri

/-- `SourceRegistry::open`, where `miss` is the error for a scheme without an opener. -/
def Process.open (miss : Text → Error) (process : Process) (uri : Text) : Opening (Reader F) :=
  match process.registry.openers ((split uri).1.map Char.toLower) with
  | some opener => opener.call w fs process.active uri
  | none => .of (.error (miss uri))

end Opening

/-! ### A scope over the default drivers -/

/-- The default drivers with a scope installed, whatever the slot held before. -/
def FileScope.overDefaults (scope : FileScope) (active : Option FileScope) : Process :=
  scope.registerInto ⟨active, .withDefaults⟩

section

variable {scope : FileScope} {active : Option FileScope}

/-- Under a scope no scheme is left to the unscoped file driver. -/
theorem FileScope.openers_overDefaults_ne (s : Text) :
    (scope.overDefaults active).registry.openers s ≠ some .openFile := by
  simp only [overDefaults, registerInto, SourceRegistry.withDefaults, SourceRegistry.registerBytes,
    SourceRegistry.new]
  split_ifs <;> simp

/-- The name under which the registry looks up a scheme. -/
theorem map_toLower_of_schemeIs {scheme want : Text} (h : schemeIs scheme want = true)
    (hwant : want.map Char.toLower = want) : scheme.map Char.toLower = want :=
  (eqIgnoreAsciiCase_iff.mp h).trans hwant

variable {F : Type} [Target] [ReadSeek F] {w : World F} {fs : FileSystem} {miss : Text → Error}
  {uri : Text} {p : Path}

/-- Composite URIs are opened without the scope. -/
theorem FileScope.open_composite (h : Composite uri) :
    (scope.overDefaults active).open w fs miss uri = openBytes w uri := by
  unfold Process.open
  rcases h with hconcat | hslice
  · rw [map_toLower_of_schemeIs hconcat (by decide), openBytes_concat hconcat]
    rfl
  · rw [map_toLower_of_schemeIs hslice (by decide), openBytes_slice hslice]
    rfl

/-- Every other opener but the unscoped one opens what the scope resolves. -/
theorem Opener.opened_call {opener : Opener} (hopener : opener ≠ .openFile)
    (huri : ¬ Composite uri) (h : p ∈ (opener.call w fs (some scope) uri).opened) :
    scope.resolve fs uri = .ok p := by
  cases opener with
  | openFile => exact absurd rfl hopener
  | openFileScoped => exact FileScope.opened_open h
  | openMem => exact absurd h List.not_mem_nil
  | openData => exact absurd h not_mem_opened_openData
  | openConcat =>
      obtain ⟨_, hpart, _⟩ := opened_openConcat h
      exact absurd hpart.composite huri
  | openSlice =>
      obtain ⟨_, hpart, _⟩ := opened_openSlice h
      exact absurd hpart.composite huri

/-- For a URI that is not composite the registry opens nothing but what the scope
resolves. -/
theorem FileScope.opened_simple (huri : ¬ Composite uri)
    (h : p ∈ ((scope.overDefaults active).open w fs miss uri).opened) :
    scope.resolve fs uri = .ok p := by
  unfold Process.open at h
  split at h
  · rename_i opener hopener
    apply Opener.opened_call _ huri h
    rintro rfl
    exact FileScope.openers_overDefaults_ne _ hopener
  · exact absurd h List.not_mem_nil

end

/-- Over the default drivers a scope decides on every file opened for a URI that is not
composite. A composite URI is opened as without a registry: its files are those that
`open_file` opens, unscoped, for the references nested in it. -/
theorem FileScope.open_overDefaults {F : Type} [Target] [ReadSeek F] (w : World F)
    (fs : FileSystem) (miss : Text → Error) (scope : FileScope) (active : Option FileScope)
    (uri : Text) :
    (¬ Composite uri → ∀ p ∈ ((scope.overDefaults active).open w fs miss uri).opened,
      scope.resolve fs uri = .ok p) ∧
    (Composite uri → (scope.overDefaults active).open w fs miss uri = openBytes w uri ∧
      ∀ p ∈ (openBytes w uri).opened, ∃ ref, Relation.TransGen Part uri ref ∧
        schemeIs (split ref).1 "file".toList = true ∧ p ∈ (openFile w ref).opened) := by
  constructor
  · intro huri p hp
    exact FileScope.opened_simple huri hp
  · intro huri
    refine ⟨FileScope.open_composite huri, ?_⟩
    intro p hp
    obtain ⟨ref, hnested, hfile⟩ := opened_openBytes_composite huri hp
    exact ⟨ref, hnested, schemeIs_of_opened hfile, hfile⟩

/-- The file of `oneFile`, holding one byte. -/
def oneByte : World Cursor where
  openFile path := if path = utf8 "/p".toList then .ok (.new [7]) else .error ⟨.notFound, []⟩
  mem _ := none

/-- An empty scope resolves nothing, and still a slice and a concatenation open the
file that they name. -/
theorem FileScope.nested_file_opened :
    letI := target64
    (∀ uri p, FileScope.new.resolve oneFile uri ≠ .ok p) ∧
      ∀ uri ∈ ["slice:0+1!file:///p".toList, "concat:/p".toList],
        ((FileScope.new.overDefaults none).open oneByte oneFile (fun _ => .invalid []) uri).opened =
          [utf8 "/p".toList] := by
  let := target64
  constructor
  · intro uri p h
    have hallow := (FileScope.isAllowedPath_iff.mp (FileScope.resolve_eq_ok.mp h).2).2
    cases hallow
  · decide +kernel

end OxideSource
