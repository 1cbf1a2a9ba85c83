import OxideSource.Scope.Path
import OxideSource.Uri.Open

/-!
# The file scope

Allow- and deny-lists of directories for the `file://` driver. Every function that
canonicalises takes the file system of that moment, so a scope can be configured
against one and consulted against another.
-/

namespace OxideSource

open Uri

/-- `Root`. -/
structure Root where
  path : Path
  /-- The path is a canonical form found at insertion. -/
  pinned : Bool
  deriving DecidableEq, Repr

namespace Root

/-- `Root::new`. -/
def new (fs : Canonicalization) (dir : Path) : Root :=
  match fs.canonicalize dir with
  | .ok canon => ⟨canon, true⟩
  | .error _ => ⟨dir, false⟩

/-- `Root::covers`. -/
def covers (fs : Canonicalization) (r : Root) (canon : Path) : Bool :=
  if r.pinned then Path.underRoot r.path canon
  else
    match fs.canonicalize r.path with
    | .ok c => Path.underRoot c canon
    | .error _ => Path.underRoot r.path canon

end Root

/-- `FileScope`. -/
structure FileScope where
  roots : List Root
  denies : List Root
  permissive : Bool
  deriving DecidableEq, Repr

namespace FileScope

/-- `FileScope::new`. -/
def new : FileScope := ⟨[], [], false⟩

/-- `FileScope::permissive`. -/
def newPermissive : FileScope := ⟨[], [], true⟩

/-- The entry is already listed, by its path alone. -/
def listed (entries : List Root) (root : Root) : Bool :=
  entries.any fun r => Path.same r.path root.path

/-- `FileScope::allow_dir`. -/
def allowDir (fs : Canonicalization) (scope : FileScope) (dir : Path) : FileScope :=
  let root := Root.new fs dir
  if !listed scope.roots root then { scope with roots := scope.roots ++ [root] } else scope

/-- `FileScope::deny_dir`. -/
def denyDir (fs : Canonicalization) (scope : FileScope) (dir : Path) : FileScope :=
  let root := Root.new fs dir
  if !listed scope.denies root then { scope with denies := scope.denies ++ [root] } else scope

section Verdicts

variable (fs : Canonicalization) (scope : FileScope)

/-- `FileScope::is_allow_listed`. -/
def isAllowListed (canon : Path) : Bool :=
  if scope.permissive then true else scope.roots.any fun root => root.covers fs canon

/-- `FileScope::is_denied`. -/
def isDenied (canon : Path) : Bool := scope.denies.any fun root => root.covers fs canon

/-- `FileScope::is_allowed_path`. -/
def isAllowedPath (canon : Path) : Bool :=
  !scope.isDenied fs canon && scope.isAllowListed fs canon

/-- The first half of `FileScope::resolve`: the path that a URI names. -/
def requested (uri : Text) : Except Error Text :=
  let (scheme, rest) := split uri
  if !schemeIs scheme "file".toList then
    .error (.invalid ["FileScope cannot resolve non-file URI: ", .text uri])
  else
    match if hasFileScheme uri then percentDecodePath rest else .ok rest with
    | .error e => .error e
    | .ok decoded =>
        if 0 ∈ utf8 decoded then .error (.invalid ["file path contains NUL byte"])
        else .ok decoded

/-- `FileScope::resolve`. -/
def resolve (uri : Text) : Except Error Path :=
  match requested uri with
  | .error e => .error e
  | .ok decoded =>
      match fs.canonicalize (utf8 decoded) with
      | .error e => .error (.io ⟨e.kind, "file '" :: .text decoded ::
          "' did not canonicalise: " :: e.msg⟩)
      | .ok canon =>
          if scope.isDenied fs canon then
            .error (.io ⟨.permissionDenied, ["file '", .text decoded, "' (canonical '", .path canon,
              "') is inside a FileScope deny-listed root"]⟩)
          else if !scope.isAllowListed fs canon then
            .error (.io ⟨.permissionDenied, ["file '", .text decoded, "' (canonical '", .path canon,
              "') is outside the FileScope allow-list"]⟩)
          else .ok canon

end Verdicts

/-- The request for a URI reaches the canonical path `p`. -/
def Requests (fs : Canonicalization) (uri : Text) (p : Path) : Prop :=
  ∃ decoded, requested uri = .ok decoded ∧ fs.canonicalize (utf8 decoded) = .ok p

theorem isAllowedPath_iff {fs : Canonicalization} {scope : FileScope} {p : Path} :
    scope.isAllowedPath fs p = true ↔
      scope.isDenied fs p = false ∧ scope.isAllowListed fs p = true := by
  rw [isAllowedPath, Bool.and_eq_true, Bool.not_eq_true']

/-- Resolution succeeds exactly on the requests whose canonical path is allowed. -/
theorem resolve_eq_ok {fs : Canonicalization} {scope : FileScope} {uri : Text} {p : Path} :
    scope.resolve fs uri = .ok p ↔ Requests fs uri p ∧ scope.isAllowedPath fs p = true := by
  rw [isAllowedPath_iff]
  constructor
  · intro h
    unfold resolve at h
    split at h
    · cases h
    · rename_i decoded hreq
      split at h
      · cases h
      · rename_i canon hcanon
        split at h
        · cases h
        · rename_i hdeny
          split at h
          · cases h
          · rename_i hallow
            cases h
            rw [Bool.not_eq_true', Bool.not_eq_false] at hallow
            exact ⟨⟨decoded, hreq, hcanon⟩, Bool.not_eq_true _ ▸ hdeny, hallow⟩
  · rintro ⟨⟨decoded, hreq, hcanon⟩, hdeny, hallow⟩
    simp only [resolve, hreq, hcanon, hdeny, hallow, Bool.false_eq_true, Bool.not_true, ite_false]

end FileScope

/-- `FileScope::open`. -/
def FileScope.open {F : Type} (w : World F) (fs : Canonicalization) (scope : FileScope) (uri : Text) :
    Opening (Reader F) := do
  let canon ← .of (scope.resolve fs uri)
  let f ← w.open canon
  pure (.file f)

/-- A scope opens nothing but the path that it resolves. -/
theorem FileScope.opened_open {F : Type} {w : World F} {fs : Canonicalization} {scope : FileScope}
    {uri : Text} {p : Path} (h : p ∈ (scope.open w fs uri).opened) :
    scope.resolve fs uri = .ok p := by
  unfold FileScope.open at h
  cases hr : scope.resolve fs uri with
  | error e =>
      rw [hr] at h
      cases h
  | ok canon =>
      rw [hr, Opening.of_ok_bind] at h
      cases hf : w.openFile canon with
      | error e =>
          have hopen : (w.open canon).result = .error (.io e) := by rw [World.open, hf]
          rw [Opening.bind_of_error hopen, World.open, hf] at h
          cases h
      | ok f =>
          have hopen : (w.open canon).result = .ok f := by rw [World.open, hf]
          rw [Opening.bind_of_ok hopen, World.open, hf] at h
          obtain rfl := List.mem_singleton.mp h
          rfl

end OxideSource
