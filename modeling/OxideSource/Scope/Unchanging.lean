import OxideSource.Scope.History

/-!
# Scopes on an unchanging file system

When every call and every check meet the same canonicalisation, the entries of a scope
are the directories of its calls, up to components. A dropped duplicate covers what the
listed entry covers, so the verdict is one about the set of calls.
-/

namespace OxideSource

open Uri

section Unchanging

variable (fs : Canonicalization)

/-- The components of a directory's canonical form, or of its spelling. -/
def extent (dir : Path) : List Component :=
  match fs.canonicalize dir with
  | .ok c => Path.components c
  | .error _ => Path.components dir

/-- A configuration call that meets the unchanging file system. -/
inductive DirCall where
  | allowDir (dir : Path)
  | denyDir (dir : Path)
  deriving DecidableEq, Repr

/-- The call, performed on `fs`. -/
def DirCall.on : DirCall → ScopeCall
  | .allowDir dir => .allowDir fs dir
  | .denyDir dir => .denyDir fs dir

/-- The directory of a call. -/
def DirCall.dir : DirCall → Path
  | .allowDir dir => dir
  | .denyDir dir => dir

/-- The entry covers what lies under its path. -/
def Root.AtRest (r : Root) : Prop := ∀ p, r.covers fs p = true ↔ Path.Under r.path p

variable {fs}

/-- An entry that resolves is compared by its extent. -/
theorem components_new (dir : Path) : Path.components (Root.new fs dir).path = extent fs dir := by
  cases hdir : fs.canonicalize dir with
  | ok c => rw [Root.new_of_ok hdir, extent, hdir]
  | error e => rw [Root.new_of_error hdir, extent, hdir]

/-- What is deferred still fails to resolve at the check. -/
theorem Root.atRest_new (dir : Path) : (Root.new fs dir).AtRest fs := by
  intro p
  cases hdir : fs.canonicalize dir with
  | ok c =>
      rw [Root.new_of_ok hdir, ← Path.underRoot_iff]
      rfl
  | error e =>
      rw [Root.new_of_error hdir]
      exact Root.covers_unresolved ⟨rfl, e, hdir⟩

namespace FileScope

/-- A list with one more entry, unless its path is listed. -/
def insert (entries : List Root) (root : Root) : List Root :=
  if !listed entries root then entries ++ [root] else entries

/-- An allow call adds its root. -/
theorem roots_allowDir (scope : FileScope) (dir : Path) :
    (scope.allowDir fs dir).roots = insert scope.roots (Root.new fs dir) := by
  rw [allowDir, insert]
  split
  · rfl
  · rfl

/-- An allow call denies nothing. -/
theorem denies_allowDir (scope : FileScope) (dir : Path) :
    (scope.allowDir fs dir).denies = scope.denies := by
  rw [allowDir]
  split
  · rfl
  · rfl

/-- A deny call adds its entry. -/
theorem denies_denyDir (scope : FileScope) (dir : Path) :
    (scope.denyDir fs dir).denies = insert scope.denies (Root.new fs dir) := by
  rw [denyDir, insert]
  split
  · rfl
  · rfl

/-- A deny call leaves the roots alone. -/
theorem roots_denyDir (scope : FileScope) (dir : Path) :
    (scope.denyDir fs dir).roots = scope.roots := by
  rw [denyDir]
  split
  · rfl
  · rfl

/-- The entries cover exactly what lies under the directories. -/
structure Lists (fs : Canonicalization) (dirs : Path → Prop) (entries : List Root) : Prop where
  atRest : ∀ r ∈ entries, r.AtRest fs
  under : ∀ p, (∃ r ∈ entries, Path.Under r.path p) ↔
    ∃ dir, dirs dir ∧ extent fs dir <+: Path.components p

/-- Entries cover a path when a listed directory does. -/
theorem Lists.covers {dirs : Path → Prop} {entries : List Root} (h : Lists fs dirs entries)
    (p : Path) : (entries.any fun r => r.covers fs p) = true ↔
      ∃ dir, dirs dir ∧ extent fs dir <+: Path.components p := by
  rw [← h.under, List.any_eq_true]
  constructor
  · rintro ⟨r, hr, hcovers⟩
    exact ⟨r, hr, (h.atRest r hr p).mp hcovers⟩
  · rintro ⟨r, hr, hunder⟩
    exact ⟨r, hr, (h.atRest r hr p).mpr hunder⟩

/-- An entry whose path is listed adds no path to what is covered. -/
theorem under_insert (entries : List Root) (root : Root) (p : Path) :
    (∃ r ∈ insert entries root, Path.Under r.path p) ↔
      (∃ r ∈ entries, Path.Under r.path p) ∨ Path.Under root.path p := by
  cases hlisted : listed entries root with
  | false => simp [insert, hlisted, or_and_right, exists_or]
  | true =>
      obtain ⟨r, hr, hsame⟩ := List.any_eq_true.mp hlisted
      have hcomponents : Path.components r.path = Path.components root.path :=
        of_decide_eq_true hsame
      rw [insert, hlisted]
      constructor
      · exact .inl
      · rintro (h | h)
        · exact h
        · exact ⟨r, hr, by rwa [Path.Under, hcomponents]⟩

/-- Inserting the entry of a directory adds that directory. -/
theorem Lists.insert {dirs : Path → Prop} {entries : List Root} (h : Lists fs dirs entries)
    (dir : Path) :
    Lists fs (fun d => dirs d ∨ d = dir) (FileScope.insert entries (Root.new fs dir)) where
  atRest := by
    intro r hr
    rw [FileScope.insert] at hr
    split at hr
    · rcases List.mem_append.mp hr with hr | hr
      · exact h.atRest r hr
      · rw [List.mem_singleton.mp hr]
        exact Root.atRest_new dir
    · exact h.atRest r hr
  under := by
    intro p
    rw [under_insert, h.under, Path.Under, components_new]
    simp [or_and_right, exists_or]

/-- Lists of the same directories. -/
theorem Lists.congr {dirs dirs' : Path → Prop} {entries : List Root} (h : Lists fs dirs entries)
    (hdirs : ∀ dir, dirs' dir ↔ dirs dir) : Lists fs dirs' entries := by
  obtain rfl : dirs' = dirs := funext fun dir => propext (hdirs dir)
  exact h

/-- No directory, no entry. -/
theorem Lists.nil {dirs : Path → Prop} (h : ∀ dir, ¬ dirs dir) : Lists fs dirs [] where
  atRest := by
    intro r hr
    cases hr
  under := by
    intro p
    simp [h]

/-- The scope that calls build from one of the two constructors. -/
def configured (fs : Canonicalization) (permissive : Bool) (calls : List DirCall) : FileScope :=
  (if permissive then newPermissive else new).build (calls.map (·.on fs))

/-- One more call. -/
theorem configured_append_singleton (permissive : Bool) (calls : List DirCall) (call : DirCall) :
    configured fs permissive (calls ++ [call]) =
      (configured fs permissive calls).configure (call.on fs) := by
  rw [configured, List.map_append, build, List.foldl_append]
  rfl

/-- No call changes whether the scope is permissive. -/
theorem permissive_configured (permissive : Bool) (calls : List DirCall) :
    (configured fs permissive calls).permissive = permissive := by
  rw [configured, permissive_build]
  cases permissive with
  | false => rfl
  | true => rfl

/-- The lists of a scope are those of the calls that built it. -/
theorem lists_configured (permissive : Bool) (calls : List DirCall) :
    Lists fs (fun dir => .allowDir dir ∈ calls) (configured fs permissive calls).roots ∧
      Lists fs (fun dir => .denyDir dir ∈ calls) (configured fs permissive calls).denies := by
  induction calls using List.reverseRecOn with
  | nil =>
      have hroots : (configured fs permissive []).roots = [] := by cases permissive <;> rfl
      have hdenies : (configured fs permissive []).denies = [] := by cases permissive <;> rfl
      rw [hroots, hdenies]
      exact ⟨.nil (by simp), .nil (by simp)⟩
  | append_singleton calls call ih =>
      obtain ⟨hroots, hdenies⟩ := ih
      rw [configured_append_singleton]
      cases call with
      | allowDir dir =>
          rw [DirCall.on.eq_def, configure.eq_def, roots_allowDir, denies_allowDir]
          exact ⟨(hroots.insert dir).congr (by simp), hdenies.congr (by simp)⟩
      | denyDir dir =>
          rw [DirCall.on.eq_def, configure.eq_def, roots_denyDir, denies_denyDir]
          exact ⟨hroots.congr (by simp), (hdenies.insert dir).congr (by simp)⟩

/-- Deny roots win over allow roots, and both are prefixes component by component. -/
theorem isAllowedPath_configured (permissive : Bool) (calls : List DirCall) (p : Path) :
    (configured fs permissive calls).isAllowedPath fs p = true ↔
      (permissive = true ∨
        ∃ dir, .allowDir dir ∈ calls ∧ extent fs dir <+: Path.components p) ∧
      ¬ ∃ dir, .denyDir dir ∈ calls ∧ extent fs dir <+: Path.components p := by
  obtain ⟨hroots, hdenies⟩ := @lists_configured fs permissive calls
  have hdenied := hdenies.covers p
  rw [isAllowedPath_iff, isDenied, ← Bool.not_eq_true, hdenied, isAllowListed,
    permissive_configured, and_comm]
  cases permissive with
  | true => simp
  | false => simp [← hroots.covers p]

/-- A directory does not reach a sibling of its last component. -/
theorem extent_not_prefix {dir p : Path} {parent rest : List Component} {name name' : Bytes}
    (hdir : extent fs dir = parent ++ [.normal name])
    (hp : Path.components p = parent ++ .normal name' :: rest) (hne : name ≠ name') :
    ¬ extent fs dir <+: Path.components p := by
  rw [hdir, hp, List.prefix_append_right_inj, List.cons_prefix_cons]
  rintro ⟨hname, _⟩
  exact hne (Component.normal.inj hname)

/-- The path that a URI asks for: a file URI or a bare path, decoded and free of NUL. -/
theorem requested_eq_ok {uri decoded : Text} : requested uri = .ok decoded ↔
    schemeIs (split uri).1 "file".toList = true ∧
      (if hasFileScheme uri then percentDecodePath (split uri).2 else .ok (split uri).2) =
        .ok decoded ∧ 0 ∉ utf8 decoded := by
  unfold requested
  dsimp only
  cases hscheme : schemeIs (split uri).1 "file".toList with
  | false => simp
  | true =>
      cases hdecode : if hasFileScheme uri then percentDecodePath (split uri).2
          else .ok (split uri).2 with
      | error e => simp
      | ok d =>
          by_cases hnul : 0 ∈ utf8 d
          · simp only [Bool.not_true, Bool.false_eq_true, ite_false, hnul, ite_true, reduceCtorEq,
              true_and, false_iff, not_and, Except.ok.injEq]
            rintro rfl
            exact not_not_intro hnul
          · simp only [Bool.not_true, Bool.false_eq_true, ite_false, hnul, true_and,
              Except.ok.injEq, iff_self_and]
            rintro rfl
            exact hnul

/-- The verdict of a scope whose file system does not change, for every sequence of
calls: it depends on the set of directories alone, a call does not reach the siblings of
its directory, and a URI is resolved exactly when the path it asks for is admitted. -/
theorem unchanging_verdict (fs : Canonicalization) (permissive : Bool) (calls : List DirCall) :
    (∀ p, (configured fs permissive calls).isAllowedPath fs p = true ↔
      (permissive = true ∨
        ∃ dir, .allowDir dir ∈ calls ∧ extent fs dir <+: Path.components p) ∧
      ¬ ∃ dir, .denyDir dir ∈ calls ∧ extent fs dir <+: Path.components p) ∧
    (∀ calls', (∀ call, call ∈ calls' ↔ call ∈ calls) → ∀ p,
      (configured fs permissive calls').isAllowedPath fs p =
        (configured fs permissive calls).isAllowedPath fs p) ∧
    (∀ before call after parent name name' rest p, calls = before ++ call :: after →
      extent fs call.dir = parent ++ [.normal name] →
      Path.components p = parent ++ .normal name' :: rest → name ≠ name' →
      (configured fs permissive calls).isAllowedPath fs p =
        (configured fs permissive (before ++ after)).isAllowedPath fs p) ∧
    ∀ uri p, (configured fs permissive calls).resolve fs uri = .ok p ↔
      (schemeIs (split uri).1 "file".toList = true ∧
        ∃ decoded, (if hasFileScheme uri then percentDecodePath (split uri).2
            else .ok (split uri).2) = .ok decoded ∧
          0 ∉ utf8 decoded ∧ fs.canonicalize (utf8 decoded) = .ok p) ∧
      (configured fs permissive calls).isAllowedPath fs p = true := by
  refine ⟨isAllowedPath_configured permissive calls, ?_, ?_, ?_⟩
  · intro calls' hsame p
    rw [Bool.eq_iff_iff, isAllowedPath_configured, isAllowedPath_configured]
    simp only [hsame]
  · rintro before call after parent name name' rest p rfl hdir hp hne
    have hskip := extent_not_prefix hdir hp hne
    have hmem (c : DirCall) (hc : extent fs c.dir <+: Path.components p) :
        c ∈ before ++ call :: after ↔ c ∈ before ++ after := by
      have hother : c ≠ call := by
        rintro rfl
        exact hskip hc
      simp [hother]
    have hallow : (∃ dir, .allowDir dir ∈ before ++ call :: after ∧
        extent fs dir <+: Path.components p) ↔
        ∃ dir, .allowDir dir ∈ before ++ after ∧ extent fs dir <+: Path.components p :=
      exists_congr fun dir => and_congr_left (hmem (.allowDir dir))
    have hdeny : (∃ dir, .denyDir dir ∈ before ++ call :: after ∧
        extent fs dir <+: Path.components p) ↔
        ∃ dir, .denyDir dir ∈ before ++ after ∧ extent fs dir <+: Path.components p :=
      exists_congr fun dir => and_congr_left (hmem (.denyDir dir))
    rw [Bool.eq_iff_iff, isAllowedPath_configured, isAllowedPath_configured, hallow, hdeny]
  · intro uri p
    rw [resolve_eq_ok]
    apply and_congr_left
    intro _
    constructor
    · rintro ⟨decoded, hreq, hcanon⟩
      obtain ⟨hscheme, hdecode, hnul⟩ := requested_eq_ok.mp hreq
      exact ⟨hscheme, decoded, hdecode, hnul, hcanon⟩
    · rintro ⟨hscheme, decoded, hdecode, hnul, hcanon⟩
      exact ⟨decoded, requested_eq_ok.mpr ⟨hscheme, hdecode, hnul⟩, hcanon⟩

end FileScope

end Unchanging

end OxideSource
