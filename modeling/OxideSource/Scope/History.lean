import OxideSource.Scope.FileScope

/-!
# Scopes over time

A scope is configured call by call against file systems that change in between, and
consulted against yet another one. The physical location of a configured directory
is where it was when the call found it, and otherwise where it is at the check. Both
lists are compared with these locations: where an allow root falls back to its
spelling, and which deny root a duplicate path drops.
-/

namespace OxideSource

open Uri

/-- A configuration call, with the file system it meets. -/
inductive ScopeCall where
  | allowDir (fs : Canonicalization) (dir : Path)
  | denyDir (fs : Canonicalization) (dir : Path)

namespace FileScope

/-- Perform one configuration call. -/
def configure (scope : FileScope) : ScopeCall → FileScope
  | .allowDir fs dir => scope.allowDir fs dir
  | .denyDir fs dir => scope.denyDir fs dir

/-- The scope that a history of calls builds. -/
def build (start : FileScope) (calls : List ScopeCall) : FileScope := calls.foldl configure start

end FileScope

/-- The physical location of a directory configured at `past`, seen from `now`. -/
def location (past now : Canonicalization) (dir : Path) : Option Path :=
  match past.canonicalize dir with
  | .ok c => some c
  | .error _ =>
      match now.canonicalize dir with
      | .ok c => some c
      | .error _ => none

/-- The root resolved neither at insertion nor now. -/
def Root.Unresolved (now : Canonicalization) (r : Root) : Prop :=
  r.pinned = false ∧ ∃ e, now.canonicalize r.path = .error e

section Coverage

variable {past now : Canonicalization} {dir p : Path}

theorem Root.new_of_ok {c : Path} (h : past.canonicalize dir = .ok c) :
    Root.new past dir = ⟨c, true⟩ := by
  rw [Root.new, h]

theorem Root.new_of_error {e : IoError} (h : past.canonicalize dir = .error e) :
    Root.new past dir = ⟨dir, false⟩ := by
  rw [Root.new, h]

/-- An entry covers what lies under its location. -/
theorem Root.covers_of_location {loc : Path} (h : location past now dir = some loc) :
    (Root.new past dir).covers now p = true ↔ Path.Under loc p := by
  rw [← Path.underRoot_iff]
  cases hpast : past.canonicalize dir with
  | ok c =>
      rw [location, hpast] at h
      obtain rfl := Option.some.inj h
      rw [Root.new_of_ok hpast]
      rfl
  | error e =>
      rw [Root.new_of_error hpast]
      cases hnow : now.canonicalize dir with
      | ok c =>
          rw [location, hpast, hnow] at h
          obtain rfl := Option.some.inj h
          simp only [Root.covers, Bool.false_eq_true, ite_false, hnow]
      | error e' =>
          rw [location, hpast, hnow] at h
          cases h

/-- An entry without a location is one that resolves at neither time. -/
theorem Root.unresolved_of_location (h : location past now dir = none) :
    (Root.new past dir).Unresolved now := by
  cases hpast : past.canonicalize dir with
  | ok c =>
      rw [location, hpast] at h
      cases h
  | error e =>
      rw [Root.new_of_error hpast]
      cases hnow : now.canonicalize dir with
      | ok c =>
          rw [location, hpast, hnow] at h
          cases h
      | error e' => exact ⟨rfl, e', hnow⟩

/-- Such an entry covers what its spelling covers. -/
theorem Root.covers_unresolved {r : Root} (h : r.Unresolved now) :
    r.covers now p = true ↔ Path.Under r.path p := by
  rw [← Path.underRoot_iff]
  obtain ⟨hpinned, e, he⟩ := h
  simp only [Root.covers, hpinned, Bool.false_eq_true, ite_false, he]

end Coverage

/-- A root that falls back is spelled as no ancestor of a canonical path: it is empty,
or has a slash or a dot too many. -/
theorem Root.Unresolved.not_ancestor {now : FileSystem} {dir p : Path} {r : Root}
    (h : r.Unresolved now) (hp : now.canonicalize dir = .ok p) : r.path ∉ Path.ancestors p := by
  intro hmem
  obtain ⟨_, e, he⟩ := h
  rw [now.ancestors hp _ hmem] at he
  cases he

namespace FileScope

/-! ### What the lists hold -/

@[simp] theorem permissive_configure (scope : FileScope) (call : ScopeCall) :
    (scope.configure call).permissive = scope.permissive := by
  cases call with
  | allowDir fs dir =>
      rw [configure, allowDir]
      split <;> rfl
  | denyDir fs dir =>
      rw [configure, denyDir]
      split <;> rfl

/-- No call changes the constructor's choice. -/
theorem permissive_build (start : FileScope) (calls : List ScopeCall) :
    (start.build calls).permissive = start.permissive := by
  induction calls generalizing start with
  | nil => rfl
  | cons call calls ih => exact (ih _).trans (permissive_configure start call)

/-- A call adds at most the root of its own directory. -/
theorem mem_roots_configure {scope : FileScope} {call : ScopeCall} {r : Root}
    (h : r ∈ (scope.configure call).roots) :
    r ∈ scope.roots ∨ ∃ fs dir, call = .allowDir fs dir ∧ r = Root.new fs dir := by
  cases call with
  | allowDir fs dir =>
      rw [configure, allowDir] at h
      split at h
      · rcases List.mem_append.mp h with h | h
        · exact .inl h
        · exact .inr ⟨fs, dir, rfl, List.mem_singleton.mp h⟩
      · exact .inl h
  | denyDir fs dir =>
      rw [configure, denyDir] at h
      split at h
      · exact .inl h
      · exact .inl h

/-- Every allow root was configured by a call of the history. -/
theorem mem_roots_build {start : FileScope} {calls : List ScopeCall} {r : Root}
    (h : r ∈ (start.build calls).roots) :
    r ∈ start.roots ∨ ∃ fs dir, .allowDir fs dir ∈ calls ∧ r = Root.new fs dir := by
  induction calls generalizing start with
  | nil => exact .inl h
  | cons call calls ih =>
      rcases ih h with h | ⟨fs, dir, hmem, hr⟩
      · rcases mem_roots_configure h with h | ⟨fs, dir, rfl, hr⟩
        · exact .inl h
        · exact .inr ⟨fs, dir, List.mem_cons_self, hr⟩
      · exact .inr ⟨fs, dir, List.mem_cons_of_mem _ hmem, hr⟩

/-- No call removes an allow root. -/
theorem mem_roots_of_mem {scope : FileScope} {r : Root} (h : r ∈ scope.roots)
    (call : ScopeCall) : r ∈ (scope.configure call).roots := by
  cases call with
  | allowDir fs dir =>
      rw [configure, allowDir]
      split
      · exact List.mem_append_left _ h
      · exact h
  | denyDir fs dir =>
      rw [configure, denyDir]
      split
      · exact h
      · exact h

/-- No call removes a deny root. -/
theorem mem_denies_of_mem {scope : FileScope} {r : Root} (h : r ∈ scope.denies)
    (call : ScopeCall) : r ∈ (scope.configure call).denies := by
  cases call with
  | allowDir fs dir =>
      rw [configure, allowDir]
      split
      · exact h
      · exact h
  | denyDir fs dir =>
      rw [configure, denyDir]
      split
      · exact List.mem_append_left _ h
      · exact h

/-! ### What a call adds -/

/-- The call that made this entry dropped it, since an unequal one of the same path was
listed: one found at another time, or spelled differently. -/
def Dropped (entries : List Root) (root : Root) : Prop :=
  listed entries root = true ∧ root ∉ entries

section

variable {entries : FileScope → List Root} {start : FileScope} {calls : List ScopeCall}
  {r : Root}

/-- What no call removes stays to the end. -/
theorem mem_build_of_mem
    (hkeep : ∀ {scope r}, r ∈ entries scope → ∀ call, r ∈ entries (configure scope call))
    (h : r ∈ entries start) (calls : List ScopeCall) : r ∈ entries (start.build calls) := by
  induction calls generalizing start with
  | nil => exact h
  | cons call calls ih => exact ih (hkeep h call)

/-- The entry of a call is listed at the end, unless the call dropped it. -/
theorem kept_or_dropped {call : ScopeCall}
    (hkeep : ∀ {scope r}, r ∈ entries scope → ∀ call, r ∈ entries (configure scope call))
    (hadd : ∀ scope, listed (entries scope) r = false → r ∈ entries (scope.configure call))
    (hcall : call ∈ calls) :
    r ∈ entries (start.build calls) ∨ ∃ before after, calls = before ++ call :: after ∧
      Dropped (entries (start.build before)) r := by
  obtain ⟨before, after, rfl⟩ := List.append_of_mem hcall
  have hbuild : start.build (before ++ call :: after) =
      ((start.build before).configure call).build after := by
    rw [build, List.foldl_append]
    rfl
  by_cases hmem : r ∈ entries (start.build before)
  · left
    rw [hbuild]
    exact mem_build_of_mem hkeep (hkeep hmem call) after
  · cases hlisted : listed (entries (start.build before)) r with
    | true => exact .inr ⟨before, after, rfl, hlisted, hmem⟩
    | false =>
        left
        rw [hbuild]
        exact mem_build_of_mem hkeep (hadd _ hlisted) after

variable {fs : Canonicalization} {dir : Path}

/-- The root of an allow call is listed at the end, unless the call dropped it. -/
theorem allow_kept_or_dropped (start : FileScope) (hcall : .allowDir fs dir ∈ calls) :
    Root.new fs dir ∈ (start.build calls).roots ∨
      ∃ before after, calls = before ++ .allowDir fs dir :: after ∧
        Dropped (start.build before).roots (Root.new fs dir) := by
  apply kept_or_dropped mem_roots_of_mem _ hcall
  intro scope hlisted
  rw [configure, allowDir, hlisted]
  exact List.mem_append_right _ (List.mem_singleton.mpr rfl)

/-- The root of a deny call is listed at the end, unless the call dropped it. -/
theorem deny_kept_or_dropped (start : FileScope) (hcall : .denyDir fs dir ∈ calls) :
    Root.new fs dir ∈ (start.build calls).denies ∨
      ∃ before after, calls = before ++ .denyDir fs dir :: after ∧
        Dropped (start.build before).denies (Root.new fs dir) := by
  apply kept_or_dropped mem_denies_of_mem _ hcall
  intro scope hlisted
  rw [configure, denyDir, hlisted]
  exact List.mem_append_right _ (List.mem_singleton.mpr rfl)

end

end FileScope

end OxideSource
