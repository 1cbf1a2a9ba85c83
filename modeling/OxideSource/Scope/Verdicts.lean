import OxideSource.Scope.History

/-!
# What a configured scope admits

Two promises of a scope, each with the condition under which the code keeps it. A path
that is admitted lies under the location of an allow call, unless only roots that
resolve at neither time cover it, by their spelling. A path under the location of a deny
call is refused, unless the call was dropped for an unequal entry of the same path.
-/

namespace OxideSource

/-- A directory configured at `past` has a physical location at `now`, and `p` lies under
it. -/
def UnderLocation (past now : Canonicalization) (dir p : Path) : Prop :=
  ∃ loc, location past now dir = some loc ∧ Path.Under loc p

/-- A call that has a location over `p` made an entry that covers `p`. -/
theorem UnderLocation.covers {past now : Canonicalization} {dir p : Path}
    (h : UnderLocation past now dir p) : (Root.new past dir).covers now p = true := by
  obtain ⟨loc, hloc, hp⟩ := h
  exact (Root.covers_of_location hloc).mpr hp

/-- An entry with a location is not one that resolves at neither time. -/
theorem UnderLocation.resolved {past now : Canonicalization} {dir p : Path}
    (h : UnderLocation past now dir p) : ¬ (Root.new past dir).Unresolved now := by
  rintro ⟨hpinned, e, he⟩
  obtain ⟨loc, hloc, _⟩ := h
  cases hpast : past.canonicalize dir with
  | ok c =>
      rw [Root.new_of_ok hpast] at hpinned
      cases hpinned
  | error e' =>
      rw [Root.new_of_error hpast] at he
      rw [location, hpast, show now.canonicalize dir = .error e from he] at hloc
      cases hloc

namespace FileScope

/-! ### Allow roots -/

/-- Some allow call has a physical location, and `p` lies under it. -/
def UnderAllowed (calls : List ScopeCall) (now : Canonicalization) (p : Path) : Prop :=
  ∃ fs dir, .allowDir fs dir ∈ calls ∧ UnderLocation fs now dir p

/-- An allow call over `p` was dropped for an unequal entry of the same path. -/
def AllowDropped (start : FileScope) (calls : List ScopeCall) (now : Canonicalization)
    (p : Path) : Prop :=
  ∃ before fs dir after, calls = before ++ .allowDir fs dir :: after ∧
    UnderLocation fs now dir p ∧ Dropped (start.build before).roots (Root.new fs dir)

/-- Some allow root that resolves at neither time covers `p` by its spelling, and no other
allow root covers it. -/
def OnlySpelled (scope : FileScope) (now : Canonicalization) (p : Path) : Prop :=
  (∃ r ∈ scope.roots, r.Unresolved now ∧ Path.Under r.path p) ∧
    ∀ r ∈ scope.roots, r.covers now p = true → r.Unresolved now

variable {calls : List ScopeCall} {now : Canonicalization} {p : Path}

/-- What is allow-listed lies under the location of an allow call, or only the spelling of
roots covers it. -/
theorem allowListed_cases (h : (new.build calls).isAllowListed now p = true) :
    UnderAllowed calls now p ∨ OnlySpelled (new.build calls) now p := by
  have hperm : (new.build calls).permissive = false := permissive_build new calls
  rw [isAllowListed, hperm, if_neg Bool.false_ne_true] at h
  by_cases hall : ∀ r ∈ (new.build calls).roots, r.covers now p = true → r.Unresolved now
  · obtain ⟨r, hr, hcovers⟩ := List.any_eq_true.mp h
    have hunresolved := hall r hr hcovers
    exact .inr ⟨⟨r, hr, hunresolved, (Root.covers_unresolved hunresolved).mp hcovers⟩, hall⟩
  · simp only [not_forall] at hall
    obtain ⟨r, hr, hcovers, hresolved⟩ := hall
    rcases mem_roots_build hr with hnil | ⟨fs, dir, hcall, rfl⟩
    · cases hnil
    · cases hloc : location fs now dir with
      | some loc =>
          exact .inl ⟨fs, dir, hcall, loc, hloc, (Root.covers_of_location hloc).mp hcovers⟩
      | none => exact absurd (Root.unresolved_of_location hloc) hresolved

/-- A path covered by the spelling of a root is allow-listed. -/
theorem OnlySpelled.allowListed {scope : FileScope} (h : OnlySpelled scope now p) :
    scope.isAllowListed now p = true := by
  obtain ⟨⟨r, hr, hunresolved, hspell⟩, _⟩ := h
  have hany : scope.roots.any (fun root => root.covers now p) = true := by
    rw [List.any_eq_true]
    exact ⟨r, hr, (Root.covers_unresolved hunresolved).mpr hspell⟩
  rw [isAllowListed, hany]
  split
  · rfl
  · rfl

/-- A path that only spellings cover lies under no allow call, but for dropped ones. -/
theorem OnlySpelled.not_underAllowed {start : FileScope}
    (h : OnlySpelled (start.build calls) now p) (hkept : ¬ AllowDropped start calls now p) :
    ¬ UnderAllowed calls now p := by
  rintro ⟨fs, dir, hcall, hunder⟩
  rcases allow_kept_or_dropped start hcall with hmem | ⟨before, after, heq, hdropped⟩
  · exact hunder.resolved (h.2 _ hmem hunder.covers)
  · exact hkept ⟨before, fs, dir, after, heq, hunder, hdropped⟩

/-- For every history and every request: where no path that is requested and not denied
is covered by the spelling of unresolved roots only, what is resolved lies under the
location of an allow call. Conversely, where such a path lies under no allow call that
was dropped, it is resolved under none. The roots concerned are spelled as no ancestor of
the path is: they are empty, or have a slash or a dot too many. -/
theorem resolve_underAllowed (calls : List ScopeCall) (now : FileSystem) (uri : Text) :
    ((∀ p, Requests now uri p → (new.build calls).isDenied now p = false →
        ¬ OnlySpelled (new.build calls) now p) →
      ∀ p, (new.build calls).resolve now uri = .ok p → UnderAllowed calls now p) ∧
    (∀ p, Requests now uri p → (new.build calls).isDenied now p = false →
      OnlySpelled (new.build calls) now p → ¬ AllowDropped new calls now p →
        (new.build calls).resolve now uri = .ok p ∧ ¬ UnderAllowed calls now p) ∧
    ∀ p, Requests now uri p → ∀ r ∈ (new.build calls).roots, r.Unresolved now →
      r.path ∉ Path.ancestors p := by
  refine ⟨?_, ?_, ?_⟩
  · intro h p hresolve
    obtain ⟨hreq, hallowed⟩ := resolve_eq_ok.mp hresolve
    obtain ⟨hdeny, hlisted⟩ := isAllowedPath_iff.mp hallowed
    exact (allowListed_cases hlisted).resolve_right (h p hreq hdeny)
  · intro p hreq hdeny hspelled hkept
    have hallowed := isAllowedPath_iff.mpr ⟨hdeny, hspelled.allowListed⟩
    exact ⟨resolve_eq_ok.mpr ⟨hreq, hallowed⟩, hspelled.not_underAllowed hkept⟩
  · rintro p ⟨decoded, _, hcanon⟩ r _ hunresolved
    exact hunresolved.not_ancestor hcanon

/-- A file system with one file. -/
def oneFile : FileSystem :=
  .ofTable [(utf8 "/".toList, utf8 "/".toList), (utf8 "/p".toList, utf8 "/p".toList)]
    (by decide +kernel)

/-- An empty allow root has no location and admits every file. -/
theorem empty_root_admits :
    ∃ (calls : List ScopeCall) (uri : Text) (p : Path), calls = [.allowDir oneFile []] ∧
      (new.build calls).resolve oneFile uri = .ok p ∧ ¬ UnderAllowed calls oneFile p := by
  refine ⟨[.allowDir oneFile []], "/p".toList, utf8 "/p".toList, rfl, by decide +kernel, ?_⟩
  rintro ⟨fs, dir, hcall, loc, hloc, _⟩
  obtain ⟨rfl, rfl⟩ : fs = oneFile ∧ dir = [] := by simpa using hcall
  have hnone : location oneFile oneFile [] = none := by decide +kernel
  rw [hnone] at hloc
  cases hloc

/-! ### Deny roots -/

/-- What is not allowed is never resolved. -/
theorem resolve_ne_ok {scope : FileScope} (h : scope.isAllowedPath now p = false) (uri : Text) :
    scope.resolve now uri ≠ .ok p := by
  intro hresolve
  rw [(resolve_eq_ok.mp hresolve).2] at h
  cases h

/-- A deny call over `p` was dropped for an unequal entry of the same path. -/
def DenyDropped (start : FileScope) (calls : List ScopeCall) (now : Canonicalization)
    (p : Path) : Prop :=
  ∃ before fs dir after, calls = before ++ .denyDir fs dir :: after ∧
    UnderLocation fs now dir p ∧ Dropped (start.build before).denies (Root.new fs dir)

/-- Under the location of a deny call a path is denied, unless such a call was dropped. -/
theorem denied_of_kept {start : FileScope} (hkept : ¬ DenyDropped start calls now p)
    {fs : Canonicalization} {dir : Path} (hcall : .denyDir fs dir ∈ calls)
    (hunder : UnderLocation fs now dir p) : (start.build calls).isDenied now p = true := by
  rcases deny_kept_or_dropped start hcall with hmem | ⟨before, after, heq, hdropped⟩
  · rw [isDenied, List.any_eq_true]
    exact ⟨_, hmem, hunder.covers⟩
  · exact absurd ⟨before, fs, dir, after, heq, hunder, hdropped⟩ hkept

/-- For every history from either constructor, every check and every path over which no
deny call was dropped: the path is refused under the location of each deny call. -/
theorem denied_everywhere {permissive : Bool}
    (hkept : ¬ DenyDropped ⟨[], [], permissive⟩ calls now p) {fs : Canonicalization} {dir : Path}
    (hcall : .denyDir fs dir ∈ calls) (hunder : UnderLocation fs now dir p) :
    (build ⟨[], [], permissive⟩ calls).isAllowedPath now p = false ∧
      ∀ uri, (build ⟨[], [], permissive⟩ calls).resolve now uri ≠ .ok p := by
  have hrefused : (build ⟨[], [], permissive⟩ calls).isAllowedPath now p = false := by
    rw [isAllowedPath, denied_of_kept hkept hcall hunder]
    rfl
  exact ⟨hrefused, resolve_ne_ok hrefused⟩

/-- A directory, its absence, and a link to another directory in its place. -/
def present : FileSystem :=
  .ofTable [(utf8 "/".toList, utf8 "/".toList), (utf8 "/x".toList, utf8 "/x".toList)]
    (by decide +kernel)

@[inherit_doc present]
def absent : FileSystem :=
  .ofTable [(utf8 "/".toList, utf8 "/".toList)] (by decide +kernel)

@[inherit_doc present]
def linked : FileSystem :=
  .ofTable [(utf8 "/".toList, utf8 "/".toList), (utf8 "/x".toList, utf8 "/y".toList),
    (utf8 "/y".toList, utf8 "/y".toList), (utf8 "/y/s".toList, utf8 "/y/s".toList)]
    (by decide +kernel)

/-- A deny call made while its directory is absent denies the place that a link leads to
later. -/
theorem denied_everywhere_linked :
    (newPermissive.build [.denyDir absent (utf8 "/x".toList)]).isAllowedPath linked
        (utf8 "/y/s".toList) = false ∧
      ∀ uri, (newPermissive.build [.denyDir absent (utf8 "/x".toList)]).resolve linked uri ≠
        .ok (utf8 "/y/s".toList) := by
  have hunder : Path.underRoot (utf8 "/y".toList) (utf8 "/y/s".toList) = true := by decide +kernel
  have hloc : location absent linked (utf8 "/x".toList) = some (utf8 "/y".toList) := by
    decide +kernel
  refine denied_everywhere ?_ (List.mem_singleton.mpr rfl)
    ⟨utf8 "/y".toList, hloc, Path.underRoot_iff.mp hunder⟩
  rintro ⟨before, fs, dir, after, heq, _, hlisted, _⟩
  cases before with
  | nil => cases hlisted
  | cons call before => simp at heq

/-- The second of two equal deny calls is dropped, although it alone would have
followed the directory to its new place. -/
theorem dropped_deny_admits :
    ∃ (calls : List ScopeCall) (uri : Text) (p : Path),
      calls = [.denyDir present (utf8 "/x".toList), .denyDir absent (utf8 "/x".toList)] ∧
        UnderLocation absent linked (utf8 "/x".toList) p ∧
        (newPermissive.build calls).isAllowedPath linked p = true ∧
        (newPermissive.build calls).resolve linked uri = .ok p := by
  have hunder : Path.underRoot (utf8 "/y".toList) (utf8 "/y/s".toList) = true := by decide +kernel
  refine ⟨_, "/y/s".toList, utf8 "/y/s".toList, rfl, ⟨utf8 "/y".toList, ?_, ?_⟩, ?_, ?_⟩
  · decide +kernel
  · exact Path.underRoot_iff.mp hunder
  · decide +kernel
  · decide +kernel

end FileScope

end OxideSource
