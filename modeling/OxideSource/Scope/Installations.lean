import OxideSource.Core.Machine
import OxideSource.Scope.Registry

/-!
# Registries over one slot

A process builds several registries, installs scopes into them, replaces drivers and opens
URIs through them, in any order, while the file system changes. The scopes of all
registries share one slot. What an open does is decided by the last installation anywhere
in the process and by the last registration of the scheme in its registry. The registry
itself belongs to another crate; it is taken by its operations and their laws.
-/

namespace OxideSource

open Uri

/-- A type of registries, by what this crate calls on it. -/
structure RegistryApi (ρ : Type) where
  /-- `SourceRegistry::new`. -/
  new : ρ
  /-- `SourceRegistry::register_bytes`. -/
  registerBytes : ρ → Text → Opener → ρ
  /-- The opener that `SourceRegistry::open` calls for a URI. -/
  opener : ρ → Text → Option Opener

/-- The scheme of a URI as a registry looks it up, in lower case. -/
def lookupScheme (uri : Text) : Text := (split uri).1.map Char.toLower

/-- A new registry has no opener. A registration under a scheme in lower case replaces the
opener of the URIs that have this scheme in some letter case, and of no others. -/
structure RegistryApi.Lawful {ρ : Type} (api : RegistryApi ρ) : Prop where
  new : ∀ uri, api.opener api.new uri = none
  registerBytes : ∀ registry scheme opener uri, scheme.map Char.toLower = scheme →
    api.opener (api.registerBytes registry scheme opener) uri =
      if lookupScheme uri = scheme then some opener else api.opener registry uri

/-- The schemes that the crate registers. -/
inductive Driver where
  | file | mem | data | concat | slice
  deriving DecidableEq

/-- The name of a scheme. -/
def Driver.scheme : Driver → Text
  | .file => "file".toList
  | .mem => "mem".toList
  | .data => "data".toList
  | .concat => "concat".toList
  | .slice => "slice".toList

/-- The names of the schemes are in lower case. -/
theorem Driver.toLower_scheme (driver : Driver) :
    driver.scheme.map Char.toLower = driver.scheme := by
  cases driver <;> decide

namespace RegistryApi

variable {ρ : Type} (api : RegistryApi ρ)

/-- `register`, on the registry of a runtime context. -/
def register (registry : ρ) : ρ :=
  let registry := api.registerBytes registry "file".toList .openFile
  let registry := api.registerBytes registry "mem".toList .openMem
  let registry := api.registerBytes registry "data".toList .openData
  let registry := api.registerBytes registry "concat".toList .openConcat
  api.registerBytes registry "slice".toList .openSlice

/-- `with_defaults`, which makes the registrations of `register` on a new registry. -/
def withDefaults : ρ := api.register api.new

end RegistryApi

/-- A process: the slot `active` and its registries. -/
structure Host (ρ : Type) where
  active : Option FileScope
  registries : Nat → ρ

/-- What code of the process may do with registry `k`. Every open meets its own world and
file system. -/
inductive HostAction (F : Type) where
  /-- `SourceRegistry::new`. -/
  | new (k : Nat)
  /-- `with_defaults`. -/
  | withDefaults (k : Nat)
  | register (k : Nat)
  | registerBytes (k : Nat) (driver : Driver) (opener : Opener)
  /-- `FileScope::register_into`. -/
  | registerInto (k : Nat) (scope : FileScope)
  /-- `SourceRegistry::open`. -/
  | open (k : Nat) (uri : Text) (w : World F) (fs : FileSystem)

namespace Host

variable {ρ : Type} (api : RegistryApi ρ)

/-- No scope is installed and no scheme is registered. -/
def initial : Host ρ := ⟨none, fun _ => api.new⟩

/-- Registry `k` replaced. -/
def set (host : Host ρ) (k : Nat) (registry : ρ) : Host ρ :=
  { host with registries := Function.update host.registries k registry }

/-- A replaced registry is the new one, and the others are left alone. -/
theorem set_registries (host : Host ρ) (j k : Nat) (registry : ρ) :
    (host.set j registry).registries k = if j = k then registry else host.registries k := by
  by_cases h : j = k
  · subst h
    rw [if_pos rfl]
    exact Function.update_self ..
  · rw [if_neg h]
    exact Function.update_of_ne (Ne.symm h) ..

end Host

section

variable {ρ F : Type} (api : RegistryApi ρ) [Target] [ReadSeek F] (miss : Text → Error)

/-- `SourceRegistry::open` on registry `k`, where `miss` is the error for a scheme without an
opener. -/
def Host.open (host : Host ρ) (k : Nat) (uri : Text) (w : World F) (fs : FileSystem) :
    Opening (Reader F) :=
  match api.opener (host.registries k) uri with
  | some opener => opener.call w fs host.active uri
  | none => .of (.error (miss uri))

/-- One action. An open shows its outcome. -/
def Host.step (host : Host ρ) : HostAction F → Option (Host ρ × Option (Opening (Reader F)))
  | .new k => some (host.set k api.new, none)
  | .withDefaults k => some (host.set k api.withDefaults, none)
  | .register k => some (host.set k (api.register (host.registries k)), none)
  | .registerBytes k driver opener =>
      some (host.set k (api.registerBytes (host.registries k) driver.scheme opener), none)
  | .registerInto k scope =>
      let registry := api.registerBytes (host.registries k) "file".toList .openFileScoped
      some ({ host.set k registry with active := some scope }, none)
  | .open k uri w fs => some (host, some (host.open api miss k uri w fs))

/-- The process as a machine. -/
def Host.machine : Machine (Host ρ) (HostAction F) (Opening (Reader F)) := ⟨step api miss⟩

end

/-! ### What a history leaves behind -/

/-- The opener that `register` leaves for a scheme. -/
def defaultOpener (scheme : Text) : Option Opener :=
  if scheme = "slice".toList then some .openSlice
  else if scheme = "concat".toList then some .openConcat
  else if scheme = "data".toList then some .openData
  else if scheme = "mem".toList then some .openMem
  else if scheme = "file".toList then some .openFile
  else none

/-- `register` replaces the schemes of the crate and leaves the others. -/
theorem RegistryApi.Lawful.opener_register {ρ : Type} {api : RegistryApi ρ} (laws : api.Lawful)
    (registry : ρ) (uri : Text) :
    api.opener (api.register registry) uri =
      ((defaultOpener (lookupScheme uri)).map some).getD (api.opener registry uri) := by
  have hregister (registry : ρ) (scheme : Text) (opener : Opener) :=
    laws.registerBytes registry scheme opener uri
  unfold RegistryApi.register
  dsimp only
  rw [hregister _ "slice".toList _ (by decide), hregister _ "concat".toList _ (by decide),
    hregister _ "data".toList _ (by decide), hregister _ "mem".toList _ (by decide),
    hregister _ "file".toList _ (by decide), defaultOpener]
  split_ifs <;> rfl

namespace HostAction

variable {F : Type}

/-- The scope that an action puts into the slot. -/
def installs : HostAction F → Option (Option FileScope)
  | .registerInto _ scope => some (some scope)
  | _ => none

/-- What an action leaves registered for a scheme in registry `k`, when it writes there. -/
def enters (k : Nat) (scheme : Text) : HostAction F → Option (Option Opener)
  | .new j => if j = k then some none else none
  | .withDefaults j => if j = k then some (defaultOpener scheme) else none
  | .register j => if j = k then (defaultOpener scheme).map some else none
  | .registerBytes j driver opener =>
      if j = k ∧ scheme = driver.scheme then some (some opener) else none
  | .registerInto j _ =>
      if j = k ∧ scheme = "file".toList then some (some .openFileScoped) else none
  | .open .. => none

end HostAction

namespace Host

variable {F : Type}

/-- The scope in force after a history. -/
def scopeAfter (as : List (HostAction F)) : Option FileScope :=
  (as.reverse.findSome? HostAction.installs).getD none

/-- The opener of a scheme in registry `k` after a history. -/
def openerAfter (as : List (HostAction F)) (k : Nat) (scheme : Text) : Option Opener :=
  (as.reverse.findSome? (HostAction.enters k scheme)).getD none

variable {ρ : Type} {api : RegistryApi ρ} [Target] [ReadSeek F] {miss : Text → Error}
  {host host' t : Host ρ} {a : HostAction F} {o : Option (Opening (Reader F))}
  {as : List (HostAction F)} {os : List (Opening (Reader F))}

/-- The slot changes by installations alone. -/
theorem step_active (h : host.step api miss a = some (host', o)) :
    host'.active = a.installs.getD host.active := by
  cases a <;>
    · obtain ⟨rfl, _⟩ := Prod.mk.inj (Option.some.inj h)
      rfl

omit [Target] [ReadSeek F] in
/-- A registration replaces the opener of its scheme in its registry. -/
theorem opener_registered (laws : api.Lawful) (host : Host ρ) (j k : Nat) {scheme : Text}
    (hlower : scheme.map Char.toLower = scheme) (opener : Opener) (uri : Text) :
    api.opener
        ((host.set j (api.registerBytes (host.registries j) scheme opener)).registries k) uri =
      (if j = k ∧ lookupScheme uri = scheme then some (some opener) else none).getD
        (api.opener (host.registries k) uri) := by
  rw [set_registries]
  by_cases hj : j = k
  · subst hj
    rw [if_pos rfl, laws.registerBytes _ _ _ _ hlower]
    simp only [true_and]
    split <;> rfl
  · simp only [hj, false_and, ite_false, Option.getD_none]

/-- A registry changes by the actions on it, one scheme at a time. -/
theorem step_opener (laws : api.Lawful) (h : host.step api miss a = some (host', o)) (k : Nat)
    (uri : Text) : api.opener (host'.registries k) uri =
      (a.enters k (lookupScheme uri)).getD (api.opener (host.registries k) uri) := by
  cases a with
  | new j =>
      obtain ⟨rfl, _⟩ := Prod.mk.inj (Option.some.inj h)
      rw [set_registries, HostAction.enters]
      split
      · exact laws.new uri
      · rfl
  | withDefaults j =>
      obtain ⟨rfl, _⟩ := Prod.mk.inj (Option.some.inj h)
      rw [set_registries, HostAction.enters]
      split
      · rw [RegistryApi.withDefaults, laws.opener_register, laws.new]
        cases defaultOpener (lookupScheme uri) <;> rfl
      · rfl
  | register j =>
      obtain ⟨rfl, _⟩ := Prod.mk.inj (Option.some.inj h)
      rw [set_registries, HostAction.enters]
      split
      · rename_i hj
        subst hj
        exact laws.opener_register _ uri
      · rfl
  | registerBytes j driver opener =>
      obtain ⟨rfl, _⟩ := Prod.mk.inj (Option.some.inj h)
      exact opener_registered laws host j k driver.toLower_scheme opener uri
  | registerInto j scope =>
      obtain ⟨rfl, _⟩ := Prod.mk.inj (Option.some.inj h)
      exact opener_registered laws host j k Driver.file.toLower_scheme .openFileScoped uri
  | «open» j uri w fs =>
      obtain ⟨rfl, _⟩ := Prod.mk.inj (Option.some.inj h)
      rfl

/-- The slot holds the scope that was installed last. -/
theorem run_active (h : (machine api miss).run host as = some (t, os)) :
    t.active = (as.reverse.findSome? HostAction.installs).getD host.active :=
  Machine.run_lastWrite (I := fun _ => True) (fun _ hs => ⟨trivial, step_active hs⟩) trivial h

/-- A URI has the opener that was registered for its scheme last. -/
theorem run_opener (laws : api.Lawful) (h : (machine api miss).run host as = some (t, os))
    (k : Nat) (uri : Text) : api.opener (t.registries k) uri =
      (as.reverse.findSome? (HostAction.enters k (lookupScheme uri))).getD
        (api.opener (host.registries k) uri) :=
  (machine api miss).run_lastWrite (I := fun _ => True)
    (fun _ hs => ⟨trivial, step_opener laws hs k uri⟩) trivial h

/-- Why a file is opened for a URI: the scope in force resolves it, or its scheme has the
unscoped driver, or it is named inside a composite. -/
inductive Accounted (scope : Option FileScope) (opener : Option Opener) (w : World F)
    (fs : FileSystem) (uri : Text) (p : Path) : Prop where
  | admitted {s : FileScope} (hopener : opener = some .openFileScoped) (hscope : scope = some s)
      (h : s.resolve fs uri = .ok p)
  | unscoped (hopener : opener = some .openFile) (h : p ∈ (openFile w uri).opened)
  | nested {ref : Text}
      (hopener : opener = some .openConcat ∧ schemeIs (split uri).1 "concat".toList = true ∨
        opener = some .openSlice ∧ schemeIs (split uri).1 "slice".toList = true)
      (href : Relation.TransGen Part uri ref) (h : p ∈ (openFile w ref).opened)

omit [Target] [ReadSeek F] in
/-- Without a parse of the URI nothing is opened. -/
theorem exists_of_opened {α β : Type} {r : Except Error α} {f : α → Opening β} {p : Path}
    (h : p ∈ (Opening.of r >>= f).opened) : ∃ a, r = .ok a := by
  rcases Opening.mem_opened_bind.mp h with h | ⟨a, ha, _⟩
  · exact absurd h List.not_mem_nil
  · exact ⟨a, ha⟩

section

variable {scope : Option FileScope} {opener : Opener} {w : World F} {fs : FileSystem} {uri : Text}
  {p : Path} {k : Nat}

/-- Every opener accounts for what it opens. -/
theorem accounted_call (h : p ∈ (opener.call w fs scope uri).opened) :
    Accounted scope (some opener) w fs uri p := by
  have hnested (ref : Text) (hpart : Part uri ref) (hp : p ∈ (openBytes w ref).opened) :
      ∃ ref, Relation.TransGen Part uri ref ∧ p ∈ (openFile w ref).opened := by
    obtain ⟨leaf, hreach, hfile⟩ := opened_openBytes hp
    exact ⟨leaf, .head' hpart hreach, hfile⟩
  cases opener with
  | openFile => exact .unscoped rfl h
  | openFileScoped =>
      cases scope with
      | none => exact absurd h List.not_mem_nil
      | some s => exact .admitted rfl rfl (FileScope.opened_open h)
  | openMem => exact absurd h List.not_mem_nil
  | openData => exact absurd h not_mem_opened_openData
  | openConcat =>
      obtain ⟨x, hx⟩ := exists_of_opened h
      obtain ⟨part, hpart, hp⟩ := opened_openConcat h
      obtain ⟨ref, href, hfile⟩ := hnested part hpart hp
      exact .nested (.inl ⟨rfl, (ConcatUri.parse_iff.mp hx).1⟩) href hfile
  | openSlice =>
      obtain ⟨x, hx⟩ := exists_of_opened h
      obtain ⟨part, hpart, hp⟩ := opened_openSlice h
      obtain ⟨ref, href, hfile⟩ := hnested part hpart hp
      exact .nested (.inr ⟨rfl, (SliceUri.parse_eq_ok.mp hx).1⟩) href hfile

omit [Target] [ReadSeek F] in
/-- What is opened while every way around the scope is closed, the scope resolves. -/
theorem Accounted.resolved {openers : Text → Option Opener}
    (h : Accounted scope (openers (lookupScheme uri)) w fs uri p)
    (hfile : openers "file".toList ≠ some .openFile)
    (hconcat : openers "concat".toList ≠ some .openConcat)
    (hslice : openers "slice".toList ≠ some .openSlice) :
    ∃ s, scope = some s ∧ s.resolve fs uri = .ok p := by
  cases h with
  | admitted _ hscope h => exact ⟨_, hscope, h⟩
  | unscoped hopener h =>
      rw [lookupScheme, map_toLower_of_schemeIs (schemeIs_of_opened h) (by decide)] at hopener
      exact absurd hopener hfile
  | nested hopener =>
      rcases hopener with ⟨hopener, hscheme⟩ | ⟨hopener, hscheme⟩
      · rw [lookupScheme, map_toLower_of_schemeIs hscheme (by decide)] at hopener
        exact absurd hopener hconcat
      · rw [lookupScheme, map_toLower_of_schemeIs hscheme (by decide)] at hopener
        exact absurd hopener hslice

/-- After every history over registries that keep the laws, whichever of them and whichever
file systems it involved, an open through registry `k` is the call of the opener that was
registered for its scheme last, under the scope that was installed last anywhere. Every file
it opens is accounted for; and while the last registrations of `file`, `concat` and `slice`
in `k` are not the unscoped drivers, the scope resolves every file that is opened. -/
theorem every_open_governed (laws : api.Lawful)
    (h : (machine api miss).run (.initial api) as = some (t, os)) (k : Nat) (uri : Text)
    (w : World F) (fs : FileSystem) :
    t.open api miss k uri w fs =
        (openerAfter as k (lookupScheme uri)).elim (.of (.error (miss uri)))
          (fun opener => opener.call w fs (scopeAfter as) uri) ∧
      ∀ p ∈ (t.open api miss k uri w fs).opened,
        Accounted (scopeAfter as) (openerAfter as k (lookupScheme uri)) w fs uri p ∧
          (openerAfter as k "file".toList ≠ some .openFile →
            openerAfter as k "concat".toList ≠ some .openConcat →
            openerAfter as k "slice".toList ≠ some .openSlice →
            ∃ s, scopeAfter as = some s ∧ s.resolve fs uri = .ok p) := by
  have hactive : t.active = scopeAfter as := run_active h
  have hopener : api.opener (t.registries k) uri = openerAfter as k (lookupScheme uri) := by
    rw [run_opener laws h k uri, openerAfter]
    exact congrArg _ (laws.new uri)
  have hopen : t.open api miss k uri w fs =
      (openerAfter as k (lookupScheme uri)).elim (.of (.error (miss uri)))
        (fun opener => opener.call w fs (scopeAfter as) uri) := by
    rw [Host.open, hactive, hopener]
    cases openerAfter as k (lookupScheme uri) with
    | none => rfl
    | some opener => rfl
  refine ⟨hopen, fun p hp => ?_⟩
  have haccounted : Accounted (scopeAfter as) (openerAfter as k (lookupScheme uri)) w fs uri p := by
    rw [hopen] at hp
    generalize openerAfter as k (lookupScheme uri) = opener at hp
    cases opener with
    | none => exact absurd hp List.not_mem_nil
    | some opener => exact accounted_call hp
  exact ⟨haccounted, haccounted.resolved⟩

end

/-- A registry as a map from lower-case schemes. -/
def mapApi : RegistryApi SourceRegistry :=
  ⟨.new, .registerBytes, fun registry uri => registry.openers (lookupScheme uri)⟩

omit [Target] in
/-- A map keeps the laws of a registry. -/
theorem mapApi_lawful : mapApi.Lawful :=
  ⟨fun _ => rfl, fun _ _ _ _ _ => rfl⟩

/-- An empty scope over the defaults of one registry, then a permissive one in another. -/
def overridden : List (HostAction Cursor) :=
  [.withDefaults 0, .registerInto 0 .new, .new 1, .registerInto 1 .newPermissive]

omit [Target] in
/-- The second installation also opens the first registry. -/
theorem every_open_governed_overridden :
    letI := target64
    ∃ t os, (machine mapApi fun _ => .unsupported []).run (.initial mapApi) overridden =
        some (t, os) ∧
      (t.open mapApi (fun _ => .unsupported []) 0 "/p".toList oneByte
        FileScope.oneFile).opened = [utf8 "/p".toList] := by
  let := target64
  have hrun : ∃ t os, (machine mapApi fun _ => .unsupported []).run (.initial mapApi) overridden =
      some (t, os) := ⟨_, _, rfl⟩
  obtain ⟨t, os, hrun⟩ := hrun
  refine ⟨t, os, hrun, ?_⟩
  rw [(every_open_governed mapApi_lawful hrun 0 "/p".toList oneByte FileScope.oneFile).1]
  decide +kernel

end Host

end OxideSource
