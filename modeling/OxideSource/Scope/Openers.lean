import OxideSource.Scope.FileScope
import OxideSource.Uri.Named

/-!
# Two openers, one path

`open_file` and `FileScope::resolve` read the path off a URI independently. They reject
the same URIs and take the same path from the others, so where opening goes by canonical
form a permissive scope opens what `open_file` opens.
-/

namespace OxideSource

namespace Uri

/-- The URIs that name no path, with the error of `open_file` and that of `resolve`. -/
inductive Rejects (uri : Text) : Error → Error → Prop
  | scheme {scheme rest : Text} (hsplit : Explicit uri scheme rest)
      (hfile : schemeIs scheme "file".toList = false) :
      Rejects uri (.invalid ["file driver invoked on non-file URI: ", .text uri])
        (.invalid ["FileScope cannot resolve non-file URI: ", .text uri])
  /-- A bad escape: the rest spells nothing. -/
  | escape {scheme rest : Text} {e : Error} (hsplit : Explicit uri scheme rest)
      (hfile : schemeIs scheme "file".toList = true)
      (hnone : ∀ d, ¬ Spelling d (utf8 (stripSlashes rest)))
      (he : percentDecodeBytes (stripSlashes rest) = .error e) : Rejects uri e e
  /-- The rest spells bytes that are not UTF-8. -/
  | encoding {scheme rest : Text} {d : Bytes} (hsplit : Explicit uri scheme rest)
      (hfile : schemeIs scheme "file".toList = true)
      (hd : Spelling d (utf8 (stripSlashes rest))) (hp : ∀ p, utf8 p ≠ d) :
      Rejects uri (.invalid ["percent-decoded path is not valid UTF-8: ", .utf8Error d])
        (.invalid ["percent-decoded path is not valid UTF-8: ", .utf8Error d])

/-- Every URI is rejected or names a path. -/
theorem rejects_or_names (uri : Text) : (∃ e e', Rejects uri e e') ∨ ∃ p, Names uri p := by
  by_cases hbare : ∀ scheme rest, ¬ Explicit uri scheme rest
  · exact .inr ⟨uri, .bare hbare⟩
  simp only [not_forall, not_not] at hbare
  obtain ⟨scheme, rest, hsplit⟩ := hbare
  cases hfile : schemeIs scheme "file".toList with
  | false => exact .inl ⟨_, _, .scheme hsplit hfile⟩
  | true =>
      cases hbytes : percentDecodeBytes (stripSlashes rest) with
      | error e =>
          have hnone := percentDecodeBytes_eq_error.mp ⟨e, hbytes⟩
          exact .inl ⟨e, e, .escape hsplit hfile hnone hbytes⟩
      | ok d =>
          have hd := percentDecodeBytes_eq_ok.mp hbytes
          by_cases htext : ∃ p, utf8 p = d
          · obtain ⟨p, rfl⟩ := htext
            exact .inr ⟨p, .explicit hsplit hfile hd⟩
          · rw [not_exists] at htext
            exact .inl ⟨_, _, .encoding hsplit hfile hd htext⟩

/-! ### Reading the path -/

section Openers

variable {uri : Text}

/-- `open_file` rejects with the first error. -/
theorem Rejects.openFile {e e' : Error} (h : Rejects uri e e') {F : Type} (w : World F) :
    openFile w uri = .of (.error e) := by
  cases h with
  | scheme hsplit hfile =>
      simp only [OxideSource.openFile, hsplit.split_eq, hfile, Bool.not_false, ite_true]
  | escape hsplit hfile hnone he =>
      exact hsplit.openFile_error hfile (percentDecodePath_of_bytes_error he) w
  | encoding hsplit hfile hd hp =>
      exact hsplit.openFile_error hfile (percentDecodePath_of_not_text hd hp) w

/-- `resolve` rejects with the second. -/
theorem Rejects.requested {e e' : Error} (h : Rejects uri e e') :
    FileScope.requested uri = .error e' := by
  unfold FileScope.requested
  cases h with
  | scheme hsplit hfile =>
      simp only [hsplit.split_eq, hfile, Bool.not_false, ite_true]
  | escape hsplit hfile hnone he =>
      simp only [hsplit.split_eq, hfile, Bool.not_true, Bool.false_eq_true, ite_false,
        hsplit.hasFileScheme hfile, ite_true, percentDecodePath_of_bytes_error he]
  | encoding hsplit hfile hd hp =>
      simp only [hsplit.split_eq, hfile, Bool.not_true, Bool.false_eq_true, ite_false,
        hsplit.hasFileScheme hfile, ite_true, percentDecodePath_of_not_text hd hp]

/-- `resolve` requests it, unless it holds a NUL. -/
theorem Names.requested {p : Text} (h : Names uri p) :
    FileScope.requested uri =
      if 0 ∈ utf8 p then .error (.invalid ["file path contains NUL byte"]) else .ok p := by
  unfold FileScope.requested
  cases h with
  | explicit hsplit hfile hp =>
      simp only [hsplit.split_eq, hfile, Bool.not_true, Bool.false_eq_true, ite_false,
        hsplit.hasFileScheme hfile, ite_true, percentDecodePath_eq_ok.mpr hp]
  | bare hbare =>
      have hfile : schemeIs "file".toList "file".toList = true := eqIgnoreAsciiCase_self _
      simp only [split_of_bare hbare, hfile, Bool.not_true, Bool.false_eq_true, ite_false,
        not_hasFileScheme hbare]

end Openers

end Uri

/-! ### Opening through the permissive scope -/

open Uri

/-- Opening a path succeeds exactly when the path has a canonical form whose opening
yields the same file. -/
def OpensCanonical {F : Type} (w : World F) (fs : Canonicalization) : Prop :=
  ∀ p f, w.openFile p = .ok f ↔ ∃ c, fs.canonicalize p = .ok c ∧ w.openFile c = .ok f

section

variable {F : Type} {w : World F} {fs : Canonicalization}

/-- The permissive scope resolves what has a canonical form. -/
theorem resolve_permissive {uri : Text} {c : Path} :
    FileScope.newPermissive.resolve fs uri = .ok c ↔ FileScope.Requests fs uri c := by
  have hallowed : FileScope.newPermissive.isAllowedPath fs c = true := rfl
  rw [FileScope.resolve_eq_ok, hallowed, eq_self_iff_true, and_true]

/-- The scope opens the file at the canonical path. -/
theorem open_permissive_eq_ok {uri : Text} {x : Reader F} :
    (FileScope.newPermissive.open w fs uri).result = .ok x ↔
      ∃ c f, FileScope.Requests fs uri c ∧ w.openFile c = .ok f ∧ x = .file f := by
  have hpure (f : F) : (pure (Reader.file f) : Opening (Reader F)).result = .ok x ↔
      x = .file f := by
    change Except.ok (Reader.file f) = .ok x ↔ _
    rw [Except.ok.injEq, eq_comm]
  unfold FileScope.open
  simp only [Opening.bind_eq_ok, World.open_eq_ok, hpure]
  simp only [Opening.of, resolve_permissive]
  constructor
  · rintro ⟨c, hc, f, hf, hx⟩
    exact ⟨c, f, hc, hf, hx⟩
  · rintro ⟨c, f, hc, hf, hx⟩
    exact ⟨c, hc, f, hf, hx⟩

/-- Where the named path holds no NUL, the permissive scope and `open_file` open the same
file or fail together. -/
theorem open_permissive_iff (h : OpensCanonical w fs) {uri : Text}
    (hnul : ∀ p, Names uri p → 0 ∉ utf8 p) (x : Reader F) :
    (FileScope.newPermissive.open w fs uri).result = .ok x ↔ (openFile w uri).result = .ok x := by
  rw [open_permissive_eq_ok]
  obtain ⟨e, e', hrejects⟩ | ⟨p, hnames⟩ := rejects_or_names uri
  · -- Both fail before they touch the file system.
    rw [hrejects.openFile w]
    simp [FileScope.Requests, hrejects.requested, Opening.of]
  · have hrequested : FileScope.requested uri = .ok p := by
      rw [hnames.requested, if_neg (hnul p hnames)]
    rw [hnames.openFile w, Opening.bind_eq_ok]
    simp only [World.open_eq_ok]
    constructor
    · rintro ⟨c, f, ⟨decoded, hdecoded, hcanon⟩, hf, rfl⟩
      obtain rfl : p = decoded := Except.ok.inj (hrequested.symm.trans hdecoded)
      exact ⟨f, (h _ f).mpr ⟨c, hcanon, hf⟩, rfl⟩
    · rintro ⟨f, hf, hx⟩
      obtain ⟨c, hcanon, hc⟩ := (h _ f).mp hf
      exact ⟨c, f, ⟨p, hrequested, hcanon⟩, hc, (Except.ok.inj hx).symm⟩

end

/-- The byte test and the splitter agree on explicit `file` schemes. The two openers
reject the same URIs and take the same path from the others, so where opening goes by
canonical form the permissive scope opens what `open_file` opens. -/
theorem openers_agree :
    (∀ uri, (hasFileScheme uri = true ↔
        ∃ scheme rest, Explicit uri scheme rest ∧ schemeIs scheme "file".toList = true) ∧
      (∀ scheme rest, Explicit uri scheme rest → split uri = (scheme, stripSlashes rest)) ∧
      ((∀ scheme rest, ¬ Explicit uri scheme rest) → split uri = ("file".toList, uri))) ∧
    (∀ uri, ((∃ e e', Rejects uri e e') ∨ ∃ p, Names uri p) ∧
      (∀ e e', Rejects uri e e' →
        (∀ (F : Type) (w : World F), openFile w uri = .of (.error e)) ∧
          ∀ (scope : FileScope) (fs : Canonicalization), scope.resolve fs uri = .error e') ∧
      ∀ p, Names uri p →
        (∀ (F : Type) (w : World F),
          openFile w uri = w.open (utf8 p) >>= fun f => pure (.file f)) ∧
        (FileScope.requested uri =
          if 0 ∈ utf8 p then .error (.invalid ["file path contains NUL byte"]) else .ok p) ∧
        ∀ (scope : FileScope) (fs : Canonicalization) (c : Path), scope.resolve fs uri = .ok c ↔
          0 ∉ utf8 p ∧ fs.canonicalize (utf8 p) = .ok c ∧ scope.isAllowedPath fs c = true) ∧
    ∀ (F : Type) (w : World F) (fs : Canonicalization), OpensCanonical w fs →
      ∀ uri, (∀ p, Names uri p → 0 ∉ utf8 p) → ∀ x,
        (FileScope.newPermissive.open w fs uri).result = .ok x ↔
          (openFile w uri).result = .ok x := by
  refine ⟨fun uri => ⟨hasFileScheme_iff, fun _ _ h => h.split_eq, split_of_bare⟩, fun uri => ?_,
    fun F w fs h uri hnul => open_permissive_iff h hnul⟩
  refine ⟨rejects_or_names uri, fun e e' h => ?_, fun p h => ?_⟩
  · refine ⟨fun F w => h.openFile w, fun scope fs => ?_⟩
    simp only [FileScope.resolve, h.requested]
  · refine ⟨fun F w => h.openFile w, h.requested, fun scope fs c => ?_⟩
    rw [FileScope.resolve_eq_ok, FileScope.Requests, h.requested]
    by_cases hnul : 0 ∈ utf8 p <;> simp [hnul]

/-- Opening through the canonical form. -/
def World.canonical {F : Type} (fs : Canonicalization) (contents : Path → IoResult F) : World F where
  openFile p := fs.canonicalize p >>= contents
  mem _ := none

theorem World.canonical_opens {F : Type} (fs : Canonicalization) (contents : Path → IoResult F) :
    OpensCanonical (World.canonical fs contents) fs := by
  intro p f
  unfold World.canonical
  dsimp only
  cases hp : fs.canonicalize p with
  | error e => simp [bind, Except.bind]
  | ok c => simp [bind, Except.bind, fs.fixed hp]

/-- A file and a link to it. -/
def linked : FileSystem :=
  .ofTable [(utf8 "/".toList, utf8 "/".toList), (utf8 "/a b".toList, utf8 "/a b".toList),
    (utf8 "/l".toList, utf8 "/a b".toList)] (by decide +kernel)

theorem openers_agree_linked :
    (FileScope.newPermissive.open (.canonical linked fun _ => .ok 7) linked
      "FILE:///%6C".toList).result = .ok (.file 7) := by
  have heval : FileScope.requested "FILE:///%6C".toList = .ok "/l".toList := by decide +kernel
  have hopen : (World.canonical linked fun _ => .ok 7).openFile (utf8 "/l".toList) = .ok 7 := by
    decide +kernel
  have hsplit : Explicit "FILE:///%6C".toList "FILE".toList "///%6C".toList := ⟨by decide, rfl⟩
  have hpath : percentDecodePath (stripSlashes "///%6C".toList) = .ok "/l".toList := by
    decide +kernel
  have hnames : Names "FILE:///%6C".toList "/l".toList :=
    .explicit hsplit (by decide) (percentDecodePath_eq_ok.mp hpath)
  have hnul : ∀ p, Names "FILE:///%6C".toList p → 0 ∉ utf8 p := by
    intro p hp h
    have hreq := hp.requested
    rw [heval, if_pos h] at hreq
    cases hreq
  refine (openers_agree.2.2 Nat _ linked (World.canonical_opens _ _) _ hnul _).mpr ?_
  rw [hnames.openFile, Opening.bind_eq_ok]
  exact ⟨7, World.open_eq_ok.mpr hopen, rfl⟩

end OxideSource
