import OxideSource.Readers.Reader

/-!
# Trees of readers

Readers compose: a tree of windows and concatenations over in-memory leaves can be
built exactly when every node is well formed, and then it is a cursor over the
bytes that the tree denotes.
-/

namespace OxideSource

/-- Bytes that fit in one allocation. -/
abbrev Allocated [Target] : Type := { bytes : Bytes // bytes.length ≤ isizeMax }

/-- A finite tree of readers. A leaf is a reader at some position of its own. -/
inductive ReaderTree [Target] where
  | mem (buf : Allocated) (pos : UInt64)
  | cursor (bytes : Allocated) (pos : UInt64)
  | sub (inner : ReaderTree) (base len : UInt64)
  | concat (parts : List ReaderTree)

namespace ReaderTree

section

variable [Target]

mutual

/-- Construct the readers of a tree from the leaves up. -/
def build {F : Type} [ReadSeek F] : ReaderTree → Except Error (Reader F)
  | .mem buf pos => .ok (.mem ⟨buf, pos.toNat⟩)
  | .cursor bytes pos => .ok (.cursor ⟨bytes, pos.toNat⟩)
  | .sub t base len =>
      match build t with
      | .error e => .error e
      | .ok inner => (SubSource.new inner base len).map .sub
  | .concat ts =>
      match buildAll ts with
      | .error e => .error e
      | .ok parts => (ConcatSource.new parts).map .concat

/-- Construct the parts in order, stopping at the first failure. -/
def buildAll {F : Type} [ReadSeek F] : List ReaderTree → Except Error (List (Reader F))
  | [] => .ok []
  | t :: ts =>
      match build t with
      | .error e => .error e
      | .ok r =>
          match buildAll ts with
          | .error e => .error e
          | .ok rs => .ok (r :: rs)

end

mutual

/-- The bytes a tree denotes. -/
def content : ReaderTree → Bytes
  | .mem buf _ => buf
  | .cursor bytes _ => bytes
  | .sub t base len => window (content t) base.toNat len.toNat
  | .concat ts => (contents ts).flatten

/-- The bytes that each tree of a list denotes. -/
def contents : List ReaderTree → List Bytes
  | [] => []
  | t :: ts => content t :: contents ts

end

mutual

/-- Every window lies inside its inner content and every total length fits. -/
def WellFormed : ReaderTree → Prop
  | .mem _ _ => True
  | .cursor _ _ => True
  | .sub t base len => WellFormed t ∧ base.toNat + len.toNat < u64Size ∧
      base.toNat + len.toNat ≤ (content t).length
  | .concat ts => AllWellFormed ts ∧ (contents ts).flatten.length < u64Size

/-- Every tree of a list is well formed. -/
def AllWellFormed : List ReaderTree → Prop
  | [] => True
  | t :: ts => WellFormed t ∧ AllWellFormed ts

end

/-- The position of a newly built tree: that of the leaf, or zero. -/
def start : ReaderTree → Nat
  | .mem _ pos => pos.toNat
  | .cursor _ pos => pos.toNat
  | .sub _ _ _ => 0
  | .concat _ => 0

/-- Every tree starts at a `u64`. -/
theorem start_lt (t : ReaderTree) : t.start < u64Size := by
  cases t with
  | mem buf pos => exact pos.toNat_lt
  | cursor bytes pos => exact pos.toNat_lt
  | sub t base len => exact Nat.two_pow_pos 64
  | concat ts => exact Nat.two_pow_pos 64

mutual

/-- The content of a well-formed tree has a length that fits in `u64`. -/
theorem content_length_lt : ∀ {t : ReaderTree}, WellFormed t → (content t).length < u64Size
  | .mem buf _, _ => (buf.2.trans isizeMax_le_usizeMax).trans_lt usizeMax_lt
  | .cursor bytes _, _ => (bytes.2.trans isizeMax_le_usizeMax).trans_lt usizeMax_lt
  | .sub t base len, h => by
      obtain ⟨_, hadd, hfit⟩ := h
      rw [content, length_window_of_le hfit]
      omega
  | .concat ts, h => h.2

/-- The contents of well-formed trees are shorter than `2 ^ 64`. -/
theorem contents_length_lt : ∀ {ts : List ReaderTree}, AllWellFormed ts →
    ∀ D ∈ contents ts, D.length < u64Size
  | [], _, D, hD => by cases hD
  | t :: ts, h, D, hD => by
      rcases List.mem_cons.mp hD with rfl | hD
      · exact content_length_lt h.1
      · exact contents_length_lt h.2 D hD

end

variable {F : Type} [ReadSeek F]

mutual

/-- Building a tree either gives a cursor over its content, or the tree is ill formed. -/
theorem build_spec (hT : Target.usizeBits = 64) : ∀ t : ReaderTree,
    (WellFormed t ∧ ∃ r : Reader F, build t = .ok r ∧ Exact (content t) r t.start) ∨
    (¬ WellFormed t ∧ ∃ e, build (F := F) t = .error e)
  | .mem buf pos => by
      have hmem := MemReader.behaves (fun _ => False) ⟨buf, pos.toNat⟩
        (buf.2.trans isizeMax_le_usizeMax)
      exact .inl ⟨trivial, _, rfl, hmem.relay Reader.relay_mem⟩
  | .cursor bytes pos =>
      .inl ⟨trivial, _, rfl, (Cursor.behaves _ ⟨bytes, pos.toNat⟩).relay Reader.relay_cursor⟩
  | .sub t base len => by
      rcases build_spec hT t with ⟨hwf, r, hbuild, hr⟩ | ⟨hwf, e, hbuild⟩
      · have hD := content_length_lt hwf
        rcases SubSource.new_spec hr t.start_lt hD base len with
          ⟨hfit, inner, hnew, hinner⟩ | ⟨hover, e, hnew⟩
        · have hwin := SubSource.behaves (s := ⟨inner, base.toNat, len.toNat, 0⟩)
            hinner.serves hD hfit (le_usizeMax_of_bits hT len.toNat_lt)
          refine .inl ⟨⟨hwf, by omega, hfit⟩, _, by rw [build, hbuild]; simp only [hnew]; rfl, ?_⟩
          exact (hwin.mono fun _ => Faults.any_transient).relay Reader.relay_sub
        · refine .inr ⟨fun h => absurd h.2.2 (Nat.not_le.mpr hover), e, ?_⟩
          rw [build, hbuild]
          simp only [hnew]
          rfl
      · refine .inr ⟨fun h => hwf h.1, e, ?_⟩
        rw [build, hbuild]
  | .concat ts => by
      rcases buildAll_spec hT ts with ⟨hwf, rs, hbuild, hrs⟩ | ⟨hwf, e, hbuild⟩
      · rcases ConcatSource.new_spec hrs (contents_length_lt hwf) with
          ⟨hfit, parts, starts, hnew, hparts, htable⟩ | ⟨hover, e, hnew⟩
        · have hjoin := ConcatSource.behaves (s := ⟨parts, starts, 0⟩) htable hparts.serving
            (le_usizeMax_of_bits hT hfit)
          refine .inl ⟨⟨hwf, hfit⟩, _, by rw [build, hbuild]; simp only [hnew]; rfl, ?_⟩
          exact (hjoin.mono fun _ => Faults.any_transient).relay Reader.relay_concat
        · refine .inr ⟨fun h => absurd h.2 (Nat.not_lt.mpr hover), e, ?_⟩
          rw [build, hbuild]
          simp only [hnew]
          rfl
      · refine .inr ⟨fun h => hwf h.1, e, ?_⟩
        rw [build, hbuild]

/-- Trees are built together exactly when each is well formed. -/
theorem buildAll_spec (hT : Target.usizeBits = 64) : ∀ ts : List ReaderTree,
    (AllWellFormed ts ∧ ∃ rs : List (Reader F), buildAll ts = .ok rs ∧
      ConcatSource.Moving (fun _ => False) rs (contents ts)) ∨
    (¬ AllWellFormed ts ∧ ∃ e, buildAll (F := F) ts = .error e)
  | [] => .inl ⟨trivial, [], rfl, .nil⟩
  | t :: ts => by
      rcases build_spec hT t with ⟨hwf, r, hbuild, hr⟩ | ⟨hwf, e, hbuild⟩
      · rcases buildAll_spec hT ts with ⟨hwfs, rs, hbuilds, hrs⟩ | ⟨hwfs, e, hbuilds⟩
        · refine .inl ⟨⟨hwf, hwfs⟩, r :: rs, ?_, .cons ⟨_, hr⟩ hrs⟩
          rw [buildAll, hbuild, hbuilds]
        · refine .inr ⟨fun h => hwfs h.2, e, ?_⟩
          rw [buildAll, hbuild, hbuilds]
      · refine .inr ⟨fun h => hwf h.1, e, ?_⟩
        rw [buildAll, hbuild]

end

/-- On a 64-bit target a tree can be built exactly when it is well formed, and
every sequence of calls on what was built is a trace of a cursor over its content,
with no error but those of seeks that do not resolve. -/
theorem build_refines (hT : Target.usizeBits = 64) (t : ReaderTree) :
    ((∃ r : Reader F, build t = .ok r) ↔ WellFormed t) ∧
      ∀ r : Reader F, build t = .ok r → ∀ ops, ∃ q,
        CursorTrace (content t) (fun _ => False) t.start (performAll r ops).1 q := by
  rcases build_spec (F := F) hT t with ⟨hwf, r, hbuild, hr⟩ | ⟨hwf, e, hbuild⟩
  · refine ⟨⟨fun _ => hwf, fun _ => ⟨r, hbuild⟩⟩, ?_⟩
    intro r' hr' ops
    obtain rfl := Except.ok.inj (hbuild.symm.trans hr')
    obtain ⟨q, htrace, _⟩ := hr.trace ops
    exact ⟨q, htrace⟩
  · refine ⟨⟨fun ⟨r, hr⟩ => ?_, fun h => absurd h hwf⟩, fun r hr => ?_⟩
    · rw [hbuild] at hr
      cases hr
    · rw [hbuild] at hr
      cases hr

end

/-- A window across the seam of two leaves. -/
def seam : @ReaderTree target64 :=
  letI := target64
  .sub (.concat [.mem ⟨[1, 2], by decide⟩ 0, .cursor ⟨[3], by decide⟩ 0]) 1 2

/-- Two leaves read across their seam. -/
theorem build_refines_seam :
    ∃ r : Reader Cursor, @build target64 Cursor _ seam = .ok r ∧
      ∀ ops, ∃ q, CursorTrace [2, 3] (fun _ => False) 0 (@performAll _
        (@Reader.instReadSeek Cursor target64 _) r ops).1 q := by
  let := target64
  obtain ⟨hbuild, htrace⟩ := build_refines (F := Cursor) rfl seam
  have hwf : WellFormed seam := by
    refine ⟨⟨⟨trivial, trivial, trivial⟩, ?_⟩, ?_, ?_⟩ <;> decide
  obtain ⟨r, hr⟩ := hbuild.mpr hwf
  exact ⟨r, hr, htrace r hr⟩

end ReaderTree

end OxideSource
