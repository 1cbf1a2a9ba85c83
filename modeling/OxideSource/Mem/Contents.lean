import OxideSource.Mem.Store

/-!
# Shared buffers as private copies

Sharing a buffer by reference counting is invisible: the store answers every thread as a
table of byte strings would whose readers each take a copy along. The invariant is that
the reference counts are right, and each operation on the heap has one lemma that says
what the two sides see of it.
-/

namespace OxideSource

open Uri

/-- The registered byte strings, and each open reader with its own copy and position. -/
structure Contents [Target] where
  mem : Text → Option Buffer
  reader : Nat → Option (Buffer × Nat)

namespace Contents

variable [Target]

/-- Nothing is registered and nothing is open. -/
def empty : Contents := ⟨fun _ => none, fun _ => none⟩

/-- The table as the drivers reach it. -/
def world (c : Contents) : World Empty where
  openFile _ := .error ⟨.notFound, []⟩
  mem id := (c.mem id).map Subtype.val

/-- A reader as `open_mem` returns it. -/
def memReader (b : Buffer × Nat) : MemReader := ⟨b.1.val, b.2⟩

/-- One action. The address that a buffer gets plays no role. -/
def step (c : Contents) : MemAction → Option (Contents × Option MemObs)
  | .put id data _ => some ({ c with mem := Function.update c.mem id (some data) }, none)
  | .remove id =>
      some ({ c with mem := Function.update c.mem id none },
        some (.removed (c.mem id).isSome))
  | .clear => some ({ c with mem := fun _ => none }, none)
  | .openMem name uri =>
      if (c.reader name).isSome then none
      else
        match (OxideSource.openMem c.world uri).result with
        | .error e => some (c, some (.opened name (.error e)))
        | .ok _ =>
            let b := (c.mem (split uri).2).map (·, 0)
            some ({ c with reader := Function.update c.reader name b },
              some (.opened name (.ok ())))
  | .call name op =>
      (c.reader name).map fun b =>
        let (obs, r) := perform (memReader b) op
        ({ c with reader := Function.update c.reader name (some (b.1, r.pos)) },
          some (.called name obs))
  | .close name =>
      (c.reader name).map fun _ =>
        ({ c with reader := Function.update c.reader name none }, none)

/-- All threads together. -/
def machine : Machine Contents MemAction MemObs := ⟨step⟩

/-- Opening succeeds on a registered id without a slash, and gives its bytes from the start. -/
theorem openMem_eq_ok {c : Contents} {uri : Text} {r : Reader Empty} :
    (OxideSource.openMem c.world uri).result = .ok r ↔
      schemeIs (split uri).1 "mem".toList = true ∧ (split uri).2 ≠ [] ∧ '/' ∉ (split uri).2 ∧
        ∃ b, c.mem (split uri).2 = some b ∧ r = .mem (memReader (b, 0)) := by
  unfold OxideSource.openMem Opening.of
  generalize "mem".toList = want
  by_cases hs : schemeIs (split uri).1 want = true
  · by_cases hid : (split uri).2 = []
    · simp [hs, hid]
    · by_cases hslash : '/' ∈ (split uri).2
      · simp [hs, hid, hslash]
      · cases hm : c.mem (split uri).2 with
        | none => simp [hs, hid, hslash, hm, world]
        | some b => simp [hs, hid, hslash, hm, world, memReader, MemReader.new, eq_comm]
  · simp [hs]

end Contents

namespace MemStore

variable [Target]

/-- What the callers may take the store for. -/
def contents (s : MemStore) : Contents := ⟨s.bytesOf, s.readerOf⟩

variable {s s' : MemStore} {id uri : Text} {data : Buffer} {addr name : Nat}

/-- Owners that keep what they own see the same contents. -/
theorem contents_of_get {heap : Heap Buffer}
    (hget : ∀ a ∈ s.owners, heap.get a = s.heap.get a) :
    contents { s with heap } = s.contents := by
  unfold contents
  congr 1
  · funext id
    cases hid : s.table.find id with
    | none => simp only [bytesOf, hid, Option.bind_none]
    | some a =>
        simp only [bytesOf, hid, Option.bind_some]
        exact hget a (mem_owners_of_table hid)
  · funext name
    cases hname : s.readers.find name with
    | none => simp only [readerOf, hname, Option.bind_none]
    | some r =>
        simp only [readerOf, hname, Option.bind_some]
        rw [hget r.buf (mem_owners_of_reader hname)]

/-- Without an id in the table, its bytes are not registered. -/
theorem contents_erase (s : MemStore) (id : Text) :
    contents { s with table := s.table.erase id } =
      { s.contents with mem := Function.update s.bytesOf id none } := by
  unfold contents
  congr 1
  funext k
  by_cases hk : k = id <;> simp [bytesOf, hk]

/-- With an id in the table, the bytes at its address are registered. -/
theorem contents_insert (s : MemStore) (id : Text) (addr : Nat) :
    contents { s with table := s.table.insert id addr } =
      { s.contents with mem := Function.update s.bytesOf id (s.heap.get addr) } := by
  unfold contents
  congr 1
  funext k
  by_cases hk : k = id <;> simp [bytesOf, hk]

/-- The contents without a reader. -/
theorem contents_reader_erase (s : MemStore) (name : Nat) :
    contents { s with readers := s.readers.erase name } =
      { s.contents with reader := Function.update s.readerOf name none } := by
  unfold contents
  congr 1
  funext k
  by_cases hk : k = name <;> simp [readerOf, hk]

/-- The contents with a new reader. -/
theorem contents_reader_insert (s : MemStore) (name : Nat) (r : MemHandle) :
    contents { s with readers := s.readers.insert name r } =
      { s.contents with
        reader := Function.update s.readerOf name ((s.heap.get r.buf).map (·, r.pos)) } := by
  unfold contents
  congr 1
  funext k
  by_cases hk : k = name <;> simp [readerOf, hk]

/-- Erasing an id adds no owner. -/
theorem owners_erase_subset (id : Text) :
    owners { s with table := s.table.erase id } ⊆ s.owners := by
  intro a ha
  rcases List.mem_append.mp ha with htable | hreader
  · exact List.mem_append_left _ (Table.values_erase_subset _ _ htable)
  · exact List.mem_append_right _ hreader

/-- The owner of an id gives up its buffer, beside owners that are not in the store yet. -/
theorem dropId {heap : Heap Buffer} (extra : List Nat) (hO : heap.Owned (extra ++ s.owners))
    (id : Text) :
    ∃ heap', heap.dropAll (s.table.find id).toList = some heap' ∧
      heap'.Owned (extra ++ owners { s with table := s.table.erase id }) ∧
      ∀ a ∈ extra ++ owners { s with table := s.table.erase id }, heap'.get a = heap.get a := by
  apply Heap.Owned.dropAll
  refine hO.perm (.trans ?_ (List.perm_append_comm_assoc _ _ _))
  apply List.Perm.append_left
  cases hid : s.table.find id with
  | none =>
      rw [owners, owners, Table.erase_of_none hid]
      exact .refl _
  | some a => exact (Table.values_erase_perm hid).append_right _

/-- `put` at a free address succeeds and registers the bytes. -/
theorem put_spec (hs : s.Sound) (hfree : s.heap addr = none) (id : Text) (data : Buffer) :
    ∃ s', s.put id data addr = some s' ∧ s'.Sound ∧
      s'.contents = { s.contents with mem := Function.update s.bytesOf id (some data) } := by
  obtain ⟨heap, hnew⟩ : ∃ heap, s.heap.new addr data = some heap := by
    simp only [Heap.new, hfree, Option.some.injEq, exists_eq']
  obtain ⟨hO, hout, hheap⟩ := hs.owned.new hnew
  obtain ⟨heap', hdrop, hO', hget⟩ := dropId [addr] hO id
  have hkeep : ∀ a ∈ owners { s with table := s.table.erase id }, heap'.get a = s.heap.get a := by
    intro a ha
    have hne : a ≠ addr := by
      rintro rfl
      exact hout (owners_erase_subset id ha)
    rw [hget a (List.mem_append_right _ ha), hheap, Function.update_of_ne hne]
  refine ⟨{ s with heap := heap', table := s.table.insert id addr }, ?_, ⟨?_, ?_⟩, ?_⟩
  · simp only [put, hnew, Option.bind_some, hdrop, Option.map_some]
  · simpa [owners] using hO'
  · have hid : addr ∉ Table.values (s.table.erase id) := fun h =>
      hout (List.mem_append_left _ (Table.values_erase_subset _ _ h))
    simp [hid, Table.nodup_values_erase hs.distinct]
  · have hview := contents_insert { s with heap := heap' } id addr
    rw [hget addr (List.mem_append_left _ List.mem_cons_self), hheap, Function.update_self] at hview
    have hsame := (contents_erase { s with heap := heap' } id).symm.trans
      ((contents_of_get (s := { s with table := s.table.erase id }) hkeep).trans
        (contents_erase s id))
    obtain ⟨hmem, hreader⟩ := Contents.mk.inj hsame
    refine hview.trans ?_
    have hput := congrArg (fun mem => Function.update mem id (some data)) hmem
    simp only [Function.update_idem] at hput
    exact congrArg₂ Contents.mk hput hreader

/-- `remove` answers whether there was a buffer, and forgets it. -/
theorem remove_spec (hs : s.Sound) (id : Text) :
    ∃ s', s.remove id = some (s', (s.bytesOf id).isSome) ∧ s'.Sound ∧
      s'.contents = { s.contents with mem := Function.update s.bytesOf id none } := by
  obtain ⟨heap, hdrop, hO, hget⟩ := dropId [] hs.owned id
  have hpresent : (s.table.find id).isSome = (s.bytesOf id).isSome := by
    cases hid : s.table.find id with
    | none => simp [bytesOf, hid]
    | some a =>
        obtain ⟨b, hb⟩ := hs.owned.get_isSome (mem_owners_of_table hid)
        simp [bytesOf, hid, hb]
  refine ⟨{ s with heap, table := s.table.erase id }, ?_, ⟨hO, ?_⟩, ?_⟩
  · simp only [remove, hdrop, Option.map_some, hpresent]
  · exact Table.nodup_values_erase hs.distinct
  · exact (contents_of_get (s := { s with table := s.table.erase id }) hget).trans
      (contents_erase s id)

/-- `clear` forgets every id. -/
theorem clear_spec (hs : s.Sound) :
    ∃ s', s.clear = some s' ∧ s'.Sound ∧ s'.contents = { s.contents with mem := fun _ => none } := by
  obtain ⟨heap, hdrop, hO, hget⟩ := hs.owned.dropAll
  refine ⟨{ s with heap, table := ∅ }, ?_, ⟨hO, List.nodup_nil⟩, ?_⟩
  · simp only [clear, hdrop, Option.map_some]
  · refine (contents_of_get (s := { s with table := ∅ }) hget).trans ?_
    unfold contents
    congr 1

/-- Every open reader has a buffer. -/
theorem readerOf_eq_none (hs : s.Sound) : s.readerOf name = none ↔ s.readers.find name = none := by
  cases hname : s.readers.find name with
  | none => simp [readerOf, hname]
  | some r =>
      obtain ⟨b, hb⟩ := hs.owned.get_isSome (mem_owners_of_reader hname)
      simp [readerOf, hname, hb]

/-- `open_mem` answers what it would on byte strings; a new reader owns the buffer. -/
theorem openMem_spec (hs : s.Sound) (hname : s.readers.find name = none) (uri : Text) :
    (∃ e, (OxideSource.openMem s.contents.world uri).result = .error e ∧
      s.openMem name uri = some (s, .error e)) ∨
    ∃ b s', (OxideSource.openMem s.contents.world uri).result =
        .ok (.mem (Contents.memReader (b, 0))) ∧
      s.bytesOf (split uri).2 = some b ∧ s.openMem name uri = some (s', .ok ()) ∧ s'.Sound ∧
      s'.contents = { s.contents with reader := Function.update s.readerOf name (some (b, 0)) } := by
  unfold OxideSource.openMem MemStore.openMem Opening.of
  generalize "mem".toList = want
  by_cases hscheme : schemeIs (split uri).1 want = true
  · by_cases hempty : (split uri).2 = []
    · simp [hscheme, hempty]
    · by_cases hslash : '/' ∈ (split uri).2
      · simp [hscheme, hempty, hslash]
      · cases hid : s.table.find (split uri).2 with
        | none =>
            have hmem : s.bytesOf (split uri).2 = none := by
              simp only [bytesOf, hid, Option.bind_none]
            simp [hscheme, hempty, hslash, hid, Contents.world, contents, hmem]
        | some a =>
            have ha := mem_owners_of_table hid
            obtain ⟨b, hb⟩ := hs.owned.get_isSome ha
            have hmem : s.bytesOf (split uri).2 = some b := by
              simp only [bytesOf, hid, Option.bind_some, hb]
            obtain ⟨heap, hclone, hO, hget⟩ := hs.owned.clone ha
            refine .inr ⟨b, { s with heap, readers := s.readers.insert name ⟨a, 0⟩ },
              ?_, hmem, ?_, ⟨?_, hs.distinct⟩, ?_⟩
            · simp [hscheme, hempty, hslash, Contents.world, contents, hmem, Contents.memReader,
                MemReader.new]
            · simp [hscheme, hempty, hslash, hid, hclone]
            · refine hO.perm ?_
              simpa [owners, Table.erase_of_none hname] using List.perm_middle.symm
            · have hsame : contents { s with heap } = s.contents :=
                contents_of_get fun a _ => congrFun hget a
              obtain ⟨_, hreader⟩ := Contents.mk.inj hsame
              refine (contents_reader_insert { s with heap } name ⟨a, 0⟩).trans ?_
              rw [hget, hb, hsame, hreader, Option.map_some]
  · simp [hscheme]

/-- A call on a reader is the call on its own copy. -/
theorem call_spec (hs : s.Sound) {b : Buffer} {p : Nat} (h : s.readerOf name = some (b, p))
    {op : IoOp} {obs : IoObs} {r : MemReader} (hop : perform (MemReader.mk b.val p) op = (obs, r)) :
    ∃ s', s.call name op = some (s', obs) ∧ s'.Sound ∧ s'.contents =
      { s.contents with reader := Function.update s.readerOf name (some (b, r.pos)) } := by
  obtain ⟨x, hx, hget⟩ := Option.bind_eq_some_iff.mp h
  obtain ⟨b', hb, heq⟩ := Option.map_eq_some_iff.mp hget
  obtain ⟨rfl, rfl⟩ := Prod.mk.inj heq
  refine ⟨{ s with readers := s.readers.insert name { x with pos := r.pos } }, ?_, ⟨?_, ?_⟩, ?_⟩
  · simp only [call, hx, hb, hop, Option.bind_some, Option.map_some]
  · refine hs.owned.perm (List.Perm.append_left _ ?_)
    simpa using (Table.values_erase_perm hx).map MemHandle.buf
  · exact hs.distinct
  · refine (contents_reader_insert s name _).trans ?_
    simp only [hb, Option.map_some]

/-- A closed reader is gone, and nothing else. -/
theorem close_spec (hs : s.Sound) {b : Buffer × Nat} (h : s.readerOf name = some b) :
    ∃ s', s.close name = some s' ∧ s'.Sound ∧
      s'.contents = { s.contents with reader := Function.update s.readerOf name none } := by
  obtain ⟨r, hr, _⟩ := Option.bind_eq_some_iff.mp h
  have hperm : s.owners.Perm (r.buf :: owners { s with readers := s.readers.erase name }) := by
    have hvalues := (Table.values_erase_perm hr).map MemHandle.buf
    exact (hvalues.append_left _).trans List.perm_middle
  obtain ⟨heap, hdrop, hO, hget⟩ := (hs.owned.perm hperm).drop
  refine ⟨{ s with heap, readers := s.readers.erase name }, ?_, ⟨hO, hs.distinct⟩, ?_⟩
  · simp only [close, hr, Option.bind_some, hdrop, Option.map_some]
  · exact (contents_of_get (s := { s with readers := s.readers.erase name }) hget).trans
      (contents_reader_erase s name)

/-- The allocator hands out free addresses only. -/
def Placed (s : MemStore) : MemAction → Prop
  | .put _ _ addr => s.heap addr = none
  | _ => True

/-- A step places a new buffer where nothing is. -/
theorem placed_of_step {a : MemAction} {o : Option MemObs} (h : s.step a = some (s', o)) :
    s.Placed a := by
  cases a with
  | put id data addr =>
      obtain ⟨_, hput, _⟩ := Option.map_eq_some_iff.mp h
      obtain ⟨_, hnew, _⟩ := Option.bind_eq_some_iff.mp hput
      unfold Heap.new at hnew
      split at hnew
      · assumption
      · cases hnew
  | _ => trivial

/-- A sound store takes every step that its contents take, with the same answer, stays
sound, and never gets stuck. -/
theorem step_spec (hs : s.Sound) {a : MemAction} (ha : s.Placed a) :
    s.step a = none ∧ s.contents.step a = none ∨
      ∃ s' o, s.step a = some (s', o) ∧ s'.Sound ∧ s.contents.step a = some (s'.contents, o) := by
  cases a with
  | put id data addr =>
      obtain ⟨s', hput, hs', hview⟩ := put_spec hs ha id data
      exact .inr ⟨s', none, by rw [step, hput, Option.map_some], hs', by rw [hview]; rfl⟩
  | remove id =>
      obtain ⟨s', hremove, hs', hview⟩ := remove_spec hs id
      exact .inr ⟨s', _, by rw [step, hremove, Option.map_some], hs', by rw [hview]; rfl⟩
  | clear =>
      obtain ⟨s', hclear, hs', hview⟩ := clear_spec hs
      exact .inr ⟨s', none, by rw [step, hclear, Option.map_some], hs', by rw [hview]; rfl⟩
  | openMem name uri =>
      by_cases hname : s.readers.find name = none
      · right
        have hreader : s.contents.reader name = none := (readerOf_eq_none hs).mpr hname
        rcases openMem_spec hs hname uri with
          ⟨e, hopen, hstep⟩ | ⟨b, s', hopen, hmem, hstep, hs', hview⟩
        · refine ⟨s, some (.opened name (.error e)), ?_, hs, ?_⟩
          · simp [step, hname, hstep]
          · simp [Contents.step, hreader, hopen]
        · have hmem' : s.contents.mem (split uri).2 = some b := hmem
          refine ⟨s', some (.opened name (.ok ())), ?_, hs', ?_⟩
          · simp [step, hname, hstep]
          · simp only [Contents.step, hreader, hopen, hmem', hview, Option.map_some]
            rfl
      · have hreader : s.contents.reader name ≠ none := mt (readerOf_eq_none hs).mp hname
        left
        simp [step, Contents.step, Option.isSome_iff_ne_none, hname, hreader]
  | call name op =>
      cases hreader : s.readerOf name with
      | none =>
          left
          have hfind := (readerOf_eq_none hs).mp hreader
          have hview : s.contents.reader name = none := hreader
          simp [step, call, hfind, Contents.step, hview]
      | some b =>
          right
          obtain ⟨s', hcall, hs', hview⟩ :=
            call_spec hs hreader (rfl : perform (MemReader.mk b.1.val b.2) op = _)
          have hb : s.contents.reader name = some b := hreader
          refine ⟨s', _, by rw [step, hcall, Option.map_some], hs', ?_⟩
          rw [hview, Contents.step, hb]
          rfl
  | close name =>
      cases hreader : s.readerOf name with
      | none =>
          left
          have hfind := (readerOf_eq_none hs).mp hreader
          have hview : s.contents.reader name = none := hreader
          simp [step, close, hfind, Contents.step, hview]
      | some b =>
          right
          obtain ⟨s', hclose, hs', hview⟩ := close_spec hs hreader
          have hb : s.contents.reader name = some b := hreader
          refine ⟨s', none, by rw [step, hclose, Option.map_some], hs', ?_⟩
          rw [hview, Contents.step, hb]
          rfl

end MemStore

end OxideSource
