import OxideSource.Core.Shared
import OxideSource.Uri.Open

/-!
# The `mem://` store

The process-global table maps ids to `Arc`s, and each reader holds an `Arc` of its own and
a position. Every call takes the lock of the table once, so the calls of all threads
together are one list of actions. The allocator chooses where a buffer goes, also at an
address that was freed before; a step without a result is a use of freed memory, a double
free, or an action that nobody can take.
-/

namespace OxideSource

open Uri

/-- The contents of a `Vec<u8>`, never longer than `isize::MAX`. -/
abbrev Buffer [Target] := { bytes : Bytes // bytes.length ≤ isizeMax }

/-- `MemReader` as it lies in memory: an `Arc` and a position. -/
structure MemHandle where
  buf : Nat
  pos : Nat
  deriving DecidableEq, Repr

/-- One call of one thread. -/
inductive MemAction [Target] where
  /-- `put`, with the address that `Arc::new` gets. -/
  | put (id : Text) (data : Buffer) (addr : Nat)
  | remove (id : Text)
  | clear
  /-- `open_mem`; the caller keeps the reader under a name of its own. -/
  | openMem (name : Nat) (uri : Text)
  | call (name : Nat) (op : IoOp)
  /-- The reader goes out of scope. -/
  | close (name : Nat)

/-- What the calling threads see. -/
inductive MemObs where
  | removed (present : Bool)
  | opened (name : Nat) (res : Except Error Unit)
  | called (name : Nat) (obs : IoObs)

/-- The heap, the table behind its lock and the readers that are open. -/
structure MemStore [Target] where
  heap : Heap Buffer
  table : Table Text Nat
  readers : Table Nat MemHandle

namespace MemStore

variable [Target]

/-- `table` before the first call. -/
def empty : MemStore := ⟨fun _ => none, ∅, ∅⟩

/-- `put`. The buffer that `HashMap::insert` returns is dropped. -/
def put (s : MemStore) (id : Text) (data : Buffer) (addr : Nat) : Option MemStore :=
  (s.heap.new addr data).bind fun heap =>
    (heap.dropAll (s.table.find id).toList).map fun heap =>
      { s with heap, table := s.table.insert id addr }

/-- `remove`. -/
def remove (s : MemStore) (id : Text) : Option (MemStore × Bool) :=
  (s.heap.dropAll (s.table.find id).toList).map fun heap =>
    ({ s with heap, table := s.table.erase id }, (s.table.find id).isSome)

/-- `clear`. -/
def clear (s : MemStore) : Option MemStore :=
  (s.heap.dropAll s.table.values).map fun heap => { s with heap, table := ∅ }

/-- `open_mem`. -/
def openMem (s : MemStore) (name : Nat) (uri : Text) : Option (MemStore × Except Error Unit) :=
  let (scheme, id) := split uri
  if !schemeIs scheme "mem".toList then
    some (s, .error (.invalid ["mem driver invoked on non-mem URI: ", .text uri]))
  else if id = [] then some (s, .error (.invalid ["mem:// URI requires a non-empty id"]))
  else if '/' ∈ id then
    some (s, .error (.invalid ["mem:// id must not contain '/': ", .text id]))
  else
    match s.table.find id with
    | none => some (s, .error (.io ⟨.notFound, ["mem:// id '", .text id, "' is not registered"]⟩))
    | some a =>
        (s.heap.clone a).map fun heap =>
          ({ s with heap, readers := s.readers.insert name ⟨a, 0⟩ }, .ok ())

/-- A call on an open reader goes through its `Arc` and moves its position. -/
def call (s : MemStore) (name : Nat) (op : IoOp) : Option (MemStore × IoObs) :=
  (s.readers.find name).bind fun r =>
    (s.heap.get r.buf).map fun buf : Buffer =>
      let (obs, r') := perform (MemReader.mk buf.val r.pos) op
      ({ s with readers := s.readers.insert name { r with pos := r'.pos } }, obs)

/-- The drop of a reader. -/
def close (s : MemStore) (name : Nat) : Option MemStore :=
  (s.readers.find name).bind fun r =>
    (s.heap.drop r.buf).map fun heap => { s with heap, readers := s.readers.erase name }

/-- One action. A reader is opened under an unused name. -/
def step (s : MemStore) : MemAction → Option (MemStore × Option MemObs)
  | .put id data addr => (s.put id data addr).map (·, none)
  | .remove id => (s.remove id).map fun (s', present) => (s', some (.removed present))
  | .clear => s.clear.map (·, none)
  | .openMem name uri =>
      if (s.readers.find name).isSome then none
      else (s.openMem name uri).map fun (s', res) => (s', some (.opened name res))
  | .call name op => (s.call name op).map fun (s', obs) => (s', some (.called name obs))
  | .close name => (s.close name).map (·, none)

/-- All threads together. -/
def machine : Machine MemStore MemAction MemObs := ⟨step⟩

/-- Who owns a buffer: the table and the readers. -/
def owners (s : MemStore) : List Nat := s.table.values ++ s.readers.values.map MemHandle.buf

/-- Every reference count is right, and no two ids share a buffer. -/
structure Sound (s : MemStore) : Prop where
  owned : s.heap.Owned s.owners
  distinct : s.table.values.Nodup

/-- The empty store leaks nothing and shares nothing. -/
theorem sound_empty : Sound empty := ⟨Heap.owned_empty, List.nodup_nil⟩

/-- An id owns the buffer it is registered with. -/
theorem mem_owners_of_table {s : MemStore} {id : Text} {a : Nat} (h : s.table.find id = some a) :
    a ∈ s.owners :=
  List.mem_append_left _ (Table.mem_values_of_find h)

/-- A reader owns its buffer. -/
theorem mem_owners_of_reader {s : MemStore} {name : Nat} {r : MemHandle}
    (h : s.readers.find name = some r) : r.buf ∈ s.owners :=
  List.mem_append_right _ (List.mem_map_of_mem (Table.mem_values_of_find h))

/-- The buffer registered under an id. -/
def bytesOf (s : MemStore) (id : Text) : Option Buffer := (s.table.find id).bind s.heap.get

/-- The buffer and the position of the reader kept under a name. -/
def readerOf (s : MemStore) (name : Nat) : Option (Buffer × Nat) :=
  (s.readers.find name).bind fun r => (s.heap.get r.buf).map (·, r.pos)

end MemStore

end OxideSource
