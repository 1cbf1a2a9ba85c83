import Mathlib.Data.List.Count
import Mathlib.Data.List.Perm.Basic
import Mathlib.Data.List.Sigma
import Mathlib.Data.List.AList
import Mathlib.Data.Fintype.EquivFin
import Mathlib.Logic.Function.Basic
import Mathlib.Tactic.Common

/-!
# Reference-counted values

A heap of `Arc` allocations. An operation on a freed address is undefined behaviour, so
it has no result here. Who owns what is a list of addresses, one entry for each owner,
and the one invariant is that the counters agree with it: then no operation of an owner
is undefined, whatever addresses the allocator reuses.
-/

namespace OxideSource

/-- `ArcInner`: a value beside the number of its owners. -/
structure Shared (β : Type) where
  strong : Nat
  value : β
  deriving DecidableEq, Repr

/-- What the allocator has handed out. -/
abbrev Heap (β : Type) := Nat → Option (Shared β)

namespace Heap

variable {β : Type}

/-- `Deref for Arc`. -/
def get (h : Heap β) (a : Nat) : Option β := (h a).map Shared.value

/-- `Arc::new`, at the address that the allocator chose: a free one. -/
def new (h : Heap β) (a : Nat) (v : β) : Option (Heap β) :=
  match h a with
  | none => some (Function.update h a (some ⟨1, v⟩))
  | some _ => none

/-- `Arc::clone`. -/
def clone (h : Heap β) (a : Nat) : Option (Heap β) :=
  match h a with
  | none => none
  | some c => some (Function.update h a (some { c with strong := c.strong + 1 }))

/-- `Drop for Arc`: the last owner frees the allocation. -/
def drop (h : Heap β) (a : Nat) : Option (Heap β) :=
  match h a with
  | none => none
  | some c =>
      some (Function.update h a
        (if c.strong ≤ 1 then none else some { c with strong := c.strong - 1 }))

/-- Drop one owner of each listed address. -/
def dropAll (h : Heap β) : List Nat → Option (Heap β)
  | [] => some h
  | a :: as => (h.drop a).bind fun h' => h'.dropAll as

/-- Every counter is the number of owners, and what nobody owns is free. -/
def Owned (h : Heap β) (owners : List Nat) : Prop :=
  ∀ a, (h a).map Shared.strong = if a ∈ owners then some (owners.count a) else none

/-- Nothing is owned and nothing is allocated. -/
theorem owned_empty : Owned (fun _ => none : Heap β) [] := by
  intro a
  simp

namespace Owned

variable {h h' : Heap β} {owners owners' : List Nat} {a b : Nat} {v : β}

/-- The order of the owners does not matter. -/
theorem perm (hO : h.Owned owners) (hp : owners.Perm owners') : h.Owned owners' := by
  intro a
  simp only [hO a, hp.count_eq, hp.mem_iff]

/-- An owned address is live, with at least one owner counted. -/
theorem live (hO : h.Owned owners) (ha : a ∈ owners) :
    ∃ c, h a = some c ∧ c.strong = owners.count a := by
  have hc := hO a
  rw [if_pos ha, Option.map_eq_some_iff] at hc
  exact hc

/-- What nobody owns is not allocated. -/
theorem free (hO : h.Owned owners) (ha : a ∉ owners) : h a = none := by
  have hc := hO a
  rw [if_neg ha] at hc
  simpa using hc

/-- What somebody owns can be read. -/
theorem get_isSome (hO : h.Owned owners) (ha : a ∈ owners) : ∃ v, h.get a = some v := by
  obtain ⟨c, hc, _⟩ := hO.live ha
  exact ⟨c.value, by rw [get, hc, Option.map_some]⟩

/-- The address that the allocator chooses is free, and its new value has one owner. -/
theorem new (hO : h.Owned owners) (hn : h.new a v = some h') :
    h'.Owned (a :: owners) ∧ a ∉ owners ∧ h'.get = Function.update h.get a (some v) := by
  have ha : h a = none := by
    unfold Heap.new at hn
    split at hn
    · assumption
    · cases hn
  have hout : a ∉ owners := by
    intro hmem
    obtain ⟨c, hc, _⟩ := hO.live hmem
    rw [ha] at hc
    cases hc
  simp only [Heap.new, ha, Option.some.injEq] at hn
  subst hn
  refine ⟨?_, hout, ?_⟩
  · intro b
    by_cases hb : b = a
    · simp [hb, List.count_eq_zero_of_not_mem hout]
    · simp [hb, hO b, List.count_cons_of_ne (Ne.symm hb)]
  · ext1 b
    by_cases hb : b = a
    · simp [get, hb]
    · simp [get, hb]

/-- There is always a free address. -/
theorem exists_new (hO : h.Owned owners) (v : β) : ∃ a h', h.new a v = some h' := by
  obtain ⟨a, ha⟩ := Infinite.exists_notMem_finset owners.toFinset
  have hout : a ∉ owners := by simpa using ha
  exact ⟨a, Function.update h a (some ⟨1, v⟩), by simp only [Heap.new, hO.free hout]⟩

/-- An owner can always share what it owns, and every value stays. -/
theorem clone (hO : h.Owned owners) (ha : a ∈ owners) :
    ∃ h', h.clone a = some h' ∧ h'.Owned (a :: owners) ∧ h'.get = h.get := by
  obtain ⟨c, hc, hcount⟩ := hO.live ha
  refine ⟨Function.update h a (some { c with strong := c.strong + 1 }), ?_, ?_, ?_⟩
  · simp only [Heap.clone, hc]
  · intro b
    by_cases hb : b = a
    · simp [hb, hcount]
    · simp [hb, hO b, List.count_cons_of_ne (Ne.symm hb)]
  · ext1 b
    by_cases hb : b = a
    · simp [get, hb, hc]
    · simp [get, hb]

/-- An owner can always give up what it owns, and what others own keeps its value. -/
theorem drop (hO : h.Owned (a :: owners)) :
    ∃ h', h.drop a = some h' ∧ h'.Owned owners ∧ ∀ b ∈ owners, h'.get b = h.get b := by
  obtain ⟨c, hc, hcount⟩ := hO.live List.mem_cons_self
  rw [List.count_cons_self] at hcount
  refine ⟨Function.update h a
    (if c.strong ≤ 1 then none else some { c with strong := c.strong - 1 }), ?_, ?_, ?_⟩
  · simp only [Heap.drop, hc]
  · intro b
    by_cases hb : b = a
    · by_cases hmem : a ∈ owners
      · have hpos : 0 < owners.count a := List.count_pos_iff.mpr hmem
        simp [hb, hmem, hcount, hpos.ne']
      · have hlast : c.strong ≤ 1 := by rw [hcount, List.count_eq_zero_of_not_mem hmem]
        simp [hb, hlast, hmem]
    · have hO' := hO b
      simp only [List.mem_cons, hb, false_or, List.count_cons_of_ne (Ne.symm hb)] at hO'
      simp [hb, hO']
  · intro b hmem
    by_cases hb : b = a
    · have hpos : 0 < owners.count a := List.count_pos_iff.mpr (hb ▸ hmem)
      have hlast : ¬ c.strong ≤ 1 := by omega
      simp [get, hb, hlast, hc]
    · simp [get, hb]

/-- Owners that give up together leave the others alone. -/
theorem dropAll {gone : List Nat} (hO : h.Owned (gone ++ owners)) :
    ∃ h', h.dropAll gone = some h' ∧ h'.Owned owners ∧ ∀ b ∈ owners, h'.get b = h.get b := by
  induction gone generalizing h with
  | nil => exact ⟨h, rfl, hO, fun _ _ => rfl⟩
  | cons a gone ih =>
      obtain ⟨h₁, hdrop, hO₁, hget₁⟩ := Owned.drop hO
      obtain ⟨h₂, hrest, hO₂, hget₂⟩ := ih hO₁
      refine ⟨h₂, by rw [Heap.dropAll, hdrop, Option.bind_some, hrest], hO₂, ?_⟩
      intro b hb
      rw [hget₂ b hb, hget₁ b (List.mem_append_right _ hb)]

end Owned

end Heap

/-! ### Tables -/

/-- `HashMap`: one value for each key, in no particular order. -/
abbrev Table (α β : Type) := AList fun _ : α => β

namespace Table

variable {α β : Type} [DecidableEq α] {t : Table α β} {k : α} {v : β}

/-- `HashMap::get`. -/
def find (t : Table α β) (k : α) : Option β := t.lookup k

/-- An entry replaces the one under its key. -/
@[simp] theorem find_insert : find (t.insert k v) = Function.update t.find k (some v) := by
  ext1 k'
  by_cases hk : k' = k
  · subst hk
    simp [find]
  · simp [find, hk, AList.lookup_insert_ne hk]

/-- Without an entry its key is not found. -/
@[simp] theorem find_erase : find (t.erase k) = Function.update t.find k none := by
  ext1 k'
  by_cases hk : k' = k
  · subst hk
    simp [find]
  · simp [find, hk, AList.lookup_erase_ne hk]

/-- `HashMap::values`. -/
def values (t : Table α β) : List β := t.entries.map Sigma.snd

/-- Inserting replaces the value of the key. -/
theorem entries_erase (t : Table α β) (k : α) : (t.erase k).entries = t.entries.kerase k :=
  rfl

/-- A new entry is one value more than without its key. -/
@[simp] theorem values_insert : values (t.insert k v) = v :: values (t.erase k) := by
  simp [values, AList.entries_insert, entries_erase]

/-- Erasing a key takes its value away, and nothing else. -/
theorem values_erase_perm (h : t.find k = some v) :
    t.values.Perm (v :: values (t.erase k)) := by
  have hk : k ∈ t.entries.keys := AList.lookup_isSome.mp (Option.isSome_of_mem h)
  obtain ⟨w, l₁, l₂, _, hl, hrest⟩ := List.exists_of_kerase hk
  have hw : w = v := by
    have hlook : t.entries.dlookup k = some w := by
      rw [hl]
      exact (List.mem_dlookup_iff (hl ▸ t.nodupKeys)).mpr (by simp)
    exact Option.some.inj (hlook.symm.trans h)
  subst hw
  simp only [values, entries_erase, hrest, List.map_append]
  rw [hl, List.map_append, List.map_cons]
  exact List.perm_middle

/-- A key that is not found has no entry to erase. -/
theorem erase_of_none (h : t.find k = none) : t.erase k = t := by
  have hk : k ∉ t.entries.keys := AList.lookup_eq_none.mp h
  exact AList.ext (List.kerase_of_notMem_keys hk)

/-- Erasing adds no value. -/
theorem values_erase_subset (t : Table α β) (k : α) : values (t.erase k) ⊆ t.values :=
  List.map_subset _ (List.kerase_sublist k t.entries).subset

/-- Erasing keeps values apart. -/
theorem nodup_values_erase (h : t.values.Nodup) : (values (t.erase k)).Nodup :=
  h.sublist ((List.kerase_sublist k t.entries).map _)

/-- What is found is a value. -/
theorem mem_values_of_find (h : t.find k = some v) : v ∈ t.values :=
  (values_erase_perm h).symm.subset List.mem_cons_self

end Table

end OxideSource
