import OxideSource.Mem.Contents

/-!
# What the threads see of each other

Runs of the whole store: it is indistinguishable from private copies, its reference counts
are exact, an id is registered as its last writer left it, and a reader sees nothing of
what happens to its id after it was opened.
-/

namespace OxideSource

open Uri

namespace MemAction

variable [Target]

/-- The action without the choice that the allocator makes. -/
def anywhere : MemAction → MemAction
  | .put id data _ => .put id data 0
  | a => a

/-- What an action leaves registered under an id, when it writes there. -/
def writes (id : Text) : MemAction → Option (Option Buffer)
  | .put id' data _ => if id' = id then some (some data) else none
  | .remove id' => if id' = id then some none else none
  | .clear => some none
  | _ => none

theorem writes_eq_put {id : Text} {a : MemAction} {D : Buffer} (h : a.writes id = some (some D)) :
    ∃ addr, a = .put id D addr := by
  cases a with
  | put id' data addr =>
      simp only [writes] at h
      split at h
      · rename_i hid
        cases h
        exact ⟨addr, by rw [hid]⟩
      · cases h
  | remove id' =>
      simp only [writes] at h
      split at h <;> cases h
  | _ => cases h

/-- The call that an action makes on the reader of a name. -/
def opOn (name : Nat) : MemAction → Option IoOp
  | .call name' op => if name' = name then some op else none
  | _ => none

end MemAction

/-- What the caller of a reader sees. -/
def MemObs.callOn (name : Nat) : MemObs → Option IoObs
  | .called name' obs => if name' = name then some obs else none
  | _ => none

theorem MemReader.perform_buf [Target] (r : MemReader) (op : IoOp) :
    (perform r op).2.buf = r.buf := by
  cases op with
  | read n =>
      change (r.read n).2.buf = r.buf
      unfold MemReader.read
      split
      · rfl
      · dsimp only
        split <;> rfl
  | seek f =>
      obtain ⟨q, _, hq⟩ := MemReader.seek_step (fun _ => True) r f
      change (r.seek f).2.buf = r.buf
      rw [hq]

namespace Contents

variable [Target] {c c' : Contents} {a : MemAction} {o : Option MemObs} {id : Text} {name : Nat}

/-- Where a buffer lies makes no difference. -/
theorem step_anywhere (c : Contents) (a : MemAction) : c.step a.anywhere = c.step a := by
  cases a <;> rfl

theorem run_anywhere {t : Contents} {as bs : List MemAction} {os : List MemObs}
    (hab : as.map MemAction.anywhere = bs.map MemAction.anywhere)
    (h : machine.run c as = some (t, os)) : machine.run c bs = some (t, os) := by
  induction as generalizing c bs os with
  | nil =>
      obtain rfl := List.map_eq_nil_iff.mp hab.symm
      exact h
  | cons a as ih =>
      obtain ⟨b, bs, rfl, hb, hbs⟩ := List.map_eq_cons_iff.mp hab.symm
      obtain ⟨c', o, os', hst, hr, rfl⟩ := Machine.run_cons.mp h
      refine Machine.run_cons.mpr ⟨c', o, os', ?_, ih hbs.symm hr, rfl⟩
      change c.step b = some (c', o)
      rw [← step_anywhere, hb, step_anywhere]
      exact hst

/-- A step changes what is registered under an id only by writing there. -/
theorem step_mem (h : c.step a = some (c', o)) (id : Text) :
    c'.mem id = (a.writes id).getD (c.mem id) := by
  cases a with
  | put id' data addr =>
      simp only [step, Option.some.injEq, Prod.mk.injEq] at h
      obtain ⟨rfl, _⟩ := h
      by_cases hid : id' = id
      · simp [MemAction.writes, hid]
      · simp [MemAction.writes, hid, Function.update_of_ne (Ne.symm hid)]
  | remove id' =>
      simp only [step, Option.some.injEq, Prod.mk.injEq] at h
      obtain ⟨rfl, _⟩ := h
      by_cases hid : id' = id
      · simp [MemAction.writes, hid]
      · simp [MemAction.writes, hid, Function.update_of_ne (Ne.symm hid)]
  | clear =>
      simp only [step, Option.some.injEq, Prod.mk.injEq] at h
      obtain ⟨rfl, _⟩ := h
      rfl
  | openMem name uri =>
      simp only [step] at h
      split at h
      · cases h
      · split at h <;>
          · simp only [Option.some.injEq, Prod.mk.injEq] at h
            obtain ⟨rfl, _⟩ := h
            rfl
  | call name op =>
      obtain ⟨b, _, heq⟩ := Option.map_eq_some_iff.mp h
      obtain ⟨rfl, _⟩ := Prod.mk.inj heq
      rfl
  | close name =>
      obtain ⟨b, _, heq⟩ := Option.map_eq_some_iff.mp h
      obtain ⟨rfl, _⟩ := Prod.mk.inj heq
      rfl

/-- As long as a reader is not closed, it moves by its own calls and nothing else. -/
theorem step_reader {D : Buffer} {r : MemReader} (hbuf : r.buf = D.val)
    (hr : c.reader name = some (D, r.pos)) (ha : a ≠ .close name)
    (h : c.step a = some (c', o)) :
    c'.reader name = some (D, (performAll r (a.opOn name).toList).2.pos) ∧
      (o.bind (MemObs.callOn name)).toList = (performAll r (a.opOn name).toList).1 := by
  cases a with
  | openMem name' uri =>
      have hne : name ≠ name' := by
        rintro rfl
        simp [step, hr] at h
      simp only [step] at h
      split at h
      · cases h
      · split at h <;>
          · simp only [Option.some.injEq, Prod.mk.injEq] at h
            obtain ⟨rfl, rfl⟩ := h
            simp [MemAction.opOn, MemObs.callOn, performAll, hr, Function.update_of_ne hne]
  | call name' op =>
      obtain ⟨b, hb, heq⟩ := Option.map_eq_some_iff.mp h
      generalize hop : perform (memReader b) op = x at heq
      obtain ⟨obs, r'⟩ := x
      obtain ⟨rfl, rfl⟩ := Prod.mk.inj heq
      by_cases hname : name' = name
      · subst hname
        obtain rfl := Option.some.inj (hb.symm.trans hr)
        have hsame : memReader (D, r.pos) = r := by rw [memReader, ← hbuf]
        rw [hsame] at hop
        simp [MemAction.opOn, MemObs.callOn, performAll, hop]
      · simp [MemAction.opOn, MemObs.callOn, performAll, hname, hr,
          Function.update_of_ne (Ne.symm hname)]
  | close name' =>
      have hne : name ≠ name' := fun he => ha (by rw [he])
      obtain ⟨b, _, heq⟩ := Option.map_eq_some_iff.mp h
      obtain ⟨rfl, rfl⟩ := Prod.mk.inj heq
      simp [MemAction.opOn, performAll, hr, Function.update_of_ne hne]
  | put id data addr =>
      simp only [step, Option.some.injEq, Prod.mk.injEq] at h
      obtain ⟨rfl, rfl⟩ := h
      exact ⟨hr, rfl⟩
  | remove id =>
      simp only [step, Option.some.injEq, Prod.mk.injEq] at h
      obtain ⟨rfl, rfl⟩ := h
      exact ⟨hr, rfl⟩
  | clear =>
      simp only [step, Option.some.injEq, Prod.mk.injEq] at h
      obtain ⟨rfl, rfl⟩ := h
      exact ⟨hr, rfl⟩

/-- The calls on one reader, out of a run of all threads, are calls on a reader of its own. -/
theorem run_reader {D : Buffer} {r : MemReader} {as : List MemAction} {os : List MemObs}
    (hbuf : r.buf = D.val) (hr : c.reader name = some (D, r.pos)) (has : .close name ∉ as)
    (h : machine.run c as = some (c', os)) :
    os.filterMap (MemObs.callOn name) = (performAll r (as.filterMap (MemAction.opOn name))).1 := by
  induction as generalizing c r os with
  | nil =>
      obtain ⟨_, rfl⟩ := Prod.mk.inj (Option.some.inj h)
      rfl
  | cons a as ih =>
      obtain ⟨c₁, o, os', hst, hrun, rfl⟩ := Machine.run_cons.mp h
      obtain ⟨ha, has'⟩ := not_or.mp (mt List.mem_cons.mpr has)
      obtain ⟨hr₁, hobs⟩ := step_reader hbuf hr (Ne.symm ha) hst
      cases hop : a.opOn name with
      | none =>
          rw [hop] at hr₁ hobs
          have htail := ih hbuf hr₁ has' hrun
          cases o <;> simp_all [performAll]
      | some op =>
          rw [hop] at hr₁ hobs
          have htail := ih (r := (perform r op).2) (by rw [MemReader.perform_buf, hbuf]) hr₁ has' hrun
          cases o <;> simp_all [performAll]

end Contents

namespace MemStore

variable [Target] {s : MemStore} {as : List MemAction} {os : List MemObs}

/-- Every run of the store is a run of its contents. -/
theorem run_contents (hs : s.Sound) {t : MemStore} (h : machine.run s as = some (t, os)) :
    t.Sound ∧ Contents.machine.run s.contents as = some (t.contents, os) := by
  have hstep : ∀ {s a s' o}, Sound s → machine.step s a = some (s', o) →
      s'.Sound ∧ Contents.machine.step s.contents a = some (s'.contents, o) := by
    intro s a s' o hs h
    rcases step_spec hs (placed_of_step h) with ⟨hnone, _⟩ | ⟨t, o', hst, ht, hview⟩
    · rw [show s.step a = some (s', o) from h] at hnone
      cases hnone
    · obtain ⟨rfl, rfl⟩ := Prod.mk.inj (Option.some.inj (hst.symm.trans h))
      exact ⟨ht, hview⟩
  refine ⟨Machine.run_invariant (fun hs h => (hstep hs h).1) hs h, ?_⟩
  have hloud : ∀ {s a s' o}, Sound s → machine.step s a = some (s', o) →
      Contents.machine.step s.contents a = some (s'.contents, o) ∨
        o = none ∧ Function.const MemAction false a = true ∧ s'.contents = s.contents :=
    fun hs h => .inl (hstep hs h).2
  obtain ⟨bs, _, hfilter, hrun⟩ :=
    Machine.run_simulate (fun hs h => (hstep hs h).1) hloud hs h
  simp only [Function.const_apply, Bool.not_false, List.filter_true] at hfilter
  rwa [hfilter] at hrun

/-- The allocator always finds room for what an action stores. -/
theorem exists_placed (hs : s.Sound) (a : MemAction) :
    ∃ a', MemAction.anywhere a' = a.anywhere ∧ s.Placed a' := by
  cases a with
  | put id data addr =>
      obtain ⟨addr', h', hnew⟩ := hs.owned.exists_new data
      exact ⟨.put id data addr', rfl, hs.owned.free (hs.owned.new hnew).2.1⟩
  | _ => exact ⟨_, rfl, trivial⟩

/-- The store is indistinguishable from private copies: it takes exactly the runs of its
contents, wherever the allocator puts the buffers, with the same observations. -/
theorem run_iff_contents {t : Contents} :
    Contents.machine.run .empty as = some (t, os) ↔
      ∃ as' s, as'.map MemAction.anywhere = as.map MemAction.anywhere ∧
        machine.run empty as' = some (s, os) ∧ s.contents = t := by
  constructor
  · intro h
    refine Machine.run_reflect (I := Sound) ?_ sound_empty h
    intro s a t o hs hst
    obtain ⟨a', hkind, hplaced⟩ := exists_placed hs a
    have hst' : s.contents.step a' = some (t, o) := by
      rw [← Contents.step_anywhere, hkind, Contents.step_anywhere]
      exact hst
    rcases step_spec hs hplaced with ⟨_, hnone⟩ | ⟨s', o', hmove, hs', hview⟩
    · rw [hst'] at hnone
      cases hnone
    · obtain ⟨rfl, rfl⟩ := Prod.mk.inj (Option.some.inj (hview.symm.trans hst'))
      exact ⟨a', s', hkind, hmove, hs', rfl⟩
  · rintro ⟨as', s, hkind, h, rfl⟩
    exact Contents.run_anywhere hkind (run_contents sound_empty h).2

/-- A buffer has as many owners as ids and readers hold it, no two ids hold the same, and
it is freed with its last owner. -/
theorem counts_exact (h : machine.Reach empty s) (a : Nat) :
    ((s.heap a).isSome ↔ a ∈ s.table.values ∨ a ∈ s.readers.values.map MemHandle.buf) ∧
      s.table.values.count a ≤ 1 ∧ ∀ c, s.heap a = some c →
        c.strong = s.table.values.count a + (s.readers.values.map MemHandle.buf).count a := by
  obtain ⟨as, os, hrun⟩ := h
  have hs := (run_contents sound_empty hrun).1
  have hcount := hs.owned a
  refine ⟨?_, List.nodup_iff_count_le_one.mp hs.distinct a, ?_⟩
  · by_cases ha : a ∈ s.owners
    · obtain ⟨c, hc, _⟩ := hs.owned.live ha
      simpa [hc, owners] using ha
    · simpa [hs.owned.free ha, owners] using ha
  · intro c hc
    rw [hc] at hcount
    by_cases ha : a ∈ s.owners
    · rw [if_pos ha, Option.map_some, Option.some.injEq] at hcount
      rw [hcount, owners, List.count_append]
    · rw [if_neg ha] at hcount
      cases hcount

omit [Target] in
/-- One id and two readers share a buffer, which was put a second time and elsewhere. -/
theorem counts_exact_shared :
    letI := target64
    ∃ s : MemStore, machine.Reach empty s ∧ s.heap 7 = none ∧ (s.heap 3).map Shared.strong = some 3 ∧
      ((s.heap 3).isSome ↔ 3 ∈ s.table.values ∨ 3 ∈ s.readers.values.map MemHandle.buf) := by
  let := target64
  have hrun : machine.Reach empty _ := ⟨[.put ['a'] ⟨[1], by decide⟩ 7,
    .put ['a'] ⟨[1, 2, 3], by decide⟩ 3, .openMem 0 "mem://a".toList,
    .openMem 1 "mem:a".toList], _, rfl⟩
  exact ⟨_, hrun, rfl, rfl, (counts_exact hrun 3).1⟩

/-- An id is registered as its last writer left it. -/
theorem bytesOf_run {t : MemStore} (h : machine.run empty as = some (t, os)) {id : Text}
    {D : Buffer} : t.bytesOf id = some D ↔
      ∃ before addr after, as = before ++ .put id D addr :: after ∧
        ∀ a ∈ after, a.writes id = none := by
  have hlast : t.bytesOf id = (as.reverse.findSome? (MemAction.writes id)).getD none :=
    Machine.run_lastWrite (I := fun _ => True) (fun _ hst => ⟨trivial, Contents.step_mem hst id⟩)
      trivial (run_contents sound_empty h).2
  rw [hlast]
  constructor
  · intro hD
    have hsome : as.reverse.findSome? (MemAction.writes id) = some (some D) := by
      cases hf : as.reverse.findSome? (MemAction.writes id) with
      | none => rw [hf] at hD; cases hD
      | some b => rw [hf] at hD; exact congrArg some hD
    obtain ⟨after, a, before, has, ha, hafter⟩ := List.findSome?_eq_some_iff.mp hsome
    obtain ⟨addr, rfl⟩ := MemAction.writes_eq_put ha
    refine ⟨before.reverse, addr, after.reverse, ?_, fun a ha => hafter a (List.mem_reverse.mp ha)⟩
    have has' := congrArg List.reverse has
    simpa using has'
  · rintro ⟨before, addr, after, rfl, hafter⟩
    have hsome : (before ++ MemAction.put id D addr :: after).reverse.findSome?
        (MemAction.writes id) = some (some D) := by
      apply List.findSome?_eq_some_iff.mpr
      refine ⟨after.reverse, .put id D addr, before.reverse, by simp, ?_, ?_⟩
      · simp [MemAction.writes]
      · intro a ha
        exact hafter a (List.mem_reverse.mp ha)
    rw [hsome, Option.getD_some]

/-- Opening under an unused name succeeds exactly on a well-formed, registered id, and
the new reader starts at the front of its bytes. -/
theorem step_openMem (hs : s.Sound) {name : Nat} (hname : s.readers.find name = none) (uri : Text) :
    (∃ t, s.step (.openMem name uri) = some (t, some (.opened name (.ok ())))) ↔
      schemeIs (split uri).1 "mem".toList = true ∧ (split uri).2 ≠ [] ∧ '/' ∉ (split uri).2 ∧
        ∃ D, s.bytesOf (split uri).2 = some D := by
  rcases openMem_spec hs hname uri with ⟨e, hopen, hstep⟩ | ⟨D, t, hopen, hmem, hstep, _, _⟩
  · constructor
    · rintro ⟨t, ht⟩
      simp [step, hname, hstep] at ht
    · rintro ⟨hscheme, hempty, hslash, D, hD⟩
      have hok := (Contents.openMem_eq_ok (c := s.contents)).mpr ⟨hscheme, hempty, hslash, D, hD, rfl⟩
      rw [hopen] at hok
      cases hok
  · obtain ⟨hscheme, hempty, hslash, _⟩ := Contents.openMem_eq_ok.mp hopen
    constructor
    · rintro _
      exact ⟨hscheme, hempty, hslash, D, hmem⟩
    · rintro _
      exact ⟨t, by simp [step, hname, hstep]⟩

/-- `remove` answers whether the last write of its id was a `put`, and a URI opens exactly
when that is so of its id and the id is one that `open_mem` accepts. -/
theorem last_writer_wins {t : MemStore} (h : machine.run empty as = some (t, os)) :
    (∀ id, (∃ t', t.step (.remove id) = some (t', some (.removed true))) ↔
      ∃ before D addr after, as = before ++ .put id D addr :: after ∧
        ∀ a ∈ after, a.writes id = none) ∧
    ∀ name uri, t.readers.find name = none →
      ((∃ t', t.step (.openMem name uri) = some (t', some (.opened name (.ok ())))) ↔
        schemeIs (split uri).1 "mem".toList = true ∧ (split uri).2 ≠ [] ∧ '/' ∉ (split uri).2 ∧
          ∃ before D addr after, as = before ++ .put (split uri).2 D addr :: after ∧
            ∀ a ∈ after, a.writes (split uri).2 = none) := by
  have hs := (run_contents sound_empty h).1
  have hlast : ∀ id, (∃ D, t.bytesOf id = some D) ↔
      ∃ before D addr after, as = before ++ .put id D addr :: after ∧
        ∀ a ∈ after, a.writes id = none := by
    intro id
    simp only [bytesOf_run h]
    exact exists_comm
  refine ⟨fun id => ?_, fun name uri hname => ?_⟩
  · obtain ⟨t', hremove, _, _⟩ := remove_spec hs id
    rw [← hlast id, ← Option.isSome_iff_exists]
    simp [step, hremove]
  · rw [step_openMem hs hname uri, hlast]

omit [Target] in
/-- A second `put` brings an id back that was removed. -/
theorem last_writer_wins_again :
    letI := target64
    ∃ s : MemStore, machine.Reach empty s ∧
      ∃ t, s.step (.openMem 0 "mem://a".toList) = some (t, some (.opened 0 (.ok ()))) := by
  let := target64
  have hrun : machine.run empty [.put ['a'] ⟨[1], by decide⟩ 0, .remove ['a'],
    .put ['a'] ⟨[2], by decide⟩ 0, .remove ['b']] = some (_, _) := rfl
  refine ⟨_, ⟨_, _, hrun⟩, ((last_writer_wins hrun).2 0 _ rfl).mpr ⟨rfl, by decide, by decide, ?_⟩⟩
  refine ⟨[.put ['a'] ⟨[1], by decide⟩ 0, .remove ['a']], ⟨[2], by decide⟩, 0, [.remove ['b']],
    rfl, ?_⟩
  intro a ha
  obtain rfl := List.mem_singleton.mp ha
  rfl

/-- A reader sees the bytes that were registered when it was opened, as a reader alone in
the process would, whatever happens to its id and to other readers meanwhile. -/
theorem reader_isolated {before after : List MemAction} {s₁ s₂ s₃ : MemStore}
    {os₁ os₂ : List MemObs} {name : Nat} {uri : Text}
    (hbefore : machine.run empty before = some (s₁, os₁))
    (hopen : s₁.step (.openMem name uri) = some (s₂, some (.opened name (.ok ()))))
    (hafter : machine.run s₂ after = some (s₃, os₂)) (hkeep : .close name ∉ after) :
    ∃ early D addr late, before = early ++ .put (split uri).2 D addr :: late ∧
      (∀ a ∈ late, a.writes (split uri).2 = none) ∧
      os₂.filterMap (MemObs.callOn name) =
        (performAll (MemReader.new D.val) (after.filterMap (MemAction.opOn name))).1 := by
  have hs₁ := (run_contents sound_empty hbefore).1
  have hname : s₁.readers.find name = none := by
    by_contra hused
    simp [step, Option.isSome_iff_ne_none.mpr hused] at hopen
  rcases openMem_spec hs₁ hname uri with ⟨e, _, hstep⟩ | ⟨D, t, _, hmem, hstep, ht, hview⟩
  · simp [step, hname, hstep] at hopen
  · obtain rfl : t = s₂ := by simpa [step, hname, hstep] using hopen
    obtain ⟨early, addr, late, hbefore, hlate⟩ := (bytesOf_run hbefore).mp hmem
    refine ⟨early, D, addr, late, hbefore, hlate, ?_⟩
    refine Contents.run_reader (D := D) rfl ?_ hkeep (run_contents ht hafter).2
    rw [hview]
    exact Function.update_self _ _ _

omit [Target] in
/-- The id of an open reader is overwritten and the table cleared. -/
theorem reader_isolated_cleared :
    letI := target64
    ∃ early D addr late, [MemAction.put ['a'] ⟨[1, 2, 3], by decide⟩ 0] =
        early ++ .put ['a'] D addr :: late ∧ (∀ a ∈ late, a.writes ['a'] = none) ∧
      [IoObs.read 2 (.ok [1, 2]), .read 5 (.ok [3])] =
        (performAll (MemReader.new D.val) [.read 2, .read 5]).1 := by
  let := target64
  have hbefore : machine.run empty [.put ['a'] ⟨[1, 2, 3], by decide⟩ 0] = some (_, _) := rfl
  refine @reader_isolated target64 _ [.put ['a'] ⟨[9], by decide⟩ 1, .call 0 (.read 2), .clear,
    .call 0 (.read 5)] _ ?opened ?last _ [.called 0 (.read 2 (.ok [1, 2])),
    .called 0 (.read 5 (.ok [3]))] 0 "mem://a".toList hbefore ?hopen ?hafter (by simp)
  case hopen => rfl
  case hafter => rfl

end MemStore

end OxideSource
