/-
**Attaching to a segment.**

A node that is left alone gets through its constructor: a producer that does not find the path creates
the segment, and a node that finds a segment with a complete header of its size passes the checks.

Main definitions:

* `SharedMemory.Advances` — a run of one node.

Main results:

* `SharedMemory.advances_store`, `SharedMemory.advances_check` — the loops of the creator and of
  `ValidateProtocol` end;
* `SharedMemory.advances_attach`, `SharedMemory.advances_create` — **a constructor that is left alone
  returns**.
-/

import CppMultithreaded.ShmInit

set_option relaxedAutoImplicit false
set_option autoImplicit false

namespace SharedMemory

open MpscQueue (headerSize getBufferSizeFromShmSize)

variable {ι : Type*}

/-! ### Attaching -/

section Attach

variable [DecidableEq ι] {args : ι → Args}

/-- A run that takes one node to a program point, and changes neither the other nodes nor the name nor
the sizes. -/
structure Advances (args : ι → Args) (s : State ι) (i : ι) (pc : NodePc) (s' : State ι) : Prop where
  steps : (system args).Steps s s'
  node : s'.node = Function.update s.node i pc
  name : s'.name = s.name
  size : ∀ g, (s'.segment g).size = (s.segment g).size

namespace Advances

variable {s t u : State ι} {i : ι} {g : ℕ} {pc pc' : NodePc}

theorem node_self (h : Advances args s i pc t) : t.node i = pc := by
  rw [h.node, Function.update_self]

theorem trans (h : Advances args s i pc t) (h' : Advances args t i pc' u) :
    Advances args s i pc' u := by
  refine ⟨h.steps.trans h'.steps, ?_, h'.name.trans h.name, fun g => (h'.size g).trans (h.size g)⟩
  rw [h'.node, h.node, Function.update_idem]

/-- A step that moves the node. -/
theorem move (h : s.run args i = some (s.goTo i pc)) : Advances args s i pc (s.goTo i pc) :=
  ⟨Automaton.Steps.single (a := .run i) h, rfl, rfl, fun _ => rfl⟩

/-- A step that moves the node and changes its segment. -/
theorem change {seg : Segment} (h : s.run args i = some ((s.setSegment g seg).goTo i pc))
    (hsize : seg.size = (s.segment g).size) :
    Advances args s i pc ((s.setSegment g seg).goTo i pc) := by
  refine ⟨Automaton.Steps.single (a := .run i) h, rfl, rfl, fun g' => ?_⟩
  change (Function.update s.segment g seg g').size = _
  rcases eq_or_ne g' g with rfl | hne
  · rw [Function.update_self, hsize]
  · rw [Function.update_of_ne hne]

end Advances

variable {s : State ι} {i : ι} {g : ℕ}

theorem access_eq (hsize : headerSize < (s.segment g).size) (f : Field) (s' : State ι) :
    s.access i g f s' = s' :=
  if_pos (f.bound_lt.le.trans hsize.le)

/-- The creator writes the fields that are left. -/
theorem advances_store (args : ι → Args) (hsize : headerSize < (s.segment g).size)
    {todo : List (Field × ℕ)} (htodo : todo ≠ []) (hi : s.node i = .initializeIfNeeded g todo) :
    ∃ s', Advances args s i (.addKind g) s' := by
  induction todo generalizing s with
  | nil => exact absurd rfl htodo
  | cons x rest ih =>
      obtain ⟨f, v⟩ := x
      have hstep : Advances args s i (.afterStore g rest)
          ((s.setSegment g ((s.segment g).store f v)).goTo i (.afterStore g rest)) :=
        Advances.change (by simp only [State.run, hi, access_eq hsize]) rfl
      by_cases hrest : rest = []
      · rw [NodePc.afterStore, if_pos hrest] at hstep
        exact ⟨_, hstep⟩
      · rw [NodePc.afterStore, if_neg hrest] at hstep
        obtain ⟨s', hs'⟩ := ih (by rw [hstep.size]; exact hsize) hrest hstep.node_self
        exact ⟨s', hstep.trans hs'⟩

/-- A node passes the checks that are left. -/
theorem advances_check (args : ι → Args) (hsize : headerSize < (s.segment g).size) {todo : List Check}
    (hi : s.node i = .afterCheck g todo)
    (hpass : ∀ c ∈ todo, (s.segment g).field c.field = c.expected) :
    ∃ s', Advances args s i (.addKind g) s' := by
  induction todo generalizing s with
  | nil =>
      have hnode : Function.update s.node i (.addKind g) = s.node :=
        Function.update_eq_self_iff.2 hi.symm
      exact ⟨s, Automaton.Steps.refl, hnode.symm, rfl, fun _ => rfl⟩
  | cons c rest ih =>
      have hc := hpass c List.mem_cons_self
      have hstep : Advances args s i (.afterCheck g rest) (s.goTo i (.afterCheck g rest)) :=
        Advances.move (by simp only [State.run, hi, NodePc.afterCheck, access_eq hsize, if_pos hc])
      obtain ⟨s', hs'⟩ := ih (s := s.goTo i (.afterCheck g rest)) hsize hstep.node_self
        fun d hd => hpass d (List.mem_cons_of_mem c hd)
      exact ⟨s', hstep.trans hs'⟩

/-- A node adds itself to the counters. -/
theorem advances_add (args : ι → Args) (hsize : headerSize < (s.segment g).size)
    (hi : s.node i = .addKind g) : ∃ s', Advances args s i (.attached g) s' := by
  have hkind : Advances args s i (.addRef g)
      ((s.setSegment g ((s.segment g).fetchAdd (args i).kind.counter)).goTo i (.addRef g)) :=
    Advances.change (by simp only [State.run, hi, access_eq hsize]) rfl
  have href : ∀ t : State ι, headerSize < (t.segment g).size → t.node i = .addRef g →
      Advances args t i (.attached g)
        ((t.setSegment g ((t.segment g).fetchAdd .refCount)).goTo i (.attached g)) := by
    intro t ht hpc
    exact Advances.change (by simp only [State.run, hpc, access_eq ht]) rfl
  exact ⟨_, hkind.trans (href _ (by rw [hkind.size]; exact hsize) hkind.node_self)⟩

omit [DecidableEq ι] in
/-- What the checks of a node expect is in a complete header of its size. -/
theorem field_eq_of_check (hpub : (s.segment g).Published) {a : Args}
    (ha : a.shmSize = (s.segment g).size) {c : Check} (hc : c ∈ checks a) :
    (s.segment g).field c.field = c.expected := by
  have hmagic := hpub.magic
  have hversion := hpub.version
  have hshmSize := hpub.shmSize.trans ha.symm
  have hbufferSize : (s.segment g).field .bufferSize = a.shmSize - headerSize := by
    rw [ha]
    exact hpub.bufferSize
  have hinitState := hpub.initState
  cases hk : a.kind with
  | producer =>
      simp only [checks, hk, List.mem_append, List.mem_cons, List.not_mem_nil, or_false] at hc
      rcases hc with (rfl | rfl | rfl | rfl) | rfl <;> assumption
  | consumer =>
      simp only [checks, hk, List.append_nil, List.mem_cons, List.not_mem_nil, or_false] at hc
      rcases hc with rfl | rfl | rfl | rfl <;> assumption

/-- A constructor that finds the path opens the segment. -/
theorem advances_open (args : ι → Args) (hname : s.name = some g) (hi : s.node i = .absent) :
    Advances args s i (.map g false) (s.goTo i (.map g false)) := by
  have hgo : ∀ pc pc', (s.goTo i pc).goTo i pc' = s.goTo i pc' := by
    intro pc pc'
    simp only [State.goTo, Function.update_idem]
  have hlast : Advances args (s.goTo i .openExisting) i (.map g false) (s.goTo i (.map g false)) := by
    have hmove : (s.goTo i .openExisting).run args i =
        some ((s.goTo i .openExisting).goTo i (.map g false)) := by
      simp only [State.run, State.node_goTo_self]
      rw [State.goTo, hname]
    rw [← hgo .openExisting (.map g false)]
    exact Advances.move hmove
  cases hk : (args i).kind with
  | producer =>
      have hfirst : Advances args s i .openExclusive (s.goTo i .openExclusive) :=
        Advances.move (by simp only [State.run, hi, NodePc.first, hk])
      have hexists : Advances args (s.goTo i .openExclusive) i .openExisting
          (s.goTo i .openExisting) := by
        rw [← hgo .openExclusive .openExisting]
        refine Advances.move ?_
        simp only [State.run, State.node_goTo_self]
        rw [State.goTo, hname]
      exact (hfirst.trans hexists).trans hlast
  | consumer =>
      have hfirst : Advances args s i .openExisting (s.goTo i .openExisting) :=
        Advances.move (by simp only [State.run, hi, NodePc.first, hk])
      exact hfirst.trans hlast

theorem afterMap_eq {a : Args} (ha : headerSize < a.shmSize) (g : ℕ) (creator : Bool) :
    NodePc.afterMap a g creator =
      if creator then .initializeIfNeeded g (stores a.shmSize) else .waitReady g := by
  rw [NodePc.afterMap, getBufferSizeFromShmSize, if_neg (not_le.2 ha)]

/-- **A node that finds a segment with a complete header of its size attaches to it.** -/
theorem advances_attach (args : ι → Args) (hname : s.name = some g) (hpub : (s.segment g).Published)
    (hargs : (args i).shmSize = (s.segment g).size) (hi : s.node i = .absent) :
    ∃ s', Advances args s i (.attached g) s' := by
  have hsize := hpub.size
  have hopen := advances_open args hname hi
  -- the node maps the segment, and finds it ready
  have hmap : ∀ t : State ι, t.node i = .map g false →
      Advances args t i (.waitReady g) (t.goTo i (.waitReady g)) := by
    intro t ht
    refine Advances.move ?_
    simp only [State.run, ht]
    rw [afterMap_eq (by rw [hargs]; exact hsize)]
    rfl
  have hready : ∀ t : State ι, t.segment = s.segment → t.node i = .waitReady g →
      Advances args t i (.afterCheck g (checks (args i)))
        (t.goTo i (.afterCheck g (checks (args i)))) := by
    intro t hseg ht
    refine Advances.move ?_
    have htsize : headerSize < (t.segment g).size := by rw [hseg]; exact hsize
    have htready : (t.segment g).field .initState = InitState.ready.code := by
      rw [hseg]
      exact hpub.initState
    simp only [State.run, ht, access_eq htsize, if_pos htready]
  have hwaits := hopen.trans (hmap _ hopen.node_self)
  have hchecks := hwaits.trans (hready _ rfl hwaits.node_self)
  obtain ⟨t, ht⟩ := advances_check args
    (s := ((s.goTo i (.map g false)).goTo i (.waitReady g)).goTo i (.afterCheck g (checks (args i))))
    hsize hchecks.node_self fun c hc => field_eq_of_check hpub hargs hc
  have hpassed := hchecks.trans ht
  obtain ⟨u, hu⟩ := advances_add args (by rw [hpassed.size]; exact hsize)
    hpassed.node_self
  exact ⟨u, hpassed.trans hu⟩

/-- **A producer that does not find the path creates the segment and attaches to it.** -/
theorem advances_create (args : ι → Args) (hname : s.name = none) (hk : (args i).kind = .producer)
    (hsize : headerSize < (args i).shmSize) (hi : s.node i = .absent) :
    ∃ s', (system args).Steps s s' ∧ s'.node = Function.update s.node i (.attached s.created) ∧
      s'.name = some s.created ∧ (s'.segment s.created).size = (args i).shmSize := by
  have hfirst : Advances args s i .openExclusive (s.goTo i .openExclusive) :=
    Advances.move (by simp only [State.run, hi, NodePc.first, hk])
  obtain ⟨c, hc⟩ : ∃ c, c = (s.goTo i .openExclusive).create i := ⟨_, rfl⟩
  have hcreate : (system args).Steps (s.goTo i .openExclusive) c := by
    refine Automaton.Steps.single (a := .run i) ?_
    change (s.goTo i .openExclusive).run args i = some c
    simp only [State.run, hfirst.node_self]
    rw [hfirst.name, hname, hc]
  have hnode : c.node = Function.update s.node i (.truncate s.created) := by
    rw [hc]
    exact Function.update_idem _ _ _
  have hself : c.node i = .truncate s.created := by
    rw [hnode, Function.update_self]
  have hcname : c.name = some s.created := by rw [hc]; rfl
  -- the creator sizes the segment
  obtain ⟨d, hd⟩ : ∃ d, d = (c.setSegment s.created
      { c.segment s.created with size := (args i).shmSize }).goTo i (.map s.created true) := ⟨_, rfl⟩
  have htruncate : (system args).Steps c d := by
    refine Automaton.Steps.single (a := .run i) ?_
    change c.run args i = some d
    simp only [State.run, hself]
    rw [hd]
  have hdself : d.node i = .map s.created true := by
    rw [hd]
    exact Function.update_self _ _ _
  have hdsize : (d.segment s.created).size = (args i).shmSize := by
    rw [hd]
    simp only [State.goTo, State.setSegment, Function.update_self]
  -- the header is written, and the node adds itself
  have hmap : Advances args d i (.initializeIfNeeded s.created (stores (args i).shmSize))
      (d.goTo i (.initializeIfNeeded s.created (stores (args i).shmSize))) := by
    refine Advances.move ?_
    simp only [State.run, hdself]
    rw [afterMap_eq hsize]
    rfl
  obtain ⟨t, ht⟩ := advances_store args
    (s := d.goTo i (.initializeIfNeeded s.created (stores (args i).shmSize)))
    (by rw [hmap.size, hdsize]; exact hsize) (by simp [stores]) hmap.node_self
  have hwritten := hmap.trans ht
  obtain ⟨u, hu⟩ := advances_add args
    (by rw [hwritten.size, hdsize]; exact hsize) hwritten.node_self
  have hlast := hwritten.trans hu
  refine ⟨u, ((hfirst.steps.trans hcreate).trans htruncate).trans hlast.steps, ?_, ?_, ?_⟩
  · rw [hlast.node, hd]
    simp only [State.goTo, State.setSegment, Function.update_idem]
    rw [hnode, Function.update_idem]
  · rw [hlast.name, hd]
    exact hcname
  · rw [hlast.size, hdsize]

end Attach

end SharedMemory
