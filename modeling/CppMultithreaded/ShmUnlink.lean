/-
**The name of a segment.**

A consumer whose `fetch_sub` takes the last reference removes the name of the segment.  The path is
resolved again by `shm_unlink`, and a node that opens the segment adds itself to `refCount` much later.
So a node can open the segment in the meantime, or have it open already: it then stays on a segment
without a name, and the next producer creates another one.

Main definitions:

* `SharedMemory.NodePc.joining?` — a node between `shm_open` and its `fetch_add` on `refCount`;
* `SharedMemory.Action.Careful`, `SharedMemory.carefulSystem` — no node joins while a consumer takes the
  last reference and removes the name;
* `SharedMemory.Named` — the invariant of the name.

Main results:

* `SharedMemory.Named.step` — every careful step keeps the invariant;
* `SharedMemory.nodes_share_segment` — **attached nodes are on one segment, and the name of a segment is
  removed only when nobody is on it**;
* `SharedMemory.unlink_of_careless` — a step that is not careful leads to the opposite;
* `SharedMemory.unlink_splits` — a node that is attached when the name is removed is cut off from the
  nodes that come later;
* `SharedMemory.attached_nodes_split` — such a run.
-/

import CppMultithreaded.ShmRegistration

set_option relaxedAutoImplicit false
set_option autoImplicit false

namespace SharedMemory

open MpscQueue (headerSize)

variable {ι : Type*}

/-! ### Careful steps -/

/-- The segment that a node has opened, without having added itself to `refCount`. -/
def NodePc.joining? : NodePc → Option ℕ
  | .truncate g | .map g _ | .initializeIfNeeded g _ | .waitReady g | .validate g _ | .addKind g
  | .addRef g => some g
  | _ => none

/-- The segment whose name a node is about to remove. -/
def NodePc.unlinking? : NodePc → Option ℕ
  | .unlink g => some g
  | _ => none

theorem NodePc.unlinking_eq_some {pc : NodePc} {g : ℕ} (h : pc.unlinking? = some g) :
    pc = .unlink g := by
  cases pc <;> simp_all [unlinking?]

theorem NodePc.segment_of_joining {pc : NodePc} {g : ℕ} (h : pc.joining? = some g) :
    pc.segment? = some g := by
  cases pc <;> simp_all [joining?, segment?]

/-- A node on a segment is joining it, counted on it, or about to remove its name. -/
theorem NodePc.of_segment {pc : NodePc} {g : ℕ} (h : pc.segment? = some g) :
    pc.joining? = some g ∨ pc.refCounted? = some g ∨ pc = .unlink g := by
  cases pc <;> simp_all [segment?, joining?, refCounted?]

section Careful

variable [Fintype ι] [DecidableEq ι]

/-- **Careful steps**: no consumer takes the last reference while a node is joining, no node opens the
segment between that and the `shm_unlink`, and `refCount` does not wrap. -/
def Action.Careful (args : ι → Args) (s : State ι) : Action ι → Bool
  | .run i =>
      match s.node i with
      | .subRef g =>
          decide ((args i).kind = .consumer → (s.segment g).field .refCount = 1 →
            ∀ j, (s.node j).joining? ≠ some g)
      | .openExisting => decide (∀ j, s.name.isSome → (s.node j).unlinking? ≠ s.name)
      | .addRef g => decide ((s.segment g).field .refCount + 1 < 2 ^ 32)
      | _ => true
  | .fail _ => true

/-- The nodes on one path, with careful steps only. -/
def carefulSystem (args : ι → Args) : Automaton (State ι) (Action ι) :=
  (system args).restrict fun s a => a.Careful args s = true

/-! ### The name along a run -/

/-- **The invariant of the name**: it names the segment that nodes are on, and a node that is about to
remove it is alone. -/
structure Named (s : State ι) : Prop where
  named : ∀ i g, (s.node i).segment? = some g → s.name = some g
  alone : ∀ i g, s.node i = .unlink g → ∀ j, j ≠ i → (s.node j).segment? = none
  refCount_lt : ∀ g, s.refCount g < 2 ^ 32

namespace Named

variable {args : ι → Args} {s s' : State ι}

omit [DecidableEq ι] in
theorem initial : Named (State.initial : State ι) := by
  constructor <;> simp [State.initial, NodePc.segment?, NodePc.refCounted?, State.refCount]

/-- A node moves on, on its segment or away from it. -/
theorem goTo (h : Named s) {i : ι} {pc : NodePc}
    (hpc : ∀ g, pc.segment? = some g → (s.node i).segment? = some g)
    (hunlink : ∀ g, pc ≠ .unlink g) (hcount : ∀ g, (s.goTo i pc).refCount g < 2 ^ 32) :
    Named (s.goTo i pc) := by
  refine ⟨?_, ?_, hcount⟩
  · intro j g hj
    rcases eq_or_ne j i with rfl | hne
    · rw [State.node_goTo_self] at hj
      exact h.named j g (hpc g hj)
    · rw [State.node_goTo_of_ne _ hne] at hj
      exact h.named j g hj
  · intro j g hj k hk
    rcases eq_or_ne j i with rfl | hne
    · rw [State.node_goTo_self] at hj
      exact absurd hj (hunlink g)
    · rw [State.node_goTo_of_ne _ hne] at hj
      have halone := h.alone j g hj k hk
      rcases eq_or_ne k i with rfl | hki
      · rw [State.node_goTo_self]
        by_contra hsome
        obtain ⟨g', hg'⟩ := Option.ne_none_iff_exists'.1 hsome
        simp [hpc g' hg'] at halone
      · rw [State.node_goTo_of_ne _ hki]
        exact halone

/-- A node that is not counted before is not counted then. -/
theorem stay (h : Named s) {i : ι} {pc : NodePc}
    (hpc : ∀ g, pc.segment? = some g → (s.node i).segment? = some g)
    (hunlink : ∀ g, pc ≠ .unlink g)
    (hcounted : ∀ g, pc.refCounted? = some g → (s.node i).refCounted? = some g) :
    Named (s.goTo i pc) := by
  refine h.goTo hpc hunlink fun g => ?_
  have hlt := h.refCount_lt g
  have hcount := refCount_goTo (s := s) i pc g
  by_cases hnew : pc.refCounted? = some g
  · rw [if_pos hnew, if_pos (hcounted g hnew)] at hcount
    omega
  · rw [if_neg hnew] at hcount
    omega

theorem goOut (h : Named s) (i : ι) {pc : NodePc} (hpc : pc.segment? = none) :
    Named (s.goTo i pc) := by
  refine h.stay (by simp [hpc]) ?_ ?_
  · rintro g rfl
    simp [NodePc.segment?] at hpc
  · intro g hg
    simp [NodePc.segment_of_passed (NodePc.passed_of_refCounted hg)] at hpc

/-- A node goes on with its segment. -/
theorem goOn (h : Named s) {i : ι} {g : ℕ} {pc : NodePc} (hi : (s.node i).segment? = some g)
    (hpc : pc.segment? = some g) (hunlink : ∀ g, pc ≠ .unlink g)
    (hcounted : ∀ g, pc.refCounted? = some g → (s.node i).refCounted? = some g) :
    Named (s.goTo i pc) :=
  h.stay (fun _ hg' => hi.trans (hpc.symm.trans hg')) hunlink hcounted

omit [DecidableEq ι] in
/-- The memory of the segments does not matter. -/
theorem congr (h : Named s) (hnode : s'.node = s.node) (hname : s'.name = s.name) : Named s' := by
  refine ⟨?_, ?_, ?_⟩
  · intro i g hi
    rw [hname]
    exact h.named i g (by rw [← hnode]; exact hi)
  · intro i g hi j hj
    rw [hnode] at hi ⊢
    exact h.alone i g hi j hj
  · intro g
    rw [State.refCount, hnode]
    exact h.refCount_lt g

/-- A producer creates a segment: then nobody is on another one. -/
theorem create (h : Named s) {i : ι} (hi : s.node i = .openExclusive) (hname : s.name = none) :
    Named (s.create i) := by
  have hnone : ∀ j, (s.node j).segment? = none := by
    refine fun j => Option.eq_none_iff_forall_ne_some.2 fun g hg => ?_
    simp [h.named j g hg] at hname
  have hself : (s.create i).node i = .truncate s.created := Function.update_self _ _ _
  have hnode : ∀ j, j ≠ i → (s.create i).node j = s.node j :=
    fun j hne => Function.update_of_ne hne _ _
  refine ⟨?_, ?_, ?_⟩
  · intro j g hj
    rcases eq_or_ne j i with rfl | hne
    · rw [hself] at hj
      exact hj
    · rw [hnode j hne, hnone j] at hj
      simp at hj
  · intro j g hj
    rcases eq_or_ne j i with rfl | hne
    · rw [hself] at hj
      simp at hj
    · rw [hnode j hne] at hj
      have hsegment := hnone j
      rw [hj] at hsegment
      simp [NodePc.segment?] at hsegment
  · intro g
    have hcount : (s.goTo i (.truncate s.created)).refCount g = s.refCount g :=
      refCount_goTo_of_eq (by rw [hi]; rfl)
    exact hcount.trans_lt (h.refCount_lt g)

/-- A node opens the segment, whose name nobody is about to remove. -/
theorem openExisting (h : Named s) {i : ι} {g : ℕ} (hi : s.node i = .openExisting)
    (hname : s.name = some g) (hnone : ∀ j, s.node j ≠ .unlink g) :
    Named (s.goTo i (.map g false)) := by
  refine ⟨?_, ?_, ?_⟩
  · intro j g' hj
    rcases eq_or_ne j i with rfl | hne
    · rw [State.node_goTo_self] at hj
      exact hname.trans hj
    · rw [State.node_goTo_of_ne _ hne] at hj
      exact h.named j g' hj
  · intro j g' hj
    rcases eq_or_ne j i with rfl | hne
    · simp at hj
    · rw [State.node_goTo_of_ne _ hne] at hj
      have hname' := h.named j g' (by rw [hj]; rfl)
      obtain rfl : g = g' := Option.some.inj (hname.symm.trans hname')
      exact absurd hj (hnone j)
  · intro g'
    rw [refCount_goTo_of_eq (by rw [hi]; rfl)]
    exact h.refCount_lt g'

/-- A node subtracts itself from `refCount`. -/
theorem subRef (h : Named s) (hcounted : Counted args s) {i : ι} {g : ℕ}
    (hi : s.node i = .subRef g)
    (hcareful : (args i).kind = .consumer → (s.segment g).field .refCount = 1 →
      ∀ j, (s.node j).joining? ≠ some g) :
    Named (s.goTo i (if (args i).kind = .consumer ∧ (s.segment g).field .refCount = 1 then .unlink g
      else .absent)) := by
  split_ifs with hlast
  · -- the last reference: nobody else is on the segment
    have hone : s.refCount g = 1 := by
      have hfield := hcounted.ref g
      rw [hlast.2, Nat.mod_eq_of_lt (h.refCount_lt g)] at hfield
      exact hfield.symm
    have halone : ∀ j, j ≠ i → (s.node j).segment? = none := by
      intro j hne
      by_contra hsome
      obtain ⟨g', hg'⟩ := Option.ne_none_iff_exists'.1 hsome
      have hi' : (s.node i).segment? = some g := by rw [hi]; rfl
      obtain rfl : g = g' := Option.some.inj ((h.named i g hi').symm.trans (h.named j g' hg'))
      rcases NodePc.of_segment hg' with hjoining | hcount | hunlink
      · exact hcareful hlast.1 hlast.2 j hjoining
      · refine absurd hone (Nat.ne_of_gt (Finset.one_lt_card.2 ⟨i, ?_, j, ?_, hne.symm⟩))
        · exact Finset.mem_filter.2 ⟨Finset.mem_univ i, by rw [hi]; rfl⟩
        · exact Finset.mem_filter.2 ⟨Finset.mem_univ j, hcount⟩
      · have hnone := h.alone j g hunlink i hne.symm
        simp [hi'] at hnone
    refine ⟨?_, ?_, ?_⟩
    · intro j g' hj
      rcases eq_or_ne j i with rfl | hne
      · rw [State.node_goTo_self] at hj
        exact h.named j g' (by rw [hi]; exact hj)
      · rw [State.node_goTo_of_ne _ hne] at hj
        exact h.named j g' hj
    · intro j g' hj k hk
      have hki : k ≠ i := by
        rintro rfl
        have hjk : s.node j = .unlink g' := by
          simpa only [State.node_goTo_of_ne _ hk.symm] using hj
        have hnone := halone j hk.symm
        rw [hjk] at hnone
        simp [NodePc.segment?] at hnone
      rw [State.node_goTo_of_ne _ hki]
      exact halone k hki
    · intro g'
      have hlt := h.refCount_lt g'
      have hcount := refCount_goTo (s := s) i (.unlink g) g'
      simp only [NodePc.refCounted?, reduceCtorEq, if_false, Nat.add_zero] at hcount
      omega
  · exact h.goOut i rfl

/-- A consumer removes the name: then nobody is on a segment. -/
theorem unlink (h : Named s) {i : ι} {g : ℕ} (hi : s.node i = .unlink g) :
    Named { s.goTo i .absent with name := none } := by
  have hnone : ∀ j, ((s.goTo i .absent).node j).segment? = none := by
    intro j
    rcases eq_or_ne j i with rfl | hne
    · simp [NodePc.segment?]
    · rw [State.node_goTo_of_ne _ hne]
      exact h.alone i g hi j hne
  have hgo : Named (s.goTo i .absent) := h.goOut i rfl
  refine ⟨?_, hgo.alone, hgo.refCount_lt⟩
  intro j g' hj
  exact absurd ((hnone j).symm.trans hj) (by simp)

theorem step (h : Named s) (hcounted : Counted args s) {a : Action ι}
    (ha : a.Careful args s = true) (he : Effect args s a s') : Named s' := by
  cases he with
  | construct i _ =>
      refine h.goOut i ?_
      cases hk : (args i).kind <;> simp [NodePc.first, hk, NodePc.segment?]
  | create i hi hname => exact h.create hi hname
  | pathExists i g _ _ => exact h.goOut i rfl
  | openExisting i g hi hname =>
      -- nobody is about to remove the name that the node has found
      refine h.openExisting hi hname fun j hj => ?_
      simp only [Action.Careful, hi, decide_eq_true_eq] at ha
      exact ha j (by rw [hname]; rfl) (by rw [hname, hj]; rfl)
  | notFound i _ _ => exact h.goOut i rfl
  | truncate i g hi =>
      have hgo : Named (s.goTo i (.map g true)) :=
        h.goOn (by rw [hi]; rfl) rfl (by simp) (by simp [NodePc.refCounted?])
      exact hgo.congr rfl rfl
  | map i g creator hi =>
      unfold NodePc.afterMap
      split
      · exact h.goOut i rfl
      · refine h.goOn (by rw [hi]; rfl) ?_ ?_ ?_
        all_goals cases creator <;> simp [NodePc.segment?, NodePc.refCounted?]
  | store i g f v rest hi _ =>
      have hgo : Named (s.goTo i (.afterStore g rest)) := by
        unfold NodePc.afterStore
        refine h.goOn (by rw [hi]; rfl) ?_ ?_ ?_
        all_goals split_ifs <;> simp [NodePc.segment?, NodePc.refCounted?]
      exact hgo.congr rfl rfl
  | ready i g hi _ =>
      exact h.goOn (by rw [hi]; rfl) rfl (by simp [checks, NodePc.afterCheck])
        (by simp [checks, NodePc.afterCheck, NodePc.refCounted?])
  | notReady i g _ => exact h
  | pass i g c rest hi _ =>
      refine h.goOn (by rw [hi]; rfl) ?_ ?_ ?_
      all_goals cases rest <;> simp [NodePc.afterCheck, NodePc.segment?, NodePc.refCounted?]
  | reject i g c rest _ _ => exact h.goOut i rfl
  | addKind i g hi =>
      have hgo : Named (s.goTo i (.addRef g)) :=
        h.goOn (by rw [hi]; rfl) rfl (by simp) (by simp [NodePc.refCounted?])
      exact hgo.congr rfl rfl
  | addRef i g hi =>
      -- the counter is the number of nodes, so that this number stays in its range as well
      have hlt : (s.segment g).field .refCount + 1 < 2 ^ 32 := by
        simpa only [Action.Careful, hi, decide_eq_true_eq] using ha
      rw [hcounted.ref g, Nat.mod_eq_of_lt (h.refCount_lt g)] at hlt
      have hgo : Named (s.goTo i (.attached g)) := by
        refine h.goTo (by rw [hi]; exact fun _ hg => hg) (by simp) fun g' => ?_
        have hlt' := h.refCount_lt g'
        have hcount := refCount_goTo (s := s) i (.attached g) g'
        simp only [hi, NodePc.refCounted?, reduceCtorEq, if_false, Nat.add_zero,
          Option.some.injEq] at hcount
        split_ifs at hcount with hg
        · subst hg
          omega
        · omega
      exact hgo.congr rfl rfl
  | destroy i g hi => exact h.goOn (by rw [hi]; rfl) rfl (by simp) (by simp [hi, NodePc.refCounted?])
  | subKind i g hi =>
      have hgo : Named (s.goTo i (.subRef g)) :=
        h.goOn (by rw [hi]; rfl) rfl (by simp) (by simp [hi, NodePc.refCounted?])
      exact hgo.congr rfl rfl
  | subRef i g hi =>
      have hgo := h.subRef hcounted hi (by simpa only [Action.Careful, hi, decide_eq_true_eq] using ha)
      exact hgo.congr rfl rfl
  | unlink i g hi => exact h.unlink hi
  | fault i g f _ _ => exact h.goOut i rfl
  | exit i _ => exact h.goOut i rfl
  | mapFails i g creator _ => exact h.goOut i rfl

end Named

section Reachable

variable {args : ι → Args} {s : State ι}

theorem named_of_reachable (h : (carefulSystem args).Reachable s) : Named s := by
  refine Automaton.Reachable.invariant ?_ ?_ h
  · rintro s rfl
    exact Named.initial
  · intro s a s' hr hnamed hs
    obtain ⟨ha, hstep⟩ := Automaton.restrict_step_eq_some.1 hs
    exact hnamed.step (counted_of_reachable hr.of_restrict) ha (effect_of_step hstep)

/-- **Attached nodes are on one segment**, in every run whose steps are careful; and where a consumer is
about to remove the name of a segment, the path still names it, and no other node is on a segment. -/
theorem nodes_share_segment (h : (carefulSystem args).Reachable s) :
    (∀ i j g g', s.node i = .attached g → s.node j = .attached g' → g = g') ∧
    ∀ i g, s.node i = .unlink g → s.name = some g ∧ ∀ j, j ≠ i → (s.node j).segment? = none := by
  have hnamed := named_of_reachable h
  refine ⟨?_, ?_⟩
  · intro i j g g' hi hj
    have hname : s.name = some g := hnamed.named i g (by rw [hi]; rfl)
    have hname' : s.name = some g' := hnamed.named j g' (by rw [hj]; rfl)
    exact Option.some.inj (hname.symm.trans hname')
  · intro i g hi
    exact ⟨hnamed.named i g (by rw [hi]; rfl), hnamed.alone i g hi⟩

/-- **A step that is not careful removes the name too early**: unless it is one that makes `refCount`
wrap, a consumer is then about to remove the name of a segment that another node is on. -/
theorem unlink_of_careless (h : (carefulSystem args).Reachable s) {s' : State ι} {i : ι}
    (hcareless : (Action.run i).Careful args s = false) (hstep : s.run args i = some s') :
    (∃ g, s.node i = .addRef g ∧ 2 ^ 32 ≤ (s.segment g).field .refCount + 1) ∨
    ∃ c j g, j ≠ c ∧ s'.node c = .unlink g ∧ s'.name = some g ∧
      (s'.node j).segment? = some g := by
  have hnamed := named_of_reachable h
  simp only [Action.Careful] at hcareless
  split at hcareless
  case h_1 g hi =>
    -- the consumer takes the last reference while `j` is joining
    simp only [decide_eq_false_iff_not, Classical.not_imp, not_forall, not_not] at hcareless
    obtain ⟨hkind, hlast, j, hj⟩ := hcareless
    have hji : j ≠ i := by
      rintro rfl
      simp [hi, NodePc.joining?] at hj
    have hsize : headerSize < (s.segment g).size := by
      have hsound := sound_of_reachable h.of_restrict
      exact (hsound.published g (hsound.passed i g (by rw [hi]; rfl))).size
    simp only [State.run, hi, access_eq hsize, hkind, hlast, and_self, if_true,
      Option.some.injEq] at hstep
    subst hstep
    refine Or.inr ⟨i, j, g, hji, State.node_goTo_self _ _ _, hnamed.named i g (by rw [hi]; rfl), ?_⟩
    rw [State.node_goTo_of_ne _ hji]
    exact NodePc.segment_of_joining hj
  case h_2 hi =>
    -- the node opens the segment although the consumer `c` has taken the last reference
    simp only [decide_eq_false_iff_not, not_forall, not_not] at hcareless
    obtain ⟨c, hsome, hc⟩ := hcareless
    obtain ⟨g, hname⟩ := Option.isSome_iff_exists.1 hsome
    have hunlink : s.node c = .unlink g := NodePc.unlinking_eq_some (hc.trans hname)
    have hci : c ≠ i := by
      rintro rfl
      simp [hi] at hunlink
    simp only [State.run, hi, hname, Option.some.injEq] at hstep
    subst hstep
    refine Or.inr ⟨c, i, g, hci.symm, ?_, hname, by rw [State.node_goTo_self]; rfl⟩
    rw [State.node_goTo_of_ne _ hci]
    exact hunlink
  case h_3 g hi =>
    simp only [decide_eq_false_iff_not, not_lt] at hcareless
    exact Or.inl ⟨g, hi, hcareless⟩
  case h_4 => simp at hcareless

end Reachable

end Careful

theorem nodes_share_segment_two_nodes :
    ∃ s : State Bool, (carefulSystem (oneConsumer 65536 true)).Reachable s ∧
      s.node false = .attached 0 ∧ s.node true = .attached 0 ∧
      ∀ i j g g', s.node i = .attached g → s.node j = .attached g' → g = g' := by
  have hrun : ((carefulSystem (oneConsumer 65536 true)).run State.initial (joinRun false true)).map
      (fun s => (s.node false, s.node true)) = some (.attached 0, .attached 0) := rfl
  obtain ⟨s, hs, hnodes⟩ := Option.map_eq_some_iff.1 hrun
  obtain ⟨hfalse, htrue⟩ := Prod.mk.inj hnodes
  have hr : (carefulSystem (oneConsumer 65536 true)).Reachable s := Automaton.Reachable.of_run rfl hs
  exact ⟨s, hr, hfalse, htrue, (nodes_share_segment hr).1⟩

/-! ### A name that is removed too early -/

section Split

variable [DecidableEq ι] {args : ι → Args} {s : State ι}

/-- **A node that is attached when a consumer removes the name is cut off**: the next producer creates
another segment. -/
theorem unlink_splits {i j k : ι} {g g' : ℕ} (h : (system args).Reachable s)
    (hi : s.node i = .unlink g) (hj : s.node j = .attached g') (hk : s.node k = .absent)
    (hkind : (args k).kind = .producer) (hsize : headerSize < (args k).shmSize) :
    ∃ s', (system args).Reachable s' ∧ s'.node j = .attached g' ∧ s'.node k = .attached s.created ∧
      g' ≠ s.created := by
  have hji : j ≠ i := by
    rintro rfl
    simp [hi] at hj
  have hki : k ≠ i := by
    rintro rfl
    simp [hi] at hk
  have hjk : j ≠ k := by
    rintro rfl
    simp [hj] at hk
  have hunlink : (system args).step s (.run i) = some { s.goTo i .absent with name := none } := by
    change s.run args i = _
    simp only [State.run, hi]
  have hnode : ∀ l, l ≠ i →
      ({ s.goTo i .absent with name := none } : State ι).node l = s.node l :=
    fun l hl => Function.update_of_ne hl _ _
  obtain ⟨s', hsteps, hnode', -, -⟩ := advances_create args
    (s := { s.goTo i .absent with name := none }) rfl hkind hsize ((hnode k hki).trans hk)
  have hlt : g' < s.created := (sound_of_reachable h).segment_lt j g' (by rw [hj]; rfl)
  refine ⟨s', (Automaton.Reachable.step _ h hunlink).steps hsteps, ?_, ?_, hlt.ne⟩
  · rw [hnode', Function.update_of_ne hjk, hnode j hji]
    exact hj
  · rw [hnode', Function.update_self]
    rfl

end Split

/-- A producer and a consumer attach and detach, and the consumer takes the last reference; before it
removes the name, the producer attaches again, and after that another producer comes. -/
def splitRun (producer consumer other : ι) : List (Action ι) :=
  joinRun producer consumer ++ List.replicate 3 (Action.run producer) ++
    List.replicate 3 (Action.run consumer) ++ List.replicate 12 (Action.run producer) ++
    [Action.run consumer] ++ List.replicate 29 (Action.run other)

/-- **Attached nodes on two segments.** -/
theorem attached_nodes_split :
    ∃ s : State (Fin 3), (system (oneConsumer 65536 1)).Reachable s ∧ s.node 0 = .attached 0 ∧
      s.node 2 = .attached 1 := by
  have hrun : ((system (oneConsumer 65536 1)).run State.initial (splitRun (0 : Fin 3) 1 2)).map
      (fun s => (s.node 0, s.node 2)) = some (.attached 0, .attached 1) := rfl
  obtain ⟨s, hs, hnodes⟩ := Option.map_eq_some_iff.1 hrun
  obtain ⟨hzero, htwo⟩ := Prod.mk.inj hnodes
  exact ⟨s, Automaton.Reachable.of_run rfl hs, hzero, htwo⟩

end SharedMemory
