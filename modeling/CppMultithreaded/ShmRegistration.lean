/-
**Registration on a segment.**

After its checks a node adds itself to the counter of its kind and to `refCount`, and it subtracts itself
from both in its destructor.  A counter is the number of nodes that it counts, modulo `2 ^ 32`.

Main definitions:

* `SharedMemory.State.kindCount`, `SharedMemory.State.refCount` — the nodes that a counter counts;
* `SharedMemory.Counted` — the invariant of the counters.

Main results:

* `SharedMemory.Counted.step` — every step keeps the invariant;
* `SharedMemory.registrations_counted` — **no node passes before the header is complete, and no
  registration is lost**, as long as a counter does not wrap;
* `SharedMemory.refCount_wraps` — a counter that wraps.
-/

import CppMultithreaded.ShmAttach
import CppMultithreaded.ThreadWeight

set_option relaxedAutoImplicit false
set_option autoImplicit false

namespace SharedMemory

open MpscQueue (headerSize)

variable {ι : Type*}

/-! ### Registration -/

/-- The segment on whose counter of nodes of its kind the node is counted. -/
def NodePc.kindCounted? : NodePc → Option ℕ
  | .addRef g | .attached g | .subKind g => some g
  | _ => none

/-- The segment on whose `refCount` the node is counted. -/
def NodePc.refCounted? : NodePc → Option ℕ
  | .attached g | .subKind g | .subRef g => some g
  | _ => none

theorem NodePc.passed_of_kindCounted {pc : NodePc} {g : ℕ} (h : pc.kindCounted? = some g) :
    pc.passed? = some g := by
  cases pc <;> simp_all [passed?, kindCounted?]

theorem NodePc.passed_of_refCounted {pc : NodePc} {g : ℕ} (h : pc.refCounted? = some g) :
    pc.passed? = some g := by
  cases pc <;> simp_all [passed?, refCounted?]

/-- Where a node that has not passed goes, without passing, it is not counted. -/
theorem NodePc.not_counted {pc : NodePc} (h : pc.passed? = none) :
    pc.kindCounted? = none ∧ pc.refCounted? = none := by
  cases pc <;> simp_all [passed?, kindCounted?, refCounted?]

section Counted

variable [Fintype ι]

/-- The number of nodes of a kind that have added themselves to the counter of the kind, and not yet
subtracted themselves. -/
def State.kindCount (args : ι → Args) (s : State ι) (k : Kind) (g : ℕ) : ℕ :=
  (Finset.univ.filter fun i => (args i).kind = k ∧ (s.node i).kindCounted? = some g).card

/-- The number of nodes that have added themselves to `refCount`, and not yet subtracted themselves. -/
def State.refCount (s : State ι) (g : ℕ) : ℕ :=
  (Finset.univ.filter fun i => (s.node i).refCounted? = some g).card

/-- **The invariant of the counters.** -/
structure Counted (args : ι → Args) (s : State ι) : Prop where
  kind : ∀ k g, (s.segment g).field k.counter = s.kindCount args k g % 2 ^ 32
  ref : ∀ g, (s.segment g).field .refCount = s.refCount g % 2 ^ 32

variable [DecidableEq ι] {args : ι → Args} {s s' : State ι}

theorem kindCount_goTo (args : ι → Args) (i : ι) (pc : NodePc) (k : Kind) (g : ℕ) :
    (s.goTo i pc).kindCount args k g +
        (if (args i).kind = k ∧ (s.node i).kindCounted? = some g then 1 else 0) =
      s.kindCount args k g + if (args i).kind = k ∧ pc.kindCounted? = some g then 1 else 0 :=
  ThreadWeight.card_filter_update (fun j (q : NodePc) => (args j).kind = k ∧ q.kindCounted? = some g)
    s.node i pc

theorem refCount_goTo (i : ι) (pc : NodePc) (g : ℕ) :
    (s.goTo i pc).refCount g + (if (s.node i).refCounted? = some g then 1 else 0) =
      s.refCount g + if pc.refCounted? = some g then 1 else 0 :=
  ThreadWeight.card_filter_update (fun _ (q : NodePc) => q.refCounted? = some g) s.node i pc

theorem kindCount_goTo_of_eq {i : ι} {pc : NodePc} {k : Kind} {g : ℕ}
    (h : (args i).kind = k → (pc.kindCounted? = some g ↔ (s.node i).kindCounted? = some g)) :
    (s.goTo i pc).kindCount args k g = s.kindCount args k g := by
  have hcount := kindCount_goTo (s := s) args i pc k g
  rw [if_congr (and_congr_right h) rfl rfl] at hcount
  exact Nat.add_right_cancel hcount

theorem refCount_goTo_of_eq {i : ι} {pc : NodePc} {g : ℕ}
    (h : pc.refCounted? = some g ↔ (s.node i).refCounted? = some g) :
    (s.goTo i pc).refCount g = s.refCount g := by
  have hcount := refCount_goTo (s := s) i pc g
  rw [if_congr h rfl rfl] at hcount
  exact Nat.add_right_cancel hcount

namespace Counted

omit [DecidableEq ι] in
theorem initial : Counted args (State.initial : State ι) := by
  constructor <;> simp [State.initial, Segment.new, State.kindCount, State.refCount,
    NodePc.kindCounted?, NodePc.refCounted?]

/-- A node moves on, and is counted as before. -/
theorem goTo (h : Counted args s) {i : ι} {pc : NodePc}
    (hkind : pc.kindCounted? = (s.node i).kindCounted?)
    (href : pc.refCounted? = (s.node i).refCounted?) : Counted args (s.goTo i pc) := by
  refine ⟨?_, ?_⟩
  · intro k g
    rw [kindCount_goTo_of_eq fun _ => by rw [hkind]]
    exact h.kind k g
  · intro g
    rw [refCount_goTo_of_eq (by rw [href])]
    exact h.ref g

omit [DecidableEq ι] in
/-- A segment changes, apart from its counters. -/
theorem setSegment (h : Counted args s) {g : ℕ} {seg : Segment}
    (hkind : ∀ k : Kind, seg.field k.counter = (s.segment g).field k.counter)
    (href : seg.field .refCount = (s.segment g).field .refCount) :
    Counted args (s.setSegment g seg) := by
  refine ⟨?_, ?_⟩
  · intro k g'
    simp only [State.setSegment]
    rcases eq_or_ne g' g with rfl | hne
    · rw [Function.update_self, hkind]
      exact h.kind k g'
    · rw [Function.update_of_ne hne]
      exact h.kind k g'
  · intro g'
    simp only [State.setSegment]
    rcases eq_or_ne g' g with rfl | hne
    · rw [Function.update_self, href]
      exact h.ref g'
    · rw [Function.update_of_ne hne]
      exact h.ref g'

/-- A node adds itself to the counter of its kind, or subtracts itself. -/
theorem changeKind (h : Counted args s) {i : ι} {g : ℕ} {pc : NodePc} {seg : Segment}
    (hfield : ∀ f, f ≠ (args i).kind.counter → seg.field f = (s.segment g).field f)
    (hcounter : seg.field (args i).kind.counter =
      (s.goTo i pc).kindCount args (args i).kind g % 2 ^ 32)
    (hother : ∀ g', g' ≠ g →
      (pc.kindCounted? = some g' ↔ (s.node i).kindCounted? = some g'))
    (href : pc.refCounted? = (s.node i).refCounted?) :
    Counted args ((s.setSegment g seg).goTo i pc) := by
  -- the other counters count the same nodes as before
  have hkinds : ∀ k g', (k = (args i).kind → g' ≠ g) →
      (s.goTo i pc).kindCount args k g' = s.kindCount args k g' :=
    fun k g' hne => kindCount_goTo_of_eq fun hk => hother g' (hne hk.symm)
  refine ⟨?_, ?_⟩
  · intro k g'
    change (Function.update s.segment g seg g').field _ = (s.goTo i pc).kindCount args k g' % 2 ^ 32
    rcases eq_or_ne g' g with rfl | hne
    · rw [Function.update_self]
      rcases eq_or_ne k (args i).kind with rfl | hk
      · exact hcounter
      · rw [hfield _ fun heq => hk (Kind.counter_inj heq), hkinds k g' fun heq => absurd heq hk]
        exact h.kind k g'
    · rw [Function.update_of_ne hne, hkinds k g' fun _ => hne]
      exact h.kind k g'
  · intro g'
    change (Function.update s.segment g seg g').field _ = (s.goTo i pc).refCount g' % 2 ^ 32
    rw [refCount_goTo_of_eq (by rw [href])]
    rcases eq_or_ne g' g with rfl | hne
    · rw [Function.update_self, hfield _ (Kind.counter_ne_refCount _).symm]
      exact h.ref g'
    · rw [Function.update_of_ne hne]
      exact h.ref g'

/-- A node adds itself to `refCount`, or subtracts itself. -/
theorem changeRef (h : Counted args s) {i : ι} {g : ℕ} {pc : NodePc} {seg : Segment}
    (hfield : ∀ f, f ≠ .refCount → seg.field f = (s.segment g).field f)
    (hcounter : seg.field .refCount = (s.goTo i pc).refCount g % 2 ^ 32)
    (hkind : pc.kindCounted? = (s.node i).kindCounted?)
    (hother : ∀ g', g' ≠ g → (pc.refCounted? = some g' ↔ (s.node i).refCounted? = some g')) :
    Counted args ((s.setSegment g seg).goTo i pc) := by
  refine ⟨?_, ?_⟩
  · intro k g'
    change (Function.update s.segment g seg g').field _ = (s.goTo i pc).kindCount args k g' % 2 ^ 32
    rw [kindCount_goTo_of_eq fun _ => by rw [hkind]]
    rcases eq_or_ne g' g with rfl | hne
    · rw [Function.update_self, hfield _ (Kind.counter_ne_refCount _)]
      exact h.kind k g'
    · rw [Function.update_of_ne hne]
      exact h.kind k g'
  · intro g'
    change (Function.update s.segment g seg g').field _ = (s.goTo i pc).refCount g' % 2 ^ 32
    rcases eq_or_ne g' g with rfl | hne
    · rw [Function.update_self]
      exact hcounter
    · rw [Function.update_of_ne hne, refCount_goTo_of_eq (hother g' hne)]
      exact h.ref g'

theorem create (h : Counted args s) (hsound : Sound args s) {i : ι}
    (hi : s.node i = .openExclusive) : Counted args (s.create i) := by
  have hgo : Counted args (s.goTo i (.truncate s.created)) :=
    h.goTo (by rw [hi]; rfl) (by rw [hi]; rfl)
  -- nobody is on the new segment
  have hnone : ∀ j, (s.node j).segment? ≠ some s.created :=
    fun j hj => absurd (hsound.segment_lt j _ hj) (lt_irrefl _)
  refine ⟨?_, ?_⟩
  · intro k g
    refine Eq.trans ?_ (hgo.kind k g)
    simp only [State.create, State.goTo]
    rcases eq_or_ne g s.created with rfl | hne
    · rw [Function.update_self, h.kind, State.kindCount, Finset.filter_false_of_mem]
      · rfl
      · rintro j - ⟨-, hj⟩
        exact hnone j (NodePc.segment_of_passed (NodePc.passed_of_kindCounted hj))
    · rw [Function.update_of_ne hne]
  · intro g
    refine Eq.trans ?_ (hgo.ref g)
    simp only [State.create, State.goTo]
    rcases eq_or_ne g s.created with rfl | hne
    · rw [Function.update_self, h.ref, State.refCount, Finset.filter_false_of_mem]
      · rfl
      · intro j _ hj
        exact hnone j (NodePc.segment_of_passed (NodePc.passed_of_refCounted hj))
    · rw [Function.update_of_ne hne]

theorem step (h : Counted args s) (hsound : Sound args s) {a : Action ι} (he : Effect args s a s') :
    Counted args s' := by
  cases he with
  | construct i hi =>
      refine h.goTo ?_ ?_
      all_goals rw [hi]
      all_goals cases hk : (args i).kind <;> simp [NodePc.first, hk, NodePc.kindCounted?,
        NodePc.refCounted?]
  | create i hi _ => exact h.create hsound hi
  | pathExists i g hi _ => exact h.goTo (by rw [hi]; rfl) (by rw [hi]; rfl)
  | openExisting i g hi _ => exact h.goTo (by rw [hi]; rfl) (by rw [hi]; rfl)
  | notFound i hi _ => exact h.goTo (by rw [hi]; rfl) (by rw [hi]; rfl)
  | truncate i g hi =>
      have hset : Counted args (s.setSegment g { s.segment g with size := (args i).shmSize }) :=
        h.setSegment (fun _ => rfl) rfl
      exact hset.goTo (by rw [State.setSegment, hi]; rfl) (by rw [State.setSegment, hi]; rfl)
  | map i g creator hi =>
      unfold NodePc.afterMap
      split
      · exact h.goTo (by rw [hi]; rfl) (by rw [hi]; rfl)
      · cases creator <;> exact h.goTo (by rw [hi]; rfl) (by rw [hi]; rfl)
  | store i g f v rest hi _ =>
      obtain ⟨-, -, done, hdone, hfield⟩ := hsound.initializing i g _ hi
      -- the counters are zero before the store and after it
      have hzero : ∀ f', (∃ k : Kind, f' = k.counter) ∨ f' = .refCount →
          ((s.segment g).store f v).field f' = (s.segment g).field f' := by
        intro f' hf'
        have hafter : ((s.segment g).store f v).field = written (done ++ [(f, v)]) := by
          rw [written_append, ← hfield]
          rfl
        have hdone' : stores (s.segment g).size = (done ++ [(f, v)]) ++ rest :=
          hdone.trans (List.append_cons done (f, v) rest)
        rw [hafter, hfield, written_counter hdone hf', written_counter hdone' hf']
      have hset := h.setSegment (fun k => hzero _ (Or.inl ⟨k, rfl⟩)) (hzero _ (Or.inr rfl))
      unfold NodePc.afterStore
      split_ifs
      · exact hset.goTo (by rw [State.setSegment, hi]; rfl) (by rw [State.setSegment, hi]; rfl)
      · exact hset.goTo (by rw [State.setSegment, hi]; rfl) (by rw [State.setSegment, hi]; rfl)
  | ready i g hi _ => exact h.goTo (by rw [hi]; rfl) (by rw [hi]; rfl)
  | notReady i g _ => exact h
  | pass i g c rest hi _ => cases rest <;> exact h.goTo (by rw [hi]; rfl) (by rw [hi]; rfl)
  | reject i g c rest hi _ => exact h.goTo (by rw [hi]; rfl) (by rw [hi]; rfl)
  | addKind i g hi =>
      refine h.changeKind ?_ ?_ ?_ ?_
      · exact fun f hf => Segment.field_store_of_ne _ _ hf
      · have hcount := kindCount_goTo (s := s) args i (.addRef g) (args i).kind g
        simp only [hi, NodePc.kindCounted?, reduceCtorEq, and_false, and_self, if_false, if_true,
          Nat.add_zero] at hcount
        rw [hcount]
        exact Segment.field_fetchAdd (h.kind _ g)
      · intro g' hne
        simp [hi, NodePc.kindCounted?, hne.symm]
      · rw [hi]
        rfl
  | addRef i g hi =>
      refine h.changeRef ?_ ?_ ?_ ?_
      · exact fun f hf => Segment.field_store_of_ne _ _ hf
      · have hcount := refCount_goTo (s := s) i (.attached g) g
        simp only [hi, NodePc.refCounted?, reduceCtorEq, if_false, if_true, Nat.add_zero] at hcount
        rw [hcount]
        exact Segment.field_fetchAdd (h.ref g)
      · rw [hi]
        rfl
      · intro g' hne
        simp [hi, NodePc.refCounted?, hne.symm]
  | destroy i g hi => exact h.goTo (by rw [hi]; rfl) (by rw [hi]; rfl)
  | subKind i g hi =>
      refine h.changeKind ?_ ?_ ?_ ?_
      · exact fun f hf => Segment.field_store_of_ne _ _ hf
      · have hcount := kindCount_goTo (s := s) args i (.subRef g) (args i).kind g
        simp only [hi, NodePc.kindCounted?, reduceCtorEq, and_false, and_self, if_false, if_true,
          Nat.add_zero] at hcount
        exact Segment.field_fetchSub (hcount ▸ h.kind _ g)
      · intro g' hne
        simp [hi, NodePc.kindCounted?, hne.symm]
      · rw [hi]
        rfl
  | subRef i g hi =>
      obtain ⟨pc, hpc⟩ : ∃ pc : NodePc, pc = if (args i).kind = .consumer ∧
        (s.segment g).field .refCount = 1 then .unlink g else .absent := ⟨_, rfl⟩
      obtain ⟨hkind, href⟩ : pc.kindCounted? = none ∧ pc.refCounted? = none := by
        rw [hpc]
        split_ifs <;> exact ⟨rfl, rfl⟩
      rw [← hpc]
      refine h.changeRef ?_ ?_ ?_ ?_
      · exact fun f hf => Segment.field_store_of_ne _ _ hf
      · have hcount := refCount_goTo (s := s) i pc g
        rw [href, hi] at hcount
        simp only [NodePc.refCounted?, reduceCtorEq, if_false, if_true, Nat.add_zero] at hcount
        exact Segment.field_fetchSub (hcount ▸ h.ref g)
      · rw [hkind, hi]
        rfl
      · intro g' hne
        rw [href, hi]
        simp [NodePc.refCounted?, hne.symm]
  | unlink i g hi =>
      have hgo : Counted args (s.goTo i .absent) := h.goTo (by rw [hi]; rfl) (by rw [hi]; rfl)
      exact ⟨hgo.kind, hgo.ref⟩
  | fault i g f hi hbound =>
      -- a node that has passed is on a segment that is large enough
      have hnone : (s.node i).passed? = none := by
        by_contra hne
        obtain ⟨g', hg'⟩ := Option.ne_none_iff_exists'.1 hne
        obtain rfl : g = g' := Option.some.inj (hi.symm.trans (NodePc.segment_of_passed hg'))
        have hsize := (hsound.published g (hsound.passed i g hg')).size
        have hlt := f.bound_lt
        omega
      obtain ⟨hkind, href⟩ := NodePc.not_counted hnone
      exact h.goTo hkind.symm href.symm
  | exit i hi =>
      rcases hi with hi | hi | ⟨g, hi⟩ | ⟨g, hi⟩ <;> exact h.goTo (by rw [hi]; rfl) (by rw [hi]; rfl)
  | mapFails i g creator hi => exact h.goTo (by rw [hi]; rfl) (by rw [hi]; rfl)

end Counted

end Counted

/-! ### What the counters say -/

/-- The segment to which a node is attached. -/
def NodePc.attached? : NodePc → Option ℕ
  | .attached g => some g
  | _ => none

theorem NodePc.segment_of_attached {pc : NodePc} {g : ℕ} (h : pc.attached? = some g) :
    pc.segment? = some g := by
  cases pc <;> simp_all [attached?, segment?]

section Reachable

variable [DecidableEq ι] [Fintype ι] {args : ι → Args} {s : State ι}

theorem counted_of_reachable (h : (system args).Reachable s) : Counted args s := by
  refine Automaton.Reachable.invariant ?_ ?_ h
  · rintro s rfl
    exact Counted.initial
  · intro s a s' hr hcounted hs
    exact hcounted.step (sound_of_reachable hr) (effect_of_step hs)

/-- The number of nodes that are attached to a segment. -/
def State.attachedCount (s : State ι) (g : ℕ) : ℕ :=
  (Finset.univ.filter fun i => (s.node i).attached? = some g).card

/-- No node is in the middle of its constructor or of its destructor on the segment. -/
def State.Settled (s : State ι) (g : ℕ) : Prop :=
  ∀ i, (s.node i).segment? = some g → s.node i = .attached g

omit [DecidableEq ι] in
theorem refCount_of_settled {g : ℕ} (h : s.Settled g) : s.refCount g = s.attachedCount g := by
  refine congrArg Finset.card (Finset.filter_congr fun i _ => ⟨fun hi => ?_, fun hi => ?_⟩)
  · rw [h i (NodePc.segment_of_passed (NodePc.passed_of_refCounted hi))]
    rfl
  · rw [h i (NodePc.segment_of_attached hi)]
    rfl

omit [DecidableEq ι] in
theorem kindCount_of_settled (args : ι → Args) {g : ℕ} (h : s.Settled g) :
    s.kindCount args .producer g + s.kindCount args .consumer g = s.attachedCount g := by
  have hkind : ∀ k, s.kindCount args k g =
      ((Finset.univ.filter fun i => (s.node i).attached? = some g).filter fun i =>
        (args i).kind = k).card := by
    intro k
    rw [Finset.filter_filter]
    refine congrArg Finset.card (Finset.filter_congr fun i _ => ⟨?_, ?_⟩)
    · rintro ⟨hk, hi⟩
      rw [h i (NodePc.segment_of_passed (NodePc.passed_of_kindCounted hi))]
      exact ⟨rfl, hk⟩
    · rintro ⟨hi, hk⟩
      rw [h i (NodePc.segment_of_attached hi)]
      exact ⟨hk, rfl⟩
  -- the attached nodes are the producers among them and the others
  have hconsumer : ∀ i, (args i).kind = .consumer ↔ ¬ (args i).kind = .producer := by
    intro i
    cases (args i).kind <;> simp
  rw [hkind, hkind, Finset.filter_congr fun i _ => hconsumer i]
  exact Finset.card_filter_add_card_filter_not _

/-- **Initialisation is seen once, and no registration is lost.**  A node has passed `WaitUntilReady`
only on a segment whose header is complete, and to which its creator has no store left; as long as the
creator has, nobody has been counted.  A counter is the number of nodes that it counts, and is not zero
when one of them subtracts itself, as long as that number is smaller than `2 ^ 32`. -/
theorem registrations_counted (h : (system args).Reachable s) (g : ℕ) :
    (∀ i, (s.node i).passed? = some g →
      (s.segment g).Published ∧ ∀ j, (s.node j).creates? ≠ some g) ∧
    (∀ i, (s.node i).creates? = some g → (s.segment g).registrations = 0) ∧
    (∀ k, s.kindCount args k g < 2 ^ 32 →
      (s.segment g).field k.counter = s.kindCount args k g ∧
        ∀ i, s.node i = .subKind g → (args i).kind = k → 0 < (s.segment g).field k.counter) ∧
    (s.refCount g < 2 ^ 32 → (s.segment g).field .refCount = s.refCount g ∧
      ∀ i, s.node i = .subRef g → 0 < (s.segment g).field .refCount) ∧
    (s.Settled g → s.attachedCount g < 2 ^ 32 →
      (s.segment g).field .refCount = s.attachedCount g ∧
        (s.segment g).field .producerCount + (s.segment g).field .consumerCount =
          s.attachedCount g) := by
  have hsound := sound_of_reachable h
  have hcounted := counted_of_reachable h
  have hkind : ∀ k, s.kindCount args k g < 2 ^ 32 →
      (s.segment g).field k.counter = s.kindCount args k g := by
    intro k hlt
    rw [hcounted.kind k g, Nat.mod_eq_of_lt hlt]
  have href : s.refCount g < 2 ^ 32 → (s.segment g).field .refCount = s.refCount g := by
    intro hlt
    rw [hcounted.ref g, Nat.mod_eq_of_lt hlt]
  refine ⟨?_, fun i hi => hsound.unregistered i g hi, ?_, ?_, ?_⟩
  · intro i hi
    exact ⟨hsound.published g (hsound.passed i g hi), fun j => hsound.creates_ne hi⟩
  · intro k hlt
    refine ⟨hkind k hlt, fun i hi hk => ?_⟩
    rw [hkind k hlt, State.kindCount, Finset.card_pos]
    exact ⟨i, Finset.mem_filter.2 ⟨Finset.mem_univ i, hk, by rw [hi]; rfl⟩⟩
  · intro hlt
    refine ⟨href hlt, fun i hi => ?_⟩
    rw [href hlt, State.refCount, Finset.card_pos]
    exact ⟨i, Finset.mem_filter.2 ⟨Finset.mem_univ i, by rw [hi]; rfl⟩⟩
  · intro hsettled hlt
    have hsum := kindCount_of_settled args hsettled
    refine ⟨?_, ?_⟩
    · rw [href (by rw [refCount_of_settled hsettled]; exact hlt), refCount_of_settled hsettled]
    · have hproducers := hkind .producer (by omega)
      have hconsumers := hkind .consumer (by omega)
      simp only [Kind.counter] at hproducers hconsumers
      rw [hproducers, hconsumers, hsum]

end Reachable

/-- The arguments of nodes one of which is a consumer. -/
def oneConsumer [DecidableEq ι] (shmSize : ℕ) (consumer i : ι) : Args :=
  { kind := if i = consumer then .consumer else .producer, shmSize := shmSize }

/-- A producer creates the segment and attaches to it, and a consumer attaches to it. -/
def joinRun (producer consumer : ι) : List (Action ι) :=
  List.replicate 29 (Action.run producer) ++ List.replicate 10 (Action.run consumer)

theorem registrations_counted_two_nodes :
    ∃ s : State Bool, (system (oneConsumer 65536 true)).Reachable s ∧ s.node true = .attached 0 ∧
      s.node false = .absent ∧ s.attachedCount 0 = 1 ∧
      (s.segment 0).field .refCount = s.attachedCount 0 ∧
      (s.segment 0).field .producerCount + (s.segment 0).field .consumerCount =
        s.attachedCount 0 := by
  have hrun : ((system (oneConsumer 65536 true)).run State.initial
      (joinRun false true ++ List.replicate 3 (.run false))).map
      (fun s => (s.node true, s.node false)) = some (.attached 0, .absent) := rfl
  obtain ⟨s, hs, hnodes⟩ := Option.map_eq_some_iff.1 hrun
  obtain ⟨htrue, hfalse⟩ := Prod.mk.inj hnodes
  have hr : (system (oneConsumer 65536 true)).Reachable s := Automaton.Reachable.of_run rfl hs
  have hsettled : s.Settled 0 := by
    intro i hi
    cases i with
    | true => exact htrue
    | false => simp [hfalse, NodePc.segment?] at hi
  have hcount : s.attachedCount 0 = 1 := by
    rw [State.attachedCount, Finset.card_eq_one]
    refine ⟨true, Finset.ext fun i => ?_⟩
    rw [Finset.mem_filter, Finset.mem_singleton]
    cases i with
    | true => simp only [Finset.mem_univ, htrue, NodePc.attached?, and_self]
    | false => simp only [Finset.mem_univ, hfalse, NodePc.attached?, reduceCtorEq, and_false]
  obtain ⟨-, -, -, -, hcounts⟩ := registrations_counted hr 0
  exact ⟨s, hr, htrue, hfalse, hcount, hcounts hsettled (by rw [hcount]; norm_num)⟩

/-- Producers can attach to the segment one after the other, any number of them. -/
theorem exists_attached {n k : ℕ} (hpos : 0 < k) (hk : k ≤ n) {shmSize : ℕ}
    (hsize : headerSize < shmSize) :
    ∃ s : State (Fin n), (system fun _ => ⟨.producer, shmSize⟩).Reachable s ∧ s.name = some 0 ∧
      (s.segment 0).size = shmSize ∧
      ∀ j, s.node j = if j.val < k then .attached 0 else .absent := by
  induction k, hpos using Nat.le_induction with
  | base =>
      obtain ⟨s, hsteps, hnode, hname, hsegment⟩ := advances_create
        (fun _ : Fin n => ⟨.producer, shmSize⟩) (s := State.initial) (i := ⟨0, hk⟩) rfl rfl hsize rfl
      refine ⟨s, (Automaton.Reachable.init rfl).steps hsteps, hname, hsegment, fun j => ?_⟩
      rw [hnode]
      rcases eq_or_ne j ⟨0, hk⟩ with rfl | hne
      · rw [Function.update_self, if_pos Nat.zero_lt_one]
        rfl
      · have hj : ¬ j.val < 1 := fun hlt => hne (Fin.ext (Nat.lt_one_iff.1 hlt))
        rw [Function.update_of_ne hne, if_neg hj]
        rfl
  | succ k hpos ih =>
      obtain ⟨s, hr, hname, hsegment, hnode⟩ := ih (Nat.le_of_succ_le hk)
      have hsound := sound_of_reachable hr
      -- the first of the nodes has found the header complete
      have hfirst : s.node ⟨0, Nat.lt_of_lt_of_le hpos (Nat.le_of_succ_le hk)⟩ = .attached 0 :=
        (hnode _).trans (if_pos hpos)
      have hready := hsound.passed _ 0 (by rw [hfirst]; rfl)
      obtain ⟨t, ht⟩ := advances_attach (fun _ : Fin n => ⟨.producer, shmSize⟩) (i := ⟨k, hk⟩) hname
        (hsound.published 0 hready) hsegment.symm (by rw [hnode, if_neg (lt_irrefl k)])
      refine ⟨t, hr.steps ht.steps, ht.name.trans hname, (ht.size 0).trans hsegment, fun j => ?_⟩
      rw [ht.node]
      rcases eq_or_ne j ⟨k, hk⟩ with rfl | hne
      · rw [Function.update_self, if_pos (Nat.lt_succ_self k)]
      · rw [Function.update_of_ne hne, hnode]
        have hiff : j.val < k ↔ j.val < k + 1 := by
          have hj : j.val ≠ k := fun heq => hne (Fin.ext heq)
          omega
        simp only [hiff]

/-- **A counter wraps**: `2 ^ 32` nodes are attached, and `refCount` is zero. -/
theorem refCount_wraps :
    ∃ s : State (Fin (2 ^ 32)), (system fun _ => ⟨.producer, 65536⟩).Reachable s ∧
      (∀ i, s.node i = .attached 0) ∧ s.attachedCount 0 = 2 ^ 32 ∧
      (s.segment 0).field .refCount = 0 := by
  obtain ⟨s, hr, -, -, hnode⟩ := exists_attached (n := 2 ^ 32) (Nat.two_pow_pos 32) le_rfl
    (show headerSize < 65536 by decide)
  have hall : ∀ i, s.node i = .attached 0 := fun i => (hnode i).trans (if_pos i.isLt)
  have hcount : s.attachedCount 0 = 2 ^ 32 := by
    rw [State.attachedCount, Finset.filter_true_of_mem fun i _ => by rw [hall i]; rfl,
      Finset.card_univ, Fintype.card_fin]
  have hsettled : s.Settled 0 := fun i _ => hall i
  refine ⟨s, hr, hall, hcount, ?_⟩
  rw [(counted_of_reachable hr).ref 0, refCount_of_settled hsettled, hcount, Nat.mod_self]

end SharedMemory
