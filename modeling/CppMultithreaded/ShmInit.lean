/-
**Initialisation of a segment.**

The creator of a segment writes the header field by field, while other nodes may have the segment mapped
already.  Its last store says `Ready`, and every other node waits for it.  So whoever has passed
`WaitUntilReady` finds the header complete, and the creator has no store left.

Main definitions:

* `SharedMemory.written` — what a list of stores leaves in zeroed memory;
* `SharedMemory.Segment.Published` — a header that is complete;
* `SharedMemory.Sound`, `SharedMemory.NodeSound` — the invariant of the initialisation, and what it says
  of one node.

Main results:

* `SharedMemory.published_of_written`, `SharedMemory.not_ready_of_written` — the header is complete after
  all of the stores of the creator, and does not say `Ready` before;
* `SharedMemory.NodeSound.frame` — what the other nodes must leave alone;
* `SharedMemory.Sound.step` — every step keeps the invariant.
-/

import CppMultithreaded.ShmModel

set_option relaxedAutoImplicit false
set_option autoImplicit false

namespace SharedMemory

open MpscQueue (headerSize getBufferSizeFromShmSize)

variable {ι : Type*}

/-! ### The stores of the creator -/

/-- What a list of stores leaves in zeroed memory. -/
def written (todo : List (Field × ℕ)) : Field → ℕ :=
  todo.foldl (fun field x => Function.update field x.1 x.2) fun _ => 0

theorem written_append (l : List (Field × ℕ)) (f : Field) (v : ℕ) :
    written (l ++ [(f, v)]) = Function.update (written l) f v := by
  rw [written, List.foldl_append]
  rfl

/-- A property of zero and of every value that is stored to a field holds of what is left there. -/
theorem written_of_forall {l : List (Field × ℕ)} {f : Field} {p : ℕ → Prop} (hzero : p 0)
    (h : ∀ v, (f, v) ∈ l → p v) : p (written l f) := by
  induction l using List.reverseRecOn with
  | nil => exact hzero
  | append_singleton l x ih =>
      obtain ⟨f', v⟩ := x
      rw [written_append]
      rcases eq_or_ne f f' with rfl | hne
      · rw [Function.update_self]
        exact h v (by simp)
      · rw [Function.update_of_ne hne]
        exact ih fun v hv => h v (by simp [hv])

/-- A header that is complete, in a segment of this size. -/
structure Segment.Published (seg : Segment) : Prop where
  size : headerSize < seg.size
  magic : seg.field .magic = protocolMagic
  version : seg.field .version = protocolVersion
  shmSize : seg.field .shmSize = seg.size
  bufferSize : seg.field .bufferSize = seg.size - headerSize
  initState : seg.field .initState = InitState.ready.code
  reservePos : seg.field .reservePos = 0
  commitPos : seg.field .commitPos = 0
  readPos : seg.field .readPos = 0

theorem published_of_written {seg : Segment} (hsize : headerSize < seg.size)
    (h : seg.field = written (stores seg.size)) : seg.Published := by
  constructor
  case size => exact hsize
  all_goals rw [h]
  all_goals rfl

/-- As long as a store is left, the header does not say `Ready`. -/
theorem not_ready_of_written {n : ℕ} {done todo : List (Field × ℕ)} (h : stores n = done ++ todo)
    (htodo : todo ≠ []) : written done .initState ≠ InitState.ready.code := by
  refine written_of_forall (p := (· ≠ InitState.ready.code)) (by decide) ?_
  intro v hv
  have hlast : (.initState, v) ∈ (stores n).dropLast := by
    rw [h, List.dropLast_append_of_ne_nil htodo]
    exact List.mem_append_left _ hv
  have hcases : v = InitState.uninitialized.code ∨ v = InitState.initializing.code := by
    simpa [stores, placementNew] using hlast
  rcases hcases with rfl | rfl <;> decide

/-- The creator stores only zeros to the counters. -/
theorem written_counter {n : ℕ} {done todo : List (Field × ℕ)} (h : stores n = done ++ todo)
    {f : Field} (hf : (∃ k : Kind, f = k.counter) ∨ f = .refCount) : written done f = 0 := by
  refine written_of_forall (p := (· = 0)) rfl ?_
  intro v hv
  have hmem : (f, v) ∈ stores n := by
    rw [h]
    exact List.mem_append_left _ hv
  rcases hf with ⟨k, rfl⟩ | rfl
  · cases k <;> simpa [stores, placementNew, Kind.counter] using hmem
  · simpa [stores, placementNew] using hmem

/-! ### Initialisation -/

/-- The segment that the node is creating. -/
def NodePc.creates? : NodePc → Option ℕ
  | .truncate g | .map g true | .initializeIfNeeded g _ => some g
  | _ => none

/-- The segment of a node that has passed `WaitUntilReady`, or has written the header itself. -/
def NodePc.passed? : NodePc → Option ℕ
  | .validate g _ | .addKind g | .addRef g | .attached g | .subKind g | .subRef g | .unlink g => some g
  | _ => none

theorem NodePc.segment_of_creates {pc : NodePc} {g : ℕ} (h : pc.creates? = some g) :
    pc.segment? = some g := by
  cases pc with
  | map g' creator => cases creator <;> simp_all [creates?, segment?]
  | _ => simp_all [creates?, segment?]

theorem NodePc.segment_of_passed {pc : NodePc} {g : ℕ} (h : pc.passed? = some g) :
    pc.segment? = some g := by
  cases pc <;> simp_all [passed?, segment?]

/-- **The invariant of the initialisation.** -/
structure Sound (args : ι → Args) (s : State ι) : Prop where
  segment_lt : ∀ i g, (s.node i).segment? = some g → g < s.created
  name_lt : ∀ g, s.name = some g → g < s.created
  creator_unique : ∀ i j g, (s.node i).creates? = some g → (s.node j).creates? = some g → i = j
  blank : ∀ i g, s.node i = .truncate g ∨ s.node i = .map g true →
    (s.segment g).field = fun _ => 0
  sized : ∀ i g, s.node i = .map g true → (s.segment g).size = (args i).shmSize
  initializing : ∀ i g todo, s.node i = .initializeIfNeeded g todo →
    headerSize < (s.segment g).size ∧ todo ≠ [] ∧
      ∃ done, stores (s.segment g).size = done ++ todo ∧ (s.segment g).field = written done
  unregistered : ∀ i g, (s.node i).creates? = some g → (s.segment g).registrations = 0
  published : ∀ g, (s.segment g).field .initState = InitState.ready.code → (s.segment g).Published
  passed : ∀ i g, (s.node i).passed? = some g →
    (s.segment g).field .initState = InitState.ready.code

/-- What the invariant says of one node. -/
structure NodeSound (a : Args) (created : ℕ) (segment : ℕ → Segment) (pc : NodePc) : Prop where
  segment_lt : ∀ g, pc.segment? = some g → g < created
  blank : ∀ g, pc = .truncate g ∨ pc = .map g true → (segment g).field = fun _ => 0
  sized : ∀ g, pc = .map g true → (segment g).size = a.shmSize
  initializing : ∀ g todo, pc = .initializeIfNeeded g todo →
    headerSize < (segment g).size ∧ todo ≠ [] ∧
      ∃ done, stores (segment g).size = done ++ todo ∧ (segment g).field = written done
  unregistered : ∀ g, pc.creates? = some g → (segment g).registrations = 0
  passed : ∀ g, pc.passed? = some g → (segment g).field .initState = InitState.ready.code

namespace NodeSound

variable {a : Args} {created created' : ℕ} {segment segment' : ℕ → Segment} {pc : NodePc}

/-- A node that creates no segment. -/
theorem of_not_creates (hcreates : pc.creates? = none)
    (hseg : ∀ g, pc.segment? = some g → g < created)
    (hpassed : ∀ g, pc.passed? = some g → (segment g).field .initState = InitState.ready.code) :
    NodeSound a created segment pc := by
  have hnone : ∀ g, pc.creates? ≠ some g := by simp [hcreates]
  refine ⟨hseg, ?_, ?_, ?_, fun g hg => absurd hg (hnone g), hpassed⟩
  · rintro g (rfl | rfl) <;> exact absurd rfl (hnone g)
  · rintro g rfl
    exact absurd rfl (hnone g)
  · rintro g todo rfl
    exact absurd rfl (hnone g)

/-- The creator, when it has sized the segment. -/
theorem of_map {g : ℕ} (hlt : g < created) (hblank : (segment g).field = fun _ => 0)
    (hsized : (segment g).size = a.shmSize) (hregistrations : (segment g).registrations = 0) :
    NodeSound a created segment (.map g true) := by
  refine ⟨?_, ?_, ?_, by simp, ?_, by simp [NodePc.passed?]⟩
  · intro g' hg'
    exact (Option.some.inj hg').symm.trans_lt hlt
  · rintro g' (hg' | hg')
    · simp at hg'
    · rw [← (NodePc.map.inj hg').1]
      exact hblank
  · intro g' hg'
    rw [← (NodePc.map.inj hg').1]
    exact hsized
  · intro g' hg'
    rw [← Option.some.inj hg']
    exact hregistrations

/-- The creator in `InitializeIfNeeded`. -/
theorem of_initializing {g : ℕ} {todo done : List (Field × ℕ)} (hlt : g < created)
    (hsize : headerSize < (segment g).size) (htodo : todo ≠ [])
    (hdone : stores (segment g).size = done ++ todo) (hfield : (segment g).field = written done)
    (hregistrations : (segment g).registrations = 0) :
    NodeSound a created segment (.initializeIfNeeded g todo) := by
  refine ⟨?_, by simp, by simp, ?_, ?_, by simp [NodePc.passed?]⟩
  · intro g' hg'
    exact (Option.some.inj hg').symm.trans_lt hlt
  · intro g' todo' hg'
    obtain ⟨rfl, rfl⟩ := NodePc.initializeIfNeeded.inj hg'
    exact ⟨hsize, htodo, done, hdone, hfield⟩
  · intro g' hg'
    rw [← Option.some.inj hg']
    exact hregistrations

/-- The other nodes change nothing in a segment that the node creates, and nothing of `Ready`. -/
theorem frame (h : NodeSound a created segment pc) (hcreated : created ≤ created')
    (hcreates : ∀ g, pc.creates? = some g → segment' g = segment g)
    (hpassed : ∀ g, pc.passed? = some g → (segment' g).field .initState = InitState.ready.code) :
    NodeSound a created' segment' pc := by
  refine ⟨fun g hg => (h.segment_lt g hg).trans_le hcreated, ?_, ?_, ?_, ?_, hpassed⟩
  · intro g hg
    rw [hcreates g (by rcases hg with rfl | rfl <;> rfl)]
    exact h.blank g hg
  · intro g hg
    rw [hcreates g (by rw [hg]; rfl)]
    exact h.sized g hg
  · intro g todo hg
    rw [hcreates g (by rw [hg]; rfl)]
    exact h.initializing g todo hg
  · intro g hg
    rw [hcreates g hg]
    exact h.unregistered g hg

end NodeSound

namespace Sound

variable {args : ι → Args} {s s' : State ι}

theorem initial : Sound args (State.initial : State ι) := by
  constructor <;> simp [State.initial, NodePc.segment?, NodePc.creates?, NodePc.passed?, Segment.new,
    InitState.code]

theorem node (h : Sound args s) (i : ι) : NodeSound (args i) s.created s.segment (s.node i) :=
  ⟨h.segment_lt i, h.blank i, h.sized i, h.initializing i, h.unregistered i, h.passed i⟩

theorem of_nodes (hnode : ∀ i, NodeSound (args i) s.created s.segment (s.node i))
    (hname : ∀ g, s.name = some g → g < s.created)
    (hunique : ∀ i j g, (s.node i).creates? = some g → (s.node j).creates? = some g → i = j)
    (hpublished : ∀ g, (s.segment g).field .initState = InitState.ready.code →
      (s.segment g).Published) : Sound args s :=
  ⟨fun i => (hnode i).segment_lt, hname, hunique, fun i => (hnode i).blank, fun i => (hnode i).sized,
    fun i => (hnode i).initializing, fun i => (hnode i).unregistered, hpublished,
    fun i => (hnode i).passed⟩

/-- A segment that is being created has got the first of the stores of the creator, and not all. -/
theorem fields_of_creates (h : Sound args s) {i : ι} {g : ℕ} (hi : (s.node i).creates? = some g) :
    ∃ done todo, stores (s.segment g).size = done ++ todo ∧ todo ≠ [] ∧
      (s.segment g).field = written done := by
  cases hpc : s.node i with
  | truncate g' =>
      obtain rfl : g' = g := by simpa [hpc, NodePc.creates?] using hi
      exact ⟨[], _, rfl, by simp, h.blank i g' (Or.inl hpc)⟩
  | map g' creator =>
      cases creator with
      | true =>
          obtain rfl : g' = g := by simpa [hpc, NodePc.creates?] using hi
          exact ⟨[], _, rfl, by simp, h.blank i g' (Or.inr hpc)⟩
      | false => simp [hpc, NodePc.creates?] at hi
  | initializeIfNeeded g' todo =>
      obtain rfl : g' = g := by simpa [hpc, NodePc.creates?] using hi
      obtain ⟨-, htodo, done, hdone, hfield⟩ := h.initializing i g' todo hpc
      exact ⟨done, todo, hdone, htodo, hfield⟩
  | _ => simp [hpc, NodePc.creates?] at hi

/-- A segment that is being created does not say `Ready`. -/
theorem not_ready (h : Sound args s) {i : ι} {g : ℕ} (hi : (s.node i).creates? = some g) :
    (s.segment g).field .initState ≠ InitState.ready.code := by
  obtain ⟨done, todo, hdone, htodo, hfield⟩ := h.fields_of_creates hi
  rw [hfield]
  exact not_ready_of_written hdone htodo

/-- A node that has passed is on a segment that nobody creates any more. -/
theorem creates_ne (h : Sound args s) {i j : ι} {g : ℕ} (hi : (s.node i).passed? = some g) :
    (s.node j).creates? ≠ some g :=
  fun hj => h.not_ready hj (h.passed i g hi)

section Step

variable [DecidableEq ι]

/-- A node moves on, without creating a segment. -/
theorem goTo (h : Sound args s) {i : ι} {pc : NodePc} (hcreates : pc.creates? = none)
    (hseg : ∀ g, pc.segment? = some g → g < s.created)
    (hpassed : ∀ g, pc.passed? = some g →
      (s.segment g).field .initState = InitState.ready.code) : Sound args (s.goTo i pc) := by
  have hcreator : ∀ j g, ((s.goTo i pc).node j).creates? = some g → (s.node j).creates? = some g := by
    intro j g hj
    rcases eq_or_ne j i with rfl | hne
    · rw [State.node_goTo_self, hcreates] at hj
      simp at hj
    · rw [State.node_goTo_of_ne pc hne] at hj
      exact hj
  refine of_nodes ?_ h.name_lt ?_ h.published
  · intro j
    rcases eq_or_ne j i with rfl | hne
    · rw [State.node_goTo_self]
      exact NodeSound.of_not_creates hcreates hseg hpassed
    · rw [State.node_goTo_of_ne pc hne]
      exact h.node j
  · intro j k g hj hk
    exact h.creator_unique j k g (hcreator j g hj) (hcreator k g hk)

/-- A node leaves its segment. -/
theorem goOut (h : Sound args s) (i : ι) {pc : NodePc} (hpc : pc.segment? = none) :
    Sound args (s.goTo i pc) := by
  refine h.goTo ?_ (by simp [hpc]) ?_
  · by_contra hne
    obtain ⟨g, hg⟩ := Option.ne_none_iff_exists'.1 hne
    simp [NodePc.segment_of_creates hg] at hpc
  · intro g hg
    simp [NodePc.segment_of_passed hg] at hpc

/-- A node that has found the header complete goes on. -/
theorem goOn (h : Sound args s) {i : ι} {g : ℕ} {pc : NodePc} (hi : (s.node i).segment? = some g)
    (hready : (s.segment g).field .initState = InitState.ready.code) (hcreates : pc.creates? = none)
    (hpc : pc.segment? = some g) : Sound args (s.goTo i pc) := by
  refine h.goTo hcreates ?_ ?_
  · intro g' hg'
    obtain rfl : g = g' := Option.some.inj (hpc.symm.trans hg')
    exact h.segment_lt i g hi
  · intro g' hg'
    obtain rfl : g = g' := Option.some.inj (hpc.symm.trans (NodePc.segment_of_passed hg'))
    exact hready

/-- A node that has passed changes a counter, and moves on. -/
theorem count (h : Sound args s) {i : ι} {g : ℕ} {pc : NodePc} {seg : Segment}
    (hi : (s.node i).passed? = some g) (hcreates : pc.creates? = none)
    (hpc : ∀ g', pc.segment? = some g' → g' = g)
    (hsize : seg.size = (s.segment g).size)
    (hfield : ∀ f, (∀ k : Kind, f ≠ k.counter) → f ≠ .refCount →
      seg.field f = (s.segment g).field f) :
    Sound args ((s.setSegment g seg).goTo i pc) := by
  have hready := h.passed i g hi
  have hpub := h.published g hready
  -- `initState` is not a counter, and nobody creates the segment any more
  have hstate : seg.field .initState = InitState.ready.code := by
    rw [hfield _ (fun k => by cases k <;> simp [Kind.counter]) (by simp)]
    exact hready
  have hother : ∀ {j : ι} {g' : ℕ}, (s.node j).creates? = some g' →
      Function.update s.segment g seg g' = s.segment g' := by
    intro j g' hj
    refine Function.update_of_ne ?_ _ _
    rintro rfl
    exact h.creates_ne hi hj
  have hset : Sound args (s.setSegment g seg) := by
    refine of_nodes ?_ h.name_lt h.creator_unique ?_
    · intro j
      refine (h.node j).frame le_rfl (fun g' hj => hother hj) fun g' hj => ?_
      simp only [State.setSegment]
      rcases eq_or_ne g' g with rfl | hne
      · rw [Function.update_self]
        exact hstate
      · rw [Function.update_of_ne hne]
        exact h.passed j g' hj
    · intro g' hg'
      simp only [State.setSegment] at hg' ⊢
      rcases eq_or_ne g' g with rfl | hne
      · rw [Function.update_self]
        refine ⟨hsize ▸ hpub.size, ?_, ?_, ?_, ?_, hstate, ?_, ?_, ?_⟩
        all_goals rw [hfield _ (fun k => by cases k <;> simp [Kind.counter]) (by simp)]
        · exact hpub.magic
        · exact hpub.version
        · exact hpub.shmSize.trans hsize.symm
        · exact hpub.bufferSize.trans (by rw [hsize])
        · exact hpub.reservePos
        · exact hpub.commitPos
        · exact hpub.readPos
      · rw [Function.update_of_ne hne] at hg' ⊢
        exact h.published g' hg'
  refine hset.goTo hcreates ?_ ?_
  · intro g' hg'
    rw [hpc g' hg']
    exact h.segment_lt i g (NodePc.segment_of_passed hi)
  · intro g' hg'
    rw [hpc g' (NodePc.segment_of_passed hg')]
    simp only [State.setSegment, Function.update_self]
    exact hstate

/-- A producer creates a segment. -/
theorem create (h : Sound args s) (i : ι) : Sound args (s.create i) := by
  have hseg : ∀ g, g ≠ s.created → (s.create i).segment g = s.segment g :=
    fun g hne => Function.update_of_ne hne _ _
  have hnew : (s.create i).segment s.created = Segment.new := Function.update_self _ _ _
  have hself : (s.create i).node i = .truncate s.created := Function.update_self _ _ _
  have hnode : ∀ j, j ≠ i → (s.create i).node j = s.node j :=
    fun j hne => Function.update_of_ne hne _ _
  -- the other nodes are on segments that are older
  have hold : ∀ j g, (s.node j).segment? = some g → g ≠ s.created :=
    fun j g hj => (h.segment_lt j g hj).ne
  refine of_nodes ?_ ?_ ?_ ?_
  · intro j
    rcases eq_or_ne j i with rfl | hne
    · rw [hself]
      have hsame : ∀ g, NodePc.truncate s.created = .truncate g → g = s.created :=
        fun g hg => (NodePc.truncate.inj hg).symm
      refine ⟨?_, ?_, by simp, by simp, ?_, by simp [NodePc.passed?]⟩
      · intro g hg
        exact (Option.some.inj hg).symm.trans_lt (Nat.lt_succ_self _)
      · rintro g (hg | hg)
        · rw [hsame g hg, hnew]
          rfl
        · simp at hg
      · intro g hg
        rw [← Option.some.inj hg, hnew]
        rfl
    · rw [hnode j hne]
      refine (h.node j).frame (Nat.le_succ _) ?_ ?_
      · exact fun g hj => hseg g (hold j g (NodePc.segment_of_creates hj))
      · intro g hj
        rw [hseg g (hold j g (NodePc.segment_of_passed hj))]
        exact h.passed j g hj
  · intro g hg
    obtain rfl := Option.some.inj hg
    exact Nat.lt_succ_self _
  · -- nobody else creates the new segment
    have hcreator : ∀ j g, j ≠ i → ((s.create i).node j).creates? = some g → g ≠ s.created := by
      intro j g hne hj
      rw [hnode j hne] at hj
      exact hold j g (NodePc.segment_of_creates hj)
    intro j k g hj hk
    rcases eq_or_ne j i with rfl | hji <;> rcases eq_or_ne k j with rfl | hkj
    · rfl
    · rw [hself] at hj
      exact absurd (Option.some.inj hj).symm (hcreator k g hkj hk)
    · rfl
    · rcases eq_or_ne k i with rfl | hki
      · rw [hself] at hk
        exact absurd (Option.some.inj hk).symm (hcreator j g hji hj)
      · rw [hnode j hji] at hj
        rw [hnode k hki] at hk
        exact h.creator_unique j k g hj hk
  · intro g hg
    rcases eq_or_ne g s.created with rfl | hne
    · rw [hnew] at hg
      simp [Segment.new, InitState.code] at hg
    · rw [hseg g hne] at hg ⊢
      exact h.published g hg

/-- The creator of a segment changes it, and goes on. -/
theorem creatorStep (h : Sound args s) {i : ι} {g : ℕ} {pc : NodePc} {seg : Segment}
    (hi : (s.node i).creates? = some g) (hpc : pc.segment? = some g)
    (hnode : NodeSound (args i) s.created (Function.update s.segment g seg) pc)
    (hpublished : seg.field .initState = InitState.ready.code → seg.Published) :
    Sound args ((s.setSegment g seg).goTo i pc) := by
  have hseg : ∀ g', g' ≠ g → Function.update s.segment g seg g' = s.segment g' :=
    fun g' hne => Function.update_of_ne hne _ _
  -- nobody else creates the segment, and nobody has passed on it
  have hother : ∀ j g', j ≠ i → (s.node j).creates? = some g' → g' ≠ g := by
    rintro j g' hne hj rfl
    exact hne (h.creator_unique j i g' hj hi)
  have hnot : ∀ j g', (s.node j).passed? = some g' → g' ≠ g := by
    rintro j g' hj rfl
    exact h.creates_ne hj hi
  refine of_nodes ?_ h.name_lt ?_ ?_
  · intro j
    rcases eq_or_ne j i with rfl | hne
    · rw [State.node_goTo_self]
      exact hnode
    · rw [State.node_goTo_of_ne pc hne]
      refine (h.node j).frame le_rfl ?_ ?_
      · exact fun g' hj => hseg g' (hother j g' hne hj)
      · intro g' hj
        refine Eq.trans ?_ (h.passed j g' hj)
        exact congrArg (fun seg => seg.field .initState) (hseg g' (hnot j g' hj))
  · intro j k g' hj hk
    have hcreator : ∀ l, (((s.setSegment g seg).goTo i pc).node l).creates? = some g' →
        (s.node l).creates? = some g' := by
      intro l hl
      rcases eq_or_ne l i with rfl | hne
      · rw [State.node_goTo_self] at hl
        rw [← hpc.symm.trans (NodePc.segment_of_creates hl)]
        exact hi
      · rw [State.node_goTo_of_ne pc hne] at hl
        exact hl
    exact h.creator_unique j k g' (hcreator j hj) (hcreator k hk)
  · intro g' hg'
    simp only [State.goTo, State.setSegment] at hg' ⊢
    rcases eq_or_ne g' g with rfl | hne
    · rw [Function.update_self] at hg' ⊢
      exact hpublished hg'
    · rw [hseg g' hne] at hg' ⊢
      exact h.published g' hg'

/-- The creator sizes its segment. -/
theorem truncate (h : Sound args s) {i : ι} {g : ℕ} (hi : s.node i = .truncate g) :
    Sound args ((s.setSegment g { s.segment g with size := (args i).shmSize }).goTo i
      (.map g true)) := by
  have hcreates : (s.node i).creates? = some g := by rw [hi]; rfl
  refine h.creatorStep hcreates rfl (NodeSound.of_map ?_ ?_ ?_ ?_) ?_
  · exact h.segment_lt i g (NodePc.segment_of_creates hcreates)
  · rw [Function.update_self]
    exact h.blank i g (Or.inl hi)
  · rw [Function.update_self]
  · rw [Function.update_self]
    exact h.unregistered i g hcreates
  · intro hready
    exact absurd hready (h.not_ready hcreates)

/-- The creator has its segment mapped. -/
theorem mapCreator (h : Sound args s) {i : ι} {g : ℕ} (hi : s.node i = .map g true)
    (hsize : headerSize < (args i).shmSize) :
    Sound args (s.goTo i (.initializeIfNeeded g (stores (args i).shmSize))) := by
  have hcreates : (s.node i).creates? = some g := by rw [hi]; rfl
  have hlt := h.segment_lt i g (NodePc.segment_of_creates hcreates)
  have hsized := h.sized i g hi
  have hsame : s.setSegment g (s.segment g) = s := by
    rw [State.setSegment, Function.update_eq_self]
  have hdone : stores (s.segment g).size = [] ++ stores (args i).shmSize := by
    rw [hsized, List.nil_append]
  have hnode : NodeSound (args i) s.created s.segment
      (.initializeIfNeeded g (stores (args i).shmSize)) :=
    NodeSound.of_initializing hlt (by rw [hsized]; exact hsize) (by simp [stores]) hdone
      (h.blank i g (Or.inr hi)) (h.unregistered i g hcreates)
  rw [← hsame]
  exact h.creatorStep hcreates rfl (by rw [Function.update_eq_self]; exact hnode) (h.published g)

/-- The creator writes a field. -/
theorem store (h : Sound args s) {i : ι} {g : ℕ} {f : Field} {v : ℕ} {rest : List (Field × ℕ)}
    (hi : s.node i = .initializeIfNeeded g ((f, v) :: rest)) :
    Sound args ((s.setSegment g ((s.segment g).store f v)).goTo i (.afterStore g rest)) := by
  have hcreates : (s.node i).creates? = some g := by rw [hi]; rfl
  have hlt := h.segment_lt i g (NodePc.segment_of_creates hcreates)
  obtain ⟨hsize, -, done, hdone, hfield⟩ := h.initializing i g _ hi
  have hself : Function.update s.segment g ((s.segment g).store f v) g = (s.segment g).store f v :=
    Function.update_self _ _ _
  have hfield' : ((s.segment g).store f v).field = written (done ++ [(f, v)]) := by
    rw [written_append, ← hfield]
    rfl
  have hdone' : stores (s.segment g).size = (done ++ [(f, v)]) ++ rest := by
    rw [hdone, List.append_assoc]
    rfl
  unfold NodePc.afterStore
  split_ifs with hrest
  · -- the last store says `Ready`
    subst hrest
    rw [List.append_nil] at hdone'
    have hpub : ((s.segment g).store f v).Published :=
      published_of_written hsize (hfield'.trans (by rw [← hdone']; rfl))
    refine h.creatorStep hcreates rfl (NodeSound.of_not_creates rfl ?_ ?_) fun _ => hpub
    · intro g' hg'
      exact (Option.some.inj hg').symm.trans_lt hlt
    · intro g' hg'
      rw [← Option.some.inj hg', hself]
      exact hpub.initState
  · have hnode : NodeSound (args i) s.created
        (Function.update s.segment g ((s.segment g).store f v)) (.initializeIfNeeded g rest) :=
      NodeSound.of_initializing hlt (by rw [hself]; exact hsize) hrest (by rw [hself]; exact hdone')
        (by rw [hself]; exact hfield') (by rw [hself]; exact h.unregistered i g hcreates)
    refine h.creatorStep hcreates rfl hnode ?_
    intro hready
    rw [hfield'] at hready
    exact absurd hready (not_ready_of_written hdone' hrest)

theorem step (h : Sound args s) {a : Action ι} (he : Effect args s a s') : Sound args s' := by
  cases he with
  | construct i _ =>
      refine h.goOut i ?_
      cases hk : (args i).kind <;> simp [NodePc.first, hk, NodePc.segment?]
  | create i _ _ => exact h.create i
  | pathExists i g _ _ => exact h.goOut i rfl
  | openExisting i g _ hname =>
      refine h.goTo rfl ?_ (by simp [NodePc.passed?])
      intro g' hg'
      obtain rfl : g = g' := by simpa [NodePc.segment?] using hg'
      exact h.name_lt g hname
  | notFound i _ _ => exact h.goOut i rfl
  | truncate i g hi => exact h.truncate hi
  | map i g creator hi =>
      have hlt := h.segment_lt i g (by rw [hi]; rfl)
      unfold NodePc.afterMap
      split
      case h_1 what _ => exact h.goOut i rfl
      case h_2 bufferSize hsize =>
        obtain ⟨hpos, heq⟩ := MpscQueue.getBufferSizeFromShmSize_eq_ok hsize
        cases creator with
        | true => exact h.mapCreator hi (by omega)
        | false =>
            refine h.goTo rfl ?_ (by simp [NodePc.passed?])
            intro g' hg'
            obtain rfl : g = g' := by simpa [NodePc.segment?] using hg'
            exact hlt
  | store i g f v rest hi _ => exact h.store hi
  | ready i g hi hready => exact h.goOn (by rw [hi]; rfl) hready rfl rfl
  | notReady i g _ => exact h
  | pass i g c rest hi _ =>
      refine h.goOn (by rw [hi]; rfl) (h.passed i g (by rw [hi]; rfl)) ?_ ?_
      all_goals cases rest <;> rfl
  | reject i g c rest _ _ => exact h.goOut i rfl
  | addKind i g hi =>
      refine h.count (by rw [hi]; rfl) rfl (by simp [NodePc.segment?]) rfl ?_
      exact fun f hkind _ => Segment.field_store_of_ne _ _ (hkind _)
  | addRef i g hi =>
      refine h.count (by rw [hi]; rfl) rfl (by simp [NodePc.segment?]) rfl ?_
      exact fun f _ href => Segment.field_store_of_ne _ _ href
  | destroy i g hi => exact h.goOn (by rw [hi]; rfl) (h.passed i g (by rw [hi]; rfl)) rfl rfl
  | subKind i g hi =>
      refine h.count (by rw [hi]; rfl) rfl (by simp [NodePc.segment?]) rfl ?_
      exact fun f hkind _ => Segment.field_store_of_ne _ _ (hkind _)
  | subRef i g hi =>
      refine h.count (by rw [hi]; rfl) (by split_ifs <;> rfl) ?_ rfl ?_
      · split_ifs <;> simp [NodePc.segment?]
      · exact fun f _ href => Segment.field_store_of_ne _ _ href
  | unlink i g _ =>
      have hgo : Sound args (s.goTo i .absent) := h.goOut i rfl
      exact ⟨hgo.segment_lt, by simp, hgo.creator_unique, hgo.blank, hgo.sized, hgo.initializing,
        hgo.unregistered, hgo.published, hgo.passed⟩
  | fault i g f _ _ => exact h.goOut i rfl
  | exit i _ => exact h.goOut i rfl
  | mapFails i g creator _ => exact h.goOut i rfl

end Step

end Sound

/-- **The invariant holds in every reachable state.** -/
theorem sound_of_reachable [DecidableEq ι] {args : ι → Args} {s : State ι}
    (h : (system args).Reachable s) : Sound args s := by
  refine Automaton.Reachable.invariant ?_ ?_ h
  · rintro s rfl
    exact Sound.initial
  · intro s a s' _ hsound hs
    exact hsound.step (effect_of_step hs)

end SharedMemory
