/-
**The nodes of hw-5 on one path.**

`ProducerNode` and `ConsumerNode` attach to a shared memory segment in their constructors and detach in
their destructors.  A producer creates the segment if the path does not exist, sizes it, and writes its
header; every other node waits until the header says `Ready`, validates it, and adds itself to two
counters.  A consumer that takes the last reference removes the name of the segment.

The path is the name of at most one segment at a time, and a segment lives on without a name as long as
nodes have it mapped.  Every node is a process of its own.  A system call may fail, and an access beyond
the present size of a segment is a fatal fault.

A segment records, besides its memory, the number of times that a node has added itself to one of its
counters.  The steps of the program do not look at it.

Main definitions:

* `SharedMemory.Field`, `SharedMemory.Segment` — the fields of `SharedMemoryLayout`, and a segment;
* `SharedMemory.stores`, `SharedMemory.checks` — what `InitializeIfNeeded` writes and what
  `ValidateProtocol` checks;
* `SharedMemory.NodePc`, `SharedMemory.State`, `SharedMemory.step` — the nodes and their steps;
* `SharedMemory.system` — the automaton.

Main results:

* `SharedMemory.effect_of_step` — inversion of the step function;
* `SharedMemory.node_of_effect` — a step of one node does not move the others.
-/

import CppMultithreaded.Automaton
import CppMultithreaded.QueueBoundary

set_option relaxedAutoImplicit false
set_option autoImplicit false

namespace SharedMemory

open MpscQueue (headerSize getBufferSizeFromShmSize)

/-! ### Segments -/

/-- The fields of `SharedMemoryLayout`. -/
inductive Field
  | magic
  | version
  | shmSize
  | bufferSize
  | initState
  | producerCount
  | consumerCount
  | refCount
  | reservePos
  | commitPos
  | readPos
  deriving DecidableEq

/-- The offset of the first byte behind a field. -/
def Field.bound : Field → ℕ
  | .magic => 4
  | .version => 8
  | .shmSize => 16
  | .bufferSize => 24
  | .initState => 28
  | .producerCount => 32
  | .consumerCount => 36
  | .refCount => 40
  | .reservePos => 72
  | .commitPos => 80
  | .readPos => 88

theorem Field.bound_lt (f : Field) : f.bound < headerSize := by
  cases f <;> decide

inductive InitState
  | uninitialized
  | initializing
  | ready

def InitState.code : InitState → ℕ
  | .uninitialized => 0
  | .initializing => 1
  | .ready => 2

def protocolMagic : ℕ := 0x4D505343

def protocolVersion : ℕ := 1

/-- A shared memory object.  Its memory is zero until something has been written. -/
structure Segment where
  size : ℕ
  field : Field → ℕ
  /-- The number of times that a node has added itself to a counter. -/
  registrations : ℕ

/-- A segment that `shm_open` has created. -/
def Segment.new : Segment :=
  { size := 0, field := fun _ => 0, registrations := 0 }

/-- A store to a field. -/
def Segment.store (seg : Segment) (f : Field) (v : ℕ) : Segment :=
  { seg with field := Function.update seg.field f v }

/-- `fetch_add(1)` of a counter of 32 bits. -/
def Segment.fetchAdd (seg : Segment) (f : Field) : Segment :=
  { seg.store f ((seg.field f + 1) % 2 ^ 32) with registrations := seg.registrations + 1 }

/-- `fetch_sub(1)` of a counter of 32 bits. -/
def Segment.fetchSub (seg : Segment) (f : Field) : Segment :=
  seg.store f ((seg.field f + (2 ^ 32 - 1)) % 2 ^ 32)

theorem Segment.field_store_of_ne (seg : Segment) {f f' : Field} (v : ℕ) (h : f' ≠ f) :
    (seg.store f v).field f' = seg.field f' :=
  Function.update_of_ne h _ _

theorem Segment.field_fetchAdd {seg : Segment} {f : Field} {n : ℕ} (h : seg.field f = n % 2 ^ 32) :
    (seg.fetchAdd f).field f = (n + 1) % 2 ^ 32 := by
  have hself : (seg.fetchAdd f).field f = (seg.field f + 1) % 2 ^ 32 := Function.update_self _ _ _
  rw [hself, h, Nat.mod_add_mod]

theorem Segment.field_fetchSub {seg : Segment} {f : Field} {n : ℕ}
    (h : seg.field f = (n + 1) % 2 ^ 32) : (seg.fetchSub f).field f = n % 2 ^ 32 := by
  have hself : (seg.fetchSub f).field f = (seg.field f + (2 ^ 32 - 1)) % 2 ^ 32 :=
    Function.update_self _ _ _
  rw [hself, h, Nat.mod_add_mod, Nat.add_assoc, Nat.add_sub_cancel' (Nat.one_le_two_pow),
    Nat.add_mod_right]

/-! ### Nodes -/

inductive Kind
  | producer
  | consumer
  deriving DecidableEq

/-- The counter of the nodes of a kind. -/
def Kind.counter : Kind → Field
  | .producer => .producerCount
  | .consumer => .consumerCount

theorem Kind.counter_inj {k k' : Kind} (h : k.counter = k'.counter) : k = k' := by
  cases k <;> cases k' <;> simp_all [Kind.counter]

theorem Kind.counter_ne_refCount (k : Kind) : k.counter ≠ .refCount := by
  cases k <;> simp [Kind.counter]

/-- The class of a node, and the argument `shmSize` of its constructor. -/
structure Args where
  kind : Kind
  shmSize : ℕ

/-- The stores of `new (memory) SharedMemoryLayout{}`. -/
def placementNew : List (Field × ℕ) :=
  [(.magic, protocolMagic), (.version, protocolVersion), (.shmSize, 0), (.bufferSize, 0),
    (.initState, InitState.uninitialized.code), (.producerCount, 0), (.consumerCount, 0),
    (.refCount, 0), (.reservePos, 0), (.commitPos, 0), (.readPos, 0)]

/-- The stores of `InitializeIfNeeded` in the creator. -/
def stores (shmSize : ℕ) : List (Field × ℕ) :=
  placementNew ++
    [(Field.initState, InitState.initializing.code), (.magic, protocolMagic),
      (.version, protocolVersion), (.shmSize, shmSize), (.bufferSize, shmSize - headerSize),
      (.producerCount, 0), (.consumerCount, 0), (.refCount, 0), (.reservePos, 0), (.commitPos, 0),
      (.readPos, 0), (.initState, InitState.ready.code)]

/-- A check of `ValidateProtocol`: the field, the value it must have, and the text of the error. -/
structure Check where
  field : Field
  expected : ℕ
  what : String

/-- The checks of `ValidateProtocol`.  Only a producer looks at the state again. -/
def checks (a : Args) : List Check :=
  [⟨.magic, protocolMagic, "Invalid protocol magic"⟩,
    ⟨.version, protocolVersion, "Unsupported protocol version"⟩,
    ⟨.shmSize, a.shmSize, "Shared memory size mismatch"⟩,
    ⟨.bufferSize, a.shmSize - headerSize, "Shared memory buffer size mismatch"⟩] ++
  match a.kind with
  | .producer => [⟨.initState, InitState.ready.code, "Shared memory is not ready"⟩]
  | .consumer => []

/-- The program points of a node; the number is that of the segment. -/
inductive NodePc
  /-- Before the constructor, or after the destructor. -/
  | absent
  /-- About to call `shm_open` with `O_CREAT | O_EXCL`. -/
  | openExclusive
  /-- About to call `shm_open` without. -/
  | openExisting
  /-- The creator is about to call `ftruncate`. -/
  | truncate (g : ℕ)
  /-- About to call `mmap`. -/
  | map (g : ℕ) (creator : Bool)
  /-- The creator in `InitializeIfNeeded`, with the stores that are left. -/
  | initializeIfNeeded (g : ℕ) (todo : List (Field × ℕ))
  /-- In `WaitUntilReady`. -/
  | waitReady (g : ℕ)
  /-- In `ValidateProtocol`, with the checks that are left. -/
  | validate (g : ℕ) (todo : List Check)
  /-- About to add to the counter of its kind, and to `refCount`. -/
  | addKind (g : ℕ)
  | addRef (g : ℕ)
  /-- The constructor has returned. -/
  | attached (g : ℕ)
  /-- In the destructor, about to subtract from the counter of its kind, and from `refCount`. -/
  | subKind (g : ℕ)
  | subRef (g : ℕ)
  /-- A consumer, about to call `shm_unlink`. -/
  | unlink (g : ℕ)
  /-- The constructor has thrown. -/
  | threw (what : String)
  /-- `CHECK_ERROR` has ended the process. -/
  | exited
  /-- A fault has ended the process. -/
  | faulted

/-! ### States -/

variable {ι : Type*}

structure State (ι : Type*) where
  /-- The segment that the path names. -/
  name : Option ℕ
  /-- The number of segments that have been created. -/
  created : ℕ
  segment : ℕ → Segment
  node : ι → NodePc

def State.initial : State ι :=
  { name := none, created := 0, segment := fun _ => Segment.new, node := fun _ => .absent }

inductive Action (ι : Type*)
  /-- A node takes its next step. -/
  | run (i : ι)
  /-- The system call that a node is about to make fails. -/
  | fail (i : ι)

/-- The program point at which a constructor begins. -/
def NodePc.first (a : Args) : NodePc :=
  match a.kind with
  | .producer => .openExclusive
  | .consumer => .openExisting

/-- The program point after `mmap`, and after the initialisers of the members. -/
def NodePc.afterMap (a : Args) (g : ℕ) (creator : Bool) : NodePc :=
  match getBufferSizeFromShmSize a.shmSize with
  | .error what => .threw what
  | .ok _ => if creator then .initializeIfNeeded g (stores a.shmSize) else .waitReady g

/-- The program point after a store of the creator. -/
def NodePc.afterStore (g : ℕ) (rest : List (Field × ℕ)) : NodePc :=
  if rest = [] then .addKind g else .initializeIfNeeded g rest

/-- The program point after a check that has been passed. -/
def NodePc.afterCheck (g : ℕ) : List Check → NodePc
  | [] => .addKind g
  | c :: rest => .validate g (c :: rest)

section Step

variable [DecidableEq ι]

def State.goTo (s : State ι) (i : ι) (pc : NodePc) : State ι :=
  { s with node := Function.update s.node i pc }

@[simp] theorem State.node_goTo_self (s : State ι) (i : ι) (pc : NodePc) :
    (s.goTo i pc).node i = pc :=
  Function.update_self _ _ _

theorem State.node_goTo_of_ne {s : State ι} {i j : ι} (pc : NodePc) (h : j ≠ i) :
    (s.goTo i pc).node j = s.node j :=
  Function.update_of_ne h _ _

def State.setSegment (s : State ι) (g : ℕ) (seg : Segment) : State ι :=
  { s with segment := Function.update s.segment g seg }

/-- A node accesses a field, and goes on as in `s'`, unless a byte of the field is beyond the present
size.  That this faults for every byte is an assumption: a kernel that maps whole pages lets the rest of
the last page be accessed, where a blank header is read. -/
def State.access (s : State ι) (i : ι) (g : ℕ) (f : Field) (s' : State ι) : State ι :=
  if f.bound ≤ (s.segment g).size then s' else s.goTo i .faulted

/-- `shm_open` with `O_CREAT | O_EXCL`, when the path does not exist. -/
def State.create (s : State ι) (i : ι) : State ι :=
  { name := some s.created
    created := s.created + 1
    segment := Function.update s.segment s.created Segment.new
    node := Function.update s.node i (.truncate s.created) }

/-- The next step of a node. -/
def State.run (args : ι → Args) (s : State ι) (i : ι) : Option (State ι) :=
  match s.node i with
  | .absent => some (s.goTo i (.first (args i)))
  | .openExclusive =>
      match s.name with
      | none => some (s.create i)
      | some _ => some (s.goTo i .openExisting)
  | .openExisting =>
      match s.name with
      | none => some (s.goTo i .exited)
      | some g => some (s.goTo i (.map g false))
  | .truncate g =>
      some ((s.setSegment g { s.segment g with size := (args i).shmSize }).goTo i (.map g true))
  | .map g creator => some (s.goTo i (.afterMap (args i) g creator))
  | .initializeIfNeeded g ((f, v) :: rest) =>
      some (s.access i g f ((s.setSegment g ((s.segment g).store f v)).goTo i (.afterStore g rest)))
  | .initializeIfNeeded _ [] => none
  | .waitReady g =>
      some (s.access i g .initState
        (if (s.segment g).field .initState = InitState.ready.code then
          s.goTo i (.afterCheck g (checks (args i)))
        else s))
  | .validate g (c :: rest) =>
      some (s.access i g c.field
        (if (s.segment g).field c.field = c.expected then s.goTo i (.afterCheck g rest)
        else s.goTo i (.threw c.what)))
  | .validate _ [] => none
  | .addKind g =>
      some (s.access i g (args i).kind.counter
        ((s.setSegment g ((s.segment g).fetchAdd (args i).kind.counter)).goTo i (.addRef g)))
  | .addRef g =>
      some (s.access i g .refCount
        ((s.setSegment g ((s.segment g).fetchAdd .refCount)).goTo i (.attached g)))
  | .attached g => some (s.goTo i (.subKind g))
  | .subKind g =>
      some (s.access i g (args i).kind.counter
        ((s.setSegment g ((s.segment g).fetchSub (args i).kind.counter)).goTo i (.subRef g)))
  | .subRef g =>
      some (s.access i g .refCount
        ((s.setSegment g ((s.segment g).fetchSub .refCount)).goTo i
          (if (args i).kind = .consumer ∧ (s.segment g).field .refCount = 1 then .unlink g
          else .absent)))
  | .unlink _ => some { s.goTo i .absent with name := none }
  | .threw _ | .exited | .faulted => none

/-- The system call that a node is about to make fails. -/
def State.fail (s : State ι) (i : ι) : Option (State ι) :=
  match s.node i with
  | .openExclusive | .openExisting | .truncate _ | .unlink _ => some (s.goTo i .exited)
  | .map _ _ => some (s.goTo i (.threw "mmap failed"))
  | _ => none

def step (args : ι → Args) (s : State ι) : Action ι → Option (State ι)
  | .run i => s.run args i
  | .fail i => s.fail i

/-- The nodes on one path, which does not exist at first. -/
def system (args : ι → Args) : Automaton (State ι) (Action ι) where
  init s := s = State.initial
  step := step args

/-! ### What a step can do -/

/-- The segment of a node. -/
def NodePc.segment? : NodePc → Option ℕ
  | .truncate g | .map g _ | .initializeIfNeeded g _ | .waitReady g | .validate g _ | .addKind g
  | .addRef g | .attached g | .subKind g | .subRef g | .unlink g => some g
  | _ => none

/-- The effects of a step, one constructor for each. -/
inductive Effect (args : ι → Args) (s : State ι) : Action ι → State ι → Prop
  | construct (i : ι) : s.node i = .absent →
      Effect args s (.run i) (s.goTo i (.first (args i)))
  | create (i : ι) : s.node i = .openExclusive → s.name = none →
      Effect args s (.run i) (s.create i)
  | pathExists (i : ι) (g : ℕ) : s.node i = .openExclusive → s.name = some g →
      Effect args s (.run i) (s.goTo i .openExisting)
  | openExisting (i : ι) (g : ℕ) : s.node i = .openExisting → s.name = some g →
      Effect args s (.run i) (s.goTo i (.map g false))
  | notFound (i : ι) : s.node i = .openExisting → s.name = none →
      Effect args s (.run i) (s.goTo i .exited)
  | truncate (i : ι) (g : ℕ) : s.node i = .truncate g → Effect args s (.run i)
      ((s.setSegment g { s.segment g with size := (args i).shmSize }).goTo i (.map g true))
  | map (i : ι) (g : ℕ) (creator : Bool) : s.node i = .map g creator →
      Effect args s (.run i) (s.goTo i (.afterMap (args i) g creator))
  | store (i : ι) (g : ℕ) (f : Field) (v : ℕ) (rest : List (Field × ℕ)) :
      s.node i = .initializeIfNeeded g ((f, v) :: rest) → f.bound ≤ (s.segment g).size →
      Effect args s (.run i)
        ((s.setSegment g ((s.segment g).store f v)).goTo i (.afterStore g rest))
  | ready (i : ι) (g : ℕ) : s.node i = .waitReady g →
      (s.segment g).field .initState = InitState.ready.code →
      Effect args s (.run i) (s.goTo i (.afterCheck g (checks (args i))))
  | notReady (i : ι) (g : ℕ) : s.node i = .waitReady g → Effect args s (.run i) s
  | pass (i : ι) (g : ℕ) (c : Check) (rest : List Check) : s.node i = .validate g (c :: rest) →
      (s.segment g).field c.field = c.expected →
      Effect args s (.run i) (s.goTo i (.afterCheck g rest))
  | reject (i : ι) (g : ℕ) (c : Check) (rest : List Check) : s.node i = .validate g (c :: rest) →
      (s.segment g).field c.field ≠ c.expected →
      Effect args s (.run i) (s.goTo i (.threw c.what))
  | addKind (i : ι) (g : ℕ) : s.node i = .addKind g → Effect args s (.run i)
      ((s.setSegment g ((s.segment g).fetchAdd (args i).kind.counter)).goTo i (.addRef g))
  | addRef (i : ι) (g : ℕ) : s.node i = .addRef g → Effect args s (.run i)
      ((s.setSegment g ((s.segment g).fetchAdd .refCount)).goTo i (.attached g))
  | destroy (i : ι) (g : ℕ) : s.node i = .attached g →
      Effect args s (.run i) (s.goTo i (.subKind g))
  | subKind (i : ι) (g : ℕ) : s.node i = .subKind g → Effect args s (.run i)
      ((s.setSegment g ((s.segment g).fetchSub (args i).kind.counter)).goTo i (.subRef g))
  | subRef (i : ι) (g : ℕ) : s.node i = .subRef g → Effect args s (.run i)
      ((s.setSegment g ((s.segment g).fetchSub .refCount)).goTo i
        (if (args i).kind = .consumer ∧ (s.segment g).field .refCount = 1 then .unlink g
        else .absent))
  | unlink (i : ι) (g : ℕ) : s.node i = .unlink g →
      Effect args s (.run i) { s.goTo i .absent with name := none }
  | fault (i : ι) (g : ℕ) (f : Field) : (s.node i).segment? = some g →
      (s.segment g).size < f.bound → Effect args s (.run i) (s.goTo i .faulted)
  | exit (i : ι) :
      s.node i = .openExclusive ∨ s.node i = .openExisting ∨ (∃ g, s.node i = .truncate g) ∨
        (∃ g, s.node i = .unlink g) →
      Effect args s (.fail i) (s.goTo i .exited)
  | mapFails (i : ι) (g : ℕ) (creator : Bool) : s.node i = .map g creator →
      Effect args s (.fail i) (s.goTo i (.threw "mmap failed"))

/-- An access within the bounds, or a fault. -/
theorem access_cases (s : State ι) (i : ι) (g : ℕ) (f : Field) (s' : State ι) :
    (f.bound ≤ (s.segment g).size ∧ s.access i g f s' = s') ∨
      ((s.segment g).size < f.bound ∧ s.access i g f s' = s.goTo i .faulted) := by
  rcases le_or_gt f.bound (s.segment g).size with h | h
  · exact Or.inl ⟨h, if_pos h⟩
  · exact Or.inr ⟨h, if_neg (not_le.2 h)⟩

theorem effect_of_run {args : ι → Args} {s s' : State ι} {i : ι} (h : s.run args i = some s') :
    Effect args s (.run i) s' := by
  unfold State.run at h
  split at h
  case h_1 hpc =>
    obtain rfl := Option.some.inj h
    exact Effect.construct i hpc
  case h_2 hpc =>
    split at h
    case h_1 hname =>
      obtain rfl := Option.some.inj h
      exact Effect.create i hpc hname
    case h_2 g hname =>
      obtain rfl := Option.some.inj h
      exact Effect.pathExists i g hpc hname
  case h_3 hpc =>
    split at h
    case h_1 hname =>
      obtain rfl := Option.some.inj h
      exact Effect.notFound i hpc hname
    case h_2 g hname =>
      obtain rfl := Option.some.inj h
      exact Effect.openExisting i g hpc hname
  case h_4 g hpc =>
    obtain rfl := Option.some.inj h
    exact Effect.truncate i g hpc
  case h_5 g creator hpc =>
    obtain rfl := Option.some.inj h
    exact Effect.map i g creator hpc
  case h_6 g f v rest hpc =>
    obtain rfl := Option.some.inj h
    rcases access_cases s i g f _ with ⟨hbound, heq⟩ | ⟨hbound, heq⟩ <;> rw [heq]
    · exact Effect.store i g f v rest hpc hbound
    · exact Effect.fault i g f (by rw [hpc]; rfl) hbound
  case h_7 g hpc => simp at h
  case h_8 g hpc =>
    obtain rfl := Option.some.inj h
    rcases access_cases s i g .initState _ with ⟨hbound, heq⟩ | ⟨hbound, heq⟩ <;> rw [heq]
    · split_ifs with hready
      · exact Effect.ready i g hpc hready
      · exact Effect.notReady i g hpc
    · exact Effect.fault i g .initState (by rw [hpc]; rfl) hbound
  case h_9 g c rest hpc =>
    obtain rfl := Option.some.inj h
    rcases access_cases s i g c.field _ with ⟨hbound, heq⟩ | ⟨hbound, heq⟩ <;> rw [heq]
    · split_ifs with hpass
      · exact Effect.pass i g c rest hpc hpass
      · exact Effect.reject i g c rest hpc hpass
    · exact Effect.fault i g c.field (by rw [hpc]; rfl) hbound
  case h_10 g hpc => simp at h
  case h_11 g hpc =>
    obtain rfl := Option.some.inj h
    rcases access_cases s i g (args i).kind.counter _ with ⟨hbound, heq⟩ | ⟨hbound, heq⟩ <;> rw [heq]
    · exact Effect.addKind i g hpc
    · exact Effect.fault i g _ (by rw [hpc]; rfl) hbound
  case h_12 g hpc =>
    obtain rfl := Option.some.inj h
    rcases access_cases s i g .refCount _ with ⟨hbound, heq⟩ | ⟨hbound, heq⟩ <;> rw [heq]
    · exact Effect.addRef i g hpc
    · exact Effect.fault i g _ (by rw [hpc]; rfl) hbound
  case h_13 g hpc =>
    obtain rfl := Option.some.inj h
    exact Effect.destroy i g hpc
  case h_14 g hpc =>
    obtain rfl := Option.some.inj h
    rcases access_cases s i g (args i).kind.counter _ with ⟨hbound, heq⟩ | ⟨hbound, heq⟩ <;> rw [heq]
    · exact Effect.subKind i g hpc
    · exact Effect.fault i g _ (by rw [hpc]; rfl) hbound
  case h_15 g hpc =>
    obtain rfl := Option.some.inj h
    rcases access_cases s i g .refCount _ with ⟨hbound, heq⟩ | ⟨hbound, heq⟩ <;> rw [heq]
    · exact Effect.subRef i g hpc
    · exact Effect.fault i g _ (by rw [hpc]; rfl) hbound
  case h_16 g hpc =>
    obtain rfl := Option.some.inj h
    exact Effect.unlink i g hpc
  all_goals simp at h

theorem effect_of_fail {args : ι → Args} {s s' : State ι} {i : ι} (h : s.fail i = some s') :
    Effect args s (.fail i) s' := by
  unfold State.fail at h
  split at h
  case h_1 hpc =>
    obtain rfl := Option.some.inj h
    exact Effect.exit i (Or.inl hpc)
  case h_2 hpc =>
    obtain rfl := Option.some.inj h
    exact Effect.exit i (Or.inr (Or.inl hpc))
  case h_3 g hpc =>
    obtain rfl := Option.some.inj h
    exact Effect.exit i (Or.inr (Or.inr (Or.inl ⟨g, hpc⟩)))
  case h_4 g hpc =>
    obtain rfl := Option.some.inj h
    exact Effect.exit i (Or.inr (Or.inr (Or.inr ⟨g, hpc⟩)))
  case h_5 g creator hpc =>
    obtain rfl := Option.some.inj h
    exact Effect.mapFails i g creator hpc
  case h_6 => simp at h

/-- **Inversion of the step function.** -/
theorem effect_of_step {args : ι → Args} {s s' : State ι} {a : Action ι}
    (h : step args s a = some s') : Effect args s a s' := by
  cases a with
  | run i => exact effect_of_run h
  | fail i => exact effect_of_fail h

/-- A step of one node does not move the others. -/
theorem node_of_effect {args : ι → Args} {s s' : State ι} {a : Action ι}
    (h : Effect args s a s') {j : ι} (hj : a ≠ .run j) (hfail : a ≠ .fail j) :
    s'.node j = s.node j := by
  have hne : ∀ {i : ι}, a = .run i ∨ a = .fail i → j ≠ i := by
    rintro i (hi | hi) rfl
    · exact hj hi
    · exact hfail hi
  cases h with
  | create i hpc hname => exact Function.update_of_ne (hne (Or.inl rfl)) _ _
  | unlink i g hpc => exact Function.update_of_ne (hne (Or.inl rfl)) _ _
  | notReady i g hpc => rfl
  | exit i hpc => exact Function.update_of_ne (hne (Or.inr rfl)) _ _
  | mapFails i g creator hpc => exact Function.update_of_ne (hne (Or.inr rfl)) _ _
  | _ => exact Function.update_of_ne (hne (Or.inl rfl)) _ _

end Step

end SharedMemory
