/-
**Constructors of hw-5 that throw.**

The constructor of a `ProducerNode` throws where `mmap` fails, where the size that it has been given
leaves no room for a buffer, and where `ValidateProtocol` rejects the header.  A node that finds the path
has changed nothing by then.  A node that has created the segment has given the path a name, and nothing
removes it: the segment stays, its header never says `Ready`, and every later node waits for it.

Main definitions:

* `SharedMemory.Constructing`, `SharedMemory.constructor` — one node on its own, up to the end of its
  constructor;
* `SharedMemory.Unchanged`, `SharedMemory.LeavesNamespace` — nothing has been changed, and this in every
  run of the constructor that throws;
* `SharedMemory.Opening`, `SharedMemory.Creating` — what holds on the way of a node that finds the path,
  and of a node that does not;
* `SharedMemory.Abandoned` — a segment that will never be ready.

Main results:

* `SharedMemory.Opening.step`, `SharedMemory.Creating.step` — every step keeps them;
* `SharedMemory.leavesNamespace_iff` — **a constructor that throws leaves everything as it was iff the
  path has named a segment before**;
* `SharedMemory.abandoned_of_threw` — otherwise it leaves a segment that nobody ever gets past.
-/

import CppMultithreaded.ShmRegistration

set_option relaxedAutoImplicit false
set_option autoImplicit false

namespace SharedMemory

open MpscQueue (headerSize getBufferSizeFromShmSize)

variable {ι : Type*}

/-! ### One constructor -/

/-- The node whose step it is. -/
def Action.node : Action ι → ι
  | .run i => i
  | .fail i => i

section Constructor

variable [DecidableEq ι]

/-- It is a step of the node, whose constructor has not returned. -/
def Constructing (i : ι) (s : State ι) (a : Action ι) : Prop :=
  a.node = i ∧ (s.node i).attached? = none

instance (i : ι) (s : State ι) (a : Action ι) : Decidable (Constructing i s a) :=
  inferInstanceAs (Decidable (a.node = i ∧ (s.node i).attached? = none))

/-- The constructor of a node, while the others do nothing. -/
def constructor (args : ι → Args) (i : ι) : Automaton (State ι) (Action ι) :=
  (system args).restrict (Constructing i)

/-- The name, and the contents and the counters of the segments, are what they were. -/
structure Unchanged (s₀ s : State ι) : Prop where
  name : s.name = s₀.name
  segment : s.segment = s₀.segment

/-- The constructor of the node changes nothing when it throws. -/
def LeavesNamespace (args : ι → Args) (i : ι) (s₀ : State ι) : Prop :=
  ∀ s what, (constructor args i).Steps s₀ s → s.node i = .threw what → Unchanged s₀ s

variable {args : ι → Args} {i : ι} {s₀ s s' : State ι} {a : Action ι}

theorem step_of_constructor (h : (constructor args i).step s a = some s') :
    a.node = i ∧ (s.node i).attached? = none ∧ Effect args s a s' := by
  obtain ⟨⟨ha, hnot⟩, hstep⟩ := Automaton.restrict_step_eq_some.1 h
  exact ⟨ha, hnot, effect_of_step hstep⟩

/-! ### A node that finds the path -/

/-- The node has changed nothing, or it does not throw any more. -/
inductive Opening (s₀ : State ι) (i : ι) (s : State ι) : Prop
  | before : s.node i = .absent ∨ s.node i = .openExclusive ∨ s.node i = .openExisting →
      Unchanged s₀ s → Opening s₀ i s
  | onSegment (g : ℕ) : s.node i = .map g false ∨ s.node i = .waitReady g ∨
      (∃ todo, s.node i = .validate g todo) → Unchanged s₀ s → Opening s₀ i s
  | threw (what : String) : s.node i = .threw what → Unchanged s₀ s → Opening s₀ i s
  | added (g : ℕ) : s.node i = .addKind g ∨ s.node i = .addRef g ∨ s.node i = .attached g →
      Opening s₀ i s
  | lost : s.node i = .exited ∨ s.node i = .faulted → Opening s₀ i s

namespace Opening

/-- A node that moves without a change. -/
theorem goTo {pc : NodePc} (h : Unchanged s₀ s)
    (hpc : pc = .openExclusive ∨ pc = .openExisting ∨ (∃ g, pc = .map g false ∨ pc = .waitReady g) ∨
      (∃ g todo, pc = .afterCheck g todo) ∨ ∃ what, pc = .threw what) :
    Opening s₀ i (s.goTo i pc) := by
  have hsame : Unchanged s₀ (s.goTo i pc) := ⟨h.name, h.segment⟩
  have hnode := State.node_goTo_self s i pc
  rcases hpc with rfl | rfl | ⟨g, rfl | rfl⟩ | ⟨g, todo, rfl⟩ | ⟨what, rfl⟩
  · exact .before (Or.inr (Or.inl hnode)) hsame
  · exact .before (Or.inr (Or.inr hnode)) hsame
  · exact .onSegment g (Or.inl hnode) hsame
  · exact .onSegment g (Or.inr (Or.inl hnode)) hsame
  · cases todo with
    | nil => exact .added g (Or.inl hnode)
    | cons c rest => exact .onSegment g (Or.inr (Or.inr ⟨_, hnode⟩)) hsame
  · exact .threw what hnode hsame

omit [DecidableEq ι] in
/-- A node that is still on its way has changed nothing. -/
theorem unchanged (h : Opening s₀ i s) (hadded : ∀ g, s.node i ≠ .addKind g ∧ s.node i ≠ .addRef g)
    (hattached : (s.node i).attached? = none)
    (hlost : s.node i ≠ .exited ∧ s.node i ≠ .faulted) : Unchanged s₀ s := by
  cases h with
  | before hpc hsame => exact hsame
  | onSegment g hpc hsame => exact hsame
  | threw what hpc hsame => exact hsame
  | added g hpc =>
      rcases hpc with hpc | hpc | hpc
      · exact absurd hpc (hadded g).1
      · exact absurd hpc (hadded g).2
      · rw [hpc] at hattached
        cases hattached
  | lost hpc =>
      rcases hpc with hpc | hpc
      · exact absurd hpc hlost.1
      · exact absurd hpc hlost.2

omit [DecidableEq ι] in
/-- The node is at none of the points of a creator, and not in its destructor. -/
theorem pc_ne (h : Opening s₀ i s) {g : ℕ} : s.node i ≠ .truncate g ∧ s.node i ≠ .map g true ∧
    (∀ todo, s.node i ≠ .initializeIfNeeded g todo) ∧ s.node i ≠ .subKind g ∧ s.node i ≠ .subRef g ∧
    s.node i ≠ .unlink g := by
  cases h with
  | before hpc _ => rcases hpc with hpc | hpc | hpc <;> simp [hpc]
  | onSegment g' hpc _ => rcases hpc with hpc | hpc | ⟨todo, hpc⟩ <;> simp [hpc]
  | threw what hpc _ => simp [hpc]
  | added g' hpc => rcases hpc with hpc | hpc | hpc <;> simp [hpc]
  | lost hpc => rcases hpc with hpc | hpc <;> simp [hpc]

/-- **Every step keeps what holds of a node that finds the path.** -/
theorem step (h : Opening s₀ i s) (hname : s₀.name ≠ none)
    (hs : (constructor args i).step s a = some s') : Opening s₀ i s' := by
  obtain ⟨ha, hattached, heffect⟩ := step_of_constructor hs
  have hkeep : ∀ {pc : NodePc}, s.node i = pc → (∀ g, pc ≠ .addKind g ∧ pc ≠ .addRef g) →
      pc ≠ .exited ∧ pc ≠ .faulted → Unchanged s₀ s := by
    rintro pc rfl hadded hlost
    exact h.unchanged hadded hattached hlost
  cases a with
  | run j =>
      obtain rfl : j = i := ha
      cases heffect with
      | construct _ hpc =>
          refine goTo (hkeep hpc (by simp) (by simp)) ?_
          rw [NodePc.first]
          cases (args j).kind <;> simp
      | create _ hpc hnone =>
          -- the path exists
          have hsame := hkeep hpc (by simp) (by simp)
          exact absurd (hsame.name.symm.trans hnone) hname
      | pathExists _ g hpc _ => exact goTo (hkeep hpc (by simp) (by simp)) (Or.inr (Or.inl rfl))
      | openExisting _ g hpc _ =>
          exact goTo (hkeep hpc (by simp) (by simp)) (Or.inr (Or.inr (Or.inl ⟨g, Or.inl rfl⟩)))
      | notFound _ hpc _ => exact .lost (Or.inl (State.node_goTo_self _ _ _))
      | truncate _ g hpc => exact absurd hpc h.pc_ne.1
      | map _ g creator hpc =>
          cases creator with
          | true => exact absurd hpc h.pc_ne.2.1
          | false =>
              refine goTo (hkeep hpc (by simp) (by simp)) ?_
              rw [NodePc.afterMap]
              split
              · exact Or.inr (Or.inr (Or.inr (Or.inr ⟨_, rfl⟩)))
              · exact Or.inr (Or.inr (Or.inl ⟨g, Or.inr rfl⟩))
      | store _ g f v rest hpc _ => exact absurd hpc (h.pc_ne.2.2.1 _)
      | ready _ g hpc _ =>
          exact goTo (hkeep hpc (by simp) (by simp)) (Or.inr (Or.inr (Or.inr (Or.inl ⟨g, _, rfl⟩))))
      | notReady _ g hpc => exact h
      | pass _ g c rest hpc _ =>
          exact goTo (hkeep hpc (by simp) (by simp)) (Or.inr (Or.inr (Or.inr (Or.inl ⟨g, _, rfl⟩))))
      | reject _ g c rest hpc _ =>
          exact goTo (hkeep hpc (by simp) (by simp)) (Or.inr (Or.inr (Or.inr (Or.inr ⟨_, rfl⟩))))
      | addKind _ g hpc => exact .added g (Or.inr (Or.inl (State.node_goTo_self _ _ _)))
      | addRef _ g hpc => exact .added g (Or.inr (Or.inr (State.node_goTo_self _ _ _)))
      | destroy _ g hpc =>
          rw [hpc] at hattached
          cases hattached
      | subKind _ g hpc => exact absurd hpc h.pc_ne.2.2.2.1
      | subRef _ g hpc => exact absurd hpc h.pc_ne.2.2.2.2.1
      | unlink _ g hpc => exact absurd hpc h.pc_ne.2.2.2.2.2
      | fault _ g f _ _ => exact .lost (Or.inr (State.node_goTo_self _ _ _))
  | fail j =>
      obtain rfl : j = i := ha
      cases heffect with
      | exit _ _ => exact .lost (Or.inl (State.node_goTo_self _ _ _))
      | mapFails _ g creator hpc =>
          exact goTo (hkeep hpc (by simp) (by simp)) (Or.inr (Or.inr (Or.inr (Or.inr ⟨_, rfl⟩))))

end Opening

/-! ### A node that does not find the path -/

/-- The node has not created the segment yet, or has given the path a segment whose header is blank, or
does not throw any more. -/
inductive Creating (s₀ : State ι) (i : ι) (s : State ι) : Prop
  | before : s.node i = .absent ∨ s.node i = .openExclusive → s.name = none →
      s.created = s₀.created → Creating s₀ i s
  | created : s.node i = .truncate s₀.created ∨ s.node i = .map s₀.created true ∨
      (∃ what, s.node i = .threw what) → s.name = some s₀.created → s₀.created < s.created →
      (s.segment s₀.created).field = (fun _ => 0) → Creating s₀ i s
  | initializing (g : ℕ) (todo : List (Field × ℕ)) : s.node i = .initializeIfNeeded g todo →
      Creating s₀ i s
  | added (g : ℕ) : s.node i = .addKind g ∨ s.node i = .addRef g ∨ s.node i = .attached g →
      Creating s₀ i s
  | lost : s.node i = .exited ∨ s.node i = .faulted → Creating s₀ i s

namespace Creating

omit [DecidableEq ι] in
/-- The node is at none of the points of a node that finds the path, and not in its destructor. -/
theorem pc_ne (h : Creating s₀ i s) {g : ℕ} : s.node i ≠ .openExisting ∧ s.node i ≠ .map g false ∧
    s.node i ≠ .waitReady g ∧ (∀ todo, s.node i ≠ .validate g todo) ∧ s.node i ≠ .subKind g ∧
    s.node i ≠ .subRef g ∧ s.node i ≠ .unlink g := by
  cases h with
  | before hpc _ _ => rcases hpc with hpc | hpc <;> simp [hpc]
  | created hpc _ _ _ => rcases hpc with hpc | hpc | ⟨what, hpc⟩ <;> simp [hpc]
  | initializing g' todo hpc => simp [hpc]
  | added g' hpc => rcases hpc with hpc | hpc | hpc <;> simp [hpc]
  | lost hpc => rcases hpc with hpc | hpc <;> simp [hpc]

omit [DecidableEq ι] in
/-- Before it creates the segment. -/
theorem of_before (h : Creating s₀ i s) (hpc : s.node i = .absent ∨ s.node i = .openExclusive) :
    s.name = none ∧ s.created = s₀.created := by
  cases h with
  | before _ hname hcreated => exact ⟨hname, hcreated⟩
  | created hpc' _ _ _ => rcases hpc' with hpc' | hpc' | ⟨what, hpc'⟩ <;> simp [hpc'] at hpc
  | initializing g' todo hpc' => simp [hpc'] at hpc
  | added g' hpc' => rcases hpc' with hpc' | hpc' | hpc' <;> simp [hpc'] at hpc
  | lost hpc' => rcases hpc' with hpc' | hpc' <;> simp [hpc'] at hpc

omit [DecidableEq ι] in
/-- After it has created the segment, and before it writes to it. -/
theorem of_created (h : Creating s₀ i s) {g : ℕ}
    (hpc : s.node i = .truncate g ∨ s.node i = .map g true) :
    g = s₀.created ∧ s.name = some s₀.created ∧ s₀.created < s.created ∧
      (s.segment s₀.created).field = fun _ => 0 := by
  cases h with
  | before hpc' _ _ => rcases hpc' with hpc' | hpc' <;> simp [hpc'] at hpc
  | created hpc' hname hlt hfield =>
      rcases hpc' with hpc' | hpc' | ⟨what, hpc'⟩
      · exact ⟨by simpa [hpc', eq_comm] using hpc, hname, hlt, hfield⟩
      · exact ⟨by simpa [hpc', eq_comm] using hpc, hname, hlt, hfield⟩
      · simp [hpc'] at hpc
  | initializing g' todo hpc' => simp [hpc'] at hpc
  | added g' hpc' => rcases hpc' with hpc' | hpc' | hpc' <;> simp [hpc'] at hpc
  | lost hpc' => rcases hpc' with hpc' | hpc' <;> simp [hpc'] at hpc

omit [DecidableEq ι] in
/-- A creator that has thrown has left its segment behind. -/
theorem of_threw (h : Creating s₀ i s) {what : String} (hpc : s.node i = .threw what) :
    s.name = some s₀.created ∧ s₀.created < s.created ∧
      (s.segment s₀.created).field = fun _ => 0 := by
  cases h with
  | before hpc' _ _ => rcases hpc' with hpc' | hpc' <;> simp [hpc'] at hpc
  | created _ hname hlt hfield => exact ⟨hname, hlt, hfield⟩
  | initializing g' todo hpc' => simp [hpc'] at hpc
  | added g' hpc' => rcases hpc' with hpc' | hpc' | hpc' <;> simp [hpc'] at hpc
  | lost hpc' => rcases hpc' with hpc' | hpc' <;> simp [hpc'] at hpc

/-- **Every step keeps what holds of a node that does not find the path.** -/
theorem step (h : Creating s₀ i s) (hk : (args i).kind = .producer)
    (hs : (constructor args i).step s a = some s') : Creating s₀ i s' := by
  obtain ⟨ha, hattached, heffect⟩ := step_of_constructor hs
  cases a with
  | run j =>
      obtain rfl : j = i := ha
      cases heffect with
      | construct _ hpc =>
          obtain ⟨hname, hcreated⟩ := h.of_before (Or.inl hpc)
          refine .before (Or.inr ?_) hname hcreated
          rw [State.node_goTo_self, NodePc.first, hk]
      | create _ hpc hnone =>
          obtain ⟨-, hcreated⟩ := h.of_before (Or.inr hpc)
          rw [State.create, hcreated]
          refine .created (Or.inl (Function.update_self _ _ _)) rfl (Nat.lt_succ_self _) ?_
          simp only [Function.update_self]
          rfl
      | pathExists _ g hpc hname =>
          rw [(h.of_before (Or.inr hpc)).1] at hname
          cases hname
      | openExisting _ g hpc _ => exact absurd hpc (h.pc_ne (g := g)).1
      | notFound _ hpc _ => exact .lost (Or.inl (State.node_goTo_self _ _ _))
      | truncate _ g hpc =>
          obtain ⟨rfl, hname, hlt, hfield⟩ := h.of_created (Or.inl hpc)
          refine .created (Or.inr (Or.inl (State.node_goTo_self _ _ _))) hname hlt ?_
          simp only [State.goTo, State.setSegment, Function.update_self]
          exact hfield
      | map _ g creator hpc =>
          cases creator with
          | false => exact absurd hpc h.pc_ne.2.1
          | true =>
              obtain ⟨rfl, hname, hlt, hfield⟩ := h.of_created (Or.inr hpc)
              have hnode := State.node_goTo_self s j (.afterMap (args j) s₀.created true)
              rw [NodePc.afterMap] at hnode ⊢
              cases hsize : getBufferSizeFromShmSize (args j).shmSize with
              | error what =>
                  simp only [hsize] at hnode
                  exact .created (Or.inr (Or.inr ⟨what, hnode⟩)) hname hlt hfield
              | ok bufferSize =>
                  simp only [hsize] at hnode
                  exact .initializing _ _ hnode
      | store _ g f v rest hpc _ =>
          have hnode := State.node_goTo_self (s.setSegment g ((s.segment g).store f v)) j
            (.afterStore g rest)
          by_cases hrest : rest = []
          · rw [NodePc.afterStore, if_pos hrest] at hnode ⊢
            exact .added g (Or.inl hnode)
          · rw [NodePc.afterStore, if_neg hrest] at hnode ⊢
            exact .initializing g rest hnode
      | ready _ g hpc _ => exact absurd hpc h.pc_ne.2.2.1
      | notReady _ g hpc => exact h
      | pass _ g c rest hpc _ => exact absurd hpc (h.pc_ne.2.2.2.1 _)
      | reject _ g c rest hpc _ => exact absurd hpc (h.pc_ne.2.2.2.1 _)
      | addKind _ g hpc => exact .added g (Or.inr (Or.inl (State.node_goTo_self _ _ _)))
      | addRef _ g hpc => exact .added g (Or.inr (Or.inr (State.node_goTo_self _ _ _)))
      | destroy _ g hpc =>
          rw [hpc] at hattached
          cases hattached
      | subKind _ g hpc => exact absurd hpc h.pc_ne.2.2.2.2.1
      | subRef _ g hpc => exact absurd hpc h.pc_ne.2.2.2.2.2.1
      | unlink _ g hpc => exact absurd hpc h.pc_ne.2.2.2.2.2.2
      | fault _ g f _ _ => exact .lost (Or.inr (State.node_goTo_self _ _ _))
  | fail j =>
      obtain rfl : j = i := ha
      cases heffect with
      | exit _ _ => exact .lost (Or.inl (State.node_goTo_self _ _ _))
      | mapFails _ g creator hpc =>
          cases creator with
          | false => exact absurd hpc h.pc_ne.2.1
          | true =>
              obtain ⟨-, hname, hlt, hfield⟩ := h.of_created (Or.inr hpc)
              exact .created (Or.inr (Or.inr ⟨_, State.node_goTo_self _ _ _⟩)) hname hlt hfield

end Creating

/-! ### The result -/

/-- A constructor that does not find the path, and whose `mmap` fails, throws. -/
theorem exists_threw (hi : s₀.node i = .absent) (hk : (args i).kind = .producer)
    (hname : s₀.name = none) :
    ∃ s what, (constructor args i).Steps s₀ s ∧ s.node i = .threw what := by
  have hmove : ∀ {s s' : State ι} {a : Action ι}, a.node = i → (s.node i).attached? = none →
      step args s a = some s' → (constructor args i).Steps s s' :=
    fun ha hnot hstep => .single (Automaton.restrict_step_eq_some.2 ⟨⟨ha, hnot⟩, hstep⟩)
  obtain ⟨t₁, ht₁⟩ : ∃ t, t = s₀.goTo i .openExclusive := ⟨_, rfl⟩
  have hnode₁ : t₁.node i = .openExclusive := by rw [ht₁, State.node_goTo_self]
  have hname₁ : t₁.name = none := by rw [ht₁]; exact hname
  obtain ⟨t₂, ht₂⟩ : ∃ t, t = t₁.create i := ⟨_, rfl⟩
  have hnode₂ : t₂.node i = .truncate t₁.created := by rw [ht₂]; exact Function.update_self _ _ _
  obtain ⟨t₃, ht₃⟩ : ∃ t, t = (t₂.setSegment t₁.created
      { t₂.segment t₁.created with size := (args i).shmSize }).goTo i (.map t₁.created true) :=
    ⟨_, rfl⟩
  have hnode₃ : t₃.node i = .map t₁.created true := by rw [ht₃, State.node_goTo_self]
  have h₁ : (constructor args i).Steps s₀ t₁ := by
    refine hmove (a := .run i) rfl (by rw [hi]; rfl) ?_
    simp only [step, State.run, hi, NodePc.first, hk, ht₁]
  have h₂ : (constructor args i).Steps t₁ t₂ := by
    refine hmove (a := .run i) rfl (by rw [hnode₁]; rfl) ?_
    simp only [step, State.run, hnode₁, hname₁, ht₂]
  have h₃ : (constructor args i).Steps t₂ t₃ := by
    refine hmove (a := .run i) rfl (by rw [hnode₂]; rfl) ?_
    simp only [step, State.run, hnode₂, ht₃]
  have h₄ : (constructor args i).Steps t₃ (t₃.goTo i (.threw "mmap failed")) := by
    refine hmove (a := .fail i) rfl (by rw [hnode₃]; rfl) ?_
    simp only [step, State.fail, hnode₃]
  exact ⟨_, _, ((h₁.trans h₂).trans h₃).trans h₄, State.node_goTo_self _ _ _⟩

/-- What holds of a node in each state of its constructor. -/
theorem opening_of_steps (hi : s₀.node i = .absent) (hname : s₀.name ≠ none)
    (h : (constructor args i).Steps s₀ s) : Opening s₀ i s := by
  induction h with
  | refl => exact .before (Or.inl hi) ⟨rfl, rfl⟩
  | tail a _ hs ih => exact ih.step hname hs

theorem creating_of_steps (hi : s₀.node i = .absent) (hk : (args i).kind = .producer)
    (hname : s₀.name = none) (h : (constructor args i).Steps s₀ s) : Creating s₀ i s := by
  induction h with
  | refl => exact .before (Or.inl hi) hname rfl
  | tail a _ hs ih => exact ih.step hk hs

/-- **A producer whose constructor throws leaves everything as it was iff the path has named a segment
before**, whatever that segment is, and whatever size the constructor has been given. -/
theorem leavesNamespace_iff (hi : s₀.node i = .absent) (hk : (args i).kind = .producer) :
    LeavesNamespace args i s₀ ↔ s₀.name ≠ none := by
  constructor
  · intro hleaves hname
    obtain ⟨s, what, hsteps, hthrew⟩ := exists_threw hi hk hname
    have hsame := hleaves s what hsteps hthrew
    have hleft := ((creating_of_steps hi hk hname hsteps).of_threw hthrew).1
    rw [hsame.name, hname] at hleft
    cases hleft
  · intro hname s what hsteps hthrew
    have hnode : ∀ g, s.node i ≠ .addKind g ∧ s.node i ≠ .addRef g := by simp [hthrew]
    exact (opening_of_steps hi hname hsteps).unchanged hnode (by rw [hthrew]; rfl) (by simp [hthrew])

/-- The path names a segment that is ready, of 4096 bytes. -/
def readyState : State Kind :=
  { State.initial with
    name := some 0
    created := 1
    segment := fun _ => { size := 4096, field := written (stores 4096), registrations := 0 } }

/-- The constructor of a producer that asks for another size than the segment has. -/
theorem leavesNamespace_of_other_size :
    LeavesNamespace (fun kind : Kind => ⟨kind, 8192⟩) .producer readyState :=
  (leavesNamespace_iff rfl rfl).2 (by simp [readyState])

/-- A producer that does not find the path, and asks for 16 bytes. -/
theorem not_leavesNamespace_of_small :
    ¬LeavesNamespace (fun kind : Kind => ⟨kind, 16⟩) .producer State.initial := by
  intro hleaves
  obtain ⟨s, hs⟩ : ∃ s, (constructor (fun kind : Kind => ⟨kind, 16⟩) .producer).run State.initial
      [.run .producer, .run .producer, .run .producer, .run .producer] = some s := ⟨_, rfl⟩
  have hsame := hleaves s "Shared memory size is too small" (Automaton.Steps.of_run hs) (by
    obtain rfl := Option.some_inj.1 hs
    rfl)
  have hname : s.name = some 0 := by
    obtain rfl := Option.some_inj.1 hs
    rfl
  rw [hsame.name] at hname
  cases hname

/-! ### What is left behind -/

/-- A segment that is not ready, and that nobody creates or uses. -/
structure Abandoned (s : State ι) (g : ℕ) : Prop where
  lt : g < s.created
  notReady : (s.segment g).field .initState ≠ InitState.ready.code
  creates : ∀ j, (s.node j).creates? ≠ some g
  passed : ∀ j, (s.node j).passed? ≠ some g

namespace Abandoned

variable {g : ℕ}

/-- A node moves. -/
theorem goTo (h : Abandoned s g) {j : ι} {pc : NodePc} (hcreates : pc.creates? ≠ some g)
    (hpassed : pc.passed? ≠ some g) : Abandoned (s.goTo j pc) g := by
  refine ⟨h.lt, h.notReady, ?_, ?_⟩
  · intro k
    rcases eq_or_ne k j with rfl | hne
    · rwa [State.node_goTo_self]
    · rw [State.node_goTo_of_ne pc hne]
      exact h.creates k
  · intro k
    rcases eq_or_ne k j with rfl | hne
    · rwa [State.node_goTo_self]
    · rw [State.node_goTo_of_ne pc hne]
      exact h.passed k

omit [DecidableEq ι] in
/-- Another segment changes. -/
theorem setSegment (h : Abandoned s g) {g' : ℕ} (hne : g ≠ g') (seg : Segment) :
    Abandoned (s.setSegment g' seg) g := by
  have hsame : (s.setSegment g' seg).segment g = s.segment g := Function.update_of_ne hne _ _
  refine ⟨h.lt, ?_, h.creates, h.passed⟩
  rw [hsame]
  exact h.notReady

/-- A node goes on that creates or uses a segment, which is another one. -/
theorem goOn (h : Abandoned s g) {j : ι} {g' : ℕ} {pc : NodePc} (hne : g ≠ g')
    (hpc : ∀ g'', pc.segment? = some g'' → g'' = g') : Abandoned (s.goTo j pc) g := by
  refine h.goTo ?_ ?_
  · intro hcreates
    exact hne (hpc g (NodePc.segment_of_creates hcreates))
  · intro hpassed
    exact hne (hpc g (NodePc.segment_of_passed hpassed))

/-- A node creates another segment. -/
theorem create (h : Abandoned s g) (j : ι) : Abandoned (s.create j) g := by
  have hne : g ≠ s.created := h.lt.ne
  have hnode : ∀ k, (s.create j).node k = s.node k ∨
      (s.create j).node k = .truncate s.created := by
    intro k
    rcases eq_or_ne k j with rfl | hkj
    · exact Or.inr (Function.update_self ..)
    · exact Or.inl (Function.update_of_ne hkj ..)
  refine ⟨h.lt.trans (Nat.lt_succ_self _), ?_, ?_, ?_⟩
  · rw [show (s.create j).segment g = s.segment g from Function.update_of_ne hne _ _]
    exact h.notReady
  · intro k
    rcases hnode k with hk | hk <;> rw [hk]
    · exact h.creates k
    · simp [NodePc.creates?, hne.symm]
  · intro k
    rcases hnode k with hk | hk <;> rw [hk]
    · exact h.passed k
    · simp [NodePc.passed?]

/-- **Every step of every node keeps an abandoned segment as it is.** -/
theorem step (h : Abandoned s g) (heffect : Effect args s a s') : Abandoned s' g := by
  have hcreates : ∀ j g', (s.node j).creates? = some g' → g ≠ g' := by
    rintro j g' hj rfl
    exact h.creates j hj
  have hpassed : ∀ j g', (s.node j).passed? = some g' → g ≠ g' := by
    rintro j g' hj rfl
    exact h.passed j hj
  cases heffect with
  | construct j hpc =>
      refine h.goTo ?_ ?_ <;>
        cases hk : (args j).kind <;> simp [NodePc.first, hk, NodePc.creates?, NodePc.passed?]
  | create j hpc hnone => exact h.create j
  | pathExists j g' hpc _ => exact h.goTo (by simp [NodePc.creates?]) (by simp [NodePc.passed?])
  | openExisting j g' hpc _ => exact h.goTo (by simp [NodePc.creates?]) (by simp [NodePc.passed?])
  | notFound j hpc _ => exact h.goTo (by simp [NodePc.creates?]) (by simp [NodePc.passed?])
  | truncate j g' hpc =>
      have hne := hcreates j g' (by rw [hpc]; rfl)
      exact (h.setSegment hne _).goOn hne (by simp [NodePc.segment?])
  | map j g' creator hpc =>
      rw [NodePc.afterMap]
      split
      · exact h.goTo (by simp [NodePc.creates?]) (by simp [NodePc.passed?])
      · cases creator with
        | true =>
            have hne := hcreates j g' (by rw [hpc]; rfl)
            exact h.goOn hne (by simp [NodePc.segment?])
        | false => exact h.goTo (by simp [NodePc.creates?]) (by simp [NodePc.passed?])
  | store j g' f v rest hpc _ =>
      have hne := hcreates j g' (by rw [hpc]; rfl)
      refine (h.setSegment hne _).goOn hne ?_
      rw [NodePc.afterStore]
      split_ifs <;> simp [NodePc.segment?]
  | ready j g' hpc hready =>
      -- whoever finds `Ready` is on another segment
      have hne : g ≠ g' := by
        rintro rfl
        exact h.notReady hready
      refine h.goOn hne ?_
      cases hchecks : checks (args j) <;> simp [NodePc.afterCheck, NodePc.segment?]
  | notReady j g' hpc => exact h
  | pass j g' c rest hpc _ =>
      have hne := hpassed j g' (by rw [hpc]; rfl)
      refine h.goOn hne ?_
      cases rest <;> simp [NodePc.afterCheck, NodePc.segment?]
  | reject j g' c rest hpc _ => exact h.goTo (by simp [NodePc.creates?]) (by simp [NodePc.passed?])
  | addKind j g' hpc =>
      have hne := hpassed j g' (by rw [hpc]; rfl)
      exact (h.setSegment hne _).goOn hne (by simp [NodePc.segment?])
  | addRef j g' hpc =>
      have hne := hpassed j g' (by rw [hpc]; rfl)
      exact (h.setSegment hne _).goOn hne (by simp [NodePc.segment?])
  | destroy j g' hpc =>
      have hne := hpassed j g' (by rw [hpc]; rfl)
      exact h.goOn hne (by simp [NodePc.segment?])
  | subKind j g' hpc =>
      have hne := hpassed j g' (by rw [hpc]; rfl)
      exact (h.setSegment hne _).goOn hne (by simp [NodePc.segment?])
  | subRef j g' hpc =>
      have hne := hpassed j g' (by rw [hpc]; rfl)
      refine (h.setSegment hne _).goOn hne ?_
      split_ifs <;> simp [NodePc.segment?]
  | unlink j g' hpc =>
      have hgo : Abandoned (s.goTo j .absent) g :=
        h.goTo (by simp [NodePc.creates?]) (by simp [NodePc.passed?])
      exact ⟨hgo.lt, hgo.notReady, hgo.creates, hgo.passed⟩
  | fault j g' f _ _ => exact h.goTo (by simp [NodePc.creates?]) (by simp [NodePc.passed?])
  | exit j _ => exact h.goTo (by simp [NodePc.creates?]) (by simp [NodePc.passed?])
  | mapFails j g' creator hpc => exact h.goTo (by simp [NodePc.creates?]) (by simp [NodePc.passed?])

/-- It stays as it is. -/
theorem steps (h : Abandoned s g) (hs : (system args).Steps s s') : Abandoned s' g := by
  induction hs with
  | refl => exact h
  | tail a _ hstep ih => exact ih.step (effect_of_step hstep)

end Abandoned

/-- **A producer that has not found the path, and has thrown, leaves a segment under the name that
nobody ever gets past.** -/
theorem abandoned_of_threw (hr : (system args).Reachable s₀) (hi : s₀.node i = .absent)
    (hk : (args i).kind = .producer) (hname : s₀.name = none)
    (hsteps : (constructor args i).Steps s₀ s) {what : String} (hthrew : s.node i = .threw what)
    (hlater : (system args).Steps s s') :
    s.name = some s₀.created ∧ ∀ j, (s'.node j).passed? ≠ some s₀.created := by
  obtain ⟨hleft, hlt, hfield⟩ := (creating_of_steps hi hk hname hsteps).of_threw hthrew
  have hsound := sound_of_reachable hr
  -- the other nodes are where they were, on segments that are older
  have hothers : ∀ j, j ≠ i → s.node j = s₀.node j := by
    clear hthrew hlater hleft hlt hfield
    induction hsteps with
    | refl => exact fun _ _ => rfl
    | tail a _ hstep ih =>
        obtain ⟨ha, -, heffect⟩ := step_of_constructor hstep
        intro j hj
        rw [node_of_effect heffect (by rintro rfl; exact hj ha) (by rintro rfl; exact hj ha)]
        exact ih j hj
  have hsegment : ∀ j, (s.node j).segment? ≠ some s₀.created := by
    intro j hj
    rcases eq_or_ne j i with rfl | hne
    · rw [hthrew] at hj
      cases hj
    · rw [hothers j hne] at hj
      exact lt_irrefl _ (hsound.segment_lt j _ hj)
  have habandoned : Abandoned s s₀.created :=
    ⟨hlt, by rw [hfield]; decide, fun j hj => hsegment j (NodePc.segment_of_creates hj),
      fun j hj => hsegment j (NodePc.segment_of_passed hj)⟩
  exact ⟨hleft, (habandoned.steps hlater).passed⟩

end Constructor

end SharedMemory
