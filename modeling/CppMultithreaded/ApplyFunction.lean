/-
**The parallel `ApplyFunction` of hw-2 equals the sequential loop.**

`ApplyFunction` cuts a vector into chunks, one for each thread, and joins the threads after every one
of them has transformed the elements of its chunk in place.  The main thread, which spawns and joins,
and the threads that have been spawned take their steps in any order; transforming one element is one
step.

The chunks tile the vector, so that the threads never meet at an element, and the order of their steps
does not matter: at any time, the vector is the original one with exactly the elements transformed
that the threads have passed.

Main definitions:

* `ApplyFunction.actualThreadCount`, `ApplyFunction.chunkLoop`, `ApplyFunction.chunks` — the number
  of threads, and the chunks that the loop computes;
* `ApplyFunction.State`, `ApplyFunction.step`, `ApplyFunction.system` — the threads, as an automaton;
* `ApplyFunction.sequential` — the loop of a single thread;
* `ApplyFunction.Invariant` — what holds at each program point of the main thread.

Main results:

* `ApplyFunction.chunked_chunks` — **the chunks tile the vector, and differ in length by at most
  one**;
* `ApplyFunction.Invariant.step` — every step keeps the invariant;
* `ApplyFunction.parallel_eq_sequential` — **every interleaving ends with the vector of the sequential
  loop, each element having been transformed exactly once**.
-/

import CppMultithreaded.Automaton
import CppMultithreaded.Tiling
import Mathlib.Algebra.BigOperators.Group.List.Basic
import Mathlib.Algebra.Ring.Nat
import Mathlib.Data.Int.Notation
import Mathlib.Data.List.Nodup
import Mathlib.Data.List.Perm.Basic
import Mathlib.Data.List.Range

set_option relaxedAutoImplicit false
set_option autoImplicit false

namespace ApplyFunction

open Tiling (Tiles)

variable {α : Type*}

/-! ### Chunks -/

/-- The number of threads. -/
def actualThreadCount (threadCount : ℤ) (size : ℕ) : ℕ :=
  let checkThreadCount := if threadCount ≤ 0 then 1 else threadCount.toNat
  if checkThreadCount > size then size else checkThreadCount

/-- The elements `[start, stop)` of the vector. -/
structure Chunk where
  start : ℕ
  stop : ℕ
  deriving DecidableEq

/-- The number of elements of a chunk. -/
def Chunk.length (c : Chunk) : ℕ := c.stop - c.start

/-- The chunk of the thread number `i`, which starts at `start`. -/
def nextChunk (initialChunkSize remainItem i start : ℕ) : Chunk :=
  let chunkSize := initialChunkSize + if i < remainItem then 1 else 0
  ⟨start, start + chunkSize⟩

/-- The chunks of the `k` threads from number `i` on, which start at `start`. -/
def chunkLoop (initialChunkSize remainItem : ℕ) : ℕ → ℕ → ℕ → List Chunk
  | 0, _, _ => []
  | k + 1, i, start =>
      let c := nextChunk initialChunkSize remainItem i start
      c :: chunkLoop initialChunkSize remainItem k (i + 1) c.stop

/-- The chunks that the loop computes. -/
def chunks (size count : ℕ) : List Chunk := chunkLoop (size / count) (size % count) count 0 0

/-- What is right about chunks: they tile the vector, and differ in length by at most one. -/
structure Chunked (size count : ℕ) (cs : List Chunk) : Prop where
  count : cs.length = count
  /-- They are non-empty and contiguous, and cover `[0, size)`. -/
  tiles : Tiles Chunk.start Chunk.stop 0 cs size
  /-- They are pairwise disjoint. -/
  disjoint : cs.Pairwise fun c d => c.stop ≤ d.start
  balanced : ∀ c ∈ cs, ∀ d ∈ cs, c.length ≤ d.length + 1

section

variable {size count q r k i : ℕ}

theorem length_chunkLoop (start : ℕ) : (chunkLoop q r k i start).length = k := by
  induction k generalizing i start with
  | zero => rfl
  | succ k ih => rw [chunkLoop, List.length_cons, ih]

/-- The thread number `i` starts after `i` chunks, of which the first `r` are longer by one. -/
theorem tiles_chunkLoop (hq : 0 < q) :
    Tiles Chunk.start Chunk.stop (i * q + min i r) (chunkLoop q r k i (i * q + min i r))
      ((i + k) * q + min (i + k) r) := by
  induction k generalizing i with
  | zero => rfl
  | succ k ih =>
      have hstop : (nextChunk q r i (i * q + min i r)).stop = (i + 1) * q + min (i + 1) r := by
        simp only [nextChunk, Nat.succ_mul]
        split_ifs <;> omega
      have htail := ih (i := i + 1)
      rw [← hstop, Nat.add_right_comm] at htail
      refine ⟨rfl, ?_, htail⟩
      simp only [nextChunk]
      omega

/-- Every chunk has `q` or `q + 1` elements. -/
theorem length_of_mem_chunkLoop {start : ℕ} {c : Chunk} (hc : c ∈ chunkLoop q r k i start) :
    q ≤ c.length ∧ c.length ≤ q + 1 := by
  induction k generalizing i start with
  | zero => exact absurd hc List.not_mem_nil
  | succ k ih =>
      rcases List.mem_cons.1 hc with rfl | hc
      · simp only [nextChunk, Chunk.length]
        split_ifs <;> omega
      · exact ih hc

/-- **The chunks tile the vector, and differ in length by at most one.** -/
theorem chunked_chunks (hpos : 0 < count) (hle : count ≤ size) :
    Chunked size count (chunks size count) := by
  have htiles := tiles_chunkLoop (r := size % count) (k := count) (i := 0)
    (Nat.div_pos hle hpos)
  have hend : count * (size / count) + min count (size % count) = size := by
    rw [Nat.min_eq_right (Nat.mod_lt size hpos).le]
    exact Nat.div_add_mod size count
  simp only [Nat.zero_mul, Nat.zero_min, Nat.zero_add, hend] at htiles
  refine ⟨length_chunkLoop 0, htiles, htiles.pairwise, ?_⟩
  intro c hc d hd
  have hcl := length_of_mem_chunkLoop hc
  have hdl := length_of_mem_chunkLoop hd
  omega

theorem actualThreadCount_pos (threadCount : ℤ) (hsize : 0 < size) :
    0 < actualThreadCount threadCount size := by
  simp only [actualThreadCount]
  split_ifs <;> omega

theorem actualThreadCount_le (threadCount : ℤ) : actualThreadCount threadCount size ≤ size := by
  simp only [actualThreadCount]
  split_ifs <;> omega

/-- The chunks for the number of threads that is used. -/
theorem chunked_actual (threadCount : ℤ) (size : ℕ) :
    Chunked size (actualThreadCount threadCount size)
      (chunks size (actualThreadCount threadCount size)) := by
  rcases Nat.eq_zero_or_pos size with rfl | hpos
  · -- an empty vector has no chunks
    rw [Nat.le_zero.1 (actualThreadCount_le threadCount)]
    exact ⟨rfl, rfl, List.Pairwise.nil, fun c hc => absurd hc List.not_mem_nil⟩
  · exact chunked_chunks (actualThreadCount_pos threadCount hpos) (actualThreadCount_le threadCount)

end

/-! ### The threads -/

/-- The program points of the main thread. -/
inductive MainPc
  /-- In the loop of a single thread, about to transform the element number `j`. -/
  | looping (j : ℕ)
  /-- About to spawn the thread number `i`, whose chunk starts at `start`. -/
  | spawning (i start : ℕ)
  /-- About to join the thread number `k`. -/
  | joining (k : ℕ)
  | returned
  deriving DecidableEq

/-- A thread that has been spawned for a chunk, and is about to transform the element `next`. -/
structure Thread where
  chunk : Chunk
  next : ℕ
  deriving DecidableEq

/-- The vector, the threads, and the history: the elements that have been transformed, in order. -/
structure State (α : Type*) where
  data : List α
  main : MainPc
  threads : List Thread
  applied : List ℕ

/-- A step of the main thread, or of the thread number `k`. -/
inductive Action
  | main
  | worker (k : ℕ)

section

variable (transform : α → α)

/-- The element number `j` is transformed. -/
def State.apply (s : State α) (j : ℕ) : State α :=
  { s with data := s.data.modify j transform, applied := s.applied ++ [j] }

/-- The next step of the main thread, for a vector of `size` elements and `count` threads. -/
def mainStep (size count : ℕ) (s : State α) : Option (State α) :=
  match s.main with
  | .looping j =>
      if j < size then some { s.apply transform j with main := .looping (j + 1) }
      else some { s with main := .returned }
  | .spawning i start =>
      if i < count then
        let c := nextChunk (size / count) (size % count) i start
        some { s with main := .spawning (i + 1) c.stop, threads := s.threads ++ [⟨c, c.start⟩] }
      else some { s with main := .joining 0 }
  | .joining k =>
      match s.threads[k]? with
      | some t => if t.chunk.stop ≤ t.next then some { s with main := .joining (k + 1) } else none
      | none => some { s with main := .returned }
  | .returned => none

/-- The next step of the thread number `k`. -/
def workerStep (s : State α) (k : ℕ) : Option (State α) :=
  match s.threads[k]? with
  | some t =>
      if t.next < t.chunk.stop then
        some { s.apply transform t.next with
          threads := s.threads.set k { t with next := t.next + 1 } }
      else none
  | none => none

/-- The step function. -/
def step (size count : ℕ) (s : State α) : Action → Option (State α)
  | .main => mainStep transform size count s
  | .worker k => workerStep transform s k

/-- Where the main thread begins, after it has computed the number of threads. -/
def MainPc.initial (size count : ℕ) : MainPc :=
  if size = 0 then .returned else if count = 1 then .looping 0 else .spawning 0 0

/-- A call of `ApplyFunction`. -/
def system (data : List α) (threadCount : ℤ) : Automaton (State α) Action :=
  let size := data.length
  let count := actualThreadCount threadCount size
  { init := fun s => s = ⟨data, .initial size count, [], []⟩
    step := step transform size count }

/-- The loop of a single thread. -/
def sequential (data : List α) : List α :=
  (List.range data.length).foldl (fun data j => data.modify j transform) data

end

/-! ### Elements that have been transformed -/

/-- The vector `data` is `original` with the elements of `applied` transformed. -/
structure Transformed (transform : α → α) (original : List α) (applied : List ℕ) (data : List α) :
    Prop where
  nodup : applied.Nodup
  getElem : ∀ j, data[j]? = if j ∈ applied then original[j]?.map transform else original[j]?

namespace Transformed

variable {transform : α → α} {original data : List α} {applied : List ℕ} {j : ℕ}

theorem initial : Transformed transform original [] original := ⟨List.nodup_nil, by simp⟩

/-- An element that has not been transformed may be. -/
theorem modify (h : Transformed transform original applied data) (hj : j ∉ applied) :
    Transformed transform original (applied ++ [j]) (data.modify j transform) := by
  refine ⟨h.nodup.append (List.nodup_singleton j) (List.disjoint_singleton.2 hj), ?_⟩
  intro i
  rw [List.getElem?_modify, h.getElem i]
  by_cases hij : j = i
  · subst hij
    simp [hj]
  · simp [hij, Ne.symm hij]

/-- The order of the transformations does not matter. -/
theorem eq_map (h : Transformed transform original applied data)
    (hall : ∀ j < original.length, j ∈ applied) : data = original.map transform := by
  refine List.ext_getElem? fun j => ?_
  rw [h.getElem, List.getElem?_map]
  by_cases hj : j < original.length
  · rw [if_pos (hall j hj)]
  · rw [List.getElem?_eq_none (by omega)]
    simp

end Transformed

theorem sequential_eq_map (transform : α → α) (data : List α) :
    sequential transform data = data.map transform := by
  have hloop : ∀ k, Transformed transform data (List.range k)
      ((List.range k).foldl (fun data j => data.modify j transform) data) := by
    intro k
    induction k with
    | zero => exact Transformed.initial
    | succ k ih =>
        rw [List.range_succ, List.foldl_append, List.foldl_cons, List.foldl_nil]
        exact ih.modify (by simp)
  exact (hloop data.length).eq_map fun j hj => List.mem_range.2 hj

/-! ### What a step can do -/

/-- The effects of a step, one constructor for each. -/
inductive Effect (transform : α → α) (size count : ℕ) (s : State α) : Action → State α → Prop
  | loop (j : ℕ) : s.main = .looping j → j < size →
      Effect transform size count s .main { s.apply transform j with main := .looping (j + 1) }
  | loopEnd (j : ℕ) : s.main = .looping j → size ≤ j →
      Effect transform size count s .main { s with main := .returned }
  | spawn (i start : ℕ) (c : Chunk) : s.main = .spawning i start → i < count →
      nextChunk (size / count) (size % count) i start = c →
      Effect transform size count s .main
        { s with main := .spawning (i + 1) c.stop, threads := s.threads ++ [⟨c, c.start⟩] }
  | spawned (i start : ℕ) : s.main = .spawning i start → count ≤ i →
      Effect transform size count s .main { s with main := .joining 0 }
  | join (k : ℕ) (t : Thread) : s.main = .joining k → s.threads[k]? = some t →
      t.chunk.stop ≤ t.next →
      Effect transform size count s .main { s with main := .joining (k + 1) }
  | joined (k : ℕ) : s.main = .joining k → s.threads.length ≤ k →
      Effect transform size count s .main { s with main := .returned }
  | work (k : ℕ) (t : Thread) : s.threads[k]? = some t → t.next < t.chunk.stop →
      Effect transform size count s (.worker k)
        { s.apply transform t.next with threads := s.threads.set k { t with next := t.next + 1 } }

/-- **Inversion of the step function.** -/
theorem effect_of_step {transform : α → α} {size count : ℕ} {s s' : State α} {a : Action}
    (h : step transform size count s a = some s') : Effect transform size count s a s' := by
  cases a with
  | main =>
      simp only [step, mainStep] at h
      cases hm : s.main with
      | looping j =>
          rw [hm] at h
          simp only at h
          split_ifs at h with hj
          · rw [← Option.some.inj h]
            exact Effect.loop j hm hj
          · rw [← Option.some.inj h]
            exact Effect.loopEnd j hm (not_lt.1 hj)
      | spawning i start =>
          rw [hm] at h
          simp only at h
          split_ifs at h with hi
          · rw [← Option.some.inj h]
            exact Effect.spawn i start _ hm hi rfl
          · rw [← Option.some.inj h]
            exact Effect.spawned i start hm (not_lt.1 hi)
      | joining k =>
          rw [hm] at h
          simp only at h
          cases ht : s.threads[k]? with
          | none =>
              rw [ht] at h
              rw [← Option.some.inj h]
              exact Effect.joined k hm (List.getElem?_eq_none_iff.1 ht)
          | some t =>
              rw [ht] at h
              simp only at h
              split_ifs at h with hdone
              rw [← Option.some.inj h]
              exact Effect.join k t hm ht hdone
      | returned =>
          rw [hm] at h
          simp at h
  | worker k =>
      simp only [step, workerStep] at h
      cases ht : s.threads[k]? with
      | none => simp [ht] at h
      | some t =>
          rw [ht] at h
          simp only at h
          split_ifs at h with hlt
          rw [← Option.some.inj h]
          exact Effect.work k t ht hlt

/-! ### The invariant -/

/-- The threads have been given the first chunks, and `rest` are the chunks that are left.  What has
been transformed is what the threads have passed. -/
structure Threaded (size count : ℕ) (rest : List Chunk) (threads : List Thread)
    (applied : List ℕ) : Prop where
  chunks : threads.map Thread.chunk ++ rest = chunks size count
  bounds : ∀ (k : ℕ) (t : Thread), threads[k]? = some t → t.chunk.start ≤ t.next ∧ t.next ≤ t.chunk.stop
  applied : ∀ j, j ∈ applied ↔
    ∃ (k : ℕ) (t : Thread), threads[k]? = some t ∧ t.chunk.start ≤ j ∧ j < t.next

namespace Threaded

variable {size count j k : ℕ} {rest : List Chunk} {threads : List Thread} {applied : List ℕ}
  {c : Chunk} {t : Thread}

/-- The next thread is spawned. -/
theorem spawn (h : Threaded size count (c :: rest) threads applied) (hc : c.start ≤ c.stop) :
    Threaded size count rest (threads ++ [⟨c, c.start⟩]) applied := by
  have hget : ∀ (k : ℕ) (t : Thread), (threads ++ [(⟨c, c.start⟩ : Thread)])[k]? = some t →
      threads[k]? = some t ∨ t = ⟨c, c.start⟩ := by
    intro k t hk
    rcases Nat.lt_or_ge k threads.length with hlt | hge
    · rw [List.getElem?_append_left hlt] at hk
      exact Or.inl hk
    · rw [List.getElem?_append_right hge] at hk
      exact Or.inr (List.mem_singleton.1 (List.mem_of_getElem? hk))
  refine ⟨?_, ?_, ?_⟩
  · rw [List.map_append, List.append_assoc]
    exact h.chunks
  · intro k t hk
    rcases hget k t hk with hk | rfl
    · exact h.bounds k t hk
    · exact ⟨le_rfl, hc⟩
  · intro j
    rw [h.applied]
    constructor
    · rintro ⟨k, t, hk, hj⟩
      have hlt := (List.getElem?_eq_some_iff.1 hk).1
      exact ⟨k, t, by rw [List.getElem?_append_left hlt, hk], hj⟩
    · rintro ⟨k, t, hk, hj⟩
      rcases hget k t hk with hk | rfl
      · exact ⟨k, t, hk, hj⟩
      · exact absurd (lt_of_le_of_lt hj.1 hj.2) (lt_irrefl c.start)

/-- The chunks of two threads do not overlap. -/
theorem disjoint (h : Threaded size count rest threads applied)
    (hc : Chunked size count (ApplyFunction.chunks size count)) {k k' : ℕ} {t t' : Thread}
    (hk : threads[k]? = some t) (hk' : threads[k']? = some t') (hlt : k < k') :
    t.chunk.stop ≤ t'.chunk.start := by
  have hpair := hc.disjoint
  rw [← h.chunks] at hpair
  obtain ⟨hklt, rfl⟩ := List.getElem?_eq_some_iff.1 hk
  obtain ⟨hklt', rfl⟩ := List.getElem?_eq_some_iff.1 hk'
  have hthreads := (List.pairwise_append.1 hpair).1
  have hle := List.pairwise_iff_getElem.1 hthreads k k' (by simpa using hklt)
    (by simpa using hklt') hlt
  simpa using hle

/-- The element at which a thread is has not been transformed. -/
theorem notMem (h : Threaded size count rest threads applied)
    (hc : Chunked size count (ApplyFunction.chunks size count)) (hk : threads[k]? = some t)
    (hlt : t.next < t.chunk.stop) : t.next ∉ applied := by
  intro hmem
  obtain ⟨k', t', hk', hstart, hnext⟩ := (h.applied _).1 hmem
  have hb := h.bounds k t hk
  have hb' := h.bounds k' t' hk'
  rcases Nat.lt_trichotomy k k' with hlt' | rfl | hgt
  · have := h.disjoint hc hk hk' hlt'
    omega
  · rw [hk] at hk'
    rw [Option.some.inj hk'] at hnext
    omega
  · have := h.disjoint hc hk' hk hgt
    omega

/-- A thread transforms the element at which it is. -/
theorem work (h : Threaded size count rest threads applied) (hk : threads[k]? = some t)
    (hlt : t.next < t.chunk.stop) :
    Threaded size count rest (threads.set k { t with next := t.next + 1 })
      (applied ++ [t.next]) := by
  have hklt := (List.getElem?_eq_some_iff.1 hk).1
  have hself : (threads.set k { t with next := t.next + 1 })[k]? =
      some { t with next := t.next + 1 } := by
    rw [List.getElem?_set_self hklt]
  have hother : ∀ i, i ≠ k → (threads.set k { t with next := t.next + 1 })[i]? = threads[i]? :=
    fun i hik => List.getElem?_set_ne (Ne.symm hik)
  have hb := h.bounds k t hk
  refine ⟨?_, ?_, ?_⟩
  · -- the thread keeps its chunk
    rw [List.map_set, ← h.chunks]
    congr 1
    refine List.ext_getElem? fun i => ?_
    by_cases hik : i = k
    · subst hik
      rw [List.getElem?_set_self (by simpa using hklt), List.getElem?_map, hk]
      rfl
    · rw [List.getElem?_set_ne (Ne.symm hik)]
  · intro i t' hi
    by_cases hik : i = k
    · subst hik
      rw [hself] at hi
      rw [← Option.some.inj hi]
      exact ⟨by simp only; omega, by simp only; omega⟩
    · rw [hother i hik] at hi
      exact h.bounds i t' hi
  · -- what the thread has passed now is what it had passed, and the element at which it was
    intro j
    rw [List.mem_append, List.mem_singleton, h.applied]
    constructor
    · rintro (⟨i, t', hi, hj⟩ | rfl)
      · by_cases hik : i = k
        · subst hik
          rw [hk] at hi
          rw [← Option.some.inj hi] at hj
          exact ⟨i, _, hself, hj.1, by simp only; omega⟩
        · exact ⟨i, t', by rw [hother i hik, hi], hj⟩
      · exact ⟨k, _, hself, hb.1, by simp only; omega⟩
    · rintro ⟨i, t', hi, hj⟩
      by_cases hik : i = k
      · subst hik
        rw [hself] at hi
        rw [← Option.some.inj hi] at hj
        by_cases heq : j = t.next
        · exact Or.inr heq
        · exact Or.inl ⟨i, t, hk, hj.1, by simp only at hj; omega⟩
      · rw [hother i hik] at hi
        exact Or.inl ⟨i, t', hi, hj⟩

/-- Once all threads have been spawned and have finished, all elements have been transformed. -/
theorem mem_of_finished (h : Threaded size count [] threads applied)
    (hc : Chunked size count (ApplyFunction.chunks size count))
    (hdone : ∀ (k : ℕ) (t : Thread), threads[k]? = some t → t.chunk.stop ≤ t.next) :
    j ∈ applied ↔ j < size := by
  have htiles := hc.tiles
  rw [← h.chunks, List.append_nil] at htiles
  rw [h.applied]
  constructor
  · rintro ⟨k, t, hk, -, hj⟩
    have hb := h.bounds k t hk
    have hmem : t.chunk ∈ threads.map Thread.chunk :=
      List.mem_map.2 ⟨t, List.mem_of_getElem? hk, rfl⟩
    have := (htiles.bounds hmem).2.2
    omega
  · intro hj
    -- the chunks cover the vector, so that one of them has the element
    obtain ⟨c, hcmem, hc₁, hc₂⟩ := htiles.exists_mem (Nat.zero_le j) hj
    obtain ⟨t, ht, rfl⟩ := List.mem_map.1 hcmem
    obtain ⟨k, hk⟩ := List.getElem?_of_mem ht
    exact ⟨k, t, hk, hc₁, lt_of_lt_of_le hc₂ (hdone k t hk)⟩

end Threaded

/-- What holds at a program point of the main thread. -/
def MainPc.Holds (size count : ℕ) (threads : List Thread) (applied : List ℕ) : MainPc → Prop
  | .looping j => threads = [] ∧ j ≤ size ∧ ∀ i, i ∈ applied ↔ i < j
  | .spawning i start =>
      ∃ rest, Threaded size count rest threads applied ∧
        rest = chunkLoop (size / count) (size % count) (count - i) i start ∧
        Tiles Chunk.start Chunk.stop start rest size
  | .joining k =>
      Threaded size count [] threads applied ∧
        ∀ i < k, ∀ t, threads[i]? = some t → t.chunk.stop ≤ t.next
  | .returned =>
      (∀ i, i ∈ applied ↔ i < size) ∧ ∀ (k : ℕ) (t : Thread), threads[k]? = some t →
        t.chunk.stop ≤ t.next

/-- The invariant of a call for the vector `original`. -/
structure Invariant (transform : α → α) (original : List α) (count : ℕ) (s : State α) : Prop where
  transformed : Transformed transform original s.applied s.data
  /-- The threads have been given the first chunks. -/
  chunks : s.threads.map Thread.chunk <+: chunks original.length count
  main : s.main.Holds original.length count s.threads s.applied

namespace Invariant

variable {transform : α → α} {original : List α} {count : ℕ} {s s' : State α} {a : Action}

/-- A thread that has not finished has chunks to work on. -/
theorem threaded (h : Invariant transform original count s) {k : ℕ} {t : Thread}
    (hk : s.threads[k]? = some t) (hlt : t.next < t.chunk.stop) :
    ∃ rest, Threaded original.length count rest s.threads s.applied := by
  have hmain := h.main
  cases hm : s.main with
  | looping j =>
      rw [hm] at hmain
      simp [hmain.1] at hk
  | spawning i start =>
      rw [hm] at hmain
      obtain ⟨rest, hthreaded, -⟩ := hmain
      exact ⟨rest, hthreaded⟩
  | joining k =>
      rw [hm] at hmain
      exact ⟨[], hmain.1⟩
  | returned =>
      rw [hm] at hmain
      have := hmain.2 k t hk
      omega

/-- **Every step keeps the invariant.** -/
theorem step (h : Invariant transform original count s)
    (hc : Chunked original.length count (ApplyFunction.chunks original.length count))
    (hs : ApplyFunction.step transform original.length count s a = some s') :
    Invariant transform original count s' := by
  have hmain := h.main
  cases effect_of_step hs with
  | loop j hm hj =>
      rw [hm] at hmain
      obtain ⟨hthreads, -, happlied⟩ := hmain
      -- the loop has transformed the elements below `j`, and not `j` itself
      refine ⟨h.transformed.modify fun hmem => ?_, h.chunks, hthreads, hj, ?_⟩
      · exact absurd ((happlied j).1 hmem) (lt_irrefl j)
      · intro i
        simp only [State.apply, List.mem_append, List.mem_singleton, happlied]
        omega
  | loopEnd j hm hj =>
      rw [hm] at hmain
      obtain ⟨hthreads, hle, happlied⟩ := hmain
      rw [show j = original.length by omega] at happlied
      exact ⟨h.transformed, h.chunks, happlied, by simp [hthreads]⟩
  | spawn i start c hm hi hnext =>
      rw [hm] at hmain
      obtain ⟨rest, hthreaded, hrest, htiles⟩ := hmain
      rw [show count - i = count - (i + 1) + 1 by omega, chunkLoop, hnext] at hrest
      subst hrest
      obtain ⟨-, hlt, htail⟩ := htiles
      have hspawn := hthreaded.spawn hlt.le
      exact ⟨h.transformed, ⟨_, hspawn.chunks⟩, _, hspawn, rfl, htail⟩
  | spawned i start hm hi =>
      rw [hm] at hmain
      obtain ⟨rest, hthreaded, hrest, htiles⟩ := hmain
      rw [show count - i = 0 by omega, chunkLoop] at hrest
      subst hrest
      exact ⟨h.transformed, h.chunks, hthreaded, fun i hi => absurd hi (Nat.not_lt_zero i)⟩
  | join k t hm hk hdone =>
      rw [hm] at hmain
      obtain ⟨hthreaded, hjoined⟩ := hmain
      refine ⟨h.transformed, h.chunks, hthreaded, ?_⟩
      intro i hi t' hi'
      rcases Nat.lt_succ_iff_lt_or_eq.1 hi with hlt | rfl
      · exact hjoined i hlt t' hi'
      · rw [hk] at hi'
        rw [← Option.some.inj hi']
        exact hdone
  | joined k hm hk =>
      rw [hm] at hmain
      obtain ⟨hthreaded, hjoined⟩ := hmain
      have hdone : ∀ (i : ℕ) (t : Thread), s.threads[i]? = some t → t.chunk.stop ≤ t.next := by
        intro i t hi
        have hlt := (List.getElem?_eq_some_iff.1 hi).1
        exact hjoined i (by omega) t hi
      exact ⟨h.transformed, h.chunks, fun i => hthreaded.mem_of_finished hc hdone, hdone⟩
  | work k t hk hlt =>
      obtain ⟨rest, hthreaded⟩ := h.threaded hk hlt
      -- no thread has transformed the element before
      have hnot := hthreaded.notMem hc hk hlt
      refine ⟨h.transformed.modify hnot, ⟨rest, (hthreaded.work hk hlt).chunks⟩, ?_⟩
      have hothers : ∀ {i : ℕ} {t' : Thread},
          (s.threads.set k { t with next := t.next + 1 })[i]? = some t' →
          (∀ u, s.threads[i]? = some u → u.chunk.stop ≤ u.next) → t'.chunk.stop ≤ t'.next := by
        intro i t' hi hdone
        by_cases hik : i = k
        · subst hik
          have := hdone t hk
          omega
        · rw [List.getElem?_set_ne (Ne.symm hik)] at hi
          exact hdone t' hi
      show s.main.Holds _ _ _ _
      cases hm : s.main with
      | looping j =>
          rw [hm] at hmain
          simp [hmain.1] at hk
      | spawning i start =>
          rw [hm] at hmain
          obtain ⟨rest, hthreaded, hrest, htiles⟩ := hmain
          exact ⟨rest, hthreaded.work hk hlt, hrest, htiles⟩
      | joining k' =>
          rw [hm] at hmain
          exact ⟨hmain.1.work hk hlt, fun i hi t' hi' => hothers hi' (hmain.2 i hi)⟩
      | returned =>
          rw [hm] at hmain
          have := hmain.2 k t hk
          omega

end Invariant

theorem invariant_of_reachable {transform : α → α} {data : List α} {threadCount : ℤ} {s : State α}
    (h : (system transform data threadCount).Reachable s) :
    Invariant transform data (actualThreadCount threadCount data.length) s := by
  have hc := chunked_actual threadCount data.length
  refine h.invariant ?_ ?_
  · rintro s rfl
    refine ⟨Transformed.initial, List.nil_prefix, ?_⟩
    simp only [MainPc.initial]
    split_ifs with hsize hcount
    · exact ⟨by simp [hsize], by simp⟩
    · exact ⟨rfl, Nat.zero_le _, by simp⟩
    · exact ⟨_, ⟨rfl, by simp, by simp⟩, rfl, hc.tiles⟩
  · intro s a s' _ hI hs
    exact hI.step hc hs

/-! ### Every run ends -/

/-- The steps that are left for the main thread, and for the threads it has still to spawn. -/
def MainPc.work (size count : ℕ) : MainPc → ℕ
  | .looping j => size - j + 1
  | .spawning i start => (size - start) + (count - i) + count + 2
  | .joining k => count - k + 1
  | .returned => 0

/-- The steps that are left for a thread. -/
def Thread.work (t : Thread) : ℕ := t.chunk.stop - t.next

/-- The steps that are left. -/
def State.work (size count : ℕ) (s : State α) : ℕ :=
  s.main.work size count + (s.threads.map Thread.work).sum

/-- Replacing a thread exchanges its work for the work of the new one. -/
theorem sum_work_set {threads : List Thread} {k : ℕ} {t : Thread} (h : threads[k]? = some t)
    (t' : Thread) :
    ((threads.set k t').map Thread.work).sum + t.work =
      (threads.map Thread.work).sum + t'.work := by
  induction threads generalizing k with
  | nil => simp at h
  | cons u threads ih =>
      cases k with
      | zero =>
          simp only [List.getElem?_cons_zero, Option.some.injEq] at h
          subst h
          simp only [List.set_cons_zero, List.map_cons, List.sum_cons]
          omega
      | succ k =>
          have heq := ih (k := k) (by simpa using h)
          simp only [List.set_cons_succ, List.map_cons, List.sum_cons]
          omega

namespace Invariant

variable {transform : α → α} {original : List α} {count : ℕ} {s s' : State α} {a : Action}

/-- Every step uses up some work. -/
theorem work_lt (h : Invariant transform original count s)
    (hc : Chunked original.length count (ApplyFunction.chunks original.length count))
    (hs : ApplyFunction.step transform original.length count s a = some s') :
    s'.work original.length count < s.work original.length count := by
  have hmain := h.main
  cases effect_of_step hs with
  | loop j hm hj =>
      simp only [State.work, State.apply, hm, MainPc.work]
      omega
  | loopEnd j hm hj =>
      simp only [State.work, hm, MainPc.work]
      omega
  | spawn i start c hm hi hnext =>
      rw [hm] at hmain
      obtain ⟨rest, -, hrest, htiles⟩ := hmain
      rw [show count - i = count - (i + 1) + 1 by omega, chunkLoop, hnext] at hrest
      subst hrest
      obtain ⟨hstart, hlt, htail⟩ := htiles
      have hle := htail.le
      simp only [State.work, hm, MainPc.work, Thread.work, List.map_append, List.map_cons,
        List.map_nil, List.sum_append, List.sum_cons, List.sum_nil]
      omega
  | spawned i start hm hi =>
      simp only [State.work, hm, MainPc.work]
      omega
  | join k t hm hk hdone =>
      have hlt := (List.getElem?_eq_some_iff.1 hk).1
      have hlen := h.chunks.length_le
      rw [List.length_map, hc.count] at hlen
      simp only [State.work, hm, MainPc.work]
      omega
  | joined k hm hk =>
      simp only [State.work, hm, MainPc.work]
      omega
  | work k t hk hlt =>
      have hsum := sum_work_set hk { t with next := t.next + 1 }
      simp only [Thread.work] at hsum
      simp only [State.work, State.apply]
      omega

/-- Until the call has returned, some thread has a next step. -/
theorem exists_step (hnot : s.main ≠ .returned) :
    ∃ a s', ApplyFunction.step transform original.length count s a = some s' := by
  cases hm : s.main with
  | looping j =>
      refine ⟨.main, ?_⟩
      simp only [ApplyFunction.step, mainStep, hm]
      split_ifs
      · exact ⟨_, rfl⟩
      · exact ⟨_, rfl⟩
  | spawning i start =>
      refine ⟨.main, ?_⟩
      simp only [ApplyFunction.step, mainStep, hm]
      split_ifs
      · exact ⟨_, rfl⟩
      · exact ⟨_, rfl⟩
  | joining k =>
      cases hk : s.threads[k]? with
      | none => exact ⟨.main, by simp [ApplyFunction.step, mainStep, hm, hk]⟩
      | some t =>
          -- the thread that is joined has finished, or can go on
          by_cases hdone : t.chunk.stop ≤ t.next
          · exact ⟨.main, by simp [ApplyFunction.step, mainStep, hm, hk, hdone]⟩
          · exact ⟨.worker k, by simp [ApplyFunction.step, workerStep, hk, not_le.1 hdone]⟩
  | returned => exact absurd hm hnot

end Invariant

/-! ### The result -/

/-- What is right about a state of a call. -/
structure Parallel (transform : α → α) (data : List α) (count : ℕ) (s : State α) : Prop where
  /-- The threads are given the chunks in their order. -/
  chunks : s.threads.map Thread.chunk <+: chunks data.length count
  /-- No element is transformed twice. -/
  nodup : s.applied.Nodup
  /-- After the joins, every element has been transformed, and the vector is the one that a single
  thread makes. -/
  returned : s.main = .returned →
    s.applied.Perm (List.range data.length) ∧ s.data = sequential transform data
  /-- Until then, some thread has a next step. -/
  progress : s.main ≠ .returned → ∃ a s', step transform data.length count s a = some s'
  /-- The number of steps is bounded. -/
  bounded : ∀ a s', step transform data.length count s a = some s' →
    s'.work data.length count < s.work data.length count

/-- **Every interleaving of the threads ends with the vector of the sequential loop**, for every
vector and every number of threads. -/
theorem parallel_eq_sequential (transform : α → α) (data : List α) (threadCount : ℤ) :
    Chunked data.length (actualThreadCount threadCount data.length)
      (chunks data.length (actualThreadCount threadCount data.length)) ∧
    ∀ s, (system transform data threadCount).Reachable s →
      Parallel transform data (actualThreadCount threadCount data.length) s := by
  have hc := chunked_actual threadCount data.length
  refine ⟨hc, ?_⟩
  intro s hs
  have hI := invariant_of_reachable hs
  refine ⟨hI.chunks, hI.transformed.nodup, ?_, Invariant.exists_step, fun a s' => hI.work_lt hc⟩
  intro hreturned
  have hmain := hI.main
  rw [hreturned] at hmain
  refine ⟨?_, ?_⟩
  · refine (List.perm_ext_iff_of_nodup hI.transformed.nodup List.nodup_range).2 fun i => ?_
    rw [hmain.1, List.mem_range]
  · rw [sequential_eq_map]
    exact hI.transformed.eq_map fun j hj => (hmain.1 j).2 hj

/-- Three elements and two threads: the second thread goes first. -/
theorem parallel_eq_sequential_two_threads :
    ∃ s, (system (fun x : ℕ => x + 10) [1, 2, 3] 2).Reachable s ∧ s.main = .returned ∧
      s.applied = [2, 0, 1] ∧ s.data = [11, 12, 13] ∧
      Parallel (fun x : ℕ => x + 10) [1, 2, 3] 2 s := by
  obtain ⟨s, hs⟩ : ∃ s, (system (fun x : ℕ => x + 10) [1, 2, 3] 2).run
      ⟨[1, 2, 3], .spawning 0 0, [], []⟩
      [.main, .main, .worker 1, .main, .worker 0, .worker 0, .main, .main, .main] = some s :=
    ⟨_, rfl⟩
  have hr : (system (fun x : ℕ => x + 10) [1, 2, 3] 2).Reachable s :=
    Automaton.Reachable.of_run rfl hs
  refine ⟨s, hr, ?_, ?_, ?_, (parallel_eq_sequential (fun x => x + 10) [1, 2, 3] 2).2 s hr⟩
  all_goals
    obtain rfl := Option.some_inj.1 hs
    rfl

end ApplyFunction
