/-
**The order of the requests and responses of one worker.**

Requests are written one after the other under `write_mutex`, and the worker takes them in this order
and leaves its loop only at the stop request, as long as it does not die.  It has begun the responses to
everything before the stop request by then, and the reader gets all of them before the end of the
stream.

Main definitions:

* `ProcessPool.Link.begun` — the requests that have been begun, in their order;
* `ProcessPool.Link.Orderly` — **the order of what has been begun, written and taken**.

Main results:

* `ProcessPool.Link.begun_of_effect` — a request is begun when the mutex is locked, and only then;
* `ProcessPool.Link.Orderly.step` — every step but the death of the worker keeps the order;
* `ProcessPool.Link.Orderly.taken_of_written` — **a worker that has left its loop has taken all that was
  written before its stop request**.
-/

import CppMultithreaded.PoolLink
import Mathlib.Algebra.Order.Ring.Nat

set_option relaxedAutoImplicit false
set_option autoImplicit false

namespace ProcessPool

variable {τ θ : Type*} {P : Program τ} {l l' : Link P θ}

/-! ### The requests that have been begun -/

/-- The requests that have been begun, in their order. -/
def Link.begun (l : Link P θ) : List (Frame P) := l.taken ++ l.requests

/-- The request is a stop request. -/
def Frame.isStop : Frame P → Bool
  | .run _ _ => false
  | .stop => true

/-- The request that a lock begins. -/
def LinkAction.begins : LinkAction P θ → List (Frame P)
  | .lock _ f => [f]
  | _ => []

@[simp] theorem Link.begun_take (l : Link P θ) : l.take.begun = l.begun := by
  rw [begun, begun, take]
  cases l.requests <;> simp

/-- Running a request takes it, or kills the worker. -/
theorem Link.begun_execute {header payload : List UInt8} {outcome : Outcome}
    (h : l.execute header payload outcome = some l') :
    l'.begun = l.begun ∧ l'.written = l.written ∧ l'.writeMutex = l.writeMutex ∧
      l'.requestFd = l.requestFd := by
  obtain rfl | ⟨t, -, -, rfl⟩ := execute_cases h
  · exact ⟨rfl, rfl, rfl, rfl⟩
  · exact ⟨l.begun_take, rfl, rfl, rfl⟩

/-- **A request is begun when the mutex is locked**, and only then. -/
theorem Link.begun_of_effect {a : LinkAction P θ} (he : LinkEffect l a l') :
    l'.begun = l.begun ++ a.begins := by
  cases he with
  | lock o f _ => simp [begun, LinkAction.begins]
  | readStop k _ _ _ =>
      rw [begun_take]
      exact (List.append_nil _).symm
  | execute outcome header payload _ _ hexec =>
      rw [(begun_execute hexec).1]
      exact (List.append_nil _).symm
  | crash header payload _ =>
      rw [begun_take]
      exact (List.append_nil _).symm
  | _ => exact (List.append_nil _).symm

/-- The steps in which a worker takes a task. -/
def LinkAction.executes : LinkAction P θ → Bool
  | .execute _ | .crash => true
  | _ => false

/-- What a worker takes without executing it is a stop request. -/
theorem Link.takenRuns_of_effect (hf : l.Framed) {a : LinkAction P θ} (he : LinkEffect l a l')
    (ha : a.executes = false) : l'.takenRuns = l.takenRuns := by
  cases he with
  | readStop k hpos hwants hclose =>
      rcases hf.readRequest hpos hwants with ⟨rest, hrest, -⟩ | ⟨hgot, -⟩
      · simp [takenRuns, take, hrest, Frame.task?]
      · rw [hclose] at hgot
        simp [WorkerPc.got] at hgot
  | execute outcome header payload _ _ _ => simp [LinkAction.executes] at ha
  | crash header payload _ => simp [LinkAction.executes] at ha
  | _ => rfl

/-! ### The order -/

/-- The request that the holder of `write_mutex` has not completely written. -/
def Link.unfinished (l : Link P θ) : List (Frame P) :=
  match l.writeMutex with
  | some (_, f, _ :: _) => [f]
  | _ => []

/-- The order of what has been begun, written and taken. -/
structure Link.Orderly (l : Link P θ) : Prop where
  lost : l.lost = []
  /-- The descriptors of the parent are closed only when the reader has ended. -/
  closed : l.requestFd = false ∨ l.responseFd = false → l.reader = .ended
  /-- The reader ends only when the worker has left, and has got all of its responses. -/
  ended : l.reader = .ended → l.worker.responseOpen = false ∧ l.responses = []
  /-- The worker leaves its loop at the first stop request. -/
  inLoop : l.worker.got.isSome = true → ∀ f ∈ l.taken, f.isStop = false
  left : l.worker.got = none → ∃ fs, l.taken = fs ++ [.stop] ∧ ∀ f ∈ fs, f.isStop = false
  /-- What has been written is what was begun first. -/
  written : ∃ rest, l.begun = l.written ++ rest ∧ (l.writable = true → rest = l.unfinished)

/-- The worker does not die in the step, and the descriptors are closed only when the reader has
ended. -/
def LinkAction.Orderly (l : Link P θ) : LinkAction P θ → Prop
  | .die | .crash => False
  | .closeRequestFd | .closeResponseFd => l.reader = .ended
  | _ => True

namespace Link.Orderly

/-- A worker in its loop has its ends of the streams open. -/
theorem open_of_got {p : WorkerPc} (h : p.got.isSome = true) :
    p.requestOpen = true ∧ p.responseOpen = true := by
  cases p <;> first | exact ⟨rfl, rfl⟩ | simp [WorkerPc.got] at h

/-- As long as the worker is in its loop, the reader has not ended. -/
theorem not_ended (h : l.Orderly) (hgot : l.worker.got.isSome = true) : l.reader ≠ .ended := by
  intro hended
  have hopen := (open_of_got hgot).2
  rw [(h.ended hended).1] at hopen
  simp at hopen

/-- As long as the worker is in its loop, the descriptors of the parent are open. -/
theorem fds_open (h : l.Orderly) (hgot : l.worker.got.isSome = true) :
    l.requestFd = true ∧ l.responseFd = true := by
  have hnot := h.not_ended hgot
  constructor
  · by_contra hfd
    exact hnot (h.closed (Or.inl (by simpa using hfd)))
  · by_contra hfd
    exact hnot (h.closed (Or.inr (by simpa using hfd)))

/-- A reader that is not in its loop any more has ended. -/
theorem receive_ne_ended {p : ReaderPc} {chunk : List UInt8} (h : 0 < p.wants) :
    p.receive chunk ≠ .ended := by
  cases p with
  | readHeader got =>
      simp only [ReaderPc.receive, ReaderPc.afterHeader]
      split_ifs <;> simp
  | readPayload header got =>
      simp only [ReaderPc.receive]
      split_ifs <;> simp
  | _ => simp [ReaderPc.wants] at h

theorem lock (h : l.Orderly) {o : Owner θ} {f : Frame P} (hm : l.writeMutex = none) :
    Orderly { l with
      writeMutex := some (o, f, buffers f.taskHeader.bytes f.payload)
      requests := l.requests ++ [f] } := by
  refine ⟨h.lost, h.closed, h.ended, h.inLoop, h.left, ?_⟩
  obtain ⟨rest, hbegun, hrest⟩ := h.written
  refine ⟨rest ++ [f], ?_, ?_⟩
  · show l.taken ++ (l.requests ++ [f]) = l.written ++ (rest ++ [f])
    rw [← List.append_assoc, ← List.append_assoc, ← hbegun]
    rfl
  · intro hw
    have hold : rest = [] := by
      rw [hrest hw, unfinished, hm]
    rw [hold]
    rfl

theorem write (h : l.Orderly) {o : Owner θ} {f : Frame P} {k : ℕ} {todo todo' : List (List UInt8)}
    {chunk : List UInt8} (hm : l.writeMutex = some (o, f, todo)) (hw : l.writable = true)
    (hsome : Framing.writeSome k todo = some (chunk, todo')) :
    Orderly { l with
      writeMutex := some (o, f, todo')
      request := l.request ++ chunk
      written := if todo' = [] then l.written ++ [f] else l.written } := by
  refine ⟨h.lost, h.closed, h.ended, h.inLoop, h.left, ?_⟩
  obtain ⟨rest, hbegun, hrest⟩ := h.written
  have hold : rest = [f] := by
    rw [hrest hw, unfinished, hm]
    cases todo with
    | nil => simp [Framing.writeSome] at hsome
    | cons buffer todo => rfl
  rw [hold] at hbegun
  cases todo' with
  | nil =>
      refine ⟨[], ?_, fun _ => rfl⟩
      rw [List.append_nil]
      exact hbegun
  | cons buffer todo' => exact ⟨[f], hbegun, fun _ => rfl⟩

/-- Giving up a request, or being done with it. -/
theorem unlock (h : l.Orderly) {o : Owner θ} {f : Frame P} {todo : List (List UInt8)}
    {dropped : List UInt8} (hm : l.writeMutex = some (o, f, todo))
    (hw : l.writable = false ∨ todo = []) :
    Orderly ({ l with writeMutex := none, dropped := dropped } : Link P θ) := by
  refine ⟨h.lost, h.closed, h.ended, h.inLoop, h.left, ?_⟩
  obtain ⟨rest, hbegun, hrest⟩ := h.written
  refine ⟨rest, hbegun, ?_⟩
  intro hwritable
  have hold : l.writable = true := hwritable
  rcases hw with hw | rfl
  · rw [hw] at hold
    simp at hold
  · rw [hrest hold, unfinished, unfinished, hm]

/-- The worker gets some bytes, and is still in its loop. -/
theorem receive (h : l.Orderly) {p : WorkerPc} (request : List UInt8)
    (hgot : l.worker.got.isSome = true) (hp : p.got.isSome = true) :
    Orderly { l with worker := p, request := request } := by
  have hnot := h.not_ended hgot
  refine ⟨h.lost, h.closed, fun hended => absurd hended hnot, fun _ => h.inLoop hgot, ?_, ?_⟩
  · intro hnone
    rw [show p.got = none from hnone] at hp
    simp at hp
  · obtain ⟨rest, hbegun, hrest⟩ := h.written
    refine ⟨rest, hbegun, ?_⟩
    intro hwritable
    refine hrest ?_
    simp only [writable, Bool.and_eq_true] at hwritable ⊢
    exact ⟨hwritable.1, (open_of_got hgot).1⟩

/-- The worker gets a stop request, and leaves its loop. -/
theorem stop (h : l.Orderly) {fs : List (Frame P)} {request : List UInt8}
    (hgot : l.worker.got.isSome = true) (hrequests : l.requests = .stop :: fs) :
    Orderly (Link.take { l with worker := .closeRequest, request := request }) := by
  have hnot := h.not_ended hgot
  refine ⟨h.lost, h.closed, fun hended => absurd hended hnot, ?_, ?_, ?_⟩
  · intro hsome
    simp [Link.take, WorkerPc.got] at hsome
  · intro _
    refine ⟨l.taken, ?_, h.inLoop hgot⟩
    simp [Link.take, hrequests]
  · rw [begun_take]
    obtain ⟨rest, hbegun, hrest⟩ := h.written
    refine ⟨rest, hbegun, ?_⟩
    intro hwritable
    refine hrest ?_
    simp only [writable, Link.take, Bool.and_eq_true] at hwritable ⊢
    exact ⟨hwritable.1, (open_of_got hgot).1⟩

/-- The worker runs a request. -/
theorem execute (h : l.Orderly) (hf : l.Framed) {header payload : List UInt8} {outcome : Outcome}
    (hw : l.worker = .execute header payload) (hexec : l.execute header payload outcome = some l') :
    l'.Orderly := by
  have hgot : l.worker.got.isSome = true := by rw [hw]; rfl
  have hnot := h.not_ended hgot
  obtain ⟨hbegun', hwritten', hmutex', hfd'⟩ := begun_execute hexec
  obtain ⟨taskId, job, fs, hrequests, -, rfl, -⟩ := hf.execute hw hexec
  refine ⟨h.lost, h.closed, fun hended => absurd hended hnot, ?_, ?_, ?_⟩
  · intro _ f hmem
    simp only [reply, Link.take, hrequests, List.head?_cons, Option.toList_some] at hmem
    rcases List.mem_append.1 hmem with hold | hnew
    · exact h.inLoop hgot f hold
    · rw [List.mem_singleton.1 hnew]
      rfl
  · intro hnone
    simp [reply, WorkerPc.got] at hnone
  · obtain ⟨rest, hbegun, hrest⟩ := h.written
    rw [hbegun', hwritten']
    refine ⟨rest, hbegun, ?_⟩
    intro hwritable
    refine hrest ?_
    simp only [writable, Bool.and_eq_true, hfd'] at hwritable ⊢
    exact ⟨hwritable.1, (open_of_got hgot).1⟩

/-- The worker goes on leaving. -/
theorem leave (h : l.Orderly) {p : WorkerPc} (hp : l.worker.next = some p) :
    Orderly { l with worker := p } := by
  have hleft : l.worker.got = none ∧ p.got = none ∧ (l.worker.responseOpen = false →
      p.responseOpen = false) ∧ (p.requestOpen = true → l.worker.requestOpen = true) := by
    cases hw : l.worker <;> simp only [hw, WorkerPc.next, reduceCtorEq, Option.some.injEq] at hp
    all_goals
      subst hp
      simp [WorkerPc.got, WorkerPc.responseOpen, WorkerPc.requestOpen]
  obtain ⟨hgot, hgot', hresponse, hrequest⟩ := hleft
  refine ⟨h.lost, h.closed, ?_, ?_, fun _ => h.left hgot, ?_⟩
  · intro hended
    exact ⟨hresponse (h.ended hended).1, (h.ended hended).2⟩
  · intro hsome
    rw [show p.got = none from hgot'] at hsome
    simp at hsome
  · obtain ⟨rest, hbegun, hrest⟩ := h.written
    refine ⟨rest, hbegun, ?_⟩
    intro hwritable
    refine hrest ?_
    simp only [writable, Bool.and_eq_true] at hwritable ⊢
    exact ⟨hwritable.1, hrequest hwritable.2⟩

/-- The reader moves on. -/
theorem moveReader (h : l.Orderly) {p : ReaderPc} {response : List UInt8} {rs : List Response}
    (hold : l.reader ≠ .ended)
    (hended : p = .ended → l.worker.responseOpen = false ∧ rs = []) :
    Orderly { l with reader := p, response := response, responses := rs } := by
  refine ⟨h.lost, ?_, hended, h.inLoop, h.left, h.written⟩
  intro hfd
  exact absurd (h.closed hfd) hold

/-- **Every step but the death of the worker keeps the order.** -/
theorem step (h : l.Orderly) (hf : l.Framed) {a : LinkAction P θ} (ha : a.Orderly l)
    (he : LinkEffect l a l') : l'.Orderly := by
  cases he with
  | lock o f hm => exact h.lock hm
  | write o k f todo todo' chunk hm hw hsome => exact h.write hm hw hsome
  | writeFails o f todo hm _ hw => exact h.unlock hm (Or.inl hw)
  | unlock o f hm => exact h.unlock hm (Or.inr rfl)
  | readStop k hpos hwants hclose =>
      obtain ⟨got, hgot, -⟩ := Link.Framed.got_of_wants (hpos.trans_le hwants)
      rcases hf.readRequest hpos hwants with ⟨fs, hrequests, -⟩ | ⟨hloop, -⟩
      · exact h.stop (by rw [hgot]; rfl) hrequests
      · rw [hclose] at hloop
        simp [WorkerPc.got] at hloop
  | readRequest k hpos hwants hloop =>
      obtain ⟨got, hgot, -⟩ := Link.Framed.got_of_wants (hpos.trans_le hwants)
      rcases hf.readRequest hpos hwants with ⟨fs, -, hclose⟩ | ⟨hgot', -⟩
      · exact absurd hclose hloop
      · exact h.receive _ (by rw [hgot]; rfl) hgot'
  | requestEof hwants _ hfd =>
      obtain ⟨got, hgot, -⟩ := Link.Framed.got_of_wants hwants
      rw [(h.fds_open (by rw [hgot]; rfl)).1] at hfd
      simp at hfd
  | execute outcome header payload _ hw hexec => exact h.execute hf hw hexec
  | crash header payload _ => exact absurd ha id
  | writeResponse k todo todo' chunk hw _ =>
      have hgot : l.worker.got.isSome = true := by rw [hw]; rfl
      have hgot' : (if todo' = [] then WorkerPc.readHeader [] else .respond todo').got.isSome =
          true := by
        split_ifs <;> rfl
      have hreceive := h.receive l.request hgot hgot'
      exact ⟨hreceive.lost, hreceive.closed, hreceive.ended, hreceive.inLoop, hreceive.left,
        hreceive.written⟩
  | responseFails todo hw hfd =>
      rw [(h.fds_open (by rw [hw]; rfl)).2] at hfd
      simp at hfd
  | leave p hp => exact h.leave hp
  | die => exact absurd ha id
  | readResponse k hpos hwants =>
      refine h.moveReader ?_ (fun hended => absurd hended (receive_ne_ended (hpos.trans_le hwants)))
      intro hended
      rw [hended] at hwants
      simp only [ReaderPc.wants] at hwants
      omega
  | responseEof hwants hempty hclosed =>
      refine h.moveReader ?_ (fun _ => ⟨hclosed, hf.of_ended hwants hempty hclosed h.lost⟩)
      intro hended
      simp [hended, ReaderPc.wants] at hwants
  | lookupNone header payload hr => exact h.moveReader (by simp [hr]) (by simp)
  | lookupSome header payload pending hr => exact h.moveReader (by simp [hr]) (by simp)
  | complete header payload taskId pending hr => exact h.moveReader (by simp [hr]) (by simp)
  | closeRequestFd =>
      refine ⟨h.lost, fun _ => ha, h.ended, h.inLoop, h.left, ?_⟩
      obtain ⟨rest, hbegun, -⟩ := h.written
      exact ⟨rest, hbegun, by simp [writable]⟩
  | closeResponseFd => exact ⟨h.lost, fun _ => ha, h.ended, h.inLoop, h.left, h.written⟩

theorem initial : (Link.initial : Link P θ).Orderly := by
  refine ⟨rfl, ?_, ?_, ?_, ?_, [], rfl, fun _ => rfl⟩
  · simp [Link.initial]
  · simp [Link.initial]
  · simp [Link.initial]
  · simp [Link.initial, WorkerPc.got]

/-- **A worker that has left its loop has taken all that was written before its stop request.** -/
theorem taken_of_written (h : l.Orderly) (hleft : l.worker.got = none)
    (honce : l.begun.countP Frame.isStop ≤ 1) {before after : List (Frame P)}
    (hw : l.written = before ++ .stop :: after) : l.taken = before ++ [.stop] := by
  obtain ⟨fs, htaken, hfs⟩ := h.left hleft
  obtain ⟨rest, hbegun, -⟩ := h.written
  have heq : before ++ .stop :: (after ++ rest) = fs ++ .stop :: l.requests := by
    rw [← List.cons_append, ← List.append_assoc, ← hw, ← hbegun, begun, htaken, List.append_assoc]
    rfl
  have hcount : l.begun = before ++ .stop :: (after ++ rest) := by
    rw [hbegun, hw, List.append_assoc]
    rfl
  rw [hcount, List.countP_append, List.countP_cons] at honce
  have hbefore : before.countP Frame.isStop = 0 := by
    simp only [Frame.isStop, if_true] at honce
    omega
  have hafter : (after ++ rest).countP Frame.isStop = 0 := by
    simp only [Frame.isStop, if_true] at honce
    omega
  have hnone : ∀ {gs : List (Frame P)}, gs.countP Frame.isStop = 0 → Frame.stop ∉ gs := by
    intro gs hgs hmem
    exact List.countP_eq_zero.1 hgs _ hmem rfl
  have hsplit := (List.append_cons_inj_of_notMem (hnone hbefore) (hnone hafter)).1 heq
  rw [htaken, hsplit.1]

end Link.Orderly

end ProcessPool
