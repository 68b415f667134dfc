/-
**The constructor of the process pool of hw-6.**

`SpawnWorker` makes two socket pairs and forks; the parent keeps one end of each pair, the worker the
other.  Where one of these calls fails, it closes what it has opened and throws.  The workers that have
been spawned before are in a vector of plain numbers, whose destructor closes nothing: their ends stay
open in the parent, so that the workers see no end of their streams, and nobody tells them to stop.

The kernel answers the successive calls by a script, which also gives the numbers of new descriptors and
processes; a number that is in use is not given again.  A worker that has been forked has closed its
copies of the ends of the parent, and is in `WorkerLoop`, waiting for its first request.

Main definitions:

* `ProcessPool.Kernel` — the descriptor tables of the parent and of the workers, and what is unread in
  the sockets, with the system calls of the constructor;
* `ProcessPool.spawnWorker`, `ProcessPool.spawnLoop`, `ProcessPool.constructPool` — `SpawnWorker`, and
  the constructor;
* `ProcessPool.LeaksNothing` — the descriptors of the parent are what they were, and every worker has
  been told to stop or sees the end of its requests;
* `ProcessPool.Spawned` — what holds after some workers have been spawned;
* `ProcessPool.fileOf` — the files that the descriptors of the parent stand for in the model of the pool.

Main results:

* `ProcessPool.spawnWorker_error`, `ProcessPool.spawnWorker_ok` — `SpawnWorker` cleans up after itself,
  and what it has done when it returns;
* `ProcessPool.Spawned.spawn`, `ProcessPool.Spawned.loop` — what every worker, and the whole loop, keeps;
* `ProcessPool.Spawned.not_seesEof_of_later` — later workers keep the ends of the parent to the earlier
  ones;
* `ProcessPool.leaksNothing_iff` — **a constructor that throws leaks nothing iff the first call of
  `SpawnWorker` has failed**;
* `ProcessPool.orphans_of_error` — otherwise every worker that has been forked goes on waiting;
* `ProcessPool.exists_initial` — **a constructor that returns leaves the descriptors as the pool needs
  them**.
-/

import CppMultithreaded.PoolDescriptor
import CppMultithreaded.PoolStream
import CppMultithreaded.PoolTransfer

set_option relaxedAutoImplicit false
set_option autoImplicit false

namespace ProcessPool

/-! ### The system calls of the constructor -/

/-- The two ends of a socket pair. -/
inductive Side
  | zero
  | one
  deriving DecidableEq

def Side.other : Side → Side
  | .zero => .one
  | .one => .zero

/-- What a descriptor stands for: an end of a socket pair of the pool, or something else. -/
inductive Description
  | socket (pair : ℕ) (side : Side)
  | other
  deriving DecidableEq

/-- A worker process in `WorkerLoop(request_fd, response_fd)`, with its descriptors. -/
structure Child where
  pid : ℕ
  table : ℕ → Option Description
  requestFd : ℕ
  responseFd : ℕ

/-- The descriptors of the parent, the workers, the number of socket pairs that have been made, and the
bytes that can be read at their ends. -/
structure Kernel where
  parent : ℕ → Option Description
  children : List Child
  pairs : ℕ
  unread : ℕ → Side → List UInt8

/-- An answer of the kernel: two descriptors, a process, or an error. -/
inductive Reply
  | descriptors (a b : ℕ)
  | forked (pid : ℕ)
  | failed (errno : ℕ)

def Kernel.close (s : Kernel) (fd : ℕ) : Kernel :=
  { s with parent := Function.update s.parent fd none }

/-- The table with the two ends of a socket pair. -/
def openPair (table : ℕ → Option Description) (pair : ℕ) (fds : ℕ × ℕ) : ℕ → Option Description :=
  Function.update (Function.update table fds.1 (some (.socket pair .zero))) fds.2
    (some (.socket pair .one))

/-- `socketpair`, with two descriptors that are not in use. -/
def Kernel.socketpair (s : Kernel) : Reply → Option (Except ℕ (ℕ × ℕ) × Kernel)
  | .descriptors a b =>
      if a ≠ b ∧ s.parent a = none ∧ s.parent b = none then
        some (.ok (a, b),
          { s with
            parent := openPair s.parent s.pairs (a, b)
            pairs := s.pairs + 1
            unread := Function.update s.unread s.pairs fun _ => [] })
      else none
  | .failed errno => some (.error errno, s)
  | .forked _ => none

/-- The branch of the worker after `fork`: it closes `request[0]` and `response[0]`, and calls
`WorkerLoop(request[1], response[1])`. -/
def workerProcess (pid : ℕ) (table : ℕ → Option Description) (request response : ℕ × ℕ) : Child :=
  { pid := pid
    table := Function.update (Function.update table request.1 none) response.1 none
    requestFd := request.2
    responseFd := response.2 }

/-- `fork`: the worker has copies of the descriptors of the parent. -/
def Kernel.fork (s : Kernel) (request response : ℕ × ℕ) : Reply → Option (Except ℕ ℕ × Kernel)
  | .forked pid =>
      some (.ok pid, { s with children := s.children ++ [workerProcess pid s.parent request response] })
  | .failed errno => some (.error errno, s)
  | .descriptors _ _ => none

/-- The next system call. -/
def call {ρ : Type*} (f : Reply → Option ρ) : List Reply → Option (ρ × List Reply)
  | [] => none
  | reply :: script => (f reply).map fun r => (r, script)

/-! ### The constructor -/

/-- What the parent knows of a worker. -/
structure Worker where
  pid : ℕ
  requestFd : ℕ
  responseFd : ℕ
  deriving DecidableEq

/-- The destructor of a worker.  The members are plain numbers: it closes nothing. -/
def Worker.destroy (s : Kernel) (_ : Worker) : Kernel := s

section Constructor

variable (strerror : ℕ → String)

/-- `SpawnWorker`. -/
def spawnWorker (s : Kernel) (script : List Reply) :
    Option (Except String Worker × List Reply × Kernel) :=
  (call s.socketpair script).bind fun r =>
    match r with
    | ((.error errno, s), script) =>
        some (Detail.throwSystemError strerror "socketpair(request) failed" errno, script, s)
    | ((.ok request, s), script) =>
        (call s.socketpair script).bind fun r =>
          match r with
          | ((.error errno, s), script) =>
              some (Detail.throwSystemError strerror "socketpair(response) failed" errno, script,
                (s.close request.1).close request.2)
          | ((.ok response, s), script) =>
              (call (s.fork request response) script).bind fun r =>
                match r with
                | ((.error errno, s), script) =>
                    some (Detail.throwSystemError strerror "fork failed" errno, script,
                      (((s.close request.1).close request.2).close response.1).close response.2)
                | ((.ok pid, s), script) =>
                    some (.ok ⟨pid, request.1, response.1⟩, script,
                      (s.close request.2).close response.2)

/-- The loop of the constructor, with the number of workers that are left, and `workers_`.  An exception
destroys `workers_`, since the pool has not been constructed. -/
def spawnLoop : ℕ → List Worker → Kernel → List Reply →
    Option (Except String (List Worker) × List Reply × Kernel)
  | 0, workers, s, script => some (.ok workers, script, s)
  | n + 1, workers, s, script =>
      (spawnWorker strerror s script).bind fun r =>
        match r with
        | (.error what, script, s) => some (.error what, script, workers.foldl Worker.destroy s)
        | (.ok worker, script, s) => spawnLoop n (workers ++ [worker]) s script

/-- `ProcessPool(process_count)`. -/
def constructPool (processCount : ℕ) (s : Kernel) (script : List Reply) :
    Option (Except String (List Worker) × List Reply × Kernel) :=
  if processCount = 0 then some (.error "process_count must be > 0", script, s)
  else spawnLoop strerror processCount [] s script

end Constructor

/-! ### Leaks -/

/-- Some process has a descriptor for this. -/
def Kernel.Holds (s : Kernel) (d : Description) : Prop :=
  (∃ fd, s.parent fd = some d) ∨ ∃ c ∈ s.children, ∃ fd, c.table fd = some d

/-- The header of `Stop` is what the worker reads next. -/
def Child.ToldToStop (c : Child) (s : Kernel) : Prop :=
  ∃ pair side, c.table c.requestFd = some (.socket pair side) ∧
    Request.stop.taskHeader.bytes <+: s.unread pair side

/-- There is nothing to read for the worker, and nobody has the other end. -/
def Child.SeesEof (c : Child) (s : Kernel) : Prop :=
  ∃ pair side, c.table c.requestFd = some (.socket pair side) ∧ s.unread pair side = [] ∧
    ¬s.Holds (.socket pair side.other)

/-- The descriptors of the parent are what they were, and no worker goes on waiting. -/
structure LeaksNothing (s₀ s : Kernel) : Prop where
  parent : s.parent = s₀.parent
  children : ∀ c ∈ s.children, c.ToldToStop s ∨ c.SeesEof s

/-! ### One worker -/

/-- The sockets that there were are as they were. -/
structure Kernel.Grows (s s' : Kernel) : Prop where
  pairs : s.pairs ≤ s'.pairs
  unread : ∀ pair < s.pairs, s'.unread pair = s.unread pair

variable {strerror : ℕ → String} {s s' : Kernel} {script rest : List Reply}

theorem call_eq_some {ρ : Type*} {f : Reply → Option ρ} {r : ρ}
    (h : call f script = some (r, rest)) : ∃ reply, script = reply :: rest ∧ f reply = some r := by
  cases script with
  | nil => cases h
  | cons reply script =>
      obtain ⟨r', hr, heq⟩ := Option.map_eq_some_iff.1 h
      obtain ⟨rfl, rfl⟩ := Prod.mk.inj heq
      exact ⟨reply, rfl, hr⟩

theorem socketpair_error {reply : Reply} {errno : ℕ}
    (h : s.socketpair reply = some (.error errno, s')) : reply = .failed errno ∧ s' = s := by
  cases reply with
  | descriptors a b =>
      rw [Kernel.socketpair] at h
      split_ifs at h
      cases h
  | failed e =>
      cases h
      exact ⟨rfl, rfl⟩
  | forked pid => cases h

theorem socketpair_ok {reply : Reply} {fds : ℕ × ℕ} (h : s.socketpair reply = some (.ok fds, s')) :
    reply = .descriptors fds.1 fds.2 ∧ fds.1 ≠ fds.2 ∧ s.parent fds.1 = none ∧
      s.parent fds.2 = none ∧
      s' = { s with
        parent := openPair s.parent s.pairs fds
        pairs := s.pairs + 1
        unread := Function.update s.unread s.pairs fun _ => [] } := by
  cases reply with
  | descriptors a b =>
      rw [Kernel.socketpair] at h
      split_ifs at h with hfree
      cases h
      exact ⟨rfl, hfree.1, hfree.2.1, hfree.2.2, rfl⟩
  | failed e => cases h
  | forked pid => cases h

theorem fork_error {request response : ℕ × ℕ} {reply : Reply} {errno : ℕ}
    (h : s.fork request response reply = some (.error errno, s')) :
    reply = .failed errno ∧ s' = s := by
  cases reply with
  | descriptors a b => cases h
  | failed e =>
      cases h
      exact ⟨rfl, rfl⟩
  | forked pid => cases h

theorem fork_ok {request response : ℕ × ℕ} {reply : Reply} {pid : ℕ}
    (h : s.fork request response reply = some (.ok pid, s')) :
    reply = .forked pid ∧
      s' = { s with children := s.children ++ [workerProcess pid s.parent request response] } := by
  cases reply with
  | descriptors a b => cases h
  | failed e => cases h
  | forked p =>
      cases h
      exact ⟨rfl, rfl⟩

section Table

variable {table : ℕ → Option Description} {pair fd : ℕ} {fds : ℕ × ℕ}

theorem openPair_fst (hne : fds.1 ≠ fds.2) :
    openPair table pair fds fds.1 = some (.socket pair .zero) := by
  rw [openPair, Function.update_of_ne hne, Function.update_self]

theorem openPair_snd : openPair table pair fds fds.2 = some (.socket pair .one) :=
  Function.update_self _ _ _

theorem openPair_of_ne (h₁ : fd ≠ fds.1) (h₂ : fd ≠ fds.2) : openPair table pair fds fd = table fd := by
  rw [openPair, Function.update_of_ne h₂, Function.update_of_ne h₁]

/-- A descriptor that is free after two have been opened is another one, and was free before. -/
theorem free_of_openPair (hne : fds.1 ≠ fds.2) (h : openPair table pair fds fd = none) :
    fd ≠ fds.1 ∧ fd ≠ fds.2 ∧ table fd = none := by
  have h₁ : fd ≠ fds.1 := by
    rintro rfl
    rw [openPair_fst hne] at h
    cases h
  have h₂ : fd ≠ fds.2 := by
    rintro rfl
    rw [openPair_snd] at h
    cases h
  exact ⟨h₁, h₂, (openPair_of_ne h₁ h₂).symm.trans h⟩

theorem close_of_ne {a b : ℕ} (ha : fd ≠ a) (hb : fd ≠ b) :
    Function.update (Function.update table a none) b none fd = table fd := by
  rw [Function.update_of_ne hb, Function.update_of_ne ha]

/-- Closing two descriptors that were free restores what the table was, where it has not been changed
otherwise. -/
theorem close_apply {table' : ℕ → Option Description} {a b : ℕ} (ha : table' a = none)
    (hb : table' b = none) (h : fd ≠ a → fd ≠ b → table fd = table' fd) :
    Function.update (Function.update table a none) b none fd = table' fd := by
  rcases eq_or_ne fd b with rfl | hne₂
  · rw [Function.update_self, hb]
  · rw [Function.update_of_ne hne₂]
    rcases eq_or_ne fd a with rfl | hne₁
    · rw [Function.update_self, ha]
    · rw [Function.update_of_ne hne₁, h hne₁ hne₂]

end Table

/-- Making a socket pair leaves the sockets that there were. -/
theorem Kernel.Grows.socketpair {reply : Reply} {r : Except ℕ (ℕ × ℕ)}
    (h : s.socketpair reply = some (r, s')) : s.Grows s' := by
  cases r with
  | error errno =>
      obtain ⟨-, rfl⟩ := socketpair_error h
      exact ⟨le_rfl, fun _ _ => rfl⟩
  | ok fds =>
      obtain ⟨-, -, -, -, rfl⟩ := socketpair_ok h
      exact ⟨Nat.le_succ _, fun pair hpair => Function.update_of_ne hpair.ne _ _⟩

theorem Kernel.Grows.trans {t : Kernel} (h : s.Grows s') (h' : s'.Grows t) : s.Grows t :=
  ⟨h.pairs.trans h'.pairs,
    fun pair hpair => (h'.unread pair (hpair.trans_le h.pairs)).trans (h.unread pair hpair)⟩

/-- **`SpawnWorker` cleans up after itself**: when it throws, the descriptors and the workers are what
they were, and one of its three calls has failed. -/
theorem spawnWorker_error {what : String}
    (h : spawnWorker strerror s script = some (.error what, rest, s')) :
    s'.parent = s.parent ∧ s'.children = s.children ∧ s.Grows s' ∧
      ∃ errno, Reply.failed errno ∈ script.take 3 := by
  rw [spawnWorker] at h
  obtain ⟨⟨⟨request, s₁⟩, script₁⟩, hrequest, h⟩ := Option.bind_eq_some_iff.1 h
  obtain ⟨reply₁, rfl, hpair₁⟩ := call_eq_some hrequest
  have hgrows₁ := Kernel.Grows.socketpair hpair₁
  cases request with
  | error errno =>
      obtain ⟨rfl, rfl⟩ := socketpair_error hpair₁
      cases h
      exact ⟨rfl, rfl, hgrows₁, errno, by simp⟩
  | ok request =>
      obtain ⟨rfl, hne₁, ha, hb, rfl⟩ := socketpair_ok hpair₁
      obtain ⟨⟨⟨response, s₂⟩, script₂⟩, hresponse, h⟩ := Option.bind_eq_some_iff.1 h
      obtain ⟨reply₂, rfl, hpair₂⟩ := call_eq_some hresponse
      have hgrows₂ := Kernel.Grows.socketpair hpair₂
      cases response with
      | error errno =>
          obtain ⟨rfl, rfl⟩ := socketpair_error hpair₂
          cases h
          refine ⟨?_, rfl, ⟨hgrows₁.pairs, hgrows₁.unread⟩, errno, by simp⟩
          exact funext fun fd => close_apply ha hb openPair_of_ne
      | ok response =>
          obtain ⟨rfl, hne₂, hp, hq, rfl⟩ := socketpair_ok hpair₂
          obtain ⟨⟨⟨pid, s₃⟩, script₃⟩, hfork, h⟩ := Option.bind_eq_some_iff.1 h
          obtain ⟨reply₃, rfl, hforked⟩ := call_eq_some hfork
          cases pid with
          | ok pid => cases h
          | error errno =>
              obtain ⟨rfl, rfl⟩ := fork_error hforked
              cases h
              have hgrows := hgrows₁.trans hgrows₂
              refine ⟨?_, rfl, ⟨hgrows.pairs, hgrows.unread⟩, errno, by simp⟩
              have hp' := (free_of_openPair hne₁ hp).2.2
              have hq' := (free_of_openPair hne₁ hq).2.2
              refine funext fun fd => close_apply hp' hq' fun hfp hfq =>
                close_apply ha hb fun hfa hfb => ?_
              exact (openPair_of_ne hfp hfq).trans (openPair_of_ne hfa hfb)

/-- **What `SpawnWorker` has done when it returns**: three calls have succeeded; the parent has the two
ends that it keeps, under numbers that were free, and the worker has the others. -/
theorem spawnWorker_ok {worker : Worker}
    (h : spawnWorker strerror s script = some (.ok worker, rest, s')) :
    ∃ a b p q pid, script = .descriptors a b :: .descriptors p q :: .forked pid :: rest ∧
      worker = ⟨pid, a, p⟩ ∧ s.parent a = none ∧ s.parent p = none ∧ a ≠ p ∧
      s'.parent a = some (.socket s.pairs .zero) ∧ s'.parent p = some (.socket (s.pairs + 1) .zero) ∧
      (∀ fd, fd ≠ a → fd ≠ p → s'.parent fd = s.parent fd) ∧
      s'.pairs = s.pairs + 2 ∧ s'.unread s.pairs .one = [] ∧ s.Grows s' ∧
      ∃ c, s'.children = s.children ++ [c] ∧ c.table c.requestFd = some (.socket s.pairs .one) ∧
        ∀ fd, s.parent fd ≠ none → c.table fd = s.parent fd := by
  rw [spawnWorker] at h
  obtain ⟨⟨⟨request, s₁⟩, script₁⟩, hrequest, h⟩ := Option.bind_eq_some_iff.1 h
  obtain ⟨reply₁, rfl, hpair₁⟩ := call_eq_some hrequest
  have hgrows₁ := Kernel.Grows.socketpair hpair₁
  cases request with
  | error errno => cases h
  | ok request =>
      obtain ⟨rfl, hne₁, ha, hb, rfl⟩ := socketpair_ok hpair₁
      obtain ⟨⟨⟨response, s₂⟩, script₂⟩, hresponse, h⟩ := Option.bind_eq_some_iff.1 h
      obtain ⟨reply₂, rfl, hpair₂⟩ := call_eq_some hresponse
      have hgrows₂ := Kernel.Grows.socketpair hpair₂
      cases response with
      | error errno => cases h
      | ok response =>
          obtain ⟨rfl, hne₂, hp, hq, rfl⟩ := socketpair_ok hpair₂
          obtain ⟨⟨⟨pid, s₃⟩, script₃⟩, hfork, h⟩ := Option.bind_eq_some_iff.1 h
          obtain ⟨reply₃, rfl, hforked⟩ := call_eq_some hfork
          cases pid with
          | error errno => cases h
          | ok pid =>
              obtain ⟨rfl, rfl⟩ := fork_ok hforked
              cases h
              obtain ⟨hpa, hpb, hp'⟩ := free_of_openPair hne₁ hp
              obtain ⟨hqa, hqb, hq'⟩ := free_of_openPair hne₁ hq
              have hgrows := hgrows₁.trans hgrows₂
              refine ⟨request.1, request.2, response.1, response.2, pid, rfl, rfl, ha, hp', hpa.symm, ?_,
                ?_, ?_, rfl, ?_, ⟨hgrows.pairs, hgrows.unread⟩,
                workerProcess pid (openPair (openPair s.parent s.pairs request) (s.pairs + 1) response)
                  request response, rfl, ?_, ?_⟩
              · -- the parent keeps `request[0]` and `response[0]`
                exact (close_of_ne hne₁ hqa.symm).trans
                  ((openPair_of_ne hpa.symm hqa.symm).trans (openPair_fst hne₁))
              · exact (close_of_ne hpb hne₂).trans (openPair_fst hne₂)
              · intro fd hfa hfp
                refine close_apply hb hq' fun hfb hfq => ?_
                exact (openPair_of_ne hfp hfq).trans (openPair_of_ne hfa hfb)
              · -- nothing has been written to the new sockets
                have hsame := hgrows₂.unread s.pairs (Nat.lt_succ_self _)
                exact (congrFun hsame .one).trans
                  (congrFun (Function.update_self s.pairs (fun _ => []) s.unread) Side.one)
              · -- the worker keeps `request[1]`
                exact (close_of_ne hne₁.symm hpb.symm).trans
                  ((openPair_of_ne hpb.symm hqb.symm).trans openPair_snd)
              · -- and has copies of what the parent had before
                intro fd hfd
                have hne : ∀ {fd' : ℕ}, s.parent fd' = none → fd ≠ fd' := by
                  rintro fd' hnone rfl
                  exact hfd hnone
                exact (close_of_ne (hne ha) (hne hp')).trans
                  ((openPair_of_ne (hne hp') (hne hq')).trans (openPair_of_ne (hne ha) (hne hb)))

/-! ### All workers -/

/-- The descriptors of a worker in the parent. -/
def Worker.descriptors (w : Worker) : List ℕ := [w.requestFd, w.responseFd]

theorem length_descriptors (workers : List Worker) :
    (workers.flatMap Worker.descriptors).length = 2 * workers.length := by
  induction workers with
  | nil => rfl
  | cons w workers ih =>
      rw [List.flatMap_cons, List.length_append, ih, List.length_cons, Worker.descriptors]
      simp only [List.length_cons, List.length_nil]
      omega

/-- The worker waits for a request: there is nothing to read, and the parent has the other end. -/
def Child.Waiting (c : Child) (s : Kernel) : Prop :=
  ∃ pair < s.pairs, c.table c.requestFd = some (.socket pair .one) ∧ s.unread pair .one = [] ∧
    ∃ fd, s.parent fd = some (.socket pair .zero)

/-- **What holds after some workers have been spawned**, in a process that was in the state `s₀`. -/
structure Spawned (s₀ : Kernel) (workers : List Worker) (s : Kernel) : Prop where
  length : s.children.length = workers.length
  /-- The descriptors of the workers are different, open, and were free. -/
  nodup : (workers.flatMap Worker.descriptors).Nodup
  opened : ∀ w ∈ workers, ∀ fd ∈ w.descriptors, s₀.parent fd = none ∧ s.parent fd ≠ none
  others : ∀ fd, (∀ w ∈ workers, fd ∉ w.descriptors) → s.parent fd = s₀.parent fd
  waiting : ∀ c ∈ s.children, c.Waiting s
  /-- A worker has copies of the ends of the parent to the workers before it. -/
  inherited : s.children.Pairwise fun c d =>
    ∃ pair fd, c.table c.requestFd = some (.socket pair .one) ∧ d.table fd = some (.socket pair .zero)

namespace Spawned

variable {s₀ : Kernel} {workers : List Worker}

theorem initial (hs₀ : s₀.children = []) : Spawned s₀ [] s₀ := by
  refine ⟨by rw [hs₀]; rfl, List.nodup_nil, by simp, fun _ _ => rfl, by simp [hs₀], ?_⟩
  rw [hs₀]
  exact List.Pairwise.nil

/-- A `SpawnWorker` that throws changes nothing of this. -/
theorem error (h : Spawned s₀ workers s) {what : String}
    (hs : spawnWorker strerror s script = some (.error what, rest, s')) : Spawned s₀ workers s' := by
  obtain ⟨hparent, hchildren, hgrows, -⟩ := spawnWorker_error hs
  refine ⟨by rw [hchildren, h.length], h.nodup, ?_, ?_, ?_, by rw [hchildren]; exact h.inherited⟩
  · rw [hparent]
    exact h.opened
  · rw [hparent]
    exact h.others
  · rw [hchildren]
    intro c hc
    obtain ⟨pair, hlt, htable, hunread, hfd⟩ := h.waiting c hc
    refine ⟨pair, hlt.trans_le hgrows.pairs, htable, ?_, by rwa [hparent]⟩
    rw [hgrows.unread pair hlt, hunread]

/-- **What every worker keeps.** -/
theorem spawn (h : Spawned s₀ workers s) {worker : Worker}
    (hs : spawnWorker strerror s script = some (.ok worker, rest, s')) :
    Spawned s₀ (workers ++ [worker]) s' := by
  obtain ⟨a, b, p, q, pid, -, rfl, ha, hp, hap, hsa, hsp, hkeep, hpairs, hempty, hgrows, c, hchildren,
    htable, hcopies⟩ := spawnWorker_ok hs
  -- a descriptor that was free is none of those of the workers before
  have hfresh : ∀ {fd}, s.parent fd = none → ∀ w ∈ workers, fd ∉ w.descriptors :=
    fun hfree w hw hmem => (h.opened w hw _ hmem).2 hfree
  have hnew : ∀ {fd}, fd ∈ [a, p] → s₀.parent fd = none ∧ s'.parent fd ≠ none := by
    intro fd hfd
    rcases List.mem_cons.1 hfd with rfl | hfd
    · rw [← h.others fd (hfresh ha), hsa]
      exact ⟨ha, by simp⟩
    · obtain rfl := List.mem_singleton.1 hfd
      rw [← h.others fd (hfresh hp), hsp]
      exact ⟨hp, by simp⟩
  have hold : ∀ {fd}, s.parent fd ≠ none → s'.parent fd = s.parent fd := by
    intro fd hfd
    refine hkeep fd ?_ ?_
    · rintro rfl
      exact hfd ha
    · rintro rfl
      exact hfd hp
  refine ⟨?_, ?_, ?_, ?_, ?_, ?_⟩
  · rw [hchildren, List.length_append, List.length_append, h.length]
    rfl
  · rw [List.flatMap_append, List.flatMap_singleton]
    refine h.nodup.append (by simp [Worker.descriptors, hap]) ?_
    intro fd hfd hmem
    obtain ⟨w, hw, hfd⟩ := List.mem_flatMap.1 hfd
    rcases List.mem_cons.1 hmem with rfl | hmem
    · exact hfresh ha w hw hfd
    · obtain rfl := List.mem_singleton.1 hmem
      exact hfresh hp w hw hfd
  · intro w hw fd hfd
    rcases List.mem_append.1 hw with hw | hw
    · obtain ⟨hfree, hopen⟩ := h.opened w hw fd hfd
      rw [hold hopen]
      exact ⟨hfree, hopen⟩
    · obtain rfl := List.mem_singleton.1 hw
      exact hnew hfd
  · intro fd hfd
    have hne := hfd _ (List.mem_append_right _ (List.mem_singleton_self _))
    rw [hkeep fd (fun heq => hne (by simp [Worker.descriptors, heq]))
      (fun heq => hne (by simp [Worker.descriptors, heq]))]
    exact h.others fd fun w hw => hfd w (List.mem_append_left _ hw)
  · rw [hchildren]
    intro d hd
    rcases List.mem_append.1 hd with hd | hd
    · obtain ⟨pair, hlt, hd, hunread, fd, hfd⟩ := h.waiting d hd
      refine ⟨pair, hlt.trans_le hgrows.pairs, hd, ?_, fd, ?_⟩
      · rw [hgrows.unread pair hlt, hunread]
      · rw [hold (by simp [hfd]), hfd]
    · obtain rfl := List.mem_singleton.1 hd
      exact ⟨s.pairs, by omega, htable, hempty, a, hsa⟩
  · rw [hchildren]
    refine List.pairwise_append.2 ⟨h.inherited, List.pairwise_singleton _ _, ?_⟩
    intro d hd d' hd'
    obtain rfl := List.mem_singleton.1 hd'
    obtain ⟨pair, -, htable', -, fd, hfd⟩ := h.waiting d hd
    exact ⟨pair, fd, htable', by rw [hcopies fd (by simp [hfd]), hfd]⟩

/-- Destroying the workers closes nothing. -/
theorem foldl_destroy (workers : List Worker) (s : Kernel) :
    workers.foldl Worker.destroy s = s := by
  induction workers with
  | nil => rfl
  | cons w workers ih => exact ih

/-- **What the whole loop keeps**: it has spawned some workers when it throws, and all of them when it
does not. -/
theorem loop {n : ℕ} {r : Except String (List Worker)} (h : Spawned s₀ workers s)
    (hs : spawnLoop strerror n workers s script = some (r, rest, s')) :
    ∃ more, Spawned s₀ (workers ++ more) s' ∧
      ∀ ws, r = .ok ws → ws = workers ++ more ∧ more.length = n := by
  induction n generalizing workers s script with
  | zero =>
      cases hs
      refine ⟨[], by rwa [List.append_nil], ?_⟩
      intro ws hws
      cases hws
      exact ⟨(List.append_nil _).symm, rfl⟩
  | succ n ih =>
      rw [spawnLoop] at hs
      obtain ⟨⟨outcome, script₁, s₁⟩, hspawn, hs⟩ := Option.bind_eq_some_iff.1 hs
      cases outcome with
      | error what =>
          cases hs
          refine ⟨[], ?_, fun ws hws => by cases hws⟩
          rw [List.append_nil, foldl_destroy]
          exact h.error hspawn
      | ok worker =>
          obtain ⟨more, hmore, hall⟩ := ih (h.spawn hspawn) hs
          refine ⟨worker :: more, by rwa [List.append_assoc] at hmore, ?_⟩
          intro ws hws
          obtain ⟨rfl, hlen⟩ := hall ws hws
          exact ⟨List.append_assoc _ _ _, by rw [List.length_cons, hlen]⟩

/-- A worker that waits has not been told to stop, and does not see the end of its requests. -/
theorem not_released (h : Spawned s₀ workers s) {c : Child} (hc : c ∈ s.children) :
    ¬(c.ToldToStop s ∨ c.SeesEof s) := by
  obtain ⟨pair, -, htable, hunread, hfd⟩ := h.waiting c hc
  rintro (⟨pair', side, htable', hstop⟩ | ⟨pair', side, htable', -, hnot⟩)
  · obtain ⟨rfl, rfl⟩ := Description.socket.inj (Option.some.inj (htable.symm.trans htable'))
    rw [hunread] at hstop
    exact absurd (List.prefix_nil.1 hstop) (by decide)
  · obtain ⟨rfl, rfl⟩ := Description.socket.inj (Option.some.inj (htable.symm.trans htable'))
    exact hnot (Or.inl hfd)

/-- **Closing the ends of the parent is not enough**: a worker does not see the end of its requests as
long as one that has been spawned after it lives, which has copies of these ends. -/
theorem not_seesEof_of_later (h : Spawned s₀ workers s) {c d : Child}
    (hcd : List.Sublist [c, d] s.children) (table : ℕ → Option Description) :
    ¬c.SeesEof { s with parent := table } := by
  obtain ⟨pair, fd, htable, hfd⟩ := List.pairwise_iff_forall_sublist.1 h.inherited hcd
  rintro ⟨pair', side, htable', -, hnot⟩
  obtain ⟨rfl, rfl⟩ := Description.socket.inj (Option.some.inj (htable.symm.trans htable'))
  exact hnot (Or.inr ⟨d, hcd.subset (by simp), fd, hfd⟩)

/-- Something has leaked once a worker has been spawned. -/
theorem not_leaksNothing (h : Spawned s₀ workers s) (hne : workers ≠ []) : ¬LeaksNothing s₀ s := by
  intro hleaks
  obtain ⟨w, hw⟩ := List.exists_mem_of_ne_nil workers hne
  obtain ⟨hfree, hopen⟩ := h.opened w hw w.requestFd (by simp [Worker.descriptors])
  rw [hleaks.parent] at hopen
  exact hopen hfree

end Spawned

/-! ### The result -/

variable {s₀ : Kernel} {n : ℕ}

/-- A constructor whose first `SpawnWorker` has not failed has spawned workers when it throws. -/
theorem spawned_of_error {what : String} (hs₀ : s₀.children = [])
    (h : constructPool strerror n s₀ script = some (.error what, rest, s)) (hn : n ≠ 0)
    (hscript : ∀ errno, Reply.failed errno ∉ script.take 3) :
    ∃ workers, workers ≠ [] ∧ Spawned s₀ workers s := by
  obtain ⟨n, rfl⟩ := Nat.exists_eq_succ_of_ne_zero hn
  rw [constructPool, if_neg hn, spawnLoop] at h
  obtain ⟨⟨outcome, script₁, s₁⟩, hspawn, hloop⟩ := Option.bind_eq_some_iff.1 h
  cases outcome with
  | error what =>
      obtain ⟨-, -, -, errno, hfailed⟩ := spawnWorker_error hspawn
      exact absurd hfailed (hscript errno)
  | ok worker =>
      obtain ⟨more, hspawned, -⟩ := ((Spawned.initial hs₀).spawn hspawn).loop hloop
      exact ⟨_, by simp, hspawned⟩

/-- **A constructor that throws leaks nothing iff the first `SpawnWorker` has failed**, or no worker has
been asked for: for every number of workers, and wherever a system call fails. -/
theorem leaksNothing_iff {what : String} (hs₀ : s₀.children = [])
    (h : constructPool strerror n s₀ script = some (.error what, rest, s)) :
    LeaksNothing s₀ s ↔ n = 0 ∨ ∃ errno, Reply.failed errno ∈ script.take 3 := by
  constructor
  · intro hleaks
    by_contra hnot
    obtain ⟨hn, hscript⟩ := not_or.1 hnot
    obtain ⟨workers, hne, hspawned⟩ := spawned_of_error hs₀ h hn (not_exists.1 hscript)
    exact hspawned.not_leaksNothing hne hleaks
  · rintro (rfl | ⟨errno, hfailed⟩)
    · cases h
      exact ⟨rfl, by simp [hs₀]⟩
    · rw [constructPool] at h
      cases n with
      | zero =>
          cases h
          exact ⟨rfl, by simp [hs₀]⟩
      | succ n =>
          rw [if_neg (Nat.succ_ne_zero n), spawnLoop] at h
          obtain ⟨⟨outcome, script₁, s₁⟩, hspawn, hloop⟩ := Option.bind_eq_some_iff.1 h
          cases outcome with
          | error what =>
              cases hloop
              obtain ⟨hparent, hchildren, -, -⟩ := spawnWorker_error hspawn
              exact ⟨hparent, by simp [hchildren, hs₀]⟩
          | ok worker =>
              -- a `SpawnWorker` that returns has used three answers, none of them an error
              obtain ⟨a, b, p, q, pid, hscript, -⟩ := spawnWorker_ok hspawn
              simp [hscript] at hfailed

/-- **Otherwise every worker that has been forked goes on waiting**, and the parent has kept two
descriptors for each. -/
theorem orphans_of_error {what : String} (hs₀ : s₀.children = [])
    (h : constructPool strerror n s₀ script = some (.error what, rest, s)) (hn : n ≠ 0)
    (hscript : ∀ errno, Reply.failed errno ∉ script.take 3) :
    s.children ≠ [] ∧ (∀ c ∈ s.children, ¬(c.ToldToStop s ∨ c.SeesEof s)) ∧
      ∃ fds : List ℕ, fds.Nodup ∧ fds.length = 2 * s.children.length ∧
        ∀ fd ∈ fds, s₀.parent fd = none ∧ s.parent fd ≠ none := by
  obtain ⟨workers, hne, hspawned⟩ := spawned_of_error hs₀ h hn hscript
  have hlen := hspawned.length
  refine ⟨?_, fun c hc => hspawned.not_released hc, workers.flatMap Worker.descriptors, hspawned.nodup,
    ?_, ?_⟩
  · rw [← List.length_pos_iff, hlen]
    exact List.length_pos_iff.2 hne
  · rw [length_descriptors, hlen]
  · intro fd hfd
    obtain ⟨w, hw, hfd⟩ := List.mem_flatMap.1 hfd
    exact hspawned.opened w hw fd hfd

/-- The answers of a kernel that forks one worker, and whose second `fork` fails. -/
def secondForkFails : List Reply :=
  [.descriptors 3 4, .descriptors 5 6, .forked 100, .descriptors 4 6, .descriptors 7 8, .failed 11]

/-- A process that has nothing open, and no workers. -/
def Kernel.empty : Kernel :=
  { parent := fun _ => none, children := [], pairs := 0, unread := fun _ _ => [] }

/-- A single worker whose `fork` fails. -/
theorem leaksNothing_first_fork :
    ∃ rest s, constructPool (fun _ => "") 1 Kernel.empty
        [.descriptors 3 4, .descriptors 5 6, .failed 11] = some (.error "fork failed: ", rest, s) ∧
      LeaksNothing Kernel.empty s := by
  obtain ⟨rest, s, h⟩ : ∃ rest s, constructPool (fun _ => "") 1 Kernel.empty
      [.descriptors 3 4, .descriptors 5 6, .failed 11] = some (.error "fork failed: ", rest, s) :=
    ⟨_, _, rfl⟩
  exact ⟨rest, s, h, (leaksNothing_iff rfl h).2 (Or.inr ⟨11, by simp⟩)⟩

/-- Two workers, and the second `fork` fails: the first worker is left behind. -/
theorem leaks_second_fork :
    ¬∀ n script rest s what, constructPool (fun _ => "") n Kernel.empty script =
        some (.error what, rest, s) → LeaksNothing Kernel.empty s := by
  intro hall
  obtain ⟨rest, s, h⟩ : ∃ rest s, constructPool (fun _ => "") 2 Kernel.empty secondForkFails =
      some (.error "fork failed: ", rest, s) := ⟨_, _, rfl⟩
  have hleaks := hall 2 secondForkFails rest s _ h
  have hopen : s.parent 3 = some (.socket 0 .zero) := by
    obtain ⟨-, -, rfl⟩ := (Option.some_inj.1 h)
    rfl
  rw [hleaks.parent] at hopen
  cases hopen

/-! ### A constructor that returns -/

/-- A descriptor belongs to one worker. -/
theorem index_eq_of_mem {workers : List Worker} (h : (workers.flatMap Worker.descriptors).Nodup)
    {i j : ℕ} (hi : i < workers.length) (hj : j < workers.length) {fd : ℕ}
    (hfd : fd ∈ (workers[i]).descriptors) (hfd' : fd ∈ (workers[j]).descriptors) : i = j := by
  have hpair := List.pairwise_iff_getElem.1 (List.nodup_flatMap.1 h).2
  rcases Nat.lt_trichotomy i j with hlt | heq | hlt
  · exact absurd hfd' (hpair i j hi hj hlt hfd)
  · exact heq
  · exact absurd hfd (hpair j i hj hi hlt hfd')

/-- The worker that has a number in one of its fields. -/
def holder (fd : Fin n → ℕ) (z : ℤ) : Option (Fin n) :=
  (List.finRange n).find? fun i => (fd i : ℤ) = z

theorem holder_eq_none {fd : Fin n → ℕ} {z : ℤ} : holder fd z = none ↔ ∀ i, (fd i : ℤ) ≠ z := by
  simp [holder]

theorem holder_eq_some {fd : Fin n → ℕ} (hfd : Function.Injective fd) {z : ℤ} {i : Fin n} :
    holder fd z = some i ↔ (fd i : ℤ) = z := by
  constructor
  · intro h
    simpa using List.find?_some h
  · intro hi
    cases h : holder fd z with
    | none => exact absurd hi (holder_eq_none.1 h i)
    | some j =>
        have hj : (fd j : ℤ) = z := by simpa using List.find?_some h
        rw [hfd (Nat.cast_injective (hj.trans hi.symm) : fd j = fd i)]

/-- What a number stands for in a process with some workers: an end of a stream of a worker, another
file, or nothing. -/
def fileOf (w : Fin n → Worker) (table : ℕ → Option Description) (z : ℤ) : File n :=
  match holder (fun i => (w i).requestFd) z, holder (fun i => (w i).responseFd) z with
  | some i, _ => .request i
  | none, some i => .response i
  | none, none => if 0 ≤ z ∧ table z.toNat ≠ none then .other else .closed

/-- Each worker has two open descriptors, and no two workers have one in common. -/
structure Separate (w : Fin n → Worker) (table : ℕ → Option Description) : Prop where
  requestFd : Function.Injective fun i => (w i).requestFd
  responseFd : Function.Injective fun i => (w i).responseFd
  ne : ∀ i j, (w i).requestFd ≠ (w j).responseFd
  opened : ∀ i, table (w i).requestFd ≠ none ∧ table (w i).responseFd ≠ none

namespace Separate

variable {w : Fin n → Worker} {table : ℕ → Option Description} {z : ℤ} {i : Fin n}

theorem of_index (hopen : ∀ i, ∀ fd ∈ (w i).descriptors, table fd ≠ none)
    (hne : ∀ i, (w i).descriptors.Nodup)
    (hindex : ∀ i j fd, fd ∈ (w i).descriptors → fd ∈ (w j).descriptors → i = j) :
    Separate w table := by
  have hrequest : ∀ i, (w i).requestFd ∈ (w i).descriptors := fun i => List.mem_cons_self
  have hresponse : ∀ i, (w i).responseFd ∈ (w i).descriptors :=
    fun i => List.mem_cons_of_mem _ List.mem_cons_self
  refine ⟨?_, ?_, ?_, ?_⟩
  · intro i j (heq : (w i).requestFd = (w j).requestFd)
    exact hindex i j _ (hrequest i) (by rw [heq]; exact hrequest j)
  · intro i j (heq : (w i).responseFd = (w j).responseFd)
    exact hindex i j _ (hresponse i) (by rw [heq]; exact hresponse j)
  · intro i j heq
    obtain rfl := hindex i j _ (hrequest i) (by rw [heq]; exact hresponse j)
    have hnodup := hne i
    rw [Worker.descriptors, heq] at hnodup
    simp at hnodup
  · intro i
    exact ⟨hopen i _ (hrequest i), hopen i _ (hresponse i)⟩

theorem fileOf_eq_request (h : Separate w table) :
    fileOf w table z = .request i ↔ ((w i).requestFd : ℤ) = z := by
  rw [← holder_eq_some h.requestFd, fileOf]
  cases hreq : holder (fun i => (w i).requestFd) z with
  | some j => simp
  | none =>
      cases hres : holder (fun i => (w i).responseFd) z with
      | some j => simp
      | none =>
          simp only
          split_ifs <;> simp

theorem fileOf_eq_response (h : Separate w table) :
    fileOf w table z = .response i ↔ ((w i).responseFd : ℤ) = z := by
  rw [fileOf]
  cases hreq : holder (fun i => (w i).requestFd) z with
  | some j =>
      -- the number of a request stream is none of a response stream
      have hj := (holder_eq_some h.requestFd).1 hreq
      have hnot : ((w i).responseFd : ℤ) ≠ z := fun hi =>
        h.ne j i (Nat.cast_injective (hj.trans hi.symm))
      simp [hnot]
  | none =>
      rw [← holder_eq_some h.responseFd]
      cases hres : holder (fun i => (w i).responseFd) z with
      | some j => simp
      | none =>
          simp only
          split_ifs <;> simp

/-- A number stands for nothing iff it is negative, or not in use. -/
theorem fileOf_eq_closed (h : Separate w table) :
    fileOf w table z = .closed ↔ ¬(0 ≤ z ∧ table z.toNat ≠ none) := by
  rw [fileOf]
  cases hreq : holder (fun i => (w i).requestFd) z with
  | some j =>
      obtain rfl := (holder_eq_some h.requestFd).1 hreq
      simp [(h.opened j).1]
  | none =>
      cases hres : holder (fun i => (w i).responseFd) z with
      | some j =>
          obtain rfl := (holder_eq_some h.responseFd).1 hres
          simp [(h.opened j).2]
      | none =>
          simp only
          split_ifs with hopen <;> simp [hopen]

end Separate

/-- **A constructor that returns leaves the descriptors as the pool needs them**: it has the workers that
it has been asked for, each with two open descriptors of its own. -/
theorem exists_initial {τ θ : Type*} (P : Program τ) {workers : List Worker} (hs₀ : s₀.children = [])
    (h : constructPool strerror n s₀ script = some (.ok workers, rest, s)) :
    ∃ (hlen : workers.length = n) (d : Descriptors P n θ), d.Initial ∧
      (∀ i : Fin n, d.requestFd i = (workers.get (i.cast hlen.symm)).requestFd ∧
        d.responseFd i = (workers.get (i.cast hlen.symm)).responseFd) ∧
      ∀ fd : ℕ, d.file fd = .closed ↔ s.parent fd = none := by
  have hn : n ≠ 0 := by
    rintro rfl
    cases h
  rw [constructPool, if_neg hn] at h
  obtain ⟨more, hspawned, hall⟩ := (Spawned.initial hs₀).loop h
  obtain ⟨rfl, hlen⟩ := hall workers rfl
  rw [List.nil_append] at hspawned
  refine ⟨hlen, ?_⟩
  have hmem : ∀ i : Fin n, workers.get (i.cast hlen.symm) ∈ workers := fun i => List.get_mem _ _
  have hseparate : Separate (fun i => workers.get (i.cast hlen.symm)) s.parent :=
    Separate.of_index (fun i fd hfd => (hspawned.opened _ (hmem i) fd hfd).2)
      (fun i => (List.nodup_flatMap.1 hspawned.nodup).1 _ (hmem i))
      fun i j fd hi hj => Fin.ext (index_eq_of_mem hspawned.nodup _ _ hi hj)
  refine ⟨⟨State.initial, fun i => (workers.get (i.cast hlen.symm)).requestFd,
      fun i => (workers.get (i.cast hlen.symm)).responseFd, fileOf _ s.parent, fun _ => none, none, []⟩,
    ⟨rfl, fun _ _ => hseparate.fileOf_eq_request, fun _ _ => hseparate.fileOf_eq_response, ?_,
      fun _ => rfl, rfl, rfl⟩, fun _ => ⟨rfl, rfl⟩, ?_⟩
  · intro z hz
    by_contra hneg
    exact hz (hseparate.fileOf_eq_closed.2 fun hopen => hneg hopen.1)
  · intro fd
    have hclosed := hseparate.fileOf_eq_closed (z := fd)
    rw [Int.toNat_natCast] at hclosed
    exact hclosed.trans ⟨fun hnot => by_contra fun hne => hnot ⟨Int.natCast_nonneg fd, hne⟩,
      fun hnone hopen => hopen.2 hnone⟩

end ProcessPool
