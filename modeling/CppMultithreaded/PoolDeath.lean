/-
**What a dead worker leaves behind.**

When a worker dies, its reader gets the rest of the bytes in the stream, sees the end of it, and
returns.  The reader has completed every `Future` whose response had been written completely by then.  It
does nothing about the other tasks that had been sent to the worker: the map of the pending handlers does
not say which worker a task went to, and their handlers stay in it until `Shutdown` fails them.

Main definitions:

* `ProcessPool.Link.missing`, `ProcessPool.Link.Cut` — the bytes of a response that are not in the
  stream, and the response that lacks them;
* `ProcessPool.Link.Closing` — only the last response lacks bytes, and a reader that has ended has left
  nothing else;
* `ProcessPool.Routing.Heard` — a response that has been looked up has found its handler;
* `ProcessPool.State.Responded` — a worker has written the response to a task completely.

Main results:

* `ProcessPool.Link.Closing.step`, `ProcessPool.Routing.Heard.step` — every step keeps the invariants;
* `ProcessPool.reader_returned` — **what the `Future`s of a worker hold when its reader has returned**;
* `ProcessPool.dead_worker_leaves_future` — a `Future` that is left waiting.
-/

import CppMultithreaded.PoolGraceful

set_option relaxedAutoImplicit false
set_option autoImplicit false

namespace ProcessPool

variable {τ θ : Type*} {P : Program τ} {n : ℕ}

/-! ### The end of the responses -/

/-- The bytes of the responses that have begun and are not in the stream. -/
def Link.missing (l : Link P θ) : List UInt8 := l.worker.unsent ++ l.lost

/-- The response has not been written completely: it is the last one that has begun, and bytes of it are
missing. -/
def Link.Cut (l : Link P θ) (r : Response) : Prop := l.responses.getLast? = some r ∧ l.missing ≠ []

/-- The bytes that are missing are those of the last response, and a reader that has ended has taken
every response that has been written completely. -/
structure Link.Closing (l : Link P θ) : Prop where
  last : l.missing ≠ [] → ∃ rs r, l.responses = rs ++ [r] ∧
    l.missing.length ≤ (responseFraming.stream [r]).length
  ended : l.reader = .ended → l.worker.responseOpen = false ∧ ∀ r ∈ l.responses, l.Cut r

section Link

variable {l l' : Link P θ}

/-- A worker that asks for bytes has nothing to write, before and after it gets them. -/
theorem WorkerPc.unsent_receive {p : WorkerPc} (chunk : List UInt8) (h : 0 < p.wants) :
    p.unsent = [] ∧ (p.receive chunk).unsent = [] ∧ p.responseOpen = true := by
  cases p with
  | readHeader got =>
      refine ⟨rfl, ?_, rfl⟩
      simp only [receive, afterHeader]
      split_ifs <;> rfl
  | readPayload header got =>
      refine ⟨rfl, ?_, rfl⟩
      simp only [receive]
      split_ifs <;> rfl
  | _ => simp [wants] at h

theorem WorkerPc.unsent_next {p p' : WorkerPc} (h : p.next = some p') :
    p.unsent = [] ∧ p'.unsent = [] ∧ (p.responseOpen = false → p'.responseOpen = false) := by
  cases p <;> simp only [next, Option.some.injEq, reduceCtorEq] at h
  all_goals
    subst h
    simp [unsent, responseOpen]

/-- What a step of a link does to the responses in flight: one begins, the reader takes the first of
them, or some bytes of the last one are written; the reader ends when the stream has ended. -/
inductive Link.ResponseStep (l l' : Link P θ) : Prop
  | begin (r : Response) : l.worker.got.isSome = true → l'.responses = l.responses ++ [r] →
      l'.missing = responseFraming.stream [r] → l'.reader = l.reader → ResponseStep l l'
  | take (header payload : List UInt8) : l.reader = .lookup header payload →
      l'.responses = l.responses.tail → l'.missing = l.missing → l'.reader ≠ .ended →
      ResponseStep l l'
  | write (chunk : List UInt8) : l.worker.got.isSome = true → l'.responses = l.responses →
      l.missing = chunk ++ l'.missing → l'.reader = l.reader → ResponseStep l l'
  | keep : l'.responses = l.responses → l'.missing = l.missing →
      (l.worker.responseOpen = false → l'.worker.responseOpen = false) →
      (l'.reader = .ended → l.reader = .ended) → ResponseStep l l'
  | eof : 0 < l.reader.wants → l.response = [] → l.worker.responseOpen = false →
      l' = { l with reader := .ended } → ResponseStep l l'

theorem Link.responseStep_of_effect (hf : l.Framed) {a : LinkAction P θ} (he : LinkEffect l a l') :
    l.ResponseStep l' := by
  cases he with
  | readStop k hpos hwants hclose =>
      obtain ⟨hbefore, -, hopen⟩ := WorkerPc.unsent_receive [] (hpos.trans_le hwants)
      exact .keep rfl (by rw [missing, missing, hbefore]; rfl) (by simp [hopen]) id
  | readRequest k hpos hwants _ =>
      obtain ⟨hbefore, hafter, hopen⟩ :=
        WorkerPc.unsent_receive (l.request.take k) (hpos.trans_le hwants)
      exact .keep rfl (by rw [missing, missing, hbefore, hafter]) (by simp [hopen]) id
  | requestEof hwants _ _ =>
      obtain ⟨hbefore, -, hopen⟩ := WorkerPc.unsent_receive [] hwants
      exact .keep rfl (by rw [missing, missing, hbefore]; rfl) (by simp [hopen]) id
  | execute outcome header payload l' hw hexec =>
      obtain rfl | ⟨t, -, -, rfl⟩ := execute_cases hexec
      · exact .keep rfl (by simp [missing, kill, hw, WorkerPc.unsent]) (fun _ => rfl) id
      · have hlost : l.lost = [] := hf.lost (by rw [hw]; rfl)
        refine .begin _ (by rw [hw]; rfl) rfl ?_ rfl
        simp only [missing, reply, take, WorkerPc.unsent, hlost, List.append_nil, flatten_buffers]
        rw [Framing.stream_singleton]
        rfl
  | crash header payload hw =>
      exact .keep rfl (by simp [missing, kill, take, hw, WorkerPc.unsent]) (fun _ => rfl) id
  | writeResponse k todo todo' chunk hw hsome =>
      have hchunk := Framing.flatten_writeSome hsome
      refine .write chunk (by rw [hw]; rfl) rfl ?_ rfl
      simp only [missing, hw, WorkerPc.unsent]
      split_ifs with hnil
      · rw [hnil, List.flatten_nil, List.append_nil] at hchunk
        rw [hchunk]
        rfl
      · simp only
        rw [← hchunk, List.append_assoc]
  | responseFails todo hw _ =>
      refine .keep rfl (by simp [missing, hw, WorkerPc.unsent]) ?_ id
      simp [hw, WorkerPc.responseOpen]
  | leave p hp =>
      obtain ⟨hbefore, hafter, hclosed⟩ := WorkerPc.unsent_next hp
      exact .keep rfl (by simp [missing, hbefore, hafter]) hclosed id
  | die => exact .keep rfl (by simp [missing, kill, WorkerPc.unsent]) (fun _ => rfl) id
  | readResponse k hpos hwants =>
      refine .keep rfl rfl id ?_
      intro hended
      exact absurd hended (Orderly.receive_ne_ended (hpos.trans_le hwants))
  | responseEof hwants hempty hclosed => exact .eof hwants hempty hclosed rfl
  | lookupNone header payload hr => exact .take header payload hr rfl rfl (by simp)
  | lookupSome header payload pending hr => exact .take header payload hr rfl rfl (by simp)
  | complete header payload taskId pending hr => exact .keep rfl rfl id (by simp)
  | _ => exact .keep rfl rfl id id

/-- A reader that asks for bytes has less than the first response in flight. -/
theorem Link.Framed.got_lt (hf : l.Framed) (hwants : 0 < l.reader.wants) {r : Response}
    {rs : List Response} (hresponses : l.responses = r :: rs) :
    ∃ got, l.reader.got = some got ∧ got.length < (responseFraming.stream [r]).length := by
  have hsized := hf.readerSized
  have hframe : (responseFraming.stream [r]).length = resultHeaderSize + r.payload.length := by
    rw [Framing.stream_singleton, List.length_append, responseFraming.length_header]
    rfl
  rw [hframe]
  cases hr : l.reader with
  | readHeader got =>
      rw [hr] at hsized
      have hlt : got.length < resultHeaderSize := hsized
      exact ⟨got, rfl, by omega⟩
  | readPayload header got =>
      rw [hr] at hsized
      obtain ⟨hheader, hgot⟩ := hsized
      have hstream := hf.response (header ++ got) (by rw [hr]; rfl)
      rw [hresponses, List.append_assoc] at hstream
      obtain ⟨r', rs', heq, rfl, -⟩ := Framing.stream_header hstream hheader
      obtain ⟨rfl, -⟩ := List.cons.inj heq
      have hsize := responseFraming.payloadSize_header r
        (hf.responsesValid r (by rw [hresponses]; exact List.mem_cons_self))
      rw [show (ResultHeader.ofBytes (responseFraming.header r)).payloadSize = r.payload.length
        from hsize] at hgot
      refine ⟨_, rfl, ?_⟩
      rw [List.length_append, hheader]
      omega
  | _ => simp [hr, ReaderPc.wants] at hwants

namespace Link.Closing

/-- **At the end of the stream every response that is left has been cut.** -/
theorem cut_of_eof (h : l.Closing) (hf : l.Framed) (hwants : 0 < l.reader.wants)
    (hempty : l.response = []) (hclosed : l.worker.responseOpen = false) :
    ∀ r ∈ l.responses, l.Cut r := by
  intro r hr
  have hmissing : l.missing ≠ [] := by
    intro hnil
    have hlost := (List.append_eq_nil_iff.1 hnil).2
    rw [hf.of_ended hwants hempty hclosed hlost] at hr
    simp at hr
  obtain ⟨rs, r', hresponses, hle⟩ := h.last hmissing
  refine ⟨?_, hmissing⟩
  cases rs with
  | nil =>
      rw [hresponses] at hr ⊢
      rw [List.mem_singleton.1 hr]
      rfl
  | cons r'' rs =>
      -- the reader would have the first response completely
      obtain ⟨got, hgot, hlt⟩ := hf.got_lt hwants hresponses
      have hstream := congrArg List.length (hf.response got hgot)
      rw [hempty, List.nil_append, hresponses, Framing.stream_append, ← List.singleton_append,
        Framing.stream_append] at hstream
      simp only [List.length_append] at hstream
      simp only [missing, List.length_append] at hle
      omega

/-- **Every step keeps the end of the responses.** -/
theorem step (h : l.Closing) (hf : l.Framed) {a : LinkAction P θ} (he : LinkEffect l a l') :
    l'.Closing := by
  have hnot : l.worker.got.isSome = true → l'.reader = l.reader → l'.reader ≠ .ended := by
    intro hgot hreader hended
    have hopen := (Orderly.open_of_got hgot).2
    rw [(h.ended (hreader.symm.trans hended)).1] at hopen
    simp at hopen
  cases responseStep_of_effect hf he with
  | begin r hgot hresponses hmissing hreader =>
      refine ⟨fun _ => ⟨l.responses, r, hresponses, by rw [hmissing]⟩, ?_⟩
      exact fun hended => absurd hended (hnot hgot hreader)
  | take header payload hr hresponses hmissing hne =>
      refine ⟨?_, fun hended => absurd hended hne⟩
      intro hmiss
      rw [hmissing] at hmiss ⊢
      obtain ⟨rs, r, hlast, hle⟩ := h.last hmiss
      refine ⟨rs.tail, r, ?_, hle⟩
      cases rs with
      | nil =>
          -- the response that is looked up is in the stream completely
          obtain ⟨r', rest, hfirst, -, -, hstream⟩ := hf.of_lookup hr
          rw [hlast] at hfirst
          obtain ⟨-, rfl⟩ := List.cons.inj hfirst
          exact absurd (List.append_eq_nil_iff.1 hstream).2 hmiss
      | cons r' rs =>
          rw [hresponses, hlast]
          rfl
  | write chunk hgot hresponses hmissing hreader =>
      refine ⟨?_, fun hended => absurd hended (hnot hgot hreader)⟩
      intro hmiss
      obtain ⟨rs, r, hlast, hle⟩ := h.last (by
        rw [hmissing]
        exact List.append_ne_nil_of_right_ne_nil chunk hmiss)
      rw [hmissing, List.length_append] at hle
      exact ⟨rs, r, hresponses.trans hlast, by omega⟩
  | keep hresponses hmissing hclosed hreader =>
      have hcut : ∀ r, l.Cut r → l'.Cut r := by
        intro r hr
        rw [Cut, hresponses, hmissing]
        exact hr
      refine ⟨?_, ?_⟩
      · rw [hresponses, hmissing]
        exact h.last
      · intro hended
        obtain ⟨hopen, hall⟩ := h.ended (hreader hended)
        rw [hresponses]
        exact ⟨hclosed hopen, fun r hr => hcut r (hall r hr)⟩
  | eof hwants hempty hclosed heq =>
      have hall := h.cut_of_eof hf hwants hempty hclosed
      subst heq
      exact ⟨h.last, fun _ => ⟨hclosed, hall⟩⟩

theorem initial : (Link.initial : Link P θ).Closing :=
  ⟨by simp [Link.initial, missing, WorkerPc.unsent], by simp [Link.initial]⟩

end Link.Closing

end Link

/-! ### Requests that have been written -/

/-- A request that is written, or has been, has been begun. -/
def Link.Posted (l : Link P θ) : Prop :=
  ∀ f, (f ∈ l.written ∨ ∃ o todo, l.writeMutex = some (o, f, todo)) → f ∈ l.begun

theorem Link.Posted.step {l l' : Link P θ} (h : l.Posted) {a : LinkAction P θ}
    (he : LinkEffect l a l') : l'.Posted := by
  intro f hf
  rw [begun_of_effect he]
  cases he with
  | lock o g hm =>
      rcases hf with hwritten | ⟨o', todo, hmutex⟩
      · exact List.mem_append_left _ (h f (Or.inl hwritten))
      · obtain ⟨-, rfl, -⟩ := Prod.mk.inj (Option.some.inj hmutex)
        exact List.mem_append_right _ (List.mem_singleton_self _)
  | write o k g todo todo' chunk hm _ _ =>
      refine List.mem_append_left _ ?_
      rcases hf with hwritten | ⟨o', todo'', hmutex⟩
      · simp only at hwritten
        split_ifs at hwritten
        · rcases List.mem_append.1 hwritten with hold | hnew
          · exact h f (Or.inl hold)
          · rw [List.mem_singleton.1 hnew]
            exact h g (Or.inr ⟨o, todo, hm⟩)
        · exact h f (Or.inl hwritten)
      · obtain ⟨-, rfl, -⟩ := Prod.mk.inj (Option.some.inj hmutex)
        exact h f (Or.inr ⟨o, todo, hm⟩)
  | writeFails o g todo _ _ _ =>
      refine List.mem_append_left _ (h f (Or.inl ?_))
      exact hf.resolve_right (by simp)
  | unlock o g _ =>
      refine List.mem_append_left _ (h f (Or.inl ?_))
      exact hf.resolve_right (by simp)
  | execute outcome header payload _ _ hexec =>
      obtain ⟨-, hwritten, hmutex, -⟩ := begun_execute hexec
      rw [hwritten, hmutex] at hf
      exact List.mem_append_left _ (h f hf)
  | _ => exact List.mem_append_left _ (h f hf)

/-! ### Handlers and responses -/

/-- The pending handler has been taken by a reader. -/
def Place.seen : Place n → Bool
  | .reader _ | .completed => true
  | _ => false

/-- **A response that has been looked up has found its handler**, and no other handler is taken by a
reader. -/
structure Routing.Heard (R : Routing P n θ) : Prop where
  of_seen : ∀ i, (R.place i).seen = true → R.stage i = .closed
  closed : ∀ e ∈ R.executed, e.response.isSome = true → R.stage e.taskId = .closed →
    R.place e.taskId = .reader e.worker ∨ R.place e.taskId = .completed

namespace Routing.Heard

variable [DecidableEq θ] {R R' : Routing P n θ}

omit [DecidableEq θ] in
/-- A task that is not closed goes on to another stage. -/
theorem move (h : R.Heard) {taskId : ℕ} {a b : Stage n θ} (ha : R.stage taskId = a)
    (hne : a ≠ .closed) :
    ∀ i, (R.place i).seen = true → Function.update R.stage taskId b i = .closed := by
  intro i hi
  exact update_of_apply_ne (h.of_seen i hi) ha hne.symm

omit [DecidableEq θ] in
theorem record (h : R.Heard) (hsent : R.Sent) {e : Execution n}
    (hstage : R.stage e.taskId = .sent e.worker) (runs : Fin n → List (ℕ × Job P))
    (responses : Fin n → List Response) :
    Heard { R with toLedger := R.record e, runs := runs, responses := responses } := by
  refine ⟨h.move hstage (by simp), ?_⟩
  intro e' he' hsome hclosed
  rcases List.mem_append.1 he' with hold | hnew
  · have hne : e'.taskId ≠ e.taskId := by
      intro heq
      rcases hsent.of_executed e' hold with hi | hi
      · rw [heq, hstage] at hi
        simp at hi
      · rw [heq, hstage] at hi
        simp at hi
    simp only [Ledger.record, Function.update_of_ne hne] at hclosed
    exact h.closed e' hold hsome hclosed
  · rw [List.mem_singleton.1 hnew] at hsome hclosed
    simp [Ledger.record, hsome] at hclosed

omit [DecidableEq θ] in
theorem lookup (h : R.Heard) (hsent : R.Sent) (hfaithful : R.Faithful) {w : Fin n} {r : Response}
    {rest : List Response} {handler : Fin n → Option Handler} (hresponses : R.responses w = r :: rest)
    (hfound : (R.pending.lookup r.taskId).isSome = true) :
    Heard { R with
      toLedger := R.lookup w r.taskId
      responses := Function.update R.responses w rest
      handler := handler } := by
  have hplace : (R.lookup w r.taskId).place = Function.update R.place r.taskId (.reader w) := by
    simp only [Ledger.lookup, hfound, if_true]
  refine ⟨?_, ?_⟩
  · intro i hi
    simp only [Ledger.lookup]
    rcases eq_or_ne i r.taskId with rfl | hne
    · exact Function.update_self _ _ _
    · simp only [hplace, Function.update_of_ne hne] at hi ⊢
      exact h.of_seen i hi
  · intro e he hsome hclosed
    simp only [hplace]
    rcases eq_or_ne e.taskId r.taskId with heq | hne
    · -- the execution that the response comes from is the only one
      obtain ⟨e', he', hw, hid, -⟩ := hfaithful.responses w r
        (by rw [hresponses]; exact List.mem_cons_self)
      obtain rfl := List.inj_on_of_nodup_map hsent.executed_nodup he' he (hid.trans heq.symm)
      rw [heq, Function.update_self, hw]
      exact Or.inl rfl
    · simp only [Ledger.lookup, Function.update_of_ne hne] at hclosed ⊢
      exact h.closed e he hsome hclosed

/-- **Every step keeps what the readers have heard.** -/
theorem step (h : R.Heard) (hsent : R.Sent) (hp : R.Placed) (hfaithful : R.Faithful)
    (hs : R.Step R') (hwaiting : ∀ w r rest, R.responses w = r :: rest → R'.responses w = rest →
      R.place r.taskId = .pending) : R'.Heard := by
  cases hs with
  | fetchTaskId t job state _ _ =>
      refine ⟨h.move (hsent.stage_lt _ le_rfl) (by simp), ?_⟩
      intro e he hsome hclosed
      exact h.closed e he hsome (of_update_apply_ne hclosed (by simp)).1
  | insertPending t job state taskId ht =>
      have habsent := hp.of_insert t job state taskId ht
      refine ⟨?_, ?_⟩
      · intro i hi
        simp only [Ledger.insertPending] at hi ⊢
        rcases eq_or_ne i taskId with rfl | hne
        · rw [Function.update_self] at hi
          simp [Place.seen] at hi
        · rw [Function.update_of_ne hne] at hi
          exact h.of_seen i hi
      · intro e he hsome hclosed
        rcases h.closed e he hsome hclosed with hplace | hplace
        · exact Or.inl (update_of_apply_ne hplace habsent (by simp))
        · exact Or.inr (update_of_apply_ne hplace habsent (by simp))
  | send t job state taskId w ht =>
      refine ⟨h.move (hsent.of_thread t taskId (by rw [ht]; rfl)) (by simp), ?_⟩
      intro e he hsome hclosed
      exact h.closed e he hsome (of_update_apply_ne hclosed (by simp)).1
  | execute w taskId job rest outcome hruns _ =>
      exact h.record hsent (e := Execution.ofTask w taskId job outcome)
        (hsent.of_runs w taskId job (by rw [hruns]; exact List.mem_cons_self)).1 _ _
  | crash w taskId job rest hruns =>
      exact h.record hsent (e := Execution.crashed w taskId job)
        (hsent.of_runs w taskId job (by rw [hruns]; exact List.mem_cons_self)).1 _ _
  | lookup w r rest hresponses _ =>
      -- a response in flight is waited for, so its handler is in the map
      obtain ⟨p, hfound⟩ := hp.of_pending _
        (hwaiting w r rest hresponses (Function.update_self _ _ _))
      exact h.lookup hsent hfaithful hresponses (by rw [hfound]; rfl)
  | complete w handler hw =>
      have hreader := (hp.handler w handler hw).1
      refine ⟨?_, ?_⟩
      · intro i hi
        simp only [Ledger.complete] at hi ⊢
        rcases eq_or_ne i handler.taskId with rfl | hne
        · exact h.of_seen _ (by rw [hreader]; rfl)
        · rw [Function.update_of_ne hne] at hi
          exact h.of_seen i hi
      · intro e he hsome hclosed
        simp only [Ledger.complete]
        rcases eq_or_ne e.taskId handler.taskId with heq | hne
        · rw [heq]
          exact Or.inr (Function.update_self _ _ _)
        · rw [Function.update_of_ne hne]
          exact h.closed e he hsome hclosed
  | drain _ =>
      refine ⟨?_, ?_⟩
      · intro i hi
        simp only [Ledger.drain] at hi ⊢
        split_ifs at hi
        · simp [Place.seen] at hi
        · exact h.of_seen i hi
      · intro e he hsome hclosed
        simp only [Ledger.drain]
        rcases h.closed e he hsome hclosed with hplace | hplace
        · exact Or.inl (by rw [hplace, if_neg (by simp)])
        · exact Or.inr (by rw [hplace, if_neg (by simp)])
  | fail taskId p hlookup _ =>
      have hdraining := (hp.draining taskId p hlookup).1
      refine ⟨?_, ?_⟩
      · intro i hi
        simp only [Ledger.fail] at hi ⊢
        rcases eq_or_ne i taskId with rfl | hne
        · rw [Function.update_self] at hi
          simp [Place.seen] at hi
        · rw [Function.update_of_ne hne] at hi
          exact h.of_seen i hi
      · intro e he hsome hclosed
        rcases h.closed e he hsome hclosed with hplace | hplace
        · exact Or.inl (update_of_apply_ne hplace hdraining (by simp))
        · exact Or.inr (update_of_apply_ne hplace hdraining (by simp))
  | _ => exact ⟨h.of_seen, h.closed⟩

end Routing.Heard

/-! ### The invariants -/

/-- **The invariants of a pool whose workers may die.** -/
structure State.Mortal (s : State P n θ) : Prop where
  closing : ∀ w, (s.link w).Closing
  posted : ∀ w, (s.link w).Posted
  waiting : s.shutdown.swapped = false → s.routing.Waiting
  heard : s.routing.Heard
  /-- What a worker has taken it has begun to execute. -/
  taken : ∀ w, ∀ x ∈ (s.link w).takenRuns, ∃ e ∈ s.executed, e.worker = w ∧ e.taskId = x.1
  /-- Only `Shutdown` fails handlers, once it has swapped the map. -/
  failed : s.shutdown.swapped = false → s.failed = []

section Reachable

variable [DecidableEq θ] [NeZero n]

omit [DecidableEq θ] [NeZero n] in
/-- A reader that has ended takes no response. -/
theorem responses_of_ended {l l' : Link P θ} (h : l.Closing) (hf : l.Framed)
    (hended : l.reader = .ended) {a : LinkAction P θ} (he : LinkEffect l a l') :
    l'.responses = l.responses := by
  have hnot : l.worker.got.isSome ≠ true := by
    intro hgot
    have hopen := (Link.Orderly.open_of_got hgot).2
    rw [(h.ended hended).1] at hopen
    simp at hopen
  cases Link.responseStep_of_effect hf he with
  | begin r hgot _ _ _ => exact absurd hgot hnot
  | take header payload hr _ _ _ => simp [hended] at hr
  | write chunk _ hresponses _ _ => exact hresponses
  | keep hresponses _ _ _ => exact hresponses
  | eof _ _ _ heq => rw [heq]

/-- **Every step keeps the invariants.** -/
theorem State.Mortal.step {s s' : State P n θ} {a : Action P n θ} (h : s.Mortal) (hsound : s.Sound)
    (hdrained : s.Drained) (hwrap : a.noWrap s = true) (he : Effect s a s') : s'.Mortal := by
  have hopen : s'.shutdown.swapped = false → s.shutdown.swapped = false := by
    intro hs'
    by_contra hs
    rw [swapped_mono hsound (by simpa using hs) he] at hs'
    simp at hs'
  have hwaiting : ∀ w r rest, s.routing.responses w = r :: rest → s'.routing.responses w = rest →
      s.routing.place r.taskId = .pending := by
    intro w r rest hresponses hrest
    cases hs : s.shutdown.swapped with
    | false =>
        exact (h.waiting hs).of_answered _ w (hsound.sent.of_responses w r
          (by rw [hresponses]; exact List.mem_cons_self))
    | true =>
        -- the readers have been joined, and look up nothing any more
        have hjoined : s.shutdown.joined w := by
          cases hpc : s.shutdown <;> simp [hpc, ShutdownPc.swapped, ShutdownPc.joined] at hs ⊢
        have hsame : s'.routing.responses w = s.routing.responses w := by
          rcases he.link w with heq | ⟨b, -, hl⟩
          · simp only [State.routing, heq]
          · exact responses_of_ended (h.closing w) (hsound.framed w) (hdrained.joined w hjoined) hl
        rw [hsame, hresponses] at hrest
        exact absurd hrest (List.cons_ne_self _ _)
  refine ⟨?_, ?_, ?_, ?_, ?_, ?_⟩
  · intro w
    rcases he.link w with heq | ⟨b, -, hl⟩
    · rw [heq]
      exact h.closing w
    · exact (h.closing w).step (hsound.framed w) hl
  · intro w
    rcases he.link w with heq | ⟨b, -, hl⟩
    · rw [heq]
      exact h.posted w
    · exact (h.posted w).step hl
  · intro hs'
    have hold := h.waiting (hopen hs')
    rcases State.routing_step hsound.framed hsound.idle hwrap he with hsame | hmove
    · rw [hsame]
      exact hold
    · exact hold.step hsound.sent hsound.placed hmove hs'
  · rcases State.routing_step hsound.framed hsound.idle hwrap he with hsame | hmove
    · rw [hsame]
      exact h.heard
    · exact h.heard.step hsound.sent hsound.placed hsound.faithful hmove hwaiting
  · obtain ⟨hsub, -⟩ := executed_of_effect hsound he
    intro w x hx
    rcases taken_of_effect hsound he hx with hold | ⟨-, -, ⟨outcome, hmem⟩ | hmem⟩
    · obtain ⟨e, hmem, hrest⟩ := h.taken w x hold
      exact ⟨e, hsub hmem, hrest⟩
    · exact ⟨_, hmem, rfl, rfl⟩
    · exact ⟨_, hmem, rfl, rfl⟩
  · intro hs'
    have hnil := h.failed (hopen hs')
    cases he with
    | failPending taskId p temp _ _ => simp [ShutdownPc.swapped] at hs'
    | _ => exact hnil

omit [DecidableEq θ] [NeZero n] in
theorem mortal_initial : (State.initial : State P n θ).Mortal := by
  refine ⟨fun _ => Link.Closing.initial, ?_, fun _ => ?_, ⟨?_, ?_⟩, ?_, fun _ => rfl⟩
  · intro w f hf
    simp [State.initial, Link.initial] at hf
  · constructor <;> simp [State.initial, State.routing, Ledger.initial, SubmitPc.waits]
  · simp [State.initial, State.routing, Ledger.initial, Place.seen]
  · simp [State.initial, State.routing, Ledger.initial]
  · simp [State.initial, Link.initial, Link.takenRuns]

theorem mortal_of_reachable {s : State P n θ} (h : (pool P n θ).Reachable s) : s.Mortal := by
  refine Automaton.Reachable.invariant ?_ ?_ h
  · intro s hs
    rw [show s = State.initial from hs]
    exact mortal_initial
  · intro s a s' hr hmortal hs
    obtain ⟨hwrap, hs⟩ := Automaton.restrict_step_eq_some.1 hs
    exact hmortal.step (sound_of_reachable hr) (drained_of_reachable hr) hwrap (effect_of_step hs)

/-! ### When a reader has returned -/

omit [DecidableEq θ] [NeZero n] in
/-- A task whose request was written to a worker is executed by this worker only. -/
theorem State.Mortal.worker_eq {s : State P n θ} (h : s.Mortal) (hsound : s.Sound) {w : Fin n} {i : ℕ}
    {job : Job P} (hw : Frame.run i job ∈ (s.link w).written) {e : Execution n}
    (he : e ∈ s.executed) (hid : e.taskId = i) : e.worker = w := by
  rcases List.mem_append.1 (h.posted w _ (Or.inl hw)) with htaken | hrequest
  · obtain ⟨e', he', hworker, hid'⟩ :=
      h.taken w (i, job) (List.mem_filterMap.2 ⟨_, htaken, rfl⟩)
    obtain rfl := List.inj_on_of_nodup_map hsound.sent.executed_nodup he' he (hid'.trans hid.symm)
    exact hworker
  · obtain ⟨hsent, -⟩ := hsound.sent.of_runs w i job (List.mem_filterMap.2 ⟨_, hrequest, rfl⟩)
    rw [← hid] at hsent
    rcases hsound.sent.of_executed e he with hstage | hstage
    · rw [hsent] at hstage
      simp at hstage
    · rw [hsent] at hstage
      simp at hstage

/-- The worker has written the response to the task completely. -/
def State.Responded (s : State P n θ) (w : Fin n) (i : ℕ) : Prop :=
  ∃ e ∈ s.executed, ∃ r, e.worker = w ∧ e.taskId = i ∧ e.response = some r ∧ ¬ (s.link w).Cut r

/-- A response that has been written completely has been seen by the reader, when that has returned. -/
theorem completed_of_responded {s : State P n θ} (h : (pool P n θ).Reachable s) {w : Fin n}
    (hended : (s.link w).reader = .ended) {i : ℕ} (hi : s.Responded w i) :
    s.place i = .completed := by
  have hsound := sound_of_reachable h
  have hmortal := mortal_of_reachable h
  obtain ⟨e, he, r, rfl, rfl, hresponse, hcut⟩ := hi
  have hclosed : s.stage e.taskId = .closed := by
    refine (hsound.sent.of_executed e he).resolve_left ?_
    intro hanswered
    -- what is left in the stream has been cut
    obtain ⟨r', hr', hid⟩ := hsound.sent.of_answered _ _ hanswered
    obtain ⟨e', he', -, hid', hresponse'⟩ := hsound.faithful.responses e.worker r' hr'
    obtain rfl := List.inj_on_of_nodup_map hsound.sent.executed_nodup he' he (hid'.trans hid)
    obtain rfl := Option.some.inj (hresponse'.symm.trans hresponse)
    exact hcut (((hmortal.closing _).ended hended).2 r' hr')
  rcases hmortal.heard.closed e he (by rw [hresponse]; rfl) hclosed with hplace | hplace
  · obtain ⟨handler, hhandler, -⟩ := hsound.placed.of_reader _ _ hplace
    simp [State.routing, Link.handler, hended] at hhandler
  · exact hplace

/-- A handler that a reader has called has been called with a complete response. -/
theorem responded_of_completed {s : State P n θ} (h : (pool P n θ).Reachable s) {w : Fin n} {i : ℕ}
    {job : Job P} (hw : Frame.run i job ∈ (s.link w).written) (hplace : s.place i = .completed) :
    s.Responded w i := by
  have hsound := sound_of_reachable h
  have hmortal := mortal_of_reachable h
  obtain ⟨c, hc, rfl⟩ := hsound.settled.of_completed i hplace
  obtain ⟨e, he, r, hresponse, hid, -⟩ := hsound.faithful.completed c hc
  have hworker := hmortal.worker_eq hsound hw he hid
  refine ⟨e, he, r, hworker, hid, hresponse, ?_⟩
  rintro ⟨hlast, -⟩
  -- a response that is in flight has not been looked up
  have hanswered := hsound.sent.of_responses w r (List.mem_of_getLast? hlast)
  obtain ⟨job', -, -, hruns⟩ := hsound.faithful.executed e he
  obtain ⟨outcome, -, hr⟩ := hruns.2 r hresponse
  have hclosed := hmortal.heard.of_seen c.taskId (by
    rw [show s.routing.place c.taskId = .completed from hplace]
    rfl)
  rw [hr, taskId_respond, hid, hclosed] at hanswered
  simp at hanswered

/-- **What the `Future`s of a worker hold when its reader has returned.**  A `Future` whose response the
worker has written completely holds it.  Any other one waits until `Shutdown` fails it, and is ready when
`Shutdown` has returned. -/
theorem reader_returned {s : State P n θ} (h : (pool P n θ).Reachable s) {w : Fin n}
    (hended : (s.link w).reader = .ended) {x : Job P × ℕ} (hx : x ∈ s.returned) {i : ℕ}
    (hi : s.task i = some x) (hw : Frame.run i x.1 ∈ (s.link w).written) :
    (s.Responded w i → (s.states x.2).ready = true ∧ s.Answered x.1 x.2) ∧
      (¬ s.Responded w i → (s.states x.2).ready = false ∨
        (s.shutdown.swapped = true ∧ s.states x.2 = SharedState.shutDown)) ∧
      (s.shutdown = .returned → (s.states x.2).ready = true) := by
  have hsound := sound_of_reachable h
  have hmortal := mortal_of_reachable h
  have hfailed : s.place i = .failed → s.states x.2 = SharedState.shutDown :=
    hsound.settled.failed_state i x.1 x.2 hi
  refine ⟨?_, ?_, ?_⟩
  · intro hresponded
    exact answered_of_completed h hi (completed_of_responded h hended hresponded)
  · intro hnot
    by_cases hplace : s.place i = .failed
    · refine Or.inr ⟨?_, hfailed hplace⟩
      by_contra hopen
      have hmem := hsound.settled.of_failed i hplace
      have hnil : s.routing.failed = [] := hmortal.failed (by simpa using hopen)
      rw [hnil] at hmem
      simp at hmem
    · have hcompleted : s.place i ≠ .completed := fun hplace => hnot (responded_of_completed h hw hplace)
      exact Or.inl (hsound.settled.not_ready hi hcompleted hplace)
  · intro hdone
    rcases called_of_returned h hdone (Or.inr ⟨x, hx, hi⟩) with hplace | hplace
    · exact (answered_of_completed h hi hplace).1
    · rw [hfailed hplace]
      rfl

end Reachable

/-- A worker answers a task and crashes in the next one, and its reader returns. -/
def crashRun (w : Fin n) : List (Action byteProgram n Bool) :=
  submitSteps false (byteJob 1 5) ++ writeSteps false w ++ answerSteps w 25 ++
    submitSteps true (byteJob 2 6) ++ writeSteps true w ++
    [Action.link w (.readRequest 32), .link w (.readRequest 9), .crash w, .link w .responseEof]

theorem reader_returned_crash :
    ∃ s : State byteProgram 1 Bool, (pool byteProgram 1 Bool).Reachable s ∧
      (s.link 0).reader = .ended ∧ s.states 0 = ⟨true, some [25], none⟩ ∧
      (s.Responded 0 2 → (s.states 1).ready = true ∧ s.Answered (byteJob 2 6) 1) ∧
      (¬ s.Responded 0 2 → (s.states 1).ready = false ∨
        (s.shutdown.swapped = true ∧ s.states 1 = SharedState.shutDown)) ∧
      (s.shutdown = .returned → (s.states 1).ready = true) := by
  obtain ⟨s, hs⟩ : ∃ s, (pool byteProgram 1 Bool).run State.initial (crashRun 0) = some s := ⟨_, rfl⟩
  have hr : (pool byteProgram 1 Bool).Reachable s := Automaton.Reachable.of_run rfl hs
  obtain ⟨hended, hfirst, hreturned, htask, hwritten⟩ : (s.link 0).reader = .ended ∧
      s.states 0 = ⟨true, some [25], none⟩ ∧ s.returned = [(byteJob 1 5, 0), (byteJob 2 6, 1)] ∧
      s.task 2 = some (byteJob 2 6, 1) ∧
      (s.link 0).written = [.run 1 (byteJob 1 5), .run 2 (byteJob 2 6)] := by
    obtain rfl := Option.some_inj.1 hs
    exact ⟨rfl, rfl, rfl, rfl, rfl⟩
  exact ⟨s, hr, hended, hfirst, reader_returned (x := (byteJob 2 6, 1)) hr hended
    (by rw [hreturned]; exact List.mem_cons_of_mem _ List.mem_cons_self) htask
    (by rw [hwritten]; exact List.mem_cons_of_mem _ List.mem_cons_self)⟩

/-- **A dead worker leaves a `Future` waiting**: its reader has returned, and `Shutdown` has not been
called. -/
theorem dead_worker_leaves_future :
    ¬ ∀ (s : State byteProgram 1 Bool) (w : Fin 1), (pool byteProgram 1 Bool).Reachable s →
      (s.link w).reader = .ended → ∀ x ∈ s.returned, ∀ i, s.task i = some x →
        Frame.run i x.1 ∈ (s.link w).written → (s.states x.2).ready = true := by
  intro hall
  obtain ⟨s, hs⟩ : ∃ s, (pool byteProgram 1 Bool).run State.initial (crashRun 0) = some s := ⟨_, rfl⟩
  obtain ⟨hended, hready, hreturned, htask, hwritten⟩ : (s.link 0).reader = .ended ∧
      (s.states 1).ready = false ∧ s.returned = [(byteJob 1 5, 0), (byteJob 2 6, 1)] ∧
      s.task 2 = some (byteJob 2 6, 1) ∧
      (s.link 0).written = [.run 1 (byteJob 1 5), .run 2 (byteJob 2 6)] := by
    obtain rfl := Option.some_inj.1 hs
    exact ⟨rfl, rfl, rfl, rfl, rfl⟩
  have htrue := hall s 0 (Automaton.Reachable.of_run rfl hs) hended (byteJob 2 6, 1)
    (by rw [hreturned]; exact List.mem_cons_of_mem _ List.mem_cons_self) 2 htask
    (by rw [hwritten]; exact List.mem_cons_of_mem _ List.mem_cons_self)
  rw [hready] at htrue
  simp at htrue

end ProcessPool
