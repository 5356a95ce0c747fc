import PyLogStream.Network.Writer

/-!
The requests of a topic that still wait to be written stand in one line: the
batches of the workers, the batches before the thread pool, the batch of the
collector and the queue. A collector and the thread pool only move the borders
between these parts. Whatever the workers do, a line stays in the order of
submission, and what has been written is no longer in it.
-/

namespace PyLogStream
open Lib

/-- The requests of a topic that a call of `_flush_batch` still has to append. -/
def FlushJob.pending (topic : String) (job : FlushJob) : List WriteRequest :=
  if job.topic = topic then job.batch else []

theorem FlushJob.pending_nil (topic : String) {job : FlushJob} (h : job.batch = []) :
    job.pending topic = [] := by
  simp [FlushJob.pending, h]

theorem FlushJob.mem_pending {topic : String} {job : FlushJob} {req : WriteRequest} :
    req ∈ job.pending topic ↔ job.topic = topic ∧ req ∈ job.batch := by
  simp only [FlushJob.pending]
  split
  · next h => simp [h]
  · next h => simp [h]

/-- Replacing or removing an element splits the list in the same place. -/
theorem split_at {α : Type} {l : List α} {i : Nat} {a : α} (h : l[i]? = some a) :
    ∃ pre post, l = pre ++ a :: post ∧ (∀ b, l.set i b = pre ++ b :: post) ∧
      l.eraseIdx i = pre ++ post := by
  obtain ⟨hi, rfl⟩ := List.getElem?_eq_some_iff.mp h
  refine ⟨l.take i, l.drop (i + 1), ?_, ?_, List.eraseIdx_eq_take_drop_succ l i⟩
  · rw [List.getElem_cons_drop, List.take_append_drop]
  · intro b
    exact List.set_eq_take_append_cons_drop.trans (if_pos hi)

namespace Writer

/-- Everything of a topic that waits to be written, the oldest request first. -/
def line (w : Writer) (topic : String) : List WriteRequest :=
  (w.workers ++ w.workQueue).flatMap (FlushJob.pending topic) ++
    (batchOf w.topicTask topic ++ queueOf w.topicQueue topic)

theorem queueOf_set (queues : Dict String (List WriteRequest)) (topic t : String)
    (q : List WriteRequest) :
    queueOf (queues.set topic q) t = if t = topic then q else queueOf queues t := by
  simp only [queueOf, Dict.get?_set]
  split
  · rfl
  · rfl

theorem batchOf_set (tasks : Dict String Collector) (topic t : String) (collector : Collector) :
    batchOf (tasks.set topic collector) t =
      if t = topic then collector.batch else batchOf tasks t := by
  simp only [batchOf, Dict.get?_set]
  split
  · rfl
  · rfl

theorem batchOf_some {tasks : Dict String Collector} {topic : String} {collector : Collector}
    (h : tasks.get? topic = some collector) : batchOf tasks topic = collector.batch := by
  simp [batchOf, h]

section
variable (w : Writer) (topic t : String)

theorem submit_queue (req : WriteRequest) :
    queueOf (w.submit req).topicQueue t =
      queueOf w.topicQueue t ++ if t = req.topic then [req] else [] := by
  have hopened : ∀ topic, queueOf (if (w.topicTask.get? req.topic).isSome ||
      (w.topicQueue.get? req.topic).isSome then w.topicQueue else w.topicQueue.set req.topic [])
      topic = queueOf w.topicQueue topic := by
    intro topic
    split
    · rfl
    · next hnew =>
        rw [queueOf_set]
        split
        · next h =>
            simp only [Bool.or_eq_true, not_or, Option.not_isSome_iff_eq_none] at hnew
            simp [queueOf, h, hnew.2]
        · rfl
  simp only [submit, queueOf_set, hopened]
  split
  · next h => rw [h]
  · rw [List.append_nil]

theorem submit_batch (req : WriteRequest) :
    batchOf (w.submit req).topicTask t = batchOf w.topicTask t := by
  simp only [submit]
  split
  · rfl
  · next hnew =>
      rw [batchOf_set]
      split
      · next h => simp [batchOf, h, Option.not_isSome_iff_eq_none.mp hnew]
      · rfl

theorem submit_line (req : WriteRequest) :
    (w.submit req).line t = w.line t ++ if t = req.topic then [req] else [] := by
  have hjobs : (w.submit req).workers = w.workers ∧ (w.submit req).workQueue = w.workQueue :=
    ⟨rfl, rfl⟩
  simp only [line, submit_queue, submit_batch, hjobs, List.append_assoc]

theorem flush_line (batch : List WriteRequest) :
    (w.flush topic batch).line t = (w.workers ++ w.workQueue).flatMap (FlushJob.pending t) ++
      ((if t = topic then batch else batchOf w.topicTask t) ++ queueOf w.topicQueue t) := by
  simp only [line, flush, batchOf_set]
  by_cases h : t = topic
  · simp [FlushJob.pending, h]
  · simp [FlushJob.pending, h, Ne.symm h]

theorem dequeue_line : (w.dequeue topic).line t = w.line t := by
  simp only [dequeue]
  split
  · next batch req rest htask hqueue =>
      -- the request passes from the queue to the batch, and the batch to the pool
      have hmoved : w.line t = (w.workers ++ w.workQueue).flatMap (FlushJob.pending t) ++
          ((if t = topic then batch ++ [req] else batchOf w.topicTask t) ++
            if t = topic then rest else queueOf w.topicQueue t) := by
        simp only [line]
        split
        · next h => simp [h, batchOf_some htask, hqueue]
        · rfl
      split
      · next hempty =>
          rw [hmoved, hempty]
          simp only [line, batchOf_set, queueOf_set, List.nil_append]
      · rw [hmoved]
        split
        · simp only [flush_line, queueOf_set]
        · simp only [line, batchOf_set, queueOf_set]
  · rfl

theorem timeout_line : (w.timeout topic).line t = w.line t := by
  simp only [timeout]
  split
  · next req rest htask =>
      rw [flush_line, line]
      split
      · next h => rw [h, batchOf_some htask]
      · rfl
  · rfl

theorem start_line : w.start.line t = w.line t := by
  simp only [start]
  split
  · rfl
  · next job rest hqueue =>
      split
      · simp [line, hqueue]
      · rfl

end

section
variable {w : Writer} {worker : Nat} {job : FlushJob}

/-- A worker's batch stands between those of the workers before and after it. -/
theorem line_worker (h : w.workers[worker]? = some job) (t : String) :
    ∃ pre post, w.line t = pre ++ (job.pending t ++ post) ∧
      (∀ job', ({ w with workers := w.workers.set worker job' } : Writer).line t =
        pre ++ (job'.pending t ++ post)) ∧
      ({ w with workers := w.workers.eraseIdx worker } : Writer).line t = pre ++ post := by
  obtain ⟨before, after, hworkers, hset, herase⟩ := split_at h
  refine ⟨before.flatMap (FlushJob.pending t), (after ++ w.workQueue).flatMap (FlushJob.pending t) ++
    (batchOf w.topicTask t ++ queueOf w.topicQueue t), ?_, ?_, ?_⟩
  · simp [line, hworkers]
  · intro job'
    simp [line, hset]
  · simp [line, herase]

theorem callSoon_line (t : String) : (w.callSoon worker).line t = w.line t := by
  simp only [callSoon]
  split
  · next topic req offset rest hjob =>
      obtain ⟨pre, post, hline, hset, -⟩ := line_worker hjob t
      rw [hline, FlushJob.pending_nil t rfl]
      refine (hset ⟨topic, [], rest⟩).trans ?_
      rw [FlushJob.pending_nil t rfl]
  · next hjob =>
      obtain ⟨pre, post, hline, -, herase⟩ := line_worker hjob t
      rw [hline, FlushJob.pending_nil t rfl]
      exact herase
  · rfl

/-- A collector changes its batch, its queue and the queue of the thread pool. -/
structure Collects (w w' : Writer) : Prop where
  config : w'.config = w.config
  log : w'.log = w.log
  workers : w'.workers = w.workers
  futures : w'.futures = w.futures
  phase : w'.phase = w.phase
  submitted : w'.submitted = w.submitted
  appended : w'.appended = w.appended

theorem dequeue_collects (w : Writer) (topic : String) : Collects w (w.dequeue topic) := by
  simp only [dequeue]
  repeat' split
  all_goals exact ⟨rfl, rfl, rfl, rfl, rfl, rfl, rfl⟩

theorem timeout_collects (w : Writer) (topic : String) : Collects w (w.timeout topic) := by
  simp only [timeout]
  split
  all_goals exact ⟨rfl, rfl, rfl, rfl, rfl, rfl, rfl⟩

/-- What a free worker does. -/
theorem start_cases (w : Writer) : w.start = w ∨ ∃ job rest, w.workQueue = job :: rest ∧
    (w.workers.length : Int) < w.config.maxWorkers ∧
    w.start = { w with workQueue := rest, workers := w.workers ++ [job] } := by
  simp only [start]
  split
  · exact Or.inl rfl
  · next job rest hqueue =>
      split
      · next hfree => exact Or.inr ⟨job, rest, hqueue, hfree, rfl⟩
      · exact Or.inl rfl

/-- What a worker does to its next message. -/
inductive WriteCase (w : Writer) (worker : Nat) (env : CallEnv) : Writer → Prop where
  | idle : WriteCase w worker env w
  | fails (job : FlushJob) (req : WriteRequest) (rest : List WriteRequest)
      (hjob : w.workers[worker]? = some job) (hbatch : job.batch = req :: rest)
      (herr : ∃ err, (w.log.append env job.topic req.data).2 = .error err) :
      WriteCase w worker env { w with
        log := (w.log.append env job.topic req.data).1
        workers := w.workers.eraseIdx worker }
  | writes (job : FlushJob) (req : WriteRequest) (rest : List WriteRequest) (offset : Int)
      (hjob : w.workers[worker]? = some job) (hbatch : job.batch = req :: rest)
      (hok : (w.log.append env job.topic req.data).2 = .ok offset) :
      WriteCase w worker env { w with
        log := (w.log.append env job.topic req.data).1
        workers := w.workers.set worker ⟨job.topic, rest, job.offsets ++ [(req, offset)]⟩
        appended := w.appended ++ [(req, offset)] }

theorem writeCase (w : Writer) (worker : Nat) (env : CallEnv) :
    WriteCase w worker env (w.write worker env) := by
  simp only [write]
  split
  · next topic req rest offsets hjob =>
      split
      · next log err happend =>
          have h : WriteCase w worker env _ :=
            .fails _ req rest hjob rfl ⟨err, by rw [happend]⟩
          rwa [happend] at h
      · next log offset happend =>
          have h : WriteCase w worker env _ :=
            .writes _ req rest offset hjob rfl (by rw [happend])
          rwa [happend] at h
  · exact .idle

theorem drainQueue_sublist (futures : Futures) (q : List WriteRequest) :
    (drainQueue futures q).1.Sublist q := by
  induction q generalizing futures with
  | nil => exact List.Sublist.refl []
  | cons req rest ih =>
      simp only [drainQueue]
      split
      · split
        · exact List.sublist_cons_self req rest
        · exact (ih _).cons req
      · exact (ih futures).cons req

theorem drainQueues_sublist (queues : Dict String (List WriteRequest)) (futures : Futures)
    (topics : List String) (t : String) :
    (queueOf (drainQueues queues futures topics).1 t).Sublist (queueOf queues t) := by
  have hset : ∀ topic (queues : Dict String (List WriteRequest)) rest,
      rest.Sublist (queueOf queues topic) →
        (queueOf (queues.set topic rest) t).Sublist (queueOf queues t) := by
    intro topic queues rest h
    rw [queueOf_set]
    split
    · next heq => exact heq ▸ h
    · exact List.Sublist.refl _
  induction topics generalizing queues futures with
  | nil => exact List.Sublist.refl _
  | cons topic topics ih =>
      have hrest := drainQueue_sublist futures (queueOf queues topic)
      simp only [drainQueues]
      split
      · next heq => exact hset topic queues _ (by rwa [heq] at hrest)
      · next heq => exact (ih _ _).trans (hset topic queues _ (by rwa [heq] at hrest))

theorem close_line (w : Writer) (t : String) : (w.close.line t).Sublist (w.line t) := by
  simp only [close, line]
  exact List.Sublist.append_left
    (List.Sublist.append_left (drainQueues_sublist _ _ _ t) _) _

/-- How the lines and the histories change in one step. -/
inductive Change (w w' : Writer) : Prop where
  | submits (req : WriteRequest) (number : req.number = w.submitted.length)
      (submitted : w'.submitted = w.submitted ++ [req]) (appended : w'.appended = w.appended)
      (line : ∀ t, w'.line t = w.line t ++ if t = req.topic then [req] else [])
  | writes (topic : String) (req : WriteRequest) (offset : Int)
      (submitted : w'.submitted = w.submitted) (appended : w'.appended = w.appended ++ [(req, offset)])
      (line : ∀ t, ∃ pre post, w.line t = pre ++ ((if topic = t then [req] else []) ++ post) ∧
        w'.line t = pre ++ post)
  | shrinks (submitted : w'.submitted = w.submitted) (appended : w'.appended = w.appended)
      (line : ∀ t, (w'.line t).Sublist (w.line t))

theorem Change.keeps {w w' : Writer} (submitted : w'.submitted = w.submitted)
    (appended : w'.appended = w.appended) (line : ∀ t, w'.line t = w.line t) : Change w w' :=
  .shrinks submitted appended fun t => by rw [line t]

theorem write_change (w : Writer) (worker : Nat) (env : CallEnv) :
    Change w (w.write worker env) := by
  have hcase := writeCase w worker env
  generalize w.write worker env = w' at hcase ⊢
  cases hcase with
  | idle => exact .keeps rfl rfl fun _ => rfl
  | fails job req rest hjob hbatch herr =>
      refine .shrinks rfl rfl fun t => ?_
      obtain ⟨pre, post, hline, -, herase⟩ := line_worker hjob t
      have hgone : (pre ++ post).Sublist (w.line t) := by
        rw [hline]
        exact List.Sublist.append_left (List.sublist_append_right _ _) _
      exact (congrArg (List.Sublist · (w.line t)) herase).mpr hgone
  | writes job req rest offset hjob hbatch hok =>
      refine .writes job.topic req offset rfl rfl fun t => ?_
      obtain ⟨pre, post, hline, hset, -⟩ := line_worker hjob t
      refine ⟨pre, FlushJob.pending t ⟨job.topic, rest, job.offsets ++ [(req, offset)]⟩ ++ post,
        ?_, hset _⟩
      rw [hline]
      simp only [FlushJob.pending, hbatch]
      split
      · simp
      · simp

theorem step_change (w : Writer) (e : WriterEvent) : Change w (w.step e) := by
  cases e with
  | submit producerId topic data createdAt callback =>
      simp only [step]
      split
      · exact .submits _ rfl rfl rfl fun t => submit_line w t _
      · exact .keeps rfl rfl fun _ => rfl
  | dequeue topic =>
      simp only [step]
      split
      · have collects := dequeue_collects w topic
        exact .keeps collects.submitted collects.appended (dequeue_line w topic)
      · exact .keeps rfl rfl fun _ => rfl
  | timeout topic =>
      simp only [step]
      split
      · have collects := timeout_collects w topic
        exact .keeps collects.submitted collects.appended (timeout_line w topic)
      · exact .keeps rfl rfl fun _ => rfl
  | start =>
      have hline := start_line w
      obtain heq | ⟨job, rest, -, -, heq⟩ := start_cases w
      all_goals
        simp only [step]
        rw [heq] at hline ⊢
        exact .keeps rfl rfl hline
  | write worker env => exact write_change w worker env
  | callSoon worker =>
      refine .keeps ?_ ?_ callSoon_line
      · simp only [step, callSoon]
        split <;> rfl
      · simp only [step, callSoon]
        split <;> rfl
  | runReady =>
      simp only [step, runReady]
      repeat' split
      all_goals exact .keeps rfl rfl fun _ => rfl
  | cancel number =>
      simp only [step]
      split
      all_goals exact .keeps rfl rfl fun _ => rfl
  | close =>
      simp only [step]
      split
      · exact .shrinks rfl rfl (close_line w)
      · exact .keeps rfl rfl fun _ => rfl
  | shutdown =>
      simp only [step]
      split
      all_goals exact .keeps rfl rfl fun _ => rfl
  | other op => exact .keeps rfl rfl fun _ => rfl

theorem step_config (w : Writer) (e : WriterEvent) : (w.step e).config = w.config := by
  cases e with
  | dequeue topic =>
      simp only [step]
      split
      · exact (dequeue_collects w topic).config
      · rfl
  | timeout topic =>
      simp only [step]
      split
      · exact (timeout_collects w topic).config
      · rfl
  | _ =>
      simp only [step, submit, start, write, callSoon, runReady, close]
      repeat' split
      all_goals rfl

/-- Events that neither take a request nor call the log. -/
def internal : WriterEvent → Bool
  | .submit .. | .write .. | .other _ => false
  | _ => true

theorem step_internal (w : Writer) {e : WriterEvent} (h : internal e = true) :
    (w.step e).log = w.log ∧ (w.step e).submitted = w.submitted ∧
      (w.step e).appended = w.appended := by
  cases e with
  | submit | write | other => cases h
  | dequeue topic =>
      have collects := dequeue_collects w topic
      simp only [step]
      split
      · exact ⟨collects.log, collects.submitted, collects.appended⟩
      · exact ⟨rfl, rfl, rfl⟩
  | timeout topic =>
      have collects := timeout_collects w topic
      simp only [step]
      split
      · exact ⟨collects.log, collects.submitted, collects.appended⟩
      · exact ⟨rfl, rfl, rfl⟩
  | _ =>
      simp only [step, start, callSoon, runReady, close]
      repeat' split
      all_goals exact ⟨rfl, rfl, rfl⟩

/-- The bookkeeping of requests: a line is in the order of submission, and a request
that has been appended is not in it. -/
structure Tidy (w : Writer) : Prop where
  numbered : ∀ i (req : WriteRequest), w.submitted[i]? = some req → req.number = i
  known : ∀ t, ∀ req ∈ w.line t, req.topic = t ∧ req ∈ w.submitted
  sorted : ∀ t, (w.line t).Pairwise fun a b => a.number < b.number
  recorded : ∀ p ∈ w.appended, p.1 ∈ w.submitted
  gone : ∀ p ∈ w.appended, ∀ t, p.1 ∉ w.line t

theorem Tidy.number_lt {w : Writer} (tidy : w.Tidy) {req : WriteRequest}
    (h : req ∈ w.submitted) : req.number < w.submitted.length := by
  obtain ⟨i, hi⟩ := List.getElem?_of_mem h
  rw [tidy.numbered i req hi]
  exact (List.getElem?_eq_some_iff.mp hi).1

theorem Tidy.eq_of_number {w : Writer} (tidy : w.Tidy) {a b : WriteRequest}
    (ha : a ∈ w.submitted) (hb : b ∈ w.submitted) (h : a.number = b.number) : a = b := by
  obtain ⟨i, hi⟩ := List.getElem?_of_mem ha
  obtain ⟨j, hj⟩ := List.getElem?_of_mem hb
  rw [tidy.numbered i a hi, tidy.numbered j b hj] at h
  rw [h, hj] at hi
  exact (Option.some.inj hi).symm

theorem Tidy.submits {w w' : Writer} (tidy : w.Tidy) {req : WriteRequest}
    (number : req.number = w.submitted.length) (submitted : w'.submitted = w.submitted ++ [req])
    (appended : w'.appended = w.appended)
    (line : ∀ t, w'.line t = w.line t ++ if t = req.topic then [req] else []) : w'.Tidy := by
  have hline : ∀ t, ∀ a ∈ w'.line t, a ∈ w.line t ∨ a = req ∧ t = req.topic := by
    intro t a ha
    rw [line t] at ha
    split at ha
    · next ht => simpa [ht] using ha
    · exact Or.inl (by simpa using ha)
  refine ⟨?_, ?_, ?_, ?_, ?_⟩
  · intro i a hi
    rw [submitted, List.getElem?_append] at hi
    split at hi
    · exact tidy.numbered i a hi
    · rw [List.getElem?_singleton] at hi
      split at hi
      · cases hi
        omega
      · cases hi
  · intro t a ha
    rw [submitted]
    cases hline t a ha with
    | inl hold =>
        obtain ⟨htopic, hmem⟩ := tidy.known t a hold
        exact ⟨htopic, List.mem_append_left _ hmem⟩
    | inr hreq => exact ⟨hreq.1 ▸ hreq.2.symm, by simp [hreq.1]⟩
  · intro t
    rw [line t]
    refine List.pairwise_append.mpr ⟨tidy.sorted t, ?_, ?_⟩
    · split <;> simp
    · intro a ha b hb
      have hb' : b = req := by
        split at hb
        · exact List.mem_singleton.mp hb
        · cases hb
      rw [hb', number]
      exact tidy.number_lt (tidy.known t a ha).2
  · intro p hp
    rw [appended] at hp
    rw [submitted]
    exact List.mem_append_left _ (tidy.recorded p hp)
  · intro p hp t hmem
    rw [appended] at hp
    cases hline t p.1 hmem with
    | inl hold => exact tidy.gone p hp t hold
    | inr hreq =>
        have hlt := tidy.number_lt (tidy.recorded p hp)
        rw [hreq.1, number] at hlt
        exact absurd hlt (lt_irrefl _)

theorem Tidy.shrinks {w w' : Writer} (tidy : w.Tidy) (submitted : w'.submitted = w.submitted)
    (appended : w'.appended = w.appended) (line : ∀ t, (w'.line t).Sublist (w.line t)) :
    w'.Tidy := by
  constructor
  · rw [submitted]
    exact tidy.numbered
  · intro t req hreq
    rw [submitted]
    exact tidy.known t req ((line t).subset hreq)
  · exact fun t => (tidy.sorted t).sublist (line t)
  · rw [submitted, appended]
    exact tidy.recorded
  · intro p hp t hmem
    rw [appended] at hp
    exact tidy.gone p hp t ((line t).subset hmem)

/-- A request that has left the lines goes into the history. -/
theorem Tidy.record {w : Writer} (tidy : w.Tidy) {entry : WriteRequest × Int}
    (known : entry.1 ∈ w.submitted) (gone : ∀ t, entry.1 ∉ w.line t) :
    Tidy { w with appended := w.appended ++ [entry] } := by
  refine ⟨tidy.numbered, tidy.known, tidy.sorted, fun p hp => ?_, fun p hp => ?_⟩
  · cases List.mem_append.mp hp with
    | inl hold => exact tidy.recorded p hold
    | inr hnew => exact List.mem_singleton.mp hnew ▸ known
  · cases List.mem_append.mp hp with
    | inl hold => exact tidy.gone p hold
    | inr hnew => exact List.mem_singleton.mp hnew ▸ gone

theorem Tidy.writes {w w' : Writer} (tidy : w.Tidy) {topic : String} {req : WriteRequest}
    {offset : Int} (submitted : w'.submitted = w.submitted)
    (appended : w'.appended = w.appended ++ [(req, offset)])
    (line : ∀ t, ∃ pre post, w.line t = pre ++ ((if topic = t then [req] else []) ++ post) ∧
      w'.line t = pre ++ post) : w'.Tidy := by
  have hsub : ∀ t, (w'.line t).Sublist (w.line t) := by
    intro t
    obtain ⟨pre, post, hline, hline'⟩ := line t
    rw [hline, hline']
    exact List.Sublist.append_left (List.sublist_append_right _ _) _
  have hreq : req ∈ w.line topic := by
    obtain ⟨pre, post, hline, -⟩ := line topic
    simp [hline]
  -- the line is strictly sorted, so the request stood in it only once
  have hgone : ∀ t, req ∉ w'.line t := by
    intro t hmem
    have ht : topic = t := (tidy.known topic req hreq).1.symm.trans
      (tidy.known t req ((hsub t).subset hmem)).1
    obtain ⟨pre, post, hline, hline'⟩ := line t
    have hsorted := tidy.sorted t
    rw [hline, if_pos ht] at hsorted
    rw [hline'] at hmem
    have hsplit := List.pairwise_append.mp hsorted
    cases List.mem_append.mp hmem with
    | inl hpre => exact lt_irrefl _ (hsplit.2.2 req hpre req (by simp))
    | inr hpost => exact lt_irrefl _ ((List.pairwise_cons.mp hsplit.2.1).1 req hpost)
  have hbefore : Tidy { w' with appended := w.appended } := tidy.shrinks submitted rfl hsub
  have hknown : req ∈ w'.submitted := submitted ▸ (tidy.known topic req hreq).2
  have hafter : Tidy { w' with appended := w.appended ++ [(req, offset)] } :=
    hbefore.record hknown hgone
  rwa [← appended] at hafter

theorem Tidy.change {w w' : Writer} (tidy : w.Tidy) (change : Change w w') : w'.Tidy := by
  cases change with
  | submits req number submitted appended line => exact tidy.submits number submitted appended line
  | writes topic req offset submitted appended line => exact tidy.writes submitted appended line
  | shrinks submitted appended line => exact tidy.shrinks submitted appended line

theorem Tidy.step {w : Writer} (tidy : w.Tidy) (e : WriterEvent) : (w.step e).Tidy :=
  tidy.change (step_change w e)

theorem tidy_new {config : WriterConfig} {log : LogManager} {w : Writer}
    (h : Writer.new config log = some w) : w.Tidy := by
  simp only [Writer.new] at h
  split at h
  · cases h
  · cases h
    exact ⟨by simp, fun _ _ hreq => absurd hreq List.not_mem_nil, fun _ => List.Pairwise.nil,
      by simp, by simp⟩

end
end Writer
end PyLogStream
