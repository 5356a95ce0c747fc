import PyLogStream.Log.Committed
import PyLogStream.Network.Completion

/-!
What the batches of the writer leave in the log. Workers collect the offsets of
their batch in a list and hand them to the callbacks by position, while batches of
other workers go into the same log. Each offset stays with the request it was
returned for, and the record at it stays that request's data, as long as no two
topics share a file.
-/

namespace PyLogStream
open Lib

namespace LogManager

/-- A record of the topic starts at the offset, and `data` is its payload. -/
def RecordAt (lm : LogManager) (topic : String) (offset : Int) (data : Bytes) : Prop :=
  ∃ before after, lm.logBytes topic = frames before ++ (frame data ++ after) ∧
    offset = ((frames before).length : Int)

/-- A segment that the operation opens has the key and the file of no other topic. -/
def OpensApart (lm : LogManager) (op : LogOp) : Prop :=
  ∀ seg ∈ lm.opened op, ClearOf lm.registry seg.1 seg.2

instance (lm : LogManager) (op : LogOp) : Decidable (lm.OpensApart op) :=
  inferInstanceAs (Decidable (∀ seg ∈ lm.opened op, ClearOf lm.registry seg.1 seg.2))

end LogManager

/-- Operations of the log that write no record. -/
def LogOp.writesNothing : LogOp → Bool
  | .append .. => false
  | _ => true

section Log
variable {lm : LogManager} {topic : String}

theorem LogManager.OpensApart.clearFor {op : LogOp} (h : lm.OpensApart op) (topic : String) :
    ClearFor topic lm op :=
  fun seg hseg m hm hne _ => h seg hseg m hm hne

theorem TopicOk.logBytes_eq (ok : TopicOk topic lm) :
    lm.logBytes topic = frames (lm.payloads topic) :=
  logBytes_of_records ok.shaped ok.records

theorem TopicOk.endOffset_eq (ok : TopicOk topic lm) :
    lm.endOffset topic = ((frames (lm.payloads topic)).length : Int) := by
  cases hget : lm.registry.registry.get? topic with
  | some segs => exact endOffset_of_latest (latestOffset_of_records ok.shaped ok.records hget)
  | none =>
      simp [LogManager.endOffset, LogManager.getLatestOffset, SegmentRegistry.getLatestOffset,
        LogManager.payloads, hget]

/-- An append that returns has added its payload, at the offset it returns. -/
theorem append_placed (ok : ∀ t, TopicOk t lm) {env : CallEnv} {data : Bytes} {offset : Int}
    (apart : lm.OpensApart (.append topic env data))
    (h : (lm.append env topic data).2 = .ok offset) :
    (∀ t, TopicOk t (lm.append env topic data).1 ∧
        (lm.append env topic data).1.payloads t =
          lm.payloads t ++ if topic = t then [data] else []) ∧
      offset = ((frames (lm.payloads topic)).length : Int) := by
  constructor
  · intro t
    have happ := append_committed (ok t) (apart.clearFor t)
    rwa [h] at happ
  · obtain ⟨n, hn, hend, -⟩ := append_returned (ok topic).shaped h
    rw [hn, ← hend, (ok topic).endOffset_eq]

theorem quiet_payloads (ok : ∀ t, TopicOk t lm) {op : LogOp} (apart : lm.OpensApart op)
    (quiet : op.writesNothing = true) (t : String) :
    TopicOk t (lm.apply op).1 ∧ (lm.apply op).1.payloads t = lm.payloads t := by
  have h := apply_committed (ok t) (apart.clearFor t)
  have hnone : op.committed t (lm.apply op).2 = [] := by
    cases op with
    | append topic env data => cases quiet
    | _ => rfl
  rwa [hnone, List.append_nil] at h

end Log

namespace Writer

/-- The requests of a topic in the order in which their records were written. -/
def appendedTo (w : Writer) (topic : String) : List WriteRequest :=
  (w.appended.map Prod.fst).filter fun req => req.topic = topic

/-- The record of a request stands once in the log that was `log` at first. -/
def StoredOnce (log : LogManager) (w : Writer) (req : WriteRequest) : Prop :=
  (w.appendedTo req.topic).count req = 1 ∧
    w.log.logBytes req.topic =
      log.logBytes req.topic ++ frames ((w.appendedTo req.topic).map WriteRequest.data)

/-- A batch in the thread pool still has the request to write. -/
def InPool (w : Writer) (req : WriteRequest) : Prop :=
  ∃ job ∈ w.workers ++ w.workQueue, req ∈ job.batch

/-- Every write succeeds, and a segment that is opened shares neither its key nor its
file with another topic; other users of the log do not write to it. -/
def WritesApart (w : Writer) : WriterEvent → Prop
  | .write worker env => ∀ job ∈ w.workers[worker]?, ∀ req ∈ job.batch.head?,
      (w.log.append env job.topic req.data).2.isOk = true ∧
        w.log.OpensApart (.append job.topic env req.data)
  | .other op => op.writesNothing = true ∧ w.log.OpensApart op
  | _ => True

instance (w : Writer) (e : WriterEvent) : Decidable (w.WritesApart e) :=
  match e with
  | .write worker env => inferInstanceAs (Decidable (∀ job ∈ w.workers[worker]?,
      ∀ req ∈ job.batch.head?, (w.log.append env job.topic req.data).2.isOk = true ∧
        w.log.OpensApart (.append job.topic env req.data)))
  | .other op => inferInstanceAs (Decidable (op.writesNothing = true ∧ w.log.OpensApart op))
  | .submit .. | .dequeue _ | .timeout _ | .start | .callSoon _ | .runReady | .cancel _
  | .close | .shutdown => isTrue trivial

/-- The log holds the records of the appended requests behind those of `log`, and the
offsets on their way to a callback are those of the history. -/
structure Stored (log : LogManager) (w : Writer) : Prop where
  tidy : w.Tidy
  topics : ∀ t, TopicOk t w.log
  payloads : ∀ t, w.log.payloads t = log.payloads t ++ (w.appendedTo t).map WriteRequest.data
  once : (w.appended.map Prod.fst).Nodup
  placed : ∀ p ∈ w.appended, ∃ before after,
    w.log.payloads p.1.topic = before ++ p.1.data :: after ∧
      p.2 = ((frames before).length : Int)
  apart : ∀ p ∈ w.appended, ∀ q ∈ w.appended, p.1.topic = q.1.topic → p.1 ≠ q.1 → p.2 ≠ q.2
  owed : ∀ p ∈ w.owed, p ∈ w.appended
  results : ∀ n offset, (n, Outcome.result offset) ∈ w.futures.completed →
    ∃ req, req.number = n ∧ (req, offset) ∈ w.appended

section
variable {log : LogManager} {w w' : Writer}

/-- A step that appends nothing. What it completes with an offset was on its way. -/
theorem Stored.keeps (ok : w.Stored log) (tidy : w'.Tidy)
    (hlog : ∀ t, TopicOk t w'.log ∧ w'.log.payloads t = w.log.payloads t)
    (happended : w'.appended = w.appended) (howed : ∀ p ∈ w'.owed, p ∈ w.owed)
    (hresults : ∀ n offset, (n, Outcome.result offset) ∈ w'.futures.completed →
      (n, Outcome.result offset) ∈ w.futures.completed ∨
        ∃ req, req.number = n ∧ (req, offset) ∈ w.owed) : w'.Stored log := by
  have hto : ∀ t, w'.appendedTo t = w.appendedTo t := by
    intro t
    rw [appendedTo, happended, appendedTo]
  refine ⟨tidy, fun t => (hlog t).1, ?_, happended ▸ ok.once, ?_, happended ▸ ok.apart, ?_, ?_⟩
  · intro t
    rw [(hlog t).2, hto]
    exact ok.payloads t
  · intro p hp
    rw [(hlog _).2]
    exact ok.placed p (happended ▸ hp)
  · rw [happended]
    exact fun p hp => ok.owed p (howed p hp)
  · rw [happended]
    intro n offset h
    rcases hresults n offset h with hold | ⟨req, hnumber, hreq⟩
    · exact ok.results n offset hold
    · exact ⟨req, hnumber, ok.owed _ hreq⟩

theorem Stored.same_log (ok : w.Stored log) (tidy : w'.Tidy) (hlog : w'.log = w.log)
    (happended : w'.appended = w.appended) (howed : ∀ p ∈ w'.owed, p ∈ w.owed)
    (hresults : ∀ n offset, (n, Outcome.result offset) ∈ w'.futures.completed →
      (n, Outcome.result offset) ∈ w.futures.completed ∨
        ∃ req, req.number = n ∧ (req, offset) ∈ w.owed) : w'.Stored log := by
  refine ok.keeps tidy ?_ happended howed hresults
  rw [hlog]
  exact fun t => ⟨ok.topics t, rfl⟩

/-- Records that are already there start below the end of the log. -/
theorem Stored.below (ok : w.Stored log) {p : WriteRequest × Int} (hp : p ∈ w.appended) :
    p.2 < ((frames (w.log.payloads p.1.topic)).length : Int) := by
  obtain ⟨before, after, hpayloads, hoffset⟩ := ok.placed p hp
  rw [hpayloads, hoffset]
  simp only [frames_append, frames_cons, List.length_append, frame_length]
  omega

theorem Stored.write (ok : w.Stored log) {worker : Nat} {env : CallEnv}
    (h : w.WritesApart (.write worker env)) : (w.write worker env).Stored log := by
  have change := write_change w worker env
  have hcase := writeCase w worker env
  generalize w.write worker env = w' at change hcase ⊢
  have howed := hcase.owed
  cases hcase with
  | idle => exact ok
  | fails job req rest hjob hbatch herr =>
      obtain ⟨err, herr⟩ := herr
      have hok := (h job (by simp [hjob]) req (by simp [hbatch])).1
      rw [herr] at hok
      cases hok
  | writes job req rest offset hjob hbatch hok =>
      have hline : req ∈ w.line job.topic := by
        obtain ⟨pre, post, hline, -⟩ := line_worker hjob job.topic
        simp [hline, FlushJob.pending, hbatch]
      have htopic : req.topic = job.topic := (ok.tidy.known _ req hline).1
      obtain ⟨hlog, hoffset⟩ := append_placed ok.topics
        (h job (by simp [hjob]) req (by simp [hbatch])).2 hok
      rw [← htopic] at hlog hoffset
      have hnew : ∀ p ∈ w.appended, p.1 ≠ req := fun p hp heq =>
        ok.tidy.gone p hp job.topic (heq ▸ hline)
      have hfresh : ∀ p ∈ w.appended, p.1.topic = req.topic → p.2 ≠ offset := by
        intro p hp ht
        have := ok.below hp
        rw [ht] at this
        omega
      refine ⟨ok.tidy.change change, fun t => htopic ▸ (hlog t).1, ?_, ?_, ?_, ?_, ?_, ?_⟩
      · intro t
        rw [← htopic, (hlog t).2, ok.payloads t]
        by_cases ht : req.topic = t
        · simp [appendedTo, ht]
        · simp [appendedTo, ht]
      · rw [List.map_append]
        refine List.nodup_append.mpr ⟨ok.once, List.nodup_singleton _, ?_⟩
        intro a ha b hb
        obtain ⟨p, hp, rfl⟩ := List.mem_map.mp ha
        rw [List.mem_singleton.mp hb]
        exact hnew p hp
      · intro p hp
        rw [← htopic, (hlog _).2]
        rcases List.mem_append.mp hp with hold | hlast
        · obtain ⟨before, after, hpayloads, hat⟩ := ok.placed p hold
          refine ⟨before, after ++ if req.topic = p.1.topic then [req.data] else [], ?_, hat⟩
          rw [hpayloads, List.append_assoc, List.cons_append]
        · cases List.mem_singleton.mp hlast
          exact ⟨w.log.payloads req.topic, [], by simp, hoffset⟩
      · intro p hp q hq ht hne
        rcases List.mem_append.mp hp with hp | hp <;> rcases List.mem_append.mp hq with hq | hq
        · exact ok.apart p hp q hq ht hne
        · cases List.mem_singleton.mp hq
          exact hfresh p hp ht
        · cases List.mem_singleton.mp hp
          exact (hfresh q hq ht.symm).symm
        · cases List.mem_singleton.mp hp
          cases List.mem_singleton.mp hq
          exact absurd rfl hne
      · intro p hp
        exact (howed p hp).elim (fun hold => List.mem_append_left _ (ok.owed p hold)) id
      · intro n offset' hresult
        obtain ⟨r, hr, hmem⟩ := ok.results n offset' hresult
        exact ⟨r, hr, List.mem_append_left _ hmem⟩

/-- `close` completes callbacks with exceptions only. -/
theorem drainQueue_results (f : Futures) (q : List WriteRequest) (n : Nat) (offset : Int)
    (h : (n, Outcome.result offset) ∈ (drainQueue f q).2.1.completed) :
    (n, Outcome.result offset) ∈ f.completed := by
  induction q generalizing f with
  | nil => exact h
  | cons req rest ih =>
      simp only [drainQueue] at h
      split at h
      · split at h
        · exact h
        · next f' hcomplete =>
            simp only [Futures.complete] at hcomplete
            split at hcomplete
            · cases hcomplete
            · cases hcomplete
              have := ih _ h
              simpa using this
      · exact ih f h

theorem drainQueues_results (queues : Dict String (List WriteRequest)) (f : Futures)
    (topics : List String) (n : Nat) (offset : Int)
    (h : (n, Outcome.result offset) ∈ (drainQueues queues f topics).2.1.completed) :
    (n, Outcome.result offset) ∈ f.completed := by
  induction topics generalizing queues f with
  | nil => exact h
  | cons topic topics ih =>
      have hdrain := drainQueue_results f (queueOf queues topic) n offset
      simp only [drainQueues] at h
      split at h
      · next heq =>
          rw [heq] at hdrain
          exact hdrain h
      · next heq =>
          rw [heq] at hdrain
          exact hdrain (ih _ _ h)

theorem Stored.runReady (ok : w.Stored log) : w.runReady.Stored log := by
  have tidy : w.runReady.Tidy := by
    simp only [Writer.runReady]
    split
    · exact ok.tidy
    · exact ok.tidy.change (.keeps rfl rfl fun _ => rfl)
  simp only [Writer.runReady] at tidy ⊢
  split at tidy
  · exact ok
  · next req offset rest hready =>
      refine ok.same_log tidy rfl rfl ?_ ?_
      · intro p hp
        simp only [Writer.owed, hready, List.mem_append, List.mem_cons] at hp ⊢
        tauto
      · intro n offset' h
        simp only [Futures.complete] at h
        split at h
        · exact Or.inl h
        · rcases List.mem_append.mp h with hold | hnew
          · exact Or.inl hold
          · cases List.mem_singleton.mp hnew
            exact Or.inr ⟨req, rfl, by simp [Writer.owed, hready]⟩

theorem Stored.step (ok : w.Stored log) {e : WriterEvent} (h : w.WritesApart e) :
    (w.step e).Stored log := by
  have tidy := ok.tidy.step e
  have idle : ∀ {w' : Writer}, w'.Tidy → w'.log = w.log → w'.appended = w.appended →
      w'.owed = w.owed → w'.futures.completed = w.futures.completed → w'.Stored log := by
    intro w' tidy hlog happended howed hcompleted
    refine ok.same_log tidy hlog happended (by simp [howed]) ?_
    rw [hcompleted]
    exact fun _ _ h => Or.inl h
  cases e with
  | submit producerId topic data createdAt callback =>
      simp only [Writer.step] at tidy ⊢
      split
      · next hrunning =>
          rw [if_pos hrunning] at tidy
          exact idle tidy rfl rfl rfl rfl
      · exact ok
  | dequeue topic =>
      simp only [Writer.step] at tidy ⊢
      split
      · next hrunning =>
          rw [if_pos hrunning] at tidy
          have collects := dequeue_collects w topic
          exact idle tidy collects.log collects.appended (dequeue_owed w topic)
            (congrArg Futures.completed collects.futures)
      · exact ok
  | timeout topic =>
      simp only [Writer.step] at tidy ⊢
      split
      · next hrunning =>
          rw [if_pos hrunning] at tidy
          have collects := timeout_collects w topic
          exact idle tidy collects.log collects.appended (timeout_owed w topic)
            (congrArg Futures.completed collects.futures)
      · exact ok
  | start =>
      have howed := start_owed w
      obtain ⟨hlog, -, happended⟩ := step_internal w (e := .start) rfl
      refine idle tidy hlog happended howed ?_
      simp only [Writer.step, start]
      repeat' split
      all_goals rfl
  | write worker env => exact ok.write h
  | callSoon worker =>
      obtain ⟨hlog, -, happended⟩ := step_internal w (e := .callSoon worker) rfl
      refine ok.same_log tidy hlog happended (callSoon_owed worker) ?_
      intro n offset hresult
      left
      simp only [Writer.step, callSoon] at hresult
      repeat' split at hresult
      all_goals exact hresult
  | runReady =>
      simp only [Writer.step]
      split
      · exact ok
      · exact ok.runReady
  | cancel number =>
      simp only [Writer.step] at tidy ⊢
      split
      · exact ok
      · next hphase =>
          rw [if_neg hphase] at tidy
          exact idle tidy rfl rfl rfl (Futures.cancel_completed _ _)
  | close =>
      simp only [Writer.step] at tidy ⊢
      split
      · next hrunning =>
          rw [if_pos hrunning] at tidy
          exact ok.same_log tidy rfl rfl (fun _ hp => hp)
            fun n offset h => Or.inl (drainQueues_results _ _ _ n offset h)
      · exact ok
  | shutdown =>
      simp only [Writer.step] at tidy ⊢
      split
      · next hdone =>
          rw [if_pos hdone] at tidy
          exact idle tidy rfl rfl rfl rfl
      · exact ok
  | other op =>
      refine ok.keeps tidy ?_ rfl (fun _ hp => hp) fun _ _ h => Or.inl h
      exact quiet_payloads ok.topics h.2 h.1

theorem Collects.inPool (h : Collects w w') (hqueue : w.workQueue <+: w'.workQueue)
    {req : WriteRequest} (hpool : w.InPool req) : w'.InPool req := by
  obtain ⟨job, hjob, hreq⟩ := hpool
  refine ⟨job, ?_, hreq⟩
  rw [h.workers]
  rcases List.mem_append.mp hjob with hworker | hwaiting
  · exact List.mem_append_left _ hworker
  · exact List.mem_append_right _ (hqueue.subset hwaiting)

/-- Until it is written, a request of a flushed batch stays in the thread pool. -/
theorem WriteCase.inPool {worker : Nat} {env : CallEnv} (hcase : WriteCase w worker env w')
    (h : w.WritesApart (.write worker env)) {req : WriteRequest} (hpool : w.InPool req) :
    w'.InPool req ∨ req ∈ w'.appended.map Prod.fst := by
  cases hcase with
  | idle => exact Or.inl hpool
  | fails job r rest hjob hbatch herr =>
      obtain ⟨err, herr⟩ := herr
      have hok := (h job (by simp [hjob]) r (by simp [hbatch])).1
      rw [herr] at hok
      cases hok
  | writes job r rest offset hjob hbatch hok =>
      obtain ⟨before, after, hworkers, hset, -⟩ := split_at hjob
      obtain ⟨other, hother, hreq⟩ := hpool
      rw [hworkers] at hother
      simp only [List.append_assoc, List.cons_append, List.mem_append, List.mem_cons] at hother
      simp only [InPool, hset]
      rcases hother with hold | rfl | hold | hold
      · exact Or.inl ⟨other, by simp [hold], hreq⟩
      · rw [hbatch] at hreq
        rcases List.mem_cons.mp hreq with rfl | hrest
        · exact Or.inr (by simp)
        · exact Or.inl ⟨⟨other.topic, rest, other.offsets ++ [(r, offset)]⟩, by simp, hrest⟩
      · exact Or.inl ⟨other, by simp [hold], hreq⟩
      · exact Or.inl ⟨other, by simp [hold], hreq⟩

theorem callSoon_inPool (worker : Nat) {req : WriteRequest} (hpool : w.InPool req) :
    (w.callSoon worker).InPool req := by
  obtain ⟨other, hother, hreq⟩ := hpool
  have keeps : ∀ job, w.workers[worker]? = some job → job.batch = [] →
      ∀ workers', (∃ before after mid, w.workers = before ++ job :: after ∧
        workers' = before ++ (mid ++ after)) → ∃ o ∈ workers' ++ w.workQueue, req ∈ o.batch := by
    rintro job - hempty workers' ⟨before, after, mid, hworkers, rfl⟩
    rw [hworkers] at hother
    refine ⟨other, ?_, hreq⟩
    have hne : other ≠ job := by
      rintro rfl
      rw [hempty] at hreq
      cases hreq
    simp only [List.append_assoc, List.cons_append, List.mem_append, List.mem_cons, hne,
      false_or] at hother ⊢
    tauto
  simp only [Writer.callSoon]
  split
  · next topic r offset rest hjob =>
      obtain ⟨before, after, hworkers, hset, -⟩ := split_at hjob
      refine keeps _ hjob rfl _ ⟨before, after, [⟨topic, [], rest⟩], hworkers, ?_⟩
      simp [hset]
  · next topic hjob =>
      obtain ⟨before, after, hworkers, -, herase⟩ := split_at hjob
      exact keeps _ hjob rfl _ ⟨before, after, [], hworkers, by simp [herase]⟩
  · exact ⟨other, hother, hreq⟩

theorem dequeue_workQueue (w : Writer) (topic : String) :
    w.workQueue <+: (w.dequeue topic).workQueue := by
  simp only [dequeue, flush]
  repeat' split
  all_goals first
    | exact List.prefix_rfl
    | exact List.prefix_append _ _

theorem timeout_workQueue (w : Writer) (topic : String) :
    w.workQueue <+: (w.timeout topic).workQueue := by
  simp only [timeout, flush]
  split
  · exact List.prefix_append _ _
  · exact List.prefix_rfl

theorem step_inPool {e : WriterEvent} (h : w.WritesApart e) {req : WriteRequest}
    (hpool : w.InPool req) :
    (w.step e).InPool req ∨ req ∈ (w.step e).appended.map Prod.fst := by
  cases e with
  | write worker env => exact (writeCase w worker env).inPool h hpool
  | callSoon worker => exact Or.inl (callSoon_inPool worker hpool)
  | dequeue topic =>
      left
      simp only [Writer.step]
      split
      · exact (dequeue_collects w topic).inPool (dequeue_workQueue w topic) hpool
      · exact hpool
  | timeout topic =>
      left
      simp only [Writer.step]
      split
      · exact (timeout_collects w topic).inPool (timeout_workQueue w topic) hpool
      · exact hpool
  | start =>
      left
      simp only [Writer.step]
      obtain heq | ⟨job, rest, hqueue, -, heq⟩ := start_cases w
      · rwa [heq]
      · rw [heq]
        obtain ⟨other, hother, hreq⟩ := hpool
        refine ⟨other, ?_, hreq⟩
        rw [hqueue] at hother
        simpa using hother
  | _ =>
      left
      simp only [Writer.step, Writer.submit, Writer.runReady, Writer.close]
      repeat' split
      all_goals exact hpool

/-- A request that was in the pool at some point of the run is there or written. -/
theorem run_inPool {events : List WriterEvent} (h : MeetsAll advance WritesApart w events)
    {req : WriteRequest} (hpool : w.InPool req ∨ req ∈ w.appended.map Prod.fst) :
    (run advance w events).InPool req ∨ req ∈ (run advance w events).appended.map Prod.fst := by
  induction events generalizing w with
  | nil => exact hpool
  | cons e events ih =>
      refine ih h.2 ?_
      rcases hpool with hpool | happended
      · exact step_inPool h.1 hpool
      · right
        obtain ⟨p, hp, rfl⟩ := List.mem_map.mp happended
        exact List.mem_map_of_mem ((step_change w e).appended_subset p hp)

theorem Stored.recordAt (ok : w.Stored log) {req : WriteRequest} {offset : Int}
    (h : (req, offset) ∈ w.appended) : w.log.RecordAt req.topic offset req.data := by
  obtain ⟨before, after, hpayloads, hoffset⟩ := ok.placed _ h
  refine ⟨before, frames after, ?_, hoffset⟩
  rw [(ok.topics req.topic).logBytes_eq, hpayloads, frames_append, frames_cons]

theorem Stored.storedOnce (ok : w.Stored log) (hlog : ∀ t, TopicOk t log) {req : WriteRequest}
    (h : req ∈ w.appended.map Prod.fst) : w.StoredOnce log req := by
  constructor
  · rw [appendedTo, List.count_filter (by simp)]
    exact List.count_eq_one_of_mem ok.once h
  · rw [(ok.topics req.topic).logBytes_eq, (hlog req.topic).logBytes_eq, ok.payloads,
      frames_append]

end

/-- A request is given an offset by the append of its data or by its callback. -/
def Receives (w : Writer) (req : WriteRequest) (offset : Int) : Prop :=
  (req, offset) ∈ w.appended ∨
    req ∈ w.submitted ∧ (req.number, Outcome.result offset) ∈ w.futures.completed

theorem Stored.appended_of_receives {log : LogManager} {w : Writer} (ok : w.Stored log)
    {req : WriteRequest} {offset : Int} (h : w.Receives req offset) :
    (req, offset) ∈ w.appended := by
  rcases h with happended | ⟨hsubmitted, hcompleted⟩
  · exact happended
  · obtain ⟨r, hnumber, hr⟩ := ok.results _ _ hcompleted
    rwa [← ok.tidy.eq_of_number (ok.tidy.recorded _ hr) hsubmitted hnumber]

/-- If no segment that is opened shares its key or its file with another topic, a callback
gets the offset of its request's record, no two requests of a topic get one offset, and
each request of a flushed batch is stored exactly once as soon as its write is done. -/
theorem acknowledged_data (config : WriterConfig) (logConfig : LogConfig) (importTime : Time)
    (history : List LogOp) (w : Writer) (events : List WriterEvent)
    (before : MeetsAll LogManager.apply LogManager.OpensApart
      (LogManager.start logConfig importTime) history)
    (hnew : Writer.new config
      (run LogManager.apply (LogManager.start logConfig importTime) history) = some w)
    (apart : MeetsAll advance WritesApart w events) :
    let w' := run advance w events
    (∀ n offset, (n, Outcome.result offset) ∈ w'.futures.completed →
        ∃ req ∈ w'.submitted, req.number = n ∧ w'.log.RecordAt req.topic offset req.data) ∧
      (∀ a b offset, a.topic = b.topic → w'.Receives a offset → w'.Receives b offset → a = b) ∧
      ∀ earlier later, events = earlier ++ later → ∀ req, (run advance w earlier).InPool req →
        w'.InPool req ∨ w'.StoredOnce w.log req := by
  intro w'
  have hlog : ∀ t, TopicOk t w.log := by
    have hrun := before.invariant (fun lm => ∀ t, TopicOk t lm)
      (fun lm op ok h t => (apply_committed (ok t) (h.clearFor t)).1)
      (fun t => topicOk_start t logConfig importTime)
    simp only [Writer.new] at hnew
    split at hnew
    · cases hnew
    · cases hnew
      exact hrun
  have start : w.Stored w.log := by
    have tidy := tidy_new hnew
    simp only [Writer.new] at hnew
    split at hnew
    · cases hnew
    · cases hnew
      exact ⟨tidy, hlog, by simp [appendedTo], by simp, by simp, by simp,
        fun _ howed => absurd howed List.not_mem_nil, by simp⟩
  have ok : w'.Stored w.log :=
    apart.invariant (Stored w.log) (fun w e ok h => ok.step h) start
  refine ⟨?_, ?_, ?_⟩
  · intro n offset h
    obtain ⟨req, hnumber, hreq⟩ := ok.results n offset h
    exact ⟨req, ok.tidy.recorded _ hreq, hnumber, ok.recordAt hreq⟩
  · intro a b offset ht ha hb
    by_contra hne
    exact ok.apart _ (ok.appended_of_receives ha) _ (ok.appended_of_receives hb) ht hne rfl
  · rintro earlier later rfl req hpool
    have hrun := run_inPool apart.of_append.2 (Or.inl hpool)
    rw [← run_append] at hrun
    exact hrun.imp_right (ok.storedOnce hlog)

/-- Two workers write the batches of two topics at the same time; the request in the
middle of the second batch has no callback. -/
def interleavedBatches : List WriterEvent :=
  [.submit "p" "a" [7] 1 true, .dequeue "a", .timeout "a",
    .submit "p" "b" [8] 1 true, .submit "p" "b" [9] 1 false, .submit "p" "b" [9] 1 true,
    .dequeue "b", .dequeue "b", .dequeue "b", .timeout "b", .start, .start,
    .write 1 ⟨1, .succeed⟩, .write 0 ⟨1, .succeed⟩, .write 1 ⟨1, .succeed⟩, .write 1 ⟨1, .succeed⟩,
    .callSoon 1, .callSoon 0, .callSoon 1, .callSoon 1, .runReady, .runReady, .runReady]

theorem acknowledged_data_interleaved :
    let w' := run advance fresh interleavedBatches
    w'.futures.completed = [(1, .result 0), (0, .result 0), (3, .result 10)] ∧
      (∀ n offset, (n, Outcome.result offset) ∈ w'.futures.completed →
        ∃ req ∈ w'.submitted, req.number = n ∧ w'.log.RecordAt req.topic offset req.data) ∧
      (∀ a b offset, a.topic = b.topic → w'.Receives a offset → w'.Receives b offset → a = b) ∧
      ∀ earlier later, interleavedBatches = earlier ++ later →
        ∀ req, (run advance fresh earlier).InPool req →
          w'.InPool req ∨ w'.StoredOnce fresh.log req :=
  ⟨by decide +kernel, acknowledged_data {} ⟨"data", 0, 1000000, 100, 16, 16, 4⟩ 0 [] fresh
    interleavedBatches trivial rfl (by decide +kernel)⟩

/-- The topics `t` and `./t` have different cache keys but the same files. -/
def sharedFile : List WriterEvent :=
  [.submit "p" "t" [7] 1 true, .dequeue "t", .timeout "t", .start, .write 0 ⟨1, .succeed⟩,
    .callSoon 0, .callSoon 0, .submit "p" "./t" [8] 1 true, .dequeue "./t", .timeout "./t", .start,
    .write 0 ⟨1, .succeed⟩, .callSoon 0, .callSoon 0, .runReady, .runReady]

/-- Both callbacks are completed with offset zero, where the record of `t` is no longer. -/
theorem acknowledged_data_overwritten :
    let w' := run advance fresh sharedFile
    w'.futures.completed = [(0, .result 0), (1, .result 0)] ∧
      w'.log.registry.registry.values.flatten.map SegmentMeta.getId = ["t0", "./t0"] ∧
      w'.submitted.head?.map (fun req => (req.number, req.topic, req.data)) = some (0, "t", [7]) ∧
      ¬ w'.log.RecordAt "t" 0 [7] := by
  intro w'
  refine ⟨by decide +kernel, by decide +kernel, by decide +kernel, ?_⟩
  rintro ⟨before, after, hbytes, hoffset⟩
  have hempty : frames before = [] := List.length_eq_zero_iff.mp (by omega)
  have hlog : w'.log.logBytes "t" = [0, 0, 0, 1, 8] := by decide +kernel
  rw [hempty, hlog] at hbytes
  have hframe : frame [7] = [0, 0, 0, 1, 7] := by decide
  rw [hframe] at hbytes
  simp at hbytes

end Writer
end PyLogStream
