import PyLogStream.Network.Lines

/-!
The order in which the requests of a topic reach its log. The line of a topic is
in the order of submission, but each worker appends the head of its own batch: two
workers on batches of one topic append in any order. With one of them at a time,
the next request appended is the head of the line, and the offsets follow the
order of submission.
-/

namespace PyLogStream
open Lib

namespace Writer

/-- Two workers never both have messages of the same topic left. -/
def Single (workers : List FlushJob) : Prop :=
  workers.Pairwise fun a b => a.topic = b.topic → a.batch = [] ∨ b.batch = []

/-- When a worker takes a batch, no other worker has messages of its topic left. -/
def OneBatch (w : Writer) : WriterEvent → Prop
  | .start => (w.workers.length : Int) < w.config.maxWorkers → ∀ job ∈ w.workQueue.head?,
      ∀ other ∈ w.workers, other.topic = job.topic → other.batch = []
  | _ => True

instance (w : Writer) (e : WriterEvent) : Decidable (w.OneBatch e) :=
  match e with
  | .start => inferInstanceAs (Decidable ((w.workers.length : Int) < w.config.maxWorkers →
      ∀ job ∈ w.workQueue.head?, ∀ other ∈ w.workers, other.topic = job.topic → other.batch = []))
  | .submit .. | .dequeue _ | .timeout _ | .write .. | .callSoon _ | .runReady | .cancel _
  | .close | .shutdown | .other _ => isTrue trivial

structure InOrder (w : Writer) : Prop where
  tidy : w.Tidy
  shaped : w.log.registry.Shaped
  single : Single w.workers
  before : ∀ p ∈ w.appended, ∀ req ∈ w.line p.1.topic, p.1.number < req.number
  below : ∀ p ∈ w.appended, ∃ n, w.log.getLatestOffset p.1.topic = .ok n ∧ p.2 < n
  ordered : ∀ p ∈ w.appended, ∀ q ∈ w.appended, p.1.topic = q.1.topic →
    p.1.number < q.1.number → p.2 < q.2

section
variable {w w' : Writer}

/-- A step brings only a new request into the lines. -/
theorem Change.mem_line (change : Change w w') {t : String} {req : WriteRequest}
    (h : req ∈ w'.line t) :
    req ∈ w.line t ∨ req.number = w.submitted.length := by
  cases change with
  | submits new number submitted appended line =>
      rw [line t] at h
      split at h
      · cases List.mem_append.mp h with
        | inl hold => exact Or.inl hold
        | inr hnew => exact Or.inr (List.mem_singleton.mp hnew ▸ number)
      · exact Or.inl (by simpa using h)
  | writes topic new offset submitted appended line =>
      obtain ⟨pre, post, hline, hline'⟩ := line t
      rw [hline'] at h
      rw [hline]
      refine Or.inl ?_
      cases List.mem_append.mp h with
      | inl hpre => exact List.mem_append_left _ hpre
      | inr hpost => exact List.mem_append_right _ (List.mem_append_right _ hpost)
  | shrinks submitted appended line => exact Or.inl ((line t).subset h)

theorem Change.old (change : Change w w') (tidy : w'.Tidy) (hsub : w'.submitted = w.submitted)
    {t : String} {req : WriteRequest} (h : req ∈ w'.line t) : req ∈ w.line t := by
  refine (change.mem_line h).resolve_right fun hnew => ?_
  have hlt := tidy.number_lt (tidy.known t req h).2
  rw [hnew, hsub] at hlt
  exact lt_irrefl _ hlt

theorem InOrder.keeps (ok : w.InOrder) (change : Change w w')
    (happ : w'.appended = w.appended) (hsingle : Single w'.workers)
    (hlog : w'.log.registry.Shaped ∧ EndsGrow w.log w'.log) : w'.InOrder := by
  refine ⟨ok.tidy.change change, hlog.1, hsingle, ?_, ?_, by rw [happ]; exact ok.ordered⟩
  · intro p hp req hreq
    rw [happ] at hp
    cases change.mem_line hreq with
    | inl hold => exact ok.before p hp req hold
    | inr hnew =>
        rw [hnew]
        exact ok.tidy.number_lt (ok.tidy.recorded p hp)
  · intro p hp
    rw [happ] at hp
    obtain ⟨n, hn, hlt⟩ := ok.below p hp
    obtain ⟨n', hn', hle⟩ := hlog.2 _ _ hn
    exact ⟨n', hn', lt_of_lt_of_le hlt hle⟩

theorem InOrder.same_log (ok : w.InOrder) (change : Change w w')
    (happ : w'.appended = w.appended) (hsingle : Single w'.workers) (hlog : w'.log = w.log) :
    w'.InOrder := by
  refine ok.keeps change happ hsingle ?_
  rw [hlog]
  exact ⟨ok.shaped, endsGrow_of_registry rfl⟩

/-- A worker that goes on with the rest of its batch. -/
theorem Single.set {workers : List FlushJob} {worker : Nat} {job job' : FlushJob}
    (single : Single workers) (hjob : workers[worker]? = some job) (htopic : job'.topic = job.topic)
    (hbatch : job.batch = [] → job'.batch = []) : Single (workers.set worker job') := by
  obtain ⟨before, after, hworkers, hset, -⟩ := split_at hjob
  rw [hset]
  rw [Single, hworkers] at single
  obtain ⟨hbefore, hafter, hcross⟩ := List.pairwise_append.mp single
  obtain ⟨hhead, htail⟩ := List.pairwise_cons.mp hafter
  refine List.pairwise_append.mpr ⟨hbefore, List.pairwise_cons.mpr ⟨?_, htail⟩, ?_⟩
  · intro b hb heq
    exact (hhead b hb (htopic ▸ heq)).imp_left hbatch
  · intro a ha b hb heq
    cases List.mem_cons.mp hb with
    | inl hb =>
        subst hb
        exact (hcross a ha job List.mem_cons_self (htopic ▸ heq)).imp_right hbatch
    | inr hb => exact hcross a ha b (List.mem_cons_of_mem _ hb) heq

theorem Single.eraseIdx {workers : List FlushJob} (single : Single workers) (worker : Nat) :
    Single (workers.eraseIdx worker) :=
  single.sublist (List.eraseIdx_sublist workers worker)

/-- The worker that has messages of a topic left has the head of its line. -/
theorem line_head {worker : Nat} {job : FlushJob} {req : WriteRequest}
    {rest : List WriteRequest} (single : Single w.workers)
    (hjob : w.workers[worker]? = some job) (hbatch : job.batch = req :: rest) :
    ∃ tail, w.line job.topic = req :: tail := by
  obtain ⟨before, after, hworkers, -, -⟩ := split_at hjob
  rw [Single, hworkers] at single
  obtain ⟨-, -, hcross⟩ := List.pairwise_append.mp single
  have hempty : before.flatMap (FlushJob.pending job.topic) = [] := by
    refine List.flatMap_eq_nil_iff.mpr fun a ha => ?_
    simp only [FlushJob.pending]
    split
    · next htopic =>
        refine (hcross a ha job List.mem_cons_self htopic).resolve_right ?_
        simp [hbatch]
    · rfl
  refine ⟨rest ++ ((after ++ w.workQueue).flatMap (FlushJob.pending job.topic) ++
    (batchOf w.topicTask job.topic ++ queueOf w.topicQueue job.topic)), ?_⟩
  simp [line, hworkers, hempty, FlushJob.pending, hbatch]

theorem InOrder.write (ok : w.InOrder) (worker : Nat) (env : CallEnv) :
    (w.write worker env).InOrder := by
  have change := write_change w worker env
  have hcase := writeCase w worker env
  generalize w.write worker env = w' at change hcase ⊢
  cases hcase with
  | idle => exact ok
  | fails job req rest hjob hbatch herr =>
      exact ok.keeps change rfl (ok.single.eraseIdx worker)
        (apply_offsets ok.shaped (.append job.topic env req.data))
  | writes job req rest offset hjob hbatch hok =>
      obtain ⟨tail, hline⟩ := line_head ok.single hjob hbatch
      have hhead : req ∈ w.line job.topic := by rw [hline]; exact List.mem_cons_self
      have htopic : req.topic = job.topic := (ok.tidy.known _ req hhead).1
      obtain ⟨hshaped, hgrow⟩ := apply_offsets ok.shaped (.append job.topic env req.data)
      obtain ⟨n, hn, hend, hlatest⟩ := append_returned ok.shaped hok
      -- everything appended before ends below the new offset
      have hbelow : ∀ p ∈ w.appended, p.1.topic = req.topic → p.2 < offset := by
        intro p hp heq
        obtain ⟨m, hm, hlt⟩ := ok.below p hp
        rw [heq, htopic] at hm
        rw [endOffset_of_latest hm] at hend
        omega
      have hlater : ∀ p ∈ w.appended, p.1.topic = req.topic → p.1.number < req.number := by
        intro p hp heq
        exact ok.before p hp req (by rw [heq, htopic]; exact hhead)
      have tidy' := ok.tidy.change change
      refine ⟨tidy', hshaped, ok.single.set hjob rfl (by simp [hbatch]), ?_, ?_, ?_⟩
      · intro p hp r hr
        cases List.mem_append.mp hp with
        | inl hp => exact ok.before p hp r (change.old tidy' rfl hr)
        | inr hp =>
            have hsorted := ok.tidy.sorted job.topic
            rw [hline] at hsorted
            cases List.mem_singleton.mp hp
            have hmem := change.old tidy' rfl hr
            rw [htopic, hline] at hmem
            refine (List.pairwise_cons.mp hsorted).1 r ((List.mem_cons.mp hmem).resolve_left ?_)
            intro heq
            exact tidy'.gone _ (List.mem_append_right _ List.mem_cons_self) _ (heq ▸ hr)
      · intro p hp
        cases List.mem_append.mp hp with
        | inl hp =>
            obtain ⟨m, hm, hlt⟩ := ok.below p hp
            obtain ⟨m', hm', hle⟩ := hgrow _ _ hm
            exact ⟨m', hm', lt_of_lt_of_le hlt hle⟩
        | inr hp =>
            cases List.mem_singleton.mp hp
            refine ⟨n + (4 + req.data.length), ?_, by omega⟩
            rw [← hlatest, ← htopic]
      · intro p hp q hq heq hlt
        cases List.mem_append.mp hp with
        | inl hp =>
            cases List.mem_append.mp hq with
            | inl hq => exact ok.ordered p hp q hq heq hlt
            | inr hq =>
                cases List.mem_singleton.mp hq
                exact hbelow p hp heq
        | inr hp =>
            cases List.mem_singleton.mp hp
            cases List.mem_append.mp hq with
            | inl hq => exact absurd hlt (lt_asymm (hlater q hq heq.symm))
            | inr hq =>
                cases List.mem_singleton.mp hq
                exact absurd hlt (lt_irrefl _)

theorem InOrder.callSoon (ok : w.InOrder) (worker : Nat) : (w.callSoon worker).InOrder := by
  have change : Change w (w.callSoon worker) := step_change w (.callSoon worker)
  simp only [Writer.callSoon] at change ⊢
  split at change
  · next topic req offset rest hjob =>
      exact ok.same_log change rfl (ok.single.set hjob rfl fun _ => rfl) rfl
  · exact ok.same_log change rfl (ok.single.eraseIdx worker) rfl
  · exact ok

theorem InOrder.start (ok : w.InOrder) (h : w.OneBatch .start) : w.start.InOrder := by
  have change : Change w w.start := step_change w .start
  obtain heq | ⟨job, rest, hqueue, hfree, heq⟩ := start_cases w
  · rw [heq]
    exact ok
  · rw [heq] at change ⊢
    refine ok.same_log change rfl ?_ rfl
    refine List.pairwise_append.mpr ⟨ok.single, List.pairwise_singleton _ _, ?_⟩
    intro a ha b hb htopic
    rw [List.mem_singleton.mp hb] at htopic
    exact Or.inl (h hfree job (by simp [hqueue]) a ha htopic)

theorem InOrder.collects (ok : w.InOrder) (change : Change w w') (h : Collects w w') :
    w'.InOrder :=
  ok.same_log change h.appended (h.workers ▸ ok.single) h.log

theorem InOrder.step (ok : w.InOrder) {e : WriterEvent} (h : w.OneBatch e) :
    (w.step e).InOrder := by
  have change := step_change w e
  cases e with
  | submit producerId topic data createdAt callback =>
      simp only [Writer.step] at change ⊢
      split
      · next hrunning =>
          rw [if_pos hrunning] at change
          exact ok.same_log change rfl ok.single rfl
      · exact ok
  | dequeue topic =>
      simp only [Writer.step] at change ⊢
      split
      · next hrunning =>
          rw [if_pos hrunning] at change
          exact ok.collects change (dequeue_collects w topic)
      · exact ok
  | timeout topic =>
      simp only [Writer.step] at change ⊢
      split
      · next hrunning =>
          rw [if_pos hrunning] at change
          exact ok.collects change (timeout_collects w topic)
      · exact ok
  | start => exact ok.start h
  | write worker env => exact ok.write worker env
  | callSoon worker => exact ok.callSoon worker
  | runReady =>
      simp only [Writer.step, runReady]
      repeat' split
      all_goals exact ok.same_log (.keeps rfl rfl fun _ => rfl) rfl ok.single rfl
  | cancel number =>
      simp only [Writer.step]
      split
      all_goals exact ok.same_log (.keeps rfl rfl fun _ => rfl) rfl ok.single rfl
  | close =>
      simp only [Writer.step]
      split
      · exact ok.same_log (.shrinks rfl rfl (close_line w)) rfl ok.single rfl
      · exact ok
  | shutdown =>
      simp only [Writer.step]
      split
      all_goals exact ok.same_log (.keeps rfl rfl fun _ => rfl) rfl ok.single rfl
  | other op => exact ok.keeps change rfl ok.single (apply_offsets ok.shaped op)

theorem inOrder_new {config : WriterConfig} {log : LogManager} (shaped : log.registry.Shaped)
    (h : Writer.new config log = some w) : w.InOrder := by
  have tidy := tidy_new h
  simp only [Writer.new] at h
  split at h
  · cases h
  · cases h
    exact ⟨tidy, shaped, List.Pairwise.nil, by simp, by simp, by simp⟩

end

/-- The offsets of a topic's requests follow the order of their submission. -/
def SubmissionOrder (w : Writer) : Prop :=
  ∀ p ∈ w.appended, ∀ q ∈ w.appended, p.1.topic = q.1.topic → p.1.number < q.1.number → p.2 < q.2

instance (w : Writer) : Decidable w.SubmissionOrder :=
  inferInstanceAs (Decidable (∀ p ∈ w.appended, ∀ q ∈ w.appended, p.1.topic = q.1.topic →
    p.1.number < q.1.number → p.2 < q.2))

/-- A single worker takes a batch only when it has finished the one before. -/
theorem oneBatch_of_one_worker {w : Writer} (h : w.config.maxWorkers = 1)
    (events : List WriterEvent) : MeetsAll advance OneBatch w events := by
  induction events generalizing w with
  | nil => trivial
  | cons e events ih =>
      refine ⟨?_, ih ((congrArg WriterConfig.maxWorkers (step_config w e)).trans h)⟩
      cases e with
      | start =>
          intro hfree job hjob other hother
          rw [h] at hfree
          have hnone : w.workers = [] := List.length_eq_zero_iff.mp (by omega)
          rw [hnone] at hother
          cases hother
      | _ => trivial

/-- If no two workers have messages of one topic at a time, requests are appended in the
order of their submission. -/
theorem appended_in_submission_order (config : WriterConfig) (logConfig : LogConfig)
    (importTime : Time) (w : Writer) (events : List WriterEvent)
    (hnew : Writer.new config (LogManager.start logConfig importTime) = some w)
    (single : MeetsAll advance OneBatch w events) :
    (run advance w events).SubmissionOrder := by
  have shaped : (LogManager.start logConfig importTime).registry.Shaped := by
    simp [LogManager.start, SegmentRegistry.Shaped]
  have ok : (run advance w events).InOrder :=
    single.invariant InOrder (fun w e ok h => ok.step h) (inOrder_new shaped hnew)
  exact ok.ordered

/-- Two requests of one topic, each flushed in a batch of its own by the timeout. -/
def twoBatches : List WriterEvent :=
  [.submit "p" "t" [7] 1 true, .dequeue "t", .timeout "t",
    .submit "p" "t" [8] 1 true, .dequeue "t", .timeout "t"]

/-- The second batch is taken when the first one has been written. -/
theorem appended_in_submission_order_batches :
    let w := run advance fresh
      (twoBatches ++ [.start, .write 0 ⟨1, .succeed⟩, .start, .write 1 ⟨1, .succeed⟩])
    w.appended.map (fun p => (p.1.number, p.2)) = [(0, 0), (1, 5)] ∧ w.SubmissionOrder :=
  ⟨by decide +kernel, appended_in_submission_order {} ⟨"data", 0, 1000000, 100, 16, 16, 4⟩ 0
    fresh _ rfl (by decide +kernel)⟩

/-- Two workers of the default pool take a batch each, and the later one is faster. -/
theorem later_batch_first :
    let w := run advance fresh
      (twoBatches ++ [.start, .start, .write 1 ⟨1, .succeed⟩, .write 0 ⟨1, .succeed⟩])
    Writer.new {} emptyLog = some fresh ∧
      w.appended.map (fun p => (p.1.number, p.1.topic, p.2)) = [(1, "t", 0), (0, "t", 5)] ∧
      ¬ w.SubmissionOrder := by
  refine ⟨rfl, ?_, ?_⟩
  · decide +kernel
  · decide +kernel

end Writer
end PyLogStream
