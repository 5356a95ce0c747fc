import PyLogStream.Network.Lines
import Mathlib.Algebra.Order.BigOperators.Group.List

/-!
How large a batch gets. A collector looks at the limits after each request from the second
one on, so that a batch that it keeps is below both of them, and a batch that it hands over
exceeds them by its last request at most. The size of a first request is not looked at.
-/

namespace PyLogStream
open Lib

namespace Writer

/-- From the second request on, the batch is below both limits. -/
def Below (config : WriterConfig) (batch : List WriteRequest) : Prop :=
  2 ≤ batch.length → (batch.length : Int) < config.maxBatchSize ∧
    (batchBytes batch : Int) < config.maxBatchBytes

/-- Collectors keep batches below the limits; a batch before the thread pool is not empty
and was below them without its last request. -/
structure Limited (w : Writer) : Prop where
  collects : ∀ topic collector, w.topicTask.get? topic = some collector →
    Below w.config collector.batch
  handsOver : ∀ job ∈ w.workQueue, job.batch ≠ [] ∧ Below w.config job.batch.dropLast

section
variable {w w' : Writer} {config : WriterConfig} {batch : List WriteRequest} {topic : String}

theorem below_of_short (h : batch.length < 2) : Below config batch := fun hlong => by omega

theorem Below.dropLast (h : Below config batch) : Below config batch.dropLast := by
  intro hlong
  rw [List.length_dropLast] at hlong
  have hbytes : batchBytes batch.dropLast ≤ batchBytes batch :=
    ((List.dropLast_sublist batch).map _).sum_le_sum fun _ _ => Nat.zero_le _
  obtain ⟨hsize, hlimit⟩ := h (by omega)
  rw [List.length_dropLast]
  omega

/-- Neither collectors nor the batches they hand over change, but for what workers take. -/
theorem Limited.keeps (limited : w.Limited) (hconfig : w'.config = w.config)
    (htasks : w'.topicTask = w.topicTask) (hqueue : w'.workQueue ⊆ w.workQueue) : w'.Limited := by
  constructor
  · rw [hconfig, htasks]
    exact limited.collects
  · intro job hjob
    rw [hconfig]
    exact limited.handsOver job (hqueue hjob)

theorem Limited.collect (limited : w.Limited) (hconfig : w'.config = w.config)
    {collector : Collector} (htasks : w'.topicTask = w.topicTask.set topic collector)
    (hbelow : Below w.config collector.batch) (hqueue : w'.workQueue = w.workQueue) :
    w'.Limited := by
  constructor
  · intro t collector' hget
    rw [htasks, Dict.get?_set] at hget
    rw [hconfig]
    split at hget
    · obtain rfl := Option.some.inj hget
      exact hbelow
    · exact limited.collects t collector' hget
  · rw [hconfig, hqueue]
    exact limited.handsOver

theorem Limited.flush (limited : w.Limited) (hne : batch ≠ [])
    (hbelow : Below w.config batch.dropLast) : (w.flush topic batch).Limited := by
  constructor
  · intro t collector hget
    rw [Writer.flush, Dict.get?_set] at hget
    split at hget
    · obtain rfl := Option.some.inj hget
      exact below_of_short (Nat.zero_lt_succ 1)
    · exact limited.collects t collector hget
  · intro job hjob
    cases List.mem_append.mp hjob with
    | inl hold => exact limited.handsOver job hold
    | inr hnew =>
        obtain rfl := List.mem_singleton.mp hnew
        exact ⟨hne, hbelow⟩

theorem Limited.submit (limited : w.Limited) (req : WriteRequest) : (w.submit req).Limited := by
  cases hstarted : (w.topicTask.get? req.topic).isSome with
  | true => exact limited.keeps rfl (if_pos hstarted) (List.Subset.refl _)
  | false =>
      exact limited.collect rfl (if_neg (by simp [hstarted])) (below_of_short (Nat.zero_lt_succ 1))
        rfl

theorem Limited.dequeue (limited : w.Limited) (topic : String) : (w.dequeue topic).Limited := by
  simp only [Writer.dequeue]
  split
  · next batch req rest htask _ =>
      have hbelow := limited.collects topic _ htask
      have moved : Limited { w with topicQueue := w.topicQueue.set topic rest } :=
        limited.keeps rfl rfl (List.Subset.refl _)
      split
      · exact moved.collect rfl rfl (below_of_short (Nat.lt_succ_self 1)) rfl
      · split
        · refine moved.flush (List.concat_ne_nil req batch) ?_
          rw [List.dropLast_concat]
          exact hbelow
        · next hlimits =>
            rw [not_or, not_le, not_le] at hlimits
            exact moved.collect rfl rfl (fun _ => hlimits) rfl
  · exact limited

theorem Limited.timeout (limited : w.Limited) (topic : String) : (w.timeout topic).Limited := by
  simp only [Writer.timeout]
  split
  · next req rest htask =>
      have hbelow := limited.collects topic _ htask
      exact limited.flush (List.cons_ne_nil req rest) hbelow.dropLast
  · exact limited

theorem Limited.step (limited : w.Limited) (e : WriterEvent) : (w.step e).Limited := by
  cases e with
  | submit producerId topic data createdAt callback =>
      simp only [Writer.step]
      split
      · exact limited.submit _
      · exact limited
  | dequeue topic =>
      simp only [Writer.step]
      split
      · exact limited.dequeue topic
      · exact limited
  | timeout topic =>
      simp only [Writer.step]
      split
      · exact limited.timeout topic
      · exact limited
  | start =>
      obtain heq | ⟨job, rest, hqueue, -, heq⟩ := start_cases w
      · rw [Writer.step, heq]
        exact limited
      · rw [Writer.step, heq]
        exact limited.keeps rfl rfl (hqueue ▸ List.subset_cons_self job rest)
  | write worker env =>
      have hcase := writeCase w worker env
      rw [Writer.step]
      generalize w.write worker env = w' at hcase ⊢
      cases hcase with
      | idle => exact limited
      | fails | writes => exact limited.keeps rfl rfl (List.Subset.refl _)
  | _ =>
      simp only [Writer.step, callSoon, runReady, close]
      repeat' split
      all_goals exact limited.keeps rfl rfl (List.Subset.refl _)

end

/-- In every run, what a collector holds is below the limits from the second request on, and
a batch that is handed over exceeds them by its last request at most. -/
theorem batches_within_limits (config : WriterConfig) (log : LogManager) (w : Writer)
    (events : List WriterEvent) (hnew : Writer.new config log = some w) :
    let w' := run advance w events
    (∀ topic collector, w'.topicTask.get? topic = some collector → 2 ≤ collector.batch.length →
      (collector.batch.length : Int) < config.maxBatchSize ∧
        (batchBytes collector.batch : Int) < config.maxBatchBytes) ∧
    ∀ job ∈ w'.workQueue, job.batch ≠ [] ∧
      (job.batch.length : Int) ≤ max 2 config.maxBatchSize ∧
      (3 ≤ job.batch.length → (batchBytes job.batch.dropLast : Int) < config.maxBatchBytes) := by
  intro w'
  have start : w.config = config ∧ w.Limited := by
    simp only [Writer.new] at hnew
    split at hnew
    · cases hnew
    · cases hnew
      exact ⟨rfl, fun _ _ hget => by simp at hget, fun _ hjob => absurd hjob List.not_mem_nil⟩
  obtain ⟨hconfig, limited⟩ : w'.config = config ∧ w'.Limited :=
    run_keeps (fun w => w.config = config ∧ w.Limited)
      (fun w e _ h => ⟨(step_config w e).trans h.1, h.2.step e⟩) start
  rw [← hconfig]
  refine ⟨limited.collects, fun job hjob => ?_⟩
  obtain ⟨hne, hbelow⟩ := limited.handsOver job hjob
  have hlength := @List.length_dropLast _ job.batch
  refine ⟨hne, ?_, fun hlong => (hbelow (by omega)).2⟩
  by_cases hlong : 3 ≤ job.batch.length
  · have hsize := (hbelow (by omega)).1
    omega
  · omega

/-- Two requests that the timeout takes in one batch. -/
def twoInOne : List WriterEvent :=
  [.submit "p" "t" [7] 1 true, .submit "p" "t" [8] 1 true, .dequeue "t", .dequeue "t",
    .timeout "t"]

theorem batches_within_limits_twoInOne :
    let w := run advance fresh twoInOne
    w.workQueue.map (fun job => job.batch.length) = [2] ∧
      ∀ job ∈ w.workQueue, (job.batch.length : Int) ≤ 64 :=
  ⟨by decide +kernel, fun job hjob =>
    ((batches_within_limits {} emptyLog fresh twoInOne rfl).2 job hjob).2.1⟩

end Writer
end PyLogStream
