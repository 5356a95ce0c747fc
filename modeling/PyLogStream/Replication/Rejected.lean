import PyLogStream.Replication.Calls
import PyLogStream.Replication.InSync

/-!
What a rejected fetch leaves behind. A replica that is not in the list is turned away
at once, but every other fetch refreshes the watermark and is recorded before the log is
read, so that a read that raises comes too late. Nothing is left only if the fetch says
what was recorded anyway and the watermark it refreshed can never be told from one that
is computed later.
-/

namespace PyLogStream
open Lib

namespace ReplicaLeader

/-- The logs that later calls find: the end of the topic never moves back. -/
def GrowsFrom (topic : String) : Int → List (LogManager × LeaderCall) → Prop
  | _, [] => True
  | logEnd, (lm, _) :: later =>
    ∃ logEnd', lm.getLatestOffset topic = .ok logEnd' ∧ logEnd ≤ logEnd' ∧
      GrowsFrom topic logEnd' later

/-- The watermarks of later calls. -/
def watermarks (leader : ReplicaLeader) : List (LogManager × LeaderCall) → List (Option Int)
  | [] => []
  | (lm, c) :: later => leader.watermarkOf lm c :: watermarks (leader.call lm c).1 later

/-- A leader that nobody can tell from the other by its records or by any later
watermark. -/
structure Unaffected (leader leader' : ReplicaLeader) (logEnd : Int) : Prop where
  offsets : ∀ r, leader'.offsetOf r = leader.offsetOf r
  caughtup : ∀ r, leader'.caughtupOf r = leader.caughtupOf r
  isr : leader'.inSyncReplica = leader.inSyncReplica
  later : ∀ later, GrowsFrom leader.topic logEnd later →
    leader'.watermarks later = leader.watermarks later

/-- The fetch repeats what is recorded, and the watermark is up to date or cannot fall
below its present value by a change of the in-sync replicas. -/
def LeavesNothing (leader : ReplicaLeader) (logEnd : Int) (now : Time)
    (cmd : ReplicaFetchCommand) : Prop :=
  (cmd.replicaId ≠ leader.id → leader.offsetOf leader.id = logEnd) ∧
    leader.offsetOf cmd.replicaId = cmd.offset ∧
    (cmd.offset = logEnd → leader.caughtupOf cmd.replicaId = now) ∧
    ((∃ r ∈ leader.inSyncReplica, leader.ackedAt logEnd r ≤ leader.highWatermark) ∨
      leader.id ∉ leader.replicaList ∨
      ∀ r ∈ leader.replicaList, ∃ r' ∈ leader.inSyncReplica,
        leader.ackedAt logEnd r' ≤ leader.ackedAt logEnd r)

instance (leader : ReplicaLeader) (logEnd : Int) (now : Time) (cmd : ReplicaFetchCommand) :
    Decidable (leader.LeavesNothing logEnd now cmd) :=
  inferInstanceAs (Decidable (_ ∧ _))

/-- Two leaders with the same settings and records. -/
structure Alike (leader leader' : ReplicaLeader) : Prop where
  topic : leader'.topic = leader.topic
  id : leader'.id = leader.id
  replicaList : leader'.replicaList = leader.replicaList
  minIsrCount : leader'.minIsrCount = leader.minIsrCount
  maxIsrLagMs : leader'.maxIsrLagMs = leader.maxIsrLagMs
  isr : leader'.inSyncReplica = leader.inSyncReplica
  offsets : leader'.offsetOf = leader.offsetOf
  caughtup : leader'.caughtupOf = leader.caughtupOf

/-- The watermark of the second leader is ahead of the first's, but every replica that
is in sync or may become so has acknowledged it. -/
structure AheadUnseen (leader leader' : ReplicaLeader) (logEnd : Int) : Prop where
  ahead : leader.highWatermark ≤ leader'.highWatermark
  acked : ∀ r, r ∈ leader.inSyncReplica ∨ (leader.id ∈ leader.replicaList ∧ r ∈ leader.replicaList) →
    leader'.highWatermark ≤ leader.ackedAt logEnd r

/-- What a fetch that leaves nothing makes of a leader. -/
structure Untold (leader leader' : ReplicaLeader) (logEnd : Int) : Prop where
  alike : Alike leader leader'
  member : leader.id ∈ leader.inSyncReplica
  watermark : leader'.highWatermark = leader.highWatermark ∨ AheadUnseen leader leader' logEnd

section
variable {leader leader' : ReplicaLeader} {lm : LogManager} {logEnd : Int}

theorem ackedAt_mono {logEnd' : Int} (h : logEnd ≤ logEnd') (r : String) :
    leader.ackedAt logEnd r ≤ leader.ackedAt logEnd' r := by
  simp only [ackedAt]
  split
  · exact h
  · exact le_refl _

theorem Untold.mono {logEnd' : Int} (untold : Untold leader leader' logEnd)
    (h : logEnd ≤ logEnd') : Untold leader leader' logEnd' := by
  refine ⟨untold.alike, untold.member, untold.watermark.imp_right fun unseen => ?_⟩
  exact ⟨unseen.ahead, fun r hr => (unseen.acked r hr).trans (ackedAt_mono h r)⟩

theorem Alike.ackedAt (alike : Alike leader leader') (logEnd : Int) :
    leader'.ackedAt logEnd = leader.ackedAt logEnd := by
  funext r
  simp only [ReplicaLeader.ackedAt, alike.id, alike.offsets]

theorem Alike.leastAcked (alike : Alike leader leader') (logEnd : Int) :
    leader'.leastAcked logEnd = leader.leastAcked logEnd := by
  simp only [ReplicaLeader.leastAcked, alike.isr, alike.ackedAt]

theorem Alike.newIsr (alike : Alike leader leader') (now : Time) :
    leader'.newIsr now = leader.newIsr now := by
  have hlag : leader'.lagOf now = leader.lagOf now := by
    funext r
    rw [lagOf, lagOf, alike.caughtup]
  unfold ReplicaLeader.newIsr
  rw [hlag, alike.replicaList, alike.id, alike.minIsrCount, alike.maxIsrLagMs]

/-- Once the watermark is computed, the two leaders have the same. -/
theorem Untold.settled (untold : Untold leader leader' logEnd) :
    (leader'.settled logEnd).highWatermark = (leader.settled logEnd).highWatermark ∧
      Alike (leader.settled logEnd) (leader'.settled logEnd) := by
  have alike := untold.alike
  constructor
  · simp only [ReplicaLeader.settled, alike.leastAcked]
    cases untold.watermark with
    | inl heq => rw [heq]
    | inr unseen =>
        have hne := List.ne_nil_of_mem untold.member
        have hle : leader'.highWatermark ≤ leader.leastAcked logEnd :=
          (le_leastAcked_iff hne _).mpr fun r hr => unseen.acked r (Or.inl hr)
        rw [max_eq_right hle, max_eq_right (unseen.ahead.trans hle)]
  · refine ⟨alike.topic, alike.id, alike.replicaList, alike.minIsrCount, alike.maxIsrLagMs,
      alike.isr, ?_, alike.caughtup⟩
    funext r
    rw [offsetOf_settled, offsetOf_settled, alike.ackedAt]

theorem offsetOf_recorded (now : Time) (cmd : ReplicaFetchCommand) (r : String) :
    (leader.recorded logEnd now cmd).offsetOf r =
      if r = cmd.replicaId then cmd.offset else leader.ackedAt logEnd r := by
  rw [recorded, ← offsetOf_settled]
  exact offsetOf_set (leader.settled logEnd) cmd.replicaId r cmd.offset

theorem caughtupOf_recorded (now : Time) (cmd : ReplicaFetchCommand) (r : String) :
    (leader.recorded logEnd now cmd).caughtupOf r =
      if cmd.offset = logEnd ∧ r = cmd.replicaId then now else leader.caughtupOf r := by
  simp only [recorded, caughtupOf]
  by_cases hend : cmd.offset = logEnd
  · by_cases hr : r = cmd.replicaId
    · simp [hend, hr]
    · simp [hend, hr, Dict.get?_set_of_ne]
  · simp [hend]

theorem Untold.recorded (untold : Untold leader leader' logEnd) (now : Time)
    (cmd : ReplicaFetchCommand) :
    Untold (leader.recorded logEnd now cmd) (leader'.recorded logEnd now cmd) logEnd := by
  obtain ⟨hw, alike⟩ := untold.settled
  refine ⟨⟨alike.topic, alike.id, alike.replicaList, alike.minIsrCount, alike.maxIsrLagMs,
    alike.isr, ?_, ?_⟩, untold.member, Or.inl hw⟩
  · funext r
    rw [offsetOf_recorded, offsetOf_recorded, untold.alike.ackedAt]
  · funext r
    rw [caughtupOf_recorded, caughtupOf_recorded, untold.alike.caughtup]

theorem Untold.updateIsr (untold : Untold leader leader' logEnd) (now : Time)
    (hlisted : leader.id ∈ leader.replicaList) :
    Untold { leader with inSyncReplica := leader.newIsr now }
      { leader' with inSyncReplica := leader'.newIsr now } logEnd := by
  have alike := untold.alike
  refine ⟨⟨alike.topic, alike.id, alike.replicaList, alike.minIsrCount, alike.maxIsrLagMs,
    alike.newIsr now, alike.offsets, alike.caughtup⟩, List.mem_cons_self, ?_⟩
  refine untold.watermark.imp_right fun unseen => ⟨unseen.ahead, fun r hr => ?_⟩
  refine unseen.acked r (Or.inr ⟨hlisted, ?_⟩)
  rcases hr with hnew | hreplica
  · rcases mem_newIsr.mp hnew with rfl | hquota | hlag
    · exact hlisted
    · exact mem_replicaList_of_closest (List.mem_of_mem_take hquota)
    · exact mem_replicaList_of_closest hlag.1
  · exact hreplica.2

/-- A call answers the same on both, and they stay what they are. -/
theorem Untold.call (untold : Untold leader leader' logEnd)
    (h : lm.getLatestOffset leader.topic = .ok logEnd) (c : LeaderCall) :
    leader'.watermarkOf lm c = leader.watermarkOf lm c ∧
      Untold (leader.call lm c).1 (leader'.call lm c).1 logEnd := by
  have alike := untold.alike
  have h' : lm.getLatestOffset leader'.topic = .ok logEnd := alike.topic ▸ h
  have hne := List.ne_nil_of_mem untold.member
  have hne' : leader'.inSyncReplica ≠ [] := alike.isr ▸ hne
  obtain ⟨hw, hsettled⟩ := untold.settled
  have hread := getHighWatermark_eq h hne
  have hread' := getHighWatermark_eq h' hne'
  cases c with
  | handle env cmd =>
      rw [call_handle h hne, call_handle h' hne', alike.replicaList]
      simp only [watermarkOf, hread, hread', hw, alike.replicaList, true_and]
      split
      · exact untold.recorded env.now cmd
      · exact untold
  | updateIsr now =>
      rw [call_updateIsr, call_updateIsr]
      refine ⟨rfl, ?_⟩
      have hlisted' : leader'.id ∈ leader'.replicaList ↔ leader.id ∈ leader.replicaList := by
        rw [alike.id, alike.replicaList]
      by_cases hlisted : leader.id ∈ leader.replicaList
      · rw [if_pos hlisted, if_pos (hlisted'.mpr hlisted)]
        exact untold.updateIsr now hlisted
      · rw [if_neg hlisted, if_neg (mt hlisted'.mp hlisted)]
        exact untold
  | getHighWatermark =>
      rw [call_getHighWatermark h hne, call_getHighWatermark h' hne']
      simp only [watermarkOf, hread, hread', hw, true_and]
      exact ⟨hsettled, untold.member, Or.inl hw⟩
  | waitForHw offset fut =>
      rw [call_waitForHw h hne, call_waitForHw h' hne']
      refine ⟨by simp only [watermarkOf, hread, hread', hw], ?_⟩
      by_cases hge : (leader.settled logEnd).highWatermark ≥ offset
      · rw [if_pos hge, if_pos (hw ▸ hge)]
        exact ⟨hsettled, untold.member, Or.inl hw⟩
      · rw [if_neg hge, if_neg (hw ▸ hge)]
        exact ⟨⟨hsettled.topic, hsettled.id, hsettled.replicaList, hsettled.minIsrCount,
          hsettled.maxIsrLagMs, hsettled.isr, hsettled.offsets, hsettled.caughtup⟩,
          untold.member, Or.inl hw⟩

/-- No later watermark tells the two leaders apart. -/
theorem Untold.watermarks {later : List (LogManager × LeaderCall)}
    (untold : Untold leader leader' logEnd) (grows : GrowsFrom leader.topic logEnd later) :
    leader'.watermarks later = leader.watermarks later := by
  induction later generalizing leader leader' logEnd with
  | nil => rfl
  | cons entry later ih =>
      obtain ⟨lm, c⟩ := entry
      obtain ⟨logEnd', h, hle, grows'⟩ := grows
      obtain ⟨hcall, untold'⟩ := (untold.mono hle).call h c
      rw [ReplicaLeader.watermarks, ReplicaLeader.watermarks, hcall,
        ih untold' ((call_kept h (List.ne_nil_of_mem untold.member) c).1 ▸ grows')]

theorem records_kept_iff (leader : ReplicaLeader) (logEnd : Int) (now : Time)
    (cmd : ReplicaFetchCommand) :
    ((∀ r, (leader.recorded logEnd now cmd).offsetOf r = leader.offsetOf r) ↔
      (cmd.replicaId ≠ leader.id → leader.offsetOf leader.id = logEnd) ∧
        leader.offsetOf cmd.replicaId = cmd.offset) ∧
    ((∀ r, (leader.recorded logEnd now cmd).caughtupOf r = leader.caughtupOf r) ↔
      (cmd.offset = logEnd → leader.caughtupOf cmd.replicaId = now)) := by
  simp only [offsetOf_recorded, caughtupOf_recorded, ackedAt]
  constructor
  · constructor
    · intro h
      refine ⟨fun hne => ?_, ?_⟩
      · simpa [Ne.symm hne] using (h leader.id).symm
      · simpa using (h cmd.replicaId).symm
    · rintro ⟨hown, hoffset⟩ r
      split
      · next hr => rw [hr, hoffset]
      · next hr =>
          split
          · next hid => rw [hid, hown fun heq => hr (hid.trans heq.symm)]
          · rfl
  · constructor
    · intro h hend
      simpa [hend] using (h cmd.replicaId).symm
    · intro hnow r
      split
      · next hboth => rw [hboth.2, hnow hboth.1]
      · rfl

/-- The watermark that the fetch refreshed cannot be told from a later one. -/
theorem LeavesNothing.untold {now : Time} {cmd : ReplicaFetchCommand}
    (nothing : leader.LeavesNothing logEnd now cmd) (member : leader.id ∈ leader.inSyncReplica) :
    Untold leader (leader.recorded logEnd now cmd) logEnd := by
  obtain ⟨hown, hoffset, hnow, hmark⟩ := nothing
  obtain ⟨hoffsets, hcaughtup⟩ := records_kept_iff leader logEnd now cmd
  refine ⟨⟨rfl, rfl, rfl, rfl, rfl, rfl, funext (hoffsets.mpr ⟨hown, hoffset⟩),
    funext (hcaughtup.mpr hnow)⟩, member, ?_⟩
  have hne := List.ne_nil_of_mem member
  have hvalue : (leader.recorded logEnd now cmd).highWatermark =
      max leader.highWatermark (leader.leastAcked logEnd) := rfl
  have hleast := (le_leastAcked_iff hne _).mp (le_refl (leader.leastAcked logEnd))
  rcases le_total (leader.leastAcked logEnd) leader.highWatermark with hold | hnew
  · exact Or.inl (hvalue.trans (max_eq_left hold))
  · rcases hmark with ⟨r, hr, hle⟩ | hother
    · exact Or.inl (hvalue.trans (max_eq_left ((hleast r hr).trans hle)))
    · refine Or.inr ⟨hvalue ▸ le_max_left _ _, fun r hr => ?_⟩
      rw [hvalue, max_eq_right hnew]
      rcases hr with hsync | ⟨hlisted, hreplica⟩
      · exact hleast r hsync
      · obtain ⟨r', hr', hle⟩ := hother.resolve_left (not_not_intro hlisted) r hreplica
        exact (hleast r' hr').trans hle

/-- What the watermark is when the in-sync replicas were recomputed just before. -/
theorem watermarks_updateIsr (leader : ReplicaLeader) (h : lm.getLatestOffset leader.topic = .ok logEnd)
    (hlisted : leader.id ∈ leader.replicaList) (clock : Time) :
    leader.watermarks [(lm, .updateIsr clock), (lm, .getHighWatermark)] =
      [none, some (max leader.highWatermark
        ({ leader with inSyncReplica := leader.newIsr clock }.leastAcked logEnd))] := by
  have hread : { leader with inSyncReplica := leader.newIsr clock }.getHighWatermark lm = _ :=
    getHighWatermark_eq h (List.cons_ne_nil _ _)
  simp only [watermarks, call_updateIsr, if_pos hlisted, watermarkOf, hread, settled]

/-- A replica behind the watermark that the fetch has stored can be admitted later, and
then only the stored value keeps the watermark where it is. -/
theorem Unaffected.mark {now : Time} {cmd : ReplicaFetchCommand}
    (unaffected : Unaffected leader (leader.recorded logEnd now cmd) logEnd)
    (h : lm.getLatestOffset leader.topic = .ok logEnd)
    (member : leader.id ∈ leader.inSyncReplica) :
    (∃ r ∈ leader.inSyncReplica, leader.ackedAt logEnd r ≤ leader.highWatermark) ∨
      leader.id ∉ leader.replicaList ∨
      ∀ r ∈ leader.replicaList, ∃ r' ∈ leader.inSyncReplica,
        leader.ackedAt logEnd r' ≤ leader.ackedAt logEnd r := by
  by_contra hnot
  simp only [not_or, not_exists, not_and, not_le, not_not, not_forall] at hnot
  obtain ⟨habove, hlisted, r, hr, hbehind⟩ := hnot
  have hne := List.ne_nil_of_mem member
  have hstored : leader.highWatermark < leader.leastAcked logEnd :=
    (le_leastAcked_iff hne _).mpr habove
  have hleft : leader.ackedAt logEnd r < leader.leastAcked logEnd :=
    (le_leastAcked_iff hne _).mpr hbehind
  -- at this clock reading the replica counts as in sync
  let clock : Time := leader.maxIsrLagMs + leader.caughtupOf r
  have hadmitted : r ∈ leader.newIsr clock := by
    refine mem_newIsr.mpr ?_
    by_cases hid : r = leader.id
    · exact Or.inl hid
    · refine Or.inr (Or.inr ⟨closest_perm.mem_iff.mpr ((List.mem_erase_of_ne hid).mpr hr), ?_⟩)
      simp [lagOf, clock]
  have hfalls : { leader with inSyncReplica := leader.newIsr clock }.leastAcked logEnd ≤
      leader.ackedAt logEnd r :=
    (le_leastAcked_iff (List.cons_ne_nil _ _) _).mp (le_refl _) r hadmitted
  have hsame := unaffected.later [(lm, .updateIsr clock), (lm, .getHighWatermark)]
    ⟨logEnd, h, le_refl _, logEnd, h, le_refl _, trivial⟩
  rw [watermarks_updateIsr (leader.recorded logEnd now cmd) h hlisted,
    watermarks_updateIsr leader h hlisted] at hsame
  simp only [List.cons.injEq, Option.some.injEq, true_and, and_true] at hsame
  have hkept : leader.leastAcked logEnd ≤ (leader.recorded logEnd now cmd).highWatermark :=
    le_max_right _ _
  have := le_max_left (leader.recorded logEnd now cmd).highWatermark
    ({ leader.recorded logEnd now cmd with
      inSyncReplica := (leader.recorded logEnd now cmd).newIsr clock }.leastAcked logEnd)
  omega

theorem unaffected_iff_leavesNothing (h : lm.getLatestOffset leader.topic = .ok logEnd)
    (member : leader.id ∈ leader.inSyncReplica) (now : Time) (cmd : ReplicaFetchCommand) :
    Unaffected leader (leader.recorded logEnd now cmd) logEnd ↔
      leader.LeavesNothing logEnd now cmd := by
  obtain ⟨hoffsets, hcaughtup⟩ := records_kept_iff leader logEnd now cmd
  constructor
  · intro unaffected
    obtain ⟨hown, hoffset⟩ := hoffsets.mp unaffected.offsets
    exact ⟨hown, hoffset, hcaughtup.mp unaffected.caughtup, unaffected.mark h member⟩
  · intro nothing
    have untold := nothing.untold member
    exact ⟨hoffsets.mpr ⟨nothing.1, nothing.2.1⟩, hcaughtup.mpr nothing.2.2.1, rfl,
      fun later grows => untold.watermarks grows⟩

theorem unaffected_self (leader : ReplicaLeader) (logEnd : Int) :
    Unaffected leader leader logEnd := ⟨fun _ => rfl, fun _ => rfl, rfl, fun _ _ => rfl⟩

end
end ReplicaLeader

namespace LeaderOverLog
open ReplicaLeader

/-- In any reachable state, a fetch that raises leaves the leader as it was exactly if
the replica is not in the list, or the fetch records nothing new. -/
theorem rejected_fetch_unaffected_iff (config : LogConfig) (importTime : Time) (ops : List LogOp)
    (topic id : String) (replicaList : List String) (minIsrCount maxIsrLagMs : Int)
    (leader : ReplicaLeader)
    (hnew : ReplicaLeader.new topic id replicaList
      (run LogManager.apply (LogManager.start config importTime) ops) minIsrCount maxIsrLagMs =
        .ok leader) (turns : List LeaderTurn) :
    let s := run step ⟨run LogManager.apply (LogManager.start config importTime) ops, leader⟩ turns
    ∃ logEnd, s.log.getLatestOffset s.leader.topic = .ok logEnd ∧
      ∀ env cmd err, (s.leader.handle s.log env cmd).2.2 = .error err →
        (Unaffected s.leader (s.leader.handle s.log env cmd).1 logEnd ↔
          cmd.replicaId ∉ s.leader.replicaList ∨
            s.leader.LeavesNothing logEnd env.now cmd) := by
  intro s
  have ok : Grounded s := (grounded_new (shaped_run config importTime ops) hnew).run turns
  obtain ⟨logEnd, h⟩ := ok.known
  refine ⟨logEnd, h, fun env cmd err _ => ?_⟩
  rw [handle_fst h ok.isr_ne_nil]
  by_cases hauth : cmd.replicaId ∈ s.leader.replicaList
  · rw [if_pos hauth, unaffected_iff_leavesNothing h ok.member, or_iff_right (not_not_intro hauth)]
  · rw [if_neg hauth]
    exact iff_of_true (unaffected_self s.leader logEnd) (Or.inl hauth)

/-- A follower that asks for the end of an empty log, where it already is. -/
def asksAtEnd : List LeaderTurn :=
  [.call (.updateIsr 1), .call (.handle ⟨2, .succeed⟩ ⟨"t", 0, 100, "f"⟩)]

/-- The same request at the same time is rejected again, and changes nothing. -/
theorem rejected_fetch_unaffected_iff_again :
    let s := run step ⟨logAfter [], leaderAt 0⟩ asksAtEnd
    Unaffected s.leader (s.leader.handle s.log ⟨2, .succeed⟩ ⟨"t", 0, 100, "f"⟩).1 0 := by
  obtain ⟨logEnd, h, hiff⟩ := rejected_fetch_unaffected_iff
    ⟨"data", 0, 1000000, 100, 16, 16, 4⟩ 0 [.createTopic "t"] "t" "l" ["l", "f"] 2 10000
    (leaderAt 0) (by decide +kernel) asksAtEnd
  have hend : (run step ⟨logAfter [], leaderAt 0⟩ asksAtEnd).log.getLatestOffset "t" = .ok 0 := by
    decide +kernel
  obtain rfl : logEnd = 0 := Except.ok.inj (h.symm.trans hend)
  exact (hiff ⟨2, .succeed⟩ ⟨"t", 0, 100, "f"⟩ (.log (.offsetNotFound 0 "t")) (by decide +kernel)).mpr
    (Or.inr (by decide +kernel))

/-- A fetch far beyond the end is rejected, but the follower then counts as having
everything, and the watermark moves to the end of the log. -/
theorem rejected_fetch_moves_watermark :
    let s := run step ⟨logAfter [[7]], leaderAt 5⟩
      [.call (.updateIsr 1), .log (.append "t" ⟨0, .succeed⟩ [8])]
    let leader' := (s.leader.handle s.log ⟨2, .succeed⟩ ⟨"t", 900, 100, "f"⟩).1
    ReplicaLeader.new "t" "l" ["l", "f"] (logAfter [[7]]) 2 10000 = .ok (leaderAt 5) ∧
      (s.leader.handle s.log ⟨2, .succeed⟩ ⟨"t", 900, 100, "f"⟩).2.2.isOk = false ∧
      s.leader.offsetOf "f" = 0 ∧ leader'.offsetOf "f" = 900 ∧
      s.leader.watermarks [(s.log, .getHighWatermark)] = [some 5] ∧
      leader'.watermarks [(s.log, .getHighWatermark)] = [some 10] ∧
      ¬ Unaffected s.leader leader' 10 := by
  refine ⟨by decide +kernel, by decide +kernel, by decide +kernel, by decide +kernel,
    by decide +kernel, by decide +kernel, fun unaffected => ?_⟩
  exact absurd (unaffected.offsets "f") (by decide +kernel)

end LeaderOverLog
end PyLogStream
