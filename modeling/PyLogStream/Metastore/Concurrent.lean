import PyLogStream.Metastore.Footprints

/-!
Two updates of the metastore that run concurrently on one controller. An operation
that runs alone writes a topic at most once, with the next version. The calls of
different operations are not ordered by any lock, so an update can be lost; if the
conflicting calls are all executed in the order of the operations, none is.
-/

namespace PyLogStream
open Lib ConsistentHashRing

def writesTo (path : String) (c : ZkMetastoreCall) : Bool := decide (c.writes = some path)

def setTopicCall (path : String) (t : TopicMetadata) : ZkMetastoreCall := .zk (.set path (.topic t))

section
variable (hash : String → Nat) (path : String)

/-- Run alone, the program writes the topic at the path once and with the next
version, or not at all. -/
def Rewrites {α : Type} (s : ZkMetastore) (p : ZkProg α) (t : TopicMetadata) : Prop :=
  (p.calls (ZkMetastore.handle hash) s).filter (writesTo path) = [] ∧
      (p.exec (ZkMetastore.handle hash) s).1.znodes.get? path = some (.topic t) ∨
    ∃ t', t'.version = t.version + 1 ∧
      (p.calls (ZkMetastore.handle hash) s).filter (writesTo path) = [setTopicCall path t'] ∧
      (p.exec (ZkMetastore.handle hash) s).1.znodes.get? path = some (.topic t')

end

section
variable {hash : String → Nat} {path : String} {s : ZkMetastore} {t : TopicMetadata} {α β : Type}

theorem quiet_calls (hash : String → Nat) {p : ZkProg α} {Q : α → Prop}
    (quiet : p.Within (Leaves path) Q) (s : ZkMetastore) :
    (p.calls (ZkMetastore.handle hash) s).filter (writesTo path) = [] := by
  refine List.filter_eq_nil_iff.mpr fun c hc => ?_
  have hleaves : c.writes ≠ some path := quiet.calls s c hc
  simpa [writesTo] using hleaves

theorem quiet_get? (hash : String → Nat) {p : ZkProg α} {Q : α → Prop}
    (quiet : p.Within (Leaves path) Q) (s : ZkMetastore) :
    (p.exec (ZkMetastore.handle hash) s).1.znodes.get? path = s.znodes.get? path := by
  have keep : ∀ (s' : ZkMetastore) c, Leaves path c →
      s'.znodes.get? path = s.znodes.get? path →
      (s'.handle hash c).1.znodes.get? path = s.znodes.get? path :=
    fun _ _ hleaves h => hleaves.get?.trans h
  exact quiet.exec_keeps keep rfl

theorem Rewrites.of_quiet {p : ZkProg α} (quiet : p.Within (Leaves path) fun _ => True)
    (stored : s.znodes.get? path = some (.topic t)) : Rewrites hash path s p t :=
  Or.inl ⟨quiet_calls hash quiet s, (quiet_get? hash quiet s).trans stored⟩

/-- A program that leaves the topic may run before. -/
theorem Rewrites.after {p : ZkProg α} {f : α → ZkProg β} {Q : α → Prop}
    (quiet : p.Within (Leaves path) Q) (stored : s.znodes.get? path = some (.topic t))
    (rest : ∀ s' a, p.exec (ZkMetastore.handle hash) s = (s', .ok a) → Q a →
      s'.znodes.get? path = some (.topic t) → Rewrites hash path s' (f a) t) :
    Rewrites hash path s (p >>= f) t := by
  have hcalls := quiet_calls hash quiet s
  have hkept := (quiet_get? hash quiet s).trans stored
  simp only [Rewrites, Prog.calls_bind, Prog.exec_bind, List.filter_append, hcalls, List.nil_append]
  cases hexec : p.exec (ZkMetastore.handle hash) s with
  | mk s' answer =>
      rw [hexec] at hkept
      cases answer with
      | ok a => exact rest s' a hexec (quiet.result hexec) hkept
      | error err => exact Or.inl ⟨rfl, hkept⟩

/-- A program that leaves the topic may run afterwards. -/
theorem Rewrites.before {p : ZkProg α} {f : α → ZkProg β} (h : Rewrites hash path s p t)
    (quiet : ∀ a, (f a).Within (Leaves path) fun _ => True) :
    Rewrites hash path s (p >>= f) t := by
  simp only [Rewrites, Prog.calls_bind, Prog.exec_bind, List.filter_append] at h ⊢
  cases hexec : p.exec (ZkMetastore.handle hash) s with
  | mk s' answer =>
      rw [hexec] at h
      cases answer with
      | ok a => simpa only [quiet_calls hash (quiet a), quiet_get? hash (quiet a), List.append_nil] using h
      | error err => simpa only [List.filter_nil, List.append_nil] using h

theorem Rewrites.updateTopic {t' : TopicMetadata} (hname : t'.topic = t.topic)
    (hversion : t'.version = t.version + 1)
    (stored : s.znodes.get? (topicPath t.topic) = some (.topic t)) :
    Rewrites hash (topicPath t.topic) s (ZkStorage.updateTopic t') t := by
  refine Or.inr ⟨t', hversion, ?_⟩
  rw [← hname] at stored ⊢
  simp [ZkStorage.updateTopic, ZkClient.nodeExists, ZkClient.set, Prog.perform, bind, Prog.bind,
    Prog.calls, Prog.exec, ZkMetastore.handle, Znodes.handle, stored, writesTo,
    ZkMetastoreCall.writes, setTopicCall]

/-- The call writes no topic. -/
def KeepsTopics (c : MetastoreCall) : Prop := c.writesTopic = none

theorem KeepsTopics.quiet {p : MetastoreProg MetastoreError α} {Q : α → Prop}
    (h : p.Within KeepsTopics Q) (topicName : String) :
    (p.translate ZkStorage.program).Within (Leaves (topicPath topicName)) Q :=
  h.translate fun c (hc : c.writesTopic = none) =>
    ZkStorage.program_leaves c (by rw [hc]; simp)

section
variable (replicasPerTopic : Int) (activeNodeIds : List String) (nodeId : String)

/-- The body of the loop, up to the write. -/
theorem deregisterTopic_rewrites
    (stored : s.znodes.get? (topicPath t.topic) = some (.topic t)) :
    Rewrites hash (topicPath t.topic) s
      ((Metastore.deregisterTopic replicasPerTopic activeNodeIds nodeId t).translate
        ZkStorage.program) t := by
  simp only [Metastore.deregisterTopic, Prog.translate_bind]
  refine Rewrites.after (KeepsTopics.quiet (replaceReplica_within _ _ _ (fun _ _ => rfl) t) t.topic) stored ?_
  intro s₁ newReplicas _ _ stored₁
  refine Rewrites.after (KeepsTopics.quiet (reelect_within (fun _ => rfl) _ _) t.topic) stored₁ ?_
  intro s₂ newMeta _ hname stored₂
  split
  · rw [Prog.translate_bind, Storage.updateTopic, Prog.translate_perform]
    have hwrite : Rewrites hash (topicPath t.topic) s₂
        (ZkStorage.updateTopic { newMeta with version := t.version + 1 }) t :=
      Rewrites.updateTopic hname rfl stored₂
    exact hwrite.before fun _ => Prog.within_pure trivial
  · exact Rewrites.of_quiet (Prog.within_pure trivial) stored₂

theorem updates_leave {t' : TopicMetadata} {topicName : String} (hne : t'.topic ≠ topicName) :
    MetastoreCall.writesTopic (.updateTopic t') ≠ some topicName :=
  fun heq => hne (Option.some.inj heq)

theorem ring_leaves (c : RingCall) (topicName : String) :
    MetastoreCall.writesTopic (.ring c) ≠ some topicName := by
  simp [MetastoreCall.writesTopic]

/-- The loop writes the topic when it comes to it, and not again. -/
theorem deregisterTopics_rewrites {todo : List TopicMetadata}
    (names : (todo.map TopicMetadata.topic).Nodup)
    (current : ∀ t' ∈ todo, t'.topic = t.topic → t' = t)
    (stored : s.znodes.get? (topicPath t.topic) = some (.topic t)) :
    Rewrites hash (topicPath t.topic) s
      ((Metastore.deregisterTopics replicasPerTopic activeNodeIds nodeId todo).translate
        ZkStorage.program) t := by
  induction todo generalizing s with
  | nil => exact Rewrites.of_quiet (Prog.within_pure trivial) stored
  | cons t' rest ih =>
      rw [List.map_cons, List.nodup_cons] at names
      have hrest : ∀ t'' ∈ rest, t''.topic = t.topic → t'' = t :=
        fun t'' h => current t'' (List.mem_cons_of_mem _ h)
      simp only [Metastore.deregisterTopics, Prog.translate_bind]
      by_cases hname : t'.topic = t.topic
      · obtain rfl := current t' List.mem_cons_self hname
        refine (deregisterTopic_rewrites replicasPerTopic activeNodeIds nodeId stored).before
          fun updated => ?_
        have hleaves : ∀ t'' ∈ rest, t''.topic ≠ t'.topic :=
          fun t'' h heq => names.1 (heq ▸ List.mem_map_of_mem h)
        have hrestLeaves : (Metastore.deregisterTopics replicasPerTopic activeNodeIds nodeId rest :
            MetastoreProg MetastoreError _).Within
              (fun c => c.writesTopic ≠ some t'.topic) fun _ => True :=
          deregisterTopics_within replicasPerTopic activeNodeIds nodeId
            (fun _ => ring_leaves _ _) (fun _ _ => ring_leaves _ _)
            fun t'' h t₁ hname₁ _ => updates_leave (hname₁ ▸ hleaves t'' h)
        exact (hrestLeaves.translate ZkStorage.program_leaves).bind
          fun _ _ => Prog.within_pure trivial
      · refine Rewrites.after ((deregisterTopic_within _ _ _ (fun _ => ring_leaves _ _)
          (fun _ _ => ring_leaves _ _) fun t₁ hname₁ _ => updates_leave (hname₁ ▸ hname)).translate
            ZkStorage.program_leaves) stored ?_
        intro s' updated _ _ stored'
        exact (ih names.2 hrest stored').before fun _ =>
          Prog.within_pure trivial

end
theorem getTopic_exec {topicName : String} {s' : ZkMetastore} {found : Option TopicMetadata}
    (h : (ZkStorage.getTopic topicName).exec (ZkMetastore.handle hash) s = (s', .ok found)) :
    s' = s ∧ ∀ t ∈ found, s.znodes.get? (topicPath topicName) = some (.topic t) := by
  simp only [ZkStorage.getTopic, ZkClient.get, Prog.perform, bind, Prog.bind, Prog.exec,
    ZkMetastore.handle, Znodes.handle] at h
  cases hget : s.znodes.get? (topicPath topicName) with
  | none =>
      rw [hget] at h
      cases h
      exact ⟨rfl, by simp⟩
  | some data =>
      rw [hget] at h
      cases data with
      | empty =>
          cases h
          exact ⟨rfl, by simp⟩
      | node node => cases h
      | topic t =>
          cases h
          exact ⟨rfl, fun t' ht' => by rw [Option.some.inj ht']⟩

/-- `get_all_topics` lists stored topics, each under the name of its child. -/
theorem getTopics_exec (named : s.Named) {children : List String} {s' : ZkMetastore}
    {topics : List TopicMetadata}
    (h : (ZkStorage.getTopics children).exec (ZkMetastore.handle hash) s = (s', .ok topics)) :
    s' = s ∧ (topics.map TopicMetadata.topic).Sublist children ∧
      ∀ t ∈ topics, s.znodes.get? (topicPath t.topic) = some (.topic t) := by
  induction children generalizing topics s' with
  | nil =>
      cases h
      exact ⟨rfl, List.Sublist.refl _, fun t ht => absurd ht List.not_mem_nil⟩
  | cons child rest ih =>
      obtain ⟨s₁, first, hfirst, hrest⟩ := Prog.exec_bind_returns h
      obtain ⟨rfl, hget⟩ := getTopic_exec hfirst
      obtain ⟨s₂, tail, htail, hpure⟩ := Prog.exec_bind_returns hrest
      obtain ⟨rfl, hsub, hstored⟩ := ih htail
      cases hpure
      refine ⟨rfl, ?_⟩
      cases first with
      | none => exact ⟨hsub.cons child, hstored⟩
      | some t =>
          have hname : t.topic = child := (topicPath_inj (named _ t (hget t rfl))).symm
          refine ⟨?_, fun t' ht' => ?_⟩
          · simp only [Option.toList_some, List.singleton_append, List.map_cons, hname]
            exact hsub.cons_cons child
          · cases List.mem_cons.mp ht' with
            | inl heq => rw [heq, hname]; exact hget t rfl
            | inr htail => exact hstored t' htail

theorem getAllTopics_exec (named : s.Named) {s' : ZkMetastore} {topics : List TopicMetadata}
    (h : ZkStorage.getAllTopics.exec (ZkMetastore.handle hash) s = (s', .ok topics)) :
    s' = s ∧ (topics.map TopicMetadata.topic).Nodup ∧
      ∀ t ∈ topics, s.znodes.get? (topicPath t.topic) = some (.topic t) := by
  have hloop : (ZkStorage.getTopics (s.znodes.children topicsPath)).exec
      (ZkMetastore.handle hash) s = (s', .ok topics) := h
  obtain ⟨hstate, hsub, hstored⟩ := getTopics_exec named hloop
  exact ⟨hstate, hsub.nodup (s.znodes.children_nodup topicsPath), hstored⟩

theorem deregisterBroker_rewrites (replicasPerTopic : Int) (nodeId : String) (named : s.Named)
    (stored : s.znodes.get? (topicPath t.topic) = some (.topic t)) :
    Rewrites hash (topicPath t.topic) s
      ((Metastore.deregisterBroker replicasPerTopic nodeId).translate ZkStorage.program) t := by
  simp only [Metastore.deregisterBroker, Prog.translate_bind]
  have hquiet : ∀ c : MetastoreCall, KeepsTopics c →
      (Prog.perform c : MetastoreProg MetastoreError c.Answer).Within KeepsTopics fun _ => True :=
    fun c hc => Prog.within_perform hc
  refine Rewrites.after (KeepsTopics.quiet (hquiet (.removeNode nodeId) rfl) t.topic) stored ?_
  intro s₁ _ hremove _ stored₁
  have named₁ : s₁.Named := named.of_exec hremove
  refine Rewrites.after (KeepsTopics.quiet (hquiet (.ring (.removeNode nodeId)) rfl) t.topic)
    stored₁ ?_
  intro s₂ _ hring _ stored₂
  have named₂ : s₂.Named := named₁.of_exec hring
  refine Rewrites.after (KeepsTopics.quiet (hquiet .getAllTopics rfl) t.topic) stored₂ ?_
  intro s₃ allTopics htopics _ stored₃
  rw [Storage.getAllTopics, Prog.translate_perform] at htopics
  obtain ⟨rfl, hnodup, hstored⟩ := getAllTopics_exec named₂ htopics
  refine Rewrites.after (KeepsTopics.quiet (hquiet .getAllNodes rfl) t.topic) stored₃ ?_
  intro s₄ allNodes _ _ stored₄
  refine deregisterTopics_rewrites replicasPerTopic _ nodeId hnodup (fun t' ht' hname => ?_) stored₄
  have hsame := hstored t' ht'
  rw [hname, stored₃] at hsame
  cases hsame
  rfl

theorem updateTopicIsr_rewrites (topicName : String) (isrList : List String) (named : s.Named)
    (stored : s.znodes.get? (topicPath t.topic) = some (.topic t)) :
    Rewrites hash (topicPath t.topic) s
      ((Metastore.updateTopicIsr topicName isrList).translate ZkStorage.program) t := by
  simp only [Metastore.updateTopicIsr, Prog.translate_bind]
  have hquiet : (Storage.getTopic topicName : MetastoreProg MetastoreError _).Within KeepsTopics
      fun _ => True := Prog.within_perform rfl
  refine Rewrites.after (KeepsTopics.quiet hquiet t.topic) stored ?_
  intro s₁ existing hget _ stored₁
  rw [Storage.getTopic, Prog.translate_perform] at hget
  obtain ⟨rfl, hfound⟩ := getTopic_exec hget
  cases existing with
  | none => exact Rewrites.of_quiet (Prog.within_pure trivial) stored₁
  | some t' =>
      have hstored := hfound t' rfl
      simp only [Prog.translate_bind, Storage.updateTopic, Prog.translate_perform]
      by_cases hname : topicName = t.topic
      · subst hname
        obtain rfl : t' = t := by
          rw [stored₁] at hstored
          cases hstored
          rfl
        refine Rewrites.after (KeepsTopics.quiet (reelect_within (fun _ => rfl) _ _) t'.topic) stored₁ ?_
        intro s₂ newMeta _ hkept stored₂
        have hwrite : Rewrites hash (topicPath t'.topic) s₂
            (ZkStorage.updateTopic { newMeta with version := t'.version + 1 }) t' :=
          Rewrites.updateTopic hkept rfl stored₂
        exact hwrite.before fun _ => Prog.within_pure trivial
      · have hother : t'.topic ≠ t.topic := fun heq =>
          hname (topicPath_inj ((named _ t' hstored).trans (by rw [heq])))
        refine Rewrites.of_quiet ((KeepsTopics.quiet (reelect_within (fun _ => rfl) _ _) t.topic).bind
          fun newMeta hkept => ?_) stored₁
        have hleaves : (ZkStorage.program
            (.updateTopic { newMeta with version := t'.version + 1 })).Within
            (Leaves (topicPath t.topic)) fun _ => True :=
          ZkStorage.program_leaves _ fun heq => hother (hkept.symm.trans (Option.some.inj heq))
        exact hleaves.bind fun _ _ => Prog.within_pure trivial

end

/-- `deregister_broker` and `update_topic_isr`. -/
def MetastoreOp.Updates : MetastoreOp → Prop
  | .deregisterBroker _ | .updateTopicIsr _ _ => True
  | .registerBroker _ _ _ | .registerTopic _ => False

section
variable (hash : String → Nat) (replicasPerTopic : Int)

def MetastoreOp.zkProgram (op : MetastoreOp) : ZkProg MetastoreAnswer :=
  (op.program replicasPerTopic).translate ZkStorage.program

/-- The metastore after a history of operations on a new ZooKeeper tree. -/
def ZkMetastore.after (history : List MetastoreOp) : ZkMetastore :=
  run (ZkMetastore.apply hash replicasPerTopic) ZkMetastore.new history

/-- Two operations about to run. -/
def ZkMetastore.together (s : ZkMetastore) (a b : MetastoreOp) :
    Config ZkMetastore ZkMetastoreCall ZkMetastoreCall.Answer MetastoreError MetastoreAnswer
      MetastoreAnswer :=
  ⟨s, a.zkProgram replicasPerTopic, b.zkProgram replicasPerTopic⟩

def ZkMetastore.serially (s : ZkMetastore) (first : Side) (a b : MetastoreOp) : ZkMetastore :=
  match first with
  | .left =>
    (ZkMetastore.apply hash replicasPerTopic (s.apply hash replicasPerTopic a).1 b).1
  | .right =>
    (ZkMetastore.apply hash replicasPerTopic (s.apply hash replicasPerTopic b).1 a).1

end

/-- How many of the two operations write the znode. -/
def writers (path : String) (entries : List (Side × Option ZkMetastoreCall)) : Nat :=
  [Side.left, Side.right].countP fun side => (callsOf side entries).any (writesTo path)

/-- No update of the topic is lost: the contents written have the next versions, one
for each operation that writes, and the last one is stored in the end. -/
def NoLostUpdate (t : TopicMetadata) (entries : List (Side × Option ZkMetastoreCall))
    (s : ZkMetastore) : Prop :=
  ∃ contents : List TopicMetadata,
    (entries.filterMap Prod.snd).filter (writesTo (topicPath t.topic)) =
      contents.map (setTopicCall (topicPath t.topic)) ∧
    contents.length = writers (topicPath t.topic) entries ∧
    contents.map TopicMetadata.version =
      (List.range contents.length).map (fun i : Nat => t.version + 1 + (i : Int)) ∧
    s.znodes.get? (topicPath t.topic) = some (.topic (contents.getLast?.getD t))

section
variable {hash : String → Nat} {replicasPerTopic : Int} {s : ZkMetastore} {t : TopicMetadata}

theorem MetastoreOp.Updates.rewrites {op : MetastoreOp} (h : op.Updates) (named : s.Named)
    (stored : s.znodes.get? (topicPath t.topic) = some (.topic t)) :
    Rewrites hash (topicPath t.topic) s (op.zkProgram replicasPerTopic) t := by
  cases op with
  | registerBroker nodeId host port => exact h.elim
  | registerTopic topicName => exact h.elim
  | deregisterBroker nodeId =>
      simp only [MetastoreOp.zkProgram, MetastoreOp.program, Prog.translate_bind]
      exact (deregisterBroker_rewrites replicasPerTopic nodeId named stored).before
        fun _ => Prog.within_pure trivial
  | updateTopicIsr topicName isrList =>
      simp only [MetastoreOp.zkProgram, MetastoreOp.program, Prog.translate_bind]
      exact (updateTopicIsr_rewrites topicName isrList named stored).before
        fun _ => Prog.within_pure trivial

theorem writes_dependent {path : String} (c d : ZkMetastoreCall) (hc : writesTo path c = true)
    (hd : writesTo path d = true) : ¬ c.Independent d := by
  simp only [writesTo, decide_eq_true_eq] at hc hd
  cases c with
  | ring c => cases hc
  | zk c =>
      cases d with
      | ring d => cases hd
      | zk d =>
          intro h
          cases c <;> cases d <;>
            simp_all [ZkMetastoreCall.writes, ZkMetastoreCall.Independent, ZkCall.Unaffected]

theorem writers_eq (path : String) (first : Side)
    (entries : List (Side × Option ZkMetastoreCall)) :
    writers path entries =
      [(callsOf first entries).filter (writesTo path),
        (callsOf first.swap entries).filter (writesTo path)].countP fun calls => !calls.isEmpty := by
  have hany : ∀ calls : List ZkMetastoreCall,
      (!(calls.filter (writesTo path)).isEmpty) = calls.any (writesTo path) := by
    intro calls
    induction calls with
    | nil => rfl
    | cons c rest ih =>
        rw [List.filter_cons, List.any_cons, ← ih]
        cases writesTo path c <;> rfl
  simp only [writers, List.countP_cons, List.countP_nil, hany]
  cases first with
  | left => rfl
  | right =>
      simp only [Side.swap, Nat.zero_add]
      exact Nat.add_comm _ _

/-- The writes of the first operation come before those of the second, and the second
one starts from what the first one has stored. -/
theorem NoLostUpdate.of_rewrites {first : Side} {entries : List (Side × Option ZkMetastoreCall)}
    {mid final : ZkMetastore} {p q : ZkProg MetastoreAnswer}
    (ordered : OrderedBy ZkMetastoreCall.Independent first entries)
    (hfirst : callsOf first entries = p.calls (ZkMetastore.handle hash) s)
    (hsecond : callsOf first.swap entries = q.calls (ZkMetastore.handle hash) mid)
    (hmid : (p.exec (ZkMetastore.handle hash) s).1 = mid)
    (hfinal : (q.exec (ZkMetastore.handle hash) mid).1 = final)
    (hp : Rewrites hash (topicPath t.topic) s p t)
    (hq : ∀ t', mid.znodes.get? (topicPath t.topic) = some (.topic t') →
      Rewrites hash (topicPath t.topic) mid q t') : NoLostUpdate t entries final := by
  have hwrites := ordered.filter_calls (writesTo (topicPath t.topic)) writes_dependent
  have hwriters := writers_eq (topicPath t.topic) first entries
  rw [hfirst, hsecond] at hwrites hwriters
  rw [NoLostUpdate, hwrites, hwriters, ← hfinal]
  cases hp with
  | inl hquiet =>
      rw [hquiet.1]
      cases hq t (hmid ▸ hquiet.2) with
      | inl hnone => exact ⟨[], by rw [hnone.1]; rfl, by rw [hnone.1]; rfl, rfl, hnone.2⟩
      | inr hwrite =>
          obtain ⟨t', hversion, hcalls, hstored⟩ := hwrite
          exact ⟨[t'], by rw [hcalls]; rfl, by rw [hcalls]; rfl, by simp [hversion], hstored⟩
  | inr hwrite =>
      obtain ⟨t₁, hversion₁, hcalls₁, hstored₁⟩ := hwrite
      rw [hcalls₁]
      cases hq t₁ (hmid ▸ hstored₁) with
      | inl hnone =>
          exact ⟨[t₁], by rw [hnone.1]; rfl, by rw [hnone.1]; rfl, by simp [hversion₁], hnone.2⟩
      | inr hwrite =>
          obtain ⟨t₂, hversion₂, hcalls₂, hstored₂⟩ := hwrite
          refine ⟨[t₁, t₂], by rw [hcalls₂]; rfl, by rw [hcalls₂]; rfl, ?_, hstored₂⟩
          have hrange : List.range [t₁, t₂].length = [0, 1] := rfl
          simp only [hrange, List.map_cons, List.map_nil, hversion₂, hversion₁, Int.natCast_zero,
            Int.natCast_one, Int.add_zero]

end

section
variable (hash : String → Nat) (replicasPerTopic : Int)

/-- If each pair of conflicting calls is executed in the order of the operations, the
operations have the effect they have one after the other, and no update is lost. -/
theorem concurrent_updates_serial (history : List MetastoreOp) (a b : MetastoreOp)
    (ha : a.Updates) (hb : b.Updates) (schedule : List Side) (first : Side)
    (ordered : OrderedBy ZkMetastoreCall.Independent first
      (trace (Config.step (ZkMetastore.handle hash))
        ((ZkMetastore.after hash replicasPerTopic history).together replicasPerTopic a b) schedule))
    (ra rb : Except MetastoreError MetastoreAnswer)
    (hleft : (run (Config.step (ZkMetastore.handle hash))
      ((ZkMetastore.after hash replicasPerTopic history).together replicasPerTopic a b)
        schedule).left.outcome = some ra)
    (hright : (run (Config.step (ZkMetastore.handle hash))
      ((ZkMetastore.after hash replicasPerTopic history).together replicasPerTopic a b)
        schedule).right.outcome = some rb) :
    let s := ZkMetastore.after hash replicasPerTopic history
    let final := run (Config.step (ZkMetastore.handle hash)) (s.together replicasPerTopic a b) schedule
    final.state = s.serially hash replicasPerTopic first a b ∧
      ∀ name t, s.znodes.get? (topicPath name) = some (.topic t) →
        NoLostUpdate t (trace (Config.step (ZkMetastore.handle hash))
          (s.together replicasPerTopic a b) schedule) final.state := by
  intro s final
  have named : s.Named := ZkMetastore.named_run replicasPerTopic history
  have hrewrites : ∀ (op : MetastoreOp) (mid : ZkMetastore) (t t' : TopicMetadata), op.Updates →
      mid.Named → mid.znodes.get? (topicPath t.topic) = some (.topic t') →
      Rewrites hash (topicPath t.topic) mid (op.zkProgram replicasPerTopic) t' := by
    intro op mid t t' hop hnamed hget
    have hpath := hnamed _ t' hget
    rw [hpath] at hget ⊢
    exact hop.rewrites hnamed hget
  cases first with
  | left =>
      obtain ⟨mid, hfirst, hsecond, hcalls, hcalls'⟩ := serial_of_left_first
        (fun _ _ h => ZkMetastoreCall.Independent.commutes h) _ schedule ordered hleft hright
      have hstate : (s.apply hash replicasPerTopic a).1 = mid := congrArg Prod.fst hfirst
      refine ⟨?_, fun name t hget => ?_⟩
      · simp only [ZkMetastore.serially, hstate]
        exact (congrArg Prod.fst hsecond).symm
      · rw [named _ t hget] at hget
        exact NoLostUpdate.of_rewrites ordered hcalls hcalls' hstate (congrArg Prod.fst hsecond)
          (hrewrites a s t t ha named hget)
          fun t' hget' => hrewrites b mid t t' hb (named.of_exec hfirst) hget'
  | right =>
      obtain ⟨mid, hfirst, hsecond, hcalls, hcalls'⟩ := serial_of_right_first
        (fun _ _ h => ZkMetastoreCall.Independent.commutes h) _ schedule ordered hleft hright
      have hstate : (s.apply hash replicasPerTopic b).1 = mid := congrArg Prod.fst hfirst
      refine ⟨?_, fun name t hget => ?_⟩
      · simp only [ZkMetastore.serially, hstate]
        exact (congrArg Prod.fst hsecond).symm
      · rw [named _ t hget] at hget
        exact NoLostUpdate.of_rewrites ordered hcalls hcalls' hstate (congrArg Prod.fst hsecond)
          (hrewrites b s t t hb named hget)
          fun t' hget' => hrewrites a mid t t' ha (named.of_exec hfirst) hget'

end

/-- Changes of the in-sync lists of two topics do not conflict. -/
theorem concurrent_updates_serial_two_topics :
    let s := ZkMetastore.after md5Hash 1 [.registerTopic "t", .registerTopic "u"]
    let a := MetastoreOp.updateTopicIsr "t" ["b1"]
    let b := MetastoreOp.updateTopicIsr "u" ["b2"]
    (run (Config.step (ZkMetastore.handle md5Hash)) (s.together 1 a b)
        [.left, .right, .right, .left, .left, .right]).state = s.serially md5Hash 1 .left a b ∧
      NoLostUpdate ⟨"t", "", [], [], 1⟩ (trace (Config.step (ZkMetastore.handle md5Hash))
        (s.together 1 a b) [.left, .right, .right, .left, .left, .right])
        (run (Config.step (ZkMetastore.handle md5Hash)) (s.together 1 a b)
          [.left, .right, .right, .left, .left, .right]).state := by
  have h := concurrent_updates_serial md5Hash 1 [.registerTopic "t", .registerTopic "u"]
    (.updateTopicIsr "t" ["b1"]) (.updateTopicIsr "u" ["b2"]) trivial trivial
    [.left, .right, .right, .left, .left, .right] .left (by decide +kernel)
    (.ok (.updatedTopic (some ⟨"t", "b1", [], ["b1"], 2⟩)))
    (.ok (.updatedTopic (some ⟨"u", "b2", [], ["b2"], 2⟩))) (by rfl) (by rfl)
  exact ⟨h.1, h.2 "t" _ (by decide +kernel)⟩

/-- One broker and one topic. -/
def oneTopic : ZkMetastore :=
  ZkMetastore.after md5Hash 1 [.registerBroker "b1" "h" 1, .registerTopic "t"]

/-- Two changes of the topic's in-sync list, about to run. -/
def isrRace : Config ZkMetastore ZkMetastoreCall ZkMetastoreCall.Answer MetastoreError
    MetastoreAnswer MetastoreAnswer :=
  oneTopic.together 1 (.updateTopicIsr "t" ["b1"]) (.updateTopicIsr "t" [])

/-- Both changes read the topic before either of them is written: both store version 2. -/
theorem isr_update_lost :
    (run (Config.step (ZkMetastore.handle md5Hash)) isrRace
        [.left, .right, .left, .right, .left, .right]).left.outcome.isSome ∧
      (run (Config.step (ZkMetastore.handle md5Hash)) isrRace
        [.left, .right, .left, .right, .left, .right]).right.outcome.isSome ∧
      (run (Config.step (ZkMetastore.handle md5Hash)) isrRace
          [.left, .right, .left, .right, .left, .right]).state.znodes.get? (topicPath "t") ≠
        (oneTopic.serially md5Hash 1 .left (.updateTopicIsr "t" ["b1"])
          (.updateTopicIsr "t" [])).znodes.get? (topicPath "t") ∧
      (run (Config.step (ZkMetastore.handle md5Hash)) isrRace
          [.left, .right, .left, .right, .left, .right]).state.znodes.get? (topicPath "t") ≠
        (oneTopic.serially md5Hash 1 .right (.updateTopicIsr "t" ["b1"])
          (.updateTopicIsr "t" [])).znodes.get? (topicPath "t") ∧
      ((trace (Config.step (ZkMetastore.handle md5Hash)) isrRace
          [.left, .right, .left, .right, .left, .right]).filterMap Prod.snd).filter
            (writesTo (topicPath "t")) =
        [setTopicCall (topicPath "t") ⟨"t", "b1", ["b1"], ["b1"], 2⟩,
          setTopicCall (topicPath "t") ⟨"t", "b1", ["b1"], [], 2⟩] := by
  decide +kernel

end PyLogStream
