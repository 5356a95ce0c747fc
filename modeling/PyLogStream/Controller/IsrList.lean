import PyLogStream.Metastore.Effects
import PyLogStream.Protocol.ResponseRoundTrip

/-!
The way of a list of in-sync replicas from a broker to the controller's metastore. The
ids are joined by commas, and a dash would be read as no ids. The encoder of replica
lists writes that dash; the encoder of this command does not, so that an empty list
arrives as a list of one empty id and is stored as such.
-/

namespace PyLogStream
open Lib

/-- The text of a list of in-sync replicas. -/
def isrText (isrList : List String) : Text := [','].intercalate (isrList.map String.toList)

section
variable {topic : String} {isrList : List String}

/-- The list that the parser reads off the text. -/
theorem parseReplicas_isrText (hids : ∀ id ∈ isrList, ',' ∉ id.toList) (hdash : isrList ≠ ["-"]) :
    parseReplicas (isrText isrList) = if isrList = [] then [""] else isrList := by
  by_cases hnil : isrList = []
  · rw [if_pos hnil, hnil]
    decide
  · obtain ⟨hne, hsplit⟩ := splitOn_joined hids hnil hdash
    rw [if_neg hnil, parseReplicas, isrText, if_neg hne, hsplit]

theorem parseBody_isrChange (htopic : ' ' ∉ topic.toList) (parseChecksum : Bool) :
    parseBody (encodeUtf8 (fieldsText "ISR" [topic.toList, isrText isrList])) parseChecksum =
      .ok (.isrChange topic (parseReplicas (isrText isrList))) := by
  have hname := decodeText_name "ISR" (by decide) [topic.toList, isrText isrList]
  have hparts := split_three "ISR" (by decide) htopic (isrText isrList)
  simp [parseBody, hname, decodeText_encodeUtf8, hparts, partAt, parseReplicas, bind, Except.bind,
    pure, Except.pure]

variable {hash : String → Nat} {s s' : MetastoreManager} {t : TopicMetadata}

theorem reelect_isrList {needed : Prop} [Decidable needed] {t' : TopicMetadata}
    (h : s.exec hash (Metastore.reelect needed t) = (s', .ok t')) : t'.isrList = t.isrList := by
  by_cases hneeded : needed
  · rw [Metastore.reelect, if_pos hneeded] at h
    obtain ⟨s₁, leader, -, hpure⟩ := Prog.exec_bind_returns h
    cases hpure
    rfl
  · rw [Metastore.reelect, if_neg hneeded] at h
    cases h
    rfl

theorem updateTopic_stores {answer : Unit}
    (h : s.exec hash (Storage.updateTopic t) = (s', .ok answer)) :
    s'.storage.topics.get? t.topic = some t := by
  simp only [MetastoreManager.exec, Storage.updateTopic, Prog.perform, Prog.exec,
    MetastoreManager.handle] at h
  cases hold : s.storage.topics.get? t.topic with
  | none =>
      rw [hold] at h
      cases h
  | some old =>
      rw [hold] at h
      cases h
      rw [MetastoreManager.setTopic_get?, if_pos rfl]

/-- `update_topic_isr` stores the list it is given. -/
theorem updateTopicIsr_stores
    (h : s.exec hash (Metastore.updateTopicIsr topic isrList) = (s', .ok (some t))) :
    s'.storage.topics.get? t.topic = some t ∧ t.isrList = isrList := by
  unfold Metastore.updateTopicIsr at h
  obtain ⟨s₁, existing, -, h⟩ := Prog.exec_bind_returns h
  cases existing with
  | none => cases h
  | some topicMeta =>
      obtain ⟨s₂, newMeta, hreelect, h⟩ := Prog.exec_bind_returns h
      obtain ⟨s₃, _, hupdate, h⟩ := Prog.exec_bind_returns h
      cases h
      exact ⟨updateTopic_stores hupdate, reelect_isrList hreelect⟩

end

/-- The frame of a report that no replica of `t` is in sync. -/
def emptyIsrFrame : Bytes := [0, 0, 0, 6, 73, 83, 82, 32, 116, 32]

/-- The frame of a report of two replicas. -/
def isrFrame : Bytes := [0, 0, 0, 11, 73, 83, 82, 32, 116, 32, 98, 49, 44, 98, 50]

end PyLogStream
