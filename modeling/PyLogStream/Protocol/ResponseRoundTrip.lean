import PyLogStream.Protocol.CommandRoundTrip

/-!
Responses that travel as text alone come back from their frames, and a list of metadata
from the payload behind its frame. Fields may be empty: a run of blanks is split into
empty fields again. The replica list is a field of its own kind, with commas inside and
a dash for no replicas.
-/

namespace PyLogStream
open Lib

/-- No blank in a text before the port, no comma or blank in a replica, and not the one
replica that is written like no replica. -/
structure TopicMetaDataResponse.Legible (m : TopicMetaDataResponse) : Prop where
  topic : ' ' ∉ m.topic.toList
  leaderId : ' ' ∉ m.leaderId.toList
  leaderAddr : ' ' ∉ m.leaderAddr.toList
  replicas : ∀ r ∈ m.replicaList, ' ' ∉ r.toList ∧ ',' ∉ r.toList
  dash : m.replicaList ≠ ["-"]

/-- The numbers of the metadata have no more digits than are converted. -/
structure TopicMetaDataResponse.Numbers (m : TopicMetaDataResponse) : Prop where
  port : Convertible m.leaderPort
  version : Convertible m.version

/-- No text of the metadata spans two lines. -/
structure TopicMetaDataResponse.OneLine (m : TopicMetaDataResponse) : Prop where
  topic : '\n' ∉ m.topic.toList
  leaderId : '\n' ∉ m.leaderId.toList
  leaderAddr : '\n' ∉ m.leaderAddr.toList
  replicas : ∀ r ∈ m.replicaList, '\n' ∉ r.toList

/-- A response that travels as text alone, without a blank in a text before the last field. -/
def Response.HeaderOnly : Response → Prop
  | .clientId _ | .ping | .error _ _ | .controllerPing => True
  | .offsetAck topic _ acks | .pubAck topic _ acks =>
    ' ' ∉ topic.toList ∧ (acks = -1 ∨ acks = 0 ∨ acks = 1)
  | .fetchOffset topic _ => ' ' ∉ topic.toList
  | .topicMetaData stated => stated.state = "running" ∧ stated.metaData.Legible
  | .notLeaderController leaderId leaderHost _ => ' ' ∉ leaderId.toList ∧ ' ' ∉ leaderHost.toList
  | _ => False

theorem StatedMetaData.eq_running {stated : StatedMetaData} (h : stated.state = "running") :
    stated.metaData.running = stated := by
  cases stated
  cases h
  rfl

section
variable {m : TopicMetaDataResponse}

/-- Ids joined by commas are split back, and only the id `-` is written as a lone dash. -/
theorem splitOn_joined {ids : List String} (h : ∀ r ∈ ids, ',' ∉ r.toList) (hne : ids ≠ [])
    (hdash : ids ≠ ["-"]) :
    [','].intercalate (ids.map String.toList) ≠ "-".toList ∧
      (([','].intercalate (ids.map String.toList)).splitOn ',').map String.ofList = ids := by
  have hsplit : ([','].intercalate (ids.map String.toList)).splitOn ',' =
      ids.map String.toList := by
    refine List.splitOn_intercalate ',' ?_ (by simpa using hne)
    intro text htext
    obtain ⟨r, hr, rfl⟩ := List.mem_map.mp htext
    exact h r hr
  refine ⟨fun heq => ?_, ?_⟩
  · rw [heq] at hsplit
    have hone : ids.map String.toList = ["-"].map String.toList := by
      rw [← hsplit]
      decide
    exact hdash (List.map_injective_iff.mpr (fun _ _ => String.toList_injective) hone)
  · rw [hsplit, List.map_map]
    simp [Function.comp_def]

theorem parseReplicas_replicasText {replicaList : List String}
    (h : ∀ r ∈ replicaList, ',' ∉ r.toList) (hdash : replicaList ≠ ["-"]) :
    parseReplicas (replicasText replicaList) = replicaList := by
  by_cases hnil : replicaList = []
  · rw [replicasText, if_pos hnil, parseReplicas, if_pos rfl, hnil]
  · obtain ⟨hne, hsplit⟩ := splitOn_joined h hnil hdash
    rw [replicasText, if_neg hnil, parseReplicas, if_neg hne, hsplit]

/-- A character of the replica list stands in a replica, or is a comma or the dash. -/
theorem mem_replicasText {replicaList : List String} {c : Char}
    (h : c ∈ replicasText replicaList) : c = ',' ∨ c = '-' ∨ ∃ r ∈ replicaList, c ∈ r.toList := by
  unfold replicasText at h
  split at h
  · exact Or.inr (Or.inl (by simpa using h))
  · cases mem_intercalate h with
    | inl hcomma => exact Or.inl hcomma
    | inr hpart =>
        obtain ⟨text, htext, hc⟩ := hpart
        obtain ⟨r, hr, rfl⟩ := List.mem_map.mp htext
        exact Or.inr (Or.inr ⟨r, hr, hc⟩)

theorem not_mem_showInt {c : Char} (h : c.toNat < 33) (n : Int) : c ∉ showInt n := fun hmem => by
  have hrange := (toNat_of_mem_showInt hmem).1
  omega

theorem not_mem_replicasText {replicaList : List String} {c : Char} (h : c.toNat < 33)
    (hfree : ∀ r ∈ replicaList, c ∉ r.toList) : c ∉ replicasText replicaList := by
  intro hmem
  obtain rfl | rfl | ⟨r, hr, hc⟩ := mem_replicasText hmem
  · exact absurd h (by decide)
  · exact absurd h (by decide)
  · exact hfree r hr hc

/-- No field of the metadata contains a character below the printable ones that none of
its texts contains. -/
theorem not_mem_texts {c : Char} (h : c.toNat < 33) (htopic : c ∉ m.topic.toList)
    (hleader : c ∉ m.leaderId.toList) (haddr : c ∉ m.leaderAddr.toList)
    (hreplicas : ∀ r ∈ m.replicaList, c ∉ r.toList) : ∀ field ∈ m.texts, c ∉ field := by
  simp only [TopicMetaDataResponse.texts, List.forall_mem_cons]
  exact ⟨htopic, hleader, haddr, not_mem_showInt h _, not_mem_replicasText h hreplicas,
    not_mem_showInt h _, by simp⟩

theorem TopicMetaDataResponse.Legible.blank (ok : m.Legible) : ∀ field ∈ m.texts, ' ' ∉ field :=
  not_mem_texts (by decide) ok.topic ok.leaderId ok.leaderAddr fun r hr => (ok.replicas r hr).1

theorem TopicMetaDataResponse.Legible.parseReplicas (ok : m.Legible) :
    PyLogStream.parseReplicas (replicasText m.replicaList) = m.replicaList :=
  parseReplicas_replicasText (fun r hr => (ok.replicas r hr).2) ok.dash

theorem split_seven (name : String) (hname : ' ' ∉ name.toList) (ok : m.Legible) :
    splitMax ' ' 6 (fieldsText name m.texts) = name.toList :: m.texts := by
  refine split_fieldsText name hname (?_ : ∀ f ∈ m.texts.take 5, ' ' ∉ f) (showInt m.version)
  exact fun field hfield => ok.blank field (List.mem_of_mem_take hfield)

theorem checkResponseAcks_showInt {acks : Int} (h : acks = -1 ∨ acks = 0 ∨ acks = 1)
    (message : String) : checkResponseAcks message (showInt acks) = .ok acks := by
  have hcheck := checkAcks_showInt h
  unfold checkAcks at hcheck
  unfold checkResponseAcks
  split at hcheck
  · next htext => rw [if_pos htext, hcheck]
  · cases hcheck

theorem split_three (name : String) (hname : ' ' ∉ name.toList) {a : Text} (ha : ' ' ∉ a)
    (last : Text) : splitMax ' ' 2 (fieldsText name [a, last]) = [name.toList, a, last] :=
  split_fieldsText name hname (by simp [ha] : ∀ f ∈ [a], ' ' ∉ f) last

/-- The parser reads a response off its text. -/
theorem parseResponseText_body {response : Response} (h : response.HeaderOnly)
    (integers : ∀ n ∈ response.integers, Convertible n) :
    ∃ text, response.formatted = .ok (text, none) ∧ Capitalized text ∧
      parseResponseText text = .ok response := by
  cases response with
  | clientId id =>
      refine ⟨fieldsText "CID" [id.toList], rfl, ⟨'C', _, rfl, by decide⟩, ?_⟩
      have hname : (fieldsText "CID" [id.toList]).take 3 = "CID".toList := rfl
      have hparts := split_two "CID" (by decide) id.toList
      simp [parseResponseText, hname, hparts, partAt, bind, Except.bind, pure, Except.pure]
  | ping => exact ⟨fieldsText "PNG" [], rfl, ⟨'P', _, rfl, by decide⟩, rfl⟩
  | controllerPing => exact ⟨fieldsText "CPR" [], rfl, ⟨'C', _, rfl, by decide⟩, rfl⟩
  | offsetAck topic offset acks =>
      have hoffset := integers offset (by simp [Response.integers])
      refine ⟨fieldsText "OAK" [topic.toList, showInt acks, showInt offset], rfl,
        ⟨'O', _, rfl, by decide⟩, ?_⟩
      have hname : (fieldsText "OAK" [topic.toList, showInt acks, showInt offset]).take 3 =
          "OAK".toList := rfl
      have hparts := split_four "OAK" (by decide) h.1 (blank_not_mem_showInt acks) (showInt offset)
      simp [parseResponseText, hname, hparts, partAt, checkResponseAcks_showInt h.2,
        intOfText_showInt hoffset, bind, Except.bind, pure, Except.pure]
  | pubAck topic offset acks =>
      have hoffset := integers offset (by simp [Response.integers])
      refine ⟨fieldsText "ACK" [topic.toList, showInt acks, showInt offset], rfl,
        ⟨'A', _, rfl, by decide⟩, ?_⟩
      have hname : (fieldsText "ACK" [topic.toList, showInt acks, showInt offset]).take 3 =
          "ACK".toList := rfl
      have hparts := split_four "ACK" (by decide) h.1 (blank_not_mem_showInt acks) (showInt offset)
      simp [parseResponseText, hname, hparts, partAt, checkResponseAcks_showInt h.2,
        intOfText_showInt hoffset, bind, Except.bind, pure, Except.pure]
  | fetchOffset topic offset =>
      have hoffset := integers offset (by simp [Response.integers])
      refine ⟨fieldsText "FCR" [topic.toList, showInt offset], rfl, ⟨'F', _, rfl, by decide⟩, ?_⟩
      have hname : (fieldsText "FCR" [topic.toList, showInt offset]).take 3 = "FCR".toList := rfl
      have hparts := split_three "FCR" (by decide) h (showInt offset)
      simp [parseResponseText, hname, hparts, partAt, intOfText_showInt hoffset, bind,
        Except.bind, pure, Except.pure]
  | error code text =>
      have hcode := integers code (by simp [Response.integers])
      refine ⟨fieldsText "ERR" [showInt code, text.toList], rfl, ⟨'E', _, rfl, by decide⟩, ?_⟩
      have hname : (fieldsText "ERR" [showInt code, text.toList]).take 3 = "ERR".toList := rfl
      have hparts := split_three "ERR" (by decide) (blank_not_mem_showInt code) text.toList
      simp [parseResponseText, hname, hparts, partAt, intOfText_showInt hcode, bind, Except.bind, pure,
        Except.pure]
  | topicMetaData stated =>
      have hport := integers stated.metaData.leaderPort (by simp [Response.integers])
      have hversion := integers stated.metaData.version (by simp [Response.integers])
      refine ⟨fieldsText "TMD" stated.metaData.texts, rfl, ⟨'T', _, rfl, by decide⟩, ?_⟩
      have hname : (fieldsText "TMD" stated.metaData.texts).take 3 = "TMD".toList := rfl
      have hparts := split_seven "TMD" (by decide) h.2
      simp only [parseResponseText, hname, hparts]
      simp [TopicMetaDataResponse.texts, partAt, intOfText_showInt hport,
        intOfText_showInt hversion, h.2.parseReplicas,
        StatedMetaData.eq_running h.1, bind, Except.bind, pure, Except.pure]
  | notLeaderController leaderId leaderHost leaderPort =>
      have hport := integers leaderPort (by simp [Response.integers])
      refine ⟨fieldsText "NLC" [leaderId.toList, leaderHost.toList, showInt leaderPort], rfl,
        ⟨'N', _, rfl, by decide⟩, ?_⟩
      have hname : (fieldsText "NLC" [leaderId.toList, leaderHost.toList, showInt leaderPort]).take 3 =
          "NLC".toList := rfl
      have hparts := split_four "NLC" (by decide) h.1 h.2 (showInt leaderPort)
      simp [parseResponseText, hname, hparts, partAt, intOfText_showInt hport, bind, Except.bind, pure,
        Except.pure]
  | messageHeader | message | file | mmap | replicaFetchHeader | replicaFetchBytes
  | replicaFetchMmap | replicaFetchFile | topicMetaDataListHeader | topicMetaDataList =>
      exact h.elim

/-- The line of a topic's metadata is split at its blanks. -/
theorem parseMetaLine_texts (ok : m.Legible) (numbers : m.Numbers) :
    parseMetaLine ([' '].intercalate m.texts) = .ok m.running := by
  have hparts : ([' '].intercalate m.texts).splitOn ' ' = m.texts :=
    List.splitOn_intercalate ' ' ok.blank (by simp [TopicMetaDataResponse.texts])
  simp only [parseMetaLine, hparts]
  simp [TopicMetaDataResponse.texts, partAt, intOfText_showInt numbers.port,
    intOfText_showInt numbers.version, ok.parseReplicas, bind, Except.bind, pure, Except.pure]

theorem TopicMetaDataResponse.OneLine.line (ok : m.OneLine) :
    '\n' ∉ [' '].intercalate m.texts := by
  intro hmem
  cases mem_intercalate hmem with
  | inl heq => exact absurd heq (by decide)
  | inr hpart =>
      obtain ⟨field, hfield, hc⟩ := hpart
      exact not_mem_texts (by decide) ok.topic ok.leaderId ok.leaderAddr ok.replicas field hfield hc

/-- The version makes sure that a line is not passed over. -/
theorem line_not_blank (m : TopicMetaDataResponse) :
    (!([' '].intercalate m.texts).all isSpace) = true := by
  obtain ⟨c, hc⟩ := List.exists_mem_of_ne_nil (showInt m.version) (showInt_ne_nil _)
  have hmem : c ∈ [' '].intercalate m.texts :=
    mem_intercalate_of_mem (by simp [TopicMetaDataResponse.texts]) hc
  have hspace := isSpace_of_numeral (numeral_of_mem_showInt hc)
  simp only [Bool.not_eq_true', List.all_eq_false]
  exact ⟨c, hmem, by simp [hspace]⟩

theorem parseMetadataListPayload_metaListText {metaList : List StatedMetaData}
    (h : ∀ stated ∈ metaList,
      stated.state = "running" ∧ stated.metaData.Legible ∧ stated.metaData.OneLine)
    (numbers : ∀ stated ∈ metaList, stated.metaData.Numbers) :
    parseMetadataListPayload (encodeUtf8 (metaListText metaList)) = .ok metaList := by
  by_cases hnil : metaList = []
  · rw [hnil]
    rfl
  · let line : StatedMetaData → Text := fun stated => [' '].intercalate stated.metaData.texts
    have hsplit : (metaListText metaList).splitOn '\n' = metaList.map line := by
      refine List.splitOn_intercalate '\n' ?_ (by simpa using hnil)
      intro text htext
      obtain ⟨stated, hstated, rfl⟩ := List.mem_map.mp htext
      exact (h stated hstated).2.2.line
    have hfilter : (metaList.map line).filter (fun text => !text.all isSpace) =
        metaList.map line := by
      refine List.filter_eq_self.mpr fun text htext => ?_
      obtain ⟨stated, -, rfl⟩ := List.mem_map.mp htext
      exact line_not_blank stated.metaData
    have hparse : (metaList.map line).mapM parseMetaLine = .ok metaList :=
      mapM_ok fun stated hstated => by
        rw [parseMetaLine_texts (h stated hstated).2.1 (numbers stated hstated),
          StatedMetaData.eq_running (h stated hstated).1]
    have hne : encodeUtf8 (metaListText metaList) ≠ [] := by
      refine encodeUtf8_ne_nil fun htext => ?_
      rw [htext, List.splitOn_nil] at hsplit
      have hblank : [] ∈ (metaList.map line).filter fun text => !text.all isSpace := by
        rw [hfilter, ← hsplit]
        exact List.mem_singleton_self []
      exact absurd (List.mem_filter.mp hblank).2 (by simp)
    rw [parseMetadataListPayload, if_neg hne, decodeText_encodeUtf8]
    simp only [bind, Except.bind, hsplit, hfilter, hparse]

/-- The replicas that are read off a field are written like no other list. -/
theorem parseReplicas_legible {text : Text} {c : Char} (hc : c ∉ text) :
    (∀ r ∈ parseReplicas text, c ∉ r.toList ∧ ',' ∉ r.toList) ∧ parseReplicas text ≠ ["-"] := by
  unfold parseReplicas
  split
  · exact ⟨by simp, by simp⟩
  · next hdash =>
      refine ⟨fun r hr => ?_, fun heq => hdash ?_⟩
      · obtain ⟨part, hpart, rfl⟩ := List.mem_map.mp hr
        obtain ⟨hcomma, hmem⟩ := of_mem_splitOn hpart
        rw [String.toList_ofList]
        exact ⟨fun h => hc (hmem c h), hcomma⟩
      · have hparts : text.splitOn ',' = ["-".toList] := by
          have hmap := congrArg (List.map String.toList) heq
          simpa [List.map_map, Function.comp_def] using hmap
        have hjoin : [','].intercalate (text.splitOn ',') = text := List.intercalate_splitOn ','
        rw [← hjoin, hparts]
        simp

/-- What is read off a line can be written on a line. -/
theorem parseMetaLine_legible {line : Text} {stated : StatedMetaData}
    (h : parseMetaLine line = .ok stated) (hline : '\n' ∉ line) :
    stated.metaData.Legible ∧ stated.metaData.OneLine ∧ stated.metaData.Numbers := by
  have hfield : ∀ {i : Nat} {field : Text}, partAt (line.splitOn ' ') i = .ok field →
      ' ' ∉ field ∧ '\n' ∉ field := by
    intro i field hpart
    obtain ⟨hblank, hmem⟩ := of_mem_splitOn (List.mem_of_getElem? (partAt_eq_ok hpart))
    exact ⟨hblank, fun hc => hline (hmem _ hc)⟩
  unfold parseMetaLine at h
  obtain ⟨topic, htopic, h⟩ := bind_eq_ok h
  obtain ⟨leaderId, hleader, h⟩ := bind_eq_ok h
  obtain ⟨leaderAddr, haddr, h⟩ := bind_eq_ok h
  obtain ⟨portField, -, h⟩ := bind_eq_ok h
  obtain ⟨leaderPort, hport, h⟩ := bind_eq_ok h
  obtain ⟨replicas, hreplicas, h⟩ := bind_eq_ok h
  obtain ⟨versionField, -, h⟩ := bind_eq_ok h
  obtain ⟨version, hversion, h⟩ := bind_eq_ok h
  cases h
  obtain ⟨hblank, hdash⟩ := parseReplicas_legible (hfield hreplicas).1
  have hnewline := (parseReplicas_legible (hfield hreplicas).2).1
  refine ⟨?_, ?_, convertible_of_readInt (intOfText_eq_ok hport),
    convertible_of_readInt (intOfText_eq_ok hversion)⟩
  · constructor
    · simpa [TopicMetaDataResponse.running] using (hfield htopic).1
    · simpa [TopicMetaDataResponse.running] using (hfield hleader).1
    · simpa [TopicMetaDataResponse.running] using (hfield haddr).1
    · exact hblank
    · exact hdash
  · constructor
    · simpa [TopicMetaDataResponse.running] using (hfield htopic).2
    · simpa [TopicMetaDataResponse.running] using (hfield hleader).2
    · simpa [TopicMetaDataResponse.running] using (hfield haddr).2
    · exact fun r hr => (hnewline r hr).1

/-- A list of metadata comes back from its payload exactly if it is legible, no text in it
spans two lines and no number is too long. -/
theorem parseMetadataListPayload_iff {metaList : List TopicMetaDataResponse} :
    parseMetadataListPayload (encodeUtf8 (metaListText (metaList.map (·.running)))) =
        .ok (metaList.map (·.running)) ↔ ∀ m ∈ metaList, m.Legible ∧ m.OneLine ∧ m.Numbers := by
  constructor
  · intro h m hm
    unfold parseMetadataListPayload at h
    split at h
    · have hnil : metaList = [] := List.map_eq_nil_iff.mp (Except.ok.inj h).symm
      rw [hnil] at hm
      exact absurd hm List.not_mem_nil
    · rw [decodeText_encodeUtf8] at h
      obtain ⟨line, hline, hparse⟩ := of_mapM_ok h (List.mem_map_of_mem hm)
      have hmem := List.mem_of_mem_filter hline
      exact parseMetaLine_legible hparse (of_mem_splitOn hmem).1
  · intro h
    refine parseMetadataListPayload_metaListText (fun stated hstated => ?_)
      fun stated hstated => ?_
    · obtain ⟨m, hm, rfl⟩ := List.mem_map.mp hstated
      exact ⟨rfl, (h m hm).1, (h m hm).2.1⟩
    · obtain ⟨m, hm, rfl⟩ := List.mem_map.mp hstated
      exact (h m hm).2.2

/-- The response has a text, and behind the packet header it fits the length prefix. -/
def ResponsePacket.Fits (packet : ResponsePacket) : Prop :=
  ∃ text payload, packet.response.formatted = .ok (text, payload) ∧
    (encodePacketHeader packet.header ++ encodeUtf8 text).length < 2 ^ 32

/-- A frame holds the packet header and the text, and the payload comes after it. -/
theorem encodeResponse_eq_ok {packet : ResponsePacket} {frame : EncodedFrame}
    (h : encodeResponse packet = .ok frame) :
    ∃ text, packet.response.body = .ok (text, frame.payload) ∧
      encodeFrame (encodePacketHeader packet.header ++ encodeUtf8 text) = .ok frame.header := by
  obtain ⟨body, hbody, h⟩ := bind_eq_ok h
  obtain ⟨header, hheader, h⟩ := bind_eq_ok h
  cases h
  exact ⟨body.1, hbody, hheader⟩

/-- When a response has a frame. -/
theorem encodeResponse_ok_iff {packet : ResponsePacket} :
    (∃ frame, encodeResponse packet = .ok frame) ↔
      (∀ n ∈ packet.response.integers, Convertible n) ∧ packet.Fits := by
  constructor
  · rintro ⟨frame, hframe⟩
    obtain ⟨text, hbody, hheader⟩ := encodeResponse_eq_ok hframe
    obtain ⟨integers, htext⟩ := Response.body_eq_ok.mp hbody
    exact ⟨integers, text, frame.payload, htext, encodeFrame_ok_iff.mp ⟨_, hheader⟩⟩
  · rintro ⟨integers, text, payload, htext, hlength⟩
    obtain ⟨header, hheader⟩ := encodeFrame_ok_iff.mpr hlength
    simp only [encodeResponse, Response.body_eq_ok.mpr ⟨integers, htext⟩, bind, Except.bind, hheader]
    exact ⟨_, rfl⟩

end

/-- A list of metadata that can be encoded has no number with too many digits. -/
theorem Response.numbers_of_integers {metaList : List StatedMetaData}
    (integers : ∀ n ∈ (Response.topicMetaDataList metaList).integers, Convertible n) :
    ∀ stated ∈ metaList, stated.metaData.Numbers := by
  intro stated hmem
  have hnumber : ∀ n ∈ [stated.metaData.leaderPort, stated.metaData.version], Convertible n :=
    fun n hn => integers n (List.mem_append_left _ (List.mem_flatMap.mpr ⟨stated, hmem, hn⟩))
  exact ⟨hnumber _ (by simp), hnumber _ (by simp)⟩

/-- A topic with two replicas and one that nobody leads. -/
def someMetaData : List StatedMetaData :=
  [TopicMetaDataResponse.running ⟨"events", "b1", "h1", 9092, ["b1", "b2"], 3⟩,
    TopicMetaDataResponse.running ⟨"", "", "0.0.0.0", 0, [], 1⟩]

/-- The frame of this list, with its payload. -/
def someFrame : EncodedFrame :=
  ⟨Lib.frame (encodeUtf8 "TML 41".toList),
    some (encodeUtf8 "events b1 h1 9092 b1,b2 3\n  0.0.0.0 0 - 1".toList), none, none, none⟩

end PyLogStream
