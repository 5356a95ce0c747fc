import PyLogStream.Lib.Framing
import PyLogStream.Protocol.ResponseRoundTrip

/-!
Responses back to back on one connection (`_send_response`). A payload or a part of a file
is written behind its frame, and the text of the frame ends with its length; a reader takes
a frame and then as many bytes as it announces. The length of a list of metadata is counted
in characters, so the reader stays in step exactly as long as these lists are ASCII.
-/

namespace PyLogStream
open Lib

/-- A response, the frame it is encoded to and what `sendfile` takes from a file for it: no
more than was asked for, and less if the file ends before. -/
structure Sent where
  packet : ResponsePacket
  frame : EncodedFrame
  slice : Bytes
  encoded : encodeResponse packet = .ok frame
  sliced : slice = [] ∨ ∃ path length, frame.filePath = some path ∧ path ≠ "" ∧
    frame.length = some length ∧ (slice.length : Int) ≤ length

namespace Sent

def body (sent : Sent) : Bytes := frameBody sent.frame.header

/-- The bytes written behind the frame. -/
def payload (sent : Sent) : Bytes := sent.frame.payload.getD [] ++ sent.slice

end Sent

/-- What the server writes for the responses, one after another. -/
def written (sents : List Sent) : Bytes := sents.flatMap fun sent => sent.frame.header ++ sent.payload

/-- The number behind the last blank of a frame's text. -/
def announcedLength (body : Bytes) : Option Nat := do
  let text ← decodeUtf8 body
  let field ← (text.splitOn ' ').getLast?
  let n ← parseInt isSpace field
  n.toNat?

/-- The reader gets the bodies and the payloads back in order, and stops behind them. -/
def Recovers (announce : Bytes → Option Nat) (sents : List Sent) (rest : Bytes) : Prop :=
  readMany announce sents.length (written sents ++ rest) =
    some (sents.map fun sent => (sent.body, sent.payload), rest)

/-- The names of the responses that announce a payload. -/
def announcingNames : List Text := ["MSG".toList, "RPL".toList, "TML".toList]

/-- The number of bytes behind a frame: none for a response that announces no payload. -/
def payloadLength (body : Bytes) : Option Nat := do
  let (_, data) ← (parsePacketHeader body).toOption
  let text ← decodeUtf8 data
  if text.take 3 ∈ announcingNames then announcedLength body else some 0

/-- The length that a reader finds in the header of a payload. -/
def Response.headerLength : Response → Option Int
  | .messageHeader _ length => some length
  | .replicaFetchHeader _ _ _ payloadLength => some payloadLength
  | .topicMetaDataListHeader payloadLength => some payloadLength
  | _ => none

/-- A list of metadata, if it is one, consists of ASCII characters. -/
def Response.CountsBytes : Response → Prop
  | .topicMetaDataList metaList => ∀ c ∈ metaListText metaList, c.toNat < 128
  | _ => True

theorem Response.countsBytes_iff_all (metaList : List StatedMetaData) :
    (Response.topicMetaDataList metaList).CountsBytes ↔
      (metaListText metaList).all (fun c => decide (c.toNat < 128)) = true := by
  simp [CountsBytes]

/-- The text of a response with a payload ends with a length, which is that of the
payload unless characters were counted for bytes. -/
theorem Response.body_payload {response : Response} {text : Text} {payload : Bytes}
    (h : response.body = .ok (text, some payload)) :
    ∃ front length, text = front ++ ' ' :: showInt (Int.ofNat length) ∧
      Convertible (Int.ofNat length) ∧ (length = payload.length ↔ response.CountsBytes) := by
  obtain ⟨integers, h⟩ := body_eq_ok.mp h
  cases response with
  | message topic _ | mmap topic _ =>
      cases h
      exact ⟨fieldsText "MSG" [topic.toList], payload.length, by simp [fieldsText],
        integers _ (by simp [Response.integers]), by simp [CountsBytes]⟩
  | replicaFetchBytes topic logEndOffset highWatermark _ _
  | replicaFetchMmap topic logEndOffset highWatermark _ _ =>
      cases h
      exact ⟨fieldsText "RPL" [topic.toList, showInt logEndOffset, showInt highWatermark],
        payload.length, by simp [fieldsText], integers _ (by simp [Response.integers]),
        by simp [CountsBytes]⟩
  | topicMetaDataList metaList =>
      cases h
      refine ⟨"TML".toList, (metaListText metaList).length, by simp [fieldsText],
        integers _ (by simp [Response.integers]), ?_⟩
      rw [CountsBytes, ← length_encodeUtf8_eq_iff]
      exact eq_comm
  | clientId | ping | offsetAck | pubAck | fetchOffset | error | messageHeader | file
  | replicaFetchHeader | replicaFetchFile | topicMetaData | topicMetaDataListHeader
  | controllerPing | notLeaderController => cases h

/-- The name of a response says whether bytes are written behind its frame, from its
payload or from a file. -/
theorem Response.body_name {response : Response} {text : Text} {payload : Option Bytes}
    (h : response.body = .ok (text, payload)) :
    Capitalized text ∧
      (text.take 3 ∈ announcingNames ↔ payload.isSome ∨ response.source.isSome) := by
  have h := (body_eq_ok.mp h).2
  cases response <;> cases h
  all_goals refine ⟨⟨_, _, rfl, by decide⟩, ?_⟩
  all_goals
    simp [fieldsText, announcingNames, Response.source]

/-- Only a list of metadata with its payload can count amiss. -/
theorem Response.countsBytes_of_none {response : Response} {text : Text}
    (h : response.body = .ok (text, none)) : response.CountsBytes := by
  have h := (body_eq_ok.mp h).2
  cases response <;> first | trivial | cases h

/-- A response with a payload is not sent from a file. -/
theorem Response.source_of_payload {response : Response} {text : Text} {payload : Bytes}
    (h : response.body = .ok (text, some payload)) : response.source = none := by
  have h := (body_eq_ok.mp h).2
  cases response <;> first | rfl | cases h

theorem encodePacketHeader_text (header : Option String) :
    ∃ front, encodePacketHeader header = encodeUtf8 front := by
  cases header with
  | none => exact ⟨[], rfl⟩
  | some id => exact ⟨_, rfl⟩

theorem announcedLength_behind_blank (front : Text) {length : Nat}
    (h : Convertible (Int.ofNat length)) :
    announcedLength (encodeUtf8 (front ++ ' ' :: showInt (Int.ofNat length))) = some length := by
  have hlast : ((front ++ ' ' :: showInt (Int.ofNat length)).splitOn ' ').getLast? =
      some (showInt (Int.ofNat length)) := by
    rw [List.splitOn_append_cons_self, List.splitOn_eq_singleton (blank_not_mem_showInt _),
      List.getLast?_append]
    rfl
  rw [announcedLength, decodeUtf8_encodeUtf8]
  simp only [bind, Option.bind_some, hlast,
    parseInt_showInt (fun c hc => isSpace_of_numeral hc) (Int.ofNat length), if_pos h]
  rfl

/-- The length of a header is read off the part behind the last cut. -/
theorem headerLength_of_parse {text : Text} {response : Response}
    (h : parseResponseText text = .ok response) (hname : text.take 3 ∈ announcingNames) :
    ∃ n part length, (splitMax ' ' n text)[n]? = some part ∧
      readInt part = some length ∧ response.headerLength = some length := by
  unfold parseResponseText at h
  simp only [announcingNames, List.mem_cons, List.not_mem_nil, or_false] at hname
  obtain hmsg | hrpl | html := hname
  · rw [hmsg] at h
    obtain ⟨topic, -, h⟩ := bind_eq_ok h
    obtain ⟨part, hpart, h⟩ := bind_eq_ok h
    obtain ⟨length, hlength, h⟩ := bind_eq_ok h
    refine ⟨2, part, length, partAt_eq_ok hpart, intOfText_eq_ok hlength, ?_⟩
    rw [← Except.ok.inj h, Response.headerLength]
  · rw [hrpl] at h
    obtain ⟨topic, -, h⟩ := bind_eq_ok h
    obtain ⟨endPart, -, h⟩ := bind_eq_ok h
    obtain ⟨logEndOffset, -, h⟩ := bind_eq_ok h
    obtain ⟨markPart, -, h⟩ := bind_eq_ok h
    obtain ⟨highWatermark, -, h⟩ := bind_eq_ok h
    obtain ⟨part, hpart, h⟩ := bind_eq_ok h
    obtain ⟨length, hlength, h⟩ := bind_eq_ok h
    refine ⟨4, part, length, partAt_eq_ok hpart, intOfText_eq_ok hlength, ?_⟩
    rw [← Except.ok.inj h, Response.headerLength]
  · rw [html] at h
    obtain ⟨part, hpart, h⟩ := bind_eq_ok h
    obtain ⟨length, hlength, h⟩ := bind_eq_ok h
    refine ⟨1, part, length, partAt_eq_ok hpart, intOfText_eq_ok hlength, ?_⟩
    rw [← Except.ok.inj h, Response.headerLength]

namespace Sent

/-- The frame of a response holds its packet header and its text. -/
theorem text (sent : Sent) :
    ∃ text, sent.packet.response.body = .ok (text, sent.frame.payload) ∧
      sent.body = encodePacketHeader sent.packet.header ++ encodeUtf8 text := by
  obtain ⟨text, hbody, hheader⟩ := encodeResponse_eq_ok sent.encoded
  exact ⟨text, hbody, frameBody_encodeFrame hheader⟩

/-- What is sent first is a frame. -/
theorem header_eq (sent : Sent) :
    sent.frame.header = Lib.frame sent.body ∧ sent.body.length < 2 ^ 32 := by
  obtain ⟨text, -, hheader⟩ := encodeResponse_eq_ok sent.encoded
  rw [body, frameBody_encodeFrame hheader]
  unfold encodeFrame at hheader
  split at hheader
  · next hlt => exact ⟨(Except.ok.inj hheader).symm, hlt⟩
  · cases hheader

/-- Nothing of a file is written for a response that is not sent from one. -/
theorem slice_eq_nil (sent : Sent) (h : sent.packet.response.source = none) : sent.slice = [] := by
  refine sent.sliced.resolve_right ?_
  rintro ⟨path, length, hpath, -⟩
  obtain ⟨body, -, hframe⟩ := bind_eq_ok sent.encoded
  obtain ⟨header, -, hframe⟩ := bind_eq_ok hframe
  have hnone : sent.frame.filePath = none := by
    rw [← Except.ok.inj hframe, h, Option.map_none]
  rw [hnone] at hpath
  cases hpath

theorem announcedLength_iff (sent : Sent) (h : sent.frame.payload.isSome = true) :
    announcedLength sent.body = some sent.payload.length ↔ sent.packet.response.CountsBytes := by
  obtain ⟨bytes, hbytes⟩ := Option.isSome_iff_exists.mp h
  obtain ⟨text, hbody, htext⟩ := sent.text
  rw [hbytes] at hbody
  obtain ⟨front, length, rfl, hlength, hcounts⟩ := Response.body_payload hbody
  obtain ⟨header, hheader⟩ := encodePacketHeader_text sent.packet.header
  have hpayload : sent.payload = bytes := by
    rw [payload, hbytes, Option.getD_some, sent.slice_eq_nil (Response.source_of_payload hbody),
      List.append_nil]
  rw [htext, hheader, ← encodeUtf8_append, ← List.append_assoc,
    announcedLength_behind_blank _ hlength, hpayload, Option.some.injEq, hcounts]

theorem payloadLength_iff (sent : Sent) (hheader : HeaderOk sent.packet.header)
    (hsource : sent.packet.response.source = none) :
    payloadLength sent.body = some sent.payload.length ↔ sent.packet.response.CountsBytes := by
  obtain ⟨text, hbody, htext⟩ := sent.text
  obtain ⟨hname, hannounce⟩ := Response.body_name hbody
  have hlength : payloadLength sent.body =
      if text.take 3 ∈ announcingNames then announcedLength sent.body else some 0 := by
    rw [payloadLength, htext, parsePacketHeader_encode hheader hname]
    simp [bind, Except.toOption, decodeUtf8_encodeUtf8]
  rw [hsource] at hannounce
  by_cases hsome : sent.frame.payload.isSome = true
  · rw [hlength, if_pos (hannounce.mpr (Or.inl hsome))]
    exact sent.announcedLength_iff hsome
  · have hnone : sent.frame.payload = none := by simpa using hsome
    rw [hlength, if_neg (by simp [hannounce, hnone])]
    rw [hnone] at hbody
    simp [payload, hnone, sent.slice_eq_nil hsource, Response.countsBytes_of_none hbody]

/-- What the parser of responses takes for the length is the announced one. -/
theorem headerLength_eq (sent : Sent) (h : sent.frame.payload.isSome = true)
    (hheader : HeaderOk sent.packet.header) {packet : ResponsePacket}
    (hparse : parseResponse sent.body = .ok packet) :
    packet.response.headerLength = (announcedLength sent.body).map Int.ofNat := by
  obtain ⟨bytes, hbytes⟩ := Option.isSome_iff_exists.mp h
  obtain ⟨text, hbody, htext⟩ := sent.text
  obtain ⟨hname, hannounce⟩ := Response.body_name hbody
  rw [htext, parseResponse, parsePacketHeader_encode hheader hname] at hparse
  simp only [bind, Except.bind, decodeText_encodeUtf8] at hparse
  obtain ⟨response, hresponse, hpacket⟩ := bind_eq_ok hparse
  obtain ⟨n, part, length, hpart, hlength, hheaderLength⟩ :=
    headerLength_of_parse hresponse (hannounce.mpr (Or.inl h))
  rw [hbytes] at hbody
  obtain ⟨front, announced, rfl, hannounced, -⟩ := Response.body_payload hbody
  have heq : length = Int.ofNat announced := by
    obtain rfl | ⟨ys, rfl⟩ := splitMax_getElem? (blank_not_mem_showInt _) hpart
    · rw [readInt_showInt hannounced] at hlength
      exact (Option.some.inj hlength).symm
    · exact readInt_behind_blank hlength
  obtain ⟨packetHeader, hpacketHeader⟩ := encodePacketHeader_text sent.packet.header
  rw [htext, hpacketHeader, ← encodeUtf8_append, ← List.append_assoc,
    announcedLength_behind_blank _ hannounced, ← Except.ok.inj hpacket, hheaderLength, heq,
    Option.map_some]

end Sent

section
variable {announce : Bytes → Option Nat} {sents : List Sent}

theorem written_eq_wire (sents : List Sent) :
    written sents = wire (sents.map fun sent => (sent.body, sent.payload)) := by
  rw [written, wire, List.flatMap_map]
  refine List.flatMap_congr fun sent _ => ?_
  rw [sent.header_eq.1]

theorem recovers_iff (rest : Bytes) :
    Recovers announce sents rest ↔
      ∀ sent ∈ sents, announce sent.body = some sent.payload.length := by
  have hlength : ∀ item ∈ sents.map fun sent => (sent.body, sent.payload),
      item.1.length < 2 ^ 32 := by
    intro item hitem
    obtain ⟨sent, -, rfl⟩ := List.mem_map.mp hitem
    exact sent.header_eq.2
  have hread := @readMany_wire_iff announce _ hlength rest
  rw [List.length_map, ← written_eq_wire, List.forall_mem_map] at hread
  exact hread

end

/-- Every payload is announced with its length, and a reader of any number of responses
stays in step, if and only if every list of metadata among them is ASCII. The second
reader knows the names that announce a payload and takes the other responses along. -/
theorem stays_in_sync_iff (sents : List Sent) :
    ((∀ sent ∈ sents, sent.frame.payload.isSome = true) →
      ((∀ sent ∈ sents, announcedLength sent.body = some sent.payload.length) ↔
        ∀ sent ∈ sents, sent.packet.response.CountsBytes) ∧
      ∀ rest, Recovers announcedLength sents rest ↔
        ∀ sent ∈ sents, sent.packet.response.CountsBytes) ∧
    ((∀ sent ∈ sents, HeaderOk sent.packet.header ∧ sent.packet.response.source = none) →
      ∀ rest, Recovers payloadLength sents rest ↔
        ∀ sent ∈ sents, sent.packet.response.CountsBytes) := by
  refine ⟨fun hpayload => ?_, fun hsent rest => ?_⟩
  · have hannounced : (∀ sent ∈ sents, announcedLength sent.body = some sent.payload.length) ↔
        ∀ sent ∈ sents, sent.packet.response.CountsBytes :=
      forall₂_congr fun sent hmem => sent.announcedLength_iff (hpayload sent hmem)
    exact ⟨hannounced, fun rest => (recovers_iff rest).trans hannounced⟩
  · refine (recovers_iff rest).trans (forall₂_congr fun sent hmem => ?_)
    exact sent.payloadLength_iff (hsent sent hmem).1 (hsent sent hmem).2

/-- A message behind a list of metadata in ASCII, as a server writes them. -/
def plainSents : List Sent :=
  [⟨⟨none, .topicMetaDataList [TopicMetaDataResponse.running ⟨"events", "b1", "h1", 9092, [], 1⟩]⟩,
      ⟨Lib.frame (encodeUtf8 "TML 21".toList), some (encodeUtf8 "events b1 h1 9092 - 1".toList),
        none, none, none⟩, [], by decide +kernel, .inl rfl⟩,
    ⟨⟨some "7f", .message "events" [0xff, 0x20]⟩,
      ⟨Lib.frame (encodeUtf8 "[CRR=7f] MSG events 2".toList), some [0xff, 0x20], none, none, none⟩,
      [], by decide +kernel, .inl rfl⟩]

theorem stays_in_sync_plain :
    ((∀ sent ∈ plainSents, announcedLength sent.body = some sent.payload.length) ∧
      Recovers announcedLength plainSents []) ∧ Recovers payloadLength plainSents [0] := by
  have hcounts : ∀ sent ∈ plainSents, sent.packet.response.CountsBytes := by
    simp only [plainSents, List.forall_mem_cons]
    exact ⟨(Response.countsBytes_iff_all _).mpr (by decide +kernel), trivial, by simp⟩
  obtain ⟨hall, hread⟩ := (stays_in_sync_iff plainSents).1 (by simp [plainSents])
  have hsent : ∀ sent ∈ plainSents,
      HeaderOk sent.packet.header ∧ sent.packet.response.source = none := by
    simp only [plainSents, List.forall_mem_cons]
    exact ⟨⟨by decide, rfl⟩, ⟨by decide, rfl⟩, by simp⟩
  exact ⟨⟨hall.mpr hcounts, (hread []).mpr hcounts⟩,
    ((stays_in_sync_iff plainSents).2 hsent [0]).mpr hcounts⟩

/-- A topic with a letter outside ASCII. -/
def accentedSent : Sent :=
  ⟨⟨none, .topicMetaDataList [TopicMetaDataResponse.running ⟨"café", "b1", "h1", 9092, [], 1⟩]⟩,
    ⟨Lib.frame (encodeUtf8 "TML 19".toList), some (encodeUtf8 "café b1 h1 9092 - 1".toList),
      none, none, none⟩, [], by decide +kernel, .inl rfl⟩

/-- The last byte of the list is left on the stream as the start of the next frame. -/
theorem not_in_sync_accented :
    announcedLength accentedSent.body ≠ some accentedSent.payload.length ∧
      ¬ Recovers announcedLength [accentedSent] [] ∧ ¬ Recovers payloadLength [accentedSent] [] := by
  have hcounts : ¬ accentedSent.packet.response.CountsBytes := by
    rw [accentedSent, Response.countsBytes_iff_all]
    decide +kernel
  have hannounced := mt (accentedSent.announcedLength_iff rfl).mp hcounts
  have hlength := mt (accentedSent.payloadLength_iff (by decide) rfl).mp hcounts
  refine ⟨hannounced, fun hread => ?_, fun hread => ?_⟩
  · exact hannounced ((recovers_iff []).mp hread accentedSent (List.mem_singleton_self _))
  · exact hlength ((recovers_iff []).mp hread accentedSent (List.mem_singleton_self _))

end PyLogStream
