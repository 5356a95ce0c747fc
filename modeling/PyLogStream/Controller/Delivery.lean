import PyLogStream.Lib.Raises
import PyLogStream.Controller.Cascade
import PyLogStream.Network.Connecting
import PyLogStream.Protocol.ResponseRoundTrip

/-!
What a controller writes to a connection, as bytes (`_send_response`, `broadcast_metadata`),
and what a broker reads back from them (`_read_response`). A list of metadata is read back,
and the stream is left behind its last byte, if the text of the list can be parsed and is
ASCII: its length is counted in characters. The other responses consist of a frame only.
-/

namespace PyLogStream
open Lib

namespace ControllerResponse

/-- The response that is encoded. -/
def toResponse : ControllerResponse → Response
  | .topicMetaDataList metaList => .topicMetaDataList (metaList.map (·.running))
  | .topicMetaData metaData => .topicMetaData metaData.running
  | .controllerPing => .controllerPing
  | .error code message => .error code message
  | .notLeaderController leaderId leaderHost leaderPort =>
    .notLeaderController leaderId leaderHost leaderPort

/-- An answer echoes the packet header of its command. A broker registers without one, and
a broadcast answers no command. -/
def packetHeader (header : Option String) : ControllerResponse → Option String
  | .topicMetaDataList _ | .notLeaderController _ _ _ => none
  | .topicMetaData _ | .controllerPing | .error _ _ => header

def encoded (header : Option String) (response : ControllerResponse) :
    Except EncodeError EncodedFrame :=
  encodeResponse ⟨response.packetHeader header, response.toResponse⟩

/-- What is written for the response: its frame and its payload. -/
def bytes (header : Option String) (response : ControllerResponse) : Bytes :=
  match response.encoded header with
  | .ok frame => frame.header ++ frame.payload.getD []
  | .error _ => []

/-- Responses one after another, each with the packet header of its own command. -/
def bytesOf (headers : Nat → Option String) : List ControllerResponse → Bytes
  | [] => []
  | response :: more => response.bytes (headers 0) ++ bytesOf (fun i => headers (i + 1)) more

end ControllerResponse

/-- The list can be encoded, and its text is ASCII. -/
def Deliverable (metaList : List TopicMetaDataResponse) : Prop :=
  (∃ frame, (ControllerResponse.topicMetaDataList metaList).encoded none = .ok frame) ∧
    ∀ c ∈ metaListText (metaList.map (·.running)), c.toNat < 128

instance (metaList : List TopicMetaDataResponse) : Decidable (Deliverable metaList) :=
  match h : (ControllerResponse.topicMetaDataList metaList).encoded none with
  | .ok frame =>
    decidable_of_iff
      ((metaListText (metaList.map (·.running))).all (fun c => decide (c.toNat < 128)) = true)
      ⟨fun hplain => ⟨⟨frame, h⟩, by simpa using hplain⟩, fun hdeliverable => by
        simpa using hdeliverable.2⟩
  | .error _ => .isFalse fun hdeliverable => by
      obtain ⟨⟨frame, hframe⟩, -⟩ := hdeliverable
      rw [h] at hframe
      cases hframe

section
variable {header : Option String} {response : ControllerResponse}
  {metaList : List TopicMetaDataResponse}

theorem bytesOf_append (headers : Nat → Option String) (front back : List ControllerResponse) :
    ControllerResponse.bytesOf headers (front ++ back) =
      ControllerResponse.bytesOf headers front ++
        ControllerResponse.bytesOf (fun i => headers (front.length + i)) back := by
  induction front generalizing headers with
  | nil => simp [ControllerResponse.bytesOf]
  | cons response more ih =>
      simp only [List.cons_append, ControllerResponse.bytesOf, ih, List.append_assoc,
        List.length_cons, Nat.add_right_comm]

/-- Nothing is written only if nothing is written for any of the responses. -/
theorem bytesOf_eq_nil {headers : Nat → Option String} {responses : List ControllerResponse}
    (h : ControllerResponse.bytesOf headers responses = []) {response : ControllerResponse}
    (hmem : response ∈ responses) : ∃ header, response.bytes header = [] := by
  induction responses generalizing headers with
  | nil => cases hmem
  | cons first more ih =>
      obtain ⟨hfirst, hmore⟩ := List.append_eq_nil_iff.mp h
      rcases List.mem_cons.mp hmem with rfl | hmem
      · exact ⟨headers 0, hfirst⟩
      · exact ih hmore hmem

/-- The read takes a frame off the stream. -/
theorem readExactly_frame (ending : Ending) {body : Bytes} (h : body.length < 2 ^ 32)
    (rest : Bytes) :
    readExactly (Lib.frame body ++ rest) ending 4 =
        .ok (bigEndian32 body.length, body ++ rest) ∧
      decodeLength (bigEndian32 body.length) = body.length ∧
      readExactly (body ++ rest) ending body.length = .ok (body, rest) := by
  refine ⟨?_, ofBigEndian_bigEndian32 h, by simp [readExactly]⟩
  rw [readExactly, if_pos (by simp; omega), frame_take_four, frame_drop_four]

theorem encodeFrame_eq_ok {body frame : Bytes} (h : encodeFrame body = .ok frame) :
    frame = Lib.frame body ∧ body.length < 2 ^ 32 := by
  unfold encodeFrame at h
  split at h
  · next hlength => exact ⟨(Except.ok.inj h).symm, hlength⟩
  · cases h

theorem Capitalized.body_ne_nil {text : Text} (h : Capitalized text) (header : Option String) :
    encodePacketHeader header ++ encodeUtf8 text ≠ [] := by
  obtain ⟨c, more, rfl, -⟩ := h
  exact List.append_ne_nil_of_right_ne_nil _ (encodeUtf8_ne_nil (List.cons_ne_nil c more))

/-- The response is a list of metadata, or announces one. -/
def Response.Lists : Response → Prop
  | .topicMetaDataListHeader _ | .topicMetaDataList _ => True
  | _ => False

/-- Only by its name is a response taken for a list. -/
theorem parseResponseText_lists {text : Text} (hname : text.take 3 ≠ "TML".toList) :
    ReturnsOnly (fun response => ¬ response.Lists) (parseResponseText text) := by
  dsimp only [parseResponseText]
  repeat' first
    | refine ReturnsOnly.ite (fun hcmd => ?_) fun _ => ?_
    | refine ReturnsOnly.bind fun _ => ?_
  all_goals first
    | exact absurd hcmd hname
    | exact returnsOnly_pure id
    | exact returnsOnly_throw _

/-- Other responses have another name. -/
theorem ControllerResponse.formatted_name (h : response.metaList? = none) {text : Text}
    {payload : Option Bytes} (htext : response.toResponse.formatted = .ok (text, payload)) :
    payload = none ∧ Capitalized text ∧ text.take 3 ≠ "TML".toList := by
  cases response with
  | topicMetaDataList metaList => cases h
  | topicMetaData metaData =>
      cases htext
      exact ⟨rfl, ⟨'T', _, rfl, by decide⟩, by simp [fieldsText]⟩
  | controllerPing =>
      cases htext
      exact ⟨rfl, ⟨'C', _, rfl, by decide⟩, by simp [fieldsText]⟩
  | error code message =>
      cases htext
      exact ⟨rfl, ⟨'E', _, rfl, by decide⟩, by simp [fieldsText]⟩
  | notLeaderController leaderId leaderHost leaderPort =>
      cases htext
      exact ⟨rfl, ⟨'N', _, rfl, by decide⟩, by simp [fieldsText]⟩

/-- The reader has taken something off the stream that is no list of metadata. -/
def NoList (result : Except ReadError (Option ResponsePacket)) : Prop :=
  result ≠ .error .timeout ∧ ∀ packet, result = .ok (some packet) → ¬ packet.response.Lists

/-- A response that is no list is read as none, and nothing more is read with it. -/
theorem readResponseFrom_other (h : response.metaList? = none) (hheader : HeaderOk header)
    {frame : EncodedFrame} (hframe : response.encoded header = .ok frame) (rest : Bytes) :
    ∃ result, readResponseFrom (response.bytes header ++ rest) .silent = (result, rest) ∧
      NoList result := by
  obtain ⟨text, hbody, hencode⟩ := encodeResponse_eq_ok hframe
  obtain ⟨hpayload, hcapital, hname⟩ := response.formatted_name h (Response.body_eq_ok.mp hbody).2
  obtain ⟨heq, hlength⟩ := encodeFrame_eq_ok hencode
  have hbytes : response.bytes header = frame.header := by
    simp [ControllerResponse.bytes, hframe, hpayload]
  have hheaderOk : HeaderOk (response.packetHeader header) := by
    cases response <;> first | exact hheader | exact fun id hid => by cases hid
  obtain ⟨hfour, hdecode, hread⟩ := readExactly_frame .silent hlength rest
  rw [hbytes, heq, readResponseFrom]
  simp only [hfour, hdecode, hread]
  rw [if_neg (hcapital.body_ne_nil _), parseResponse, parsePacketHeader_encode hheaderOk hcapital]
  simp only [bind, Except.bind, decodeText_encodeUtf8]
  cases hparse : parseResponseText text with
  | error err =>
      by_cases hvalue : err.IsValueError
      · exact ⟨.ok none, by simp [catchValueError, hvalue], by simp [NoList]⟩
      · exact ⟨.error (.parse err), by simp [catchValueError, hvalue], by simp [NoList]⟩
  | ok parsed =>
      have hlists := parseResponseText_lists hname parsed hparse
      refine ⟨.ok (some ⟨response.packetHeader header, parsed⟩), ?_, by simp [NoList, hlists]⟩
      cases parsed with
      | topicMetaDataListHeader length => exact absurd trivial hlists
      | _ => rfl

theorem parseResponseText_listHeader {length : Nat} (h : Convertible (length : Int)) :
    parseResponseText (fieldsText "TML" [showInt length]) =
      .ok (.topicMetaDataListHeader length) := by
  have hname : (fieldsText "TML" [showInt (length : Int)]).take 3 = "TML".toList := rfl
  have hparts := split_two "TML" (by decide) (showInt (length : Int))
  simp [parseResponseText, hname, hparts, partAt, intOfText_showInt h, bind, Except.bind, pure,
    Except.pure]

/-- A list that can be delivered is read back, and the stream is left behind it. -/
theorem readResponseFrom_list (header : Option String) (ending : Ending)
    (legible : ∀ r ∈ metaList, r.Legible ∧ r.OneLine)
    (deliverable : Deliverable metaList) (rest : Bytes) :
    readResponseFrom ((ControllerResponse.topicMetaDataList metaList).bytes header ++ rest) ending =
      (.ok (some ⟨none, .topicMetaDataList (metaList.map (·.running))⟩), rest) := by
  obtain ⟨⟨frame, hframe⟩, hplain⟩ := deliverable
  obtain ⟨text, hbody, hencode⟩ := encodeResponse_eq_ok hframe
  obtain ⟨integers, htext⟩ := Response.body_eq_ok.mp hbody
  obtain ⟨rfl, hpayload⟩ := Prod.mk.inj (Except.ok.inj htext)
  obtain ⟨heq, hlength⟩ := encodeFrame_eq_ok hencode
  set line := metaListText (metaList.map (·.running)) with hline
  have hbytes : (ControllerResponse.topicMetaDataList metaList).bytes header =
      frame.header ++ encodeUtf8 line := by
    have hencoded : (ControllerResponse.topicMetaDataList metaList).encoded header = .ok frame :=
      hframe
    simp only [ControllerResponse.bytes, hencoded, ← hpayload, Option.getD_some]
  have hcount : (encodeUtf8 line).length = line.length := length_encodeUtf8_eq_iff.mpr hplain
  have hconvertible : Convertible (line.length : Int) := integers _ (by
    simp [ControllerResponse.toResponse, Response.integers, hline])
  have hlist : parseMetadataListPayload (encodeUtf8 line) = .ok (metaList.map (·.running)) := by
    refine parseMetadataListPayload_iff.mpr fun r hr => ⟨(legible r hr).1, (legible r hr).2, ?_⟩
    exact Response.numbers_of_integers integers r.running (List.mem_map_of_mem hr)
  obtain ⟨hfour, hdecode, hread⟩ := readExactly_frame ending hlength (encodeUtf8 line ++ rest)
  rw [hbytes, heq, List.append_assoc, readResponseFrom]
  simp only [hfour, hdecode, hread]
  have hcapital : Capitalized (fieldsText "TML" [showInt (line.length : Int)]) :=
    ⟨'T', _, rfl, by decide⟩
  have hheader : HeaderOk ((ControllerResponse.topicMetaDataList metaList).packetHeader none) :=
    fun id hid => by cases hid
  rw [if_neg (hcapital.body_ne_nil _), parseResponse, parsePacketHeader_encode hheader hcapital]
  simp only [bind, Except.bind, decodeText_encodeUtf8, parseResponseText_listHeader hconvertible,
    catchValueError]
  by_cases hpos : (line.length : Int) > 0
  · have hpayloadRead : readExactly (encodeUtf8 line ++ rest) ending line.length =
        .ok (encodeUtf8 line, rest) := by
      rw [← hcount]
      simp [readExactly]
    simp only [pure, Except.pure, if_pos hpos, Int.toNat_natCast, hpayloadRead, hlist]
    rfl
  · -- an empty text is that of an empty list
    have hnil : line = [] := List.eq_nil_of_length_eq_zero (by omega)
    have hempty : metaList.map (·.running) = [] := by
      rw [hnil] at hlist
      exact (Except.ok.inj hlist).symm
    simp only [pure, Except.pure, hnil, hempty]
    rfl

theorem Deliverable.bytes_ne_nil (deliverable : Deliverable metaList)
    (legible : ∀ r ∈ metaList, r.Legible ∧ r.OneLine) (header : Option String) :
    (ControllerResponse.topicMetaDataList metaList).bytes header ≠ [] := by
  intro hnil
  have hread := readResponseFrom_list header .silent legible deliverable []
  rw [hnil] at hread
  cases hread

end

end PyLogStream
