import PyLogStream.Log.Durable
import PyLogStream.Log.Boundary
import PyLogStream.Protocol.Parser

/-!
The way of a published payload: framed as a command, parsed by the broker, stored
with its checksum, read back, split into records and decoded. The payload is raw
bytes on the wire and in the log, but the broker decodes the whole body as one
text, and so does the consumer.
-/

namespace PyLogStream
open Lib

/-- What is stored for a payload: its checksum, a blank and the payload. -/
def checksummed (payload : Bytes) : Bytes :=
  encodeUtf8 (showInt (crc32 payload)) ++ 0x20 :: payload

/-- The text in front of a published payload. -/
def publishText (topic : String) (acks : Int) (payload : Bytes) : Text :=
  fieldsText "PUB" [topic.toList, showInt acks, showInt (crc32 payload), []]

theorem encodeFrame_body {payload frame : Bytes} (h : encodeFrame payload = .ok frame) :
    frame.drop 4 = payload ∧ payload.length < 2 ^ 32 := by
  rw [encodeFrame] at h
  by_cases hlen : payload.length < 2 ^ 32
  · rw [if_pos hlen] at h
    cases h
    exact ⟨List.drop_left' (by simp [bigEndian32]), hlen⟩
  · rw [if_neg hlen] at h
    cases h

theorem publish_body {topic : String} {acks : Int} {payload frame : Bytes} {contains : Bool}
    (h : encodeCommand ⟨none, .publish topic payload acks contains⟩ true = .ok frame) :
    frame.drop 4 = encodeUtf8 (publishText topic acks payload) ++ payload ∧
      (encodeUtf8 (publishText topic acks payload) ++ payload).length < 2 ^ 32 := by
  obtain ⟨body, hbody, hframe⟩ := bind_eq_ok h
  obtain rfl := Except.ok.inj (Command.body_eq_ok.mp hbody).2
  exact encodeFrame_body hframe

section
variable {topic : String} {acks : Int} {payload : Bytes}

theorem intOfText_showInt {n : Int} (h : Convertible n) : intOfText (showInt n) = .ok n := by
  simp [intOfText, readInt_showInt h]

theorem intOfBytes_showInt {n : Int} (h : Convertible n) :
    intOfBytes (encodeUtf8 (showInt n)) = .ok n := by
  have hascii := map_ofNat_encodeUtf8 fun c hc => (toNat_of_mem_showInt (n := n) hc).2
  simp only [intOfBytes, hascii, parseInt_showInt fun c => isAsciiSpace_of_numeral, if_pos h]

theorem convertible_crc32 (data : Bytes) : Convertible (crc32 data) :=
  convertible_of_lt ((crc32_lt data).trans (by decide))

theorem convertible_acks (hacks : acks = -1 ∨ acks = 0 ∨ acks = 1) : Convertible acks := by
  obtain rfl | rfl | rfl := hacks <;> decide

theorem checkAcks_showInt (hacks : acks = -1 ∨ acks = 0 ∨ acks = 1) :
    checkAcks (showInt acks) = .ok acks := by
  have htext : showInt acks = "-1".toList ∨ showInt acks = "0".toList ∨
      showInt acks = "1".toList := by
    obtain rfl | rfl | rfl := hacks
    · exact Or.inl (by decide)
    · exact Or.inr (Or.inl (by decide))
    · exact Or.inr (Or.inr (by decide))
  rw [checkAcks, if_pos htext, intOfText_showInt (convertible_acks hacks)]

theorem checksumVerify_crc32 (data : Bytes) : checksumVerify data (crc32 data) = true := by
  simp [checksumVerify]

/-- The stored bytes are the text behind the third blank of the command. -/
theorem checksummed_encodeUtf8 (text : Text) :
    checksummed (encodeUtf8 text) =
      encodeUtf8 (showInt (crc32 (encodeUtf8 text)) ++ ' ' :: text) := by
  rw [checksummed, encodeUtf8_append, encodeUtf8_cons_ascii (by decide) text]
  rfl

theorem publish_wire : encodeUtf8 (publishText topic acks payload) ++ payload =
    encodeUtf8 (fieldsText "PUB" [topic.toList, showInt acks] ++ [' ']) ++ checksummed payload := by
  have htext : publishText topic acks payload =
      (fieldsText "PUB" [topic.toList, showInt acks] ++ [' ']) ++
        (showInt (crc32 payload) ++ [' ']) := by
    simp [publishText, fieldsText]
  have hblank : encodeUtf8 [' '] = [0x20] := by decide
  rw [htext, encodeUtf8_append, encodeUtf8_append (showInt _), hblank, checksummed]
  simp

theorem split_publishText (hspace : ' ' ∉ topic.toList) (text : Text) :
    splitMax ' ' 3 (publishText topic acks payload ++ text) =
      ["PUB".toList, topic.toList, showInt acks, showInt (crc32 payload) ++ ' ' :: text] := by
  have htext : publishText topic acks payload ++ text = "PUB".toList ++ ' ' :: (topic.toList ++
      ' ' :: (showInt acks ++ ' ' :: (showInt (crc32 payload) ++ ' ' :: text))) := by
    simp [publishText, fieldsText]
  rw [htext, splitMax_append (by decide), splitMax_append hspace,
    splitMax_append (blank_not_mem_showInt acks), splitMax]

theorem parsePublish_split (hacks : acks = -1 ∨ acks = 0 ∨ acks = 1) (text : Text) :
    parsePublish ["PUB".toList, topic.toList, showInt acks,
        showInt (crc32 (encodeUtf8 text)) ++ ' ' :: text] true =
      .ok (.publish topic (checksummed (encodeUtf8 text)) acks true) := by
  have hparts : splitMax ' ' 1 (showInt (crc32 (encodeUtf8 text)) ++ ' ' :: text) =
      [showInt (crc32 (encodeUtf8 text)), text] := by
    rw [splitMax_append (blank_not_mem_showInt _), splitMax]
  simp [parsePublish, partAt, hparts, checkAcks_showInt hacks,
    intOfText_showInt (convertible_crc32 _), checksumVerify_crc32, checksummed_encodeUtf8, bind,
    Except.bind, pure, Except.pure]

/-- A payload that is UTF-8 arrives with its checksum in front. -/
theorem parseCommand_publish (hspace : ' ' ∉ topic.toList)
    (hacks : acks = -1 ∨ acks = 0 ∨ acks = 1) (text : Text) :
    parseCommand (encodeUtf8 (publishText topic acks (encodeUtf8 text)) ++ encodeUtf8 text) true =
      .ok ⟨none, .publish topic (checksummed (encodeUtf8 text)) acks true⟩ := by
  have hdecode : decodeText (encodeUtf8 (publishText topic acks (encodeUtf8 text)) ++
      encodeUtf8 text) = .ok (publishText topic acks (encodeUtf8 text) ++ text) := by
    rw [← encodeUtf8_append, decodeText, decodeUtf8_encodeUtf8]
  have hheader : matchHeader (publishText topic acks (encodeUtf8 text) ++ text) = none := by
    simp [matchHeader, publishText, fieldsText]
  have hname : decodeText ((encodeUtf8 (publishText topic acks (encodeUtf8 text)) ++
      encodeUtf8 text).take 3) = .ok "PUB".toList := by
    have hthree : (encodeUtf8 "PUB".toList).length = 3 := by decide
    rw [publishText, fieldsText, encodeUtf8_append, List.append_assoc, ← hthree, List.take_left,
      decodeText, decodeUtf8_encodeUtf8]
  have hbody : parseBody (encodeUtf8 (publishText topic acks (encodeUtf8 text)) ++
      encodeUtf8 text) true = .ok (.publish topic (checksummed (encodeUtf8 text)) acks true) := by
    simp only [parseBody, hname, hdecode, bind, Except.bind]
    rw [split_publishText hspace]
    exact parsePublish_split hacks text
  simp only [parseCommand, parsePacketHeader, hdecode, hheader, hbody, bind, Except.bind, pure,
    Except.pure]

/-- The broker decodes the whole body first. -/
theorem parseCommand_not_utf8 (h : decodeUtf8 payload = none) :
    parseCommand (encodeUtf8 (publishText topic acks payload) ++ payload) true =
      .error .unicodeDecodeError := by
  simp only [parseCommand, parsePacketHeader, decodeText, decodeUtf8_append, h, Option.map_none,
    bind, Except.bind]

theorem decodeRecord_checksummed (text : Text) :
    decodeRecord (checksummed (encodeUtf8 text)) = .ok ((crc32 (encodeUtf8 text) : Int), text) := by
  have hparts : splitMax 0x20 1 (checksummed (encodeUtf8 text)) =
      [encodeUtf8 (showInt (crc32 (encodeUtf8 text))), encodeUtf8 text] := by
    rw [checksummed, splitMax_append (blank_not_mem_encodeUtf8_showInt _), splitMax]
  simp [decodeRecord, hparts, partAt, intOfBytes_showInt (convertible_crc32 _), decodeText,
    decodeUtf8_encodeUtf8, checksumVerify_crc32, bind, Except.bind, pure, Except.pure]

end

/-- A body is parsed, its payload appended, read back at the offset of the append, split
and decoded; the message is the payload again, with its checksum. -/
def RoundTrips (lm : LogManager) (writeEnv readEnv : CallEnv) (size : Int) (topic : String)
    (acks : Int) (payload body : Bytes) : Prop :=
  ∃ stored offset result record message,
    parseCommand body true = .ok ⟨none, .publish topic stored acks true⟩ ∧
    (lm.append writeEnv topic stored).2 = .ok offset ∧
    ((lm.append writeEnv topic stored).1.readBytes readEnv topic offset size).2 = .ok result ∧
    parseRecords result.data = [record] ∧
    decodeRecord record = .ok ((crc32 payload : Int), message) ∧
    encodeUtf8 message = payload

/-- What is appended last is read back alone. -/
theorem append_readBytes {lm : LogManager} (ok : LogOk lm) (recs : RecordsOk lm)
    {writeEnv readEnv : CallEnv} {topic : String} {data : Bytes} (hlen : data.length < 2 ^ 32)
    (safe : SafeStep lm (.append topic writeEnv data)) (hread : readEnv.ops = .succeed)
    (size : Int) :
    ∃ offset result, (lm.append writeEnv topic data).2 = .ok offset ∧
      ((lm.append writeEnv topic data).1.readBytes readEnv topic offset size).2 = .ok result ∧
      parseRecords result.data = [data] := by
  have effect := append_effect ok safe
  have hoffset := append_offset ok recs safe.files hlen
    fun base h => safe.clear topic base (by simp [LogManager.opened, h])
  have hpayloads : (lm.append writeEnv topic data).1.payloads topic =
      lm.payloads topic ++ [data] := by
    rw [effect.payloads recs, LogOp.added, if_pos ⟨rfl, hlen⟩]
  obtain ⟨lm', m, got, latest, hgot, hprefix, hresult, -⟩ :=
    readBytes_at_boundary effect.ok (effect.records recs) hread hpayloads (by simp) size
  have hdata : got = [data] := by
    cases got with
    | nil => exact absurd rfl hgot
    | cons p got =>
        obtain ⟨hp, htail⟩ := List.cons_prefix_cons.mp hprefix
        rw [hp, List.prefix_nil.mp htail]
  refine ⟨_, _, hoffset, by rw [hresult], ?_⟩
  rw [hdata]
  refine parseRecords_frames fun p hp => ?_
  rwa [List.mem_singleton.mp hp]

/-- With checksums on both sides, a published payload comes back to a consumer if and only
if it is UTF-8; the body of any other is refused by the parser. -/
theorem publish_round_trips_iff (config : LogConfig) (importTime : Time)
    (hinit : 0 < config.initSegmentSize) (ops : List LogOp) (topic : String) (acks : Int)
    (payload frame : Bytes) (contains : Bool) (writeEnv readEnv : CallEnv) (size : Int)
    (safe : MeetsAll LogManager.apply SafeStep (LogManager.start config importTime)
      (ops ++ [.append topic writeEnv (checksummed payload)]))
    (hread : readEnv.ops = .succeed) (hspace : ' ' ∉ topic.toList)
    (hacks : acks = -1 ∨ acks = 0 ∨ acks = 1)
    (hframe : encodeCommand ⟨none, .publish topic payload acks contains⟩ true = .ok frame) :
    let lm := run LogManager.apply (LogManager.start config importTime) ops
    (RoundTrips lm writeEnv readEnv size topic acks payload (frame.drop 4) ↔
        ∃ text, encodeUtf8 text = payload) ∧
      ((¬ ∃ text, encodeUtf8 text = payload) →
        parseCommand (frame.drop 4) true = .error .unicodeDecodeError) := by
  obtain ⟨hbody, hlen⟩ := publish_body hframe
  rw [hbody]
  have hrefused : (¬ ∃ text, encodeUtf8 text = payload) →
      parseCommand (encodeUtf8 (publishText topic acks payload) ++ payload) true =
        .error .unicodeDecodeError := by
    intro hnot
    refine parseCommand_not_utf8 ?_
    cases hdecode : decodeUtf8 payload with
    | none => rfl
    | some text => exact absurd ⟨text, (decodeUtf8_eq_some_iff.mp hdecode).symm⟩ hnot
  refine ⟨⟨?_, ?_⟩, hrefused⟩
  · rintro ⟨stored, offset, result, record, message, hparse, -⟩
    by_contra hnot
    rw [hrefused hnot] at hparse
    cases hparse
  · rintro ⟨text, rfl⟩
    obtain ⟨hsafe, hlast⟩ := safe.of_append
    obtain ⟨ok, recs⟩ := safeRun_ok (logOk_start config importTime hinit)
      (recordsOk_start config importTime) hsafe
    have hshort : (checksummed (encodeUtf8 text)).length < 2 ^ 32 := by
      rw [publish_wire, List.length_append] at hlen
      omega
    obtain ⟨offset, result, happend, hresult, hrecords⟩ :=
      append_readBytes ok recs hshort hlast.1 hread size
    exact ⟨_, offset, result, _, text, parseCommand_publish hspace hacks text, happend, hresult,
      hrecords, decodeRecord_checksummed text, rfl⟩

def publishLog : LogConfig := ⟨"data", 0, 1000000, 100, 16, 16, 4⟩

/-- The frame of a blank, a digit and a line break, published to `t`. -/
def textFrame : Bytes :=
  [0, 0, 0, 23, 80, 85, 66, 32, 116, 32, 45, 49, 32, 51, 48, 56, 52, 56, 51, 52, 53, 50, 48, 32,
    32, 55, 10]

theorem publish_round_trips_text :
    RoundTrips (run LogManager.apply (LogManager.start publishLog 0)
      [.append "t" ⟨0, .succeed⟩ [7]]) ⟨1, .succeed⟩ ⟨2, .succeed⟩ 0 "t" (-1) [32, 55, 10]
      (textFrame.drop 4) := by
  refine (publish_round_trips_iff publishLog 0 (by decide) [.append "t" ⟨0, .succeed⟩ [7]] "t" (-1)
    [32, 55, 10] textFrame true ⟨1, .succeed⟩ ⟨2, .succeed⟩ 0 ?_ rfl ?_ ?_ ?_).1.mpr ?_
  · decide +kernel
  · decide
  · decide
  · decide +kernel
  · exact ⟨[' ', '7', Char.ofNat 10], by decide⟩

/-- The frame of a single byte that occurs in no text. -/
def binaryFrame : Bytes :=
  [0, 0, 0, 20, 80, 85, 66, 32, 116, 32, 49, 32, 52, 50, 55, 56, 49, 57, 48, 48, 56, 48, 32, 255]

theorem binary_payload_refused :
    encodeCommand ⟨none, .publish "t" [255] 1 true⟩ true = .ok binaryFrame ∧
      parseCommand (binaryFrame.drop 4) true = .error .unicodeDecodeError ∧
      ¬ RoundTrips (LogManager.start publishLog 0) ⟨1, .succeed⟩ ⟨2, .succeed⟩ 0 "t" 1 [255]
        (binaryFrame.drop 4) := by
  have hparse : parseCommand (binaryFrame.drop 4) true = .error .unicodeDecodeError := by
    decide +kernel
  refine ⟨by decide +kernel, hparse, ?_⟩
  rintro ⟨stored, offset, result, record, message, hok, -⟩
  rw [hparse] at hok
  cases hok

end PyLogStream
