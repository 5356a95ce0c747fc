import PyLogStream.Lib.Framing
import PyLogStream.Protocol.CommandRoundTrip

/-!
The writing side of the client (`client.py`), and what a broker makes of it. Every call
frames one text. A message that is produced stands where the broker expects the number of
acknowledgements, and its checksum behind the bytes that the length counts.
-/

namespace PyLogStream
open Lib
namespace Client

/-- The checksum, as `_frame_message` appends it. -/
def trailer (payload : String) (addChecksum : Bool) : Bytes :=
  if addChecksum then bigEndian32 (crc32 (encodeUtf8 payload.toList)) else []

/-- `_frame_message`. The length does not count the checksum. -/
def frameMessage (cmd payload : String) (addChecksum : Bool) : Except EncodeError Bytes := do
  let hash := trailer payload addChecksum
  let msgBytes := encodeUtf8 (cmd.toList ++ ' ' :: payload.toList)
  let framed ← encodeFrame msgBytes
  pure (framed ++ hash)

/-- What `register` sends first; then it sends what `login` does. -/
def register : Except EncodeError Bytes := frameMessage "REG" "" false

def login (id : String) : Except EncodeError Bytes := frameMessage "CID" id false

def subscribe (topic : String) : Except EncodeError Bytes := frameMessage "SUB" topic false

def ping : Except EncodeError Bytes := frameMessage "PNG" "" false

def resetOffsetOldest (topic : String) : Except EncodeError Bytes :=
  frameMessage ("SET " ++ topic) "0" false

def resetOffsetLatest (topic : String) : Except EncodeError Bytes :=
  frameMessage ("SET " ++ topic) "-1" false

def produce (topic message : String) (checksumEnabled : Bool) : Except EncodeError Bytes :=
  frameMessage ("PUB " ++ topic) message checksumEnabled

/-- The part of `handle_client` that reads a command: what it reads and what is left. -/
def readCommand (stream : Bytes) (checksumEnable : Bool) :
    Option (Except ParseError Packet × Bytes) :=
  (readFrame stream).map fun p => (parseCommand p.1 checksumEnable, p.2)

/-- The payload is a checksum and what it is the checksum of. -/
def Verified (payload : Text) : Prop :=
  ∃ hash msg, payload = hash ++ ' ' :: msg ∧ ' ' ∉ hash ∧
    readInt hash = some (crc32 (encodeUtf8 msg) : Int)

section
variable {topic message : String} {bytes : Bytes}

theorem encodeFrame_eq_ok {body framed : Bytes} (h : encodeFrame body = .ok framed) :
    framed = frame body ∧ body.length < 2 ^ 32 := by
  rw [encodeFrame] at h
  split at h
  · next hlen => exact ⟨(Except.ok.inj h).symm, hlen⟩
  · cases h

/-- The broker reads the text; a checksum is left in the stream. -/
theorem readCommand_frameMessage {cmd payload : String} {addChecksum : Bool}
    (h : frameMessage cmd payload addChecksum = .ok bytes) {text : Text}
    (htext : cmd.toList ++ ' ' :: payload.toList = text) (hcapital : Capitalized text)
    (rest : Bytes) (checksumEnable : Bool) :
    readCommand (bytes ++ rest) checksumEnable =
      some ((parseBody (encodeUtf8 text) checksumEnable).map (Packet.mk none),
        trailer payload addChecksum ++ rest) := by
  obtain ⟨framed, hframe, hbytes⟩ := bind_eq_ok h
  rw [htext] at hframe
  obtain ⟨rfl, hlen⟩ := encodeFrame_eq_ok hframe
  obtain rfl := Except.ok.inj hbytes
  have hheader := @parsePacketHeader_encode none (fun _ h => by cases h) text hcapital
  have hparse : parseCommand (encodeUtf8 text) checksumEnable =
      (parseBody (encodeUtf8 text) checksumEnable).map (Packet.mk none) := by
    simp only [encodePacketHeader, List.nil_append] at hheader
    rw [parseCommand, hheader]
    rfl
  rw [readCommand, List.append_assoc, readFrame_frame hlen, ← hparse]
  rfl

theorem fieldsText_capitalized {name : String} (h : Capitalized name.toList)
    (fields : List Text) : Capitalized (fieldsText name fields) := by
  obtain ⟨c, rest, heq, hc⟩ := h
  exact ⟨c, rest ++ fields.flatMap (' ' :: ·), by rw [fieldsText, heq]; rfl, hc⟩

theorem readCommand_call {name payload : String} {rest : Bytes} {checksumEnable : Bool}
    {command : Command} (hname : Capitalized name.toList)
    (hbody : parseBody (encodeUtf8 (fieldsText name [payload.toList])) checksumEnable =
      .ok command)
    (h : frameMessage name payload false = .ok bytes) :
    readCommand (bytes ++ rest) checksumEnable = some (.ok ⟨none, command⟩, rest) := by
  have htext : name.toList ++ ' ' :: payload.toList = fieldsText name [payload.toList] := by
    simp [fieldsText]
  rw [readCommand_frameMessage h htext (fieldsText_capitalized hname _), hbody]
  rfl

theorem readCommand_set {value : String} {rest : Bytes} {checksumEnable : Bool}
    (h : frameMessage ("SET " ++ topic) value false = .ok bytes) :
    readCommand (bytes ++ rest) checksumEnable =
      some (.error (.unknownCommand "SET".toList), rest) := by
  have htext : ("SET " ++ topic).toList ++ ' ' :: value.toList =
      fieldsText "SET" [topic.toList, value.toList] := by
    simp [fieldsText]
  have hname := decodeText_name "SET" (by decide) [topic.toList, value.toList]
  have hbody : parseBody (encodeUtf8 (fieldsText "SET" [topic.toList, value.toList]))
      checksumEnable = .error (.unknownCommand "SET".toList) := by
    simp [parseBody, hname, bind, Except.bind, throw, throwThe, MonadExceptOf.throw]
  have hcapital : Capitalized "SET".toList := ⟨'S', "ET".toList, by decide, by decide⟩
  rw [readCommand_frameMessage h htext (fieldsText_capitalized hcapital _), hbody]
  rfl

/-- Registering, logging in, subscribing and pings are read as what they are; the broker does
not know the command that resets an offset. -/
theorem calls_read (id topic : String) (bytes rest : Bytes) (checksumEnable : Bool) :
    let reads := fun (framed : Except EncodeError Bytes) (result : Except ParseError Packet) =>
      framed = .ok bytes → readCommand (bytes ++ rest) checksumEnable = some (result, rest)
    reads register (.ok ⟨none, .register⟩) ∧
      reads (login id) (.ok ⟨none, .clientId id⟩) ∧
      reads (subscribe topic) (.ok ⟨none, .subscribe topic⟩) ∧
      reads ping (.ok ⟨none, .ping⟩) ∧
      reads (resetOffsetOldest topic) (.error (.unknownCommand "SET".toList)) ∧
      reads (resetOffsetLatest topic) (.error (.unknownCommand "SET".toList)) := by
  intro reads
  refine ⟨readCommand_call ⟨'R', "EG".toList, by decide, by decide⟩ ?_,
    readCommand_call ⟨'C', "ID".toList, by decide, by decide⟩ ?_,
    readCommand_call ⟨'S', "UB".toList, by decide, by decide⟩ ?_,
    readCommand_call ⟨'P', "NG".toList, by decide, by decide⟩ ?_, readCommand_set,
    readCommand_set⟩
  · have hname := decodeText_name "REG" (by decide) ["".toList]
    simp only [parseBody, hname, bind, Except.bind]
    rfl
  · have hname := decodeText_name "CID" (by decide) [id.toList]
    have hparts := split_two "CID" (by decide) id.toList
    simp [parseBody, hname, decodeText_encodeUtf8, hparts, partAt, bind, Except.bind, pure,
      Except.pure]
  · have hname := decodeText_name "SUB" (by decide) [topic.toList]
    have hparts := split_two "SUB" (by decide) topic.toList
    simp [parseBody, hname, decodeText_encodeUtf8, hparts, partAt, bind, Except.bind, pure,
      Except.pure]
  · have hname := decodeText_name "PNG" (by decide) ["".toList]
    simp only [parseBody, hname, bind, Except.bind]
    rfl

theorem calls_read_subscribe :
    ∃ bytes, subscribe "t" = .ok bytes ∧
      readCommand (bytes ++ [0, 0]) true = some (.ok ⟨none, .subscribe "t"⟩, [0, 0]) := by
  obtain ⟨bytes, hframe⟩ : ∃ bytes, subscribe "t" = .ok bytes := ⟨_, rfl⟩
  exact ⟨bytes, hframe, (calls_read "" "t" bytes [0, 0] true).2.2.1 hframe⟩

theorem readCommand_produce {checksumEnabled : Bool}
    (h : produce topic message checksumEnabled = .ok bytes) (rest : Bytes)
    (checksumEnable : Bool) :
    readCommand (bytes ++ rest) checksumEnable =
      some ((parsePublish (splitMax ' ' 3 (fieldsText "PUB" [topic.toList, message.toList]))
        checksumEnable).map (Packet.mk none), trailer message checksumEnabled ++ rest) := by
  have htext : ("PUB " ++ topic).toList ++ ' ' :: message.toList =
      fieldsText "PUB" [topic.toList, message.toList] := by
    simp [fieldsText]
  have hname := decodeText_name "PUB" (by decide) [topic.toList, message.toList]
  have hbody : parseBody (encodeUtf8 (fieldsText "PUB" [topic.toList, message.toList]))
      checksumEnable = parsePublish
        (splitMax ' ' 3 (fieldsText "PUB" [topic.toList, message.toList])) checksumEnable := by
    simp only [parseBody, hname, decodeText_encodeUtf8, bind, Except.bind]
    rfl
  rw [readCommand_frameMessage h htext ⟨'P', _, rfl, by decide⟩, hbody]

theorem checkAcks_eq_ok {text : Text} {acks : Int} :
    checkAcks text = .ok acks ↔
      (acks = -1 ∨ acks = 0 ∨ acks = 1) ∧ text = showInt acks := by
  constructor
  · intro h
    rw [checkAcks] at h
    split at h
    · next htext =>
        have hshown : ∃ n : Int, (n = -1 ∨ n = 0 ∨ n = 1) ∧ text = showInt n := by
          obtain rfl | rfl | rfl := htext
          · exact ⟨-1, by decide, by decide⟩
          · exact ⟨0, by decide, by decide⟩
          · exact ⟨1, by decide, by decide⟩
        obtain ⟨n, hn, rfl⟩ := hshown
        rw [intOfText_showInt (convertible_acks hn)] at h
        obtain rfl := Except.ok.inj h
        exact ⟨hn, rfl⟩
    · cases h
  · rintro ⟨hacks, rfl⟩
    exact checkAcks_showInt hacks

theorem map_packet_eq_ok {x : Except ParseError Command} {packet : Packet} :
    x.map (Packet.mk none) = .ok packet ↔ ∃ command, x = .ok command ∧ packet = ⟨none, command⟩ := by
  cases x with
  | error err => simp [Except.map]
  | ok command => simp [Except.map, eq_comm]

theorem verified_append {hash msg : Text} (hhash : ' ' ∉ hash) :
    Verified (hash ++ ' ' :: msg) ↔ readInt hash = some (crc32 (encodeUtf8 msg) : Int) := by
  constructor
  · rintro ⟨hash', msg', heq, hhash', hread⟩
    have hcut := cut_append hhash msg
    rw [heq, cut_append hhash'] at hcut
    obtain ⟨rfl, rfl⟩ := Prod.mk.inj (Option.some.inj hcut)
    exact hread
  · intro hread
    exact ⟨hash, msg, rfl, hhash, hread⟩

/-- What `parse_command` makes of four parts. -/
theorem parsePublish_eq_ok {name topic acksText payload : Text} {checksumEnable : Bool}
    {command : Command} :
    parsePublish [name, topic, acksText, payload] checksumEnable = .ok command ↔
      ∃ acks, checkAcks acksText = .ok acks ∧ (checksumEnable = true → Verified payload) ∧
        command = .publish (String.ofList topic) (encodeUtf8 payload) acks checksumEnable := by
  simp only [parsePublish, partAt, bind, Except.bind, pure, Except.pure, List.getElem?_cons_succ,
    List.getElem?_cons_zero]
  cases hacks : checkAcks acksText with
  | error err => simp
  | ok acks =>
      cases checksumEnable with
      | false => simp [eq_comm]
      | true =>
          by_cases hblank : ' ' ∈ payload
          · obtain ⟨hash, msg, rfl, hhash⟩ := List.eq_append_cons_of_mem hblank
            have hsplit : splitMax ' ' 1 (hash ++ ' ' :: msg) = [hash, msg] := by
              rw [splitMax_append hhash, splitMax]
            simp only [hsplit, List.getElem?_cons_succ, List.getElem?_cons_zero, if_true,
              forall_const, verified_append hhash, intOfText]
            cases hread : readInt hash with
            | none => simp
            | some n =>
                by_cases hsame : (crc32 (encodeUtf8 msg) : Int) = n
                · simp [checksumVerify, hsame, eq_comm]
                · simp [checksumVerify, hsame, Ne.symm hsame, throw, throwThe,
                    MonadExceptOf.throw]
          · have hsplit : splitMax ' ' 1 payload = [payload] := by
              rw [splitMax, cut_eq_none hblank]
            have hnot : ¬ Verified payload := by
              rintro ⟨hash, msg, rfl, -⟩
              simp at hblank
            simp only [hsplit, List.getElem?_cons_succ, List.getElem?_cons_zero, if_true,
              forall_const, hnot, false_and]
            cases intOfText payload with
            | error err => simp
            | ok n => simp

theorem parsePublish_produced (hblank : ' ' ∉ topic.toList) (checksumEnable : Bool)
    {command : Command} :
    parsePublish (splitMax ' ' 3 (fieldsText "PUB" [topic.toList, message.toList]))
        checksumEnable = .ok command ↔
      ∃ acks payload, (acks = -1 ∨ acks = 0 ∨ acks = 1) ∧
        message.toList = showInt acks ++ ' ' :: payload ∧
        (checksumEnable = true → Verified payload) ∧
        command = .publish topic (encodeUtf8 payload) acks checksumEnable := by
  have hparts : splitMax ' ' 3 (fieldsText "PUB" [topic.toList, message.toList]) =
      "PUB".toList :: topic.toList :: splitMax ' ' 1 message.toList := by
    have htext : fieldsText "PUB" [topic.toList, message.toList] =
        "PUB".toList ++ ' ' :: (topic.toList ++ ' ' :: message.toList) := by
      simp [fieldsText]
    rw [htext, splitMax_append (by decide), splitMax_append hblank]
  rw [hparts]
  by_cases hmessage : ' ' ∈ message.toList
  · obtain ⟨first, last, heq, hfirst⟩ := List.eq_append_cons_of_mem hmessage
    rw [heq, splitMax_append hfirst, splitMax, parsePublish_eq_ok, String.ofList_toList]
    constructor
    · rintro ⟨acks, hacks, hverified, rfl⟩
      obtain ⟨hvalue, rfl⟩ := checkAcks_eq_ok.mp hacks
      exact ⟨acks, last, hvalue, rfl, hverified, rfl⟩
    · rintro ⟨acks, payload, hvalue, hsame, hverified, rfl⟩
      have hcut := cut_append hfirst last
      rw [hsame, cut_append (blank_not_mem_showInt acks)] at hcut
      obtain ⟨rfl, rfl⟩ := Prod.mk.inj (Option.some.inj hcut)
      exact ⟨acks, checkAcks_showInt hvalue, hverified, rfl⟩
  · -- three parts are too few
    rw [splitMax, cut_eq_none hmessage]
    constructor
    · intro h
      obtain ⟨_, _, hrest⟩ := bind_eq_ok h
      obtain ⟨_, _, hrest⟩ := bind_eq_ok hrest
      obtain ⟨_, _, hrest⟩ := bind_eq_ok hrest
      obtain ⟨_, hpart, -⟩ := bind_eq_ok hrest
      cases hpart
    · rintro ⟨acks, payload, -, hsame, -⟩
      rw [hsame] at hmessage
      simp at hmessage

/-- A message that a client produces is taken exactly if it is itself a number of
acknowledgements and a payload (with its checksum, where the broker wants one). What is
published is then that payload, never the message, and the checksum of the message is taken
for the length of the next frame. -/
theorem produced_taken_iff (topic message : String) (checksumEnabled checksumEnable : Bool)
    (bytes rest : Bytes) (hblank : ' ' ∉ topic.toList)
    (hframe : produce topic message checksumEnabled = .ok bytes) :
    ∃ result left, readCommand (bytes ++ rest) checksumEnable = some (result, left) ∧
      (∀ packet, result = .ok packet ↔ ∃ acks payload, (acks = -1 ∨ acks = 0 ∨ acks = 1) ∧
        message.toList = showInt acks ++ ' ' :: payload ∧
        (checksumEnable = true → Verified payload) ∧
        packet = ⟨none, .publish topic (encodeUtf8 payload) acks checksumEnable⟩) ∧
      (∀ packet acks checksummed, result = .ok packet →
        packet.command ≠ .publish topic (encodeUtf8 message.toList) acks checksummed) ∧
      (checksumEnabled = true →
        readFrame left = readExactly (crc32 (encodeUtf8 message.toList)) rest) := by
  have taken : ∀ packet, (parsePublish (splitMax ' ' 3 (fieldsText "PUB"
      [topic.toList, message.toList])) checksumEnable).map (Packet.mk none) = .ok packet ↔
        ∃ acks payload, (acks = -1 ∨ acks = 0 ∨ acks = 1) ∧
          message.toList = showInt acks ++ ' ' :: payload ∧
          (checksumEnable = true → Verified payload) ∧
          packet = ⟨none, .publish topic (encodeUtf8 payload) acks checksumEnable⟩ := by
    intro packet
    rw [map_packet_eq_ok]
    constructor
    · rintro ⟨command, hparse, rfl⟩
      obtain ⟨acks, payload, hacks, hmessage, hverified, rfl⟩ :=
        (parsePublish_produced hblank checksumEnable).mp hparse
      exact ⟨acks, payload, hacks, hmessage, hverified, rfl⟩
    · rintro ⟨acks, payload, hacks, hmessage, hverified, rfl⟩
      exact ⟨_, (parsePublish_produced hblank checksumEnable).mpr
        ⟨acks, payload, hacks, hmessage, hverified, rfl⟩, rfl⟩
  refine ⟨_, _, readCommand_produce hframe rest checksumEnable, taken, ?_, ?_⟩
  · intro packet acks checksummed hresult hsame
    obtain ⟨acks', payload, -, hmessage, -, rfl⟩ := (taken packet).mp hresult
    have hbytes : encodeUtf8 payload = encodeUtf8 message.toList := (Command.publish.inj hsame).2.1
    have htext := congrArg decodeUtf8 hbytes
    rw [decodeUtf8_encodeUtf8, decodeUtf8_encodeUtf8] at htext
    -- the payload is shorter than the message
    have hlength := congrArg List.length ((Option.some.inj htext).trans hmessage)
    rw [List.length_append, List.length_cons] at hlength
    omega
  · rintro rfl
    rw [trailer, if_pos rfl]
    exact readFrame_announced (crc32_lt _) rest

/-- A number of acknowledgements and a payload, as if it were a message. -/
theorem produced_taken_iff_acks :
    ∃ bytes left, produce "t" "1 hello" true = .ok bytes ∧
      readCommand (bytes ++ [0, 0]) false =
        some (.ok ⟨none, .publish "t" [104, 101, 108, 108, 111] 1 false⟩, left) := by
  obtain ⟨bytes, hframe⟩ : ∃ bytes, produce "t" "1 hello" true = .ok bytes := ⟨_, rfl⟩
  obtain ⟨result, left, hread, htaken, -⟩ :=
    produced_taken_iff "t" "1 hello" true false bytes [0, 0] (by decide) hframe
  refine ⟨bytes, left, hframe, ?_⟩
  rw [hread, (htaken _).mpr ⟨1, "hello".toList, by decide, by decide, (fun h => by cases h), rfl⟩]
  rfl

end
end Client
end PyLogStream
