import PyLogStream.Protocol.Encoder
import PyLogStream.Protocol.Records

/-!
Reading commands, responses, lists of metadata and records back (`parser.py`, and the
prefix of `framer.py`). A body is decoded as one text, cut at the blanks and its
numerals read; what can go wrong is an error of the kind the source raises.
-/

namespace PyLogStream
open Lib

inductive ParseError where
  | unicodeDecodeError
  | indexError
  | valueError (message : String)
  | invalidLiteral (literal : Text)
  /-- A numeral with more digits than are converted. -/
  | tooManyDigits (digits : Nat)
  | unknownCommand (cmd : Text)
  | checksumFailed (data : Bytes) (hash : Int)
  | runtimeError (message : String)
  deriving DecidableEq, Repr

def decodeText (data : Bytes) : Except ParseError Text :=
  match decodeUtf8 data with
  | some text => .ok text
  | none => .error .unicodeDecodeError

def partAt {α : Type} (parts : List α) (i : Nat) : Except ParseError α :=
  match parts[i]? with
  | some part => .ok part
  | none => .error .indexError

/-- What `int` raises for a text that is no numeral, or too long a one. -/
def intError (space : Char → Bool) (text literal : Text) : ParseError :=
  match overlong space text with
  | some digits => .tooManyDigits digits
  | none => .invalidLiteral literal

/-- `int` of a text. -/
def intOfText (text : Text) : Except ParseError Int :=
  match readInt text with
  | some n => .ok n
  | none => .error (intError isNumeralSpace (text.map asciiDigit) text)

/-- `int` of a byte string. -/
def intOfBytes (data : Bytes) : Except ParseError Int :=
  let text := data.map fun b => Char.ofNat b.toNat
  match parseInt isAsciiSpace text with
  | some n => .ok n
  | none => .error (intError isAsciiSpace text text)

/-- The match of `_HEADER_RE`: the correlation id and what stands behind the match. -/
def matchHeader (text : Text) : Option (Text × Text) :=
  if "[CRR=".toList.isPrefixOf text then
    let rest := text.drop 5
    let id := rest.takeWhile (· ≠ ']')
    match rest.dropWhile (· ≠ ']') with
    | [] => none
    | _ :: remaining => if id = [] then none else some (id, remaining.dropWhile isSpace)
  else none

def parsePacketHeader (data : Bytes) : Except ParseError (Option String × Bytes) := do
  let text ← decodeText data
  match matchHeader text with
  | none => pure (none, data)
  | some (id, remaining) => pure (some (String.ofList id), encodeUtf8 remaining)

def checksumVerify (data : Bytes) (checksum : Int) : Bool := (crc32 data : Int) == checksum

/-- The values of `acks`, as text. -/
def checkAcks (acks : Text) : Except ParseError Int :=
  if acks = "-1".toList ∨ acks = "0".toList ∨ acks = "1".toList then intOfText acks
  else .error (.valueError "Invalid acks parameter")

def parsePublish (parts : List Text) (checksumEnable : Bool) : Except ParseError Command := do
  let topic ← partAt parts 1
  let acks ← checkAcks (← partAt parts 2)
  let payload ← partAt parts 3
  if checksumEnable then
    let payloadParts := splitMax ' ' 1 payload
    let hash ← intOfText (← partAt payloadParts 0)
    let msg := encodeUtf8 (← partAt payloadParts 1)
    if checksumVerify msg hash then pure () else throw (.checksumFailed msg hash)
  pure (.publish (String.ofList topic) (encodeUtf8 payload) acks checksumEnable)

/-- `_parse_command`. -/
def parseBody (data : Bytes) (checksumEnable : Bool) : Except ParseError Command := do
  let cmd ← decodeText (data.take 3)
  if cmd = "REG".toList then pure .register
  else if cmd = "CID".toList then
    let parts := splitMax ' ' 1 (← decodeText data)
    pure (.clientId (String.ofList (← partAt parts 1)))
  else if cmd = "SUB".toList then
    let parts := splitMax ' ' 1 (← decodeText data)
    pure (.subscribe (String.ofList (← partAt parts (parts.length - 1))))
  else if cmd = "CMT".toList then
    let parts := splitMax ' ' 3 (← decodeText data)
    let acks ← checkAcks (← partAt parts 2)
    let topic ← partAt parts 1
    let offset ← intOfText (← partAt parts 3)
    pure (.commitOffset (String.ofList topic) offset acks)
  else if cmd = "FCH".toList then
    let parts := splitMax ' ' 1 (← decodeText data)
    pure (.fetchOffset (String.ofList (← partAt parts 1)))
  else if cmd = "PUB".toList then
    parsePublish (splitMax ' ' 3 (← decodeText data)) checksumEnable
  else if cmd = "PUL".toList then
    let parts := splitMax ' ' 3 (← decodeText data)
    let topic ← partAt parts 1
    let offset ← partAt parts 2
    let size ← partAt parts 3
    pure (.pull (String.ofList topic) (← intOfText offset) (← intOfText size))
  else if cmd = "RFH".toList then
    let parts := splitMax ' ' 4 (← decodeText data)
    let replicaId ← partAt parts 1
    let topic ← partAt parts 2
    let offset ← partAt parts 3
    let size ← partAt parts 4
    pure (.replicaFetch (String.ofList topic) (← intOfText offset) (← intOfText size)
      (String.ofList replicaId))
  else if cmd = "PNG".toList then pure .ping
  else if cmd = "RGT".toList then
    let parts := splitMax ' ' 1 (← decodeText data)
    pure (.registerTopic (String.ofList (← partAt parts 1)))
  else if cmd = "MTR".toList then
    let parts := splitMax ' ' 1 (← decodeText data)
    pure (.metadataRequest (String.ofList (← partAt parts 1)))
  else if cmd = "BRK".toList then
    let parts := splitMax ' ' 3 (← decodeText data)
    let brokerId ← partAt parts 1
    let host ← partAt parts 2
    pure (.brokerRegister (String.ofList brokerId) (String.ofList host)
      (← intOfText (← partAt parts 3)))
  else if cmd = "CPG".toList then
    let parts := splitMax ' ' 1 (← decodeText data)
    pure (.controllerPing (String.ofList (← partAt parts 1)))
  else if cmd = "ISR".toList then
    let parts := splitMax ' ' 2 (← decodeText data)
    let topic ← partAt parts 1
    let isr ← partAt parts 2
    pure (.isrChange (String.ofList topic)
      (if isr = "-".toList then [] else (isr.splitOn ',').map String.ofList))
  else throw (.unknownCommand cmd)

def parseCommand (data : Bytes) (checksumEnable : Bool) : Except ParseError Packet := do
  let (header, data) ← parsePacketHeader data
  let command ← parseBody data checksumEnable
  pure ⟨header, command⟩

/-- The `acks` of a response, refused with the message. -/
def checkResponseAcks (message : String) (acks : Text) : Except ParseError Int :=
  if acks = "-1".toList ∨ acks = "0".toList ∨ acks = "1".toList then intOfText acks
  else .error (.valueError message)

def parseReplicas (replicas : Text) : List String :=
  if replicas = "-".toList then [] else (replicas.splitOn ',').map String.ofList

/-- `_parse_response`. -/
def parseResponseText (msg : Text) : Except ParseError Response := do
  let cmd := msg.take 3
  if cmd = "CID".toList then
    pure (.clientId (String.ofList (← partAt (splitMax ' ' 1 msg) 1)))
  else if cmd = "PNG".toList then pure .ping
  else if cmd = "ACK".toList then
    let parts := splitMax ' ' 3 msg
    let acks ← checkResponseAcks "Invalid acks parameter in ACK response" (← partAt parts 2)
    let topic ← partAt parts 1
    let offset ← intOfText (← partAt parts 3)
    pure (.pubAck (String.ofList topic) offset acks)
  else if cmd = "OAK".toList then
    let parts := splitMax ' ' 3 msg
    let acks ← checkResponseAcks
      ("Invalid acks parameter in OAK response " ++ String.ofList msg) (← partAt parts 2)
    let topic ← partAt parts 1
    let offset ← intOfText (← partAt parts 3)
    pure (.offsetAck (String.ofList topic) offset acks)
  else if cmd = "FCR".toList then
    let parts := splitMax ' ' 2 msg
    let topic ← partAt parts 1
    pure (.fetchOffset (String.ofList topic) (← intOfText (← partAt parts 2)))
  else if cmd = "ERR".toList then
    let parts := splitMax ' ' 2 msg
    let message := (parts[2]?).getD []
    pure (.error (← intOfText (← partAt parts 1)) (String.ofList message))
  else if cmd = "MSG".toList then
    let parts := splitMax ' ' 2 msg
    let topic ← partAt parts 1
    pure (.messageHeader (String.ofList topic) (← intOfText (← partAt parts 2)))
  else if cmd = "RPL".toList then
    let parts := splitMax ' ' 4 msg
    let topic ← partAt parts 1
    let logEndOffset ← intOfText (← partAt parts 2)
    let highWatermark ← intOfText (← partAt parts 3)
    let payloadLength ← intOfText (← partAt parts 4)
    pure (.replicaFetchHeader (String.ofList topic) logEndOffset highWatermark payloadLength)
  else if cmd = "CPR".toList then pure .controllerPing
  else if cmd = "TMD".toList then
    let parts := splitMax ' ' 6 msg
    let topic ← partAt parts 1
    let leaderId ← partAt parts 2
    let leaderAddr ← partAt parts 3
    let leaderPort ← intOfText (← partAt parts 4)
    let replicas ← partAt parts 5
    let version ← intOfText (← partAt parts 6)
    pure (.topicMetaData (TopicMetaDataResponse.running
      ⟨String.ofList topic, String.ofList leaderId, String.ofList leaderAddr, leaderPort,
        parseReplicas replicas, version⟩))
  else if cmd = "TML".toList then
    pure (.topicMetaDataListHeader (← intOfText (← partAt (splitMax ' ' 1 msg) 1)))
  else if cmd = "NLC".toList then
    let parts := splitMax ' ' 3 msg
    let leaderId ← partAt parts 1
    let leaderHost ← partAt parts 2
    pure (.notLeaderController (String.ofList leaderId) (String.ofList leaderHost)
      (← intOfText (← partAt parts 3)))
  else throw (.unknownCommand cmd)

def parseResponse (data : Bytes) : Except ParseError ResponsePacket := do
  let (header, data) ← parsePacketHeader data
  let response ← parseResponseText (← decodeText data)
  pure ⟨header, response⟩

/-- One line of a list of metadata. -/
def parseMetaLine (line : Text) : Except ParseError StatedMetaData := do
  let parts := line.splitOn ' '
  let topic ← partAt parts 0
  let leaderId ← partAt parts 1
  let leaderAddr ← partAt parts 2
  let leaderPort ← intOfText (← partAt parts 3)
  let replicas ← partAt parts 4
  let version ← intOfText (← partAt parts 5)
  pure (TopicMetaDataResponse.running
    ⟨String.ofList topic, String.ofList leaderId, String.ofList leaderAddr, leaderPort,
      parseReplicas replicas, version⟩)

/-- Lines of white space are passed over. -/
def parseMetadataListPayload (payload : Bytes) : Except ParseError (List StatedMetaData) := do
  if payload = [] then pure []
  else
    let lines := (← decodeText payload).splitOn '\n'
    (lines.filter fun line => !line.all isSpace).mapM parseMetaLine

def decodeLength (front : Bytes) : Nat := ofBigEndian front

/-- The body of a frame, cut by the length in its first four bytes. -/
def frameBody (frame : Bytes) : Bytes := (frame.drop 4).take (decodeLength (frame.take 4))

/-- The checksum and the message of a record. -/
def decodeRecord (record : Bytes) : Except ParseError (Int × Text) := do
  let parts := splitMax 0x20 1 record
  let checksum ← intOfBytes (← partAt parts 0)
  let message ← if parts.length > 1 then decodeText (← partAt parts 1) else pure []
  if checksumVerify (← partAt parts 1) checksum then pure (checksum, message)
  else throw (.runtimeError "Message integrity failed")

end PyLogStream
