import PyLogStream.Lib.Crc32
import PyLogStream.Lib.Text
import PyLogStream.Protocol.Response

/-!
Commands, and the frames of commands and responses (`commands.py`, `common.py`,
`framer.py`, `encoder.py`). Both travel as text after an optional packet header. A
published payload is put behind its text as it is; the payload of a response is
written after the frame, which announces its length.
-/

namespace PyLogStream
open Lib

inductive Command where
  | register
  | clientId (clientId : String)
  | publish (topic : String) (payload : Bytes) (acks : Int) (containsChecksum : Bool)
  | fetchOffset (topic : String)
  | pull (topic : String) (offset size : Int)
  | subscribe (topic : String)
  | commitOffset (topic : String) (offset acks : Int)
  | ping
  | replicaFetch (topic : String) (offset size : Int) (replicaId : String)
  | registerTopic (topic : String)
  | metadataRequest (topic : String)
  | brokerRegister (brokerId host : String) (port : Int)
  | controllerPing (brokerId : String)
  | brokerMetadataList (brokerId : String)
  | isrChange (topic : String) (isrList : List String)
  deriving DecidableEq, Repr

/-- A command with its packet header, which carries a correlation id. -/
structure Packet where
  header : Option String
  command : Command
  deriving DecidableEq, Repr

inductive EncodeError where
  | valueError (message : String)
  | overflowError
  deriving DecidableEq, Repr

/-- The fields of a command behind its name, each after a blank. -/
def fieldsText (name : String) (fields : List Text) : Text :=
  name.toList ++ fields.flatMap (' ' :: ·)

def encodePacketHeader (header : Option String) : Bytes :=
  match header with
  | none => []
  | some id => encodeUtf8 ("[CRR=".toList ++ id.toList ++ "] ".toList)

/-- The integers of an f-string are converted to texts, if none of them is too long. -/
def convertAll (integers : List Int) : Except EncodeError Unit :=
  if ∀ n ∈ integers, Convertible n then .ok ()
  else .error (.valueError ("Exceeds the limit (4300 digits) for integer string conversion; " ++
    "use sys.set_int_max_str_digits() to increase the limit"))

/-- The integers in the text of a command. A checksum is never too long. -/
def Command.integers : Command → List Int
  | .publish _ _ acks _ => [acks]
  | .commitOffset _ offset acks => [acks, offset]
  | .pull _ offset size | .replicaFetch _ offset size _ => [offset, size]
  | .brokerRegister _ _ port => [port]
  | _ => []

/-- What a command puts behind the packet header, once its integers are converted. -/
def Command.formatted (checksumEnable : Bool) : Command → Except EncodeError Bytes
  | .register => .ok (encodeUtf8 (fieldsText "REG" []))
  | .clientId id => .ok (encodeUtf8 (fieldsText "CID" [id.toList]))
  | .subscribe topic => .ok (encodeUtf8 (fieldsText "SUB" [topic.toList]))
  | .commitOffset topic offset acks =>
    .ok (encodeUtf8 (fieldsText "CMT" [topic.toList, showInt acks, showInt offset]))
  | .fetchOffset topic => .ok (encodeUtf8 (fieldsText "FCH" [topic.toList]))
  | .publish topic payload acks _ =>
    if checksumEnable then
      .ok (encodeUtf8 (fieldsText "PUB" [topic.toList, showInt acks, showInt (crc32 payload), []]) ++
        payload)
    else .ok (encodeUtf8 (fieldsText "PUB" [topic.toList, showInt acks, []]) ++ payload)
  | .pull topic offset size =>
    .ok (encodeUtf8 (fieldsText "PUL" [topic.toList, showInt offset, showInt size]))
  | .ping => .ok (encodeUtf8 (fieldsText "PNG" []))
  | .replicaFetch topic offset size replicaId =>
    .ok (encodeUtf8 (fieldsText "RFH"
      [replicaId.toList, topic.toList, showInt offset, showInt size]))
  | .registerTopic topic => .ok (encodeUtf8 (fieldsText "RGT" [topic.toList]))
  | .metadataRequest topic => .ok (encodeUtf8 (fieldsText "MTR" [topic.toList]))
  | .brokerRegister brokerId host port =>
    .ok (encodeUtf8 (fieldsText "BRK" [brokerId.toList, host.toList, showInt port]))
  | .controllerPing brokerId => .ok (encodeUtf8 (fieldsText "CPG" [brokerId.toList]))
  | .isrChange topic isrList =>
    .ok (encodeUtf8 (fieldsText "ISR" [topic.toList, [','].intercalate (isrList.map String.toList)]))
  | .brokerMetadataList _ => .error (.valueError "Unknown command type")

def Command.body (checksumEnable : Bool) (command : Command) : Except EncodeError Bytes := do
  convertAll command.integers
  command.formatted checksumEnable

/-- The four-byte length prefix does not take more than `2 ^ 32 - 1`. -/
def encodeFrame (payload : Bytes) : Except EncodeError Bytes :=
  if payload.length < 2 ^ 32 then .ok (bigEndian32 payload.length ++ payload)
  else .error .overflowError

def encodeCommand (packet : Packet) (checksumEnable : Bool) : Except EncodeError Bytes := do
  let body ← packet.command.body checksumEnable
  encodeFrame (encodePacketHeader packet.header ++ body)

structure EncodedFrame where
  header : Bytes
  payload : Option Bytes
  filePath : Option String
  offset : Option Int
  length : Option Int
  deriving DecidableEq, Repr

/-- The replica ids of a topic; a dash stands for none. -/
def replicasText (replicaList : List String) : Text :=
  if replicaList = [] then "-".toList
  else [','].intercalate (replicaList.map String.toList)

/-- The fields of a topic's metadata, as they stand in a response or on a line. -/
def TopicMetaDataResponse.texts (m : TopicMetaDataResponse) : List Text :=
  [m.topic.toList, m.leaderId.toList, m.leaderAddr.toList, showInt m.leaderPort,
    replicasText m.replicaList, showInt m.version]

/-- The text of a list of metadata, one topic a line. -/
def metaListText (metaList : List StatedMetaData) : Text :=
  ['\n'].intercalate (metaList.map fun stated => [' '].intercalate stated.metaData.texts)

/-- The integers in the text of a response, and in its payload. -/
def Response.integers : Response → List Int
  | .offsetAck _ offset acks | .pubAck _ offset acks => [acks, offset]
  | .fetchOffset _ offset => [offset]
  | .error code _ => [code]
  | .message _ payload => [(payload.length : Int)]
  | .file _ _ _ length => [length]
  | .mmap _ buffer => [(buffer.length : Int)]
  | .replicaFetchBytes _ logEndOffset highWatermark _ payload =>
    [logEndOffset, highWatermark, (payload.length : Int)]
  | .replicaFetchFile _ logEndOffset highWatermark _ _ _ length =>
    [logEndOffset, highWatermark, length]
  | .replicaFetchMmap _ logEndOffset highWatermark _ buffer =>
    [logEndOffset, highWatermark, (buffer.length : Int)]
  | .topicMetaData stated => [stated.metaData.leaderPort, stated.metaData.version]
  | .topicMetaDataList metaList =>
    metaList.flatMap (fun stated => [stated.metaData.leaderPort, stated.metaData.version]) ++
      [((metaListText metaList).length : Int)]
  | .notLeaderController _ _ leaderPort => [leaderPort]
  | _ => []

/-- The text of a response behind the packet header, and the payload written after
the frame, once the integers are converted. The length of a list of metadata is counted in
characters. -/
def Response.formatted : Response → Except EncodeError (Text × Option Bytes)
  | .clientId id => .ok (fieldsText "CID" [id.toList], none)
  | .ping => .ok (fieldsText "PNG" [], none)
  | .offsetAck topic offset acks =>
    .ok (fieldsText "OAK" [topic.toList, showInt acks, showInt offset], none)
  | .fetchOffset topic offset => .ok (fieldsText "FCR" [topic.toList, showInt offset], none)
  | .pubAck topic offset acks =>
    .ok (fieldsText "ACK" [topic.toList, showInt acks, showInt offset], none)
  | .error code text => .ok (fieldsText "ERR" [showInt code, text.toList], none)
  | .message topic payload =>
    .ok (fieldsText "MSG" [topic.toList, showInt payload.length], some payload)
  | .file topic _ _ length => .ok (fieldsText "MSG" [topic.toList, showInt length], none)
  | .mmap topic buffer =>
    .ok (fieldsText "MSG" [topic.toList, showInt buffer.length], some buffer)
  | .replicaFetchBytes topic logEndOffset highWatermark _ payload =>
    .ok (fieldsText "RPL" [topic.toList, showInt logEndOffset, showInt highWatermark,
      showInt payload.length], some payload)
  | .replicaFetchFile topic logEndOffset highWatermark _ _ _ length =>
    .ok (fieldsText "RPL" [topic.toList, showInt logEndOffset, showInt highWatermark,
      showInt length], none)
  | .replicaFetchMmap topic logEndOffset highWatermark _ buffer =>
    .ok (fieldsText "RPL" [topic.toList, showInt logEndOffset, showInt highWatermark,
      showInt buffer.length], some buffer)
  | .topicMetaData stated => .ok (fieldsText "TMD" stated.metaData.texts, none)
  | .topicMetaDataList metaList =>
    .ok (fieldsText "TML" [showInt (metaListText metaList).length],
      some (encodeUtf8 (metaListText metaList)))
  | .controllerPing => .ok (fieldsText "CPR" [], none)
  | .notLeaderController leaderId leaderHost leaderPort =>
    .ok (fieldsText "NLC" [leaderId.toList, leaderHost.toList, showInt leaderPort], none)
  | .messageHeader .. | .replicaFetchHeader .. | .topicMetaDataListHeader _ =>
    .error (.valueError "Unknown response type")

def Response.body (response : Response) : Except EncodeError (Text × Option Bytes) := do
  convertAll response.integers
  response.formatted

/-- The file a response is sent from: its path, an offset and a length. -/
def Response.source : Response → Option (String × Int × Int)
  | .file _ filePath offset length => some (filePath, offset, length)
  | .replicaFetchFile _ _ _ _ filePath offset length => some (filePath, offset, length)
  | _ => none

def encodeResponse (packet : ResponsePacket) : Except EncodeError EncodedFrame := do
  let (text, payload) ← packet.response.body
  let header ← encodeFrame (encodePacketHeader packet.header ++ encodeUtf8 text)
  let source := packet.response.source
  pure
    { header, payload
      filePath := source.map fun file => file.1
      offset := source.map fun file => file.2.1
      length := source.map fun file => file.2.2 }

section
variable {checksumEnable : Bool} {command : Command} {response : Response}

theorem Command.body_eq_ok {bytes : Bytes} :
    command.body checksumEnable = .ok bytes ↔
      (∀ n ∈ command.integers, Convertible n) ∧ command.formatted checksumEnable = .ok bytes := by
  unfold body convertAll
  split
  · next h => exact (and_iff_right h).symm
  · next h => exact iff_of_false (by simp [bind, Except.bind]) fun hbody => h hbody.1

theorem Response.body_eq_ok {text : Text} {payload : Option Bytes} :
    response.body = .ok (text, payload) ↔
      (∀ n ∈ response.integers, Convertible n) ∧ response.formatted = .ok (text, payload) := by
  unfold body convertAll
  split
  · next h => exact (and_iff_right h).symm
  · next h => exact iff_of_false (by simp [bind, Except.bind]) fun hbody => h hbody.1

end

end PyLogStream
