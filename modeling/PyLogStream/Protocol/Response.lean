import PyLogStream.Lib.Bytes

/-!
Responses (`response.py`). A header response announces bytes that follow its frame;
it is what a reader makes of a message, a replica fetch or a list of metadata. The
buffer of a mapped response is taken as the bytes it shows.
-/

namespace PyLogStream
open Lib

structure TopicMetaDataResponse where
  topic : String
  leaderId : String
  leaderAddr : String
  leaderPort : Int
  replicaList : List String
  version : Int
  deriving DecidableEq, Repr

/-- A metadata response with the field that does not travel. -/
structure StatedMetaData where
  metaData : TopicMetaDataResponse
  state : String
  deriving DecidableEq, Repr

/-- The state a response has unless it is given another. -/
def TopicMetaDataResponse.running (metaData : TopicMetaDataResponse) : StatedMetaData :=
  ⟨metaData, "running"⟩

inductive Response where
  | clientId (clientId : String)
  | ping
  | offsetAck (topic : String) (offset acks : Int)
  | pubAck (topic : String) (offset acks : Int)
  | fetchOffset (topic : String) (offset : Int)
  | error (code : Int) (message : String)
  | messageHeader (topic : String) (length : Int)
  | message (topic : String) (payload : Bytes)
  | file (topic filePath : String) (offset length : Int)
  | mmap (topic : String) (buffer : Bytes)
  | replicaFetchHeader (topic : String) (logEndOffset highWatermark payloadLength : Int)
  | replicaFetchBytes (topic : String) (logEndOffset highWatermark payloadLength : Int)
      (payload : Bytes)
  | replicaFetchMmap (topic : String) (logEndOffset highWatermark payloadLength : Int)
      (buffer : Bytes)
  | replicaFetchFile (topic : String) (logEndOffset highWatermark payloadLength : Int)
      (filePath : String) (offset length : Int)
  | topicMetaData (stated : StatedMetaData)
  | topicMetaDataListHeader (payloadLength : Int)
  | topicMetaDataList (metaList : List StatedMetaData)
  | controllerPing
  | notLeaderController (leaderId leaderHost : String) (leaderPort : Int)
  deriving DecidableEq, Repr

/-- A response with its packet header, which carries a correlation id. -/
structure ResponsePacket where
  header : Option String
  response : Response
  deriving DecidableEq, Repr

end PyLogStream
