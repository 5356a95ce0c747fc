import PyLogStream.Lib.Dict
import PyLogStream.Log.Segment

/-!
The segment registry (`log/segment_registry.py`): per topic the list of its
segments in creation order. Each method runs under the topic's lock, so it is
one function from registry to registry; a method that raises changes nothing.
-/

namespace PyLogStream
open Lib

structure SegmentRegistry where
  logDir : String
  /-- Value of the default of `SegmentMeta.created_at`. The default expression is
  evaluated once, when the class is defined. -/
  defaultCreatedAt : Time
  registry : Dict String (List SegmentMeta)

namespace SegmentRegistry

def allowedTransitions : SegmentState → List SegmentState
  | .active => [.sealed]
  | .sealed => [.expired]
  | .expired => [.deleted]
  | .deleted => []

def buildSegmentPath (r : SegmentRegistry) (topic : String) (baseOffset : Int) : String :=
  segmentPath r.logDir topic baseOffset

def newSegment (r : SegmentRegistry) (topic : String) (baseOffset : Int) : SegmentMeta :=
  { topic := topic
    baseOffset := baseOffset
    path := r.buildSegmentPath topic baseOffset
    state := .active
    createdAt := r.defaultCreatedAt
    size := 0 }

def setTopic (r : SegmentRegistry) (topic : String) (segs : List SegmentMeta) :
    SegmentRegistry :=
  { r with registry := r.registry.set topic segs }

def createSegment (r : SegmentRegistry) (topic : String) (baseOffset : Int) :
    Except LogError (SegmentMeta × SegmentRegistry) :=
  let segment := r.newSegment topic baseOffset
  match r.registry.get? topic with
  | none => .ok (segment, r.setTopic topic [segment])
  | some segs =>
    match segs.getLast? with
    | none => .error .indexError
    | some previous =>
      if previous.getEndOffset > baseOffset ∨ previous.baseOffset = baseOffset then
        .error (.segmentOverlapping segment previous)
      else .ok (segment, r.setTopic topic (segs ++ [segment]))

/-- The loop of `_find_segment_index`. Each iteration shrinks the interval from
`l` to `r`, so its initial length is enough fuel. -/
def findSegmentLoop (segs : List SegmentMeta) (offset : Int) :
    Nat → Int → Int → Int → Int
  | 0, i, _, _ => i
  | fuel + 1, i, l, r =>
    if l ≤ r then
      let mid := (l + r) / 2
      match segs[mid.toNat]? with
      | none => i
      | some m =>
        if m.baseOffset ≤ offset then findSegmentLoop segs offset fuel mid (mid + 1) r
        else findSegmentLoop segs offset fuel i l (mid - 1)
    else i

/-- Greatest index whose base offset is not above `offset`, or `-1`. -/
def findSegmentIndex (segs : List SegmentMeta) (offset : Int) : Int :=
  findSegmentLoop segs offset segs.length (-1) 0 ((segs.length : Int) - 1)

/-- `offset = -1` asks for the latest segment. -/
def getSegment (r : SegmentRegistry) (topic : String) (offset : Int) :
    Except LogError SegmentMeta :=
  match r.registry.get? topic with
  | none => .error (.topicDoesntExists topic)
  | some segs =>
    match segs.getLast? with
    | none => .error (.emptyTopic offset)
    | some previous =>
      if previous.getEndOffset < offset then .error (.offsetBeyondEnd offset previous)
      else if offset = -1 then .ok previous
      else
        let i := findSegmentIndex segs offset
        -- the source tests `i == -1` first, so the index below is never negative
        if i = -1 then .error (.offsetNotFound offset topic)
        else
          match segs[i.toNat]? with
          | none => .error .indexError
          | some m =>
            if m.getEndOffset ≤ offset then .error (.offsetNotFound offset topic) else .ok m

def getSegmentByBaseOffset (r : SegmentRegistry) (topic : String) (baseOffset : Int) :
    Except LogError SegmentMeta :=
  match r.registry.get? topic with
  | none => .error (.topicDoesntExists topic)
  | some [] => .error (.emptyTopic baseOffset)
  | some segs =>
    let i := findSegmentIndex segs baseOffset
    if i = -1 then .error (.offsetNotFound baseOffset topic)
    else
      match segs[i.toNat]? with
      | none => .error .indexError
      | some m =>
        if m.baseOffset = baseOffset then .ok m else .error (.offsetNotFound baseOffset topic)

/-- The index is used as it comes back from the search: `-1` selects the last
segment, as indexing a list by `-1` does. -/
def advanceOffset (r : SegmentRegistry) (m : SegmentMeta) (length : Nat) :
    Except LogError (SegmentMeta × SegmentRegistry) :=
  match r.registry.get? m.topic with
  | none => .error (.keyError m.topic)
  | some segs =>
    match listIndex segs.length (findSegmentIndex segs m.baseOffset) with
    | none => .error .indexError
    | some idx =>
      match segs[idx]? with
      | none => .error .indexError
      | some old =>
        let new := { old with size := old.size + length }
        .ok (new, r.setTopic m.topic (segs.set idx new))

/-- `bisect_left` on the base offsets. -/
def bisectLeft (segs : List SegmentMeta) (baseOffset : Int) : Nat :=
  (segs.takeWhile (fun sg => decide (sg.baseOffset < baseOffset))).length

def progressState (r : SegmentRegistry) (segment : SegmentMeta) (newState : SegmentState) :
    Except LogError (SegmentMeta × SegmentRegistry) :=
  match r.registry.get? segment.topic with
  | none => .error .invalidTopic
  | some segs =>
    let idx := bisectLeft segs segment.baseOffset
    if segs[idx]? = some segment then
      if newState ∈ allowedTransitions segment.state then
        if newState = .deleted then
          .ok (segment, r.setTopic segment.topic (segs.eraseIdx idx))
        else
          let new := { segment with state := newState }
          .ok (new, r.setTopic segment.topic (segs.set idx new))
      else .error (.illegalTransition segment segment.state newState)
    else .error .segmentNotInRegistry

def removeSegment (r : SegmentRegistry) (segment : SegmentMeta) :
    Except LogError (SegmentMeta × SegmentRegistry) :=
  r.progressState segment .deleted

def getLatestOffset (r : SegmentRegistry) (topic : String) : Except LogError Int :=
  match r.registry.get? topic with
  | none => .error (.topicDoesntExists topic)
  | some segs =>
    match segs.getLast? with
    | none => .error .indexError
    | some activeSegment => .ok activeSegment.getEndOffset

end SegmentRegistry
end PyLogStream
