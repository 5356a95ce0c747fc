import Mathlib.Data.Rat.Defs
import PyLogStream.Lib.Bytes

/-!
Segment metadata, the errors of the log layer, the rollover policy and the
names of segment files (`log/segment.py`, `log/error.py`, `log/segment_policy.py`).
Clock readings are rationals; offsets are integers because callers may pass any
integer; a segment's size only ever grows and is a natural number.
-/

namespace PyLogStream
open Lib

abbrev Time := Rat

inductive SegmentState where
  | active | sealed | expired | deleted
  deriving DecidableEq, Repr

structure SegmentMeta where
  topic : String
  baseOffset : Int
  path : String
  state : SegmentState
  createdAt : Time
  size : Nat
  deriving DecidableEq, Repr

namespace SegmentMeta

def getId (m : SegmentMeta) : String := m.topic ++ toString m.baseOffset

def getFilepath (m : SegmentMeta) : String := m.path

def isMutable (m : SegmentMeta) : Bool := m.state == .active

/-- Offset of the next message to be written in this segment. -/
def getEndOffset (m : SegmentMeta) : Int := m.baseOffset + m.size

def getFileEndOffset (m : SegmentMeta) : Nat := m.size

end SegmentMeta

/-- Everything the log layer raises, with the data its message shows. The
`ValueError`s of the registry are `segmentOverlapping` to `segmentNotInRegistry`. -/
inductive LogError where
  | topicDoesntExists (topic : String)
  | segmentOverlapping (segment previous : SegmentMeta)
  | emptyTopic (offset : Int)
  | offsetBeyondEnd (offset : Int) (previous : SegmentMeta)
  | offsetNotFound (offset : Int) (topic : String)
  | invalidTopic
  | segmentNotInRegistry
  | illegalTransition (segment : SegmentMeta) (fromState toState : SegmentState)
  | indexError
  | keyError (topic : String)
  | overflowError
  | notMutable
  | notLoaded
  | sliceMismatch
  | osError
  deriving DecidableEq, Repr

structure SegmentPolicy where
  retensionMs : Int
  rolloverMs : Int
  maxSegmentSize : Int
  deriving DecidableEq, Repr

namespace SegmentPolicy

/-- `now` is the reading of `time.time()` taken by the call. -/
def shouldRollover (p : SegmentPolicy) (m : SegmentMeta) (msgSize : Nat) (now : Time) : Bool :=
  if now - m.createdAt > p.rolloverMs then true
  else decide ((m.size : Int) + msgSize > p.maxSegmentSize)

end SegmentPolicy

/-- The format `020d`: at least twenty characters, the sign included. -/
def pad20 (n : Int) : String :=
  if n < 0 then "-" ++ String.ofList ((Nat.toDigits 10 n.natAbs).leftpad 19 '0')
  else String.ofList ((Nat.toDigits 10 n.natAbs).leftpad 20 '0')

def segmentPath (logDir topic : String) (baseOffset : Int) : String :=
  logDir ++ "/" ++ topic ++ "/" ++ (pad20 baseOffset ++ ".log")

/-- One component of a path, applied to the directory reached so far. -/
def enterDirectory (absolute : Bool) (dirs : List String) (name : String) : List String :=
  if name = "" ∨ name = "." then dirs
  else if name = ".." then
    match dirs.getLast? with
    | none => if absolute then dirs else [".."]
    | some d => if d = ".." then dirs ++ [".."] else dirs.dropLast
  else dirs ++ [name]

/-- The file a path names: different spellings of a path name the same file.
Symbolic links are not modelled. -/
abbrev FileName := Bool × List String

def resolve (path : String) : FileName :=
  let chars := path.toList
  let absolute := chars.head? == some '/'
  (absolute,
    ((chars.splitOn '/').map String.ofList).foldl (enterDirectory absolute) [])

end PyLogStream
