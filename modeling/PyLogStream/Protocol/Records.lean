import PyLogStream.Lib.Bytes

/-!
Decoding a batch of log bytes into records (`parse_records` of the protocol's
`parser.py`). The parser trusts the length prefixes and clips the last record at
the end of the payload.
-/

namespace PyLogStream
open Lib

/-- The loop of `parse_records`. Each iteration moves `i` by at least four, so the
length of the payload is enough fuel. -/
def parseRecordsLoop (payload : Bytes) : Nat → Nat → List Bytes
  | 0, _ => []
  | fuel + 1, i =>
    if i < payload.length then
      let length := ofBigEndian (slice payload i ((i : Int) + 4))
      slice payload (i + 4 : Nat) (((i + 4 : Nat) : Int) + length) ::
        parseRecordsLoop payload fuel (i + 4 + length)
    else []

def parseRecords (payload : Bytes) : List Bytes := parseRecordsLoop payload payload.length 0

theorem parseRecordsLoop_frames (ps : List Bytes) (short : ∀ p ∈ ps, p.length < 2 ^ 32)
    (before : Bytes) (fuel : Nat) (hfuel : (frames ps).length ≤ fuel) :
    parseRecordsLoop (before ++ frames ps) fuel before.length = ps := by
  induction ps generalizing before fuel with
  | nil => cases fuel <;> simp [parseRecordsLoop]
  | cons p ps ih =>
      cases fuel with
      | zero => simp at hfuel
      | succ fuel =>
          have hprefix : slice (before ++ frames (p :: ps)) (before.length : Int)
              ((before.length : Int) + (4 : Nat)) = bigEndian32 p.length := by
            rw [slice_of_nat, List.drop_left, frames_cons, frame_take_four]
          have hlen : ofBigEndian (bigEndian32 p.length) = p.length :=
            ofBigEndian_bigEndian32 (short p List.mem_cons_self)
          have hbody : slice (before ++ frames (p :: ps)) ((before.length + 4 : Nat) : Int)
              (((before.length + 4 : Nat) : Int) + p.length) = p := by
            rw [slice_of_nat, ← List.drop_drop, List.drop_left, frames_cons, frame_drop_four,
              List.take_left]
          have hmore : before.length < (before ++ frames (p :: ps)).length := by
            simp
          have hrest := ih (fun q hq => short q (List.mem_cons_of_mem _ hq)) (before ++ frame p)
            fuel (by simp at hfuel; omega)
          have hend : (before ++ frame p).length = before.length + 4 + p.length := by
            simp
            omega
          rw [hend, List.append_assoc, ← frames_cons] at hrest
          have hprefix' : slice (before ++ frames (p :: ps)) (before.length : Int)
              ((before.length : Int) + 4) = bigEndian32 p.length := hprefix
          rw [parseRecordsLoop, if_pos hmore]
          simp only [hprefix', hlen, hbody, hrest]

/-- Framed payloads are decoded to themselves. -/
theorem parseRecords_frames {ps : List Bytes} (short : ∀ p ∈ ps, p.length < 2 ^ 32) :
    parseRecords (frames ps) = ps :=
  parseRecordsLoop_frames ps short [] _ (le_refl _)

end PyLogStream
