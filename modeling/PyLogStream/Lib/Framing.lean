import PyLogStream.Lib.Bytes

/-!
A byte stream of frames, each followed by as many bytes as its body announces. What
the body announces is a parameter: the reader is in step with the writer exactly when
every body announces the bytes that were written behind it.
-/

namespace Lib

/-- That many bytes from the front of a stream; too few are an error. -/
def readExactly (n : Nat) (stream : Bytes) : Option (Bytes × Bytes) :=
  if n ≤ stream.length then some (stream.take n, stream.drop n) else none

def readFrame (stream : Bytes) : Option (Bytes × Bytes) := do
  let (front, rest) ← readExactly 4 stream
  readExactly (ofBigEndian front) rest

/-- One frame and the bytes it announces. -/
def readItem (announce : Bytes → Option Nat) (stream : Bytes) :
    Option ((Bytes × Bytes) × Bytes) := do
  let (body, rest) ← readFrame stream
  let n ← announce body
  let (payload, rest) ← readExactly n rest
  pure ((body, payload), rest)

def readMany (announce : Bytes → Option Nat) : Nat → Bytes → Option (List (Bytes × Bytes) × Bytes)
  | 0, stream => some ([], stream)
  | count + 1, stream => do
    let (item, rest) ← readItem announce stream
    let (items, rest) ← readMany announce count rest
    pure (item :: items, rest)

/-- Bodies and payloads as they are written one after another. -/
def wire (items : List (Bytes × Bytes)) : Bytes := items.flatMap fun item => frame item.1 ++ item.2

section
variable {announce : Bytes → Option Nat}

theorem readExactly_append (front rest : Bytes) :
    readExactly front.length (front ++ rest) = some (front, rest) := by
  simp [readExactly]

/-- Reading another number of bytes than were written gives other bytes. -/
theorem readExactly_eq_some {n : Nat} {front rest rest' : Bytes}
    (h : readExactly n (front ++ rest) = some (front, rest')) : n = front.length := by
  unfold readExactly at h
  split at h
  · next hle =>
      have htake : (front ++ rest).take n = front := congrArg Prod.fst (Option.some.inj h)
      rw [← List.length_take_of_le hle, htake]
  · cases h

/-- Four bytes announce how many are read. -/
theorem readFrame_announced {n : Nat} (h : n < 2 ^ 32) (rest : Bytes) :
    readFrame (bigEndian32 n ++ rest) = readExactly n rest := by
  have hfront : readExactly 4 (bigEndian32 n ++ rest) = some (bigEndian32 n, rest) :=
    readExactly_append (bigEndian32 n) rest
  simp only [readFrame, hfront, bind, Option.bind, ofBigEndian_bigEndian32 h]

theorem readFrame_frame {body : Bytes} (h : body.length < 2 ^ 32) (rest : Bytes) :
    readFrame (frame body ++ rest) = some (body, rest) := by
  rw [frame, List.append_assoc, readFrame_announced h, readExactly_append]

theorem readItem_frame {body : Bytes} (h : body.length < 2 ^ 32) (rest : Bytes) :
    readItem announce (frame body ++ rest) =
      (announce body).bind fun n => (readExactly n rest).bind fun p => some ((body, p.1), p.2) := by
  rw [readItem, readFrame_frame h]
  rfl

theorem wire_cons (body payload : Bytes) (items : List (Bytes × Bytes)) (rest : Bytes) :
    wire ((body, payload) :: items) ++ rest = frame body ++ (payload ++ (wire items ++ rest)) := by
  simp [wire]

/-- The reader gets back what was written if and only if every body announces the length
of its payload, whatever follows on the stream. -/
theorem readMany_wire_iff {items : List (Bytes × Bytes)}
    (h : ∀ item ∈ items, item.1.length < 2 ^ 32) (rest : Bytes) :
    readMany announce items.length (wire items ++ rest) = some (items, rest) ↔
      ∀ item ∈ items, announce item.1 = some item.2.length := by
  induction items with
  | nil => simp [readMany, wire]
  | cons item items ih =>
      obtain ⟨body, payload⟩ := item
      have hbody := h (body, payload) List.mem_cons_self
      have hrest := ih fun other hother => h other (List.mem_cons_of_mem _ hother)
      rw [List.forall_mem_cons, ← hrest, List.length_cons, wire_cons, readMany,
        readItem_frame hbody]
      constructor
      · intro hread
        cases hannounce : announce body with
        | none => simp [hannounce] at hread
        | some n =>
            simp only [hannounce, Option.bind_some, bind] at hread
            cases hpayload : readExactly n (payload ++ (wire items ++ rest)) with
            | none => simp [hpayload] at hread
            | some taken =>
                simp only [hpayload, Option.bind_some] at hread
                obtain ⟨others, hothers, heq⟩ := Option.bind_eq_some_iff.mp hread
                simp only [pure, Option.some.injEq, Prod.mk.injEq, List.cons.injEq] at heq
                obtain ⟨⟨⟨-, hfront⟩, hitems⟩, hend⟩ := heq
                have htaken : readExactly n (payload ++ (wire items ++ rest)) =
                    some (payload, taken.2) := by
                  rw [hpayload, ← hfront]
                have hlength := readExactly_eq_some htaken
                -- what was read is the payload, so the stream goes on behind it
                rw [hlength, readExactly_append] at hpayload
                have hsnd : taken.2 = wire items ++ rest := by
                  rw [← Option.some.inj hpayload]
                rw [hsnd] at hothers
                refine ⟨by rw [hlength], ?_⟩
                rw [hothers, ← hitems, ← hend]
      · intro hboth
        rw [hboth.1, Option.bind_some, readExactly_append]
        simp only [bind, Option.bind_some, hboth.2, pure]

end

end Lib
