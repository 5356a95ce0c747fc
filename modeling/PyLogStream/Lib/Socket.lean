import PyLogStream.Lib.Framing

/-!
The receiving end of a stream socket. The bytes arrive in pieces that have nothing to do
with what was sent, and a call of `recv` returns some of one piece.
-/

namespace Lib

/-- What is still to be received. Behind the last piece the peer has closed the stream. -/
structure Socket where
  pieces : List Bytes
  arrived : ∀ piece ∈ pieces, piece ≠ []

namespace Socket

def bytes (s : Socket) : Bytes := s.pieces.flatten

/-- Up to `size` bytes; none at the end of the stream. -/
def recv (s : Socket) (size : Nat) : Bytes × Socket :=
  match s with
  | ⟨[], arrived⟩ => ([], ⟨[], arrived⟩)
  | ⟨piece :: pieces, arrived⟩ =>
    have rest : ∀ p ∈ pieces, p ≠ [] := fun p hp => arrived p (List.mem_cons_of_mem _ hp)
    if h : piece.length ≤ size then (piece, ⟨pieces, rest⟩)
    else (piece.take size, ⟨piece.drop size :: pieces, List.forall_mem_cons.mpr
      ⟨fun hnil => h (List.drop_eq_nil_iff.mp hnil), rest⟩⟩)

variable {s : Socket} {size : Nat}

theorem recv_append (s : Socket) (size : Nat) :
    (s.recv size).1 ++ (s.recv size).2.bytes = s.bytes := by
  obtain ⟨pieces, arrived⟩ := s
  cases pieces with
  | nil => rfl
  | cons piece pieces =>
      simp only [recv]
      split
      · rfl
      · simp only [bytes, List.flatten_cons, ← List.append_assoc, List.take_append_drop]

theorem recv_length_le (s : Socket) (size : Nat) : (s.recv size).1.length ≤ size := by
  obtain ⟨pieces, arrived⟩ := s
  cases pieces with
  | nil => exact Nat.zero_le _
  | cons piece pieces =>
      simp only [recv]
      split
      · next h => exact h
      · exact List.length_take_le _ _

/-- A call that asks for a byte returns one, up to the end of the stream. -/
theorem bytes_of_recv_nil (h : (s.recv size).1 = []) (hsize : 0 < size) : s.bytes = [] := by
  obtain ⟨pieces, arrived⟩ := s
  cases pieces with
  | nil => rfl
  | cons piece pieces =>
      have hpiece := arrived piece List.mem_cons_self
      simp only [recv] at h
      split at h
      · exact absurd h hpiece
      · rcases List.take_eq_nil_iff.mp h with hzero | hnil
        · omega
        · exact absurd hnil hpiece

end Socket
end Lib
