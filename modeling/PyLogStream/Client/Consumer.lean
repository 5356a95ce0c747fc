import PyLogStream.Lib.Socket
import PyLogStream.Protocol.Stream

/-!
The reading side of the client (`client.py`). `recvall` gathers the bytes that it is asked
for, so what `consume` returns does not depend on the pieces in which they arrive. It
knows no payloads behind a frame, nor parts of files: it stays in step with a broker as long
as the responses have none. `register` takes what a single `recv` returns.
-/

namespace PyLogStream
open Lib
namespace Client

/-- The loop of `recvall`. A packet has at least one byte, so `size` is enough fuel. -/
def recvallLoop (size : Nat) : Nat → Bytes → Socket → Option Bytes × Socket
  | 0, data, conn => (some data, conn)
  | fuel + 1, data, conn =>
    if data.length < size then
      match conn.recv (size - data.length) with
      | ([], conn) => (none, conn)
      | (packet, conn) => recvallLoop size fuel (data ++ packet) conn
    else (some data, conn)

def recvall (conn : Socket) (size : Nat) : Option Bytes × Socket := recvallLoop size size [] conn

/-- `None` for a closed connection and for an empty message. -/
def consume (conn : Socket) : Except ParseError (Option Text) × Socket :=
  match recvall conn 4 with
  | (none, conn) => (.ok none, conn)
  | (some lenBytes, conn) =>
    if lenBytes = [] then (.ok none, conn)
    else
      match recvall conn (ofBigEndian lenBytes) with
      | (none, conn) => (.ok none, conn)
      | (some msgBytes, conn) =>
        if msgBytes = [] then (.ok none, conn) else ((decodeText msgBytes).map some, conn)

/-- Several calls, and what is left. -/
def receive : Nat → Socket → List (Except ParseError (Option Text)) × Socket
  | 0, conn => ([], conn)
  | count + 1, conn =>
    let (message, conn) := consume conn
    let (messages, conn) := receive count conn
    (message :: messages, conn)

/-- What `register` makes of the answer: the text behind the length. -/
def registerId (conn : Socket) : Except ParseError Text × Socket :=
  let (lenBytes, conn) := conn.recv 4
  let (idBytes, conn) := conn.recv (ofBigEndian lenBytes)
  (decodeText idBytes, conn)

/-- The message in a frame. -/
def message (body : Bytes) : Except ParseError (Option Text) :=
  if body = [] then .ok none else (decodeText body).map some

section
variable {conn : Socket}

theorem recvallLoop_spec (size fuel : Nat) (data : Bytes) (conn : Socket)
    (hfuel : size ≤ data.length + fuel) :
    match readExactly (size - data.length) conn.bytes with
    | some (more, rest) => (recvallLoop size fuel data conn).1 = some (data ++ more) ∧
        (recvallLoop size fuel data conn).2.bytes = rest
    | none => (recvallLoop size fuel data conn).1 = none ∧
        (recvallLoop size fuel data conn).2.bytes = [] := by
  induction fuel generalizing data conn with
  | zero =>
      have hzero : size - data.length = 0 := by omega
      rw [hzero, readExactly, if_pos (Nat.zero_le _)]
      exact ⟨by simp [recvallLoop], rfl⟩
  | succ fuel ih =>
      by_cases hlt : data.length < size
      · have happend := conn.recv_append (size - data.length)
        have hle := conn.recv_length_le (size - data.length)
        have hnil := @Socket.bytes_of_recv_nil conn (size - data.length)
        simp only [recvallLoop, if_pos hlt]
        generalize conn.recv (size - data.length) = received at happend hle hnil
        obtain ⟨packet, rest⟩ := received
        cases packet with
        | nil =>
            have hend : conn.bytes = [] := hnil rfl (by omega)
            have hrest : rest.bytes = [] := by simpa [hend] using happend
            rw [hend, readExactly, if_neg (by simp; omega)]
            exact ⟨rfl, hrest⟩
        | cons b packet =>
            have h := ih (data ++ b :: packet) rest (by simp; omega)
            simp only at happend hle
            have hsize : size - (data ++ b :: packet).length =
                size - data.length - (b :: packet).length := by
              rw [List.length_append]
              omega
            rw [hsize] at h
            rw [← happend]
            simp only [readExactly, List.length_append] at h ⊢
            by_cases hroom : size - data.length ≤ (b :: packet).length + rest.bytes.length
            · rw [if_pos (by omega)] at h
              rw [if_pos hroom]
              refine ⟨?_, ?_⟩
              · rw [h.1, List.append_assoc, List.take_append, List.take_of_length_le hle]
              · rw [h.2, List.drop_append, List.drop_eq_nil_of_le hle, List.nil_append]
            · rw [if_neg (by omega)] at h
              rw [if_neg hroom]
              exact h
      · have hzero : size - data.length = 0 := by omega
        rw [hzero, readExactly, if_pos (Nat.zero_le _)]
        simp only [recvallLoop, if_neg hlt]
        exact ⟨by simp, rfl⟩

/-- `recvall` returns all the bytes it was asked for, whichever pieces they come in. -/
theorem recvall_spec (conn : Socket) (size : Nat) :
    match readExactly size conn.bytes with
    | some (data, rest) => (recvall conn size).1 = some data ∧ (recvall conn size).2.bytes = rest
    | none => (recvall conn size).1 = none ∧ (recvall conn size).2.bytes = [] :=
  recvallLoop_spec size size [] conn (by simp)

/-- Whatever the pieces, a call consumes one frame or, at the end, what there is of one. -/
theorem consume_spec (conn : Socket) :
    match readFrame conn.bytes with
    | some (body, rest) => (consume conn).1 = message body ∧ (consume conn).2.bytes = rest
    | none => (consume conn).1 = .ok none ∧ (consume conn).2.bytes = [] := by
  have hfront := recvall_spec conn 4
  simp only [readFrame, consume]
  generalize recvall conn 4 = front at hfront
  obtain ⟨lenBytes, conn₁⟩ := front
  cases hread : readExactly 4 conn.bytes with
  | none =>
      rw [hread] at hfront
      obtain ⟨rfl, hend⟩ := hfront
      exact ⟨rfl, hend⟩
  | some pair =>
      obtain ⟨taken, rest⟩ := pair
      rw [hread] at hfront
      obtain ⟨rfl, rfl⟩ := hfront
      have hne : taken ≠ [] := by
        rintro rfl
        simp only [readExactly] at hread
        split at hread
        · next hle =>
            have htake : conn.bytes.take 4 = [] := congrArg Prod.fst (Option.some.inj hread)
            have hlen := congrArg List.length htake
            rw [List.length_take, List.length_nil] at hlen
            omega
        · cases hread
      have hbody := recvall_spec conn₁ (ofBigEndian taken)
      simp only [bind, Option.bind_some, if_neg hne]
      generalize recvall conn₁ (ofBigEndian taken) = front at hbody
      obtain ⟨msgBytes, conn₂⟩ := front
      cases hread : readExactly (ofBigEndian taken) conn₁.bytes with
      | none =>
          rw [hread] at hbody
          obtain ⟨rfl, hend⟩ := hbody
          exact ⟨rfl, hend⟩
      | some pair =>
          obtain ⟨body, rest⟩ := pair
          rw [hread] at hbody
          obtain ⟨rfl, rfl⟩ := hbody
          simp only [message]
          split
          · exact ⟨rfl, rfl⟩
          · exact ⟨rfl, rfl⟩

/-- A reader that takes no byte behind a frame gets the same messages. -/
theorem receive_of_readMany {count : Nat} {items : List (Bytes × Bytes)} {rest : Bytes}
    (h : readMany (fun _ => some 0) count conn.bytes = some (items, rest)) :
    (receive count conn).1 = items.map (fun item => message item.1) ∧
      (receive count conn).2.bytes = rest := by
  induction count generalizing conn items with
  | zero =>
      obtain ⟨rfl, rfl⟩ := Prod.mk.inj (Option.some.inj h)
      exact ⟨rfl, rfl⟩
  | succ count ih =>
      have hconsume := consume_spec conn
      simp only [readMany, readItem, bind] at h
      cases hframe : readFrame conn.bytes with
      | none => simp [hframe] at h
      | some pair =>
          obtain ⟨body, behind⟩ := pair
          rw [hframe] at hconsume
          obtain ⟨hmessage, rfl⟩ := hconsume
          have hzero : ∀ stream : Bytes, readExactly 0 stream = some ([], stream) := fun _ => rfl
          simp only [hframe, Option.bind_some, hzero, pure] at h
          obtain ⟨pair, hmore, heq⟩ := Option.bind_eq_some_iff.mp h
          obtain ⟨rfl, rfl⟩ := Prod.mk.inj (Option.some.inj heq)
          obtain ⟨hmessages, hrest⟩ := ih hmore
          exact ⟨by simp [receive, hmessage, hmessages], hrest⟩

theorem readFrame_length {stream body rest : Bytes} (h : readFrame stream = some (body, rest)) :
    stream.length = (frame body).length + rest.length := by
  have exactly : ∀ {n : Nat} {stream front rest : Bytes},
      readExactly n stream = some (front, rest) → front.length = n ∧
        stream.length = n + rest.length := by
    intro n stream front rest h
    unfold readExactly at h
    split at h
    · next hle =>
        obtain ⟨rfl, rfl⟩ := Prod.mk.inj (Option.some.inj h)
        rw [List.length_take, List.length_drop]
        omega
    · cases h
  obtain ⟨pair, hfront, hbody⟩ := Option.bind_eq_some_iff.mp h
  have hfront : pair.1.length = _ ∧ _ = _ + pair.2.length := exactly hfront
  have hbody := exactly hbody
  rw [frame_length]
  omega

/-- As long as there are messages, the bytes read are those of their frames. -/
theorem receive_length (count : Nat) (conn : Socket)
    (h : ∀ message ∈ (receive count conn).1, message ≠ .ok none) :
    ∃ bodies, (receive count conn).1 = bodies.map message ∧
      conn.bytes.length = (frames bodies).length + (receive count conn).2.bytes.length := by
  induction count generalizing conn with
  | zero => exact ⟨[], rfl, by simp [receive]⟩
  | succ count ih =>
      have hconsume := consume_spec conn
      simp only [receive, List.forall_mem_cons] at h ⊢
      cases hframe : readFrame conn.bytes with
      | none =>
          rw [hframe] at hconsume
          exact absurd hconsume.1 h.1
      | some pair =>
          obtain ⟨body, rest⟩ := pair
          rw [hframe] at hconsume
          obtain ⟨hmessage, hrest⟩ := hconsume
          obtain ⟨bodies, hbodies, hlength⟩ := ih (consume conn).2 h.2
          refine ⟨body :: bodies, by rw [hmessage, hbodies, List.map_cons], ?_⟩
          have hfront := readFrame_length hframe
          rw [frames_cons, List.length_append, hfront, ← hrest]
          omega

theorem message_eq_iff {body : Bytes} {text : Text} :
    message body = .ok (some text) ↔ body ≠ [] ∧ body = encodeUtf8 text := by
  unfold message
  split
  · next hnil => simp [hnil]
  · next hne =>
      rw [decodeText]
      cases hdecode : decodeUtf8 body with
      | none =>
          refine iff_of_false (by simp [Except.map]) fun h => ?_
          rw [h.2, decodeUtf8_encodeUtf8] at hdecode
          cases hdecode
      | some text' =>
          have hbody := decodeUtf8_eq_some_iff.mp hdecode
          constructor
          · intro h
            obtain rfl : text' = text := Option.some.inj (Except.ok.inj h)
            exact ⟨hne, hbody⟩
          · rintro ⟨-, heq⟩
            rw [heq, decodeUtf8_encodeUtf8] at hdecode
            rw [Option.some.inj hdecode]
            rfl

end

/-- The text of a response is a message. -/
theorem message_body (sent : Sent) : ∃ text, message sent.body = .ok (some text) := by
  obtain ⟨text, hbody, htext⟩ := sent.text
  obtain ⟨header, hheader⟩ := encodePacketHeader_text sent.packet.header
  obtain ⟨a, b, heq, -⟩ := (Response.body_name hbody).1
  refine ⟨header ++ text, message_eq_iff.mpr ⟨?_, ?_⟩⟩
  · rw [htext, hheader, ← encodeUtf8_append]
    exact encodeUtf8_ne_nil (by simp [heq])
  · rw [htext, hheader, encodeUtf8_append]

/-- The frames are all that was written just when no response has a payload. -/
theorem frames_length_eq_iff (sents : List Sent) :
    (frames (sents.map Sent.body)).length = (written sents).length ↔
      ∀ sent ∈ sents, sent.payload = [] := by
  have hle : ∀ sents : List Sent,
      (frames (sents.map Sent.body)).length ≤ (written sents).length := by
    intro sents
    induction sents with
    | nil => exact le_refl _
    | cons sent sents ih =>
        simp only [written, List.map_cons, frames_cons, List.flatMap_cons, List.length_append,
          sent.header_eq.1] at ih ⊢
        omega
  induction sents with
  | nil => simp [written]
  | cons sent sents ih =>
      have htail := hle sents
      rw [List.forall_mem_cons, ← List.length_eq_zero_iff]
      simp only [written, List.map_cons, frames_cons, List.flatMap_cons, List.length_append,
        sent.header_eq.1] at htail ih ⊢
      constructor
      · intro h
        exact ⟨by omega, ih.mp (by omega)⟩
      · rintro ⟨hnil, hrest⟩
        have := ih.mpr hrest
        omega

/-- Messages that are those of responses are in frames with their texts. -/
theorem bodies_of_messages {bodies : List Bytes} {sents : List Sent}
    (h : bodies.map message = sents.map fun sent => message sent.body) :
    bodies = sents.map Sent.body := by
  induction sents generalizing bodies with
  | nil => exact List.map_eq_nil_iff.mp h
  | cons sent sents ih =>
      obtain ⟨body, bodies, rfl, hbody, hbodies⟩ := List.map_eq_cons_iff.mp h
      obtain ⟨text, htext⟩ := message_body sent
      have heq : body = sent.body := by
        rw [(message_eq_iff.mp (hbody.trans htext)).2, (message_eq_iff.mp htext).2]
      rw [heq, ih hbodies, List.map_cons]

/-- However the stream is cut into pieces: the client gets the texts of the responses in
order, and no byte beyond them, if and only if no response has bytes behind its frame. -/
theorem consume_reads_responses_iff {sents : List Sent} {rest : Bytes} {conn : Socket}
    (h : conn.bytes = written sents ++ rest) :
    ((receive sents.length conn).1 = sents.map (fun sent => (decodeText sent.body).map some) ∧
      (receive sents.length conn).2.bytes = rest) ↔ ∀ sent ∈ sents, sent.payload = [] := by
  have hmessage : (sents.map fun sent => (decodeText sent.body).map some) =
      sents.map fun sent => message sent.body := by
    refine List.map_congr_left fun sent _ => ?_
    obtain ⟨text, htext⟩ := message_body sent
    rw [message, if_neg (message_eq_iff.mp htext).1]
  rw [hmessage]
  constructor
  · rintro ⟨hmessages, hrest⟩
    obtain ⟨bodies, hbodies, hlength⟩ := receive_length sents.length conn (by
      rw [hmessages, List.forall_mem_map]
      intro sent _ hnone
      obtain ⟨text, htext⟩ := message_body sent
      rw [htext] at hnone
      cases hnone)
    have heq : bodies = sents.map Sent.body := bodies_of_messages (hbodies.symm.trans hmessages)
    rw [h, hrest, List.length_append, heq] at hlength
    exact (frames_length_eq_iff sents).mp (by omega)
  · intro hpayload
    have hread : Recovers (fun _ => some 0) sents rest :=
      (recovers_iff rest).mpr fun sent hsent => by rw [hpayload sent hsent, List.length_nil]
    rw [Recovers, ← h] at hread
    obtain ⟨hmessages, hrest⟩ := receive_of_readMany hread
    exact ⟨by rw [hmessages, List.map_map]; rfl, hrest⟩

/-- An id and a ping, behind each other. -/
def idAndPing : List Sent :=
  [⟨⟨none, .clientId "7f"⟩, ⟨Lib.frame (encodeUtf8 "CID 7f".toList), none, none, none, none⟩,
      [], by decide +kernel, .inl rfl⟩,
    ⟨⟨none, .ping⟩, ⟨Lib.frame (encodeUtf8 "PNG".toList), none, none, none, none⟩,
      [], by decide +kernel, .inl rfl⟩]

/-- They arrive cut inside the first length, the first text and the second length. -/
def cutSocket : Socket :=
  ⟨[[0, 0], [0, 6, 67], [73, 68, 32, 55, 102, 0], [0, 0, 3], [80, 78, 71]], by decide⟩

theorem consume_reads_responses_iff_cut :
    (receive 2 cutSocket).1 = [.ok (some "CID 7f".toList), .ok (some "PNG".toList)] := by
  have hbytes : cutSocket.bytes = written idAndPing ++ [] := by decide +kernel
  have hpayload : ∀ sent ∈ idAndPing, sent.payload = [] := by
    simp only [idAndPing, List.forall_mem_cons]
    exact ⟨rfl, rfl, by simp⟩
  exact ((consume_reads_responses_iff hbytes).mpr hpayload).1.trans (by decide +kernel)

/-- `register` finds the whole text exactly if the first call of `recv` has returned all four
bytes of the length and the second one the whole text. -/
theorem registerId_iff {conn : Socket} {text : Text} {rest : Bytes} (hne : text ≠ [])
    (hlen : (encodeUtf8 text).length < 2 ^ 32)
    (h : conn.bytes = frame (encodeUtf8 text) ++ rest) :
    (registerId conn).1 = .ok text ↔ (conn.recv 4).1.length = 4 ∧
      ((conn.recv 4).2.recv (encodeUtf8 text).length).1.length = (encodeUtf8 text).length := by
  have hpos : 0 < (encodeUtf8 text).length := List.length_pos_iff.mpr (encodeUtf8_ne_nil hne)
  have hfirst := conn.recv_append 4
  have hle := conn.recv_length_le 4
  simp only [registerId]
  generalize conn.recv 4 = received at hfirst hle
  obtain ⟨lenBytes, behind⟩ := received
  simp only at hfirst hle ⊢
  rw [h, frame, List.append_assoc] at hfirst
  -- what the first call returns is the front of the length
  obtain ⟨missing, hmissing⟩ : lenBytes <+: bigEndian32 (encodeUtf8 text).length :=
    List.prefix_of_prefix_length_le ⟨_, hfirst⟩ (List.prefix_append _ _)
      (by rw [bigEndian32_length]; exact hle)
  have hsecond := behind.recv_append (ofBigEndian lenBytes)
  have hsize := behind.recv_length_le (ofBigEndian lenBytes)
  constructor
  · intro htext
    have hid : (behind.recv (ofBigEndian lenBytes)).1 = encodeUtf8 text := by
      refine decodeUtf8_eq_some_iff.mp ?_
      rw [decodeText] at htext
      split at htext
      · next heq => rw [heq, Except.ok.inj htext]
      · cases htext
    have hfull : lenBytes.length = 4 := by
      by_contra hshort
      have hvalue := congrArg ofBigEndian hmissing
      rw [ofBigEndian_append, ofBigEndian_bigEndian32 hlen] at hvalue
      have hlength := congrArg List.length hmissing
      rw [List.length_append, bigEndian32_length] at hlength
      have hpow : 256 ^ 1 ≤ 256 ^ missing.length := Nat.pow_le_pow_right (by decide) (by omega)
      have hmul := Nat.mul_le_mul_left (ofBigEndian lenBytes) hpow
      rw [hid] at hsize
      omega
    have hall : lenBytes = bigEndian32 (encodeUtf8 text).length := by
      refine (List.IsPrefix.eq_of_length ⟨missing, hmissing⟩ ?_)
      rw [hfull, bigEndian32_length]
    rw [hall, ofBigEndian_bigEndian32 hlen] at hid
    exact ⟨hfull, congrArg List.length hid⟩
  · rintro ⟨hfull, hwhole⟩
    have hall : lenBytes = bigEndian32 (encodeUtf8 text).length := by
      refine (List.IsPrefix.eq_of_length ⟨missing, hmissing⟩ ?_)
      rw [hfull, bigEndian32_length]
    rw [hall, ofBigEndian_bigEndian32 hlen] at hsecond
    rw [hall] at hfirst
    rw [hall, ofBigEndian_bigEndian32 hlen]
    have hbehind : behind.bytes = encodeUtf8 text ++ rest := List.append_cancel_left hfirst
    rw [hbehind] at hsecond
    rw [(List.append_inj hsecond hwhole).1, decodeText_encodeUtf8]

theorem registerId_iff_split :
    (registerId cutSocket).1 ≠ .ok "CID 7f".toList := by
  have hbytes : cutSocket.bytes =
      frame (encodeUtf8 "CID 7f".toList) ++ [0, 0, 0, 3, 80, 78, 71] := by decide +kernel
  rw [Ne, registerId_iff (by decide) (by decide) hbytes]
  decide +kernel

end Client
end PyLogStream
