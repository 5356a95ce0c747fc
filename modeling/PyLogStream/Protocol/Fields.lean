import PyLogStream.Protocol.Published

/-!
How the parsers take apart what the encoders put together: the packet header and the
name in front, and fields behind blanks of which only the last may contain one.
-/

namespace PyLogStream
open Lib

/-- A correlation id that the header's pattern finds again. -/
def HeaderOk (header : Option String) : Prop :=
  ∀ id ∈ header, id ≠ "" ∧ ']' ∉ id.toList

instance (header : Option String) : Decidable (HeaderOk header) :=
  inferInstanceAs (Decidable (∀ id ∈ header, _))

/-- The text starts with a capital letter, as every name of a command or response. -/
def Capitalized (text : Text) : Prop := ∃ c rest, text = c :: rest ∧ c.isUpper = true

theorem frameBody_encodeFrame {payload frame : Bytes} (h : encodeFrame payload = .ok frame) :
    frameBody frame = payload := by
  obtain ⟨hdrop, hlen⟩ := encodeFrame_body h
  have htake : frame.take 4 = bigEndian32 payload.length := by
    rw [encodeFrame, if_pos hlen] at h
    rw [← Except.ok.inj h]
    exact List.take_left' rfl
  rw [frameBody, hdrop, htake, decodeLength, ofBigEndian_bigEndian32 hlen, List.take_length]

theorem partAt_eq_ok {α : Type} {parts : List α} {i : Nat} {part : α}
    (h : partAt parts i = .ok part) : parts[i]? = some part := by
  unfold partAt at h
  split at h
  · next heq => rw [heq, Except.ok.inj h]
  · cases h

theorem intOfText_eq_ok {text : Text} {n : Int} (h : intOfText text = .ok n) :
    readInt text = some n := by
  unfold intOfText at h
  split at h
  · next heq => rw [heq, Except.ok.inj h]
  · cases h

theorem decodeText_encodeUtf8 (text : Text) : decodeText (encodeUtf8 text) = .ok text := by
  rw [decodeText, decodeUtf8_encodeUtf8]

theorem decodeText_name (name : String) (h : (encodeUtf8 name.toList).length = 3)
    (fields : List Text) :
    decodeText ((encodeUtf8 (fieldsText name fields)).take 3) = .ok name.toList := by
  rw [fieldsText, encodeUtf8_append, ← h, List.take_left, decodeText_encodeUtf8]

theorem split_fieldsText (name : String) (hname : ' ' ∉ name.toList) {front : List Text}
    (h : ∀ f ∈ front, ' ' ∉ f) (last : Text) :
    splitMax ' ' (front.length + 1) (fieldsText name (front ++ [last])) =
      name.toList :: (front ++ [last]) :=
  splitMax_fields hname h last

theorem isSpace_of_isUpper {c : Char} (h : c.isUpper = true) : isSpace c = false := by
  have hrange : 65 ≤ c.toNat ∧ c.toNat ≤ 90 := by
    have hbounds := of_decide_eq_true h
    exact ⟨UInt32.le_iff_toNat_le.mp hbounds.1, UInt32.le_iff_toNat_le.mp hbounds.2⟩
  simp only [isSpace, Bool.or_eq_false_iff, Bool.and_eq_false_iff, decide_eq_false_iff_not,
    beq_eq_false_iff_ne]
  omega

theorem matchHeader_capitalized {text : Text} (h : Capitalized text) : matchHeader text = none := by
  obtain ⟨c, rest, rfl, hc⟩ := h
  have hne : c ≠ '[' := by
    rintro rfl
    exact absurd hc (by decide)
  simp [matchHeader, hne.symm]

theorem matchHeader_header {id text : Text} (hne : id ≠ []) (hid : ']' ∉ id) (h : Capitalized text) :
    matchHeader ("[CRR=".toList ++ id ++ "] ".toList ++ text) = some (id, text) := by
  obtain ⟨c, rest, rfl, hc⟩ := h
  have hall : ∀ d ∈ id, decide (d ≠ ']') = true := fun d hd =>
    decide_eq_true fun heq => hid (heq ▸ hd)
  have htake : (id ++ ']' :: ' ' :: c :: rest).takeWhile (fun d => decide (d ≠ ']')) = id := by
    rw [List.takeWhile_append_of_pos hall]
    simp
  have hdrop : (id ++ ']' :: ' ' :: c :: rest).dropWhile (fun d => decide (d ≠ ']')) =
      ']' :: ' ' :: c :: rest := by
    rw [List.dropWhile_append_of_pos hall]
    simp
  have htext : ("[CRR=".toList ++ id ++ "] ".toList ++ c :: rest) =
      "[CRR=".toList ++ (id ++ ']' :: ' ' :: c :: rest) := by
    simp
  have hblank : isSpace ' ' = true := by decide
  have hspace := isSpace_of_isUpper hc
  rw [htext, matchHeader, if_pos (by simp)]
  have hbehind : ("[CRR=".toList ++ (id ++ ']' :: ' ' :: c :: rest)).drop 5 =
      id ++ ']' :: ' ' :: c :: rest := rfl
  simp only [hbehind, htake, hdrop, if_neg hne]
  simp [hblank, hspace]

/-- The packet header is taken off again. -/
theorem parsePacketHeader_encode {header : Option String} (hheader : HeaderOk header)
    {text : Text} (h : Capitalized text) :
    parsePacketHeader (encodePacketHeader header ++ encodeUtf8 text) =
      .ok (header, encodeUtf8 text) := by
  cases header with
  | none =>
      simp [encodePacketHeader, parsePacketHeader, decodeText_encodeUtf8, matchHeader_capitalized h, bind,
        Except.bind, pure, Except.pure]
  | some id =>
      obtain ⟨hne, hid⟩ := hheader id rfl
      have hnil : id.toList ≠ [] := fun heq => hne (String.toList_eq_nil_iff.mp heq)
      rw [encodePacketHeader, ← encodeUtf8_append, parsePacketHeader, decodeText_encodeUtf8]
      simp only [bind, Except.bind]
      rw [matchHeader_header hnil hid h]
      simp [pure, Except.pure]

end PyLogStream
