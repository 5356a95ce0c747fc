import PyLogStream.Lib.Raises
import PyLogStream.Protocol.Fields

/-!
What the parsers raise. Bytes that are no text, unknown names, numerals that are none
and wrong checksums are value errors; a field that is missing is an index error. A
parser takes its fields in an order of its own, and a field that is malformed ends it
before it comes to the next one.
-/

namespace PyLogStream
open Lib

/-- The exceptions that are `ValueError`s. -/
def ParseError.IsValueError : ParseError → Prop
  | .unicodeDecodeError | .valueError _ | .invalidLiteral _ | .tooManyDigits _
  | .unknownCommand _ | .checksumFailed _ _ => True
  | .indexError | .runtimeError _ => False

instance : DecidablePred ParseError.IsValueError := fun err =>
  match err with
  | .unicodeDecodeError | .valueError _ | .invalidLiteral _ | .tooManyDigits _
  | .unknownCommand _ | .checksumFailed _ _ => .isTrue trivial
  | .indexError | .runtimeError _ => .isFalse id

/-- What a parser does with a field as it takes it. -/
inductive FieldKind where
  | text
  | number
  | acks
  /-- A checksum, a blank and a payload, of which the checksum is read first. -/
  | checksummed

namespace FieldKind

/-- The field holds the parts that are taken out of it. -/
def Whole : FieldKind → Text → Prop
  | .checksummed, field =>
    ∀ hash, (splitMax ' ' 1 field)[0]? = some hash → (∃ n, readInt hash = some n) →
      ∃ payload, (splitMax ' ' 1 field)[1]? = some payload
  | _, _ => True

/-- The parser goes on behind the field. -/
def Fits : FieldKind → Text → Prop
  | .number, field => ∃ n, readInt field = some n
  | .acks, field => field = "-1".toList ∨ field = "0".toList ∨ field = "1".toList
  | _, _ => True

end FieldKind

/-- The fields a parser takes, by their places and in its order. -/
abbrev Reads := List (Nat × FieldKind)

/-- Every field that the parser comes to is there. -/
def Present (parts : List Text) : Reads → Prop
  | [] => True
  | (i, kind) :: rest =>
    ∃ part, parts[i]? = some part ∧ kind.Whole part ∧ (kind.Fits part → Present parts rest)

/-- Every field is there and none is malformed. -/
def Complete (parts : List Text) : Reads → Prop
  | [] => True
  | (i, kind) :: rest => ∃ part, parts[i]? = some part ∧ kind.Fits part ∧ Complete parts rest

/-- How often a text is cut at its blanks, and the fields taken then. What is converted
after the last field has been taken is not listed. -/
structure Format where
  cuts : Nat
  reads : Reads

/-- The formats of `_parse_command`. -/
def commandFormat (checksumEnable : Bool) (name : Text) : Format :=
  if name = "CID".toList ∨ name = "FCH".toList ∨ name = "RGT".toList ∨ name = "MTR".toList ∨
      name = "CPG".toList then ⟨1, [(1, .text)]⟩
  else if name = "CMT".toList then ⟨3, [(2, .acks), (1, .text), (3, .number)]⟩
  else if name = "PUB".toList then
    ⟨3, [(1, .text), (2, .acks), (3, if checksumEnable then .checksummed else .text)]⟩
  else if name = "PUL".toList then ⟨3, [(1, .text), (2, .text), (3, .text)]⟩
  else if name = "RFH".toList then ⟨4, [(1, .text), (2, .text), (3, .text), (4, .text)]⟩
  else if name = "BRK".toList then ⟨3, [(1, .text), (2, .text), (3, .number)]⟩
  else if name = "ISR".toList then ⟨2, [(1, .text), (2, .text)]⟩
  else ⟨0, []⟩

/-- The formats of `_parse_response`. -/
def responseFormat (name : Text) : Format :=
  if name = "CID".toList then ⟨1, [(1, .text)]⟩
  else if name = "ACK".toList ∨ name = "OAK".toList then
    ⟨3, [(2, .acks), (1, .text), (3, .number)]⟩
  else if name = "FCR".toList ∨ name = "MSG".toList then ⟨2, [(1, .text), (2, .number)]⟩
  else if name = "ERR".toList then ⟨2, [(1, .number)]⟩
  else if name = "RPL".toList then ⟨4, [(1, .text), (2, .number), (3, .number), (4, .number)]⟩
  else if name = "TMD".toList then
    ⟨6, [(1, .text), (2, .text), (3, .text), (4, .number), (5, .text), (6, .number)]⟩
  else if name = "TML".toList then ⟨1, [(1, .number)]⟩
  else if name = "NLC".toList then ⟨3, [(1, .text), (2, .text), (3, .number)]⟩
  else ⟨0, []⟩

/-- The fields of one line of a list of metadata. -/
def metaLineReads : Reads :=
  [(0, .text), (1, .text), (2, .text), (3, .number), (4, .text), (5, .number)]

/-- The fields of the format, in the text. -/
def Format.Holds (format : Format) (text : Text) : Prop :=
  Present (splitMax ' ' format.cuts text) format.reads

/-- The fields that `parse_command` comes to are there. The name is cut out of the bytes. -/
def CommandWhole (data : Bytes) (checksumEnable : Bool) : Prop :=
  ∀ header rest, parsePacketHeader data = .ok (header, rest) →
    ∀ name, decodeText (rest.take 3) = .ok name →
      ∀ text, decodeText rest = .ok text → (commandFormat checksumEnable name).Holds text

/-- The fields that `parse_response` comes to are there. The name is cut out of the text. -/
def ResponseWhole (data : Bytes) : Prop :=
  ∀ header rest, parsePacketHeader data = .ok (header, rest) →
    ∀ text, decodeText rest = .ok text → (responseFormat (text.take 3)).Holds text

/-- The fields of the lines are there, up to the first line with a malformed field. -/
def LinesWhole : List Text → Prop
  | [] => True
  | line :: rest =>
    Present (line.splitOn ' ') metaLineReads ∧
      (Complete (line.splitOn ' ') metaLineReads → LinesWhole rest)

/-- The fields that `parse_metadata_list_payload` comes to are there. -/
def MetadataWhole (payload : Bytes) : Prop :=
  ∀ text, decodeText payload = .ok text →
    LinesWhole ((text.splitOn '\n').filter fun line => !line.all isSpace)

section
variable {α : Type}

theorem decodeText_raises (data : Bytes) : RaisesOnly ParseError.IsValueError (decodeText data) := by
  unfold decodeText
  split <;> simp [ParseError.IsValueError]

theorem intError_isValueError (space : Char → Bool) (text literal : Text) :
    (intError space text literal).IsValueError := by
  unfold intError
  split <;> trivial

theorem intOfText_raises (text : Text) : RaisesOnly ParseError.IsValueError (intOfText text) := by
  unfold intOfText
  split <;> simp [intError_isValueError]

theorem checkAcks_raises (acks : Text) : RaisesOnly ParseError.IsValueError (checkAcks acks) := by
  unfold checkAcks
  split
  · exact intOfText_raises acks
  · simp [ParseError.IsValueError]

theorem checkResponseAcks_raises (message : String) (acks : Text) :
    RaisesOnly ParseError.IsValueError (checkResponseAcks message acks) := by
  unfold checkResponseAcks
  split
  · exact intOfText_raises acks
  · simp [ParseError.IsValueError]

theorem parsePacketHeader_raises (data : Bytes) :
    RaisesOnly ParseError.IsValueError (parsePacketHeader data) := by
  refine (decodeText_raises data).bind_iff.mpr fun text _ => ?_
  split <;> simp

theorem partAt_eq_ok_iff {parts : List Text} {i : Nat} {part : Text} :
    partAt parts i = .ok part ↔ parts[i]? = some part := by
  unfold partAt
  split
  · next heq => simp [heq]
  · next heq => simp [heq]

theorem intOfText_eq_ok_iff {text : Text} {n : Int} :
    intOfText text = .ok n ↔ readInt text = some n := by
  unfold intOfText
  split
  · next heq => simp [heq]
  · next heq => simp [heq]

theorem raisesOnly_partAt_bind {parts : List Text} {i : Nat} {f : Text → Except ParseError α} :
    RaisesOnly ParseError.IsValueError (partAt parts i >>= f) ↔
      ∃ part, parts[i]? = some part ∧ RaisesOnly ParseError.IsValueError (f part) := by
  cases h : parts[i]? with
  | none =>
      have hpart : partAt parts i = .error .indexError := by rw [partAt, h]
      rw [hpart]
      change RaisesOnly ParseError.IsValueError (.error .indexError) ↔ _
      simp [ParseError.IsValueError]
  | some part =>
      have hpart : partAt parts i = .ok part := by rw [partAt, h]
      rw [hpart]
      change RaisesOnly ParseError.IsValueError (f part) ↔ _
      simp

theorem raisesOnly_decodeText_bind {data : Bytes} {f : Text → Except ParseError α} :
    RaisesOnly ParseError.IsValueError (decodeText data >>= f) ↔
      ∀ text, decodeText data = .ok text → RaisesOnly ParseError.IsValueError (f text) :=
  (decodeText_raises data).bind_iff

end

theorem intOfText_fits (text : Text) :
    (∃ n, intOfText text = .ok n) ↔ FieldKind.number.Fits text :=
  exists_congr fun _ => intOfText_eq_ok_iff

/-- The three admitted texts are numerals. -/
theorem intOfText_acks {acks : Text} (h : FieldKind.acks.Fits acks) :
    ∃ n, intOfText acks = .ok n := by
  obtain rfl | rfl | rfl := h
  · exact ⟨-1, by decide⟩
  · exact ⟨0, by decide⟩
  · exact ⟨1, by decide⟩

theorem checkAcks_fits (acks : Text) :
    (∃ n, checkAcks acks = .ok n) ↔ FieldKind.acks.Fits acks := by
  unfold checkAcks
  split
  · next h => exact iff_of_true (intOfText_acks h) h
  · next h => exact iff_of_false (by simp) h

theorem checkResponseAcks_fits (message : String) (acks : Text) :
    (∃ n, checkResponseAcks message acks = .ok n) ↔ FieldKind.acks.Fits acks := by
  unfold checkResponseAcks
  split
  · next h => exact iff_of_true (intOfText_acks h) h
  · next h => exact iff_of_false (by simp) h

section
variable {α : Type} {parts : List Text} {i : Nat} {rest : Reads}

/-- Nothing is taken any more. -/
theorem Present.done {x : Except ParseError α} (h : RaisesOnly ParseError.IsValueError x) :
    RaisesOnly ParseError.IsValueError x ↔ Present parts [] :=
  iff_of_true h trivial

/-- A text is taken as it is. -/
theorem Present.text {f : Text → Except ParseError α}
    (h : ∀ part, RaisesOnly ParseError.IsValueError (f part) ↔ Present parts rest) :
    RaisesOnly ParseError.IsValueError (partAt parts i >>= f) ↔
      Present parts ((i, .text) :: rest) := by
  rw [raisesOnly_partAt_bind]
  refine exists_congr fun part => and_congr_right fun _ => ?_
  rw [h part]
  simp [FieldKind.Whole, FieldKind.Fits]

/-- A field is checked as it is taken, and ends the parser if it does not fit. -/
theorem Present.checked {kind : FieldKind} {check : Text → Except ParseError Int}
    {f : Int → Except ParseError α} (hwhole : ∀ part, kind.Whole part)
    (hraises : ∀ part, RaisesOnly ParseError.IsValueError (check part))
    (hfits : ∀ part, (∃ n, check part = .ok n) ↔ kind.Fits part)
    (h : ∀ n, RaisesOnly ParseError.IsValueError (f n) ↔ Present parts rest) :
    RaisesOnly ParseError.IsValueError (partAt parts i >>= fun part => check part >>= f) ↔
      Present parts ((i, kind) :: rest) := by
  rw [raisesOnly_partAt_bind]
  refine exists_congr fun part => and_congr_right fun _ => ?_
  rw [(hraises part).bind_iff, ← hfits part, and_iff_right (hwhole part), forall_exists_index]
  exact forall₂_congr fun n _ => h n

theorem Present.number {f : Int → Except ParseError α}
    (h : ∀ n, RaisesOnly ParseError.IsValueError (f n) ↔ Present parts rest) :
    RaisesOnly ParseError.IsValueError (partAt parts i >>= fun part => intOfText part >>= f) ↔
      Present parts ((i, .number) :: rest) :=
  Present.checked (fun _ => trivial) intOfText_raises intOfText_fits h

theorem Present.acks {f : Int → Except ParseError α}
    (h : ∀ n, RaisesOnly ParseError.IsValueError (f n) ↔ Present parts rest) :
    RaisesOnly ParseError.IsValueError (partAt parts i >>= fun part => checkAcks part >>= f) ↔
      Present parts ((i, .acks) :: rest) :=
  Present.checked (fun _ => trivial) checkAcks_raises checkAcks_fits h

theorem Present.responseAcks {message : String} {f : Int → Except ParseError α}
    (h : ∀ n, RaisesOnly ParseError.IsValueError (f n) ↔ Present parts rest) :
    RaisesOnly ParseError.IsValueError
        (partAt parts i >>= fun part => checkResponseAcks message part >>= f) ↔
      Present parts ((i, .acks) :: rest) :=
  Present.checked (fun _ => trivial) (checkResponseAcks_raises message)
    (checkResponseAcks_fits message) h

end

/-- Two numbers are read once all fields have been taken. -/
theorem raisesOnly_numbers {α : Type} (a b : Text) (f : Int → Int → α) :
    RaisesOnly ParseError.IsValueError (do
      let m ← intOfText a
      let n ← intOfText b
      pure (f m n)) :=
  (intOfText_raises a).bind_iff.mpr fun _ _ =>
    (intOfText_raises b).bind_iff.mpr fun _ _ => raisesOnly_pure _

/-- The checksum is read before the payload behind it is taken. -/
theorem raisesOnly_checksummed_iff {α : Type} {field : Text}
    {f : Int → Text → Except ParseError α}
    (h : ∀ hash payload, RaisesOnly ParseError.IsValueError (f hash payload)) :
    RaisesOnly ParseError.IsValueError (partAt (splitMax ' ' 1 field) 0 >>= fun part =>
        intOfText part >>= fun hash => partAt (splitMax ' ' 1 field) 1 >>= f hash) ↔
      FieldKind.checksummed.Whole field := by
  obtain ⟨first, rest, hparts⟩ := List.exists_cons_of_ne_nil (splitMax_ne_nil ' ' 1 field)
  rw [raisesOnly_partAt_bind, FieldKind.Whole, hparts]
  simp only [List.getElem?_cons_zero, Option.some.injEq, exists_eq_left', forall_eq']
  rw [(intOfText_raises first).bind_iff, forall_exists_index]
  refine forall_congr' fun n => ?_
  rw [intOfText_eq_ok_iff, raisesOnly_partAt_bind]
  simp only [h, and_true]

theorem parsePublish_raises_iff (parts : List Text) (checksumEnable : Bool) :
    RaisesOnly ParseError.IsValueError (parsePublish parts checksumEnable) ↔
      Present parts (commandFormat checksumEnable "PUB".toList).reads := by
  unfold parsePublish
  refine Present.text fun topic => Present.acks fun acks => ?_
  cases checksumEnable with
  | false => exact Present.text fun payload => Present.done (by simp)
  | true =>
      refine raisesOnly_partAt_bind.trans (exists_congr fun payload => and_congr_right fun _ => ?_)
      have hverify : ∀ hash part, RaisesOnly ParseError.IsValueError
          (if checksumVerify (encodeUtf8 part) hash = true then
            pure (Command.publish (String.ofList topic) (encodeUtf8 payload) acks true)
          else throw (.checksumFailed (encodeUtf8 part) hash)) := by
        intro hash part
        split <;> simp [ParseError.IsValueError]
      exact (raisesOnly_checksummed_iff hverify).trans (and_iff_left fun _ => trivial).symm

/-- A parser compares the name with one after another. -/
theorem raisesOnly_named_iff {α : Type} {cmd name : Text} {x y : Except ParseError α}
    {Q : Text → Prop} (named : RaisesOnly ParseError.IsValueError x ↔ Q name)
    (others : cmd ≠ name → (RaisesOnly ParseError.IsValueError y ↔ Q cmd)) :
    RaisesOnly ParseError.IsValueError (if cmd = name then x else y) ↔ Q cmd := by
  by_cases h : cmd = name
  · rw [if_pos h, h]
    exact named
  · rw [if_neg h]
    exact others h

/-- The format of a command is that of the name it is found under. -/
theorem raisesOnly_command_iff {data : Bytes} {checksumEnable : Bool} {cmd name : Text}
    {x y : Except ParseError Command}
    (named : RaisesOnly ParseError.IsValueError x ↔
      ∀ text, decodeText data = .ok text → (commandFormat checksumEnable name).Holds text)
    (others : cmd ≠ name → (RaisesOnly ParseError.IsValueError y ↔
      ∀ text, decodeText data = .ok text → (commandFormat checksumEnable cmd).Holds text)) :
    RaisesOnly ParseError.IsValueError (if cmd = name then x else y) ↔
      ∀ text, decodeText data = .ok text → (commandFormat checksumEnable cmd).Holds text :=
  raisesOnly_named_iff (Q := fun name =>
    ∀ text, decodeText data = .ok text → (commandFormat checksumEnable name).Holds text)
    named others

theorem raisesOnly_response_iff {msg cmd name : Text} {x y : Except ParseError Response}
    (named : RaisesOnly ParseError.IsValueError x ↔ (responseFormat name).Holds msg)
    (others : cmd ≠ name →
      (RaisesOnly ParseError.IsValueError y ↔ (responseFormat cmd).Holds msg)) :
    RaisesOnly ParseError.IsValueError (if cmd = name then x else y) ↔
      (responseFormat cmd).Holds msg :=
  raisesOnly_named_iff (Q := fun name => (responseFormat name).Holds msg) named others

/-- `_parse_command` reads every format as it is listed. -/
theorem parseBody_raises_iff (data : Bytes) (checksumEnable : Bool) :
    RaisesOnly ParseError.IsValueError (parseBody data checksumEnable) ↔
      ∀ name, decodeText (data.take 3) = .ok name →
        ∀ text, decodeText data = .ok text → (commandFormat checksumEnable name).Holds text := by
  unfold parseBody
  refine raisesOnly_decodeText_bind.trans (forall₂_congr fun cmd _ => ?_)
  refine raisesOnly_command_iff ?_ fun _ => ?_
  · exact iff_of_true (raisesOnly_pure _) fun _ _ => trivial
  refine raisesOnly_command_iff ?_ fun hcid => ?_
  · exact raisesOnly_decodeText_bind.trans (forall₂_congr fun text _ =>
      Present.text fun _ => Present.done (raisesOnly_pure _))
  refine raisesOnly_command_iff ?_ fun _ => ?_
  · refine raisesOnly_decodeText_bind.trans (forall₂_congr fun text _ => iff_of_true ?_ trivial)
    -- the last part of a split is always there
    have hpos := List.length_pos_iff.mpr (splitMax_ne_nil ' ' 1 text)
    exact raisesOnly_partAt_bind.mpr
      ⟨_, List.getElem?_eq_getElem (by omega), raisesOnly_pure _⟩
  refine raisesOnly_command_iff ?_ fun hcmt => ?_
  · exact raisesOnly_decodeText_bind.trans (forall₂_congr fun text _ =>
      Present.acks fun _ =>
        Present.text fun _ => Present.number fun _ => Present.done (raisesOnly_pure _))
  refine raisesOnly_command_iff ?_ fun hfch => ?_
  · exact raisesOnly_decodeText_bind.trans (forall₂_congr fun text _ =>
      Present.text fun _ => Present.done (raisesOnly_pure _))
  refine raisesOnly_command_iff ?_ fun hpub => ?_
  · exact raisesOnly_decodeText_bind.trans (forall₂_congr fun text _ =>
      parsePublish_raises_iff _ checksumEnable)
  refine raisesOnly_command_iff ?_ fun hpul => ?_
  · exact raisesOnly_decodeText_bind.trans (forall₂_congr fun text _ =>
      Present.text fun _ =>
        Present.text fun _ => Present.text fun _ => Present.done (raisesOnly_numbers _ _ _))
  refine raisesOnly_command_iff ?_ fun hrfh => ?_
  · exact raisesOnly_decodeText_bind.trans (forall₂_congr fun text _ =>
      Present.text fun _ => Present.text fun _ =>
        Present.text fun _ => Present.text fun _ => Present.done (raisesOnly_numbers _ _ _))
  refine raisesOnly_command_iff ?_ fun _ => ?_
  · exact iff_of_true (raisesOnly_pure _) fun _ _ => trivial
  refine raisesOnly_command_iff ?_ fun hrgt => ?_
  · exact raisesOnly_decodeText_bind.trans (forall₂_congr fun text _ =>
      Present.text fun _ => Present.done (raisesOnly_pure _))
  refine raisesOnly_command_iff ?_ fun hmtr => ?_
  · exact raisesOnly_decodeText_bind.trans (forall₂_congr fun text _ =>
      Present.text fun _ => Present.done (raisesOnly_pure _))
  refine raisesOnly_command_iff ?_ fun hbrk => ?_
  · exact raisesOnly_decodeText_bind.trans (forall₂_congr fun text _ =>
      Present.text fun _ =>
        Present.text fun _ => Present.number fun _ => Present.done (raisesOnly_pure _))
  refine raisesOnly_command_iff ?_ fun hcpg => ?_
  · exact raisesOnly_decodeText_bind.trans (forall₂_congr fun text _ =>
      Present.text fun _ => Present.done (raisesOnly_pure _))
  refine raisesOnly_command_iff ?_ fun hisr => ?_
  · exact raisesOnly_decodeText_bind.trans (forall₂_congr fun text _ =>
      Present.text fun _ =>
        Present.text fun _ => Present.done (raisesOnly_pure _))
  have hformat : commandFormat checksumEnable cmd = ⟨0, []⟩ := by
    simp only [commandFormat, hcid, hcmt, hfch, hpub, hpul, hrfh, hrgt, hmtr, hbrk, hcpg, hisr,
      or_self, if_false]
  rw [hformat]
  exact iff_of_true (by simp [ParseError.IsValueError]) fun _ _ => trivial

/-- `_parse_response` reads every format as it is listed. -/
theorem parseResponseText_raises_iff (msg : Text) :
    RaisesOnly ParseError.IsValueError (parseResponseText msg) ↔
      (responseFormat (msg.take 3)).Holds msg := by
  unfold parseResponseText
  simp only
  generalize msg.take 3 = cmd
  refine raisesOnly_response_iff ?_ fun hcid => ?_
  · exact Present.text fun _ => Present.done (raisesOnly_pure _)
  refine raisesOnly_response_iff ?_ fun _ => ?_
  · exact iff_of_true (raisesOnly_pure _) trivial
  refine raisesOnly_response_iff ?_ fun hack => ?_
  · exact Present.responseAcks fun _ => Present.text fun _ => Present.number fun _ =>
      Present.done (raisesOnly_pure _)
  refine raisesOnly_response_iff ?_ fun hoak => ?_
  · exact Present.responseAcks fun _ => Present.text fun _ => Present.number fun _ =>
      Present.done (raisesOnly_pure _)
  refine raisesOnly_response_iff ?_ fun hfcr => ?_
  · exact Present.text fun _ => Present.number fun _ => Present.done (raisesOnly_pure _)
  refine raisesOnly_response_iff ?_ fun herr => ?_
  · exact Present.number fun _ => Present.done (raisesOnly_pure _)
  refine raisesOnly_response_iff ?_ fun hmsg => ?_
  · exact Present.text fun _ => Present.number fun _ => Present.done (raisesOnly_pure _)
  refine raisesOnly_response_iff ?_ fun hrpl => ?_
  · exact Present.text fun _ => Present.number fun _ => Present.number fun _ =>
      Present.number fun _ => Present.done (raisesOnly_pure _)
  refine raisesOnly_response_iff ?_ fun _ => ?_
  · exact iff_of_true (raisesOnly_pure _) trivial
  refine raisesOnly_response_iff ?_ fun htmd => ?_
  · exact Present.text fun _ => Present.text fun _ => Present.text fun _ => Present.number fun _ =>
      Present.text fun _ => Present.number fun _ => Present.done (raisesOnly_pure _)
  refine raisesOnly_response_iff ?_ fun html => ?_
  · exact Present.number fun _ => Present.done (raisesOnly_pure _)
  refine raisesOnly_response_iff ?_ fun hnlc => ?_
  · exact Present.text fun _ => Present.text fun _ => Present.number fun _ =>
      Present.done (raisesOnly_pure _)
  have hformat : responseFormat cmd = ⟨0, []⟩ := by
    simp only [responseFormat, hcid, hack, hoak, hfcr, herr, hmsg, hrpl, htmd, html, hnlc,
      or_self, if_false]
  rw [hformat]
  exact iff_of_true (by simp [ParseError.IsValueError]) trivial

theorem parseMetaLine_raises_iff (line : Text) :
    RaisesOnly ParseError.IsValueError (parseMetaLine line) ↔
      Present (line.splitOn ' ') metaLineReads :=
  Present.text fun _ => Present.text fun _ => Present.text fun _ => Present.number fun _ =>
    Present.text fun _ => Present.number fun _ => Present.done (raisesOnly_pure _)

section
variable {α : Type} {parts : List Text} {i : Nat} {rest : Reads}

theorem Complete.text {f : Text → Except ParseError α}
    (h : ∀ part, (∃ a, f part = .ok a) ↔ Complete parts rest) :
    (∃ a, partAt parts i >>= f = .ok a) ↔ Complete parts ((i, .text) :: rest) := by
  rw [returns_bind_iff]
  refine exists_congr fun part => ?_
  rw [partAt_eq_ok_iff, h part]
  simp [FieldKind.Fits]

theorem Complete.number {f : Int → Except ParseError α}
    (h : ∀ n, (∃ a, f n = .ok a) ↔ Complete parts rest) :
    (∃ a, (partAt parts i >>= fun part => intOfText part >>= f) = .ok a) ↔
      Complete parts ((i, .number) :: rest) := by
  rw [returns_bind_iff]
  refine exists_congr fun part => ?_
  rw [partAt_eq_ok_iff, returns_bind_iff, ← intOfText_fits part]
  refine and_congr_right fun _ => ?_
  simp only [h, exists_and_right]

theorem parseMetaLine_returns_iff (line : Text) :
    (∃ stated, parseMetaLine line = .ok stated) ↔ Complete (line.splitOn ' ') metaLineReads :=
  Complete.text fun _ => Complete.text fun _ => Complete.text fun _ => Complete.number fun _ =>
    Complete.text fun _ => Complete.number fun _ => iff_of_true ⟨_, rfl⟩ trivial

end

theorem mapM_parseMetaLine_raises_iff (lines : List Text) :
    RaisesOnly ParseError.IsValueError (lines.mapM parseMetaLine) ↔ LinesWhole lines := by
  induction lines with
  | nil => exact iff_of_true (raisesOnly_pure _) trivial
  | cons line rest ih =>
      rw [raisesOnly_mapM_cons_iff, parseMetaLine_raises_iff, LinesWhole,
        ← parseMetaLine_returns_iff, forall_exists_index, ih]

/-- A parser returns or raises a `ValueError` if and only if it misses no field: `parse_command`
with and without checksums, `parse_response` and `parse_metadata_list_payload`. -/
theorem raises_value_errors_iff (data : Bytes) (checksumEnable : Bool) :
    (RaisesOnly ParseError.IsValueError (parseCommand data checksumEnable) ↔
        CommandWhole data checksumEnable) ∧
      (RaisesOnly ParseError.IsValueError (parseResponse data) ↔ ResponseWhole data) ∧
      (RaisesOnly ParseError.IsValueError (parseMetadataListPayload data) ↔
        MetadataWhole data) := by
  refine ⟨?_, ?_, ?_⟩
  · refine (parsePacketHeader_raises data).bind_iff.trans ?_
    rw [CommandWhole, Prod.forall]
    refine forall₂_congr fun header rest => forall_congr' fun _ => ?_
    rw [← parseBody_raises_iff, raisesOnly_bind_iff]
    simp
  · refine (parsePacketHeader_raises data).bind_iff.trans ?_
    rw [ResponseWhole, Prod.forall]
    refine forall₂_congr fun header rest => forall_congr' fun _ => ?_
    refine raisesOnly_decodeText_bind.trans (forall₂_congr fun text _ => ?_)
    rw [← parseResponseText_raises_iff, raisesOnly_bind_iff]
    simp
  · unfold parseMetadataListPayload
    by_cases hnil : data = []
    · rw [if_pos hnil, hnil]
      refine iff_of_true (raisesOnly_pure _) fun text htext => ?_
      have hempty : decodeText [] = .ok [] := decodeText_encodeUtf8 []
      rw [hempty] at htext
      cases htext
      exact trivial
    · rw [if_neg hnil, MetadataWhole]
      exact raisesOnly_decodeText_bind.trans (forall₂_congr fun text _ =>
        mapM_parseMetaLine_raises_iff _)

/-- A command without its last field, a response without its only one and a line that ends
behind the leader's id: each parser raises an `IndexError`. -/
theorem missing_field_indexError :
    parseCommand (encodeUtf8 "PUL t 0".toList) false = .error .indexError ∧
      parseResponse (encodeUtf8 "CID".toList) = .error .indexError ∧
      parseMetadataListPayload (encodeUtf8 "t b1".toList) = .error .indexError ∧
      ¬ RaisesOnly ParseError.IsValueError (parseCommand (encodeUtf8 "PUL t 0".toList) false) ∧
      ¬ RaisesOnly ParseError.IsValueError (parseResponse (encodeUtf8 "CID".toList)) ∧
      ¬ RaisesOnly ParseError.IsValueError
        (parseMetadataListPayload (encodeUtf8 "t b1".toList)) := by
  have hcommand : parseCommand (encodeUtf8 "PUL t 0".toList) false = .error .indexError := by
    decide +kernel
  have hresponse : parseResponse (encodeUtf8 "CID".toList) = .error .indexError := by
    decide +kernel
  have hlist : parseMetadataListPayload (encodeUtf8 "t b1".toList) = .error .indexError := by
    decide +kernel
  exact ⟨hcommand, hresponse, hlist, fun h => h _ hcommand, fun h => h _ hresponse,
    fun h => h _ hlist⟩

end PyLogStream
