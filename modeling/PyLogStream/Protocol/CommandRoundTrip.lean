import PyLogStream.Protocol.Fields

/-!
Commands that travel as text alone come back from their frames. Each has its own
layout, written by `encode_command` and read by `_parse_command`; a field in front of
the last must not contain a blank. The integers must not have more digits than are
converted, and the text must fit behind the length prefix.
-/

namespace PyLogStream
open Lib

/-- A command that travels as text alone, without a blank in a field before the last. -/
def Command.HeaderOnly : Command → Prop
  | .register | .clientId _ | .subscribe _ | .fetchOffset _ | .ping | .registerTopic _
  | .metadataRequest _ | .controllerPing _ => True
  | .commitOffset topic _ acks => ' ' ∉ topic.toList ∧ (acks = -1 ∨ acks = 0 ∨ acks = 1)
  | .pull topic _ _ => ' ' ∉ topic.toList
  | .replicaFetch topic _ _ replicaId => ' ' ∉ replicaId.toList ∧ ' ' ∉ topic.toList
  | .brokerRegister brokerId host _ => ' ' ∉ brokerId.toList ∧ ' ' ∉ host.toList
  | .publish .. | .brokerMetadataList _ | .isrChange .. => False

section
variable {command : Command}

theorem split_two (name : String) (hname : ' ' ∉ name.toList) (last : Text) :
    splitMax ' ' 1 (fieldsText name [last]) = [name.toList, last] :=
  split_fieldsText name hname (by simp : ∀ f ∈ ([] : List Text), ' ' ∉ f) last

theorem split_four (name : String) (hname : ' ' ∉ name.toList) {a b : Text} (ha : ' ' ∉ a)
    (hb : ' ' ∉ b) (last : Text) :
    splitMax ' ' 3 (fieldsText name [a, b, last]) = [name.toList, a, b, last] :=
  split_fieldsText name hname (by simp [ha, hb] : ∀ f ∈ [a, b], ' ' ∉ f) last

theorem split_five (name : String) (hname : ' ' ∉ name.toList) {a b c : Text} (ha : ' ' ∉ a)
    (hb : ' ' ∉ b) (hc : ' ' ∉ c) (last : Text) :
    splitMax ' ' 4 (fieldsText name [a, b, c, last]) = [name.toList, a, b, c, last] :=
  split_fieldsText name hname (by simp [ha, hb, hc] : ∀ f ∈ [a, b, c], ' ' ∉ f) last

/-- The parser reads a command off its text. -/
theorem parseBody_text (h : command.HeaderOnly) (encodeChecksum parseChecksum : Bool)
    (integers : ∀ n ∈ command.integers, Convertible n) :
    ∃ text, command.formatted encodeChecksum = .ok (encodeUtf8 text) ∧ Capitalized text ∧
      parseBody (encodeUtf8 text) parseChecksum = .ok command := by
  cases command with
  | register =>
      refine ⟨fieldsText "REG" [], rfl, ⟨'R', _, rfl, by decide⟩, ?_⟩
      have hname := decodeText_name "REG" (by decide) []
      simp [parseBody, hname, bind, Except.bind, pure, Except.pure]
  | ping =>
      refine ⟨fieldsText "PNG" [], rfl, ⟨'P', _, rfl, by decide⟩, ?_⟩
      have hname := decodeText_name "PNG" (by decide) []
      simp [parseBody, hname, bind, Except.bind, pure, Except.pure]
  | clientId id =>
      refine ⟨fieldsText "CID" [id.toList], rfl, ⟨'C', _, rfl, by decide⟩, ?_⟩
      have hname := decodeText_name "CID" (by decide) [id.toList]
      have hparts := split_two "CID" (by decide) id.toList
      simp [parseBody, hname, decodeText_encodeUtf8, hparts, partAt, bind, Except.bind, pure,
        Except.pure]
  | subscribe topic =>
      refine ⟨fieldsText "SUB" [topic.toList], rfl, ⟨'S', _, rfl, by decide⟩, ?_⟩
      have hname := decodeText_name "SUB" (by decide) [topic.toList]
      have hparts := split_two "SUB" (by decide) topic.toList
      simp [parseBody, hname, decodeText_encodeUtf8, hparts, partAt, bind, Except.bind, pure,
        Except.pure]
  | fetchOffset topic =>
      refine ⟨fieldsText "FCH" [topic.toList], rfl, ⟨'F', _, rfl, by decide⟩, ?_⟩
      have hname := decodeText_name "FCH" (by decide) [topic.toList]
      have hparts := split_two "FCH" (by decide) topic.toList
      simp [parseBody, hname, decodeText_encodeUtf8, hparts, partAt, bind, Except.bind, pure,
        Except.pure]
  | registerTopic topic =>
      refine ⟨fieldsText "RGT" [topic.toList], rfl, ⟨'R', _, rfl, by decide⟩, ?_⟩
      have hname := decodeText_name "RGT" (by decide) [topic.toList]
      have hparts := split_two "RGT" (by decide) topic.toList
      simp [parseBody, hname, decodeText_encodeUtf8, hparts, partAt, bind, Except.bind, pure,
        Except.pure]
  | metadataRequest topic =>
      refine ⟨fieldsText "MTR" [topic.toList], rfl, ⟨'M', _, rfl, by decide⟩, ?_⟩
      have hname := decodeText_name "MTR" (by decide) [topic.toList]
      have hparts := split_two "MTR" (by decide) topic.toList
      simp [parseBody, hname, decodeText_encodeUtf8, hparts, partAt, bind, Except.bind, pure,
        Except.pure]
  | controllerPing brokerId =>
      refine ⟨fieldsText "CPG" [brokerId.toList], rfl, ⟨'C', _, rfl, by decide⟩, ?_⟩
      have hname := decodeText_name "CPG" (by decide) [brokerId.toList]
      have hparts := split_two "CPG" (by decide) brokerId.toList
      simp [parseBody, hname, decodeText_encodeUtf8, hparts, partAt, bind, Except.bind, pure,
        Except.pure]
  | commitOffset topic offset acks =>
      have hoffset := integers offset (by simp [Command.integers])
      refine ⟨fieldsText "CMT" [topic.toList, showInt acks, showInt offset], rfl,
        ⟨'C', _, rfl, by decide⟩, ?_⟩
      have hname := decodeText_name "CMT" (by decide) [topic.toList, showInt acks, showInt offset]
      have hparts := split_four "CMT" (by decide) h.1 (blank_not_mem_showInt acks) (showInt offset)
      simp [parseBody, hname, decodeText_encodeUtf8, hparts, partAt, checkAcks_showInt h.2,
        intOfText_showInt hoffset, bind, Except.bind, pure, Except.pure]
  | pull topic offset size =>
      have hoffset := integers offset (by simp [Command.integers])
      have hsize := integers size (by simp [Command.integers])
      refine ⟨fieldsText "PUL" [topic.toList, showInt offset, showInt size], rfl,
        ⟨'P', _, rfl, by decide⟩, ?_⟩
      have hname := decodeText_name "PUL" (by decide) [topic.toList, showInt offset, showInt size]
      have hparts := split_four "PUL" (by decide) h (blank_not_mem_showInt offset) (showInt size)
      simp [parseBody, hname, decodeText_encodeUtf8, hparts, partAt, intOfText_showInt hoffset,
        intOfText_showInt hsize, bind, Except.bind, pure, Except.pure]
  | brokerRegister brokerId host port =>
      have hport := integers port (by simp [Command.integers])
      refine ⟨fieldsText "BRK" [brokerId.toList, host.toList, showInt port], rfl,
        ⟨'B', _, rfl, by decide⟩, ?_⟩
      have hname := decodeText_name "BRK" (by decide) [brokerId.toList, host.toList, showInt port]
      have hparts := split_four "BRK" (by decide) h.1 h.2 (showInt port)
      simp [parseBody, hname, decodeText_encodeUtf8, hparts, partAt, intOfText_showInt hport, bind,
        Except.bind, pure, Except.pure]
  | replicaFetch topic offset size replicaId =>
      have hoffset := integers offset (by simp [Command.integers])
      have hsize := integers size (by simp [Command.integers])
      refine ⟨fieldsText "RFH" [replicaId.toList, topic.toList, showInt offset, showInt size], rfl,
        ⟨'R', _, rfl, by decide⟩, ?_⟩
      have hname := decodeText_name "RFH" (by decide)
        [replicaId.toList, topic.toList, showInt offset, showInt size]
      have hparts := split_five "RFH" (by decide) h.1 h.2 (blank_not_mem_showInt offset)
        (showInt size)
      simp [parseBody, hname, decodeText_encodeUtf8, hparts, partAt, intOfText_showInt hoffset,
        intOfText_showInt hsize, bind, Except.bind, pure, Except.pure]
  | publish | brokerMetadataList | isrChange => exact h.elim

end

/-- The command has a text, and behind the packet header it fits the length prefix. -/
def Packet.Fits (packet : Packet) (checksumEnable : Bool) : Prop :=
  ∃ text, packet.command.formatted checksumEnable = .ok text ∧
    (encodePacketHeader packet.header ++ text).length < 2 ^ 32

theorem encodeFrame_ok_iff {payload : Bytes} :
    (∃ frame, encodeFrame payload = .ok frame) ↔ payload.length < 2 ^ 32 := by
  unfold encodeFrame
  split
  · next h => exact iff_of_true ⟨_, rfl⟩ h
  · next h => exact iff_of_false (by simp) h

/-- When a command has a frame. -/
theorem encodeCommand_ok_iff {packet : Packet} {checksumEnable : Bool} :
    (∃ frame, encodeCommand packet checksumEnable = .ok frame) ↔
      (∀ n ∈ packet.command.integers, Convertible n) ∧ packet.Fits checksumEnable := by
  constructor
  · rintro ⟨frame, hframe⟩
    obtain ⟨body, hbody, hframe⟩ := bind_eq_ok hframe
    obtain ⟨integers, htext⟩ := Command.body_eq_ok.mp hbody
    exact ⟨integers, body, htext, encodeFrame_ok_iff.mp ⟨frame, hframe⟩⟩
  · rintro ⟨integers, text, htext, hlength⟩
    obtain ⟨frame, hframe⟩ := encodeFrame_ok_iff.mpr hlength
    refine ⟨frame, ?_⟩
    simp only [encodeCommand, Command.body_eq_ok.mpr ⟨integers, htext⟩, bind, Except.bind, hframe]

/-- The frame of a fetch by `b2`, with a correlation id. -/
def fetchFrame : Bytes :=
  [0, 0, 0, 23, 91, 67, 82, 82, 61, 55, 102, 93, 32, 82, 70, 72, 32, 98, 50, 32, 116, 32, 45, 53,
    32, 54, 52]

end PyLogStream
