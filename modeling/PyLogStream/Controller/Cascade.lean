import PyLogStream.Controller.Steps
import PyLogStream.Metastore.Election
import PyLogStream.Metastore.Lookups
import Mathlib.Data.Finset.Card
import Mathlib.Data.Finset.Lattice.Lemmas
import Mathlib.Data.Nat.Digits.Defs

/-!
The cascade of disconnections. `broadcast_metadata` awaits `_handle_broker_disconnect` for
every broker whose write failed, and that awaits `broadcast_metadata`. The coroutines stand on
one stack, for which the interpreter sets a recursion limit; nobody on the way up catches the
`RecursionError`. Each call that finds its broker active removes it, so the active brokers
whose writes fail say how deep the calls go. A broadcast follows every removal, so the last
one is of what is stored in the end, and whoever is left then has received it.
-/

namespace PyLogStream
open Lib ConsistentHashRing

def ControllerResponse.metaList? : ControllerResponse → Option (List TopicMetaDataResponse)
  | .topicMetaDataList metaList => some metaList
  | _ => none

/-- How a call ends. -/
inductive CallEnd where
  | returned
  | recursionError
  /-- The metastore has raised. -/
  | raised
  deriving DecidableEq, Repr

/-- One call after another, until one does not return. -/
def inTurn {α σ : Type} (call : α → σ → σ × CallEnd) : List α → σ → σ × CallEnd
  | [], s => (s, .returned)
  | a :: more, s =>
    match call a s with
    | (s, .returned) => inTurn call more s
    | stopped => stopped

section
variable {α σ : Type} {call : α → σ → σ × CallEnd} {s : σ}

theorem inTurn_cons_of_returned {a : α} {more : List α} {s' : σ} (h : call a s = (s', .returned)) :
    inTurn call (a :: more) s = inTurn call more s' := by
  simp only [inTurn, h]

theorem inTurn_cons_of_stopped {a : α} {more : List α} (h : (call a s).2 ≠ .returned) :
    inTurn call (a :: more) s = call a s := by
  rw [inTurn]
  split
  · next s' hcall => exact absurd (congrArg Prod.snd hcall) h
  · rfl

theorem inTurn_cons_returned {a : α} {more : List α} {s' : σ}
    (h : inTurn call (a :: more) s = (s', .returned)) :
    ∃ s₁, call a s = (s₁, .returned) ∧ inTurn call more s₁ = (s', .returned) := by
  rw [inTurn] at h
  split at h
  · next s₁ hcall => exact ⟨s₁, hcall, h⟩
  · next stopped hne => exact absurd h (hne s')

theorem inTurn_idle {todo : List α} (h : ∀ a ∈ todo, call a s = (s, .returned)) :
    inTurn call todo s = (s, .returned) := by
  induction todo with
  | nil => rfl
  | cons a more ih =>
      obtain ⟨hfirst, hmore⟩ := List.forall_mem_cons.mp h
      rw [inTurn_cons_of_returned hfirst, ih hmore]

end

namespace ControllerServer

/-- The metadata list that was last written to the connection. -/
def lastList (s : ControllerServer) (conn : Nat) : Option (List TopicMetaDataResponse) :=
  (s.sent.filterMap fun message =>
    if message.1 = conn then message.2.metaList? else none).getLast?

/-- The list is written to these connections. -/
def told (s : ControllerServer) (metaList : List TopicMetaDataResponse) (conns : List Nat) :
    ControllerServer :=
  { s with sent := s.sent ++ conns.map fun conn => (conn, .topicMetaDataList metaList) }

/-- The snapshot of `broadcast_metadata`. -/
def targets (s : ControllerServer) : List (String × Nat) :=
  s.activeBrokers.items.map fun item => (item.1, item.2.conn)

/-- The brokers of a broadcast whose writes fail. -/
def failures (failing : Finset String) (targets : List (String × Nat)) : List (String × Cause) :=
  (targets.filter fun target => decide (target.1 ∈ failing)).map fun target =>
    (target.1, .failed target.2)

section
variable (cfg : ControllerConfig) (failing : Finset String)

/-- The broker is active no more and its writer is closed. -/
def tornDown (s : ControllerServer) (brokerId : String) (conn : Nat) : ControllerServer :=
  { s with activeBrokers := s.activeBrokers.erase brokerId }.closeConn cfg conn

def setManager (s : ControllerServer) (manager : MetastoreManager) : ControllerServer :=
  { s with manager }

mutual

/-- `broadcast_metadata`, where just the writes to these brokers fail and there is room for so
many nested calls. A call without room raises before it has done anything, and what the two
coroutines call besides each other takes no room. -/
def broadcastMetadataCall (s : ControllerServer) : Nat → ControllerServer × CallEnd
  | 0 => (s, .recursionError)
  | room + 1 =>
    inTurn (fun item s => handleBrokerDisconnectCall s item.1 room) (failures failing s.targets)
      (s.told s.manager.metaList (s.targets.map Prod.snd))

/-- `_handle_broker_disconnect`. -/
def handleBrokerDisconnectCall (s : ControllerServer) (brokerId : String) :
    Nat → ControllerServer × CallEnd
  | 0 => (s, .recursionError)
  | room + 1 =>
    match s.activeBrokers.get? brokerId with
    | none => (s, .returned)
    | some entry =>
      let s := s.tornDown cfg brokerId entry.conn
      match s.manager.exec cfg.hash (Metastore.deregisterBroker cfg.replicasPerTopic brokerId) with
      | (manager, .ok _) => broadcastMetadataCall (s.setManager manager) room
      | (manager, .error _) => (s.setManager manager, .raised)

end

end

/-- The active brokers among these are active no more, and have left the metastore. -/
structure Removes (gone : Finset String) (s s' : ControllerServer) : Prop where
  active : ∀ id, s'.activeBrokers.get? id = if id ∈ gone then none else s.activeBrokers.get? id
  nodes : ∀ id, s'.manager.storage.nodes.get? id =
    if id ∈ gone ∧ s.activeBrokers.get? id ≠ none then none else s.manager.storage.nodes.get? id

/-- The last list of every active broker is what is stored. -/
def Informed (s : ControllerServer) : Prop :=
  ∀ id entry, s.activeBrokers.get? id = some entry →
    s.lastList entry.conn = some s.manager.metaList

/-- The writes to these brokers do fail. -/
def Breaks (failing : Finset String) (s : ControllerServer) : Prop :=
  ∀ id ∈ failing, ∀ entry, s.activeBrokers.get? id = some entry → s.Broken entry.conn

structure CascadeOk (cfg : ControllerConfig) (ids : Set String) (failing : Finset String)
    (s : ControllerServer) : Prop where
  metastore : MetastoreOk cfg.hash ids s.manager
  active : ∀ id, s.activeBrokers.get? id ≠ none → id ∈ ids
  broken : Breaks failing s

/-- The brokers whose writes fail and that are active. -/
def exposed (s : ControllerServer) (failing : Finset String) : Finset String :=
  failing.filter fun id => s.activeBrokers.get? id ≠ none

section
variable {cfg : ControllerConfig} {ids : Set String} {failing : Finset String}
  {s : ControllerServer} {brokerId : String}

theorem mem_exposed {id : String} :
    id ∈ s.exposed failing ↔ id ∈ failing ∧ s.activeBrokers.get? id ≠ none := by
  simp [exposed]

/-- The brokers of a broadcast whose writes fail are those that are active. -/
theorem mem_failures {id : String} :
    id ∈ (failures failing s.targets).map Prod.fst ↔ id ∈ s.exposed failing := by
  simp only [failures, targets, mem_exposed, List.mem_map, List.mem_filter, decide_eq_true_eq]
  constructor
  · rintro ⟨-, ⟨-, ⟨⟨⟨id, entry⟩, hitem, rfl⟩, hfails⟩, rfl⟩, rfl⟩
    rw [← Dict.get?_eq_some_iff] at hitem
    exact ⟨hfails, by rw [hitem]; exact Option.some_ne_none entry⟩
  · rintro ⟨hfails, hactive⟩
    obtain ⟨entry, hentry⟩ := Option.ne_none_iff_exists'.mp hactive
    exact ⟨_, ⟨_, ⟨⟨_, (Dict.get?_eq_some_iff _ _ _).mp hentry, rfl⟩, hfails⟩, rfl⟩, rfl⟩

theorem exposed_of_failures {todo : List (String × Cause)}
    (h : failures failing s.targets = todo) : ∀ item ∈ todo, item.1 ∈ s.exposed failing :=
  fun _ hitem => mem_failures.mp (h ▸ List.mem_map_of_mem hitem)

theorem exposed_eq_empty (h : failures failing s.targets = []) : s.exposed failing = ∅ := by
  refine Finset.eq_empty_of_forall_notMem fun id hid => ?_
  have hmem := mem_failures.mpr hid
  rw [h] at hmem
  cases hmem

/-- The broker that is torn down is exposed no more. -/
theorem exposed_tornDown (conn : Nat) (manager : MetastoreManager) :
    ((s.tornDown cfg brokerId conn).setManager manager).exposed failing =
      (s.exposed failing).erase brokerId := by
  have h : ((s.tornDown cfg brokerId conn).setManager manager).activeBrokers =
      s.activeBrokers.erase brokerId := rfl
  ext id
  rw [Finset.mem_erase, mem_exposed, mem_exposed, h, Dict.get?_erase]
  by_cases heq : id = brokerId
  · simp [heq]
  · simp [heq]

theorem getLast?_of_forall_eq {α : Type} {l : List α} {a : α} (hne : l ≠ []) (h : ∀ x ∈ l, x = a) :
    l.getLast? = some a := by
  rw [List.getLast?_eq_some_getLast hne, h _ (List.getLast_mem hne)]

theorem lastList_told {metaList : List TopicMetaDataResponse} {conns : List Nat} {conn : Nat}
    (h : conn ∈ conns) : (s.told metaList conns).lastList conn = some metaList := by
  have hlast : ((conns.map fun conn => (conn, ControllerResponse.topicMetaDataList metaList)
      ).filterMap fun message => if message.1 = conn then message.2.metaList? else none).getLast? =
        some metaList := by
    refine getLast?_of_forall_eq (List.ne_nil_of_mem (List.mem_filterMap.mpr
      ⟨_, List.mem_map_of_mem h, if_pos rfl⟩)) fun list hlist => ?_
    obtain ⟨message, hmessage, hlist⟩ := List.mem_filterMap.mp hlist
    obtain ⟨conn', -, rfl⟩ := List.mem_map.mp hmessage
    split at hlist
    · exact (Option.some.inj hlist).symm
    · cases hlist
  rw [lastList, told, List.filterMap_append, List.getLast?_append, hlast, Option.some_or]

theorem Removes.trans {s₁ s₂ : ControllerServer} {gone gone' : Finset String}
    (first : Removes gone s s₁) (second : Removes gone' s₁ s₂) : Removes (gone ∪ gone') s s₂ := by
  constructor
  · intro id
    rw [second.active, first.active]
    by_cases h : id ∈ gone <;> by_cases h' : id ∈ gone' <;> simp [h, h']
  · intro id
    rw [second.nodes, first.nodes, first.active]
    by_cases h : id ∈ gone <;> by_cases h' : id ∈ gone' <;> simp [h, h']

theorem Removes.of_absent {s' : ControllerServer} {gone : Finset String}
    (absent : ∀ id ∈ gone, s.activeBrokers.get? id = none)
    (hactive : s'.activeBrokers = s.activeBrokers) (hmanager : s'.manager = s.manager) :
    Removes gone s s' := by
  constructor
  · intro id
    rw [hactive]
    split
    · next h => exact absent id h
    · rfl
  · intro id
    rw [hmanager, if_neg fun h => h.2 (absent id h.1)]

theorem Broken.closeConn {conn other : Nat} (h : s.Broken conn) :
    (s.closeConn cfg other).Broken conn := by
  by_cases heq : conn = other
  · exact Or.inr (by simp [ControllerServer.closeConn, setConn, heq])
  · have hsame : (s.closeConn cfg other).conns conn = s.conns conn := Function.update_of_ne heq ..
    rw [ControllerServer.Broken, hsame]
    exact h

theorem get?_of_erase {entry : ActiveBroker} {id : String}
    (h : (s.activeBrokers.erase brokerId).get? id = some entry) :
    s.activeBrokers.get? id = some entry := by
  rw [Dict.get?_erase] at h
  split at h
  · cases h
  · exact h

theorem Breaks.tornDown (broken : Breaks failing s) (cfg : ControllerConfig) (brokerId : String)
    (conn : Nat) : Breaks failing (s.tornDown cfg brokerId conn) :=
  fun id hid entry h =>
    Broken.closeConn (s := { s with activeBrokers := s.activeBrokers.erase brokerId })
      (broken id hid entry (get?_of_erase h))

theorem CascadeOk.tornDown (ok : CascadeOk cfg ids failing s) (brokerId : String) (conn : Nat) :
    CascadeOk cfg ids failing (s.tornDown cfg brokerId conn) := by
  refine ⟨ok.metastore, fun id hid => ?_, ok.broken.tornDown cfg brokerId conn⟩
  obtain ⟨entry, hentry⟩ := Option.ne_none_iff_exists'.mp hid
  exact ok.active id (by rw [get?_of_erase hentry]; exact Option.some_ne_none entry)

theorem informed_told : Informed (s.told s.manager.metaList (s.targets.map Prod.snd)) := by
  intro id entry hentry
  refine lastList_told ?_
  rw [targets, List.map_map]
  exact List.mem_map_of_mem ((Dict.get?_eq_some_iff _ _ _).mp hentry)

/-- Only the broker of the call is torn down. -/
theorem card_exposed_le_tornDown (cfg : ControllerConfig) (failing : Finset String)
    (s : ControllerServer) (brokerId : String) (conn : Nat) (manager : MetastoreManager) :
    (s.exposed failing).card ≤
      (((s.tornDown cfg brokerId conn).setManager manager).exposed failing).card + 1 := by
  have hcard := Finset.pred_card_le_card_erase (s := s.exposed failing) (a := brokerId)
  rw [exposed_tornDown]
  omega

theorem disconnectCall_absent (h : s.activeBrokers.get? brokerId = none) (room : Nat) :
    handleBrokerDisconnectCall cfg failing s brokerId (room + 1) = (s, .returned) := by
  simp only [handleBrokerDisconnectCall, h]

theorem disconnectCall_returned {room : Nat} {s' : ControllerServer}
    (h : handleBrokerDisconnectCall cfg failing s brokerId (room + 1) = (s', .returned)) :
    s.activeBrokers.get? brokerId = none ∧ s' = s ∨
      ∃ entry manager updated, s.activeBrokers.get? brokerId = some entry ∧
        s.manager.exec cfg.hash (Metastore.deregisterBroker cfg.replicasPerTopic brokerId) =
          (manager, .ok updated) ∧
        broadcastMetadataCall cfg failing ((s.tornDown cfg brokerId entry.conn).setManager manager)
          room = (s', .returned) := by
  rw [handleBrokerDisconnectCall] at h
  split at h
  · next hnone =>
      cases h
      exact .inl ⟨hnone, rfl⟩
  · next entry hget =>
      dsimp only at h
      split at h
      · next manager updated hexec => exact .inr ⟨entry, manager, updated, hget, hexec, h⟩
      · cases h

/-- A call needs as much room as it takes: two calls for each broker that is exposed. -/
theorem room_of_returned (cfg : ControllerConfig) (failing : Finset String) (room : Nat) :
    (∀ s s', broadcastMetadataCall cfg failing s room = (s', .returned) →
      2 * (s.exposed failing).card + 1 ≤ room) ∧
    ∀ s s' brokerId, handleBrokerDisconnectCall cfg failing s brokerId room = (s', .returned) →
      s.activeBrokers.get? brokerId ≠ none →
        2 * ((s.exposed failing).erase brokerId).card + 2 ≤ room := by
  induction room with
  | zero =>
      refine ⟨fun s s' h => ?_, fun s s' brokerId h => ?_⟩
      · cases h
      · cases h
  | succ room ih =>
      refine ⟨fun s s' h => ?_, fun s s' brokerId h hactive => ?_⟩
      · rw [broadcastMetadataCall] at h
        cases htodo : failures failing s.targets with
        | nil => simp [exposed_eq_empty htodo]
        | cons item more =>
            rw [htodo] at h
            obtain ⟨s₁, hfirst, -⟩ := inTurn_cons_returned h
            have hexposed := exposed_of_failures htodo item List.mem_cons_self
            have hroom := ih.2 _ s₁ item.1 hfirst (mem_exposed.mp hexposed).2
            change 2 * ((s.exposed failing).erase item.1).card + 2 ≤ room at hroom
            have hcard := Finset.card_erase_add_one hexposed
            omega
      · rcases disconnectCall_returned h with ⟨hnone, -⟩ | ⟨entry, manager, -, -, -, hbroadcast⟩
        · exact absurd hnone hactive
        · have hroom := ih.1 _ s' hbroadcast
          rw [exposed_tornDown] at hroom
          omega

/-- However a call ends, it has removed no more brokers than it had room for. -/
theorem card_exposed_le (cfg : ControllerConfig) (failing : Finset String) (room : Nat) :
    (∀ s, (s.exposed failing).card ≤
      ((broadcastMetadataCall cfg failing s room).1.exposed failing).card + room / 2) ∧
    ∀ s brokerId, (s.exposed failing).card ≤
      ((handleBrokerDisconnectCall cfg failing s brokerId room).1.exposed failing).card +
        (room + 1) / 2 := by
  induction room with
  | zero => exact ⟨fun s => Nat.le_refl _, fun s brokerId => Nat.le_add_right _ _⟩
  | succ room ih =>
      refine ⟨fun s => ?_, fun s brokerId => ?_⟩
      · cases hend : broadcastMetadataCall cfg failing s (room + 1) with
        | mk s' ending =>
            by_cases hreturned : ending = .returned
            · have hroom := (room_of_returned cfg failing (room + 1)).1 s s' (hreturned ▸ hend)
              omega
            · rw [broadcastMetadataCall] at hend
              cases htodo : failures failing s.targets with
              | nil =>
                  rw [htodo] at hend
                  cases hend
                  exact absurd rfl hreturned
              | cons item more =>
                  rw [htodo] at hend
                  let s₁ := s.told s.manager.metaList (s.targets.map Prod.snd)
                  have hexposed := exposed_of_failures htodo item List.mem_cons_self
                  have hcard := Finset.card_erase_add_one hexposed
                  by_cases hfirst :
                      (handleBrokerDisconnectCall cfg failing s₁ item.1 room).2 = .returned
                  · have hroom := (room_of_returned cfg failing room).2 s₁ _ item.1
                      (Prod.ext rfl hfirst) (mem_exposed.mp hexposed).2
                    change 2 * ((s.exposed failing).erase item.1).card + 2 ≤ room at hroom
                    omega
                  · rw [inTurn_cons_of_stopped hfirst] at hend
                    have hlater := ih.2 s₁ item.1
                    rw [hend] at hlater
                    exact hlater
      · rw [handleBrokerDisconnectCall]
        cases hget : s.activeBrokers.get? brokerId with
        | none => exact Nat.le_add_right _ _
        | some entry =>
            simp only
            split
            · next manager updated hexec =>
                have hlater := ih.1 ((s.tornDown cfg brokerId entry.conn).setManager manager)
                have hfirst := card_exposed_le_tornDown cfg failing s brokerId entry.conn manager
                omega
            · next manager err hexec =>
                have hfirst := card_exposed_le_tornDown cfg failing s brokerId entry.conn manager
                simp only
                omega

/-- What a cascade leaves. -/
structure Settled (cfg : ControllerConfig) (ids : Set String) (failing gone : Finset String)
    (s s' : ControllerServer) : Prop where
  ok : CascadeOk cfg ids failing s'
  informed : Informed s'
  removes : Removes gone s s'

/-- With that much room the calls return, and the brokers have been removed. -/
theorem settled_of_room (failing : Finset String)
    (free : CollisionFree cfg.hash 50 ids) (room : Nat) :
    (∀ s, CascadeOk cfg ids failing s → 2 * (s.exposed failing).card + 1 ≤ room →
      ∃ s', broadcastMetadataCall cfg failing s room = (s', .returned) ∧
        Settled cfg ids failing failing s s') ∧
    ∀ s brokerId, CascadeOk cfg ids failing s → s.activeBrokers.get? brokerId ≠ none →
      2 * ((s.exposed failing).erase brokerId).card + 2 ≤ room →
        ∃ s', handleBrokerDisconnectCall cfg failing s brokerId room = (s', .returned) ∧
          Settled cfg ids failing (insert brokerId failing) s s' := by
  induction room with
  | zero =>
      refine ⟨fun s _ h => ?_, fun s brokerId _ _ h => ?_⟩
      · omega
      · omega
  | succ room ih =>
      refine ⟨fun s ok hroom => ?_, fun s brokerId ok hactive hroom => ?_⟩
      · let s₁ := s.told s.manager.metaList (s.targets.map Prod.snd)
        have ok₁ : CascadeOk cfg ids failing s₁ := ⟨ok.metastore, ok.active, ok.broken⟩
        rw [broadcastMetadataCall]
        cases htodo : failures failing s.targets with
        | nil =>
            -- no write has failed
            refine ⟨s₁, rfl, ok₁, informed_told, .of_absent (fun id hid => ?_) rfl rfl⟩
            by_contra hactive
            have hmem := mem_exposed.mpr ⟨hid, hactive⟩
            rw [exposed_eq_empty htodo] at hmem
            cases hmem
        | cons item more =>
            have hexposed := exposed_of_failures htodo
            obtain ⟨hfails, hactive⟩ := mem_exposed.mp (hexposed item List.mem_cons_self)
            have hcard := Finset.card_erase_add_one (hexposed item List.mem_cons_self)
            obtain ⟨s', hcall, settled⟩ := ih.2 s₁ item.1 ok₁ hactive (by
              change 2 * ((s.exposed failing).erase item.1).card + 2 ≤ room
              omega)
            rw [Finset.insert_eq_of_mem hfails] at settled
            refine ⟨s', ?_, settled.ok, settled.informed, settled.removes.active,
              settled.removes.nodes⟩
            -- the first call has removed the brokers that the others are for
            rw [inTurn_cons_of_returned hcall]
            refine inTurn_idle fun other hother => ?_
            have hgone : s'.activeBrokers.get? other.1 = none := by
              rw [settled.removes.active, if_pos]
              exact (mem_exposed.mp (hexposed other (List.mem_cons_of_mem _ hother))).1
            obtain ⟨room', rfl⟩ : ∃ room', room = room' + 1 := ⟨room - 1, by omega⟩
            exact disconnectCall_absent hgone room'
      · obtain ⟨entry, hget⟩ := Option.ne_none_iff_exists'.mp hactive
        have ok₁ := ok.tornDown brokerId entry.conn
        obtain ⟨manager, updated, hexec, metastore, hnodes⟩ :=
          ok.metastore.exec_deregister free cfg.replicasPerTopic (ok.active brokerId hactive)
        let s₂ := (s.tornDown cfg brokerId entry.conn).setManager manager
        have ok₂ : CascadeOk cfg ids failing s₂ := ⟨metastore, ok₁.active, ok₁.broken⟩
        obtain ⟨s', hcall, settled⟩ := ih.1 s₂ ok₂ (by rw [exposed_tornDown]; omega)
        have hremoved : Removes {brokerId} s s₂ := by
          constructor
          · intro id
            simp only [Finset.mem_singleton]
            exact Dict.get?_erase ..
          · intro id
            rw [show s₂.manager.storage.nodes = _ from hnodes, Dict.get?_erase]
            simp only [Finset.mem_singleton]
            by_cases hid : id = brokerId
            · rw [if_pos hid, if_pos ⟨hid, hid ▸ hactive⟩]
            · rw [if_neg hid, if_neg fun h => hid h.1]
        refine ⟨s', ?_, settled.ok, settled.informed, ?_⟩
        · rw [handleBrokerDisconnectCall]
          simp only [hget]
          rw [show (s.tornDown cfg brokerId entry.conn).manager = s.manager from rfl, hexec]
          exact hcall
        · rw [Finset.insert_eq]
          exact hremoved.trans settled.removes

end

/-- The brokers are active no more and have left the metastore, all others remain in
both, and whoever is active has the stored metadata as its last list. -/
structure Left (gone : Finset String) (s s' : ControllerServer) : Prop where
  active : ∀ id, s'.activeBrokers.get? id = if id ∈ gone then none else s.activeBrokers.get? id
  nodes : ∀ id, s'.manager.storage.nodes.get? id =
    if id ∈ gone then none else s.manager.storage.nodes.get? id
  informed : Informed s'

theorem Settled.left {cfg : ControllerConfig} {ids : Set String} {failing gone : Finset String}
    {s s' : ControllerServer} (settled : Settled cfg ids failing gone s s')
    (active : ∀ id ∈ gone, s.activeBrokers.get? id ≠ none) : Left gone s s' := by
  refine ⟨settled.removes.active, fun id => ?_, settled.informed⟩
  rw [settled.removes.nodes]
  by_cases h : id ∈ gone
  · rw [if_pos h, if_pos ⟨h, active id h⟩]
  · rw [if_neg h, if_neg fun h' => h h'.1]

section
variable {cfg : ControllerConfig} {s : ControllerServer} {failing : Finset String}

theorem active_of_lost
    (lost : ∀ id ∈ failing, ∃ entry, s.activeBrokers.get? id = some entry ∧ s.Broken entry.conn) :
    ∀ id ∈ failing, s.activeBrokers.get? id ≠ none := fun id hid => by
  obtain ⟨entry, hentry, -⟩ := lost id hid
  exact hentry ▸ Option.some_ne_none entry

theorem CascadeOk.reached {ops : List MetastoreOp}
    (reached : s.manager =
      run (MetastoreManager.apply cfg.hash cfg.replicasPerTopic) MetastoreManager.new ops)
    (free : CollisionFree cfg.hash 50
      (brokersOf ops ∪ { id | s.activeBrokers.get? id ≠ none }))
    (lost : ∀ id ∈ failing, ∃ entry, s.activeBrokers.get? id = some entry ∧ s.Broken entry.conn) :
    CascadeOk cfg (brokersOf ops ∪ { id | s.activeBrokers.get? id ≠ none }) failing s := by
  refine ⟨?_, fun id hid => Or.inr hid, fun id hid entry hentry => ?_⟩
  · rw [reached]
    exact run_keeps (MetastoreOk cfg.hash _) (fun m op hop ok =>
      ok.apply free fun id hid => Or.inl ⟨op, hop, hid⟩) (metastoreOk_new cfg.hash _)
  · obtain ⟨entry', hentry', hbroken⟩ := lost id hid
    exact Option.some.inj (hentry'.symm.trans hentry) ▸ hbroken

end

/-- Two brokers with a topic, and the connection of the second is lost. -/
def secondLost : ControllerServer :=
  { new with
    manager := run (MetastoreManager.apply oneReplica.hash oneReplica.replicasPerTopic)
      MetastoreManager.new twoBrokers
    activeBrokers := (Dict.empty.set "b1" ⟨1, 0, "h1", 1⟩).set "b2" ⟨2, 0, "h2", 2⟩
    conns := fun conn => { Connection.absent with lost := decide (conn = 2) } }

/-- The name of the `i`th broker. -/
def numbered (i : Nat) : String := String.ofList ('b' :: Nat.toDigits 10 i)

theorem numbered_injective : Function.Injective numbered := by
  intro i j h
  have hdigits : Nat.toDigits 10 i = Nat.toDigits 10 j :=
    (List.cons.inj (String.ofList_inj.mp h)).2
  rw [← Nat.ofDigitChars_ten_toDigits (n := i), hdigits, Nat.ofDigitChars_ten_toDigits]

def registrations (n : Nat) : List MetastoreOp :=
  (List.range n).map fun i => .registerBroker (numbered i) "h" 9092

/-- So many brokers have registered, and all of them have lost their connections. -/
def allLost (cfg : ControllerConfig) (n : Nat) : ControllerServer :=
  { new with
    manager := run (MetastoreManager.apply cfg.hash cfg.replicasPerTopic) MetastoreManager.new
      (registrations n)
    activeBrokers := ⟨(List.range n).map fun i => (numbered i, ⟨i, 0, "h", 9092⟩), by
      rw [List.map_map]
      exact List.nodup_range.map numbered_injective⟩
    conns := fun conn => { Connection.absent with lost := decide (conn < n) } }

theorem allLost_manager (cfg : ControllerConfig) (n : Nat) : (allLost cfg n).manager =
    run (MetastoreManager.apply cfg.hash cfg.replicasPerTopic) MetastoreManager.new
      (registrations n) := rfl

def numberedBelow (n : Nat) : Finset String := (Finset.range n).image numbered

theorem allLost_active (cfg : ControllerConfig) {n : Nat} {id : String} (h : id ∈ numberedBelow n) :
    ∃ entry, (allLost cfg n).activeBrokers.get? id = some entry ∧
      (allLost cfg n).Broken entry.conn := by
  obtain ⟨i, hi, rfl⟩ := Finset.mem_image.mp h
  refine ⟨⟨i, 0, "h", 9092⟩, (Dict.get?_eq_some_iff _ _ _).mpr ?_, .inl ?_⟩
  · exact List.mem_map_of_mem (List.mem_range.mpr (Finset.mem_range.mp hi))
  · exact decide_eq_true (Finset.mem_range.mp hi)

theorem card_exposed_allLost (cfg : ControllerConfig) (n : Nat) :
    ((allLost cfg n).exposed (numberedBelow n)).card = n := by
  rw [exposed, Finset.filter_true_of_mem (active_of_lost fun id hid => allLost_active cfg hid),
    numberedBelow, Finset.card_image_of_injective _ numbered_injective, Finset.card_range]

/-- A broadcast to more brokers that are lost than half the room leaves some of them active. -/
theorem active_of_room_lt (cfg : ControllerConfig) {n room : Nat} (h : room / 2 < n) :
    (broadcastMetadataCall cfg (numberedBelow n) (allLost cfg n) room).2 ≠ .returned ∧
      ∃ id ∈ numberedBelow n, (broadcastMetadataCall cfg (numberedBelow n) (allLost cfg n)
        room).1.activeBrokers.get? id ≠ none := by
  have hcard := card_exposed_allLost cfg n
  constructor
  · intro hreturned
    have hroom := (room_of_returned cfg (numberedBelow n) room).1 _ _ (Prod.ext rfl hreturned)
    omega
  · have hremoved := (card_exposed_le cfg (numberedBelow n) room).1 (allLost cfg n)
    obtain ⟨id, hid⟩ := Finset.card_pos.mp (by omega : 0 < ((broadcastMetadataCall cfg
      (numberedBelow n) (allLost cfg n) room).1.exposed (numberedBelow n)).card)
    exact ⟨id, mem_exposed.mp hid⟩

/-- The characters as digits, none of them zero. -/
def spelledHash (key : String) : Nat :=
  Nat.ofDigits 0x110001 (key.toList.map fun c => c.toNat + 1)

theorem spelledHash_injective : Function.Injective spelledHash := by
  have hdigits : ∀ key : String,
      Nat.digits 0x110001 (spelledHash key) = key.toList.map fun c => c.toNat + 1 := by
    intro key
    refine Nat.digits_ofDigits _ (by decide) _ (fun digit hdigit => ?_) fun hne hzero => ?_
    · obtain ⟨c, -, rfl⟩ := List.mem_map.mp hdigit
      have hvalid : c.toNat < 0xd800 ∨ 0xdfff < c.toNat ∧ c.toNat < 0x110000 := c.valid
      omega
    · obtain ⟨c, -, hc⟩ := List.mem_map.mp (List.getLast_mem hne)
      omega
  intro a b h
  have hmap := hdigits a
  rw [h, hdigits] at hmap
  refine String.toList_inj.mp (List.map_injective_iff.mpr (fun c d hcd => ?_) hmap.symm)
  exact Char.toNat_inj.mp (Nat.succ.inj hcd)

/-- A controller whose hash has no collisions. -/
def spelledReplica : ControllerConfig := ⟨spelledHash, 1, 15⟩

end ControllerServer
end PyLogStream
