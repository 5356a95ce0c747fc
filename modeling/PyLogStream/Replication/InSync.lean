import PyLogStream.Lib.Sorted
import PyLogStream.Replication.Leader

/-!
The in-sync list that `_update_isr` computes. The followers are sorted by their lag and
taken from the closest on, first to fill up the minimum count and then as long as the
lag is within the bound. What is taken is therefore always a first part of the sorted
list: everyone left out lags at least as much as everyone taken.
-/

namespace PyLogStream
open Lib

namespace ReplicaLeader

/-- The followers, the closest to the end of the log first. -/
def closest (leader : ReplicaLeader) (now : Time) : List String :=
  ((leader.replicaList.erase leader.id).mergeSort
    fun a b => decide (leader.lagOf now b ≤ leader.lagOf now a)).reverse

/-- The replica counts as in sync: it is the leader, or one of the closest that fill
up the minimum count, or its lag is within the bound. -/
def CountsInSync (leader : ReplicaLeader) (now : Time) (r : String) : Prop :=
  r = leader.id ∨ r ∈ (leader.closest now).take (leader.minIsrCount - 1).toNat ∨
    r ∈ leader.closest now ∧ leader.lagOf now r ≤ leader.maxIsrLagMs

instance (leader : ReplicaLeader) (now : Time) (r : String) :
    Decidable (leader.CountsInSync now r) :=
  inferInstanceAs (Decidable (_ ∨ _))

section
variable {leader : ReplicaLeader} {now : Time}

theorem closest_pairwise :
    (leader.closest now).Pairwise fun a b => leader.lagOf now a ≤ leader.lagOf now b := by
  let behind : String → String → Bool := fun a b => decide (leader.lagOf now b ≤ leader.lagOf now a)
  have htrans : ∀ a b c, behind a b = true → behind b c = true → behind a c = true := by
    simp only [behind, decide_eq_true_eq]
    exact fun a b c hab hbc => le_trans hbc hab
  have htotal : ∀ a b, (behind a b || behind b a) = true := by
    simp only [behind, Bool.or_eq_true, decide_eq_true_eq]
    exact fun a b => le_total _ _
  have hsorted := List.pairwise_mergeSort htrans htotal (leader.replicaList.erase leader.id)
  rw [closest, List.pairwise_reverse]
  exact hsorted.imp fun h => of_decide_eq_true h

theorem newIsr_eq : leader.newIsr now =
    leader.id :: ((leader.closest now).take (leader.minIsrCount - 1).toNat ++
      ((leader.closest now).drop (leader.minIsrCount - 1).toNat).takeWhile
        fun r => decide (leader.lagOf now r ≤ leader.maxIsrLagMs)) := rfl

theorem mem_newIsr {r : String} : r ∈ leader.newIsr now ↔ leader.CountsInSync now r := by
  let needed := (leader.minIsrCount - 1).toNat
  have hwithin : r ∈ ((leader.closest now).drop needed).takeWhile
        (fun r => decide (leader.lagOf now r ≤ leader.maxIsrLagMs)) ↔
      r ∈ (leader.closest now).drop needed ∧ leader.lagOf now r ≤ leader.maxIsrLagMs := by
    have hsorted := closest_pairwise.sublist (List.drop_sublist needed (leader.closest now))
    rw [mem_takeWhile_of_pairwise hsorted, decide_eq_true_eq]
    simp only [decide_eq_true_eq]
    exact fun a b hab hb => le_trans hab hb
  have hsplit : r ∈ leader.closest now ↔
      r ∈ (leader.closest now).take needed ∨ r ∈ (leader.closest now).drop needed := by
    rw [← List.mem_append, List.take_append_drop]
  rw [newIsr_eq, List.mem_cons, List.mem_append, hwithin, CountsInSync, hsplit]
  tauto

theorem mem_replicaList_of_closest {r : String} (h : r ∈ leader.closest now) :
    r ∈ leader.replicaList := by
  rw [closest, List.mem_reverse, List.mem_mergeSort] at h
  exact List.mem_of_mem_erase h

theorem closest_perm : (leader.closest now).Perm (leader.replicaList.erase leader.id) :=
  (List.reverse_perm _).trans (List.mergeSort_perm _ _)

/-- The followers taken are the first so many of the closest, at least the quota. -/
theorem exists_newIsr_eq_take (leader : ReplicaLeader) (now : Time) :
    ∃ n, (leader.minIsrCount - 1).toNat ≤ n ∧ leader.newIsr now = leader.id :: (leader.closest now).take n := by
  let needed := (leader.minIsrCount - 1).toNat
  let within := ((leader.closest now).drop needed).takeWhile
    fun r => decide (leader.lagOf now r ≤ leader.maxIsrLagMs)
  refine ⟨needed + within.length, Nat.le_add_right _ _, ?_⟩
  have hwithin : within = ((leader.closest now).drop needed).take within.length :=
    List.prefix_iff_eq_take.mp (List.takeWhile_prefix _)
  rw [newIsr_eq, List.take_add, ← hwithin]

/-- Whoever is left out lags at least as much as every follower taken. -/
theorem lagOf_le_of_left_out {taken left : String} (htaken : taken ∈ leader.newIsr now)
    (hfollower : taken ≠ leader.id) (hleft : left ∉ leader.newIsr now)
    (hreplica : left ∈ leader.replicaList) :
    leader.lagOf now taken ≤ leader.lagOf now left := by
  obtain ⟨n, -, hisr⟩ := exists_newIsr_eq_take leader now
  rw [hisr, List.mem_cons, not_or] at hleft
  have hfirst : taken ∈ (leader.closest now).take n := by
    rw [hisr, List.mem_cons] at htaken
    exact htaken.resolve_left hfollower
  have hclosest : left ∈ leader.closest now :=
    closest_perm.mem_iff.mpr ((List.mem_erase_of_ne hleft.1).mpr hreplica)
  have hrest : left ∈ (leader.closest now).drop n := by
    rw [← List.take_append_drop n (leader.closest now), List.mem_append] at hclosest
    exact hclosest.resolve_left hleft.2
  have hsorted : (leader.closest now).Pairwise _ := closest_pairwise
  rw [← List.take_append_drop n (leader.closest now), List.pairwise_append] at hsorted
  exact hsorted.2.2 taken hfirst left hrest

/-- Beyond the minimum count, only followers within the lag bound are taken. -/
theorem lagOf_le_of_above_minimum {r : String}
    (habove : (leader.minIsrCount - 1).toNat + 1 < (leader.newIsr now).length)
    (hr : r ∈ leader.newIsr now) (hfollower : r ≠ leader.id) :
    leader.lagOf now r ≤ leader.maxIsrLagMs := by
  let needed := (leader.minIsrCount - 1).toNat
  let within := ((leader.closest now).drop needed).takeWhile
    fun r => decide (leader.lagOf now r ≤ leader.maxIsrLagMs)
  have hisr : leader.newIsr now = leader.id :: ((leader.closest now).take needed ++ within) := rfl
  have hshort := List.length_take_le needed (leader.closest now)
  rw [hisr, List.length_cons, List.length_append] at habove
  obtain ⟨last, hlast⟩ : ∃ last, last ∈ within :=
    List.exists_mem_of_length_pos (by omega)
  have hbound : ∀ r ∈ within, leader.lagOf now r ≤ leader.maxIsrLagMs := fun r h =>
    of_decide_eq_true (List.mem_takeWhile_imp
      (p := fun r => decide (leader.lagOf now r ≤ leader.maxIsrLagMs)) h)
  rw [hisr, List.mem_cons, List.mem_append] at hr
  rcases hr.resolve_left hfollower with hquota | hwithin
  · -- the quota is filled before the first follower is taken for its lag
    have hsorted : (leader.closest now).Pairwise _ := closest_pairwise
    rw [← List.take_append_drop needed (leader.closest now), List.pairwise_append] at hsorted
    have hrest := (List.takeWhile_sublist _).subset hlast
    exact (hsorted.2.2 r hquota last hrest).trans (hbound last hlast)
  · exact hbound r hwithin

/-- What `_update_isr` leaves as the in-sync list of a leader that is one of its replicas. -/
theorem updateIsr_meets_rules (leader : ReplicaLeader) (now : Time)
    (nodup : leader.replicaList.Nodup) (hid : leader.id ∈ leader.replicaList) :
    ∃ leader', leader.updateIsr now = .ok leader' ∧
      leader'.inSyncReplica.head? = some leader.id ∧
      leader'.inSyncReplica.Nodup ∧
      (∀ r ∈ leader'.inSyncReplica, r ∈ leader.replicaList) ∧
      min (max 1 leader.minIsrCount) leader.replicaList.length ≤ leader'.inSyncReplica.length ∧
      (∀ r ∈ leader.replicaList, leader.lagOf now r ≤ leader.maxIsrLagMs →
        r ∈ leader'.inSyncReplica) ∧
      (∀ left ∈ leader.replicaList, left ∉ leader'.inSyncReplica →
        ∀ taken ∈ leader'.inSyncReplica, taken ≠ leader.id →
          ¬ leader.lagOf now left < leader.lagOf now taken) ∧
      (min (max 1 leader.minIsrCount) leader.replicaList.length < leader'.inSyncReplica.length →
        ∀ r ∈ leader'.inSyncReplica, r ≠ leader.id →
          leader.lagOf now r ≤ leader.maxIsrLagMs) := by
  obtain ⟨n, hquota, hisr⟩ := exists_newIsr_eq_take leader now
  have hlength : (leader.closest now).length + 1 = leader.replicaList.length := by
    rw [closest_perm.length_eq, List.length_erase_of_mem hid]
    have := List.length_pos_of_mem hid
    omega
  have hcount : (leader.newIsr now).length = min n (leader.closest now).length + 1 := by
    rw [hisr, List.length_cons, List.length_take]
  refine ⟨{ leader with inSyncReplica := leader.newIsr now }, if_pos hid, ?_, ?_, ?_, ?_, ?_, ?_,
    ?_⟩
  · rfl
  · have hfollowers : (leader.closest now).Nodup :=
      closest_perm.nodup_iff.mpr (nodup.erase leader.id)
    have hnot : leader.id ∉ leader.closest now := fun h =>
      nodup.not_mem_erase (closest_perm.mem_iff.mp h)
    simp only [hisr]
    exact List.nodup_cons.mpr ⟨fun h => hnot (List.mem_of_mem_take h),
      hfollowers.sublist (List.take_sublist n _)⟩
  · intro r hr
    simp only [hisr] at hr
    rcases List.mem_cons.mp hr with rfl | htake
    · exact hid
    · exact mem_replicaList_of_closest (List.mem_of_mem_take htake)
  · simp only [hcount]
    omega
  · intro r hr hlag
    refine mem_newIsr.mpr ?_
    by_cases heq : r = leader.id
    · exact Or.inl heq
    · exact Or.inr (Or.inr ⟨closest_perm.mem_iff.mpr ((List.mem_erase_of_ne heq).mpr hr), hlag⟩)
  · intro left hleft hout taken htaken hfollower
    exact not_lt.mpr (lagOf_le_of_left_out htaken hfollower hout hleft)
  · intro habove r hr hfollower
    refine lagOf_le_of_above_minimum ?_ hr hfollower
    simp only [hcount] at habove ⊢
    omega

/-- One follower was at the end of the log lately, the other long ago. -/
def oneBehind : ReplicaLeader :=
  { topic := "t", id := "b1", replicaList := ["b2", "b1", "b3"], minIsrCount := 1
    maxIsrLagMs := 10, inSyncReplica := ["b1"], replicaOffset := Dict.empty
    hwWaiterQueue := [], highWatermark := 0
    replicaLastCaughtup := (Dict.empty.set "b2" 95).set "b3" 50 }

theorem updateIsr_meets_rules_oneBehind :
    ∃ leader', oneBehind.updateIsr 100 = .ok leader' ∧ "b2" ∈ leader'.inSyncReplica ∧
      leader'.inSyncReplica.Nodup := by
  have hrules := updateIsr_meets_rules oneBehind 100 (by decide) (by decide)
  obtain ⟨leader', hok, -, nodup, -, -, within, -⟩ := hrules
  exact ⟨leader', hok, within "b2" (by decide) (by decide +kernel), nodup⟩

end
end ReplicaLeader
end PyLogStream
