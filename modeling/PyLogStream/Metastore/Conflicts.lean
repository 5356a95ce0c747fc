import PyLogStream.Metastore.ZooKeeper

/-!
Which of the calls that a controller's operations share are independent. Two
ZooKeeper calls conflict if one writes the znode the other uses, or deletes a
child the other looks at; two ring calls conflict if one changes the ring.
Independent calls commute.
-/

namespace PyLogStream
open Lib

/-- The second call changes nothing that the first one uses. -/
def ZkCall.Unaffected (c : ZkCall) : ZkCall → Prop
  | .get _ | .nodeExists _ | .getChildren _ => True
  | .set path _ =>
    match c with
    | .get used | .set used _ | .delete used => used ≠ path
    | .nodeExists _ | .getChildren _ => True
    | .create _ _ => False
  | .delete path =>
    match c with
    | .get used | .nodeExists used | .set used _ => used ≠ path
    | .getChildren used => childName used path = none
    | .delete used => used ≠ path ∧ childName used path = none
    | .create _ _ => False
  | .create _ _ => False

instance (c d : ZkCall) : Decidable (c.Unaffected d) :=
  match c, d with
  | _, .get _ | _, .nodeExists _ | _, .getChildren _ => inferInstanceAs (Decidable True)
  | .get used, .set path _ | .set used _, .set path _ | .delete used, .set path _ =>
    inferInstanceAs (Decidable (used ≠ path))
  | .nodeExists _, .set _ _ | .getChildren _, .set _ _ => inferInstanceAs (Decidable True)
  | .create _ _, .set _ _ | .create _ _, .delete _ | _, .create _ _ =>
    inferInstanceAs (Decidable False)
  | .get used, .delete path | .nodeExists used, .delete path | .set used _, .delete path =>
    inferInstanceAs (Decidable (used ≠ path))
  | .getChildren used, .delete path => inferInstanceAs (Decidable (childName used path = none))
  | .delete used, .delete path =>
    inferInstanceAs (Decidable (used ≠ path ∧ childName used path = none))

def RingCall.Reads : RingCall → Prop
  | .getNode _ | .getReplicas _ _ => True
  | .addNode _ | .removeNode _ => False

instance (c : RingCall) : Decidable c.Reads :=
  match c with
  | .getNode _ | .getReplicas _ _ => inferInstanceAs (Decidable True)
  | .addNode _ | .removeNode _ => inferInstanceAs (Decidable False)

def ZkMetastoreCall.Independent : ZkMetastoreCall → ZkMetastoreCall → Prop
  | .zk c, .zk d => c.Unaffected d ∧ d.Unaffected c
  | .ring c, .ring d => c.Reads ∧ d.Reads
  | _, _ => True

instance (c d : ZkMetastoreCall) : Decidable (c.Independent d) :=
  match c, d with
  | .zk c, .zk d => inferInstanceAs (Decidable (c.Unaffected d ∧ d.Unaffected c))
  | .ring c, .ring d => inferInstanceAs (Decidable (c.Reads ∧ d.Reads))
  | .zk _, .ring _ | .ring _, .zk _ => inferInstanceAs (Decidable True)

namespace Znodes
section
variable (z : Znodes)

theorem children_set {path : String} (data : ZnodeData) (h : (z.get? path).isSome)
    (parent : String) : Znodes.children (z.set path data) parent = z.children parent := by
  obtain ⟨old, hold⟩ := Option.isSome_iff_exists.mp h
  rw [children, children, Dict.keys_set (Dict.mem_keys_of_get? hold)]

theorem children_erase {path parent : String} (h : childName parent path = none) :
    Znodes.children (z.erase path) parent = z.children parent := by
  have hdrop : ∀ keys : List String,
      (keys.filter fun key => decide (key ≠ path)).filterMap (childName parent) =
        keys.filterMap (childName parent) := by
    intro keys
    induction keys with
    | nil => rfl
    | cons key rest ih =>
        by_cases hkey : key = path
        · rw [List.filter_cons_of_neg (by simp [hkey]), ih, hkey, List.filterMap_cons_none h]
        · rw [List.filter_cons_of_pos (by simp [hkey]), List.filterMap_cons, List.filterMap_cons, ih]
  rw [children, children, Dict.keys_erase]
  exact hdrop z.keys

/-- Whether a node is there is all that `set` and `delete` see of the data. -/
theorem isSome_set {path : String} (data : ZnodeData) (h : (z.get? path).isSome) (key : String) :
    ((z.set path data).get? key).isSome = (z.get? key).isSome := by
  rw [Dict.get?_set]
  split
  · next heq => rw [heq, h]; rfl
  · rfl

variable {c d : ZkCall}

theorem answer_unaffected (h : c.Unaffected d) :
    (Znodes.handle (z.handle d).1 c).2 = (z.handle c).2 := by
  cases d with
  | get path | nodeExists path | getChildren path => rfl
  | create path data => exact h.elim
  | set path data =>
      by_cases hsome : (z.get? path).isSome
      · have hstate : (z.handle (.set path data)).1 = z.set path data := by
          simp only [handle, if_pos hsome]
        rw [hstate]
        cases c with
        | get used => simp only [handle, Dict.get?_set_of_ne z data h]
        | nodeExists used => simp only [handle, isSome_set z data hsome]
        | getChildren used => simp only [handle, children_set z data hsome]
        | set used data' =>
            simp only [handle, isSome_set z data hsome]
            split <;> rfl
        | delete used =>
            simp only [handle, isSome_set z data hsome, children_set z data hsome]
            split
            · split <;> rfl
            · rfl
        | create used data' => exact h.elim
      · have hstate : (z.handle (.set path data)).1 = z := by simp only [handle, if_neg hsome]
        rw [hstate]
  | delete path =>
      by_cases hgone : (z.get? path).isSome ∧ z.children path = []
      · have hstate : (z.handle (.delete path)).1 = z.erase path := by
          simp only [handle, if_pos hgone.1, if_pos hgone.2]
        rw [hstate]
        cases c with
        | get used => simp only [handle, Dict.get?_erase, if_neg (show ¬ used = path from h)]
        | nodeExists used =>
            simp only [handle, Dict.get?_erase, if_neg (show ¬ used = path from h)]
        | getChildren used => simp only [handle, children_erase z h]
        | set used data' =>
            simp only [handle, Dict.get?_erase, if_neg (show ¬ used = path from h)]
            split <;> rfl
        | delete used =>
            simp only [handle, Dict.get?_erase, if_neg h.1, children_erase z h.2]
            split
            · split <;> rfl
            · rfl
        | create used data' => exact h.elim
      · have hstate : (z.handle (.delete path)).1 = z := by
          simp only [handle]
          split
          · next hsome => rw [if_neg fun hnil => hgone ⟨hsome, hnil⟩]
          · rfl
        rw [hstate]

/-- The effect of a call, given what it sees. -/
theorem handle_set_state (path : String) (data : ZnodeData) :
    (z.handle (.set path data)).1 = if (z.get? path).isSome then z.set path data else z := by
  simp only [handle]
  split <;> rfl

theorem handle_delete_state (path : String) :
    (z.handle (.delete path)).1 =
      if (z.get? path).isSome ∧ z.children path = [] then z.erase path else z := by
  simp only [handle]
  by_cases hsome : (z.get? path).isSome
  · by_cases hnil : z.children path = []
    · rw [if_pos hsome, if_pos hnil, if_pos ⟨hsome, hnil⟩]
    · rw [if_pos hsome, if_neg hnil, if_neg fun h => hnil h.2]
  · rw [if_neg hsome, if_neg fun h => hsome h.1]

theorem set_set_state {path path' : String} (hne : path ≠ path') (data data' : ZnodeData) :
    (Znodes.handle (z.handle (.set path data)).1 (.set path' data')).1 =
      (Znodes.handle (z.handle (.set path' data')).1 (.set path data)).1 := by
  simp only [handle_set_state]
  by_cases h : (z.get? path).isSome
  · by_cases h' : (z.get? path').isSome
    · obtain ⟨old, hold⟩ := Option.isSome_iff_exists.mp h
      obtain ⟨old', hold'⟩ := Option.isSome_iff_exists.mp h'
      rw [if_pos h, if_pos h', if_pos (by rw [isSome_set z data h, h']),
        if_pos (by rw [isSome_set z data' h', h])]
      exact Dict.set_comm hne (Dict.mem_keys_of_get? hold) (Dict.mem_keys_of_get? hold') data data'
    · rw [if_pos h, if_neg h', if_pos h, if_neg (by rw [isSome_set z data h]; exact h')]
  · by_cases h' : (z.get? path').isSome
    · rw [if_neg h, if_pos h', if_neg (by rw [isSome_set z data' h']; exact h)]
    · rw [if_neg h, if_neg h', if_neg h]

theorem set_delete_state {path path' : String} (hne : path ≠ path') (data : ZnodeData) :
    (Znodes.handle (z.handle (.set path data)).1 (.delete path')).1 =
      (Znodes.handle (z.handle (.delete path')).1 (.set path data)).1 := by
  simp only [handle_set_state, handle_delete_state]
  have herase : ((z.erase path').get? path).isSome = (z.get? path).isSome := by
    rw [Dict.get?_erase, if_neg hne]
  by_cases h : (z.get? path).isSome
  · obtain ⟨old, hold⟩ := Option.isSome_iff_exists.mp h
    rw [if_pos h, isSome_set z data h, children_set z data h]
    by_cases h' : (z.get? path').isSome ∧ z.children path' = []
    · rw [if_pos h', if_pos h', if_pos (herase.trans h)]
      exact Dict.set_erase_comm hne (Dict.mem_keys_of_get? hold) data
    · rw [if_neg h', if_neg h', if_pos h]
  · rw [if_neg h]
    by_cases h' : (z.get? path').isSome ∧ z.children path' = []
    · rw [if_pos h', if_neg (by rw [herase]; exact h)]
    · rw [if_neg h', if_neg h]

theorem delete_delete_state {path path' : String} (hne : path ≠ path')
    (h : childName path path' = none) (h' : childName path' path = none) :
    (Znodes.handle (z.handle (.delete path)).1 (.delete path')).1 =
      (Znodes.handle (z.handle (.delete path')).1 (.delete path)).1 := by
  simp only [handle_delete_state]
  by_cases hp : (z.get? path).isSome ∧ z.children path = []
  · rw [if_pos hp, Dict.get?_erase, if_neg hne.symm, children_erase z h']
    by_cases hp' : (z.get? path').isSome ∧ z.children path' = []
    · rw [if_pos hp', if_pos hp', Dict.get?_erase, if_neg hne, children_erase z h, if_pos hp]
      exact Dict.erase_comm z path path'
    · rw [if_neg hp', if_neg hp', if_pos hp]
  · rw [if_neg hp]
    by_cases hp' : (z.get? path').isSome ∧ z.children path' = []
    · rw [if_pos hp', Dict.get?_erase, if_neg hne, children_erase z h, if_neg hp]
    · rw [if_neg hp', if_neg hp]

theorem state_commutes (h : c.Unaffected d) (h' : d.Unaffected c) :
    (Znodes.handle (z.handle c).1 d).1 = (Znodes.handle (z.handle d).1 c).1 := by
  cases c with
  | get path | nodeExists path | getChildren path => cases d <;> rfl
  | create path data => cases d <;> exact h'.elim
  | set path data =>
      cases d with
      | get path' | nodeExists path' | getChildren path' => rfl
      | create path' data' => exact h.elim
      | set path' data' => exact set_set_state z h data data'
      | delete path' => exact set_delete_state z h data
  | delete path =>
      cases d with
      | get path' | nodeExists path' | getChildren path' => rfl
      | create path' data' => exact h.elim
      | set path' data' => exact (set_delete_state z h' data').symm
      | delete path' => exact delete_delete_state z h.1 h.2 h'.2

end
end Znodes

theorem ZkMetastoreCall.Independent.commutes {hash : String → Nat} {c d : ZkMetastoreCall}
    (h : c.Independent d) : Commutes (ZkMetastore.handle hash) c d := by
  intro s
  cases c with
  | zk c =>
      cases d with
      | zk d =>
          refine ⟨?_, Znodes.answer_unaffected s.znodes h.2, Znodes.answer_unaffected s.znodes h.1⟩
          simp only [ZkMetastore.handle, Znodes.state_commutes s.znodes h.1 h.2]
      | ring d => exact ⟨rfl, rfl, rfl⟩
  | ring c =>
      cases d with
      | zk d => exact ⟨rfl, rfl, rfl⟩
      | ring d =>
          cases c with
          | addNode nodeId | removeNode nodeId => exact h.1.elim
          | getNode topic =>
              cases d with
              | addNode nodeId | removeNode nodeId => exact h.2.elim
              | getNode topic' | getReplicas topic' count' => exact ⟨rfl, rfl, rfl⟩
          | getReplicas topic count =>
              cases d with
              | addNode nodeId | removeNode nodeId => exact h.2.elim
              | getNode topic' | getReplicas topic' count' => exact ⟨rfl, rfl, rfl⟩

end PyLogStream
