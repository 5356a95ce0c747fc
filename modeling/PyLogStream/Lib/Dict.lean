import Mathlib.Data.List.Nodup
import Mathlib.Tactic.Common

/-!
Insertion-ordered dictionaries. A value carries the proof that no key occurs
twice, so lookups, updates and removals need no side conditions. Updating a
present key keeps its position; a new key goes to the end; iteration follows
the order of the items.
-/

namespace Lib

universe u v

section Raw
variable {κ : Type u} {α : Type v} [DecidableEq κ]

def assocGet (k : κ) : List (κ × α) → Option α
  | [] => none
  | (k', a) :: rest => if k' = k then some a else assocGet k rest

def assocSet (k : κ) (a : α) : List (κ × α) → List (κ × α)
  | [] => [(k, a)]
  | (k', a') :: rest => if k' = k then (k, a) :: rest else (k', a') :: assocSet k a rest

def assocErase (k : κ) : List (κ × α) → List (κ × α)
  | [] => []
  | (k', a) :: rest => if k' = k then rest else (k', a) :: assocErase k rest

theorem assocGet_eq_none_iff (k : κ) (items : List (κ × α)) :
    assocGet k items = none ↔ k ∉ items.map Prod.fst := by
  induction items with
  | nil => simp [assocGet]
  | cons item rest ih =>
      obtain ⟨k', a⟩ := item
      by_cases h : k' = k
      · simp [assocGet, h]
      · simp [assocGet, h, ih, Ne.symm h]

theorem assocGet_mem {k : κ} {a : α} {items : List (κ × α)}
    (h : assocGet k items = some a) : (k, a) ∈ items := by
  induction items with
  | nil => simp [assocGet] at h
  | cons item rest ih =>
      obtain ⟨k', a'⟩ := item
      by_cases hk : k' = k
      · simp only [assocGet, hk, ite_true, Option.some.injEq] at h
        simp [hk, h]
      · simp only [assocGet, hk, ite_false] at h
        exact List.mem_cons_of_mem _ (ih h)

theorem assocGet_of_mem {k : κ} {a : α} {items : List (κ × α)}
    (hn : (items.map Prod.fst).Nodup) (h : (k, a) ∈ items) :
    assocGet k items = some a := by
  induction items with
  | nil => simp at h
  | cons item rest ih =>
      obtain ⟨k', a'⟩ := item
      simp only [List.map_cons, List.nodup_cons] at hn
      rcases List.mem_cons.mp h with heq | hmem
      · obtain ⟨rfl, rfl⟩ := Prod.mk.inj heq
        simp [assocGet]
      · have hk : k' ≠ k := by
          rintro rfl
          exact hn.1 (List.mem_map_of_mem hmem)
        simpa [assocGet, hk] using ih hn.2 hmem

theorem assocGet_assocSet (k k' : κ) (a : α) (items : List (κ × α)) :
    assocGet k' (assocSet k a items) = if k' = k then some a else assocGet k' items := by
  induction items with
  | nil =>
      by_cases h : k' = k
      · simp [assocSet, assocGet, h]
      · have h' : ¬ k = k' := fun e => h e.symm
        simp [assocSet, assocGet, h, h']
  | cons item rest ih =>
      obtain ⟨j, b⟩ := item
      by_cases hj : j = k
      · by_cases h : k' = k
        · simp [assocSet, assocGet, hj, h]
        · have h' : ¬ k = k' := fun e => h e.symm
          simp [assocSet, assocGet, hj, h, h']
      · by_cases h : k' = k
        · subst h
          simp [assocSet, assocGet, hj, ih]
        · simp [assocSet, assocGet, hj, ih, h]

theorem assocSet_keys_of_mem {k : κ} {items : List (κ × α)} (a : α)
    (h : k ∈ items.map Prod.fst) :
    (assocSet k a items).map Prod.fst = items.map Prod.fst := by
  induction items with
  | nil => simp at h
  | cons item rest ih =>
      obtain ⟨j, b⟩ := item
      by_cases hj : j = k
      · simp [assocSet, hj]
      · have hrest : k ∈ rest.map Prod.fst := by
          rcases List.mem_cons.mp h with heq | hmem
          · exact absurd heq.symm hj
          · exact hmem
        simpa [assocSet, hj] using ih hrest

theorem assocSet_of_not_mem {k : κ} {items : List (κ × α)} (a : α)
    (h : k ∉ items.map Prod.fst) : assocSet k a items = items ++ [(k, a)] := by
  induction items with
  | nil => rfl
  | cons item rest ih =>
      obtain ⟨j, b⟩ := item
      simp only [List.map_cons, List.mem_cons, not_or] at h
      simp [assocSet, Ne.symm h.1, ih h.2]

theorem assocSet_nodup (k : κ) (a : α) {items : List (κ × α)}
    (h : (items.map Prod.fst).Nodup) : ((assocSet k a items).map Prod.fst).Nodup := by
  by_cases hk : k ∈ items.map Prod.fst
  · rwa [assocSet_keys_of_mem a hk]
  · rw [assocSet_of_not_mem a hk, List.map_append, List.map_singleton]
    exact List.Nodup.append h (List.nodup_singleton k) (by simpa using hk)

theorem assocSet_assocSet (k : κ) (a b : α) (items : List (κ × α)) :
    assocSet k b (assocSet k a items) = assocSet k b items := by
  induction items with
  | nil => simp [assocSet]
  | cons item rest ih =>
      obtain ⟨j, c⟩ := item
      by_cases hj : j = k
      · simp [assocSet, hj]
      · simp [assocSet, hj, ih]

theorem assocSet_of_get {k : κ} {a : α} {items : List (κ × α)}
    (h : assocGet k items = some a) : assocSet k a items = items := by
  induction items with
  | nil => simp [assocGet] at h
  | cons item rest ih =>
      obtain ⟨j, c⟩ := item
      by_cases hj : j = k
      · subst hj
        simp only [assocGet, ite_true, Option.some.injEq] at h
        simp [assocSet, h]
      · simp only [assocGet, hj, ite_false] at h
        simp [assocSet, hj, ih h]

theorem assocSet_eq_map {k : κ} {items : List (κ × α)} (h : k ∈ items.map Prod.fst)
    (hn : (items.map Prod.fst).Nodup) (a : α) :
    assocSet k a items = items.map fun item => if item.1 = k then (k, a) else item := by
  induction items with
  | nil => simp at h
  | cons item rest ih =>
      obtain ⟨k', a'⟩ := item
      rw [List.map_cons, List.nodup_cons] at hn
      by_cases hk : k' = k
      · subst hk
        have hrest : rest.map (fun item => if item.1 = k' then (k', a) else item) = rest := by
          refine (List.map_congr_left fun item hitem => ?_).trans (List.map_id rest)
          have hkey : item.1 ∈ rest.map Prod.fst := List.mem_map_of_mem hitem
          have hne : item.1 ≠ k' := fun heq => hn.1 (heq ▸ hkey)
          simp [hne]
        simp [assocSet, hrest]
      · have hmem : k ∈ rest.map Prod.fst := by
          rcases List.mem_cons.mp h with heq | hrest
          · exact absurd heq.symm hk
          · exact hrest
        simp [assocSet, hk, ih hmem hn.2]

theorem assocErase_eq_filter {k : κ} {items : List (κ × α)}
    (hn : (items.map Prod.fst).Nodup) :
    assocErase k items = items.filter (fun item => item.1 ≠ k) := by
  induction items with
  | nil => rfl
  | cons item rest ih =>
      obtain ⟨j, b⟩ := item
      simp only [List.map_cons, List.nodup_cons] at hn
      by_cases hj : j = k
      · subst hj
        have hkeep : ∀ item ∈ rest, item.1 ≠ j := by
          rintro ⟨i, c⟩ hmem rfl
          exact hn.1 (List.mem_map_of_mem hmem)
        have hall : rest.filter (fun item => item.1 ≠ j) = rest :=
          List.filter_eq_self.mpr (by simpa using hkeep)
        simpa [assocErase] using hall.symm
      · simp [assocErase, hj, ih hn.2]

theorem assocErase_nodup (k : κ) {items : List (κ × α)}
    (h : (items.map Prod.fst).Nodup) : ((assocErase k items).map Prod.fst).Nodup := by
  rw [assocErase_eq_filter h]
  exact h.sublist (List.Sublist.map Prod.fst List.filter_sublist)

theorem assocGet_assocErase {k k' : κ} {items : List (κ × α)}
    (hn : (items.map Prod.fst).Nodup) :
    assocGet k' (assocErase k items) = if k' = k then none else assocGet k' items := by
  induction items with
  | nil => simp [assocErase, assocGet]
  | cons item rest ih =>
      obtain ⟨j, b⟩ := item
      simp only [List.map_cons, List.nodup_cons] at hn
      by_cases hj : j = k
      · subst hj
        by_cases h : k' = j
        · subst h
          simpa [assocErase] using (assocGet_eq_none_iff k' rest).mpr hn.1
        · have h' : ¬ j = k' := fun e => h e.symm
          simp [assocErase, assocGet, h, h']
      · by_cases h : k' = k
        · subst h
          simp [assocErase, assocGet, hj, ih hn.2]
        · simp [assocErase, assocGet, hj, ih hn.2, h]

end Raw

/-- A dictionary with its items in insertion order and no repeated key. -/
structure Dict (κ : Type u) (α : Type v) where
  items : List (κ × α)
  nodup : (items.map Prod.fst).Nodup

namespace Dict
variable {κ : Type u} {α : Type v}

instance [DecidableEq κ] [DecidableEq α] : DecidableEq (Dict κ α) := fun d e =>
  decidable_of_iff (d.items = e.items) (by
    obtain ⟨items, hd⟩ := d
    obtain ⟨items', he⟩ := e
    simp)

def empty : Dict κ α := ⟨[], List.nodup_nil⟩

def keys (d : Dict κ α) : List κ := d.items.map Prod.fst

def values (d : Dict κ α) : List α := d.items.map Prod.snd

def size (d : Dict κ α) : Nat := d.items.length

@[ext]
theorem ext {d e : Dict κ α} (h : d.items = e.items) : d = e := by
  obtain ⟨items, hd⟩ := d
  obtain ⟨items', he⟩ := e
  simp only at h
  subst h
  rfl

/-- Remove the oldest items. -/
def drop (d : Dict κ α) (n : Nat) : Dict κ α :=
  ⟨d.items.drop n, d.nodup.sublist (List.Sublist.map Prod.fst (List.drop_sublist n d.items))⟩

variable [DecidableEq κ]

def get? (d : Dict κ α) (k : κ) : Option α := assocGet k d.items

def set (d : Dict κ α) (k : κ) (a : α) : Dict κ α :=
  ⟨assocSet k a d.items, assocSet_nodup k a d.nodup⟩

def erase (d : Dict κ α) (k : κ) : Dict κ α :=
  ⟨assocErase k d.items, assocErase_nodup k d.nodup⟩

@[simp]
theorem get?_empty (k : κ) : (empty : Dict κ α).get? k = none := rfl

theorem get?_set (d : Dict κ α) (k k' : κ) (a : α) :
    (d.set k a).get? k' = if k' = k then some a else d.get? k' :=
  assocGet_assocSet k k' a d.items

@[simp]
theorem get?_set_self (d : Dict κ α) (k : κ) (a : α) : (d.set k a).get? k = some a := by
  simp [get?_set]

theorem get?_set_of_ne (d : Dict κ α) {k k' : κ} (a : α) (h : k' ≠ k) :
    (d.set k a).get? k' = d.get? k' := by
  simp [get?_set, h]

@[simp]
theorem set_set (d : Dict κ α) (k : κ) (a b : α) : (d.set k a).set k b = d.set k b :=
  Dict.ext (assocSet_assocSet k a b d.items)

theorem set_of_get? {d : Dict κ α} {k : κ} {a : α} (h : d.get? k = some a) : d.set k a = d :=
  Dict.ext (assocSet_of_get h)

theorem get?_erase (d : Dict κ α) (k k' : κ) :
    (d.erase k).get? k' = if k' = k then none else d.get? k' :=
  assocGet_assocErase d.nodup

theorem get?_eq_none_iff (d : Dict κ α) (k : κ) : d.get? k = none ↔ k ∉ d.keys :=
  assocGet_eq_none_iff k d.items

theorem get?_eq_some_iff (d : Dict κ α) (k : κ) (a : α) :
    d.get? k = some a ↔ (k, a) ∈ d.items :=
  ⟨assocGet_mem, assocGet_of_mem d.nodup⟩

theorem get?_of_drop {d : Dict κ α} {n : Nat} {k : κ} {a : α}
    (h : (d.drop n).get? k = some a) : d.get? k = some a :=
  (d.get?_eq_some_iff k a).mpr (List.mem_of_mem_drop (((d.drop n).get?_eq_some_iff k a).mp h))

theorem mem_keys_iff (d : Dict κ α) (k : κ) : k ∈ d.keys ↔ ∃ a, d.get? k = some a := by
  rw [← not_iff_not, ← get?_eq_none_iff, Option.eq_none_iff_forall_ne_some]
  simp

theorem mem_keys_of_get? {d : Dict κ α} {k : κ} {a : α} (h : d.get? k = some a) :
    k ∈ d.keys := (d.mem_keys_iff k).mpr ⟨a, h⟩

theorem mem_values_iff (d : Dict κ α) (a : α) : a ∈ d.values ↔ ∃ k, d.get? k = some a := by
  simp [values, get?_eq_some_iff]

/-- Setting a key that is there keeps its place. -/
theorem set_items {d : Dict κ α} {k : κ} (h : k ∈ d.keys) (a : α) :
    (d.set k a).items = d.items.map fun item => if item.1 = k then (k, a) else item :=
  assocSet_eq_map h d.nodup a

theorem keys_set {d : Dict κ α} {k : κ} (h : k ∈ d.keys) (a : α) : (d.set k a).keys = d.keys :=
  assocSet_keys_of_mem a h

theorem keys_set_of_none {d : Dict κ α} {k : κ} (h : d.get? k = none) (a : α) :
    (d.set k a).keys = d.keys ++ [k] := by
  have hitems : (d.set k a).items = d.items ++ [(k, a)] :=
    assocSet_of_not_mem a ((get?_eq_none_iff d k).mp h)
  simp [keys, hitems]

theorem erase_items (d : Dict κ α) (k : κ) :
    (d.erase k).items = d.items.filter fun item => decide (item.1 ≠ k) :=
  assocErase_eq_filter d.nodup

theorem erase_of_not_mem {d : Dict κ α} {k : κ} (h : k ∉ d.keys) : d.erase k = d := by
  refine Dict.ext ?_
  rw [erase_items, List.filter_eq_self]
  intro item hitem
  have hne : item.1 ≠ k := fun heq => h (heq ▸ List.mem_map_of_mem hitem)
  simpa using hne

/-- The item of a key, and what remains when it is taken out. -/
theorem split_of_get? {d : Dict κ α} {k : κ} {a : α} (h : d.get? k = some a) :
    ∃ pre post, d.items = pre ++ (k, a) :: post ∧ (d.erase k).items = pre ++ post := by
  obtain ⟨pre, post, hsplit⟩ := List.append_of_mem ((get?_eq_some_iff d k a).mp h)
  have hnodup := d.nodup
  rw [hsplit] at hnodup
  simp only [List.map_append, List.map_cons] at hnodup
  obtain ⟨-, htail, hdisjoint⟩ := List.nodup_append.mp hnodup
  have hhead := (List.nodup_cons.mp htail).1
  refine ⟨pre, post, hsplit, ?_⟩
  have hpre : ∀ item ∈ pre, item.1 ≠ k := fun item hitem =>
    hdisjoint _ (List.mem_map_of_mem hitem) k List.mem_cons_self
  have hpost : ∀ item ∈ post, item.1 ≠ k := fun item hitem heq =>
    hhead (heq ▸ List.mem_map_of_mem hitem)
  rw [erase_items, hsplit, List.filter_append, List.filter_cons_of_neg (by simp),
    List.filter_eq_self.mpr (by simpa using hpre), List.filter_eq_self.mpr (by simpa using hpost)]

theorem values_perm_erase {d : Dict κ α} {k : κ} {a : α} (h : d.get? k = some a) :
    d.values.Perm (a :: (d.erase k).values) := by
  obtain ⟨pre, post, hitems, herase⟩ := split_of_get? h
  rw [values, values, hitems, herase]
  simp [List.perm_middle]

theorem values_set_of_none {d : Dict κ α} {k : κ} (h : d.get? k = none) (a : α) :
    (d.set k a).values = d.values ++ [a] := by
  have hitems : (d.set k a).items = d.items ++ [(k, a)] :=
    assocSet_of_not_mem a ((get?_eq_none_iff d k).mp h)
  simp [values, hitems]

theorem keys_erase (d : Dict κ α) (k : κ) :
    (d.erase k).keys = d.keys.filter fun key => decide (key ≠ k) := by
  rw [keys, erase_items, keys, List.filter_map]
  rfl

theorem set_comm {d : Dict κ α} {k k' : κ} (hne : k ≠ k') (h : k ∈ d.keys) (h' : k' ∈ d.keys)
    (a b : α) : (d.set k a).set k' b = (d.set k' b).set k a := by
  refine Dict.ext ?_
  rw [set_items (by rwa [keys_set h]), set_items h, set_items (by rwa [keys_set h']), set_items h',
    List.map_map, List.map_map]
  refine List.map_congr_left fun item _ => ?_
  simp only [Function.comp]
  by_cases hk : item.1 = k
  · simp [hk, hne]
  · by_cases hk' : item.1 = k' <;> simp [hk, hk', hne.symm]

theorem set_erase_comm {d : Dict κ α} {k k' : κ} (hne : k ≠ k') (h : k ∈ d.keys) (a : α) :
    (d.set k a).erase k' = (d.erase k').set k a := by
  have hkept : k ∈ (d.erase k').keys := by
    rw [keys_erase]
    exact List.mem_filter.mpr ⟨h, by simpa using hne⟩
  refine Dict.ext ?_
  rw [erase_items, set_items h, set_items hkept, erase_items, List.filter_map]
  congr 1
  refine List.filter_congr fun item _ => ?_
  by_cases hk : item.1 = k <;> simp [hk]

theorem erase_comm (d : Dict κ α) (k k' : κ) : (d.erase k).erase k' = (d.erase k').erase k := by
  refine Dict.ext ?_
  rw [erase_items, erase_items, erase_items, erase_items, List.filter_filter, List.filter_filter]
  refine List.filter_congr fun item _ => ?_
  exact Bool.and_comm _ _

end Dict
end Lib
