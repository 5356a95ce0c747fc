import Mathlib.Data.List.Induction
import Mathlib.Tactic.Common

/-!
Least recently used. The keys of a cache stand in the order of their last use, a new key
goes to the end, and what does not fit leaves at the front. A key that is used stays for
as long as fewer other keys than the cache has room for have come in behind it.
-/

namespace Lib

universe u

inductive CacheOp (κ : Type u) where
  | use (key : κ)
  /-- The key leaves the cache before it has to. -/
  | evict (key : κ)
  deriving DecidableEq

section
variable {κ : Type u}

def CacheOp.key : CacheOp κ → κ
  | .use key | .evict key => key

/-- The last `capacity` of the keys. -/
def newest (capacity : Nat) (keys : List κ) : List κ := keys.drop (keys.length - capacity)

theorem newest_isSuffix (capacity : Nat) (keys : List κ) : newest capacity keys <:+ keys :=
  List.drop_suffix _ keys

theorem newest_length_le (capacity : Nat) (keys : List κ) :
    (newest capacity keys).length ≤ capacity := by
  rw [newest, List.length_drop]
  omega

/-- A suffix that fits stays, and what is before it loses keys at the front. -/
theorem newest_append (capacity : Nat) (front back : List κ) (h : back.length ≤ capacity) :
    ∃ front', front' <:+ front ∧ newest capacity (front ++ back) = front' ++ back := by
  refine ⟨front.drop (front.length + back.length - capacity), List.drop_suffix _ _, ?_⟩
  rw [newest, List.length_append, List.drop_append_of_le_length (by omega)]

/-- What is before a suffix that fills the cache leaves it. -/
theorem newest_append_of_le {capacity : Nat} {front back : List κ} (h : capacity ≤ back.length) :
    newest capacity (front ++ back) = newest capacity back := by
  rw [newest, newest, List.length_append, List.drop_append, List.drop_eq_nil_of_le (by omega),
    List.nil_append]
  congr 1
  omega

variable [DecidableEq κ]

/-- The other keys. -/
def without (keys : List κ) (key : κ) : List κ := keys.filter fun k => decide (k ≠ key)

/-- The keys in the order of their last use. -/
def order (keys : List κ) : CacheOp κ → List κ
  | .use key => without keys key ++ [key]
  | .evict key => without keys key

/-- The same in a cache. -/
def lru (capacity : Nat) (keys : List κ) : CacheOp κ → List κ
  | .use key => newest capacity (without keys key ++ [key])
  | .evict key => without keys key

/-- Every key that was used and not evicted since, in the order of last use. -/
def recency (ops : List (CacheOp κ)) : List κ := ops.foldl order []

/-- The keys in a cache that was empty. -/
def cached (capacity : Nat) (ops : List (CacheOp κ)) : List κ := ops.foldl (lru capacity) []

theorem mem_without {keys : List κ} {key k : κ} : k ∈ without keys key ↔ k ∈ keys ∧ k ≠ key := by
  rw [without, List.mem_filter, decide_eq_true_eq]

theorem without_append (front back : List κ) (key : κ) :
    without (front ++ back) key = without front key ++ without back key :=
  List.filter_append ..

theorem without_cons_of_ne {k key : κ} (h : k ≠ key) (keys : List κ) :
    without (k :: keys) key = k :: without keys key :=
  List.filter_cons_of_pos (by simpa using h)

theorem without_isSuffix {keys keys' : List κ} (h : keys <:+ keys') (key : κ) :
    without keys key <:+ without keys' key := by
  obtain ⟨front, rfl⟩ := h
  exact ⟨without front key, (without_append front keys key).symm⟩

theorem cached_snoc (capacity : Nat) (ops : List (CacheOp κ)) (op : CacheOp κ) :
    cached capacity (ops ++ [op]) = lru capacity (cached capacity ops) op :=
  List.foldl_append ..

theorem recency_snoc (ops : List (CacheOp κ)) (op : CacheOp κ) :
    recency (ops ++ [op]) = order (recency ops) op := List.foldl_append ..

theorem mem_order {keys : List κ} {op : CacheOp κ} {k : κ} (h : k ≠ op.key) :
    k ∈ order keys op ↔ k ∈ keys := by
  cases op with
  | use key =>
      rw [order, List.mem_append, mem_without, List.mem_singleton]
      exact ⟨fun hk => (hk.resolve_right h).1, fun hk => Or.inl ⟨hk, h⟩⟩
  | evict key => exact mem_without.trans (and_iff_left h)

theorem lru_isSuffix {capacity : Nat} {keys keys' : List κ} (h : keys <:+ keys') (op : CacheOp κ) :
    lru capacity keys op <:+ order keys' op := by
  cases op with
  | use key =>
      obtain ⟨front, hfront⟩ := without_isSuffix h key
      refine (newest_isSuffix capacity _).trans ⟨front, ?_⟩
      rw [order, ← hfront, List.append_assoc]
  | evict key => exact without_isSuffix h key

theorem lru_subset {capacity : Nat} {keys : List κ} {op : CacheOp κ} {k : κ} (h : k ≠ op.key)
    (hk : k ∈ lru capacity keys op) : k ∈ keys :=
  (mem_order h).mp ((lru_isSuffix List.suffix_rfl op).subset hk)

theorem not_mem_lru_evict (capacity : Nat) (keys : List κ) (key : κ) :
    key ∉ lru capacity keys (.evict key) := fun h => (mem_without.mp h).2 rfl

/-- The cache has the keys used last, in the order of their last use. -/
theorem cached_isSuffix (capacity : Nat) (ops : List (CacheOp κ)) :
    cached capacity ops <:+ recency ops := by
  induction ops using List.reverseRecOn with
  | nil => exact List.suffix_rfl
  | append_singleton ops op ih =>
      rw [cached_snoc, recency_snoc]
      exact lru_isSuffix ih op

theorem cached_length_le (capacity : Nat) (ops : List (CacheOp κ)) :
    (cached capacity ops).length ≤ capacity := by
  induction ops using List.reverseRecOn with
  | nil => exact Nat.zero_le _
  | append_singleton ops op ih =>
      rw [cached_snoc]
      cases op with
      | use key => exact newest_length_le capacity _
      | evict key => exact Nat.le_trans (List.length_filter_le _ _) ih

/-- Nothing is done with the key. -/
def Spared (ops : List (CacheOp κ)) (key : κ) : Prop := ∀ op ∈ ops, op.key ≠ key

theorem Spared.not_mem_recency {ops : List (CacheOp κ)} {key : κ} (h : Spared ops key) :
    key ∉ recency ops := by
  induction ops using List.reverseRecOn with
  | nil => exact List.not_mem_nil
  | append_singleton ops op ih =>
      have hop : key ≠ op.key := (h op (by simp)).symm
      rw [recency_snoc, mem_order hop]
      exact ih fun op' hop' => h op' (List.mem_append_left _ hop')

theorem Spared.not_mem_cached {early late : List (CacheOp κ)} {key : κ} {capacity : Nat}
    (h : Spared late key) (hnot : key ∉ cached capacity early) :
    key ∉ cached capacity (early ++ late) := by
  induction late using List.reverseRecOn with
  | nil =>
      rw [List.append_nil]
      exact hnot
  | append_singleton late op ih =>
      rw [← List.append_assoc, cached_snoc]
      intro hmem
      exact ih (fun op' hop' => h op' (List.mem_append_left _ hop'))
        (lru_subset (h op (by simp)).symm hmem)

/-- Fewer keys than fit have ever been behind the key. -/
def Fits (capacity : Nat) (late : List (CacheOp κ)) : Prop :=
  ∀ pre, pre <+: late → (recency pre).length < capacity

theorem Fits.of_snoc {capacity : Nat} {late : List (CacheOp κ)} {op : CacheOp κ}
    (h : Fits capacity (late ++ [op])) : Fits capacity late :=
  fun pre hpre => h pre (hpre.trans (List.prefix_append _ _))

theorem Fits.snoc {capacity : Nat} {late : List (CacheOp κ)} {op : CacheOp κ}
    (h : Fits capacity late) (hop : (recency (late ++ [op])).length < capacity) :
    Fits capacity (late ++ [op]) := by
  intro pre hpre
  rcases List.prefix_concat_iff.mp hpre with heq | hpre
  · rw [heq]
    simpa using hop
  · exact h pre hpre

/-- Behind a key that fits stand the keys used since. -/
theorem cached_behind {capacity : Nat} (early : List (CacheOp κ)) {key : κ}
    {late : List (CacheOp κ)} (spared : Spared late key) (fits : Fits capacity late) :
    ∃ front, key ∉ front ∧
      cached capacity (early ++ [.use key] ++ late) = front ++ key :: recency late := by
  induction late using List.reverseRecOn with
  | nil =>
      have hroom : 0 < capacity := fits [] (List.prefix_refl _)
      obtain ⟨front, hfront, heq⟩ := newest_append capacity (without (cached capacity early) key) [key] hroom
      refine ⟨front, fun hmem => (mem_without.mp (hfront.subset hmem)).2 rfl, ?_⟩
      rw [List.append_nil, cached_snoc, lru, heq]
      rfl
  | append_singleton late op ih =>
      obtain ⟨front, hnot, hcached⟩ :=
        ih (fun op' hop' => spared op' (List.mem_append_left _ hop')) fits.of_snoc
      have hne : key ≠ op.key := (spared op (by simp)).symm
      have hlen := fits (late ++ [op]) (List.prefix_refl _)
      rw [← List.append_assoc, cached_snoc, hcached, recency_snoc]
      rw [recency_snoc] at hlen
      cases op with
      | use other =>
          rw [order, List.length_append, List.length_singleton] at hlen
          obtain ⟨front', hfront', heq⟩ := newest_append capacity (without front other)
            (key :: (without (recency late) other ++ [other]))
            (by simp only [List.length_cons, List.length_append, List.length_nil]; omega)
          refine ⟨front', fun hmem => hnot (mem_without.mp (hfront'.subset hmem)).1, ?_⟩
          have hother : key ≠ other := hne
          rw [lru, without_append, without_cons_of_ne hother, List.append_assoc, List.cons_append,
            heq]
          rfl
      | evict other =>
          refine ⟨without front other, fun hmem => hnot (mem_without.mp hmem).1, ?_⟩
          have hother : key ≠ other := hne
          rw [lru, without_append, without_cons_of_ne hother]
          rfl

/-- A key that does not fit is pushed out. -/
theorem not_cached_of_not_fits {capacity : Nat} (early : List (CacheOp κ)) {key : κ}
    {late : List (CacheOp κ)} (spared : Spared late key) (not_fits : ¬ Fits capacity late) :
    key ∉ cached capacity (early ++ [.use key] ++ late) := by
  induction late using List.reverseRecOn with
  | nil =>
      have hroom : capacity = 0 := by
        by_contra hne
        refine not_fits fun pre hpre => ?_
        rw [List.prefix_nil.mp hpre]
        exact Nat.pos_of_ne_zero hne
      have hlen := cached_length_le capacity (early ++ [.use key] ++ [])
      rw [hroom, Nat.le_zero] at hlen
      rw [hroom, List.length_eq_zero_iff.mp hlen]
      exact List.not_mem_nil
  | append_singleton late op ih =>
      have hspared : Spared late key := fun op' hop' => spared op' (List.mem_append_left _ hop')
      have hne : key ≠ op.key := (spared op (by simp)).symm
      by_cases fits : Fits capacity late
      · obtain ⟨front, hnot, hcached⟩ := cached_behind early hspared fits
        have hlen : capacity ≤ (recency (late ++ [op])).length :=
          Nat.le_of_not_lt fun hlt => not_fits (fits.snoc hlt)
        rw [recency_snoc] at hlen
        rw [← List.append_assoc, cached_snoc, hcached]
        cases op with
        | use other =>
            have hother : key ≠ other := hne
            rw [order] at hlen
            have heq : without front other ++ key :: without (recency late) other ++ [other] =
                (without front other ++ [key]) ++ (without (recency late) other ++ [other]) := by
              simp
            rw [lru, without_append, without_cons_of_ne hother, heq, newest_append_of_le hlen]
            intro hmem
            rcases List.mem_append.mp ((newest_isSuffix capacity _).subset hmem) with hold | hnew
            · exact hspared.not_mem_recency (mem_without.mp hold).1
            · exact hother (List.mem_singleton.mp hnew)
        | evict other =>
            -- an eviction leaves no more keys behind this one
            have hfew := fits late (List.prefix_refl _)
            have hle : (without (recency late) other).length ≤ (recency late).length :=
              List.length_filter_le _ _
            rw [order] at hlen
            omega
      · rw [← List.append_assoc, cached_snoc]
        exact fun hmem => ih hspared fits (lru_subset hne hmem)

theorem split_at_last (ops : List (CacheOp κ)) (key : κ) :
    Spared ops key ∨ ∃ early op late, ops = early ++ op :: late ∧ op.key = key ∧
      Spared late key := by
  induction ops using List.reverseRecOn with
  | nil => exact Or.inl fun op hop => absurd hop List.not_mem_nil
  | append_singleton ops op ih =>
      by_cases hkey : op.key = key
      · exact Or.inr ⟨ops, op, [], rfl, hkey, fun op' hop' => absurd hop' List.not_mem_nil⟩
      · have hsnoc : ∀ {late}, Spared late key → Spared (late ++ [op]) key := by
          intro late hlate op' hop'
          rcases List.mem_append.mp hop' with hold | hnew
          · exact hlate op' hold
          · rw [List.mem_singleton.mp hnew]
            exact hkey
        rcases ih with hspared | ⟨early, last, late, rfl, hlast, hlate⟩
        · exact Or.inl (hsnoc hspared)
        · exact Or.inr ⟨early, last, late ++ [op], by simp, hlast, hsnoc hlate⟩

/-- A key is in the cache just when it was used, and since then neither evicted nor followed
by as many other keys as the cache has room for. -/
theorem mem_cached_iff (capacity : Nat) (ops : List (CacheOp κ)) (key : κ) :
    key ∈ cached capacity ops ↔ ∃ early late, ops = early ++ .use key :: late ∧
      Spared late key ∧ Fits capacity late := by
  constructor
  · intro hmem
    rcases split_at_last ops key with hspared | ⟨early, op, late, rfl, rfl, hspared⟩
    · exact absurd ((cached_isSuffix capacity ops).subset hmem) hspared.not_mem_recency
    · rw [List.append_cons] at hmem
      cases op with
      | use key =>
          refine ⟨early, late, rfl, hspared, ?_⟩
          by_contra not_fits
          exact not_cached_of_not_fits early hspared not_fits hmem
      | evict key =>
          refine absurd hmem (hspared.not_mem_cached ?_)
          rw [cached_snoc]
          exact not_mem_lru_evict capacity _ key
  · rintro ⟨early, late, rfl, hspared, fits⟩
    obtain ⟨front, -, heq⟩ := cached_behind early hspared fits
    rw [List.append_cons, heq]
    exact List.mem_append_right _ List.mem_cons_self

end
end Lib
