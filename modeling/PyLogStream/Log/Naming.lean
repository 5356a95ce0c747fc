import PyLogStream.Log.Segment

/-!
Cache keys and file names of segments. Within one topic the base offset
determines both; across topics neither is guaranteed: the key is the topic name
followed directly by the decimal base offset, and the topic name is used
verbatim as part of a path.
-/

namespace PyLogStream
open Lib

def segmentKey (topic : String) (baseOffset : Int) : String := topic ++ toString baseOffset

theorem SegmentMeta.getId_eq (m : SegmentMeta) : m.getId = segmentKey m.topic m.baseOffset := rfl

theorem segmentKey_inj {topic : String} {a b : Nat}
    (h : segmentKey topic a = segmentKey topic b) : a = b := by
  have hchars : topic.toList ++ (toString (a : Int)).toList =
      topic.toList ++ (toString (b : Int)).toList := by
    simpa [segmentKey] using congrArg String.toList h
  have hdigits : Nat.toDigits 10 a = Nat.toDigits 10 b := by
    have hstr : ∀ n : Nat, (toString (n : Int)).toList = Nat.toDigits 10 n := by
      intro n
      change (toString n).toList = _
      simp
    simpa only [hstr] using List.append_cancel_left hchars
  simpa using congrArg (fun ds => Nat.ofDigitChars 10 ds 0) hdigits

theorem pad20_toList (n : Nat) :
    (pad20 n).toList = List.replicate (20 - (Nat.toDigits 10 n).length) '0' ++
      Nat.toDigits 10 n := by
  have h : ¬ ((n : Int) < 0) := by omega
  simp [pad20, h, List.leftpad]

theorem pad20_inj {a b : Nat} (h : pad20 a = pad20 b) : a = b := by
  have hchars := congrArg (fun s => Nat.ofDigitChars 10 s.toList 0) h
  simpa [pad20_toList, Nat.ofDigitChars_append, Nat.ofDigitChars_replicate_zero] using hchars

theorem pad20_no_slash (n : Nat) : '/' ∉ (pad20 n).toList := by
  rw [pad20_toList]
  intro h
  rcases List.mem_append.mp h with hpad | hdigit
  · simp at hpad
  · have := Nat.isDigit_of_mem_toDigits (by decide) (by decide) hdigit
    exact absurd this (by decide)

/-- The last component of a path that is an ordinary file name is added to the
directory named by the rest. -/
theorem resolve_append_name (dir name : String) (hdir : dir ≠ "")
    (hslash : '/' ∉ name.toList) (hempty : name ≠ "") (hdot : name ≠ ".")
    (hdots : name ≠ "..") :
    resolve (dir ++ "/" ++ name) = ((resolve dir).1, (resolve dir).2 ++ [name]) := by
  have hchars : (dir ++ "/" ++ name).toList = dir.toList ++ '/' :: name.toList := by
    simp
  have hhead : (dir.toList ++ '/' :: name.toList).head? = dir.toList.head? := by
    cases hd : dir.toList with
    | nil => exact absurd (String.toList_eq_nil_iff.mp hd) hdir
    | cons c cs => rfl
  have hsplit : (dir.toList ++ '/' :: name.toList).splitOn '/' =
      dir.toList.splitOn '/' ++ [name.toList] := by
    rw [List.splitOn_append_cons_of_beq _ _ (by simp), List.splitOn_eq_singleton hslash]
  simp only [resolve, hchars, hhead, hsplit, List.map_append, List.foldl_append,
    List.map_cons, List.map_nil, List.foldl_cons, List.foldl_nil, String.ofList_toList]
  simp [enterDirectory, hempty, hdot, hdots]

theorem resolve_segmentPath (logDir topic : String) (n : Nat) :
    resolve (segmentPath logDir topic n) =
      ((resolve (logDir ++ "/" ++ topic)).1,
        (resolve (logDir ++ "/" ++ topic)).2 ++ [pad20 n ++ ".log"]) := by
  have hlen : 4 ≤ (pad20 n ++ ".log").toList.length := by simp
  apply resolve_append_name
  · intro h
    have := congrArg String.toList h
    simp at this
  · intro h
    rw [String.toList_append, List.mem_append] at h
    rcases h with hpad | hext
    · exact pad20_no_slash n hpad
    · exact absurd hext (by decide)
  all_goals
    intro h
    rw [h] at hlen
    exact absurd hlen (by decide)

theorem resolve_segmentPath_inj {logDir topic : String} {a b : Nat}
    (h : resolve (segmentPath logDir topic a) = resolve (segmentPath logDir topic b)) :
    a = b := by
  simp only [resolve_segmentPath, Prod.mk.injEq, true_and, List.append_cancel_left_eq,
    List.cons.injEq, and_true] at h
  have hchars := congrArg String.toList h
  simp only [String.toList_append] at hchars
  exact pad20_inj (String.toList_injective (List.append_cancel_right hchars))

end PyLogStream
