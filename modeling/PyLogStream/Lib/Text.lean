import PyLogStream.Lib.Bytes

/-!
Text as a dynamic language has it: UTF-8 in both directions, splitting at a
separator with a bound on the number of cuts, white space, and decimal numerals.
Texts are lists of characters; what is not UTF-8 has no text.
-/

namespace Lib

abbrev Text := List Char

def encodeUtf8 (t : Text) : Bytes := t.flatMap String.utf8EncodeChar

def decodeUtf8 (b : Bytes) : Option Text := b.toByteArray.utf8Decode?.map Array.toList

theorem encodeUtf8_append (t u : Text) : encodeUtf8 (t ++ u) = encodeUtf8 t ++ encodeUtf8 u :=
  List.flatMap_append

theorem toByteArray_encodeUtf8 (t : Text) : (encodeUtf8 t).toByteArray = t.utf8Encode := rfl

theorem toByteArray_injective {a b : Bytes} (h : a.toByteArray = b.toByteArray) : a = b := by
  have hdata := congrArg (fun bytes : ByteArray => bytes.data.toList) h
  simpa using hdata

theorem decodeUtf8_encodeUtf8 (t : Text) : decodeUtf8 (encodeUtf8 t) = some t := by
  simp [decodeUtf8, toByteArray_encodeUtf8]

theorem decodeUtf8_eq_some_iff {b : Bytes} {t : Text} : decodeUtf8 b = some t ↔ b = encodeUtf8 t := by
  constructor
  · intro h
    obtain ⟨chars, hchars, rfl⟩ := Option.map_eq_some_iff.mp h
    have hsome : b.toByteArray.utf8Decode?.isSome = true := by rw [hchars]; rfl
    have hencode := ByteArray.utf8Encode_get_utf8Decode? (h := hsome)
    simp only [hchars, Option.get_some] at hencode
    exact toByteArray_injective hencode.symm
  · rintro rfl
    exact decodeUtf8_encodeUtf8 t

theorem encodeUtf8_ne_nil {t : Text} (h : t ≠ []) : encodeUtf8 t ≠ [] := by
  intro hnil
  have hdecode := decodeUtf8_eq_some_iff.mpr hnil.symm
  have hempty : decodeUtf8 [] = some [] := decodeUtf8_encodeUtf8 []
  rw [hempty] at hdecode
  exact h (Option.some.inj hdecode).symm

/-- A text in front of some bytes is decoded before them. -/
theorem decodeUtf8_append (t : Text) (b : Bytes) :
    decodeUtf8 (encodeUtf8 t ++ b) = (decodeUtf8 b).map (t ++ ·) := by
  cases hb : decodeUtf8 b with
  | some u =>
      rw [decodeUtf8_eq_some_iff.mp hb, ← encodeUtf8_append, decodeUtf8_encodeUtf8]
      rfl
  | none =>
      cases h : decodeUtf8 (encodeUtf8 t ++ b) with
      | none => rfl
      | some v =>
          exfalso
          have hvalid : ∀ t : Text, (encodeUtf8 t ++ b).toByteArray.IsValidUTF8 →
              b.toByteArray.IsValidUTF8 := by
            intro t
            induction t with
            | nil => exact id
            | cons c t ih =>
                intro hcons
                refine ih (ByteArray.isValidUTF8_utf8Encode_singleton_append_iff (c := c) |>.mp ?_)
                have hsplit : encodeUtf8 (c :: t) ++ b = encodeUtf8 [c] ++ (encodeUtf8 t ++ b) := by
                  rw [← List.append_assoc, ← encodeUtf8_append, List.singleton_append]
                rw [hsplit, List.toByteArray_append] at hcons
                exact hcons
          have hsome : (encodeUtf8 t ++ b).toByteArray.utf8Decode?.isSome = true := by
            simp only [decodeUtf8] at h
            obtain ⟨chars, hchars, -⟩ := Option.map_eq_some_iff.mp h
            rw [hchars]
            rfl
          have hrest := hvalid t (ByteArray.isSome_utf8Decode?_iff.mp hsome)
          rw [← ByteArray.isSome_utf8Decode?_iff] at hrest
          simp only [decodeUtf8, Option.map_eq_none_iff] at hb
          rw [hb] at hrest
          cases hrest

theorem encodeUtf8_cons_ascii {c : Char} (h : c.toNat < 128) (t : Text) :
    encodeUtf8 (c :: t) = UInt8.ofNat c.toNat :: encodeUtf8 t := by
  have hsize : c.utf8Size = 1 := by
    refine Char.utf8Size_eq_one_iff.mpr (UInt32.le_iff_toNat_le.mpr ?_)
    exact Nat.le_of_lt_succ h
  rw [encodeUtf8, List.flatMap_cons, String.utf8EncodeChar_eq_singleton hsize]
  rfl

theorem length_encodeUtf8_cons (c : Char) (t : Text) :
    (encodeUtf8 (c :: t)).length = c.utf8Size + (encodeUtf8 t).length := by
  simp [encodeUtf8]

theorem le_length_encodeUtf8 (t : Text) : t.length ≤ (encodeUtf8 t).length := by
  induction t with
  | nil => exact Nat.zero_le _
  | cons c t ih =>
      have hpos := Char.utf8Size_pos c
      rw [length_encodeUtf8_cons, List.length_cons]
      omega

/-- A text has as many bytes as characters exactly when it is ASCII. -/
theorem length_encodeUtf8_eq_iff {t : Text} :
    (encodeUtf8 t).length = t.length ↔ ∀ c ∈ t, c.toNat < 128 := by
  induction t with
  | nil => simp [encodeUtf8]
  | cons c t ih =>
      have hpos := Char.utf8Size_pos c
      have hle := le_length_encodeUtf8 t
      have hone : c.utf8Size = 1 ↔ c.toNat < 128 := by
        rw [Char.utf8Size_eq_one_iff, UInt32.le_iff_toNat_le]
        exact Nat.lt_succ_iff.symm
      rw [List.forall_mem_cons, ← ih, ← hone, length_encodeUtf8_cons, List.length_cons]
      omega

/-- An ASCII text is read off its bytes one by one. -/
theorem map_ofNat_encodeUtf8 {t : Text} (h : ∀ c ∈ t, c.toNat < 128) :
    (encodeUtf8 t).map (fun b => Char.ofNat b.toNat) = t := by
  induction t with
  | nil => rfl
  | cons c t ih =>
      have hc := h c List.mem_cons_self
      have hbyte : (UInt8.ofNat c.toNat).toNat = c.toNat := by
        simp only [UInt8.toNat_ofNat']
        omega
      rw [encodeUtf8_cons_ascii hc, List.map_cons, hbyte, Char.ofNat_toNat,
        ih fun c' h' => h c' (List.mem_cons_of_mem _ h')]

section
variable {α : Type} [DecidableEq α]

/-- The parts before and after the first separator. -/
def cut (sep : α) : List α → Option (List α × List α)
  | [] => none
  | x :: xs => if x = sep then some ([], xs) else (cut sep xs).map fun p => (x :: p.1, p.2)

/-- Split at a separator, at most a given number of times, from the left. -/
def splitMax (sep : α) : Nat → List α → List (List α)
  | 0, xs => [xs]
  | n + 1, xs =>
    match cut sep xs with
    | none => [xs]
    | some (before, after) => before :: splitMax sep n after

theorem cut_append {sep : α} {xs : List α} (h : sep ∉ xs) (ys : List α) :
    cut sep (xs ++ sep :: ys) = some (xs, ys) := by
  induction xs with
  | nil => simp [cut]
  | cons x xs ih =>
      obtain ⟨hx, hxs⟩ := not_or.mp (fun hor => h (List.mem_cons.mpr hor))
      simp [cut, Ne.symm hx, ih hxs]

theorem splitMax_append {sep : α} {xs : List α} (h : sep ∉ xs) (n : Nat) (ys : List α) :
    splitMax sep (n + 1) (xs ++ sep :: ys) = xs :: splitMax sep n ys := by
  simp only [splitMax, cut_append h]

theorem splitMax_ne_nil (sep : α) (n : Nat) (xs : List α) : splitMax sep n xs ≠ [] := by
  cases n with
  | zero => exact List.cons_ne_nil _ _
  | succ n =>
      rw [splitMax]
      split <;> exact List.cons_ne_nil _ _

/-- Fields behind separators are split back; only the last may contain one. -/
theorem splitMax_fields {sep : α} {x : List α} {front : List (List α)} (hx : sep ∉ x)
    (h : ∀ f ∈ front, sep ∉ f) (last : List α) :
    splitMax sep (front.length + 1) (x ++ (front ++ [last]).flatMap (sep :: ·)) =
      x :: (front ++ [last]) := by
  induction front generalizing x with
  | nil => simpa [splitMax] using splitMax_append hx 0 last
  | cons f front ih =>
      have hrest := ih (h f List.mem_cons_self) fun g hg => h g (List.mem_cons_of_mem _ hg)
      have htext : x ++ (f :: front ++ [last]).flatMap (sep :: ·) =
          x ++ sep :: (f ++ (front ++ [last]).flatMap (sep :: ·)) := by
        simp
      rw [htext, List.length_cons, splitMax_append hx, hrest]
      rfl

theorem cut_eq_none {sep : α} {xs : List α} (h : sep ∉ xs) : cut sep xs = none := by
  induction xs with
  | nil => rfl
  | cons x xs ih =>
      obtain ⟨hx, hxs⟩ := not_or.mp (fun hor => h (List.mem_cons.mpr hor))
      simp [cut, Ne.symm hx, ih hxs]

/-- The part that the last cut leaves is what stands behind the last separator, or ends
with it. -/
theorem splitMax_getElem? {sep : α} {last : List α} (hlast : sep ∉ last) {n : Nat}
    {xs part : List α} (h : (splitMax sep n (xs ++ sep :: last))[n]? = some part) :
    part = last ∨ ∃ ys, part = ys ++ sep :: last := by
  induction n generalizing xs with
  | zero => exact Or.inr ⟨xs, by simpa [splitMax] using h.symm⟩
  | succ n ih =>
      by_cases hxs : sep ∈ xs
      · obtain ⟨before, after, rfl, hbefore⟩ := List.eq_append_cons_of_mem hxs
        rw [List.append_assoc, List.cons_append, splitMax_append hbefore,
          List.getElem?_cons_succ] at h
        exact ih h
      · rw [splitMax_append hxs, List.getElem?_cons_succ] at h
        cases n with
        | zero => exact Or.inl (by simpa [splitMax] using h.symm)
        | succ n => simp [splitMax, cut_eq_none hlast] at h

/-- A part of a split holds characters of the whole, and not the separator. -/
theorem of_mem_splitOn {sep : α} {xs part : List α} (h : part ∈ xs.splitOn sep) :
    sep ∉ part ∧ ∀ c ∈ part, c ∈ xs := by
  induction xs generalizing part with
  | nil => simp_all
  | cons x xs ih =>
      have later : ∀ part ∈ xs.splitOn sep, sep ∉ part ∧ ∀ c ∈ part, c ∈ x :: xs := fun part hpart =>
        ⟨(ih hpart).1, fun c hc => List.mem_cons_of_mem _ ((ih hpart).2 c hc)⟩
      rw [List.splitOn_cons_eq_if_modifyHead] at h
      split at h
      · cases List.mem_cons.mp h with
        | inl heq => simp [heq]
        | inr hmem => exact later part hmem
      · next hne =>
          obtain ⟨first, rest, hsplit⟩ := List.exists_cons_of_ne_nil (List.splitOn_ne_nil sep xs)
          rw [hsplit, List.modifyHead_cons] at h
          cases List.mem_cons.mp h with
          | inl heq =>
              obtain ⟨hsep, hmem⟩ := later first (by simp [hsplit])
              have hx : sep ≠ x := fun heq => hne (by simp [heq])
              rw [heq, List.mem_cons, List.forall_mem_cons]
              exact ⟨not_or.mpr ⟨hx, hsep⟩, List.mem_cons_self, hmem⟩
          | inr hmem => exact later part (by simp [hsplit, hmem])

end

section
variable {α : Type}

theorem mem_intercalate {sep c : α} {parts : List (List α)} (h : c ∈ [sep].intercalate parts) :
    c = sep ∨ ∃ part ∈ parts, c ∈ part := by
  induction parts with
  | nil => simp at h
  | cons part rest ih =>
      cases rest with
      | nil => exact Or.inr ⟨part, List.mem_cons_self, by simpa using h⟩
      | cons next rest =>
          rw [List.intercalate_cons_cons, List.append_assoc, List.mem_append] at h
          cases h with
          | inl hmem => exact Or.inr ⟨part, List.mem_cons_self, hmem⟩
          | inr htail =>
              cases List.mem_append.mp htail with
              | inl hsep => exact Or.inl (List.mem_singleton.mp hsep)
              | inr hrest =>
                  refine (ih hrest).imp_right fun hfound => ?_
                  obtain ⟨found, hmem, hc⟩ := hfound
                  exact ⟨found, List.mem_cons_of_mem _ hmem, hc⟩

/-- The characters of a part are characters of the whole. -/
theorem mem_intercalate_of_mem {sep c : α} {parts : List (List α)} {part : List α}
    (hpart : part ∈ parts) (h : c ∈ part) : c ∈ [sep].intercalate parts := by
  induction parts with
  | nil => exact absurd hpart List.not_mem_nil
  | cons first rest ih =>
      cases rest with
      | nil =>
          rw [List.mem_singleton.mp hpart] at h
          simpa using h
      | cons next rest =>
          rw [List.intercalate_cons_cons, List.append_assoc, List.mem_append, List.mem_append]
          cases List.mem_cons.mp hpart with
          | inl heq => exact Or.inl (heq ▸ h)
          | inr hrest => exact Or.inr (Or.inr (ih hrest))

theorem bind_eq_ok {ε α β : Type} {x : Except ε α} {f : α → Except ε β} {b : β}
    (h : x >>= f = .ok b) : ∃ a, x = .ok a ∧ f a = .ok b := by
  cases x with
  | error err => cases h
  | ok a => exact ⟨a, rfl, h⟩

/-- What reads each rendering back reads all of them back. -/
theorem mapM_ok {β ε : Type} {render : α → β} {parse : β → Except ε α} {xs : List α}
    (h : ∀ x ∈ xs, parse (render x) = .ok x) : (xs.map render).mapM parse = .ok xs := by
  induction xs with
  | nil => rfl
  | cons x xs ih =>
      have hrest := ih fun y hy => h y (List.mem_cons_of_mem _ hy)
      rw [List.map_cons, List.mapM_cons, h x List.mem_cons_self, hrest]
      rfl

theorem of_mapM_ok {β ε : Type} {f : α → Except ε β} {xs : List α} {ys : List β}
    (h : xs.mapM f = .ok ys) {y : β} (hy : y ∈ ys) : ∃ x ∈ xs, f x = .ok y := by
  induction xs generalizing ys with
  | nil =>
      cases h
      exact absurd hy List.not_mem_nil
  | cons x xs ih =>
      rw [List.mapM_cons] at h
      obtain ⟨first, hfirst, h⟩ := bind_eq_ok h
      obtain ⟨others, hothers, h⟩ := bind_eq_ok h
      cases h
      cases List.mem_cons.mp hy with
      | inl heq => exact ⟨x, List.mem_cons_self, heq ▸ hfirst⟩
      | inr hmem =>
          obtain ⟨x', hx', hf⟩ := ih hothers hmem
          exact ⟨x', List.mem_cons_of_mem _ hx', hf⟩

end

/-- The characters that Unicode counts as white space, and the four separators before it. -/
def isSpace (c : Char) : Bool :=
  let n := c.toNat
  (9 ≤ n && n ≤ 13) || (28 ≤ n && n ≤ 32) || n == 0x85 || n == 0xA0 || n == 0x1680 ||
    (0x2000 ≤ n && n ≤ 0x200A) || n == 0x2028 || n == 0x2029 || n == 0x202F || n == 0x205F ||
    n == 0x3000

/-- White space in a byte string. -/
def isAsciiSpace (c : Char) : Bool :=
  let n := c.toNat
  (9 ≤ n && n ≤ 13) || n == 32

/-- A non-empty run of digits, in which single underscores may stand between digits. -/
def isGrouped (t : Text) : Bool :=
  (t.splitOn '_').all fun group => !group.isEmpty && group.all Char.isDigit

def parseDigits (t : Text) : Option Nat :=
  if isGrouped t then some (Nat.ofDigitChars 10 (t.filter (· ≠ '_')) 0) else none

/-- How many digits are converted between a text and an integer. -/
def maxStrDigits : Nat := 4300

/-- A run of digits that is not too long to be converted. -/
def convertDigits (t : Text) : Option Nat :=
  if t.countP Char.isDigit ≤ maxStrDigits then parseDigits t else none

/-- A numeral of ASCII digits, with an optional sign and white space around it. -/
def parseInt (space : Char → Bool) (t : Text) : Option Int :=
  match ((t.dropWhile space).reverse.dropWhile space).reverse with
  | '-' :: digits => (convertDigits digits).map fun n : Nat => -(n : Int)
  | '+' :: digits => (convertDigits digits).map Int.ofNat
  | digits => (convertDigits digits).map Int.ofNat

/-- The number of digits of a numeral that is too long. It is counted before what stands
behind the digits is looked at. -/
def overlong (space : Char → Bool) (t : Text) : Option Nat :=
  let digits :=
    match ((t.dropWhile space).reverse.dropWhile space).reverse with
    | '-' :: digits => digits
    | '+' :: digits => digits
    | digits => digits
  let run := digits.takeWhile fun c => c.isDigit || c == '_'
  if isGrouped run && maxStrDigits < run.countP Char.isDigit then some (run.countP Char.isDigit)
  else none

/-- The code points of the digits zero, of every script that has decimal digits in Unicode 15
(that of Python 3.12). -/
def decimalZeros : List Nat :=
  [0x30, 0x660, 0x6F0, 0x7C0, 0x966, 0x9E6, 0xA66, 0xAE6, 0xB66, 0xBE6, 0xC66, 0xCE6, 0xD66,
    0xDE6, 0xE50, 0xED0, 0xF20, 0x1040, 0x1090, 0x17E0, 0x1810, 0x1946, 0x19D0, 0x1A80, 0x1A90,
    0x1B50, 0x1BB0, 0x1C40, 0x1C50, 0xA620, 0xA8D0, 0xA900, 0xA9D0, 0xA9F0, 0xAA50, 0xABF0,
    0xFF10, 0x104A0, 0x10D30, 0x11066, 0x110F0, 0x11136, 0x111D0, 0x112F0, 0x11450, 0x114D0,
    0x11650, 0x116C0, 0x11730, 0x118E0, 0x11950, 0x11C50, 0x11D50, 0x11DA0, 0x11F50, 0x16A60,
    0x16AC0, 0x16B50, 0x1D7CE, 0x1D7D8, 0x1D7E2, 0x1D7EC, 0x1D7F6, 0x1E140, 0x1E2F0, 0x1E4F0,
    0x1E950, 0x1FBF0]

/-- The ASCII digit of the same value, for a decimal digit of any script. -/
def asciiDigit (c : Char) : Char :=
  match decimalZeros.find? fun first => first ≤ c.toNat && c.toNat < first + 10 with
  | some first => Char.ofNat (0x30 + (c.toNat - first))
  | none => c

/-- White space around the numeral in a text: the four separators are none here. -/
def isNumeralSpace (c : Char) : Bool := isSpace c && !(28 ≤ c.toNat && c.toNat ≤ 31)

/-- The integer of a text, whose digits may be of any script. -/
def readInt (t : Text) : Option Int := parseInt isNumeralSpace (t.map asciiDigit)

/-- The decimal numeral of an integer. -/
def showInt : Int → Text
  | .ofNat n => Nat.toDigits 10 n
  | .negSucc n => '-' :: Nat.toDigits 10 (n + 1)

/-- An integer with few enough digits to be converted. -/
def Convertible (n : Int) : Prop := (Nat.toDigits 10 n.natAbs).length ≤ maxStrDigits

instance (n : Int) : Decidable (Convertible n) := inferInstanceAs (Decidable (_ ≤ _))

theorem convertible_iff {n : Int} : Convertible n ↔ n.natAbs < 10 ^ maxStrDigits :=
  Nat.length_toDigits_le_iff (by decide) (by decide)

theorem convertible_of_lt {n : Nat} (h : n < 10 ^ 20) : Convertible n :=
  ((Nat.length_toDigits_le_iff (by decide) (by decide)).mpr h).trans (by decide)

theorem not_convertible : ¬ Convertible ((10 ^ maxStrDigits : Nat) : Int) := by
  rw [convertible_iff, Int.natAbs_natCast]
  exact Nat.lt_irrefl _

theorem parseDigits_toDigits (n : Nat) : parseDigits (Nat.toDigits 10 n) = some n := by
  have hdigit : ∀ c ∈ Nat.toDigits 10 n, c.isDigit = true := fun c hc =>
    Nat.isDigit_of_mem_toDigits (by decide) (by decide) hc
  have hplain : '_' ∉ Nat.toDigits 10 n := Nat.underscore_not_in_toDigits
  have hfilter : (Nat.toDigits 10 n).filter (· ≠ '_') = Nat.toDigits 10 n := by
    refine List.filter_eq_self.mpr fun c hc => ?_
    have hne : c ≠ '_' := fun heq => hplain (heq ▸ hc)
    simp [hne]
  have hgrouped : isGrouped (Nat.toDigits 10 n) = true := by
    rw [isGrouped, List.splitOn_eq_singleton hplain]
    simpa [Nat.toDigits_ne_nil] using hdigit
  rw [parseDigits, if_pos hgrouped, hfilter, Nat.ofDigitChars_ten_toDigits]

theorem convertDigits_toDigits (n : Nat) :
    convertDigits (Nat.toDigits 10 n) = if Convertible n then some n else none := by
  have hcount : (Nat.toDigits 10 n).countP Char.isDigit = (Nat.toDigits 10 n).length :=
    List.countP_eq_length.mpr fun c hc => Nat.isDigit_of_mem_toDigits (by decide) (by decide) hc
  rw [convertDigits, hcount, parseDigits_toDigits]
  rfl

/-- A numeral consists of digits and a sign. -/
theorem numeral_of_mem_showInt {n : Int} {c : Char} (h : c ∈ showInt n) :
    c.isDigit = true ∨ c = '-' := by
  have hdigit : ∀ m, c ∈ Nat.toDigits 10 m → c.isDigit = true := fun m hc =>
    Nat.isDigit_of_mem_toDigits (by decide) (by decide) hc
  cases n with
  | ofNat n => exact Or.inl (hdigit n h)
  | negSucc n =>
      cases List.mem_cons.mp h with
      | inl heq => exact Or.inr heq
      | inr hmem => exact Or.inl (hdigit _ hmem)

theorem showInt_ne_nil (n : Int) : showInt n ≠ [] := by
  cases n with
  | ofNat n => exact Nat.toDigits_ne_nil
  | negSucc n => simp [showInt]

theorem strip_eq_self {space : Char → Bool} {t : Text} (h : ∀ c ∈ t, space c = false) :
    ((t.dropWhile space).reverse.dropWhile space).reverse = t := by
  have hkeep : ∀ t : Text, (∀ c ∈ t, space c = false) → t.dropWhile space = t := by
    intro t ht
    cases t with
    | nil => rfl
    | cons c t => simp [ht c List.mem_cons_self]
  rw [hkeep t h, hkeep t.reverse fun c hc => h c (List.mem_reverse.mp hc), List.reverse_reverse]

theorem parseInt_showInt {space : Char → Bool}
    (hspace : ∀ c : Char, c.isDigit = true ∨ c = '-' → space c = false) (n : Int) :
    parseInt space (showInt n) = if Convertible n then some n else none := by
  have hstrip : ((((showInt n).dropWhile space).reverse.dropWhile space).reverse) = showInt n :=
    strip_eq_self fun c hc => hspace c (numeral_of_mem_showInt hc)
  rw [parseInt, hstrip]
  cases n with
  | ofNat n =>
      have hdigit : ∀ c ∈ Nat.toDigits 10 n, c.isDigit = true := fun c hc =>
        Nat.isDigit_of_mem_toDigits (by decide) (by decide) hc
      rw [showInt]
      -- the first character is a digit, so neither sign matches
      split
      · next digits heq => exact absurd (hdigit '-' (by simp [heq])) (by decide)
      · next digits heq => exact absurd (hdigit '+' (by simp [heq])) (by decide)
      · rw [convertDigits_toDigits, apply_ite (Option.map Int.ofNat)]
        rfl
  | negSucc n =>
      simp only [showInt, convertDigits_toDigits, apply_ite (Option.map fun n : Nat => -(n : Int))]
      rfl

theorem toNat_of_isDigit {c : Char} (h : c.isDigit = true) : 48 ≤ c.toNat ∧ c.toNat ≤ 57 := by
  simp only [Char.isDigit, Bool.and_eq_true, decide_eq_true_eq] at h
  exact ⟨UInt32.le_iff_toNat_le.mp h.1, UInt32.le_iff_toNat_le.mp h.2⟩

theorem isSpace_of_numeral {c : Char} (h : c.isDigit = true ∨ c = '-') : isSpace c = false := by
  cases h with
  | inl hdigit =>
      have hrange := toNat_of_isDigit hdigit
      simp only [isSpace, Bool.or_eq_false_iff, Bool.and_eq_false_iff, decide_eq_false_iff_not,
        beq_eq_false_iff_ne]
      omega
  | inr hminus =>
      subst hminus
      decide

theorem isAsciiSpace_of_numeral {c : Char} (h : c.isDigit = true ∨ c = '-') :
    isAsciiSpace c = false := by
  have hspace := isSpace_of_numeral h
  simp only [isSpace, isAsciiSpace, Bool.or_eq_false_iff, Bool.and_eq_false_iff,
    decide_eq_false_iff_not, beq_eq_false_iff_ne] at hspace ⊢
  omega

theorem toNat_of_mem_showInt {n : Int} {c : Char} (h : c ∈ showInt n) :
    33 ≤ c.toNat ∧ c.toNat < 128 := by
  cases numeral_of_mem_showInt h with
  | inl hdigit =>
      have hrange := toNat_of_isDigit hdigit
      omega
  | inr hminus =>
      subst hminus
      decide

theorem blank_not_mem_showInt (n : Int) : ' ' ∉ showInt n := fun h =>
  absurd (toNat_of_mem_showInt h).1 (by decide)

theorem blank_not_mem_encodeUtf8_showInt (n : Int) : (0x20 : UInt8) ∉ encodeUtf8 (showInt n) := by
  intro hmem
  have hchar := List.mem_map_of_mem (f := fun b => Char.ofNat b.toNat) hmem
  rw [map_ofNat_encodeUtf8 fun c hc => (toNat_of_mem_showInt hc).2] at hchar
  exact blank_not_mem_showInt n hchar

theorem isDigit_of_isGrouped {t : Text} {c : Char} (h : isGrouped t = true) (hmem : c ∈ t)
    (hne : c ≠ '_') : c.isDigit = true := by
  have hjoin : ['_'].intercalate (t.splitOn '_') = t := List.intercalate_splitOn '_'
  rw [← hjoin] at hmem
  obtain ⟨group, hgroup, hc⟩ := (mem_intercalate hmem).resolve_left hne
  rw [isGrouped, List.all_eq_true] at h
  have hdigits := h group hgroup
  rw [Bool.and_eq_true, List.all_eq_true] at hdigits
  exact hdigits.2 c hc

theorem parseDigits_eq_none {t : Text} {c : Char} (hmem : c ∈ t) (hdigit : c.isDigit = false)
    (hne : c ≠ '_') : parseDigits t = none := by
  have hgrouped : ¬ isGrouped t = true := fun h => by
    rw [isDigit_of_isGrouped h hmem hne] at hdigit
    cases hdigit
  rw [parseDigits, if_neg hgrouped]

theorem ofDigitChars_lt {t : Text} (h : ∀ c ∈ t, c.isDigit = true) (init : Nat) :
    Nat.ofDigitChars 10 t init < (init + 1) * 10 ^ t.length := by
  induction t generalizing init with
  | nil => simp
  | cons c t ih =>
      have hc : c.toNat - '0'.toNat < 10 := by
        have hrange := toNat_of_isDigit (h c List.mem_cons_self)
        have hzero : '0'.toNat = 48 := rfl
        omega
      have hrest := ih (fun c' h' => h c' (List.mem_cons_of_mem _ h'))
        (10 * init + (c.toNat - '0'.toNat))
      rw [Nat.ofDigitChars_cons, List.length_cons]
      calc Nat.ofDigitChars 10 t (10 * init + (c.toNat - '0'.toNat))
          < (10 * init + (c.toNat - '0'.toNat) + 1) * 10 ^ t.length := hrest
        _ ≤ (10 * (init + 1)) * 10 ^ t.length := Nat.mul_le_mul_right _ (by omega)
        _ = (init + 1) * 10 ^ (t.length + 1) := by ring

/-- What has been converted from digits can be converted to digits again. -/
theorem convertible_of_convertDigits {t : Text} {n : Nat} (h : convertDigits t = some n) :
    Convertible n := by
  unfold convertDigits at h
  split at h
  · next hcount =>
      unfold parseDigits at h
      split at h
      · next hgrouped =>
          obtain rfl := Option.some.inj h
          have hdigits : ∀ c ∈ t.filter (· ≠ '_'), c.isDigit = true := fun c hc =>
            isDigit_of_isGrouped hgrouped (List.mem_of_mem_filter hc)
              (of_decide_eq_true (List.mem_filter.mp hc).2)
          have hlength : (t.filter (· ≠ '_')).length ≤ maxStrDigits := by
            rw [← List.countP_eq_length.mpr hdigits]
            exact (List.filter_sublist.countP_le).trans hcount
          rw [convertible_iff, Int.natAbs_natCast]
          refine (ofDigitChars_lt hdigits 0).trans_le ?_
          rw [Nat.zero_add, Nat.one_mul]
          exact Nat.pow_le_pow_right (by decide) hlength
      · cases h
  · cases h

theorem convertible_neg {n : Int} (h : Convertible n) : Convertible (-n) := by
  rwa [Convertible, Int.natAbs_neg]

theorem convertible_of_parseInt {space : Char → Bool} {t : Text} {n : Int}
    (h : parseInt space t = some n) : Convertible n := by
  unfold parseInt at h
  split at h <;> obtain ⟨m, hm, rfl⟩ := Option.map_eq_some_iff.mp h
  · exact convertible_neg (convertible_of_convertDigits hm)
  · exact convertible_of_convertDigits hm
  · exact convertible_of_convertDigits hm

/-- A blank that is left inside spoils a numeral. -/
theorem parseInt_eq_none {space : Char → Bool} {t : Text}
    (h : ' ' ∈ ((t.dropWhile space).reverse.dropWhile space).reverse) : parseInt space t = none := by
  have hdigits : ∀ digits : Text, ' ' ∈ digits → convertDigits digits = none := by
    intro digits hmem
    rw [convertDigits, parseDigits_eq_none hmem (by decide) (by decide), ite_self]
  rw [parseInt]
  split
  · next digits heq =>
      rw [hdigits digits (by simpa [heq] using h)]
      rfl
  · next digits heq =>
      rw [hdigits digits (by simpa [heq] using h)]
      rfl
  · rw [hdigits _ h]
    rfl

theorem dropWhile_reverse_append {space : Char → Bool} {t : Text} (hne : t ≠ [])
    (h : ∀ c ∈ t, space c = false) (front : Text) :
    ((front ++ t).reverse.dropWhile space).reverse = front ++ t := by
  obtain ⟨c, rest, hrev⟩ := List.exists_cons_of_ne_nil (List.reverse_ne_nil_iff.mpr hne)
  have hc : ¬ space c = true := by
    simp [h c (List.mem_reverse.mp (hrev ▸ List.mem_cons_self))]
  rw [List.reverse_append, hrev, List.cons_append, List.dropWhile_cons_of_neg hc,
    ← List.cons_append, ← hrev, List.reverse_append, List.reverse_reverse, List.reverse_reverse]

/-- Behind a blank stands the whole of a numeral, or there is none. -/
theorem parseInt_behind_blank {space : Char → Bool} {t : Text} {n m : Int}
    (hspace : ∀ c : Char, c.isDigit = true ∨ c = '-' → space c = false) (hblank : space ' ' = true)
    (h : parseInt space (t ++ ' ' :: showInt n) = some m) : m = n := by
  have hplain : ∀ c ∈ showInt n, space c = false := fun c hc =>
    hspace c (numeral_of_mem_showInt hc)
  by_cases hempty : t.dropWhile space = []
  · -- only white space in front of the numeral
    have hskip : (' ' :: showInt n).dropWhile space = (showInt n).dropWhile space :=
      List.dropWhile_cons_of_pos hblank
    have hstrip : (t ++ ' ' :: showInt n).dropWhile space = (showInt n).dropWhile space := by
      rw [List.dropWhile_append, hempty, List.isEmpty_nil, if_pos rfl, hskip]
    have hnumeral := parseInt_showInt hspace n
    rw [parseInt, hstrip] at h
    rw [parseInt, h] at hnumeral
    split at hnumeral
    · exact Option.some.inj hnumeral
    · cases hnumeral
  · have hback := dropWhile_reverse_append (showInt_ne_nil n) hplain (t.dropWhile space ++ [' '])
    have hnone : parseInt space (t ++ ' ' :: showInt n) = none := by
      refine parseInt_eq_none ?_
      rw [List.dropWhile_append, if_neg (by simpa using hempty)]
      rw [List.append_assoc, List.singleton_append] at hback
      rw [hback]
      simp
    rw [hnone] at h
    cases h

theorem isNumeralSpace_of_numeral {c : Char} (h : c.isDigit = true ∨ c = '-') :
    isNumeralSpace c = false := by
  rw [isNumeralSpace, isSpace_of_numeral h, Bool.false_and]

theorem asciiDigit_of_ascii {c : Char} (h : c.toNat < 128) : asciiDigit c = c := by
  have hall : ∀ n < 128, asciiDigit (Char.ofNat n) = Char.ofNat n := by decide +kernel
  have hc := hall c.toNat h
  rwa [Char.ofNat_toNat] at hc

theorem map_asciiDigit_showInt (n : Int) : (showInt n).map asciiDigit = showInt n :=
  (List.map_congr_left fun _ hc => asciiDigit_of_ascii (toNat_of_mem_showInt hc).2).trans
    (List.map_id _)

theorem readInt_showInt {n : Int} (h : Convertible n) : readInt (showInt n) = some n := by
  rw [readInt, map_asciiDigit_showInt, parseInt_showInt fun _ => isNumeralSpace_of_numeral,
    if_pos h]

theorem convertible_of_readInt {t : Text} {n : Int} (h : readInt t = some n) : Convertible n :=
  convertible_of_parseInt h

theorem readInt_behind_blank {t : Text} {n m : Int}
    (h : readInt (t ++ ' ' :: showInt n) = some m) : m = n := by
  rw [readInt, List.map_append, List.map_cons, map_asciiDigit_showInt,
    asciiDigit_of_ascii (by decide)] at h
  exact parseInt_behind_blank (fun _ => isNumeralSpace_of_numeral) (by decide) h

end Lib
