import Mathlib.Data.List.Basic

/-!
The MD5 digest, on bytes given as numbers below 256. A message is padded to whole
blocks of sixteen little-endian words; each block takes the state through four
rounds that differ in their mixing function, word order and rotations.
-/

namespace Lib
namespace Md5

/-- The integer parts of `2^32 * |sin (i + 1)|`. -/
def sines : List Nat := [
    0xd76aa478, 0xe8c7b756, 0x242070db, 0xc1bdceee, 0xf57c0faf, 0x4787c62a,
    0xa8304613, 0xfd469501, 0x698098d8, 0x8b44f7af, 0xffff5bb1, 0x895cd7be,
    0x6b901122, 0xfd987193, 0xa679438e, 0x49b40821, 0xf61e2562, 0xc040b340,
    0x265e5a51, 0xe9b6c7aa, 0xd62f105d, 0x02441453, 0xd8a1e681, 0xe7d3fbc8,
    0x21e1cde6, 0xc33707d6, 0xf4d50d87, 0x455a14ed, 0xa9e3e905, 0xfcefa3f8,
    0x676f02d9, 0x8d2a4c8a, 0xfffa3942, 0x8771f681, 0x6d9d6122, 0xfde5380c,
    0xa4beea44, 0x4bdecfa9, 0xf6bb4b60, 0xbebfbc70, 0x289b7ec6, 0xeaa127fa,
    0xd4ef3085, 0x04881d05, 0xd9d4d039, 0xe6db99e5, 0x1fa27cf8, 0xc4ac5665,
    0xf4292244, 0x432aff97, 0xab9423a7, 0xfc93a039, 0x655b59c3, 0x8f0ccc92,
    0xffeff47d, 0x85845dd1, 0x6fa87e4f, 0xfe2ce6e0, 0xa3014314, 0x4e0811a1,
    0xf7537e82, 0xbd3af235, 0x2ad7d2bb, 0xeb86d391]

structure State where
  a : Nat
  b : Nat
  c : Nat
  d : Nat
  deriving DecidableEq, Repr

def word (x : Nat) : Nat := x % 0x100000000

def complement (x : Nat) : Nat := 0xffffffff - x

def rotateLeft (x n : Nat) : Nat := word (x <<< n) ||| (x >>> (32 - n))

/-- One operation, given the word it adds, its constant and its rotation. -/
def operation (mix : Nat → Nat → Nat → Nat) (s : State) (op : Nat × Nat × Nat) : State :=
  let sum := word (s.a + mix s.b s.c s.d + op.2.1 + op.1)
  ⟨s.d, word (s.b + rotateLeft sum op.2.2), s.b, s.c⟩

/-- The round number `n`: its words are those at the positions `step * i + first`. -/
def round (n : Nat) (mix : Nat → Nat → Nat → Nat) (first step : Nat) (rotations : List Nat)
    (words : List Nat) (s : State) : State :=
  let ordered := (List.range 16).map fun i => words.getD ((step * i + first) % 16) 0
  let constants := (sines.drop (16 * n)).take 16
  let turns := (List.replicate 4 rotations).flatten
  (ordered.zip (constants.zip turns)).foldl (operation mix) s

def rounds (words : List Nat) (s : State) : State :=
  let s := round 0 (fun b c d => (b &&& c) ||| (complement b &&& d)) 0 1 [7, 12, 17, 22] words s
  let s := round 1 (fun b c d => (d &&& b) ||| (complement d &&& c)) 1 5 [5, 9, 14, 20] words s
  let s := round 2 (fun b c d => b ^^^ c ^^^ d) 5 3 [4, 11, 16, 23] words s
  round 3 (fun b c d => c ^^^ (b ||| complement d)) 0 7 [6, 10, 15, 21] words s

/-- The little-endian words of a padded message. -/
def wordsOf : List Nat → List Nat
  | a :: b :: c :: d :: rest =>
    (a + 0x100 * b + 0x10000 * c + 0x1000000 * d) :: wordsOf rest
  | _ => []

def toLittleEndian : Nat → Nat → List Nat
  | 0, _ => []
  | n + 1, x => x % 256 :: toLittleEndian n (x / 256)

/-- The first `n` blocks. -/
def blocks : Nat → List Nat → List (List Nat)
  | 0, _ => []
  | n + 1, words => words.take 16 :: blocks n (words.drop 16)

def block (s : State) (words : List Nat) : State :=
  let s' := rounds words s
  ⟨word (s.a + s'.a), word (s.b + s'.b), word (s.c + s'.c), word (s.d + s'.d)⟩

def pad (bytes : List Nat) : List Nat :=
  bytes ++ [0x80] ++ List.replicate ((119 - bytes.length % 64) % 64) 0 ++
    toLittleEndian 8 (8 * bytes.length)

def digest (bytes : List Nat) : List Nat :=
  let words := wordsOf (pad bytes)
  let s := (blocks (words.length / 16) words).foldl block
    ⟨0x67452301, 0xefcdab89, 0x98badcfe, 0x10325476⟩
  [s.a, s.b, s.c, s.d].flatMap (toLittleEndian 4)

example : digest [] = [0xd4, 0x1d, 0x8c, 0xd9, 0x8f, 0x00, 0xb2, 0x04, 0xe9, 0x80, 0x09, 0x98, 0xec,
    0xf8, 0x42, 0x7e] := by decide +kernel

end Md5
end Lib
