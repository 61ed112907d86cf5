/-
Text fields of archive headers: UTF-8 as the standard library reads it, and numbers in
a radix.
-/
import Iluvatar.Archive.Parser

namespace Iluvatar

/-- How many of the next bytes continue a sequence: at most `n`, the first of them
between `lo` and `hi`. -/
def continuations : Nat → Nat → Nat → List Byte → Nat
  | n + 1, lo, hi, b :: bs =>
    if lo ≤ b.toNat ∧ b.toNat ≤ hi then continuations n 0x80 0xBF bs + 1 else 0
  | _, _, _, _ => 0

/-- The first character of a text and how many bytes follow its first one; no character
for a maximal ill-formed part. -/
def utf8Char (b : Byte) (bs : List Byte) : Option Char × Nat :=
  let n := b.toNat
  if n < 0x80 then (some (Char.ofNat n), 0)
  else
    let follow :=
      if 0xC2 ≤ n ∧ n ≤ 0xDF then 1
      else if 0xE0 ≤ n ∧ n ≤ 0xEF then 2
      else if 0xF0 ≤ n ∧ n ≤ 0xF4 then 3
      else 0
    let lo := if n = 0xE0 then 0xA0 else if n = 0xF0 then 0x90 else 0x80
    let hi := if n = 0xED then 0x9F else if n = 0xF4 then 0x8F else 0xBF
    let found := continuations follow lo hi bs
    if follow ≠ 0 ∧ found = follow then
      (some (Char.ofNat ((bs.take follow).foldl (fun acc c => acc * 64 + c.toNat % 64)
        (n % 2 ^ (6 - follow)))), follow)
    else (none, found)

/-- The characters of a text; `fuel` is at least its length. -/
def utf8Chars : Nat → List Byte → List (Option Char)
  | fuel + 1, b :: bs => (utf8Char b bs).1 :: utf8Chars fuel (bs.drop (utf8Char b bs).2)
  | _, _ => []

/-- `from_utf8_lossy`, as characters. -/
def lossyChars (bs : List Byte) : List Char := (utf8Chars bs.length bs).map (Option.getD · '\uFFFD')

/-- `String::from_utf8_lossy`. -/
def fromUtf8Lossy (bs : List Byte) : String := String.ofList (lossyChars bs)

/-- `str::from_utf8`. -/
def fromUtf8 (bs : List Byte) : Option String :=
  ((utf8Chars bs.length bs).mapM id).map String.ofList

/-- `char::escape_debug` for a text: a short form, or the number of a control character.  Beyond the controls
the standard library goes by tables of what can be printed, and here a character stays as it is. -/
def escapeDebug (c : Char) : String :=
  match c.toNat with
  | 0 => "\\0"
  | 9 => "\\t"
  | 10 => "\\n"
  | 13 => "\\r"
  | 34 => "\\\""
  | 92 => "\\\\"
  | n =>
    if n < 0x20 ∨ (0x7F ≤ n ∧ n < 0xA0) then "\\u\x7b" ++ String.ofList (Nat.toDigits 16 n) ++ "\x7d"
    else c.toString

/-- A text as a format of `:?` shows it. -/
def debugText (text : String) : String := "\"" ++ String.join (text.toList.map escapeDebug) ++ "\""

/-- `str::trim_end_matches`, on the characters. -/
def trimEndMatches (c : Char) (text : List Char) : List Char :=
  (text.reverse.dropWhile (· == c)).reverse

/-- The value of a digit below `radix`. -/
def digitOf (radix : Nat) (b : Byte) : Option Nat :=
  let n := b.toNat
  let value :=
    if 48 ≤ n ∧ n ≤ 57 then n - 48
    else if 97 ≤ n ∧ n ≤ 122 then n - 87
    else if 65 ≤ n ∧ n ≤ 90 then n - 55
    else radix
  if value < radix then some value else none

/-- `u64::from_str_radix`, for fields too short to overflow: at least one digit, and
perhaps a plus sign before it. -/
def fromStrRadix (radix : Nat) (bs : List Byte) : Option Nat :=
  let digits := match bs with
    | b :: rest => if b = 43 then rest else b :: rest
    | [] => []
  if digits.isEmpty then none
  else digits.foldlM (fun acc b => (digitOf radix b).map (acc * radix + ·)) 0

end Iluvatar
