import Carbond.Text.CString
import Mathlib.Data.List.TakeDrop
import Mathlib.Algebra.Group.Int.Defs
import Mathlib.Algebra.Group.Nat.Defs

/-! The scanning functions of the C library, in the C locale, on a machine with 64-bit longs. -/
namespace Carbond.Text

def isSpace (c : Char) : Bool :=
  c = ' ' ∨ c = '\t' ∨ c = '\n' ∨ c = '\x0b' ∨ c = '\x0c' ∨ c = '\r'

def skipSpace (s : CString) : CString := s.dropWhile isSpace

/-! ### Integers -/

def digitsValue (digits : CString) : Nat :=
  digits.foldl (fun n c => 10 * n + (c.toNat - '0'.toNat)) 0

/-- The sign, if there is one, and what follows it. -/
def splitSign : CString → Bool × CString
  | '-' :: rest => (true, rest)
  | '+' :: rest => (false, rest)
  | rest => (false, rest)

/-- In base 10. An overflow gives `ULONG_MAX`, whatever the sign. -/
def strtoul (s : CString) : Nat :=
  let (negative, rest) := splitSign (skipSpace s)
  let n := digitsValue (rest.takeWhile Char.isDigit)
  if 2 ^ 64 ≤ n then 2 ^ 64 - 1
  else if negative then (2 ^ 64 - n) % 2 ^ 64
  else n

/-- In base 10, and whether `errno` is set to `ERANGE`. -/
def strtol (s : CString) : Int × Bool :=
  let (negative, rest) := splitSign (skipSpace s)
  let n : Int := digitsValue (rest.takeWhile Char.isDigit)
  let value := if negative then -n else n
  if value < -2 ^ 63 then (-2 ^ 63, true)
  else if 2 ^ 63 ≤ value then (2 ^ 63 - 1, true)
  else (value, false)

/-! ### Directives of `sscanf`

Each takes what is left of the string, and returns what it matched and the rest, or nothing if
it does not match. -/

/-- `%s` -/
def scanWord (s : CString) : Option (CString × CString) :=
  let start := skipSpace s
  let word := start.takeWhile (! isSpace ·)
  if word = [] then none else some (word, start.drop word.length)

/-- `%u`, stored in 32 bits. -/
def scanUnsigned (s : CString) : Option (UInt32 × CString) :=
  let (_, rest) := splitSign (skipSpace s)
  let digits := rest.takeWhile Char.isDigit
  if digits = [] then none else some (UInt32.ofNat (strtoul s), rest.drop digits.length)

def isHexDigit (c : Char) : Bool :=
  c.isDigit ∨ 'a' ≤ c ∧ c ≤ 'f' ∨ 'A' ≤ c ∧ c ≤ 'F'

/-- How many characters at the beginning agree with a word, in either case. -/
def agreeing : CString → CString → Nat
  | c :: s, d :: word => if c.toLower = d then agreeing s word + 1 else 0
  | _, _ => 0

/-- The length of the exponent that begins with this letter; an exponent needs digits. -/
def exponentLength (letter : Char) : CString → Option Nat
  | [] => some 0
  | c :: s =>
    if c.toLower = letter then
      let signed := match s with
        | '-' :: _ => 1
        | '+' :: _ => 1
        | _ => 0
      let digits := ((s.drop signed).takeWhile Char.isDigit).length
      if digits = 0 then none else some (1 + signed + digits)
    else some 0

/-- The length of a number with a point and an exponent. -/
def mantissaLength (isDigit : Char → Bool) (letter : Char) (s : CString) : Option Nat :=
  let whole := (s.takeWhile isDigit).length
  let (point, fraction) := match s.drop whole with
    | '.' :: rest => (1, (rest.takeWhile isDigit).length)
    | _ => (0, 0)
  if whole + fraction = 0 then none
  else
    (exponentLength letter (s.drop (whole + point + fraction))).map (whole + point + fraction + ·)

/-- The length of an unsigned floating point number: infinity, not a number, hexadecimal or
decimal. -/
def floatLength (s : CString) : Option Nat :=
  match agreeing s "infinity".toList with
  | 0 =>
    match agreeing s "nan".toList with
    | 0 =>
      match s with
      | '0' :: 'x' :: rest => (mantissaLength isHexDigit 'p' rest).map (2 + ·)
      | '0' :: 'X' :: rest => (mantissaLength isHexDigit 'p' rest).map (2 + ·)
      | _ => mantissaLength Char.isDigit 'e' s
    | 3 => some 3
    | _ => none
  | 3 => some 3
  | 8 => some 8
  | _ => none

/-- `%lf`: the text of the number. -/
def scanDouble (s : CString) : Option (CString × CString) :=
  let start := skipSpace s
  let sign := start.length - (splitSign start).2.length
  (floatLength (splitSign start).2).map fun length =>
    (start.take (sign + length), start.drop (sign + length))

/-! ### Files -/

/-- `fgets` with room for `limit` characters: the rest of the line, as far as it fits. -/
def fgets (limit : Nat) (file : CString) : CString × CString :=
  let line := (file.take limit).takeWhile (· ≠ '\n')
  match (file.take limit).drop line.length with
  | [] => (line, file.drop limit)
  | newline :: _ => (line ++ [newline], file.drop (line.length + 1))

/-- The successive results of `fgets` up to the end of the file. -/
def fgetsLoop (limit : Nat) : Nat → CString → List CString
  | 0, _ => []
  | fuel + 1, file =>
    if file = [] then []
    else (fgets limit file).1 :: fgetsLoop limit fuel (fgets limit file).2

/-- Each line takes at least one character, so the length of the file is fuel enough. -/
def fileLines (limit : Nat) (file : CString) : List CString := fgetsLoop limit file.length file

/-- The string in a buffer ends at the first NUL. -/
def toNul (buffer : CString) : CString := buffer.takeWhile (· ≠ '\x00')

end Carbond.Text
