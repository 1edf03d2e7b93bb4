import Retarget.Decimal.Layout
import Retarget.Json.Basic

/-!
# Writing JSON text

Two forms: on one line without blanks, or with one member or item to a line, two blanks for each
level of nesting.
-/

namespace Retarget.Json

/-- Numbers keep `.0` and have a signed exponent outside of `1e-5 ≤ |x| < 1e16`; what is not finite
is null. -/
def floatLayout : Decimal.Layout where
  positional exponent := -5 ≤ exponent && exponent < 16
  keepsPoint := true
  signsExponent := true
  tie := .toEven
  infinity := "null"
  notNumber := "null"

def floatText (x : Float) : String :=
  if x.isFinite then floatLayout.text x else "null"

def hexDigit (n : Nat) : Char := Nat.digitChar n

/-- A character inside a quoted text; quotes, backslashes and control characters are escaped. -/
def escapeChar (c : Char) : List Char :=
  if c = '"' then ['\\', '"']
  else if c = '\\' then ['\\', '\\']
  else if c = '\x08' then ['\\', 'b']
  else if c = '\x0c' then ['\\', 'f']
  else if c = '\n' then ['\\', 'n']
  else if c = '\r' then ['\\', 'r']
  else if c = '\t' then ['\\', 't']
  else if c.toNat < 0x20 then
    ['\\', 'u', '0', '0', hexDigit (c.toNat / 16), hexDigit (c.toNat % 16)]
  else [c]

/-- A text between double quotes. -/
def textOf (s : String) : String :=
  String.ofList ('"' :: s.toList.flatMap escapeChar ++ ['"'])

mutual

/-- The form on one line. -/
def compact : Json → String
  | null | unreadable => "null"
  | bool true => "true"
  | bool false => "false"
  | integer n => toString n
  | float x => floatText x
  | str s => textOf s
  | arr items => "[" ++ ",".intercalate (compactItems items) ++ "]"
  | obj members => "\x7b" ++ ",".intercalate (compactMembers members) ++ "\x7d"

def compactItems : List Json → List String
  | [] => []
  | j :: rest => compact j :: compactItems rest

def compactMembers : List (String × Json) → List String
  | [] => []
  | (name, j) :: rest => (textOf name ++ ":" ++ compact j) :: compactMembers rest

end

/-- The start of a line at a level of nesting. -/
def newline (level : Nat) : String := String.ofList ('\n' :: List.replicate (2 * level) ' ')

/-- Parts on lines of their own, between two brackets; no parts leave the brackets together. -/
def enclose (level : Nat) (opening closing : String) (parts : List String) : String :=
  if parts.isEmpty then opening ++ closing
  else
    let inner := newline (level + 1)
    opening ++ inner ++ s!",{inner}".intercalate parts ++ newline level ++ closing

mutual

/-- The form on several lines, at a level of nesting. -/
def prettyAt (level : Nat) : Json → String
  | arr items => enclose level "[" "]" (prettyItems (level + 1) items)
  | obj members => enclose level "\x7b" "\x7d" (prettyMembers (level + 1) members)
  | null => compact null
  | bool b => compact (bool b)
  | integer n => compact (integer n)
  | float x => compact (float x)
  | str s => compact (str s)
  | unreadable => compact unreadable

def prettyItems (level : Nat) : List Json → List String
  | [] => []
  | j :: rest => prettyAt level j :: prettyItems level rest

def prettyMembers (level : Nat) : List (String × Json) → List String
  | [] => []
  | (name, j) :: rest => (textOf name ++ ": " ++ prettyAt level j) :: prettyMembers level rest

end

/-- The form on several lines. -/
def pretty (j : Json) : String := prettyAt 0 j

end Retarget.Json
