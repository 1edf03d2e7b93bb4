/-!
# JSON values

A tree keeps the order and the repetitions of object members.  Numbers without a fraction and an
exponent that fit 64 bits are integers; all others are binary64 numbers.
-/

namespace Retarget

inductive Json where
  | null
  | bool (value : Bool)
  | integer (value : Int)
  | float (value : Float)
  | str (value : String)
  | arr (items : List Json)
  | obj (members : List (String × Json))
  /-- A token that is well formed but stands for no value: a number past the range of binary64, or a
  text with half of a surrogate pair. -/
  | unreadable

namespace Json

/-- The last member of a name. -/
def get? (name : String) : Json → Option Json
  | obj members => members.reverse.lookup name
  | _ => none

/-- The members of a list whose names do not occur again behind them. -/
def lastMembers {α : Type} : List (String × α) → List (String × α)
  | [] => []
  | m :: rest => if rest.any (·.1 == m.1) then lastMembers rest else m :: lastMembers rest

mutual

/-- The tree in which every name occurs once in its object, with its last value. -/
def collapse : Json → Json
  | arr items => arr (collapseItems items)
  | obj members => obj (lastMembers (collapseMembers members))
  | j => j

def collapseItems : List Json → List Json
  | [] => []
  | j :: rest => collapse j :: collapseItems rest

def collapseMembers : List (String × Json) → List (String × Json)
  | [] => []
  | (name, j) :: rest => (name, collapse j) :: collapseMembers rest

end

end Json

end Retarget
