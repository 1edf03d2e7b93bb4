import Retarget.Word

/-!
# Static data

A global variable becomes a record of assembler directives: scalars of one, two, four or eight
bytes, runs of zeros, and quoted texts that the assembler ends with a zero byte.
-/

namespace Retarget.Machine

/-- The widths for which the assembler has a directive. -/
inductive ScalarWidth where
  | byte | short | long | quad
deriving DecidableEq

namespace ScalarWidth

def bytes : ScalarWidth → Nat
  | byte => 1
  | short => 2
  | long => 4
  | quad => 8

/-- The width of `n` bytes. -/
def ofBytes? (n : Nat) : Option ScalarWidth :=
  [byte, short, long, quad].find? fun w => w.bytes == n

def directive : ScalarWidth → String
  | byte => ".byte"
  | short => ".short"
  | long => ".long"
  | quad => ".quad"

end ScalarWidth

/-! ## Quoted texts -/

/-- The `i`-th octal digit of a byte, counted from the right. -/
def octalDigit (b : UInt8) (i : Nat) : Char :=
  Char.ofNat (48 + (b.toNat >>> (3 * i)) % 8)

/-- A byte inside a quoted text: printable ASCII stands for itself, the two characters that end a
quotation or an escape are escaped, and what is not printable is written in three octal digits. -/
def quoteByte (b : UInt8) : List Char :=
  if b = 0x5c then ['\\', '\\']
  else if b = 0x22 then ['\\', '"']
  else if b = 0x0a then ['\\', 'n']
  else if b = 0x09 then ['\\', 't']
  else if 0x20 ≤ b ∧ b ≤ 0x7e then [Char.ofNat b.toNat]
  else ['\\', octalDigit b 2, octalDigit b 1, octalDigit b 0]

/-- A text between double quotes, byte by byte. -/
def quote (s : String) : String :=
  String.ofList ('"' :: s.toUTF8.toList.flatMap quoteByte ++ ['"'])

/-! ## Records -/

inductive DataEntry where
  | scalar (width : ScalarWidth) (value : Int)
  | zeros (bytes : Nat)
  | text (value : String)
deriving DecidableEq

namespace DataEntry

def directive : DataEntry → String
  | scalar w _ => w.directive
  | zeros _ => ".zero"
  | text _ => ".asciz"

/-- What follows the directive. -/
def argument : DataEntry → String
  | scalar _ v => toString v
  | zeros n => toString n
  | text s => quote s

/-- How many bytes the assembler sets aside. -/
def bytes : DataEntry → Nat
  | scalar w _ => w.bytes
  | zeros n => n
  | text s => s.utf8ByteSize + 1

end DataEntry

/-- The data of one global variable. -/
structure Data where
  name : String
  size : Nat := 0
  entries : List DataEntry := []
deriving DecidableEq

namespace Data

def push (d : Data) (e : DataEntry) : Result Data := do
  let size ← Word.fit 64 (d.size + e.bytes)
  return { d with size := size, entries := d.entries ++ [e] }

/-- A value of `bytes` bytes; a width without a directive can only hold zero. -/
def allocate (d : Data) (bytes : Nat) (value : Int) : Result Data :=
  match ScalarWidth.ofBytes? bytes with
  | some w => d.push (.scalar w value)
  | none =>
    if value = 0 then d.push (.zeros bytes)
    else .error (.unsupported s!"initializer of {bytes} bytes for global '{d.name}'")

def text (d : Data) : String :=
  s!"{d.name}:\n" ++ String.join (d.entries.map fun e => s!"\t{e.directive}\t{e.argument}\n")

end Data

end Retarget.Machine
