/-!
# String literals

A literal is a text between double quotes in which a quote, a backslash and every character below
U+0020 is escaped: the usual seven by a backslash and one character, the others as a `\u` escape of
four lower case hexadecimal digits. `encode` writes the literal of a text. `scan` reads one literal
from the head of a text by the rules of strict JSON, which allow more than `encode` writes, and
returns what follows it.
-/

namespace ScriptCompiler.Text.Quoted

/-- The character that stands for `c` after a backslash. -/
def shortForm (c : Char) : Option Char :=
  if c = '"' then some '"'
  else if c = '\\' then some '\\'
  else if c = '\x08' then some 'b'
  else if c = '\t' then some 't'
  else if c = '\n' then some 'n'
  else if c = '\x0c' then some 'f'
  else if c = '\r' then some 'r'
  else none

/-- The lower case hexadecimal digit of `d < 16`. -/
def hexDigit (d : Nat) : Char :=
  if d < 10 then Char.ofNat (48 + d) else Char.ofNat (87 + d)

/-- The characters that stand for `c` inside a literal. -/
def escape (c : Char) : List Char :=
  match shortForm c with
  | some x => ['\\', x]
  | none =>
    if c.toNat < 0x20 then
      ['\\', 'u', '0', '0', hexDigit (c.toNat / 16), hexDigit (c.toNat % 16)]
    else [c]

/-- The literal of a text, with its quotes. -/
def encode (s : List Char) : List Char :=
  '"' :: (s.flatMap escape ++ ['"'])

/-- The literal of a string. -/
def quote (s : String) : String :=
  String.ofList (encode s.toList)

/-! ## Reading a literal -/

/-- The character that a backslash and `c` stand for. -/
def longForm (c : Char) : Option Char :=
  if c = '"' then some '"'
  else if c = '\\' then some '\\'
  else if c = '/' then some '/'
  else if c = 'b' then some '\x08'
  else if c = 't' then some '\t'
  else if c = 'n' then some '\n'
  else if c = 'f' then some '\x0c'
  else if c = 'r' then some '\r'
  else none

/-- The value of a hexadecimal digit of either case. -/
def hexValue (c : Char) : Option Nat :=
  if '0' ≤ c ∧ c ≤ '9' then some (c.toNat - 48)
  else if 'a' ≤ c ∧ c ≤ 'f' then some (c.toNat - 87)
  else if 'A' ≤ c ∧ c ≤ 'F' then some (c.toNat - 55)
  else none

/-- The code unit that four hexadecimal digits write. -/
def codeUnit (a b c d : Char) : Option Nat := do
  let a ← hexValue a
  let b ← hexValue b
  let c ← hexValue c
  let d ← hexValue d
  return ((a * 16 + b) * 16 + c) * 16 + d

/-- The first half of a surrogate pair. -/
def isLeading (n : Nat) : Bool := 0xd800 ≤ n && n < 0xdc00

/-- The second half of a surrogate pair. -/
def isTrailing (n : Nat) : Bool := 0xdc00 ≤ n && n < 0xe000

/-- The character that a surrogate pair writes. -/
def paired (n m : Nat) : Char := Char.ofNat (0x10000 + (n - 0xd800) * 0x400 + (m - 0xdc00))

/-- What a reader found, with one more character in front. -/
def found (c : Char) : Option (List Char × List Char) → Option (List Char × List Char) :=
  Option.map fun (s, rest) => (c :: s, rest)

/-- Reads up to the closing quote. -/
def scanBody : List Char → Option (List Char × List Char)
  | [] => none
  | '"' :: rest => some ([], rest)
  | '\\' :: 'u' :: a :: b :: c :: d :: rest =>
    match codeUnit a b c d with
    | none => none
    | some n =>
      if isLeading n then
        match rest with
        | '\\' :: 'u' :: e :: f :: g :: h :: rest =>
          match codeUnit e f g h with
          | none => none
          | some m => if isTrailing m then found (paired n m) (scanBody rest) else none
        | _ => none
      else if isTrailing n then none
      else found (Char.ofNat n) (scanBody rest)
  | '\\' :: c :: rest =>
    match longForm c with
    | none => none
    | some x => found x (scanBody rest)
  | c :: rest => if c = '\\' ∨ c.toNat < 0x20 then none else found c (scanBody rest)

/-- Reads one literal from the head of a text: its contents and what follows it. -/
def scan : List Char → Option (List Char × List Char)
  | '"' :: rest => scanBody rest
  | _ => none

end ScriptCompiler.Text.Quoted
