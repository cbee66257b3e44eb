import Mechanism.Json.Basic

/-!
Reading JSON. A step of the reader answers what it has read and the characters behind it. It
takes at least one character, so the length of the text bounds the depth of a document and the
number of its parts.
-/

namespace Mechanism.Json

def isSpace (c : Char) : Bool := c == ' ' || c == '\t' || c == '\n' || c == '\r'

def skipSpace (cs : List Char) : List Char := cs.dropWhile isSpace

def hexValue? (c : Char) : Option Nat :=
  if '0' ≤ c && c ≤ '9' then some (c.toNat - '0'.toNat)
  else if 'a' ≤ c && c ≤ 'f' then some (c.toNat - 'a'.toNat + 10)
  else if 'A' ≤ c && c ≤ 'F' then some (c.toNat - 'A'.toNat + 10)
  else none

def hexUnit? : List Char → Option (Nat × List Char)
  | a :: b :: c :: d :: rest => do
    let digits ← [a, b, c, d].mapM hexValue?
    some (digits.foldl (fun total digit => total * 16 + digit) 0, rest)
  | _ => none

def isHighSurrogate (unit : Nat) : Bool := 0xD800 ≤ unit && unit < 0xDC00

def isLowSurrogate (unit : Nat) : Bool := 0xDC00 ≤ unit && unit < 0xE000

/-- A character given by one unit of 16 bits, or by a surrogate pair. -/
def escapedUnit? (cs : List Char) : Option (Char × List Char) := do
  let (unit, rest) ← hexUnit? cs
  if isLowSurrogate unit then none
  else if !isHighSurrogate unit then some (Char.ofNat unit, rest)
  else
    match rest with
    | '\\' :: 'u' :: rest =>
      let (low, rest) ← hexUnit? rest
      if isLowSurrogate low then
        some (Char.ofNat (0x10000 + (unit - 0xD800) * 0x400 + (low - 0xDC00)), rest)
      else none
    | _ => none

def escapes : List (Char × Char) :=
  [('"', '"'), ('\\', '\\'), ('/', '/'), ('b', '\x08'), ('f', '\x0c'), ('n', '\n'), ('r', '\r'),
    ('t', '\t')]

/-- The rest of a text, behind the opening quote and what has been read so far, last first. -/
def textTail : Nat → List Char → List Char → Option (String × List Char)
  | 0, _, _ => none
  | fuel + 1, cs, read =>
    match cs with
    | '"' :: rest => some (String.ofList read.reverse, rest)
    | '\\' :: 'u' :: rest => do
      let (c, rest) ← escapedUnit? rest
      textTail fuel rest (c :: read)
    | '\\' :: c :: rest => do
      let (_, meant) ← escapes.find? fun escape => escape.1 == c
      textTail fuel rest (meant :: read)
    | c :: rest => if c.toNat < 0x20 then none else textTail fuel rest (c :: read)
    | [] => none

def digits? (cs : List Char) : Option (List Char × List Char) :=
  let digits := cs.takeWhile Char.isDigit
  if digits.isEmpty then none else some (digits, cs.dropWhile Char.isDigit)

def sign (cs : List Char) : List Char × List Char :=
  match cs with
  | '-' :: rest => (['-'], rest)
  | _ => ([], cs)

def whole? (cs : List Char) : Option (List Char × List Char) := do
  let (digits, rest) ← digits? cs
  if digits.length > 1 && digits.head? == some '0' then none else some (digits, rest)

def fraction? (cs : List Char) : Option (List Char × List Char) :=
  match cs with
  | '.' :: rest => (digits? rest).map fun (digits, rest) => ('.' :: digits, rest)
  | _ => some ([], cs)

def exponent? (cs : List Char) : Option (List Char × List Char) :=
  match cs with
  | c :: rest =>
    if c == 'e' || c == 'E' then
      let (sign, rest) := match rest with
        | '+' :: rest => ([], rest)
        | _ => sign rest
      (digits? rest).map fun (digits, rest) => ('e' :: sign ++ digits, rest)
    else some ([], cs)
  | [] => some ([], [])

def number? (cs : List Char) : Option (Json × List Char) := do
  let (sign, cs) := sign cs
  let (whole, cs) ← whole? cs
  let (fraction, cs) ← fraction? cs
  let (exponent, cs) ← exponent? cs
  some (number (String.ofList (sign ++ whole ++ fraction ++ exponent)), cs)

mutual
def document? : Nat → List Char → Option (Json × List Char)
  | 0, _ => none
  | fuel + 1, cs =>
    match skipSpace cs with
    | 'n' :: 'u' :: 'l' :: 'l' :: rest => some (null, rest)
    | 't' :: 'r' :: 'u' :: 'e' :: rest => some (bool true, rest)
    | 'f' :: 'a' :: 'l' :: 's' :: 'e' :: rest => some (bool false, rest)
    | '"' :: rest => (textTail (rest.length + 1) rest []).map fun (word, rest) => (text word, rest)
    | '[' :: rest =>
      match skipSpace rest with
      | ']' :: rest => some (list [], rest)
      | rest => itemsTail fuel rest []
    | '\x7b' :: rest =>
      match skipSpace rest with
      | '\x7d' :: rest => some (object [], rest)
      | rest => fieldsTail fuel rest []
    | rest => number? rest
def itemsTail : Nat → List Char → List Json → Option (Json × List Char)
  | 0, _, _ => none
  | fuel + 1, cs, read => do
    let (item, rest) ← document? fuel cs
    match skipSpace rest with
    | ',' :: rest => itemsTail fuel rest (item :: read)
    | ']' :: rest => some (list (item :: read).reverse, rest)
    | _ => none
def fieldsTail : Nat → List Char → List (String × Json) → Option (Json × List Char)
  | 0, _, _ => none
  | fuel + 1, cs, read => do
    match skipSpace cs with
    | '"' :: rest =>
      let (name, rest) ← textTail (rest.length + 1) rest []
      match skipSpace rest with
      | ':' :: rest =>
        let (item, rest) ← document? fuel rest
        match skipSpace rest with
        | ',' :: rest => fieldsTail fuel rest ((name, item) :: read)
        | '\x7d' :: rest => some (object ((name, item) :: read).reverse, rest)
        | _ => none
      | _ => none
    | _ => none
end

def parse? (source : String) : Option Json := do
  let cs := source.toList
  let (json, rest) ← document? (cs.length + 1) cs
  if (skipSpace rest).isEmpty then some json else none

end Mechanism.Json
