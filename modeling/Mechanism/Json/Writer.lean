import Mechanism.Fingerprint
import Mechanism.Json.Basic
import Mechanism.Double

/-!
Writing JSON, on one line and without spaces, and floating-point numbers in JSON. Those for which
JSON has no number are written as words.
-/

namespace Mechanism.Json

def escapeChar (c : Char) : String :=
  if c == '"' then "\\\""
  else if c == '\\' then "\\\\"
  else if c.toNat < 0x20 then
    "\\u" ++ String.ofList ((Fingerprint.hexDigits c.toNat).drop 12)
  else c.toString

def quoted (word : String) : String :=
  "\"" ++ word.toList.foldl (fun written c => written ++ escapeChar c) "" ++ "\""

mutual
def write (written : String) : Json → String
  | null => written ++ "null"
  | bool value => written ++ (if value then "true" else "false")
  | number digits => written ++ digits
  | text value => written ++ quoted value
  | list items => writeItems (written ++ "[") "" items ++ "]"
  | object fields => writeFields (written ++ "\x7b") "" fields ++ "\x7d"
def writeItems (written separator : String) : List Json → String
  | [] => written
  | item :: rest => writeItems (write (written ++ separator) item) "," rest
def writeFields (written separator : String) : List (String × Json) → String
  | [] => written
  | (name, item) :: rest =>
    writeFields (write (written ++ separator ++ quoted name ++ ":") item) "," rest
end

def render (json : Json) : String := write "" json

def digitsValue (digits : List Char) : Nat :=
  digits.foldl (fun total digit => total * 10 + (digit.toNat - '0'.toNat)) 0

def signedValue : List Char → Int
  | '-' :: digits => -(digitsValue digits)
  | digits => digitsValue digits

/-- Powers of ten beyond this are zero or infinite whatever they are multiplied by. -/
def exponentLimit : Nat := 100000

def nearest (written : String) : Float :=
  let cs := written.toList
  let mantissa := (cs.dropWhile (· == '-')).takeWhile (· != 'e')
  let exponent := (cs.dropWhile (· != 'e')).drop 1
  let fraction := (mantissa.dropWhile (· != '.')).drop 1
  let digits := digitsValue (mantissa.filter (· != '.'))
  let places := signedValue exponent - fraction.length
  let magnitude :=
    if digits == 0 || places < -exponentLimit then 0.0
    else if places > exponentLimit then 1.0 / 0.0
    else Float.ofScientific digits (places < 0) places.natAbs
  if cs.head? == some '-' then -magnitude else magnitude

def ofDouble (value : Float) : Json :=
  let written := Decimal.Style.short.render (Double.parts value)
  if value.isFinite then number written else text written

def double? : Json → Option Float
  | number written => some (nearest written)
  | text "NaN" => some (0.0 / 0.0)
  | text "inf" => some (1.0 / 0.0)
  | text "-inf" => some (-1.0 / 0.0)
  | _ => none

def ofDoubles (values : List Float) : Json := list (values.map ofDouble)

end Mechanism.Json
