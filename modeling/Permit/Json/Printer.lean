-- The compact text of JSON values: no blanks, members in the order they have, and only
-- quotes, backslashes and control characters escaped.
import Permit.Decimal.Layout
import Permit.Json.Value

namespace Permit.Json

/-! ## Strings -/

/-- A digit of a hexadecimal number, in lower case. -/
def hexDigit (n : Nat) : Char := Nat.digitChar n

/-- One character inside quotes. -/
def escape (c : Char) : List Char :=
  match c with
  | '"' => ['\\', '"']
  | '\\' => ['\\', '\\']
  | '\n' => ['\\', 'n']
  | '\r' => ['\\', 'r']
  | '\t' => ['\\', 't']
  | '\x08' => ['\\', 'b']
  | '\x0c' => ['\\', 'f']
  | c =>
    if c.toNat < 0x20 then
      ['\\', 'u', '0', '0', hexDigit (c.toNat / 16), hexDigit (c.toNat % 16)]
    else [c]

/-- A string in quotes. -/
def quote (s : String) : List Char := '"' :: s.toList.flatMap escape ++ ['"']

/-! ## Numbers -/

/-- Floats from `1e-5` up to `1e16` are positional, and a whole one keeps `.0`. -/
def floatLayout : Decimal.Layout := ⟨fun e => -5 ≤ e && e < 16, true⟩

/-- The text of a number. -/
def Number.write : Number → List Char
  | .int i _ => intDigits i
  | .float x => x.write floatLayout

/-! ## Values -/

namespace Value

mutual

/-- The compact text, as characters. -/
def write : Value → List Char
  | .null => "null".toList
  | .bool true => "true".toList
  | .bool false => "false".toList
  | .num n => n.write
  | .str s => quote s
  | .arr items => '[' :: writeItems items ++ [']']
  | .obj members => '{' :: writeMembers members ++ ['}']

/-- Items with commas between them. -/
def writeItems : List Value → List Char
  | [] => []
  | [v] => write v
  | v :: rest => write v ++ ',' :: writeItems rest

/-- Members with commas between them. -/
def writeMembers : List (String × Value) → List Char
  | [] => []
  | [(k, v)] => quote k ++ ':' :: write v
  | (k, v) :: rest => quote k ++ ':' :: write v ++ ',' :: writeMembers rest

end

/-- The compact text. -/
def text (v : Value) : String := String.ofList v.write

instance : ToString Value := ⟨text⟩

end Value
end Permit.Json
