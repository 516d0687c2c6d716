-- Paths to settings: a name, and then members after points and places in brackets. What
-- is on the way to the end of a path is made when it is missing.
import Permit.Settings.Setting

namespace Permit

/-- A step into a setting: to a member of a table, or to a place in a list, from its end if
negative. -/
inductive Step where
  | member (name : String)
  | place (index : Int)
deriving DecidableEq, Repr

/-- The way to a setting, from the whole configuration on. -/
abbrev Path := List Step

namespace Path

/-! ## Texts -/

/-- The characters of a name in a path. -/
def isNameChar (c : Char) : Bool := c.isAlphanum || c == '_' || c == '-'

/-- A name at the start of a text. -/
def name? (s : List Char) : Option (String × List Char) :=
  match s.takeWhile isNameChar with
  | [] => none
  | name => some (String.ofList name, s.dropWhile isNameChar)

/-- The number of a place and what follows its bracket. Blanks may stand around the
number, and a minus in front of it. -/
def place? (s : List Char) : Option (Int × List Char) :=
  let s := s.dropWhile Toml.isSpace
  let (neg, s) := match s with
    | '-' :: rest => (true, rest)
    | s => (false, s)
  let digits := s.takeWhile Char.isDigit
  match digits, (s.dropWhile Char.isDigit).dropWhile Toml.isSpace with
  | d :: ds, ']' :: rest =>
    let magnitude : Int := Extended.digitsValue (d :: ds)
    let index := if neg then -magnitude else magnitude
    if Toml.isWord index then some (index, rest) else none
  | _, _ => none

/-- More steps up to the end of the text. -/
def stepsOfText? : Nat → List Char → Option Path
  | _, [] => some []
  | 0, _ :: _ => none
  | fuel + 1, c :: rest =>
    if c = '.' then
      match name? rest with
      | none => none
      | some (name, rest) => (stepsOfText? fuel rest).map (.member name :: ·)
    else if c = '[' then
      match place? rest with
      | none => none
      | some (index, rest) => (stepsOfText? fuel rest).map (.place index :: ·)
    else none

/-- The path that a text spells. A text that spells none is one name. -/
def ofText (s : String) : Path :=
  match name? s.toList with
  | none => [.member s]
  | some (name, rest) =>
    match stepsOfText? rest.length rest with
    | none => [.member s]
    | some steps => .member name :: steps

/-- The text of more steps. -/
def moreText : Path → String
  | [] => ""
  | .member name :: rest => "." ++ name ++ moreText rest
  | .place index :: rest => "[" ++ String.ofList (intDigits index) ++ "]" ++ moreText rest

/-- The text of a path. -/
def text : Path → String
  | .member name :: rest => name ++ moreText rest
  | path => moreText path

end Path

/-! ## Setting what a path leads to -/

namespace Setting

/-- The items with room for a place, and that place from the start. Missing items are
absent; those before the start of the list are put in front. -/
def withRoom (index : Int) (items : List Setting) : List Setting × Nat :=
  let fromStart := if index < 0 then index + items.length else index
  if fromStart < 0 then (List.replicate fromStart.natAbs .absent ++ items, 0)
  else
    let missing := fromStart.toNat + 1 - items.length
    (items ++ List.replicate missing .absent, fromStart.toNat)

/-- Changes what a path leads to. -/
def change (f : Setting → Setting) : Path → Setting → Setting
  | [], s => f s
  | .member name :: rest, s => s.withMember name (change f rest (s.member name))
  | .place index :: rest, s =>
    let (items, i) := withRoom index s.items
    .list (items.set i (change f rest (items[i]?.getD .absent)))

/-- Sets what a path leads to, over what is there. -/
def put (s : Setting) (path : Path) (v : Setting) : Setting :=
  change (fun old => old.overlay v) path s

end Setting
end Permit
