/-! The layout of a described value: a tree of leaves and bracketed parts, written on one line or
spread over several with an indent for each level. -/

namespace WorkerPool.Text

/-- How a description is laid out. -/
inductive Style
  | plain
  | pretty
  deriving DecidableEq, Repr

/-- The brackets around the parts of a node. Parts in braces are labelled, the others are not. -/
inductive Brackets
  | braces
  | parens
  | squares
  deriving DecidableEq, Repr

mutual

inductive Shape
  | leaf (text : String)
  | node (name : String) (brackets : Brackets) (parts : Parts)

inductive Parts
  | none
  | part (label : String) (shape : Shape) (rest : Parts)

end

namespace Brackets

def opening : Brackets → String
  | .braces => "\x7b"
  | .parens => "("
  | .squares => "["

def closing : Brackets → String
  | .braces => "\x7d"
  | .parens => ")"
  | .squares => "]"

/-- What stands between a brace and its neighbour on one line. -/
def padding : Brackets → String
  | .braces => " "
  | .parens | .squares => ""

/-- What stands before the value of a part. -/
def labelText (brackets : Brackets) (label : String) : String :=
  match brackets with
  | .braces => label ++ ": "
  | .parens | .squares => ""

end Brackets

def Parts.isEmpty : Parts → Bool
  | .none => true
  | .part .. => false

mutual

/-- The description on one line. -/
def Shape.plain : Shape → String
  | .leaf text => text
  | .node name brackets parts =>
    name ++ brackets.padding ++ brackets.opening ++ brackets.padding ++ parts.plain brackets ++
      brackets.padding ++ brackets.closing

def Parts.plain (brackets : Brackets) : Parts → String
  | .none => ""
  | .part label shape rest =>
    brackets.labelText label ++ shape.plain ++ (if rest.isEmpty then "" else ", ") ++
      rest.plain brackets

end

/-- The start of a line that stands `depth` levels in. -/
def indent (depth : Nat) : String :=
  "".pushn ' ' (4 * depth)

mutual

/-- The description over several lines, whose first line stands `depth` levels in. A node without
parts stays on one line. -/
def Shape.pretty (depth : Nat) : Shape → String
  | .leaf text => text
  | .node name brackets parts =>
    name ++ brackets.padding ++ brackets.opening ++
      (if parts.isEmpty then "" else "\n" ++ parts.pretty brackets (depth + 1) ++ indent depth) ++
      brackets.closing

def Parts.pretty (brackets : Brackets) (depth : Nat) : Parts → String
  | .none => ""
  | .part label shape rest =>
    indent depth ++ brackets.labelText label ++ shape.pretty depth ++ ",\n" ++
      rest.pretty brackets depth

end

namespace Shape

def write (shape : Shape) : Style → String
  | .plain => shape.plain
  | .pretty => shape.pretty 0

/-- A record with labelled fields. -/
def record (name : String) (fields : List (String × Shape)) : Shape :=
  .node name .braces (fields.foldr (fun (label, shape) rest => .part label shape rest) .none)

/-- A name applied to one value. -/
def applied (name : String) (shape : Shape) : Shape :=
  .node name .parens (.part "" shape .none)

def sequence (shapes : List Shape) : Shape :=
  .node "" .squares (shapes.foldr (fun shape rest => .part "" shape rest) .none)

def ofNat (n : Nat) : Shape :=
  .leaf (toString n)

def ofBool (b : Bool) : Shape :=
  .leaf (toString b)

def ofOption {α : Type} (describe : α → Shape) : Option α → Shape
  | some x => applied "Some" (describe x)
  | none => .leaf "None"

end Shape

/-- Puts a star for the digits of every hexadecimal number, so that no address is shown. While
`inNumber`, digits are passed over; a number can begin among the digits of the one before. -/
def hideHex (inNumber : Bool) : List Char → List Char
  | [] => []
  | '0' :: 'x' :: rest => '0' :: 'x' :: '*' :: hideHex true rest
  | c :: rest =>
    if inNumber && (c.isDigit || 'a' ≤ c && c ≤ 'f' || 'A' ≤ c && c ≤ 'F') then hideHex true rest
    else c :: hideHex false rest

/-- A description with every address hidden. -/
def Shape.describe (shape : Shape) (style : Style) : String :=
  String.ofList (hideHex false (shape.write style).toList)

end WorkerPool.Text
