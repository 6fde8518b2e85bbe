import WorkerPool.Text.Unprinted

/-! Quoted text: between double quotes, with escapes for what could not be read back or not be seen.
-/

namespace WorkerPool.Text

/-- The code point of a character in lower-case hexadecimal, in braces. -/
def escapeCode (c : Char) : String :=
  "\\u\x7b" ++ String.ofList (Nat.toDigits 16 c.toNat) ++ "\x7d"

/-- One character between the quotes. The two quoting characters, tab and the two line ends have
short escapes, as has the null character; anything else that is not shown stands as its code point.
-/
def escape (c : Char) : String :=
  match c with
  | '"' => "\\\""
  | '\\' => "\\\\"
  | '\t' => "\\t"
  | '\n' => "\\n"
  | '\r' => "\\r"
  | '\x00' => "\\0"
  | c =>
    if ' ' ≤ c ∧ c ≤ '~' then c.toString
    else if c < ' ' || unprinted c then escapeCode c
    else c.toString

def quote (s : String) : String :=
  "\"" ++ String.join (s.toList.map escape) ++ "\""

end WorkerPool.Text
