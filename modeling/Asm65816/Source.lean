import Asm65816.TokenSource

namespace Asm65816.Source

def dropReturn : List Char → List Char
  | '\r' :: cs => cs
  | cs => cs

def linesFrom (front : List Char) : List Char → List (List Char)
  | [] => if front.isEmpty then [] else [front.reverse]
  | c :: cs =>
    if c = '\n' then (dropReturn front).reverse :: linesFrom [] cs else linesFrom (c :: front) cs

/-- The lines of a text. A line feed ends each of them but maybe the last one, and a carriage
return in front of it goes with it. -/
def lines (text : String) : List String := (linesFrom [] text.toList).map String.ofList

open TokenSource

variable {σ : Type} [TokenSource σ]

def label (s : σ) : Option String × Token × σ :=
  let (t, rest) := next s
  if t.kind = .identifier then
    let (colon, rest) := next rest
    if colon.isSymbol ':' then (some t.text, next rest) else (none, t, putBack colon rest)
  else (none, t, rest)

end Asm65816.Source
