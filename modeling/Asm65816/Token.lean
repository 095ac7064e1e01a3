namespace Asm65816

inductive Token.Kind
  | endOfLine
  | number
  | identifier
  | symbol
  deriving DecidableEq

structure Token where
  kind : Token.Kind
  text : String
  column : UInt32
  deriving DecidableEq

namespace Token

def Kind.name : Kind → String
  | endOfLine => "Eol"
  | number => "Number"
  | identifier => "Ident"
  | symbol => "Symbol"

def stop (column : UInt32) : Token := ⟨.endOfLine, "", column⟩

def isStop (t : Token) : Bool := t.kind = .endOfLine

def char? (t : Token) : Option Char :=
  match t.text.toList with
  | [c] => if c.utf8Size = 1 then some c else none
  | _ => none

def isSymbol (t : Token) (c : Char) : Bool := t.kind = .symbol && t.char? = some c

def isLetter (t : Token) (c : Char) : Bool :=
  t.kind = .identifier && t.char?.map Char.toLower = some c.toLower

def shown (t : Token) : String := if t.isStop then "end of line" else t.text

def describe (t : Token) : String :=
  let text := if t.text.isEmpty then "" else "(" ++ t.text ++ ")"
  t.kind.name ++ text ++ " [" ++ toString t.column ++ "]"

@[simp] theorem isStop_stop (column : UInt32) : (stop column).isStop = true := rfl

theorem not_isStop_of_isSymbol {t : Token} {c : Char} (h : t.isSymbol c = true) :
    t.isStop = false := by
  simp_all [isSymbol, isStop]

theorem not_isStop_of_isLetter {t : Token} {c : Char} (h : t.isLetter c = true) :
    t.isStop = false := by
  simp_all [isLetter, isStop]

end Token

end Asm65816
