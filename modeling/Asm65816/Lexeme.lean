import Asm65816.Numeral
import Asm65816.Line

namespace Asm65816

structure Lexeme where
  kind : Token.Kind
  text : List Char
  start : Nat
  deriving DecidableEq

namespace Lexeme

def isBlank (c : Char) : Bool := c = ' ' || c = '\t'

def isNameStart (c : Char) : Bool := c.isAlpha || c = '_'

def isNameRest (c : Char) : Bool := c.isAlphanum || c = '_'

def symbols : List Char :=
  ['#', '<', '>', '!', '(', ')', '[', ']', ',', '.', '+', '-', ':', '*']

def name? : List Char → Option (List Char × List Char)
  | [] => none
  | c :: cs =>
    if isNameStart c then some (c :: cs.takeWhile isNameRest, cs.dropWhile isNameRest) else none

def symbol? : List Char → Option (List Char × List Char)
  | [] => none
  | c :: cs => if symbols.contains c then some ([c], cs) else none

def first? (cs : List Char) : Option (Token.Kind × List Char × List Char) :=
  ((Numeral.first? cs).map (.number, ·)).or
    (((name? cs).map (.identifier, ·)).or ((symbol? cs).map (.symbol, ·)))

theorem append_of_name? {cs text rest : List Char} (h : name? cs = some (text, rest)) :
    text ++ rest = cs ∧ text ≠ [] := by
  cases cs with
  | nil => cases h
  | cons c cs =>
    simp only [name?] at h
    split at h
    · cases h; simp [List.takeWhile_append_dropWhile]
    · cases h

theorem append_of_symbol? {cs text rest : List Char} (h : symbol? cs = some (text, rest)) :
    text ++ rest = cs ∧ text ≠ [] := by
  cases cs with
  | nil => cases h
  | cons c cs =>
    simp only [symbol?] at h
    split at h
    · cases h; simp
    · cases h

theorem append_of_first? {cs text rest : List Char} {k : Token.Kind}
    (h : first? cs = some (k, text, rest)) : text ++ rest = cs ∧ text ≠ [] := by
  simp only [first?, Option.or_eq_some_iff, Option.map_eq_some_iff, Prod.mk.injEq] at h
  rcases h with ⟨_, h, -, rfl⟩ | ⟨-, ⟨_, h, -, rfl⟩ | ⟨-, _, h, -, rfl⟩⟩
  · exact Numeral.append_of_first? h
  · exact append_of_name? h
  · exact append_of_symbol? h

theorem length_of_first? {cs text rest : List Char} {k : Token.Kind}
    (h : first? cs = some (k, text, rest)) : rest.length < cs.length := by
  obtain ⟨rfl, hne⟩ := append_of_first? h
  have := List.length_pos_iff.2 hne
  rw [List.length_append]
  omega

/-- Splits the characters from a byte offset on into lexemes. Blanks separate them, a semicolon
begins a comment, and the offset of a character that starts no lexeme is the failure. Lexemes are
ASCII, so that their characters count their bytes. -/
def scan (start : Nat) (cs : List Char) : Except Nat (List Lexeme) :=
  match cs with
  | [] => .ok []
  | c :: rest =>
    if isBlank c then scan (start + 1) rest
    else if c = ';' then .ok []
    else
      match _ : first? (c :: rest) with
      | none => .error start
      | some (kind, text, tail) =>
        (scan (start + text.length) tail).map (⟨kind, text, start⟩ :: ·)
termination_by cs.length
decreasing_by
  · simp
  · exact length_of_first? ‹_›

def toToken (x : Lexeme) : Token := ⟨x.kind, String.ofList x.text, UInt32.ofNat x.start⟩

end Lexeme

def Line.ofText (text : String) : Except Nat Line :=
  (Lexeme.scan 0 text.toList).map fun xs ↦
    ⟨xs.map Lexeme.toToken, UInt32.ofNat text.utf8ByteSize⟩

end Asm65816
