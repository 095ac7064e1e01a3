import Asm65816.TokenSource

namespace Asm65816

structure Line where
  tokens : List Token
  stop : UInt32
  deriving DecidableEq

namespace Line

/-- A line that has run out of tokens stops again at every read. -/
def next (l : Line) : Token × Line :=
  match l.tokens with
  | [] => (Token.stop l.stop, l)
  | t :: ts => (t, ⟨ts, l.stop⟩)

def putBack (t : Token) (l : Line) : Line := ⟨t :: l.tokens, l.stop⟩

instance : TokenSource Line where
  next := next
  putBack := putBack
  remaining l := l.tokens.length
  remaining_next l h := by
    cases l with
    | mk tokens stop => cases tokens <;> simp_all [next]

def words (l : Line) : List Token := l.tokens.takeWhile (!·.isStop)

def firstStop (l : Line) : Token := (l.tokens.find? (·.isStop)).getD (Token.stop l.stop)

@[simp] theorem next_nil (stop : UInt32) : next ⟨[], stop⟩ = (Token.stop stop, ⟨[], stop⟩) := rfl

@[simp] theorem next_cons (t : Token) (ts : List Token) (stop : UInt32) :
    next ⟨t :: ts, stop⟩ = (t, ⟨ts, stop⟩) := rfl

@[simp] theorem next_putBack (t : Token) (l : Line) : next (putBack t l) = (t, l) := rfl

instance : LawfulTokenSource Line := ⟨fun l ↦ next_putBack (next l).1 (next l).2⟩

theorem putBack_next {l : Line} (h : l.tokens ≠ []) : putBack (next l).1 (next l).2 = l := by
  obtain ⟨_ | ⟨t, ts⟩, stop⟩ := l
  · exact absurd rfl h
  · rfl

end Line

end Asm65816
