import Asm65816.Token

namespace Asm65816

/-- What a line is read from, one token at a time; a token just read can be put back. -/
class TokenSource (σ : Type) where
  next : σ → Token × σ
  putBack : Token → σ → σ
  /-- Bounds the tokens that are still to be read before the line stops. -/
  remaining : σ → Nat
  remaining_next (s : σ) :
    (next s).1.isStop = false → remaining (next s).2 < remaining s

namespace TokenSource

variable {σ ε : Type} [TokenSource σ]

def pull : EStateM ε σ Token := fun s ↦ .ok (next s).1 (next s).2

def push (t : Token) : EStateM ε σ Unit := fun s ↦ .ok () (putBack t s)

@[simp] theorem run_pull (s : σ) : (pull : EStateM ε σ Token).run s = .ok (next s).1 (next s).2 :=
  rfl

@[simp] theorem run_push (t : Token) (s : σ) :
    (push t : EStateM ε σ Unit).run s = .ok () (putBack t s) := rfl

end TokenSource

class LawfulTokenSource (σ : Type) [TokenSource σ] : Prop where
  next_putBack (s : σ) :
    TokenSource.next (TokenSource.putBack (TokenSource.next s).1 (TokenSource.next s).2) =
      TokenSource.next s

end Asm65816
