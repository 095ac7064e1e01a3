import Asm65816.Workspace

namespace Asm65816

structure Session extends Workspace where
  pass : Pass
  unit : UInt32

namespace Session

inductive Command
  | pass (pass : Pass)
  | unit (unit : UInt32)
  | define (label : String) (value : Int)
  | seek (address : UInt32)
  | write (address : UInt32) (bytes : List UInt8)
  | emit (bytes : List UInt8)
  | read (address : UInt32) (count : Nat)
  /-- Enters the instruction of a name. It is taken to stand at the address, or else at the
  cursor; its bytes go to the cursor. -/
  | enter (address : Option UInt32) (name : String) (line : Line)

inductive Reply
  | done
  | bytes (bytes : List UInt8)
  | encoded (encoding : Encoding)
  | refused (fault : Fault)

def ofWorkspace (w : Workspace) : Session := ⟨w, .first, 1⟩

def run (set : InstructionSet) (s : Session) : Command → Reply × Session
  | .pass pass => (.done, { s with pass })
  | .unit unit => (.done, { s with unit })
  | .define label value => (.done, { s with toWorkspace := s.toWorkspace.define label value })
  | .seek address => (.done, { s with image := s.image.seek address })
  | .write address bytes => (.done, { s with image := s.image.write address bytes })
  | .emit bytes => (.done, { s with image := s.image.emit bytes })
  | .read address count => (.bytes (s.image.slice address count), s)
  | .enter address name line =>
    match s.toWorkspace.enter set ⟨s.pass, address.getD s.image.cursor, s.unit⟩ name line with
    | .ok (e, w) => (.encoded e, { s with toWorkspace := w })
    | .error f => (.refused f, s)

end Session

end Asm65816
