import Asm65816.Encode
import Asm65816.Image
import Asm65816.Line

namespace Asm65816

structure Workspace where
  image : Image
  labels : Std.TreeMap String Int

namespace Workspace

def empty (cursor : UInt32) : Workspace := ⟨.empty cursor, ∅⟩

def label? (w : Workspace) (name : String) : Option Int := w.labels[name]?

def define (w : Workspace) (name : String) (value : Int) : Workspace :=
  ⟨w.image, w.labels.insert name value⟩

def enter (set : InstructionSet) (site : Site) (name : String) (line : Line) (w : Workspace) :
    Except Fault (Encoding × Workspace) :=
  match (set.encode site (Expr.sum w.label?) w.image.read name).run line with
  | .ok e _ => .ok (e, ⟨w.image.emit e.bytes, w.labels⟩)
  | .error f _ => .error f

theorem label?_define (w : Workspace) (name other : String) (value : Int) :
    (w.define name value).label? other = if name = other then some value else w.label? other := by
  simp [label?, define, Std.TreeMap.getElem?_insert]

end Workspace

end Asm65816
