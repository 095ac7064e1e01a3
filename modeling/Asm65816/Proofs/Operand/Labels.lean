import Asm65816.Line
import Asm65816.Proofs.Operand.Alike

namespace Asm65816

open TokenSource

def Token.Agrees (labels labels' : String → Option Int) (t : Token) : Prop :=
  t.kind = .identifier → labels t.text = labels' t.text

def Line.Agrees (labels labels' : String → Option Int) (l : Line) : Prop :=
  ∀ t ∈ l.tokens, t.Agrees labels labels'

variable {labels labels' : String → Option Int} {s : Line} {t : Token}

theorem agrees_next (h : s.Agrees labels labels') :
    (next s).1.Agrees labels labels' ∧ (next s).2.Agrees labels labels' := by
  obtain ⟨_ | ⟨t, ts⟩, stop⟩ := s
  · exact ⟨fun hk ↦ (by cases hk), h⟩
  · exact List.forall_mem_cons.1 h

theorem agrees_putBack (ht : t.Agrees labels labels') (h : s.Agrees labels labels') :
    (putBack t s).Agrees labels labels' := List.forall_mem_cons.2 ⟨ht, h⟩

variable (labels labels') in
def Line.twins : Twins Line Line labels labels' where
  Same u v := u = v ∧ u.Agrees labels labels'
  Free s t := s = t ∧ s.Agrees labels labels'
  Held s t := s = t ∧ s.Agrees labels labels'
  like := by
    intro u v h
    obtain ⟨rfl, hu⟩ := h
    exact { Token.Like.refl labels u with label := hu }
  held_of_free h := h
  next := by
    intro s t h
    obtain ⟨rfl, hs⟩ := h
    exact ⟨⟨rfl, (agrees_next hs).1⟩, rfl, (agrees_next hs).2⟩
  putBack := by
    intro u v s t hu hs
    obtain ⟨rfl, hu⟩ := hu
    obtain ⟨rfl, hs⟩ := hs
    exact ⟨rfl, agrees_putBack hu hs⟩

/-- An instruction is encoded by the labels that are named in its line. -/
theorem InstructionSet.run_encode_of_agrees (set : InstructionSet) (site : Site)
    (memory : UInt32 → UInt8) (name : String) (h : s.Agrees labels labels') :
    (set.encode site (Expr.sum labels) memory name).run s =
      (set.encode site (Expr.sum labels') memory name).run s := by
  have hencode : (Line.twins labels labels').Alike (Line.twins labels labels').Held
      (set.encode site (Expr.sum labels) memory name)
      (set.encode site (Expr.sum labels') memory name) := .encode set name
  exact (hencode s s ⟨rfl, h⟩).eq (fun _ _ h ↦ h.eq fun _ _ h ↦ h.1) fun _ _ h ↦ h.1

end Asm65816
