import Asm65816.Text

namespace Asm65816

inductive Width
  | byte
  | word
  | long
  deriving DecidableEq

namespace Width

def bits : Width → Nat
  | byte => 8
  | word => 16
  | long => 24

def ofSuffix? (text : String) : Option Width :=
  match text.toList.map Char.toLower with
  | ['b'] => some byte
  | ['w'] => some word
  | ['l'] => some long
  | _ => none

theorem ofSuffix?_eq_some_iff {text : String} {w : Width} :
    ofSuffix? text = some w ↔
      w = byte ∧ (text = "b" ∨ text = "B") ∨ w = word ∧ (text = "w" ∨ text = "W") ∨
        w = long ∧ (text = "l" ∨ text = "L") := by
  have hletter (c : Char) :
      (c.toLower = 'b' ↔ c = 'b' ∨ c = 'B') ∧ (c.toLower = 'w' ↔ c = 'w' ∨ c = 'W') ∧
        (c.toLower = 'l' ↔ c = 'l' ∨ c = 'L') := by
    simp only [← Char.toNat_inj, Text.toNat_toLower, Char.reduceToNat]
    split <;> omega
  simp only [ofSuffix?, ← String.toList_inj, String.reduceToList]
  rcases text.toList with _ | ⟨c, _ | ⟨d, cs⟩⟩
  · simp
  · obtain ⟨hb, hw, hl⟩ := hletter c
    simp only [List.map_cons, List.map_nil, List.cons.injEq, and_true, ← hb, ← hw, ← hl]
    generalize c.toLower = m
    split <;> cases w <;> simp_all
  · simp

def size : Width → Int
  | byte => 0x100
  | word => 0x10000
  | long => 0x1000000

def truncate (w : Width) (v : Int) : Int := v % w.size

theorem size_pos (w : Width) : 0 < w.size := by cases w <;> decide

theorem truncate_nonneg (w : Width) (v : Int) : 0 ≤ w.truncate v :=
  Int.emod_nonneg v (Int.ne_of_gt w.size_pos)

theorem truncate_lt (w : Width) (v : Int) : w.truncate v < w.size :=
  Int.emod_lt_of_pos v w.size_pos

theorem truncate_of_lt {w : Width} {v : Int} (h : 0 ≤ v) (hv : v < w.size) : w.truncate v = v :=
  Int.emod_eq_of_lt h hv

end Width

end Asm65816
