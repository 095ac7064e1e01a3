namespace Asm65816.Text

def fold (text : String) : String := String.ofList (text.toList.map Char.toLower)

def hexadecimal (n : Nat) : String := String.ofList ((Nat.toDigits 16 n).map Char.toUpper)

def hexByte (b : UInt8) : String :=
  hexadecimal (b.toNat / 16) ++ hexadecimal (b.toNat % 16)

theorem toNat_toLower (c : Char) :
    c.toLower.toNat = if 65 ≤ c.toNat ∧ c.toNat ≤ 90 then c.toNat + 32 else c.toNat := by
  unfold Char.toLower
  split
  · next h =>
    have hc : 65 ≤ c.toNat ∧ c.toNat ≤ 90 := h
    have hadd : (c.val + 32).toNat = (c.toNat + 32) % 0x100000000 := UInt32.toNat_add ..
    rw [if_pos hc]
    exact hadd.trans (Nat.mod_eq_of_lt (by omega))
  · next h => exact (if_neg h).symm

end Asm65816.Text
