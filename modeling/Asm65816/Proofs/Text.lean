import Asm65816.Text

namespace Asm65816.Text

abbrev lowered (cs : List Char) : List Char := cs.map Char.toLower

variable {c m : Char}

theorem toNat_toUpper (c : Char) :
    c.toUpper.toNat = if 97 ≤ c.toNat ∧ c.toNat ≤ 122 then c.toNat - 32 else c.toNat := by
  unfold Char.toUpper
  split
  · next h =>
    have hc : 97 ≤ c.toNat ∧ c.toNat ≤ 122 := h
    have hadd : (c.val + 0xFFFFFFE0).toNat = (c.toNat + 0xFFFFFFE0) % 0x100000000 :=
      UInt32.toNat_add ..
    rw [if_pos hc]
    exact hadd.trans (by omega)
  · next h => exact (if_neg h).symm

theorem toLower_eq_iff (h : m.toNat < 65 ∨ 90 < m.toNat ∧ m.toNat < 97 ∨ 122 < m.toNat) :
    c.toLower = m ↔ c = m := by
  rw [← Char.toNat_inj, ← Char.toNat_inj, toNat_toLower]
  split <;> omega

theorem utf8Size_toLower (c : Char) : c.toLower.utf8Size = c.utf8Size := by
  have hsize {d : Char} (h : d.toNat ≤ 127) : d.utf8Size = 1 := Char.utf8Size_eq_one_iff.2 h
  have hlower := toNat_toLower c
  split at hlower
  · rw [hsize (by omega), hsize (by omega)]
  · rw [Char.toNat_inj.1 hlower]

theorem toLower_toLower (c : Char) : c.toLower.toLower = c.toLower := by
  rw [← Char.toNat_inj, toNat_toLower c.toLower, if_neg]
  rw [toNat_toLower]
  split <;> omega

theorem lowered_lowered (cs : List Char) : (lowered cs).map Char.toLower = lowered cs := by
  rw [List.map_map]
  exact List.map_congr_left fun c _ ↦ toLower_toLower c

theorem fold_fold (text : String) : fold (fold text) = fold text := by
  rw [fold, fold, String.toList_ofList]
  exact congrArg String.ofList (lowered_lowered text.toList)

end Asm65816.Text
