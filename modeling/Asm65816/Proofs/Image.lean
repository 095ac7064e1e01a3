import Asm65816.Image

namespace Asm65816

theorem toNat_add_sub (x : UInt32) {n : Nat} (h : n < UInt32.size) :
    (x + UInt32.ofNat n - x).toNat = n := by
  have hx := x.toNat_lt
  rw [UInt32.size] at h
  rw [UInt32.toNat_sub, UInt32.toNat_add, UInt32.toNat_ofNat']
  omega

namespace Image

@[simp] theorem emit_nil (image : Image) : image.emit [] = image := by
  change Image.mk image.cells (image.cursor + 0) = image
  rw [UInt32.add_zero]

theorem write_append (image : Image) (address : UInt32) (xs ys : List UInt8) :
    image.write address (xs ++ ys) =
      (image.write address xs).write (address + UInt32.ofNat xs.length) ys := by
  induction xs generalizing image address with
  | nil => simp [write]
  | cons x xs ih =>
    have hl : address + UInt32.ofNat (x :: xs).length = address + 1 + UInt32.ofNat xs.length := by
      rw [List.length_cons, UInt32.ofNat_add, UInt32.add_comm (UInt32.ofNat xs.length),
        ← UInt32.add_assoc]
      rfl
    rw [hl]
    exact ih _ _

theorem write_seek (image : Image) (cursor address : UInt32) (bytes : List UInt8) :
    (image.seek cursor).write address bytes = (image.write address bytes).seek cursor := by
  induction bytes generalizing image address with
  | nil => rfl
  | cons b bs ih => exact ih ⟨image.cells.insert address b, image.cursor⟩ _

theorem emit_append (image : Image) (xs ys : List UInt8) :
    image.emit (xs ++ ys) = (image.emit xs).emit ys := by
  have hc : image.cursor + UInt32.ofNat (xs ++ ys).length =
      image.cursor + UInt32.ofNat xs.length + UInt32.ofNat ys.length := by
    rw [List.length_append, UInt32.ofNat_add, UInt32.add_assoc]
  unfold emit
  rw [write_append, hc, write_seek]
  rfl

theorem read_emit_eq {image : Image} {bytes : List UInt8} (h : bytes.length ≤ UInt32.size)
    (x : UInt32) :
    (image.emit bytes).read x = bytes[(x - image.cursor).toNat]?.getD (image.read x) :=
  read_write h image image.cursor x

theorem slice_emit (image : Image) {bytes : List UInt8} (h : bytes.length ≤ UInt32.size) :
    (image.emit bytes).slice image.cursor bytes.length = bytes := by
  refine List.ext_getElem (by simp [slice]) fun i hi hi' ↦ ?_
  simp only [slice, List.getElem_map, List.getElem_range]
  rw [read_emit_eq h, toNat_add_sub _ (by omega), List.getElem?_eq_getElem hi']
  rfl

theorem slice_emit_append (image : Image) {xs ys : List UInt8}
    (h : (xs ++ ys).length ≤ UInt32.size) :
    (image.emit (xs ++ ys)).slice image.cursor xs.length = xs := by
  have hall := congrArg (List.take xs.length) (slice_emit image h)
  have hle : xs.length ≤ (xs ++ ys).length := by simp
  rw [List.take_left, slice, ← List.map_take, List.take_range, Nat.min_eq_left hle] at hall
  exact hall

theorem toNat_sub_eq_succ {address x : UInt32} (h : address ≠ x) :
    (x - address).toNat = (x - (address + 1)).toNat + 1 := by
  have hne : address.toNat ≠ x.toNat := fun h' ↦ h (UInt32.toNat_inj.1 h')
  have ha := address.toNat_lt
  have hx := x.toNat_lt
  simp only [UInt32.toNat_sub, UInt32.toNat_add, UInt32.toNat_one]
  omega

theorem mem_cells_write {bytes : List UInt8} (h : bytes.length ≤ UInt32.size) (image : Image)
    (address x : UInt32) :
    x ∈ (image.write address bytes).cells ↔
      x ∈ image.cells ∨ (x - address).toNat < bytes.length := by
  induction bytes generalizing image address with
  | nil => simp [write]
  | cons b bs ih =>
    have hb : bs.length < UInt32.size := h
    rw [write, ih (Nat.le_of_lt hb), Std.TreeMap.mem_insert, List.length_cons]
    by_cases hx : address = x
    · subst hx
      simp
    · have hc : ¬compare address x = .eq := fun h' ↦ hx (Std.LawfulEqCmp.eq_of_compare h')
      rw [toNat_sub_eq_succ hx]
      simp only [hc, false_or, Nat.add_lt_add_iff_right]

theorem mem_cells_emit {image : Image} {bytes : List UInt8} (h : bytes.length ≤ UInt32.size)
    (x : UInt32) :
    x ∈ (image.emit bytes).cells ↔
      x ∈ image.cells ∨ (x - image.cursor).toNat < bytes.length :=
  mem_cells_write h image image.cursor x

end Image

end Asm65816
