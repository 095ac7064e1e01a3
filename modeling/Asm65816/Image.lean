import Std.Data.TreeMap.Lemmas

namespace Asm65816

structure Image where
  cells : Std.TreeMap UInt32 UInt8
  cursor : UInt32

namespace Image

def empty (cursor : UInt32) : Image := ⟨∅, cursor⟩

def read (image : Image) (address : UInt32) : UInt8 := image.cells.getD address 0

def slice (image : Image) (address : UInt32) (count : Nat) : List UInt8 :=
  (List.range count).map fun i ↦ image.read (address + UInt32.ofNat i)

def write (image : Image) (address : UInt32) : List UInt8 → Image
  | [] => image
  | b :: bs => write ⟨image.cells.insert address b, image.cursor⟩ (address + 1) bs

def seek (image : Image) (cursor : UInt32) : Image := ⟨image.cells, cursor⟩

def emit (image : Image) (bytes : List UInt8) : Image :=
  (image.write image.cursor bytes).seek (image.cursor + UInt32.ofNat bytes.length)

@[simp] theorem read_empty (cursor address : UInt32) : (empty cursor).read address = 0 := by
  simp [read, empty]

@[simp] theorem read_seek (image : Image) (cursor address : UInt32) :
    (image.seek cursor).read address = image.read address := rfl

@[simp] theorem cursor_seek (image : Image) (cursor : UInt32) :
    (image.seek cursor).cursor = cursor := rfl

@[simp] theorem cursor_write (image : Image) (address : UInt32) (bytes : List UInt8) :
    (image.write address bytes).cursor = image.cursor := by
  induction bytes generalizing image address with
  | nil => rfl
  | cons b bs ih => exact ih ..

@[simp] theorem cursor_emit (image : Image) (bytes : List UInt8) :
    (image.emit bytes).cursor = image.cursor + UInt32.ofNat bytes.length := rfl

theorem read_write {bytes : List UInt8} (h : bytes.length ≤ UInt32.size) (image : Image)
    (address x : UInt32) :
    (image.write address bytes).read x = bytes[(x - address).toNat]?.getD (image.read x) := by
  induction bytes generalizing image address with
  | nil => rfl
  | cons b bs ih =>
    have hb : bs.length < UInt32.size := h
    rw [write, ih (Nat.le_of_lt hb)]
    rw [UInt32.size] at hb
    by_cases hx : address = x
    · subst hx
      have h1 : (address - (address + 1)).toNat = 0xFFFFFFFF := by
        rw [UInt32.toNat_sub, UInt32.toNat_add]
        have := address.toNat_lt
        simp only [UInt32.toNat_one]
        omega
      rw [h1, List.getElem?_eq_none (by omega)]
      simp [read]
    · have h1 : (x - address).toNat = (x - (address + 1)).toNat + 1 := by
        have : address.toNat ≠ x.toNat := fun h ↦ hx (UInt32.toNat_inj.1 h)
        have := address.toNat_lt
        have := x.toNat_lt
        simp only [UInt32.toNat_sub, UInt32.toNat_add, UInt32.toNat_one]
        omega
      rw [h1, List.getElem?_cons_succ]
      simp [read, Std.TreeMap.getD_insert, hx]

theorem read_emit (image : Image) (bytes : List UInt8) (x : UInt32) :
    (image.emit bytes).read x = (image.write image.cursor bytes).read x := rfl

end Image

end Asm65816
