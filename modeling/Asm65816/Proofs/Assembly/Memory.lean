import Asm65816.Proofs.Assembly.Layout
import Asm65816.Proofs.Encoding

namespace Asm65816

structure Encoding.Holds (e : Encoding) (v : Int) (n : Nat) : Prop where
  value : e.value = v
  nonneg : 0 ≤ v
  lt : v < byteRange (e.length - 1)
  room : v = 0 → e.length = n + 1

namespace Assembly

variable {set : InstructionSet} {source : String} {origin : UInt32} {a : Assembly}
variable {k n : Nat} {v w u : Visit} {p : Pass} {texts : List String} {c : Assembly}

theorem toNat_offset {m i : Nat} (h : m + i < UInt32.size) :
    (origin + UInt32.ofNat m + UInt32.ofNat i - origin).toNat = m + i := by
  rw [UInt32.add_assoc, ← UInt32.ofNat_add, toNat_add_sub origin h]

theorem length_firstVisits (h : (pass set .first source).run (start origin) = .ok () a) :
    (firstVisits set source origin).length = (Source.lines source).length :=
  length_visitsFrom (sweep_of_first h)

theorem span_take_le_room {vs : List Visit} (hl : vs.length ≤ (Source.lines source).length)
    (k : Nat) : span set (vs.take k) ≤ 4 * (Source.lines source).length := by
  have htake : span set (vs.take k) ≤ span set vs := span_take_le k vs
  have hall : span set vs ≤ 4 * vs.length := span_le vs
  omega

/-- What the first pass leaves behind an opcode: the operand, then the instructions that follow,
then zeros. -/
theorem read_of_firstVisit (h : (pass set .first source).run (start origin) = .ok () a)
    (hv : (firstVisits set source origin)[k]? = some v)
    (hroom : origin.toNat + 4 * (Source.lines source).length + 4 < UInt32.size) {i : Nat}
    (hi : i ≤ 3) :
    a.image.read (v.address + UInt32.ofNat i) =
      (v.bytes set ++ listing set ((firstVisits set source origin).drop (k + 1)))[i]?.getD 0 := by
  have hle : span set ((firstVisits set source origin).take k) ≤ _ :=
    span_take_le_room (Nat.le_of_eq (length_firstVisits h)) k
  have hall : span set (firstVisits set source origin) ≤ _ := span_le _
  rw [length_firstVisits h] at hall
  rw [address_of_firstVisit hv, image_of_first h,
    Image.read_emit_eq (by rw [length_listing]; omega), Image.read_empty]
  change (listing set (firstVisits set source origin))[(_ - origin).toNat]?.getD 0 = _
  rw [toNat_offset (by omega), listing_eq_append hv,
    List.getElem?_append_right (by rw [length_listing]; omega), length_listing,
    Nat.add_sub_cancel_left]

/-- A sweep does not write behind the opcode of a line before it comes there. -/
theorem read_of_visit (hu : (visitsFrom set p n texts c)[k]? = some u) {i : Nat}
    (hroom : 4 * texts.length + i < UInt32.size) :
    u.assembly.image.read (u.address + UInt32.ofNat i) =
      c.image.read (u.address + UInt32.ofNat i) := by
  obtain ⟨hs, ht, hx, -, -⟩ := sweep_take hu
  have himage := image_of_sweep hs
  have hspan : span set (visitsFrom set p n (texts.take k) c) ≤ _ := span_le _
  rw [length_visitsFrom hs, List.length_take] at hspan
  unfold Visit.address
  rw [himage, Image.cursor_emit, length_listing, Image.read_emit_eq (by rw [length_listing]; omega),
    toNat_offset (by omega), List.getElem?_eq_none (by rw [length_listing]; omega)]
  rfl

theorem isForward_of_visit (hu : (visitsFrom set p n texts c)[k]? = some u)
    (hroom : 4 * texts.length + 3 < UInt32.size) :
    u.site.isForward u.workspace.image.read = u.site.isForward c.image.read := by
  have h₁ := read_of_visit hu (i := 1) (by omega)
  have h₂ := read_of_visit hu (i := 2) (by omega)
  have h₃ := read_of_visit hu (i := 3) (by omega)
  rw [Visit.image_workspace]
  unfold Site.isForward
  change (_ && u.assembly.image.read (u.address + UInt32.ofNat 1) = 0 &&
    u.assembly.image.read (u.address + UInt32.ofNat 2) = 0 &&
    u.assembly.image.read (u.address + UInt32.ofNat 3) = 0) = _
  rw [h₁, h₂, h₃]
  rfl

theorem isForward_iff_forall {s : Site} {memory : UInt32 → UInt8} (hp : s.pass = .final) :
    s.isForward memory = true ↔ ∀ i, 1 ≤ i → i ≤ 3 → memory (s.address + UInt32.ofNat i) = 0 := by
  have hs : s.isForward memory = true ↔ memory (s.address + UInt32.ofNat 1) = 0 ∧
      memory (s.address + UInt32.ofNat 2) = 0 ∧ memory (s.address + UInt32.ofNat 3) = 0 := by
    rw [Site.isForward_iff]
    exact and_iff_right hp
  rw [hs]
  constructor
  · rintro ⟨hz₁, hz₂, hz₃⟩ i hi hi'
    obtain rfl | rfl | rfl : i = 1 ∨ i = 2 ∨ i = 3 := by omega
    · exact hz₁
    · exact hz₂
    · exact hz₃
  · exact fun hz ↦ ⟨hz 1 (by decide) (by decide), hz 2 (by decide) (by decide),
      hz 3 (by decide) (by decide)⟩

theorem isForward_iff_read (hw : (finalVisits set source a)[k]? = some w)
    (hroom : 4 * (Source.lines source).length + 3 < UInt32.size) :
    w.site.isForward w.workspace.image.read = true ↔
      ∀ i, 1 ≤ i → i ≤ 3 → a.image.read (w.address + UInt32.ofNat i) = 0 := by
  rw [isForward_of_visit hw hroom, isForward_iff_forall (pass_of_finalVisit hw)]
  rfl

theorem emod_byteRange_eq_zero {n : Nat} {z : Int} :
    z % byteRange n = 0 ↔ ∀ b ∈ littleEndian n z, b = 0 := by
  rw [← ofLittleEndian_eq_zero, ← ofLittleEndian_littleEndian]
  omega

theorem forall_read_eq_zero {memory : UInt32 → UInt8} {address : UInt32} {opcode : UInt8} {n : Nat}
    {z : Int} {rest : List UInt8} (hn : n ≤ 3)
    (hr : ∀ i, i ≤ 3 → memory (address + UInt32.ofNat i) =
      (opcode :: littleEndian n z ++ rest)[i]?.getD 0) :
    (∀ i, 1 ≤ i → i ≤ 3 → memory (address + UInt32.ofNat i) = 0) ↔
      z % byteRange n = 0 ∧
        ∀ i, n < i → i ≤ 3 → memory (address + UInt32.ofNat i) = 0 := by
  have hr {j : Nat} (hj : j < n) : memory (address + UInt32.ofNat (j + 1)) =
      (littleEndian n z)[j]?.getD 0 := by
    rw [hr _ (by omega), List.cons_append, List.getElem?_cons_succ,
      List.getElem?_append_left (by simpa using hj)]
  rw [emod_byteRange_eq_zero]
  constructor
  · intro hz
    refine ⟨fun b hb ↦ ?_, fun i hi hi' ↦ hz i (by omega) hi'⟩
    obtain ⟨j, hj⟩ := List.mem_iff_getElem?.1 hb
    have hlt := (List.getElem?_eq_some_iff.1 hj).1
    rw [length_littleEndian] at hlt
    have hzj := hz (j + 1) (by omega) (by omega)
    rw [hr hlt, hj] at hzj
    exact hzj
  · rintro ⟨hz, hz'⟩ i hi hi'
    by_cases hin : n < i
    · exact hz' i hin hi'
    · obtain ⟨j, rfl⟩ : ∃ j, i = j + 1 := ⟨i - 1, by omega⟩
      have hlt : j < (littleEndian n z).length := by
        rw [length_littleEndian]
        omega
      rw [hr (by omega), List.getElem?_eq_getElem hlt]
      exact hz _ (List.getElem_mem hlt)

theorem Visit.bytes_of_encoding? {e : Encoding} {n : Nat} (he : v.encoding? set = some e)
    (hn : e.length = n + 1) : n ≤ 3 ∧ v.bytes set = e.opcode :: littleEndian n e.value := by
  have hle := (Visit.length_of_encoding? he).2
  refine ⟨by omega, ?_⟩
  rw [Visit.bytes, he]
  exact Encoding.bytes_of_length hn (by omega)

/-- The final pass takes an operand for one that had no value, if the bytes that the first pass
left for it are zero and so are those behind it, up to the third. -/
theorem isForward_of_finalVisit (h : (pass set .first source).run (start origin) = .ok () a)
    (hv : (firstVisits set source origin)[k]? = some v)
    (hw : (finalVisits set source a)[k]? = some w)
    (hroom : origin.toNat + 4 * (Source.lines source).length + 4 < UInt32.size) {e : Encoding}
    {n : Nat} (he : v.encoding? set = some e) (hn : e.length = n + 1) :
    w.site.isForward w.workspace.image.read = true ↔
      e.value % byteRange n = 0 ∧
        ∀ i, n < i → i ≤ 3 → a.image.read (w.address + UInt32.ofNat i) = 0 := by
  obtain ⟨hn', hb⟩ := Visit.bytes_of_encoding? he hn
  have hr (i : Nat) (hi : i ≤ 3) : a.image.read (w.address + UInt32.ofNat i) =
      (e.opcode :: littleEndian n e.value ++
        listing set ((firstVisits set source origin).drop (k + 1)))[i]?.getD 0 := by
    rw [address_passes h hv hw, read_of_firstVisit h hv hroom hi, hb]
  rw [isForward_iff_read hw (by omega)]
  exact forall_read_eq_zero hn' hr

/-- A value that is held in full, and a zero in so many bytes, is taken for a missing one just when
it is zero and the bytes behind it are. -/
theorem isForward_of_holds (h : (pass set .first source).run (start origin) = .ok () a)
    (hv : (firstVisits set source origin)[k]? = some v)
    (hw : (finalVisits set source a)[k]? = some w)
    (hroom : origin.toNat + 4 * (Source.lines source).length + 4 < UInt32.size) {e : Encoding}
    {z : Int} {n : Nat} (he : v.encoding? set = some e) (hz : e.Holds z n) :
    w.site.isForward w.workspace.image.read = true ↔
      z = 0 ∧ ∀ i, n < i → i ≤ 3 → a.image.read (w.address + UInt32.ofNat i) = 0 := by
  obtain ⟨m, hm⟩ : ∃ m, e.length = m + 1 :=
    Nat.exists_eq_add_one.2 (Visit.length_of_encoding? he).1
  have hlt := hz.lt
  rw [hm, Nat.add_sub_cancel] at hlt
  rw [isForward_of_finalVisit h hv hw hroom he hm, hz.value, Int.emod_eq_of_lt hz.nonneg hlt]
  refine and_congr_right fun h0 ↦ ?_
  have hn := hz.room h0
  rw [hm] at hn
  rw [Nat.succ.inj hn]

end Assembly

end Asm65816
