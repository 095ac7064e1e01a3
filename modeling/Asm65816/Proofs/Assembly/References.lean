import Asm65816.Proofs.Assembly.Settled
import Asm65816.Proofs.Assembly.Forward
import Asm65816.Proofs.Operand.Reference

namespace Asm65816

open Operand

def Branch.reach : Branch → Nat
  | short => 0x100
  | long => 0x10000

namespace Operand

variable {site : Site} {memory : UInt32 → UInt8} {base : Mode} {z : Int} {w : Option Width}
variable {o : Operand} {f : Form} {set : InstructionSet} {e : Entry} {en : Encoding} {b : Branch}

theorem bmod_emod_reach {d : Int} (h : b.displacements.Holds d) :
    Int.bmod (d % b.width.size) b.reach = d := by
  obtain ⟨hl, hg⟩ := h
  cases b with
  | short =>
    have hl : -0x80 ≤ d := hl
    have hg : d ≤ 0x7F := hg
    change Int.bmod (d % (0x100 : Nat)) 0x100 = d
    rw [Int.emod_bmod]
    exact Int.bmod_eq_of_le (by omega) (by omega)
  | long =>
    have hl : -0x8000 ≤ d := hl
    have hg : d ≤ 0x7FFF := hg
    change Int.bmod (d % (0x10000 : Nat)) 0x10000 = d
    rw [Int.emod_bmod]
    exact Int.bmod_eq_of_le (by omega) (by omega)

theorem lengthIn_of_branch : InstructionSet.lengthIn w b.mode = b.mode.length := by
  cases b <;> rfl

theorem ofLittleEndian_of_branch {opcode : UInt8} {v : Int} :
    (ofLittleEndian ((Encoding.mk opcode (b.width.truncate v)
      (InstructionSet.lengthIn w b.mode)).bytes.drop 1) : Int) = b.width.truncate v := by
  have hb : (Encoding.mk opcode (b.width.truncate v) (InstructionSet.lengthIn w b.mode)).bytes =
      opcode :: littleEndian b.mode.operandBytes (b.width.truncate v) :=
    Encoding.bytes_of_length lengthIn_of_branch (by cases b <;> decide)
  have hr : byteRange b.mode.operandBytes = b.width.size := by cases b <;> rfl
  rw [hb, List.drop_one, List.tail_cons, ofLittleEndian_of_lt (Width.truncate_nonneg ..)
    (hr ▸ Width.truncate_lt ..)]

theorem target_of_bytes (hp : site.pass = .final)
    (ho : (Form.target b).settle site memory base ⟨z, w⟩ = .ok o)
    (hj : set.join .final e o = .ok en) :
    site.pc + b.mode.length + Int.bmod (ofLittleEndian (en.bytes.drop 1)) b.reach = z := by
  obtain ⟨v, hv, rfl⟩ := map_eq_ok.1 ho
  rw [Branch.operand_final hp] at hv
  obtain ⟨d, hd, rfl⟩ := map_eq_ok.1 hv
  obtain ⟨hrange, rfl⟩ := Domain.check_eq_ok_iff.1 hd
  have hrange : b.displacements.Holds (z - (site.pc + b.mode.length)) := hrange
  have hmode : b.mode ≠ .long := by cases b <;> decide
  obtain ⟨⟨opcode, mode⟩, hc, rfl⟩ :=
    (InstructionSet.join_of_not_padded (InstructionSet.isPadded_of_mode hmode)).1 hj
  obtain rfl : mode = b.mode := InstructionSet.choose_mode (by cases b <;> rfl) hc
  rw [ofLittleEndian_of_branch, Width.truncate, bmod_emod_reach hrange]
  omega

/-- A bare expression is emitted as it is. What stands behind a padded one is an instruction of its
own. -/
theorem value_of_bytes (hf : f = .plain ∨ f = .indexedX ∨ f = .indexedY)
    (ho : f.settle site memory base ⟨z, w⟩ = .ok o) (hj : set.join .final e o = .ok en) :
    (ofLittleEndian
      (if o.isPadded e.mnemonic then (en.bytes.drop 1).take 2 else en.bytes.drop 1) : Int) = z := by
  obtain ⟨rfl, h0, -, -⟩ := fits_of_settle hf ho
  cases hp : o.isPadded e.mnemonic with
  | true =>
    have hle := (InstructionSet.isPadded_eq_true.1 hp).2.2.2.2
    obtain ⟨row, -, rfl⟩ := (InstructionSet.join_of_padded hp).1 hj
    have hbytes := Encoding.bytes_of_length (n := 3)
      (e := ⟨row.1, o.value + 0x10000 * nop.toNat, 4⟩) rfl (by decide)
    have h₂ : byteRange 2 = 0x10000 := rfl
    rw [if_pos rfl, hbytes, List.drop_one, List.tail_cons, take_littleEndian (by decide),
      ofLittleEndian_littleEndian, h₂]
    change (o.value + 0x10000 * (0xEA : Int)) % 0x10000 = o.value
    omega
  | false =>
    obtain ⟨hpos, hle⟩ := InstructionSet.length_of_join hj
    obtain ⟨hnonneg, hlt⟩ :=
      InstructionSet.lt_byteRange_of_join (hasRoom_of_fits (fits_of_settle hf ho)) hj
    have hvalue : en.value = o.value := by
      obtain ⟨row, -, rfl⟩ := (InstructionSet.join_of_not_padded hp).1 hj
      rfl
    rw [if_neg (by simp), Encoding.bytes_of_length_le hpos hle, List.drop_one, List.tail_cons,
      ofLittleEndian_of_lt hnonneg hlt, hvalue]

end Operand

namespace Assembly

variable {set : InstructionSet} {source : String} {origin : UInt32} {a b : Assembly}
variable {j k : Nat} {u v w : Visit} {label : String} {vs : List Visit}

theorem definition?_of_unique {t : Int}
    (hall : ∀ v ∈ vs, v.label? = some label → (v.address.toNat : Int) = t) :
    definition? label vs = some t ∨
      definition? label vs = none ∧ ∀ v ∈ vs, v.label? ≠ some label := by
  induction vs with
  | nil => exact .inr ⟨rfl, fun v hv ↦ by cases hv⟩
  | cons v vs ih =>
    rw [definition?]
    rcases ih fun v hv ↦ hall v (List.mem_cons_of_mem _ hv) with ht | ⟨hn, hvs⟩
    · exact .inl (by rw [ht, Option.some_or])
    · by_cases hl : v.label? = some label
      · exact .inl (by rw [hn, if_pos hl, hall v List.mem_cons_self hl, Option.none_or])
      · exact .inr ⟨by rw [hn, if_neg hl]; rfl, List.forall_mem_cons.2 ⟨hl, hvs⟩⟩

def labelOf? (source : String) (i : Nat) : Option String :=
  ((Source.lines source)[i]?.bind Statement.ofText?).bind Statement.label

theorem labelOf?_of_firstVisit (hv : (firstVisits set source origin)[k]? = some v) :
    v.label? = labelOf? source k := by
  rw [labelOf?, (sweep_take hv).2.2.1]
  rfl

theorem labelOf?_of_finalVisit (hw : (finalVisits set source a)[k]? = some w) :
    w.label? = labelOf? source k := by
  rw [labelOf?, (sweep_take hw).2.2.1]
  rfl

/-- On the final pass a label that one line defines stands for the address of that line, wherever it
is used. -/
theorem label?_of_unique (h : (pass set .first source).run (start origin) = .ok () a)
    (hdef : ∀ i, labelOf? source i = some label ↔ i = j)
    (hu : (finalVisits set source a)[j]? = some u)
    (hw : (finalVisits set source a)[k]? = some w) :
    w.workspace.label? label = some (u.address.toNat : Int) := by
  obtain ⟨v, hv⟩ := exists_firstVisit h hu
  have hfirst : ∀ x ∈ firstVisits set source origin, x.label? = some label →
      (x.address.toNat : Int) = u.address.toNat := by
    intro x hx hl
    obtain ⟨i, hx⟩ := List.mem_iff_getElem?.1 hx
    rw [labelOf?_of_firstVisit hx, hdef] at hl
    subst hl
    rw [hv] at hx
    cases hx
    rw [address_passes h hv hu]
  have hfinal : ∀ x ∈ finalVisits set source a, x.label? = some label →
      (x.address.toNat : Int) = u.address.toNat := by
    intro x hx hl
    obtain ⟨i, hx⟩ := List.mem_iff_getElem?.1 hx
    rw [labelOf?_of_finalVisit hx, hdef] at hl
    subst hl
    rw [hu] at hx
    cases hx
    rfl
  have ha : a.label? label = some (u.address.toNat : Int) := by
    rw [label?_of_first h]
    refine (definition?_of_unique hfirst).resolve_right fun hn ↦ ?_
    refine hn.2 v (List.mem_iff_getElem?.2 ⟨j, hv⟩) ?_
    rw [labelOf?_of_firstVisit hv, hdef]
  rw [label?_workspace, label?_of_finalVisit hw, ha]
  by_cases hl : w.label? = some label
  · rw [if_pos hl, hfinal w (List.mem_iff_getElem?.2 ⟨k, hw⟩) hl, Option.some_or]
  · rw [if_neg hl, Option.none_or]
    rcases definition?_of_unique fun x hx ↦ hfinal x (List.mem_of_mem_take hx) with ht | ⟨hn, -⟩
    · rw [ht, Option.some_or]
    · rw [hn, Option.none_or]

/-- The bytes of a line lead from its address to another one: counted from the next instruction if
it is a branch, and by themselves otherwise. -/
structure Reaches (e : Entry) (o : Operand) (bytes : List UInt8) (here there : UInt32) : Prop where
  short : e.base = .relative →
    (here.toNat : Int) + 2 + Int.bmod (ofLittleEndian (bytes.drop 1)) 0x100 = there.toNat
  long : e.base = .relativeLong →
    (here.toNat : Int) + 3 + Int.bmod (ofLittleEndian (bytes.drop 1)) 0x10000 = there.toNat
  direct : e.base ∉ [Mode.relative, .relativeLong, .blockMove] →
    ofLittleEndian (if o.isPadded e.mnemonic then (bytes.drop 1).take 2 else bytes.drop 1) =
      there.toNat

theorem reaches_of_finalVisit {e : Entry} {o : Operand} {en : Encoding} {name : String}
    {line : Line} {there : UInt32} (hw : (finalVisits set source a)[k]? = some w)
    (hi : w.instruction? = some (name, line)) (hline : line.RefersTo label)
    (hl : w.workspace.label? label = some (there.toNat : Int))
    (ho : w.operand? set = some (e, o)) (hj : set.join .final e o = .ok en) :
    Reaches e o en.bytes w.address there := by
  have hp := pass_of_finalVisit hw
  obtain ⟨_, _, r, hi', -, hr⟩ := Visit.operand?_eq_some.1 ho
  rw [hi] at hi'
  cases hi'
  have hpc : w.site.pc = w.address.toNat := Site.pc_ofAddress w.pass w.address
  have hparse (hb : e.base ≠ .blockMove) := run_parse_of_refersTo hline hl hb hr
  refine ⟨fun hb ↦ ?_, fun hb ↦ ?_, fun hb ↦ ?_⟩
  · obtain ⟨f, x, hs, ⟨-, rfl⟩ | ⟨hb', -⟩ | ⟨hb', -⟩⟩ := hparse (by rw [hb]; decide)
    · rw [← target_of_bytes hp hs hj, hpc]
      rfl
    · rw [hb] at hb'
      cases hb'
    · simp [hb] at hb'
  · obtain ⟨f, x, hs, ⟨hb', -⟩ | ⟨-, rfl⟩ | ⟨hb', -⟩⟩ := hparse (by rw [hb]; decide)
    · rw [hb] at hb'
      cases hb'
    · rw [← target_of_bytes hp hs hj, hpc]
      rfl
    · simp [hb] at hb'
  · simp only [List.mem_cons, List.not_mem_nil, or_false, not_or] at hb
    obtain ⟨f, x, hs, ⟨hb', -⟩ | ⟨hb', -⟩ | ⟨-, hf⟩⟩ := hparse hb.2.2
    · exact absurd hb' hb.1
    · exact absurd hb' hb.2.1
    · exact Int.ofNat.inj (value_of_bytes hf hs hj)

/-- In a program that is accepted, every reference to a label that one line defines leads to the
address of that line, which is the origin with the lengths of all instructions in front of it. -/
theorem reaches_of_assemble {bytes : List UInt8} {name : String} {line : Line}
    (h : assemble set source origin = .ok bytes)
    (ha : (pass set .first source).run (start origin) = .ok () a)
    (hdef : ∀ i, labelOf? source i = some label ↔ i = j)
    (hw : (finalVisits set source a)[k]? = some w) (hi : w.instruction? = some (name, line))
    (hline : line.RefersTo label) :
    ∃ e o, w.operand? set = some (e, o) ∧
      Reaches e o (w.bytes set)
        (origin + UInt32.ofNat (span set ((finalVisits set source a).take k)))
        (origin + UInt32.ofNat (span set ((finalVisits set source a).take j))) ∧
      (span set (finalVisits set source a) < UInt32.size →
        (bytes.drop (span set ((finalVisits set source a).take k))).take (w.length set) =
          w.bytes set) := by
  obtain ⟨_, b, ha', hb, rfl⟩ := assemble_eq_ok.1 h
  rw [ha] at ha'
  cases ha'
  have horigin := origin_of_first ha
  obtain ⟨u, hu⟩ : ∃ u, (finalVisits set source a)[j]? = some u := by
    have hlen : (finalVisits set source a).length = (Source.lines source).length :=
      length_visitsFrom (sweep_of_final hb)
    have hj : j < (Source.lines source).length := by
      refine Nat.lt_of_not_le fun hle ↦ ?_
      have hd := (hdef j).2 rfl
      rw [labelOf?, List.getElem?_eq_none hle] at hd
      cases hd
    exact ⟨_, List.getElem?_eq_getElem (hlen ▸ hj)⟩
  have hl := label?_of_unique ha hdef hu hw
  obtain ⟨e, o, en, ho, hen, hj⟩ :=
    Visit.operand?_of_line (line_of_visit (sweep_of_final hb) hw) hi
  have hp : w.pass = .final := pass_of_finalVisit hw
  rw [hp] at hj
  have hbytes : w.bytes set = en.bytes := by
    rw [Visit.bytes, hen]
    rfl
  refine ⟨e, o, ho, ?_, fun hspan ↦ ?_⟩
  · rw [← address_of_finalVisit horigin hw, ← address_of_finalVisit horigin hu, hbytes]
    exact reaches_of_finalVisit hw hi hline hl ho hj
  · rw [output_of_final horigin hb hspan, listing_eq_append hw, ← length_listing, List.drop_left,
      ← Visit.length_bytes, List.take_left]

theorem reaches_branch_ahead :
    ∃ a w e o,
      (pass .standard .first "\tbra done\n\tnop\ndone:\trts").run (start 0x8000) = .ok () a ∧
      (finalVisits .standard "\tbra done\n\tnop\ndone:\trts" a)[0]? = some w ∧
      Reaches e o (w.bytes .standard) 0x8000
        (0x8000 + UInt32.ofNat (span .standard
          ((finalVisits .standard "\tbra done\n\tnop\ndone:\trts" a).take 2))) := by
  have hok : (Visit.state? ((passes .standard
      "\tbra done\n\tnop\ndone:\trts").run (start 0x8000))).isSome = true := by
    decide +kernel
  obtain ⟨b, hb⟩ := Visit.exists_eq_ok_of_isSome hok
  obtain ⟨a, ha, hb⟩ := run_passes_eq_ok.1 hb
  have hlines : Source.lines "\tbra done\n\tnop\ndone:\trts" =
      ["\tbra done", "\tnop", "done:\trts"] := by
    decide +kernel
  have hdef : ∀ i, labelOf? "\tbra done\n\tnop\ndone:\trts" i = some "done" ↔ i = 2 := by
    intro i
    unfold labelOf?
    rw [hlines]
    match i with
    | 0 => decide +kernel
    | 1 => decide +kernel
    | 2 => decide +kernel
    | i + 3 => simp
  have hline : Line.RefersTo ⟨[⟨.identifier, "done", 5⟩], 9⟩ "done" :=
    ⟨[], ⟨.identifier, "done", 5⟩, [], rfl, rfl, rfl, .inl rfl, .inl rfl⟩
  have hi : ((Statement.ofText? "\tbra done").bind fun s ↦
      if s.word.isStop then none else some (s.word.text, s.operand)) =
        some ("bra", ⟨[⟨.identifier, "done", 5⟩], 9⟩) := by
    decide +kernel
  obtain ⟨e, o, -, hr, -⟩ :=
    reaches_of_assemble (assemble_eq_ok.2 ⟨a, b, ha, hb, rfl⟩) ha hdef (finalVisits_zero hlines) hi
      hline
  exact ⟨a, _, e, o, ha, finalVisits_zero hlines, hr⟩

end Assembly

end Asm65816
