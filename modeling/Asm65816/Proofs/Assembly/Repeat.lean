import Asm65816.Proofs.Assembly.Rereading

namespace Asm65816

theorem getElem?_getD_of_length {α : Type} {xs ys : List α} (h : xs.length = ys.length) (i : Nat)
    (d : α) : xs[i]?.getD (ys[i]?.getD d) = xs[i]?.getD d := by
  by_cases hi : i < xs.length
  · rw [List.getElem?_eq_getElem hi]
    rfl
  · rw [List.getElem?_eq_none (by omega), List.getElem?_eq_none (by omega)]
    rfl

namespace Assembly

variable {set : InstructionSet} {source : String} {origin : UInt32} {a b : Assembly}
variable {k n : Nat} {v w : Visit} {e : Entry} {o : Operand} {en : Encoding}

theorem Visit.bytes_eq_nil (h : v.encoding? set = none) : v.bytes set = [] := by
  rw [Visit.bytes, h]
  rfl

/-- A line that the final pass would make shorter if it came to it again: it was given room that it
does not need, and by now its value shows, or the instruction that fills its room. -/
def Visit.Narrows (w : Visit) : Prop :=
  ∃ e o, w.operand? .standard = some (e, o) ∧ o.isSlack = true ∧
    (o.value ≠ 0 ∨ o.isPadded e.mnemonic = true)

theorem getD_listing_of_places {vs ws : List Visit}
    (h : vs.map (Visit.place set) = ws.map (Visit.place set))
    (hzero : ∀ (k : Nat) v w en en', vs[k]? = some v → ws[k]? = some w → v.encoding? set = some en →
      w.encoding? set = some en' → en.opcode = 0 → en'.opcode = 0)
    (h0 : (listing set vs)[0]?.getD 0 = 0) : (listing set ws)[0]?.getD 0 = 0 := by
  induction vs generalizing ws with
  | nil =>
    cases ws with
    | nil => rfl
    | cons w ws => cases h
  | cons v vs ih =>
    cases ws with
    | nil => cases h
    | cons w ws =>
      simp only [List.map_cons, List.cons.injEq] at h
      have hsize : v.size? set = w.size? set := congrArg (·.2.2) h.1
      have hz (k : Nat) (v' w' : Visit) (en en' : Encoding) (hv : vs[k]? = some v')
          (hw : ws[k]? = some w') := hzero (k + 1) v' w' en en' hv hw
      unfold Visit.size? at hsize
      cases hv : v.encoding? set with
      | none =>
        rw [hv] at hsize
        have hw : w.encoding? set = none := Option.map_eq_none_iff.1 hsize.symm
        rw [listing_cons, Visit.bytes_eq_nil hv, List.nil_append] at h0
        rw [listing_cons, Visit.bytes_eq_nil hw, List.nil_append]
        exact ih h.2 hz h0
      | some en =>
        rw [hv] at hsize
        obtain ⟨en', hw, -⟩ := Option.map_eq_some_iff.1 hsize.symm
        have hb {v : Visit} {en : Encoding} (hv : v.encoding? set = some en) (vs : List Visit) :
            (listing set (v :: vs))[0]?.getD 0 = en.opcode := by
          obtain ⟨n, hn⟩ := Nat.exists_eq_add_one.2 (Visit.length_of_encoding? hv).1
          rw [listing_cons, (Visit.bytes_of_encoding? hv hn).2]
          rfl
        rw [hb hv] at h0
        rw [hb hw]
        exact hzero 0 v w en en' rfl rfl hv hw h0

section

variable (h : (pass set .first source).run (start origin) = .ok () a)
variable (h' : (pass set .final source).run a = .ok () b)
variable (hroom : origin.toNat + 4 * (Source.lines source).length + 4 < UInt32.size)
variable (hw : (finalVisits set source a)[k]? = some w)

include h h' hroom hw

theorem read_of_final {i : Nat} (hi : i ≤ 3) :
    b.image.read (w.address + UInt32.ofNat i) =
      (w.bytes set ++ listing set ((finalVisits set source a).drop (k + 1)))[i]?.getD 0 := by
  obtain ⟨v, hv⟩ := exists_firstVisit h hw
  rw [← listing_cons, ← drop_eq_cons hw]
  have hlength : (listing set ((finalVisits set source a).drop k)).length =
      (listing set ((firstVisits set source origin).drop k)).length := by
    rw [length_listing, length_listing]
    exact span_congr (map_drop_of_places (places_passes h h') k)
  have hfit : (listing set ((finalVisits set source a).drop k)).length ≤ UInt32.size := by
    have hspan : span set ((finalVisits set source a).drop k) ≤ _ := span_le _
    have hlines : (finalVisits set source a).length = (Source.lines source).length :=
      length_visitsFrom (sweep_of_final h')
    rw [List.length_drop, hlines] at hspan
    rw [length_listing]
    omega
  have hi' : (w.address + UInt32.ofNat i - w.assembly.image.cursor).toNat = i :=
    toNat_add_sub _ (by rw [UInt32.size]; omega)
  have hbefore : w.assembly.image.read (w.address + UInt32.ofNat i) =
      a.image.read (w.address + UInt32.ofNat i) := read_of_visit hw (by omega)
  rw [image_of_finalVisit_append h' hw, ← listing_cons, ← drop_eq_cons hw,
    Image.read_emit_eq hfit, hi', hbefore, address_passes h hv hw,
    read_of_firstVisit h hv hroom hi, ← listing_cons, ← drop_eq_cons hv,
    getElem?_getD_of_length hlength]

theorem isForward_of_final (hen : w.encoding? set = some en) (hn : en.length = n + 1) :
    w.site.isForward b.image.read = true ↔
      en.value % byteRange n = 0 ∧
        ∀ i, n < i → i ≤ 3 → b.image.read (w.address + UInt32.ofNat i) = 0 := by
  obtain ⟨hn', hb⟩ := Visit.bytes_of_encoding? hen hn
  have hr (i : Nat) (hi : i ≤ 3) : b.image.read (w.address + UInt32.ofNat i) =
      (en.opcode :: littleEndian n en.value ++
        listing set ((finalVisits set source a).drop (k + 1)))[i]?.getD 0 := by
    rw [read_of_final h h' hroom hw hi, hb]
  rw [isForward_iff_forall (pass_of_finalVisit hw)]
  exact forall_read_eq_zero hn' hr

end

theorem opcode_passes_of_zero {en en' : Encoding}
    (hv : (firstVisits .standard source origin)[k]? = some v)
    (hw : (finalVisits .standard source a)[k]? = some w)
    (hen : v.encoding? .standard = some en) (hen' : w.encoding? .standard = some en')
    (h0 : en.opcode = 0) : en'.opcode = 0 := by
  obtain ⟨e', o', ho', hj'⟩ := Visit.encoding?_eq_some.1 hen'
  obtain ⟨e, o, ho, hj⟩ := Visit.encoding?_eq_some.1 hen
  obtain ⟨rfl, -⟩ := parse_passes hv hw ho ho'
  rw [show w.pass = .final from pass_of_finalVisit hw] at hj'
  rcases InstructionSet.opcode?_of_join hj with ⟨-, hp⟩ | ⟨mode, hc⟩
  · rw [h0] at hp
    cases hp
  · rw [h0] at hc
    rcases InstructionSet.opcode?_of_join hj' with ⟨hp, -⟩ | ⟨mode', hc'⟩
    · cases hp
    · exact InstructionSet.opcode?_of_eq_zero hc hc'

section

variable (h : (pass .standard .first source).run (start origin) = .ok () a)
variable (h' : (pass .standard .final source).run a = .ok () b)
variable (hroom : origin.toNat + 4 * (Source.lines source).length + 4 < UInt32.size)
variable (hw : (finalVisits .standard source a)[k]? = some w)

include h h' hroom hw

/-- What shows no value once it is assembled did not show one before. -/
theorem isForward_of_isFlexible (hf : w.IsFlexible .standard)
    (hF : w.site.isForward b.image.read = true) :
    w.site.isForward w.workspace.image.read = true := by
  refine Bool.of_not_eq_false fun hfalse ↦ ?_
  obtain ⟨e, o', ho', hflexible⟩ := hf
  obtain ⟨v, hv⟩ := exists_firstVisit h hw
  obtain ⟨o, ho⟩ := operand?_of_finalVisit h hv hw ho'
  obtain ⟨hwidth, f, hkind, hs, hs', hzz⟩ := settle_passes_of_isFlexible h hv hw ho ho' hflexible
  obtain ⟨en, hen, hj⟩ := exists_join_of_final h' hw ho'
  have hforward : o'.forward = false :=
    (Operand.forward_of_isFlexible hflexible hs').trans hfalse
  obtain ⟨hvalue, hnonneg, hlt⟩ := Operand.value_of_join hflexible hs'
    (InstructionSet.isPadded_of_forward hforward) hj
  obtain ⟨n, hn⟩ := Nat.exists_eq_add_one.2 (Visit.length_of_encoding? hen).1
  have hzero := ((isForward_of_final h h' hroom hw hen hn).1 hF).1
  rw [hn, Nat.add_sub_cancel] at hlt
  rw [hvalue, Int.emod_eq_of_lt hnonneg hlt] at hzero
  have h0 : o.value = 0 := hzz.elim (fun heq ↦ heq.trans hzero) id
  rcases hkind with ⟨-, hm⟩ | ⟨rfl, hm⟩
  · rw [(isForward_of_direct h hv hw ho hm hwidth hroom).2 h0] at hfalse
    cases hfalse
  · obtain ⟨en₁, hen₁, hj₁⟩ := encoding?_of_operand? h hv ho
    have h₃ : en₁.length = 3 :=
      (Operand.holds_of_indexedY_first (pass_of_firstVisit hv) hs hj₁).room h0
    have h₂ : en.length = 2 := by
      have heq := (Operand.settle_indexedY_none hs').2
      have hnarrow :
          ¬(Operand.isWide w.site w.workspace.image.read o'.value ∨ 0xFF < o'.value) := by
        rw [isWide_final (pass_of_finalVisit hw), hfalse, hzero]
        decide
      rw [if_neg hnarrow] at heq
      exact Operand.length_join_of_directY (by rw [heq]) (by rw [heq]) hj
    have hsize := size?_of_passes h h' hv hw
    rw [Visit.size?, Visit.size?, hen, hen₁, Option.map_some, Option.map_some, h₂, h₃] at hsize
    cases hsize

theorem read_of_final_of_zero (hlength : w.length .standard = 3)
    (h0 : a.image.read (w.address + UInt32.ofNat 3) = 0) :
    b.image.read (w.address + UInt32.ofNat 3) = 0 := by
  obtain ⟨v, hv⟩ := exists_firstVisit h hw
  have hplaces := places_passes h h'
  have hthird {vs : List Visit} {v : Visit} (hl : v.length .standard = 3) :
      (v.bytes .standard ++ listing .standard vs)[3]? = (listing .standard vs)[0]? := by
    rw [← Visit.length_bytes] at hl
    rw [List.getElem?_append_right (Nat.le_of_eq hl), hl]
  have hlength' : v.length .standard = 3 := by
    rw [← hlength, Visit.length_eq_size?, Visit.length_eq_size?, size?_of_passes h h' hv hw]
  rw [address_passes h hv hw, read_of_firstVisit h hv hroom (by decide), hthird hlength'] at h0
  rw [read_of_final h h' hroom hw (by decide), hthird hlength]
  refine getD_listing_of_places (map_drop_of_places hplaces (k + 1)).symm ?_ h0
  intro j v' w' en en' hv' hw' hen hen'
  rw [List.getElem?_drop] at hv' hw'
  exact opcode_passes_of_zero hv' hw' hen hen'

/-- What was given room it does not need shows no value again if that is zero and not padded. -/
theorem isForward_of_isSlack (ho : w.operand? .standard = some (e, o)) (hs : o.isSlack = true) :
    w.site.isForward b.image.read = true ↔ o.value = 0 ∧ o.isPadded e.mnemonic = false := by
  obtain ⟨hflexible, hforward, hle⟩ := Operand.isSlack_eq_true.1 hs
  obtain ⟨v, hv⟩ := exists_firstVisit h hw
  obtain ⟨o₁, ho₁⟩ := operand?_of_finalVisit h hv hw ho
  obtain ⟨-, f, -, -, hs, -⟩ := settle_passes_of_isFlexible h hv hw ho₁ ho hflexible
  obtain ⟨en, hen, hj⟩ := exists_join_of_final h' hw ho
  have hlength := Operand.length_join_of_forward hflexible hs hforward hj
  have hnonneg := (Operand.hasRoom_of_isFlexible hflexible hs).1
  cases hpad : o.isPadded e.mnemonic with
  | true =>
    obtain ⟨row, -, rfl⟩ := (InstructionSet.join_of_padded hpad).1 hj
    have hle := (InstructionSet.isPadded_eq_true.1 hpad).2.2.2.2
    constructor
    · intro hF
      have hz := ((isForward_of_final h h' hroom hw hen rfl).1 hF).1
      change (o.value + 0x10000 * 0xEA) % 0x1000000 = 0 at hz
      omega
    · rintro ⟨-, ⟨⟩⟩
  | false =>
    obtain ⟨hvalue, -, hlt⟩ := Operand.value_of_join hflexible hs hpad hj
    obtain ⟨n, hn⟩ := Nat.exists_eq_add_one.2 (Visit.length_of_encoding? hen).1
    rw [hn, Nat.add_sub_cancel] at hlt
    rw [isForward_of_final h h' hroom hw hen hn, hvalue, Int.emod_eq_of_lt hnonneg hlt]
    refine and_congr_right fun _ ↦ ⟨fun _ ↦ rfl, fun _ i hi hi' ↦ ?_⟩
    rw [hn] at hlength
    split at hlength
    · obtain rfl : i = 3 := by omega
      have hF : w.site.isForward w.workspace.image.read = true :=
        (Operand.forward_of_isFlexible hflexible hs).symm.trans hforward
      refine read_of_final_of_zero h h' hroom hw ?_
        ((isForward_iff_read hw (by omega)).1 hF 3 (by decide) (by decide))
      rw [Visit.length, hen, Option.elim_some]
      omega
    · omega

theorem narrows_iff : w.Narrows ↔ w.IsSlack .standard ∧ w.site.isForward b.image.read = false := by
  constructor
  · rintro ⟨e, o, ho, hs, hshown⟩
    refine ⟨⟨e, o, ho, hs⟩, Bool.eq_false_iff.2 fun hF ↦ ?_⟩
    obtain ⟨h0, hpad⟩ := (isForward_of_isSlack h h' hroom hw ho hs).1 hF
    rcases hshown with hne | hp
    · exact hne h0
    · rw [hpad] at hp
      cases hp
  · rintro ⟨⟨e, o, ho, hs⟩, hF⟩
    refine ⟨e, o, ho, hs, ?_⟩
    by_cases h0 : o.value = 0
    · refine .inr (Bool.of_not_eq_false fun hpad ↦ ?_)
      rw [(isForward_of_isSlack h h' hroom hw ho hs).2 ⟨h0, hpad⟩] at hF
      cases hF
    · exact .inl h0

end

theorem inStep_of_final (h : (pass set .first source).run (start origin) = .ok () a)
    (h' : (pass set .final source).run a = .ok () b) :
    InStep 0 (Source.lines source).length a.rewind b.rewind where
  cursor := by
    have ho : b.origin = a.rewind.origin := origin_of_sweep (sweep_of_final h')
    exact ho
  labels name := by
    change b.label? name = a.label? name
    rw [label?_of_final h', label?_of_first h, definition?_congr (places_passes h h'),
      Option.or_self]
  noted i _ _ := by
    change b.sizes[i]? = a.sizes[i]?
    rw [sizes_of_pass h']

/-- The final pass can be repeated unless it has given a line room that it does not need, and when
it can, it changes nothing. -/
theorem repeat_iff (h : (pass .standard .first source).run (start origin) = .ok () a)
    (h' : (pass .standard .final source).run a = .ok () b)
    (hroom : origin.toNat + 4 * (Source.lines source).length + 4 < UInt32.size) :
    ((∃ c, (pass .standard .final source).run b = .ok () c) ↔
      ∀ w ∈ finalVisits .standard source a, ¬w.Narrows) ∧
    ∀ c, (pass .standard .final source).run b = .ok () c →
      c.output = b.output ∧ ∀ name, c.label? name = b.label? name := by
  have hlate (w : Visit) (hw : w ∈ finalVisits .standard source a) (hf : w.IsFlexible .standard)
      (hF : w.site.isForward b.image.read = true) :
      w.site.isForward w.workspace.image.read = true := by
    obtain ⟨k, hw⟩ := List.mem_iff_getElem?.1 hw
    exact isForward_of_isFlexible h h' hroom hw hf hF
  have hnarrows {w : Visit} (hw : w ∈ finalVisits .standard source a) :
      w.Narrows ↔ w.IsSlack .standard ∧ w.site.isForward b.image.read = false := by
    obtain ⟨k, hw⟩ := List.mem_iff_getElem?.1 hw
    exact narrows_iff h h' hroom hw
  have hsweep : (pass .standard .final source).run b =
      sweep .standard .final 0 (Source.lines source) b.rewind :=
    pass_eq_sweep .standard .final source b
  rcases sweep_again (sweep_of_final h') (inStep_of_final h h') (by omega) hlate with
    ⟨hall, d, hd, hstep, hmap⟩ | ⟨⟨w, hw, hs⟩, f, s, hfault⟩
  · have hspan {a b : Assembly} (h : (pass .standard .final source).run a = .ok () b) :
        span .standard (finalVisits .standard source a) < UInt32.size := by
      have hle : span .standard (finalVisits .standard source a) ≤ _ := span_le_of_pass h
      omega
    have ha := origin_of_first h
    have hb : b.origin = origin := (origin_of_sweep (sweep_of_final h')).trans ha
    rw [← hsweep] at hd
    refine ⟨⟨fun _ w hw hn ↦ ?_, fun _ ↦ ⟨d, hd⟩⟩, fun c hc ↦ ?_⟩
    · obtain ⟨hs, hF⟩ := (hnarrows hw).1 hn
      rw [show w.site.isForward b.image.read = true from hall w hw hs] at hF
      cases hF
    · rw [hd] at hc
      cases hc
      refine ⟨?_, hstep.labels⟩
      rw [output_of_final hb hd (hspan hd), output_of_final ha h' (hspan h')]
      exact listing_congr hmap
  · rw [hsweep, hfault]
    refine ⟨⟨fun ⟨c, hc⟩ ↦ (by cases hc), fun hall ↦ ?_⟩, fun c hc ↦ (by cases hc)⟩
    exact absurd ((hnarrows hw).2 hs) (hall w hw)

theorem repeat_load_zero :
    ∃ a b c, (pass .standard .first "\tlda 0\nback:\tjmp back\n\tldx 0,y").run (start 0x8000) =
        .ok () a ∧
      (pass .standard .final "\tlda 0\nback:\tjmp back\n\tldx 0,y").run a = .ok () b ∧
      (pass .standard .final "\tlda 0\nback:\tjmp back\n\tldx 0,y").run b = .ok () c ∧
      c.output = b.output := by
  have hrun : ((Visit.state? ((passes .standard "\tlda 0\nback:\tjmp back\n\tldx 0,y").run
      (start 0x8000))).bind fun b ↦ Visit.state?
        ((pass .standard .final "\tlda 0\nback:\tjmp back\n\tldx 0,y").run b)).isSome = true := by
    decide +kernel
  obtain ⟨c, hrun⟩ := Option.isSome_iff_exists.1 hrun
  obtain ⟨b, hb, hc⟩ := Option.bind_eq_some_iff.1 hrun
  replace hc := Visit.state?_eq_some_iff.1 hc
  obtain ⟨a, h, h'⟩ := run_passes_eq_ok.1 (Visit.state?_eq_some_iff.1 hb)
  exact ⟨a, b, c, h, h', hc, ((repeat_iff h h' (by decide +kernel)).2 c hc).1⟩

/-- A jump ahead that was padded is too short when the final pass comes to it again. -/
theorem resized_jump_again :
    ∃ a b s, (pass .standard .first "\tjmp later\nlater:\trts").run (start 0x8000) = .ok () a ∧
      (pass .standard .final "\tjmp later\nlater:\trts").run a = .ok () b ∧
      b.output = [0x4C, 0x04, 0x80, 0xEA, 0x60] ∧
      (pass .standard .final "\tjmp later\nlater:\trts").run b =
        .error (.resized "\tjmp later" (some 4) 3) s := by
  have hrun : ((Visit.state? ((passes .standard "\tjmp later\nlater:\trts").run
      (start 0x8000))).map fun b ↦ (b.output, Visit.fault?
        ((pass .standard .final "\tjmp later\nlater:\trts").run b))) =
      some ([0x4C, 0x04, 0x80, 0xEA, 0x60], some (.resized "\tjmp later" (some 4) 3)) := by
    decide +kernel
  obtain ⟨b, hb, hout⟩ := Option.map_eq_some_iff.1 hrun
  obtain ⟨hout, hfault⟩ := Prod.mk.inj hout
  obtain ⟨s, hs⟩ := Visit.fault?_eq_some_iff.1 hfault
  obtain ⟨a, h, h'⟩ := run_passes_eq_ok.1 (Visit.state?_eq_some_iff.1 hb)
  exact ⟨a, b, s, h, h', hout, hs⟩

end Assembly

end Asm65816
