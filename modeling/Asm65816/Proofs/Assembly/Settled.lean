import Asm65816.Proofs.Assembly.Layout

namespace Asm65816

theorem toNat_add_ofNat {origin : UInt32} {n : Nat} (h : origin.toNat + n < UInt32.size) :
    (origin + UInt32.ofNat n).toNat = origin.toNat + n := by
  rw [UInt32.size] at h
  rw [UInt32.toNat_add, UInt32.toNat_ofNat']
  omega

theorem toNat_sub_lt_iff {origin x : UInt32} {n : Nat} (h : origin.toNat + n < UInt32.size) :
    (x - origin).toNat < n ↔ origin ≤ x ∧ x < origin + UInt32.ofNat n := by
  have hx := x.toNat_lt
  rw [UInt32.le_iff_toNat_le, UInt32.lt_iff_toNat_lt, toNat_add_ofNat h, UInt32.toNat_sub]
  rw [UInt32.size] at h
  omega

namespace Assembly

variable {set : InstructionSet} {source : String} {origin : UInt32} {a b : Assembly}
variable {k : Nat} {v w : Visit} {name : String}

theorem places_passes (h : (pass set .first source).run (start origin) = .ok () a)
    (h' : (pass set .final source).run a = .ok () b) :
    (finalVisits set source a).map (Visit.place set) =
      (firstVisits set source origin).map (Visit.place set) := by
  refine places_of_sweeps (sweep_of_first h) (sweep_of_final h') (origin_of_first h) fun m _ _ ↦ ?_
  have hn : a.rewind.sizes[m]? = _ := sizes_of_first h m
  rw [hn]
  rfl

theorem image_of_final (h' : (pass set .final source).run a = .ok () b) :
    b.image = a.rewind.image.emit (listing set (finalVisits set source a)) :=
  image_of_sweep (sweep_of_final h')

theorem label?_of_final (h' : (pass set .final source).run a = .ok () b) :
    b.label? name = (definition? name (finalVisits set source a)).or (a.label? name) :=
  label?_of_sweep (sweep_of_final h')

theorem cursor_of_first (h : (pass set .first source).run (start origin) = .ok () a) :
    a.image.cursor = origin + UInt32.ofNat (span set (firstVisits set source origin)) := by
  rw [image_of_first h, Image.cursor_emit, length_listing]
  rfl

theorem cursor_of_final (ha : a.origin = origin)
    (h' : (pass set .final source).run a = .ok () b) :
    b.image.cursor = origin + UInt32.ofNat (span set (finalVisits set source a)) := by
  rw [image_of_final h', Image.cursor_emit, length_listing, ← ha]
  rfl

theorem size?_getElem?_congr {vs ws : List Visit}
    (h : vs.map (Visit.place set) = ws.map (Visit.place set)) (k : Nat) :
    (vs[k]?.bind fun v ↦ v.size? set) = ws[k]?.bind fun v ↦ v.size? set := by
  have hm (us : List Visit) : (us[k]?.bind fun v ↦ v.size? set) =
      (us.map (Visit.place set))[k]?.bind fun p ↦ p.2.2 := by
    rw [List.getElem?_map]
    cases us[k]? <;> rfl
  rw [hm, hm, h]

theorem span_eq_total_range (vs : List Visit) :
    span set vs =
      total ((List.range vs.length).map fun k ↦ (vs[k]?.bind fun v ↦ v.size? set).getD 0) := by
  unfold span
  congr 1
  refine List.ext_getElem (by simp) fun k hk hk' ↦ ?_
  rw [List.length_map] at hk
  rw [List.getElem_map, List.getElem_map, List.getElem_range, List.getElem?_eq_getElem hk,
    Visit.length_eq_size?]
  rfl

theorem image_of_finalVisit_append (h' : (pass set .final source).run a = .ok () b)
    (hw : (finalVisits set source a)[k]? = some w) :
    b.image = w.assembly.image.emit
      (w.bytes set ++ listing set ((finalVisits set source a).drop (k + 1))) := by
  rw [image_of_final h', listing_eq_append hw, Image.emit_append, ← image_of_finalVisit hw]

theorem output_of_final (ha : a.origin = origin) (h' : (pass set .final source).run a = .ok () b)
    (hspan : span set (finalVisits set source a) < UInt32.size) :
    b.output = listing set (finalVisits set source a) := by
  have hb : b.origin = origin := (origin_of_sweep (sweep_of_final h')).trans ha
  have hlen : (b.image.cursor - b.origin).toNat =
      (listing set (finalVisits set source a)).length := by
    rw [cursor_of_final ha h', hb, length_listing, toNat_add_sub origin hspan]
  have hfit : (listing set (finalVisits set source a)).length ≤ UInt32.size := by
    rw [length_listing]
    omega
  have hslice := Image.slice_emit a.rewind.image hfit
  rw [← image_of_final h'] at hslice
  rw [output, hlen, hb, ← ha]
  exact hslice

theorem listing_take_succ {vs : List Visit} (hv : vs[k]? = some v) :
    listing set (vs.take (k + 1)) = listing set (vs.take k) ++ v.bytes set := by
  rw [List.take_add_one, hv, listing_append]
  simp

theorem mem_cells_emit_listing {image : Image} {vs : List Visit} (k : Nat)
    (hroom : image.cursor.toNat + span set vs < UInt32.size) {x : UInt32}
    (hx : x ∈ (image.emit (listing set (vs.take k))).cells) :
    x ∈ image.cells ∨ (x - image.cursor).toNat < span set vs := by
  have hle : span set (vs.take k) ≤ span set vs := span_take_le k vs
  have hlen : (listing set (vs.take k)).length ≤ UInt32.size := by
    rw [length_listing]
    omega
  rcases (Image.mem_cells_emit hlen x).1 hx with hx | hx
  · exact .inl hx
  · rw [length_listing] at hx
    exact .inr (by omega)

theorem mem_cells_of_first (h : (pass set .first source).run (start origin) = .ok () a)
    (hroom : origin.toNat + span set (firstVisits set source origin) < UInt32.size) (x : UInt32) :
    x ∈ a.image.cells ↔ (x - origin).toNat < span set (firstVisits set source origin) := by
  rw [image_of_first h, Image.mem_cells_emit (by rw [length_listing]; omega), length_listing]
  simp [Image.empty]

theorem mem_cells_next_of_firstVisit (hv : (firstVisits set source origin)[k]? = some v)
    (hroom : origin.toNat + span set (firstVisits set source origin) < UInt32.size) {x : UInt32}
    (hx : x ∈ (v.next set).image.cells) :
    (x - origin).toNat < span set (firstVisits set source origin) := by
  have hn : (v.next set).image =
      (Image.empty origin).emit (listing set ((firstVisits set source origin).take (k + 1))) := by
    rw [listing_take_succ hv, Image.emit_append, ← image_of_firstVisit hv]
    rfl
  rw [hn] at hx
  rcases mem_cells_emit_listing (k + 1) hroom hx with hx | hx
  · simp [Image.empty] at hx
  · exact hx

theorem mem_cells_next_of_finalVisit (hw : (finalVisits set source a)[k]? = some w)
    (ha : a.origin = origin)
    (hroom : origin.toNat + span set (finalVisits set source a) < UInt32.size) {x : UInt32}
    (hx : x ∈ (w.next set).image.cells) :
    x ∈ a.image.cells ∨ (x - origin).toNat < span set (finalVisits set source a) := by
  have hn : (w.next set).image =
      a.rewind.image.emit (listing set ((finalVisits set source a).take (k + 1))) := by
    rw [listing_take_succ hw, Image.emit_append, ← image_of_finalVisit hw]
    rfl
  have hc : a.rewind.image.cursor = origin := ha
  rw [hn] at hx
  rw [← hc]
  exact mem_cells_emit_listing (k + 1) (by rwa [hc]) hx

section

variable (h : (pass set .first source).run (start origin) = .ok () a)
variable (h' : (pass set .final source).run a = .ok () b)

include h h'

theorem span_passes :
    span set (finalVisits set source a) = span set (firstVisits set source origin) :=
  span_congr (places_passes h h')

theorem sizes_of_final (k : Nat) :
    b.sizes[k]? = (finalVisits set source a)[k]?.bind fun w : Visit ↦ w.size? set := by
  have hn : b.sizes = a.rewind.sizes := sizes_of_sweep_final (sweep_of_final h')
  have hs : a.rewind.sizes[k]? = _ := sizes_of_first h k
  rw [hn, hs, size?_getElem?_congr (places_passes h h')]

variable (hroom : origin.toNat + span set (firstVisits set source origin) < UInt32.size)

include hroom

theorem mem_cells_of_final (x : UInt32) :
    x ∈ b.image.cells ↔ (x - origin).toNat < span set (firstVisits set source origin) := by
  have hspan := span_passes h h'
  have ha : a.rewind.image.cursor = origin := origin_of_first h
  have hx : x ∈ a.rewind.image.cells ↔ _ := mem_cells_of_first h hroom x
  have hfit : (listing set (finalVisits set source a)).length ≤ UInt32.size := by
    rw [length_listing]
    omega
  rw [image_of_final h', Image.mem_cells_emit hfit, length_listing, hx, ha, hspan, or_self]

theorem slice_of_finalVisit (hw : (finalVisits set source a)[k]? = some w) :
    b.image.slice w.address (w.length set) = w.bytes set := by
  have hspan := span_passes h h'
  have happ : listing set (finalVisits set source a) = _ := listing_eq_append hw
  have hlen := congrArg List.length happ
  rw [length_listing, List.length_append] at hlen
  rw [image_of_finalVisit_append h' hw, ← Visit.length_bytes]
  exact Image.slice_emit_append _ (by omega)

end

/-- A program whose final pass leaves everything where the first pass has put it. -/
structure Settled (set : InstructionSet) (source : String) (origin : UInt32) (a b : Assembly) :
    Prop where
  labels : ∀ name, b.label? name = a.label? name
  cursor : b.image.cursor = a.image.cursor
  definitions : ∀ k w name, (finalVisits set source a)[k]? = some w → w.label? = some name →
    w.workspace.label? name =
      some ((origin.toNat + span set ((finalVisits set source a).take k) : Nat) : Int)
  sizes : ∀ k : Nat, b.sizes[k]? = (finalVisits set source a)[k]?.bind fun w : Visit ↦ w.size? set
  output : b.output = listing set (finalVisits set source a)
  length : b.output.length =
    total ((List.range (Source.lines source).length).map fun k ↦ b.sizes[k]?.getD 0)
  kept : ∀ w ∈ finalVisits set source a, b.image.slice w.address (w.length set) = w.bytes set
  cells : ∀ x, x ∈ b.image.cells ↔ origin ≤ x ∧ x < b.image.cursor
  within : ∀ v ∈ firstVisits set source origin ++ finalVisits set source a,
    ∀ x ∈ (v.next set).image.cells, origin ≤ x ∧ x < b.image.cursor

/-- Where two passes succeed and the program ends below the end of the address space, labels,
cursor and lengths do not move between them, and the program is made of the bytes of its lines. -/
theorem settled_of_passes (h : (pass set .first source).run (start origin) = .ok () a)
    (h' : (pass set .final source).run a = .ok () b)
    (hroom : origin.toNat + span set (firstVisits set source origin) < UInt32.size) :
    Settled set source origin a b := by
  have ha : a.origin = origin := origin_of_first h
  have hspan := span_passes h h'
  have hroom' : origin.toNat + span set (finalVisits set source a) < UInt32.size := by
    rwa [hspan]
  have hcursor : b.image.cursor = origin + UInt32.ofNat _ := cursor_of_final ha h'
  have hout := output_of_final ha h' (by omega)
  have hwithin (x : UInt32) : (x - origin).toNat < span set (firstVisits set source origin) ↔
      origin ≤ x ∧ x < b.image.cursor := by
    rw [hcursor, hspan]
    exact toNat_sub_lt_iff hroom
  constructor
  case labels =>
    intro name
    rw [label?_of_final h', label?_of_first h, definition?_congr (places_passes h h'),
      Option.or_self]
  case cursor => rw [hcursor, cursor_of_first h, hspan]
  case definitions =>
    intro k w name hw hl
    have hle : span set ((finalVisits set source a).take k) ≤ _ := span_take_le k _
    rw [label?_workspace, if_pos hl, address_of_finalVisit ha hw, toNat_add_ofNat (by omega)]
    rfl
  case sizes => exact sizes_of_final h h'
  case output => exact hout
  case length =>
    have hl : (finalVisits set source a).length = (Source.lines source).length :=
      length_visitsFrom (sweep_of_final h')
    rw [hout, length_listing, span_eq_total_range, hl]
    simp only [sizes_of_final h h']
  case kept =>
    intro w hw
    obtain ⟨k, hw⟩ := List.mem_iff_getElem?.1 hw
    exact slice_of_finalVisit h h' hroom hw
  case cells =>
    intro x
    rw [mem_cells_of_final h h' hroom, hwithin]
  case within =>
    intro v hv x hx
    rw [← hwithin]
    rcases List.mem_append.1 hv with hv | hv
    · obtain ⟨k, hv⟩ := List.mem_iff_getElem?.1 hv
      exact mem_cells_next_of_firstVisit hv hroom hx
    · obtain ⟨k, hv⟩ := List.mem_iff_getElem?.1 hv
      rcases mem_cells_next_of_finalVisit hv ha hroom' hx with hx | hx
      · exact (mem_cells_of_first h hroom x).1 hx
      · rwa [hspan] at hx

theorem settled_jump_over_loop :
    ∃ a b, Settled .standard "\tjmp done\nwait:\tdex\n\tbne wait\ndone:\tstx $12,y" 0x8000 a b := by
  have hok : (Visit.state? ((passes .standard
      "\tjmp done\nwait:\tdex\n\tbne wait\ndone:\tstx $12,y").run (start 0x8000))).isSome =
        true := by
    decide +kernel
  obtain ⟨b, hb⟩ := Visit.exists_eq_ok_of_isSome hok
  obtain ⟨a, h, h'⟩ := run_passes_eq_ok.1 hb
  exact ⟨a, b, settled_of_passes h h' (by decide +kernel)⟩

end Assembly

end Asm65816
