import Asm65816.Proofs.Assembly.Listing

namespace Asm65816.Assembly

def Visit.place (set : InstructionSet) (v : Visit) : String × UInt32 × Option Nat :=
  (v.text, v.address, v.size? set)

section

variable {set : InstructionSet} {vs ws : List Visit} {v w : Visit} {name : String}

theorem label?_of_text (h : v.text = w.text) : v.label? = w.label? := by
  unfold Visit.label? Visit.statement?
  rw [h]

theorem instruction?_of_text (h : v.text = w.text) : v.instruction? = w.instruction? := by
  unfold Visit.instruction? Visit.statement?
  rw [h]

theorem length_of_place (h : v.place set = w.place set) : v.length set = w.length set := by
  have hs : v.size? set = w.size? set := congrArg (·.2.2) h
  rw [Visit.length_eq_size?, Visit.length_eq_size?, hs]

theorem definition?_congr (h : vs.map (Visit.place set) = ws.map (Visit.place set)) :
    definition? name vs = definition? name ws := by
  induction vs generalizing ws with
  | nil =>
    cases ws with
    | nil => rfl
    | cons w ws => cases h
  | cons v vs ih =>
    cases ws with
    | nil => cases h
    | cons w ws =>
      simp only [List.map_cons, List.cons.injEq] at h
      obtain ⟨hp, ht⟩ := h
      have hl : v.label? = w.label? := label?_of_text (congrArg (·.1) hp)
      have ha : v.address = w.address := congrArg (·.2.1) hp
      rw [definition?, definition?, ih ht, hl, ha]

theorem span_congr (h : vs.map (Visit.place set) = ws.map (Visit.place set)) :
    span set vs = span set ws := by
  induction vs generalizing ws with
  | nil =>
    cases ws with
    | nil => rfl
    | cons w ws => cases h
  | cons v vs ih =>
    cases ws with
    | nil => cases h
    | cons w ws =>
      simp only [List.map_cons, List.cons.injEq] at h
      rw [span_cons, span_cons, ih h.2, length_of_place h.1]

variable {n : Nat} {texts : List String} {a b a' b' : Assembly}

theorem size?_passes (ht : w.text = v.text) (hp : w.pass = .final) (h : v.line set = .ok () b)
    (h' : w.line set = .ok () b') (hs : w.assembly.sizes[w.number]? = v.size? set) :
    w.size? set = v.size? set := by
  obtain ⟨-, hi, -⟩ := Visit.line_eq_ok h
  obtain ⟨-, hi', hm⟩ := Visit.line_eq_ok h'
  rw [instruction?_of_text ht, ← hi] at hi'
  rw [← hs]
  cases he : w.encoding? set with
  | some e =>
    rw [hm hp e he, Visit.size?, he]
    rfl
  | none =>
    have hn : v.encoding? set = none := by
      rw [he] at hi'
      exact Option.isSome_eq_false_iff.1 hi'.symm |> Option.isNone_iff_eq_none.1
    rw [hs, Visit.size?, Visit.size?, he, hn]

/-- Two passes from one address put every line at the same place. -/
theorem places_of_sweeps (h : sweep set .first n texts a = .ok () b)
    (h' : sweep set .final n texts a' = .ok () b') (hc : a'.image.cursor = a.image.cursor)
    (hs : ∀ m, n ≤ m → m < n + texts.length →
      a'.sizes[m]? = noted? set n (visitsFrom set .first n texts a) m) :
    (visitsFrom set .final n texts a').map (Visit.place set) =
      (visitsFrom set .first n texts a).map (Visit.place set) := by
  induction texts generalizing n a a' with
  | nil => rfl
  | cons text texts ih =>
    obtain ⟨hv, ht⟩ := sweep_cons_ok h
    obtain ⟨hv', ht'⟩ := sweep_cons_ok h'
    rw [visitsFrom_cons_of_sweep h] at hs ⊢
    rw [visitsFrom_cons_of_sweep h']
    have hz : (Visit.mk .final n text a').size? set = (Visit.mk .first n text a).size? set := by
      refine size?_passes rfl rfl hv hv' ?_
      change a'.sizes[n]? = _
      rw [hs n (Nat.le_refl n) (by simp), noted?_cons]
      simp [noted?]
    have hp : (Visit.mk .final n text a').place set = (Visit.mk .first n text a).place set := by
      unfold Visit.place
      rw [hz]
      exact congrArg (fun c ↦ (text, c, _)) hc
    rw [List.map_cons, List.map_cons, hp]
    congr 1
    refine ih ht ht' ?_ ?_
    · have hl := length_of_place hp
      rw [← Visit.length_bytes, ← Visit.length_bytes] at hl
      change a'.image.cursor + UInt32.ofNat _ = a.image.cursor + UInt32.ofNat _
      rw [hc, hl]
    · intro m hm hm'
      rw [List.length_cons] at hs
      have hn := hs m (by omega) (by omega)
      rw [noted?_cons, if_neg (by omega), Option.or_none] at hn
      exact hn

end

section

variable {set : InstructionSet} {source : String} {origin : UInt32} {a b : Assembly}
variable {k : Nat} {v w : Visit} {name : String}

variable (set source origin) in
def firstVisits : List Visit := visits set .first source (start origin)

variable (set source a) in
def finalVisits : List Visit := visits set .final source a

theorem run_passes_eq_ok {s : Assembly} :
    (passes set source).run s = .ok () b ↔
      ∃ a, (pass set .first source).run s = .ok () a ∧
        (pass set .final source).run a = .ok () b := by
  rw [passes, EStateM.run_bind]
  cases (pass set .first source).run s <;> simp

theorem assemble_eq_ok {bytes : List UInt8} :
    assemble set source origin = .ok bytes ↔
      ∃ a b, (pass set .first source).run (start origin) = .ok () a ∧
        (pass set .final source).run a = .ok () b ∧ bytes = b.output := by
  have hb : assemble set source origin = .ok bytes ↔
      ∃ b, (passes set source).run (start origin) = .ok () b ∧ bytes = b.output := by
    unfold assemble
    cases (passes set source).run (start origin) <;> simp [eq_comm]
  rw [hb]
  simp only [run_passes_eq_ok]
  constructor
  · rintro ⟨b, ⟨a, h, h'⟩, hb⟩
    exact ⟨a, b, h, h', hb⟩
  · rintro ⟨a, b, h, h', hb⟩
    exact ⟨b, ⟨a, h, h'⟩, hb⟩

theorem sweep_of_first (h : (pass set .first source).run (start origin) = .ok () a) :
    sweep set .first 0 (Source.lines source) (start origin) = .ok () a :=
  (pass_eq_sweep set .first source (start origin)).symm.trans h

theorem sweep_of_final (h : (pass set .final source).run a = .ok () b) :
    sweep set .final 0 (Source.lines source) a.rewind = .ok () b :=
  (pass_eq_sweep set .final source a).symm.trans h

theorem image_of_first (h : (pass set .first source).run (start origin) = .ok () a) :
    a.image = (Image.empty origin).emit (listing set (firstVisits set source origin)) :=
  image_of_sweep (sweep_of_first h)

theorem origin_of_first (h : (pass set .first source).run (start origin) = .ok () a) :
    a.origin = origin := origin_of_sweep (sweep_of_first h)

theorem label?_start : (start origin).label? name = none := by
  simp [start, Workspace.label?, Workspace.empty]

theorem label?_of_first (h : (pass set .first source).run (start origin) = .ok () a) :
    a.label? name = definition? name (firstVisits set source origin) := by
  have hl : a.label? name = _ := label?_of_sweep (sweep_of_first h)
  rw [hl, label?_start, Option.or_none]
  rfl

theorem sizes_of_first (h : (pass set .first source).run (start origin) = .ok () a) (m : Nat) :
    a.sizes[m]? = (firstVisits set source origin)[m]?.bind fun v ↦ v.size? set := by
  have hs : (start origin).sizes[m]? = none := by simp [start]
  rw [sizes_of_sweep_first (sweep_of_first h), hs, Option.or_none]
  rfl

/-- After a first pass that succeeds, the final pass comes to no line that the first did not. -/
theorem exists_firstVisit (h : (pass set .first source).run (start origin) = .ok () a)
    (hw : (finalVisits set source a)[k]? = some w) :
    ∃ v, (firstVisits set source origin)[k]? = some v := by
  obtain ⟨-, -, hx, -, -⟩ := sweep_take hw
  have hk : k < (firstVisits set source origin).length := by
    have hl := length_visitsFrom (sweep_of_first h)
    have hlt := (List.getElem?_eq_some_iff.1 hx).1
    exact hl ▸ hlt
  exact ⟨_, List.getElem?_eq_getElem hk⟩

theorem finalVisits_zero {text : String} {texts : List String}
    (h : Source.lines source = text :: texts) :
    (finalVisits set source a)[0]? = some ⟨.final, 0, text, a.rewind⟩ := by
  rw [finalVisits, visits, h]
  rfl

theorem text_passes (hv : (firstVisits set source origin)[k]? = some v)
    (hw : (finalVisits set source a)[k]? = some w) : w.text = v.text := by
  obtain ⟨-, -, hx, -, -⟩ := sweep_take hv
  obtain ⟨-, -, hx', -, -⟩ := sweep_take hw
  rw [hx] at hx'
  exact (Option.some.inj hx').symm

theorem sweep_of_firstVisit (hv : (firstVisits set source origin)[k]? = some v) :
    sweep set .first 0 ((Source.lines source).take k) (start origin) = .ok () v.assembly ∧
      visitsFrom set .first 0 ((Source.lines source).take k) (start origin) =
        (firstVisits set source origin).take k := by
  obtain ⟨hs, ht, -, -, -⟩ := sweep_take hv
  exact ⟨hs, ht⟩

theorem sweep_of_finalVisit (hw : (finalVisits set source a)[k]? = some w) :
    sweep set .final 0 ((Source.lines source).take k) a.rewind = .ok () w.assembly ∧
      visitsFrom set .final 0 ((Source.lines source).take k) a.rewind =
        (finalVisits set source a).take k := by
  obtain ⟨hs, ht, -, -, -⟩ := sweep_take hw
  exact ⟨hs, ht⟩

theorem image_of_firstVisit (hv : (firstVisits set source origin)[k]? = some v) :
    v.assembly.image =
      (Image.empty origin).emit (listing set ((firstVisits set source origin).take k)) := by
  obtain ⟨hs, ht⟩ := sweep_of_firstVisit hv
  rw [← ht]
  exact image_of_sweep hs

theorem image_of_finalVisit (hw : (finalVisits set source a)[k]? = some w) :
    w.assembly.image =
      a.rewind.image.emit (listing set ((finalVisits set source a).take k)) := by
  obtain ⟨hs, ht⟩ := sweep_of_finalVisit hw
  rw [← ht]
  exact image_of_sweep hs

theorem label?_of_firstVisit (hv : (firstVisits set source origin)[k]? = some v) :
    v.assembly.label? name = definition? name ((firstVisits set source origin).take k) := by
  obtain ⟨hs, ht⟩ := sweep_of_firstVisit hv
  have hl : v.assembly.label? name = _ := label?_of_sweep hs
  rw [hl, ht, label?_start, Option.or_none]

theorem label?_of_finalVisit (hw : (finalVisits set source a)[k]? = some w) :
    w.assembly.label? name =
      (definition? name ((finalVisits set source a).take k)).or (a.label? name) := by
  obtain ⟨hs, ht⟩ := sweep_of_finalVisit hw
  rw [← ht]
  exact label?_of_sweep hs

theorem places_take (h : (pass set .first source).run (start origin) = .ok () a)
    (hv : (firstVisits set source origin)[k]? = some v)
    (hw : (finalVisits set source a)[k]? = some w) :
    ((finalVisits set source a).take k).map (Visit.place set) =
      ((firstVisits set source origin).take k).map (Visit.place set) := by
  obtain ⟨hs, ht⟩ := sweep_of_firstVisit hv
  obtain ⟨hs', ht'⟩ := sweep_of_finalVisit hw
  rw [← ht, ← ht']
  refine places_of_sweeps hs hs' (origin_of_first h) fun m _ hm ↦ ?_
  rw [List.length_take] at hm
  have hn : a.rewind.sizes[m]? = _ := sizes_of_first h m
  rw [hn, ht, noted?_take (by omega)]
  rfl

theorem address_of_firstVisit (hv : (firstVisits set source origin)[k]? = some v) :
    v.address = origin + UInt32.ofNat (span set ((firstVisits set source origin).take k)) := by
  unfold Visit.address
  rw [image_of_firstVisit hv, Image.cursor_emit, length_listing]
  rfl

theorem address_of_finalVisit (ha : a.origin = origin)
    (hw : (finalVisits set source a)[k]? = some w) :
    w.address = origin + UInt32.ofNat (span set ((finalVisits set source a).take k)) := by
  unfold Visit.address
  rw [image_of_finalVisit hw, Image.cursor_emit, length_listing, ← ha]
  rfl

theorem address_passes (h : (pass set .first source).run (start origin) = .ok () a)
    (hv : (firstVisits set source origin)[k]? = some v)
    (hw : (finalVisits set source a)[k]? = some w) : w.address = v.address := by
  rw [address_of_firstVisit hv, address_of_finalVisit (origin_of_first h) hw,
    span_congr (places_take h hv hw)]

theorem label?_passes (h : (pass set .first source).run (start origin) = .ok () a)
    (hv : (firstVisits set source origin)[k]? = some v)
    (hw : (finalVisits set source a)[k]? = some w) {z : Int}
    (hz : v.workspace.label? name = some z) : w.workspace.label? name = some z := by
  rw [label?_workspace, label?_of_firstVisit hv] at hz
  rw [label?_workspace, label?_of_finalVisit hw, definition?_congr (places_take h hv hw),
    label?_of_text (text_passes hv hw), address_passes h hv hw, ← Option.or_assoc, hz,
    Option.some_or]

theorem pass_of_firstVisit (hv : (firstVisits set source origin)[k]? = some v) :
    v.site.pass = .first := (sweep_take hv).2.2.2.1

theorem pass_of_finalVisit (hw : (finalVisits set source a)[k]? = some w) :
    w.site.pass = .final := (sweep_take hw).2.2.2.1

theorem operand?_of_firstVisit (h : (pass set .first source).run (start origin) = .ok () a)
    (hv : (firstVisits set source origin)[k]? = some v) {i : String × Line}
    (hi : v.instruction? = some i) :
    ∃ e o en, v.operand? set = some (e, o) ∧ v.encoding? set = some en ∧
      set.join .first e o = .ok en := by
  have hp : v.pass = .first := pass_of_firstVisit hv
  obtain ⟨e, o, en, ho, hen, hj⟩ :=
    Visit.operand?_of_line (line_of_visit (sweep_of_first h) hv) hi
  rw [hp] at hj
  exact ⟨e, o, en, ho, hen, hj⟩

theorem encoding?_of_operand? (h : (pass set .first source).run (start origin) = .ok () a)
    (hv : (firstVisits set source origin)[k]? = some v) {e : Entry} {o : Operand}
    (ho : v.operand? set = some (e, o)) :
    ∃ en, v.encoding? set = some en ∧ set.join .first e o = .ok en := by
  obtain ⟨name, line, r, hi, -, -⟩ := Visit.operand?_eq_some.1 ho
  obtain ⟨e', o', en, ho', hen, hj⟩ := operand?_of_firstVisit h hv hi
  rw [ho] at ho'
  cases ho'
  exact ⟨en, hen, hj⟩

theorem parse_passes (hv : (firstVisits set source origin)[k]? = some v)
    (hw : (finalVisits set source a)[k]? = some w) {e e' : Entry} {o o' : Operand}
    (ho : v.operand? set = some (e, o)) (ho' : w.operand? set = some (e', o')) :
    e' = e ∧ ∃ name line r r', v.instruction? = some (name, line) ∧ set.lookup? name = some e ∧
      (Operand.Grammar.parse v.site (Expr.sum v.workspace.label?) v.workspace.image.read e.base
        e.width).run line = .ok o r ∧
      (Operand.Grammar.parse w.site (Expr.sum w.workspace.label?) w.workspace.image.read e.base
        e.width).run line = .ok o' r' := by
  obtain ⟨name, line, r, hi, hl, hr⟩ := Visit.operand?_eq_some.1 ho
  obtain ⟨name', line', r', hi', hl', hr'⟩ := Visit.operand?_eq_some.1 ho'
  rw [instruction?_of_text (text_passes hv hw), hi] at hi'
  cases hi'
  rw [hl] at hl'
  cases hl'
  exact ⟨rfl, name, line, r, r', hi, hl, hr, hr'⟩

theorem operand?_of_finalVisit (h : (pass set .first source).run (start origin) = .ok () a)
    (hv : (firstVisits set source origin)[k]? = some v)
    (hw : (finalVisits set source a)[k]? = some w) {e : Entry} {o : Operand}
    (ho : w.operand? set = some (e, o)) :
    ∃ o', v.operand? set = some (e, o') := by
  obtain ⟨name, line, r, hi, -, -⟩ := Visit.operand?_eq_some.1 ho
  rw [instruction?_of_text (text_passes hv hw)] at hi
  obtain ⟨e', o', en, ho', -, -⟩ := operand?_of_firstVisit h hv hi
  obtain ⟨rfl, -⟩ := parse_passes hv hw ho' ho
  exact ⟨o', ho'⟩

end

end Asm65816.Assembly
