import Asm65816.Proofs.Assembly.Rereading
import Asm65816.Proofs.Operand.Labels

namespace Asm65816

namespace InstructionSet

open TokenSource

variable {σ : Type} [TokenSource σ] {set : InstructionSet} {site : Site}
variable {eval : Expr.Evaluator σ} {memory memory' : UInt32 → UInt8} {name : String}

theorem encode_congr (h : site.isForward memory = site.isForward memory') :
    set.encode site eval memory name = set.encode site eval memory' name := by
  unfold encode operand
  simp only [Operand.parse_congr h]

end InstructionSet

theorem getD_of_append {xs ys : List UInt8} {i : Nat} (h : (xs ++ ys)[i]?.getD 0 = 0) :
    xs[i]?.getD 0 = 0 := by
  by_cases hi : i < xs.length
  · rwa [List.getElem?_append_left hi] at h
  · rw [List.getElem?_eq_none (Nat.le_of_not_lt hi)]
    rfl

/-- Bytes behind the first three come into sight only if nothing stands between. -/
theorem forall_getD_append_iff {xs ys zs : List UInt8} (hlength : 3 ≤ xs.length)
    (h : ∀ i, 1 ≤ i → i ≤ 3 → (xs ++ ys)[i]?.getD 0 = 0) :
    (∀ i, 1 ≤ i → i ≤ 3 → (xs ++ ys ++ zs)[i]?.getD 0 = 0) ↔
      (xs.length = 3 → ys = [] → zs[0]?.getD 0 = 0) := by
  constructor
  · rintro hz hl rfl
    have h₃ := hz 3 (by decide) (by decide)
    rw [List.append_nil, List.getElem?_append_right (Nat.le_of_eq hl), hl] at h₃
    exact h₃
  · intro hz i hi hi'
    by_cases hlt : i < (xs ++ ys).length
    · rw [List.getElem?_append_left hlt]
      exact h i hi hi'
    · rw [List.length_append] at hlt
      have hl : xs.length = 3 := by omega
      have hys : ys = [] := List.eq_nil_of_length_eq_zero (by omega)
      rw [hys, List.append_nil, List.getElem?_append_right (by omega),
        show i - xs.length = 0 by omega]
      exact hz hl hys

namespace Assembly

/-- A line that neither defines a label nor depends on what labels stand for. -/
structure Unlabelled (set : InstructionSet) (text : String) : Prop where
  label : ∀ s, Statement.ofText? text = some s → s.label = none
  free : ∀ s, Statement.ofText? text = some s → ∀ site memory labels labels',
    (set.encode site (Expr.sum labels) memory s.word.text).run s.operand =
      (set.encode site (Expr.sum labels') memory s.word.text).run s.operand

namespace Visit

variable {set : InstructionSet} {u w : Visit} {s : Statement}

theorem fault?_of_unreadable (set : InstructionSet) (hs : w.statement? = none) :
    ∃ offset, Line.ofText w.text = .error offset ∧
      fault? (w.line set) = some (.unreadable offset) := by
  unfold statement? Statement.ofText? at hs
  split at hs
  · cases hs
  · next offset ho =>
    refine ⟨offset, ho, ?_⟩
    unfold line Assembly.line
    rw [ho]
    rfl

theorem fault?_of_instruction (hs : w.statement? = some s) (hw : s.word.isStop = false) :
    fault? (w.line set) =
      match (set.encode w.site (Expr.sum w.workspace.label?) w.workspace.image.read
        s.word.text).run s.operand with
      | .error f _ => some (.line f)
      | .ok e _ =>
        if w.pass = .final ∧ w.assembly.sizes[w.number]? ≠ some e.length then
          some (.resized w.text w.assembly.sizes[w.number]? e.length)
        else none := by
  rw [line_of_statement? hs, if_neg (by simp [hw]), Workspace.enter]
  cases (set.encode w.site (Expr.sum w.workspace.label?) w.workspace.image.read
    s.word.text).run s.operand with
  | error f r => rfl
  | ok e r =>
    simp only [measure]
    cases w.pass with
    | first => simp [fault?]
    | final =>
      by_cases hm : w.assembly.sizes[w.number]? = some e.length
      · simp [fault?, hm]
      · simp [fault?, hm]

theorem fault?_of_unlabelled (h : Unlabelled set w.text) (ht : u.text = w.text)
    (hsite : u.site = w.site)
    (hnoted : u.assembly.sizes[u.number]? = w.assembly.sizes[w.number]?)
    (hF : w.site.isForward u.workspace.image.read = w.site.isForward w.workspace.image.read) :
    fault? (u.line set) = fault? (w.line set) ∧ u.encoding? set = w.encoding? set := by
  have hstatement : u.statement? = w.statement? := congrArg Statement.ofText? ht
  have hpass : u.pass = w.pass := congrArg Site.pass hsite
  cases hs : w.statement? with
  | none =>
    obtain ⟨offset, ho, hf⟩ := fault?_of_unreadable set hs
    obtain ⟨offset', ho', hf'⟩ := fault?_of_unreadable set (hstatement.trans hs)
    rw [ht, ho] at ho'
    cases ho'
    refine ⟨hf'.trans hf.symm, ?_⟩
    rw [encoding?, encoding?, instruction?_of_text ht]
    simp [instruction?, hs]
  | some s =>
    have hs' : u.statement? = some s := hstatement.trans hs
    cases hw : s.word.isStop with
    | true =>
      rw [line_of_stop hs hw, line_of_stop hs' hw, encoding?_of_stop hs hw,
        encoding?_of_stop hs' hw]
      exact ⟨rfl, rfl⟩
    | false =>
      have hrun : (set.encode u.site (Expr.sum u.workspace.label?) u.workspace.image.read
            s.word.text).run s.operand =
          (set.encode w.site (Expr.sum w.workspace.label?) w.workspace.image.read
            s.word.text).run s.operand := by
        rw [hsite, InstructionSet.encode_congr hF]
        exact h.free s hs ..
      constructor
      · rw [fault?_of_instruction hs hw, fault?_of_instruction hs' hw, hrun, hpass, ht, hnoted]
      · simp only [encoding?, instruction?, hs, hs', hw, Option.bind_some, Bool.false_eq_true,
          if_false, hrun]

end Visit

section

variable {set : InstructionSet} {source whole alone text : String} {origin : UInt32}
variable {a b c : Assembly} {p : Pass} {n k : Nat} {f : Fault}

theorem sweep_singleton : sweep set p n [text] a = line set p n text a := by
  rw [sweep_cons]
  cases line set p n text a <;> rfl

theorem visitsFrom_singleton : visitsFrom set p n [text] a = [⟨p, n, text, a⟩] := by
  rw [visitsFrom]
  cases line set p n text a <;> rfl

def appended (source text : String) (p : Pass) (a : Assembly) : Visit :=
  ⟨p, (Source.lines source).length, text, a⟩

theorem assemble_of_first
    (h : Visit.fault? ((pass set .first source).run (start origin)) = some f) :
    assemble set source origin = .error f := by
  obtain ⟨s, hs⟩ := Visit.fault?_eq_some_iff.1 h
  rw [assemble, passes, EStateM.run_bind, hs]

theorem assemble_of_final (h : (pass set .first source).run (start origin) = .ok () a)
    (h' : Visit.fault? ((pass set .final source).run a) = some f) :
    assemble set source origin = .error f := by
  obtain ⟨s, hs⟩ := Visit.fault?_eq_some_iff.1 h'
  rw [assemble, passes, EStateM.run_bind, h]
  simp only [hs]

section

variable (hwhole : Source.lines whole = Source.lines source ++ [text])

include hwhole

theorem pass_append (p : Pass) (a : Assembly) :
    (pass set p whole).run a =
      match (pass set p source).run a with
      | .ok _ b => (appended source text p b).line set
      | .error f s => .error f s := by
  change pass set p whole a = match pass set p source a with | .ok _ b => _ | .error f s => _
  rw [pass_eq_sweep, pass_eq_sweep, hwhole, sweep_append]
  simp only [sweep_singleton, Nat.zero_add]
  rfl

theorem visits_append (h : (pass set p source).run a = .ok () b) :
    visits set p whole a = visits set p source a ++ [appended source text p b] := by
  have hs : sweep set p 0 (Source.lines source) a.rewind = .ok () b :=
    (pass_eq_sweep set p source a).symm.trans h
  unfold visits
  rw [hwhole, visitsFrom_append hs, visitsFrom_singleton, Nat.zero_add]
  rfl

end

theorem pass_empty (p : Pass) (a : Assembly) : (pass set p "").run a = .ok () a.rewind :=
  pass_eq_sweep set p "" a

section

variable (h : (pass set .first source).run (start origin) = .ok () a)

include h

theorem noted_appended_first :
    (appended source text .first a).assembly.sizes[(appended source text .first a).number]? =
      none := by
  change a.sizes[(Source.lines source).length]? = none
  rw [sizes_of_first h, List.getElem?_eq_none (Nat.le_of_eq (length_firstVisits h))]
  rfl

/-- On the first pass a line without labels fares behind a program as it fares alone. -/
theorem fault?_appended_first (hfree : Unlabelled set text) :
    Visit.fault? ((appended source text .first a).line set) =
        Visit.fault? ((appended "" text .first (start a.image.cursor)).line set) ∧
      (appended source text .first a).encoding? set =
        (appended "" text .first (start a.image.cursor)).encoding? set := by
  refine Visit.fault?_of_unlabelled hfree rfl rfl ?_ ?_
  · rw [noted_appended_first h]
    simp [appended, start]
  · rw [isForward_first rfl, isForward_first rfl]

end

theorem inStep_append (hlabel : (appended source text .first a).label? = none) :
    InStep 0 (Source.lines source).length a.rewind
      ((appended source text .first a).next set).rewind where
  cursor := rfl
  labels name := by
    have hl : (appended source text .first a).workspace.label? name = _ := label?_workspace
    rw [hlabel] at hl
    exact hl
  noted i _ hi := by
    have hs : ((appended source text .first a).next set).sizes[i]? = _ := sizes_next_first rfl i
    have hne : ¬(appended source text .first a).number = i := by
      change ¬(Source.lines source).length = i
      omega
    rw [if_neg hne] at hs
    exact hs

section

variable (hwhole : Source.lines whole = Source.lines source ++ [text])
variable (h : (pass set .first source).run (start origin) = .ok () a)
variable (hline : (appended source text .first a).line set =
  .ok () ((appended source text .first a).next set))

include hwhole h hline

theorem first_append :
    (pass set .first whole).run (start origin) =
      .ok () ((appended source text .first a).next set) := by
  rw [pass_append hwhole, h]
  exact hline

variable (hroom : origin.toNat + 4 * (Source.lines whole).length + 4 < UInt32.size)

include hroom

theorem read_of_append {v : Visit} (hv : (firstVisits set source origin)[k]? = some v) {i : Nat}
    (hi : i ≤ 3) :
    ((appended source text .first a).next set).image.read (v.address + UInt32.ofNat i) =
      (v.bytes set ++ listing set ((firstVisits set source origin).drop (k + 1)) ++
        (appended source text .first a).bytes set)[i]?.getD 0 := by
  have hlt := (List.getElem?_eq_some_iff.1 hv).1
  have hvisits : firstVisits set whole origin = firstVisits set source origin ++ _ :=
    visits_append hwhole h
  have hv' : (firstVisits set whole origin)[k]? = some v := by
    rw [hvisits, List.getElem?_append_left hlt]
    exact hv
  rw [read_of_firstVisit (first_append hwhole h hline) hv' hroom hi, hvisits,
    List.drop_append_of_le_length hlt, listing_append, List.append_assoc, listing_cons, listing_nil,
    List.append_nil]

theorem read_of_appended {i : Nat} (hi : i ≤ 3) :
    ((appended source text .first a).next set).image.read (a.image.cursor + UInt32.ofNat i) =
      ((appended source text .first a).bytes set)[i]?.getD 0 := by
  have hvisits : firstVisits set whole origin = firstVisits set source origin ++ _ :=
    visits_append hwhole h
  have hv : (firstVisits set whole origin)[(firstVisits set source origin).length]? =
      some (appended source text .first a) := by
    rw [hvisits, List.getElem?_concat_length]
  have hr := read_of_firstVisit (first_append hwhole h hline) hv hroom hi
  rw [hvisits, List.drop_eq_nil_of_le (by simp), listing_nil, List.append_nil] at hr
  exact hr

variable {w : Visit} (hw : (finalVisits set source a)[k]? = some w)

include hw

theorem isForward_append {v : Visit} (hv : (firstVisits set source origin)[k]? = some v) :
    (w.site.isForward w.workspace.image.read = true ↔ ∀ i, 1 ≤ i → i ≤ 3 →
        (v.bytes set ++ listing set ((firstVisits set source origin).drop (k + 1)))[i]?.getD 0 =
          0) ∧
      (w.site.isForward ((appended source text .first a).next set).image.read = true ↔
        ∀ i, 1 ≤ i → i ≤ 3 →
          (v.bytes set ++ listing set ((firstVisits set source origin).drop (k + 1)) ++
            (appended source text .first a).bytes set)[i]?.getD 0 = 0) := by
  have hlines : (Source.lines whole).length = (Source.lines source).length + 1 := by
    rw [hwhole, List.length_append, List.length_singleton]
  have haddress := address_passes h hv hw
  constructor
  · rw [isForward_iff_read hw (by omega), haddress]
    refine forall_congr' fun i ↦ imp_congr_right fun _ ↦ imp_congr_right fun hi ↦ ?_
    rw [read_of_firstVisit h hv (by omega) hi]
  · rw [isForward_iff_forall (pass_of_finalVisit hw)]
    refine forall_congr' fun i ↦ imp_congr_right fun _ ↦ imp_congr_right fun hi ↦ ?_
    change ((appended source text .first a).next set).image.read (w.address + _) = 0 ↔ _
    rw [haddress, read_of_append hwhole h hline hroom hv hi]

theorem isForward_of_append
    (hF : w.site.isForward ((appended source text .first a).next set).image.read = true) :
    w.site.isForward w.workspace.image.read = true := by
  obtain ⟨v, hv⟩ := exists_firstVisit h hw
  obtain ⟨hiff, hiff'⟩ := isForward_append hwhole h hline hroom hw hv
  exact hiff.2 fun i hi hi' ↦ getD_of_append (hiff'.1 hF i hi hi')

end

end

section

variable {source whole alone text : String} {origin : UInt32} {a b : Assembly} {k : Nat}
variable {w : Visit} {e : Entry} {o : Operand}

/-- An operand that was given room it does not need keeps it in front of a further line, unless it
is one byte short of the widest and that line begins right behind it, with something other than
zero. -/
theorem isForward_append_of_isSlack (hwhole : Source.lines whole = Source.lines source ++ [text])
    (h : (pass .standard .first source).run (start origin) = .ok () a)
    (h' : (pass .standard .final source).run a = .ok () b)
    (hline : (appended source text .first a).line .standard =
      .ok () ((appended source text .first a).next .standard))
    (hroom : origin.toNat + 4 * (Source.lines whole).length + 4 < UInt32.size)
    (hw : (finalVisits .standard source a)[k]? = some w) (ho : w.operand? .standard = some (e, o))
    (hs : o.isSlack = true) :
    w.site.isForward ((appended source text .first a).next .standard).image.read = true ↔
      (o.mode.isIndexedY = true →
        span .standard ((finalVisits .standard source a).drop (k + 1)) = 0 →
        ((appended source text .first a).bytes .standard)[0]?.getD 0 = 0) := by
  obtain ⟨v, hv⟩ := exists_firstVisit h hw
  obtain ⟨hiff, hiff'⟩ := isForward_append hwhole h hline hroom hw hv
  obtain ⟨hlength, hF⟩ := length_of_isSlack h h' hw ho hs
  have hv' : (v.bytes .standard).length = if o.mode.isIndexedY then 3 else 4 := by
    rw [Visit.length_bytes, ← hlength, Visit.length_eq_size?, Visit.length_eq_size?,
      size?_of_passes h h' hv hw]
  have hle : 3 ≤ (v.bytes .standard).length := by
    rw [hv']
    split <;> decide
  rw [hiff', forall_getD_append_iff hle (hiff.1 hF)]
  have hthree : (v.bytes .standard).length = 3 ↔ o.mode.isIndexedY = true := by
    rw [hv']
    cases o.mode.isIndexedY <;> decide
  have hnil : listing .standard ((firstVisits .standard source origin).drop (k + 1)) = [] ↔
      span .standard ((finalVisits .standard source a).drop (k + 1)) = 0 := by
    rw [span_congr (map_drop_of_places (places_passes h h') (k + 1)), ← length_listing,
      List.length_eq_zero_iff]
  rw [hthree, hnil]

end

section

variable {set : InstructionSet} {source whole alone text : String} {origin : UInt32}
variable {a b c d : Assembly} {p : Pass} {f : Fault} {bytes : List UInt8}

theorem first_empty : (pass set .first "").run (start origin) = .ok () (start origin) :=
  pass_empty .first (start origin)

theorem noted_next_appended (h : (pass set .first source).run (start origin) = .ok () a) :
    ((appended source text .first a).next set).sizes[(Source.lines source).length]? =
      (appended source text .first a).size? set := by
  have hn : (appended source text .first a).number = (Source.lines source).length := rfl
  rw [sizes_next_first rfl, if_pos hn]
  exact (congrArg _ (noted_appended_first h)).trans Option.or_none

variable (set source whole text origin a d) in
/-- The first pass over a program takes a further line, and the final pass comes to it. -/
structure Followed : Prop where
  lines : Source.lines whole = Source.lines source ++ [text]
  first : (pass set .first source).run (start origin) = .ok () a
  line : (appended source text .first a).line set =
    .ok () ((appended source text .first a).next set)
  final : (pass set .final source).run ((appended source text .first a).next set) = .ok () d
  cursor : d.image.cursor = a.image.cursor
  room : origin.toNat + 4 * (Source.lines whole).length + 4 < UInt32.size

theorem Followed.noted (h : Followed set source whole text origin a d) :
    d.sizes[(Source.lines source).length]? = (appended source text .first a).size? set := by
  rw [sizes_of_pass h.final]
  exact noted_next_appended h.first

theorem Followed.isForward (h : Followed set source whole text origin a d) :
    (appended source text .final d).site.isForward
        (appended source text .final d).workspace.image.read = true ↔
      ∀ i, 1 ≤ i → i ≤ 3 → ((appended source text .first a).bytes set)[i]?.getD 0 = 0 := by
  have hsweep : sweep set .final 0 (Source.lines source)
      ((appended source text .first a).next set).rewind = .ok () d := sweep_of_final h.final
  have hu : (visitsFrom set .final 0 (Source.lines whole)
      ((appended source text .first a).next set).rewind)[(Source.lines source).length]? =
        some (appended source text .final d) := by
    have hvisits := visits_append h.lines h.final
    have hlength := length_visitsFrom hsweep
    unfold visits at hvisits
    rw [hvisits, ← hlength, List.getElem?_concat_length]
  have hroom := h.room
  rw [isForward_of_visit hu (by omega), isForward_iff_forall rfl]
  refine forall_congr' fun i ↦ imp_congr_right fun _ ↦ imp_congr_right fun hi ↦ ?_
  have hr := read_of_appended h.lines h.first h.line h.room hi
  rw [← h.cursor] at hr
  rw [← hr]
  rfl

theorem Followed.fault? {source' whole' : String} {origin' : UInt32} {a' d' : Assembly}
    (h : Followed set source whole text origin a d)
    (h' : Followed set source' whole' text origin' a' d') (hfree : Unlabelled set text)
    (ha : a.image.cursor = a'.image.cursor)
    (hen : (appended source text .first a).encoding? set =
      (appended source' text .first a').encoding? set) :
    Visit.fault? ((appended source text .final d).line set) =
        Visit.fault? ((appended source' text .final d').line set) ∧
      (appended source text .final d).encoding? set =
        (appended source' text .final d').encoding? set := by
  have hcursor : d.image.cursor = d'.image.cursor := by rw [h.cursor, h'.cursor, ha]
  have hsite : (appended source text .final d).site = (appended source' text .final d').site :=
    congrArg (Site.ofAddress .final) hcursor
  have hF := h.isForward
  have hF' := h'.isForward
  rw [bytes_of_encoding?_eq hen, ← hF', hsite] at hF
  refine Visit.fault?_of_unlabelled (w := appended source' text .final d') hfree rfl hsite ?_
    (Bool.eq_iff_iff.2 hF)
  change d.sizes[(Source.lines source).length]? = d'.sizes[(Source.lines source').length]?
  rw [h.noted, h'.noted, Visit.size?, Visit.size?, hen]

theorem exists_next_of_fault? {v : Visit} (h : Visit.fault? (v.line set) = none) :
    v.line set = .ok () (v.next set) := by
  cases hv : v.line set with
  | ok u b =>
    rw [(Visit.line_eq_ok hv).1]
  | error f s =>
    rw [hv] at h
    cases h

theorem Followed.final_whole (h : Followed set source whole text origin a d) :
    (pass set .final whole).run ((appended source text .first a).next set) =
      (appended source text .final d).line set := by
  rw [pass_append h.lines, h.final]

theorem Followed.assemble_of_fault (h : Followed set source whole text origin a d)
    (hf : Visit.fault? ((appended source text .final d).line set) = some f) :
    assemble set whole origin = .error f := by
  refine assemble_of_final (first_append h.lines h.first h.line) ?_
  rw [h.final_whole]
  exact hf

theorem Followed.assemble_of_none (h : Followed set source whole text origin a d)
    (hf : Visit.fault? ((appended source text .final d).line set) = none) :
    assemble set whole origin = .ok
      (listing set (visits set .final source ((appended source text .first a).next set)) ++
        (appended source text .final d).bytes set) := by
  have hfirst := first_append h.lines h.first h.line
  have hfinal := h.final_whole.trans (exists_next_of_fault? hf)
  have hvisits : finalVisits set whole ((appended source text .first a).next set) = _ :=
    visits_append h.lines h.final
  have hspan : span set (finalVisits set whole _) ≤ _ := span_le_of_pass hfinal
  have hroom := h.room
  refine assemble_eq_ok.2 ⟨_, _, hfirst, hfinal, ?_⟩
  rw [output_of_final (origin_of_first hfirst) hfinal (by omega), hvisits, listing_append,
    listing_cons, listing_nil, List.append_nil]

end

/-- The last instruction of a program was given room that it does not need, up to the index Y, and
a further line begins right behind it with something other than zero. -/
def Interferes (source text : String) (origin : UInt32) : Prop :=
  ∃ a k w e o, (pass .standard .first source).run (start origin) = .ok () a ∧
    (finalVisits .standard source a)[k]? = some w ∧ w.operand? .standard = some (e, o) ∧
    o.isSlack = true ∧ o.mode.isIndexedY = true ∧
    span .standard ((finalVisits .standard source a).drop (k + 1)) = 0 ∧
    ((appended source text .first a).bytes .standard)[0]?.getD 0 ≠ 0

section

variable {source whole alone text : String} {origin : UInt32} {a b : Assembly}

theorem interferes_iff (hwhole : Source.lines whole = Source.lines source ++ [text])
    (h : (pass .standard .first source).run (start origin) = .ok () a)
    (h' : (pass .standard .final source).run a = .ok () b)
    (hline : (appended source text .first a).line .standard =
      .ok () ((appended source text .first a).next .standard))
    (hroom : origin.toNat + 4 * (Source.lines whole).length + 4 < UInt32.size) :
    Interferes source text origin ↔ ∃ w ∈ finalVisits .standard source a,
      w.IsSlack .standard ∧
        w.site.isForward ((appended source text .first a).next .standard).image.read = false := by
  constructor
  · rintro ⟨a', k, w, e, o, ha, hw, ho, hs, hy, hspan, hne⟩
    rw [h] at ha
    cases ha
    refine ⟨w, List.mem_of_getElem? hw, ⟨e, o, ho, hs⟩, Bool.eq_false_iff.2 fun hF ↦ hne ?_⟩
    exact (isForward_append_of_isSlack hwhole h h' hline hroom hw ho hs).1 hF hy hspan
  · rintro ⟨w, hw, ⟨e, o, ho, hs⟩, hF⟩
    obtain ⟨k, hw⟩ := List.mem_iff_getElem?.1 hw
    have hiff := isForward_append_of_isSlack hwhole h h' hline hroom hw ho hs
    rw [hF] at hiff
    simp only [Bool.false_eq_true, false_iff, Classical.not_imp] at hiff
    obtain ⟨hy, hspan, hne⟩ := hiff
    exact ⟨a, k, w, e, o, h, hw, ho, hs, hy, hspan, hne⟩

theorem fault?_of_interferes (h : (pass .standard .first source).run (start origin) = .ok () a)
    (hi : Interferes source text origin) :
    Visit.fault? ((appended source text .first a).line .standard) = none := by
  obtain ⟨a', k, w, e, o, ha, -, -, -, -, -, hne⟩ := hi
  rw [h] at ha
  cases ha
  cases hen : (appended source text .first a).encoding? .standard with
  | none =>
    rw [Visit.bytes, hen] at hne
    exact absurd rfl hne
  | some en =>
    rw [Visit.line_of_encoding? hen, if_neg (by simp [appended])]
    rfl

theorem cursor_of_output (h : (pass .standard .first source).run (start origin) = .ok () a)
    (h' : (pass .standard .final source).run a = .ok () b)
    (hroom : origin.toNat + 4 * (Source.lines source).length < UInt32.size) :
    origin + UInt32.ofNat b.output.length = a.image.cursor := by
  have hspan : span .standard (finalVisits .standard source a) ≤ _ := span_le_of_pass h'
  rw [output_of_final (origin_of_first h) h' (by omega), length_listing, span_passes h h',
    cursor_of_first h]

theorem followed_alone (halone : Source.lines alone = [text])
    (hline : (appended "" text .first (start origin)).line .standard =
      .ok () ((appended "" text .first (start origin)).next .standard))
    (hroom : origin.toNat + 8 < UInt32.size) :
    Followed .standard "" alone text origin (start origin)
      ((appended "" text .first (start origin)).next .standard).rewind where
  lines := halone
  first := first_empty
  line := hline
  final := pass_empty .final _
  cursor := rfl
  room := by
    rw [halone, List.length_singleton]
    omega

theorem assemble_of_appended (hwhole : Source.lines whole = Source.lines source ++ [text])
    (h : (pass .standard .first source).run (start origin) = .ok () a) {f : Fault}
    (hf : Visit.fault? ((appended source text .first a).line .standard) = some f) :
    assemble .standard whole origin = .error f := by
  apply assemble_of_first
  rw [pass_append hwhole, h]
  exact hf

/-- Where the final pass gets to the further line, that adds its bytes or its fault. -/
theorem Followed.assemble_whole {d d' : Assembly} (hfree : Unlabelled .standard text)
    (h : Followed .standard source whole text origin a d)
    (h' : Followed .standard "" alone text a.image.cursor (start a.image.cursor) d') :
    assemble .standard whole origin =
      (assemble .standard alone a.image.cursor).map
        (listing .standard (visits .standard .final source
          ((appended source text .first a).next .standard)) ++ ·) := by
  obtain ⟨hfault, hen⟩ := h.fault? h' hfree rfl (fault?_appended_first h.first hfree).2
  cases hf : Visit.fault? ((appended source text .final d).line .standard) with
  | some f =>
    rw [h.assemble_of_fault hf, h'.assemble_of_fault (hfault.symm.trans hf)]
    rfl
  | none =>
    rw [h.assemble_of_none hf, h'.assemble_of_none (hfault.symm.trans hf),
      bytes_of_encoding?_eq hen]
    rfl

/-- The lines of an accepted program pass over the memory that a further line has left, and come
out as they did, unless that line interferes. -/
theorem followed_or_interferes (hwhole : Source.lines whole = Source.lines source ++ [text])
    (h : (pass .standard .first source).run (start origin) = .ok () a)
    (h' : (pass .standard .final source).run a = .ok () b)
    (hline : (appended source text .first a).line .standard =
      .ok () ((appended source text .first a).next .standard))
    (hlabel : (appended source text .first a).label? = none)
    (hroom : origin.toNat + 4 * (Source.lines whole).length + 4 < UInt32.size) :
    (¬Interferes source text origin ∧ ∃ d, Followed .standard source whole text origin a d ∧
        listing .standard (visits .standard .final source
          ((appended source text .first a).next .standard)) = b.output) ∨
      Interferes source text origin ∧ ∃ f s,
        (pass .standard .final source).run ((appended source text .first a).next .standard) =
          .error f s := by
  have hlines : (Source.lines whole).length = (Source.lines source).length + 1 := by
    rw [hwhole, List.length_append, List.length_singleton]
  have hlate (w : Visit) (hw : w ∈ finalVisits .standard source a) (_ : w.IsFlexible .standard)
      (hF : w.site.isForward ((appended source text .first a).next .standard).image.read = true) :
      w.site.isForward w.workspace.image.read = true := by
    obtain ⟨k, hw⟩ := List.mem_iff_getElem?.1 hw
    exact isForward_of_append hwhole h hline hroom hw hF
  have hinterferes := interferes_iff hwhole h h' hline hroom
  have hsweep : (pass .standard .final source).run
      ((appended source text .first a).next .standard) =
        sweep .standard .final 0 (Source.lines source) _ := pass_eq_sweep .standard .final source _
  rcases sweep_again (sweep_of_final h') (inStep_append hlabel) (by omega) hlate with
    ⟨hall, d, hd, hstep, hmap⟩ | ⟨hslack, f, s, hfail⟩
  · refine .inl ⟨fun hi ↦ ?_, d, ⟨hwhole, h, hline, hsweep.trans hd, ?_, hroom⟩, ?_⟩
    · obtain ⟨w, hw, hs, hF⟩ := hinterferes.1 hi
      have ht : w.site.isForward ((appended source text .first a).next .standard).image.read =
        true := hall w hw hs
      rw [ht] at hF
      cases hF
    · rw [hstep.cursor, cursor_of_final (origin_of_first h) h', cursor_of_first h,
        span_passes h h']
    · have hspan : span .standard (finalVisits .standard source a) ≤ _ := span_le_of_pass h'
      rw [output_of_final (origin_of_first h) h' (by omega)]
      exact listing_congr hmap
  · exact .inr ⟨hinterferes.2 hslack, f, s, hsweep.trans hfail⟩

/-- A line without labels that follows a program adds its own bytes to it, and fails just as it
fails alone, unless the end of the program was given room that it does not need; then the final
pass fails before it gets to that line. -/
theorem assemble_append {bytes : List UInt8} (hS : assemble .standard source origin = .ok bytes)
    (hwhole : Source.lines whole = Source.lines source ++ [text])
    (halone : Source.lines alone = [text]) (hfree : Unlabelled .standard text)
    (hroom : origin.toNat + 4 * (Source.lines whole).length + 4 < UInt32.size) :
    (¬Interferes source text origin →
      assemble .standard whole origin =
        (assemble .standard alone (origin + UInt32.ofNat bytes.length)).map (bytes ++ ·)) ∧
    (Interferes source text origin → ∃ c f s,
      (pass .standard .first whole).run (start origin) = .ok () c ∧
        (pass .standard .final source).run c = .error f s ∧
        assemble .standard whole origin = .error f) := by
  obtain ⟨a, b, h, h', rfl⟩ := assemble_eq_ok.1 hS
  have hlines : (Source.lines whole).length = (Source.lines source).length + 1 := by
    rw [hwhole, List.length_append, List.length_singleton]
  have hspan : span .standard (finalVisits .standard source a) ≤ _ := span_le_of_pass h'
  have hroom' : a.image.cursor.toNat + 8 < UInt32.size := by
    rw [cursor_of_first h, ← span_passes h h', toNat_add_ofNat (by omega)]
    omega
  rw [cursor_of_output h h' (by omega)]
  obtain ⟨hfault, -⟩ := fault?_appended_first h hfree
  cases hf : Visit.fault? ((appended source text .first a).line .standard) with
  | some f =>
    refine ⟨fun _ ↦ ?_, fun hi ↦ ?_⟩
    · rw [assemble_of_appended hwhole h hf,
        assemble_of_appended halone first_empty (hfault.symm.trans hf)]
      rfl
    · rw [fault?_of_interferes h hi] at hf
      cases hf
  | none =>
    have hline := exists_next_of_fault? hf
    have hline' := exists_next_of_fault? (hfault.symm.trans hf)
    have hlabel : (appended source text .first a).label? = none := by
      obtain ⟨s, hs⟩ := Visit.exists_statement?_of_line hline
      rw [Visit.label?, hs]
      exact hfree.label s hs
    rcases followed_or_interferes hwhole h h' hline hlabel hroom with
      ⟨hnot, d, hfollowed, hout⟩ | ⟨hi, f, s, hfail⟩
    · refine ⟨fun _ ↦ ?_, fun hi ↦ absurd hi hnot⟩
      rw [hfollowed.assemble_whole hfree (followed_alone halone hline' hroom'), hout]
    · have hfirst := first_append hwhole h hline
      refine ⟨fun hnot ↦ absurd hi hnot, fun _ ↦ ⟨_, f, s, hfirst, hfail, ?_⟩⟩
      refine assemble_of_final hfirst ?_
      rw [pass_append hwhole, hfail]
      rfl

theorem unlabelled_of_forall {set : InstructionSet} {s : Statement}
    (hs : Statement.ofText? text = some s) (hlabel : s.label = none)
    (hnames : ∀ t ∈ s.operand.tokens, t.kind ≠ .identifier) : Unlabelled set text where
  label s' hs' := by
    rw [hs] at hs'
    cases hs'
    exact hlabel
  free s' hs' site memory labels labels' := by
    rw [hs] at hs'
    cases hs'
    exact set.run_encode_of_agrees site memory _ fun t ht hk ↦ absurd hk (hnames t ht)

end

theorem assemble_append_nop :
    assemble .standard "\tldx 1,y\n\tnop" 0x8000 =
      (assemble .standard "\tnop" 0x8002).map ([0xB6, 0x01] ++ ·) := by
  have hS : assemble .standard "\tldx 1,y" 0x8000 = .ok [0xB6, 0x01] := by decide +kernel
  have hwhole : Source.lines "\tldx 1,y\n\tnop" = Source.lines "\tldx 1,y" ++ ["\tnop"] := by
    decide +kernel
  have halone : Source.lines "\tnop" = ["\tnop"] := by decide +kernel
  have hline : Line.ofText "\tnop" = .ok ⟨[⟨.identifier, "nop", 1⟩], 4⟩ := by decide +kernel
  have hnop : Statement.ofText? "\tnop" =
      some ⟨none, ⟨.identifier, "nop", 1⟩, ⟨[Token.stop 4], 4⟩⟩ := by
    rw [Statement.ofText?, hline]
    rfl
  obtain ⟨hadded, hfailed⟩ := assemble_append hS hwhole halone
    (unlabelled_of_forall hnop rfl (by decide)) (by decide +kernel)
  have horigin : (0x8000 : UInt32) + UInt32.ofNat [0xB6, 0x01].length = 0x8002 := rfl
  rw [← horigin]
  refine hadded fun hi ↦ ?_
  obtain ⟨c, f, s, -, -, hf⟩ := hfailed hi
  have hok : assemble .standard "\tldx 1,y\n\tnop" 0x8000 = .ok [0xB6, 0x01, 0xEA] := by
    decide +kernel
  rw [hok] at hf
  cases hf

/-- A load from address zero that was accepted fails once an instruction follows. -/
theorem resized_load_before_nop :
    assemble .standard "\tldx 0,y" 0x8000 = .ok [0xBE, 0x00, 0x00] ∧
      assemble .standard "\tnop" 0x8003 = .ok [0xEA] ∧
      assemble .standard "\tldx 0,y\n\tnop" 0x8000 =
        .error (.resized "\tldx 0,y" (some 3) 2) := by
  decide +kernel

end Assembly

end Asm65816
