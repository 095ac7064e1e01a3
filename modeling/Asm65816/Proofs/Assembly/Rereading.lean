import Asm65816.Proofs.Assembly.Settled
import Asm65816.Proofs.Operand.Slack

namespace Asm65816

namespace Assembly

namespace Visit

structure Alike (w u : Visit) : Prop where
  text : u.text = w.text
  site : u.site = w.site
  labels : ∀ name, u.workspace.label? name = w.workspace.label? name
  noted : u.assembly.sizes[u.number]? = w.assembly.sizes[w.number]?

def IsFlexible (set : InstructionSet) (v : Visit) : Prop :=
  ∃ e o, v.operand? set = some (e, o) ∧ o.isFlexible = true

def IsSlack (set : InstructionSet) (v : Visit) : Prop :=
  ∃ e o, v.operand? set = some (e, o) ∧ o.isSlack = true

variable {set : InstructionSet} {w u : Visit} {e : Entry} {o : Operand} {en : Encoding}
variable {b : Assembly}

theorem Alike.pass (h : w.Alike u) : u.pass = w.pass := congrArg Site.pass h.site

theorem exists_settle_of_alike (h : w.Alike u) (ho : w.operand? set = some (e, o)) :
    o.isSlack = false ∧ u.operand? set = some (e, o) ∨
      ∃ (f : Operand.Form) (z : Operand.Sized),
        f.settle w.site w.workspace.image.read e.base z = .ok o ∧
        ∀ e' o', u.operand? set = some (e', o') ↔
          e' = e ∧ f.settle w.site u.workspace.image.read e.base z = .ok o' := by
  obtain ⟨name, line, r, hi, hl, hr⟩ := operand?_eq_some.1 ho
  have hlabels : u.workspace.label? = w.workspace.label? := funext h.labels
  have hi' : u.instruction? = some (name, line) := (instruction?_of_text h.text).trans hi
  rcases Operand.run_parse_eq_ok_iff_settle hr with
    ⟨hslack, hsame⟩ | ⟨f, z, hs, hiff⟩
  · refine .inl ⟨hslack, ?_⟩
    refine operand?_eq_some.2 ⟨name, line, r, hi', hl, ?_⟩
    rw [h.site, hlabels]
    exact hsame _
  · refine .inr ⟨f, z, hs, fun e' o' ↦ ⟨fun ho' ↦ ?_, fun ho' ↦ ?_⟩⟩
    · obtain ⟨name', line', r', hi'', hl', hr'⟩ := operand?_eq_some.1 ho'
      rw [hi'] at hi''
      cases hi''
      rw [hl] at hl'
      cases hl'
      rw [h.site, hlabels] at hr'
      exact ⟨rfl, ((hiff _ _ _).1 hr').1⟩
    · obtain ⟨rfl, hs'⟩ := ho'
      refine operand?_eq_some.2 ⟨name, line, r, hi', hl, ?_⟩
      rw [h.site, hlabels]
      exact (hiff _ _ _).2 ⟨hs', rfl⟩

theorem encoding?_of_alike (h : w.Alike u) (hen : w.encoding? set = some en)
    (hslack : w.IsSlack set → w.site.isForward u.workspace.image.read = true)
    (hlate : w.IsFlexible set → w.site.isForward u.workspace.image.read = true →
      w.site.isForward w.workspace.image.read = true) :
    u.encoding? set = some en := by
  obtain ⟨e, o, ho, hj⟩ := encoding?_eq_some.1 hen
  rcases exists_settle_of_alike h ho with ⟨-, ho'⟩ | ⟨f, z, hs, hiff⟩
  · refine encoding?_eq_some.2 ⟨e, o, ho', ?_⟩
    rw [h.pass]
    exact hj
  · obtain ⟨o', hs', hjoin⟩ := Operand.exists_settle_join hs (fun ht ↦ hslack ⟨e, o, ho, ht⟩)
      (fun ht ↦ hlate ⟨e, o, ho, ht⟩)
    refine encoding?_eq_some.2 ⟨e, o', (hiff e o').2 ⟨rfl, hs'⟩, ?_⟩
    rw [hjoin, h.pass]
    exact hj

theorem exists_statement?_of_line (h : w.line set = .ok () b) : ∃ s, w.statement? = some s := by
  cases hs : w.statement? with
  | some s => exact ⟨s, rfl⟩
  | none =>
    unfold line Assembly.line at h
    unfold statement? Statement.ofText? at hs
    split at hs
    · cases hs
    · next o ho =>
      rw [ho] at h
      cases h

theorem encoding?_eq_none_of_alike (h : w.Alike u) (hw : w.line set = .ok () b)
    (hen : w.encoding? set = none) : u.encoding? set = none := by
  have hsome := (line_eq_ok hw).2.1
  rw [hen, ← instruction?_of_text h.text] at hsome
  rw [encoding?, Option.isSome_eq_false_iff.1 hsome.symm |> Option.isNone_iff_eq_none.1]
  rfl

theorem line_of_alike (h : w.Alike u) (hw : w.line set = .ok () b)
    (hen : u.encoding? set = w.encoding? set) : u.line set = .ok () (u.next set) := by
  obtain ⟨-, hsome, hsizes⟩ := line_eq_ok hw
  cases he : w.encoding? set with
  | some en =>
    rw [he] at hen
    rw [line_of_encoding? hen, if_neg]
    rintro ⟨hp, hne⟩
    rw [h.noted] at hne
    exact hne (hsizes (h.pass.symm.trans hp) en he)
  | none =>
    obtain ⟨s, hs⟩ := exists_statement?_of_line hw
    have hstop : s.word.isStop = true := by
      rw [he, instruction?, hs, Option.bind_some] at hsome
      by_cases hw : s.word.isStop = true
      · exact hw
      · rw [if_neg hw] at hsome
        cases hsome
    refine line_of_stop (s := s) ?_ hstop
    rw [statement?, h.text]
    exact hs

theorem fault_of_alike (h : w.Alike u) (hp : w.pass = .final)
    (hw : w.line .standard = .ok () b) (hs : w.IsSlack .standard)
    (hF : w.site.isForward u.workspace.image.read = false) :
    ∃ f s, u.line .standard = .error f s := by
  cases hu : u.line .standard with
  | error f s => exact ⟨f, s, rfl⟩
  | ok t c =>
    obtain ⟨e, o, ho, hslack⟩ := hs
    obtain ⟨name, line, r, hi, -, -⟩ := operand?_eq_some.1 ho
    obtain ⟨_, _, en, ho', hen, hj⟩ := operand?_of_line hw hi
    rw [ho] at ho'
    cases ho'
    obtain ⟨e', o', en', ho', hen', hj'⟩ :=
      operand?_of_line hu ((instruction?_of_text h.text).trans hi)
    have hlength : some en'.length = some en.length := by
      rw [← (line_eq_ok hw).2.2 hp en hen, ← (line_eq_ok hu).2.2 (h.pass.trans hp) en' hen',
        h.noted]
    rw [hp] at hj
    rw [h.pass, hp] at hj'
    rcases exists_settle_of_alike h ho with ⟨hfalse, -⟩ | ⟨f, z, hs, hiff⟩
    · rw [hslack] at hfalse
      cases hfalse
    · obtain ⟨rfl, hs'⟩ := (hiff e' o').1 ho'
      have hlt := Operand.length_lt_of_isSlack hp hs hslack hF hs' hj hj'
      rw [Option.some.inj hlength] at hlt
      exact absurd hlt (Nat.lt_irrefl _)

end Visit

section

variable {set : InstructionSet} {p : Pass} {n k : Nat} {texts : List String}
variable {a b c : Assembly} {w u : Visit}

theorem bytes_of_encoding?_eq (h : u.encoding? set = w.encoding? set) :
    u.bytes set = w.bytes set := by
  unfold Visit.bytes
  rw [h]

theorem listing_congr {us ws : List Visit}
    (h : us.map (Visit.encoding? set) = ws.map (Visit.encoding? set)) :
    listing set us = listing set ws := by
  have hl (vs : List Visit) : listing set vs =
      (vs.map (Visit.encoding? set)).flatMap fun e ↦ e.elim [] Encoding.bytes := by
    rw [List.flatMap_map]
    rfl
  rw [hl, hl, h]

/-- Two assemblies that a sweep goes on from in step: at one place, with the same labels, and with
the same lengths noted for the lines to come. -/
structure InStep (n m : Nat) (a c : Assembly) : Prop where
  cursor : c.image.cursor = a.image.cursor
  labels : ∀ name, c.label? name = a.label? name
  noted : ∀ i, n ≤ i → i < n + m → c.sizes[i]? = a.sizes[i]?

theorem InStep.alike (h : InStep n (texts.length + 1) a c) (p : Pass) (text : String) :
    (Visit.mk p n text a).Alike ⟨p, n, text, c⟩ where
  text := rfl
  site := congrArg (Site.ofAddress p) h.cursor
  labels name := by
    have hc : (Visit.mk p n text c).address = (Visit.mk p n text a).address := h.cursor
    rw [label?_workspace, label?_workspace, hc]
    exact congrArg _ (h.labels name)
  noted := h.noted n (Nat.le_refl n) (by omega)

theorem InStep.next {text : String} (h : InStep n (texts.length + 1) a c)
    (hen : (Visit.mk .final n text c).encoding? set = (Visit.mk .final n text a).encoding? set) :
    InStep (n + 1) texts.length ((Visit.mk .final n text a).next set)
      ((Visit.mk .final n text c).next set) where
  cursor := by
    change c.image.cursor + UInt32.ofNat _ = a.image.cursor + UInt32.ofNat _
    rw [h.cursor, bytes_of_encoding?_eq hen]
  labels name := by
    rw [label?_next, label?_next, (h.alike .final text).labels name]
  noted i hi hi' := h.noted i (by omega) (by omega)

/-- A final pass over lines that have passed once, in step with the first time. It gets through
them, unless one of them has to fail, as long as the others come out as they did. -/
theorem sweep_in_step {P : Visit → Prop} (h : sweep set .final n texts a = .ok () b)
    (hc : InStep n texts.length a c)
    (hsame : ∀ (k : Nat) w u, (visitsFrom set .final n texts a)[k]? = some w →
      (visitsFrom set .final n texts c)[k]? = some u → w.Alike u → ¬P w →
      u.encoding? set = w.encoding? set)
    (hfail : ∀ (k : Nat) w u, (visitsFrom set .final n texts a)[k]? = some w →
      (visitsFrom set .final n texts c)[k]? = some u → w.Alike u → P w →
      ∃ f s, u.line set = .error f s) :
    (∀ w ∈ visitsFrom set .final n texts a, ¬P w) ∧
        (∃ d, sweep set .final n texts c = .ok () d ∧ InStep (n + texts.length) 0 b d ∧
          (visitsFrom set .final n texts c).map (Visit.encoding? set) =
            (visitsFrom set .final n texts a).map (Visit.encoding? set)) ∨
      (∃ w ∈ visitsFrom set .final n texts a, P w) ∧
        ∃ f s, sweep set .final n texts c = .error f s := by
  induction texts generalizing n a c with
  | nil =>
    obtain rfl := sweep_nil_eq_ok.1 h
    exact .inl ⟨fun w hw ↦ absurd hw List.not_mem_nil, c, sweep_nil_eq_ok.2 rfl, hc, rfl⟩
  | cons text texts ih =>
    obtain ⟨hw, ht⟩ := sweep_cons_ok h
    have halike := hc.alike .final text
    rw [visitsFrom_cons_of_sweep h] at hsame hfail ⊢
    by_cases hP : P ⟨.final, n, text, a⟩
    · obtain ⟨f, s, hu⟩ := hfail 0 _ ⟨.final, n, text, c⟩ rfl (by rw [visitsFrom]; rfl) halike hP
      replace hu : line set .final n text c = .error f s := hu
      rw [sweep_cons, hu]
      exact .inr ⟨⟨_, List.mem_cons_self, hP⟩, f, s, rfl⟩
    · have hen := hsame 0 _ ⟨.final, n, text, c⟩ rfl (by rw [visitsFrom]; rfl) halike hP
      have hu := Visit.line_of_alike halike hw hen
      rw [visitsFrom_cons_of_ok hu] at hsame hfail ⊢
      replace hu : line set .final n text c = .ok () _ := hu
      rw [sweep_cons, hu]
      rcases ih ht (hc.next hen) (fun k w u hw hu ↦ hsame (k + 1) w u hw hu)
        (fun k w u hw hu ↦ hfail (k + 1) w u hw hu) with
        ⟨hall, d, hd, hstep, hmap⟩ | ⟨⟨w, hw, hPw⟩, hs⟩
      · refine .inl ⟨List.forall_mem_cons.2 ⟨hP, hall⟩, d, hd, ?_, ?_⟩
        · rw [List.length_cons, Nat.add_comm texts.length, ← Nat.add_assoc]
          exact hstep
        · rw [List.map_cons, List.map_cons, hen, hmap]
      · exact .inr ⟨⟨w, List.mem_cons_of_mem _ hw, hPw⟩, hs⟩

/-- Lines that have passed once pass again over another memory, and come out as they did, unless
one has been given room that it does not need, and that this memory does not tell to give. -/
theorem sweep_again (h : sweep .standard .final n texts a = .ok () b)
    (hc : InStep n texts.length a c) (hroom : 4 * texts.length + 3 < UInt32.size)
    (hlate : ∀ w ∈ visitsFrom .standard .final n texts a, w.IsFlexible .standard →
      w.site.isForward c.image.read = true → w.site.isForward w.workspace.image.read = true) :
    (∀ w ∈ visitsFrom .standard .final n texts a,
          w.IsSlack .standard → w.site.isForward c.image.read = true) ∧
        (∃ d, sweep .standard .final n texts c = .ok () d ∧ InStep (n + texts.length) 0 b d ∧
          (visitsFrom .standard .final n texts c).map (Visit.encoding? .standard) =
            (visitsFrom .standard .final n texts a).map (Visit.encoding? .standard)) ∨
      (∃ w ∈ visitsFrom .standard .final n texts a,
          w.IsSlack .standard ∧ w.site.isForward c.image.read = false) ∧
        ∃ f s, sweep .standard .final n texts c = .error f s := by
  have hmemory {k : Nat} {w u : Visit} (hu : (visitsFrom .standard .final n texts c)[k]? = some u)
      (ha : w.Alike u) :
      w.site.isForward u.workspace.image.read = w.site.isForward c.image.read := by
    have hF := isForward_of_visit hu hroom
    rwa [ha.site] at hF
  have hsame (k : Nat) (w u : Visit)
      (hw : (visitsFrom .standard .final n texts a)[k]? = some w)
      (hu : (visitsFrom .standard .final n texts c)[k]? = some u) (ha : w.Alike u)
      (hP : ¬(w.IsSlack .standard ∧ w.site.isForward c.image.read = false)) :
      u.encoding? .standard = w.encoding? .standard := by
    have hline := line_of_visit h hw
    cases hen : w.encoding? .standard with
    | none => exact Visit.encoding?_eq_none_of_alike ha hline hen
    | some en =>
      refine Visit.encoding?_of_alike ha hen (fun hs ↦ ?_) ?_
      · rw [hmemory hu ha]
        exact Bool.of_not_eq_false fun hF ↦ hP ⟨hs, hF⟩
      · rw [hmemory hu ha]
        exact hlate w (List.mem_of_getElem? hw)
  have hfail (k : Nat) (w u : Visit)
      (hw : (visitsFrom .standard .final n texts a)[k]? = some w)
      (hu : (visitsFrom .standard .final n texts c)[k]? = some u) (ha : w.Alike u)
      (hP : w.IsSlack .standard ∧ w.site.isForward c.image.read = false) :
      ∃ f s, u.line .standard = .error f s := by
    obtain ⟨hs, hF⟩ := hP
    rw [← hmemory hu ha] at hF
    exact Visit.fault_of_alike ha (sweep_take hw).2.2.2.1 (line_of_visit h hw) hs hF
  rcases sweep_in_step h hc hsame hfail with ⟨hall, hd⟩ | hfault
  · refine .inl ⟨fun w hw hs ↦ ?_, hd⟩
    exact Bool.of_not_eq_false fun hF ↦ hall w hw ⟨hs, hF⟩
  · exact .inr hfault

end

section

variable {set : InstructionSet} {source : String} {origin : UInt32} {a b : Assembly} {k : Nat}
variable {v w : Visit} {e : Entry} {o o' : Operand}

theorem map_drop_of_places {vs ws : List Visit}
    (h : vs.map (Visit.place set) = ws.map (Visit.place set)) (k : Nat) :
    (vs.drop k).map (Visit.place set) = (ws.drop k).map (Visit.place set) := by
  rw [List.map_drop, List.map_drop, h]

theorem span_le_of_pass {p : Pass} (h : (pass set p source).run a = .ok () b) :
    span set (visits set p source a) ≤ 4 * (Source.lines source).length := by
  have hs : sweep set p 0 (Source.lines source) a.rewind = .ok () b :=
    (pass_eq_sweep set p source a).symm.trans h
  rw [← length_visitsFrom hs]
  exact span_le _

theorem sizes_of_pass (h' : (pass set .final source).run a = .ok () b) : b.sizes = a.sizes := by
  have hs : b.sizes = a.rewind.sizes := sizes_of_sweep_final (sweep_of_final h')
  exact hs

theorem size?_of_passes (h : (pass set .first source).run (start origin) = .ok () a)
    (h' : (pass set .final source).run a = .ok () b)
    (hv : (firstVisits set source origin)[k]? = some v)
    (hw : (finalVisits set source a)[k]? = some w) : w.size? set = v.size? set := by
  have hsize := size?_getElem?_congr (places_passes h h') k
  rwa [hw, hv] at hsize

theorem exists_join_of_final (h' : (pass set .final source).run a = .ok () b)
    (hw : (finalVisits set source a)[k]? = some w) (ho : w.operand? set = some (e, o)) :
    ∃ en, w.encoding? set = some en ∧ set.join .final e o = .ok en := by
  have hp : w.pass = .final := pass_of_finalVisit hw
  obtain ⟨name, line, r, hi, -, -⟩ := Visit.operand?_eq_some.1 ho
  obtain ⟨e', o', en, ho', hen, hj⟩ :=
    Visit.operand?_of_line (line_of_visit (sweep_of_final h') hw) hi
  rw [ho] at ho'
  cases ho'
  rw [hp] at hj
  exact ⟨en, hen, hj⟩

section

variable (h : (pass .standard .first source).run (start origin) = .ok () a)
variable (hv : (firstVisits .standard source origin)[k]? = some v)
variable (hw : (finalVisits .standard source a)[k]? = some w)
variable (ho : v.operand? .standard = some (e, o))
variable (ho' : w.operand? .standard = some (e, o'))

include h hv hw ho ho'

theorem settle_passes_of_isFlexible (hflexible : o'.isFlexible = true) :
    o.width = none ∧ ∃ f : Operand.Form,
      ((f = .plain ∨ f = .indexedX) ∧ o.mode.isDirect = true ∨
        f = .indexedY ∧ o.mode.isIndexedY = true) ∧
      f.settle v.site v.workspace.image.read e.base ⟨o.value, none⟩ = .ok o ∧
      f.settle w.site w.workspace.image.read e.base ⟨o'.value, none⟩ = .ok o' ∧
      (o.value = o'.value ∨ o.value = 0) := by
  obtain ⟨hwidth, hbare⟩ := Operand.isFlexible_eq_true.1 hflexible
  obtain ⟨-, name, line, r, r', -, hl, hr, hr'⟩ := parse_passes hv hw ho ho'
  rcases Operand.Grammar.run_parse_passes (fun _ _ hl ↦ label?_passes h hv hw hl)
    (pass_of_firstVisit hv) (pass_of_finalVisit hw) hr hr' with
    ⟨u, rfl, rfl⟩ | ⟨-, hb⟩ | ⟨f, ⟨z, width⟩, z', hs, hs', hzw, hzz⟩
  · rw [InstructionSet.isBare_base hl] at hbare
    cases hbare
  · rw [hb] at hbare
    cases hbare
  · obtain ⟨rfl, hf⟩ := Operand.form_of_isFlexible hflexible hs'
    cases hzw
    have hz : o.value = z ∧ o.width = none := by
      rcases hf with ⟨hf, -⟩ | ⟨rfl, -⟩
      · rw [((Operand.settle_direct_none hf).1 hs).2]
        exact ⟨rfl, rfl⟩
      · rw [(Operand.settle_indexedY_none hs).2]
        exact ⟨rfl, rfl⟩
    obtain ⟨rfl, hw⟩ := hz
    refine ⟨hw, f, ?_, hs, hs', hzz⟩
    rcases hf with ⟨hf, -⟩ | ⟨rfl, -⟩
    · exact .inl ⟨hf, Operand.isDirect_of_settle hf hs⟩
    · exact .inr ⟨rfl, Operand.isIndexedY_of_settle hs⟩

end

theorem length_of_isSlack (h : (pass .standard .first source).run (start origin) = .ok () a)
    (h' : (pass .standard .final source).run a = .ok () b)
    (hw : (finalVisits .standard source a)[k]? = some w) (ho : w.operand? .standard = some (e, o))
    (hs : o.isSlack = true) :
    w.length .standard = (if o.mode.isIndexedY then 3 else 4) ∧
      w.site.isForward w.workspace.image.read = true := by
  obtain ⟨hflexible, hforward, -⟩ := Operand.isSlack_eq_true.1 hs
  obtain ⟨v, hv⟩ := exists_firstVisit h hw
  obtain ⟨o₁, ho₁⟩ := operand?_of_finalVisit h hv hw ho
  obtain ⟨-, f, -, -, hs, -⟩ := settle_passes_of_isFlexible h hv hw ho₁ ho hflexible
  obtain ⟨en, hen, hj⟩ := exists_join_of_final h' hw ho
  constructor
  · rw [Visit.length, hen]
    exact Operand.length_join_of_forward hflexible hs hforward hj
  · exact (Operand.forward_of_isFlexible hflexible hs).symm.trans hforward

end

end Assembly

end Asm65816
