import Asm65816.Proofs.Operand.Unforced
import Asm65816.Proofs.Tolerance

namespace Asm65816

namespace Operand

open TokenSource Grammar

section

variable {site site' : Site} {labels labels' : String → Option Int}
variable {memory memory' : UInt32 → UInt8} {base : Mode} {width : Option Width} {line r r' : Line}
variable {o o' : Operand}

theorem isFlexible_passes (hle : ∀ l w, labels l = some w → labels' l = some w)
    (hp : site.pass = .first) (hp' : site'.pass = .final)
    (h : (parse site (Expr.sum labels) memory base width).run line = .ok o r)
    (h' : (parse site' (Expr.sum labels') memory' base width).run line = .ok o' r') :
    o.isFlexible = o'.isFlexible := by
  rcases run_parse_passes hle hp hp' h h' with
    ⟨w, -, rfl⟩ | ⟨hm, hm'⟩ | ⟨f, z, z', hs, hs', hz, -⟩
  · rfl
  · simp [isFlexible, hm, hm', Mode.isBare, Mode.isDirect, Mode.isIndexedY]
  · rw [Bool.eq_iff_iff, isFlexible_iff hs, isFlexible_iff hs', hz]

end

end Operand

namespace InstructionSet

open Operand TokenSource Grammar

section

variable {σ : Type} [TokenSource σ] {set : InstructionSet} {site : Site}
variable {eval : Expr.Evaluator σ} {memory : UInt32 → UInt8} {name : String} {s r : σ}
variable {e : Entry} {o : Operand} {en : Encoding}

/-- What is in memory has a say in nothing but addresses whose width is left open. -/
theorem encode_of_not_isFlexible
    (h : (set.operand site eval memory name).run s = .ok (e, o) r) (ho : o.isFlexible = false)
    (hj : set.join site.pass e o = .ok en) (memory' : UInt32 → UInt8) :
    (set.encode site eval memory' name).run s = .ok en r := by
  obtain ⟨hl, hparse⟩ := run_operand_eq_ok.1 h
  have hs : o.isSlack = false := by simp [isSlack, ho]
  rcases run_parse_eq_ok_iff_settle hparse with ⟨-, hall⟩ | ⟨f, z, hz, hiff⟩
  · exact run_encode_eq_ok.2 ⟨e, o, run_operand_eq_ok.2 ⟨hl, hall memory'⟩, hj⟩
  · obtain ⟨o', ho', hsame⟩ : ∃ o', f.settle site memory' e.base z = .ok o' ∧
        ∀ (set : InstructionSet) (p : Pass) (e : Entry), set.join p e o' = set.join p e o :=
      exists_settle_join hz (by simp [hs]) (by simp [ho])
    refine run_encode_eq_ok.2 ⟨e, o', run_operand_eq_ok.2 ⟨hl, ?_⟩, ?_⟩
    · exact (hiff memory' o' r).2 ⟨ho', rfl⟩
    · rw [hsame]
      exact hj

end

section

variable {set : InstructionSet} {site site' : Site} {labels labels' : String → Option Int}
variable {memory memory' : UInt32 → UInt8} {name : String} {line r r' : Line}
variable {en en' : Encoding} {e : Entry} {o o' : Operand}

theorem length_passes_of_not_isFlexible (hle : ∀ l w, labels l = some w → labels' l = some w)
    (hp : site.pass = .first) (hp' : site'.pass = .final)
    (h : (standard.operand site (Expr.sum labels) memory name).run line = .ok (e, o) r)
    (h' : (standard.operand site' (Expr.sum labels') memory' name).run line = .ok (e, o') r')
    (ho' : o'.isFlexible = false) (hj : standard.join .first e o = .ok en)
    (hj' : standard.join .final e o' = .ok en') : en.length = en'.length := by
  obtain ⟨hl, hparse⟩ := run_operand_eq_ok.1 h
  obtain ⟨-, hparse'⟩ := run_operand_eq_ok.1 h'
  have ho : o.isFlexible = false :=
    (isFlexible_passes hle hp hp' hparse hparse').trans ho'
  have hd (hm : o.mode.isDirect = true) : o.width ≠ none :=
    width_of_not_isFlexible ho (Mode.isBare_of_isDirect hm)
  have hy (hm : o.mode.isIndexedY = true) : o.width ≠ none :=
    width_of_not_isFlexible ho (Mode.isBare_of_isIndexedY hm)
  rcases length_passes_of_parse hl hle hp hp' hparse hparse' (fun hm hw ↦ absurd hw (hd hm))
    (fun hm hw ↦ absurd hw (hy hm)) hj hj' with hlength | ⟨hm, hw, -⟩
  · exact hlength
  · exact absurd hw (hy hm)

theorem not_unforced_of_operand
    (h : (set.operand site (Expr.sum labels) memory name).run line = .ok (e, o) r)
    (ho : o.isFlexible = false) (e₁ : Entry) (v : Int) (hl₁ : set.lookup? name = some e₁) :
    ¬Unforced labels e₁.base e₁.width line.words v := by
  intro hx
  obtain ⟨hl, hparse⟩ := run_operand_eq_ok.1 h
  rw [hl] at hl₁
  cases hl₁
  rw [isFlexible_of_unforced hx hparse] at ho
  cases ho

/-- Where no width is left open, a line that the final pass encodes is as long on the first pass,
whichever labels are missing there, and the final pass encodes it alike over any memory. -/
theorem encode_of_not_unforced (hp : site.pass = .first) (hp' : site'.pass = .final)
    (hle : ∀ l w, labels l = some w → labels' l = some w)
    (hwidth : ∀ e v, standard.lookup? name = some e →
      ¬Unforced labels' e.base e.width line.words v)
    (h : (standard.encode site' (Expr.sum labels') memory' name).run line = .ok en' r) :
    (∃ en, (standard.encode site (Expr.sum labels) memory name).run line = .ok en r ∧
      en.length = en'.length) ∧
    ∀ memory'', (standard.encode site' (Expr.sum labels') memory'' name).run line = .ok en' r := by
  obtain ⟨e, o', ho', hj'⟩ := run_encode_eq_ok.1 h
  obtain ⟨hl, hparse'⟩ := run_operand_eq_ok.1 ho'
  have hrigid : o'.isFlexible = false := Bool.eq_false_iff.2 fun hf ↦
    hwidth e o'.value hl (unforced_of_run_parse hp' hparse' hf
      (not_isMissing_of_isFlexible (isBare_base hl) hparse' hf))
  refine ⟨?_, encode_of_not_isFlexible ho' hrigid hj'⟩
  obtain ⟨en, hen⟩ := encode_first_of_final hp hp' hle memory h
  obtain ⟨e₁, o, ho, hj⟩ := run_encode_eq_ok.1 hen
  have he : e₁ = e := by
    have hl₁ := (run_operand_eq_ok.1 ho).1
    rw [hl] at hl₁
    exact (Option.some.inj hl₁).symm
  subst he
  rw [hp] at hj
  rw [hp'] at hj'
  exact ⟨en, hen, length_passes_of_not_isFlexible hle hp hp' ho ho' hrigid hj hj'⟩

def tableIndexed : Line :=
  ⟨[⟨.symbol, "(", 5⟩, ⟨.identifier, "table", 6⟩, ⟨.symbol, ",", 11⟩, ⟨.identifier, "x", 12⟩,
    ⟨.symbol, ")", 13⟩], 14⟩

/-- A call through a table that has not been met is as long as when the table is known. -/
theorem encode_of_not_unforced_tableIndexed :
    ∃ en r, (standard.encode (.ofAddress .first 0x8000) (Expr.sum fun _ ↦ none) (fun _ ↦ 0)
      "jsr").run tableIndexed = .ok en r ∧ en.length = 3 := by
  have hoperand : Assembly.Visit.result? ((standard.operand (.ofAddress .final 0x8000)
      (Expr.sum fun _ ↦ some 0x9000) (fun _ ↦ 0) "jsr").run tableIndexed) =
        some (⟨"jsr", .jsr, .implied, none⟩, ⟨.absoluteIndexedIndirect, 0x9000, none, false⟩) := by
    decide +kernel
  have hrun : Assembly.Visit.result? ((standard.encode (.ofAddress .final 0x8000)
      (Expr.sum fun _ ↦ some 0x9000) (fun _ ↦ 0) "jsr").run tableIndexed) =
        some ⟨0xFC, 0x9000, 3⟩ := by
    decide +kernel
  obtain ⟨_, ho⟩ := Assembly.Visit.result?_eq_some_iff.1 hoperand
  obtain ⟨r, h⟩ := Assembly.Visit.result?_eq_some_iff.1 hrun
  have hle : ∀ (l : String) (w : Int), none = some w → some (0x9000 : Int) = some w := by simp
  obtain ⟨en, hen, hlength⟩ : ∃ en, (standard.encode (.ofAddress .first 0x8000)
      (Expr.sum fun _ ↦ none) (fun _ ↦ 0) "jsr").run tableIndexed = .ok en r ∧ en.length = 3 :=
    And.left (encode_of_not_unforced rfl rfl hle (not_unforced_of_operand ho rfl) h)
  exact ⟨en, r, hen, hlength⟩

end

end InstructionSet

end Asm65816
