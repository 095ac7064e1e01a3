import Asm65816.Proofs.Assembly.Sweep

namespace Asm65816.Assembly

def total : List Nat → Nat
  | [] => 0
  | n :: ns => n + total ns

theorem total_append (ms ns : List Nat) : total (ms ++ ns) = total ms + total ns := by
  induction ms with
  | nil => exact (Nat.zero_add _).symm
  | cons m ms ih => rw [List.cons_append, total, total, ih, Nat.add_assoc]

section

variable (set : InstructionSet)

def listing (vs : List Visit) : List UInt8 := vs.flatMap fun v ↦ v.bytes set

def span (vs : List Visit) : Nat := total (vs.map fun v ↦ v.length set)

def definition? (name : String) : List Visit → Option Int
  | [] => none
  | v :: vs =>
    (definition? name vs).or (if v.label? = some name then some (v.address.toNat : Int) else none)

def Visit.size? (v : Visit) : Option Nat := (v.encoding? set).map Encoding.length

def noted? (n : Nat) (vs : List Visit) (m : Nat) : Option Nat :=
  if m < n then none else vs[m - n]?.bind fun v ↦ v.size? set

end

variable {set : InstructionSet} {p : Pass} {n : Nat} {texts : List String} {a b : Assembly}
variable {v : Visit} {vs ws : List Visit} {name : String}

@[simp] theorem listing_nil : listing set [] = [] := rfl

@[simp] theorem listing_cons : listing set (v :: vs) = v.bytes set ++ listing set vs := rfl

@[simp] theorem listing_append : listing set (vs ++ ws) = listing set vs ++ listing set ws :=
  List.flatMap_append

@[simp] theorem span_nil : span set [] = 0 := rfl

@[simp] theorem span_cons : span set (v :: vs) = v.length set + span set vs := rfl

@[simp] theorem span_append : span set (vs ++ ws) = span set vs + span set ws := by
  unfold span
  rw [List.map_append, total_append]

theorem length_listing (vs : List Visit) : (listing set vs).length = span set vs := by
  induction vs with
  | nil => rfl
  | cons v vs ih => rw [listing_cons, List.length_append, ih, Visit.length_bytes, span_cons]

theorem Visit.length_eq_size? : v.length set = (v.size? set).getD 0 := by
  unfold Visit.length Visit.size?
  cases v.encoding? set <;> rfl

theorem span_le (vs : List Visit) : span set vs ≤ 4 * vs.length := by
  induction vs with
  | nil => exact Nat.le_refl 0
  | cons v vs ih =>
    have hv : v.length set ≤ 4 := Visit.length_le_four
    rw [span_cons, List.length_cons]
    omega

theorem span_take_le (k : Nat) (vs : List Visit) : span set (vs.take k) ≤ span set vs := by
  have h : span set vs = span set (vs.take k) + span set (vs.drop k) := by
    rw [← span_append, List.take_append_drop]
  omega

theorem drop_eq_cons {k : Nat} (hv : vs[k]? = some v) : vs.drop k = v :: vs.drop (k + 1) := by
  obtain ⟨hlt, hv⟩ := List.getElem?_eq_some_iff.1 hv
  rw [List.drop_eq_getElem_cons hlt, hv]

theorem listing_eq_append {k : Nat} (hv : vs[k]? = some v) :
    listing set vs =
      listing set (vs.take k) ++ (v.bytes set ++ listing set (vs.drop (k + 1))) := by
  rw [← listing_cons, ← drop_eq_cons hv, ← listing_append, List.take_append_drop]

theorem label?_workspace :
    v.workspace.label? name =
      (if v.label? = some name then some (v.address.toNat : Int) else none).or
        (v.assembly.label? name) := by
  unfold Visit.workspace
  cases hl : v.label? with
  | none => simp
  | some l =>
    rw [Option.elim_some, Workspace.label?_define]
    by_cases h : l = name
    · simp [h]
    · simp [h]

theorem label?_next : (v.next set).label? name = v.workspace.label? name := rfl

theorem image_of_sweep (h : sweep set p n texts a = .ok () b) :
    b.image = a.image.emit (listing set (visitsFrom set p n texts a)) := by
  induction texts generalizing n a with
  | nil =>
    rw [sweep_nil_eq_ok.1 h]
    exact (Image.emit_nil a.image).symm
  | cons text texts ih =>
    rw [visitsFrom_cons_of_sweep h, listing_cons, Image.emit_append]
    exact ih (sweep_cons_ok h).2

theorem origin_of_sweep (h : sweep set p n texts a = .ok () b) : b.origin = a.origin := by
  induction texts generalizing n a with
  | nil => rw [sweep_nil_eq_ok.1 h]
  | cons text texts ih =>
    have hb := ih (sweep_cons_ok h).2
    exact hb

theorem label?_of_sweep (h : sweep set p n texts a = .ok () b) :
    b.label? name = (definition? name (visitsFrom set p n texts a)).or (a.label? name) := by
  induction texts generalizing n a with
  | nil =>
    rw [sweep_nil_eq_ok.1 h]
    rfl
  | cons text texts ih =>
    rw [visitsFrom_cons_of_sweep h, ih (sweep_cons_ok h).2, label?_next, label?_workspace,
      definition?, Option.or_assoc]

theorem sizes_of_sweep_final (h : sweep set .final n texts a = .ok () b) : b.sizes = a.sizes := by
  induction texts generalizing n a with
  | nil => rw [sweep_nil_eq_ok.1 h]
  | cons text texts ih =>
    have hb := ih (sweep_cons_ok h).2
    exact hb

theorem sizes_next_first (hp : v.pass = .first) (m : Nat) :
    (v.next set).sizes[m]? =
      (if v.number = m then v.size? set else none).or v.assembly.sizes[m]? := by
  unfold Visit.next Visit.size?
  rw [hp]
  cases v.encoding? set with
  | none => simp
  | some e =>
    simp only [Std.TreeMap.getElem?_insert, Std.LawfulEqCmp.compare_eq_iff_eq, Option.map_some]
    split <;> rfl

theorem noted?_cons (m : Nat) :
    noted? set n (v :: vs) m =
      (noted? set (n + 1) vs m).or (if n = m then v.size? set else none) := by
  unfold noted?
  rcases Nat.lt_trichotomy m n with hm | rfl | hm
  · rw [if_pos hm, if_pos (by omega), if_neg (by omega)]
    rfl
  · simp
  · have hk : m - n = m - (n + 1) + 1 := by omega
    rw [if_neg (by omega), if_neg (by omega), if_neg (by omega), hk, List.getElem?_cons_succ,
      Option.or_none]

theorem noted?_take {k : Nat} {m : Nat} (h : m < n + k) :
    noted? set n (vs.take k) m = noted? set n vs m := by
  unfold noted?
  split
  · rfl
  · rw [List.getElem?_take_of_lt (by omega)]

theorem sizes_of_sweep_first (h : sweep set .first n texts a = .ok () b) (m : Nat) :
    b.sizes[m]? = (noted? set n (visitsFrom set .first n texts a) m).or a.sizes[m]? := by
  induction texts generalizing n a with
  | nil =>
    rw [sweep_nil_eq_ok.1 h]
    simp [noted?, visitsFrom]
  | cons text texts ih =>
    rw [visitsFrom_cons_of_sweep h, ih (sweep_cons_ok h).2, sizes_next_first rfl, ← Option.or_assoc,
      noted?_cons]

end Asm65816.Assembly
