import Asm65816.Proofs.Assembly.Visit

namespace Asm65816.Assembly

variable (set : InstructionSet) (p : Pass)

def sweep (n : Nat) : List String → EStateM Fault Assembly Unit
  | [] => pure ()
  | text :: texts => do
    line set p n text
    sweep (n + 1) texts

/-- The lines that a sweep comes to. The last one may be where it ends with a fault. -/
def visitsFrom (n : Nat) : List String → Assembly → List Visit
  | [], _ => []
  | text :: texts, a =>
    ⟨p, n, text, a⟩ ::
      match line set p n text a with
      | .ok _ b => visitsFrom (n + 1) texts b
      | .error .. => []

def rewind (a : Assembly) : Assembly := { a with image := a.image.seek a.origin }

def visits (source : String) (a : Assembly) : List Visit :=
  visitsFrom set p 0 (Source.lines source) a.rewind

theorem pass_eq_sweep (source : String) (a : Assembly) :
    pass set p source a = sweep set p 0 (Source.lines source) a.rewind := by
  have hf : ∀ (texts : List String) (n : Nat),
      (texts.zipIdx n).forM (fun x ↦ line set p x.2 x.1) = sweep set p n texts := by
    intro texts
    induction texts with
    | nil => exact fun _ ↦ rfl
    | cons text texts ih =>
      intro n
      rw [List.zipIdx_cons]
      change (line set p n text >>= fun _ ↦ _) = _
      rw [ih (n + 1)]
      rfl
  have hp := hf (Source.lines source) 0
  rw [← hp]
  rfl

variable {set p} {n : Nat} {text : String} {texts : List String} {a b c : Assembly}

theorem sweep_nil_eq_ok : sweep set p n [] a = .ok () b ↔ b = a := by
  change EStateM.Result.ok () a = .ok () b ↔ b = a
  simp [eq_comm]

theorem sweep_cons :
    sweep set p n (text :: texts) a =
      match line set p n text a with
      | .ok _ b => sweep set p (n + 1) texts b
      | .error f s => .error f s := by
  change EStateM.bind (line set p n text) (fun _ ↦ sweep set p (n + 1) texts) a = _
  unfold EStateM.bind
  cases line set p n text a <;> rfl

theorem sweep_cons_eq_ok :
    sweep set p n (text :: texts) a = .ok () c ↔
      ∃ b, line set p n text a = .ok () b ∧ sweep set p (n + 1) texts b = .ok () c := by
  rw [sweep_cons]
  cases h : line set p n text a <;> simp

theorem sweep_cons_ok (h : sweep set p n (text :: texts) a = .ok () c) :
    (Visit.mk p n text a).line set = .ok () ((Visit.mk p n text a).next set) ∧
      sweep set p (n + 1) texts ((Visit.mk p n text a).next set) = .ok () c := by
  obtain ⟨b, hb, hc⟩ := sweep_cons_eq_ok.1 h
  have hn := (Visit.line_eq_ok (v := ⟨p, n, text, a⟩) hb).1
  rw [hn] at hb hc
  exact ⟨hb, hc⟩

theorem sweep_append (xs ys : List String) :
    sweep set p n (xs ++ ys) a =
      match sweep set p n xs a with
      | .ok _ b => sweep set p (n + xs.length) ys b
      | .error f s => .error f s := by
  induction xs generalizing n a with
  | nil => rfl
  | cons x xs ih =>
    rw [List.cons_append, sweep_cons, sweep_cons]
    cases line set p n x a with
    | ok u b =>
      simp only [ih, List.length_cons]
      rw [Nat.add_comm xs.length, ← Nat.add_assoc]
    | error f s => rfl

theorem sweep_append_eq_ok {xs ys : List String} :
    sweep set p n (xs ++ ys) a = .ok () c ↔
      ∃ b, sweep set p n xs a = .ok () b ∧ sweep set p (n + xs.length) ys b = .ok () c := by
  rw [sweep_append]
  cases sweep set p n xs a <;> simp

theorem visitsFrom_cons_of_ok (h : line set p n text a = .ok () b) :
    visitsFrom set p n (text :: texts) a =
      ⟨p, n, text, a⟩ :: visitsFrom set p (n + 1) texts b := by
  rw [visitsFrom, h]

theorem visitsFrom_cons_of_sweep (h : sweep set p n (text :: texts) a = .ok () c) :
    visitsFrom set p n (text :: texts) a =
      ⟨p, n, text, a⟩ :: visitsFrom set p (n + 1) texts ((Visit.mk p n text a).next set) :=
  visitsFrom_cons_of_ok (sweep_cons_ok h).1

theorem visitsFrom_append {xs : List String} (h : sweep set p n xs a = .ok () b)
    (ys : List String) :
    visitsFrom set p n (xs ++ ys) a =
      visitsFrom set p n xs a ++ visitsFrom set p (n + xs.length) ys b := by
  induction xs generalizing n a with
  | nil =>
    rw [sweep_nil_eq_ok.1 h]
    rfl
  | cons x xs ih =>
    obtain ⟨hx, hxs⟩ := sweep_cons_ok h
    rw [List.cons_append, visitsFrom_cons_of_ok hx, visitsFrom_cons_of_ok hx, ih hxs,
      List.length_cons, Nat.add_comm xs.length, ← Nat.add_assoc, List.cons_append]

theorem length_visitsFrom (h : sweep set p n texts a = .ok () b) :
    (visitsFrom set p n texts a).length = texts.length := by
  induction texts generalizing n a with
  | nil => rfl
  | cons text texts ih =>
    rw [visitsFrom_cons_of_sweep h, List.length_cons, ih (sweep_cons_ok h).2, List.length_cons]

theorem sweep_take {k : Nat} {v : Visit} (hv : (visitsFrom set p n texts a)[k]? = some v) :
    sweep set p n (texts.take k) a = .ok () v.assembly ∧
      visitsFrom set p n (texts.take k) a = (visitsFrom set p n texts a).take k ∧
      texts[k]? = some v.text ∧ v.pass = p ∧ v.number = n + k := by
  induction k generalizing n texts a with
  | zero =>
    cases texts with
    | nil => cases hv
    | cons text texts =>
      rw [visitsFrom] at hv
      cases hv
      exact ⟨rfl, rfl, rfl, rfl, rfl⟩
  | succ k ih =>
    cases texts with
    | nil => cases hv
    | cons text texts =>
      rw [visitsFrom] at hv
      rw [List.getElem?_cons_succ] at hv
      cases hl : line set p n text a with
      | error f s => rw [hl] at hv; cases hv
      | ok u b =>
        rw [hl] at hv
        obtain ⟨hs, ht, hx, hp, hn⟩ := ih hv
        refine ⟨sweep_cons_eq_ok.2 ⟨b, hl, hs⟩, ?_, hx, hp, by omega⟩
        rw [List.take_succ_cons, visitsFrom_cons_of_ok hl, visitsFrom_cons_of_ok hl, ht]
        rfl

theorem sweep_drop {k : Nat} {v : Visit} (h : sweep set p n texts a = .ok () b)
    (hv : (visitsFrom set p n texts a)[k]? = some v) :
    sweep set p (n + k) (texts.drop k) v.assembly = .ok () b := by
  obtain ⟨hs, -, hx, -, -⟩ := sweep_take hv
  have hk : (texts.take k).length = k := by
    have := (List.getElem?_eq_some_iff.1 hx).1
    rw [List.length_take]
    omega
  rw [← List.take_append_drop k texts] at h
  obtain ⟨d, hd, hb⟩ := sweep_append_eq_ok.1 h
  rw [hs] at hd
  cases hd
  rwa [hk] at hb

theorem line_of_visit {k : Nat} {v : Visit} (h : sweep set p n texts a = .ok () b)
    (hv : (visitsFrom set p n texts a)[k]? = some v) : v.line set = .ok () (v.next set) := by
  obtain ⟨-, -, hx, hp, hn⟩ := sweep_take hv
  have hd := sweep_drop h hv
  obtain ⟨hlt, ht⟩ := List.getElem?_eq_some_iff.1 hx
  rw [List.drop_eq_getElem_cons hlt, ht, ← hn, ← hp] at hd
  exact (sweep_cons_ok hd).1

end Asm65816.Assembly
