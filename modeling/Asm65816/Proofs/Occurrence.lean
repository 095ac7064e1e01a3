import Mathlib.Tactic.Tauto

namespace Asm65816

variable {α : Type}

def IsFirst (p : α → Prop) (xs : List α) (a : α) : Prop :=
  ∃ front behind, xs = front ++ a :: behind ∧ p a ∧ ∀ b ∈ front, ¬p b

def IsLast (p : α → Prop) (xs : List α) (a : α) : Prop :=
  ∃ front behind, xs = front ++ a :: behind ∧ p a ∧ ∀ b ∈ behind, ¬p b

def FirstAt (xs : List α) (a : α) (i : Nat) : Prop := xs[i]? = some a ∧ ∀ j < i, xs[j]? ≠ some a

variable {p : α → Prop} {xs : List α} {a : α} {i : Nat}

theorem isFirst_reverse : IsFirst p xs.reverse a ↔ IsLast p xs a := by
  constructor
  · intro h
    obtain ⟨front, behind, hxs, ha, hfront⟩ := h
    refine ⟨behind.reverse, front.reverse, ?_, ha, fun b hb ↦ hfront b (List.mem_reverse.1 hb)⟩
    rw [← List.reverse_reverse xs, hxs]
    simp
  · intro h
    obtain ⟨front, behind, rfl, ha, hbehind⟩ := h
    refine ⟨behind.reverse, front.reverse, by simp, ha, fun b hb ↦ ?_⟩
    exact hbehind b (List.mem_reverse.1 hb)

theorem find?_eq_some_iff_isFirst [DecidablePred p] :
    xs.find? (p ·) = some a ↔ IsFirst p xs a := by
  simp only [List.find?_eq_some_iff_append, decide_eq_true_eq, Bool.not_eq_true',
    decide_eq_false_iff_not]
  constructor
  · intro h
    obtain ⟨ha, front, behind, hxs, hfront⟩ := h
    exact ⟨front, behind, hxs, ha, hfront⟩
  · intro h
    obtain ⟨front, behind, hxs, ha, hfront⟩ := h
    exact ⟨ha, front, behind, hxs, hfront⟩

theorem idxOf?_eq_some_iff_firstAt [BEq α] [LawfulBEq α] :
    xs.idxOf? a = some i ↔ FirstAt xs a i := by
  rw [List.idxOf?_eq_some_iff]
  constructor
  · intro h
    obtain ⟨hi, ha, hfirst⟩ := h
    refine ⟨List.getElem?_eq_some_iff.2 ⟨hi, ha⟩, fun j hj hja ↦ ?_⟩
    exact hfirst j hj (List.getElem?_eq_some_iff.1 hja).2
  · intro h
    obtain ⟨hia, hfirst⟩ := h
    obtain ⟨hi, ha⟩ := List.getElem?_eq_some_iff.1 hia
    exact ⟨hi, ha, fun j hj hja ↦ hfirst j hj (List.getElem?_eq_some_iff.2 ⟨_, hja⟩)⟩

theorem span_eq_iff {p : α → Bool} {ys zs : List α} :
    xs.takeWhile p = ys ∧ xs.dropWhile p = zs ↔
      xs = ys ++ zs ∧ (∀ a ∈ ys, p a = true) ∧ ∀ a, zs.head? = some a → p a = false := by
  constructor
  · intro h
    obtain ⟨rfl, rfl⟩ := h
    refine ⟨List.takeWhile_append_dropWhile.symm, List.all_eq_true.1 List.all_takeWhile, ?_⟩
    intro a ha
    have hne : xs.dropWhile p ≠ [] := by
      intro h
      rw [h] at ha
      cases ha
    have hhead := List.head_dropWhile_not p hne
    rw [List.head?_eq_some_head hne] at ha
    cases ha
    exact hhead
  · intro h
    obtain ⟨rfl, hys, hzs⟩ := h
    rw [List.takeWhile_append_of_pos hys, List.dropWhile_append_of_pos hys]
    cases zs with
    | nil => simp
    | cons z zs => simp [hzs z rfl]

theorem isFirst_nil : ¬IsFirst p [] a := by
  intro h
  obtain ⟨front, behind, h, -⟩ := h
  cases (List.append_eq_nil_iff.1 h.symm).2

theorem isFirst_cons {x : α} :
    IsFirst p (x :: xs) a ↔ p x ∧ a = x ∨ ¬p x ∧ IsFirst p xs a := by
  constructor
  · intro h
    obtain ⟨front, behind, h, ha, hfront⟩ := h
    cases front with
    | nil =>
      cases h
      exact .inl ⟨ha, rfl⟩
    | cons b front =>
      cases h
      obtain ⟨hx, hfront⟩ := List.forall_mem_cons.1 hfront
      exact .inr ⟨hx, front, behind, rfl, ha, hfront⟩
  · intro h
    obtain ⟨hx, rfl⟩ | ⟨hx, front, behind, rfl, ha, hfront⟩ := h
    · exact ⟨[], xs, rfl, hx, by simp⟩
    · exact ⟨x :: front, behind, rfl, ha, List.forall_mem_cons.2 ⟨hx, hfront⟩⟩

theorem isFirst_append {ys : List α} :
    IsFirst p (xs ++ ys) a ↔ IsFirst p xs a ∨ (∀ b ∈ xs, ¬p b) ∧ IsFirst p ys a := by
  induction xs with
  | nil => simp [isFirst_nil]
  | cons x xs ih =>
    simp only [List.cons_append, isFirst_cons, ih, List.forall_mem_cons]
    tauto

theorem isFirst_map {β : Type} {f : β → α} {ys : List β} :
    IsFirst p (ys.map f) a ↔ ∃ b, IsFirst (fun b ↦ p (f b)) ys b ∧ a = f b := by
  induction ys with
  | nil => simp [isFirst_nil]
  | cons y ys ih =>
    simp only [List.map_cons, isFirst_cons, ih]
    constructor
    · intro h
      obtain ⟨hy, rfl⟩ | ⟨hy, b, hb, rfl⟩ := h
      · exact ⟨y, .inl ⟨hy, rfl⟩, rfl⟩
      · exact ⟨b, .inr ⟨hy, hb⟩, rfl⟩
    · intro h
      obtain ⟨b, ⟨hy, rfl⟩ | ⟨hy, hb⟩, rfl⟩ := h
      · exact .inl ⟨hy, rfl⟩
      · exact .inr ⟨hy, b, hb, rfl⟩

theorem IsFirst.mem (h : IsFirst p xs a) : a ∈ xs := by
  obtain ⟨front, behind, rfl, -⟩ := h
  simp

end Asm65816
