import Mathlib.Data.List.Basic

namespace Spangap.FirstMatch

open List

variable {α : Type} {p q : α → Bool} {f g : α → α} {l : List α} {x b a : α}

def modifyFirst (p : α → Bool) (f : α → α) : List α → List α
  | [] => []
  | a :: l => if p a then f a :: l else a :: modifyFirst p f l

@[simp] theorem modifyFirst_nil : modifyFirst p f [] = [] := rfl

theorem modifyFirst_cons_of_pos (l : List α) (h : p a = true) : modifyFirst p f (a :: l) = f a :: l := by
  simp [modifyFirst, h]

theorem modifyFirst_cons_of_neg (l : List α) (h : p a = false) :
    modifyFirst p f (a :: l) = a :: modifyFirst p f l := by
  simp [modifyFirst, h]

theorem modifyFirst_append_of_none (r : List α) (h : ∀ a ∈ l, p a = false) : modifyFirst p f (l ++ r) = l ++ modifyFirst p f r := by
  induction l with
  | nil => rfl
  | cons a l ih =>
    rw [cons_append, modifyFirst_cons_of_neg (l ++ r) (h a mem_cons_self),
      ih fun b hb => h b (mem_cons_of_mem a hb), cons_append]

theorem mem_modifyFirst (hb : b ∈ modifyFirst p f l) : b ∈ l ∨ ∃ a ∈ l, p a = true ∧ b = f a := by
  induction l with
  | nil => simp at hb
  | cons a l ih =>
    cases ha : p a with
    | true =>
      rw [modifyFirst_cons_of_pos l ha] at hb
      rcases mem_cons.mp hb with rfl | hb
      · exact .inr ⟨a, mem_cons_self, ha, rfl⟩
      · exact .inl (mem_cons_of_mem a hb)
    | false =>
      rw [modifyFirst_cons_of_neg l ha] at hb
      rcases mem_cons.mp hb with rfl | hb
      · exact .inl mem_cons_self
      · rcases ih hb with hm | ⟨d, hd, hpd, rfl⟩
        · exact .inl (mem_cons_of_mem a hm)
        · exact .inr ⟨d, mem_cons_of_mem a hd, hpd, rfl⟩

theorem mem_of_mem_modifyFirst (hf : ∀ a, p (f a) = p a) (hb : b ∈ modifyFirst p f l) (hp : p b = false) : b ∈ l := by
  rcases mem_modifyFirst hb with hb | ⟨a, -, ha, rfl⟩
  · exact hb
  · rw [hf, ha] at hp
    simp at hp

theorem find?_modifyFirst (hf : ∀ a, p (f a) = p a) (l : List α) :
    (modifyFirst p f l).find? p = (l.find? p).map f := by
  induction l with
  | nil => rfl
  | cons a l ih =>
    cases ha : p a with
    | true => simp [modifyFirst, ha, hf]
    | false => simp [modifyFirst, ha, ih]

theorem find?_modifyFirst_of_disjoint (hpq : ∀ a, p a = true → q a = false) (hf : ∀ a, q (f a) = q a)
    (l : List α) : (modifyFirst p f l).find? q = l.find? q := by
  induction l with
  | nil => rfl
  | cons a l ih =>
    cases ha : p a with
    | true => simp [modifyFirst, ha, hf, hpq a ha]
    | false => simp only [modifyFirst, ha, Bool.false_eq_true, if_false, find?_cons, ih]

theorem find?_eraseP_of_disjoint (hpq : ∀ a, p a = true → q a = false) (l : List α) :
    (l.eraseP p).find? q = l.find? q := by
  induction l with
  | nil => rfl
  | cons a l ih =>
    cases ha : p a with
    | true => simp [ha, hpq a ha]
    | false => simp only [eraseP_cons, ha, cond_false, find?_cons, ih]

theorem countP_modifyFirst (hf : ∀ a, q (f a) = q a) (l : List α) : (modifyFirst p f l).countP q = l.countP q := by
  induction l with
  | nil => rfl
  | cons a l ih =>
    cases ha : p a with
    | true => simp [modifyFirst, ha, countP_cons, hf]
    | false => simp [modifyFirst, ha, countP_cons, ih]

theorem countP_eraseP_of_disjoint (hpq : ∀ a, p a = true → q a = false) (l : List α) :
    (l.eraseP p).countP q = l.countP q := by
  induction l with
  | nil => rfl
  | cons a l ih =>
    cases ha : p a with
    | true => simp [ha, hpq a ha]
    | false => simp [ha, countP_cons, ih]

theorem none_of_eraseP (h : l.countP p ≤ 1) : ∀ a ∈ l.eraseP p, p a = false := by
  induction l with
  | nil => simp
  | cons a l ih =>
    cases ha : p a with
    | true =>
      have hz : l.countP p = 0 := by
        rw [countP_cons_of_pos ha] at h
        omega
      rw [eraseP_cons_of_pos ha]
      intro b hb
      simpa using countP_eq_zero.mp hz b hb
    | false =>
      rw [countP_cons_of_neg (by simp [ha])] at h
      rw [eraseP_cons_of_neg (by simp [ha])]
      exact forall_mem_cons.mpr ⟨ha, ih h⟩

theorem find?_of_none (h : ∀ a ∈ l, p a = false) : l.find? p = none :=
  find?_eq_none.mpr fun a ha => by simp [h a ha]

end Spangap.FirstMatch
