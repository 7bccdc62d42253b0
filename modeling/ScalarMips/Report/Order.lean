/-!
# Stable ordering

Sorting by a 32-bit key, with elements of one key left in their order. Reports are ordered by line
and problems by column with it.

The three laws below determine the result: it has the same elements (`sortOn_perm`), their keys do
not decrease (`pairwise_sortOn`), and the elements of any one key are the same list as before
(`filter_sortOn`).
-/

namespace ScalarMips.Report

variable {α : Type}

/-- Inserts an element in front of the first one whose key is not smaller. -/
def insertOn (key : α → UInt32) (a : α) : List α → List α
  | [] => [a]
  | b :: bs => if key a ≤ key b then a :: b :: bs else b :: insertOn key a bs

/-- Sorts a list by a key. -/
def sortOn (key : α → UInt32) (as : List α) : List α :=
  as.foldr (insertOn key) []

theorem insertOn_perm (key : α → UInt32) (a : α) (bs : List α) :
    (insertOn key a bs).Perm (a :: bs) := by
  induction bs with
  | nil => exact List.Perm.refl _
  | cons b bs ih =>
    unfold insertOn
    split
    · exact List.Perm.refl _
    · exact (ih.cons b).trans (List.Perm.swap a b bs)

/-- Sorting neither loses nor invents elements. -/
theorem sortOn_perm (key : α → UInt32) (as : List α) : (sortOn key as).Perm as := by
  induction as with
  | nil => exact List.Perm.refl _
  | cons a as ih => exact (insertOn_perm key a _).trans (ih.cons a)

theorem pairwise_insertOn (key : α → UInt32) (a : α) {bs : List α}
    (h : bs.Pairwise fun b c ↦ key b ≤ key c) :
    (insertOn key a bs).Pairwise fun b c ↦ key b ≤ key c := by
  induction bs with
  | nil => exact List.pairwise_singleton _ _
  | cons b bs ih =>
    obtain ⟨hb, hbs⟩ := List.pairwise_cons.1 h
    unfold insertOn
    split
    · rename_i hab
      refine List.pairwise_cons.2 ⟨fun c hc ↦ ?_, h⟩
      rcases List.mem_cons.1 hc with rfl | hc
      · exact hab
      · exact UInt32.le_trans hab (hb c hc)
    · rename_i hab
      refine List.pairwise_cons.2 ⟨fun c hc ↦ ?_, ih hbs⟩
      rcases List.mem_cons.1 ((insertOn_perm key a bs).mem_iff.1 hc) with rfl | hc
      · exact (UInt32.le_total _ _).resolve_right hab
      · exact hb c hc

/-- The keys of a sorted list do not decrease. -/
theorem pairwise_sortOn (key : α → UInt32) (as : List α) :
    (sortOn key as).Pairwise fun b c ↦ key b ≤ key c := by
  induction as with
  | nil => exact List.Pairwise.nil
  | cons a as ih => exact pairwise_insertOn key a ih

theorem filter_insertOn (key : α → UInt32) (k : UInt32) (a : α) (bs : List α) :
    (insertOn key a bs).filter (fun b ↦ key b = k) =
      (a :: bs).filter (fun b ↦ key b = k) := by
  induction bs with
  | nil => rfl
  | cons b bs ih =>
    unfold insertOn
    split
    · rfl
    · rename_i hab
      have hne : key a = k → key b ≠ k := fun ha hb ↦ hab (by rw [ha, hb]; exact UInt32.le_refl k)
      by_cases ha : key a = k <;> by_cases hb : key b = k <;> simp_all

/-- Sorting keeps the order of elements with one key. -/
theorem filter_sortOn (key : α → UInt32) (k : UInt32) (as : List α) :
    (sortOn key as).filter (fun b ↦ key b = k) = as.filter (fun b ↦ key b = k) := by
  induction as with
  | nil => rfl
  | cons a as ih =>
    rw [sortOn, List.foldr_cons, ← sortOn, filter_insertOn, List.filter_cons, List.filter_cons, ih]

end ScalarMips.Report
