import Mathlib
import ScalarMips.Spelling

/-!
# The edit distance is the least number of edits

An edit inserts, deletes or replaces one letter, anywhere in a word. The distance that is computed
from a single overwritten row is the least number of edits that turn one word into the other
(`editDistance_isLeast`).

Edits come in any order and may undo each other. What they do all together can be had in one pass
over both words at no higher cost (`Edits.exists_aligned`), and the least cost of such a pass obeys
the recurrence of the distance table: where both words end with the same letter it is best to keep
that letter (`IsDistance.keep`), and otherwise one of three last edits is paid for
(`IsDistance.pay`).

While a row is overwritten, its left part belongs to one line of the table and its right part to the
line above (`Sweep.Halfway`).
-/

namespace ScalarMips.Spelling

variable {a b c : List Char} {x y : Char} {k m n : ℕ}

/-! ### Edits -/

/-- One edit turns a word into another. -/
inductive Edit : List Char → List Char → Prop where
  /-- A letter is inserted. -/
  | insert (front back : List Char) (x : Char) : Edit (front ++ back) (front ++ x :: back)
  /-- A letter is deleted. -/
  | delete (front back : List Char) (x : Char) : Edit (front ++ x :: back) (front ++ back)
  /-- A letter is replaced. -/
  | substitute (front back : List Char) (x y : Char) :
      Edit (front ++ x :: back) (front ++ y :: back)

/-- So many edits, one after the other, turn a word into another. -/
inductive Edits : ℕ → List Char → List Char → Prop where
  | nil (a : List Char) : Edits 0 a a
  | cons {n : ℕ} {a b c : List Char} : Edit a b → Edits n b c → Edits (n + 1) a c

theorem Edit.symm (h : Edit a b) : Edit b a := by
  cases h with
  | insert front back x => exact .delete front back x
  | delete front back x => exact .insert front back x
  | substitute front back x y => exact .substitute front back y x

theorem Edit.keep (h : Edit a b) (x : Char) : Edit (x :: a) (x :: b) := by
  cases h with
  | insert front back y => exact .insert (x :: front) back y
  | delete front back y => exact .delete (x :: front) back y
  | substitute front back y z => exact .substitute (x :: front) back y z

theorem Edit.reverse (h : Edit a b) : Edit a.reverse b.reverse := by
  cases h with
  | insert front back x => simpa using Edit.insert back.reverse front.reverse x
  | delete front back x => simpa using Edit.delete back.reverse front.reverse x
  | substitute front back x y => simpa using Edit.substitute back.reverse front.reverse x y

namespace Edits

theorem one (h : Edit a b) : Edits 1 a b :=
  .cons h (.nil b)

theorem trans (h : Edits m a b) (h' : Edits n b c) : Edits (m + n) a c := by
  induction h with
  | nil => rwa [Nat.zero_add]
  | cons hedit _ ih =>
    rw [Nat.add_right_comm]
    exact .cons hedit (ih h')

theorem symm (h : Edits n a b) : Edits n b a := by
  induction h with
  | nil a => exact .nil a
  | cons hedit _ ih => exact ih.trans (.one hedit.symm)

theorem keep (h : Edits n a b) (x : Char) : Edits n (x :: a) (x :: b) := by
  induction h with
  | nil a => exact .nil (x :: a)
  | cons hedit _ ih => exact .cons (hedit.keep x) ih

theorem reverse (h : Edits n a b) : Edits n a.reverse b.reverse := by
  induction h with
  | nil a => exact .nil a.reverse
  | cons hedit _ ih => exact .cons hedit.reverse ih

end Edits

/-- Without an edit a word stays what it is. -/
theorem Edits.eq (h : Edits 0 a b) : a = b := by
  cases h
  rfl

/-! ### One pass over both words -/

/-- Two words side by side: letters are kept at no cost, and one is paid for every letter that is
replaced, inserted or deleted. -/
inductive Aligned : ℕ → List Char → List Char → Prop where
  | nil : Aligned 0 [] []
  | keep {n : ℕ} {a b : List Char} (x : Char) : Aligned n a b → Aligned n (x :: a) (x :: b)
  | substitute {n : ℕ} {a b : List Char} (x y : Char) :
      Aligned n a b → Aligned (n + 1) (x :: a) (y :: b)
  | insert {n : ℕ} {a b : List Char} (y : Char) : Aligned n a b → Aligned (n + 1) a (y :: b)
  | delete {n : ℕ} {a b : List Char} (x : Char) : Aligned n a b → Aligned (n + 1) (x :: a) b

namespace Aligned

theorem symm (h : Aligned n a b) : Aligned n b a := by
  induction h with
  | nil => exact .nil
  | keep x _ ih => exact .keep x ih
  | substitute x y _ ih => exact .substitute y x ih
  | insert y _ ih => exact .delete y ih
  | delete x _ ih => exact .insert x ih

theorem refl : ∀ a : List Char, Aligned 0 a a
  | [] => .nil
  | x :: a => .keep x (refl a)

theorem insertAll : ∀ b : List Char, Aligned b.length [] b
  | [] => .nil
  | y :: b => .insert y (insertAll b)

/-- The costs of a pass are edits. -/
theorem edits (h : Aligned n a b) : Edits n a b := by
  induction h with
  | nil => exact .nil []
  | keep x _ ih => exact ih.keep x
  | @substitute _ a _ x y _ ih => exact .cons (.substitute [] a x y) (ih.keep y)
  | @insert _ a _ y _ ih => exact .cons (.insert [] a y) (ih.keep y)
  | @delete _ a _ x _ ih => exact .cons (.delete [] a x) ih

/-- A first letter can be left out at the cost of one. -/
theorem exists_tail (h : Aligned n (x :: a) b) : ∃ m ≤ n + 1, Aligned m a b := by
  generalize hword : x :: a = word at h
  induction h with
  | nil => cases hword
  | @keep n _ b x h =>
    cases hword
    exact ⟨n + 1, Nat.le_refl _, .insert x h⟩
  | @substitute n _ b x y h =>
    cases hword
    exact ⟨n + 1, Nat.le_succ _, .insert y h⟩
  | insert y _ ih =>
    obtain ⟨m, hm, h⟩ := ih hword
    exact ⟨m + 1, Nat.succ_le_succ hm, .insert y h⟩
  | @delete n _ b x h =>
    cases hword
    exact ⟨n, by omega, h⟩

/-- A first letter can be replaced at the cost of one. -/
theorem exists_replaced (h : Aligned n (y :: a) b) (x : Char) :
    ∃ m ≤ n + 1, Aligned m (x :: a) b := by
  generalize hword : y :: a = word at h
  induction h with
  | nil => cases hword
  | @keep n _ b y h =>
    cases hword
    exact ⟨n + 1, Nat.le_refl _, .substitute x y h⟩
  | @substitute n _ b y z h =>
    cases hword
    exact ⟨n + 1, Nat.le_succ _, .substitute x z h⟩
  | insert z _ ih =>
    obtain ⟨m, hm, h⟩ := ih hword
    exact ⟨m + 1, Nat.succ_le_succ hm, .insert z h⟩
  | @delete n _ b y h =>
    cases hword
    exact ⟨n + 1, Nat.le_succ _, .delete x h⟩

/-- A letter in front of both words makes the change of the first one no dearer. -/
theorem exists_behind (htail : ∀ {n c}, Aligned n b c → ∃ m ≤ n + 1, Aligned m a c)
    (h : Aligned n (x :: b) c) : ∃ m ≤ n + 1, Aligned m (x :: a) c := by
  generalize hword : x :: b = word at h
  induction h with
  | nil => cases hword
  | keep x h =>
    cases hword
    obtain ⟨m, hm, h⟩ := htail h
    exact ⟨m, hm, .keep x h⟩
  | substitute x y h =>
    cases hword
    obtain ⟨m, hm, h⟩ := htail h
    exact ⟨m + 1, Nat.succ_le_succ hm, .substitute x y h⟩
  | insert y _ ih =>
    obtain ⟨m, hm, h⟩ := ih hword
    exact ⟨m + 1, Nat.succ_le_succ hm, .insert y h⟩
  | delete x h =>
    cases hword
    obtain ⟨m, hm, h⟩ := htail h
    exact ⟨m + 1, Nat.succ_le_succ hm, .delete x h⟩

theorem exists_behind_all (front : List Char)
    (h : ∀ {n c}, Aligned n b c → ∃ m ≤ n + 1, Aligned m a c) :
    ∀ {n c}, Aligned n (front ++ b) c → ∃ m ≤ n + 1, Aligned m (front ++ a) c := by
  induction front with
  | nil => exact h
  | cons x front ih => exact exists_behind ih

/-- An edit before a pass makes it dearer by at most one. -/
theorem of_edit (hedit : Edit a b) (h : Aligned n b c) : ∃ m ≤ n + 1, Aligned m a c := by
  cases hedit with
  | insert front back x => exact exists_behind_all front exists_tail h
  | delete front back x =>
    exact exists_behind_all front (fun {n c} h ↦ ⟨n + 1, Nat.le_refl _, .delete x h⟩) h
  | substitute front back x y => exact exists_behind_all front (exists_replaced · x) h

end Aligned

/-- Edits cost no less than one pass over both words. -/
theorem Edits.exists_aligned (h : Edits n a b) : ∃ m ≤ n, Aligned m a b := by
  induction h with
  | nil a => exact ⟨0, Nat.le_refl 0, .refl a⟩
  | cons hedit _ ih =>
    obtain ⟨m, hm, h⟩ := ih
    obtain ⟨l, hl, h⟩ := h.of_edit hedit
    exact ⟨l, hl.trans (Nat.succ_le_succ hm), h⟩

/-! ### Least numbers of edits -/

/-- The least number of edits that turn one word into another. -/
def IsDistance (n : ℕ) (a b : List Char) : Prop :=
  IsLeast {k | Edits k a b} n

/-- The least number of edits is the least cost of a pass, which may as well begin at the ends. -/
theorem isDistance_iff : IsDistance n a b ↔
    Aligned n a.reverse b.reverse ∧ ∀ k, Aligned k a.reverse b.reverse → n ≤ k := by
  have hedits : ∀ {k}, Aligned k a.reverse b.reverse → Edits k a b := fun h ↦ by
    simpa using h.edits.reverse
  constructor
  · rintro ⟨hn, hleast⟩
    obtain ⟨m, hm, h⟩ := Edits.exists_aligned (Edits.reverse hn)
    obtain rfl := Nat.le_antisymm hm (hleast (hedits h))
    exact ⟨h, fun k hk ↦ hleast (hedits hk)⟩
  · rintro ⟨hn, hleast⟩
    refine ⟨hedits hn, fun k hk ↦ ?_⟩
    obtain ⟨m, hm, h⟩ := (Edits.reverse hk).exists_aligned
    exact (hleast m h).trans hm

namespace IsDistance

theorem symm (h : IsDistance n a b) : IsDistance n b a :=
  ⟨Edits.symm h.1, fun _ hk ↦ h.2 (Edits.symm hk)⟩

/-- From the empty word every letter has to be inserted. -/
theorem nil_left (b : List Char) : IsDistance b.length [] b := by
  rw [isDistance_iff, ← b.length_reverse]
  refine ⟨.insertAll _, fun k h ↦ ?_⟩
  generalize b.reverse = b at h
  generalize ha : ([] : List Char).reverse = a at h
  induction h with
  | nil => exact Nat.le_refl 0
  | insert y _ ih => exact Nat.succ_le_succ (ih ha)
  | _ => cases ha

/-- It is best to keep a last letter that both words have. -/
theorem keep (h : IsDistance n a b) (x : Char) : IsDistance n (a ++ [x]) (b ++ [x]) := by
  rw [isDistance_iff] at h ⊢
  rw [List.reverse_concat, List.reverse_concat]
  refine ⟨.keep x h.1, fun k hk ↦ ?_⟩
  cases hk with
  | keep _ hk => exact h.2 _ hk
  | substitute _ _ hk => exact (h.2 _ hk).trans (Nat.le_succ _)
  | insert _ hk =>
    obtain ⟨m, hm, hk⟩ := hk.exists_tail
    exact (h.2 m hk).trans hm
  | delete _ hk =>
    obtain ⟨m, hm, hk⟩ := hk.symm.exists_tail
    exact (h.2 m hk.symm).trans hm

/-- Where the last letters differ, one edit is paid for the last letter of one word or of both. -/
theorem pay (hxy : x ≠ y) (hboth : IsDistance k a b) (hdeleted : IsDistance m a (b ++ [y]))
    (hinserted : IsDistance n (a ++ [x]) b) :
    IsDistance (1 + min k (min m n)) (a ++ [x]) (b ++ [y]) := by
  rw [isDistance_iff, List.reverse_concat] at hdeleted hinserted
  rw [isDistance_iff] at hboth
  rw [isDistance_iff, List.reverse_concat, List.reverse_concat, Nat.add_comm]
  constructor
  · rcases min_choice k (min m n) with h | h <;> rw [h]
    · exact .substitute x y hboth.1
    · rcases min_choice m n with h | h <;> rw [h]
      · exact .delete x hdeleted.1
      · exact .insert y hinserted.1
  · intro l hl
    cases hl with
    | keep => exact absurd rfl hxy
    | substitute _ _ hl => exact Nat.succ_le_succ (min_le_of_left_le (hboth.2 _ hl))
    | insert _ hl =>
      exact Nat.succ_le_succ (min_le_of_right_le (min_le_of_right_le (hinserted.2 _ hl)))
    | delete _ hl =>
      exact Nat.succ_le_succ (min_le_of_right_le (min_le_of_left_le (hdeleted.2 _ hl)))

end IsDistance

/-! ### The table -/

section Table

variable {target : Vector Char n} {word : List Char}

/-- One column more of the target. -/
theorem take_succ_target {column : ℕ} (h : column < n) :
    target.toList.take (column + 1) = target.toList.take column ++ [target[column]] := by
  rw [List.take_add_one, List.getElem?_eq_getElem (by simpa using h), Vector.getElem_toList]
  rfl

/-- The row of a line has the distances from a word to all beginnings of the target. -/
def IsRow (target : Vector Char n) (word : List Char) (row : Vector ℕ (n + 1)) : Prop :=
  ∀ (j : ℕ) (h : j < n + 1), IsDistance row[j] word (target.toList.take j)

/-- A row that is overwritten up to a column. Its new entries are for a word with one letter more
than that of the line above. -/
structure Sweep.Halfway (target : Vector Char n) (word : List Char) (x : Char) (column : ℕ)
    (s : Sweep n) : Prop where
  /-- The entries up to the column are new. -/
  left : ∀ (j : ℕ) (h : j < n + 1), j ≤ column →
    IsDistance s.row[j] (word ++ [x]) (target.toList.take j)
  /-- The entries behind the column are those of the line above. -/
  right : ∀ (j : ℕ) (h : j < n + 1), column < j → IsDistance s.row[j] word (target.toList.take j)
  /-- So was what stood in the column before. -/
  diagonal : IsDistance s.diagonal word (target.toList.take column)

namespace Sweep

theorem Halfway.start {row : Vector ℕ (n + 1)} (h : IsRow target word row) (x : Char) :
    Halfway target word x 0 (Sweep.start (word.length + 1) row) where
  left j hj hle := by
    obtain rfl := Nat.le_zero.1 hle
    have hlength := (IsDistance.nil_left (word ++ [x])).symm
    rw [List.length_append] at hlength
    simpa [Sweep.start] using hlength
  right j hj hlt := by
    have hkept : (Sweep.start (word.length + 1) row).row[j] = row[j] :=
      Vector.getElem_set_ne (Nat.succ_pos n) hj hlt.ne
    rw [hkept]
    exact h j hj
  diagonal := h 0 (Nat.succ_pos n)

variable {s : Sweep n} {column : ℕ}

theorem Halfway.step (hs : s.Halfway target word x column) (h : column < n) :
    (s.step x target column h).Halfway target word x (column + 1) where
  left j hj hle := by
    rcases Nat.lt_or_eq_of_le hle with hlt | rfl
    · have hkept : (s.step x target column h).row[j] = s.row[j] :=
        Vector.getElem_set_ne (Nat.succ_lt_succ h) hj hlt.ne'
      rw [hkept]
      exact hs.left j hj (Nat.le_of_lt_succ hlt)
    · -- The new entry is the distance to one more column of the target.
      have habove := hs.right (column + 1) hj (Nat.lt_succ_self column)
      have hleft := hs.left column (Nat.lt_succ_of_lt h) (Nat.le_refl column)
      rw [take_succ_target h] at habove ⊢
      simp only [Sweep.step, Vector.getElem_set_self]
      split
      · rename_i heq
        rw [← heq]
        exact hs.diagonal.keep x
      · rename_i hne
        exact hs.diagonal.pay hne habove hleft
  right j hj hlt := by
    have hkept : (s.step x target column h).row[j] = s.row[j] :=
      Vector.getElem_set_ne (Nat.succ_lt_succ h) hj hlt.ne
    rw [hkept]
    exact hs.right j hj (Nat.lt_of_succ_lt hlt)
  diagonal := hs.right (column + 1) (Nat.succ_lt_succ h) (Nat.lt_succ_self column)

theorem Halfway.steps (hs : s.Halfway target word x 0) :
    ∀ (columns : ℕ) (h : columns ≤ n),
      (s.steps x target columns h).Halfway target word x columns
  | 0, _ => hs
  | column + 1, h => (Halfway.steps hs column (Nat.le_of_succ_le h)).step h

end Sweep

/-- One line more of the table. -/
theorem IsRow.next {row : Vector ℕ (n + 1)} (h : IsRow target word row) (x : Char) :
    IsRow target (word ++ [x]) (nextRow target (word.length + 1) x row) :=
  fun j hj ↦ ((Sweep.Halfway.start h x).steps n (Nat.le_refl n)).left j hj (Nat.le_of_lt_succ hj)

/-- All lines that are left. -/
theorem IsRow.last : ∀ (rest : List Char) {word : List Char} {row : Vector ℕ (n + 1)},
    IsRow target word row → IsRow target (word ++ rest) (lastRow target (word.length + 1) rest row)
  | [], word, _, h => by rwa [List.append_nil]
  | x :: rest, word, row, h => by
    have hlast := IsRow.last rest (h.next x)
    rwa [List.append_assoc, List.length_append] at hlast

/-- The row of the empty word. -/
theorem isRow_range (target : Vector Char n) : IsRow target [] (Vector.range (n + 1)) := by
  intro j hj
  have hlength := IsDistance.nil_left (target.toList.take j)
  rw [List.length_take, Vector.length_toList, Nat.min_eq_left (Nat.le_of_lt_succ hj)] at hlength
  rwa [Vector.getElem_range]

end Table

theorem isDistance_editDistance (first second : String) :
    IsDistance (editDistance first second) first.toList second.toList := by
  have hrow := (isRow_range second.toList.toArray.toVector).last first.toList
  have hback := hrow second.toList.length (Nat.lt_succ_self _)
  rw [List.nil_append, List.take_of_length_le (by simp)] at hback
  simpa [editDistance, Vector.back_eq_getElem] using hback

/-- **The edit distance is the least number of edits.** It is the least number of insertions,
deletions and replacements of single letters that turn the first word into the second. Hence it is
symmetric, zero only for equal words, and no longer than a way over a third word. -/
theorem editDistance_isLeast (first second : String) :
    IsLeast {n | Edits n first.toList second.toList} (editDistance first second) ∧
      editDistance second first = editDistance first second ∧
      (editDistance first second = 0 ↔ first = second) ∧
      ∀ third, editDistance first third ≤ editDistance first second + editDistance second third := by
  have hdistance := isDistance_editDistance first second
  refine ⟨hdistance, ?_, ⟨fun hzero ↦ ?_, ?_⟩, fun third ↦ ?_⟩
  · exact (isDistance_editDistance second first).unique hdistance.symm
  · have hnone : Edits 0 first.toList second.toList := hzero ▸ hdistance.1
    exact String.toList_inj.1 hnone.eq
  · rintro rfl
    exact Nat.le_zero.1 (hdistance.2 (.nil _))
  · have hway := Edits.trans hdistance.1 (isDistance_editDistance second third).1
    exact (isDistance_editDistance first third).2 hway

/-- A letter is replaced, one is kept in between, and one is inserted at the end. -/
example : editDistance "kitten" "sitting" = 3 := by decide

end ScalarMips.Spelling
