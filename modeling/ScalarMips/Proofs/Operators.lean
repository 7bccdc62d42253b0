import ScalarMips.Proofs.Execution
import ScalarMips.Proofs.Semantics

/-!
# Operators in code

The code of an operator computes its value. Comparisons are put together from the three that the
machine has, and negation and the two connectives work on the lowest bit, which is all there is of a
truth value. Nothing but scratch registers changes (`Scratch`).

This is shown in two steps: which word the code leaves (`run_binaryCode`), and that this word is the
value of the operator (`binaryWord_eq`).
-/

namespace ScalarMips

/-! ### Scratch registers -/

/-- Two machines differ at most in registers that are neither the stack pointer nor the frame
pointer. -/
structure Scratch (m m' : Machine) : Prop where
  /-- The memory is the same. -/
  memory : m'.memory = m.memory
  /-- The output is the same. -/
  output : m'.output = m.output
  /-- The stack pointer is the same. -/
  sp : m'.get .sp = m.get .sp
  /-- The frame pointer is the same. -/
  fp : m'.get .fp = m.get .fp

theorem Scratch.refl (m : Machine) : Scratch m m := ⟨rfl, rfl, rfl, rfl⟩

/-! ### Words -/

theorem Word.ofBool_eq (b : Bool) : Word.ofBool b = (wordOfBool b).toBitVec := by
  cases b <;> rfl

theorem Word.ofBool_xor_one (b : Bool) : Word.ofBool b ^^^ 1 = Word.ofBool (!b) := by
  cases b <;> rfl

/-- Words are equal if they differ in no bit. -/
theorem Word.ult_one_xor (x y : Word) : (x ^^^ y).ult 1 = decide (x = y) := by
  have hzero : (x ^^^ y).ult 1 = decide (x ^^^ y = 0) := by
    rw [BitVec.ult]
    refine decide_eq_decide.2 ⟨fun h ↦ BitVec.eq_of_toNat_eq ?_, fun h ↦ ?_⟩
    · exact Nat.lt_one_iff.1 h
    · rw [h]
      decide
  rw [hzero]
  exact decide_eq_decide.2 BitVec.xor_eq_zero_iff

theorem Word.zero_ult_xor (x y : Word) : BitVec.ult 0 (x ^^^ y) = decide (x ≠ y) := by
  have hpos : BitVec.ult 0 (x ^^^ y) = decide (x ^^^ y ≠ 0) := by
    rw [BitVec.ult]
    refine decide_eq_decide.2 ⟨fun h heq ↦ ?_, fun h ↦ ?_⟩
    · rw [heq] at h
      exact absurd h (by decide)
    · refine Nat.pos_of_ne_zero fun heq ↦ h (BitVec.eq_of_toNat_eq heq)
  rw [hpos]
  exact decide_eq_decide.2 (not_congr BitVec.xor_eq_zero_iff)

theorem slt_toBitVec (left right : Int32) :
    left.toBitVec.slt right.toBitVec = decide (left < right) := by
  rw [BitVec.slt, Int32.toInt_toBitVec, Int32.toInt_toBitVec]
  exact decide_eq_decide.2 Int32.lt_iff_toInt_lt.symm

theorem not_decide_lt (left right : Int32) : (!decide (left < right)) = decide (right ≤ left) := by
  rw [← decide_not]
  exact decide_eq_decide.2 Int32.not_lt

theorem divides_toBitVec (left right : Int32) :
    Word.divides left.toBitVec right.toBitVec = Constant.divides left right := by
  have hzero : right.toBitVec = 0 ↔ right = 0 := Int32.toBitVec_inj (b := 0)
  have hone : right.toBitVec = -1 ↔ right = -1 := Int32.toBitVec_inj (b := -1)
  have hmin : left.toBitVec = BitVec.intMin 32 ↔ left = Int32.minValue :=
    Int32.toBitVec_inj (b := Int32.minValue)
  simp only [Word.divides, Constant.divides, ne_eq, hzero, hone, hmin]

/-! ### Code -/

namespace Generate

variable (image : Image) {m : Machine} {op : Operator} {code : List Instruction}

/-- A register is put on the stack, where the next word is aligned. -/
theorem run_push (c : Context) {r : Register} (hr : r ≠ .sp) {p : Word}
    (hp : m.get .sp - c.wordSize.toBitVec = p) (haligned : Image.aligned? p = some p) :
    image.run? m (c.push r) = some ((m.set .sp p).store p (m.get r)) := by
  have hmove : image.effect? m (.immediate .subu .sp .sp c.wordSize) = some (m.set .sp p) := by
    rw [← hp]
    rfl
  have htop : image.locate? (m.set .sp p) (.above 0 .sp) = some p := by
    rw [Image.locate?, m.get_set_self .sp _ nofun]
    have hzero : p + (0 : UInt32).toBitVec = p := BitVec.add_zero _
    rw [hzero, haligned]
  have hstore : image.effect? (m.set .sp p) (.sw r (.above 0 .sp)) =
      some ((m.set .sp p).store p (m.get r)) := by
    rw [Image.effect?, htop, m.get_set_of_ne _ _ hr]
    rfl
  rw [Context.push, Image.run?_cons hmove, Image.run?_cons hstore]
  rfl

/-- A register is taken off the stack, whose last word is aligned. -/
theorem run_pop (c : Context) {r : Register} (hr : r ≠ .sp) {p q : Word} (hp : m.get .sp = p)
    (haligned : Image.aligned? p = some p) (hq : p + c.wordSize.toBitVec = q) :
    image.run? m (c.pop r) = some ((m.set r (m.memory p)).set .sp q) := by
  have htop : image.locate? m (.above 0 .sp) = some p := by
    rw [Image.locate?, hp]
    have hzero : p + (0 : UInt32).toBitVec = p := BitVec.add_zero _
    rw [hzero, haligned]
  have hload : image.effect? m (.lw r (.above 0 .sp)) = some (m.set r (m.memory p)) := by
    rw [Image.effect?, htop]
    rfl
  have hmove : image.effect? (m.set r (m.memory p)) (.immediate .addiu .sp .sp c.wordSize) =
      some ((m.set r (m.memory p)).set .sp q) := by
    rw [Image.effect?, m.get_set_of_ne _ _ hr.symm, hp, ImmediateOp.compute, hq]
  rw [Context.pop, Image.run?_cons hload, Image.run?_cons hmove]
  rfl

theorem isTruth_iff {value : Int32} : Semantics.isTruth value ↔ value = 0 ∨ value = 1 := by
  simp [Semantics.isTruth]

/-- The code of a unary operator. -/
theorem run_unary {value result : Int32} (hcode : unaryCode? op = some code)
    (hresult : Semantics.unary op value = .ok result) (hvalue : m.get .t0 = value.toBitVec) :
    ∃ m', image.run? m code = some m' ∧ m'.get .t0 = result.toBitVec ∧ Scratch m m' := by
  unfold Semantics.unary at hresult
  split at hresult
  · cases hresult
  · rename_i htruth
    cases op with
    | minus =>
      cases hcode
      cases hresult
      refine ⟨_, rfl, ?_, ⟨rfl, rfl, rfl, rfl⟩⟩
      show 0 - m.get .t0 = (-value).toBitVec
      rw [hvalue]
      exact BitVec.zero_sub _
    | plus =>
      cases hcode
      cases hresult
      exact ⟨m, rfl, hvalue, .refl m⟩
    | not =>
      cases hcode
      cases hresult
      refine ⟨_, rfl, ?_, ⟨rfl, rfl, rfl, rfl⟩⟩
      show m.get .t0 ^^^ 1 = _
      have hvalues := isTruth_iff.1 (Decidable.not_not.1 fun h ↦ htruth ⟨rfl, h⟩)
      rw [hvalue]
      rcases hvalues with rfl | rfl <;> rfl
    | _ => cases hcode

theorem truths_of_binary {left right result : Int32} (hop : op ∈ [.and, .or])
    (h : Semantics.binary op left right = .ok result) :
    (left = 0 ∨ left = 1) ∧ (right = 0 ∨ right = 1) := by
  unfold Semantics.binary at h
  split at h
  · cases h
  · rename_i htruth
    obtain ⟨hleft, hright⟩ := Decidable.not_not.1 fun h ↦ htruth ⟨hop, h⟩
    exact ⟨isTruth_iff.1 hleft, isTruth_iff.1 hright⟩

theorem constant_of_binary {left right result : Int32}
    (h : Semantics.binary op left right = .ok result) :
    Constant.binary op left right = some result := by
  unfold Semantics.binary at h
  split at h
  · cases h
  · split at h
    · cases h
      assumption
    · cases h

theorem effect?_div (h : Word.divides (m.get .t0) (m.get .t1)) :
    image.effect? m (.div .t0 .t1) = some { m with
      lo := (m.get .t0).sdiv (m.get .t1), hi := (m.get .t0).srem (m.get .t1) } :=
  if_pos h

/-- The operands of a division that has a value can be divided. -/
theorem divides_of_binary {left right result : Int32} (hop : op ∈ [.divide, .modulo])
    (h : Constant.binary op left right = some result) : Constant.divides left right := by
  simp only [List.mem_cons, List.not_mem_nil, or_false] at hop
  rcases hop with rfl | rfl
  · exact Decidable.not_not.1 fun hd ↦ by simp [Constant.binary, hd] at h
  · exact Decidable.not_not.1 fun hd ↦ by simp [Constant.binary, hd] at h

/-- The word that the code of a binary operator leaves, given the words of its operands. -/
def binaryWord (op : Operator) (left right : Word) : Word :=
  match op with
  | .plus => left + right
  | .minus => left - right
  | .times => left * right
  | .divide => left.sdiv right
  | .modulo => left.srem right
  | .and => left &&& right
  | .or => left ||| right
  | .less => Word.ofBool (left.slt right)
  | .greater => Word.ofBool (right.slt left)
  | .lessEqual => Word.ofBool (right.slt left) ^^^ 1
  | .greaterEqual => Word.ofBool (left.slt right) ^^^ 1
  | .equal => Word.ofBool ((left ^^^ right).ult 1)
  | .notEqual => Word.ofBool (BitVec.ult 0 (left ^^^ right))
  | .not => left

/-- What the code of a binary operator does to a machine. -/
theorem run_binaryCode (hcode : binaryCode? op = some code)
    (hdivides : op ∈ [.divide, .modulo] → Word.divides (m.get .t0) (m.get .t1)) :
    ∃ m', image.run? m code = some m' ∧ m'.get .t0 = binaryWord op (m.get .t0) (m.get .t1) ∧
      Scratch m m' := by
  cases op with
  | not => cases hcode
  | divide | modulo =>
    cases hcode
    have hdiv := effect?_div image (hdivides (by decide))
    exact ⟨_, (Image.run?_cons hdiv).trans rfl, rfl, ⟨rfl, rfl, rfl, rfl⟩⟩
  | _ =>
    cases hcode
    exact ⟨_, rfl, rfl, ⟨rfl, rfl, rfl, rfl⟩⟩

/-- The word is the value of the operator. -/
theorem binaryWord_eq {left right result : Int32}
    (hresult : Semantics.binary op left right = .ok result) :
    binaryWord op left.toBitVec right.toBitVec = result.toBitVec := by
  have hconstant := constant_of_binary hresult
  cases op with
  | plus =>
    cases hconstant
    exact (Int32.toBitVec_add ..).symm
  | minus =>
    cases hconstant
    exact (Int32.toBitVec_sub ..).symm
  | times =>
    cases hconstant
    exact (Int32.toBitVec_mul ..).symm
  | divide =>
    have hdivides := divides_of_binary (by decide) hconstant
    rw [Constant.binary, if_pos hdivides] at hconstant
    cases hconstant
    exact (Int32.toBitVec_div ..).symm
  | modulo =>
    have hdivides := divides_of_binary (by decide) hconstant
    rw [Constant.binary, if_pos hdivides] at hconstant
    cases hconstant
    exact (Int32.toBitVec_mod ..).symm
  | and | or =>
    -- Bitwise and logical connectives agree on zero and one only.
    cases hconstant
    obtain ⟨hleft, hright⟩ := truths_of_binary (by decide) hresult
    rcases hleft with rfl | rfl <;> rcases hright with rfl | rfl <;> rfl
  | less | greater =>
    cases hconstant
    rw [binaryWord, slt_toBitVec, Word.ofBool_eq]
  | lessEqual | greaterEqual =>
    -- The opposite comparison is made, and its truth value flipped.
    cases hconstant
    rw [binaryWord, slt_toBitVec, Word.ofBool_xor_one, Word.ofBool_eq, not_decide_lt]
  | equal =>
    -- The words are equal if their difference in bits is below one.
    cases hconstant
    rw [binaryWord, Word.ult_one_xor, Word.ofBool_eq]
    simp only [Int32.toBitVec_inj]
  | notEqual =>
    cases hconstant
    rw [binaryWord, Word.zero_ult_xor, Word.ofBool_eq]
    simp only [ne_eq, Int32.toBitVec_inj]
  | not => cases hconstant

/-- The code of a binary operator. -/
theorem run_binary {left right result : Int32} (hcode : binaryCode? op = some code)
    (hresult : Semantics.binary op left right = .ok result) (hleft : m.get .t0 = left.toBitVec)
    (hright : m.get .t1 = right.toBitVec) :
    ∃ m', image.run? m code = some m' ∧ m'.get .t0 = result.toBitVec ∧ Scratch m m' := by
  have hdivides : op ∈ [.divide, .modulo] → Word.divides (m.get .t0) (m.get .t1) := by
    intro hop
    rw [hleft, hright, divides_toBitVec]
    exact divides_of_binary hop (constant_of_binary hresult)
  obtain ⟨m', hrun, hword, hscratch⟩ := run_binaryCode image hcode hdivides
  rw [hleft, hright, binaryWord_eq hresult] at hword
  exact ⟨m', hrun, hword, hscratch⟩

end Generate

end ScalarMips
