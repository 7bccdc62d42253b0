import ScalarMips.Proofs.Machine

/-!
# Running code piece by piece

What a machine does with a part of its code. `At i part` says that the instructions of `part` are
numbered from `i` on, so an instruction of a part can be fetched (`At.fetch?`) and a label of it is
found (`At.symbol?`), provided no name is defined twice.

Instructions that stay in line are run as one block (`At.reaches`): the effect of a block is
computed by `run?` without a look at the code. Only jumps and services are single steps.
-/

namespace ScalarMips

/-! ### Parts of code -/

namespace Code

/-- The number of instructions. -/
def size (code : Code) : Nat :=
  code.instructions.length

/-- The names that code defines. -/
def names (code : Code) : List String :=
  code.filterMap fun
    | .label name => some name
    | .word name _ => some name
    | _ => none

@[simp] theorem instructions_append (first second : Code) :
    instructions (first ++ second) = instructions first ++ instructions second :=
  List.filterMap_append

@[simp] theorem words_append (first second : Code) :
    words (first ++ second) = words first ++ words second :=
  List.filterMap_append

@[simp] theorem names_append (first second : Code) :
    names (first ++ second) = names first ++ names second :=
  List.filterMap_append

@[simp] theorem size_append (first second : Code) :
    size (first ++ second) = size first + size second := by
  simp [size]

@[simp] theorem size_instruction (instruction : Instruction) (code : Code) :
    size (.instruction instruction :: code) = size code + 1 :=
  rfl

@[simp] theorem size_map (block : List Instruction) :
    size (block.map .instruction) = block.length := by
  induction block with
  | nil => rfl
  | cons instruction block ih => exact congrArg (· + 1) ih

theorem names_definitions : ∀ (code : Code) (i k : Nat),
    (definitions code i k).map Prod.fst = names code
  | [], _, _ => rfl
  | .label name :: code, i, k => congrArg (name :: ·) (names_definitions code i k)
  | .word name _ :: code, i, k => congrArg (name :: ·) (names_definitions code i (k + 1))
  | .instruction _ :: code, i, k => names_definitions code (i + 1) k
  | .directive _ :: code, i, k => names_definitions code i k
  | .comment _ :: code, i, k => names_definitions code i k
  | .blank :: code, i, k => names_definitions code i k

theorem definitions_append : ∀ (first second : Code) (i k : Nat),
    definitions (first ++ second) i k =
      definitions first i k ++ definitions second (i + size first) (k + (words first).length)
  | [], _, _, _ => rfl
  | .label name :: first, second, i, k =>
    congrArg ((name, Place.text i) :: ·) (definitions_append first second i k)
  | .word name value :: first, second, i, k => by
    have hrest := definitions_append first second i (k + 1)
    have hcount : (words (.word name value :: first)).length = (words first).length + 1 := rfl
    rw [hcount, Nat.add_comm _ 1, ← Nat.add_assoc]
    exact congrArg ((name, Place.data k) :: ·) hrest
  | .instruction instruction :: first, second, i, k => by
    have hrest := definitions_append first second (i + 1) k
    rw [size_instruction, Nat.add_comm _ 1, ← Nat.add_assoc]
    exact hrest
  | .directive _ :: first, second, i, k => definitions_append first second i k
  | .comment _ :: first, second, i, k => definitions_append first second i k
  | .blank :: first, second, i, k => definitions_append first second i k

theorem mem_definitions_of_word {name : String} {value : Int32} : ∀ (code : Code) (i k : Nat)
    {j : Nat}, (words code)[j]? = some (name, value) →
      (name, Place.data (k + j)) ∈ definitions code i k
  | [], _, _, _, h => absurd h nofun
  | .label _ :: code, i, k, _, h => List.mem_cons_of_mem _ (mem_definitions_of_word code i k h)
  | .word _ _ :: code, i, k, 0, h => by
    cases h
    exact List.mem_cons_self
  | .word _ _ :: code, i, k, j + 1, h => by
    have hrest := mem_definitions_of_word (j := j) code i (k + 1) h
    rw [Nat.add_assoc, Nat.add_comm 1] at hrest
    exact List.mem_cons_of_mem _ hrest
  | .instruction _ :: code, i, k, _, h => mem_definitions_of_word code (i + 1) k h
  | .directive _ :: code, i, k, _, h => mem_definitions_of_word code i k h
  | .comment _ :: code, i, k, _, h => mem_definitions_of_word code i k h
  | .blank :: code, i, k, _, h => mem_definitions_of_word code i k h

end Code

namespace Image

variable {image : Image}

/-- The code has a part whose instructions are numbered from `i` on. -/
def At (image : Image) (i : Nat) (part : Code) : Prop :=
  ∃ before after, image.code = before ++ part ++ after ∧ Code.size before = i

theorem At.left {i : Nat} {first second : Code} (h : image.At i (first ++ second)) :
    image.At i first := by
  obtain ⟨before, after, hcode, hsize⟩ := h
  exact ⟨before, second ++ after, by rw [hcode]; simp only [List.append_assoc], hsize⟩

theorem At.right {i : Nat} {first second : Code} (h : image.At i (first ++ second)) :
    image.At (i + Code.size first) second := by
  obtain ⟨before, after, hcode, hsize⟩ := h
  refine ⟨before ++ first, after, by rw [hcode]; simp only [List.append_assoc], ?_⟩
  rw [Code.size_append, hsize]

/-! ### Fetching -/

theorem At.fetch? {i : Nat} {instruction : Instruction} {rest : Code}
    (h : image.At i (.instruction instruction :: rest)) : image.fetch? i = some instruction := by
  obtain ⟨before, after, hcode, hsize⟩ := h
  have hlength : (Code.instructions before).length = i := hsize
  have hinstructions : Code.instructions (.instruction instruction :: rest) =
      instruction :: Code.instructions rest := rfl
  rw [Image.fetch?, hcode, Code.instructions_append, Code.instructions_append, hinstructions,
    List.append_assoc, List.getElem?_append_right (by omega), hlength, Nat.sub_self]
  rfl

theorem At.lt_size {i : Nat} {instruction : Instruction} {rest : Code}
    (h : image.At i (.instruction instruction :: rest)) :
    i < image.code.instructions.length :=
  (List.getElem?_eq_some_iff.1 h.fetch?).1

theorem At.lt_of_block {i : Nat} {block : List Instruction}
    (h : image.At i (block.map .instruction)) (hblock : block ≠ []) :
    i < image.code.instructions.length := by
  cases block with
  | nil => exact absurd rfl hblock
  | cons => exact h.lt_size

/-! ### Names -/

theorem filter_eq_singleton {name : String} {place : Place} :
    ∀ {definitions : List (String × Place)}, (definitions.map Prod.fst).Nodup →
      (name, place) ∈ definitions →
        definitions.filter (fun d ↦ d.1 = name) = [(name, place)]
  | [], _, h => absurd h List.not_mem_nil
  | d :: definitions, hnodup, h => by
    obtain ⟨hfirst, hrest⟩ := List.nodup_cons.1 hnodup
    rcases List.mem_cons.1 h with rfl | h
    · have hnone : definitions.filter (fun d ↦ d.1 = name) = [] := by
        refine List.filter_eq_nil_iff.2 fun d hd hname ↦ hfirst ?_
        exact List.mem_map.2 ⟨d, hd, of_decide_eq_true hname⟩
      rw [List.filter_cons_of_pos (by simp), hnone]
    · have hne : d.1 ≠ name := fun heq ↦ hfirst (heq ▸ List.mem_map.2 ⟨_, h, rfl⟩)
      rw [List.filter_cons_of_neg (by simpa using hne)]
      exact filter_eq_singleton hrest h

theorem symbol?_of_mem (hnames : (Code.names image.code).Nodup) {name : String} {place : Place}
    (h : (name, place) ∈ Code.definitions image.code 0 0) : image.symbol? name = some place := by
  rw [symbol?, filter_eq_singleton (by rwa [Code.names_definitions]) h]

/-- A label of the code stands for the instruction after it. -/
theorem At.symbol? (hnames : (Code.names image.code).Nodup) {i : Nat} {name : String} {rest : Code}
    (h : image.At i (.label name :: rest)) : image.symbol? name = some (.text i) := by
  obtain ⟨before, after, hcode, hsize⟩ := h
  refine symbol?_of_mem hnames ?_
  rw [hcode, Code.definitions_append, Code.definitions_append, Nat.zero_add, hsize]
  exact List.mem_append_left _ (List.mem_append_right _ List.mem_cons_self)

/-- A word of data in the code is found under its name. -/
theorem symbol?_word (hnames : (Code.names image.code).Nodup) {k : Nat} {name : String}
    {value : Int32} (h : image.code.words[k]? = some (name, value)) :
    image.symbol? name = some (.data k) := by
  have hmem := Code.mem_definitions_of_word image.code 0 0 h
  rw [Nat.zero_add] at hmem
  exact symbol?_of_mem hnames hmem

/-! ### Runs -/

theorem Reaches.trans {c c' c'' : Config} (h : image.Reaches c c') (h' : image.Reaches c' c'') :
    image.Reaches c c'' := by
  induction h with
  | refl => exact h'
  | step hstep _ ih => exact .step hstep (ih h')

theorem Reaches.one {c c' : Config} (h : image.step c = .running c') : image.Reaches c c' :=
  .step h (.refl c')

theorem Exits.of_reaches {c c' : Config} {output : String} (h : image.Reaches c c')
    (h' : image.Exits c' output) : image.Exits c output := by
  obtain ⟨last, hreaches, hexit, houtput⟩ := h'
  exact ⟨last, h.trans hreaches, hexit, houtput⟩

/-- A single step, once the instruction is known. -/
theorem At.step_eq {i : Nat} {instruction : Instruction} {rest : Code} {m : Machine}
    (h : image.At i (.instruction instruction :: rest)) :
    image.step ⟨i, m⟩ = image.perform m i instruction := by
  rw [step, h.fetch?]

/-- The effect of instructions that stay in line. -/
def run? (image : Image) (m : Machine) (block : List Instruction) : Option Machine :=
  block.foldlM image.effect? m

theorem run?_cons {m m' : Machine} {instruction : Instruction} {block : List Instruction}
    (h : image.effect? m instruction = some m') :
    image.run? m (instruction :: block) = image.run? m' block := by
  rw [run?, List.foldlM_cons, h]
  rfl

theorem run?_append {m m' : Machine} {first second : List Instruction}
    (h : image.run? m first = some m') : image.run? m (first ++ second) = image.run? m' second := by
  unfold run? at h ⊢
  rw [List.foldlM_append, h]
  rfl

/-- An instruction with an effect goes on to the next one. -/
theorem perform_of_effect? {m m' : Machine} {i : Nat} {instruction : Instruction}
    (h : image.effect? m instruction = some m') :
    image.perform m i instruction = .running ⟨i + 1, m'⟩ := by
  cases instruction with
  | beq => cases h
  | j => cases h
  | jal => cases h
  | jr => cases h
  | syscall => cases h
  | _ => rw [perform, h] <;> nofun

/-- A block of code is run from its first instruction to the one after it. -/
theorem At.reaches {block : List Instruction} {i : Nat} {m m' : Machine}
    (h : image.At i (block.map .instruction)) (hrun : image.run? m block = some m') :
    image.Reaches ⟨i, m⟩ ⟨i + block.length, m'⟩ := by
  induction block generalizing i m with
  | nil =>
    obtain rfl : m = m' := Option.some.inj hrun
    exact .refl _
  | cons instruction block ih =>
    obtain ⟨m₁, heffect, hrest⟩ : ∃ m₁, image.effect? m instruction = some m₁ ∧
        image.run? m₁ block = some m' := Option.bind_eq_some_iff.1 hrun
    have hstep : image.step ⟨i, m⟩ = .running ⟨i + 1, m₁⟩ :=
      h.step_eq.trans (perform_of_effect? heffect)
    have htail := ih (@At.right image i [.instruction instruction] _ h) hrest
    rw [List.length_cons, Nat.add_comm block.length, ← Nat.add_assoc]
    exact .step hstep htail

/-! ### Jumps -/

theorem jump_eq {m : Machine} {name : String} {j : Nat} (h : image.symbol? name = some (.text j)) :
    image.jump m name = .running ⟨j, m⟩ := by
  rw [jump, h]

/-- An element of a range is found by a value that no other element has. -/
theorem find?_range {α : Type} [DecidableEq α] {f : Nat → α} {n i : Nat} (hi : i < n)
    (hf : ∀ j, j < n → f j = f i → j = i) :
    (List.range n).find? (fun j ↦ f j = f i) = some i := by
  have hsome : (List.range n).find? (fun j ↦ f j = f i) ≠ none := fun hnone ↦
    List.find?_eq_none.1 hnone i (List.mem_range.2 hi) (decide_eq_true rfl)
  obtain ⟨j, hj⟩ := Option.ne_none_iff_exists'.1 hsome
  have heq : f j = f i := by simpa using List.find?_some hj
  rw [hj, hf j (List.mem_range.1 (List.mem_of_find?_eq_some hj)) heq]

/-- The instruction at the address of an instruction is that instruction. -/
theorem Fits.index? {stack : Stack} (h : image.Fits stack) {i : Nat}
    (hi : i < image.code.instructions.length) : image.index? (image.address (.text i)) = some i :=
  find?_range hi fun j hj heq ↦ h.text j i hj hi heq

/-- There are not more instructions than addresses. -/
theorem Fits.size_le {stack : Stack} (h : image.Fits stack) : Code.size image.code ≤ 2 ^ 32 := by
  have hinjective : Function.Injective
      fun i : Fin (Code.size image.code) ↦ (image.address (.text i)).toFin := by
    intro i j hij
    exact Fin.ext (h.text i j i.isLt j.isLt (BitVec.eq_of_toFin_eq hij))
  simpa using Fintype.card_le_of_injective _ hinjective

end Image

/-! ### The stack -/

namespace Stack

variable {stack : Stack}

theorem toBitVec_words (n : Nat) : (UInt32.ofNat n * 4).toBitVec = BitVec.ofNat 32 (4 * n) := by
  rw [UInt32.toBitVec_mul, Nat.mul_comm, BitVec.ofNat_mul]
  rfl

/-- Words are added below. -/
theorem slot_sub (stack : Stack) (k n : Nat) :
    stack.slot k - BitVec.ofNat 32 (4 * n) = stack.slot (k + n) := by
  unfold slot
  rw [Nat.mul_add, BitVec.ofNat_add]
  exact BitVec.sub_sub ..

/-- Words are taken off above. -/
theorem slot_add (stack : Stack) (k n : Nat) :
    stack.slot (k + n) + BitVec.ofNat 32 (4 * n) = stack.slot k := by
  rw [← slot_sub]
  exact BitVec.sub_add_cancel ..

end Stack

namespace Image.Fits

variable {image : Image} {stack : Stack}

theorem aligned_slot (h : image.Fits stack) (k : Nat) :
    aligned? (stack.slot k) = some (stack.slot k) := by
  refine if_pos ?_
  have htop := h.aligned_stack
  rw [Stack.slot, BitVec.toNat_sub, BitVec.toNat_ofNat]
  omega

/-- Words of the stack are at different addresses. -/
theorem slot_inj (h : image.Fits stack) {j k : Nat} (hj : 1 ≤ j ∧ j ≤ stack.room)
    (hk : 1 ≤ k ∧ k ≤ stack.room) (heq : stack.slot j = stack.slot k) : j = k := by
  have hroom := h.room
  have heq := congrArg BitVec.toNat heq
  simp only [Stack.slot, BitVec.toNat_sub, BitVec.toNat_ofNat] at heq
  omega

end Image.Fits

end ScalarMips
