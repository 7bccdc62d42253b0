import ScalarMips.Proofs.Placement

/-!
# Slots of a frame

Where the variables of a running function are, said in bytes. The frame pointer stands at the saved
frame pointer of the caller, with the return address in the word above it; the parameters are above
the two, and the local variables are below, in the region that the prologue takes from the stack.
Two slots have no byte in common (`Context.LaysOut`), and the prologue writes nothing but the two
saved registers (`Context.Opens`).

Addresses wrap around, so this needs a bound: the variables and the two registers together must not
be longer than the memory.
-/

namespace ScalarMips

/-! ### Bytes -/

namespace Word

/-- The bytes from an address on. Addresses wrap around. -/
def region (start : Word) (size : ℕ) : Set Word :=
  {p | (p - start).toNat < size}

/-- The bytes of the word at an address. -/
def bytes (p : Word) : Set Word :=
  region p 4

end Word

namespace Stack

variable (stack : Stack) {j k n : ℕ}

/-- Different words of a stack that fits into memory have no byte in common. -/
theorem disjoint_bytes (hn : 4 * n ≤ 2 ^ 32) (hj : 1 ≤ j ∧ j ≤ n) (hk : 1 ≤ k ∧ k ≤ n)
    (hne : j ≠ k) : Disjoint (Word.bytes (stack.slot j)) (Word.bytes (stack.slot k)) := by
  refine Set.disjoint_left.2 fun p hpj hpk ↦ ?_
  simp only [Word.bytes, Word.region, Set.mem_ofPred_eq, slot, BitVec.toNat_sub, BitVec.toNat_ofNat]
    at hpj hpk
  have htop := stack.top.isLt
  have hp := p.isLt
  omega

/-- The words of a stack behind its first `j` words are inside the region of their size. -/
theorem bytes_subset_region (hj : j < k) (hk : k ≤ j + n) :
    Word.bytes (stack.slot k) ⊆ Word.region (stack.slot (j + n)) (4 * n) := by
  intro p hp
  simp only [Word.bytes, Word.region, Set.mem_ofPred_eq, slot, BitVec.toNat_sub, BitVec.toNat_ofNat]
    at hp ⊢
  have htop := stack.top.isLt
  have hp := p.isLt
  omega

end Stack

namespace Generate

variable {table : SymbolTable} {f : FunctionDecl} {annotate : Bool}

/-! ### The size of a frame -/

/-- The number of words for the variables of a function. -/
theorem length_vars (hbody : Stmt.AllGrammatical f.body) (wordSize : UInt32) :
    (SymbolTable.mk wordSize (Layout.frameSymbols f)).vars.length =
      (Stmt.variablesAll f.body).length := by
  obtain ⟨hvariables, hnames⟩ := Layout.declaredAll_spec f.body hbody
  have hparameters : (Layout.parameterSymbols 0 f.parameters).filter Symbol.isVar = [] :=
    Layout.vars_parameterSymbols f.parameters 0
  have hlocals : (Layout.localSymbols 0 (Layout.declaredAll f.body)).filter Symbol.isVar =
      Layout.localSymbols 0 (Layout.declaredAll f.body) := by
    refine List.filter_eq_self.2 fun s hs ↦ ?_
    obtain ⟨name, type, offset, rfl⟩ := Layout.mem_localSymbols _ _ hs
    rfl
  have hlength := congrArg List.length (Layout.names_localSymbols _ 0 hvariables)
  rw [List.length_map, List.length_map] at hlength
  rw [SymbolTable.vars, Layout.frameSymbols, List.filter_append, hparameters, hlocals,
    List.nil_append, hlength, ← hnames, List.length_map]

theorem toBitVec_localSize (hword : table.wordSize = 4) (hbody : Stmt.AllGrammatical f.body) :
    (Context.ofFunction table f annotate).locals.localSize.toBitVec =
      BitVec.ofNat 32 (4 * (Stmt.variablesAll f.body).length) := by
  have hsize : (Context.ofFunction table f annotate).locals.localSize =
      UInt32.ofNat (Stmt.variablesAll f.body).length * 4 := by
    rw [← length_vars hbody table.wordSize, ← hword]
    rfl
  rw [hsize, Stack.toBitVec_words]

theorem toNat_localSize (hword : table.wordSize = 4) (hbody : Stmt.AllGrammatical f.body)
    (hlt : 4 * (Stmt.variablesAll f.body).length < 2 ^ 32) :
    (Context.ofFunction table f annotate).locals.localSize.toNat =
      4 * (Stmt.variablesAll f.body).length := by
  have hsize : (Context.ofFunction table f annotate).locals.localSize.toBitVec = _ :=
    toBitVec_localSize hword hbody
  have hnat := congrArg BitVec.toNat hsize
  rwa [BitVec.toNat_ofNat, Nat.mod_eq_of_lt hlt] at hnat

/-! ### Layout -/

namespace Context

/-- The frame of a function, with its frame pointer at `fp`, has a word for every variable, and they
are where they should be. -/
structure LaysOut (c : Context) (f : FunctionDecl) (fp : Word) : Prop where
  /-- Every parameter and local variable has a slot. -/
  slot : ∀ name ∈ f.variables, ∃ p, c.slot? fp name = some p
  /-- Its operand in the code stands for the slot. -/
  operand : ∀ (image : Image) (m : Machine), m.get .fp = fp →
    ∀ name ∈ f.variables, ∀ p ∈ c.slot? fp name,
      ∃ address, c.address? name = some address ∧ image.locate? m address = Image.aligned? p
  /-- Slots do not overlap. -/
  apart : f.variables.Pairwise fun name other ↦ ∀ p ∈ c.slot? fp name, ∀ q ∈ c.slot? fp other,
    Disjoint (Word.bytes p) (Word.bytes q)
  /-- Local variables are in the region below the frame pointer. -/
  reserved : ∀ name ∈ Stmt.variablesAll f.body, ∀ p ∈ c.slot? fp name,
    Word.bytes p ⊆
      Word.region (fp - c.locals.localSize.toBitVec) c.locals.localSize.toNat
  /-- No slot overlaps the saved frame pointer or the return address. -/
  saved : ∀ name ∈ f.variables, ∀ p ∈ c.slot? fp name,
    Disjoint (Word.bytes p) (Word.bytes fp) ∧ Disjoint (Word.bytes p) (Word.bytes (fp + 4))

/-- The words of a frame as those of a stack that starts with the last parameter. -/
def frameStack (f : FunctionDecl) (fp : Word) : Stack :=
  ⟨fp + BitVec.ofNat 32 (4 * (f.parameters.length + 2)),
    Semantics.bodyDepth f f.parameters.length⟩

theorem slot_frameStack (f : FunctionDecl) (fp : Word) :
    (frameStack f fp).slot (f.parameters.length + 2) = fp :=
  BitVec.add_sub_cancel _ _

/-- The slot of every variable is a cell of its frame. -/
theorem exists_cell (hword : table.wordSize = 4) (hbody : Stmt.AllGrammatical f.body)
    (hnodup : f.variables.Nodup) (fp : Word) {name : String} (hname : name ∈ f.variables) :
    ∃ k, Cell f f.parameters.length name k ∧
      (ofFunction table f annotate).slot? fp name = some ((frameStack f fp).slot k) := by
  obtain ⟨k, hcell⟩ := Cell.exists_of_mem hname (Nat.le_refl f.parameters.length)
  have hslot : (ofFunction table f annotate).slot?
      ((frameStack f fp).slot (f.parameters.length + 2)) name = _ :=
    slot?_cell hword hbody hnodup hcell
  rw [slot_frameStack] at hslot
  exact ⟨k, hcell, hslot⟩

/-- A frame that is not longer than the memory is laid out as it should be. -/
theorem laysOut_ofFunction (hword : table.wordSize = 4) (hbody : Stmt.AllGrammatical f.body)
    (hnodup : f.variables.Nodup) (hsize : 4 * f.variables.length + 8 ≤ 2 ^ 32) (fp : Word) :
    (ofFunction table f annotate).LaysOut f fp := by
  have hcell : ∀ name ∈ f.variables, ∃ k, Cell f f.parameters.length name k ∧
      (ofFunction table f annotate).slot? fp name = some ((frameStack f fp).slot k) :=
    fun name hname ↦ exists_cell hword hbody hnodup fp hname
  have hlength : f.variables.length = f.parameters.length + (Stmt.variablesAll f.body).length := by
    rw [FunctionDecl.variables, List.length_append, List.length_map]
  have hroom : 4 * Semantics.bodyDepth f f.parameters.length ≤ 2 ^ 32 := by
    unfold Semantics.bodyDepth
    omega
  have hbounds : ∀ {name k}, Cell f f.parameters.length name k →
      1 ≤ k ∧ k ≤ Semantics.bodyDepth f f.parameters.length := fun hcell ↦
    ⟨(hcell.bounds (Nat.le_refl _)).1, (hcell.bounds (Nat.le_refl _)).2.1⟩
  have hregion : (ofFunction table f annotate).locals.localSize.toNat =
      4 * (Stmt.variablesAll f.body).length := toNat_localSize hword hbody (by omega)
  have hfp := slot_frameStack f fp
  have hlowest : fp - (ofFunction table f annotate).locals.localSize.toBitVec =
      (frameStack f fp).slot (f.parameters.length + 2 + (Stmt.variablesAll f.body).length) := by
    rw [toBitVec_localSize hword hbody, ← Stack.slot_sub, hfp]
  have hra : (frameStack f fp).slot (f.parameters.length + 1) = fp + 4 := by
    rw [← (frameStack f fp).slot_add _ 1, hfp]
    rfl
  refine ⟨fun name hname ↦ ?_, fun image m hm name _ p hp ↦ ?_, ?_, fun name hname p hp ↦ ?_,
    fun name hname p hp ↦ ?_⟩
  · obtain ⟨k, -, hslot⟩ := hcell name hname
    exact ⟨_, hslot⟩
  · exact locate?_of_slot? image (hm ▸ hp)
  · refine hnodup.imp_of_mem fun {name other} hname hother hne p hp q hq ↦ ?_
    obtain ⟨j, hj, hslot⟩ := hcell name hname
    obtain ⟨k, hk, hslot'⟩ := hcell other hother
    obtain rfl := Option.some.inj (hslot.symm.trans hp)
    obtain rfl := Option.some.inj (hslot'.symm.trans hq)
    exact (frameStack f fp).disjoint_bytes hroom (hbounds hj) (hbounds hk)
      fun heq ↦ hne (hj.eq_of_cell (heq ▸ hk))
  · obtain ⟨i, hi⟩ := List.getElem?_of_mem hname
    have hlt := (List.getElem?_eq_some_iff.1 hi).1
    have hslot : (ofFunction table f annotate).slot?
        ((frameStack f fp).slot (f.parameters.length + 2)) name = _ :=
      slot?_cell hword hbody hnodup (.var hi)
    rw [hfp] at hslot
    obtain rfl := Option.some.inj (hslot.symm.trans hp)
    rw [hlowest, hregion]
    exact (frameStack f fp).bytes_subset_region (by omega) (by omega)
  · obtain ⟨k, hk, hslot⟩ := hcell name hname
    obtain rfl := Option.some.inj (hslot.symm.trans hp)
    obtain ⟨-, -, -, hneRa, hneFp⟩ := hk.bounds (Nat.le_refl _)
    have hdepth : f.parameters.length + 2 ≤ Semantics.bodyDepth f f.parameters.length :=
      Nat.le_add_right _ _
    have hapart : ∀ {j : ℕ} {q : Word}, (frameStack f fp).slot j = q → 1 ≤ j →
        j ≤ f.parameters.length + 2 → k ≠ j →
          Disjoint (Word.bytes ((frameStack f fp).slot k)) (Word.bytes q) := by
      rintro j q rfl hj hle hne
      exact (frameStack f fp).disjoint_bytes hroom (hbounds hk) ⟨hj, Nat.le_trans hle hdepth⟩ hne
    exact ⟨hapart hfp (by omega) (Nat.le_refl _) hneFp, hapart hra (by omega) (by omega) hneRa⟩

end Context

/-! ### The prologue -/

/-- What the prologue of a function makes of a machine. -/
structure Context.Opens (c : Context) (m m' : Machine) : Prop where
  /-- The frame pointer is below the two saved registers. -/
  fp : m'.get .fp = m.get .sp - 8
  /-- The stack pointer is below the local variables. -/
  sp : m'.get .sp = m'.get .fp - c.locals.localSize.toBitVec
  /-- The frame pointer of the caller is saved. -/
  savedFp : m'.memory (m'.get .fp) = m.get .fp
  /-- The return address is saved. -/
  savedRa : m'.memory (m'.get .fp + 4) = m.get .ra
  /-- Nothing else is written. -/
  kept : ∀ p, p ≠ m'.get .fp → p ≠ m'.get .fp + 4 → m'.memory p = m.memory p

/-- The room for the local variables of a function is made. No instruction is needed if their size
is zero, which it also is if it wraps around. -/
theorem run?_reserve (image : Image) (c : Context) (m : Machine) :
    image.run? m (if c.locals.localSize = 0 then [] else
      [.immediate .subu .sp .sp c.locals.localSize]) =
        some (m.set .sp (m.get .sp - c.locals.localSize.toBitVec)) := by
  split
  · rename_i hzero
    have hnone : m.get .sp - (0 : UInt32).toBitVec = m.get .sp := BitVec.sub_zero _
    have hsame : m.set .sp (m.get .sp) = m := m.set_get nofun
    rw [hzero, hnone, hsame]
    rfl
  · rfl

/-- The registers of the caller are saved, and room for the local variables is made. -/
theorem run?_prologue (image : Image) {c : Context} {m : Machine} {fp ra : Word}
    (hfp : m.get .sp - c.savedSize.toBitVec = fp) (hra : fp + c.wordSize.toBitVec = ra)
    (haligned : Image.aligned? fp = some fp) (haligned' : Image.aligned? ra = some ra) :
    image.run? m (prologue c) =
      some (((((m.set .sp fp).store ra (m.get .ra)).store fp (m.get .fp)).set .fp fp).set .sp
        (fp - c.locals.localSize.toBitVec)) := by
  let moved := m.set .sp fp
  let first := moved.store ra (m.get .ra)
  let second := first.store fp (m.get .fp)
  have hmove : image.effect? m (.immediate .subu .sp .sp c.savedSize) = some moved := by
    rw [Image.effect?, ImmediateOp.compute, hfp]
  have hsaveRa : image.effect? moved (.sw .ra (.above c.wordSize .sp)) = some first := by
    rw [Image.effect?, Image.locate?, m.get_set_self .sp _ (by decide), hra, haligned']
    rfl
  have hsaveFp : image.effect? first (.sw .fp (.above 0 .sp)) = some second := by
    have htop : first.get .sp + (0 : UInt32).toBitVec = fp := BitVec.add_zero fp
    rw [Image.effect?, Image.locate?, htop, haligned]
    rfl
  rw [prologue, List.cons_append, Image.run?_cons hmove, List.cons_append,
    Image.run?_cons hsaveRa, List.cons_append, Image.run?_cons hsaveFp]
  exact (Image.run?_cons rfl).trans (run?_reserve image c (second.set .fp fp))

/-- The prologue of a function opens its frame on every stack that is aligned. -/
theorem opens_prologue (image : Image) {c : Context} (hword : c.wordSize = 4) {m : Machine}
    (haligned : (m.get .sp).toNat % 4 = 0) :
    ∃ m', image.run? m (prologue c) = some m' ∧ c.Opens m m' := by
  have hsaved : c.savedSize = 8 := by
    show UInt32.ofNat 2 * c.wordSize = 8
    rw [hword]
    rfl
  have height : (8 : Word).toNat = 8 := rfl
  have hfour : (4 : Word).toNat = 4 := rfl
  have hfp : Image.aligned? (m.get .sp - 8) = some (m.get .sp - 8) := by
    refine if_pos ?_
    rw [BitVec.toNat_sub, height]
    omega
  have hra : Image.aligned? (m.get .sp - 8 + 4) = some (m.get .sp - 8 + 4) := by
    refine if_pos ?_
    rw [BitVec.toNat_add, BitVec.toNat_sub, height, hfour]
    omega
  have hne : m.get .sp - 8 + 4 ≠ m.get .sp - 8 := by bv_omega
  have hrun := run?_prologue image (c := c) (by rw [hsaved]; rfl) (by rw [hword]; rfl) hfp hra
  refine ⟨_, hrun, rfl, rfl, if_pos rfl, ?_, fun p hp hp' ↦ ?_⟩
  · exact (Machine.memory_store_of_ne _ _ _ hne).trans (Machine.memory_store_self _ _ _)
  · exact (Machine.memory_store_of_ne _ _ _ hp).trans (Machine.memory_store_of_ne _ _ _ hp')

end Generate

end ScalarMips
