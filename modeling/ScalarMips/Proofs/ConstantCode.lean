import ScalarMips.Proofs.Preservation

/-!
# Constants and code agree

A constant expression has two evaluators: its value can be computed from the global table
(`Constant.fold`), and its code can be run. They are written differently for almost every operator,
and where both are defined they agree (`fold_executes`): the code of an expression whose value is
known leaves that value on the stack.

Negation and the two connectives compute with the lowest bit in code and with whole words in
advance. They agree because a well-typed expression combines nothing but zero and one, which in turn
needs global variables that start with such a value (`SymbolTable.Truthful`).

The table need not be that of a program, and its words may be wider than four bytes. `Workspace` is
the part of memory into which the stack can grow.
-/

namespace ScalarMips

open Generate

/-! ### Tables -/

namespace SymbolTable

/-- What the variables of a table stand for. -/
def env (t : SymbolTable) : Env := fun name ↦
  match t.find? name with
  | some (.var _ type _ _) => some (.var type)
  | _ => none

/-- Every truth value of a table starts as zero or one, if its initial value is known. -/
def Truthful (t : SymbolTable) : Prop :=
  ∀ s ∈ t.vars, s.type = .bool → s.initial? ∈ [none, some 0, some 1]

instance (t : SymbolTable) : Decidable t.Truthful :=
  inferInstanceAs (Decidable (∀ s ∈ t.vars, s.type = .bool → s.initial? ∈ [none, some 0, some 1]))

variable {t : SymbolTable} {name : String} {type : ScalarType}

theorem find?_of_env (h : t.env name = some (.var type)) :
    ∃ offset initial, t.find? name = some (.var name type offset initial) := by
  unfold env at h
  split at h
  · rename_i found _ offset initial hfind
    cases h
    have hname := List.find?_some (p := fun s : Symbol ↦ s.name = name) hfind
    obtain rfl : found = name := of_decide_eq_true hname
    exact ⟨offset, initial, hfind⟩
  · cases h

/-- A variable of a table has a word of data. -/
theorem mem_words {offset : UInt32} {initial : Option Int32}
    (h : t.find? name = some (.var name type offset initial)) :
    (name, initial.getD 0) ∈ Code.words (dataSection t) := by
  have hmem : Symbol.var name type offset initial ∈ t.vars :=
    List.mem_filter.2 ⟨List.mem_of_find?_eq_some h, rfl⟩
  exact List.mem_filterMap.2 ⟨_, List.mem_cons_of_mem _ (List.mem_map_of_mem hmem), rfl⟩

theorem Truthful.initialized (h : t.Truthful) : Semantics.Initialized t.env t.symbols := by
  intro name type hname
  obtain ⟨offset, initial, hfind⟩ := find?_of_env hname
  refine ⟨offset, initial, hfind, fun htype ↦ ?_⟩
  have hmem : Symbol.var name type offset initial ∈ t.vars :=
    List.mem_filter.2 ⟨List.mem_of_find?_eq_some hfind, rfl⟩
  have hinitial : initial ∈ [none, some 0, some 1] := h _ hmem htype
  simp only [List.mem_cons, List.not_mem_nil, or_false] at hinitial
  rcases hinitial with rfl | rfl | rfl <;> rfl

end SymbolTable

/-! ### Operators with a value -/

namespace Semantics

/-- Where an operator is safe, the value known in advance is its meaning. -/
theorem Safe.unary_eq_ok {op : Operator} {x v : Int32} {post : Int32 → Prop}
    (h : Safe (unary op x) post) (hv : Constant.unary op x = some v) : unary op x = .ok v := by
  unfold unary at h ⊢
  split at h
  · exact absurd rfl h
  · rename_i htruth
    rw [if_neg htruth, hv]

theorem Safe.binary_eq_ok {op : Operator} {x y v : Int32} {post : Int32 → Prop}
    (h : Safe (binary op x y) post) (hv : Constant.binary op x y = some v) :
    binary op x y = .ok v := by
  unfold binary at h ⊢
  split at h
  · exact absurd rfl h
  · rename_i htruth
    rw [if_neg htruth, hv]

variable {Γ : Env} {table : SymbolTable} {span : Span} {op : Operator} {type : ScalarType}

theorem unary_of_fold (h : Initialized Γ table.symbols) {operand : Expr}
    (he : HasType Γ (.unary span op operand) type) {x v : Int32}
    (hx : Constant.fold table operand = some x) (hv : Constant.unary op x = some v) :
    unary op x = .ok v := by
  cases he with
  | sign hop _ => exact (safe_sign hop x).unary_eq_ok hv
  | negation hoperand => exact (safe_negation (ofType_fold h hoperand hx)).unary_eq_ok hv

theorem binary_of_fold (h : Initialized Γ table.symbols) {left right : Expr}
    (he : HasType Γ (.binary span op left right) type) {x y v : Int32}
    (hx : Constant.fold table left = some x) (hy : Constant.fold table right = some y)
    (hv : Constant.binary op x y = some v) : binary op x y = .ok v := by
  cases he with
  | arithmetic hop _ _ => exact (safe_arithmetic hop x y).binary_eq_ok hv
  | comparison hop _ _ =>
    exact (safe_comparison (List.mem_append_left _ hop) x y).binary_eq_ok hv
  | equality hop _ _ =>
    exact (safe_comparison (List.mem_append_right _ hop) x y).binary_eq_ok hv
  | logic hop hl hr =>
    exact (safe_logic hop (ofType_fold h hl hx) (ofType_fold h hr hy)).binary_eq_ok hv

end Semantics

/-! ### Room on the stack -/

/-- The most words that are on the stack at a time while an expression without calls is evaluated,
its value included. -/
def Expr.stackWords : Expr → Nat
  | .literal .. | .var .. | .call .. => 1
  | .unary _ _ operand => operand.stackWords
  | .binary _ _ left right => max left.stackWords (right.stackWords + 1)

/-- The memory below the stack pointer: words of some width, all of them aligned and above address
zero. -/
structure Workspace where
  /-- The stack pointer. -/
  base : Word
  /-- The size of a word in bytes. -/
  width : UInt32
  /-- The number of words. -/
  room : Nat
  /-- The stack pointer is aligned. -/
  aligned : base.toNat % 4 = 0
  /-- Words of the stack are not empty. -/
  width_pos : 0 < width.toNat
  /-- Words of the stack are aligned. -/
  width_aligned : width.toNat % 4 = 0
  /-- The words are below the stack pointer. -/
  fits : width.toNat * room ≤ base.toNat

namespace Workspace

variable (space : Workspace) {j k d : Nat}

/-- The stack pointer after `k` pushes. -/
def slot (k : Nat) : Word :=
  space.base - BitVec.ofNat 32 (space.width.toNat * k)

theorem slot_zero : space.slot 0 = space.base := by
  simp [slot]

theorem slot_sub (k : Nat) : space.slot k - space.width.toBitVec = space.slot (k + 1) := by
  have hwidth : space.width.toBitVec = BitVec.ofNat 32 space.width.toNat := by simp
  unfold slot
  rw [Nat.mul_succ, BitVec.ofNat_add, ← hwidth]
  exact BitVec.sub_sub ..

theorem slot_add (k : Nat) : space.slot (k + 1) + space.width.toBitVec = space.slot k := by
  rw [← slot_sub]
  exact BitVec.sub_add_cancel ..

theorem mul_le (hk : k ≤ space.room) : space.width.toNat * k ≤ space.base.toNat :=
  Nat.le_trans (Nat.mul_le_mul_left _ hk) space.fits

theorem toNat_slot (hk : k ≤ space.room) :
    (space.slot k).toNat = space.base.toNat - space.width.toNat * k := by
  have hle := space.mul_le hk
  have hlt := space.base.isLt
  have hword : (BitVec.ofNat 32 (space.width.toNat * k)).toNat = space.width.toNat * k := by
    rw [BitVec.toNat_ofNat, Nat.mod_eq_of_lt (by omega)]
  rw [slot, BitVec.toNat_sub_of_le (by rw [BitVec.le_def, hword]; exact hle), hword]

theorem aligned_slot (hk : k ≤ space.room) :
    Image.aligned? (space.slot k) = some (space.slot k) := by
  have hle := space.mul_le hk
  have hword : space.width.toNat * k % 4 = 0 := by
    rw [Nat.mul_mod, space.width_aligned, Nat.zero_mul, Nat.zero_mod]
  have hbase := space.aligned
  refine if_pos ?_
  rw [space.toNat_slot hk]
  omega

/-- A push goes to a lower address. -/
theorem slot_lt (hjk : j < k) (hk : k ≤ space.room) :
    (space.slot k).toNat < (space.slot j).toNat := by
  have hmul : space.width.toNat * j < space.width.toNat * k :=
    Nat.mul_lt_mul_of_pos_left hjk space.width_pos
  have hle := space.mul_le hk
  rw [space.toNat_slot hk, space.toNat_slot (Nat.le_of_lt (Nat.lt_of_lt_of_le hjk hk))]
  omega

theorem slot_ne (hjk : j < k) (hk : k ≤ space.room) : space.slot j ≠ space.slot k := by
  intro heq
  have hlt := space.slot_lt hjk hk
  rw [heq] at hlt
  exact Nat.lt_irrefl _ hlt

/-- An address is none of the words that can be pushed on top of `d` words. -/
def Apart (d : Nat) (p : Word) : Prop :=
  ∀ k, d < k → k ≤ space.room → p ≠ space.slot k

variable {space}

theorem Apart.mono {d' : Nat} {p : Word} (h : space.Apart d p) (hd : d ≤ d') :
    space.Apart d' p :=
  fun k hk ↦ h k (Nat.lt_of_le_of_lt hd hk)

theorem apart_slot (hk : k ≤ d) : space.Apart d (space.slot k) :=
  fun _ hj hroom ↦ space.slot_ne (Nat.lt_of_le_of_lt hk hj) hroom

/-- What is at the stack pointer or above it is not touched by pushes. -/
theorem apart_of_le {p : Word} (h : space.base.toNat ≤ p.toNat) : space.Apart 0 p := by
  intro k hk hroom heq
  have hlt := space.slot_lt hk hroom
  rw [space.slot_zero, ← heq] at hlt
  omega

/-- The words of data have their initial values and do not lie in the workspace. -/
def Holds (space : Workspace) (image : Image) (globals : SymbolTable) (m : Machine) : Prop :=
  ∀ word ∈ Code.words (dataSection globals), ∃ p,
    image.locate? m (.label word.1) = some p ∧ m.memory p = word.2.toBitVec ∧ space.Apart 0 p

/-- With `d` words on the stack a value has been pushed, and nothing else has changed in memory but
words that are not in use. -/
structure Pushed (space : Workspace) (d : Nat) (v : Int32) (m m' : Machine) : Prop where
  /-- The stack pointer is one word lower. -/
  sp : m'.get .sp = space.slot (d + 1)
  /-- The value is on top. -/
  top : m'.memory (space.slot (d + 1)) = v.toBitVec
  /-- The memory that is in use is the same. -/
  kept : ∀ p, space.Apart d p → m'.memory p = m.memory p

variable (image : Image) {c : Context} {m m' m'' : Machine} {v x y : Int32}

variable {image} in
theorem Holds.of_pushed {globals : SymbolTable} (h : space.Holds image globals m)
    (hpushed : space.Pushed d v m m') : space.Holds image globals m' := by
  intro word hword
  obtain ⟨p, hp, hvalue, hapart⟩ := h word hword
  exact ⟨p, hp, (hpushed.kept p (hapart.mono (Nat.zero_le d))).trans hvalue, hapart⟩

/-- A register is pushed. -/
theorem run_push (hwidth : space.width = c.wordSize) (hsp : m.get .sp = space.slot d)
    (hd : d < space.room) {r : Register} (hr : r ≠ .sp) (hvalue : m.get r = v.toBitVec) :
    ∃ m', image.run? m (c.push r) = some m' ∧ space.Pushed d v m m' := by
  have hnext : m.get .sp - c.wordSize.toBitVec = space.slot (d + 1) := by
    rw [hsp, ← hwidth, space.slot_sub]
  refine ⟨_, Generate.run_push image c hr hnext (space.aligned_slot hd), rfl, ?_, fun p hp ↦ ?_⟩
  · rw [← hvalue]
    exact Machine.memory_store_self _ _ _
  · exact Machine.memory_store_of_ne _ _ _ (hp (d + 1) (Nat.lt_succ_self d) hd)

/-- The word on top is popped into a register; the other registers stay as they are. -/
theorem run_pop (hwidth : space.width = c.wordSize) (hsp : m.get .sp = space.slot (d + 1))
    (hd : d < space.room) {r : Register} (hr : r ∉ [Register.zero, .sp]) :
    ∃ m', image.run? m (c.pop r) = some m' ∧ m'.get .sp = space.slot d ∧
      m'.get r = m.memory (space.slot (d + 1)) ∧ m'.memory = m.memory ∧
        ∀ s, s ≠ r → s ≠ .sp → m'.get s = m.get s := by
  simp only [List.mem_cons, List.not_mem_nil, or_false, not_or] at hr
  refine ⟨_, Generate.run_pop image c hr.2 hsp (space.aligned_slot hd) (hwidth ▸ space.slot_add d),
    Machine.get_set_self _ _ _ (by decide), ?_, rfl, fun s hs hs' ↦ ?_⟩
  · rw [Machine.get_set_of_ne _ _ _ hr.2, Machine.get_set_self _ _ _ hr.1]
  · rw [Machine.get_set_of_ne _ _ _ hs', Machine.get_set_of_ne _ _ _ hs]

/-- A value is computed in `$t0` without a change of memory and then pushed. -/
theorem run_then_push (hwidth : space.width = c.wordSize) (hsp : m.get .sp = space.slot d)
    (hd : d < space.room) {code : List Instruction}
    (h : ∃ m', image.run? m code = some m' ∧ m'.get .t0 = v.toBitVec ∧ Scratch m m') :
    ∃ m', image.run? m (code ++ c.push .t0) = some m' ∧ space.Pushed d v m m' := by
  obtain ⟨m₁, hrun, hresult, hscratch⟩ := h
  obtain ⟨m₂, hpush, hpushed⟩ := run_push image hwidth (hscratch.sp.trans hsp) hd
    (r := .t0) nofun hresult
  refine ⟨m₂, (Image.run?_append hrun).trans hpush, hpushed.sp, hpushed.top, fun p hp ↦ ?_⟩
  rw [hpushed.kept p hp, hscratch.memory]

/-- The value on top is replaced by that of a unary operator. -/
theorem Pushed.run_unary (h : space.Pushed d x m m') (hwidth : space.width = c.wordSize)
    (hd : d < space.room) {op : Operator} {code : List Instruction}
    (hcode : unaryCode? op = some code) (hv : Semantics.unary op x = .ok v) :
    ∃ m'', image.run? m' (c.pop .t0 ++ code ++ c.push .t0) = some m'' ∧
      space.Pushed d v m m'' := by
  obtain ⟨m₁, hpop, hsp, hvalue, hmemory, -⟩ :=
    run_pop image hwidth h.sp hd (r := .t0) (by decide)
  obtain ⟨m₂, hrun, hpushed⟩ := run_then_push image (c := c) hwidth hsp hd
    (Generate.run_unary image hcode hv (hvalue.trans h.top))
  refine ⟨m₂, ?_, hpushed.sp, hpushed.top, fun p hp ↦ ?_⟩
  · rw [List.append_assoc, Image.run?_append hpop, hrun]
  · rw [hpushed.kept p hp, hmemory, h.kept p hp]

/-- The two values on top are replaced by that of a binary operator. -/
theorem Pushed.run_binary (h : space.Pushed d x m m') (h' : space.Pushed (d + 1) y m' m'')
    (hwidth : space.width = c.wordSize) (hd : d + 1 < space.room) {op : Operator}
    {code : List Instruction} (hcode : binaryCode? op = some code)
    (hv : Semantics.binary op x y = .ok v) :
    ∃ m₃, image.run? m'' (c.pop .t1 ++ c.pop .t0 ++ code ++ c.push .t0) = some m₃ ∧
      space.Pushed d v m m₃ := by
  have hd' : d < space.room := Nat.lt_of_succ_lt hd
  obtain ⟨m₁, hpop, hsp, hright, hmemory, -⟩ :=
    run_pop image hwidth h'.sp hd (r := .t1) (by decide)
  obtain ⟨m₂, hpop', hsp', hleft, hmemory', hkept⟩ :=
    run_pop image hwidth hsp hd' (r := .t0) (by decide)
  -- The first value is below the second one, which was pushed without touching it.
  have hleft : m₂.get .t0 = x.toBitVec := by
    rw [hleft, hmemory, h'.kept _ (apart_slot (Nat.le_refl _)), h.top]
  have hright : m₂.get .t1 = y.toBitVec := by
    rw [hkept .t1 nofun nofun, hright, h'.top]
  obtain ⟨m₃, hrun, hpushed⟩ := run_then_push image (c := c) hwidth hsp' hd'
    (Generate.run_binary image hcode hv hleft hright)
  refine ⟨m₃, ?_, hpushed.sp, hpushed.top, fun p hp ↦ ?_⟩
  · rw [List.append_assoc, List.append_assoc, Image.run?_append hpop, Image.run?_append hpop', hrun]
  · rw [hpushed.kept p hp, hmemory', hmemory, h'.kept p (hp.mono (Nat.le_succ d)), h.kept p hp]

end Workspace

/-! ### Expressions -/

variable {space : Workspace} {image : Image} {c : Context}

/-- A variable of the global table that no local one hides is read from its word of data. -/
theorem address?_of_env {name : String} {type : ScalarType}
    (hname : c.globals.env name = some (.var type)) (hlocal : c.locals.find? name = none) :
    c.address? name = some (.label name) := by
  obtain ⟨offset, initial, hfind⟩ := SymbolTable.find?_of_env hname
  unfold Context.address?
  rw [hlocal]
  simp only [hfind]

/-- The words of an expression are at least the one for its value. -/
theorem Expr.stackWords_pos (e : Expr) : 0 < e.stackWords := by
  fun_induction Expr.stackWords e with
  | case4 _ _ _ ih => exact ih
  | case5 _ _ left right ih _ => exact Nat.lt_of_lt_of_le ih (Nat.le_max_left _ _)
  | _ => exact Nat.one_pos

theorem Image.At.reaches_block {block : List Instruction} {i : Nat} {m m' : Machine}
    (hat : image.At i (Emission.ofInstructions block).code) (hrun : image.run? m block = some m') :
    image.Reaches ⟨i, m⟩ ⟨i + Code.size (Emission.ofInstructions block).code, m'⟩ := by
  rw [Emission.ofInstructions, Code.size_map]
  exact hat.reaches hrun

/-- A block at the end of some code is run after the rest. -/
theorem Image.At.reaches_append {first : Code} {block : List Instruction} {i : Nat}
    {m m' m'' : Machine} (hat : image.At i (first ++ (Emission.ofInstructions block).code))
    (h : image.Reaches ⟨i, m⟩ ⟨i + Code.size first, m'⟩) (hrun : image.run? m' block = some m'') :
    image.Reaches ⟨i, m⟩
      ⟨i + Code.size (first ++ (Emission.ofInstructions block).code), m''⟩ := by
  rw [Code.size_append, ← Nat.add_assoc]
  exact h.trans (hat.right.reaches_block hrun)

/-- The code of a constant expression pushes its value, with any number of words on the stack. -/
theorem expr_pushes (hwidth : space.width = c.wordSize) (htruthful : c.globals.Truthful) :
    ∀ (e : Expr) {type : ScalarType} {v : Int32} {i d : Nat} {m : Machine},
      HasType c.globals.env e type → (∀ name ∈ e.references, c.locals.find? name = none) →
      Constant.fold c.globals e = some v → image.At i (Generate.expr c e).code →
      d + e.stackWords ≤ space.room → m.get .sp = space.slot d → space.Holds image c.globals m →
        (Generate.expr c e).faults = [] ∧ ∃ m',
          image.Reaches ⟨i, m⟩ ⟨i + Code.size (Generate.expr c e).code, m'⟩ ∧
            space.Pushed d v m m'
  | .literal _ value, _, v, i, d, m, .literal hvalue, _, hfold, hat, hroom, hsp, _ => by
    cases hfold
    rw [Generate.expr, if_pos hvalue] at hat ⊢
    obtain ⟨m', hrun, hpushed⟩ := Workspace.run_push image hwidth
      (m := m.set .t0 value.word.toBitVec) hsp hroom (r := .t0) nofun rfl
    have hload : image.effect? m (.li .t0 value.word) = some (m.set .t0 value.word.toBitVec) := rfl
    refine ⟨rfl, m', ?_, hpushed.sp, hpushed.top, hpushed.kept⟩
    exact hat.reaches_block ((Image.run?_cons hload).trans hrun)
  | .var _ name, _, v, i, d, m, .var hname, hlocals, hfold, hat, hroom, hsp, hdata => by
    have haddress := address?_of_env hname (hlocals name List.mem_cons_self)
    obtain ⟨offset, initial, hfind⟩ := SymbolTable.find?_of_env hname
    have hvalue : some (initial.getD 0) = some v := by
      rw [← hfold, Constant.fold, Constant.variableValue, hfind]
    cases hvalue
    obtain ⟨p, hp, hword, -⟩ := hdata _ (SymbolTable.mem_words hfind)
    simp only [Generate.expr, haddress] at hat ⊢
    have hload : image.effect? m (.lw .t0 (.label name)) = some (m.set .t0 (m.memory p)) := by
      rw [Image.effect?, hp]
      rfl
    obtain ⟨m', hrun, hpushed⟩ := Workspace.run_push image hwidth
      (m := m.set .t0 (m.memory p)) hsp hroom (r := .t0) nofun hword
    refine ⟨rfl, m', ?_, hpushed.sp, hpushed.top, hpushed.kept⟩
    exact hat.reaches_block ((Image.run?_cons hload).trans hrun)
  | .unary span op operand, type, v, i, d, m, htype, hlocals, hfold, hat, hroom, hsp, hdata => by
    obtain ⟨x, hx, hv⟩ := Option.bind_eq_some_iff.1 hfold
    obtain ⟨-, t, hoperand⟩ := htype.operand
    have hmeaning := Semantics.unary_of_fold htruthful.initialized htype hx hv
    obtain ⟨code, hcode⟩ := exists_unaryCode hmeaning
    simp only [Generate.expr, hcode, Emission.code_append, Emission.faults_append] at hat ⊢
    obtain ⟨hfaults, m₁, hreaches, hpushed⟩ := expr_pushes hwidth htruthful operand hoperand
      hlocals hx hat.left hroom hsp hdata
    have hd : d < space.room :=
      Nat.lt_of_lt_of_le (Nat.lt_add_of_pos_right operand.stackWords_pos) hroom
    obtain ⟨m₂, hrun, hpushed'⟩ := hpushed.run_unary image hwidth hd hcode hmeaning
    refine ⟨?_, m₂, hat.reaches_append hreaches hrun, hpushed'⟩
    rw [hfaults]
    rfl
  | .binary span op left right, type, v, i, d, m, htype, hlocals, hfold, hat, hroom, hsp,
      hdata => by
    obtain ⟨x, hx, hfold⟩ := Option.bind_eq_some_iff.1 hfold
    obtain ⟨y, hy, hv⟩ := Option.bind_eq_some_iff.1 hfold
    obtain ⟨-, l, r, hl, hr⟩ := htype.operands
    have hmeaning := Semantics.binary_of_fold htruthful.initialized htype hx hy hv
    obtain ⟨code, hcode⟩ := exists_binaryCode hmeaning
    obtain ⟨hroomLeft, hroomRight⟩ : d + left.stackWords ≤ space.room ∧
        d + 1 + right.stackWords ≤ space.room := by
      rw [Expr.stackWords] at hroom
      omega
    have hd : d + 1 < space.room :=
      Nat.lt_of_lt_of_le (Nat.lt_add_of_pos_right right.stackWords_pos) hroomRight
    simp only [Generate.expr, hcode, Emission.code_append, Emission.faults_append] at hat ⊢
    obtain ⟨hfaults, m₁, hreaches, hpushed⟩ := expr_pushes hwidth htruthful left hl
      (fun name hname ↦ hlocals name (List.mem_append_left _ hname)) hx hat.left.left hroomLeft hsp
      hdata
    obtain ⟨hfaults', m₂, hreaches', hpushed'⟩ := expr_pushes hwidth htruthful right hr
      (fun name hname ↦ hlocals name (List.mem_append_right _ hname)) hy hat.left.right hroomRight
      hpushed.sp (hdata.of_pushed hpushed)
    obtain ⟨m₃, hrun, hpushed''⟩ := hpushed.run_binary image hpushed' hwidth hd hcode
      hmeaning
    refine ⟨?_, m₃, hat.reaches_append ?_ hrun, hpushed''⟩
    · rw [hfaults, hfaults']
      rfl
    · rw [Code.size_append, ← Nat.add_assoc]
      exact hreaches.trans hreaches'

/-- **Constant values agree with the code.** Take a global table whose truth values start as zero or
one, and an expression that is well typed over its variables and has a constant value. The
expression has code, and a machine that runs it with the initial values of the table in memory, and
enough room below its stack pointer, puts exactly that value on the stack; no word at the old stack
pointer or above it has changed. -/
theorem fold_executes (space : Workspace) {image : Image} {c : Context} {e : Expr}
    {type : ScalarType} {v : Int32} {i : Nat} {m : Machine} (htruthful : c.globals.Truthful)
    (htype : HasType c.globals.env e type)
    (hlocals : ∀ name ∈ e.references, c.locals.find? name = none)
    (hfold : Constant.fold c.globals e = some v) (hat : image.At i (Generate.expr c e).code)
    (hwidth : space.width = c.wordSize) (hroom : e.stackWords ≤ space.room)
    (hsp : m.get .sp = space.base) (hdata : space.Holds image c.globals m) :
    (Generate.expr c e).faults = [] ∧ ∃ m',
      image.Reaches ⟨i, m⟩ ⟨i + Code.size (Generate.expr c e).code, m'⟩ ∧
        m'.get .sp = m.get .sp - c.wordSize.toBitVec ∧ m'.memory (m'.get .sp) = v.toBitVec ∧
          ∀ p, (m.get .sp).toNat ≤ p.toNat → m'.memory p = m.memory p := by
  obtain ⟨hfaults, m', hreaches, hpushed⟩ := expr_pushes hwidth htruthful e (d := 0) htype hlocals
    hfold hat (by omega) (by rw [hsp, space.slot_zero]) hdata
  refine ⟨hfaults, m', hreaches, ?_, ?_, fun p hp ↦ hpushed.kept p (Workspace.apart_of_le ?_)⟩
  · rw [hpushed.sp, ← hwidth, hsp, ← space.slot_sub, space.slot_zero]
  · rw [hpushed.sp, hpushed.top]
  · rwa [← hsp]

/-! ### A sample -/

namespace Sample

/-- An integer that is seven and a truth value without an initial value. -/
def globals : SymbolTable :=
  { symbols := [.var "g" .int 0 (some 7), .var "b" .bool 4 none] }

/-- The expression `!b and g * -3 % 4 < 0`. -/
def constant : Expr :=
  .binary default .and (.unary default .not (.var default "b"))
    (.binary default .less
      (.binary default .modulo
        (.binary default .times (.var default "g")
          (.unary default .minus (.literal default ⟨.int, 3, false⟩)))
        (.literal default ⟨.int, 4, false⟩))
      (.literal default ⟨.int, 0, false⟩))

/-- The code of the expression after the data. -/
def constantImage : Image :=
  Image.usual (dataSection globals ++ (Generate.expr ⟨globals, {}, "main", false⟩ constant).code)

/-- Four words below the usual stack pointer. -/
def workspace : Workspace where
  base := (Image.usualStack 4).top
  width := 4
  room := 4
  aligned := by decide
  width_pos := by decide
  width_aligned := by decide
  fits := by decide

theorem workspace_holds :
    workspace.Holds constantImage globals (constantImage.initial (Image.usualStack 4) 0) := by
  have hapart : ∀ p : Word, p.toNat < 0x7fffefec → workspace.Apart 0 p := by
    rintro p hp k - hroom rfl
    have hk : k ≤ 4 := hroom
    have hslot : (workspace.slot k).toNat = 0x7fffeffc - 4 * k := workspace.toNat_slot hroom
    omega
  have hwords : Code.words (dataSection globals) = [("g", 7), ("b", 0)] := rfl
  intro word hword
  rw [hwords] at hword
  rcases List.mem_cons.1 hword with rfl | hword
  · exact ⟨0x10010000, by cbv, by cbv, hapart _ (by decide)⟩
  · obtain rfl := List.mem_singleton.1 hword
    exact ⟨0x10010004, by cbv, by cbv, hapart _ (by decide)⟩

end Sample

theorem fold_executes_sample :
    Constant.fold Sample.globals Sample.constant = some 1 ∧ ∃ m',
      Sample.constantImage.Reaches ⟨0, Sample.constantImage.initial (Image.usualStack 4) 0⟩
        ⟨Code.size Sample.constantImage.code, m'⟩ ∧
      m'.get .sp = 0x7fffeff8 ∧ m'.memory 0x7fffeff8 = 1 := by
  have htype : HasType Sample.globals.env Sample.constant .bool := by
    refine .logic (by decide) (.negation (.var rfl)) (.comparison (by decide) ?_ (.literal rfl))
    refine .arithmetic (by decide) (.arithmetic (by decide) (.var rfl) ?_) (.literal rfl)
    exact .sign (by decide) (.literal rfl)
  have hfold : Constant.fold Sample.globals Sample.constant = some 1 := by decide
  have hat : Sample.constantImage.At 0
      (Generate.expr ⟨Sample.globals, {}, "main", false⟩ Sample.constant).code :=
    ⟨dataSection Sample.globals, [], (List.append_nil _).symm, rfl⟩
  obtain ⟨-, m', hreaches, hsp, htop, -⟩ := fold_executes Sample.workspace
    (c := ⟨Sample.globals, {}, "main", false⟩) (by decide) htype (fun _ _ ↦ rfl) hfold hat rfl
    (by decide) rfl Sample.workspace_holds
  rw [hsp] at htop
  exact ⟨hfold, m', hreaches, hsp, htop⟩

end ScalarMips
