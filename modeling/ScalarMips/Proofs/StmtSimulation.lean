import ScalarMips.Proofs.ExprSimulation

/-!
# Statements in code

The code of a statement does what the statement means and comes to its end, or it returns, which is
a jump to the exit of the function (`Executed`). A loop is entered again at the same place of the
code, so the induction on the fuel covers it.
-/

namespace ScalarMips

open Generate
open Semantics (Stop World Locals Setup bodyDepth)

variable {t : Target} {f : FunctionDecl} {a i exit fuel : Nat} {n : UInt32} {m m' : Machine}
  {w w' : World} {frame : Locals}

/-! ### Parts of statements -/

theorem size_remark (c : Context) (s : Stmt) : Code.size (remark c s).code = 0 := by
  unfold remark
  split <;> rfl

/-- The comment before a statement takes no room. -/
theorem Image.At.skip {image : Image} {c : Context} {s : Stmt} {code : Code}
    (h : image.At i ((remark c s).code ++ code)) : image.At i code := by
  have hright := h.right
  rwa [size_remark, Nat.add_zero] at hright

/-- The values of a finished evaluation have been taken off the stack again. -/
theorem Evaluated.resume (h : Evaluated t (bodyDepth f a) m [] w' m')
    (hm : Active t f a (bodyDepth f a) frame w m) :
    Active t f a (bodyDepth f a) frame w' m' ∧ Preserved t f a m m' :=
  ⟨h.active hm, .of_kept h.kept⟩

/-- A variable of the call gets the value of a register. -/
theorem store_local (hl : Linked t) (hf : f ∈ functionDecls t.program) {name : String}
    (hname : name ∈ f.variables) (hm : Active t f a (bodyDepth f a) frame w m) (r : Register)
    (value : Int32) (hr : m.get r = value.toBitVec) :
    ∃ address m', (t.context f).address? name = some address ∧
      t.image.effect? m (.sw r address) = some m' ∧
      Active t f a (bodyDepth f a) (frame.set name value) w m' ∧ Preserved t f a m m' := by
  obtain ⟨k, hcell⟩ := Cell.exists_of_mem hname hm.arguments
  obtain ⟨address, haddress, hlocate⟩ := hl.locate_cell hf hm.fp hcell
  obtain ⟨hk, hdepth, -⟩ := hcell.bounds hm.arguments
  have hroom := hm.room
  refine ⟨address, m.store (t.slot k) value.toBitVec, haddress, ?_, ?_, ?_⟩
  · rw [Image.effect?, hlocate, hr]
    rfl
  · exact ⟨hm.arguments, hm.depth, hm.room, hm.sp, hm.fp,
      hm.framed.store hl hm.arguments hroom hcell value,
      hm.shared.store_slot hl hk (by omega) _⟩
  · exact .store hl hm.arguments hroom hcell m _

/-- A global variable gets the value of a register. -/
theorem store_global (hl : Linked t) (hf : f ∈ functionDecls t.program) {k : Nat} {s : Symbol}
    (hs : t.table.vars[k]? = some s) (hm : Active t f a (bodyDepth f a) frame w m) (r : Register)
    (value : Int32) (hr : m.get r = value.toBitVec) :
    ∃ address m', (t.context f).address? s.name = some address ∧
      t.image.effect? m (.sw r address) = some m' ∧
      Active t f a (bodyDepth f a) frame (w.set s.name value) m' ∧ Preserved t f a m m' := by
  obtain ⟨address, haddress, hlocate⟩ := hl.locate_global hf hs rfl m
  have hlt := hl.lt_words hs
  have hroom := hm.room
  refine ⟨address, m.store (t.image.address (.data k)) value.toBitVec, haddress, ?_, ?_, ?_⟩
  · rw [Image.effect?, hlocate, hr]
    rfl
  · exact ⟨hm.arguments, hm.depth, hm.room, hm.sp, hm.fp,
      hm.framed.store_data hl hm.arguments hroom hlt _, hm.shared.store_global hl hs value⟩
  · exact .store_data hl hroom hlt m _

/-- The value of an expression is popped into a register. -/
theorem realises_popped (hl : Linked t) (hf : f ∈ functionDecls t.program) (ih : Simulates t fuel)
    (value : Expr) {r : Register} (hr : r ∉ [Register.zero, .sp, .fp]) {rest : List Instruction}
    (h : t.image.At i ((Generate.expr (t.context f) value).code ++
      (Emission.ofInstructions ((t.context f).pop r ++ rest)).code))
    (hm : Active t f a (bodyDepth f a) frame w m) :
    Realises t.image ⟨i, m⟩ (Semantics.expr t.setup fuel (bodyDepth f a) frame w value) fun v c ↦
      c.index = i + Code.size (Generate.expr (t.context f) value).code + 2 ∧
        t.image.At c.index (Emission.ofInstructions rest).code ∧
        c.machine.get r = v.1.toBitVec ∧
        Active t f a (bodyDepth f a) frame v.2 c.machine ∧ Preserved t f a m c.machine := by
  refine (ih.expr value hf h.left hm).and_then fun v c hv ↦ ?_
  obtain ⟨index, m₁⟩ := c
  obtain ⟨rfl, hvalue⟩ := hv
  obtain ⟨m₂, hpop, hpopped, hget, -⟩ := hvalue.pop hl f r hr
  have hblock := h.right
  rw [ofInstructions_append] at hblock
  exact ⟨_, Image.At.reaches hblock.left hpop, rfl, hblock.right, hget, hpopped.resume hm⟩

/-- A condition is evaluated, and the machine goes to a label if it does not hold. -/
theorem realises_condition (hl : Linked t) (hf : f ∈ functionDecls t.program)
    (ih : Simulates t fuel) (condition : Expr) {otherwise : String} {target : Nat}
    (h : t.image.At i (conditionCode (t.context f) condition otherwise).code)
    (htarget : t.image.symbol? otherwise = some (.text target))
    (hm : Active t f a (bodyDepth f a) frame w m) :
    Realises t.image ⟨i, m⟩ (Semantics.expr t.setup fuel (bodyDepth f a) frame w condition)
      fun v c ↦ c.index = (if v.1 = 0 then target else
          i + Code.size (conditionCode (t.context f) condition otherwise).code) ∧
        Active t f a (bodyDepth f a) frame v.2 c.machine ∧ Preserved t f a m c.machine := by
  refine (realises_popped hl hf ih condition (by decide) h hm).and_then fun v c hv ↦ ?_
  obtain ⟨index, m₁⟩ := c
  obtain ⟨rfl, hbeq, hvalue, hstate⟩ := hv
  have hzero : m₁.get .t0 = m₁.get .zero ↔ v.1 = 0 := by
    rw [hvalue]
    exact Int32.toBitVec_inj (b := 0)
  by_cases hv : v.1 = 0
  · have hstep : t.image.step ⟨_, m₁⟩ = .running ⟨target, m₁⟩ :=
      (Image.At.step_eq hbeq).trans ((if_pos (hzero.2 hv)).trans (Image.jump_eq htarget))
    exact ⟨_, .one hstep, (if_pos hv).symm, hstate⟩
  · have hstep : t.image.step ⟨_, m₁⟩ = .running ⟨_ + 1, m₁⟩ :=
      (Image.At.step_eq hbeq).trans (if_neg (mt hzero.1 hv))
    refine ⟨_, .one hstep, ?_, hstate⟩
    simp only [if_neg hv, conditionCode, Emission.code_append, Code.size_append, size_instructions]
    rfl

/-! ### Statements -/

/-- What the code of a statement has to do. -/
def RealisesStmt (t : Target) (f : FunctionDecl) (a i exit : Nat) (n : UInt32) (m : Machine)
    (s : Stmt) (r : Except Stop Semantics.Outcome) : Prop :=
  Realises t.image ⟨i, m⟩ r
    (Executed t f a (i + Code.size (Generate.stmt (t.context f) s n).code) exit m)

theorem storeCode_none {c : Context} {name : String} {address : Address}
    (h : c.address? name = some address) :
    storeCode c name none = .ofInstructions [.sw .zero address] := by
  rw [storeCode.eq_def, h]

theorem storeCode_some {c : Context} {name : String} {address : Address} (value : Expr)
    (h : c.address? name = some address) :
    storeCode c name (some value) =
      Generate.expr c value ++ .ofInstructions (c.pop .t0 ++ [.sw .t0 address]) := by
  rw [storeCode.eq_def, h]

theorem realises_declared (hl : Linked t) (hf : f ∈ functionDecls t.program) (span : Span)
    (head : Declarator) (hname : head.name ∈ f.variables)
    (h : t.image.At i (Generate.stmt (t.context f) (.var span head none) n).code)
    (hm : Active t f a (bodyDepth f a) frame w m) :
    RealisesStmt t f a i exit n m (.var span head none)
      (Semantics.stmt t.setup (fuel + 1) (bodyDepth f a) frame w (.var span head none)) := by
  rw [RealisesStmt, Semantics.stmt.eq_def]
  obtain ⟨address, m₁, haddress, hstore, hactive, hpreserved⟩ :=
    store_local hl hf hname hm .zero 0 rfl
  have hblock := h.skip
  rw [storeCode_none haddress] at hblock
  refine Realises.block hblock ((Image.run?_cons hstore).trans rfl) ⟨hactive, hpreserved, ?_⟩
  simp only [Generate.stmt, storeCode_none haddress, Emission.code_append, Code.size_append,
    size_remark, size_instructions, Nat.zero_add]

/-- The value of an expression is stored in a variable of the call. -/
theorem realises_store_local (hl : Linked t) (hf : f ∈ functionDecls t.program)
    (ih : Simulates t fuel) (value : Expr) {name : String} (hname : name ∈ f.variables)
    (h : t.image.At i (storeCode (t.context f) name (some value)).code)
    (hm : Active t f a (bodyDepth f a) frame w m) :
    Realises t.image ⟨i, m⟩ (do
        let (v, w) ← Semantics.expr t.setup fuel (bodyDepth f a) frame w value
        .ok (none, frame.set name v, w))
      (Executed t f a (i + Code.size (storeCode (t.context f) name (some value)).code) exit m) := by
  obtain ⟨k, hcell⟩ := Cell.exists_of_mem hname hm.arguments
  obtain ⟨address, haddress, -⟩ := hl.locate_cell hf hm.fp hcell
  rw [storeCode_some value haddress] at h ⊢
  refine Realises.bind (realises_popped hl hf ih value (by decide) h hm) fun v c hv ↦ ?_
  obtain ⟨index, m₁⟩ := c
  obtain ⟨rfl, hblock, hvalue, hactive, hpreserved⟩ := hv
  obtain ⟨address', m₂, haddress', hstore, hactive', hpreserved'⟩ :=
    store_local hl hf hname hactive .t0 v.1 hvalue
  obtain rfl : address = address' := Option.some.inj (haddress.symm.trans haddress')
  refine Realises.block hblock ((Image.run?_cons hstore).trans rfl)
    ⟨hactive', hpreserved.trans hpreserved', ?_⟩
  rw [Emission.code_append, Code.size_append, size_instructions]
  rfl

/-- The value of an expression is stored in a global variable. -/
theorem realises_store_global (hl : Linked t) (hf : f ∈ functionDecls t.program)
    (ih : Simulates t fuel) (value : Expr) {k : Nat} {s : Symbol}
    (hs : t.table.vars[k]? = some s)
    (h : t.image.At i (storeCode (t.context f) s.name (some value)).code)
    (hm : Active t f a (bodyDepth f a) frame w m) :
    Realises t.image ⟨i, m⟩ (do
        let (v, w) ← Semantics.expr t.setup fuel (bodyDepth f a) frame w value
        .ok (none, frame, w.set s.name v))
      (Executed t f a (i + Code.size (storeCode (t.context f) s.name (some value)).code) exit
        m) := by
  obtain ⟨address, haddress, -⟩ := hl.locate_global hf hs rfl m
  rw [storeCode_some value haddress] at h ⊢
  refine Realises.bind (realises_popped hl hf ih value (by decide) h hm) fun v c hv ↦ ?_
  obtain ⟨index, m₁⟩ := c
  obtain ⟨rfl, hblock, hvalue, hactive, hpreserved⟩ := hv
  obtain ⟨address', m₂, haddress', hstore, hactive', hpreserved'⟩ :=
    store_global hl hf hs hactive .t0 v.1 hvalue
  obtain rfl : address = address' := Option.some.inj (haddress.symm.trans haddress')
  refine Realises.block hblock ((Image.run?_cons hstore).trans rfl)
    ⟨hactive', hpreserved.trans hpreserved', ?_⟩
  rw [Emission.code_append, Code.size_append, size_instructions]
  rfl

theorem realises_initialized (hl : Linked t) (hf : f ∈ functionDecls t.program)
    (ih : Simulates t fuel) (span : Span) (head : Declarator) (value : Expr)
    (hname : head.name ∈ f.variables)
    (h : t.image.At i (Generate.stmt (t.context f) (.var span head (some value)) n).code)
    (hm : Active t f a (bodyDepth f a) frame w m) :
    RealisesStmt t f a i exit n m (.var span head (some value))
      (Semantics.stmt t.setup (fuel + 1) (bodyDepth f a) frame w
        (.var span head (some value))) := by
  rw [RealisesStmt, Semantics.stmt.eq_def, Generate.stmt, Emission.code_append, Code.size_append,
    size_remark, Nat.zero_add]
  exact realises_store_local hl hf ih value hname h.skip hm

theorem realises_assign (hl : Linked t) (hf : f ∈ functionDecls t.program) (ih : Simulates t fuel)
    (span : Span) (name : String) (target : Span) (value : Expr)
    (h : t.image.At i (Generate.stmt (t.context f) (.assign span name target value) n).code)
    (hm : Active t f a (bodyDepth f a) frame w m) :
    RealisesStmt t f a i exit n m (.assign span name target value)
      (Semantics.stmt t.setup (fuel + 1) (bodyDepth f a) frame w
        (.assign span name target value)) := by
  rw [RealisesStmt, Semantics.stmt.eq_def, Generate.stmt, Emission.code_append, Code.size_append,
    size_remark, Nat.zero_add]
  simp only
  split
  · rename_i hlocal
    obtain ⟨v, hv⟩ := Option.isSome_iff_exists.1 hlocal
    obtain ⟨k, hcell, -⟩ := hm.framed name v hv
    exact realises_store_local hl hf ih value hcell.mem h.skip hm
  · split
    · rename_i hglobal
      obtain ⟨v, hv⟩ := Option.isSome_iff_exists.1 hglobal
      obtain ⟨k, s, hs, rfl, -⟩ := hm.shared.globals name v hv
      exact realises_store_global hl hf ih value hs h.skip hm
    · trivial

/-! ### Branches -/

namespace Executed

variable {last last' : Nat} {outcome : Semantics.Outcome} {c : Image.Config}

theorem of_eq (h : Executed t f a last exit m outcome c) (hlast : last = last') :
    Executed t f a last' exit m outcome c :=
  hlast ▸ h

/-- What came before a statement. -/
theorem of_preserved (h : Executed t f a last exit m' outcome c) (hpre : Preserved t f a m m') :
    Executed t f a last exit m outcome c :=
  ⟨h.active, hpre.trans h.preserved, h.index⟩

/-- A jump after a statement is made unless the statement returned. -/
theorem jump (h : Executed t f a last exit m outcome c) {label : String} {rest : Code}
    (hat : t.image.At last (.instruction (.j label) :: rest))
    (hlabel : t.image.symbol? label = some (.text last')) :
    ∃ c', t.image.Reaches c c' ∧ Executed t f a last' exit m outcome c' := by
  obtain ⟨returned, frame, w⟩ := outcome
  obtain ⟨index, m₁⟩ := c
  cases returned with
  | none =>
    obtain rfl : index = last := h.index
    exact ⟨⟨last', m₁⟩, .one (hat.step_eq.trans (Image.jump_eq hlabel)), h.active, h.preserved, rfl⟩
  | some value => exact ⟨_, .refl _, h.active, h.preserved, h.index⟩

end Executed

theorem realises_when (hl : Linked t) (hf : f ∈ functionDecls t.program) (ih : Simulates t fuel)
    (span : Span) (condition : Expr) (thenBranch : Stmt)
    (hvariables : ∀ u ∈ thenBranch.variables, u ∈ f.variables)
    (h : t.image.At i
      (Generate.stmt (t.context f) (.conditional span condition thenBranch none) n).code)
    (hexit : t.image.symbol? (exitLabel f.head.name) = some (.text exit))
    (hm : Active t f a (bodyDepth f a) frame w m) :
    RealisesStmt t f a i exit n m (.conditional span condition thenBranch none)
      (Semantics.stmt t.setup (fuel + 1) (bodyDepth f a) frame w
        (.conditional span condition thenBranch none)) := by
  rw [RealisesStmt, Semantics.stmt.eq_def]
  simp only [Generate.stmt, Emission.code_append, Code.size_append, size_remark,
    List.append_assoc] at h ⊢
  replace h := h.skip
  have hjump := h.right.right
  have helse := Image.At.symbol? hl.names hjump.right
  have hend := Image.At.symbol? hl.names hjump.right.right
  refine Realises.bind (realises_condition hl hf ih condition h.left helse hm) fun v c hv ↦ ?_
  obtain ⟨index, m₁⟩ := c
  obtain ⟨hindex, hactive, hpreserved⟩ := hv
  split
  · rename_i hne
    rw [if_neg hne] at hindex
    subst hindex
    refine (ih.stmt thenBranch hf h.right.left hexit hvariables hactive).and_then fun o c ho ↦ ?_
    obtain ⟨c', hreaches, hexecuted⟩ := (ho.of_preserved hpreserved).jump hjump hend
    refine ⟨c', hreaches, hexecuted.of_eq ?_⟩
    simp only [size_instructions, size_emission_label]
    omega
  · rename_i heq
    rw [if_pos (Decidable.not_not.1 heq)] at hindex
    subst hindex
    refine Realises.ok ⟨hactive, hpreserved, ?_⟩
    simp only [size_emission_label]
    omega

theorem realises_choose (hl : Linked t) (hf : f ∈ functionDecls t.program) (ih : Simulates t fuel)
    (span : Span) (condition : Expr) (thenBranch elseBranch : Stmt)
    (hthen : ∀ u ∈ thenBranch.variables, u ∈ f.variables)
    (helse : ∀ u ∈ elseBranch.variables, u ∈ f.variables)
    (h : t.image.At i (Generate.stmt (t.context f)
      (.conditional span condition thenBranch (some elseBranch)) n).code)
    (hexit : t.image.symbol? (exitLabel f.head.name) = some (.text exit))
    (hm : Active t f a (bodyDepth f a) frame w m) :
    RealisesStmt t f a i exit n m (.conditional span condition thenBranch (some elseBranch))
      (Semantics.stmt t.setup (fuel + 1) (bodyDepth f a) frame w
        (.conditional span condition thenBranch (some elseBranch))) := by
  rw [RealisesStmt, Semantics.stmt.eq_def]
  simp only [Generate.stmt, Emission.code_append, Code.size_append, size_remark,
    List.append_assoc] at h ⊢
  replace h := h.skip
  have hjump := h.right.right
  have hsecond := hjump.right.right
  have helseLabel := Image.At.symbol? hl.names hjump.right
  have hendLabel := Image.At.symbol? hl.names hsecond.right
  refine Realises.bind (realises_condition hl hf ih condition h.left helseLabel hm) fun v c hv ↦ ?_
  obtain ⟨index, m₁⟩ := c
  obtain ⟨hindex, hactive, hpreserved⟩ := hv
  split
  · rename_i hne
    rw [if_neg hne] at hindex
    subst hindex
    refine (ih.stmt thenBranch hf h.right.left hexit hthen hactive).and_then fun o c ho ↦ ?_
    obtain ⟨c', hreaches, hexecuted⟩ := (ho.of_preserved hpreserved).jump hjump hendLabel
    refine ⟨c', hreaches, hexecuted.of_eq ?_⟩
    simp only [size_instructions, size_emission_label]
    omega
  · rename_i heq
    rw [if_pos (Decidable.not_not.1 heq)] at hindex
    subst hindex
    rw [size_emission_label, Nat.add_zero] at hsecond
    refine (ih.stmt elseBranch hf hsecond.left hexit helse hactive).and_then fun o c ho ↦ ?_
    refine ⟨c, .refl c, (ho.of_preserved hpreserved).of_eq ?_⟩
    simp only [size_instructions, size_emission_label]
    omega

theorem realises_loop (hl : Linked t) (hf : f ∈ functionDecls t.program) (ih : Simulates t fuel)
    (span : Span) (condition : Expr) (body : Stmt)
    (hvariables : ∀ u ∈ body.variables, u ∈ f.variables)
    (h : t.image.At i (Generate.stmt (t.context f) (.loop span condition body) n).code)
    (hexit : t.image.symbol? (exitLabel f.head.name) = some (.text exit))
    (hm : Active t f a (bodyDepth f a) frame w m) :
    RealisesStmt t f a i exit n m (.loop span condition body)
      (Semantics.stmt t.setup (fuel + 1) (bodyDepth f a) frame w (.loop span condition body)) := by
  have hloop := h
  rw [RealisesStmt, Semantics.stmt.eq_def]
  simp only
  simp only [Generate.stmt, Emission.code_append, List.append_assoc] at h
  replace h := h.skip
  have hstart := Image.At.symbol? hl.names h
  have hcondition := h.right
  rw [size_emission_label, Nat.add_zero] at hcondition
  have hjump := hcondition.right.right
  have hend := Image.At.symbol? hl.names hjump.right
  refine Realises.bind (realises_condition hl hf ih condition hcondition.left hend hm)
    fun v c hv ↦ ?_
  obtain ⟨index, m₁⟩ := c
  obtain ⟨hindex, hactive, hpreserved⟩ := hv
  split
  · rename_i hne
    rw [if_neg hne] at hindex
    subst hindex
    refine Realises.bind (ih.stmt body hf hcondition.right.left hexit hvariables hactive)
      fun o c ho ↦ ?_
    replace ho := ho.of_preserved hpreserved
    obtain ⟨returned, frame₂, w₂⟩ := o
    cases returned with
    | some value => exact Realises.ok ⟨ho.active, ho.preserved, ho.index⟩
    | none =>
      -- The machine is at the jump back, and the loop is entered again where it began.
      obtain ⟨index, m₂⟩ := c
      obtain rfl : index = _ := ho.index
      refine Realises.of_reaches (.one (hjump.step_eq.trans (Image.jump_eq hstart))) ?_
      refine (ih.stmt (.loop span condition body) hf hloop hexit hvariables ho.active).and_then
        fun o c ho' ↦ ?_
      exact ⟨c, .refl c, ho'.of_preserved ho.preserved⟩
  · rename_i heq
    rw [if_pos (Decidable.not_not.1 heq)] at hindex
    subst hindex
    refine Realises.ok ⟨hactive, hpreserved, ?_⟩
    simp only [Generate.stmt, Emission.code_append, Code.size_append, size_remark,
      size_emission_label, size_instructions]
    omega

/-! ### Other statements -/

theorem realises_evaluate (hl : Linked t) (hf : f ∈ functionDecls t.program)
    (ih : Simulates t fuel) (span : Span) (value : Expr)
    (h : t.image.At i (Generate.stmt (t.context f) (.evaluate span value) n).code)
    (hm : Active t f a (bodyDepth f a) frame w m) :
    RealisesStmt t f a i exit n m (.evaluate span value)
      (Semantics.stmt t.setup (fuel + 1) (bodyDepth f a) frame w (.evaluate span value)) := by
  rw [RealisesStmt, Semantics.stmt.eq_def]
  simp only [Generate.stmt, Emission.code_append, Code.size_append, size_remark,
    List.append_assoc, size_instructions, Nat.zero_add] at h ⊢
  replace h := h.skip
  refine Realises.bind (ih.expr value hf h.left hm) fun v c hv ↦ ?_
  obtain ⟨index, m₁⟩ := c
  obtain ⟨rfl, hvalue⟩ := hv
  -- The value is given up by moving the stack pointer.
  have hdropped : Evaluated t (bodyDepth f a) m [] v.2 (m₁.set .sp (t.slot (bodyDepth f a))) :=
    ⟨hm.room, rfl, hvalue.fp, trivial, hvalue.kept, hvalue.shared.set .sp _⟩
  have heffect : t.image.effect? m₁ (.immediate .addiu .sp .sp (t.context f).wordSize) =
      some (m₁.set .sp (t.slot (bodyDepth f a))) := by
    rw [Image.effect?, ImmediateOp.compute, hvalue.sp]
    exact congrArg (some ∘ m₁.set .sp) (hl.add_word f _)
  obtain ⟨hactive, hpreserved⟩ := hdropped.resume hm
  refine Realises.block h.right ((Image.run?_cons heffect).trans rfl) ⟨hactive, hpreserved, ?_⟩
  exact Nat.add_assoc _ _ _

theorem realises_return (hl : Linked t) (hf : f ∈ functionDecls t.program)
    (ih : Simulates t fuel) (span : Span) (value : Expr)
    (h : t.image.At i (Generate.stmt (t.context f) (.return_ span value) n).code)
    (hexit : t.image.symbol? (exitLabel f.head.name) = some (.text exit))
    (hm : Active t f a (bodyDepth f a) frame w m) :
    RealisesStmt t f a i exit n m (.return_ span value)
      (Semantics.stmt t.setup (fuel + 1) (bodyDepth f a) frame w (.return_ span value)) := by
  rw [RealisesStmt, Semantics.stmt.eq_def]
  simp only [Generate.stmt, Emission.code_append, List.append_assoc] at h
  refine Realises.bind (realises_popped hl hf ih value (by decide) h.skip hm) fun v c hv ↦ ?_
  obtain ⟨index, m₁⟩ := c
  obtain ⟨rfl, hjump, hvalue, hactive, hpreserved⟩ := hv
  have hstep := (Image.At.step_eq (m := m₁) hjump).trans (Image.jump_eq hexit)
  exact Realises.of_reaches (.one hstep) (.ok ⟨hactive, hpreserved, rfl, hvalue⟩)

/-- Something is printed, with the help of scratch registers. -/
theorem Active.print {d : Nat} (hm : Active t f a d frame w m) (hs : Scratch m m') (text : String) :
    Active t f a d frame (w.print text) (m'.print text) where
  arguments := hm.arguments
  depth := hm.depth
  room := hm.room
  sp := hs.sp.trans hm.sp
  fp := hs.fp.trans hm.fp
  framed := hm.framed.of_kept hm.arguments (.of_memory hs.memory)
  shared := (hm.shared.of_scratch hs).print text

/-- A service is prepared and asked for. -/
theorem reaches_service {image : Image} (block : List Instruction) {c : Image.Config}
    (h : image.At i (Emission.ofInstructions (block ++ [.syscall])).code)
    (hrun : image.run? m block = some m')
    (hserve : Image.serve m' (i + block.length + 1) = .running c) : image.Reaches ⟨i, m⟩ c := by
  rw [ofInstructions_append] at h
  have hcall := h.right
  rw [size_instructions] at hcall
  exact (Image.At.reaches h.left hrun).trans (.one ((Image.At.step_eq hcall).trans hserve))

/-- The character after a value is printed. -/
theorem reaches_ending {ending : PrintEnd} (h : t.image.At i
      (Emission.ofInstructions ((endCharacter? ending).elim [] characterCode)).code)
    (hm : Active t f a (bodyDepth f a) frame w m) :
    ∃ m', t.image.Reaches ⟨i, m⟩ ⟨i + ((endCharacter? ending).elim [] characterCode).length, m'⟩ ∧
      Active t f a (bodyDepth f a) frame (w.print (Semantics.endText ending)) m' ∧
      Preserved t f a m m' := by
  have hcharacter : ∀ (char : Char) (text : String), (Char.ofNat
      (Int32.ofNat char.toNat).toBitVec.toNat).toString = text →
      t.image.At i (Emission.ofInstructions (characterCode char)).code →
      ∃ m', t.image.Reaches ⟨i, m⟩ ⟨i + 3, m'⟩ ∧
        Active t f a (bodyDepth f a) frame (w.print text) m' ∧ Preserved t f a m m' := by
    rintro char text rfl h
    have hscratch : Scratch m ((m.set .a0 (Int32.ofNat char.toNat).toBitVec).set .v0 11) :=
      ⟨rfl, rfl, rfl, rfl⟩
    exact ⟨_, reaches_service [_, _] h rfl rfl, hm.print hscratch _, fun _ _ ↦ rfl⟩
  cases ending with
  | nothing =>
    have hsame : w.print "" = w := by
      rw [World.print, String.append_empty]
    exact ⟨m, .refl _, hsame.symm ▸ hm, .refl t f a m⟩
  | space => exact hcharacter ' ' " " rfl h
  | newline => exact hcharacter '\n' "\n" rfl h

theorem realises_print (hl : Linked t) (hf : f ∈ functionDecls t.program) (ih : Simulates t fuel)
    (span : Span) (ending : PrintEnd) (value : Option Expr)
    (h : t.image.At i (Generate.stmt (t.context f) (.print span ending value) n).code)
    (hm : Active t f a (bodyDepth f a) frame w m) :
    RealisesStmt t f a i exit n m (.print span ending value)
      (Semantics.stmt t.setup (fuel + 1) (bodyDepth f a) frame w (.print span ending value)) := by
  rw [RealisesStmt, Semantics.stmt.eq_def, Generate.stmt, Emission.code_append, Code.size_append,
    size_remark, Nat.zero_add]
  replace h := h.skip
  cases value with
  | none =>
    obtain ⟨m₁, hreaches, hactive, hpreserved⟩ := reaches_ending h hm
    refine ⟨_, hreaches, hactive, hpreserved, ?_⟩
    exact congrArg (i + ·) (size_instructions _).symm
  | some value =>
    simp only [printCode, Emission.code_append, Code.size_append] at h ⊢
    refine Realises.bind (realises_popped hl hf ih value (by decide) h.left hm) fun v c hv ↦ ?_
    obtain ⟨index, m₁⟩ := c
    obtain ⟨rfl, hservice, hvalue, hactive, hpreserved⟩ := hv
    have hreaches : t.image.Reaches ⟨_, m₁⟩ ⟨_, (m₁.set .v0 1).print (m₁.get .a0).toInt.repr⟩ :=
      reaches_service [_] hservice rfl rfl
    have hscratch : Scratch m₁ (m₁.set .v0 1) := ⟨rfl, rfl, rfl, rfl⟩
    have hprinted := hactive.print hscratch (m₁.get .a0).toInt.repr
    have hending := h.right
    rw [Code.size_append, size_instructions, ← Nat.add_assoc] at hending
    obtain ⟨m₂, hreaches', hactive', hpreserved'⟩ := reaches_ending hending hprinted
    have htext : (m₁.get .a0).toInt.repr = Numeral.ofWord v.1 := by
      rw [hvalue]
      rfl
    rw [htext] at hactive'
    refine ⟨_, hreaches.trans hreaches', hactive', ?_, ?_⟩
    · exact hpreserved.trans (Preserved.trans (fun _ _ ↦ rfl) hpreserved')
    · rw [size_instructions, size_instructions, ← Nat.add_assoc, ← Nat.add_assoc]

/-! ### All statements -/

theorem simulates_stmt (hl : Linked t) (hf : f ∈ functionDecls t.program) (ih : Simulates t fuel)
    (s : Stmt) (h : t.image.At i (Generate.stmt (t.context f) s n).code)
    (hexit : t.image.symbol? (exitLabel f.head.name) = some (.text exit))
    (hvariables : ∀ u ∈ s.variables, u ∈ f.variables)
    (hm : Active t f a (bodyDepth f a) frame w m) :
    RealisesStmt t f a i exit n m s
      (Semantics.stmt t.setup (fuel + 1) (bodyDepth f a) frame w s) := by
  match s, h, hvariables with
  | .block span body, h, hvariables =>
    rw [RealisesStmt, Semantics.stmt.eq_def, Generate.stmt, Emission.code_append, Code.size_append,
      size_remark, Nat.zero_add]
    exact ih.stmts body hf h.skip hexit hvariables hm
  | .function .., _, _ =>
    rw [RealisesStmt, Semantics.stmt.eq_def]
    trivial
  | .var span head none, h, hvariables =>
    exact realises_declared hl hf span head (hvariables _ List.mem_cons_self) h hm
  | .var span head (some value), h, hvariables =>
    exact realises_initialized hl hf ih span head value (hvariables _ List.mem_cons_self) h hm
  | .assign span name target value, h, _ =>
    exact realises_assign hl hf ih span name target value h hm
  | .conditional span condition thenBranch none, h, hvariables =>
    exact realises_when hl hf ih span condition thenBranch hvariables h hexit hm
  | .conditional span condition thenBranch (some elseBranch), h, hvariables =>
    obtain ⟨hthen, helse⟩ := List.forall_mem_append.1 hvariables
    exact realises_choose hl hf ih span condition thenBranch elseBranch hthen helse h hexit hm
  | .loop span condition body, h, hvariables =>
    exact realises_loop hl hf ih span condition body hvariables h hexit hm
  | .evaluate span value, h, _ => exact realises_evaluate hl hf ih span value h hm
  | .return_ span value, h, _ => exact realises_return hl hf ih span value h hexit hm
  | .print span ending value, h, _ => exact realises_print hl hf ih span ending value h hm

theorem simulates_stmts (hf : f ∈ functionDecls t.program) (ih : Simulates t fuel)
    (body : List Stmt) (h : t.image.At i (Generate.stmts (t.context f) body n).code)
    (hexit : t.image.symbol? (exitLabel f.head.name) = some (.text exit))
    (hvariables : ∀ u ∈ Stmt.variablesAll body, u ∈ f.variables)
    (hm : Active t f a (bodyDepth f a) frame w m) :
    Realises t.image ⟨i, m⟩ (Semantics.stmts t.setup (fuel + 1) (bodyDepth f a) frame w body)
      (Executed t f a (i + Code.size (Generate.stmts (t.context f) body n).code) exit m) := by
  cases body with
  | nil =>
    rw [Semantics.stmts]
    exact Realises.ok ⟨hm, .refl t f a m, rfl⟩
  | cons first rest =>
    obtain ⟨hfirst, hrest⟩ := List.forall_mem_append.1 hvariables
    rw [Semantics.stmts]
    refine Realises.bind (ih.stmt first hf h.left hexit hfirst hm) fun o c ho ↦ ?_
    obtain ⟨returned, frame₁, w₁⟩ := o
    cases returned with
    | some value => exact Realises.ok ⟨ho.active, ho.preserved, ho.index⟩
    | none =>
      obtain ⟨index, m₁⟩ := c
      obtain rfl : index = _ := ho.index
      refine (ih.stmts rest hf h.right hexit hrest ho.active).and_then fun o c ho' ↦ ?_
      refine ⟨c, .refl c, (ho'.of_preserved ho.preserved).of_eq ?_⟩
      rw [Generate.stmts, Emission.code_append, Code.size_append, Nat.add_assoc]

end ScalarMips
