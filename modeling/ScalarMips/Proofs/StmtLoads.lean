import ScalarMips.Proofs.ExprLoads

/-!
# Loads in statements

The code of a statement is safe if it is safe to come to its end and to be at the exit of the
function (`SafeCode`). Pieces of code are put together by the rule for sequences, and a statement is
one of a few such pieces. A loop goes back to its start by a jump, which takes a step, so it is
covered by induction on the number of steps.

A variable that a statement declares has its source from then on, since the declaration stores
something in any case.
-/

namespace ScalarMips

open Generate
open Semantics (bodyDepth Fresh)

variable {t : Target} {strict : Prop} {f : FunctionDecl} {a k n : Nat} {name : String}
  {type : ScalarType} {Γ Δ : Env} {x y base : Moment}

/-! ### Stores -/

theorem Running.quiet {d : Nat} (h : Running t strict f a base d Γ x) (hq : Quiet x y) :
    Running t strict f a base d Γ y :=
  h.grown ((Grown.of_running h).of_quiet hq)

/-- A variable of the activation has been stored. -/
theorem Running.store (h : Running t strict f a base (bodyDepth f a) Γ x) (hl : Linked t)
    {s : Symbol} {v : Word} (hcell : Cell f a name k)
    (hsymbol : (t.context f).symbol? name = some s) (hstores : Stores (t.slot k) v x y)
    (hv : Suits strict s.type v) (hsource : Source t f name (t.slot k) y.history) :
    Running t strict f a base (bodyDepth f a) (Γ.bind name (.var s.type)) y := by
  have hroom := h.room
  obtain ⟨hk, hdepth, hlow, hra, hfp⟩ := hcell.bounds h.arguments
  refine { h with
    function := hstores.current ▸ h.function
    start := fun hfirst ↦ h.start (hstores.callers ▸ hfirst)
    sp := (hstores.get .sp).trans h.sp
    fp := (hstores.get .fp).trans h.fp
    vars := fun other type hother ↦ ?_
    functions := fun other parameters result hother ↦ ?_
    globals := hstores.proper_slot hl h.globals hk (Nat.le_trans hdepth hroom)
    outside := h.outside.trans (hstores.same fun j hj ↦ ?_)
    current := hstores.current.trans h.current
    callers := hstores.callers.trans h.callers }
  · simp only [Env.bind] at hother
    split at hother
    · rename_i heq
      cases hother
      subst heq
      exact .cell hcell hsymbol rfl (hstores.memory_self ▸ hv) hsource
    · rename_i hne
      cases h.vars other type hother with
      | @cell j s' hother hsymbol htype hvalue hsource =>
        -- Another variable has another cell.
        obtain ⟨hj, hjdepth, -⟩ := hother.bounds h.arguments
        have hjk : j ≠ k := fun heq ↦ hne (hother.eq_of_cell (heq ▸ hcell))
        have hslot := hl.slot_ne_slot ⟨hj, by omega⟩ ⟨hk, by omega⟩ hjk
        exact .cell hother hsymbol htype (hstores.memory_of_ne hslot ▸ hvalue)
          (hsource.congr (hstores.written_of_ne hslot) hstores.current hstores.callers)
      | global hs hname htype => exact .global hs hname htype
  · simp only [Env.bind] at hother
    split at hother
    · cases hother
    · exact h.functions other parameters result hother
  · unfold Outside at hj
    unfold bodyDepth at hdepth hroom
    exact hl.slot_ne_slot ⟨by omega, by omega⟩ ⟨hk, by omega⟩ (by omega)

/-- The last instruction was not the jump of a return statement. -/
def Unreturned (f : FunctionDecl) (x : Moment) : Prop :=
  x.history.last ≠ some (.j (exitLabel f.head.name))

theorem Unreturned.of_last {instruction : Instruction} (h : x.history.last = some instruction)
    (hne : instruction ≠ .j (exitLabel f.head.name)) : Unreturned f x := fun hlast ↦
  hne (Option.some.inj (h.symm.trans hlast))

namespace Running

variable {s : Symbol} {r : Register} {address : Address}

/-- A word is stored in a variable of the activation. -/
theorem store_local (h : Running t strict f a base (bodyDepth f a) Γ x) (hl : Linked t)
    (hf : f ∈ functionDecls t.program) (hname : name ∈ f.variables)
    (hsymbol : (t.context f).symbol? name = some s)
    (haddress : (t.context f).address? name = some address)
    (hin : t.Inside f x.index (Emission.ofInstructions [.sw r address]).code)
    (hsets : t.Sets f name x.index) (hv : Suits strict s.type (x.machine.get r))
    (hnext : ∀ y : Moment, y.index = x.index + 1 →
      Running t strict f a base (bodyDepth f a) (Γ.bind name (.var s.type)) y → Unreturned f y →
      t.Safe strict n y) : t.Safe strict n x := by
  obtain ⟨k, hcell⟩ := Cell.exists_of_mem hname h.arguments
  obtain ⟨address', haddress', hlocate⟩ := hl.locate_cell hf h.fp hcell
  cases haddress.symm.trans haddress'
  refine Target.safe_store hin hlocate fun y hindex hstores hlast ↦ ?_
  have hnumber : x.history.current.number = y.history.current.number :=
    congrArg Activation.number hstores.current.symm
  exact hnext y hindex (h.store hl hcell hsymbol hstores hv
    (.stored hstores.written_self hnumber hsets)) (.of_last hlast (by simp))

/-- A word is stored in a global variable. -/
theorem store_global (h : Running t strict f a base (bodyDepth f a) Γ x) (hl : Linked t)
    (hf : f ∈ functionDecls t.program) (hs : t.table.vars[k]? = some s)
    (haddress : (t.context f).address? s.name = some address)
    (hin : t.Inside f x.index (Emission.ofInstructions [.sw r address]).code)
    (hv : Suits strict s.type (x.machine.get r))
    (hnext : ∀ y : Moment, y.index = x.index + 1 →
      Running t strict f a base (bodyDepth f a) Γ y → Unreturned f y → t.Safe strict n y) :
    t.Safe strict n x := by
  obtain ⟨address', haddress', hlocate⟩ := hl.locate_global hf hs rfl x.machine
  cases haddress.symm.trans haddress'
  refine Target.safe_store hin hlocate fun y hindex hstores hlast ↦ ?_
  have hroom := h.room
  have hgrown : Grown t strict (bodyDepth f a) 0 x y :=
    ⟨hroom, (hstores.get .sp).trans h.sp, hstores.get .fp,
      hstores.same fun j hj ↦ hl.fits.apart j hj.1 (Nat.le_trans hj.2 hroom) k (hl.lt_words hs),
      hstores.current, hstores.callers, hstores.proper_global hl h.globals hs hv⟩
  exact hnext y hindex (h.grown hgrown) (.of_last hlast (by simp))

/-- A word is stored in a visible variable. -/
theorem assign (h : Running t strict f a base (bodyDepth f a) Γ x) (hl : Linked t)
    (hf : f ∈ functionDecls t.program) (hname : Γ name = some (.var type))
    (haddress : (t.context f).address? name = some address)
    (hin : t.Inside f x.index (Emission.ofInstructions [.sw r address]).code)
    (hsets : t.Sets f name x.index) (hv : Suits strict type (x.machine.get r))
    (hnext : ∀ y : Moment, y.index = x.index + 1 →
      Running t strict f a base (bodyDepth f a) Γ y → Unreturned f y → t.Safe strict n y) :
    t.Safe strict n x := by
  cases h.vars name type hname with
  | cell hcell hsymbol htype =>
    subst htype
    refine h.store_local hl hf hcell.mem hsymbol haddress hin hsets hv fun y hindex hy ↦
      hnext y hindex (hy.forget fun other m hm ↦ ?_)
    unfold Env.bind
    split
    · rename_i heq
      rw [heq, hname] at hm
      exact hm
    · exact hm
  | global hs hsname htype =>
    subst hsname htype
    exact h.store_global hl hf hs haddress hin hv hnext

end Running

/-! ### Code of statements -/

/-- It is safe to be at the exit of a function. There is a value of its type in `$v0` after a return
statement. -/
def SafeExit (t : Target) (strict : Prop) (f : FunctionDecl) (a : Nat) (base : Moment) (n : Nat) :
    Prop :=
  ∀ y : Moment, t.image.symbol? (exitLabel f.head.name) = some (.text y.index) →
    Running t strict f a base (bodyDepth f a) (fun _ ↦ none) y →
    (¬ Unreturned f y → Suits strict f.head.type (y.machine.get .v0)) → t.Safe strict n y

/-- A piece of code that finds the variables of `Γ` and leaves those of `Δ` is safe if it is safe to
come to its end and to the exit of the function. -/
def SafeCode (t : Target) (strict : Prop) (f : FunctionDecl) (n : Nat) (Γ Δ : Env) (code : Code) :
    Prop :=
  ∀ (a : Nat) (base x : Moment), t.Inside f x.index code →
    Running t strict f a base (bodyDepth f a) Γ x → Unreturned f x →
    SafeExit t strict f a base n →
    (∀ y : Moment, y.index = x.index + Code.size code →
      Running t strict f a base (bodyDepth f a) Δ y → Unreturned f y → t.Safe strict n y) →
    t.Safe strict n x

namespace SafeCode

variable {code first second : Code} {Ε : Env}

/-- One piece after another. -/
theorem append (h : SafeCode t strict f n Γ Δ first) (h' : SafeCode t strict f n Δ Ε second) :
    SafeCode t strict f n Γ Ε (first ++ second) := by
  intro a base x hin hx hlast hexit hnext
  refine h a base x hin.left hx hlast hexit fun y hindex hy hlast' ↦ ?_
  refine h' a base y (hindex ▸ hin.right) hy hlast' hexit fun z hz ↦ hnext z ?_
  rw [hz, hindex, Code.size_append, Nat.add_assoc]

/-- Code without instructions. -/
theorem of_size (h : Code.size code = 0) : SafeCode t strict f n Γ Γ code :=
  fun _ _ x _ hx hlast _ hnext ↦ hnext x (by rw [h, Nat.add_zero]) hx hlast

/-- Some names can be forgotten afterwards. -/
theorem forget (h : SafeCode t strict f n Γ Δ code)
    (hsub : ∀ name m, Ε name = some m → Δ name = some m) : SafeCode t strict f n Γ Ε code :=
  fun a base x hin hx hlast hexit hnext ↦ h a base x hin hx hlast hexit fun y hindex hy ↦
    hnext y hindex (hy.forget hsub)

end SafeCode

theorem SafeExit.mono (h : SafeExit t strict f a base n) (hk : k ≤ n) :
    SafeExit t strict f a base k := fun y hsymbol hy hvalue ↦
  Image.Safe.mono (h y hsymbol hy hvalue) hk

/-- What a statement declares hides nothing. -/
theorem Semantics.Fresh.after_eq {s : Stmt} (h : Fresh Γ s.variables) :
    ∀ name m, Γ name = some m → Γ.after s name = some m := by
  intro name m hm
  cases s with
  | var span head initial =>
    have hne : name ≠ head.name := by
      rintro rfl
      rw [h.2 _ List.mem_cons_self] at hm
      cases hm
    rw [Env.after, Env.bind, if_neg hne, hm]
  | _ => exact hm

/-- The value of an expression is popped into a register. -/
theorem SafeExpr.popped {value : Expr} (h : SafeExpr t strict f Γ n value type) (hl : Placed t)
    (hf : f ∈ functionDecls t.program) {r : Register} (hr : r ∉ [Register.zero, .sp, .fp])
    {rest : List Instruction} (hin : t.Inside f x.index ((Generate.expr (t.context f) value).code ++
      (Emission.ofInstructions ((t.context f).pop r ++ rest)).code))
    (hx : Running t strict f a base (bodyDepth f a) Γ x)
    (hnext : ∀ y : Moment,
      y.index = x.index + Code.size (Generate.expr (t.context f) value).code + 2 →
      t.Inside f y.index (Emission.ofInstructions rest).code →
      Running t strict f a base (bodyDepth f a) Γ y → Suits strict type (y.machine.get r) →
      t.Safe strict n y) : t.Safe strict n x := by
  refine h a _ base x hin.left hx fun y hindex htopped ↦ ?_
  obtain ⟨hpop, hrest⟩ := hin.right.split
  rw [← hindex] at hpop hrest
  refine htopped.pop hl.toLinked hf hx.function hr hpop fun z hindex' hgrown hvalue _ ↦ ?_
  refine hnext z (by rw [hindex', hindex]) ?_ (hx.grown hgrown) hvalue
  rw [hindex']
  exact hrest

/-! ### Declarations and assignments -/

theorem safe_declared (hl : Placed t) (hf : f ∈ functionDecls t.program) (span : Span)
    {head : Declarator} (m : UInt32)
    (hdeclared : .var head.name head.type ∈ Layout.declaredAll f.body) :
    SafeCode t strict f n Γ (Γ.bind head.name (.var head.type))
      (Generate.stmt (t.context f) (.var span head none) m).code := by
  intro a base x hin hx hlast hexit hnext
  obtain ⟨s, hsymbol, htype⟩ := hl.symbol?_declared hf hdeclared
  have hname := hl.mem_variables hf hdeclared
  obtain ⟨k, hcell⟩ := Cell.exists_of_mem hname hx.arguments
  obtain ⟨address, haddress, -⟩ := hl.locate_cell hf hx.fp hcell
  have hsize : x.index + 1 = x.index +
      Code.size (Generate.stmt (t.context f) (.var span head none) m).code := by
    rw [Generate.stmt, storeCode_none haddress, Emission.code_append, Code.size_append,
      size_remark, size_instructions, Nat.zero_add]
    rfl
  have hsets : t.Sets f head.name x.index := ⟨.var span head none, m, x.index, rfl, hin, hsize⟩
  have hstore := hin.skip
  rw [storeCode_none haddress] at hstore
  rw [← hsize, ← htype] at hnext
  exact hx.store_local hl.toLinked hf hname hsymbol haddress hstore hsets (fun _ _ ↦ .inl rfl) hnext

/-- The value of an expression is stored in a variable. -/
theorem SafeExpr.stored {value : Expr} (h : SafeExpr t strict f Γ n value type) (hl : Placed t)
    (hf : f ∈ functionDecls t.program) (s : Stmt) (m : UInt32) {address : Address}
    (haddress : (t.context f).address? name = some address) (hsets : s.Sets name)
    (hcode : Generate.stmt (t.context f) s m =
      remark (t.context f) s ++ storeCode (t.context f) name (some value))
    (hin : t.Inside f x.index (Generate.stmt (t.context f) s m).code)
    (hx : Running t strict f a base (bodyDepth f a) Γ x)
    (hnext : ∀ y : Moment,
      y.index + 1 = x.index + Code.size (Generate.stmt (t.context f) s m).code →
      t.Inside f y.index (Emission.ofInstructions [.sw .t0 address]).code →
      t.Sets f name y.index → Running t strict f a base (bodyDepth f a) Γ y →
      Suits strict type (y.machine.get .t0) → t.Safe strict n y) : t.Safe strict n x := by
  have hparts := hin
  rw [hcode, storeCode_some value haddress] at hparts
  refine h.popped hl hf (by decide) hparts.skip hx fun y hindex hstore hy hvalue ↦ ?_
  have hsize : y.index + 1 = x.index + Code.size (Generate.stmt (t.context f) s m).code := by
    rw [hcode, storeCode_some value haddress, Emission.code_append, Emission.code_append,
      Code.size_append, Code.size_append, size_remark, size_instructions, Nat.zero_add, hindex,
      ← Nat.add_assoc]
    rfl
  exact hnext y hsize hstore ⟨s, m, x.index, hsets, hin, hsize⟩ hy hvalue

theorem safe_initialized (hl : Placed t) (hf : f ∈ functionDecls t.program) (span : Span)
    {head : Declarator} (m : UInt32)
    (hdeclared : .var head.name head.type ∈ Layout.declaredAll f.body) {value : Expr}
    (hvalue : SafeExpr t strict f Γ n value head.type) :
    SafeCode t strict f n Γ (Γ.bind head.name (.var head.type))
      (Generate.stmt (t.context f) (.var span head (some value)) m).code := by
  intro a base x hin hx hlast hexit hnext
  obtain ⟨s, hsymbol, htype⟩ := hl.symbol?_declared hf hdeclared
  have hname := hl.mem_variables hf hdeclared
  obtain ⟨k, hcell⟩ := Cell.exists_of_mem hname hx.arguments
  obtain ⟨address, haddress, -⟩ := hl.locate_cell hf hx.fp hcell
  refine hvalue.stored hl hf (.var span head (some value)) m haddress rfl rfl hin hx
    fun y hindex hstore hsets hy hsuits ↦ ?_
  rw [← htype] at hsuits hnext
  rw [← hindex] at hnext
  exact hy.store_local hl.toLinked hf hname hsymbol haddress hstore hsets hsuits hnext

theorem safe_assign (hl : Placed t) (hf : f ∈ functionDecls t.program) (span target : Span)
    (m : UInt32) (hname : Γ name = some (.var type)) {value : Expr}
    (hvalue : SafeExpr t strict f Γ n value type) :
    SafeCode t strict f n Γ Γ
      (Generate.stmt (t.context f) (.assign span name target value) m).code := by
  intro a base x hin hx hlast hexit hnext
  obtain ⟨address, -, haddress, -⟩ := hx.load_variable hl.toLinked hf hname
  refine hvalue.stored hl hf (.assign span name target value) m haddress rfl rfl hin hx
    fun y hindex hstore hsets hy hsuits ↦ ?_
  rw [← hindex] at hnext
  exact hy.assign hl.toLinked hf hname haddress hstore hsets hsuits hnext

/-! ### Branches -/

theorem branchLabel_ne_exitLabel (kind : String) (m : UInt32) {place : String}
    (h : place ∈ places) (function : String) : branchLabel kind m place ≠ exitLabel function := by
  obtain ⟨c, word, hends, -, hne⟩ := ends_branchLabel kind m h
  exact fun heq ↦ hne ((heq ▸ hends).unique (ends_exitLabel function))

/-- A condition is evaluated, and the machine goes to a label or not. -/
theorem SafeExpr.condition {value : Expr} (h : SafeExpr t strict f Γ n value .bool) (hl : Placed t)
    (hf : f ∈ functionDecls t.program) {otherwise : String} {target : Nat}
    (hin : t.Inside f x.index (conditionCode (t.context f) value otherwise).code)
    (htarget : t.image.symbol? otherwise = some (.text target))
    (hx : Running t strict f a base (bodyDepth f a) Γ x)
    (htaken : ∀ y : Moment, y.index = target → Running t strict f a base (bodyDepth f a) Γ y →
      Unreturned f y → t.Safe strict n y)
    (hnext : ∀ y : Moment,
      y.index = x.index + Code.size (conditionCode (t.context f) value otherwise).code →
      Running t strict f a base (bodyDepth f a) Γ y → Unreturned f y → t.Safe strict n y) :
    t.Safe strict n x := by
  refine h.popped hl hf (by decide) hin hx fun y hindex hbranch hy _ ↦ ?_
  have hquiet : ∀ i last, Running t strict f a base (bodyDepth f a) Γ
      ⟨⟨i, y.machine⟩, { y.history with last }⟩ := fun _ _ ↦
    hy.quiet ⟨⟨rfl, rfl, rfl, rfl⟩, rfl, rfl, rfl⟩
  refine Image.Safe.branch hbranch.toAt htarget ?_ ?_
  · exact htaken _ rfl (hquiet _ _) (.of_last rfl (by simp))
  · refine hnext _ ?_ (hquiet _ _) (.of_last rfl (by simp))
    rw [conditionCode, Emission.code_append, Code.size_append, size_instructions, ← Nat.add_assoc,
      hindex]
    rfl

/-- A jump to a label of a branch. It takes a step. -/
theorem Running.jump (h : Running t strict f a base (bodyDepth f a) Γ x) {label : String}
    {target : Nat} (hin : t.Inside f x.index (Emission.ofInstructions [.j label]).code)
    (htarget : t.image.symbol? label = some (.text target))
    (hlabel : label ≠ exitLabel f.head.name)
    (hnext : ∀ y : Moment, y.index = target → Running t strict f a base (bodyDepth f a) Γ y →
      Unreturned f y → t.Safe strict n y) : t.Safe strict (n + 1) x := by
  refine Image.Safe.jump hin.toAt htarget (hnext _ rfl ?_ (.of_last rfl ?_))
  · exact h.quiet ⟨⟨rfl, rfl, rfl, rfl⟩, rfl, rfl, rfl⟩
  · exact fun heq ↦ hlabel (Instruction.j.inj heq)

theorem safe_when (hl : Placed t) (hf : f ∈ functionDecls t.program) (span : Span)
    {condition : Expr} {thenBranch : Stmt} {m : UInt32}
    (hcondition : SafeExpr t strict f Γ n condition .bool)
    (hthen : SafeCode t strict f n Γ Γ (Generate.stmt (t.context f) thenBranch (m + 1)).code) :
    SafeCode t strict f n Γ Γ
      (Generate.stmt (t.context f) (.conditional span condition thenBranch none) m).code := by
  intro a base x hin hx hlast hexit hnext
  simp only [Generate.stmt, Emission.code_append, Code.size_append, size_remark, Nat.zero_add,
    List.append_assoc, size_instructions, size_emission_label] at hin hnext
  replace hin := hin.skip
  have hjump := hin.right.right
  have helse := Image.At.symbol? hl.names hjump.right.toAt
  have hend := Image.At.symbol? hl.names hjump.right.right.toAt
  simp only [size_instructions, size_emission_label] at helse hend
  refine hcondition.condition hl hf hin.left helse hx (fun y hindex ↦ ?_)
    fun y hindex hy hlast' ↦ ?_
  · refine hnext y ?_
    rw [hindex]
    omega
  · refine hthen a base y (hindex ▸ hin.right.left) hy hlast' hexit fun z hz hz' _ ↦ ?_
    rw [← hindex, ← hz] at hjump
    refine Image.Safe.of_succ (hz'.jump hjump.left hend
      (branchLabel_ne_exitLabel _ _ (by decide) _) fun z' hz' ↦ hnext z' ?_)
    rw [hz']
    omega

theorem safe_choose (hl : Placed t) (hf : f ∈ functionDecls t.program) (span : Span)
    {condition : Expr} {thenBranch elseBranch : Stmt} {m : UInt32}
    (hcondition : SafeExpr t strict f Γ n condition .bool)
    (hthen : SafeCode t strict f n Γ Γ (Generate.stmt (t.context f) thenBranch (m + 1)).code)
    (helse : SafeCode t strict f n Γ Γ (Generate.stmt (t.context f) elseBranch
      (m + 1 + UInt32.ofNat (branchCount thenBranch))).code) :
    SafeCode t strict f n Γ Γ (Generate.stmt (t.context f)
      (.conditional span condition thenBranch (some elseBranch)) m).code := by
  intro a base x hin hx hlast hexit hnext
  simp only [Generate.stmt, Emission.code_append, Code.size_append, size_remark, Nat.zero_add,
    List.append_assoc, size_instructions, size_emission_label] at hin hnext
  replace hin := hin.skip
  have hjump := hin.right.right
  have hsecond := hjump.right.right
  have helseLabel := Image.At.symbol? hl.names hjump.right.toAt
  have hendLabel := Image.At.symbol? hl.names hsecond.right.toAt
  simp only [size_instructions, size_emission_label, Nat.add_zero] at hsecond helseLabel hendLabel
  refine hcondition.condition hl hf hin.left helseLabel hx (fun y hindex hy hlast' ↦ ?_)
    fun y hindex hy hlast' ↦ ?_
  · refine helse a base y (hindex ▸ hsecond.left) hy hlast' hexit fun z hz ↦ hnext z ?_
    rw [hz, hindex]
    omega
  · refine hthen a base y (hindex ▸ hin.right.left) hy hlast' hexit fun z hz hz' _ ↦ ?_
    rw [← hindex, ← hz] at hjump
    refine Image.Safe.of_succ (hz'.jump hjump.left hendLabel
      (branchLabel_ne_exitLabel _ _ (by decide) _) fun z' hz' ↦ hnext z' ?_)
    rw [hz']
    omega

theorem safe_loop (hl : Placed t) (hf : f ∈ functionDecls t.program) (span : Span)
    {condition : Expr} {body : Stmt} {m : UInt32}
    (hcondition : ∀ k ≤ n, SafeExpr t strict f Γ k condition .bool)
    (hbody : ∀ k ≤ n,
      SafeCode t strict f k Γ Γ (Generate.stmt (t.context f) body (m + 1)).code) :
    SafeCode t strict f n Γ Γ (Generate.stmt (t.context f) (.loop span condition body) m).code := by
  induction n with
  | zero => exact fun _ _ _ _ _ _ _ _ ↦ trivial
  | succ n ih =>
    -- The loop is entered again after the jump back, with one step less to look at.
    have hagain := ih (fun k hk ↦ hcondition k (Nat.le_succ_of_le hk))
      fun k hk ↦ hbody k (Nat.le_succ_of_le hk)
    intro a base x hin hx hlast hexit hnext
    have hloop := hin
    simp only [Generate.stmt, Emission.code_append, List.append_assoc] at hin
    replace hin := hin.skip
    have hstart := Image.At.symbol? hl.names hin.toAt
    have hparts := hin.right
    rw [size_emission_label, Nat.add_zero] at hparts
    have hjump := hparts.right.right
    have hend := Image.At.symbol? hl.names hjump.right.toAt
    refine (hcondition _ (Nat.le_refl _)).condition hl hf hparts.left hend hx (fun y hindex ↦ ?_)
      fun y hindex hy hlast' ↦ ?_
    · refine hnext y ?_
      simp only [Generate.stmt, Emission.code_append, Code.size_append, size_remark,
        size_instructions, size_emission_label] at hindex ⊢
      omega
    · refine hbody _ (Nat.le_refl _) a base y (hindex ▸ hparts.right.left) hy hlast' hexit
        fun z hz hz' _ ↦ ?_
      rw [← hindex, ← hz] at hjump
      refine hz'.jump hjump.left hstart (branchLabel_ne_exitLabel _ _ (by decide) _)
        fun z' hindex' hz'' hlast'' ↦ ?_
      rw [← hindex'] at hloop hnext
      exact hagain a base z' hloop hz'' hlast'' (hexit.mono (Nat.le_succ n)) fun y' hy' hrun hlast ↦
        Image.Safe.of_succ (hnext y' hy' hrun hlast)

/-! ### Other statements -/

theorem safe_evaluate (hl : Placed t) {value : Expr} (hvalue : SafeExpr t strict f Γ n value type) :
    SafeCode t strict f n Γ Γ ((Generate.expr (t.context f) value).code ++
      (Emission.ofInstructions [.immediate .addiu .sp .sp (t.context f).wordSize]).code) := by
  intro a base x hin hx hlast hexit hnext
  rw [Code.size_append, size_instructions, ← Nat.add_assoc] at hnext
  refine hvalue a _ base x hin.left hx fun y hindex htopped ↦ ?_
  have hpop := hin.right
  rw [← hindex] at hpop hnext
  refine Image.Safe.onward hpop.toAt rfl rfl fun _ m heffect ↦ ?_
  rw [Image.effect?, ImmediateOp.compute, htopped.sp] at heffect
  cases heffect
  -- The value is given up by moving the stack pointer.
  refine hnext _ rfl (hx.grown (k := 0) ?_) (.of_last rfl (by simp))
  exact ⟨hx.room, hl.add_word f _, htopped.fp, htopped.same.trans (.of_eq rfl rfl),
    htopped.current, htopped.callers, htopped.globals.of_memory rfl⟩

theorem Linked.symbol_exit (hl : Linked t) (hf : f ∈ functionDecls t.program) :
    ∃ i, t.image.symbol? (exitLabel f.head.name) = some (.text i) := by
  obtain ⟨i, m, hat⟩ := hl.function f hf
  exact ⟨_, Image.At.symbol? hl.names hat.left.right⟩

theorem safe_return (hl : Placed t) (hf : f ∈ functionDecls t.program) {value : Expr}
    (hvalue : SafeExpr t strict f Γ n value f.head.type) :
    SafeCode t strict f n Γ Γ ((Generate.expr (t.context f) value).code ++
      (Emission.ofInstructions ((t.context f).pop .v0 ++
        [.j (exitLabel (t.context f).function)])).code) := by
  intro a base x hin hx _ hexit _
  obtain ⟨exit, hsymbol⟩ := hl.symbol_exit hf
  refine hvalue.popped hl hf (by decide) hin hx fun y _ hjump hy hsuits ↦ ?_
  refine Image.Safe.of_succ (Image.Safe.jump hjump.toAt hsymbol
    (hexit _ hsymbol (.quiet (x := y) ?_ ⟨⟨rfl, rfl, rfl, rfl⟩, rfl, rfl, rfl⟩) fun _ ↦ hsuits))
  exact hy.forget fun _ _ h ↦ absurd h nofun

/-- A service is prepared and asked for. -/
theorem Running.service (h : Running t strict f a base (bodyDepth f a) Γ x)
    (block : List Instruction) (hplain : ∀ i ∈ block, i.plain)
    (hin : t.Inside f x.index (Emission.ofInstructions (block ++ [.syscall])).code)
    (hnext : ∀ y : Moment, y.index = x.index + (block ++ [Instruction.syscall]).length →
      Running t strict f a base (bodyDepth f a) Γ y → Unreturned f y → t.Safe strict n y) :
    t.Safe strict n x := by
  rw [List.length_append, ← Nat.add_assoc] at hnext
  obtain ⟨hblock, hservice⟩ := hin.split
  refine Target.safe_plain hblock hplain fun y hindex _ hquiet ↦ ?_
  rw [← hindex] at hservice hnext
  refine Image.Safe.service hservice.toAt fun _ text ↦ hnext _ rfl ?_ (.of_last rfl (by simp))
  have hy := h.quiet hquiet
  exact hy.grown (k := 0)
    ((Grown.of_running hy).of_uneventful (z := ⟨⟨y.index + 1, y.machine.print text⟩, _⟩) rfl rfl rfl
      ⟨rfl, rfl, rfl⟩)

theorem safe_ending (ending : PrintEnd) : SafeCode t strict f n Γ Γ
    (Emission.ofInstructions ((endCharacter? ending).elim [] characterCode)).code := by
  have hcharacter : ∀ char : Char, SafeCode t strict f n Γ Γ
      (Emission.ofInstructions (characterCode char)).code := by
    intro char a base x hin hx _ _ hnext
    rw [size_instructions] at hnext
    exact hx.service [.li .a0 (Int32.ofNat char.toNat), .li .v0 11]
      (List.forall_mem_cons.2 ⟨rfl, List.forall_mem_singleton.2 rfl⟩) hin hnext
  cases ending with
  | nothing => exact .of_size rfl
  | space => exact hcharacter ' '
  | newline => exact hcharacter '\n'

theorem safe_printed (hl : Placed t) (hf : f ∈ functionDecls t.program) {value : Expr}
    (hvalue : SafeExpr t strict f Γ n value type) :
    SafeCode t strict f n Γ Γ ((Generate.expr (t.context f) value).code ++
      (Emission.ofInstructions ((t.context f).pop .a0 ++ serviceCode .printInteger)).code) := by
  intro a base x hin hx _ _ hnext
  refine hvalue.popped hl hf (by decide) hin hx fun y hindex hservice hy _ ↦ ?_
  refine hy.service [.li .v0 1] (List.forall_mem_singleton.2 rfl) hservice
    fun z hz ↦ hnext z ?_
  rw [hz, hindex, Code.size_append, size_instructions, ← Nat.add_assoc]
  rfl

/-! ### All statements -/

mutual

/-- The code of a well-typed statement is safe. -/
theorem safe_stmt (hl : Placed t) (hf : f ∈ functionDecls t.program) : ∀ (s : Stmt) (n : Nat)
    (Γ : Env) (m : UInt32), (∀ k < n, SafeCalls t strict k) → Typed f.head.type Γ s →
    Fresh Γ s.variables → (∀ d ∈ Layout.declared s, d ∈ Layout.declaredAll f.body) →
      SafeCode t strict f n Γ (Γ.after s) (Generate.stmt (t.context f) s m).code
  | .block span body, n, Γ, m, hcalls, .block hbody, hfresh, hdeclared =>
    (SafeCode.of_size (size_remark _ _)).append
      (safe_stmts hl hf body n Γ m hcalls hbody hfresh hdeclared)
  | .var span head none, n, Γ, m, hcalls, .declared, hfresh, hdeclared =>
    safe_declared hl hf span m (hdeclared _ List.mem_cons_self)
  | .var span head (some value), n, Γ, m, hcalls, .initialized hvalue, hfresh, hdeclared =>
    safe_initialized hl hf span m (hdeclared _ List.mem_cons_self)
      (safe_expr hl hf hcalls value _ hvalue)
  | .assign span name target value, n, Γ, m, hcalls, .assign hname hvalue, _, _ =>
    safe_assign hl hf span target m hname (safe_expr hl hf hcalls value _ hvalue)
  | .conditional span condition thenBranch none, n, Γ, m, hcalls, .when hcondition hthen, hfresh,
      hdeclared =>
    safe_when hl hf span (safe_expr hl hf hcalls condition _ hcondition)
      ((safe_stmt hl hf thenBranch n Γ _ hcalls hthen hfresh hdeclared).forget
        (Fresh.after_eq (s := thenBranch) hfresh))
  | .conditional span condition thenBranch (some elseBranch), n, Γ, m, hcalls,
      .choose hcondition hthen helse, hfresh, hdeclared =>
    have hdeclared := List.forall_mem_append.1 hdeclared
    safe_choose hl hf span (safe_expr hl hf hcalls condition _ hcondition)
      ((safe_stmt hl hf thenBranch n Γ _ hcalls hthen hfresh.left hdeclared.1).forget
        hfresh.left.after_eq)
      ((safe_stmt hl hf elseBranch n Γ _ hcalls helse hfresh.right hdeclared.2).forget
        hfresh.right.after_eq)
  | .loop span condition body, n, Γ, m, hcalls, .loop hcondition hbody, hfresh, hdeclared =>
    have hfewer : ∀ k ≤ n, ∀ j < k, SafeCalls t strict j := fun k hk j hj ↦
      hcalls j (Nat.lt_of_lt_of_le hj hk)
    safe_loop hl hf span (fun k hk ↦ safe_expr hl hf (hfewer k hk) condition _ hcondition)
      fun k hk ↦ (safe_stmt hl hf body k Γ _ (hfewer k hk) hbody hfresh hdeclared).forget
        (Fresh.after_eq (s := body) hfresh)
  | .evaluate span value, n, Γ, m, hcalls, .evaluate hvalue, _, _ => by
    rw [Generate.stmt, Emission.code_append, Emission.code_append, List.append_assoc]
    exact (SafeCode.of_size (size_remark _ _)).append
      (safe_evaluate hl (safe_expr hl hf hcalls value _ hvalue))
  | .return_ span value, n, Γ, m, hcalls, .return_ hvalue, _, _ => by
    rw [Generate.stmt, Emission.code_append, Emission.code_append, List.append_assoc]
    exact (SafeCode.of_size (size_remark _ _)).append
      (safe_return hl hf (safe_expr hl hf hcalls value _ hvalue))
  | .print span ending none, n, Γ, m, hcalls, .separate, _, _ =>
    (SafeCode.of_size (size_remark _ _)).append (safe_ending ending)
  | .print span ending (some value), n, Γ, m, hcalls, .print hvalue, _, _ =>
    (SafeCode.of_size (size_remark _ _)).append
      ((safe_printed hl hf (safe_expr hl hf hcalls value _ hvalue)).append (safe_ending ending))
termination_by structural s => s

/-- The code of well-typed statements is safe. What they declare is forgotten. -/
theorem safe_stmts (hl : Placed t) (hf : f ∈ functionDecls t.program) : ∀ (body : List Stmt)
    (n : Nat) (Γ : Env) (m : UInt32), (∀ k < n, SafeCalls t strict k) →
    TypedAll f.head.type Γ body → Fresh Γ (Stmt.variablesAll body) →
    (∀ d ∈ Layout.declaredAll body, d ∈ Layout.declaredAll f.body) →
      SafeCode t strict f n Γ Γ (Generate.stmts (t.context f) body m).code
  | [], _, _, _, _, _, _, _ => .of_size rfl
  | first :: rest, n, Γ, m, hcalls, .cons hfirst hrest, hfresh, hdeclared =>
    have hdeclared := List.forall_mem_append.1 hdeclared
    ((safe_stmt hl hf first n Γ m hcalls hfirst hfresh.left hdeclared.1).append
      (safe_stmts hl hf rest n _ _ hcalls hrest hfresh.after hdeclared.2)).forget
        hfresh.left.after_eq
termination_by structural body => body

end

end ScalarMips
