import ScalarMips.Proofs.Sources

/-!
# Running activations

The state of an activation, said of the machine and of its history (`Running`): where its pointers
are, that every visible variable has a word with a source, and that nothing outside of its frame has
changed since it began. From this every load of a variable is as it should be
(`Running.load_variable`).

`Grown` is what an expression changes: some words are put on top of the stack, and those that were
there stay as they are. Pushing and popping are said in this form (`Grown.push`, `Topped.pop`), as
rules that ask for a safe moment afterwards.
-/

namespace ScalarMips

open Generate
open Semantics (bodyDepth)

variable {t : Target} {strict : Prop} {f : FunctionDecl} {a d i k n : Nat} {name : String}
  {type : ScalarType} {Γ : Env} {x y z base : Moment}

/-! ### Symbols and addresses -/

namespace Layout

theorem mem_parameterSymbols_of_mem {p : Declarator} : ∀ {parameters : List Declarator} (n : Nat),
    p ∈ parameters → ∃ offset, .parameter p.name p.type offset ∈ parameterSymbols n parameters
  | [], _, h => absurd h List.not_mem_nil
  | q :: parameters, n, h => by
    rcases List.mem_cons.1 h with rfl | h
    · exact ⟨_, List.mem_cons_self⟩
    · obtain ⟨offset, hmem⟩ := mem_parameterSymbols_of_mem (n + 1) h
      exact ⟨offset, List.mem_cons_of_mem _ hmem⟩

theorem mem_localSymbols_of_mem {name : String} {type : ScalarType} :
    ∀ {declared : List Declared} (n : Nat), .var name type ∈ declared →
      ∃ offset, .var name type offset none ∈ localSymbols n declared
  | [], _, h => absurd h List.not_mem_nil
  | .var _ _ :: declared, n, h => by
    rcases List.mem_cons.1 h with heq | h
    · cases heq
      exact ⟨_, List.mem_cons_self⟩
    · obtain ⟨offset, hmem⟩ := mem_localSymbols_of_mem (n + 1) h
      exact ⟨offset, List.mem_cons_of_mem _ hmem⟩
  | .function _ :: declared, n, h => by
    rcases List.mem_cons.1 h with heq | h
    · cases heq
    · have hrest := mem_localSymbols_of_mem n h
      exact hrest

end Layout

namespace Linked

theorem symbol?_of_mem (hl : Linked t) (hf : f ∈ functionDecls t.program) {s : Symbol}
    (hs : s ∈ Layout.frameSymbols f) : (t.context f).symbol? s.name = some s := by
  rw [Context.symbol?, hl.find?_frameSymbols hf hs]
  rfl

theorem symbol?_parameter (hl : Linked t) (hf : f ∈ functionDecls t.program) {p : Declarator}
    (hp : p ∈ f.parameters) : ∃ s, (t.context f).symbol? p.name = some s ∧ s.type = p.type := by
  obtain ⟨offset, hmem⟩ := Layout.mem_parameterSymbols_of_mem 0 hp
  exact ⟨_, hl.symbol?_of_mem hf (List.mem_append_left _ hmem), rfl⟩

theorem symbol?_declared (hl : Linked t) (hf : f ∈ functionDecls t.program)
    (h : .var name type ∈ Layout.declaredAll f.body) :
    ∃ s, (t.context f).symbol? name = some s ∧ s.type = type := by
  obtain ⟨offset, hmem⟩ := Layout.mem_localSymbols_of_mem 0 h
  exact ⟨_, hl.symbol?_of_mem hf (List.mem_append_right _ hmem), rfl⟩

theorem mem_variables (hl : Linked t) (hf : f ∈ functionDecls t.program)
    (h : .var name type ∈ Layout.declaredAll f.body) : name ∈ f.variables := by
  have hnames := (Layout.declaredAll_spec f.body (hl.grammatical f hf)).2
  exact List.mem_append_right _ (hnames ▸ List.mem_map_of_mem h)

theorem locals_find? (hl : Linked t) (hf : f ∈ functionDecls t.program) (h : name ∉ f.variables) :
    (t.context f).locals.find? name = none := by
  refine List.find?_eq_none.2 fun s hs ↦ ?_
  rw [decide_eq_true_eq]
  rintro rfl
  exact h (Layout.names_frameSymbols (hl.grammatical f hf) ▸ List.mem_map_of_mem hs)

theorem symbol?_global (hl : Linked t) (hf : f ∈ functionDecls t.program) {s : Symbol}
    (hs : s ∈ t.table.vars) : (t.context f).symbol? s.name = some s := by
  have hsymbols : (t.table.symbols.map Symbol.name).Nodup :=
    hl.stored.names ▸ hl.distinct.topNames
  rw [Context.symbol?, hl.locals_find? hf (hl.global_notMem hf hs), Option.none_or]
  exact find?_of_nodup Symbol.name hsymbols (List.mem_filter.1 hs).1

/-- Variables of a function are found through a pointer, and others by their label. -/
theorem address?_cases (hl : Linked t) (hf : f ∈ functionDecls t.program) {address : Address}
    (h : (t.context f).address? name = some address) :
    (name ∈ f.variables ∧ ∃ offset, address = .above offset .fp ∨ address = .below offset .fp) ∨
      name ∉ f.variables ∧ address = .label name := by
  by_cases hname : name ∈ f.variables
  · refine .inl ⟨hname, ?_⟩
    rw [← Layout.names_frameSymbols (hl.grammatical f hf)] at hname
    obtain ⟨s, hs, rfl⟩ := List.mem_map.1 hname
    rw [Context.address?, hl.find?_frameSymbols hf hs] at h
    rcases Layout.mem_frameSymbols hs with ⟨_, _, _, rfl⟩ | ⟨_, _, _, rfl⟩
    · cases h
      exact ⟨_, .inl rfl⟩
    · cases h
      exact ⟨_, .inr rfl⟩
  · refine .inr ⟨hname, ?_⟩
    rw [Context.address?, hl.locals_find? hf hname] at h
    simp only at h
    split at h
    · rename_i hfind
      cases h
      exact congrArg Address.label (name_of_find? hfind)
    · cases h

end Linked

/-! ### What stays the same -/

/-- Words of the stack and their last writes are the same. -/
def Same (t : Target) (S : Nat → Prop) (x y : Moment) : Prop :=
  ∀ k, S k → y.machine.memory (t.slot k) = x.machine.memory (t.slot k) ∧
    y.history.written (t.slot k) = x.history.written (t.slot k)

/-- The words of the stack up to the `d`-th one. -/
def UpTo (d k : Nat) : Prop := 1 ≤ k ∧ k ≤ d

/-- The words that do not belong to the frame of an activation: those before its arguments, and the
saved registers. -/
def Outside (f : FunctionDecl) (a k : Nat) : Prop :=
  (1 ≤ k ∧ k + f.parameters.length ≤ a) ∨ k = a + 1 ∨ k = a + 2

namespace Same

variable {S : Nat → Prop}

theorem refl (t : Target) (S : Nat → Prop) (x : Moment) : Same t S x x := fun _ _ ↦ ⟨rfl, rfl⟩

theorem trans (h : Same t S x y) (h' : Same t S y z) : Same t S x z := fun k hk ↦
  ⟨(h' k hk).1.trans (h k hk).1, (h' k hk).2.trans (h k hk).2⟩

theorem mono {S' : Nat → Prop} (h : Same t S x y) (hsub : ∀ k, S' k → S k) : Same t S' x y :=
  fun k hk ↦ h k (hsub k hk)

theorem of_eq (hmemory : y.machine.memory = x.machine.memory)
    (hwritten : y.history.written = x.history.written) : Same t S x y := fun k _ ↦ by
  rw [hmemory, hwritten]
  exact ⟨rfl, rfl⟩

end Same

/-- A word was written, and nothing else has changed. -/
structure Stores (p : Word) (v : Word) (x y : Moment) : Prop where
  /-- The word is in memory. -/
  memory : y.machine.memory = fun q ↦ if q = p then v else x.machine.memory q
  /-- The registers are the same. -/
  get : ∀ r, y.machine.get r = x.machine.get r
  /-- The write is known. -/
  written : y.history.written = (x.history.write p x.index).written
  /-- The same activation is running. -/
  current : y.history.current = x.history.current
  /-- So are its callers. -/
  callers : y.history.callers = x.history.callers

namespace Stores

variable {p q v : Word}

theorem memory_self (h : Stores p v x y) : y.machine.memory p = v := by
  rw [h.memory]
  exact if_pos rfl

theorem memory_of_ne (h : Stores p v x y) (hne : q ≠ p) :
    y.machine.memory q = x.machine.memory q := by
  rw [h.memory]
  exact if_neg hne

theorem written_self (h : Stores p v x y) :
    y.history.written p = some ⟨x.history.current.number, x.index⟩ := by
  rw [h.written]
  exact x.history.written_write_self p _

theorem written_of_ne (h : Stores p v x y) (hne : q ≠ p) :
    y.history.written q = x.history.written q := by
  rw [h.written]
  exact x.history.written_write_of_ne _ hne

/-- Other words stay as they are. -/
theorem same {S : Nat → Prop} (h : Stores p v x y) (hne : ∀ k, S k → t.slot k ≠ p) :
    Same t S x y := fun k hk ↦ ⟨h.memory_of_ne (hne k hk), h.written_of_ne (hne k hk)⟩

end Stores

/-! ### Global variables -/

/-- Every global variable of truth values holds one. -/
def Proper (t : Target) (strict : Prop) (m : Machine) : Prop :=
  ∀ (k : Nat) (s : Symbol), t.table.vars[k]? = some s →
    Suits strict s.type (m.memory (t.image.address (.data k)))

theorem Proper.of_memory {m m' : Machine} (h : Proper t strict m) (hmemory : m'.memory = m.memory) :
    Proper t strict m' := by
  intro k s hs
  rw [hmemory]
  exact h k s hs

/-- Words of the stack can be written. -/
theorem Stores.proper_slot {v : Word} (hstores : Stores (t.slot k) v x y) (hl : Linked t)
    (h : Proper t strict x.machine) (hk : 1 ≤ k) (hroom : k ≤ t.stack.room) :
    Proper t strict y.machine := by
  intro j s hs
  rw [hstores.memory_of_ne (hl.fits.apart k hk hroom j (hl.lt_words hs)).symm]
  exact h j s hs

/-- A global variable can be written. -/
theorem Stores.proper_global {v : Word} (hstores : Stores (t.image.address (.data k)) v x y)
    (hl : Linked t) (h : Proper t strict x.machine) {s : Symbol} (hs : t.table.vars[k]? = some s)
    (hv : Suits strict s.type v) : Proper t strict y.machine := by
  intro j s' hs'
  by_cases hj : j = k
  · subst hj
    rw [hs] at hs'
    cases hs'
    rw [hstores.memory_self]
    exact hv
  · have hne : t.image.address (.data j) ≠ t.image.address (.data k) := fun heq ↦
      hj (hl.fits.data j k (hl.lt_words hs') (hl.lt_words hs) heq)
    rw [hstores.memory_of_ne hne]
    exact h j s' hs'

/-! ### Activations -/

/-- A visible variable has a word: one in the frame, with a source, or a word of data. -/
inductive Known (t : Target) (strict : Prop) (f : FunctionDecl) (a : Nat) (x : Moment)
    (name : String) (type : ScalarType) : Prop where
  | cell {k : Nat} {s : Symbol} : Cell f a name k → (t.context f).symbol? name = some s →
    s.type = type → Suits strict type (x.machine.memory (t.slot k)) →
    Source t f name (t.slot k) x.history → Known t strict f a x name type
  | global {k : Nat} {s : Symbol} : t.table.vars[k]? = some s → s.name = name → s.type = type →
    Known t strict f a x name type

/-- An activation of a function is running: it was called with `a` words on the stack, now there are
`d`, and `base` was a moment after it had begun. -/
structure Running (t : Target) (strict : Prop) (f : FunctionDecl) (a : Nat) (base : Moment)
    (d : Nat) (Γ : Env) (x : Moment) : Prop where
  /-- The history knows the function. -/
  function : x.history.current.function = f.head.name
  /-- All arguments are on the stack. -/
  arguments : f.parameters.length ≤ a
  /-- There is nothing else at the start of a run. -/
  start : x.history.callers = [] → a = f.parameters.length
  /-- The frame is on the stack. -/
  depth : bodyDepth f a ≤ d
  /-- The stack has room. -/
  room : d ≤ t.stack.room
  /-- The stack pointer is below the words of the stack. -/
  sp : x.machine.get .sp = t.slot d
  /-- The frame pointer is where the frame pointer of the caller is saved. -/
  fp : x.machine.get .fp = t.slot (a + 2)
  /-- Every visible variable has a word. -/
  vars : ∀ name type, Γ name = some (.var type) → Known t strict f a x name type
  /-- Every visible function is one of the program. -/
  functions : ∀ name parameters result, Γ name = some (.function parameters result) →
    signatures t.program name = some (.function parameters result)
  /-- Global variables hold values of their types. -/
  globals : Proper t strict x.machine
  /-- Nothing outside of the frame has changed. -/
  outside : Same t (Outside f a) base x
  /-- The same activation is running. -/
  current : x.history.current = base.history.current
  /-- So are its callers. -/
  callers : x.history.callers = base.history.callers

/-- Some words have been put on top of `d` words, and those have stayed as they were. -/
structure Grown (t : Target) (strict : Prop) (d k : Nat) (x y : Moment) : Prop where
  /-- The stack has room. -/
  room : d + k ≤ t.stack.room
  /-- The stack pointer is below the words. -/
  sp : y.machine.get .sp = t.slot (d + k)
  /-- The frame pointer is the same. -/
  fp : y.machine.get .fp = x.machine.get .fp
  /-- The words that were there are the same. -/
  same : Same t (UpTo d) x y
  /-- The same activation is running. -/
  current : y.history.current = x.history.current
  /-- So are its callers. -/
  callers : y.history.callers = x.history.callers
  /-- Global variables hold values of their types. -/
  globals : Proper t strict y.machine

theorem Known.of_same (h : Known t strict f a x name type) (ha : f.parameters.length ≤ a)
    (hsame : Same t (UpTo (bodyDepth f a)) x y) (hcurrent : y.history.current = x.history.current)
    (hcallers : y.history.callers = x.history.callers) : Known t strict f a y name type := by
  cases h with
  | cell hcell hsymbol htype hvalue hsource =>
    obtain ⟨hk, hdepth, -⟩ := hcell.bounds ha
    obtain ⟨hmemory, hwritten⟩ := hsame _ ⟨hk, hdepth⟩
    exact .cell hcell hsymbol htype (hmemory ▸ hvalue) (hsource.congr hwritten hcurrent hcallers)
  | global hs hname htype => exact .global hs hname htype

namespace Running

/-- The activation goes on with more words on the stack. -/
theorem grown (h : Running t strict f a base d Γ x) (hg : Grown t strict d k x y) :
    Running t strict f a base (d + k) Γ y where
  function := hg.current ▸ h.function
  arguments := h.arguments
  start hfirst := h.start (hg.callers ▸ hfirst)
  depth := Nat.le_trans h.depth (Nat.le_add_right d k)
  room := hg.room
  sp := hg.sp
  fp := hg.fp.trans h.fp
  vars name type hname := (h.vars name type hname).of_same h.arguments
    (hg.same.mono fun _ hk ↦ ⟨hk.1, Nat.le_trans hk.2 h.depth⟩) hg.current hg.callers
  functions := h.functions
  globals := hg.globals
  outside := by
    refine h.outside.trans (hg.same.mono fun k hk ↦ ?_)
    have hdepth := h.depth
    unfold bodyDepth at hdepth
    unfold Outside at hk
    exact ⟨by omega, by omega⟩
  current := hg.current.trans h.current
  callers := hg.callers.trans h.callers

/-- Some names can be forgotten. -/
theorem forget {Δ : Env} (h : Running t strict f a base d Γ x)
    (hsub : ∀ name m, Δ name = some m → Γ name = some m) : Running t strict f a base d Δ x :=
  { h with
    vars := fun name type hname ↦ h.vars name type (hsub _ _ hname)
    functions := fun _ _ _ hname ↦ h.functions _ _ _ (hsub _ _ hname) }

/-- An address belongs to one variable only. -/
theorem address_inj (h : Running t strict f a base d Γ x) (hl : Linked t)
    (hf : f ∈ functionDecls t.program) {name' : String} {address : Address}
    (hname : (t.context f).address? name = some address)
    (hname' : (t.context f).address? name' = some address) : name = name' := by
  have hroom := Nat.le_trans h.depth h.room
  rcases hl.address?_cases hf hname with ⟨hmem, offset, haddress⟩ | ⟨-, haddress⟩
  · rcases hl.address?_cases hf hname' with ⟨hmem', -⟩ | ⟨-, haddress'⟩
    · -- Different cells have different addresses.
      obtain ⟨k, hcell⟩ := Cell.exists_of_mem hmem h.arguments
      obtain ⟨k', hcell'⟩ := Cell.exists_of_mem hmem' h.arguments
      obtain ⟨_, hfound, hlocate⟩ := hl.locate_cell hf h.fp hcell
      obtain ⟨_, hfound', hlocate'⟩ := hl.locate_cell hf h.fp hcell'
      cases hname.symm.trans hfound
      cases hname'.symm.trans hfound'
      obtain ⟨hk, hdepth, -⟩ := hcell.bounds h.arguments
      obtain ⟨hk', hdepth', -⟩ := hcell'.bounds h.arguments
      have hslots := hl.fits.slot_inj ⟨hk, by omega⟩ ⟨hk', by omega⟩
        (Option.some.inj (hlocate.symm.trans hlocate'))
      exact (hslots ▸ hcell).eq_of_cell hcell'
    · rcases haddress with rfl | rfl <;> cases haddress'
  · rcases hl.address?_cases hf hname' with ⟨-, offset, haddress'⟩ | ⟨-, haddress'⟩
    · subst haddress
      rcases haddress' with haddress' | haddress' <;> cases haddress'
    · rw [haddress] at haddress'
      exact Address.label.inj haddress'

/-- A visible variable can be loaded. -/
theorem load_variable (h : Running t strict f a base d Γ x) (hl : Linked t)
    (hf : f ∈ functionDecls t.program) (hname : Γ name = some (.var type)) :
    ∃ address p, (t.context f).address? name = some address ∧
      t.image.locate? x.machine address = some p ∧ Suits strict type (x.machine.memory p) ∧
        (t.Contains f x.index → t.Loads strict x address) := by
  cases h.vars name type hname with
  | @cell k s hcell hsymbol htype hvalue hsource =>
    obtain ⟨address, haddress, hlocate⟩ := hl.locate_cell hf h.fp hcell
    refine ⟨address, _, haddress, hlocate, hvalue, fun hcontains ↦
      ⟨f, hf, h.function.symm, hcontains, _, hlocate, ?_⟩⟩
    refine ⟨.inl ⟨name, haddress⟩, fun name' s' hs' haddress' ↦ ?_, fun name' _ haddress' ↦ ?_,
      fun _ hnone ↦ ?_⟩
    · cases h.address_inj hl hf haddress haddress'
      cases hsymbol.symm.trans hs'
      exact htype ▸ hvalue
    · cases h.address_inj hl hf haddress haddress'
      exact hsource
    · cases hsource with
      | stored hw => cases hnone.symm.trans hw
      | passed hw => cases hnone.symm.trans hw
      | unsupplied hentry hfirst hparameter _ =>
        -- The word is one of those that were taken from the start.
        have ha := h.start hfirst
        refine ⟨hentry, hfirst, k, (hcell.bounds h.arguments).1, ?_, rfl⟩
        cases hcell with
        | parameter _ hk => omega
        | @var i hi =>
          have hdisjoint := (List.nodup_append.1 (hl.distinct.variables hf)).2.2
          exact absurd rfl (hdisjoint _ hparameter _ (List.mem_of_getElem? hi))
  | @global k s hs hsname htype =>
    obtain ⟨address, haddress, hlocate⟩ := hl.locate_global hf hs hsname x.machine
    have hvalue := h.globals k s hs
    have hnot : name ∉ f.variables := hsname ▸ hl.global_notMem hf (List.mem_of_getElem? hs)
    refine ⟨address, _, haddress, hlocate, htype ▸ hvalue, fun hcontains ↦
      ⟨f, hf, h.function.symm, hcontains, _, hlocate, ?_⟩⟩
    refine ⟨.inl ⟨name, haddress⟩, fun name' s' hs' haddress' ↦ ?_, fun name' hmem haddress' ↦ ?_,
      fun hlabel _ ↦ ?_⟩
    · cases h.address_inj hl hf haddress haddress'
      rw [← hsname, hl.symbol?_global hf (List.mem_of_getElem? hs)] at hs'
      cases hs'
      exact hvalue
    · cases h.address_inj hl hf haddress haddress'
      exact absurd hmem hnot
    · rcases hl.address?_cases hf haddress with ⟨hmem, -⟩ | ⟨-, heq⟩
      · exact absurd hmem hnot
      · exact absurd heq (hlabel name)

end Running

/-- A word of the stack that was written can be loaded through the stack pointer. -/
theorem Linked.load_stack (hl : Linked t) (hf : f ∈ functionDecls t.program)
    (hfunction : x.history.current.function = f.head.name) (hcontains : t.Contains f x.index)
    {offset : UInt32} {p : Word} (hlocate : t.image.locate? x.machine (.above offset .sp) = some p)
    (hwritten : x.history.written p ≠ none) : t.Loads strict x (.above offset .sp) := by
  have hnone : ∀ name, (t.context f).address? name ≠ some (.above offset .sp) := by
    intro name haddress
    rcases hl.address?_cases hf haddress with ⟨-, _, haddress | haddress⟩ | ⟨-, haddress⟩
    · cases haddress
    · cases haddress
    · cases haddress
  exact ⟨f, hf, hfunction.symm, hcontains, p, hlocate, .inr ⟨offset, rfl⟩,
    fun name _ _ haddress ↦ absurd haddress (hnone name),
    fun name _ haddress ↦ absurd haddress (hnone name), fun _ h ↦ absurd h hwritten⟩

/-! ### Rules for instructions -/

/-- Nothing was written, and no function was called or came back. -/
structure Uneventful (x y : Moment) : Prop where
  /-- The last writes are the same. -/
  written : y.history.written = x.history.written
  /-- The same activation is running. -/
  current : y.history.current = x.history.current
  /-- So are its callers. -/
  callers : y.history.callers = x.history.callers

theorem Uneventful.refl (x : Moment) : Uneventful x x := ⟨rfl, rfl, rfl⟩

theorem Uneventful.trans (h : Uneventful x y) (h' : Uneventful y z) : Uneventful x z :=
  ⟨h'.written.trans h.written, h'.current.trans h.current, h'.callers.trans h.callers⟩

/-- Scratch registers have changed at most. -/
structure Quiet (x y : Moment) : Prop extends Scratch x.machine y.machine, Uneventful x y

/-- An instruction stays in line and has nothing to do with memory. -/
def Instruction.silent : Instruction → Bool
  | lw .. | sw .. => false
  | i => !i.leaves

/-- An instruction computes something in a register that is no pointer. -/
def Instruction.plain : Instruction → Bool
  | li r _ | compute _ r _ _ | immediate _ r _ _ | mflo r | mfhi r => r ≠ .sp && r ≠ .fp
  | div .. => true
  | _ => false

theorem scratch_set (m : Machine) {r : Register} (v : Word) (h : r ≠ .sp && r ≠ .fp) :
    Scratch m (m.set r v) := by
  simp only [ne_eq, decide_not, Bool.and_eq_true, Bool.not_eq_true', decide_eq_false_iff_not] at h
  exact ⟨rfl, rfl, m.get_set_of_ne _ _ (Ne.symm h.1), m.get_set_of_ne _ _ (Ne.symm h.2)⟩

theorem silent_of_plain {i : Instruction} (h : i.plain) : i.silent := by
  cases i <;> first | rfl | cases h

theorem scratch_of_plain {image : Image} {block : List Instruction} (h : ∀ i ∈ block, i.plain) :
    ∀ {m m' : Machine}, image.run? m block = some m' → Scratch m m' := by
  induction block with
  | nil =>
    rintro m _ ⟨⟩
    exact .refl m
  | cons i block ih =>
    intro m m' hrun
    obtain ⟨hfirst, hrest⟩ := List.forall_mem_cons.1 h
    obtain ⟨m₁, heffect, hrun⟩ : ∃ m₁, image.effect? m i = some m₁ ∧
        image.run? m₁ block = some m' := Option.bind_eq_some_iff.1 hrun
    have hlater := ih hrest hrun
    have hscratch : Scratch m m₁ := by
      cases i with
      | li | compute | immediate | mflo | mfhi =>
        cases heffect
        exact scratch_set m _ hfirst
      | div =>
        rw [Image.effect?] at heffect
        split at heffect
        · cases heffect
          exact ⟨rfl, rfl, rfl, rfl⟩
        · cases heffect
      | _ => cases hfirst
    exact ⟨hlater.memory.trans hscratch.memory, hlater.output.trans hscratch.output,
      hlater.sp.trans hscratch.sp, hlater.fp.trans hscratch.fp⟩

namespace Target

/-- A block that has nothing to do with memory. -/
theorem safe_silent {block : List Instruction} : ∀ {x : Moment},
    t.Inside f x.index (Emission.ofInstructions block).code → (∀ i ∈ block, i.silent) →
    (∀ y : Moment, y.index = x.index + block.length →
      t.image.run? x.machine block = some y.machine → Uneventful x y → t.Safe strict n y) →
    t.Safe strict n x := by
  induction block with
  | nil => exact fun {x} _ _ hnext ↦ hnext x rfl rfl (.refl x)
  | cons i block ih =>
    intro x hin hsilent hnext
    obtain ⟨hfirst, hrest⟩ := List.forall_mem_cons.1 hsilent
    have hleaves : i.leaves = false := by
      cases i <;> first | rfl | cases hfirst
    have hloads : i.loads = false := by
      cases i <;> first | rfl | cases hfirst
    refine Image.Safe.onward hin.toAt hleaves hloads fun _ m heffect ↦ ?_
    have hevents : Uneventful x ⟨⟨x.index + 1, m⟩, t.image.note x i⟩ := by
      refine ⟨?_, ?_, ?_⟩ <;> cases i <;> first | rfl | cases hfirst
    refine ih hin.tail hrest fun y hindex hrun hevents' ↦ ?_
    refine hnext y ?_ ((Image.run?_cons heffect).trans hrun) (hevents.trans hevents')
    rw [hindex, List.length_cons]
    exact Nat.add_right_comm x.index 1 block.length

/-- A block that computes something. -/
theorem safe_plain {block : List Instruction}
    (hin : t.Inside f x.index (Emission.ofInstructions block).code) (hplain : ∀ i ∈ block, i.plain)
    (hnext : ∀ y : Moment, y.index = x.index + block.length →
      t.image.run? x.machine block = some y.machine → Quiet x y → t.Safe strict n y) :
    t.Safe strict n x :=
  safe_silent hin (fun i hi ↦ silent_of_plain (hplain i hi)) fun y hindex hrun hevents ↦
    hnext y hindex hrun ⟨scratch_of_plain hplain hrun, hevents⟩

/-- A word is stored. -/
theorem safe_store {r : Register} {address : Address} {p : Word}
    (hin : t.Inside f x.index (Emission.ofInstructions [.sw r address]).code)
    (hlocate : t.image.locate? x.machine address = some p)
    (hnext : ∀ y : Moment, y.index = x.index + 1 → Stores p (x.machine.get r) x y →
      y.history.last = some (.sw r address) → t.Safe strict n y) : t.Safe strict n x := by
  refine Image.Safe.onward hin.toAt rfl rfl fun _ m heffect ↦ ?_
  rw [Image.effect?, hlocate] at heffect
  cases heffect
  have hnote : t.image.note x (.sw r address) =
      { x.history.write p x.index with last := some (.sw r address) } := by
    simp only [Image.note, hlocate]
  rw [hnote]
  exact hnext _ rfl ⟨rfl, fun _ ↦ rfl, rfl, rfl, rfl⟩ rfl

/-- A word of the stack is loaded through the stack pointer. -/
theorem safe_load {r : Register} {offset : UInt32} {p : Word} (hl : Linked t)
    (hf : f ∈ functionDecls t.program) (hfunction : x.history.current.function = f.head.name)
    (hin : t.Inside f x.index (Emission.ofInstructions [.lw r (.above offset .sp)]).code)
    (hlocate : t.image.locate? x.machine (.above offset .sp) = some p)
    (hwritten : x.history.written p ≠ none)
    (hnext : t.Safe strict n ⟨⟨x.index + 1, x.machine.set r (x.machine.memory p)⟩,
      { x.history with last := some (.lw r (.above offset .sp)) }⟩) : t.Safe strict n x := by
  refine Image.Safe.effect hin.toAt rfl (fun r' address h ↦ ?_) fun _ m heffect ↦ ?_
  · cases h
    exact hl.load_stack hf hfunction hin.contains hlocate hwritten
  · rw [Image.effect?, hlocate] at heffect
    cases heffect
    exact hnext

end Target

/-- There is room for what is taken from the stack. -/
theorem Placed.room_of_admits (hl : Placed t) {amount : UInt32} {rest : Code}
    (hat : t.image.At x.index (.instruction (.immediate .subu .sp .sp amount) :: rest))
    (hadmits : t.Admits strict x) (hsp : x.machine.get .sp = t.slot d) (hd : d ≤ t.stack.room)
    (hamount : amount.toNat = 4 * n) : d + n ≤ t.stack.room := by
  have hle := hadmits.1 amount (by rw [hat.fetch?]; rfl)
  have hlast : t.slot t.stack.room = t.slot d - BitVec.ofNat 32 (4 * (t.stack.room - d)) := by
    rw [Target.slot, Target.slot, Stack.slot_sub, Nat.add_sub_cancel' hd]
  have hdistance : (t.slot d - t.slot t.stack.room).toNat = 4 * (t.stack.room - d) := by
    have hlt := hl.room_lt
    rw [hlast, sub_sub_cancel, BitVec.toNat_ofNat, Nat.mod_eq_of_lt (by omega)]
  rw [hsp, hdistance, hamount] at hle
  omega

/-! ### Pushing and popping -/

/-- The value of an expression was put on top of `d` words, by the instruction before `stop`. -/
structure Topped (t : Target) (strict : Prop) (d : Nat) (type : ScalarType) (stop : Nat)
    (x y : Moment) : Prop extends Grown t strict d 1 x y where
  /-- The word is a value of the type. -/
  value : Suits strict type (y.machine.memory (t.slot (d + 1)))
  /-- The activation has written it. -/
  written : ∃ w, y.history.written (t.slot (d + 1)) = some w ∧
    w.activation = x.history.current.number ∧ w.index + 1 = stop

namespace Grown

theorem of_running (h : Running t strict f a base d Γ x) : Grown t strict d 0 x x :=
  ⟨h.room, h.sp, rfl, .refl t _ x, rfl, rfl, h.globals⟩

theorem of_uneventful (h : Grown t strict d k x y) (hmemory : z.machine.memory = y.machine.memory)
    (hsp : z.machine.get .sp = y.machine.get .sp) (hfp : z.machine.get .fp = y.machine.get .fp)
    (hu : Uneventful y z) : Grown t strict d k x z where
  room := h.room
  sp := hsp.trans h.sp
  fp := hfp.trans h.fp
  same := h.same.trans (.of_eq hmemory hu.written)
  current := hu.current.trans h.current
  callers := hu.callers.trans h.callers
  globals := h.globals.of_memory hmemory

theorem of_quiet (h : Grown t strict d k x y) (hq : Quiet y z) : Grown t strict d k x z :=
  h.of_uneventful hq.memory hq.sp hq.fp hq.toUneventful

/-- More words have been put on top. -/
theorem trans {l : Nat} (h : Grown t strict d k x y) (h' : Grown t strict (d + k) l y z) :
    Grown t strict d (k + l) x z where
  room := Nat.add_assoc d k l ▸ h'.room
  sp := Nat.add_assoc d k l ▸ h'.sp
  fp := h'.fp.trans h.fp
  same := h.same.trans (h'.same.mono fun _ hj ↦ ⟨hj.1, Nat.le_add_right_of_le hj.2⟩)
  current := h'.current.trans h.current
  callers := h'.callers.trans h.callers
  globals := h'.globals

/-- A register is pushed. -/
theorem push (h : Grown t strict d 0 x y) (hl : Placed t) {r : Register} (hr : r ≠ .sp)
    (hin : t.Inside f y.index (Emission.ofInstructions ((t.context f).push r)).code)
    (hvalue : Suits strict type (y.machine.get r))
    (hnext : ∀ z : Moment, z.index = y.index + 2 →
      Topped t strict d type (y.index + 2) x z → t.Safe strict n z) : t.Safe strict n y := by
  refine Image.Safe.onward hin.toAt rfl rfl fun hadmits m heffect ↦ ?_
  have hword : (t.context f).wordSize.toNat = 4 * 1 := by
    rw [hl.wordSize]
    rfl
  have hroom := hl.room_of_admits hin.toAt hadmits h.sp h.room hword
  have hsub : y.machine.get .sp - (t.context f).wordSize.toBitVec = t.slot (d + 1) :=
    h.sp ▸ hl.sub_word f d
  rw [Image.effect?, ImmediateOp.compute, hsub] at heffect
  cases heffect
  have hget : (y.machine.set .sp (t.slot (d + 1))).get r = y.machine.get r :=
    y.machine.get_set_of_ne _ _ hr
  have hglobals : Proper t strict (y.machine.set .sp (t.slot (d + 1))) := h.globals.of_memory rfl
  refine Target.safe_store hin.tail (hl.locate_top rfl) fun z hindex hstores _ ↦ ?_
  have hne : ∀ k, UpTo d k → t.slot k ≠ t.slot (d + 1) := fun k hk ↦
    hl.slot_ne_slot ⟨hk.1, by have := hk.2; omega⟩ ⟨by omega, hroom⟩ (by have := hk.2; omega)
  refine hnext z hindex ⟨⟨hroom, ?_, ?_, h.same.trans ?_, ?_, ?_, ?_⟩, ?_, ?_⟩
  · exact hstores.get .sp
  · exact (hstores.get .fp).trans h.fp
  · exact (Same.of_eq rfl rfl).trans (hstores.same hne)
  · exact hstores.current.trans h.current
  · exact hstores.callers.trans h.callers
  · exact hstores.proper_slot hl.toLinked hglobals (by omega) hroom
  · rw [hstores.memory_self, hget]
    exact hvalue
  · exact ⟨_, hstores.written_self, congrArg Activation.number h.current, rfl⟩

end Grown

namespace Topped

variable {stop : Nat}

/-- The word on top is still there after something was put on it and taken off again. -/
theorem of_grown (h : Topped t strict d type stop x y) (hg : Grown t strict (d + 1) 0 y z) :
    Topped t strict d type stop x z := by
  obtain ⟨hmemory, hwritten⟩ := hg.same (d + 1) ⟨Nat.le_add_left 1 d, Nat.le_refl _⟩
  obtain ⟨w, hw, hactivation, hindex⟩ := h.written
  refine ⟨⟨h.room, hg.sp, hg.fp.trans h.fp, h.same.trans (hg.same.mono fun k hk ↦ ?_),
    hg.current.trans h.current, hg.callers.trans h.callers, hg.globals⟩, hmemory ▸ h.value,
    w, hwritten.trans hw, hactivation, hindex⟩
  exact ⟨hk.1, Nat.le_succ_of_le hk.2⟩

/-- The word on top is popped into a register; other registers stay as they are. -/
theorem pop (h : Topped t strict d type stop x y) (hl : Linked t)
    (hf : f ∈ functionDecls t.program) (hfunction : x.history.current.function = f.head.name)
    {r : Register} (hr : r ∉ [Register.zero, .sp, .fp])
    (hin : t.Inside f y.index (Emission.ofInstructions ((t.context f).pop r)).code)
    (hnext : ∀ z : Moment, z.index = y.index + 2 → Grown t strict d 0 x z →
      Suits strict type (z.machine.get r) →
      (∀ s, s ≠ r → s ≠ .sp → z.machine.get s = y.machine.get s) → t.Safe strict n z) :
    t.Safe strict n y := by
  simp only [List.mem_cons, List.not_mem_nil, or_false, not_or] at hr
  obtain ⟨hzero, hsp, hfp⟩ := hr
  obtain ⟨w, hw, -⟩ := h.written
  have hwritten : y.history.written (t.slot (d + 1)) ≠ none := by
    rw [hw]
    exact Option.some_ne_none w
  refine Target.safe_load hl hf (h.current ▸ hfunction) hin.left (hl.locate_top h.sp) hwritten ?_
  refine Image.Safe.onward hin.tail.toAt rfl rfl fun _ m heffect ↦ ?_
  have hget : (y.machine.set r (y.machine.memory (t.slot (d + 1)))).get .sp = t.slot (d + 1) :=
    (y.machine.get_set_of_ne _ _ (Ne.symm hsp)).trans h.sp
  rw [Image.effect?, ImmediateOp.compute, hget, hl.add_word f d] at heffect
  cases heffect
  have hpointers : Register.fp ≠ .sp := by decide
  refine hnext _ rfl ⟨Nat.le_of_succ_le h.room, rfl, ?_, h.same.trans (.of_eq rfl rfl), h.current,
    h.callers, h.globals.of_memory rfl⟩ ?_ fun s hs hs' ↦ ?_
  · rw [Machine.get_set_of_ne _ _ _ hpointers, Machine.get_set_of_ne _ _ _ (Ne.symm hfp)]
    exact h.fp
  · rw [Machine.get_set_of_ne _ _ _ hsp, Machine.get_set_self _ _ _ hzero]
    exact h.value
  · rw [Machine.get_set_of_ne _ _ _ hs', Machine.get_set_of_ne _ _ _ hs]

end Topped

end ScalarMips
