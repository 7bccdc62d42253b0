import ScalarMips.Proofs.FrameSlots
import ScalarMips.Proofs.StmtSimulation

/-!
# Calls and programs in code

A call saves two registers, runs the body and comes back to where it was called from, with the stack
as it was (`simulates_call`); the entry point ends the program instead. This was the last part of
the induction (`simulates`): with any fuel, and with as much room as the stack of the machine has,
the code does what the reference semantics says.

A loaded machine stands for the start of a run, so it ends the program with the same output
(`exits_of_run`).
-/

namespace ScalarMips

open Generate
open Semantics (Stop World Locals Setup bodyDepth)

variable {t : Target} {f : FunctionDecl} {a d i j fuel : Nat} {m m' : Machine} {w : World}

/-! ### Frames -/

theorem Linked.localSize (hl : Linked t) (hf : f ∈ functionDecls t.program) :
    (t.context f).locals.localSize.toBitVec =
      BitVec.ofNat 32 (4 * (Stmt.variablesAll f.body).length) :=
  toBitVec_localSize hl.stored.wordSize (hl.grammatical f hf)

/-- The frame at the start of a call is made of the arguments on the stack. -/
theorem framed_enter {d : Nat} {values : List (Option Int32)}
    (hlength : values.length = f.parameters.length) (h : OnStack t d m values) :
    Framed t f (d + values.length) (Locals.enter f.parameters values) m := by
  have hindex : ∀ (parameters : List Declarator) (values : List (Option Int32)),
      OnStack t d m values → ∀ name value, Locals.enter parameters values name = some value →
        ∃ j, (parameters.map Declarator.name)[j]? = some name ∧ j < values.length ∧
          ∀ v, value = some v → m.memory (t.slot (d + values.length - j)) = v.toBitVec := by
    intro parameters
    induction parameters with
    | nil => exact fun _ _ _ _ hvalue ↦ absurd hvalue nofun
    | cons p parameters ih =>
      intro values hstack name value hvalue
      cases values with
      | nil => exact absurd hvalue nofun
      | cons first values =>
        simp only [Locals.enter] at hvalue
        split at hvalue
        · rename_i hname
          cases hvalue
          exact ⟨0, congrArg some hname.symm, Nat.zero_lt_succ _, hstack.1⟩
        · obtain ⟨j, hj, hlt, hmemory⟩ := ih values hstack.2 name value hvalue
          refine ⟨j + 1, hj, Nat.succ_lt_succ hlt, fun v hv ↦ ?_⟩
          have hslot : d + (first :: values).length - (j + 1) = d + values.length - j := by
            rw [List.length_cons]
            omega
          rw [hslot]
          exact hmemory v hv
  intro name value hvalue
  obtain ⟨j, hj, hlt, hmemory⟩ := hindex f.parameters values h name value hvalue
  exact ⟨d + values.length - j, .parameter hj (by omega), hmemory⟩

/-! ### Prologue and epilogue -/

/-- The word above the one that the stack pointer points to. -/
theorem Linked.locate_saved (hl : Linked t) (f : FunctionDecl)
    (hsp : m.get .sp = t.slot (a + 2)) :
    t.image.locate? m (.above (t.context f).wordSize .sp) = some (t.slot (a + 1)) := by
  rw [Image.locate?, hsp, hl.add_word f (a + 1)]
  exact hl.fits.aligned_slot (a + 1)

/-- A machine that has just entered a function which was called with `a` words on the stack. -/
structure Entered (t : Target) (f : FunctionDecl) (a : Nat) (m m' : Machine) : Prop where
  /-- The stack pointer is below the variables. -/
  sp : m'.get .sp = t.slot (bodyDepth f a)
  /-- The frame pointer is below the saved registers. -/
  fp : m'.get .fp = t.slot (a + 2)
  /-- The return address is saved. -/
  savedRa : m'.memory (t.slot (a + 1)) = m.get .ra
  /-- The frame pointer of the caller is saved. -/
  savedFp : m'.memory (t.slot (a + 2)) = m.get .fp
  /-- The words that were on the stack are the same. -/
  kept : Kept t a m m'
  /-- So is what all calls share. -/
  shared : ∀ w, Shared t w m → Shared t w m'

/-- The variables of a function are below the saved registers. -/
theorem Linked.sub_localSize (hl : Linked t) (hf : f ∈ functionDecls t.program) :
    t.slot (a + 2) - (t.context f).locals.localSize.toBitVec = t.slot (bodyDepth f a) := by
  rw [hl.localSize hf]
  exact t.stack.slot_sub (a + 2) _

/-- The room for the variables of a function is made. -/
theorem run_reserve (hl : Linked t) (hf : f ∈ functionDecls t.program)
    (hsp : m.get .sp = t.slot (a + 2)) :
    t.image.run? m (if (t.context f).locals.localSize = 0 then [] else
      [.immediate .subu .sp .sp (t.context f).locals.localSize]) =
        some (m.set .sp (t.slot (bodyDepth f a))) := by
  rw [run?_reserve, hsp, hl.sub_localSize hf]

theorem run_prologue (hl : Linked t) (hf : f ∈ functionDecls t.program)
    (hroom : bodyDepth f a ≤ t.stack.room) (hsp : m.get .sp = t.slot a) :
    ∃ m', t.image.run? m (prologue (t.context f)) = some m' ∧ Entered t f a m m' := by
  have hsaved : a + 2 ≤ t.stack.room := Nat.le_trans (Nat.le_add_right _ _) hroom
  have hne : t.slot (a + 1) ≠ t.slot (a + 2) :=
    hl.slot_ne_slot ⟨by omega, by omega⟩ ⟨by omega, hsaved⟩ (by omega)
  have hsub : m.get .sp - (t.context f).savedSize.toBitVec = t.slot (a + 2) := by
    have hwords : (t.context f).savedSize.toBitVec = BitVec.ofNat 32 (4 * 2) := hl.words 2
    rw [hsp, hwords]
    exact t.stack.slot_sub a 2
  have hrun := run?_prologue t.image hsub (hl.add_word f (a + 1)) (hl.fits.aligned_slot (a + 2))
    (hl.fits.aligned_slot (a + 1))
  rw [hl.sub_localSize hf] at hrun
  let first := (m.set .sp (t.slot (a + 2))).store (t.slot (a + 1)) (m.get .ra)
  let second := first.store (t.slot (a + 2)) (m.get .fp)
  refine ⟨(second.set .fp (t.slot (a + 2))).set .sp (t.slot (bodyDepth f a)), hrun, rfl, rfl, ?_,
    ?_, ?_, fun w h ↦ ?_⟩
  · exact (first.memory_store_of_ne _ _ hne).trans (Machine.memory_store_self _ _ _)
  · exact first.memory_store_self _ _
  · have hfirst : Kept t a m first := hl.kept_store (Nat.lt_succ_self a) (by omega) _ _
    exact hfirst.trans (hl.kept_store (by omega) hsaved first _)
  · have hfirst : Shared t w first :=
      (h.set .sp _).store_slot hl (Nat.le_add_left 1 a) (by omega) _
    exact (((hfirst.store_slot hl (Nat.le_add_left 1 _) hsaved _).set .fp _).set .sp _)

/-- The epilogue restores the pointers and finds the return address. -/
theorem run_epilogue (hl : Linked t) (f : FunctionDecl) (hfp : m.get .fp = t.slot (a + 2)) :
    t.image.run? m [.move .sp .fp, .lw .fp (.above 0 .sp),
      .lw .ra (.above (t.context f).wordSize .sp),
      .immediate .addiu .sp .sp (t.context f).savedSize] =
        some ((((m.set .sp (t.slot (a + 2))).set .fp (m.memory (t.slot (a + 2)))).set .ra
          (m.memory (t.slot (a + 1)))).set .sp (t.slot a)) := by
  let moved := m.set .sp (t.slot (a + 2))
  let first := moved.set .fp (m.memory (t.slot (a + 2)))
  let second := first.set .ra (m.memory (t.slot (a + 1)))
  have hmove : t.image.effect? m (.move .sp .fp) = some moved := by
    rw [Image.effect?, hfp]
  have hfirst : t.image.effect? moved (.lw .fp (.above 0 .sp)) = some first := by
    rw [Image.effect?, hl.locate_top (d := a + 2) (m.get_set_self .sp _ (by decide))]
    rfl
  have hsecond : t.image.effect? first (.lw .ra (.above (t.context f).wordSize .sp)) =
      some second := by
    rw [Image.effect?, hl.locate_saved f (a := a) rfl]
    rfl
  have hback : t.image.effect? second (.immediate .addiu .sp .sp (t.context f).savedSize) =
      some (second.set .sp (t.slot a)) := by
    have hadd : second.get .sp + (t.context f).savedSize.toBitVec = t.slot a := by
      have hwords : (t.context f).savedSize.toBitVec = BitVec.ofNat 32 (4 * 2) := hl.words 2
      have hsp : second.get .sp = t.slot (a + 2) := rfl
      rw [hsp, hwords]
      exact t.stack.slot_add a 2
    rw [Image.effect?, ImmediateOp.compute, hadd]
  rw [Image.run?_cons hmove, Image.run?_cons hfirst, Image.run?_cons hsecond,
    Image.run?_cons hback]
  rfl

/-! ### Calls -/

/-- A function that was entered is running. -/
theorem Entered.active {values : List (Option Int32)}
    (h : Entered t f (d + values.length) m m')
    (hroom : bodyDepth f (d + values.length) ≤ t.stack.room)
    (hlength : values.length = f.parameters.length) (hstack : OnStack t d m values)
    (hshared : Shared t w m) :
    Active t f (d + values.length) (bodyDepth f (d + values.length))
      (Locals.enter f.parameters values) w m' where
  arguments := by omega
  depth := Nat.le_refl _
  room := hroom
  sp := h.sp
  fp := h.fp
  framed := framed_enter hlength (hstack.of_kept h.kept)
  shared := h.shared w hshared

/-- The entry point ends the program. -/
theorem exits_entry {image : Image}
    (h : image.At i (Emission.ofInstructions (serviceCode .exit)).code) :
    image.Exits ⟨i, m⟩ m.output := by
  have hsyscall := @Image.At.right image i [_] _ h
  refine ⟨⟨i + 1, m.set .v0 10⟩, .one h.step_eq, ?_, rfl⟩
  exact hsyscall.step_eq

/-- Another function goes back to where it was called from. -/
theorem reaches_caller (hl : Linked t)
    (h : t.image.At i (Emission.ofInstructions (epilogue (t.context f))).code)
    (hfp : m.get .fp = t.slot (a + 2))
    (hra : m.memory (t.slot (a + 1)) = t.image.address (.text j))
    (hj : j < t.image.code.instructions.length) :
    t.image.Reaches ⟨i, m⟩ ⟨j, (((m.set .sp (t.slot (a + 2))).set .fp
      (m.memory (t.slot (a + 2)))).set .ra (m.memory (t.slot (a + 1)))).set .sp (t.slot a)⟩ := by
  have hblock : t.image.At i ((Emission.ofInstructions [.move .sp .fp, .lw .fp (.above 0 .sp),
      .lw .ra (.above (t.context f).wordSize .sp),
      .immediate .addiu .sp .sp (t.context f).savedSize]).code ++ [.instruction (.jr .ra)]) := h
  refine (hblock.left.reaches (run_epilogue hl f hfp)).trans (.one ?_)
  refine hblock.right.step_eq.trans ?_
  rw [Image.perform]
  have hget : t.image.index? (((((m.set .sp (t.slot (a + 2))).set .fp
      (m.memory (t.slot (a + 2)))).set .ra (m.memory (t.slot (a + 1)))).set .sp
        (t.slot a)).get .ra) = some j := by
    rw [← hl.fits.index? hj, ← hra]
    rfl
  rw [hget]

/-- What comes after the body of a function. -/
theorem realises_exit (hl : Linked t) {n : Nat} (hlength : n = f.parameters.length)
    {m₁ m₂ : Machine} {frame : Locals} {returned : Option Int32}
    (h : t.image.At i (Emission.ofInstructions
      (if f.head.name = t.entry then serviceCode .exit else epilogue (t.context f))).code)
    (hra : f.head.name ≠ t.entry →
      m.get .ra = t.image.address (.text j) ∧ j < t.image.code.instructions.length)
    (hentered : Entered t f (d + n) m m₁)
    (hactive : Active t f (d + n) (bodyDepth f (d + n)) frame w m₂)
    (hpreserved : Preserved t f (d + n) m₁ m₂)
    (hreturned : ∀ value, returned = some value → m₂.get .v0 = value.toBitVec) :
    Realises t.image ⟨i, m₂⟩
      (if f.head.name = t.entry then .error (.finished w.output)
      else match returned with
        | some value => .ok (value, w)
        | none => .error (.undefined .missingReturn))
      fun r c ↦ c.index = j ∧ Returned t d n m r.1 r.2 c.machine := by
  split
  · rename_i hentry
    rw [if_pos hentry] at h
    have hexits := exits_entry (m := m₂) h
    rwa [hactive.shared.output] at hexits
  · rename_i hentry
    rw [if_neg hentry] at h
    obtain ⟨haddress, hj⟩ := hra hentry
    cases returned with
    | none => trivial
    | some value =>
      -- The body has left the saved registers alone.
      have hsavedRa : m₂.memory (t.slot (d + n + 1)) = t.image.address (.text j) := by
        rw [hpreserved _ (.inr (.inl rfl)), hentered.savedRa, haddress]
      have hsavedFp : m₂.memory (t.slot (d + n + 2)) = m.get .fp := by
        rw [hpreserved _ (.inr (.inr rfl)), hentered.savedFp]
      refine ⟨_, reaches_caller hl h hactive.fp hsavedRa hj, rfl, ?_, rfl, hsavedFp,
        hreturned value rfl, fun k hk hkd ↦ ?_, hactive.shared.globals, hactive.shared.output⟩
      · have hroom := hactive.room
        unfold bodyDepth at hroom
        omega
      · have hsame := hpreserved k (.inl ⟨hk, by omega⟩)
        exact hsame.trans (hentered.kept k hk (by omega))

theorem simulates_call (hl : Linked t) (hf : f ∈ functionDecls t.program) (ih : Simulates t fuel)
    (values : List (Option Int32)) (hsymbol : t.image.symbol? f.head.name = some (.text i))
    (hra : f.head.name ≠ t.entry →
      m.get .ra = t.image.address (.text j) ∧ j < t.image.code.instructions.length)
    (hsp : m.get .sp = t.slot (d + values.length)) (hstack : OnStack t d m values)
    (hshared : Shared t w m) :
    Realises t.image ⟨i, m⟩ (Semantics.call t.setup (fuel + 1) (d + values.length) w f values)
      fun r c ↦ c.index = j ∧ Returned t d values.length m r.1 r.2 c.machine := by
  rw [Semantics.call]
  split
  · rename_i hlength
    refine Realises.bind_pure (reserve_ne_finished _ _) fun _ hreserve ↦ ?_
    have hroom := le_room_of_reserve hreserve
    -- The name of the function stands for the first instruction of its prologue.
    obtain ⟨start, n, hat⟩ := hl.function f hf
    simp only [Generate.function, Emission.code_append, List.append_assoc] at hat
    have hlabel := hat.right
    have hstart := hsymbol.symm.trans (Image.At.symbol? hl.names hlabel)
    obtain rfl : i = start := Place.text.inj (Option.some.inj hstart)
    have hprologue := hlabel.right
    obtain ⟨m₁, hrun, hentered⟩ := run_prologue hl hf hroom hsp
    refine Realises.of_reaches (hprologue.left.reaches hrun) ?_
    have hactive := hentered.active hroom hlength hstack hshared
    have hbody := hprologue.right
    have hlast := hbody.right
    have hexit := Image.At.symbol? hl.names hlast
    rw [size_instructions] at hbody hlast hexit
    refine Realises.bind (ih.stmts f.body hf hbody.left hexit
      (fun u hu ↦ List.mem_append_right _ hu) hactive) fun o c ho ↦ ?_
    obtain ⟨returned, frame, w₁⟩ := o
    obtain ⟨index, m₂⟩ := c
    -- However the body ended, the machine is at the exit.
    obtain rfl : index = _ := by
      cases returned with
      | none => exact ho.index
      | some value => exact ho.index.1
    have hending := hlast.right
    rw [size_emission_label, Nat.add_zero] at hending
    refine realises_exit hl hlength hending hra hentered ho.active ho.preserved fun value hv ↦ ?_
    subst hv
    exact ho.index.2
  · trivial

/-! ### Programs -/

theorem Simulates.zero (t : Target) : Simulates t 0 where
  expr _ _ _ _ := by
    rw [Semantics.expr]
    trivial
  exprs _ _ _ _ := by
    rw [Semantics.exprs]
    trivial
  call _ _ _ _ _ _ _ := by
    rw [Semantics.call]
    trivial
  stmt _ _ _ _ _ _ := by
    rw [Semantics.stmt]
    trivial
  stmts _ _ _ _ _ _ := by
    rw [Semantics.stmts]
    trivial

/-- The code does what the reference semantics says, with any fuel. -/
theorem simulates (hl : Linked t) : ∀ fuel, Simulates t fuel
  | 0 => .zero t
  | fuel + 1 =>
    have ih := simulates hl fuel
    { expr := fun e hf h hm ↦ simulates_expr hl hf ih e h hm
      exprs := fun es hf h hm ↦ simulates_exprs hf ih es h hm
      call := fun values hf hsymbol hra hsp hstack hshared ↦
        simulates_call hl hf ih values hsymbol hra hsp hstack hshared
      stmt := fun s hf h hexit hvariables hm ↦ simulates_stmt hl hf ih s h hexit hvariables hm
      stmts := fun body hf h hexit hvariables hm ↦
        simulates_stmts hf ih body h hexit hvariables hm }

/-- A loaded machine stands for the start of a run. -/
theorem Shared.of_loaded (hl : Linked t) {n : Nat} (h : t.image.Loaded t.stack n m) :
    Shared t ⟨Constant.variableValue t.table, ""⟩ m := by
  refine ⟨fun name value hvalue ↦ ?_, h.output⟩
  simp only [Constant.variableValue] at hvalue
  split at hvalue
  · rename_i _ type offset initial hfind
    cases hvalue
    have hmem : Symbol.var _ type offset initial ∈ t.table.vars :=
      List.mem_filter.2 ⟨List.mem_of_find?_eq_some hfind, rfl⟩
    obtain ⟨k, hk⟩ := List.getElem?_of_mem hmem
    refine ⟨k, _, hk, by simpa using List.find?_some hfind, ?_⟩
    exact h.data k _ _ (hl.global k _ hk)
  · cases hvalue

theorem onStack_none (t : Target) (d : Nat) (m : Machine) (n : Nat) :
    OnStack t d m (List.replicate n none) := by
  induction n with
  | zero => trivial
  | succ n ih => exact ⟨nofun, ih⟩

/-- A loaded machine ends the program as the reference semantics does when it has the room of the
machine. -/
theorem exits_of_run (hl : Linked t) (hentry : t.setup.find? t.entry = some f)
    (hloaded : t.image.Loaded t.stack f.parameters.length m) {output : String}
    (hrun : Semantics.run t.setup (Constant.variableValue t.table) fuel = .finished output) :
    t.image.Exits ⟨0, m⟩ output := by
  obtain ⟨hf, hname⟩ := find?_setup hentry
  obtain ⟨i, hsymbol⟩ := hl.symbol_function hf
  have hstep : t.image.step ⟨0, m⟩ = .running ⟨i, m⟩ :=
    hl.start.step_eq.trans (Image.jump_eq (hname ▸ hsymbol))
  refine Image.Exits.of_reaches (.one hstep) ?_
  -- The entry point does not come back, so where it would go does not matter.
  have hcall := (simulates hl fuel).call (d := 0) (j := 0)
    (List.replicate f.parameters.length none) hf hsymbol (fun hne ↦ absurd hname hne)
    (by rw [List.length_replicate, Nat.zero_add]; exact hloaded.sp)
    (onStack_none t 0 m _) (Shared.of_loaded hl hloaded)
  rw [List.length_replicate, Nat.zero_add] at hcall
  rw [Semantics.run] at hrun
  simp only [Target.setup] at hrun hcall hentry
  rw [hentry] at hrun
  simp only at hrun
  split at hrun
  · rename_i stop hstop
    subst hrun
    rwa [hstop] at hcall
  · cases hrun

end ScalarMips
