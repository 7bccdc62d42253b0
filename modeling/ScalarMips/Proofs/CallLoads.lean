import ScalarMips.Proofs.StmtLoads
import ScalarMips.Proofs.TypeSafety

/-!
# Loads in calls and programs

A call opens a frame, runs the body and closes the frame again. The two registers that are loaded at
the end were saved at the start (`Opened`), and the body does not touch them. From the safety of
calls for fewer steps their safety follows for any number of steps (`safeCalls`), and with it that
of the whole run (`Placed.loads_of_occurs`).

Every variable is declared by an instruction of its own, so a function whose code fits into memory
does not have too many of them for its frame (`Placed.localSize_toNat`).
-/

namespace ScalarMips

open Generate
open Semantics (bodyDepth Sound Checked bindAll_eq_some)

variable {t : Target} {strict : Prop} {f : FunctionDecl} {a d n : Nat} {Γ : Env}
  {x y base : Moment}

/-! ### The size of a frame -/

mutual

/-- A statement has an instruction for every variable that it declares. -/
theorem length_variables_le {c : Context} : ∀ (s : Stmt) (m : UInt32), s.Grammatical →
    (∀ u ∈ s.variables, (c.address? u).isSome) →
      s.variables.length ≤ Code.size (Generate.stmt c s m).code
  | .block _ body, m, hg, h => by
    have hbody := length_variablesAll_le body m hg h
    rw [Generate.stmt, Emission.code_append, Code.size_append]
    exact Nat.le_trans hbody (Nat.le_add_left _ _)
  | .function .., _, hg, _ => hg.elim
  | .var _ head initial, m, _, h => by
    obtain ⟨address, haddress⟩ := Option.isSome_iff_exists.1 (h head.name List.mem_cons_self)
    have hstore : 1 ≤ Code.size (storeCode c head.name initial).code := by
      cases initial with
      | none => rw [storeCode_none haddress, size_instructions, List.length_singleton]
      | some value =>
        rw [storeCode_some value haddress, Emission.code_append, Code.size_append,
          size_instructions, List.length_append, List.length_singleton]
        omega
    rw [Generate.stmt, Emission.code_append, Code.size_append]
    exact Nat.le_trans hstore (Nat.le_add_left _ _)
  | .conditional _ _ thenBranch none, m, hg, h => by
    have hthen := length_variables_le thenBranch (m + 1) hg.2 h
    simp only [Generate.stmt, Stmt.variables, Emission.code_append, Code.size_append]
    omega
  | .conditional _ _ thenBranch (some elseBranch), m, hg, h => by
    obtain ⟨hleft, hright⟩ := List.forall_mem_append.1 h
    have hthen := length_variables_le thenBranch (m + 1) hg.2.1 hleft
    have helse := length_variables_le elseBranch
      (m + 1 + UInt32.ofNat (branchCount thenBranch)) hg.2.2 hright
    simp only [Generate.stmt, Stmt.variables, List.length_append, Emission.code_append,
      Code.size_append]
    omega
  | .loop _ _ body, m, hg, h => by
    have hbody := length_variables_le body (m + 1) hg.2 h
    simp only [Generate.stmt, Stmt.variables, Emission.code_append, Code.size_append]
    omega
  | .assign .., _, _, _ => Nat.zero_le _
  | .evaluate .., _, _, _ => Nat.zero_le _
  | .return_ .., _, _, _ => Nat.zero_le _
  | .print .., _, _, _ => Nat.zero_le _
termination_by structural s => s

theorem length_variablesAll_le {c : Context} : ∀ (body : List Stmt) (m : UInt32),
    Stmt.AllGrammatical body → (∀ u ∈ Stmt.variablesAll body, (c.address? u).isSome) →
      (Stmt.variablesAll body).length ≤ Code.size (Generate.stmts c body m).code
  | [], _, _, _ => Nat.zero_le _
  | first :: rest, m, hg, h => by
    obtain ⟨hleft, hright⟩ := List.forall_mem_append.1 h
    have hfirst := length_variables_le first m hg.1 hleft
    have hrest := length_variablesAll_le rest (m + UInt32.ofNat (branchCount first)) hg.2 hright
    rw [Generate.stmts, Stmt.variablesAll, List.length_append, Emission.code_append,
      Code.size_append]
    exact Nat.add_le_add hfirst hrest
termination_by structural body => body

end

namespace Placed

/-- There are not more instructions than addresses of words. -/
theorem size_le (hl : Placed t) : Code.size t.image.code ≤ 2 ^ 30 := by
  have hinjective : Function.Injective fun i : Fin (Code.size t.image.code) ↦
      (⟨(t.image.address (.text i)).toNat / 4, by omega⟩ : Fin (2 ^ 30)) := by
    intro i j hij
    have hi := hl.aligned_text i i.isLt
    have hj := hl.aligned_text j j.isLt
    have hquotients := Fin.mk.inj hij
    exact Fin.ext (hl.fits.text i j i.isLt j.isLt (BitVec.eq_of_toNat_eq (by omega)))
  simpa using Fintype.card_le_of_injective _ hinjective

theorem length_variables_lt (hl : Placed t) (hf : f ∈ functionDecls t.program) :
    (Stmt.variablesAll f.body).length < 2 ^ 30 := by
  have haddress : ∀ u ∈ Stmt.variablesAll f.body, ((t.context f).address? u).isSome := by
    intro u hu
    obtain ⟨k, hcell⟩ := Cell.exists_of_mem (List.mem_append_right _ hu)
      (Nat.le_refl f.parameters.length)
    obtain ⟨address, haddress, -⟩ := hl.locate_cell hf
      (m := ⟨fun _ ↦ t.slot (f.parameters.length + 2), 0, 0, fun _ ↦ 0, ""⟩) rfl hcell
    exact Option.isSome_iff_exists.2 ⟨address, haddress⟩
  obtain ⟨i, m, before, after, hcode, hsize⟩ := hl.function f hf
  have hbody := length_variablesAll_le f.body m (hl.grammatical f hf) haddress
  have hle := hl.size_le
  rw [hcode] at hle
  simp only [Generate.function, Emission.code_append, Code.size_append, size_instructions, prologue,
    List.length_append, List.length_cons] at hle
  omega

/-- The frame of a function is as large as its variables. -/
theorem localSize_toNat (hl : Placed t) (hf : f ∈ functionDecls t.program) :
    (t.context f).locals.localSize.toNat = 4 * (Stmt.variablesAll f.body).length := by
  have hlt := hl.length_variables_lt hf
  exact toNat_localSize hl.stored.wordSize (hl.grammatical f hf) (by omega)

end Placed

/-! ### Opening a frame -/

/-- A function that was called in `x` with `a` words on the stack has saved the registers of its
caller, and now there are `d` words. -/
structure Opened (t : Target) (strict : Prop) (f : FunctionDecl) (a d : Nat) (x y : Moment) :
    Prop where
  /-- The stack has room. -/
  room : d ≤ t.stack.room
  /-- The stack pointer is below the words of the stack. -/
  sp : y.machine.get .sp = t.slot d
  /-- The frame pointer is below the saved registers. -/
  fp : y.machine.get .fp = t.slot (a + 2)
  /-- The return address is saved. -/
  savedRa : y.machine.memory (t.slot (a + 1)) = x.machine.get .ra
  /-- The frame pointer of the caller is saved. -/
  savedFp : y.machine.memory (t.slot (a + 2)) = x.machine.get .fp
  /-- Both were written. -/
  written : y.history.written (t.slot (a + 1)) ≠ none ∧ y.history.written (t.slot (a + 2)) ≠ none
  /-- The words that were on the stack are the same. -/
  same : Same t (UpTo a) x y
  /-- The same activation is running. -/
  current : y.history.current = x.history.current
  /-- So are its callers. -/
  callers : y.history.callers = x.history.callers
  /-- Global variables hold values of their types. -/
  globals : Proper t strict y.machine
  /-- There was no return statement yet. -/
  unreturned : Unreturned f y

/-- The registers of the caller are saved. -/
theorem Called.save (h : Called t strict f a x) (hl : Placed t)
    (hin : t.Inside f x.index (Emission.ofInstructions
      [.immediate .subu .sp .sp (t.context f).savedSize,
        .sw .ra (.above (t.context f).wordSize .sp), .sw .fp (.above 0 .sp), .move .fp .sp]).code)
    (hnext : ∀ y : Moment, y.index = x.index + 4 → Opened t strict f a (a + 2) x y →
      t.Safe strict n y) : t.Safe strict n x := by
  have hwords : (t.context f).savedSize.toBitVec = BitVec.ofNat 32 (4 * 2) := hl.words 2
  refine Image.Safe.onward hin.toAt rfl rfl fun hadmits m heffect ↦ ?_
  have hroom : a + 2 ≤ t.stack.room :=
    hl.room_of_admits hin.toAt hadmits h.sp h.room (congrArg BitVec.toNat hwords)
  have hsub : x.machine.get .sp - (t.context f).savedSize.toBitVec = t.slot (a + 2) := by
    rw [h.sp, hwords]
    exact t.stack.slot_sub a 2
  rw [Image.effect?, ImmediateOp.compute, hsub] at heffect
  cases heffect
  have hglobals : Proper t strict (x.machine.set .sp (t.slot (a + 2))) := h.globals.of_memory rfl
  refine Target.safe_store hin.tail.left (hl.locate_saved f (a := a) rfl)
    fun y hy hra _ ↦ ?_
  have hrest := hin.tail.tail
  rw [← show y.index = x.index + 1 + 1 from hy] at hrest
  refine Target.safe_store hrest.left (hl.locate_top (hra.get .sp)) fun z hz hfp _ ↦ ?_
  have hmove := hrest.tail
  rw [← hz] at hmove
  refine Image.Safe.onward hmove.toAt rfl rfl fun _ m heffect ↦ ?_
  cases heffect
  have hne : t.slot (a + 1) ≠ t.slot (a + 2) :=
    hl.slot_ne_slot ⟨by omega, by omega⟩ ⟨by omega, hroom⟩ (by omega)
  have hsp := (hfp.get .sp).trans (hra.get .sp)
  refine hnext _ (by rw [hz, hy]) ⟨hroom, hsp, hsp, ?_, ?_, ⟨?_, ?_⟩, ?_, ?_, ?_, ?_, ?_⟩
  · exact (hfp.memory_of_ne hne).trans hra.memory_self
  · exact hfp.memory_self.trans (hra.get .fp)
  · rw [show (t.image.note z _).written = z.history.written from rfl, hfp.written_of_ne hne,
      hra.written_self]
    exact Option.some_ne_none _
  · rw [show (t.image.note z _).written = z.history.written from rfl, hfp.written_self]
    exact Option.some_ne_none _
  · have hbelow : ∀ j, a < j → j ≤ a + 2 → ∀ k, UpTo a k → t.slot k ≠ t.slot j := by
      intro j hj hj' k hk
      have hka := hk.2
      exact hl.slot_ne_slot ⟨hk.1, by omega⟩ ⟨by omega, by omega⟩ (by omega)
    exact (Same.of_eq rfl rfl).trans ((hra.same (hbelow _ (by omega) (by omega))).trans
      ((hfp.same (hbelow _ (by omega) (by omega))).trans (.of_eq rfl rfl)))
  · exact hfp.current.trans hra.current
  · exact hfp.callers.trans hra.callers
  · have hfirst := hra.proper_slot hl.toLinked hglobals (by omega) (by omega)
    exact (hfp.proper_slot hl.toLinked hfirst (by omega) hroom).of_memory rfl
  · exact .of_last rfl (by simp)

/-- The room for the variables of a function is made. -/
theorem Opened.reserve (h : Opened t strict f a (a + 2) x y) (hl : Placed t)
    (hf : f ∈ functionDecls t.program)
    (hin : t.Inside f y.index (Emission.ofInstructions
      (if (t.context f).locals.localSize = 0 then [] else
        [.immediate .subu .sp .sp (t.context f).locals.localSize])).code)
    (hnext : ∀ z : Moment, z.index = y.index +
      (if (t.context f).locals.localSize = 0 then [] else
        [Instruction.immediate .subu .sp .sp (t.context f).locals.localSize]).length →
      Opened t strict f a (bodyDepth f a) x z → t.Safe strict n z) : t.Safe strict n y := by
  have hsize := hl.localSize_toNat hf
  split at hin
  · rename_i hzero
    rw [if_pos hzero] at hnext
    have hnone : (Stmt.variablesAll f.body).length = 0 := by
      rw [hzero] at hsize
      exact (Nat.mul_eq_zero.1 hsize.symm).resolve_left (by decide)
    have hdepth : bodyDepth f a = a + 2 := congrArg (a + 2 + ·) hnone
    exact hnext y rfl (hdepth.symm ▸ h)
  · rename_i hzero
    rw [if_neg hzero] at hnext
    refine Image.Safe.onward hin.toAt rfl rfl fun hadmits m heffect ↦ ?_
    have hroom := hl.room_of_admits hin.toAt hadmits h.sp h.room hsize
    have hrun := run_reserve hl.toLinked hf h.sp
    rw [if_neg hzero, Image.run?_cons heffect] at hrun
    cases hrun
    exact hnext _ rfl ⟨hroom, rfl, h.fp, h.savedRa, h.savedFp, h.written,
      h.same.trans (.of_eq rfl rfl), h.current, h.callers, h.globals.of_memory rfl,
      .of_last rfl (by simp)⟩

/-- The prologue opens a frame. -/
theorem Called.open (h : Called t strict f a x) (hl : Placed t) (hf : f ∈ functionDecls t.program)
    (hin : t.Inside f x.index (Emission.ofInstructions (prologue (t.context f))).code)
    (hnext : ∀ y : Moment, y.index = x.index + (prologue (t.context f)).length →
      Opened t strict f a (bodyDepth f a) x y → t.Safe strict n y) : t.Safe strict n x := by
  obtain ⟨hsave, hreserve⟩ := hin.split
  refine h.save hl hsave fun y hy hopened ↦ hopened.reserve hl hf (hy ▸ hreserve) fun z hz ↦ ?_
  refine hnext z ?_
  rw [hz, hy, prologue, List.length_append, ← Nat.add_assoc]
  rfl

/-- The body of a function finds its parameters and the global variables before it. -/
theorem Opened.running (h : Opened t strict f a (bodyDepth f a) x y) (hl : Linked t)
    (hf : f ∈ functionDecls t.program) (hx : Called t strict f a x)
    (hΓ : Sound t.program Γ fun _ ↦ none) :
    Running t strict f a y (bodyDepth f a) (Γ.bindAll f.parameters) y where
  function := h.current ▸ hx.function
  arguments := hx.arguments
  start hfirst := hx.start (h.callers ▸ hfirst)
  depth := Nat.le_refl _
  room := h.room
  sp := h.sp
  fp := h.fp
  vars name type hname := by
    rcases bindAll_eq_some hname with ⟨p, hp, rfl, hm⟩ | ⟨-, hname⟩
    · cases hm
      obtain ⟨s, hsymbol, htype⟩ := hl.symbol?_parameter hf hp
      obtain ⟨j, hj⟩ := List.getElem?_of_mem hp
      have hlt := (List.getElem?_eq_some_iff.1 hj).1
      have harguments := hx.arguments
      have hcell : (f.parameters.map Declarator.name)[j]? = some p.name := by
        rw [List.getElem?_map, hj]
        rfl
      obtain ⟨k, hk⟩ : ∃ k, k + j = a := ⟨a - j, by omega⟩
      obtain ⟨hvalue, hsource⟩ := hx.parameters j p hj k hk
      obtain ⟨hmemory, hwritten⟩ := h.same k ⟨by omega, by omega⟩
      exact .cell (.parameter hcell hk) hsymbol htype (hmemory ▸ hvalue)
        (hsource.congr hwritten h.current h.callers)
    · rcases hΓ.var name type hname with ⟨_, hnone, -⟩ | ⟨-, head, hhead, rfl, rfl⟩
      · cases hnone
      · obtain ⟨offset, initial, hfind⟩ := hl.stored.global head hhead
        have hmem : Symbol.var head.name head.type offset initial ∈ t.table.vars :=
          List.mem_filter.2 ⟨List.mem_of_find?_eq_some hfind, rfl⟩
        obtain ⟨k, hk⟩ := List.getElem?_of_mem hmem
        exact .global hk rfl rfl
  functions name parameters result hname := by
    rcases bindAll_eq_some hname with ⟨_, _, _, hm⟩ | ⟨-, hname⟩
    · cases hm
    · exact hΓ.function name parameters result hname
  globals := h.globals
  outside := .refl t _ y
  current := rfl
  callers := rfl

/-! ### Closing a frame -/

theorem safe_finish
    (hin : t.Inside f y.index (Emission.ofInstructions (serviceCode .exit)).code) :
    t.Safe strict n y := by
  refine Image.Safe.onward hin.toAt rfl rfl fun _ m heffect ↦ ?_
  cases heffect
  exact Image.Safe.service hin.tail.toAt fun hten ↦ absurd rfl hten

/-- The registers of the caller are restored, and the machine goes back to it. -/
theorem Opened.close (h : Opened t strict f a (bodyDepth f a) x base) (hl : Placed t)
    (hf : f ∈ functionDecls t.program)
    (hy : Running t strict f a base (bodyDepth f a) (fun _ ↦ none) y)
    (hin : t.Inside f y.index (Emission.ofInstructions (epilogue (t.context f))).code)
    (hvalue : t.Admits strict y → Suits strict f.head.type (y.machine.get .v0)) {back : Nat}
    (hcallers : x.history.callers ≠ []) (hra : x.machine.get .ra = t.image.address (.text back))
    (hlt : back < t.image.code.instructions.length)
    (hnext : ∀ z : Moment, z.index = back → CameBack t strict f a x z → t.Safe strict n z) :
    t.Safe strict n y := by
  obtain ⟨hmemoryRa, hwrittenRa⟩ := hy.outside (a + 1) (.inr (.inl rfl))
  obtain ⟨hmemoryFp, hwrittenFp⟩ := hy.outside (a + 2) (.inr (.inr rfl))
  refine Image.Safe.onward hin.toAt rfl rfl fun hadmits m heffect ↦ ?_
  rw [Image.effect?, hy.fp] at heffect
  cases heffect
  refine Target.safe_load hl.toLinked hf hy.function hin.tail.left (hl.locate_top rfl)
    (hwrittenFp ▸ h.written.2) ?_
  refine Target.safe_load hl.toLinked hf hy.function hin.tail.tail.left
    (hl.locate_saved f (a := a) rfl) (hwrittenRa ▸ h.written.1) ?_
  have hadd : t.slot (a + 2) + (t.context f).savedSize.toBitVec = t.slot a := by
    rw [show (t.context f).savedSize.toBitVec = BitVec.ofNat 32 (4 * 2) from hl.words 2]
    exact t.stack.slot_add a 2
  refine Image.Safe.onward hin.tail.tail.tail.toAt rfl rfl fun _ m heffect ↦ ?_
  rw [Image.effect?, ImmediateOp.compute, show Machine.get _ .sp = t.slot (a + 2) from rfl, hadd]
    at heffect
  cases heffect
  have hindex : t.image.index? (y.machine.memory (t.slot (a + 1))) = some back := by
    rw [hmemoryRa, h.savedRa, hra]
    exact hl.fits.index? hlt
  refine Image.Safe.back hin.tail.tail.tail.tail.toAt hindex ?_
  -- The body has left the words of the caller alone, and the history knows the caller.
  obtain ⟨caller, callers, hcons⟩ := List.exists_cons_of_ne_nil hcallers
  have hleave := (hy.callers.trans h.callers).trans hcons
  refine hnext _ rfl ⟨rfl, hmemoryFp.trans h.savedFp, fun k hk ↦ ?_, ?_, hvalue hadmits,
    hy.globals.of_memory rfl⟩
  · obtain ⟨hmemory, hwritten⟩ := hy.outside k (.inl hk)
    obtain ⟨hmemory', hwritten'⟩ := h.same k ⟨hk.1, by have := hk.2; omega⟩
    simp only [History.leave, Image.note, hleave]
    exact ⟨hmemory.trans hmemory', hwritten.trans hwritten'⟩
  · simp only [History.leave, Image.note, hleave]
    exact hcons

/-- The end of a function is safe. -/
theorem Opened.safeExit (h : Opened t strict f a (bodyDepth f a) x base) (hl : Placed t)
    (hf : f ∈ functionDecls t.program) (hback : SafeBack t strict f a n x) {i : Nat}
    (hsymbol : t.image.symbol? (exitLabel f.head.name) = some (.text i))
    (hin : t.Inside f i (Emission.ofInstructions
      (if f.head.name = t.entry then serviceCode .exit else epilogue (t.context f))).code) :
    SafeExit t strict f a base n := by
  intro y hexit hy hvalue
  obtain rfl : i = y.index := Place.text.inj (Option.some.inj (hsymbol.symm.trans hexit))
  split at hin
  · exact safe_finish hin
  · rename_i hentry
    obtain ⟨hcallers, back, hra, hlt, hnext⟩ := hback hentry
    refine h.close hl hf hy hin (fun hadmits ↦ ?_) hcallers hra hlt hnext
    by_cases hlast : Unreturned f y
    · exact fun hstrict htype ↦ hadmits.2 hstrict f hf htype hentry hexit hlast
    · exact hvalue hlast

/-! ### Calls and programs -/

/-- The parts of the code of a function. -/
theorem Linked.parts (hl : Linked t) (hf : f ∈ functionDecls t.program) {i : Nat}
    (h : t.image.symbol? f.head.name = some (.text i)) :
    ∃ m exit, t.Inside f i (Emission.ofInstructions (prologue (t.context f))).code ∧
      t.Inside f (i + (prologue (t.context f)).length)
        (Generate.stmts (t.context f) f.body m).code ∧
      exit = i + (prologue (t.context f)).length +
        Code.size (Generate.stmts (t.context f) f.body m).code ∧
      t.image.symbol? (exitLabel f.head.name) = some (.text exit) ∧
      t.Inside f exit (Emission.ofInstructions
        (if f.head.name = t.entry then serviceCode .exit else epilogue (t.context f))).code := by
  obtain ⟨start, m, hat⟩ := hl.function f hf
  have hin : t.Inside f start (Generate.function (t.context f) t.entry f.body m).code :=
    ⟨start, m, [], [], hat, by rw [List.nil_append, List.append_nil], rfl⟩
  simp only [Generate.function, Emission.code_append, List.append_assoc] at hin
  have hlabel := hin.right
  have hstart := h.symm.trans (Image.At.symbol? hl.names hlabel.toAt)
  obtain rfl : i = start := Place.text.inj (Option.some.inj hstart)
  have hbody := hlabel.right.right
  rw [size_instructions] at hbody
  exact ⟨m, _, hlabel.right.left, hbody.left, rfl, Image.At.symbol? hl.names hbody.right.toAt,
    hbody.right.right⟩

/-- Calls are safe if those are that they make. -/
theorem safeCalls_of_lt (hl : Placed t) (hp : Checked t.program)
    (hcalls : ∀ k < n, SafeCalls t strict k) : SafeCalls t strict n := by
  intro f a x hf hx hback
  obtain ⟨m, exit, hprologue, hbody, hexit, hsymbol, hending⟩ := hl.parts hf hx.index
  obtain ⟨Γ, hΓ, htyped⟩ := hp.typed f hf
  refine hx.open hl hf hprologue fun y hy hopened ↦ ?_
  have hsafe := hopened.safeExit hl hf hback hsymbol hending
  rw [← hy] at hbody hexit
  refine safe_stmts hl hf f.body n _ m hcalls htyped (hp.fresh hf hΓ) (fun _ hd ↦ hd) a y y hbody
    (hopened.running hl.toLinked hf hx hΓ) hopened.unreturned hsafe fun z hz hrunning hlast ↦ ?_
  -- The body has come to its end without a return statement.
  refine hsafe z ?_ (hrunning.forget fun _ _ h ↦ absurd h nofun) fun h ↦ absurd hlast h
  rw [hsymbol, hexit, hz]

theorem safeCalls (hl : Placed t) (hp : Checked t.program) (n : Nat) : SafeCalls t strict n := by
  induction n using Nat.strong_induction_on with
  | _ n ih => exact safeCalls_of_lt hl hp ih

/-- The moment at which a run begins, with an activation of the entry point. -/
def Moment.initial (entry : String) (m : Machine) : Moment :=
  ⟨⟨0, m⟩, { current := ⟨0, entry, none⟩ }⟩

/-- The words that the entry point finds in place of arguments are truth values where they should
be. -/
def Supplied (t : Target) (f : FunctionDecl) (m : Machine) : Prop :=
  ∀ (j k : Nat) (p : Declarator), f.parameters[j]? = some p → p.type = .bool →
    k + j = f.parameters.length → Word.IsTruth (m.memory (t.slot k))

/-- The entry point is called at the start, without a caller. -/
theorem Called.initial {m : Machine} {i : Nat}
    (hname : f.head.name = t.entry) (hsymbol : t.image.symbol? f.head.name = some (.text i))
    (hroom : f.parameters.length ≤ t.stack.room)
    (hloaded : t.image.Loaded t.stack f.parameters.length m) (hglobals : Proper t strict m)
    (hsupplied : strict → Supplied t f m) :
    Called t strict f f.parameters.length
      ⟨⟨i, m⟩, { (Moment.initial t.entry m).history with last := some (.j t.entry) }⟩ where
  index := hsymbol
  function := hname.symm
  arguments := Nat.le_refl _
  start _ := rfl
  room := hroom
  sp := hloaded.sp
  parameters j p hp k hk := ⟨fun hstrict htype ↦ hsupplied hstrict j k p hp htype hk,
    .unsupplied hname rfl (List.mem_map_of_mem (List.mem_of_getElem? hp)) rfl⟩
  globals := hglobals

/-- Every load of a run is as it should be. -/
theorem Placed.loads_of_occurs (hl : Placed t) (hp : Checked t.program)
    (hf : f ∈ functionDecls t.program) (hname : f.head.name = t.entry) {m : Machine}
    (hroom : f.parameters.length ≤ t.stack.room)
    (hloaded : t.image.Loaded t.stack f.parameters.length m) (hglobals : Proper t strict m)
    (hsupplied : strict → Supplied t f m)
    (hx : t.image.Occurs (t.Admits strict) (.initial t.entry m) x) {r : Register}
    {address : Address} (hfetch : t.image.fetch? x.index = some (.lw r address)) :
    t.Loads strict x address := by
  refine Image.Safe.of_occurs (fun n ↦ ?_) hx hfetch
  obtain ⟨i, hsymbol⟩ := hl.symbol_function hf
  cases n with
  | zero => trivial
  | succ n =>
    -- The first instruction is a jump to the entry point.
    refine Image.Safe.jump hl.start (hname ▸ hsymbol) ?_
    exact safeCalls hl hp n f _ _ hf (.initial hname hsymbol hroom hloaded hglobals hsupplied)
      fun hne ↦ absurd hname hne

end ScalarMips
