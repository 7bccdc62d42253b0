import ScalarMips.Proofs.CallLoads
import ScalarMips.Proofs.Preservation
import ScalarMips.Proofs.UniqueLabels

/-!
# What the loads of a run read

The main theorems about the loads of generated code. A load of a parameter or local variable reads
what the same activation has stored in the variable or what its caller has pushed for the parameter
(`compile_loads_sourced`), and a load of a variable of truth values reads zero or one
(`compile_loads_truths`).

Both have an exception. Nobody calls the entry point at the start of a run, so the words that it
takes for its arguments were not written. And a function that comes to its end without a return
statement leaves in `$v0` what happens to be there, which its caller takes for the value of the
call.
The runs of `Sample.entered` and `Sample.fallen` show this: nothing keeps an entry point from having
parameters, or a function of truth values from having no return statement.
-/

namespace ScalarMips

open Generate

variable {t : Target} {strict : Prop} {main : FunctionDecl} {m : Machine}

/-! ### Ready machines -/

/-- The code that is generated for a program which starts with `main`, with addresses. -/
def Target.ofProgram (program : List Stmt) (annotate : Bool) (address : Place → Word)
    (stack : Stack) : Target :=
  let flat := Renaming.flatten "main" program
  let table := (Layout.build flat {}).table
  let code := dataSection table ++ preamble "main" ++ (functions table { annotate } flat 0).code
  ⟨⟨code, address⟩, stack, table, flat, "main", annotate⟩

/-- A machine can start to run a program. -/
structure Target.Ready (t : Target) (main : FunctionDecl) (m : Machine) : Prop where
  /-- Everything has an address of its own. -/
  fits : t.image.Fits t.stack
  /-- Instructions are aligned. -/
  aligned_text : ∀ i < t.image.code.instructions.length, (t.image.address (.text i)).toNat % 4 = 0
  /-- The stack does not fill the address space. -/
  room_lt : 4 * t.stack.room < 2 ^ 32
  /-- The entry point finds words where its arguments should be. -/
  arguments : main.parameters.length ≤ t.stack.room
  /-- The code has been loaded. -/
  loaded : t.image.Loaded t.stack main.parameters.length m

/-- Global variables start with values of their types. -/
theorem Proper.of_loaded (hl : Linked t) (h : Flattened t.entry t.program)
    (htable : t.table = (Layout.build t.program {}).table) {n : Nat}
    (hloaded : t.image.Loaded t.stack n m) : Proper t strict m := by
  intro k s hs
  have hmem := List.mem_of_getElem? hs
  have hname : s.name ∈ (globalDecls t.program).map Declarator.name :=
    names_vars h.wellTyped.isDeclaration h.distinct hl.stored ▸ List.mem_map_of_mem hmem
  obtain ⟨head, hhead, hname⟩ := List.mem_map.1 hname
  -- The symbol is the one that was laid out for the declaration.
  obtain ⟨offset, initial, hfind⟩ := hl.stored.global head hhead
  have hsymbols : (t.table.symbols.map Symbol.name).Nodup :=
    hl.stored.names ▸ hl.distinct.topNames
  have hself : t.table.find? s.name = some s :=
    find?_of_nodup Symbol.name hsymbols (List.mem_filter.1 hmem).1
  rw [← hname, hfind] at hself
  cases hself
  obtain ⟨v, hvalue, htype⟩ := Semantics.build_initialized t.program [] _ h.grammatical h.wellTyped
    h.distinct (fun _ _ ↦ List.not_mem_nil)
    (fun name type hname ↦ by obtain ⟨f, -, -, hm⟩ := exists_of_signatures hname; cases hm)
    head hhead
  have hvalue : Constant.variableValue t.table head.name = some v := htable ▸ hvalue
  rw [Constant.variableValue, hfind] at hvalue
  cases hvalue
  rw [hloaded.data k _ _ (hl.global k _ hs)]
  exact suits_of_ofType htype

/-- Every load of an accepted program is as it should be. -/
theorem loads_of_accepted {program : List Stmt} (hg : Grammatical program)
    (haccepted : Accepted "main" program) {annotate : Bool}
    (ht : t = .ofProgram program annotate t.image.address t.stack)
    (hmain : main ∈ functionDecls t.program) (hname : main.head.name = "main")
    (hready : t.Ready main m) (hsupplied : strict → Supplied t main m) {x : Moment}
    (hx : t.image.Occurs (t.Admits strict) (.initial "main" m) x) {r : Register}
    {address : Address} (hfetch : t.image.fetch? x.index = some (.lw r address)) :
    t.Loads strict x address := by
  have hentry : t.entry = "main" := congrArg Target.entry ht
  have htable : t.table = (Layout.build t.program {}).table := by
    rw [ht]
    rfl
  have hcode : t.image.code = t.code := by
    rw [ht]
    rfl
  have hflat : Flattened t.entry t.program := by
    rw [ht]
    exact flattened_of_accepted hg haccepted
  have hlinked := linked_of_flattened hflat (by rw [hentry]; decide) htable hcode hready.fits
  have hplaced : Placed t := ⟨hlinked, hready.aligned_text, hready.room_lt⟩
  exact hplaced.loads_of_occurs (Semantics.checked_of_flattened hflat) hmain
    (hname.trans hentry.symm) hready.arguments hready.loaded
    (.of_loaded hlinked hflat htable hready.loaded) hsupplied (hentry ▸ hx) hfetch

/-- The entry point of an accepted program, and what is known of its runs. -/
theorem exists_loads {settings : Settings} {source : String} {program : List Stmt}
    (hentry : settings.entry = "main") (h : (compile settings source).succeeded)
    (hparse : parse (lex source).tokens = .ok program) :
    ∃ main, (main ∈ functionDecls (Renaming.flatten "main" program) ∧ main.head.name = "main") ∧
      (∀ f ∈ functionDecls (Renaming.flatten "main" program), f.head.name = "main" → f = main) ∧
      ∀ t : Target, t = .ofProgram program settings.annotate t.image.address t.stack →
        (compile settings source).assembly = Code.text t.image.code ∧
        ∀ (strict : Prop) (m : Machine) (x : Moment) (r : Register) (address : Address),
          t.Ready main m → (strict → Supplied t main m) →
          t.image.Occurs (t.Admits strict) (.initial "main" m) x →
          t.image.fetch? x.index = some (.lw r address) → t.Loads strict x address := by
  obtain ⟨program', code, hparse', haccepted, hcode, hassembly⟩ := exists_of_succeeded h
  obtain rfl : program = program' := Except.ok.inj (hparse.symm.trans hparse')
  rw [hentry] at haccepted hcode
  have hg := parse_grammatical hparse
  have hflat := flattened_of_accepted hg haccepted
  rw [program_eq_ok hflat] at hcode
  cases hcode
  obtain ⟨main, hmain, hname⟩ := List.mem_map.1 hflat.entry_mem
  refine ⟨main, ⟨hmain, hname⟩, fun f hf hfname ↦ ?_, fun t ht ↦ ⟨?_, ?_⟩⟩
  · have hnodup := (List.nodup_append.1 hflat.distinct).1
    have hfind := find?_of_nodup (fun f : FunctionDecl ↦ f.head.name) hnodup hf
    rw [hfname.trans hname.symm,
      find?_of_nodup (fun f : FunctionDecl ↦ f.head.name) hnodup hmain] at hfind
    exact (Option.some.inj hfind).symm
  · rw [hassembly, ht]
    rfl
  · intro strict m x r address hready hsupplied hx hfetch
    refine loads_of_accepted hg haccepted ht ?_ hname hready hsupplied hx hfetch
    rw [ht]
    exact hmain

/-! ### Runs of samples -/

namespace Sample

/-- The code of a program in the usual machine, with room for a hundred words on the stack. -/
def target (program : List Stmt) : Target :=
  .ofProgram program false (Image.usual []).address (Image.usualStack 100)

/-- The moment at which a run begins, with `n` words on the stack. -/
def start (program : List Stmt) (n : Nat) : Moment :=
  .initial "main" ((target program).image.initial (target program).stack n)

/-- The usual machine is ready if it has a word for every parameter of the entry point. -/
theorem ready {program : List Stmt} {n : Nat} (hn : n ≤ 100)
    (htext : (target program).image.code.instructions.length ≤ 2 ^ 25)
    (hdata : (target program).image.code.words.length + 100 ≤ 2 ^ 28)
    (hparameters : main.parameters.length = n) :
    (target program).Ready main (start program n).machine := by
  subst hparameters
  have hfits : (target program).image.Fits (Image.usualStack 100) := Image.usual_fits htext hdata
  refine ⟨hfits, fun i _ ↦ ?_, ?_, hn, Image.initial_loaded hfits _⟩
  · show (0x00400000 + BitVec.ofNat 32 (4 * i)).toNat % 4 = 0
    rw [BitVec.toNat_add, BitVec.toNat_ofNat]
    have hbase : (0x00400000 : BitVec 32).toNat = 4 * 0x100000 := rfl
    omega
  · show 4 * 100 < 2 ^ 32
    decide

/-- A text that is read and accepted is compiled. -/
theorem exists_succeeded {source : String} {P : List Stmt → Prop}
    (hlex : (lex source).fault = none)
    (h : ∃ program, parse (lex source).tokens = .ok program ∧ Accepted "main" program ∧
      P program) :
    ∃ program, parse (lex source).tokens = .ok program ∧ (compile {} source).succeeded ∧
      P program := by
  obtain ⟨program, hparse, haccepted, hprogram⟩ := h
  exact ⟨program, hparse, succeeded_of_accepted hlex hparse haccepted, hprogram⟩

/-- A function that takes and gives truth values, and a global variable. -/
def conjunction : String :=
  "bool g = true;\nfun bool both(bool a) { return a && g; }\n" ++
    "fun int main() { bool c = both(true); print c; return 0; }\n"

/-- The sample is compiled, and its run comes to two loads. The end of the function is reached
through its return statement. -/
theorem exists_conjunction : ∃ program, parse (lex conjunction).tokens = .ok program ∧
    (compile {} conjunction).succeeded ∧
    (target program).image.code.instructions.length ≤ 2 ^ 25 ∧
    (target program).image.code.words.length + 100 ≤ 2 ^ 28 ∧
    (∀ f ∈ functionDecls (target program).program, f.head.name = "main" →
      f.parameters.length = 0 ∧
      (((target program).context f).symbol? "c_3").map Symbol.type = some .bool ∧
      ((target program).context f).address? "c_3" = some (.below 4 .fp)) ∧
    (∀ f ∈ functionDecls (target program).program, f.head.name = "both_0" →
      "a_2" ∈ f.variables ∧
        ((target program).context f).address? "a_2" = some (.above 8 .fp)) ∧
    (∀ f ∈ functionDecls (target program).program, f.head.type = .bool → f.head.name = "both_0") ∧
    (target program).image.symbol? (exitLabel "both_0") = some (.text 21) ∧
    ((target program).image.advance? (target program).Roomy 14 (start program 0)).map
        (fun y ↦ ((target program).image.fetch? y.index, y.history.current.function)) =
      some (some (.lw .t0 (.above 8 .fp)), "both_0") ∧
    ((target program).image.advance? (fun y ↦ (target program).Roomy y ∧
        (y.index = 21 → y.history.last = some (.j (exitLabel "both_0")))) 41 (start program 0)).map
        (fun y ↦ ((target program).image.fetch? y.index, y.history.current.function)) =
      some (some (.lw .t0 (.below 4 .fp)), "main") := by
  refine exists_succeeded (by cbv) ⟨_, by cbv, ⟨by cbv, by cbv, by cbv⟩, ?_⟩
  decide +kernel

end Sample

/-! ### Sources -/

/-- **Loads read what was stored.** Let the assembly of an accepted program be run, as long as the
stack has room. Every load is made by the running function, through the stack pointer or from the
address of a variable. The word of a parameter or local variable has a source: the activation has
stored it in a declaration of the variable or an assignment to it, its caller has pushed it for the
parameter, or it is what the entry point found in place of an argument. Words of the stack that were
never written are not loaded, except for these last ones. -/
theorem compile_loads_sourced {settings : Settings} {source : String} {program : List Stmt}
    (hentry : settings.entry = "main") (h : (compile settings source).succeeded)
    (hparse : parse (lex source).tokens = .ok program) :
    ∃ main, (main ∈ functionDecls (Renaming.flatten "main" program) ∧ main.head.name = "main") ∧
      ∀ t : Target, t = .ofProgram program settings.annotate t.image.address t.stack →
        (compile settings source).assembly = Code.text t.image.code ∧
        ∀ (m : Machine) (x : Moment) (r : Register) (address : Address),
          t.Ready main m → t.image.Occurs t.Roomy (.initial "main" m) x →
          t.image.fetch? x.index = some (.lw r address) →
          ∃ f ∈ functionDecls t.program, f.head.name = x.history.current.function ∧
            t.Contains f x.index ∧ ∃ p, t.image.locate? x.machine address = some p ∧
              ((∃ name, (t.context f).address? name = some address) ∨
                ∃ offset, address = .above offset .sp) ∧
              (∀ name ∈ f.variables, (t.context f).address? name = some address →
                Source t f name p x.history) ∧
              ((∀ label, address ≠ .label label) → x.history.written p = none →
                f = main ∧ x.history.callers = [] ∧
                  ∃ k, 1 ≤ k ∧ k ≤ main.parameters.length ∧ p = t.slot k) := by
  obtain ⟨main, hmain, hunique, hloads⟩ := exists_loads hentry h hparse
  refine ⟨main, hmain, fun t ht ↦ ⟨(hloads t ht).1, fun m x r address hready hx hfetch ↦ ?_⟩⟩
  have hoccurs : t.image.Occurs (t.Admits False) (.initial "main" m) x :=
    hx.mono fun y hy ↦ ⟨hy, False.elim⟩
  obtain ⟨f, hf, hfunction, hcontains, p, hlocate, hfetches⟩ :=
    (hloads t ht).2 False m x r address hready False.elim hoccurs hfetch
  refine ⟨f, hf, hfunction, hcontains, p, hlocate, hfetches.kind, hfetches.source,
    fun hlabel hnone ↦ ?_⟩
  obtain ⟨hname, hcallers, hslot⟩ := hfetches.written hlabel hnone
  have hfmain : f = main := by
    rw [ht] at hf hname
    exact hunique f hf hname
  exact ⟨hfmain, hcallers, hfmain ▸ hslot⟩

theorem compile_loads_sourced_argument :
    (compile {} Sample.conjunction).succeeded ∧
    ∃ (t : Target) (x : Moment) (f : FunctionDecl) (p : Word),
      (compile {} Sample.conjunction).assembly = Code.text t.image.code ∧
      t.image.Occurs t.Roomy (.initial "main" (t.image.initial t.stack 0)) x ∧
      t.image.fetch? x.index = some (.lw .t0 (.above 8 .fp)) ∧
      f ∈ functionDecls t.program ∧ f.head.name = "both_0" ∧
      t.image.locate? x.machine (.above 8 .fp) = some p ∧ Source t f "a_2" p x.history := by
  obtain ⟨program, hparse, hsucceeded, htext, hdata, hentry, hboth, -, -, hrun, -⟩ :=
    Sample.exists_conjunction
  obtain ⟨main, ⟨hmain, hname⟩, hloads⟩ := compile_loads_sourced rfl hsucceeded hparse
  obtain ⟨hassembly, hloads⟩ := hloads (Sample.target program) rfl
  have hready := Sample.ready (by decide) htext hdata (hentry main hmain hname).1
  obtain ⟨x, hx, hfacts⟩ := Option.map_eq_some_iff.1 hrun
  obtain ⟨hfetch, hcurrent⟩ := Prod.mk.inj hfacts
  have hoccurs := Image.Occurs.first.of_advance? hx
  obtain ⟨f, hf, hfunction, -, p, hlocate, -, hsource, -⟩ :=
    hloads _ x .t0 _ hready hoccurs hfetch
  obtain ⟨hvariables, haddress⟩ := hboth f hf (hfunction.trans hcurrent)
  exact ⟨hsucceeded, _, x, f, p, hassembly, hoccurs, hfetch, hf, hfunction.trans hcurrent, hlocate,
    hsource "a_2" hvariables haddress⟩

/-- An entry point that has a parameter. -/
def Sample.entered : String := "fun int main(int x) { print x; return 0; }\n"

/-- The parameter of an entry point is loaded although nothing has ever been stored in it. -/
theorem compile_loads_unsupplied :
    (compile {} Sample.entered).succeeded ∧
    ∃ (t : Target) (main : FunctionDecl) (m : Machine) (x : Moment) (p : Word),
      (compile {} Sample.entered).assembly = Code.text t.image.code ∧
      main ∈ functionDecls t.program ∧ main.head.name = "main" ∧ t.Ready main m ∧
      t.image.Occurs t.Roomy (.initial "main" m) x ∧
      t.image.fetch? x.index = some (.lw .t0 (.above 8 .fp)) ∧
      "x_0" ∈ main.variables ∧ (t.context main).address? "x_0" = some (.above 8 .fp) ∧
      t.image.locate? x.machine (.above 8 .fp) = some p ∧ x.history.written p = none := by
  have hprogram : ∃ program, parse (lex Sample.entered).tokens = .ok program ∧
      (compile {} Sample.entered).succeeded ∧
      (Sample.target program).image.code.instructions.length ≤ 2 ^ 25 ∧
      (Sample.target program).image.code.words.length + 100 ≤ 2 ^ 28 ∧
      (∀ f ∈ functionDecls (Sample.target program).program, f.parameters.length = 1 ∧
        "x_0" ∈ f.variables ∧
        ((Sample.target program).context f).address? "x_0" = some (.above 8 .fp)) ∧
      ((Sample.target program).image.advance? (Sample.target program).Roomy 5
        (Sample.start program 1)).map (fun y ↦ ((Sample.target program).image.fetch? y.index,
          (Sample.target program).image.locate? y.machine (.above 8 .fp),
          y.history.written ((Sample.target program).slot 1))) =
        some (some (.lw .t0 (.above 8 .fp)), some ((Sample.target program).slot 1), none) :=
    Sample.exists_succeeded (by cbv) ⟨_, by cbv, ⟨by cbv, by cbv, by cbv⟩, by decide +kernel⟩
  obtain ⟨program, hparse, hsucceeded, htext, hdata, hentry, hrun⟩ := hprogram
  obtain ⟨main, ⟨hmain, hname⟩, -, hloads⟩ := exists_loads rfl hsucceeded hparse
  obtain ⟨hlength, hvariables, haddress⟩ := hentry main hmain
  obtain ⟨x, hx, hfacts⟩ := Option.map_eq_some_iff.1 hrun
  simp only [Prod.mk.injEq] at hfacts
  obtain ⟨hfetch, hlocate, hwritten⟩ := hfacts
  exact ⟨hsucceeded, Sample.target program, main, _, x, _, (hloads _ rfl).1, hmain, hname,
    Sample.ready (by decide) htext hdata hlength, Image.Occurs.first.of_advance? hx, hfetch,
    hvariables, haddress, hlocate, hwritten⟩

/-! ### Truth values -/

/-- **Truth values are zero or one.** Let the assembly of an accepted program be run, as long as the
stack has room and no function of truth values ends without a return statement and with another
value in `$v0`. If the entry point finds truth values in place of its arguments, then every load of
a parameter, local variable or global variable of truth values reads zero or one. -/
theorem compile_loads_truths {settings : Settings} {source : String} {program : List Stmt}
    (hentry : settings.entry = "main") (h : (compile settings source).succeeded)
    (hparse : parse (lex source).tokens = .ok program) :
    ∃ main, (main ∈ functionDecls (Renaming.flatten "main" program) ∧ main.head.name = "main") ∧
      ∀ t : Target, t = .ofProgram program settings.annotate t.image.address t.stack →
        (compile settings source).assembly = Code.text t.image.code ∧
        ∀ (m : Machine) (x : Moment) (r : Register) (address : Address),
          t.Ready main m → Supplied t main m →
          t.image.Occurs (fun y ↦ t.Roomy y ∧ t.Answered y) (.initial "main" m) x →
          t.image.fetch? x.index = some (.lw r address) →
          ∃ f ∈ functionDecls t.program, f.head.name = x.history.current.function ∧
            t.Contains f x.index ∧ ∃ p, t.image.locate? x.machine address = some p ∧
              ((∃ name, (t.context f).address? name = some address) ∨
                ∃ offset, address = .above offset .sp) ∧
              ∀ name s, (t.context f).symbol? name = some s →
                (t.context f).address? name = some address → s.type = .bool →
                Word.IsTruth (x.machine.memory p) := by
  obtain ⟨main, hmain, -, hloads⟩ := exists_loads hentry h hparse
  refine ⟨main, hmain, fun t ht ↦
    ⟨(hloads t ht).1, fun m x r address hready hsupplied hx hfetch ↦ ?_⟩⟩
  have hoccurs : t.image.Occurs (t.Admits True) (.initial "main" m) x :=
    hx.mono fun y hy ↦ ⟨hy.1, fun _ ↦ hy.2⟩
  obtain ⟨f, hf, hfunction, hcontains, p, hlocate, hfetches⟩ :=
    (hloads t ht).2 True m x r address hready (fun _ ↦ hsupplied) hoccurs hfetch
  exact ⟨f, hf, hfunction, hcontains, p, hlocate, hfetches.kind,
    fun name s hsymbol haddress ↦ hfetches.value name s hsymbol haddress trivial⟩

theorem compile_loads_truths_answer :
    (compile {} Sample.conjunction).succeeded ∧
    ∃ (t : Target) (x : Moment) (f : FunctionDecl) (p : Word),
      (compile {} Sample.conjunction).assembly = Code.text t.image.code ∧
      t.image.Occurs (fun y ↦ t.Roomy y ∧ t.Answered y)
        (.initial "main" (t.image.initial t.stack 0)) x ∧
      t.image.fetch? x.index = some (.lw .t0 (.below 4 .fp)) ∧
      f ∈ functionDecls t.program ∧ f.head.name = "main" ∧
      ((t.context f).symbol? "c_3").map Symbol.type = some .bool ∧
      (t.context f).address? "c_3" = some (.below 4 .fp) ∧
      t.image.locate? x.machine (.below 4 .fp) = some p ∧
      Word.IsTruth (x.machine.memory p) := by
  obtain ⟨program, hparse, hsucceeded, htext, hdata, hentry, -, hbool, hexit, -, hrun⟩ :=
    Sample.exists_conjunction
  obtain ⟨main, ⟨hmain, hname⟩, hloads⟩ := compile_loads_truths rfl hsucceeded hparse
  obtain ⟨hassembly, hloads⟩ := hloads (Sample.target program) rfl
  have hparameters := (hentry main hmain hname).1
  have hready := Sample.ready (by decide) htext hdata hparameters
  have hsupplied : Supplied (Sample.target program) main (Sample.start program 0).machine := by
    intro j k p hp
    rw [List.eq_nil_of_length_eq_zero hparameters] at hp
    cases hp
  obtain ⟨x, hx, hfacts⟩ := Option.map_eq_some_iff.1 hrun
  obtain ⟨hfetch, hcurrent⟩ := Prod.mk.inj hfacts
  -- Only one function gives truth values, and its end was reached by a return statement.
  have hoccurs : (Sample.target program).image.Occurs
      (fun y ↦ (Sample.target program).Roomy y ∧ (Sample.target program).Answered y)
      (Sample.start program 0) x := by
    refine (Image.Occurs.first.of_advance? hx).mono fun y hy ↦
      ⟨hy.1, fun f hf htype _ hsymbol hlast ↦ ?_⟩
    rw [hbool f hf htype] at hsymbol hlast
    rw [hexit, Option.some.injEq, Place.text.injEq] at hsymbol
    exact absurd (hy.2 hsymbol.symm) hlast
  obtain ⟨f, hf, hfunction, -, p, hlocate, -, hvalue⟩ :=
    hloads _ x .t0 _ hready hsupplied hoccurs hfetch
  obtain ⟨-, htype, haddress⟩ := hentry f hf (hfunction.trans hcurrent)
  obtain ⟨s, hsymbol, hs⟩ := Option.map_eq_some_iff.1 htype
  exact ⟨hsucceeded, _, x, f, p, hassembly, hoccurs, hfetch, hf, hfunction.trans hcurrent, htype,
    haddress, hlocate, hvalue "c_3" s hsymbol haddress hs⟩

/-- A function of truth values that has no return statement. -/
def Sample.fallen : String :=
  "fun bool f() { println; }\nfun int main() { bool b = f(); print b; return 0; }\n"

/-- The value that a function without a return statement leaves behind is neither zero nor one. -/
theorem compile_loads_untrue :
    (compile {} Sample.fallen).succeeded ∧
    ∃ (t : Target) (main : FunctionDecl) (m : Machine) (x : Moment) (p : Word),
      (compile {} Sample.fallen).assembly = Code.text t.image.code ∧
      main ∈ functionDecls t.program ∧ main.head.name = "main" ∧ t.Ready main m ∧
      t.image.Occurs t.Roomy (.initial "main" m) x ∧
      t.image.fetch? x.index = some (.lw .t0 (.below 4 .fp)) ∧
      ((t.context main).symbol? "b_1").map Symbol.type = some .bool ∧
      (t.context main).address? "b_1" = some (.below 4 .fp) ∧
      t.image.locate? x.machine (.below 4 .fp) = some p ∧
      ¬Word.IsTruth (x.machine.memory p) := by
  have hprogram : ∃ program, parse (lex Sample.fallen).tokens = .ok program ∧
      (compile {} Sample.fallen).succeeded ∧
      (Sample.target program).image.code.instructions.length ≤ 2 ^ 25 ∧
      (Sample.target program).image.code.words.length + 100 ≤ 2 ^ 28 ∧
      (∀ f ∈ functionDecls (Sample.target program).program, f.head.name = "main" →
        f.parameters.length = 0 ∧
        (((Sample.target program).context f).symbol? "b_1").map Symbol.type = some .bool ∧
        ((Sample.target program).context f).address? "b_1" = some (.below 4 .fp)) ∧
      ((Sample.target program).image.advance? (Sample.target program).Roomy 24
        (Sample.start program 0)).map (fun y ↦ ((Sample.target program).image.fetch? y.index,
          (Sample.target program).image.locate? y.machine (.below 4 .fp),
          y.machine.memory ((Sample.target program).slot 3))) =
        some (some (.lw .t0 (.below 4 .fp)), some ((Sample.target program).slot 3), 11) :=
    Sample.exists_succeeded (by cbv) ⟨_, by cbv, ⟨by cbv, by cbv, by cbv⟩, by decide +kernel⟩
  obtain ⟨program, hparse, hsucceeded, htext, hdata, hentry, hrun⟩ := hprogram
  obtain ⟨main, ⟨hmain, hname⟩, -, hloads⟩ := exists_loads rfl hsucceeded hparse
  obtain ⟨hlength, htype, haddress⟩ := hentry main hmain hname
  obtain ⟨x, hx, hfacts⟩ := Option.map_eq_some_iff.1 hrun
  simp only [Prod.mk.injEq] at hfacts
  obtain ⟨hfetch, hlocate, hmemory⟩ := hfacts
  refine ⟨hsucceeded, Sample.target program, main, _, x, _, (hloads _ rfl).1, hmain, hname,
    Sample.ready (by decide) htext hdata hlength, Image.Occurs.first.of_advance? hx, hfetch,
    htype, haddress, hlocate, ?_⟩
  rw [hmemory]
  decide

end ScalarMips
