import ScalarMips.Proofs.CallSimulation
import ScalarMips.Proofs.StackRoom
import ScalarMips.Proofs.TypeSafety

/-!
# Generated code means what the program means

The main theorem about code generation (`generate_preserves`): if the reference semantics carries a
run of an accepted program to its end, then a machine that was loaded with the generated code ends
the program as well, and it has printed the same.

The machine can have any addresses, as long as different things are at different places (`Fits`),
and any values in its registers and in the memory that is not data. Only the stack has to be large
enough for the run. How large that is does not depend on the machine but only on the run, which has
a peak.

The assumptions on the machine can always be met unless the program is too large for the address
space. `Image.usual` has the addresses that simulators use, and `Image.initial` is a machine in
which an image has been loaded.
-/

namespace ScalarMips

open Semantics (runProgram)

/-! ### Loaded machines -/

namespace Image

/-- A machine in which an image has just been loaded, with `n` words of the stack taken. -/
def initial (image : Image) (stack : Stack) (n : Nat) : Machine where
  registers r := if r = .sp then stack.slot n else 0
  lo := 0
  hi := 0
  memory p :=
    let index := (List.range image.code.words.length).find? fun k ↦ image.address (.data k) = p
    ((index.bind fun k ↦ image.code.words[k]?).map fun word ↦ word.2.toBitVec).getD 0
  output := ""

theorem initial_loaded {image : Image} {stack : Stack} (h : image.Fits stack) (n : Nat) :
    image.Loaded stack n (image.initial stack n) := by
  refine ⟨fun k name value hk ↦ ?_, rfl, rfl⟩
  have hlt : k < image.code.words.length := (List.getElem?_eq_some_iff.1 hk).1
  have hfind := find?_range hlt (f := fun j ↦ image.address (.data j))
    fun j hj heq ↦ h.data j k hj hlt heq
  simp only [initial, hfind, Option.bind_some, hk]
  rfl

/-- Code with the addresses that simulators use. -/
def usual (code : Code) : Image where
  code
  address
    | .text i => 0x00400000 + BitVec.ofNat 32 (4 * i)
    | .data k => 0x10010000 + BitVec.ofNat 32 (4 * k)

/-- A stack where simulators put it. -/
def usualStack (room : Nat) : Stack := ⟨0x7fffeffc, room⟩

/-- Code that is not too large fits. -/
theorem usual_fits {code : Code} {room : Nat} (hcode : code.instructions.length ≤ 2 ^ 25)
    (hroom : code.words.length + room ≤ 2 ^ 28) : (usual code).Fits (usualStack room) := by
  have htext : ∀ i, ((usual code).address (.text i)).toNat = (0x00400000 + 4 * i) % 2 ^ 32 := by
    intro i
    simp [usual]
  have hdata : ∀ k, ((usual code).address (.data k)).toNat = (0x10010000 + 4 * k) % 2 ^ 32 := by
    intro k
    simp [usual]
  have htop : (usualStack room).top.toNat = 0x7fffeffc := by
    simp [usualStack]
  refine ⟨fun i j hi hj heq ↦ ?_, fun j k hj hk heq ↦ ?_, fun k hk ↦ ?_, by omega, ?_,
    fun n hn hroom' k hk heq ↦ ?_⟩
  · have heq := congrArg BitVec.toNat heq
    rw [htext, htext] at heq
    have hi' : i < code.instructions.length := hi
    have hj' : j < code.instructions.length := hj
    omega
  · have heq := congrArg BitVec.toNat heq
    rw [hdata, hdata] at heq
    have hj' : j < code.words.length := hj
    have hk' : k < code.words.length := hk
    omega
  · rw [hdata]
    omega
  · have hstack : (usualStack room).room = room := rfl
    omega
  · have heq := congrArg BitVec.toNat heq
    have hk' : k < code.words.length := hk
    have hn' : n ≤ room := hroom'
    rw [hdata, Stack.slot, BitVec.toNat_sub, BitVec.toNat_ofNat] at heq
    omega

end Image

/-! ### Code generation -/

/-- The machine does what a flattened program means, provided that its stack has the room. -/
theorem exits_of_runProgram {t : Target} (h : Flattened t.entry t.program)
    (hentry : '_' ∉ t.entry.toList) (htable : t.table = (Layout.build t.program {}).table)
    (hcode : t.image.code = t.code) (hfits : t.image.Fits t.stack) {f : FunctionDecl}
    (hf : f ∈ functionDecls t.program) (hname : f.head.name = t.entry) {m : Machine}
    (hloaded : t.image.Loaded t.stack f.parameters.length m) {fuel : Nat} {output : String}
    (hrun : runProgram t.program t.entry t.table (some t.stack.room) fuel = .finished output) :
    t.image.Exits ⟨0, m⟩ output := by
  have hlinked := linked_of_flattened h hentry htable hcode hfits
  have hfind : t.setup.find? t.entry = some f :=
    hname ▸ Semantics.find?_of_distinct h.distinct hf t.entry (some t.stack.room)
  exact exits_of_run hlinked hfind hloaded hrun

/-- **Code generation preserves meaning.** Code is generated for every accepted program, and no run
of the program meets what is not a program. Whenever the reference semantics carries a run to its
end, the run has a peak: it goes the same way on a stack that has room for the peak, and not on a
smaller one. Every machine that was loaded with the code and has such a stack then executes it from
the first instruction until the program ends, and has printed the same. -/
theorem generate_preserves {tokens : List Token} {program flat : List Stmt} {table : SymbolTable}
    (hparse : parse tokens = .ok program) (haccepted : Accepted "main" program)
    (hflat : flat = Renaming.flatten "main" program) (htable : table = (Layout.build flat {}).table)
    (annotate : Bool) :
    ∃ code, Generate.program table { annotate } flat = .ok code ∧
      (∀ limit fuel, runProgram flat "main" table limit fuel ≠ .malformed) ∧
      ∃ main ∈ functionDecls flat, main.head.name = "main" ∧
        ∀ fuel output, runProgram flat "main" table none fuel = .finished output →
          ∃ peak, (∀ n, runProgram flat "main" table (some n) fuel =
              if peak ≤ n then .finished output else .outOfStack) ∧
            ∀ (image : Image) (stack : Stack) (m : Machine), image.code = code →
              image.Fits stack → peak ≤ stack.room →
              image.Loaded stack main.parameters.length m → image.Exits ⟨0, m⟩ output := by
  have hflattened : Flattened "main" flat :=
    hflat ▸ flattened_of_accepted (parse_grammatical hparse) haccepted
  have hprogram := Generate.program_eq_ok hflattened annotate
  obtain ⟨main, hmain, hname⟩ := List.mem_map.1 hflattened.entry_mem
  rw [← htable] at hprogram
  refine ⟨_, hprogram, fun limit fuel ↦ ?_, main, hmain, hname, fun fuel output hrun ↦ ?_⟩
  · exact htable ▸ Semantics.runProgram_ne_malformed hflattened limit fuel
  · obtain ⟨peak, hpeak⟩ := Semantics.exists_peak flat "main" table fuel
    rw [hrun] at hpeak
    refine ⟨peak, hpeak, fun image stack m hcode hfits hroom hloaded ↦ ?_⟩
    have hlimited := hpeak stack.room
    rw [if_pos hroom] at hlimited
    have hentry : '_' ∉ "main".toList := by decide
    exact exits_of_runProgram (t := ⟨image, stack, table, flat, "main", annotate⟩) hflattened
      hentry htable hcode hfits hmain hname hloaded hlimited

theorem generate_preserves_sample :
    ∃ code, Generate.program (Layout.build (Renaming.flatten "main" Sample.program) {}).table {}
        (Renaming.flatten "main" Sample.program) = .ok code ∧
      (Image.usual code).Exits ⟨0, (Image.usual code).initial (Image.usualStack 100) 0⟩
        "0\n2\n4\n" := by
  have haccepted : Accepted "main" Sample.program := ⟨by cbv, by cbv, by cbv⟩
  obtain ⟨code, hcode, -, main, hmain, hname, hpreserves⟩ :=
    generate_preserves Sample.parse_tokens haccepted rfl rfl false
  have hfinished : ∀ limit ∈ [none, some 100], runProgram (Renaming.flatten "main" Sample.program)
      "main" (Layout.build (Renaming.flatten "main" Sample.program) {}).table limit 60 =
        .finished "0\n2\n4\n" := by
    simp only [List.forall_mem_cons]
    exact ⟨by cbv, by cbv, fun _ h ↦ absurd h List.not_mem_nil⟩
  obtain ⟨peak, hpeak, hexits⟩ := hpreserves 60 _ (hfinished _ List.mem_cons_self)
  have hroom : peak ≤ 100 := by
    by_contra hlt
    have hstop := (hpeak 100).trans (if_neg hlt)
    rw [hfinished (some 100) (List.mem_cons_of_mem _ List.mem_cons_self)] at hstop
    cases hstop
  have hparameters : main.parameters.length = 0 := by
    have hall : (functionDecls (Renaming.flatten "main" Sample.program)).all
      (fun f ↦ f.head.name ≠ "main" || f.parameters.length = 0) = true := by cbv
    simpa [hname] using List.all_eq_true.1 hall main hmain
  have hsize : (Generate.program (Layout.build (Renaming.flatten "main" Sample.program) {}).table {}
      (Renaming.flatten "main" Sample.program)).toOption.map
        (fun code ↦ (code.instructions.length, code.words.length)) = some (125, 1) := by cbv
  rw [hcode] at hsize
  obtain ⟨htext, hdata⟩ := Prod.mk.inj (Option.some.inj hsize)
  have hfits : (Image.usual code).Fits (Image.usualStack 100) :=
    Image.usual_fits (by rw [htext]; decide) (by rw [hdata]; decide)
  refine ⟨code, hcode, hexits _ _ _ rfl hfits hroom ?_⟩
  rw [hparameters]
  exact Image.initial_loaded hfits 0

end ScalarMips
