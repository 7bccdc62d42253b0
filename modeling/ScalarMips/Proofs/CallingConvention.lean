import ScalarMips.Proofs.FrameSizes
import ScalarMips.Proofs.FrameSlots
import ScalarMips.Proofs.Operators
import ScalarMips.Proofs.TypedCalls
import ScalarMips.Proofs.UniqueLabels

/-!
# The calling convention

Callers and callees agree on where arguments are. The caller puts them on the stack, the last one
first; the prologue of the callee sets the frame pointer two words further down; and the slots of
the parameters count upwards from there. `HandsOver` says of a call, line by line, that each
argument is pushed into the slot of its parameter and stays there until the jump, and that the
caller then takes exactly the arguments off the stack.

Lines are said to be at a height of the stack, and the instructions that stay in line move `$sp` as
the heights do (`Image.get_sp_of_effect?`).
-/

namespace ScalarMips

/-! ### Addresses at a height -/

namespace Word

/-- The address at a height of a stack, which grows downwards from `base`. -/
def under (base : Word) (h : ℤ) : Word :=
  base - BitVec.ofInt 32 h

theorem under_add (base : Word) (h : ℤ) (n : ℕ) :
    under base (h + n) = under base h - BitVec.ofNat 32 n := by
  rw [under, under, BitVec.ofInt_add, BitVec.ofInt_natCast, BitVec.sub_sub]

theorem under_sub (base : Word) (h : ℤ) (n : ℕ) :
    under base (h - n) = under base h + BitVec.ofNat 32 n := by
  have hadd := under_add base (h - n) n
  rw [sub_add_cancel] at hadd
  rw [hadd, BitVec.sub_add_cancel]

end Word

namespace Image

variable {image : Image} {m m' : Machine} {i : Instruction}

/-- An instruction that stays in line writes no other register than one. -/
theorem get_of_effect? (heffect : image.effect? m i = some m') {r : Register}
    (hr : i.written? ≠ some r) : m'.get r = m.get r := by
  have hset : ∀ {target : Register} {v : Word}, some target ≠ some r →
      (m.set target v).get r = m.get r :=
    fun hne ↦ m.get_set_of_ne _ _ fun heq ↦ hne (congrArg some heq.symm)
  cases i with
  | lw target address =>
    obtain ⟨p, -, rfl⟩ := Option.map_eq_some_iff.1 heffect
    exact hset hr
  | sw source address =>
    obtain ⟨p, -, rfl⟩ := Option.map_eq_some_iff.1 heffect
    rfl
  | div left right =>
    rw [effect?] at heffect
    split at heffect
    · cases heffect
      rfl
    · cases heffect
  | li | move | compute | immediate | mflo | mfhi =>
    cases heffect
    exact hset hr
  | beq | j | jal | jr | syscall => cases heffect

/-- An instruction that stays in line moves the stack pointer as it changes the height. -/
theorem get_sp_of_effect? (htracked : i.Tracked) (heffect : image.effect? m i = some m')
    {base : Word} {frame h : ℤ} (hsp : m.get .sp = base.under h)
    (hfp : i = .move .sp .fp → m.get .fp = base.under frame) :
    m'.get .sp = base.under (i.height frame h) := by
  have hamount : ∀ amount : UInt32, BitVec.ofNat 32 amount.toNat = amount.toBitVec :=
    fun amount ↦ (BitVec.ofNat_toNat _ _).trans (BitVec.setWidth_eq _)
  by_cases hwritten : i.written? = some .sp
  · rcases htracked hwritten with ⟨amount, rfl | rfl⟩ | rfl
    · cases heffect
      show m.get .sp - amount.toBitVec = base.under (h + amount.toNat)
      rw [hsp, Word.under_add, hamount]
    · cases heffect
      show m.get .sp + amount.toBitVec = base.under (h - amount.toNat)
      rw [hsp, Word.under_sub, hamount]
    · cases heffect
      exact hfp rfl
  · rw [get_of_effect? heffect hwritten, hsp, Instruction.height_of_written hwritten]

end Image

namespace Generate

variable {c callee : Context} {entry : String} {body : List Stmt} {n : UInt32} {start : ℕ}

/-! ### Lines of a function -/

/-- The heights along code that stands in a function. -/
theorem heightAt_add {code : Code} (hcode : code <+: (bodyCode c entry body n).drop start) {k : ℕ}
    (hk : k ≤ code.length) :
    heightAt c entry body n (start + k) =
      Code.height c.frame (heightAt c entry body n start) (code.take k) := by
  obtain ⟨rest, hrest⟩ := hcode
  have htake : ((bodyCode c entry body n).drop start).take k = code.take k := by
    rw [← hrest, List.take_append_of_le_length hk]
  rw [heightAt, heightAt, List.take_add, Code.height_append, htake]

/-- Code in code that stands in a function. -/
theorem prefix_drop {first second : Code}
    (h : first ++ second <+: (bodyCode c entry body n).drop start) :
    second <+: (bodyCode c entry body n).drop (start + first.length) := by
  obtain ⟨rest, hrest⟩ := h
  rw [← List.drop_drop, ← hrest, List.append_assoc, List.drop_left]
  exact List.prefix_append _ _

/-! ### Arguments -/

/-- The last thing that the code of an expression does is to put a register on the stack. -/
theorem exists_push {e : Expr} (hfaults : (expr c e).faults = []) :
    ∃ front r, r ≠ .sp ∧ (expr c e).code = front ++ (c.push r).map .instruction := by
  cases e with
  | literal span value =>
    rw [expr] at hfaults ⊢
    split at hfaults
    · rename_i htype
      rw [if_pos htype]
      exact ⟨[.instruction (.li .t0 _)], .t0, nofun, rfl⟩
    · cases hfaults
  | var span name =>
    rw [expr] at hfaults ⊢
    split at hfaults
    · exact ⟨[.instruction (.lw .t0 _)], .t0, nofun, rfl⟩
    · cases hfaults
  | unary span op operand =>
    obtain ⟨-, code, -, heq⟩ := unary_eq span hfaults
    rw [heq, Emission.ofInstructions, List.map_append, ← List.append_assoc]
    exact ⟨_, .t0, nofun, rfl⟩
  | binary span op left right =>
    obtain ⟨-, -, code, -, heq⟩ := binary_eq span hfaults
    rw [heq, Emission.ofInstructions, List.map_append, ← List.append_assoc]
    exact ⟨_, .t0, nofun, rfl⟩
  | call span name arguments =>
    obtain ⟨-, heq⟩ := call_eq span hfaults
    rw [heq, Emission.ofInstructions, callCode, List.map_append, ← List.append_assoc]
    exact ⟨_, .v0, nofun, rfl⟩

/-- The last arguments come first. -/
theorem code_argumentsCode_append (c : Context) (first second : List Expr) :
    (argumentsCode c (first ++ second)).code =
      (argumentsCode c second).code ++ (argumentsCode c first).code := by
  induction first with
  | nil => exact (List.append_nil _).symm
  | cons e first ih =>
    have hcons : (argumentsCode c (e :: (first ++ second))).code =
        (argumentsCode c (first ++ second)).code ++ (expr c e).code := rfl
    rw [List.cons_append, hcons, ih, List.append_assoc]
    rfl

theorem faults_argumentsCode_append (c : Context) (first second : List Expr) :
    (argumentsCode c (first ++ second)).faults =
      (argumentsCode c second).faults ++ (argumentsCode c first).faults := by
  induction first with
  | nil => exact (List.append_nil _).symm
  | cons e first ih =>
    have hcons : (argumentsCode c (e :: (first ++ second))).faults =
        (argumentsCode c (first ++ second)).faults ++ (expr c e).faults := rfl
    rw [List.cons_append, hcons, ih, List.append_assoc]
    rfl

theorem allCallsFit_append {wordSize : UInt32} {first second : List Expr} :
    Expr.AllCallsFit wordSize (first ++ second) ↔
      Expr.AllCallsFit wordSize first ∧ Expr.AllCallsFit wordSize second := by
  induction first with
  | nil => exact ⟨fun h ↦ ⟨trivial, h⟩, fun h ↦ h.2⟩
  | cons e first ih => exact (and_congr_right fun _ ↦ ih).trans and_assoc.symm

/-! ### Calls -/

/-- A register is put on the stack at some lines of a function, in the slot that a parameter has
after the call at a later line. -/
structure Delivers (c callee : Context) (lines : Code) (height : ℕ → ℤ) (call line : ℕ)
    (r : Register) (name : String) : Prop where
  /-- The register is put on the stack at the line. -/
  push : (c.push r).map .instruction <+: lines.drop line
  /-- The word is where the height says. -/
  stored : ∀ (image : Image) (m : Machine) (base : Word), (m.get .sp).toNat % 4 = 0 →
    m.get .sp = base.under (height line) → ∃ m', image.run? m (c.push r) = some m' ∧
      m'.get .sp = base.under (height (line + 1)) ∧
        m'.memory (base.under (height (line + 1))) = m.get r
  /-- The word is on the stack until the call. -/
  kept : ∀ l, line + 1 ≤ l → l ≤ call → height (line + 1) ≤ height l
  /-- When the prologue of the function that is called has opened its frame, the word is the slot of
  the parameter. -/
  slot : ∀ (m m' : Machine) (base : Word), m.get .sp = base.under (height call) →
    callee.Opens m m' → callee.slot? (m'.get .fp) name = some (base.under (height (line + 1)))

/-- How a call of a function, whose code begins at some line, hands over its arguments. -/
structure HandsOver (c callee : Context) (f : FunctionDecl) (arguments : List Expr) (lines : Code)
    (height : ℕ → ℤ) (start : ℕ) : Prop where
  /-- There is an argument for every parameter. -/
  length : arguments.length = f.parameters.length
  /-- The last instructions of every argument put it into the slot of its parameter. -/
  delivers : ∀ (i : ℕ) (e : Expr) (p : Declarator), arguments[i]? = some e →
    f.parameters[i]? = some p → ∃ (front : Code) (r : Register),
      (expr c e).code = front ++ (c.push r).map .instruction ∧
      (expr c e).code <+:
        lines.drop (start + (argumentsCode c (arguments.drop (i + 1))).code.length) ∧
      Delivers c callee lines height (start + (argumentsCode c arguments).code.length)
        (start + (argumentsCode c (arguments.drop (i + 1))).code.length + front.length) r p.name
  /-- The call comes behind the arguments, and then as many words are taken off the stack as there
  are arguments. -/
  releases : ∃ release : List Instruction,
    (release = [] ∧ arguments = [] ∨ ∃ amount : UInt32,
      release = [.immediate .addiu .sp .sp amount] ∧ amount.toNat = 4 * arguments.length) ∧
    ((.jal f.head.name :: release ++ c.push .v0).map .instruction : Code) <+:
      lines.drop (start + (argumentsCode c arguments).code.length) ∧
    height (start + (argumentsCode c arguments).code.length) =
      height start + (4 * arguments.length : ℕ) ∧
    height (start + (argumentsCode c arguments).code.length + 1 + release.length) = height start

/-- The height of the stack behind the last arguments of a call. -/
theorem heightAt_arguments (first second : List Expr) {rest : Code}
    (hcode : (argumentsCode c (first ++ second)).code ++ rest <+:
      (bodyCode c entry body n).drop start)
    (hfaults : (argumentsCode c (first ++ second)).faults = [])
    (hfits : Expr.AllCallsFit c.wordSize (first ++ second)) :
    heightAt c entry body n (start + (argumentsCode c second).code.length) =
        heightAt c entry body n start + (second.length * c.wordSize.toNat : ℕ) ∧
      ∀ l, start + (argumentsCode c second).code.length ≤ l →
        l ≤ start + (argumentsCode c (first ++ second)).code.length →
          heightAt c entry body n (start + (argumentsCode c second).code.length) ≤
            heightAt c entry body n l := by
  rw [faults_argumentsCode_append, List.append_eq_nil_iff] at hfaults
  rw [allCallsFit_append] at hfits
  rw [code_argumentsCode_append, List.append_assoc] at hcode
  have hbehind := prefix_drop hcode
  have hsecond : Keeps c.frame (heightAt c entry body n start) _ _ _ :=
    keeps_argumentsCode second (le_refl _) hfaults.1 hfits.2
  have hfirst : Keeps c.frame _ _ _ _ := keeps_argumentsCode first
    (le_refl (heightAt c entry body n (start + (argumentsCode c second).code.length)))
    hfaults.2 hfits.1
  refine ⟨?_, fun l hl hcall ↦ ?_⟩
  · rw [heightAt_add hcode (by simp), List.take_left]
    exact hsecond.height_eq
  · obtain ⟨j, rfl⟩ := Nat.exists_eq_add_of_le hl
    have hj : j ≤ (argumentsCode c first).code.length := by
      rw [code_argumentsCode_append, List.length_append] at hcall
      omega
    rw [heightAt_add hbehind (by rw [List.length_append]; omega),
      List.take_append_of_le_length hj]
    exact hfirst.bottom_le j

/-- The word that the last two instructions of some code put on the stack. -/
theorem heightAt_pushed {line : ℕ} {r : Register}
    (hpush : (c.push r).map .instruction <+: (bodyCode c entry body n).drop line) :
    heightAt c entry body n (line + 1) =
        heightAt c entry body n line + c.wordSize.toNat ∧
      heightAt c entry body n (line + 2) = heightAt c entry body n (line + 1) := by
  exact ⟨heightAt_add hpush (Nat.le_succ 1),
    (heightAt_add hpush (Nat.le_refl 2)).trans (heightAt_add hpush (Nat.le_succ 1)).symm⟩

/-- A pushed word is stored where the height says. -/
theorem run?_push (hword : c.wordSize = 4) {line : ℕ} {r : Register} (hr : r ≠ .sp)
    (hpush : (c.push r).map .instruction <+: (bodyCode c entry body n).drop line)
    (image : Image) (m : Machine) (base : Word) (haligned : (m.get .sp).toNat % 4 = 0)
    (hsp : m.get .sp = base.under (heightAt c entry body n line)) :
    ∃ m', image.run? m (c.push r) = some m' ∧
      m'.get .sp = base.under (heightAt c entry body n (line + 1)) ∧
        m'.memory (base.under (heightAt c entry body n (line + 1))) = m.get r := by
  have hfour : (4 : Word).toNat = 4 := rfl
  have hnext : m.get .sp - c.wordSize.toBitVec =
      base.under (heightAt c entry body n (line + 1)) := by
    rw [(heightAt_pushed hpush).1, Word.under_add, hsp, hword]
    rfl
  have htop : Image.aligned? (base.under (heightAt c entry body n (line + 1))) =
      some (base.under (heightAt c entry body n (line + 1))) := by
    refine if_pos ?_
    rw [← hnext, hword, BitVec.toNat_sub]
    show (2 ^ 32 - (4 : Word).toNat + _) % 2 ^ 32 % 4 = 0
    omega
  exact ⟨_, run_push image c hr hnext htop, rfl, Machine.memory_store_self _ _ _⟩

/-- The slot of a parameter, seen from the stack of a call. -/
theorem slot?_under {table : SymbolTable} {f : FunctionDecl} {annotate : Bool}
    (hword : table.wordSize = 4) (hbody : Stmt.AllGrammatical f.body) (hnodup : f.variables.Nodup)
    {i : ℕ} {p : Declarator} (hp : f.parameters[i]? = some p) (base : Word) (h : ℤ) :
    (Context.ofFunction table f annotate).slot? (base.under h - 8) p.name =
      some (base.under (h - (4 * i : ℕ))) := by
  have hname : (f.parameters.map Declarator.name)[i]? = some p.name := by
    rw [List.getElem?_map, hp]
    rfl
  have hback : base.under h - 8 + BitVec.ofNat 32 (4 * 2) = base.under h :=
    BitVec.sub_add_cancel _ _
  rw [Context.slot?_parameter hword hbody hnodup hname, hback, Word.under_sub]

/-- An argument of a call goes into the slot of its parameter. -/
theorem delivers_argument {name : String} {arguments first rest : List Expr} {e : Expr}
    {more : Code} (hsplit : arguments = first ++ e :: rest) (hword : c.wordSize = 4)
    (hcode : (argumentsCode c arguments).code ++ more <+: (bodyCode c entry body n).drop start)
    (hfaults : (argumentsCode c arguments).faults = [])
    (hfits : Expr.AllCallsFit c.wordSize arguments)
    (hslot : ∀ (base : Word) (h : ℤ), callee.slot? (base.under h - 8) name =
      some (base.under (h - (4 * first.length : ℕ)))) :
    ∃ (front : Code) (r : Register), (expr c e).code = front ++ (c.push r).map .instruction ∧
      (expr c e).code <+:
        (bodyCode c entry body n).drop (start + (argumentsCode c rest).code.length) ∧
      Delivers c callee (bodyCode c entry body n) (heightAt c entry body n)
        (start + (argumentsCode c arguments).code.length)
        (start + (argumentsCode c rest).code.length + front.length) r name := by
  subst hsplit
  obtain ⟨hheight, hkept⟩ := heightAt_arguments first (e :: rest) hcode hfaults hfits
  have hall := (heightAt_arguments [] (first ++ e :: rest) hcode hfaults hfits).1
  have hcons : (argumentsCode c (e :: rest)).code =
      (argumentsCode c rest).code ++ (expr c e).code := rfl
  rw [faults_argumentsCode_append, List.append_eq_nil_iff] at hfaults
  obtain ⟨front, r, hr, hpush⟩ := exists_push (List.append_eq_nil_iff.1 hfaults.1).2
  have hexpr : (expr c e).code <+:
      (bodyCode c entry body n).drop (start + (argumentsCode c rest).code.length) := by
    rw [code_argumentsCode_append, hcons, List.append_assoc, List.append_assoc] at hcode
    exact (List.prefix_append _ _).trans (prefix_drop hcode)
  have hline : (c.push r).map .instruction <+: (bodyCode c entry body n).drop
      (start + (argumentsCode c rest).code.length + front.length) :=
    prefix_drop (hpush ▸ hexpr)
  have hend : start + (argumentsCode c rest).code.length + front.length + 2 =
      start + (argumentsCode c (e :: rest)).code.length := by
    have htwo : ((c.push r).map Line.instruction).length = 2 := rfl
    rw [hcons, List.length_append, hpush, List.length_append, htwo]
    omega
  have hnext := (heightAt_pushed hline).2
  rw [hend] at hnext
  refine ⟨front, r, hpush, hexpr, hline, run?_push hword hr hline, fun l hl hcall ↦ ?_,
    fun m m' base hsp hopens ↦ ?_⟩
  · rcases Nat.eq_or_lt_of_le hl with rfl | hlt
    · exact le_refl _
    · rw [← hnext]
      exact hkept l (by omega) hcall
  · have hfour : c.wordSize.toNat = 4 := congrArg UInt32.toNat hword
    rw [hopens.fp, hsp, hslot, ← hnext, hheight, hall, hfour, List.length_append]
    congr 2
    omega

/-- A call takes the words of its arguments off the stack. -/
theorem height_release (hword : c.wordSize = 4) {k : ℕ} (hfits : k * c.wordSize.toNat < 2 ^ 32)
    (function : String) (h : ℤ) :
    ∃ release : List Instruction,
      (release = [] ∧ k = 0 ∨ ∃ amount : UInt32,
        release = [.immediate .addiu .sp .sp amount] ∧ amount.toNat = 4 * k) ∧
      callCode c function k = .jal function :: release ++ c.push .v0 ∧
      Code.height c.frame (h + (4 * k : ℕ)) ((.jal function :: release).map .instruction) = h := by
  by_cases hzero : k = 0
  · refine ⟨[], .inl ⟨rfl, hzero⟩, ?_, ?_⟩
    · rw [callCode, if_pos hzero]
    · rw [hzero]
      exact add_zero h
  · have hamount : (c.globals.words k).toNat = 4 * k := by
      have hfour : c.globals.wordSize.toNat = 4 := congrArg UInt32.toNat hword
      rw [toNat_words hfits, hfour, Nat.mul_comm]
    refine ⟨[.immediate .addiu .sp .sp (c.globals.words k)], .inr ⟨_, rfl, hamount⟩, ?_, ?_⟩
    · rw [callCode, if_neg hzero]
    · show h + (4 * k : ℕ) - ((c.globals.words k).toNat : ℤ) = h
      rw [hamount, add_sub_cancel_right]

/-- A call in the code of a function hands over its arguments. -/
theorem handsOver_call {table : SymbolTable} {f : FunctionDecl} {annotate : Bool}
    (hword : c.wordSize = 4) (hcallee : table.wordSize = 4)
    (hbody : Stmt.AllGrammatical f.body) (hnodup : f.variables.Nodup)
    (hfaults : (stmts c body n).faults = []) (hfits : Stmt.AllCallsFit c.wordSize body)
    {before : Code} {span : Span} {arguments : List Expr}
    (hreached : Reached c (.stmts body n) before (.expr (.call span f.head.name arguments)))
    (hlength : arguments.length = f.parameters.length) :
    HandsOver c (.ofFunction table f annotate) f arguments (bodyCode c entry body n)
      (heightAt c entry body n) ((prologue c).length + before.length) := by
  obtain ⟨hsound, -, -⟩ : Leads c c.frame c.bottom c.bottom (.stmts body n) before _ :=
    hreached.leads ⟨hfaults, hfits⟩ rfl
  obtain ⟨hcode, -⟩ : Part.code c _ <+: (bodyCode c entry body n).drop _ ∧ _ :=
    part_bodyCode hfaults hfits hreached
  obtain ⟨harguments, heq⟩ := call_eq span hsound.faults
  obtain ⟨hsize, hcalls⟩ := hsound.calls
  have hwhole : (argumentsCode c arguments).code ++
      (Emission.ofInstructions (callCode c f.head.name arguments.length)).code <+:
        (bodyCode c entry body n).drop ((prologue c).length + before.length) := heq ▸ hcode
  refine ⟨hlength, fun i e p he hp ↦ ?_, ?_⟩
  · have hdrop : arguments.drop i = e :: arguments.drop (i + 1) := by
      rw [List.drop_eq_getElem?_toList_append, he]
      rfl
    have hsplit : arguments = arguments.take i ++ e :: arguments.drop (i + 1) := by
      rw [← hdrop, List.take_append_drop]
    have htake : (arguments.take i).length = i :=
      List.length_take_of_le (List.getElem?_eq_some_iff.1 he).1.le
    refine delivers_argument hsplit hword hwhole harguments hcalls fun base h ↦ ?_
    rw [htake]
    exact slot?_under hcallee hbody hnodup hp base h
  · obtain ⟨release, hrelease, hcallCode, hback⟩ := height_release hword hsize f.head.name
      (heightAt c entry body n ((prologue c).length + before.length))
    have hfour : c.wordSize.toNat = 4 := congrArg UInt32.toNat hword
    have hcall := (heightAt_arguments [] arguments hwhole harguments hcalls).1
    rw [hfour, Nat.mul_comm] at hcall
    rw [hcallCode] at hwhole
    have hbehind : ((.jal f.head.name :: release ++ c.push .v0).map .instruction : Code) <+: _ :=
      prefix_drop hwhole
    refine ⟨release, hrelease.imp (And.imp_right List.length_eq_zero_iff.1) id, hbehind, ?_, ?_⟩
    · exact hcall
    · have htake : (((.jal f.head.name :: release ++ c.push .v0).map .instruction : Code).take
          (1 + release.length)) = (.jal f.head.name :: release).map .instruction := by
        rw [Nat.add_comm, List.map_append, ← List.length_cons,
          ← List.length_map (f := Line.instruction), List.take_left]
      have hinside : 1 + release.length ≤ ((.jal f.head.name :: release ++ c.push .v0).map
          .instruction : Code).length := by
        rw [List.length_map, List.length_append, List.length_cons]
        omega
      rw [Nat.add_assoc, heightAt_add hbehind hinside, htake, hcall, hback]

/-! ### Functions -/

/-- The code of a function keeps to the calling convention: its frame is laid out well, its prologue
opens the frame, the stack pointer is where the heights say, and every call hands over its arguments
to a function of the program. -/
structure Conforms (program : List Stmt) (c : Context) (entry : String) (f : FunctionDecl)
    (n : UInt32) (height : ℕ → ℤ) : Prop where
  /-- The code was generated with the table of the function. -/
  locals : c.globals.locals? f.head.name = some c.locals
  /-- The frame is laid out well, wherever it is. -/
  laysOut : ∀ fp : Word, c.LaysOut f fp
  /-- The prologue opens the frame. -/
  opens : ∀ (image : Image) (m : Machine), (m.get .sp).toNat % 4 = 0 →
    ∃ m', image.run? m (prologue c) = some m' ∧ c.Opens m m'
  /-- The heights of the stack are consistent. -/
  disciplined : Disciplined c entry f.body n height
  /-- The stack pointer moves as the heights do, given the frame pointer that it is reset to. -/
  moves : ∀ (image : Image) (m m' : Machine) (base : Word) (k : ℕ) (i : Instruction),
    (bodyCode c entry f.body n)[k]? = some (.instruction i) → image.effect? m i = some m' →
      m.get .sp = base.under (height k) →
      (i = .move .sp .fp → m.get .fp = base.under c.frame) →
        m'.get .sp = base.under (height (k + 1))
  /-- Code is generated for every call in the function. -/
  reached : ∀ call ∈ Stmt.callsAll f.body, ∃ before,
    Reached c (.stmts f.body n) before (.expr call)
  /-- Every call is one of a function of the program. -/
  resolved : ∀ before span name arguments,
    Reached c (.stmts f.body n) before (.expr (.call span name arguments)) →
      name ∈ functionNames program
  /-- Every call hands over its arguments. -/
  calls : ∀ before span arguments, ∀ g ∈ functionDecls program,
    Reached c (.stmts f.body n) before (.expr (.call span g.head.name arguments)) →
      HandsOver c (.ofFunction c.globals g c.annotate) g arguments (bodyCode c entry f.body n)
        height ((prologue c).length + before.length)

variable {program : List Stmt} {table : SymbolTable} {Γ : Env} {f : FunctionDecl}

/-- What is visible before any function runs is in the global table. -/
theorem tabled_of_sound (hstored : Layout.Stored program table)
    (h : Semantics.Sound program Γ fun _ ↦ none) : Tabled table Γ := by
  intro name meaning hname
  cases meaning with
  | var type =>
    rcases h.var name type hname with ⟨_, hframe, -⟩ | ⟨-, head, hhead, rfl, -⟩
    · cases hframe
    · obtain ⟨offset, initial, hfind⟩ := hstored.global head hhead
      exact ⟨_, _, _, hfind⟩
  | function parameters result =>
    exact tabled_signatures hstored name _ (h.function name parameters result hname)

/-- The body of a function of a flattened program has code. -/
theorem faults_body (h : Flattened entry program) (hf : f ∈ functionDecls program)
    (annotate : Bool) (n : UInt32) :
    (stmts (.ofFunction (Layout.build program {}).table f annotate) f.body n).faults = [] := by
  obtain ⟨Γ, hsound, htyped⟩ := (Semantics.checked_of_flattened h).typed f hf
  have htabled := tabled_of_sound h.stored.2 hsound
  have hfaults : (function (.ofFunction (Layout.build program {}).table f annotate) entry f.body
      n).faults = [] := faults_function (h.grammatical.body hf) htabled htyped entry n
  simp only [function, Emission.faults_append, List.append_eq_nil_iff] at hfaults
  exact hfaults.1.1.2

/-- The code of a function keeps to the calling convention in a program whose frames are not longer
than the memory. -/
theorem conforms_ofFunction (h : Flattened entry program)
    (hsize : ∀ f ∈ functionDecls program, 4 * f.variables.length + 8 ≤ 2 ^ 32)
    (hf : f ∈ functionDecls program) (annotate : Bool) (n : UInt32) :
    let c : Context := .ofFunction (Layout.build program {}).table f annotate
    Conforms program c entry f n (heightAt c entry f.body n) := by
  intro c
  have hstored := h.stored.2
  have hword : c.wordSize = 4 := hstored.wordSize
  have hparameters : ParametersFit program c.wordSize := by
    intro g hg
    have hle := hsize g hg
    rw [FunctionDecl.variables, List.length_append, List.length_map] at hle
    rw [hword]
    show g.parameters.length * 4 < 2 ^ 32
    omega
  obtain ⟨Γ, hsound, htyped⟩ := (Semantics.checked_of_flattened h).typed f hf
  have hΓ : (Γ.bindAll f.parameters).Calls program := Env.Calls.bindAll hsound.function _
  have hfits : Stmt.AllCallsFit c.wordSize f.body := htyped.callsFit hparameters hΓ
  have hfaults : (stmts c f.body n).faults = [] := faults_body h hf annotate n
  have hdisciplined := disciplined_function c entry f.body n hfaults hfits
  have hcalled : ∀ {before : Code} {span : Span} {name : String} {arguments : List Expr},
      Reached c (.stmts f.body n) before (.expr (.call span name arguments)) →
        ∃ g ∈ functionDecls program, g.head.name = name ∧
          arguments.length = g.parameters.length :=
    fun hreached ↦ hreached.length_arguments (p := .stmts f.body n) htyped hΓ
  refine ⟨locals?_eq hstored hf, fun fp ↦ ?_, fun image m haligned ↦ ?_, hdisciplined, ?_,
    fun call ↦ exists_reached_stmts n htyped, ?_, ?_⟩
  · exact Context.laysOut_ofFunction hword (h.grammatical.body hf) (h.distinct.variables hf)
      (hsize f hf) fp
  · exact opens_prologue image hword haligned
  · intro image m m' base k i hline heffect hsp hfp
    rw [heightAt_succ hline]
    have htracked := hdisciplined.tracked i (List.mem_of_getElem? hline)
    exact Image.get_sp_of_effect? htracked heffect hsp hfp
  · intro before span name arguments hreached
    obtain ⟨g, hg, rfl, -⟩ := hcalled hreached
    exact List.mem_map_of_mem hg
  · intro before span arguments g hg hreached
    obtain ⟨g', hg', hname, hlength⟩ := hcalled hreached
    obtain rfl : g' = g :=
      List.inj_on_of_nodup_map (List.nodup_append.1 h.distinct).1 hg' hg hname
    exact handsOver_call hword hword (h.grammatical.body hg) (h.distinct.variables hg) hfaults hfits
      hreached hlength

end Generate

open Generate

/-- **Frames agree with the calling convention.** A compilation of a text below 2^32 characters that
succeeds gives the assembly of a code that has every function of the flattened program. In each of
them the variables and saved registers do not overlap, wherever its frame is; the local variables
are in the region that the prologue takes from the stack; and every call puts its arguments where
the parameters of the function that it calls are, and takes as many words off again. -/
theorem compile_frames {settings : Settings} {source : String}
    (hsize : source.length < 2 ^ 32) (hsucceeded : (compile settings source).succeeded) :
    ∃ program code flat table, parse (lex source).tokens = .ok program ∧
      flat = Renaming.flatten settings.entry program ∧ table = (Layout.build flat {}).table ∧
      (compile settings source).assembly = Code.text code ∧
      ∀ f ∈ functionDecls flat, ∃ (n : UInt32) (height : ℕ → ℤ),
        let c : Context := .ofFunction table f settings.annotate
        Block.code ⟨f.head.name, bodyCode c settings.entry f.body n⟩ <:+: code ∧
          Conforms flat c settings.entry f n height := by
  obtain ⟨program, code, hparse, haccepted, hcode, hassembly⟩ := exists_of_succeeded hsucceeded
  have hflat := flattened_of_accepted (parse_grammatical hparse) haccepted
  have hstored := hflat.stored.2
  rw [program_eq_ok hflat] at hcode
  cases hcode
  refine ⟨program, _, _, _, hparse, rfl, rfl, hassembly, fun f hf ↦ ?_⟩
  have hframes : ∀ g ∈ functionDecls (Renaming.flatten settings.entry program),
      4 * g.variables.length + 8 ≤ 2 ^ 32 := by
    intro g hg
    have hle := frame_le_source_flatten hparse settings.entry g hg
    omega
  let table := (Layout.build (Renaming.flatten settings.entry program) {}).table
  obtain ⟨before, after, n, hfunctions⟩ :=
    @exists_function table { entry := settings.entry, annotate := settings.annotate } _
      hflat.wellTyped.isDeclaration (fun g hg ↦ locals?_eq hstored hg) f hf 0
  refine ⟨n, _, ?_, conforms_ofFunction hflat hframes hf settings.annotate n⟩
  refine ⟨dataSection table ++ preamble settings.entry ++ before, after, ?_⟩
  rw [hfunctions, function_eq_bodyCode]
  simp only [List.append_assoc]
  rfl

/-- A call inside of an argument of another one. -/
def Sample.subtracting : String :=
  "fun int minus(int a, int b) { int c = a - b; return c; }\n" ++
    "fun int main() { return minus(5, minus(3, 1)); }\n"

theorem compile_frames_subtracting :
    Sample.subtracting.length < 2 ^ 32 ∧ (compile {} Sample.subtracting).succeeded ∧
      ∃ flat table f n height, f ∈ functionDecls flat ∧
        let c : Context := .ofFunction table f false
        c.function = "minus_0" ∧ f.variables.map (c.slot? 100) = [some 108, some 112, some 96] ∧
          Conforms flat c "main" f n height := by
  have hlex : (lex Sample.subtracting).fault = none := by cbv
  have hprogram : ∃ program, parse (lex Sample.subtracting).tokens = .ok program ∧
      Accepted "main" program ∧ ∃ f ∈ functionDecls (Renaming.flatten "main" program),
        f.head.name = "minus_0" ∧ f.variables.map
          ((Context.ofFunction (Layout.build (Renaming.flatten "main" program) {}).table f
            false).slot? 100) = [some 108, some 112, some 96] := by
    exact ⟨_, by cbv, ⟨by cbv, by cbv, by cbv⟩, _, .head _, by cbv, by cbv⟩
  obtain ⟨program, hparse, haccepted, f, hf, hname, hslots⟩ := hprogram
  have hsize : Sample.subtracting.length < 2 ^ 32 := by decide
  have hsucceeded : (compile {} Sample.subtracting).succeeded :=
    succeeded_of_accepted hlex hparse haccepted
  obtain ⟨program', code, flat, table, hparse', rfl, rfl, -, hfunctions⟩ :=
    compile_frames hsize hsucceeded
  obtain rfl : program = program' := Except.ok.inj (hparse.symm.trans hparse')
  obtain ⟨n, height, -, hconforms⟩ := hfunctions f hf
  exact ⟨hsize, hsucceeded, _, _, f, n, height, hf, hname, hslots, hconforms⟩

end ScalarMips
