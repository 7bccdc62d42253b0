import ScalarMips.Proofs.Execution

/-!
# Runs with a history

What has happened in a run before a moment of it. A `History` knows for every word which instruction
has written it last and in which activation of a function that was, and which activations are
running. It is put together along the run from the steps of the machine and has no influence on
them (`Image.next?`).

A run need not be followed to its end. `Image.Occurs` goes from one moment to the next only as long
as every moment is admitted, by which runs can be cut off that are no longer of interest.

To show that something holds whenever a word is loaded, runs are looked at up to a number of steps
(`Safe`). A loop and a call take a step before they come to code that has been met already, so
induction on that number goes around both.
-/

namespace ScalarMips

/-- Whether an instruction goes elsewhere or asks for a service. -/
def Instruction.leaves : Instruction → Bool
  | beq .. | j _ | jal _ | jr _ | syscall => true
  | _ => false

/-- Whether an instruction loads a word. -/
def Instruction.loads : Instruction → Bool
  | lw .. => true
  | _ => false

/-! ### Histories -/

/-- A write to memory. -/
structure Write where
  /-- The number of the activation that wrote. -/
  activation : Nat
  /-- The number of the instruction that wrote. -/
  index : Nat
  deriving DecidableEq

/-- An activation of a function. -/
structure Activation where
  /-- How many activations had begun before. -/
  number : Nat
  /-- The name of the function. -/
  function : String
  /-- The number of the instruction that called the function; the first one was not called. -/
  call : Option Nat
  deriving DecidableEq

/-- What has happened in a run. -/
structure History where
  /-- The last write to every word, if there was one. -/
  written : Word → Option Write := fun _ ↦ none
  /-- The activation that is running. -/
  current : Activation
  /-- The activations that wait for it to end, the innermost first. -/
  callers : List Activation := []
  /-- How many activations have begun. -/
  count : Nat := 1
  /-- The last instruction. -/
  last : Option Instruction := none

namespace History

/-- A word was written. -/
def write (h : History) (p : Word) (i : Nat) : History :=
  { h with written := fun q ↦ if q = p then some ⟨h.current.number, i⟩ else h.written q }

/-- A function was called. -/
def enter (h : History) (function : String) (i : Nat) : History :=
  { h with
    current := ⟨h.count, function, some i⟩
    callers := h.current :: h.callers
    count := h.count + 1 }

/-- A function came back. -/
def leave (h : History) : History :=
  match h.callers with
  | [] => h
  | caller :: callers => { h with current := caller, callers }

theorem written_write_self (h : History) (p : Word) (i : Nat) :
    (h.write p i).written p = some ⟨h.current.number, i⟩ := if_pos rfl

theorem written_write_of_ne (h : History) {p q : Word} (i : Nat) (hne : q ≠ p) :
    (h.write p i).written q = h.written q := if_neg hne

end History

/-- A machine at an instruction, and what has happened before. -/
structure Moment extends Image.Config where
  /-- What has happened. -/
  history : History

namespace Image

variable (image : Image)

/-- What an instruction adds to the history. -/
def note (x : Moment) (instruction : Instruction) : History :=
  let h : History :=
    match instruction with
    | .sw _ address =>
      match image.locate? x.machine address with
      | some p => x.history.write p x.index
      | none => x.history
    | .jal name => x.history.enter name x.index
    | .jr _ => x.history.leave
    | _ => x.history
  { h with last := some instruction }

/-- The moment after a step, if the machine goes on. -/
def next? (x : Moment) : Option Moment :=
  match image.step x.toConfig, image.fetch? x.index with
  | .running c, some instruction => some ⟨c, image.note x instruction⟩
  | _, _ => none

/-- The moments of a run, up to the first one that is not admitted. -/
inductive Occurs (admits : Moment → Prop) (first : Moment) : Moment → Prop where
  | first : Occurs admits first first
  | next {x y : Moment} : Occurs admits first x → admits x → image.next? x = some y →
    Occurs admits first y

variable {image} in
theorem Occurs.mono {admits admits' : Moment → Prop} {first x : Moment}
    (h : image.Occurs admits first x) (himp : ∀ y, admits y → admits' y) :
    image.Occurs admits' first x := by
  induction h with
  | first => exact .first
  | next _ hadmits hnext ih => exact ih.next (himp _ hadmits) hnext

/-- The moment after `n` steps, unless a moment before is not admitted. -/
def advance? (admits : Moment → Prop) [DecidablePred admits] : Nat → Moment → Option Moment
  | 0, x => some x
  | n + 1, x => if admits x then (image.next? x).bind (advance? admits n) else none

variable {image} in
/-- What is reached by steps occurs. -/
theorem Occurs.of_advance? {admits : Moment → Prop} [DecidablePred admits] {first y : Moment} :
    ∀ {n : Nat} {x : Moment}, image.Occurs admits first x → image.advance? admits n x = some y →
      image.Occurs admits first y
  | 0, x, hx, h => by
    cases h
    exact hx
  | n + 1, x, hx, h => by
    rw [advance?] at h
    split at h
    · rename_i hadmits
      obtain ⟨z, hz, h⟩ := Option.bind_eq_some_iff.1 h
      exact (hx.next hadmits hz).of_advance? h
    · cases h

/-! ### Safety -/

/-- During the next `n` moments, every load is as asked for. -/
def Safe (admits : Moment → Prop) (load : Moment → Address → Prop) : Nat → Moment → Prop
  | 0, _ => True
  | n + 1, x => (∀ r address, image.fetch? x.index = some (.lw r address) → load x address) ∧
    (admits x → ∀ y, image.next? x = some y → Safe admits load n y)

variable {image} {admits : Moment → Prop} {load : Moment → Address → Prop} {n : Nat} {x : Moment}

namespace Safe

theorem of_succ : ∀ {n : Nat} {x : Moment}, image.Safe admits load (n + 1) x →
    image.Safe admits load n x
  | 0, _, _ => trivial
  | _ + 1, _, h => ⟨h.1, fun hadmits y hy ↦ (h.2 hadmits y hy).of_succ⟩

theorem mono {k : Nat} (h : image.Safe admits load n x) (hk : k ≤ n) :
    image.Safe admits load k x := by
  induction hk with
  | refl => exact h
  | step _ ih => exact ih h.of_succ

/-- Safe runs have loads as asked for only. -/
theorem of_occurs {first : Moment} (h : ∀ n, image.Safe admits load n first)
    (hx : image.Occurs admits first x) {r : Register} {address : Address}
    (hfetch : image.fetch? x.index = some (.lw r address)) : load x address := by
  have hsafe : ∀ n, image.Safe admits load n x := by
    clear hfetch
    induction hx with
    | first => exact h
    | next _ hadmits hnext ih => exact fun n ↦ (ih (n + 1)).2 hadmits _ hnext
  exact (hsafe 1).1 r address hfetch

end Safe

/-! ### Single instructions -/

variable {instruction : Instruction} {rest : Code} {name : String} {j : Nat}

theorem At.next?_eq (hat : image.At x.index (.instruction instruction :: rest)) :
    image.next? x = match image.perform x.machine x.index instruction with
      | .running c => some ⟨c, image.note x instruction⟩
      | _ => none := by
  rw [next?, hat.fetch?, At.step_eq (m := x.machine) hat]
  cases image.perform x.machine x.index instruction <;> rfl

namespace Safe

/-- An instruction is safe if what it loads is as asked for and it leads to a safe moment. -/
theorem perform (hat : image.At x.index (.instruction instruction :: rest))
    (hload : ∀ r address, instruction = .lw r address → load x address)
    (hnext : admits x → ∀ c, image.perform x.machine x.index instruction = .running c →
      image.Safe admits load n ⟨c, image.note x instruction⟩) :
    image.Safe admits load (n + 1) x := by
  refine ⟨fun r address hfetch ↦ hload r address ?_, fun hadmits y hy ↦ ?_⟩
  · exact Option.some.inj (hat.fetch?.symm.trans hfetch)
  · rw [hat.next?_eq] at hy
    split at hy
    · rename_i c hc
      cases hy
      exact hnext hadmits c hc
    · cases hy

/-- An instruction that stays in line. -/
theorem effect (hat : image.At x.index (.instruction instruction :: rest))
    (hleaves : instruction.leaves = false)
    (hload : ∀ r address, instruction = .lw r address → load x address)
    (hnext : admits x → ∀ m, image.effect? x.machine instruction = some m →
      image.Safe admits load n ⟨⟨x.index + 1, m⟩, image.note x instruction⟩) :
    image.Safe admits load n x := by
  refine of_succ (perform hat hload fun hadmits c hc ↦ ?_)
  cases heffect : image.effect? x.machine instruction with
  | some m =>
    rw [perform_of_effect? heffect] at hc
    cases hc
    exact hnext hadmits m heffect
  | none =>
    -- Without an effect the machine is stuck.
    cases instruction with
    | beq | j | jal | jr | syscall => cases hleaves
    | _ => simp only [Image.perform, heffect, reduceCtorEq] at hc

/-- An instruction that stays in line and loads nothing. -/
theorem onward (hat : image.At x.index (.instruction instruction :: rest))
    (hleaves : instruction.leaves = false) (hloads : instruction.loads = false)
    (hnext : admits x → ∀ m, image.effect? x.machine instruction = some m →
      image.Safe admits load n ⟨⟨x.index + 1, m⟩, image.note x instruction⟩) :
    image.Safe admits load n x := by
  refine effect hat hleaves (fun r address h ↦ ?_) hnext
  rw [h] at hloads
  cases hloads

/-- A jump. It takes a step. -/
theorem jump (hat : image.At x.index (.instruction (.j name) :: rest))
    (hname : image.symbol? name = some (.text j))
    (hnext : image.Safe admits load n
      ⟨⟨j, x.machine⟩, { x.history with last := some (.j name) }⟩) :
    image.Safe admits load (n + 1) x := by
  refine perform hat nofun fun _ c hc ↦ ?_
  rw [Image.perform, jump_eq hname] at hc
  cases hc
  exact hnext

/-- A branch. -/
theorem branch {left right : Register}
    (hat : image.At x.index (.instruction (.beq left right name) :: rest))
    (hname : image.symbol? name = some (.text j))
    (htaken : image.Safe admits load n
      ⟨⟨j, x.machine⟩, { x.history with last := some (.beq left right name) }⟩)
    (hnext : image.Safe admits load n
      ⟨⟨x.index + 1, x.machine⟩, { x.history with last := some (.beq left right name) }⟩) :
    image.Safe admits load n x := by
  refine of_succ (perform hat nofun fun _ c hc ↦ ?_)
  rw [Image.perform, jump_eq hname] at hc
  split at hc
  · cases hc
    exact htaken
  · cases hc
    exact hnext

/-- A call. It takes a step. -/
theorem call (hat : image.At x.index (.instruction (.jal name) :: rest))
    (hname : image.symbol? name = some (.text j))
    (hnext : image.Safe admits load n
      ⟨⟨j, x.machine.set .ra (image.address (.text (x.index + 1)))⟩,
        { x.history.enter name x.index with last := some (.jal name) }⟩) :
    image.Safe admits load (n + 1) x := by
  refine perform hat nofun fun _ c hc ↦ ?_
  rw [Image.perform, jump_eq hname] at hc
  cases hc
  exact hnext

/-- A return. -/
theorem back {target : Register} (hat : image.At x.index (.instruction (.jr target) :: rest))
    (hindex : image.index? (x.machine.get target) = some j)
    (hnext : image.Safe admits load n
      ⟨⟨j, x.machine⟩, { x.history.leave with last := some (.jr target) }⟩) :
    image.Safe admits load n x := by
  refine of_succ (perform hat nofun fun _ c hc ↦ ?_)
  rw [Image.perform, hindex] at hc
  cases hc
  exact hnext

/-- A service is done, unless it is that of ending the program. -/
theorem service (hat : image.At x.index (.instruction .syscall :: rest))
    (hnext : x.machine.get .v0 ≠ 10 → ∀ text, image.Safe admits load n
      ⟨⟨x.index + 1, x.machine.print text⟩, { x.history with last := some .syscall }⟩) :
    image.Safe admits load n x := by
  refine of_succ (perform hat nofun fun _ c hc ↦ ?_)
  rw [Image.perform, serve] at hc
  split at hc
  · rename_i hone
    cases hc
    exact hnext (by rw [hone]; decide) _
  · split at hc
    · cases hc
    · rename_i hten
      split at hc
      · cases hc
        exact hnext hten _
      · cases hc

end Safe

end Image

end ScalarMips
