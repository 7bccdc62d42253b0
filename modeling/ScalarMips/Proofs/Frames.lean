import ScalarMips.Proofs.Operators
import ScalarMips.Proofs.Placement

/-!
# States of the two sides

How a machine stands for a state of the reference semantics. The words of data hold the values of
the global variables (`Shared`), the cells of a running function those of its parameters and
variables (`Framed`), and the two pointers are where the count of words says (`Active`).

What a part of the code leaves alone is said by slots: an expression keeps all words that were on
the stack (`Kept`), a statement all words that do not belong to the frame of its function
(`Preserved`).
-/

namespace ScalarMips

open Generate
open Semantics (World Locals bodyDepth)

variable {t : Target} {f : FunctionDecl} {a d k n : Nat} {m m' m'' : Machine} {w : World}
  {frame : Locals}

/-! ### What the stack keeps -/

/-- The first `n` words of the stack are the same. -/
def Kept (t : Target) (n : Nat) (m m' : Machine) : Prop :=
  ∀ k, 1 ≤ k → k ≤ n → m'.memory (t.slot k) = m.memory (t.slot k)

namespace Kept

theorem refl (t : Target) (n : Nat) (m : Machine) : Kept t n m m := fun _ _ _ ↦ rfl

theorem of_memory (h : m'.memory = m.memory) : Kept t n m m' := fun _ _ _ ↦ by rw [h]

theorem trans (h : Kept t n m m') (h' : Kept t n m' m'') : Kept t n m m'' :=
  fun k hk hkn ↦ (h' k hk hkn).trans (h k hk hkn)

theorem mono (h : Kept t n m m') {n' : Nat} (hn : n' ≤ n) : Kept t n' m m' :=
  fun k hk hkn ↦ h k hk (Nat.le_trans hkn hn)

end Kept

theorem Linked.slot_ne_slot (h : Linked t) (hk : 1 ≤ k ∧ k ≤ t.stack.room)
    (hn : 1 ≤ n ∧ n ≤ t.stack.room) (hne : k ≠ n) : t.slot k ≠ t.slot n :=
  fun heq ↦ hne (h.fits.slot_inj hk hn heq)

/-- A word below the kept ones can be written. -/
theorem Linked.kept_store (h : Linked t) (hn : n < k) (hroom : k ≤ t.stack.room) (m : Machine)
    (v : Word) : Kept t n m (m.store (t.slot k) v) := fun j hj hjn ↦
  m.memory_store_of_ne _ v
    (h.slot_ne_slot ⟨hj, by omega⟩ ⟨by omega, hroom⟩ (by omega))

/-! ### Global variables and output -/

/-- The machine stands for what all calls share. -/
structure Shared (t : Target) (w : World) (m : Machine) : Prop where
  /-- Every global variable is in its word of data. -/
  globals : ∀ name value, w.globals name = some value → ∃ (k : Nat) (s : Symbol),
    t.table.vars[k]? = some s ∧ s.name = name ∧
      m.memory (t.image.address (.data k)) = value.toBitVec
  /-- The same has been printed. -/
  output : m.output = w.output

theorem Linked.lt_words (h : Linked t) {s : Symbol} (hs : t.table.vars[k]? = some s) :
    k < t.image.code.words.length :=
  (List.getElem?_eq_some_iff.1 (h.global k s hs)).1

namespace Shared

theorem of_scratch (h : Shared t w m) (hs : Scratch m m') : Shared t w m' := by
  refine ⟨fun name value hvalue ↦ ?_, hs.output.trans h.output⟩
  rw [hs.memory]
  exact h.globals name value hvalue

theorem set (h : Shared t w m) (r : Register) (v : Word) : Shared t w (m.set r v) :=
  ⟨h.globals, h.output⟩

/-- Words of the stack can be written. -/
theorem store_slot (h : Shared t w m) (hl : Linked t) (hk : 1 ≤ k) (hroom : k ≤ t.stack.room)
    (v : Word) : Shared t w (m.store (t.slot k) v) := by
  refine ⟨fun name value hvalue ↦ ?_, h.output⟩
  obtain ⟨j, s, hs, hname, hmemory⟩ := h.globals name value hvalue
  refine ⟨j, s, hs, hname, ?_⟩
  have hne : t.image.address (.data j) ≠ t.slot k :=
    (hl.fits.apart k hk hroom j (hl.lt_words hs)).symm
  rw [m.memory_store_of_ne _ v hne, hmemory]

/-- A global variable can be written. -/
theorem store_global (h : Shared t w m) (hl : Linked t) {s : Symbol}
    (hs : t.table.vars[k]? = some s) (value : Int32) :
    Shared t (w.set s.name value) (m.store (t.image.address (.data k)) value.toBitVec) := by
  refine ⟨fun name other hvalue ↦ ?_, h.output⟩
  simp only [World.set] at hvalue
  split at hvalue
  · cases hvalue
    exact ⟨k, s, hs, by simp [*], m.memory_store_self _ _⟩
  · rename_i hne
    obtain ⟨j, s', hs', hname, hmemory⟩ := h.globals name other hvalue
    refine ⟨j, s', hs', hname, ?_⟩
    -- The word of another variable is another word.
    have hjk : j ≠ k := by
      rintro rfl
      rw [hs] at hs'
      cases hs'
      exact hne hname.symm
    rw [m.memory_store_of_ne, hmemory]
    exact fun heq ↦ hjk (hl.fits.data j k (hl.lt_words hs') (hl.lt_words hs) heq)

theorem print (h : Shared t w m) (text : String) : Shared t (w.print text) (m.print text) :=
  ⟨h.globals, congrArg (· ++ text) h.output⟩

end Shared

/-! ### The frame of a call -/

/-- The cells of a call hold its parameters and variables. -/
def Framed (t : Target) (f : FunctionDecl) (a : Nat) (frame : Locals) (m : Machine) : Prop :=
  ∀ name value, frame name = some value →
    ∃ k, Cell f a name k ∧ ∀ v, value = some v → m.memory (t.slot k) = v.toBitVec

namespace Framed

theorem of_kept (h : Framed t f a frame m) (ha : f.parameters.length ≤ a)
    (hkept : Kept t (bodyDepth f a) m m') : Framed t f a frame m' := by
  intro name value hvalue
  obtain ⟨k, hcell, hmemory⟩ := h name value hvalue
  obtain ⟨hk, hdepth, -⟩ := hcell.bounds ha
  exact ⟨k, hcell, fun v hv ↦ (hkept k hk hdepth).trans (hmemory v hv)⟩

/-- A variable of a call can be written. -/
theorem store (h : Framed t f a frame m) (hl : Linked t) (ha : f.parameters.length ≤ a)
    (hroom : bodyDepth f a ≤ t.stack.room) {name : String} (hcell : Cell f a name k)
    (value : Int32) :
    Framed t f a (frame.set name value) (m.store (t.slot k) value.toBitVec) := by
  intro other v hv
  simp only [Locals.set] at hv
  split at hv
  · rename_i heq
    cases hv
    refine ⟨k, heq ▸ hcell, fun v hv ↦ ?_⟩
    cases hv
    exact m.memory_store_self _ _
  · rename_i hne
    obtain ⟨j, hother, hmemory⟩ := h other v hv
    obtain ⟨hk, hkdepth, -⟩ := hcell.bounds ha
    obtain ⟨hj, hjdepth, -⟩ := hother.bounds ha
    refine ⟨j, hother, fun v hv ↦ ?_⟩
    have hjk : j ≠ k := fun heq ↦ hne (hother.eq_of_cell (heq ▸ hcell))
    rw [m.memory_store_of_ne _ _ (hl.slot_ne_slot ⟨hj, by omega⟩ ⟨hk, by omega⟩ hjk), hmemory v hv]

/-- Words of data can be written. -/
theorem store_data (h : Framed t f a frame m) (hl : Linked t) (ha : f.parameters.length ≤ a)
    (hroom : bodyDepth f a ≤ t.stack.room) (hk : k < t.image.code.words.length) (v : Word) :
    Framed t f a frame (m.store (t.image.address (.data k)) v) := by
  intro name value hvalue
  obtain ⟨j, hcell, hmemory⟩ := h name value hvalue
  obtain ⟨hj, hdepth, -⟩ := hcell.bounds ha
  refine ⟨j, hcell, fun v hv ↦ ?_⟩
  have hne : t.slot j ≠ t.image.address (.data k) := hl.fits.apart j hj (by omega) k hk
  rw [m.memory_store_of_ne _ _ hne, hmemory v hv]

end Framed

/-- A call of a function is running: it was called with `a` words on the stack, and now there are
`d`. -/
structure Active (t : Target) (f : FunctionDecl) (a d : Nat) (frame : Locals) (w : World)
    (m : Machine) : Prop where
  /-- All arguments are on the stack. -/
  arguments : f.parameters.length ≤ a
  /-- The frame is on the stack. -/
  depth : bodyDepth f a ≤ d
  /-- The stack has room. -/
  room : d ≤ t.stack.room
  /-- The stack pointer is below the words of the stack. -/
  sp : m.get .sp = t.slot d
  /-- The frame pointer is where the frame pointer of the caller is saved. -/
  fp : m.get .fp = t.slot (a + 2)
  /-- The cells hold the frame. -/
  framed : Framed t f a frame m
  /-- The rest of the machine stands for what all calls share. -/
  shared : Shared t w m

/-- Words that do not belong to the frame of a call are the same: those before its arguments, and
the saved registers. -/
def Preserved (t : Target) (f : FunctionDecl) (a : Nat) (m m' : Machine) : Prop :=
  ∀ k, (1 ≤ k ∧ k + f.parameters.length ≤ a) ∨ k = a + 1 ∨ k = a + 2 →
    m'.memory (t.slot k) = m.memory (t.slot k)

namespace Preserved

theorem refl (t : Target) (f : FunctionDecl) (a : Nat) (m : Machine) : Preserved t f a m m :=
  fun _ _ ↦ rfl

theorem trans (h : Preserved t f a m m') (h' : Preserved t f a m' m'') : Preserved t f a m m'' :=
  fun k hk ↦ (h' k hk).trans (h k hk)

theorem of_kept (h : Kept t (bodyDepth f a) m m') : Preserved t f a m m' := by
  intro k hk
  unfold bodyDepth at h
  exact h k (by omega) (by omega)

/-- A variable of the call can be written. -/
theorem store (hl : Linked t) (ha : f.parameters.length ≤ a)
    (hroom : bodyDepth f a ≤ t.stack.room) {name : String} (hcell : Cell f a name k) (m : Machine)
    (v : Word) : Preserved t f a m (m.store (t.slot k) v) := by
  intro j hj
  obtain ⟨hk, hdepth, hlow, hne, hne'⟩ := hcell.bounds ha
  have hsaved : a + 2 ≤ bodyDepth f a := Nat.le_add_right _ _
  exact m.memory_store_of_ne _ _
    (hl.slot_ne_slot ⟨by omega, by omega⟩ ⟨hk, by omega⟩ (by omega))

/-- Words of data can be written. -/
theorem store_data (hl : Linked t) (hroom : bodyDepth f a ≤ t.stack.room)
    (hk : k < t.image.code.words.length) (m : Machine) (v : Word) :
    Preserved t f a m (m.store (t.image.address (.data k)) v) := by
  intro j hj
  have hsaved : a + 2 ≤ bodyDepth f a := Nat.le_add_right _ _
  exact m.memory_store_of_ne _ _ (hl.fits.apart j (by omega) (by omega) k hk)

end Preserved

/-! ### Pushing and popping -/

namespace Linked

theorem sub_word (h : Linked t) (f : FunctionDecl) (d : Nat) :
    t.slot d - (t.context f).wordSize.toBitVec = t.slot (d + 1) := by
  rw [h.wordSize]
  exact t.stack.slot_sub d 1

theorem add_word (h : Linked t) (f : FunctionDecl) (d : Nat) :
    t.slot (d + 1) + (t.context f).wordSize.toBitVec = t.slot d := by
  rw [h.wordSize]
  exact t.stack.slot_add d 1

/-- The word that the stack pointer points to. -/
theorem locate_top (h : Linked t) (hsp : m.get .sp = t.slot d) :
    t.image.locate? m (.above 0 .sp) = some (t.slot d) := by
  rw [Image.locate?, hsp]
  have hzero : t.slot d + (0 : UInt32).toBitVec = t.slot d := BitVec.add_zero _
  rw [hzero]
  exact h.fits.aligned_slot d

theorem run_push (h : Linked t) {r : Register} (hr : r ≠ .sp) (hsp : m.get .sp = t.slot d) :
    t.image.run? m ((t.context f).push r) =
      some ((m.set .sp (t.slot (d + 1))).store (t.slot (d + 1)) (m.get r)) :=
  Generate.run_push t.image _ hr (hsp ▸ h.sub_word f d) (h.fits.aligned_slot (d + 1))

theorem run_pop (h : Linked t) {r : Register} (hr : r ≠ .sp) (hsp : m.get .sp = t.slot (d + 1)) :
    t.image.run? m ((t.context f).pop r) =
      some ((m.set r (m.memory (t.slot (d + 1)))).set .sp (t.slot d)) :=
  Generate.run_pop t.image _ hr hsp (h.fits.aligned_slot (d + 1)) (h.add_word f d)

end Linked

end ScalarMips
