import ScalarMips.Proofs.Semantics
import ScalarMips.Proofs.Storage

/-!
# States that types promise

What the type system promises about the states of a run. A truth value is zero or one (`OfType`),
and every visible variable is in the frame with a value of its type, or else is a global variable
(`Sound`).

A declaration inside a statement stays in the frame when its scope is left. It cannot disturb the
environment outside because its name is a new one (`Fresh`). The frame at the start of a call is
sound in the body of the function (`Sound.enter`), where the names of all variables are new
(`Checked.fresh`).
-/

namespace ScalarMips.Semantics

/-! ### Values of a type -/

/-- A word can be a value of a type: a truth value has to be zero or one. -/
def OfType (type : ScalarType) (value : Int32) : Prop :=
  type = .bool → isTruth value

theorem isTruth_wordOfBool (b : Bool) : isTruth (wordOfBool b) := by
  cases b <;> rfl

theorem ofType_wordOfBool (type : ScalarType) (b : Bool) : OfType type (wordOfBool b) :=
  fun _ ↦ isTruth_wordOfBool b

theorem ofType_int (value : Int32) : OfType .int value := nofun

theorem ofType_zero (type : ScalarType) : OfType type 0 := fun _ ↦ rfl

theorem ofType_literal (value : Literal) : OfType value.type value.word := by
  intro htype
  rw [Literal.word, if_pos htype]
  exact isTruth_wordOfBool _

/-- Comparisons and connectives give truth values. -/
theorem exists_truth {op : Operator}
    (h : op ∈ ([Operator.less, .lessEqual, .greater, .greaterEqual] ++
      [Operator.equal, .notEqual]) ++ [Operator.and, .or]) (left right : Int32) :
    ∃ b, Constant.binary op left right = some (wordOfBool b) := by
  cases op with
  | plus | minus | times | divide | modulo | not => simp at h
  | _ => exact ⟨_, rfl⟩

/-! ### Safe computations -/

/-- A computation does not meet what is no program, and its value is as asked for. -/
def Safe {α : Type} (r : Except Stop α) (post : α → Prop) : Prop :=
  match r with
  | .ok value => post value
  | .error stop => stop ≠ .malformed

theorem Safe.bind {α β : Type} {r : Except Stop α} {next : α → Except Stop β} {mid : α → Prop}
    {post : β → Prop} (h : Safe r mid) (hnext : ∀ value, mid value → Safe (next value) post) :
    Safe (r >>= next) post := by
  match r, h with
  | .ok value, h => exact hnext value h
  | .error _, h => exact h

theorem Safe.mono {α : Type} {r : Except Stop α} {post post' : α → Prop} (h : Safe r post)
    (himp : ∀ value, post value → post' value) : Safe r post' := by
  match r, h with
  | .ok value, h => exact himp value h
  | .error _, h => exact h

theorem safe_reserve (s : Setup) (n : Nat) : Safe (s.reserve n) fun _ ↦ True := by
  unfold Setup.reserve
  split
  · split
    · trivial
    · exact nofun
  · trivial

theorem safe_sign {op : Operator} (h : op ∈ [.plus, .minus]) (value : Int32) :
    Safe (unary op value) (OfType .int) := by
  rcases List.mem_cons.1 h with rfl | h
  · exact ofType_int _
  · obtain rfl := List.mem_singleton.1 h
    exact ofType_int _

theorem safe_negation {value : Int32} (h : OfType .bool value) :
    Safe (unary .not value) (OfType .bool) := by
  have htruth : isTruth value := h rfl
  rw [unary, if_neg fun hnot ↦ hnot.2 htruth]
  exact ofType_wordOfBool _ _

theorem safe_arithmetic {op : Operator} (h : op ∈ [.plus, .minus, .times, .divide, .modulo])
    (left right : Int32) : Safe (binary op left right) (OfType .int) := by
  have hlogic : op ∉ [.and, .or] := by
    rintro hmem
    cases op <;> simp at h hmem
  rw [binary, if_neg fun hand ↦ hlogic hand.1]
  split
  · exact ofType_int _
  · rename_i hnone
    -- Only a quotient or a remainder can be missing.
    have hdivision : op ∈ [.divide, .modulo] := by
      cases op with
      | plus | minus | times => cases hnone
      | divide | modulo => decide
      | _ => simp at h
    rw [if_pos hdivision]
    exact Stop.noConfusion

theorem safe_comparison {op : Operator}
    (h : op ∈ [Operator.less, .lessEqual, .greater, .greaterEqual] ++ [Operator.equal, .notEqual])
    (left right : Int32) : Safe (binary op left right) (OfType .bool) := by
  have hlogic : op ∉ [.and, .or] := by
    rintro hmem
    cases op <;> simp at h hmem
  obtain ⟨b, hb⟩ := exists_truth (List.mem_append_left _ h) left right
  rw [binary, if_neg fun hand ↦ hlogic hand.1, hb]
  exact ofType_wordOfBool _ _

theorem safe_logic {op : Operator} (h : op ∈ [.and, .or]) {left right : Int32}
    (hleft : OfType .bool left) (hright : OfType .bool right) :
    Safe (binary op left right) (OfType .bool) := by
  obtain ⟨b, hb⟩ := exists_truth (List.mem_append_right _ h) left right
  rw [binary, if_neg fun hand ↦ hand.2 ⟨hleft rfl, hright rfl⟩, hb]
  exact ofType_wordOfBool _ _

/-! ### States and environments -/

/-- What a frame and an environment have to do with each other. -/
structure Sound (program : List Stmt) (Γ : Env) (frame : Locals) : Prop where
  /-- A visible variable is in the frame with a value of its type, if it has one, or it is a global
  variable. -/
  var : ∀ name type, Γ name = some (.var type) →
    (∃ value, frame name = some value ∧ ∀ v, value = some v → OfType type v) ∨
      frame name = none ∧ ∃ head ∈ globalDecls program, head.name = name ∧ head.type = type
  /-- A visible function is one of the program. -/
  function : ∀ name parameters result, Γ name = some (.function parameters result) →
    signatures program name = some (.function parameters result)

/-- Every global variable has a value of its type. -/
def Proper (program : List Stmt) (w : World) : Prop :=
  ∀ head ∈ globalDecls program, ∃ v, w.globals head.name = some v ∧ OfType head.type v

/-- Names that are new in an environment, all different. -/
def Fresh (Γ : Env) (names : List String) : Prop :=
  names.Nodup ∧ ∀ name ∈ names, Γ name = none

variable {program : List Stmt} {Γ : Env} {frame : Locals} {w : World}

namespace Sound

/-- A variable is declared. -/
theorem bind (h : Sound program Γ frame) (name : String) {type : ScalarType} {v : Int32}
    (hv : OfType type v) :
    Sound program (Γ.bind name (.var type)) (frame.set name v) := by
  constructor
  · intro other type' hother
    simp only [Env.bind, Locals.set] at hother ⊢
    split
    · rename_i heq
      rw [if_pos heq] at hother
      cases hother
      refine .inl ⟨some v, rfl, fun u hu ↦ ?_⟩
      cases hu
      exact hv
    · rename_i hne
      rw [if_neg hne] at hother
      exact h.var other type' hother
  · intro other parameters result hother
    simp only [Env.bind] at hother
    split at hother
    · cases hother
    · exact h.function other parameters result hother

/-- A variable of the frame gets a value of its type. -/
theorem set (h : Sound program Γ frame) {name : String} {type : ScalarType}
    (hname : Γ name = some (.var type)) {v : Int32} (hv : OfType type v) :
    Sound program Γ (frame.set name v) := by
  refine ⟨fun other type' hother ↦ ?_, h.function⟩
  simp only [Locals.set]
  split
  · rename_i heq
    subst heq
    obtain rfl : type = type' := by
      rw [hname] at hother
      cases hother
      rfl
    refine .inl ⟨some v, rfl, fun u hu ↦ ?_⟩
    cases hu
    exact hv
  · exact h.var other type' hother

/-- What a statement declares can be forgotten. -/
theorem leave {stmt : Stmt} (h : Sound program (Γ.after stmt) frame)
    (hfresh : Fresh Γ stmt.variables) : Sound program Γ frame := by
  cases stmt with
  | var span head initial =>
    have hsame : ∀ name m, Γ name = some m →
        Γ.bind head.name (.var head.type) name = some m := by
      intro name m hm
      have hne : name ≠ head.name := by
        rintro rfl
        rw [hfresh.2 _ List.mem_cons_self] at hm
        cases hm
      rw [Env.bind, if_neg hne, hm]
    exact ⟨fun name type hname ↦ h.var name type (hsame _ _ hname),
      fun name parameters result hname ↦ h.function name parameters result (hsame _ _ hname)⟩
  | _ => exact h

end Sound

/-- A global variable gets a value of its type. -/
theorem Proper.set (hdistinct : Distinct program) (h : Proper program w) {head : Declarator}
    (hhead : head ∈ globalDecls program) {v : Int32} (hv : OfType head.type v) :
    Proper program (w.set head.name v) := by
  intro other hother
  simp only [World.set]
  split
  · rename_i heq
    have hnodup : ((globalDecls program).map Declarator.name).Nodup :=
      (List.nodup_append.1 hdistinct).2.1.sublist (sublist_globals program)
    have hfind := find?_of_nodup Declarator.name hnodup hother
    rw [heq, find?_of_nodup Declarator.name hnodup hhead] at hfind
    cases hfind
    exact ⟨v, rfl, hv⟩
  · exact h other hother

namespace Fresh

variable {first second : List String}

theorem left (h : Fresh Γ (first ++ second)) : Fresh Γ first :=
  ⟨(List.nodup_append.1 h.1).1, fun name hname ↦ h.2 name (List.mem_append_left _ hname)⟩

theorem right (h : Fresh Γ (first ++ second)) : Fresh Γ second :=
  ⟨(List.nodup_append.1 h.1).2.1, fun name hname ↦ h.2 name (List.mem_append_right _ hname)⟩

/-- What comes after a statement is new there as well. -/
theorem after {stmt : Stmt} (h : Fresh Γ (stmt.variables ++ second)) :
    Fresh (Γ.after stmt) second := by
  refine ⟨h.right.1, fun name hname ↦ ?_⟩
  have hnone := h.right.2 name hname
  cases stmt with
  | var span head initial =>
    have hne : name ≠ head.name :=
      fun heq ↦ (List.nodup_append.1 h.1).2.2 _ List.mem_cons_self _ hname heq.symm
    rw [Env.after, Env.bind, if_neg hne, hnone]
  | _ => exact hnone

end Fresh

/-! ### Entering a function -/

/-- Every function is found under its name. -/
theorem find?_of_distinct (h : Distinct program) {f : FunctionDecl}
    (hf : f ∈ functionDecls program) (entry : String) (limit : Option Nat) :
    Setup.find? ⟨functionDecls program, entry, limit⟩ f.head.name = some f :=
  find?_of_nodup (fun f : FunctionDecl ↦ f.head.name) (List.nodup_append.1 h).1 hf

/-- An argument, if it was supplied, has the type of its parameter. -/
def Passes (p : Declarator) (value : Option Int32) : Prop :=
  ∀ v, value = some v → OfType p.type v

theorem bindAll_eq_some {parameters : List Declarator} {name : String} {m : Meaning}
    (h : Γ.bindAll parameters name = some m) :
    (∃ p ∈ parameters, p.name = name ∧ m = .var p.type) ∨
      name ∉ parameters.map Declarator.name ∧ Γ name = some m := by
  induction parameters generalizing Γ with
  | nil => exact .inr ⟨List.not_mem_nil, h⟩
  | cons p parameters ih =>
    -- The first parameter is bound first, so later ones of the same name hide it.
    rcases ih h with ⟨q, hq, hname⟩ | ⟨hnot, h⟩
    · exact .inl ⟨q, List.mem_cons_of_mem _ hq, hname⟩
    · simp only [Env.bind] at h
      split at h
      · rename_i heq
        cases h
        exact .inl ⟨p, List.mem_cons_self, heq.symm, rfl⟩
      · rename_i hne
        refine .inr ⟨fun hmem ↦ ?_, h⟩
        exact (List.mem_cons.1 hmem).elim hne hnot

theorem enter_eq_none {name : String} {parameters : List Declarator}
    {values : List (Option Int32)} (h : name ∉ parameters.map Declarator.name) :
    Locals.enter parameters values name = none := by
  induction parameters generalizing values with
  | nil => rfl
  | cons p parameters ih =>
    rcases values with _ | ⟨value, values⟩
    · rfl
    · have hne : name ≠ p.name := fun heq ↦ h (heq ▸ List.mem_cons_self)
      simp only [Locals.enter, if_neg hne]
      exact ih fun hmem ↦ h (List.mem_cons_of_mem _ hmem)

theorem enter_of_mem {p : Declarator} {parameters : List Declarator}
    {values : List (Option Int32)} (hvalues : List.Forall₂ Passes parameters values)
    (hnodup : (parameters.map Declarator.name).Nodup) (hp : p ∈ parameters) :
    ∃ value, Locals.enter parameters values p.name = some value ∧ Passes p value := by
  induction hvalues with
  | nil => exact absurd hp List.not_mem_nil
  | @cons q value parameters values hvalue hvalues ih =>
    obtain ⟨hfirst, hrest⟩ := List.nodup_cons.1 hnodup
    rcases List.mem_cons.1 hp with rfl | hp
    · exact ⟨value, if_pos rfl, hvalue⟩
    · have hne : p.name ≠ q.name := fun heq ↦ hfirst (heq ▸ List.mem_map_of_mem hp)
      simp only [Locals.enter, if_neg hne]
      exact ih hrest hp

/-- The frame at the start of a call is sound in the body of the function. -/
theorem Sound.enter (h : Sound program Γ fun _ ↦ none) {parameters : List Declarator}
    {values : List (Option Int32)} (hnodup : (parameters.map Declarator.name).Nodup)
    (hvalues : List.Forall₂ Passes parameters values) :
    Sound program (Γ.bindAll parameters) (.enter parameters values) := by
  constructor
  · intro name type hname
    rcases bindAll_eq_some hname with ⟨p, hp, rfl, hm⟩ | ⟨hnot, hname⟩
    · cases hm
      exact .inl (enter_of_mem hvalues hnodup hp)
    · rcases h.var name type hname with ⟨value, hvalue, -⟩ | ⟨-, hglobal⟩
      · cases hvalue
      · exact .inr ⟨enter_eq_none hnot, hglobal⟩
  · intro name parameters' result hname
    rcases bindAll_eq_some hname with ⟨p, hp, rfl, hm⟩ | ⟨hnot, hname⟩
    · cases hm
    · exact h.function name parameters' result hname

/-- What is known of a program for its runs. -/
structure Checked (program : List Stmt) : Prop where
  /-- All declarations have different names. -/
  distinct : Distinct program
  /-- The body of every function is well typed among the global variables before it. -/
  typed : ∀ f ∈ functionDecls program, ∃ Γ, (Sound program Γ fun _ ↦ none) ∧
    TypedAll f.head.type (Γ.bindAll f.parameters) f.body

/-- The variables of a function are new among its parameters. -/
theorem Checked.fresh (hp : Checked program) {f : FunctionDecl}
    (hf : f ∈ functionDecls program) (h : Sound program Γ fun _ ↦ none) :
    Fresh (Γ.bindAll f.parameters) (Stmt.variablesAll f.body) := by
  obtain ⟨-, hbody, hdisjoint⟩ := List.nodup_append.1 (hp.distinct.variables hf)
  refine ⟨hbody, fun name hname ↦ ?_⟩
  have hmem : name ∈ f.variables := List.mem_append_right _ hname
  cases hm : Γ.bindAll f.parameters name with
  | none => rfl
  | some m =>
    rcases bindAll_eq_some hm with ⟨p, hp', hpname, -⟩ | ⟨-, hm⟩
    · exact absurd hpname (hdisjoint _ (List.mem_map_of_mem hp') _ hname)
    · cases m with
      | var type =>
        rcases h.var name type hm with ⟨value, hvalue, -⟩ | ⟨-, head, hhead, rfl, -⟩
        · cases hvalue
        · exact absurd hmem (hp.distinct.global_notMem hf hhead)
      | function parameters result =>
        obtain ⟨g, hg, rfl, -⟩ := exists_of_signatures (h.function name _ _ hm)
        have hvariables := (sublist_variablesAll hf).subset hmem
        have hnodup := (List.nodup_append.1 hp.distinct).2.2
        exact absurd rfl (hnodup _ (List.mem_map_of_mem hg) _ hvariables)

end ScalarMips.Semantics
