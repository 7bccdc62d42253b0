import ScalarMips.Proofs.Registries

/-!
# Registries and symbol tables

Insertions into a registry, whether into the registry itself or into the tables of its functions,
are the same insertions into the symbol table that it stands for: they are possible in the same
cases and make the same table (`table_run`). With what every table of the registry holds, this is
what a run of insertions leads to (`run_sound`).
-/

namespace ScalarMips

open Registry (Put Insertion)

/-! ### Insertions into symbol tables -/

/-- What is put into a registry is put into a symbol table. -/
def Registry.Put.into : Put → SymbolTable → Option SymbolTable
  | .var name type initial, t => t.putVar? name type initial
  | .parameter name type, t => t.putParameter? name type
  | .function name type, t => t.putFunction? name type []

/-- Some insertions one after the other, and which of them were possible. -/
def SymbolTable.insertAll : SymbolTable → List Insertion → SymbolTable × List Bool
  | t, [] => (t, [])
  | t, first :: rest =>
    let step := t.updateAt? first.put.into first.path
    let after := (step.getD t).insertAll rest
    (after.1, step.isSome :: after.2)

namespace Registry

variable {w : UInt32} {puts : List Put} {r : Registry} {p : Put}
  {history : List String → List Put}

namespace Entry

@[simp] theorem name_symbol (e : Entry Registry) : e.symbol.name = e.name := by
  cases e <;> simp [symbol, Symbol.name, name]

@[simp] theorem isVar_symbol (e : Entry Registry) : e.symbol.isVar = e.isVar := by
  cases e <;> simp [symbol, Symbol.isVar, isVar]

@[simp] theorem isParameter_symbol (e : Entry Registry) :
    e.symbol.isParameter = e.isParameter := by
  cases e <;> simp [symbol, Symbol.isParameter, isParameter]

end Entry

/-! ### Looking up -/

/-- An entry is found by its name without the index, too. -/
theorem find?_entries (h : InStep w puts r) (name : String) :
    r.entries.toList.find? (fun e ↦ e.name = name) = r.find? name := by
  cases hfind : r.find? name with
  | none =>
    refine List.find?_eq_none.2 fun e he hname ↦ ?_
    have hsome := h.find?_eq_some_iff.2 ⟨Array.mem_toList_iff.1 he, of_decide_eq_true hname⟩
    rw [hfind] at hsome
    cases hsome
  | some e =>
    obtain ⟨he, rfl⟩ := h.find?_eq_some_iff.1 hfind
    exact find?_of_nodup Entry.name h.nodup (Array.mem_toList_iff.2 he)

theorem find?_table (h : InStep w puts r) (name : String) :
    r.table.find? name = (r.find? name).map Entry.symbol := by
  rw [← find?_entries h, SymbolTable.find?, table, List.find?_map]
  simp

theorem contains_table (h : InStep w puts r) (name : String) :
    r.table.contains name = r.contains name := by
  rw [SymbolTable.contains, find?_table h, Option.isSome_map, contains, find?]
  cases hplace : r.place? name with
  | none => rfl
  | some i =>
    obtain ⟨e, he, -⟩ := h.getElem?_of_place? hplace
    rw [Option.bind_some, he]
    rfl

theorem locals?_table (h : KeepsAll w history (some r)) (function : String) :
    r.table.locals? function = (r.locals? function).map table := by
  obtain ⟨hstep, hlocals⟩ := keepsAll_some.1 h
  rw [SymbolTable.locals?, find?_table hstep, locals?]
  cases hfind : r.find? function with
  | none => rfl
  | some e =>
    cases e with
    | function name type locals =>
      have hword : locals.wordSize = w := by
        have hkept := hlocals function
        rw [locals?, hfind] at hkept
        exact (keepsAll_some.1 hkept).1.wordSize
      simp [Entry.symbol, Entry.locals?, Symbol.locals?, table, hword, hstep.wordSize]
    | _ => simp [Entry.symbol, Entry.locals?, Symbol.locals?]

/-! ### Inserting -/

theorem size_table (h : InStep w puts r) :
    r.table.localSize = r.nextVar ∧ r.table.parameterSize = r.nextParameter := by
  obtain rfl := h.wordSize
  have hvars : r.table.vars.length = r.vars.size := by
    simp [SymbolTable.vars, table, vars, List.filter_map, Function.comp_def, ← Array.length_toList]
  have hparameters : r.table.parameters.length = r.parameters.size := by
    simp [SymbolTable.parameters, table, parameters, List.filter_map, Function.comp_def,
      ← Array.length_toList]
  rw [SymbolTable.localSize, SymbolTable.parameterSize, Layout.words_eq, Layout.words_eq, hvars,
    hparameters]
  exact ⟨h.holds.localSize.symm, h.holds.parameterSize.symm⟩

theorem into_table (h : InStep w puts r) :
    p.into r.table = if r.contains p.name then none else some (r.grown p).table := by
  have hinto : p.into r.table = r.table.put? (r.entry p).symbol := by
    obtain ⟨hlocal, hparameter⟩ := size_table h
    cases p <;> simp [Put.into, SymbolTable.putVar?, SymbolTable.putParameter?,
      SymbolTable.putFunction?, entry, Entry.symbol, hlocal, hparameter]
  rw [hinto, SymbolTable.put?, Entry.name_symbol, name_entry, contains_table h]
  simp [table, grown]

/-- The table of a function is replaced. -/
theorem setLocals_table (h : InStep w puts r) {function : String} {locals : Registry}
    (hlocals : r.locals? function = some locals) (change : Registry → Registry × Bool) :
    (r.within function change).1.table =
      r.table.setLocals function (change locals).1.table.symbols := by
  obtain ⟨i, name, type, hplace, hentry, hwithin⟩ := within_of_some hlocals
  obtain ⟨e, he, hname⟩ := h.getElem?_of_place? hplace
  obtain rfl := Option.some.inj (hentry.symm.trans he)
  obtain rfl : name = function := hname
  rw [hwithin, table, SymbolTable.setLocals]
  refine congrArg (SymbolTable.mk r.wordSize) (List.ext_getElem? fun j ↦ ?_)
  simp only [table, List.getElem?_map, Array.getElem?_toList, Array.getElem?_setIfInBounds]
  by_cases hij : i = j
  · rw [← hij, if_pos rfl, if_pos (h.lt_size hplace), hentry]
    simp [Entry.symbol]
  · rw [if_neg hij]
    cases hj : r.entries[j]? with
    | none => rfl
    | some e =>
      have hne : e.name ≠ name := fun heq ↦ by
        have hplace' := h.place?_of_getElem? hj
        rw [heq, hplace] at hplace'
        exact hij (Option.some.inj hplace')
      cases e with
      | function other type' locals' =>
        have hother : other ≠ name := hne
        simp [Entry.symbol, hother]
      | _ => simp [Entry.symbol]

/-- **An insertion into a registry** is one into the symbol table that it stands for. -/
theorem updateAt?_table {path : List String} (h : KeepsAll w history (some r)) :
    r.table.updateAt? p.into path =
      if (putAt p path r).2 then some (putAt p path r).1.table else none := by
  induction path generalizing r history with
  | nil =>
    rw [SymbolTable.updateAt?, putAt, put_eq, into_table (keepsAll_some.1 h).1]
    split <;> rfl
  | cons function path ih =>
    obtain ⟨hstep, hlocals⟩ := keepsAll_some.1 h
    rw [SymbolTable.updateAt?, putAt, locals?_table h]
    cases hfunction : r.locals? function with
    | none =>
      rw [within_of_none hfunction]
      rfl
    | some locals =>
      rw [Option.map_some, Option.bind_some, ih (hfunction ▸ hlocals function),
        answer_within hfunction, setLocals_table hstep hfunction]
      split <;> rfl

/-- **A run of insertions** into a registry is the same run of insertions into the symbol table that
it stands for. -/
theorem table_run (insertions : List Insertion) (h : KeepsAll w history (some r)) :
    r.table.insertAll insertions = ((run r insertions).1.table, (run r insertions).2) := by
  induction insertions generalizing r history with
  | nil => rfl
  | cons first rest ih =>
    simp only [SymbolTable.insertAll, run, updateAt?_table h]
    cases hok : (putAt first.put first.path r).2 with
    | false =>
      rw [putAt_refused hok]
      simp [ih h]
    | true => simp [ih (h.putAt hok)]

/-! ### What insertions lead to -/

theorem at?_append (r : Registry) (path : List String) (function : String) :
    r.at? (path ++ [function]) = (r.at? path).bind fun inner ↦ inner.locals? function := by
  induction path generalizing r with
  | nil =>
    rw [List.nil_append, at?, at?, Option.bind_some]
    exact Option.bind_fun_some _
  | cons first path ih =>
    rw [List.cons_append, at?, at?, Option.bind_assoc]
    exact congrArg _ (funext ih)

/-- What some insertions make of an empty registry, and which of them were possible. -/
structure Sound (w : UInt32) (insertions : List Insertion) (r : Registry) (answers : List Bool) :
    Prop where
  /-- Every table that is reached holds what was put there. -/
  tables : ∀ path inner, r.at? path = some inner →
    inner.Holds w (accepted path insertions answers)
  /-- The functions that were put into a table have tables, and nothing else has one. -/
  functions : ∀ path function, (r.at? (path ++ [function])).isSome ↔
    ∃ type, .function function type ∈ accepted path insertions answers
  /-- A name is refused if it is in use, or if there is no such table. -/
  refused : ∀ path p, (putAt p path r).2 = false ↔
    ∀ inner, r.at? path = some inner → p.name ∈ inner.entries.toList.map Entry.name
  /-- If a name is refused, nothing changes in any table. -/
  unchanged : ∀ path p, (putAt p path r).2 = false → (putAt p path r).1 = r
  /-- The same insertions make the symbol table that the registry stands for. -/
  symbols : SymbolTable.insertAll { wordSize := w } insertions = (r.table, answers)

/-- A function has a table if it was put there. -/
theorem Holds.isSome_locals? (h : Holds w puts r) (function : String) :
    (r.locals? function).isSome ↔ ∃ type, .function function type ∈ puts := by
  rw [Option.isSome_iff_exists, ← h.entries]
  constructor
  · rintro ⟨locals, hlocals⟩
    obtain ⟨e, hfind, he⟩ := Option.bind_eq_some_iff.1 hlocals
    obtain ⟨hmem, hname⟩ := (h.find function e).1 hfind
    cases e with
    | function name type =>
      obtain rfl : name = function := hname
      exact ⟨type, List.mem_map.2 ⟨_, Array.mem_toList_iff.2 hmem, rfl⟩⟩
    | _ => cases he
  · rintro ⟨type, hput⟩
    obtain ⟨e, hmem, he⟩ := List.mem_map.1 hput
    cases e with
    | function name type locals =>
      cases he
      have hfind := (h.find function _).2 ⟨Array.mem_toList_iff.1 hmem, rfl⟩
      exact ⟨locals, by rw [locals?, hfind]; rfl⟩
    | _ => cases he

/-- **What insertions lead to.** Whatever is put into an empty registry and into the tables of its
functions, and in whatever order: every table lists what was put there and not refused, in this
order and with names that are all different, which the index finds; variables and parameters have
the offsets of words that follow each other, each kind for itself; and all tables have words of the
same size. -/
theorem run_sound (w : UInt32) (insertions : List Insertion) :
    Sound w insertions (run { wordSize := w } insertions).1
      (run { wordSize := w } insertions).2 := by
  have hkept := (keepsAll_empty w).run insertions
  simp only [List.nil_append] at hkept
  have hholds (path : List String) (inner : Registry)
      (hinner : (run { wordSize := w } insertions).1.at? path = some inner) :
      inner.Holds w (accepted path insertions (run { wordSize := w } insertions).2) := by
    have hstep := hkept path
    rw [Option.bind_some, hinner] at hstep
    exact hstep.holds
  refine
    { tables := hholds
      functions := fun path function ↦ ?_
      refused := fun path p ↦ ?_
      unchanged := fun _ _ ↦ putAt_refused
      symbols := ?_ }
  · rw [at?_append]
    cases hinner : (run { wordSize := w } insertions).1.at? path with
    | none =>
      have hnone := hkept path
      rw [Option.bind_some, hinner] at hnone
      rw [show accepted path insertions _ = [] from hnone]
      simp
    | some inner => exact (hholds path inner hinner).isSome_locals? function
  · rw [← Bool.not_eq_true, putAt_accepts]
    simp only [not_exists, not_and, not_not]
    exact forall₂_congr fun inner hinner ↦ (hholds path inner hinner).contains p.name
  · have hempty : ({ wordSize := w } : Registry).table = { wordSize := w } := rfl
    rw [← hempty, table_run insertions (keepsAll_empty w)]

/-- The table of a function stays when its name is refused and when more names follow. -/
example : (run { wordSize := 8 } [⟨[], .function "main" .int⟩, ⟨["main"], .var "x" .int none⟩,
      ⟨[], .parameter "main" .bool⟩, ⟨[], .var "y" .int none⟩, ⟨["main"], .var "y" .int none⟩,
      ⟨["main"], .parameter "x" .int⟩]).2 = [true, true, false, true, true, false] := by
  decide

end Registry

end ScalarMips
