import ScalarMips.Layout.Registry
import ScalarMips.Proofs.SymbolTables

/-!
# What registries hold

After any insertions into an empty registry and into the tables of its functions, every table holds
what was put there and not refused (`KeepsAll.run`).

The parts of a table are in step with each other if its index leads to the entry of each name and
the two next offsets count its variables and its parameters (`InStep`). An insertion into the table
keeps them in step (`InStep.grown`), and so does one into the table of a function, which does not
show in the entries themselves (`outlines_within`). So an insertion somewhere below changes the one
table that its path leads to, and the others hold what they held before (`KeepsAll.putAt`).
-/

namespace ScalarMips

namespace Registry

open Layout (offsetAt)

/-! ### Entries without tables -/

namespace Entry

variable {τ : Type}

/-- An entry without the table of a function. -/
def outline : Entry τ → Entry Unit
  | var name type offset initial => var name type offset initial
  | parameter name type offset => parameter name type offset
  | function name type _ => function name type ()

/-- What was put into a registry to get an entry. -/
def put : Entry τ → Put
  | var name type _ initial => .var name type initial
  | parameter name type _ => .parameter name type
  | function name type _ => .function name type

@[simp] theorem name_outline (e : Entry τ) : e.outline.name = e.name := by
  cases e <;> rfl

@[simp] theorem offset_outline (e : Entry τ) : e.outline.offset = e.offset := by
  cases e <;> rfl

@[simp] theorem isVar_outline (e : Entry τ) : e.outline.isVar = e.isVar := by
  cases e <;> rfl

@[simp] theorem isParameter_outline (e : Entry τ) : e.outline.isParameter = e.isParameter := by
  cases e <;> rfl

@[simp] theorem put_outline (e : Entry τ) : e.outline.put = e.put := by
  cases e <;> rfl

end Entry

/-- The entries of a registry without their tables. -/
def outlines (r : Registry) : List (Entry Unit) :=
  r.entries.toList.map Entry.outline

theorem getElem?_outlines (r : Registry) (i : Nat) :
    r.outlines[i]? = (r.entries[i]?).map Entry.outline := by
  rw [outlines, List.getElem?_map, Array.getElem?_toList]

theorem length_outlines (r : Registry) : r.outlines.length = r.entries.size := by
  rw [outlines, List.length_map, Array.length_toList]

/-- The entries of a kind, with and without their tables. -/
theorem filter_outlines (r : Registry) {kind : Entry Registry → Bool} {kind' : Entry Unit → Bool}
    (hkind : ∀ e : Entry Registry, kind' e.outline = kind e) :
    r.outlines.filter kind' = (r.entries.filter kind).toList.map Entry.outline := by
  rw [outlines, List.filter_map, Array.toList_filter]
  exact congrArg _ (List.filter_congr fun e _ ↦ hkind e)

/-! ### Offsets -/

theorem offsetAt_succ (w : UInt32) (n : Nat) : offsetAt w (n + 1) = offsetAt w n + w := by
  rw [offsetAt, offsetAt, Nat.succ_mul, UInt32.ofNat_add, UInt32.ofNat_toNat]

/-- The entries of one kind have the offsets of words that follow each other, and `next` is the
offset of one more word. -/
structure Stacked (w : UInt32) (kind : Entry Unit → Bool) (entries : List (Entry Unit))
    (next : UInt32) : Prop where
  /-- The offsets are those of words that follow each other. -/
  offsets : (entries.filter kind).map Entry.offset =
    (List.range (entries.filter kind).length).map (offsetAt w)
  /-- One more word would stand behind them. -/
  next : next = offsetAt w (entries.filter kind).length

namespace Stacked

variable {w : UInt32} {kind : Entry Unit → Bool} {entries : List (Entry Unit)} {next : UInt32}
  {e : Entry Unit}

theorem nil (w : UInt32) (kind : Entry Unit → Bool) : Stacked w kind [] 0 where
  offsets := rfl
  next := by simp [offsetAt]

/-- One more entry, at the next offset if it is of the kind. -/
theorem append (h : Stacked w kind entries next) (hoffset : kind e → e.offset = next) :
    Stacked w kind (entries ++ [e]) (if kind e then next + w else next) := by
  have hfilter : (entries ++ [e]).filter kind = entries.filter kind ++ [e].filter kind :=
    List.filter_append ..
  cases hkind : kind e with
  | false =>
    rw [List.filter_singleton, hkind, cond_false, List.append_nil] at hfilter
    exact ⟨by rw [hfilter, h.offsets], by rw [if_neg Bool.false_ne_true, hfilter, h.next]⟩
  | true =>
    rw [List.filter_singleton, hkind, cond_true] at hfilter
    have hlength : ((entries ++ [e]).filter kind).length = (entries.filter kind).length + 1 := by
      rw [hfilter, List.length_append, List.length_singleton]
    refine ⟨?_, ?_⟩
    · rw [hlength, hfilter, List.map_append, List.range_succ, List.map_append, h.offsets,
        List.map_singleton, List.map_singleton, hoffset hkind, h.next]
    · rw [if_pos rfl, hlength, offsetAt_succ, ← h.next]

end Stacked

/-! ### The invariant of one table -/

/-- The parts of a registry into which some things were put are in step with each other. Nothing is
said of the tables of functions. -/
structure InStep (w : UInt32) (puts : List Put) (r : Registry) : Prop where
  /-- The words have the given size. -/
  wordSize : r.wordSize = w
  /-- The entries are what was put there, in this order. -/
  puts : r.outlines.map Entry.put = puts
  /-- The place of a name is that of the entry with this name. -/
  place : ∀ name i, r.place? name = some i ↔ (r.outlines[i]?).map Entry.name = some name
  /-- The variables follow each other. -/
  vars : Stacked w Entry.isVar r.outlines r.nextVar
  /-- The parameters follow each other. -/
  parameters : Stacked w Entry.isParameter r.outlines r.nextParameter

theorem inStep_empty (w : UInt32) : InStep w [] { wordSize := w } where
  wordSize := rfl
  puts := rfl
  place name i := by simp [place?, outlines]
  vars := .nil w _
  parameters := .nil w _

variable {w : UInt32} {puts : List Put} {r : Registry} {p : Put}

/-- A name that is not in use has no entry. -/
theorem place?_eq_none (hname : ¬ r.contains p.name) : r.place? p.name = none := by
  rwa [contains, Option.not_isSome_iff_eq_none] at hname

namespace InStep

/-- A name that is in use has an entry. -/
theorem getElem?_of_place? (h : InStep w puts r) {name : String} {i : Nat}
    (hplace : r.place? name = some i) : ∃ e, r.entries[i]? = some e ∧ e.name = name := by
  have hname := (h.place name i).1 hplace
  rw [getElem?_outlines, Option.map_map] at hname
  obtain ⟨e, he, hname⟩ := Option.map_eq_some_iff.1 hname
  exact ⟨e, he, (Entry.name_outline e).symm.trans hname⟩

theorem place?_of_getElem? (h : InStep w puts r) {e : Entry Registry} {i : Nat}
    (he : r.entries[i]? = some e) : r.place? e.name = some i := by
  rw [h.place, getElem?_outlines, he, Option.map_some, Option.map_some, Entry.name_outline]

theorem lt_size (h : InStep w puts r) {name : String} {i : Nat}
    (hplace : r.place? name = some i) : i < r.entries.size := by
  obtain ⟨e, he, -⟩ := h.getElem?_of_place? hplace
  exact (Array.getElem?_eq_some_iff.1 he).1

/-- Looking up a name finds the entry with this name. -/
theorem find?_eq_some_iff (h : InStep w puts r) {name : String} {e : Entry Registry} :
    r.find? name = some e ↔ e ∈ r.entries ∧ e.name = name := by
  rw [find?, Option.bind_eq_some_iff]
  constructor
  · rintro ⟨i, hplace, he⟩
    obtain ⟨e', he', hname⟩ := h.getElem?_of_place? hplace
    obtain rfl := Option.some.inj (he'.symm.trans he)
    exact ⟨Array.mem_of_getElem? he, hname⟩
  · rintro ⟨hmem, rfl⟩
    obtain ⟨i, he⟩ := Array.getElem?_of_mem hmem
    exact ⟨i, h.place?_of_getElem? he, he⟩

theorem nodup (h : InStep w puts r) : (r.entries.toList.map Entry.name).Nodup := by
  rw [List.nodup_iff_getElem?_ne_getElem?]
  intro i j hij hj heq
  rw [List.length_map] at hj
  obtain ⟨e, he⟩ : ∃ e, r.entries[j]? = some e := ⟨_, Array.getElem?_eq_getElem hj⟩
  have hi : (r.entries[i]?).map Entry.name = some e.name := by
    simpa [List.getElem?_map, he] using heq
  obtain ⟨e', he', hname⟩ := Option.map_eq_some_iff.1 hi
  have hplace := h.place?_of_getElem? he'
  rw [hname, h.place?_of_getElem? he] at hplace
  exact hij.ne' (Option.some.inj hplace)

end InStep

/-! ### One insertion -/

/-- The entry that something gets when it is put into a registry. -/
def entry (r : Registry) : Put → Entry Registry
  | .var name type initial => .var name type r.nextVar initial
  | .parameter name type => .parameter name type r.nextParameter
  | .function name type => .function name type { wordSize := r.wordSize }

/-- A registry into which something was put. -/
def grown (r : Registry) (p : Put) : Registry where
  wordSize := r.wordSize
  entries := r.entries.push (r.entry p)
  index := (p.name, r.entries.size) :: r.index
  nextVar := if (r.entry p).isVar then r.nextVar + r.wordSize else r.nextVar
  nextParameter :=
    if (r.entry p).isParameter then r.nextParameter + r.wordSize else r.nextParameter

theorem name_entry (r : Registry) (p : Put) : (r.entry p).name = p.name := by
  cases p <;> rfl

theorem put_entry (r : Registry) (p : Put) : (r.entry p).put = p := by
  cases p <;> rfl

/-- **What an insertion does.** A name in use is refused, whatever is to be put there. -/
theorem put_eq (r : Registry) (p : Put) :
    r.put p = if r.contains p.name then (r, false) else (r.grown p, true) := by
  by_cases hname : r.contains p.name
  · have hinsert (e : Entry Registry) (he : e.name = p.name) : r.insert? e = none := by
      rw [insert?, he, if_pos hname]
    rw [if_pos hname]
    cases p with
    | var => rw [put, putVar, hinsert _ rfl]
    | parameter => rw [put, putParameter, hinsert _ rfl]
    | function => rw [put, putFunction, hinsert _ rfl]
  · have hinsert (e : Entry Registry) (he : e.name = p.name) : r.insert? e = some
        { r with entries := r.entries.push e, index := (p.name, r.entries.size) :: r.index } := by
      rw [insert?, he, if_neg hname]
    rw [if_neg hname]
    cases p with
    | var =>
      rw [put, putVar, hinsert _ rfl]
      rfl
    | parameter =>
      rw [put, putParameter, hinsert _ rfl]
      rfl
    | function =>
      rw [put, putFunction, hinsert _ rfl]
      rfl

theorem outlines_grown (r : Registry) (p : Put) :
    (r.grown p).outlines = r.outlines ++ [(r.entry p).outline] := by
  rw [outlines, grown, Array.toList_push, List.map_append, outlines]
  rfl

theorem place?_grown (r : Registry) (p : Put) (name : String) :
    (r.grown p).place? name = if name = p.name then some r.entries.size else r.place? name := by
  rw [place?, grown, List.lookup_cons]
  by_cases hname : name = p.name
  · rw [if_pos hname, hname, beq_self_eq_true]
  · rw [if_neg hname, beq_false_of_ne hname]
    rfl

namespace InStep

/-- A new name is put at the end, and all stays in step. -/
theorem grown (h : InStep w puts r) (hname : ¬ r.contains p.name) :
    InStep w (puts ++ [p]) (r.grown p) where
  wordSize := h.wordSize
  puts := by
    rw [outlines_grown, List.map_append, h.puts, List.map_singleton, Entry.put_outline, put_entry]
  place name i := by
    rw [outlines_grown, place?_grown, List.getElem?_append, length_outlines]
    -- The place is that of an entry before the new one, that of the new one, or behind it.
    rcases Nat.lt_trichotomy i r.entries.size with hlt | rfl | hgt
    · rw [if_pos hlt, ← h.place]
      split
      · rename_i hp
        rw [hp, place?_eq_none hname]
        simpa using hlt.ne'
      · rfl
    · rw [if_neg (Nat.lt_irrefl _), Nat.sub_self]
      have hbefore : r.place? name ≠ some r.entries.size :=
        fun hplace ↦ (h.lt_size hplace).ne rfl
      by_cases hp : name = p.name
      · simp [hp, name_entry]
      · simp [hp, name_entry, hbefore, Ne.symm hp]
    · have hbefore : r.place? name ≠ some i := fun hplace ↦ (h.lt_size hplace).not_gt hgt
      have hbehind : [(r.entry p).outline][i - r.entries.size]? = none :=
        List.getElem?_eq_none (by simp; omega)
      rw [if_neg hgt.not_gt, hbehind]
      split <;> simp [hgt.ne, hbefore]
  vars := by
    obtain rfl := h.wordSize
    have hvars := h.vars.append (e := (r.entry p).outline) fun hvar ↦ by
      cases p <;> first | rfl | cases hvar
    rwa [Entry.isVar_outline, ← outlines_grown] at hvars
  parameters := by
    obtain rfl := h.wordSize
    have hparameters := h.parameters.append (e := (r.entry p).outline) fun hparameter ↦ by
      cases p <;> first | rfl | cases hparameter
    rwa [Entry.isParameter_outline, ← outlines_grown] at hparameters

/-- What is found after an insertion. -/
theorem find?_grown (h : InStep w puts r) (name : String) :
    (r.grown p).find? name = if name = p.name then some (r.entry p) else r.find? name := by
  rw [find?, place?_grown]
  split
  · exact Array.getElem?_push_size
  · cases hplace : r.place? name with
    | none =>
      rw [find?, hplace]
      rfl
    | some i =>
      have hi := h.lt_size hplace
      rw [find?, hplace, Option.bind_some, Option.bind_some, Array.getElem?_eq_getElem hi]
      exact Array.getElem?_push_lt hi

theorem locals?_grown (h : InStep w puts r) (function : String) :
    (r.grown p).locals? function =
      if function = p.name then (r.entry p).locals? else r.locals? function := by
  rw [locals?, find?_grown h]
  split <;> rfl

end InStep

/-! ### Changing the table of a function -/

theorem setIfInBounds_of_getElem? {α : Type} {as : Array α} {i : Nat} {a : α}
    (h : as[i]? = some a) : as.setIfInBounds i a = as := by
  refine Array.ext_getElem? fun j ↦ ?_
  rw [Array.getElem?_setIfInBounds]
  split
  · rename_i hij
    rw [← hij, h, if_pos (Array.getElem?_eq_some_iff.1 h).1]
  · rfl

variable {change : Registry → Registry × Bool} {function : String}

theorem within_of_none (h : r.locals? function = none) : r.within function change = (r, false) := by
  unfold within
  split
  · rfl
  · rename_i i hplace
    split
    · rename_i name type locals hentry
      rw [locals?, find?, hplace, Option.bind_some, hentry] at h
      cases h
    · rfl

/-- The table of a function stands in the entry of the function, and there it is changed. -/
theorem within_of_some {locals : Registry} (h : r.locals? function = some locals) :
    ∃ i name type, r.place? function = some i ∧
      r.entries[i]? = some (.function name type locals) ∧
      ∀ change, r.within function change =
        ({ r with
            entries := r.entries.setIfInBounds i (.function name type (change locals).1) },
          (change locals).2) := by
  obtain ⟨e, hfind, he⟩ := Option.bind_eq_some_iff.1 h
  obtain ⟨i, hplace, hentry⟩ := Option.bind_eq_some_iff.1 hfind
  cases e with
  | function name type locals' =>
    cases he
    exact ⟨i, name, type, hplace, hentry, fun change ↦ by simp only [within, hplace, hentry]⟩
  | _ => cases he

theorem answer_within {locals : Registry} (h : r.locals? function = some locals)
    (change : Registry → Registry × Bool) :
    (r.within function change).2 = (change locals).2 := by
  obtain ⟨i, name, type, -, -, hwithin⟩ := within_of_some h
  rw [hwithin]

/-- A change that leaves the table of the function as it was changes nothing. -/
theorem within_eq_self
    (h : ∀ locals, r.locals? function = some locals → (change locals).1 = locals) :
    (r.within function change).1 = r := by
  cases hlocals : r.locals? function with
  | none => rw [within_of_none hlocals]
  | some locals =>
    obtain ⟨i, name, type, -, hentry, hwithin⟩ := within_of_some hlocals
    rw [hwithin, h locals hlocals, setIfInBounds_of_getElem? hentry]
    cases r
    rfl

/-- The change of a table does not show in the entries themselves. -/
theorem outlines_within (r : Registry) : (r.within function change).1.outlines = r.outlines := by
  cases hlocals : r.locals? function with
  | none => rw [within_of_none hlocals]
  | some locals =>
    obtain ⟨i, name, type, -, hentry, hwithin⟩ := within_of_some hlocals
    have houtline : (r.entries.map Entry.outline)[i]? =
        some (Entry.function name type (change locals).1).outline := by
      rw [Array.getElem?_map, hentry]
      rfl
    rw [hwithin, outlines, ← Array.toList_map, Array.map_setIfInBounds,
      setIfInBounds_of_getElem? houtline, Array.toList_map, outlines]

/-- The parts of a table stay in step when the table of a function is changed. -/
theorem InStep.within (h : InStep w puts r) : InStep w puts (r.within function change).1 := by
  have hsame : (r.within function change).1.outlines = r.outlines := outlines_within r
  have hrest : (r.within function change).1.wordSize = r.wordSize ∧
      (r.within function change).1.index = r.index ∧
      (r.within function change).1.nextVar = r.nextVar ∧
      (r.within function change).1.nextParameter = r.nextParameter := by
    cases hlocals : r.locals? function with
    | none =>
      rw [within_of_none hlocals]
      exact ⟨rfl, rfl, rfl, rfl⟩
    | some locals =>
      obtain ⟨i, name, type, -, -, hwithin⟩ := within_of_some hlocals
      rw [hwithin]
      exact ⟨rfl, rfl, rfl, rfl⟩
  obtain ⟨hword, hindex, hvar, hparameter⟩ := hrest
  exact
    { wordSize := hword.trans h.wordSize
      puts := by rw [hsame, h.puts]
      place := fun name i ↦ by rw [hsame, place?, hindex, ← h.place, place?]
      vars := by
        rw [hsame, hvar]
        exact h.vars
      parameters := by
        rw [hsame, hparameter]
        exact h.parameters }

/-- Only the table of the one function is changed. -/
theorem InStep.locals?_within (h : InStep w puts r) {locals : Registry}
    (hlocals : r.locals? function = some locals) (other : String) :
    (r.within function change).1.locals? other =
      if other = function then some (change locals).1 else r.locals? other := by
  obtain ⟨i, name, type, hplace, -, hwithin⟩ := within_of_some hlocals
  have hi := h.lt_size hplace
  rw [hwithin]
  unfold locals? find?
  show ((r.place? other).bind _).bind _ = _
  split
  · rename_i hother
    rw [hother, hplace]
    simp [hi, Entry.locals?]
  · rename_i hother
    cases hplace' : r.place? other with
    | none => rfl
    | some j =>
      have hij : i ≠ j := by
        rintro rfl
        obtain ⟨e, he, hname⟩ := h.getElem?_of_place? hplace
        obtain ⟨e', he', hname'⟩ := h.getElem?_of_place? hplace'
        obtain rfl := Option.some.inj (he.symm.trans he')
        exact hother (hname'.symm.trans hname)
      rw [Option.bind_some, Option.bind_some, Array.getElem?_setIfInBounds_ne hij]

/-! ### Nested tables -/

/-- A registry, if there is one, into which the given things were put. -/
def Keeps (w : UInt32) (puts : List Put) : Option Registry → Prop
  | some r => InStep w puts r
  | none => puts = []

/-- What was put into every table reached from a registry, if there is one. -/
def KeepsAll (w : UInt32) (history : List String → List Put) (r : Option Registry) : Prop :=
  ∀ path, Keeps w (history path) (r.bind fun r ↦ r.at? path)

variable {history : List String → List Put}

theorem keepsAll_some : KeepsAll w history (some r) ↔ InStep w (history []) r ∧
    ∀ function, KeepsAll w (fun path ↦ history (function :: path)) (r.locals? function) where
  mp h := ⟨h [], fun function path ↦ h (function :: path)⟩
  mpr := fun ⟨h, hlocals⟩ path ↦
    match path with
    | [] => h
    | function :: path => hlocals function path

theorem keepsAll_none : KeepsAll w history none ↔ ∀ path, history path = [] :=
  Iff.rfl

/-- Nothing was put into an empty registry, and there are no tables in it. -/
theorem keepsAll_empty (w : UInt32) : KeepsAll w (fun _ ↦ []) (some { wordSize := w }) :=
  keepsAll_some.2 ⟨inStep_empty w, fun _ _ ↦ rfl⟩

/-- A history with one more insertion at the end of a path. -/
def extend (history : List String → List Put) (path : List String) (p : Put) :
    List String → List Put :=
  fun other ↦ if other = path then history other ++ [p] else history other

theorem extend_cons (history : List String → List Put) (function other : String)
    (path : List String) (p : Put) :
    (fun rest ↦ extend history (function :: path) p (other :: rest)) =
      if other = function then extend (fun rest ↦ history (other :: rest)) path p
      else fun rest ↦ history (other :: rest) := by
  funext rest
  by_cases h : other = function
  · simp [extend, h]
  · simp [extend, h]

/-- **What one insertion does to all tables.** An insertion that is possible is noted at its path;
all other tables are as before, and so is the rest of the table at this path. -/
theorem KeepsAll.putAt {path : List String} (h : KeepsAll w history (some r))
    (hok : (putAt p path r).2 = true) :
    KeepsAll w (extend history path p) (some (putAt p path r).1) := by
  induction path generalizing r history with
  | nil =>
    obtain ⟨hstep, hlocals⟩ := keepsAll_some.1 h
    rw [Registry.putAt, put_eq] at hok ⊢
    by_cases hname : r.contains p.name
    · rw [if_pos hname] at hok
      cases hok
    · rw [if_neg hname]
      refine keepsAll_some.2 ⟨hstep.grown hname, fun function ↦ ?_⟩
      have hhistory : (fun path ↦ extend history [] p (function :: path)) =
          fun path ↦ history (function :: path) := rfl
      rw [hhistory, hstep.locals?_grown]
      split
      · rename_i hfunction
        have hnone : r.locals? function = none := by
          rw [locals?, find?, hfunction, place?_eq_none hname]
          rfl
        have hempty : (fun path ↦ history (function :: path)) = fun _ ↦ [] :=
          funext (keepsAll_none.1 (hnone ▸ hlocals function))
        rw [hempty]
        cases p with
        | function => exact hstep.wordSize ▸ keepsAll_empty _
        | _ => exact keepsAll_none.2 fun _ ↦ rfl
      · exact hlocals function
  | cons function path ih =>
    obtain ⟨hstep, hlocals⟩ := keepsAll_some.1 h
    rw [Registry.putAt] at hok ⊢
    cases hfunction : r.locals? function with
    | none =>
      rw [within_of_none hfunction] at hok
      cases hok
    | some locals =>
      refine keepsAll_some.2 ⟨hstep.within, fun other ↦ ?_⟩
      rw [extend_cons, hstep.locals?_within hfunction]
      split
      · rename_i hother
        subst hother
        rw [answer_within hfunction] at hok
        exact ih (hfunction ▸ hlocals other) hok
      · exact hlocals other

/-! ### Refusals -/

/-- An insertion that is refused changes nothing, in no table. -/
theorem putAt_refused {path : List String} (h : (putAt p path r).2 = false) :
    (putAt p path r).1 = r := by
  induction path generalizing r with
  | nil =>
    rw [putAt, put_eq] at h ⊢
    split
    · rfl
    · rename_i hname
      rw [if_neg hname] at h
      cases h
  | cons function path ih =>
    rw [putAt] at h ⊢
    exact within_eq_self fun locals hlocals ↦ ih (answer_within hlocals _ ▸ h)

/-- An insertion is possible if its path leads to a table in which its name is not in use. -/
theorem putAt_accepts {path : List String} :
    (putAt p path r).2 = true ↔ ∃ inner, r.at? path = some inner ∧ ¬ inner.contains p.name := by
  induction path generalizing r with
  | nil =>
    rw [putAt, put_eq]
    by_cases hname : r.contains p.name <;> simp [at?, hname]
  | cons function path ih =>
    rw [putAt, at?]
    cases hlocals : r.locals? function with
    | none => simp [within_of_none hlocals]
    | some locals =>
      rw [answer_within hlocals, Option.bind_some]
      exact ih

/-! ### Runs -/

/-- What was put into the table at the end of a path, in this order. -/
def accepted (path : List String) (insertions : List Insertion) (answers : List Bool) : List Put :=
  (insertions.zip answers).filterMap fun (insertion, possible) ↦
    if possible ∧ insertion.path = path then some insertion.put else none

theorem accepted_cons (path : List String) (first : Insertion) (rest : List Insertion)
    (possible : Bool) (answers : List Bool) :
    accepted path (first :: rest) (possible :: answers) =
      (if possible ∧ first.path = path then [first.put] else []) ++ accepted path rest answers := by
  rw [accepted, List.zip_cons_cons, List.filterMap_cons]
  by_cases h : possible ∧ first.path = path
  · simp only [if_pos h]
    rfl
  · simp only [if_neg h]
    rfl

/-- **What a run does to all tables.** Every table that is reached holds what was put there, in this
order, before the run or by an insertion of the run that was possible. -/
theorem KeepsAll.run (insertions : List Insertion) (h : KeepsAll w history (some r)) :
    KeepsAll w (fun path ↦ history path ++ accepted path insertions (run r insertions).2)
      (some (run r insertions).1) := by
  induction insertions generalizing r history with
  | nil => simpa [Registry.run, accepted] using h
  | cons first rest ih =>
    simp only [Registry.run]
    cases hok : (Registry.putAt first.put first.path r).2 with
    | false =>
      simp only [accepted_cons, Bool.false_eq_true, false_and, if_false, List.nil_append]
      rw [putAt_refused hok]
      exact ih h
    | true =>
      have hhistory (path : List String) (answers : List Bool) :
          history path ++ accepted path (first :: rest) (true :: answers) =
            extend history first.path first.put path ++ accepted path rest answers := by
        rw [accepted_cons, ← List.append_assoc, extend]
        congr 1
        by_cases hpath : path = first.path
        · simp [hpath]
        · simp [hpath, Ne.symm hpath]
      simp only [hhistory]
      exact ih (h.putAt hok)

/-! ### What is seen of a table -/

/-- What is seen of a registry into which some things were put. -/
structure Holds (w : UInt32) (puts : List Put) (r : Registry) : Prop where
  /-- Its words have the given size. -/
  wordSize : r.wordSize = w
  /-- Its entries are what was put there, in this order. -/
  entries : r.entries.toList.map Entry.put = puts
  /-- No two of them have one name, whatever their kinds. -/
  nodup : (r.entries.toList.map Entry.name).Nodup
  /-- Looking up a name finds the entry with this name. -/
  find : ∀ name e, r.find? name = some e ↔ e ∈ r.entries ∧ e.name = name
  /-- A name is in use if there is an entry with this name. -/
  contains : ∀ name, r.contains name ↔ name ∈ r.entries.toList.map Entry.name
  /-- The `j`-th variable has the offset of the `j`-th word. -/
  vars : r.vars.toList.map Entry.offset = (List.range r.vars.size).map (offsetAt w)
  /-- The `j`-th parameter has the offset of the `j`-th word. -/
  parameters : r.parameters.toList.map Entry.offset =
    (List.range r.parameters.size).map (offsetAt w)
  /-- The size of its variables is that of as many words. -/
  localSize : r.localSize = offsetAt w r.vars.size
  /-- The size of its parameters is that of as many words. -/
  parameterSize : r.parameterSize = offsetAt w r.parameters.size

namespace InStep

theorem contains_iff (h : InStep w puts r) (name : String) :
    r.contains name ↔ name ∈ r.entries.toList.map Entry.name := by
  rw [contains, Option.isSome_iff_exists, List.mem_map]
  constructor
  · rintro ⟨i, hplace⟩
    obtain ⟨e, he, hname⟩ := h.getElem?_of_place? hplace
    exact ⟨e, Array.mem_toList_iff.2 (Array.mem_of_getElem? he), hname⟩
  · rintro ⟨e, he, rfl⟩
    obtain ⟨i, he⟩ := Array.getElem?_of_mem (Array.mem_toList_iff.1 he)
    exact ⟨i, h.place?_of_getElem? he⟩

/-- What follows from the offsets of a kind for the entries of this kind. -/
theorem offsets_filter {kind : Entry Registry → Bool} {kind' : Entry Unit → Bool} {next : UInt32}
    (h : Stacked w kind' r.outlines next) (hkind : ∀ e : Entry Registry, kind' e.outline = kind e) :
    (r.entries.filter kind).toList.map Entry.offset =
        (List.range (r.entries.filter kind).size).map (offsetAt w) ∧
      next = offsetAt w (r.entries.filter kind).size := by
  have hlength : (r.outlines.filter kind').length = (r.entries.filter kind).size := by
    rw [filter_outlines r hkind, List.length_map, Array.length_toList]
  have hoffsets := h.offsets
  rw [hlength, filter_outlines r hkind, List.map_map] at hoffsets
  have hsame : Entry.offset ∘ Entry.outline = (Entry.offset : Entry Registry → UInt32) :=
    funext Entry.offset_outline
  rw [hsame] at hoffsets
  exact ⟨hoffsets, hlength ▸ h.next⟩

theorem holds (h : InStep w puts r) : r.Holds w puts where
  wordSize := h.wordSize
  entries := by
    have hputs := h.puts
    rw [outlines, List.map_map] at hputs
    have hsame : Entry.put ∘ Entry.outline = (Entry.put : Entry Registry → Put) :=
      funext Entry.put_outline
    rwa [hsame] at hputs
  nodup := h.nodup
  find _ _ := h.find?_eq_some_iff
  contains := h.contains_iff
  vars := (offsets_filter h.vars Entry.isVar_outline).1
  parameters := (offsets_filter h.parameters Entry.isParameter_outline).1
  localSize := (offsets_filter h.vars Entry.isVar_outline).2
  parameterSize := (offsets_filter h.parameters Entry.isParameter_outline).2

end InStep

end Registry

end ScalarMips
