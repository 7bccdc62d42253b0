import ScalarMips.Proofs.Lexemes
import ScalarMips.Proofs.ProgramReading
import ScalarMips.Proofs.Storage

/-!
# Sizes of frames

A frame has a word for every variable of its function and two for saved registers. What declares a
variable in the text has at least as many characters as its word has bytes, and the header of a
function is longer than two words, so no frame is longer than the text of the program
(`frame_le_source`).

Characters are counted by the kinds of tokens (`Token.width`). The rest is an induction over the
grammar.
-/

namespace ScalarMips

/-! ### Widths -/

/-- The least number of characters that a token of a kind can have, as far as it matters here. -/
def TokenKind.width : TokenKind → ℕ
  | endOfFile => 0
  | keyword .int | keyword .bool => 3
  | identifier | integerLiteral | keyword _ | mark _ => 1

namespace TokenKind

@[simp] theorem width_identifier : identifier.width = 1 := rfl

@[simp] theorem width_mark (m : Mark) : (mark m).width = 1 := rfl

@[simp] theorem width_fun : (keyword .fun_).width = 1 := rfl

/-- The names of types are longer than other tokens have to be. -/
theorem width_type {word : Keyword} {type : ScalarType} (h : Grammar.type? word = some type) :
    (keyword word).width = 3 := by
  cases word <;> first | rfl | cases h

end TokenKind

/-- The least number of characters of tokens. -/
def Token.width (ts : List Token) : ℕ :=
  (ts.map fun token ↦ token.kind.width).sum

namespace Token

@[simp] theorem width_nil : width [] = 0 := rfl

@[simp] theorem width_cons (token : Token) (ts : List Token) :
    width (token :: ts) = token.kind.width + width ts := rfl

@[simp] theorem width_append (first second : List Token) :
    width (first ++ second) = width first + width second := by
  simp [width]

end Token

namespace Lexer

theorem Spells.width_le {kind : TokenKind} {text : List Char} (h : Spells kind text) :
    kind.width ≤ text.length := by
  cases h with
  | identifier => exact Nat.succ_le_succ (Nat.zero_le _)
  | number hne => exact List.length_pos_iff.2 hne
  | keyword keyword => cases keyword <;> decide
  | mark mark => cases mark <;> decide

/-- The tokens of a text are not longer than the text. -/
theorem Divides.width_le {text rest : List Char} {tokens : List Token}
    (h : Divides text tokens rest) : Token.width tokens ≤ text.length := by
  induction h with
  | nil => exact Nat.zero_le _
  | cons _ hlexeme _ ih =>
    have hfirst := hlexeme.spells.width_le
    simp only [Token.width_cons, List.length_append]
    omega

/-- The numbers in a text are written as the grammar wants them. -/
theorem Divides.wellWritten {text rest : List Char} {tokens : List Token}
    (h : Divides text tokens rest) : Parser.WellWritten tokens := by
  induction h with
  | nil => exact fun _ ht ↦ absurd ht List.not_mem_nil
  | cons _ hlexeme _ ih =>
    refine List.forall_mem_cons.2 ⟨fun hkind ↦ ?_, ih⟩
    have hspells := hlexeme.spells
    rw [hkind] at hspells
    cases hspells with
    | number hne hdigits hfits => exact ⟨hne, hdigits, hfits⟩

end Lexer

/-! ### The grammar -/

namespace Grammar

open Token

variable {before : Stmt → Prop}

theorem Declares.width_le {ts : List Token} {d : Declarator} (h : Declares ts d) :
    4 ≤ width ts := by
  cases h with
  | mk hfirst htype hname => simp [hfirst, TokenKind.width_type htype, hname]

theorem Parameters.width_le {ts : List Token} {ds : List Declarator} (h : Parameters ts ds) :
    4 * ds.length ≤ width ts := by
  induction h with
  | last h => exact h.width_le
  | more h _ _ ih =>
    have hfirst := h.width_le
    simp only [width_append, width_cons, List.length_cons]
    omega

mutual

/-- A statement has four characters for every variable that it declares. -/
theorem Statement.width_le : ∀ {ts : List Token} {s : Stmt}, Statement before ts s →
    4 * s.variables.length ≤ width ts
  | _, _, .var hhead _ => by
    have hhead := hhead.width_le
    simp only [width_append, width_cons, Stmt.variables, List.length_singleton] at hhead ⊢
    omega
  | _, _, .initialized hhead _ _ _ => by
    have hhead := hhead.width_le
    simp only [width_append, width_cons, Stmt.variables, List.length_singleton] at hhead ⊢
    omega
  | _, _, .block _ hbody _ => by
    have hbody := hbody.width_le
    simp only [width_append, width_cons, Stmt.variables]
    omega
  | _, _, .ifThen _ _ hthen => by
    have hthen := hthen.width_le
    simp only [width_append, width_cons, Stmt.variables]
    omega
  | _, _, .ifElse _ _ hthen _ _ helse => by
    have hthen := hthen.width_le
    have helse := helse.width_le
    simp only [width_append, width_cons, Stmt.variables, List.length_append]
    omega
  | _, _, .loop _ _ hbody => by
    have hbody := hbody.width_le
    simp only [width_append, width_cons, Stmt.variables]
    omega
  | _, _, .return_ .. => Nat.zero_le _
  | _, _, .print .. => Nat.zero_le _
  | _, _, .separator .. => Nat.zero_le _
  | _, _, .assign .. => Nat.zero_le _
  | _, _, .evaluate .. => Nat.zero_le _

theorem Statements.width_le : ∀ {ts : List Token} {ss : List Stmt}, Statements before ts ss →
    4 * (Stmt.variablesAll ss).length ≤ width ts
  | _, _, .nil => Nat.zero_le _
  | _, _, .cons hfirst hrest => by
    have hfirst := hfirst.width_le
    have hrest := hrest.width_le
    simp only [width_append, Stmt.variablesAll, List.length_append]
    omega

end

/-- A function has at least as many characters as its frame has bytes. -/
theorem Declaration.width_le {ts : List Token} {s : Stmt} (h : Declaration before ts s) :
    ∀ f ∈ s.function?, 4 * f.variables.length + 8 ≤ width ts := by
  intro f hf
  cases h with
  | @function _ _ _ _ _ _ _ _ _ ts _ ds _ hkeyword hfirst htype hname hopening hparameters hclosing
      hbrace hbody hlast =>
    cases hf
    have hparameters : 4 * ds.length ≤ width ts := by
      rcases hparameters with ⟨-, rfl⟩ | h
      · exact Nat.zero_le _
      · exact h.width_le
    have hbody := hbody.width_le
    simp only [width_append, width_cons, width_nil, hkeyword, hfirst, TokenKind.width_type htype,
      hname, hopening, hclosing, hbrace, hlast, TokenKind.width_identifier, TokenKind.width_mark,
      TokenKind.width_fun, FunctionDecl.variables, List.length_append, List.length_map]
    omega
  | statement h => cases h <;> cases hf

theorem Declarations.width_le {ts : List Token} {ss : List Stmt} (h : Declarations before ts ss) :
    ∀ f ∈ functionDecls ss, 4 * f.variables.length + 8 ≤ width ts := by
  induction h with
  | nil => exact fun f hf ↦ absurd hf List.not_mem_nil
  | @cons first second s ss hfirst _ ih =>
    intro f hf
    obtain ⟨stmt, hstmt, hfunction⟩ := List.mem_filterMap.1 hf
    rw [width_append]
    rcases List.mem_cons.1 hstmt with rfl | hstmt
    · exact Nat.le_add_right_of_le (hfirst.width_le f hfunction)
    · exact Nat.le_add_left_of_le (ih f (List.mem_filterMap.2 ⟨stmt, hstmt, hfunction⟩))

end Grammar

/-! ### Programs -/

/-- The tokens in front of the end of the file divide the text, and the program is the one that the
grammar derives from them. -/
theorem exists_tokens {source : String} {program : List Stmt}
    (hparse : parse (lex source).tokens = .ok program) :
    ∃ tokens last, (lex source).tokens = tokens ++ [last] ∧ last.kind = .endOfFile ∧
      (∀ token ∈ tokens, token.kind ≠ .endOfFile) ∧ Lexer.Divides source.toList tokens [] ∧
      Grammar.Declarations Grammar.Closed tokens program := by
  obtain ⟨tokens, hkinds, hends⟩ := Lexer.ends_place source.toList {}
  have hlex : Piece.place {} (Piece.cut source.toList) = lex source := rfl
  rw [hlex] at hends
  rcases hends with ⟨span, hlexed, hdivides⟩ | ⟨fault, rest, hlexed, -, -⟩
  · rw [hlexed, parse_append_eq_ok rfl hkinds] at hparse
    exact ⟨tokens, _, congrArg Lexed.tokens hlexed, rfl, hkinds, hdivides,
      Parser.program_sound tokens hdivides.wellWritten program hparse⟩
  · -- Without an end of the file there is no program.
    rw [hlexed, parse, if_neg] at hparse
    · cases hparse
    · intro hlast
      obtain ⟨last, hmem, hkind⟩ := Option.map_eq_some_iff.1 hlast
      exact hkinds last (List.mem_of_getLast? hmem) hkind

/-- The tokens of a program are well written, and all but the end of the file are in the text. -/
theorem exists_declarations {source : String} {program : List Stmt}
    (hparse : parse (lex source).tokens = .ok program) :
    ∃ tokens, Grammar.Declarations Grammar.Closed tokens program ∧
      Token.width tokens ≤ source.length := by
  obtain ⟨tokens, _, -, -, -, hdivides, hderived⟩ := exists_tokens hparse
  exact ⟨tokens, hderived, source.length_toList ▸ hdivides.width_le⟩

/-- The frame of a function is not longer than the text of the program. -/
theorem frame_le_source {source : String} {program : List Stmt}
    (hparse : parse (lex source).tokens = .ok program) :
    ∀ f ∈ functionDecls program, 4 * f.variables.length + 8 ≤ source.length := by
  obtain ⟨tokens, hderived, hwidth⟩ := exists_declarations hparse
  exact fun f hf ↦ Nat.le_trans (hderived.width_le f hf) hwidth

/-- The number of variables of a function does not depend on names. -/
theorem length_variables_unnamedAll (program : List Stmt) :
    ((functionDecls (Stmt.unnamedAll program)).map fun f ↦ f.variables.length) =
      (functionDecls program).map fun f ↦ f.variables.length := by
  induction program with
  | nil => rfl
  | cons stmt program ih =>
    cases stmt with
    | function span head parameters body =>
      have hfirst : (FunctionDecl.variables ⟨head.unnamed, parameters.map Declarator.unnamed,
          Stmt.unnamedAll body⟩).length = (parameters.map Declarator.name ++
            Stmt.variablesAll body).length := by
        simp only [FunctionDecl.variables, List.length_append, List.length_map,
          Stmt.length_variablesAll_unnamed]
      exact congrArg₂ List.cons hfirst ih
    | conditional span condition thenBranch elseBranch =>
      cases elseBranch <;> exact ih
    | _ => exact ih

/-- Flattening does not make frames longer. -/
theorem frame_le_source_flatten {source : String} {program : List Stmt}
    (hparse : parse (lex source).tokens = .ok program) (entry : String) :
    ∀ f ∈ functionDecls (Renaming.flatten entry program),
      4 * f.variables.length + 8 ≤ source.length := by
  intro f hf
  have hlengths : ((functionDecls (Renaming.flatten entry program)).map fun f ↦
      f.variables.length) = (functionDecls program).map fun f ↦ f.variables.length := by
    rw [← length_variables_unnamedAll, Renaming.unnamedAll_flatten, length_variables_unnamedAll]
  have hmem : f.variables.length ∈ (functionDecls program).map fun f ↦ f.variables.length :=
    hlengths ▸ List.mem_map_of_mem hf
  obtain ⟨g, hg, hlength⟩ := List.mem_map.1 hmem
  have hle := frame_le_source hparse g hg
  rwa [hlength] at hle

end ScalarMips
