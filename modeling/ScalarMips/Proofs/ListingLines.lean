import Mathlib.Data.List.Basic
import ScalarMips.Assembly.Instruction
import ScalarMips.Token.Lexer

/-!
# The lines of an assembly text

An assembly text can be taken apart again. If no line end stands inside a line of a listing, the
lines of its text are those of the listing (`lines_render`). If also none but its comments look like
remarks, its remarks are its comments, and without them the text is that of all other lines
(`remarks_render`, `withoutRemarks_render`).

A line is clear in this sense if the names on it are words (`IsWord`): a word has no blank, so it
neither ends a line nor looks like the indentation of a comment.
-/

namespace ScalarMips

/-! ### Lines and remarks of a text -/

namespace Listing

/-- The lines of a text. Behind the last line end stands an empty line. -/
def lines (text : String) : List String :=
  (text.toList.splitOn '\n').map String.ofList

/-- Whether a line starts like a comment: with four spaces, a hash and a space. -/
def isRemark (line : String) : Bool :=
  "    # ".toList.isPrefixOf line.toList

/-- The lines of a text that start like comments. -/
def remarks (text : String) : List String :=
  (lines text).filter isRemark

/-- A text from which the lines that start like comments are deleted. -/
def withoutRemarks (text : String) : String :=
  "\n".intercalate ((lines text).filter fun line ↦ !isRemark line)

theorem intercalate_concat_empty (texts : List String) :
    "\n".intercalate (texts ++ [""]) = String.join (texts.map (· ++ "\n")) := by
  induction texts with
  | nil => rfl
  | cons text texts ih =>
    have hne : texts ++ [""] ≠ [] := by simp
    rw [List.cons_append, String.intercalate_cons_of_ne_nil hne, ih, List.map_cons,
      String.join_cons]

theorem lines_join {texts : List String} (h : ∀ text ∈ texts, '\n' ∉ text.toList) :
    lines (String.join (texts.map (· ++ "\n"))) = texts ++ [""] := by
  have hlines : ∀ line ∈ (texts ++ [""]).map String.toList, '\n' ∉ line := by
    rw [List.map_append, List.forall_mem_append]
    exact ⟨List.forall_mem_map.2 h, by simp⟩
  rw [← intercalate_concat_empty, lines, String.toList_intercalate]
  have hsplit := List.splitOn_intercalate '\n' hlines (by simp)
  rw [show "\n".toList = ['\n'] from rfl, hsplit, List.map_map]
  simp [Function.comp_def]

end Listing

/-! ### Clear lines -/

/-- A line whose text is one line, and starts like a comment just if it is a comment. -/
structure Line.Clear (line : Line Mnemonic) : Prop where
  /-- No line end stands inside it. -/
  single : '\n' ∉ line.render.toList
  /-- It starts like a comment just if it is a comment. -/
  remark : Listing.isRemark line.render = line.isComment

namespace Listing

variable {listing : Listing}

theorem render_eq_join (listing : Listing) :
    listing.render = String.join ((listing.map Line.render).map (· ++ "\n")) := by
  rw [List.map_map]
  rfl

theorem lines_render (h : ∀ line ∈ listing, line.Clear) :
    lines listing.render = listing.map Line.render ++ [""] := by
  rw [render_eq_join, lines_join (List.forall_mem_map.2 fun line hline ↦ (h line hline).single)]

theorem filter_map_render (h : ∀ line ∈ listing, line.Clear) (p : Bool → Bool) :
    (listing.map Line.render).filter (fun text ↦ p (isRemark text)) =
      (listing.filter fun line ↦ p line.isComment).map Line.render := by
  rw [List.filter_map]
  refine congrArg _ (List.filter_congr fun line hline ↦ ?_)
  rw [Function.comp_apply, (h line hline).remark]

/-- The remarks of the text of a clear listing are its comments. -/
theorem remarks_render (h : ∀ line ∈ listing, line.Clear) :
    remarks listing.render = (listing.filter Line.isComment).map Line.render := by
  rw [remarks, lines_render h, List.filter_append]
  exact (congrArg (· ++ _) (filter_map_render h id)).trans (List.append_nil _)

/-- Without its remarks, the text of a clear listing is that of the lines that are no comments. -/
theorem withoutRemarks_render (h : ∀ line ∈ listing, line.Clear) :
    withoutRemarks listing.render =
      render (listing.filter fun line ↦ !line.isComment) := by
  rw [withoutRemarks, lines_render h, List.filter_append, filter_map_render h (!·),
    render_eq_join, ← intercalate_concat_empty]
  rfl

/-! ### Lines that are no remarks -/

theorem isPrefixOf_eq_false {c : Char} {lead chars : List Char} (h : chars.head? ≠ some c) :
    (c :: lead).isPrefixOf chars = false := by
  cases chars with
  | nil => rfl
  | cons d rest =>
    have hc : (c == d) = false := beq_false_of_ne fun heq ↦ h (heq ▸ rfl)
    rw [List.isPrefixOf_cons_cons, hc, Bool.false_and]

theorem isRemark_of_head? {text : String} (h : text.toList.head? ≠ some ' ') :
    isRemark text = false :=
  isPrefixOf_eq_false h

theorem isRemark_indented {text : String} (h : text.toList.head? ≠ some '#') :
    isRemark ("    " ++ text) = false := by
  rw [isRemark, String.toList_append]
  exact isPrefixOf_eq_false (c := '#') h

theorem isRemark_comment (text : String) : isRemark ("    # " ++ text) = true := by
  unfold isRemark
  rw [String.toList_append, List.isPrefixOf_iff_prefix]
  exact List.prefix_append _ _

end Listing

/-! ### Words -/

/-- A name that consists of letters, digits and underscores. -/
def IsWord (name : String) : Prop :=
  ∀ c ∈ name.toList, Lexer.isWordPart c

instance (name : String) : Decidable (IsWord name) :=
  List.decidableBAll (fun c ↦ Lexer.isWordPart c = true) name.toList

theorem IsWord.append {first second : String} (h : IsWord first) (h' : IsWord second) :
    IsWord (first ++ second) := by
  unfold IsWord at h h' ⊢
  rw [String.toList_append, List.forall_mem_append]
  exact ⟨h, h'⟩

theorem IsWord.notMem {name : String} (h : IsWord name) {c : Char} (hc : ¬ Lexer.isWordPart c) :
    c ∉ name.toList :=
  fun hmem ↦ hc (h c hmem)

theorem isWord_repr (n : Nat) : IsWord n.repr := by
  intro c hc
  rw [Nat.toList_repr] at hc
  have hdigit := Nat.isDigit_of_mem_toDigits (by decide) (by decide) hc
  simp [Lexer.isWordPart, Char.isAlphanum, hdigit]

theorem isWord_ofSize (n : UInt32) : IsWord (Numeral.ofSize n) :=
  isWord_repr n.toNat

/-! ### Operands -/

theorem lineEnd_notMem_ofSize (n : UInt32) : '\n' ∉ (Numeral.ofSize n).toList :=
  (isWord_ofSize n).notMem (by decide)

theorem lineEnd_notMem_ofWord (n : Int32) : '\n' ∉ (Numeral.ofWord n).toList := by
  unfold Numeral.ofWord
  cases n.toInt with
  | ofNat n => exact (isWord_repr n).notMem (by decide)
  | negSucc n =>
    have hdigits := (isWord_repr (n + 1)).notMem (c := '\n') (by decide)
    simpa [Int.repr] using hdigits

theorem lineEnd_notMem_register (r : Register) : '\n' ∉ r.name.toList := by
  cases r <;> decide

theorem lineEnd_notMem_address {address : Address}
    (h : ∀ name, address = .label name → IsWord name) :
    '\n' ∉ address.text.toList := by
  cases address with
  | above offset base =>
    simpa [Address.text] using ⟨lineEnd_notMem_ofSize offset, lineEnd_notMem_register base⟩
  | below offset base =>
    simpa [Address.text] using ⟨lineEnd_notMem_ofSize offset, lineEnd_notMem_register base⟩
  | label name => exact (h name rfl).notMem (by decide)

/-! ### The kinds of lines -/

theorem head?_opcode (i : Instruction) :
    '\n' ∉ i.mnemonic.opcode.toList ∧ i.mnemonic.opcode.toList.head? ≠ some '#' := by
  cases i with
  | compute op => cases op <;> simp [Instruction.mnemonic, RegisterOp.opcode]
  | immediate op => cases op <;> simp [Instruction.mnemonic, ImmediateOp.opcode]
  | _ => simp [Instruction.mnemonic]

theorem head?_append_of_isWord {name rest : String} (h : IsWord name)
    (hrest : rest.toList.head? ≠ some ' ') : (name ++ rest).toList.head? ≠ some ' ' := by
  have hname := h.notMem (c := ' ') (by decide)
  rw [String.toList_append, List.head?_append]
  cases hchars : name.toList with
  | nil => exact hrest
  | cons c chars =>
    rw [hchars] at hname
    intro hc
    exact hname (Option.some.inj hc ▸ List.mem_cons_self)

namespace Line

theorem clear_instruction {i : Instruction} (h : '\n' ∉ i.mnemonic.operands.toList) :
    Clear (.instruction i.mnemonic) := by
  obtain ⟨hsingle, hhead⟩ := head?_opcode i
  have hrest : (i.mnemonic.opcode ++ " " ++ i.mnemonic.operands).toList.head? ≠ some '#' := by
    rw [String.append_assoc, String.toList_append, List.head?_append]
    cases hchars : i.mnemonic.opcode.toList with
    | nil => simp
    | cons c chars => rwa [hchars] at hhead
  have hrender : render (.instruction i.mnemonic) =
      if i.mnemonic.operands.isEmpty then "    " ++ i.mnemonic.opcode
      else "    " ++ (i.mnemonic.opcode ++ " " ++ i.mnemonic.operands) := by
    rw [render]
    simp only [String.append_assoc]
  refine ⟨?_, ?_⟩
  · rw [hrender]
    split
    · simpa using hsingle
    · simpa using ⟨hsingle, h⟩
  · rw [hrender]
    split
    · exact Listing.isRemark_indented hhead
    · exact Listing.isRemark_indented hrest

theorem clear_label {name : String} (h : IsWord name) : Clear (.label name) where
  single := by
    have hname := h.notMem (c := '\n') (by decide)
    simpa [render] using hname
  remark := Listing.isRemark_of_head? (head?_append_of_isWord h (by decide))

theorem clear_word {name : String} (h : IsWord name) (value : Int32) :
    Clear (.word name value) where
  single := by
    have hname := h.notMem (c := '\n') (by decide)
    simpa [render] using ⟨hname, lineEnd_notMem_ofWord value⟩
  remark := by
    refine Listing.isRemark_of_head? ?_
    rw [render, String.append_assoc]
    exact head?_append_of_isWord h (by simp)

theorem clear_comment {text : String} (h : '\n' ∉ text.toList) : Clear (.comment text) where
  single := by simpa [render] using h
  remark := Listing.isRemark_comment text

theorem clear_directive {text : String} (h : '\n' ∉ text.toList)
    (hhead : text.toList.head? ≠ some ' ') : Clear (.directive text) where
  single := h
  remark := Listing.isRemark_of_head? hhead

theorem clear_blank : Clear .blank where
  single := by decide
  remark := by decide

end Line

/-! ### The text of code -/

namespace Code

variable {code : Code}

theorem filter_isComment_map (code : Code) (p : Bool → Bool) :
    (code.map fun line ↦ line.map Instruction.mnemonic).filter (fun line ↦ p line.isComment) =
      (code.filter fun line ↦ p line.isComment).map fun line ↦ line.map Instruction.mnemonic := by
  rw [List.filter_map]
  refine congrArg _ (List.filter_congr fun line _ ↦ ?_)
  cases line <;> rfl

theorem remarks_text (h : ∀ line ∈ code, (line.map Instruction.mnemonic).Clear) :
    Listing.remarks code.text =
      (code.filter Line.isComment).map fun line ↦ (line.map Instruction.mnemonic).render := by
  rw [text, Listing.remarks_render (List.forall_mem_map.2 h)]
  exact (congrArg _ (filter_isComment_map code id)).trans List.map_map

theorem withoutRemarks_text (h : ∀ line ∈ code, (line.map Instruction.mnemonic).Clear) :
    Listing.withoutRemarks code.text = text (code.filter fun line ↦ !line.isComment) := by
  rw [text, Listing.withoutRemarks_render (List.forall_mem_map.2 h), filter_isComment_map code (!·)]
  rfl

end Code

end ScalarMips
