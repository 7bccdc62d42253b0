import ScalarMips.Check.Names
import ScalarMips.Proofs.ArenaRefinement
import ScalarMips.Proofs.EditDistance

/-!
# Suggestions

The message about a name that is not declared suggests the best name that would have been possible
there, if it is near enough, and no other (`undeclared_suggests`).

`Spelling.suggest` is told a list of names and takes the leftmost of the nearest ones, so it has to
be known what is on that list and in which order. A name is on it exactly if its innermost binding
has the kind that is asked for (`Scopes.mem_visibleNames`), and the names stand in the order in
which they were first bound, from the outermost scope inwards (`Scopes.idxOf_visibleNames_le_iff`).
That the nearest name is chosen before it is asked how near it is does no harm: if any name is near
enough, the nearest one is.

How near a name is, is said by the edits that lead to it when capital and small letters are the same
(`Spelling.IsCaselessDistance`). That there is always a least number of them, and that this is the
number by which names are compared, is what the edit distance was shown to be.
-/

namespace ScalarMips

namespace Spelling

/-! ### Distances without case -/

/-- The least number of letters that have to be inserted, deleted or replaced to turn one word into
another, if capital letters are as good as small ones. -/
def IsCaselessDistance (n : ℕ) (first second : String) : Prop :=
  IsLeast {k | Edits k (first.toList.map Char.toLower) (second.toList.map Char.toLower)} n

theorem isCaselessDistance_looseDistance (first second : String) :
    IsCaselessDistance (looseDistance first second) first second := by
  have hdistance := isDistance_editDistance (first.map Char.toLower) (second.map Char.toLower)
  rwa [String.toList_map, String.toList_map] at hdistance

theorem isCaselessDistance_iff {n : ℕ} {first second : String} :
    IsCaselessDistance n first second ↔ looseDistance first second = n := by
  constructor
  · exact (isCaselessDistance_looseDistance first second).unique
  · rintro rfl
    exact isCaselessDistance_looseDistance first second

/-! ### The leftmost minimum -/

/-- The leftmost of the best words, found from the left or from the right. -/
theorem minOn?_eq_argmin {α : Type} (f : α → Nat) (words : List α) :
    words.minOn? f = words.argmin f := by
  induction words with
  | nil => rfl
  | cons word words ih =>
    rw [List.minOn?_cons, List.argmin_cons, ih]
    cases words.argmin f with
    | none => rfl
    | some best =>
      show some (if f word ≤ f best then word else best) = if f best < f word then _ else _
      by_cases hle : f word ≤ f best
      · rw [if_pos hle, if_neg (Nat.not_lt.2 hle)]
      · rw [if_neg hle, if_pos (Nat.lt_of_not_le hle)]

theorem suggest_eq_some_iff {word w : String} {vocabulary : List String} :
    suggest word vocabulary = some w ↔
      (w ∈ vocabulary ∧ (∀ v ∈ vocabulary, looseDistance word w ≤ looseDistance word v) ∧
        ∀ v ∈ vocabulary, looseDistance word v ≤ looseDistance word w →
          vocabulary.idxOf w ≤ vocabulary.idxOf v) ∧
      looseDistance word w ≤ tolerance word := by
  rw [suggest, Option.filter_eq_some_iff, minOn?_eq_argmin, List.argmin_eq_some_iff,
    decide_eq_true_iff]

/-- Something is suggested as soon as one word is near enough. -/
theorem isSome_suggest_iff {word : String} {vocabulary : List String} :
    (suggest word vocabulary).isSome ↔
      ∃ v ∈ vocabulary, looseDistance word v ≤ tolerance word := by
  constructor
  · intro h
    obtain ⟨w, hw⟩ := Option.isSome_iff_exists.1 h
    obtain ⟨⟨hmem, -⟩, hnear⟩ := suggest_eq_some_iff.1 hw
    exact ⟨w, hmem, hnear⟩
  · rintro ⟨v, hmem, hnear⟩
    have hbest : vocabulary.argmin (looseDistance word) ≠ none := fun h ↦
      List.ne_nil_of_mem hmem (List.argmin_eq_none.1 h)
    obtain ⟨w, hw⟩ := Option.ne_none_iff_exists'.1 hbest
    have hleast := List.argmin_eq_some_iff.1 hw
    exact Option.isSome_iff_exists.2
      ⟨w, suggest_eq_some_iff.2 ⟨hleast, Nat.le_trans (hleast.2.1 v hmem) hnear⟩⟩

end Spelling

/-! ### Names on the list -/

/-- Strictly increasing keys put the members of a list in the order of their positions. -/
theorem idxOf_le_idxOf_iff_of_pairwise {names : List String} {key : String → Nat}
    (hkey : names.Pairwise fun x y ↦ key x < key y) {x y : String} (hx : x ∈ names)
    (hy : y ∈ names) : names.idxOf x ≤ names.idxOf y ↔ key x ≤ key y := by
  have hmono : ∀ {a b : String}, a ∈ names → b ∈ names → names.idxOf a < names.idxOf b →
      key a < key b := by
    intro a b ha hb hlt
    have h := List.pairwise_iff_getElem.1 hkey _ _ (List.idxOf_lt_length_of_mem ha)
      (List.idxOf_lt_length_of_mem hb) hlt
    rwa [List.getElem_idxOf, List.getElem_idxOf] at h
  constructor
  · intro hle
    obtain hlt | heq := Nat.lt_or_eq_of_le hle
    · exact Nat.le_of_lt (hmono hx hy hlt)
    · rw [(List.idxOf_inj hx).1 heq]
  · intro hle
    by_contra hlt
    exact Nat.not_lt.2 hle (hmono hy hx (Nat.lt_of_not_le hlt))

namespace Scopes

variable {s : Scopes} {kind : IdentifierKind} {v w : String}

/-- A name stands for something of a kind. -/
def Shows (s : Scopes) (kind : IdentifierKind) (name : String) : Prop :=
  ∃ i, s.lookup name = some i ∧ i.kind = kind

theorem hasKind_iff : s.hasKind (some kind) v ↔ s.Shows kind v := by
  rw [hasKind, decide_eq_true_iff, Option.map_eq_some_iff]
  rfl

theorem mem_visibleNames : v ∈ s.visibleNames (some kind) ↔ s.Shows kind v := by
  rw [visibleNames, List.mem_eraseDups, List.mem_filter, hasKind_iff]
  refine and_iff_right_of_imp fun ⟨i, hi, _⟩ ↦ ?_
  exact (s.mem_declared_iff v).2 (Option.isSome_of_eq_some hi)

theorem idxOf_visibleNames_le_iff (hw : s.Shows kind w) (hv : s.Shows kind v) :
    (s.visibleNames (some kind)).idxOf w ≤ (s.visibleNames (some kind)).idxOf v ↔
      s.declared.idxOf w ≤ s.declared.idxOf v :=
  idxOf_le_idxOf_iff_of_pairwise (Arena.pairwise_eraseDups s.declared (s.hasKind (some kind)))
    (mem_visibleNames.2 hw) (mem_visibleNames.2 hv)

/-- A name is the one to be suggested where a name of some kind was looked for, and this is how far
it is from that. -/
structure Suggests (s : Scopes) (kind : IdentifierKind) (name w : String) (n : ℕ) : Prop where
  /-- It would have been possible there. -/
  shows : s.Shows kind w
  /-- It has the distance, whatever letters are capital. -/
  distance : Spelling.IsCaselessDistance n name w
  /-- It is near enough. -/
  near : n ≤ max 1 (name.length / 2)
  /-- No other possible name is nearer. -/
  nearest : ∀ v k, s.Shows kind v → Spelling.IsCaselessDistance k name v → n ≤ k
  /-- Those that are as near were bound later or further inside. -/
  earliest : ∀ v, s.Shows kind v → Spelling.IsCaselessDistance n name v →
    s.declared.idxOf w ≤ s.declared.idxOf v

theorem suggest_visibleNames_iff {name : String} :
    Spelling.suggest name (s.visibleNames (some kind)) = some w ↔
      ∃ n, s.Suggests kind name w n := by
  rw [Spelling.suggest_eq_some_iff]
  simp only [mem_visibleNames]
  constructor
  · rintro ⟨⟨hshows, hnearest, hearliest⟩, hnear⟩
    refine ⟨_, hshows, Spelling.isCaselessDistance_looseDistance name w, hnear, ?_, ?_⟩
    · intro v k hv hk
      rw [← Spelling.isCaselessDistance_iff.1 hk]
      exact hnearest v hv
    · intro v hv hk
      have hle := Nat.le_of_eq (Spelling.isCaselessDistance_iff.1 hk)
      exact (idxOf_visibleNames_le_iff hshows hv).1 (hearliest v hv hle)
  · rintro ⟨n, hshows, hdistance, hnear, hnearest, hearliest⟩
    have hleast : ∀ v, s.Shows kind v → n ≤ Spelling.looseDistance name v := fun v hv ↦
      hnearest v _ hv (Spelling.isCaselessDistance_looseDistance name v)
    rw [Spelling.isCaselessDistance_iff.1 hdistance]
    refine ⟨⟨hshows, hleast, fun v hv hle ↦ ?_⟩, hnear⟩
    have hsame := Nat.le_antisymm hle (hleast v hv)
    exact (idxOf_visibleNames_le_iff hshows hv).2
      (hearliest v hv (Spelling.isCaselessDistance_iff.2 hsame))

end Scopes

/-! ### The message -/

namespace Names

/-- The message about an undeclared name that suggests no other one. -/
def plain (kind : IdentifierKind) (name : String) : String :=
  kind.noun ++ " '" ++ name ++ "' was used but never declared."

/-- The message about an undeclared name that suggests another one. -/
def suggesting (kind : IdentifierKind) (name w : String) : String :=
  kind.noun ++ " '" ++ name ++ "' was used but never declared. Did you mean '" ++ w ++ "'?"

theorem message_undeclared (s : Scopes) (kind : IdentifierKind) (name : String) :
    (undeclared s kind name).message =
      (Spelling.suggest name (s.visibleNames (some kind))).elim (plain kind name)
        (suggesting kind name) := by
  rw [undeclared]
  cases Spelling.suggest name (s.visibleNames (some kind)) <;> rfl

theorem message_eq_suggesting_iff {s : Scopes} {kind : IdentifierKind} {name w : String} :
    (undeclared s kind name).message = suggesting kind name w ↔
      Spelling.suggest name (s.visibleNames (some kind)) = some w := by
  rw [message_undeclared]
  cases Spelling.suggest name (s.visibleNames (some kind)) with
  | none =>
    -- One message ends where the other goes on.
    refine iff_of_false (fun h ↦ ?_) (Option.some_ne_none w).symm
    have hlength := congrArg String.length h
    simp only [Option.elim_none, plain, suggesting, String.length_append] at hlength
    have hshort : "' was used but never declared.".length = 30 := by decide +kernel
    have hlong : "' was used but never declared. Did you mean '".length = 45 := by decide +kernel
    omega
  | some best =>
    rw [Option.elim_some, suggesting, suggesting, String.append_left_inj, String.append_right_inj,
      Option.some.injEq]

/-- **Suggestions are best and usable.** Reading a variable, assigning to one and calling a function
all complain about a name that is not declared, and the message suggests a name if and only if some
name of the kind that is looked for is near enough; it is then the nearest of those, and of equally
near ones the first one that was bound. The case of letters makes no difference to how near a name
is. -/
theorem undeclared_suggests (s : State) (name : String) (h : s.scopes.lookup name = none) :
    readIssue s.scopes name = some (undeclared s.scopes .var name) ∧
      assignIssue s.scopes name = some (undeclared s.scopes .var name) ∧
      callIssue s.scopes name = some (undeclared s.scopes .fn name) ∧
      ∀ kind : IdentifierKind,
        ((∃ w, (undeclared s.scopes kind name).message = suggesting kind name w) ↔
          ∃ v n, s.scopes.Shows kind v ∧ Spelling.IsCaselessDistance n name v ∧
            n ≤ max 1 (name.length / 2)) ∧
        (∀ w, (undeclared s.scopes kind name).message = suggesting kind name w ↔
          ∃ n, s.scopes.Suggests kind name w n) ∧
        ((¬ ∃ w, (undeclared s.scopes kind name).message = suggesting kind name w) →
          (undeclared s.scopes kind name).message = plain kind name) := by
  refine ⟨?_, ?_, ?_, fun kind ↦ ⟨?_, fun w ↦ ?_, fun hnone ↦ ?_⟩⟩
  · rw [readIssue, h]
  · rw [assignIssue, h]
  · rw [callIssue, h]
  · simp only [message_eq_suggesting_iff, ← Option.isSome_iff_exists, Spelling.isSome_suggest_iff,
      Scopes.mem_visibleNames, Spelling.tolerance, Spelling.isCaselessDistance_iff, exists_and_left,
      exists_eq_left']
  · rw [message_eq_suggesting_iff, Scopes.suggest_visibleNames_iff]
  · simp only [message_eq_suggesting_iff, ← Option.isSome_iff_exists,
      Option.not_isSome_iff_eq_none] at hnone
    rw [message_undeclared, hnone, Option.elim_none]

end Names

/-- The scopes in a function in which a variable `court` is declared. Outside of it there are two
variables, of which one is a long word, and a function. -/
def Sample.rhyming : Scopes :=
  ⟨{ bindings := [("court", { initialized := true })] },
    [{ bindings := [("discount", { initialized := true }), ("Mount", { initialized := true }),
      ("count", { kind := .fn })] }]⟩

namespace Names

/-- But for the case of its letters, `COUNT` is the name of the function, which is of the wrong
kind. The long word is too far away. One edit leads to each of the other two, of which `Mount` was
bound first. -/
theorem undeclared_suggests_caseless :
    Sample.rhyming.lookup "COUNT" = none ∧ Sample.rhyming.Suggests .var "COUNT" "Mount" 1 := by
  have hnone : Sample.rhyming.lookup "COUNT" = none := by decide +kernel
  have hmessage : (undeclared Sample.rhyming .var "COUNT").message =
      suggesting .var "COUNT" "Mount" := by
    decide +kernel
  obtain ⟨-, -, -, hkinds⟩ := undeclared_suggests ⟨Sample.rhyming, []⟩ "COUNT" hnone
  obtain ⟨-, hbest, -⟩ := hkinds .var
  obtain ⟨n, hsuggests⟩ := (hbest "Mount").1 hmessage
  obtain rfl : 1 = n := by
    rw [← Spelling.isCaselessDistance_iff.1 hsuggests.distance]
    decide +kernel
  exact ⟨hnone, hsuggests⟩

end Names

end ScalarMips
