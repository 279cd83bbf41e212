import RegisterCompiler.Proofs.Positions.Unplaced
import RegisterCompiler.Proofs.Printing.Words

/-!
# Lines of a printed program

A `Heading` is what one printed line says, apart from its indentation: an action, the beginning of a loop or a branch, the word before
an else-body, or the beginning of a procedure. A heading is read back from its words, but for positions (`Heading.read_words`), so
it is known from its text (`Heading.unplaced_eq_of_text`).
-/

namespace RegisterCompiler

/-- What a printed line says. -/
inductive Heading where
  | action (action : Action) (guard : Option Condition)
  | loop (condition guard : Option Condition)
  | branch (condition : Condition) (guard : Option Condition)
  | otherwise
  | procedure (name : String)

/-! ## The words of a line -/

/-- The words of a condition. -/
def Condition.words (c : Condition) : List Word := [.plain c.lhs.text, .plain c.comparison.symbol, .plain c.rhs.text]

/-- The words of a condition in brackets, which stand at its first and its last word. -/
def Condition.bracketed (c : Condition) : List Word :=
  [.plain ("(" ++ c.lhs.text), .plain c.comparison.symbol, .plain (c.rhs.text ++ ")")]

/-- The words of a guard. -/
def guardWords : Option Condition → List Word
  | none => []
  | some c => .plain "if" :: c.words

/-- The words of an action. -/
def Action.words : Action → List Word
  | assign dest source => [.plain dest.name, .plain "=", .plain source.text]
  | update dest op source => [.plain dest.name, .plain (op.symbol ++ "="), .plain source.text]
  | compute dest op lhs rhs => [.plain dest.name, .plain "=", .plain lhs.text, .plain op.symbol, .plain rhs.text]
  | breakLoop => [.plain "break"]
  | continueLoop => [.plain "continue"]
  | returnCall => [.plain "return"]
  | call procedure => [.plain "call", .plain procedure]
  | print source => [.plain "<<", .plain source.text]
  | printText text => [.plain "<<", .quoted text]
  | push r => [.plain "push", .plain r.name]
  | pop r => [.plain "pop", .plain r.name]

namespace Heading

/-- The text of a line. -/
def text : Heading → String
  | action a guard => a.text ++ guardText guard
  | loop condition guard => loopHeader condition ++ guardText guard
  | branch condition guard => "branch (" ++ condition.text ++ ")" ++ guardText guard
  | otherwise => "else"
  | procedure name => "PROCEDURE " ++ name

/-- The words of a line. -/
def words : Heading → List Word
  | action a guard => a.words ++ guardWords guard
  | loop none guard => .plain "loop" :: guardWords guard
  | loop (some condition) guard => .plain "loop" :: condition.bracketed ++ guardWords guard
  | branch condition guard => .plain "branch" :: condition.bracketed ++ guardWords guard
  | otherwise => [.plain "else"]
  | procedure name => [.plain "PROCEDURE", .plain name]

/-- A line without positions. -/
def unplaced : Heading → Heading
  | action a guard => action a.unplaced (guard.map Condition.unplaced)
  | loop condition guard => loop (condition.map Condition.unplaced) (guard.map Condition.unplaced)
  | branch condition guard => branch condition.unplaced (guard.map Condition.unplaced)
  | otherwise => otherwise
  | procedure name => procedure name

/-- The names on a line are words. -/
def Proper : Heading → Prop
  | action (.call name) _ => IsWordText name
  | procedure name => IsWordText name
  | _ => True

end Heading

/-- A guard is a space and its words. -/
theorem toList_guardText (guard : Option Condition) : (guardText guard).toList ++ [' '] = ' ' :: spaced (guardWords guard) := by
  cases guard with
  | none => rfl
  | some c => simp [guardText, guardWords, Condition.text, Condition.words, spaced, Word.chars]

/-- The text of an action is that of its words. -/
theorem Action.toList_text (a : Action) : a.text.toList ++ [' '] = spaced a.words := by
  cases a <;> simp [text, words, spaced, Word.chars]

/-- The text of a line is that of its words. -/
theorem Heading.toList_text (h : Heading) : h.text.toList ++ [' '] = spaced h.words := by
  cases h with
  | action a guard =>
    rw [text, words, String.toList_append, List.append_assoc, toList_guardText, spaced_append, ← a.toList_text]
    simp
  | loop condition guard =>
    rw [text, String.toList_append, List.append_assoc, toList_guardText]
    cases condition <;> simp [words, spaced, Word.chars, loopHeader, Condition.bracketed, Condition.text]
  | branch condition guard =>
    rw [text, String.toList_append, List.append_assoc, toList_guardText]
    simp [words, spaced, Word.chars, Condition.bracketed, Condition.text]
  | otherwise => rfl
  | procedure name => simp [text, words, spaced, Word.chars]

/-! ## Words of lines are words -/

/-- An operand prints as a plain word. -/
theorem Operand.plain_text (o : Operand) : Plain o.text := o.value.plain_text

/-- The operator of a comparison is a plain word. -/
theorem Comparison.plain_symbol (c : Comparison) : Plain c.symbol := by cases c <;> decide

/-- The operator of an operation is a plain word. -/
theorem Operation.plain_symbol (op : Operation) : Plain op.symbol := by cases op <;> decide

/-- The words of a condition are plain. -/
theorem Condition.proper_words (c : Condition) : ∀ w ∈ c.words, w.Proper := by
  simp only [words, List.forall_mem_cons, List.not_mem_nil, false_implies, implies_true, and_true]
  exact ⟨c.lhs.plain_text, c.comparison.plain_symbol, c.rhs.plain_text⟩

/-- The words of a condition in brackets are plain. -/
theorem Condition.proper_bracketed (c : Condition) : ∀ w ∈ c.bracketed, w.Proper := by
  simp only [bracketed, List.forall_mem_cons, List.not_mem_nil, false_implies, implies_true, and_true]
  exact ⟨.append (by decide) c.lhs.plain_text, c.comparison.plain_symbol, .append c.rhs.plain_text (by decide)⟩

/-- The words of a guard are plain. -/
theorem proper_guardWords (guard : Option Condition) : ∀ w ∈ guardWords guard, w.Proper := by
  cases guard with
  | none => exact List.forall_mem_nil _
  | some c => exact List.forall_mem_cons.2 ⟨show Plain "if" by decide, c.proper_words⟩

/-- The words of an action are proper if it calls by a word. -/
theorem Action.proper_words (a : Action) (hname : ∀ name, a = .call name → IsWordText name) : ∀ w ∈ a.words, w.Proper := by
  cases a <;> simp only [words, List.forall_mem_cons, List.not_mem_nil, false_implies, implies_true, and_true]
  case assign dest source => exact ⟨dest.plain_name, show Plain "=" by decide, source.plain_text⟩
  case update dest op source => exact ⟨dest.plain_name, op.plain_symbol.append (by decide), source.plain_text⟩
  case compute dest op lhs rhs =>
    exact ⟨dest.plain_name, show Plain "=" by decide, lhs.plain_text, op.plain_symbol, rhs.plain_text⟩
  case breakLoop => exact show Plain "break" by decide
  case continueLoop => exact show Plain "continue" by decide
  case returnCall => exact show Plain "return" by decide
  case call name => exact ⟨show Plain "call" by decide, plain_of_isWordText (hname name rfl)⟩
  case print source => exact ⟨show Plain "<<" by decide, source.plain_text⟩
  case printText text => exact ⟨show Plain "<<" by decide, trivial⟩
  case push r => exact ⟨show Plain "push" by decide, r.plain_name⟩
  case pop r => exact ⟨show Plain "pop" by decide, r.plain_name⟩

/-! ## Lines read back -/

/-- The operand that a word writes. -/
def Operand.ofText (word : String) : Operand := ⟨Value.ofText word, .unknown⟩

/-- An operand is read back from its text, but for its position. -/
@[simp] theorem Operand.ofText_text (o : Operand) : ofText o.text = o.unplaced := by
  rw [ofText, text, Value.ofText_text]
  rfl

/-- The comparison with an operator. -/
def Comparison.ofSymbol? (word : String) : Option Comparison := all.find? fun c => c.symbol == word

/-- A comparison is read back from its operator. -/
@[simp] theorem Comparison.ofSymbol?_symbol (c : Comparison) : ofSymbol? c.symbol = some c := by cases c <;> decide

/-- The operation with an operator. -/
def Operation.ofSymbol? (word : String) : Option Operation := all.find? fun op => op.symbol == word

/-- An operation is read back from its operator. -/
@[simp] theorem Operation.ofSymbol?_symbol (op : Operation) : ofSymbol? op.symbol = some op := by cases op <;> decide

/-- The operation with an operator that updates a register. -/
def Operation.ofUpdate? (word : String) : Option Operation := all.find? fun op => op.symbol ++ "=" == word

/-- An operation is read back from the operator that updates by it. -/
@[simp] theorem Operation.ofUpdate?_update (op : Operation) : ofUpdate? (op.symbol ++ "=") = some op := by cases op <;> decide

/-- The condition that three words write. -/
def Condition.read (lhs comparison rhs : String) : Option Condition :=
  (Comparison.ofSymbol? comparison).map fun comparison => ⟨.ofText lhs, comparison, .ofText rhs, .unknown⟩

/-- A condition is read back from its three words, but for positions. -/
@[simp] theorem Condition.read_text (c : Condition) : read c.lhs.text c.comparison.symbol c.rhs.text = some c.unplaced := by
  simp [read, unplaced]

/-- The guard at the end of a line. -/
def readGuard : List Word → Option (Option Condition)
  | [] => some none
  | [.plain "if", .plain lhs, .plain comparison, .plain rhs] => (Condition.read lhs comparison rhs).map some
  | _ => none

/-- A guard is read back from its words, but for positions. -/
@[simp] theorem readGuard_guardWords (guard : Option Condition) :
    readGuard (guardWords guard) = some (guard.map Condition.unplaced) := by
  cases guard <;> simp [guardWords, Condition.words, readGuard]

/-- The condition in brackets at the beginning of words, and the words behind it. -/
def readBracketed : List Word → Option (Condition × List Word)
  | .plain first :: .plain comparison :: .plain last :: rest =>
    match first.toList with
    | '(' :: lhs => (Condition.read (String.ofList lhs) comparison (String.ofList last.toList.dropLast)).map fun c => (c, rest)
    | _ => none
  | _ => none

/-- A condition in brackets is read back from its words, and what follows them is left. -/
@[simp] theorem readBracketed_bracketed (c : Condition) (rest : List Word) :
    readBracketed (c.bracketed ++ rest) = some (c.unplaced, rest) := by
  simp [Condition.bracketed, readBracketed]

/-- A guard is no condition in brackets. -/
@[simp] theorem readBracketed_guardWords (guard : Option Condition) : readBracketed (guardWords guard) = none := by
  cases guard <;> simp [guardWords, Condition.words, readBracketed]

namespace Heading

/-- The line that begins with a register. -/
def readAssignment (dest : Register) : List Word → Option Heading
  | .plain sign :: .plain source :: rest =>
    let assign := (readGuard rest).map (action (.assign dest (.ofText source)))
    match Operation.ofUpdate? sign with
    | some op => (readGuard rest).map (action (.update dest op (.ofText source)))
    | none =>
      match rest with
      | .plain op :: .plain rhs :: rest =>
        match Operation.ofSymbol? op with
        | some op => (readGuard rest).map (action (.compute dest op (.ofText source) (.ofText rhs)))
        | none => assign
      | _ => assign
  | _ => none

/-- The line that begins with a word of its own. -/
def readKeyword : String → List Word → Option Heading
  | "break", rest => (readGuard rest).map (action .breakLoop)
  | "continue", rest => (readGuard rest).map (action .continueLoop)
  | "return", rest => (readGuard rest).map (action .returnCall)
  | "call", .plain name :: rest => (readGuard rest).map (action (.call name))
  | "<<", .plain source :: rest => (readGuard rest).map (action (.print (.ofText source)))
  | "<<", .quoted text :: rest => (readGuard rest).map (action (.printText text))
  | "push", .plain r :: rest => (Register.ofName? r).bind fun r => (readGuard rest).map (action (.push r))
  | "pop", .plain r :: rest => (Register.ofName? r).bind fun r => (readGuard rest).map (action (.pop r))
  | "loop", rest =>
    match readBracketed rest with
    | some (condition, rest) => (readGuard rest).map (loop (some condition))
    | none => (readGuard rest).map (loop none)
  | "branch", rest => (readBracketed rest).bind fun (condition, rest) => (readGuard rest).map (branch condition)
  | "else", [] => some otherwise
  | "PROCEDURE", [.plain name] => some (procedure name)
  | _, _ => none

/-- The line with the given words, without positions. -/
def read : List Word → Option Heading
  | .plain first :: rest =>
    match Register.ofName? first with
    | some dest => readAssignment dest rest
    | none => readKeyword first rest
  | _ => none

/-- A line that begins with the name of a register is an assignment. -/
theorem read_register (dest : Register) (rest : List Word) : read (.plain dest.name :: rest) = readAssignment dest rest := by
  simp only [read, Register.ofName?_name]

/-- A line that begins with another word is what that word says. -/
theorem read_keyword {first : String} (h : Register.ofName? first = none) (rest : List Word) :
    read (.plain first :: rest) = readKeyword first rest := by
  simp only [read, h]

/-- An action with its guard is read back from its words, but for positions. -/
theorem read_action (a : Action) (guard : Option Condition) : read (a.words ++ guardWords guard) =
    some (action a.unplaced (guard.map Condition.unplaced)) := by
  cases a with
  | assign dest source =>
    -- the guard behind the operand is no operation on it
    have hsign : Operation.ofUpdate? "=" = none := by decide
    have hif : Operation.ofSymbol? "if" = none := by decide
    rw [Action.words, List.cons_append, read_register]
    cases guard <;> simp [readAssignment, hsign, hif, guardWords, Condition.words, readGuard, Action.unplaced]
  | update dest op source =>
    rw [Action.words, List.cons_append, read_register]
    simp [readAssignment, Action.unplaced]
  | compute dest op lhs rhs =>
    have hsign : Operation.ofUpdate? "=" = none := by decide
    rw [Action.words, List.cons_append, read_register]
    simp [readAssignment, hsign, Action.unplaced]
  | _ =>
    rw [Action.words, List.cons_append, read_keyword (by decide)]
    simp [readKeyword, Action.unplaced, Register.ofName?_name]

/-- A line is read back from its words, but for positions. -/
theorem read_words (h : Heading) : read h.words = some h.unplaced := by
  cases h with
  | action a guard => exact read_action a guard
  | loop condition guard =>
    cases condition with
    | none =>
      rw [words, read_keyword (by decide)]
      simp [readKeyword, unplaced]
    | some condition =>
      rw [words, List.cons_append, read_keyword (by decide)]
      simp [readKeyword, unplaced]
  | branch condition guard =>
    rw [words, List.cons_append, read_keyword (by decide)]
    simp [readKeyword, unplaced]
  | otherwise => rfl
  | procedure name => rfl

/-! ## Lines known from their texts -/

/-- The words of a line are proper if its names are words. -/
theorem proper_words {h : Heading} (hproper : h.Proper) : ∀ w ∈ h.words, w.Proper := by
  cases h with
  | action a guard =>
    refine List.forall_mem_append.2 ⟨a.proper_words ?_, proper_guardWords guard⟩
    rintro name rfl
    exact hproper
  | loop condition guard =>
    cases condition with
    | none => exact List.forall_mem_cons.2 ⟨show Plain "loop" by decide, proper_guardWords guard⟩
    | some c =>
      refine List.forall_mem_cons.2 ⟨show Plain "loop" by decide, ?_⟩
      exact List.forall_mem_append.2 ⟨c.proper_bracketed, proper_guardWords guard⟩
  | branch condition guard =>
    refine List.forall_mem_cons.2 ⟨show Plain "branch" by decide, ?_⟩
    exact List.forall_mem_append.2 ⟨condition.proper_bracketed, proper_guardWords guard⟩
  | otherwise => exact List.forall_mem_singleton.2 (show Plain "else" by decide)
  | procedure name =>
    refine List.forall_mem_cons.2 ⟨show Plain "PROCEDURE" by decide, List.forall_mem_singleton.2 ?_⟩
    exact plain_of_isWordText hproper

/-- A line is known from its text, but for positions. -/
theorem unplaced_eq_of_text {h h' : Heading} (hproper : h.Proper) (hproper' : h'.Proper) (htext : h.text = h'.text) :
    h.unplaced = h'.unplaced := by
  have hspaced : spaced h.words = spaced h'.words := by rw [← h.toList_text, htext, h'.toList_text]
  have hwords := spaced_injective (proper_words hproper) (proper_words hproper') hspaced
  exact Option.some.inj (by rw [← read_words, hwords, read_words])

/-- No line feed stands inside a printed line. -/
theorem newline_notMem_text {h : Heading} (hproper : h.Proper) : '\n' ∉ h.text.toList := by
  have hspaced := newline_notMem_spaced (proper_words hproper)
  rw [← h.toList_text, List.mem_append, not_or] at hspaced
  exact hspaced.1

/-- The first word of a line is a plain one, and not empty. -/
theorem exists_words_cons (h : Heading) : ∃ first rest, h.words = .plain first :: rest ∧ first ≠ "" ∧ Plain first := by
  have hname (r : Register) : r.name ≠ "" ∧ Plain r.name := ⟨by cases r <;> decide, r.plain_name⟩
  cases h with
  | action a guard =>
    cases a with
    | assign dest source => exact ⟨_, _, rfl, hname dest⟩
    | update dest op source => exact ⟨_, _, rfl, hname dest⟩
    | compute dest op lhs rhs => exact ⟨_, _, rfl, hname dest⟩
    | _ => exact ⟨_, _, rfl, by decide⟩
  | loop condition guard => cases condition <;> exact ⟨_, _, rfl, by decide⟩
  | _ => exact ⟨_, _, rfl, by decide⟩

/-- A line does not begin with a space. -/
theorem exists_text_cons (h : Heading) : ∃ c rest, h.text.toList = c :: rest ∧ c ≠ ' ' := by
  obtain ⟨first, rest, hwords, hne, hplain⟩ := h.exists_words_cons
  have htext := h.toList_text
  obtain ⟨c, cs, hfirst⟩ := List.exists_cons_of_ne_nil fun hnil => hne (String.toList_inj.1 hnil)
  have hc : c ≠ ' ' := (hplain c (hfirst ▸ List.mem_cons_self)).1
  rw [hwords, spaced_cons, Word.chars, hfirst] at htext
  cases hchars : h.text.toList with
  | nil =>
    rw [hchars] at htext
    exact absurd (List.head_eq_of_cons_eq htext).symm hc
  | cons d ds =>
    rw [hchars] at htext
    obtain rfl : d = c := List.head_eq_of_cons_eq htext
    exact ⟨d, ds, rfl, hc⟩

end Heading

end RegisterCompiler
