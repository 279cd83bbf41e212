import Mathlib
import RegisterCompiler.Proofs.Lexing.Located
import RegisterCompiler.Proofs.Parsing.Lookahead

/-!
# Parsing while reading

The parser may be given the tokens of a source one by one, malformed ones included, or a list of them that was checked before.
An accepted source makes no difference. In front of the first malformed token the parser knows the tokens before it, and these
settle what comes of it (`parse_of_tokenize`): another fault, whatever follows; the fault of the malformed token; or, if they
end in a minus, that no number follows it. The last of these is no lexical error, and is not forced by the tokens before either
(`not_lexicalErrorsKept_masked`).
-/

namespace RegisterCompiler

/-- A token is not malformed. -/
def Token.wellFormed (t : Token) : Bool :=
  match t.kind with
  | .malformed _ => false
  | _ => true

/-- The tokens in front of the first malformed one. -/
def beforeFault (tokens : List Token) : List Token := tokens.takeWhile Token.wellFormed

/-- What is accepted are the tokens themselves. -/
theorem eq_of_wellFormedTokens {tokens accepted : List Token} (h : wellFormedTokens tokens = .ok accepted) :
    accepted = tokens := by
  induction tokens generalizing accepted with
  | nil => exact (Except.ok.inj h).symm
  | cons t rest ih =>
    obtain ⟨-, tail, htail, rfl⟩ := exists_of_wellFormedTokens_cons h
    rw [ih htail]

/-- What is rejected, is rejected for the first malformed token. -/
theorem exists_of_wellFormedTokens_error {tokens : List Token} {e : LexError} (h : wellFormedTokens tokens = .error e) :
    ∃ bad behind, tokens = beforeFault tokens ++ bad :: behind ∧ bad.kind = .malformed e.fault ∧
      bad.span.start = e.position := by
  induction tokens with
  | nil => cases h
  | cons t rest ih =>
    rw [wellFormedTokens] at h
    split at h
    · rename_i fault hkind
      obtain rfl := Except.error.inj h
      exact ⟨t, rest, by simp [beforeFault, Token.wellFormed, hkind], hkind, rfl⟩
    · rename_i hkind
      have ht : t.wellFormed = true := by
        rw [Token.wellFormed]
        split
        · exact absurd ‹_› (hkind _)
        · rfl
      have hrest : wellFormedTokens rest = .error e := by
        cases hw : wellFormedTokens rest with
        | error e' =>
          rw [hw] at h
          exact congrArg Except.error (Except.error.inj h)
        | ok tail =>
          rw [hw] at h
          cases h
      obtain ⟨bad, behind, htokens, hbad⟩ := ih hrest
      refine ⟨bad, behind, ?_, hbad⟩
      rw [beforeFault, List.takeWhile_cons_of_pos ht, List.cons_append]
      exact congrArg (t :: ·) htokens

/-- In front of a malformed token the input has not ended. -/
theorem inside_before_malformed {before behind : List Token} {bad : Token} {fault : LexFault} {source : List UInt8}
    (h : (Lexer.ofBytes source).tokens = before ++ bad :: behind) (hbad : bad.kind = .malformed fault) :
    Grammar.Inside before := by
  obtain ⟨front, hfront, hinside⟩ := (Lexer.spread .origin source).ended_at
  rw [← Lexer.ofBytes, h] at hfront
  rcases List.append_eq_append_iff.1 hfront with ⟨more, rfl, -⟩ | ⟨more, -, hlast⟩
  · exact ((Grammar.inside_append _ _).1 hinside).1
  · -- the last token is the end of the input, so it is not the malformed one
    rcases more with _ | ⟨t, more⟩
    · obtain rfl := (List.cons.inj hlast).1
      cases hbad
    · simp at hlast

/-- How the parser comes to fail on a source of which the tokens before a lexical error are known. -/
inductive Faulted (before : List Token) (e : LexError) : ParseError → Prop
  /-- The malformed token speaks for itself. -/
  | lexical : Faulted before e ⟨.lexical e.fault, e.position⟩
  /-- Whatever follows the tokens, they are rejected. -/
  | forced {p : ParseError} : (∀ more, parseTokens (before ++ more) = .error p) → Faulted before e p
  /-- The last token is a minus, and whatever follows it is rejected, but a number. -/
  | masked {minus : Token} : minus.kind = .symbol (.operation .sub) → [minus] <:+ before →
      (∀ more, (∀ n, (Stream.ofTokens more).kind ≠ .integer n) →
        parseTokens (before ++ more) = .error ⟨.numberAfterMinus, minus.span.start⟩) →
      Faulted before e ⟨.numberAfterMinus, minus.span.start⟩

/-- How the parser reads a source as it is lexed. -/
structure Streamed (source : List UInt8) : Prop where
  /-- It reads an accepted source as its list of tokens. -/
  accepted : ∀ tokens, tokenize source = .ok tokens → parseTokens (Lexer.ofBytes source).tokens = parseTokens tokens
  /-- It rejects any other source, for what the tokens before the lexical error settle. -/
  rejected : ∀ e, tokenize source = .error e → ∃ p, parseTokens (Lexer.ofBytes source).tokens = .error p ∧
    Faulted (beforeFault (Lexer.ofBytes source).tokens) e p

/-- The parser reads every source as it is lexed like its list of tokens, and fails where there is none. -/
theorem parse_of_tokenize (source : List UInt8) : Streamed source := by
  refine ⟨fun tokens h => by rw [eq_of_wellFormedTokens h], fun e h => ?_⟩
  obtain ⟨⟨kind, span, lexeme⟩, behind, htokens, hkind, hposition⟩ := exists_of_wellFormedTokens_error h
  obtain rfl : kind = .malformed e.fault := hkind
  obtain ⟨fault, position⟩ := e
  obtain rfl : span.start = position := hposition
  have hinside := inside_before_malformed htokens rfl
  generalize beforeFault (Lexer.ofBytes source).tokens = before at htokens hinside ⊢
  rw [htokens]
  rcases Stream.settled_procedures (Stream.ofTokens before) hinside .empty with ⟨-, -, hmalformed⟩ | hfails
  · exact ⟨_, hmalformed fault span lexeme behind, .lexical⟩
  · cases hfails with
    | refused p _ h => exact ⟨p, h _, .forced h⟩
    | stopped _ h => exact ⟨_, h _ (.malformed fault span lexeme behind), .lexical⟩
    | masked minus hminus hlast h => exact ⟨_, h _ nofun, .masked hminus hlast h⟩

/-- A source as it is lexed is rejected for its lexical error, unless the tokens before that force another fault. -/
def LexicalErrorsKept (source : List UInt8) : Prop :=
  (∀ tokens, tokenize source = .ok tokens → parseTokens (Lexer.ofBytes source).tokens = parseTokens tokens) ∧
  ∀ e, tokenize source = .error e → ∃ p, parseTokens (Lexer.ofBytes source).tokens = .error p ∧
    (p.fault.message = e.fault.message ∧ p.position = e.position ∨
      ∀ more, parseTokens (beforeFault (Lexer.ofBytes source).tokens ++ more) = .error p)

/-- A malformed token behind a minus. -/
def maskedSource : String := "proc main \x7b rax = -$; \x7d"

/-- The tokens of the statement in front of the malformed one. -/
def maskedStatement : List Token :=
  [⟨.register .rax, ⟨⟨12, 1, 13⟩, ⟨15, 1, 16⟩⟩, "rax"⟩, ⟨.symbol .assign, ⟨⟨16, 1, 17⟩, ⟨17, 1, 18⟩⟩, "="⟩,
    ⟨.symbol (.operation .sub), ⟨⟨18, 1, 19⟩, ⟨19, 1, 20⟩⟩, "-"⟩]

/-- All tokens in front of the malformed one. -/
def maskedTokens : List Token :=
  ⟨.keyword .procedure, ⟨⟨0, 1, 1⟩, ⟨4, 1, 5⟩⟩, "proc"⟩ :: ⟨.identifier "main", ⟨⟨5, 1, 6⟩, ⟨9, 1, 10⟩⟩, "main"⟩ ::
    ⟨.symbol .braceOpen, ⟨⟨10, 1, 11⟩, ⟨11, 1, 12⟩⟩, "\x7b"⟩ :: maskedStatement

/-- What is wrong with the statement, is wrong with the program. -/
theorem parse_maskedTokens {more : List Token} {e : ParseError}
    (h : Stream.head ⟨maskedStatement ++ more, ⟨11, 1, 12⟩⟩ = .error e) : parseTokens (maskedTokens ++ more) = .error e := by
  have hopen : Stream.kind ⟨maskedStatement ++ more, ⟨11, 1, 12⟩⟩ ≠ .symbol .braceClose := fun h => by cases h
  have hbody : Stream.body ⟨maskedStatement ++ more, ⟨11, 1, 12⟩⟩ = .error e := Stream.body_eq_error hopen h
  have hprocedure : (Stream.ofTokens (maskedTokens ++ more)).procedure = .error e := by
    simp [Stream.procedure, Stream.named, Stream.skip, Stream.expect, Stream.token, Stream.kind, Stream.advance,
      Stream.ofTokens, maskedTokens, Stream.Reads.andThen, Stream.After.reads, Stream.Reads.map, hbody]
  have hinside : (Stream.ofTokens (maskedTokens ++ more)).kind ≠ .endOfInput := fun h => by cases h
  rw [parseTokens, Stream.procedures, if_neg hinside, hprocedure]

/-- The lexical error of a dollar sign is hidden by the minus before it. -/
theorem not_lexicalErrorsKept_masked : ¬LexicalErrorsKept (utf8Bytes maskedSource) := by
  have htokenize : tokenize (utf8Bytes maskedSource) = .error ⟨.unrecognized, ⟨19, 1, 20⟩⟩ := by decide +kernel
  have hbefore : beforeFault (Lexer.ofBytes (utf8Bytes maskedSource)).tokens = maskedTokens := by decide +kernel
  rintro ⟨-, hrejected⟩
  obtain ⟨p, hp, hfault⟩ := hrejected _ htokenize
  obtain ⟨bad, behind, htokens, hbad, -⟩ := exists_of_wellFormedTokens_error htokenize
  rw [hbefore] at htokens hfault
  have hparse : parseTokens (maskedTokens ++ bad :: behind) = .error ⟨.numberAfterMinus, ⟨18, 1, 19⟩⟩ := by
    refine parse_maskedTokens ?_
    obtain ⟨kind, span, lexeme⟩ := bad
    obtain rfl : kind = _ := hbad
    rfl
  rw [htokens, hparse] at hp
  obtain rfl := Except.error.inj hp
  rcases hfault with ⟨hmessage, -⟩ | hforced
  · exact absurd hmessage (by decide)
  · -- with a number behind the minus it is the semicolon that is missing
    have hother : parseTokens (maskedTokens ++ [⟨.integer 1, ⟨⟨19, 1, 20⟩, ⟨20, 1, 21⟩⟩, "1"⟩]) =
        .error ⟨.semicolonOrOperator, ⟨20, 1, 21⟩⟩ := parse_maskedTokens rfl
    rw [hforced] at hother
    cases hother

end RegisterCompiler
