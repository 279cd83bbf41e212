import Mathlib
import RegisterCompiler.Proofs.Parsing.Lookahead

/-!
# How the end of a list of tokens is read

A list of tokens may hold an end of the input, and others behind it, or just stop. What the tokens before that come to is
settled by them (`Stream.settled_procedures`): a program, a fault at one of them, or a fault where they end. So the parser makes
no difference between two ways to end in the same place (`parseTokens_append_congr`): a list that just stops is read as if the
input ended behind its last token, and what stands behind an end of the input is never read (`parseTokens_ended`).
-/

namespace RegisterCompiler

/-- Where the last of some tokens ends, or the origin if there is none. -/
def lastStop (tokens : List Token) : Position := (tokens.getLast?.map fun t => t.span.stop).getD .origin

namespace Stream

variable {s : Stream} {α : Type} {more more' : List Token}

/-- Behind all tokens of a source the parser stands where the last of them ends. -/
theorem past_ofTokens (tokens more : List Token) : (ofTokens tokens).past more = ⟨more, lastStop tokens⟩ := by
  rcases List.eq_nil_or_concat tokens with rfl | ⟨front, last, rfl⟩
  · rfl
  · simp [past, ofTokens, lastStop]

theorem AtEnd.stops (h : AtEnd more) : Stops more := by
  obtain _ | ⟨⟨kind, span, lexeme⟩, rest⟩ := more
  · exact .nothing
  · obtain rfl : kind = .endOfInput := h _ rfl
    exact .ended span lexeme rest

/-- Where the input ends, every fault is the parser's own. -/
theorem AtEnd.error_eq (h : AtEnd s.tokens) (fault : ParseFault) : s.error fault = ⟨fault, s.position⟩ := by
  rw [error, kind_eq_endOfInput_iff.2 h]

/-- How some tokens fail depends only on where the input ends behind them. -/
theorem Fails.eq_of_atEnd {x : List Token → Except ParseError α} (h : s.Fails x) (hmore : AtEnd more) (hmore' : AtEnd more')
    (hposition : (s.past more).position = (s.past more').position) : x more = x more' := by
  cases h with
  | refused e _ hall => rw [hall more, hall more']
  | stopped fault hall =>
    rw [hall more hmore.stops, hall more' hmore'.stops, AtEnd.error_eq (s := s.past more) hmore,
      AtEnd.error_eq (s := s.past more') hmore', hposition]
  | masked minus _ _ hall =>
    -- an end of the input is no number, whichever way the input ends
    have hkind {ending : List Token} (h : AtEnd ending) : (s.past ending).kind = .endOfInput := kind_eq_endOfInput_iff.2 h
    rw [hall more fun n => by simp [hkind hmore], hall more' fun n => by simp [hkind hmore']]

end Stream

/-- Behind some tokens the parser makes no difference between two ends of the input in the same place. -/
theorem parseTokens_append_congr {tokens more more' : List Token} (htokens : Grammar.Inside tokens)
    (hmore : Stream.AtEnd more) (hmore' : Stream.AtEnd more')
    (hposition : Stream.position ⟨more, lastStop tokens⟩ = Stream.position ⟨more', lastStop tokens⟩) :
    parseTokens (tokens ++ more) = parseTokens (tokens ++ more') := by
  rcases Stream.settled_procedures (Stream.ofTokens tokens) htokens .empty with ⟨table, hall, -⟩ | hfails
  · exact (hall more hmore).trans (hall more' hmore').symm
  · refine hfails.eq_of_atEnd hmore hmore' ?_
    rwa [Stream.past_ofTokens, Stream.past_ofTokens]

/-- No end of the input stands before the first one. -/
theorem inside_beforeEnd (tokens : List Token) : Grammar.Inside (beforeEnd tokens) := by
  intro t ht
  have hkind := List.mem_takeWhile_imp ht
  exact of_decide_eq_true hkind

/-- A list of tokens that just stops is read as if the input ended behind its last token; and whatever stands behind an end of the
input, the tokens up to there come to the same table or to the same error in the same place. -/
theorem parseTokens_ended (tokens : List Token) :
    (Grammar.Inside tokens → ∀ last : Token, last.kind = .endOfInput → last.span.start = lastStop tokens →
      parseTokens tokens = parseTokens (tokens ++ [last])) ∧
    ∀ (last : Token) (more more' : List Token), last.kind = .endOfInput →
      parseTokens (tokens ++ last :: more) = parseTokens (tokens ++ last :: more') := by
  have hending {last : Token} (more : List Token) (hlast : last.kind = .endOfInput) : Stream.AtEnd (last :: more) :=
    fun t ht => Option.some.inj ht ▸ hlast
  refine ⟨fun htokens last hlast hstart => ?_, fun last more more' hlast => ?_⟩
  · have hstopped : parseTokens (tokens ++ []) = parseTokens (tokens ++ [last]) :=
      parseTokens_append_congr htokens nofun (hending [] hlast) hstart.symm
    rwa [List.append_nil] at hstopped
  · -- the input may have ended before, among the tokens in front
    obtain ⟨rest, htokens, hrest⟩ := exists_rest tokens
    have hinside := inside_beforeEnd tokens
    rw [htokens, List.append_assoc, List.append_assoc]
    cases rest with
    | nil => exact parseTokens_append_congr hinside (hending more hlast) (hending more' hlast) rfl
    | cons first rest => exact parseTokens_append_congr hinside (hending _ (hrest first rfl)) (hending _ (hrest first rfl)) rfl

/-- The beginning of an assignment. -/
def cutStatement : List Token :=
  [⟨.register .rax, ⟨⟨12, 1, 13⟩, ⟨15, 1, 16⟩⟩, "rax"⟩, ⟨.symbol .assign, ⟨⟨16, 1, 17⟩, ⟨17, 1, 18⟩⟩, "="⟩]

/-- A procedure that stops inside an assignment. -/
def cutTokens : List Token :=
  ⟨.keyword .procedure, ⟨⟨0, 1, 1⟩, ⟨4, 1, 5⟩⟩, "proc"⟩ :: ⟨.identifier "main", ⟨⟨5, 1, 6⟩, ⟨9, 1, 10⟩⟩, "main"⟩ ::
    ⟨.symbol .braceOpen, ⟨⟨10, 1, 11⟩, ⟨11, 1, 12⟩⟩, "\x7b"⟩ :: cutStatement

/-- An end of the input right behind the assignment. -/
def cutEnd : Token := ⟨.endOfInput, .point ⟨17, 1, 18⟩, ""⟩

/-- With no token left, the operand is missed where the last token ends. -/
theorem parseTokens_cutTokens : parseTokens cutTokens = .error ⟨.operand, ⟨17, 1, 18⟩⟩ := by
  have hopen : Stream.kind ⟨cutStatement, ⟨11, 1, 12⟩⟩ ≠ .symbol .braceClose := by decide
  have hbody : Stream.body ⟨cutStatement, ⟨11, 1, 12⟩⟩ = .error ⟨.operand, ⟨17, 1, 18⟩⟩ := Stream.body_eq_error hopen rfl
  have hprocedure : (Stream.ofTokens cutTokens).procedure = .error ⟨.operand, ⟨17, 1, 18⟩⟩ := by
    simp [Stream.procedure, Stream.named, Stream.skip, Stream.expect, Stream.token, Stream.kind, Stream.advance,
      Stream.ofTokens, cutTokens, Stream.Reads.andThen, Stream.After.reads, Stream.Reads.map, hbody]
  have hinside : (Stream.ofTokens cutTokens).kind ≠ .endOfInput := by decide
  rw [parseTokens, Stream.procedures, if_neg hinside, hprocedure]

/-- It is missed there, too, with an end of the input behind the tokens, and with anything behind that end. -/
theorem parseTokens_ended_cutTokens : Grammar.Inside cutTokens ∧ cutEnd.span.start = lastStop cutTokens ∧
    parseTokens (cutTokens ++ [cutEnd]) = .error ⟨.operand, ⟨17, 1, 18⟩⟩ ∧
    parseTokens (cutTokens ++ cutEnd :: cutTokens) = .error ⟨.operand, ⟨17, 1, 18⟩⟩ := by
  have hinside : Grammar.Inside cutTokens := List.forall_iff_forall_mem.1 (by decide)
  obtain ⟨hstopped, hcut⟩ := parseTokens_ended cutTokens
  have hend := (hstopped hinside cutEnd rfl rfl).symm.trans parseTokens_cutTokens
  exact ⟨hinside, rfl, hend, (hcut cutEnd cutTokens [] rfl).trans hend⟩

end RegisterCompiler
