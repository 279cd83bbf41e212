import RegisterCompiler.Failure
import RegisterCompiler.Proofs.Parsing.Places
import RegisterCompiler.Proofs.Parsing.Streaming
import RegisterCompiler.Proofs.Rejection
import RegisterCompiler.Proofs.Session.Placing

/-!
# Where failures are reported

A failure of the whole pipeline is reported where its cause is (`pinpointed_of_compileSource`): a lexical error at a position of the
source, an error of the parser where a token begins, and an error of the compiler where the statement or condition begins that is
to blame. Only an error for a call, whose procedure does not exist or is out of reach, has no position.
-/

namespace RegisterCompiler

/-! ## Statements outside the loops of a procedure -/

mutual

/-- A statement and the statements in it, but for those in a loop. -/
def Statement.outerParts : Statement → List Statement
  | .action a guard position => [.action a guard position]
  | .loop condition body guard position => [.loop condition body guard position]
  | .branch condition thenBody elseBody guard position =>
    .branch condition thenBody elseBody guard position :: (bodyOuterParts thenBody ++ bodyOuterParts elseBody)

/-- The statements in a body, but for those in a loop. -/
def bodyOuterParts : List Statement → List Statement
  | [] => []
  | s :: rest => s.outerParts ++ bodyOuterParts rest

end

/-- Whether a statement jumps out of a loop or to its next round. -/
def Statement.isLoopControl : Statement → Bool
  | .action .breakLoop _ _ => true
  | .action .continueLoop _ _ => true
  | _ => false

mutual

/-- The statements outside of loops are among all statements of a statement. -/
theorem Statement.outerParts_subset (st : Statement) : st.outerParts ⊆ st.parts := by
  cases st with
  | action a guard position => exact List.Subset.refl _
  | loop condition body guard position => simp [Statement.outerParts, Statement.parts]
  | branch condition thenBody elseBody guard position =>
    exact List.cons_subset_cons _ (List.append_subset.2
      ⟨List.subset_append_of_subset_left _ (bodyOuterParts_subset thenBody),
        List.subset_append_of_subset_right _ (bodyOuterParts_subset elseBody)⟩)

/-- The statements outside of loops are among all statements of a body. -/
theorem bodyOuterParts_subset (body : List Statement) : bodyOuterParts body ⊆ bodyParts body := by
  cases body with
  | nil => exact List.Subset.refl _
  | cons st rest =>
    exact List.append_subset.2 ⟨List.subset_append_of_subset_left _ st.outerParts_subset,
      List.subset_append_of_subset_right _ (bodyOuterParts_subset rest)⟩

end

mutual

/-- Where an action stands outside of loops, there is a statement that does it. -/
theorem Statement.exists_of_mem_outsideLoops {a : Action} {position : Position} (st : Statement)
    (h : position ∈ st.outsideLoops a) : ∃ guard, .action a guard position ∈ st.outerParts := by
  cases st with
  | action b guard place =>
    rw [Statement.outsideLoops] at h
    split at h
    · rename_i hb
      obtain rfl := List.mem_singleton.1 h
      exact ⟨guard, by simp [Statement.outerParts, hb]⟩
    · cases h
  | loop condition body guard place => cases h
  | branch condition thenBody elseBody guard place =>
    rcases List.mem_append.1 h with h | h
    · obtain ⟨guard', hmem⟩ := exists_of_mem_outsideLoops thenBody h
      exact ⟨guard', List.mem_cons_of_mem _ (List.mem_append_left _ hmem)⟩
    · obtain ⟨guard', hmem⟩ := exists_of_mem_outsideLoops elseBody h
      exact ⟨guard', List.mem_cons_of_mem _ (List.mem_append_right _ hmem)⟩

/-- Where an action stands outside the loops of a body, there is a statement of it outside them. -/
theorem exists_of_mem_outsideLoops {a : Action} {position : Position} (body : List Statement)
    (h : position ∈ outsideLoops a body) : ∃ guard, .action a guard position ∈ bodyOuterParts body := by
  cases body with
  | nil => cases h
  | cons st rest =>
    rcases List.mem_append.1 h with h | h
    · obtain ⟨guard, hmem⟩ := st.exists_of_mem_outsideLoops h
      exact ⟨guard, List.mem_append_left _ hmem⟩
    · obtain ⟨guard, hmem⟩ := exists_of_mem_outsideLoops rest h
      exact ⟨guard, List.mem_append_right _ hmem⟩

end

/-! ## What is to blame for an error -/

/-- The part of a procedure that is to blame for an error of the compiler. -/
inductive Procedure.Blamed (p : Procedure) : CompileError → Prop
  | longhand {st : Statement} : st ∈ bodyParts p.body → st.isLonghand = true → Blamed p ⟨.unimplemented, st.position⟩
  | stray {st : Statement} : st ∈ bodyOuterParts p.body → st.isLoopControl = true → Blamed p ⟨.strayLoopControl, st.position⟩
  | comparison {st : Statement} {c : Condition} : st ∈ bodyParts p.body → c ∈ st.conditions → c.bothImmediate = true →
      Blamed p ⟨.unsupportedComparison, c.position⟩
  | assembly {st : Statement} (a : X64.AssemblyError) : st ∈ bodyParts p.body → Blamed p ⟨.assembly a, st.position⟩

/-- A part of a procedure is to blame for each of its faults. -/
theorem Procedure.blamed_of_mem_faults {p : Procedure} {e : CompileError} (h : e ∈ p.faults) : p.Blamed e := by
  rcases List.mem_append.1 h with h | h
  · rw [bodyFaults_eq_flatMap] at h
    obtain ⟨st, hst, h⟩ := List.mem_flatMap.1 h
    rcases List.mem_append.1 h with h | h
    · obtain ⟨c, hc, h⟩ := List.mem_flatMap.1 h
      unfold Condition.faults at h
      split at h
      · obtain rfl := List.mem_singleton.1 h
        exact .comparison hst hc ‹_›
      · cases h
    · split at h
      · obtain rfl := List.mem_singleton.1 h
        exact .longhand hst ‹_›
      · cases h
  · obtain ⟨position, hposition, rfl⟩ := Option.map_eq_some_iff.1 (Option.mem_toList.1 h)
    obtain ⟨before, behind, hstrays, -⟩ := (earliest?_eq_some_iff _ _).1 hposition
    have hmem : position ∈ p.strays := hstrays ▸ List.mem_append_right _ List.mem_cons_self
    rcases List.mem_append.1 hmem with hmem | hmem
    · obtain ⟨guard, hst⟩ := exists_of_mem_outsideLoops p.body hmem
      exact .stray hst rfl
    · obtain ⟨guard, hst⟩ := exists_of_mem_outsideLoops p.body hmem
      exact .stray hst rfl

namespace ProcedureTable

variable {table : ProcedureTable} {intrinsics : Intrinsics} {e : CompileError}

/-- An error that arises when all procedures are written and the calls are led to them. -/
def FailsInCalls (table : ProcedureTable) (intrinsics : Intrinsics) (e : CompileError) : Prop :=
  ∃ entry s after, (Compile.beforeCalls table).run (Session.start intrinsics) = (.ok entry, s) ∧
    Compile.resolveCalls.run s = (.error e, after)

/-- An error of the compiler is to be blamed on a part of a procedure, or arises for a call. -/
theorem blamed_of_compile (h : table.compile intrinsics = .error e) :
    (∃ p ∈ table.procedures, p.Blamed e) ∨ table.FailsInCalls intrinsics e ∧ e.OfCall := by
  have hyields := Compile.yields_beforeCalls table intrinsics
  unfold compile at h
  rcases hrun : (Compile.program table).run (Session.start intrinsics) with ⟨e' | entry, s⟩
  · rw [hrun] at h
    obtain rfl : e' = e := Except.error.inj h
    rw [Compile.program_eq, Compile.run_bind] at hrun
    rcases hfirst : (Compile.beforeCalls table).run (Session.start intrinsics) with ⟨e₁ | entry, t⟩
    · rw [hfirst] at hrun
      obtain rfl : e₁ = e' := Except.error.inj (Prod.mk.inj hrun).1
      refine .inl ?_
      by_cases hsource : e₁.OfSource
      · obtain ⟨p, hp, hmem⟩ := List.mem_flatMap.1 (List.mem_of_head? (hyields.of_error hfirst hsource))
        exact ⟨p, hp, p.blamed_of_mem_faults hmem⟩
      · obtain ⟨p, hp, hplace⟩ := Compile.blames_beforeCalls table _ _ _ hfirst hsource
        obtain ⟨st, hst, hposition⟩ := List.mem_map.1 hplace
        obtain ⟨a, ha⟩ : ∃ a, e₁.fault = .assembly a := by simpa [CompileError.OfSource] using hsource
        obtain ⟨fault, position⟩ := e₁
        obtain rfl : fault = _ := ha
        obtain rfl : st.position = position := hposition
        exact ⟨p, hp, .assembly a hst⟩
    · rw [hfirst] at hrun
      simp only [Compile.run_bind] at hrun
      rcases hcalls : Compile.resolveCalls.run t with ⟨e₂ | _, u⟩
      · rw [hcalls] at hrun
        obtain rfl : e₂ = e' := Except.error.inj (Prod.mk.inj hrun).1
        exact .inr ⟨⟨entry, t, u, hfirst, hcalls⟩, Compile.ofCall_of_resolveCalls (hyields.of_ok hfirst).2 hcalls⟩
      · rw [hcalls] at hrun
        cases (Prod.mk.inj hrun).1
  · obtain ⟨-, c, hc⟩ := finish_program hrun
    rw [hrun] at h
    change s.finish entry = .error e at h
    rw [hc] at h
    cases h

end ProcedureTable

/-! ## Failures of the whole pipeline -/

/-- A procedure of the program that a source writes. -/
def Procedure.IsOf (source : List UInt8) (p : Procedure) : Prop :=
  ∃ table, parseSource source = .ok table ∧ p ∈ table.procedures

/-- What a failure is reported for, and that it is reported where its cause is. -/
inductive Cause (source : List UInt8) (intrinsics : Intrinsics) : Failure → Prop
  /-- A place in the source. -/
  | lexer {e : LexError} : e.position.Exact source → Cause source intrinsics (.lex e)
  /-- A token, the end of the input among them. -/
  | parser {e : ParseError} {t : Token} : t ∈ (Lexer.ofBytes source).tokens → t.span.start = e.position →
      Cause source intrinsics (.parse e)
  /-- A statement that combines two operands. -/
  | longhand {p : Procedure} {st : Statement} : p.IsOf source → st ∈ bodyParts p.body → st.isLonghand = true →
      st.StandsIn (Lexer.ofBytes source).tokens → Cause source intrinsics (.compile ⟨.unimplemented, st.position⟩)
  /-- A break or a continue that no loop is around. -/
  | stray {p : Procedure} {st : Statement} : p.IsOf source → st ∈ bodyOuterParts p.body → st.isLoopControl = true →
      st.StandsIn (Lexer.ofBytes source).tokens → Cause source intrinsics (.compile ⟨.strayLoopControl, st.position⟩)
  /-- A condition on two immediates. -/
  | comparison {p : Procedure} {st : Statement} {c : Condition} : p.IsOf source → st ∈ bodyParts p.body →
      c ∈ st.conditions → c.bothImmediate = true → c.StandsIn (Lexer.ofBytes source).tokens →
      Cause source intrinsics (.compile ⟨.unsupportedComparison, c.position⟩)
  /-- A statement whose code the assembler refuses. -/
  | assembly {p : Procedure} {st : Statement} (a : X64.AssemblyError) : p.IsOf source → st ∈ bodyParts p.body →
      st.StandsIn (Lexer.ofBytes source).tokens → Cause source intrinsics (.compile ⟨.assembly a, st.position⟩)
  /-- A call whose procedure does not exist or is out of reach. -/
  | call {table : ProcedureTable} {e : CompileError} : parseSource source = .ok table → table.FailsInCalls intrinsics e →
      e.OfCall → Cause source intrinsics (.compile e)

/-- A failure is reported where its cause is. -/
structure Pinpointed (source : List UInt8) (intrinsics : Intrinsics) (f : Failure) : Prop where
  cause : Cause source intrinsics f
  /-- Its position is none at all, or one of the source. -/
  exact : ∃ p, f.report.position = some p ∧ (p = .unknown ∨ p.Exact source)
  /-- It is none only for a call whose procedure does not exist or is out of reach. -/
  unknown : f.report.position = some .unknown → ∃ e table, f = .compile e ∧ e.OfCall ∧ parseSource source = .ok table ∧
    table.FailsInCalls intrinsics e

namespace Pinpointed

variable {source : List UInt8} {intrinsics : Intrinsics} {f : Failure} {p : Position}

/-- Every cause but a call has a position of the source. -/
theorem of_exact (h : Cause source intrinsics f) (hp : f.report.position = some p) (hexact : p.Exact source) :
    Pinpointed source intrinsics f where
  cause := h
  exact := ⟨p, hp, .inr hexact⟩
  unknown := fun hunknown => absurd (Option.some.inj (hp.symm.trans hunknown)) hexact.ne_unknown

/-- A token of the source begins at a position of it. -/
theorem of_token (h : Cause source intrinsics f) (hp : f.report.position = some p)
    (htoken : ∃ t ∈ (Lexer.ofBytes source).tokens, t.span.start = p) : Pinpointed source intrinsics f := by
  obtain ⟨t, ht, hstart⟩ := htoken
  exact of_exact h hp (hstart ▸ (located_tokens source).start t ht)

/-- A lexical error is reported where its cause is. -/
theorem of_lexError {e : LexError} (h : tokenize source = .error e) : Pinpointed source intrinsics (.lex e) := by
  obtain ⟨bad, behind, htokens, -, hstart⟩ := exists_of_wellFormedTokens_error h
  have hmem : bad ∈ (Lexer.ofBytes source).tokens := htokens ▸ List.mem_append_right _ List.mem_cons_self
  have hexact : e.position.Exact source := hstart ▸ (located_tokens source).start bad hmem
  exact of_exact (.lexer hexact) rfl hexact

/-- A parse error is reported where its cause is. -/
theorem of_parseError {e : ParseError} (h : parseTokens (Lexer.ofBytes source).tokens = .error e) :
    Pinpointed source intrinsics (.parse e) := by
  obtain ⟨t, ht, hstart⟩ := exists_start_of_parseTokens h
  exact of_token (.parser ht hstart) rfl ⟨t, ht, hstart⟩

/-- An error of the compiler is reported where its cause is. -/
theorem of_compileError {table : ProcedureTable} {e : CompileError} (hsource : parseSource source = .ok table)
    (hparse : parseTokens (Lexer.ofBytes source).tokens = .ok table) (h : table.compile intrinsics = .error e) :
    Pinpointed source intrinsics (.compile e) := by
  rcases ProcedureTable.blamed_of_compile h with ⟨p, hp, hblamed⟩ | ⟨hfails, hcall⟩
  · have hof : p.IsOf source := ⟨table, hsource, hp⟩
    have hstands := standsIn_of_parseTokens hparse hp
    cases hblamed with
    | @longhand st hst hlonghand =>
      have hin := hstands st hst
      exact of_token (.longhand hof hst hlonghand hin) rfl hin.exists_start
    | @stray st hst hcontrol =>
      have hin := hstands st (bodyOuterParts_subset p.body hst)
      exact of_token (.stray hof hst hcontrol hin) rfl hin.exists_start
    | @comparison st c hst hc hboth =>
      have hin := (hstands st hst).conditions c hc
      exact of_token (.comparison hof hst hc hboth hin) rfl hin.exists_start
    | @assembly st a hst =>
      have hin := hstands st hst
      exact of_token (.assembly a hof hst hin) rfl hin.exists_start
  · refine ⟨.call hsource hfails hcall, ⟨.unknown, ?_, .inl rfl⟩, fun _ => ⟨e, table, rfl, hcall, hsource, hfails⟩⟩
    rcases hcall with ⟨name, rfl⟩ | ⟨start, target, rfl⟩ <;> rfl

end Pinpointed

/-- Every failure on the way from a source to its code is reported where its cause is. -/
theorem pinpointed_of_compileSource {source : List UInt8} {intrinsics : Intrinsics} {f : Failure}
    (h : compileSource source intrinsics = .error f) : Pinpointed source intrinsics f := by
  unfold compileSource at h
  cases htokens : tokenize source with
  | error e =>
    have hsource : parseSource source = .error (.lex e) := by rw [parseSource, htokens]
    rw [hsource] at h
    obtain rfl := Except.error.inj h
    exact .of_lexError htokens
  | ok tokens =>
    obtain rfl := eq_of_wellFormedTokens htokens
    cases hparse : parseTokens (Lexer.ofBytes source).tokens with
    | error e =>
      have hsource : parseSource source = .error (.parse e) := by
        rw [parseSource, htokens]
        simp only [hparse]
        rfl
      rw [hsource] at h
      obtain rfl := Except.error.inj h
      exact .of_parseError hparse
    | ok table =>
      have hsource : parseSource source = .ok table := by
        rw [parseSource, htokens]
        simp only [hparse]
        rfl
      rw [hsource] at h
      cases hcompile : table.compile intrinsics with
      | error e =>
        simp only [hcompile] at h
        obtain rfl := Except.error.inj h
        exact .of_compileError hsource hparse hcompile
      | ok c =>
        simp only [hcompile] at h
        cases h

/-- A source that leaves a loop where there is none. -/
def straySource : String := "proc main \x7b break; \x7d"

/-- How the grammar derives it. -/
def strayDerivation : Grammar.Procedure where
  keyword := ⟨⟨⟨0, 1, 1⟩, ⟨4, 1, 5⟩⟩, "proc"⟩
  name := "main"
  identifier := ⟨⟨⟨5, 1, 6⟩, ⟨9, 1, 10⟩⟩, "main"⟩
  opening := ⟨⟨⟨10, 1, 11⟩, ⟨11, 1, 12⟩⟩, "\x7b"⟩
  body := [.action (.breakLoop ⟨⟨⟨12, 1, 13⟩, ⟨17, 1, 18⟩⟩, "break"⟩) (.unguarded ⟨⟨⟨17, 1, 18⟩, ⟨18, 1, 19⟩⟩, ";"⟩)]
  closing := ⟨⟨⟨19, 1, 20⟩, ⟨20, 1, 21⟩⟩, "\x7d"⟩

/-- A jump out of no loop is reported at its own statement. -/
theorem pinpointed_of_compileSource_stray :
    compileSource (utf8Bytes straySource) ⟨1, 2⟩ = .error (.compile ⟨.strayLoopControl, ⟨12, 1, 13⟩⟩) ∧
      Pinpointed (utf8Bytes straySource) ⟨1, 2⟩ (.compile ⟨.strayLoopControl, ⟨12, 1, 13⟩⟩) := by
  have htokens : tokenize (utf8Bytes straySource) =
      .ok (strayDerivation.tokens ++ [⟨.endOfInput, ⟨⟨20, 1, 21⟩, ⟨20, 1, 21⟩⟩, ""⟩]) := by decide +kernel
  have hparse : parseTokens (strayDerivation.tokens ++ [⟨.endOfInput, ⟨⟨20, 1, 21⟩, ⟨20, 1, 21⟩⟩, ""⟩]) =
      .ok ⟨[strayDerivation.tree], by decide⟩ :=
    parseTokens_eq_ok_iff.2 ⟨[strayDerivation], by decide +kernel, rfl⟩
  have hcompile : ProcedureTable.compile ⟨[strayDerivation.tree], by decide⟩ ⟨1, 2⟩ =
      .error ⟨.strayLoopControl, ⟨12, 1, 13⟩⟩ := by decide +kernel
  have hfails : compileSource (utf8Bytes straySource) ⟨1, 2⟩ = .error (.compile ⟨.strayLoopControl, ⟨12, 1, 13⟩⟩) := by
    rw [compileSource, parseSource, htokens]
    simp only [hparse, Except.mapError, hcompile]
  exact ⟨hfails, pinpointed_of_compileSource hfails⟩

end RegisterCompiler
