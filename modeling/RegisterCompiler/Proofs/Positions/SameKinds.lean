import Mathlib
import RegisterCompiler.Failure
import RegisterCompiler.Proofs.Positions.Compiling
import RegisterCompiler.Proofs.Positions.Parsing

/-!
# Layout never changes a program

Two sources that consist of tokens of the same kinds are the same stream without positions. So they write the same program
without positions, which is compiled to the same code or refused for the same fault (`compileSource_of_same_kinds`): blanks,
comments and the way a token is written move the position of an error and nothing else.
-/

namespace RegisterCompiler

/-- Two compilations with the same end: the same code with its entry, procedures and data, or failures of the same stage with
the same message. -/
def SameButPosition : Except Failure Compiled → Except Failure Compiled → Prop
  | .ok c, .ok d => c = d
  | .error e, .error f => e.report.stage = f.report.stage ∧ e.report.message = f.report.message
  | _, _ => False

/-- Programs that differ in positions only are compiled to the same code or refused for the same fault. -/
theorem ProcedureTable.compile_congr {t u : ProcedureTable} (h : t.unplaced = u.unplaced) (intrinsics : Intrinsics) :
    SameButPosition ((t.compile intrinsics).mapError .compile) ((u.compile intrinsics).mapError .compile) := by
  have hcompile := t.compile_unplaced intrinsics
  rw [h, u.compile_unplaced intrinsics] at hcompile
  generalize t.compile intrinsics = x at hcompile ⊢
  generalize u.compile intrinsics = y at hcompile ⊢
  rcases x with e | c <;> rcases y with f | d
  · have he : f.unplaced = e.unplaced := Except.error.inj hcompile
    have hfault : f.fault = e.fault := (CompileError.mk.inj he).1
    exact ⟨rfl, congrArg CompileFault.message hfault.symm⟩
  · cases hcompile
  · cases hcompile
  · exact (Except.ok.inj hcompile).symm

/-- Sources whose tokens are of the same kinds are compiled alike, wherever the tokens stand and however they are written. -/
theorem compileSource_of_same_kinds {a b : List UInt8} {ta tb : List Token} (ha : tokenize a = .ok ta)
    (hb : tokenize b = .ok tb) (h : ta.map (·.kind) = tb.map (·.kind)) (intrinsics : Intrinsics) :
    SameButPosition (compileSource a intrinsics) (compileSource b intrinsics) := by
  have hparse := parseTokens_congr h
  simp only [compileSource, parseSource, ha, hb]
  generalize parseTokens ta = x at hparse ⊢
  generalize parseTokens tb = y at hparse ⊢
  rcases x with e | t <;> rcases y with f | u
  · have he : e.unplaced = f.unplaced := Except.error.inj hparse
    have hfault : e.fault = f.fault := (ParseError.mk.inj he).1
    exact ⟨rfl, congrArg ParseFault.message hfault⟩
  · cases hparse
  · cases hparse
  · exact ProcedureTable.compile_congr (Except.ok.inj hparse) intrinsics

/-- One program in two layouts. -/
def denseSource : List UInt8 := utf8Bytes "proc main \x7b rax = 01; break; \x7d"

def airySource : List UInt8 := utf8Bytes "proc main\n\x7b\n  rax = 1; // one\n  break;\n\x7d"

/-- The stray break is refused in both layouts, at different places. -/
theorem compileSource_of_same_kinds_sample :
    SameButPosition (compileSource denseSource ⟨1, 2⟩) (compileSource airySource ⟨1, 2⟩) := by
  have hdense : tokenize denseSource = .ok ((tokenize denseSource).toOption.getD []) := by decide +kernel
  have hairy : tokenize airySource = .ok ((tokenize airySource).toOption.getD []) := by decide +kernel
  exact compileSource_of_same_kinds hdense hairy (by decide +kernel) ⟨1, 2⟩

end RegisterCompiler
