import RegisterCompiler.Proofs.Session.Program

/-!
# Backpatching

The compiler knows the size of nothing in advance: it leaves holes and fills them when their targets are reached. It writes the
same code as the generator that computes every size first.
-/

namespace RegisterCompiler

/-- What finishing a session that has written pieces comes to. -/
theorem Session.finish_of_wrote {table : ProcedureTable} {intrinsics : Intrinsics} {s : Session} {pieces : List Piece}
    (h : (Compile.begun table intrinsics).Wrote s pieces) (entry : Nat) :
    s.finish entry = if (itemsOf 0 pieces).countP X64.Item.isHole = 0
      then .ok ⟨codeOf pieces, entry, table.offsets intrinsics, intrinsics⟩
      else .error (CompileError.ofAssembly (.unfilled ((itemsOf 0 pieces).countP X64.Item.isHole))) := by
  have hitems : s.assembler.items.toList = itemsOf 0 pieces := h.items
  unfold Session.finish X64.Assembler.finish X64.Assembler.pending X64.Assembler.bytes X64.Assembler.data
  rw [hitems, show s.procedures = table.offsets intrinsics from h.procedures, show s.intrinsics = intrinsics from h.intrinsics]
  split <;> rename_i hfinish
  · split at hfinish
    · rename_i hzero
      rw [if_pos hzero, ← Except.ok.inj hfinish]
      rfl
    · cases hfinish
  · split at hfinish
    · cases hfinish
    · rename_i hholes
      rw [if_neg hholes, ← Except.error.inj hfinish]

/-- A program that compiles has no faults, and its code is that of the two passes. -/
theorem ProcedureTable.compile_cases {table : ProcedureTable} {intrinsics : Intrinsics} {c : Compiled}
    (h : table.compile intrinsics = .ok c) : table.faults = [] ∧ table.twoPass intrinsics = some c := by
  have hyields := Compile.yields_program table intrinsics
  unfold ProcedureTable.compile at h
  unfold Compile.Yields at hyields
  split at h
  · rename_i entry s hrun
    rw [hrun] at hyields
    obtain ⟨hfaults, rfl, hwrote⟩ := hyields
    refine ⟨hfaults, ?_⟩
    have hreach : AllReach 0 (table.pieces intrinsics) := hwrote.reach
    rw [Session.finish_of_wrote hwrote] at h
    split at h
    · rename_i hholes
      unfold ProcedureTable.twoPass
      rw [if_pos (allLand_of_allReach hreach hholes), Except.ok.inj h]
    · cases h
  · cases h

/-- Backpatching is knowing the sizes in advance: where the compiler returns a program, its code, entry, procedures and stretches
of data are those that the generator in two passes writes. -/
theorem ProcedureTable.twoPass_of_compile {table : ProcedureTable} {intrinsics : Intrinsics} {c : Compiled}
    (h : table.compile intrinsics = .ok c) : table.twoPass intrinsics = some c :=
  (compile_cases h).2

/-- A program with a guarded call in a loop that is left by a guarded break, and a text in another procedure. -/
def countdown : ProcedureTable where
  procedures := [
    ⟨"main", [
      .action (.assign .rax ⟨.immediate 3, .origin⟩) none .origin,
      .loop (some ⟨⟨.register .rax, .origin⟩, .greater, ⟨.immediate 0, .origin⟩, .origin⟩) [
        .action (.call "greet") none .origin,
        .action .breakLoop (some ⟨⟨.register .rax, .origin⟩, .equal, ⟨.immediate 1, .origin⟩, .origin⟩) .origin,
        .action (.update .rax .sub ⟨.immediate 1, .origin⟩) none .origin] none .origin], .origin⟩,
    ⟨"greet", [.action (.printText "hi") none .origin], .origin⟩]
  names_nodup := by decide

/-- The program `countdown` compiles. -/
theorem isOk_compile_countdown : (countdown.compile ⟨1, 2⟩).isOk = true := by decide +kernel

/-- For `countdown` the two passes give what is compiled. -/
theorem twoPass_of_compile_countdown :
    ∃ c, countdown.compile ⟨1, 2⟩ = .ok c ∧ countdown.twoPass ⟨1, 2⟩ = some c := by
  cases h : countdown.compile ⟨1, 2⟩ with
  | ok c => exact ⟨c, rfl, ProcedureTable.twoPass_of_compile h⟩
  | error e => exact absurd isOk_compile_countdown (by rw [h]; exact Bool.false_ne_true)

end RegisterCompiler
