import RegisterCompiler.Proofs.Backpatching

/-!
# Rejected programs

When the compiler rejects a program whose code is smaller than 2 GiB, the program is to blame, and the error is the first fault
in it. The assembler never refuses such code: every hole is filled, and every target is within reach.
-/

namespace RegisterCompiler

/-- Every target of a program without faults is known. -/
theorem ProcedureTable.known_pieces {table : ProcedureTable} (intrinsics : Intrinsics) (h : table.Sound) :
    ∀ p ∈ table.pieces intrinsics, p.Known := by
  have hcall : ∀ name ∈ table.names, ∃ n, (table.surroundings intrinsics).procedure name = some n := by
    intro name hname
    cases hfind : (table.offsets intrinsics).find? fun p => p.1 == name with
    | none => exact absurd hname ((Compile.find?_offsets_eq_none table intrinsics name).1 hfind)
    | some entry => exact ⟨entry.2, congrArg (Option.map Prod.snd) hfind⟩
  have hprocedures : ∀ (ps : List Procedure) (start : Nat), (∀ p ∈ ps, p ∈ table.procedures) →
      ∀ q ∈ proceduresPieces intrinsics (table.surroundings intrinsics) start ps, q.Known := by
    intro ps
    induction ps with
    | nil => exact fun start _ q hq => absurd hq List.not_mem_nil
    | cons p rest ih =>
      intro start hps q hq
      have hp := hps p (.head _)
      simp only [proceduresPieces, Procedure.pieces, List.mem_append, List.mem_singleton] at hq
      rcases hq with (hq | rfl) | hq
      · exact known_bodyPieces intrinsics start p.body
          ⟨fun _ => (h.procedures p hp).inside, fun name hname => hcall name (h.calls p hp name hname)⟩ q hq
      · intro target ht
        cases ht
      · exact ih _ (fun r hr => hps r (.tail _ hr)) q hq
  intro p hp
  rcases List.mem_append.1 hp with hp | hp
  · exact hprocedures table.procedures 0 (fun _ hp => hp) p hp
  · obtain ⟨n, hn⟩ := hcall Compile.mainName h.main
    rcases List.mem_append.1 hp with hp | hp
    · exact known_plainPieces _ p hp
    · rcases List.mem_cons.1 hp with rfl | hp
      · exact Piece.known_of_target (by simp [Piece.target?, Surroundings.callTarget, hn]; rfl)
      · exact known_plainPieces _ p hp

/-- A piece with a known target within reach lands there. -/
theorem Piece.lands_of_known {offset : Nat} {p : Piece} (h : p.Reaches offset) (hknown : p.Known) : p.Lands offset := by
  unfold Lands
  cases ht : p.target? with
  | none => trivial
  | some target =>
    obtain ⟨n, rfl⟩ := hknown target ht
    exact h n ht

/-- Pieces within reach whose targets are known all land. -/
theorem allLand_of_known {offset : Nat} {pieces : List Piece} (h : AllReach offset pieces) (hknown : ∀ p ∈ pieces, p.Known) :
    AllLand offset pieces :=
  fun p hp => Piece.lands_of_known (h p hp) (hknown p.2 (mem_of_mem_located hp))

/-- A program that comes to its end has no faults, and no hole is left behind it. -/
theorem ProcedureTable.finish_program {table : ProcedureTable} {intrinsics : Intrinsics} {entry : Nat} {s : Session}
    (h : (Compile.program table).run (Session.start intrinsics) = (.ok entry, s)) :
    table.faults = [] ∧ ∃ c, s.finish entry = .ok c := by
  obtain ⟨hfaults, rfl, hwrote⟩ := (Compile.yields_program table intrinsics).of_ok h
  have hreach : AllReach 0 (table.pieces intrinsics) := hwrote.reach
  have hland := allLand_of_known hreach (known_pieces intrinsics (table.faults_eq_nil_iff.1 hfaults))
  exact ⟨hfaults, _, by rw [Session.finish_of_wrote hwrote, if_pos (countP_isHole_itemsOf hland)]⟩

/-- A sound program of less than 2 GiB compiles; any other program of this size is rejected with its first fault. -/
theorem ProcedureTable.compile_of_small {table : ProcedureTable} {intrinsics : Intrinsics}
    (h : table.codeSize intrinsics < reachLimit) :
    (table.faults = [] ∧ ∃ c, table.compile intrinsics = .ok c) ∨
      ∃ e, table.faults.head? = some e ∧ e.OfSource ∧ table.compile intrinsics = .error e := by
  have hyields := Compile.yields_program table intrinsics
  unfold Compile.Yields at hyields
  unfold ProcedureTable.compile
  rcases hrun : (Compile.program table).run (Session.start intrinsics) with ⟨e | entry, s⟩
  · rw [hrun] at hyields
    rcases hyields with ⟨hhead, hsource⟩ | ⟨_, hlarge⟩
    · exact Or.inr ⟨e, hhead, hsource, rfl⟩
    · exact absurd h (Nat.not_lt.2 hlarge)
  · obtain ⟨hfaults, c, hc⟩ := finish_program hrun
    exact Or.inl ⟨hfaults, c, hc⟩

/-- Exactly when and how the compiler fails on a program of less than 2 GiB: never with an error of the assembler, not on a sound
program, and on any other program with its first fault. -/
theorem ProcedureTable.compile_outcome {table : ProcedureTable} {intrinsics : Intrinsics}
    (h : table.codeSize intrinsics < reachLimit) :
    (∀ e a, table.compile intrinsics = .error e → e.fault ≠ .assembly a) ∧
      ((∃ c, table.compile intrinsics = .ok c) ↔ table.Sound) ∧
      ∀ e, table.compile intrinsics = .error e ↔ table.RejectedWith e := by
  rw [← table.faults_eq_nil_iff]
  simp only [← table.head?_faults_eq_some_iff]
  rcases compile_of_small h with ⟨hfaults, c, hc⟩ | ⟨e, hhead, hsource, he⟩
  · rw [hc, hfaults]
    exact ⟨nofun, ⟨fun _ => rfl, fun _ => ⟨c, rfl⟩⟩, fun e => ⟨nofun, nofun⟩⟩
  · have hne : table.faults ≠ [] := by
      intro hnil
      rw [hnil] at hhead
      cases hhead
    rw [he]
    refine ⟨?_, ⟨?_, fun hnil => absurd hnil hne⟩, ?_⟩
    · rintro e' a h'
      rw [← Except.error.inj h']
      exact hsource a
    · rintro ⟨c, hc⟩
      cases hc
    · intro e'
      rw [hhead, Except.error.injEq, Option.some.injEq]

/-- A program with a stray break behind a stray continue of a smaller offset, and a call of a procedure that is missing. -/
def astray : ProcedureTable where
  procedures := [⟨"main", [
    .action .continueLoop none ⟨10, 2, 1⟩,
    .loop none [.action .breakLoop none ⟨21, 3, 5⟩] none ⟨20, 3, 1⟩,
    .action .breakLoop none ⟨30, 4, 1⟩,
    .action (.call "missing") none ⟨40, 5, 1⟩], .origin⟩]

/-- The outcome of a program that is small enough and has both stray jumps and a call that leads nowhere. -/
theorem compile_outcome_astray : astray.codeSize ⟨1, 2⟩ < reachLimit ∧
    (∀ e a, astray.compile ⟨1, 2⟩ = .error e → e.fault ≠ .assembly a) ∧
      ((∃ c, astray.compile ⟨1, 2⟩ = .ok c) ↔ astray.Sound) ∧
      ∀ e, astray.compile ⟨1, 2⟩ = .error e ↔ astray.RejectedWith e := by
  have hsize : astray.codeSize ⟨1, 2⟩ < reachLimit := by decide +kernel
  exact ⟨hsize, ProcedureTable.compile_outcome hsize⟩

end RegisterCompiler
