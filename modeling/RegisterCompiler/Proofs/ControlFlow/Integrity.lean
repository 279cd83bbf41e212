import RegisterCompiler.Proofs.Backpatching
import RegisterCompiler.Proofs.ControlFlow.Targets

/-!
# Control-flow integrity

Finished code is instructions and texts and nothing else, and control never leaves the instructions: every target is the start of
an instruction, jumps stay inside their procedure, every text is jumped over, and every procedure ends with a return.
-/

namespace RegisterCompiler

open X64 (ByteRange Chunk Instruction)

namespace X64.Instruction

/-- Whether an instruction is a jump or a branch. -/
def isJump : Instruction → Bool
  | jump _ => true
  | branch _ _ => true
  | _ => false

/-- Whether an instruction takes an address. -/
def isAddress : Instruction → Bool
  | address _ _ => true
  | _ => false

/-- Jumps and branches refer to code. -/
theorem not_isJump {i : Instruction} (h : i.displacement? = none) : ¬i.isJump = true := by
  intro hjump
  cases i <;> cases h <;> cases hjump

/-- So do instructions that take an address. -/
theorem not_isAddress {i : Instruction} (h : i.displacement? = none) : ¬i.isAddress = true := by
  intro haddress
  cases i <;> cases h <;> cases haddress

end X64.Instruction

/-- Chunks that follow one another without a gap from an offset up to another one. -/
def Tiled (start : Nat) (cs : List Chunk) (stop : Nat) : Prop :=
  match cs with
  | [] => start = stop
  | c :: rest => c.offset = start ∧ 0 < c.size ∧ Tiled (start + c.size) rest stop

/-- The stretches of code that the procedures of a program take up: each up to the next one, the last one up to the entry. -/
def Compiled.extents (c : Compiled) : List ByteRange :=
  List.zipWith ByteRange.mk (c.procedures.map Prod.snd) ((c.procedures.map Prod.snd).tail ++ [c.entry])

/-- The chunks that finished code is cut into, and where control goes between them. -/
structure Compiled.Intact (c : Compiled) (cs : List Chunk) : Prop where
  /-- Cutting succeeds up to the last byte. -/
  cut : X64.chunks c.code.data c.code.bytes = .ok cs
  tiled : Tiled 0 cs c.code.bytes.length
  /-- No hole is left. -/
  filled : ∀ o i size target, .instruction o i size target ∈ cs → i ≠ .nop
  /-- Every target of a jump, a branch or a call is the start of an instruction. -/
  targets : ∀ o i size target, .instruction o i size (some target) ∈ cs → i.isAddress = false →
    ∃ i' size' target', .instruction target i' size' target' ∈ cs
  /-- A jump or branch inside a procedure stays inside it. -/
  confined : ∀ o i size target, .instruction o i size (some target) ∈ cs → i.isJump = true →
    ∀ e ∈ c.extents, e.contains o = true → e.contains target = true
  /-- An address is that of the text that only the start of the host call stands between. -/
  addresses : ∀ o i size target, .instruction o i size (some target) ∈ cs → i.isAddress = true →
    ∃ r ∈ c.code.data, r.start = target ∧ r.stop + sequenceSize (enterHost c.intrinsics.printText .rax) = o
  /-- A stretch of data has a jump to its end directly before it. -/
  fenced : ∀ r ∈ c.code.data, ∃ o d size, .instruction o (.jump d) size (some r.stop) ∈ cs ∧ o + size = r.start
  /-- The last instruction of every procedure is a return. -/
  returns : ∀ e ∈ c.extents, ∃ o, .instruction o .ret 1 none ∈ cs ∧ e.start ≤ o ∧ o + 1 = e.stop
  /-- The last instruction of all is a return. -/
  last : ∃ o, .instruction o .ret 1 none ∈ cs ∧ o + 1 = c.code.bytes.length

/-! ## Located pieces and chunks -/

/-- A piece that is no text has at least one byte. -/
theorem Piece.size_pos {p : Piece} (h : p.isText = false) : 0 < p.size := by
  cases p with
  | plain i => exact i.size_pos
  | text bytes => cases h
  | _ => exact Nat.succ_pos _

/-- A located piece lies inside the stretch that all the pieces take up. -/
theorem bounds_of_mem_located {start : Nat} {pieces : List Piece} {p : Nat × Piece} (h : p ∈ located start pieces) :
    start ≤ p.1 ∧ p.1 + p.2.size ≤ start + piecesSize pieces := by
  induction pieces generalizing start with
  | nil => exact absurd h List.not_mem_nil
  | cons q rest ih =>
    rw [piecesSize_cons]
    rcases List.mem_cons.1 h with rfl | h
    · exact ⟨Nat.le_refl _, by simp only; omega⟩
    · have := ih h
      omega

/-- Every piece is located somewhere. -/
theorem exists_mem_located (start : Nat) {pieces : List Piece} {p : Piece} (h : p ∈ pieces) :
    ∃ o, (o, p) ∈ located start pieces := by
  rw [← map_snd_located start pieces] at h
  obtain ⟨⟨o, q⟩, hq, rfl⟩ := List.mem_map.1 h
  exact ⟨o, hq⟩

/-- The chunks of pieces that land follow one another without a gap. -/
theorem tiled_chunksOf {start : Nat} {pieces : List Piece} (h : AllLand start pieces) :
    Tiled start (chunksOf start pieces) (start + piecesSize pieces) := by
  induction pieces generalizing start with
  | nil => rfl
  | cons p rest ih =>
    obtain ⟨hp, hrest⟩ := (allLand_cons _ _ _).1 h
    have hnext := ih hrest
    have hsize := Piece.size_item start p
    have hchunks : chunksOf start (p :: rest) = (p.chunk? start).toList ++ chunksOf (start + p.size) rest := by
      unfold chunksOf
      rw [located_cons, List.filterMap_cons]
      cases p.chunk? start <;> simp
    rw [piecesSize_cons, ← Nat.add_assoc, hchunks]
    cases hitem : p.item start with
    | instruction i =>
      rw [hitem] at hsize
      have hpos : 0 < p.size := hsize ▸ i.size_pos
      simp only [Piece.chunk?, hitem]
      exact ⟨rfl, hpos, hnext⟩
    | data bytes =>
      rw [hitem] at hsize
      have hlength : bytes.length = p.size := hsize
      simp only [Piece.chunk?, hitem]
      by_cases hempty : bytes = []
      · rw [if_pos (List.isEmpty_iff.2 hempty)]
        rw [hempty] at hlength
        have hzero : start + p.size = start := by rw [← hlength]; rfl
        rw [hzero] at hnext ⊢
        exact hnext
      · rw [if_neg (mt List.isEmpty_iff.1 hempty)]
        refine ⟨rfl, List.length_pos_iff.2 hempty, ?_⟩
        show Tiled (start + bytes.length) _ _
        rw [hlength]
        exact hnext
    | hole kind =>
      have := Piece.isHole_item hp
      rw [hitem] at this
      cases this

/-- A piece that is written as an instruction is shown as one. -/
theorem mem_chunksOf {start : Nat} {pieces : List Piece} {o : Nat} {p : Piece} {i : Instruction} (h : (o, p) ∈ located start pieces)
    (hi : p.item o = .instruction i) : .instruction o i p.size p.offset? ∈ chunksOf start pieces := by
  refine List.mem_filterMap.2 ⟨(o, p), h, ?_⟩
  simp [Piece.chunk?, hi]

/-- An instruction that is shown is a piece written as one. -/
theorem exists_of_mem_chunksOf {start : Nat} {pieces : List Piece} {o : Nat} {i : Instruction} {size : Nat} {target : Option Nat}
    (h : .instruction o i size target ∈ chunksOf start pieces) :
    ∃ p, (o, p) ∈ located start pieces ∧ p.item o = .instruction i ∧ size = p.size ∧ target = p.offset? := by
  obtain ⟨⟨n, p⟩, hp, hc⟩ := List.mem_filterMap.1 h
  unfold Piece.chunk? at hc
  split at hc
  · rename_i j hj
    obtain ⟨rfl, rfl, rfl, rfl⟩ := Chunk.instruction.inj (Option.some.inj hc)
    exact ⟨p, hp, hj, rfl, rfl⟩
  · split at hc <;> cases hc
  · cases hc

/-- What is written as an instruction: an instruction by itself, or one that refers to a known target. -/
theorem Piece.cases_of_item {o : Nat} {p : Piece} {i : Instruction} (h : p.item o = .instruction i) :
    p = .plain i ∨
    (∃ n d, p = .jump (.offset n) ∧ i = .jump d) ∨
    (∃ code n d, p = .branch code (.offset n) ∧ i = .branch code d) ∨
    (∃ n d, p = .call (.offset n) ∧ i = .call d) ∨
    (∃ dest n d, p = .address dest n ∧ i = .address dest d) := by
  cases p with
  | plain j => exact .inl (congrArg Piece.plain (X64.Item.instruction.inj h))
  | text bytes => cases h
  | jump target =>
    cases target with
    | offset n => exact .inr (.inl ⟨n, _, rfl, (X64.Item.instruction.inj h).symm⟩)
    | _ => cases h
  | branch code target =>
    cases target with
    | offset n => exact .inr (.inr (.inl ⟨code, n, _, rfl, (X64.Item.instruction.inj h).symm⟩))
    | _ => cases h
  | call target =>
    cases target with
    | offset n => exact .inr (.inr (.inr (.inl ⟨n, _, rfl, (X64.Item.instruction.inj h).symm⟩)))
    | _ => cases h
  | address dest n => exact .inr (.inr (.inr (.inr ⟨dest, n, _, rfl, (X64.Item.instruction.inj h).symm⟩)))

/-- Only a text is written as data. -/
theorem Piece.exists_text_of_item {o : Nat} {p : Piece} {bytes : List UInt8} (h : p.item o = .data bytes) :
    ∃ b, p = .text b := by
  cases p with
  | text b => exact ⟨b, rfl⟩
  | plain i => cases h
  | address dest n => cases h
  | jump target => cases target <;> cases h
  | branch code target => cases target <;> cases h
  | call target => cases target <;> cases h

/-- The stretches of data are those of the texts. -/
theorem mem_dataRanges_itemsOf {start : Nat} {pieces : List Piece} {r : ByteRange} :
    r ∈ X64.dataRanges start (itemsOf start pieces) ↔
      ∃ bytes, (r.start, .text bytes) ∈ located start pieces ∧ r.stop = r.start + bytes.length := by
  induction pieces generalizing start with
  | nil => simp [X64.dataRanges]
  | cons p rest ih =>
    have hother : (∀ bytes, p ≠ .text bytes) → (r ∈ X64.dataRanges start (itemsOf start (p :: rest)) ↔
        ∃ bytes, (r.start, .text bytes) ∈ located start (p :: rest) ∧ r.stop = r.start + bytes.length) := by
      intro hp
      have hskip : X64.dataRanges start (itemsOf start (p :: rest)) =
          X64.dataRanges (start + p.size) (itemsOf (start + p.size) rest) := by
        rw [itemsOf_cons, ← Piece.size_item start p]
        cases hitem : p.item start with
        | data bytes =>
          obtain ⟨b, rfl⟩ := Piece.exists_text_of_item hitem
          exact absurd rfl (hp b)
        | _ => rfl
      have hne : ∀ bytes, Piece.text bytes ≠ p := fun bytes h => hp bytes h.symm
      rw [hskip, ih]
      simp [hne]
    cases p with
    | text bytes =>
      show r ∈ (⟨start, start + bytes.length⟩ : ByteRange) ::
        X64.dataRanges (start + bytes.length) (itemsOf (start + bytes.length) rest) ↔ _
      rw [List.mem_cons, ih, located_cons]
      constructor
      · rintro (rfl | ⟨bytes', h, hstop⟩)
        · exact ⟨bytes, .head _, rfl⟩
        · exact ⟨bytes', .tail _ h, hstop⟩
      · rintro ⟨bytes', h, hstop⟩
        rcases List.mem_cons.1 h with h | h
        · obtain ⟨hstart, htext⟩ := Prod.mk.inj h
          obtain rfl := Piece.text.inj htext
          left
          cases r
          simp_all
        · exact Or.inr ⟨bytes', h, hstop⟩
    | _ => exact hother nofun

/-! ## Procedures -/

/-- The stretches that procedures take up that are written from an offset on. -/
def procedureExtents (intrinsics : Intrinsics) (start : Nat) : List Procedure → List ByteRange
  | [] => []
  | p :: rest => ⟨start, start + p.size intrinsics⟩ :: procedureExtents intrinsics (start + p.size intrinsics) rest

/-- The offsets of procedures, each taken up to the next one, are the stretches that the procedures take up. -/
theorem zipWith_procedureOffsets (intrinsics : Intrinsics) (start : Nat) (ps : List Procedure) :
    List.zipWith ByteRange.mk ((procedureOffsets intrinsics start ps).map Prod.snd)
        (((procedureOffsets intrinsics start ps).map Prod.snd).tail ++ [start + proceduresSize intrinsics ps]) =
      procedureExtents intrinsics start ps := by
  induction ps generalizing start with
  | nil => rfl
  | cons p rest ih =>
    have hnext := ih (start + p.size intrinsics)
    have hsize : start + proceduresSize intrinsics (p :: rest) = start + p.size intrinsics + proceduresSize intrinsics rest := by
      simp [proceduresSize, Nat.add_assoc]
    rw [hsize, procedureExtents, ← hnext]
    cases rest with
    | nil => rfl
    | cons q rest => rfl

/-- No procedure begins before the first one. -/
theorem start_le_of_mem_procedureExtents {intrinsics : Intrinsics} {start : Nat} {ps : List Procedure} {e : ByteRange}
    (h : e ∈ procedureExtents intrinsics start ps) : start ≤ e.start := by
  induction ps generalizing start with
  | nil => exact absurd h List.not_mem_nil
  | cons p rest ih =>
    rcases List.mem_cons.1 h with rfl | h
    · exact Nat.le_refl _
    · have := ih h
      omega

/-- Every procedure ends with a return. -/
theorem ret_of_mem_procedureExtents {intrinsics : Intrinsics} (around : Surroundings) {start : Nat} {ps : List Procedure}
    {e : ByteRange} (h : e ∈ procedureExtents intrinsics start ps) :
    ∃ o, (o, .plain .ret) ∈ located start (proceduresPieces intrinsics around start ps) ∧ e.start ≤ o ∧ o + 1 = e.stop := by
  induction ps generalizing start with
  | nil => exact absurd h List.not_mem_nil
  | cons p rest ih =>
    simp only [proceduresPieces, located_append, List.mem_append, Procedure.piecesSize_pieces]
    rcases List.mem_cons.1 h with rfl | h
    · refine ⟨start + bodySize intrinsics p.body, Or.inl ?_, Nat.le_add_right _ _, rfl⟩
      simp [Procedure.pieces]
    · obtain ⟨o, ho, hbounds⟩ := ih h
      exact ⟨o, Or.inr ho, hbounds⟩

/-- The jumps of a procedure go to instructions of its. -/
theorem Procedure.jumps_pieces {P : Nat → Prop} {intrinsics : Intrinsics} {around : Surroundings} (haround : around.loop = none)
    {start : Nat} {p : Procedure} (h : Covers P start (p.pieces intrinsics around start)) :
    P start ∧ Jumps P (p.pieces intrinsics around start) := by
  obtain ⟨hbody, hret⟩ := (covers_append _ _ _).1 h
  rw [piecesSize_bodyPieces] at hret
  have hstop : P (start + bodySize intrinsics p.body) := ((covers_cons _ _ _).1 hret).1 rfl
  have hwithin : around.Within P := by
    intro a b hl
    rw [haround] at hl
    cases hl
  refine ⟨start_of_covers (enterable_bodyPieces _ _ _ p.body) hbody (by simpa using hstop), ?_⟩
  exact jumps_append (jumps_bodyPieces p.body hbody hstop hwithin) (jumps_plainPieces [.ret])

/-- Jumps of procedures go to instructions of theirs. -/
theorem jumps_proceduresPieces {P : Nat → Prop} {intrinsics : Intrinsics} {around : Surroundings} (haround : around.loop = none)
    {start : Nat} {ps : List Procedure} (h : Covers P start (proceduresPieces intrinsics around start ps)) :
    Jumps P (proceduresPieces intrinsics around start ps) := by
  induction ps generalizing start with
  | nil => exact jumps_nil
  | cons p rest ih =>
    rw [proceduresPieces, covers_append, Procedure.piecesSize_pieces] at h
    exact jumps_append (p.jumps_pieces haround h.1).2 (ih h.2)

/-- An instruction begins where a procedure does. -/
theorem covers_procedureOffsets {P : Nat → Prop} {intrinsics : Intrinsics} {around : Surroundings} (haround : around.loop = none)
    {start : Nat} {ps : List Procedure} (h : Covers P start (proceduresPieces intrinsics around start ps)) :
    ∀ b ∈ procedureOffsets intrinsics start ps, P b.2 := by
  intro b hb
  induction ps generalizing start with
  | nil => exact absurd hb List.not_mem_nil
  | cons p rest ih =>
    rw [proceduresPieces, covers_append, Procedure.piecesSize_pieces] at h
    rcases List.mem_cons.1 hb with rfl | hb
    · exact (p.jumps_pieces haround h.1).1
    · exact ih h.2 hb

/-- A stretch has the offsets from its start up to its end. -/
theorem contains_iff {e : ByteRange} {n : Nat} : e.contains n = true ↔ e.start ≤ n ∧ n < e.stop := by
  simp [ByteRange.contains]

/-- Jumps stay inside their procedure. -/
theorem jumps_confined {intrinsics : Intrinsics} {around : Surroundings} (haround : around.loop = none) {start : Nat}
    {ps : List Procedure} {o : Nat} {p : Piece} {target : Nat}
    (h : (o, p) ∈ located start (proceduresPieces intrinsics around start ps)) (ht : p.jumpTarget? = some target) :
    ∀ e ∈ procedureExtents intrinsics start ps, e.contains o = true → e.contains target = true := by
  intro e he ho
  obtain ⟨hstart, hstop⟩ := contains_iff.1 ho
  induction ps generalizing start with
  | nil => exact absurd he List.not_mem_nil
  | cons q rest ih =>
    rw [proceduresPieces, located_append, List.mem_append, Procedure.piecesSize_pieces] at h
    rcases h with h | h
    · have hbounds := (bounds_of_mem_located h).2
      rw [Procedure.piecesSize_pieces] at hbounds
      rcases List.mem_cons.1 he with rfl | he
      · have hcovers : Covers (fun n => ByteRange.contains ⟨start, start + q.size intrinsics⟩ n = true) start
            (q.pieces intrinsics around start) := by
          intro r hr hinstruction
          have := bounds_of_mem_located hr
          have := Piece.size_pos hinstruction
          rw [Procedure.piecesSize_pieces] at *
          exact contains_iff.2 ⟨by simp only; omega, by simp only; omega⟩
        exact (q.jumps_pieces haround hcovers).2 p (mem_of_mem_located h) target ht
      · have := start_le_of_mem_procedureExtents he
        have : 0 < p.size := Piece.size_pos (by cases p <;> first | rfl | cases ht)
        simp only at hbounds
        omega
    · rcases List.mem_cons.1 he with rfl | he
      · have := (bounds_of_mem_located h).1
        simp only at this hstop
        omega
      · exact ih h he

/-- The code of procedures is orderly. -/
theorem orderly_proceduresPieces {intrinsics : Intrinsics} (around : Surroundings) (start : Nat) (ps : List Procedure) :
    Orderly intrinsics around.procedure (located start (proceduresPieces intrinsics around start ps)) := by
  induction ps generalizing start with
  | nil => exact orderly_nil
  | cons p rest ih =>
    have hret : ProperSequence [.ret] := properSequence_singleton (by simp) rfl
    refine orderly_pieces_append (orderly_pieces_append (orderly_bodyPieces rfl start p.body) (orderly_plainPieces hret _)) ?_
    rw [Procedure.piecesSize_pieces]
    exact ih _

/-! ## Programs -/

namespace ProcedureTable

variable {table : ProcedureTable} {intrinsics : Intrinsics}

/-- The code of a program, with that of the host behind its procedures, is orderly. -/
theorem orderly_pieces (table : ProcedureTable) (intrinsics : Intrinsics) :
    Orderly intrinsics (table.offset? intrinsics) (located 0 (table.pieces intrinsics)) := by
  refine orderly_pieces_append (orderly_proceduresPieces (table.surroundings intrinsics) 0 table.procedures) ?_
  have hrestore : ProperSequence (X64.popAll ++ [.ret]) :=
    properSequence_append properSequence_popAll (properSequence_singleton (by simp) rfl)
  refine orderly_pieces_append (orderly_plainPieces properSequence_pushAll _) ?_
  have hcall : ∀ o, Orderly intrinsics (table.offset? intrinsics)
      (located o [.call ((table.surroundings intrinsics).callTarget Compile.mainName)]) :=
    fun o => orderly_call (table.surroundings intrinsics) o rfl _
  exact orderly_pieces_append (a := [_]) (hcall _) (orderly_plainPieces hrestore _)

/-- The offsets at which an instruction of a program begins. -/
def Begins (table : ProcedureTable) (intrinsics : Intrinsics) (n : Nat) : Prop :=
  ∃ p, (n, p) ∈ located 0 (table.pieces intrinsics) ∧ p.isText = false

/-- An instruction begins wherever a piece that is no text does. -/
theorem covers_begins (table : ProcedureTable) (intrinsics : Intrinsics) :
    Covers (table.Begins intrinsics) 0 (table.pieces intrinsics) := fun p hp ht => ⟨p.2, hp, ht⟩

/-- Every jump and branch of a program goes to where an instruction begins. -/
theorem jumps_begins : Jumps (table.Begins intrinsics) (table.pieces intrinsics) := by
  have hprocedures := ((covers_append _ _ _).1 (covers_begins table intrinsics)).1
  refine jumps_append (jumps_proceduresPieces rfl hprocedures) ?_
  exact jumps_append (jumps_plainPieces _) (jumps_cons (fun _ hn => nomatch hn) (jumps_plainPieces _))

/-- Every call of a program goes to where an instruction begins. -/
theorem calls_begins {o n : Nat} (h : (o, .call (.offset n)) ∈ located 0 (table.pieces intrinsics)) :
    table.Begins intrinsics n := by
  obtain ⟨name, hname⟩ := (orderly_pieces table intrinsics).call o n h
  have hprocedures := ((covers_append _ _ _).1 (covers_begins table intrinsics)).1
  obtain ⟨entry, hfind, rfl⟩ := Option.map_eq_some_iff.1 hname
  exact covers_procedureOffsets rfl hprocedures entry (List.mem_of_find?_eq_some hfind)

/-- Every jump, branch and call of a program goes to an instruction. -/
theorem begins_of_offset? {o : Nat} {p : Piece} {n : Nat} (h : (o, p) ∈ located 0 (table.pieces intrinsics))
    (hn : p.offset? = some n) (haddress : ∀ dest m, p ≠ .address dest m) : table.Begins intrinsics n := by
  have hjump : p.jumpTarget? = some n → table.Begins intrinsics n := jumps_begins p (mem_of_mem_located h) n
  cases p with
  | plain i => cases hn
  | text bytes => cases hn
  | jump target => cases target <;> exact hjump hn
  | branch code target => cases target <;> exact hjump hn
  | call target =>
    cases target with
    | offset m =>
      obtain rfl := Option.some.inj hn
      exact calls_begins h
    | _ => cases hn
  | address dest m => exact absurd rfl (haddress dest m)

/-- No proper piece is written as a placeholder. -/
theorem ne_nop_of_item {o : Nat} {p : Piece} {i : Instruction} (hproper : p.Proper) (hi : p.item o = .instruction i) :
    i ≠ .nop := by
  rcases Piece.cases_of_item hi with rfl | ⟨n, d, -, rfl⟩ | ⟨code, n, d, -, rfl⟩ | ⟨n, d, -, rfl⟩ | ⟨dest, n, d, -, rfl⟩
  · exact (hproper i rfl).1
  all_goals exact nofun

/-- A piece that is written as a jump or a branch is one. -/
theorem jumpTarget?_of_isJump {o : Nat} {p : Piece} {i : Instruction} (hproper : p.Proper) (hi : p.item o = .instruction i)
    (hjump : i.isJump = true) : p.jumpTarget? = p.offset? := by
  rcases Piece.cases_of_item hi with
    rfl | ⟨n, d, rfl, rfl⟩ | ⟨code, n, d, rfl, rfl⟩ | ⟨n, d, rfl, rfl⟩ | ⟨dest, n, d, rfl, rfl⟩
  · exact absurd hjump (X64.Instruction.not_isJump (hproper i rfl).2)
  · rfl
  · rfl
  · cases hjump
  · cases hjump

/-- The instruction of a piece that lands and is no text. -/
theorem exists_chunk_of_begins (hland : AllLand 0 (table.pieces intrinsics)) {n : Nat} (h : table.Begins intrinsics n) :
    ∃ i size target, .instruction n i size target ∈ chunksOf 0 (table.pieces intrinsics) := by
  obtain ⟨p, hp, htext⟩ := h
  rcases Piece.item_of_lands (hland _ hp) ((orderly_pieces table intrinsics).proper _ hp) with ⟨i, hi, _, _⟩ | ⟨bytes, rfl⟩
  · exact ⟨i, _, _, mem_chunksOf hp hi⟩
  · cases htext

/-- A piece that is written as an address is one. -/
theorem exists_address_of_isAddress {o target : Nat} {p : Piece} {i : Instruction} (hproper : p.Proper)
    (hi : p.item o = .instruction i) (haddress : i.isAddress = true) (ht : some target = p.offset?) :
    ∃ dest, p = .address dest target := by
  rcases Piece.cases_of_item hi with
    rfl | ⟨n, d, rfl, rfl⟩ | ⟨code, n, d, rfl, rfl⟩ | ⟨n, d, rfl, rfl⟩ | ⟨dest, n, d, rfl, rfl⟩
  · exact absurd haddress (X64.Instruction.not_isAddress (hproper i rfl).2)
  · cases haddress
  · cases haddress
  · cases haddress
  · obtain rfl := Option.some.inj ht
    exact ⟨dest, rfl⟩

/-- The host's code has no jump. -/
theorem jumpTarget?_trampolinePieces {around : Surroundings} {p : Piece} (h : p ∈ trampolinePieces around) (target : Nat) :
    p.jumpTarget? ≠ some target := by
  rcases List.mem_append.1 h with h | h
  · obtain ⟨i, _, rfl⟩ := List.mem_map.1 h
    exact nofun
  · rcases List.mem_cons.1 h with rfl | h
    · exact nofun
    · obtain ⟨i, _, rfl⟩ := List.mem_map.1 h
      exact nofun

/-- The code of a program ends with the return of the trampoline. -/
theorem exists_last_ret (table : ProcedureTable) (intrinsics : Intrinsics) :
    ∃ o, (o, .plain .ret) ∈ located 0 (table.pieces intrinsics) ∧ o + 1 = piecesSize (table.pieces intrinsics) := by
  have hpop : plainPieces (X64.popAll ++ [.ret]) = plainPieces X64.popAll ++ [.plain .ret] := List.map_append
  refine ⟨table.entry intrinsics + (sequenceSize X64.pushAll + 5 + sequenceSize X64.popAll), ?_, ?_⟩
  · rw [pieces, located_append, trampolinePieces, hpop]
    refine List.mem_append_right _ ?_
    simp [entry, Piece.size, X64.HoleKind.size, Nat.add_assoc]
  · rw [piecesSize_pieces, codeSize, trampolineSize, sequenceSize_append]
    show _ = _ + (_ + (_ + 1))
    omega

/-- The program that the two passes write is intact. -/
theorem intact_of_twoPass {c : Compiled} (h : table.twoPass intrinsics = some c) :
    c.Intact (chunksOf 0 (table.pieces intrinsics)) := by
  obtain ⟨hland, rfl⟩ := eq_of_twoPass h
  have horderly := orderly_pieces table intrinsics
  have hlength : (codeOf (table.pieces intrinsics)).bytes.length = piecesSize (table.pieces intrinsics) :=
    length_bytesOf 0 _
  have hextents : Compiled.extents ⟨codeOf (table.pieces intrinsics), table.entry intrinsics, table.offsets intrinsics, intrinsics⟩ =
      procedureExtents intrinsics 0 table.procedures := by
    have := zipWith_procedureOffsets intrinsics 0 table.procedures
    rwa [Nat.zero_add] at this
  constructor
  case cut =>
    refine chunks_codeOf hland fun p hp => ?_
    obtain ⟨o, ho⟩ := exists_mem_located 0 hp
    exact horderly.proper _ ho
  case tiled => simpa [hlength] using tiled_chunksOf hland
  case filled =>
    intro o i size target hmem
    obtain ⟨p, hp, hi, -, -⟩ := exists_of_mem_chunksOf hmem
    exact ne_nop_of_item (horderly.proper _ hp) hi
  case targets =>
    intro o i size target hmem haddress
    obtain ⟨p, hp, hi, -, htarget⟩ := exists_of_mem_chunksOf hmem
    refine exists_chunk_of_begins hland (begins_of_offset? hp htarget.symm ?_)
    rintro dest m rfl
    obtain rfl := X64.Item.instruction.inj hi
    cases haddress
  case confined =>
    intro o i size target hmem hjump
    obtain ⟨p, hp, hi, -, htarget⟩ := exists_of_mem_chunksOf hmem
    have ht := (jumpTarget?_of_isJump (horderly.proper _ hp) hi hjump).trans htarget.symm
    rw [hextents]
    rw [pieces, located_append] at hp
    -- only the procedures jump; the entry behind them calls
    rcases List.mem_append.1 hp with hp | hp
    · exact jumps_confined rfl hp ht
    · exact absurd ht (jumpTarget?_trampolinePieces (mem_of_mem_located hp) _)
  case addresses =>
    intro o i size target hmem haddress
    obtain ⟨p, hp, hi, -, htarget⟩ := exists_of_mem_chunksOf hmem
    obtain ⟨dest, rfl⟩ := exists_address_of_isAddress (horderly.proper _ hp) hi haddress htarget
    obtain ⟨bytes, htext, ho⟩ := horderly.address _ _ _ hp
    exact ⟨⟨target, target + bytes.length⟩, mem_dataRanges_itemsOf.2 ⟨bytes, htext, rfl⟩, rfl, ho.symm⟩
  case fenced =>
    intro r hr
    obtain ⟨bytes, htext, hstop⟩ := mem_dataRanges_itemsOf.1 hr
    obtain ⟨j, hj, hjump⟩ := horderly.text _ _ htext
    exact ⟨j, _, 5, hstop ▸ mem_chunksOf hjump rfl, hj⟩
  case returns =>
    intro e he
    rw [hextents] at he
    obtain ⟨o, ho, hstart, hstop⟩ := ret_of_mem_procedureExtents (table.surroundings intrinsics) he
    have hmem : (o, .plain .ret) ∈ located 0 (table.pieces intrinsics) := by
      rw [pieces, located_append]
      exact List.mem_append_left _ ho
    exact ⟨o, mem_chunksOf hmem rfl, hstart, hstop⟩
  case last =>
    obtain ⟨o, hret, hstop⟩ := exists_last_ret table intrinsics
    exact ⟨o, mem_chunksOf hret rfl, hstop.trans hlength.symm⟩

/-- Finished code is intact, and can be dumped. -/
theorem intact_of_compile {c : Compiled} (h : table.compile intrinsics = .ok c) :
    (∃ cs, c.Intact cs) ∧ ∃ text, c.dump = .ok text := by
  have hintact := intact_of_twoPass (compile_cases h).2
  refine ⟨⟨_, hintact⟩, ?_⟩
  unfold Compiled.dump Compiled.listing X64.Code.listing X64.listing
  rw [ite_self, hintact.cut]
  exact ⟨_, rfl⟩

end ProcedureTable

/-- The code of `countdown` is intact and can be dumped. -/
theorem intact_of_compile_countdown :
    ∃ c, countdown.compile ⟨1, 2⟩ = .ok c ∧ (∃ cs, c.Intact cs) ∧ ∃ text, c.dump = .ok text := by
  cases h : countdown.compile ⟨1, 2⟩ with
  | ok c => exact ⟨c, rfl, ProcedureTable.intact_of_compile h⟩
  | error e => exact absurd isOk_compile_countdown (by rw [h]; exact Bool.false_ne_true)

end RegisterCompiler
