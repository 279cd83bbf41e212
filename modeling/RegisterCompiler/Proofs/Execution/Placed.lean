import RegisterCompiler.Proofs.Decoding
import RegisterCompiler.Proofs.Execution.Path
import RegisterCompiler.Proofs.Layout.TwoPass

/-!
# Code in its place

`Environment.CodeAt` says that the processor finds pieces of code from an offset on. An instruction that stands somewhere is the
one that is carried out there, a jump leads to its target, and a text can be read.
-/

namespace RegisterCompiler.Machine

open X64 (ConditionCode Instruction Reg Sequence)

/-- The state about to carry out what stands at an offset of the code. -/
def State.goto (s : State) (env : Environment) (o : Nat) : State := { s with pointer := env.base + UInt64.ofNat o }

/-- Going to an offset changes no register. -/
theorem State.get_goto (s : State) (env : Environment) (o : Nat) (r : Reg) : (s.goto env o).get r = s.get r := rfl

namespace Environment

/-- An instruction stands at an offset of the code. -/
structure InstructionAt (env : Environment) (o : Nat) (i : Instruction) : Prop where
  inside : env.codeOffset? (env.base + UInt64.ofNat o) = some o
  fetched : env.image.instructions.getD o none = some (i, i.size)

/-- Bytes stand from an offset of the code on. -/
def BytesAt (env : Environment) (o : Nat) (bytes : List UInt8) : Prop :=
  ∀ k (h : k < bytes.length), env.codeOffset? (env.base + UInt64.ofNat (o + k)) = some (o + k) ∧
    env.image.bytes.getD (o + k) 0 = bytes[k]

/-- A piece of code stands at an offset, and leads to its target. -/
def PieceAt (env : Environment) (o : Nat) (piece : Piece) : Prop :=
  piece.Lands o ∧
    match piece.item o with
    | .instruction i => env.InstructionAt o i
    | .data bytes => env.BytesAt o bytes
    | .hole _ => True

/-- Pieces of code stand from an offset on. -/
def CodeAt (env : Environment) (o : Nat) (pieces : List Piece) : Prop := ∀ p ∈ located o pieces, env.PieceAt p.1 p.2

variable {env : Environment} {o : Nat}

/-- Code is its first piece and the code behind it. -/
theorem codeAt_cons {piece : Piece} {rest : List Piece} :
    env.CodeAt o (piece :: rest) ↔ env.PieceAt o piece ∧ env.CodeAt (o + piece.size) rest := by
  simp [CodeAt]

/-- Code of two parts is the first part and the second one behind it. -/
theorem codeAt_append {a b : List Piece} :
    env.CodeAt o (a ++ b) ↔ env.CodeAt o a ∧ env.CodeAt (o + piecesSize a) b := by
  simp [CodeAt, or_imp, forall_and]

/-- An offset inside the code is found at its address. -/
theorem codeOffset?_base_add (hsize : env.image.bytes.size ≤ 2 ^ 64) (h : o < env.image.bytes.size) :
    env.codeOffset? (env.base + UInt64.ofNat o) = some o := by
  have ho : (env.base + UInt64.ofNat o - env.base).toNat = o := by
    rw [UInt64.add_comm, UInt64.add_sub_cancel, UInt64.toNat_ofNat_of_lt' (h.trans_le hsize)]
  unfold codeOffset?
  simp only [ho, h, if_true]

/-- An address inside the code is that of its offset. -/
theorem codeOffset?_eq_some {address : UInt64} (h : env.codeOffset? address = some o) :
    (address - env.base).toNat = o ∧ o < env.image.bytes.size := by
  unfold codeOffset? at h
  by_cases hlt : (address - env.base).toNat < env.image.bytes.size
  · rw [if_pos hlt, Option.some.injEq] at h
    exact ⟨h, h ▸ hlt⟩
  · rw [if_neg hlt] at h
    cases h

/-- An instruction is found only inside the code. -/
theorem InstructionAt.lt {i : Instruction} (h : env.InstructionAt o i) : o < env.image.bytes.size :=
  (codeOffset?_eq_some h.inside).2

/-- Where an instruction stands is an offset of the address space. -/
theorem InstructionAt.lt_size {i : Instruction} (h : env.InstructionAt o i) : o < 2 ^ 64 :=
  (codeOffset?_eq_some h.inside).1 ▸ UInt64.toNat_lt _

/-- Code that begins with the bytes of an instruction has the instruction there. -/
theorem instructionAt_of_drop {i : Instruction} {rest : List UInt8} (hsize : env.image.bytes.size ≤ 2 ^ 64)
    (h : env.image.bytes.toList.drop o = i.encode ++ rest) : env.InstructionAt o i := by
  have ho : o < env.image.bytes.size := by
    have hlength := congrArg List.length h
    rw [List.length_drop, List.length_append, Array.length_toList] at hlength
    have : 0 < i.encode.length := i.size_pos
    omega
  refine ⟨codeOffset?_base_add hsize ho, ?_⟩
  rw [env.image.instructions_eq]
  have hget := getElem?_fetchTable env.image.bytes.toList o
  rw [if_pos (by simpa using ho), h, fetch?_encode_append] at hget
  simp [hget]

/-- Bytes of the image stand at their offset. -/
theorem bytesAt_of_drop {bytes rest : List UInt8} (hsize : env.image.bytes.size ≤ 2 ^ 64)
    (h : env.image.bytes.toList.drop o = bytes ++ rest) : env.BytesAt o bytes := by
  intro k hk
  have hget : env.image.bytes.toList[o + k]? = some bytes[k] := by
    rw [← List.getElem?_drop, h, List.getElem?_append_left hk, List.getElem?_eq_getElem hk]
  have ho : o + k < env.image.bytes.size := by
    have := (List.getElem?_eq_some_iff.1 hget).1
    simpa using this
  refine ⟨codeOffset?_base_add hsize ho, ?_⟩
  rw [Array.getElem?_toList] at hget
  simp [hget]

/-- Code that holds the bytes of pieces that land, and others behind them, has the pieces there. -/
theorem codeAt_of_drop_append {pieces : List Piece} {behind : List UInt8} (hsize : env.image.bytes.size ≤ 2 ^ 64)
    (hland : AllLand o pieces) (h : env.image.bytes.toList.drop o = bytesOf o pieces ++ behind) : env.CodeAt o pieces := by
  induction pieces generalizing o with
  | nil => exact fun p hp => absurd hp List.not_mem_nil
  | cons piece rest ih =>
    obtain ⟨hpiece, hrest⟩ := (allLand_cons _ _ _).1 hland
    rw [bytesOf_cons, List.append_assoc] at h
    refine codeAt_cons.2 ⟨⟨hpiece, ?_⟩, ih hrest ?_⟩
    · cases hitem : piece.item o with
      | instruction i =>
        rw [hitem] at h
        exact instructionAt_of_drop hsize h
      | data bytes =>
        rw [hitem] at h
        exact bytesAt_of_drop hsize h
      | hole kind => trivial
    · rw [← List.drop_drop, h, ← Piece.size_item o piece]
      exact List.drop_left

/-- Code that holds the bytes of pieces that land has the pieces there. -/
theorem codeAt_of_drop {pieces : List Piece} (hsize : env.image.bytes.size ≤ 2 ^ 64) (hland : AllLand o pieces)
    (h : env.image.bytes.toList.drop o = bytesOf o pieces) : env.CodeAt o pieces :=
  codeAt_of_drop_append hsize hland (h.trans (List.append_nil _).symm)

/-! ## Steps -/

/-- A displacement leads from behind an instruction to where the sum of the two is. -/
theorem ofNat_add_wordOfInt32 {stop target : Nat} {d : Int32} (h : (stop : Int) + d.toInt = target) :
    UInt64.ofNat stop + wordOfInt32 d = UInt64.ofNat target := by
  refine UInt64.toBitVec_inj.1 ?_
  show BitVec.ofNat 64 stop + BitVec.ofInt 64 d.toInt = BitVec.ofNat 64 target
  rw [← BitVec.ofInt_natCast, ← BitVec.ofInt_natCast, ← BitVec.ofInt_add, h]

/-- The address that a displacement within reach leads to. -/
theorem base_add_displacementTo (env : Environment) {stop target : Nat} (h : InReach target stop) :
    env.base + UInt64.ofNat stop + wordOfInt32 (displacementTo target stop) = env.base + UInt64.ofNat target := by
  rw [UInt64.add_assoc, ofNat_add_wordOfInt32 (toInt_displacementTo h)]

/-- The processor fetches the instruction that stands where it is. -/
theorem InstructionAt.fetch {i : Instruction} (h : env.InstructionAt o i) (s : State) :
    env.fetch (s.goto env o) = .ok (i, i.size) := by
  unfold Environment.fetch State.goto
  simp only [h.inside, h.fetched]

/-- The processor carries out the instruction that stands where it is. -/
theorem InstructionAt.step {i : Instruction} (h : env.InstructionAt o i) (s : State) :
    env.step (s.goto env o) = env.execute (s.goto env o) (env.base + UInt64.ofNat (o + i.size)) i := by
  unfold Environment.step
  rw [h.fetch, UInt64.ofNat_add, ← UInt64.add_assoc]
  rfl

/-- A jump leads to its target. -/
theorem PieceAt.trace_jump {n : Nat} (h : env.PieceAt o (.jump (.offset n))) (s : State) :
    Trace env [.jump (displacementTo n (o + 5))] (s.goto env o) (s.goto env n) := by
  have hjump : env.InstructionAt o (.jump (displacementTo n (o + 5))) := h.2
  refine .cons (hjump.fetch s) ?_ (.nil _)
  rw [hjump.step s, Environment.execute]
  congr 2
  show _ = s.goto env n
  unfold State.goto
  congr 1
  exact base_add_displacementTo env h.1

/-- A jump goes to its target. -/
theorem PieceAt.path_jump {n : Nat} (h : env.PieceAt o (.jump (.offset n))) (s : State) :
    Path env 1 (s.goto env o) [] (s.goto env n) :=
  (h.trace_jump s).path

/-- A branch leads to its target if its condition holds, and onward if not. -/
theorem PieceAt.trace_branch {code : ConditionCode} {n : Nat} (h : env.PieceAt o (.branch code (.offset n))) (s : State) :
    Trace env [.branch code (displacementTo n (o + 6))] (s.goto env o) (s.goto env (if holds code s.flags then n else o + 6)) := by
  have hbranch : env.InstructionAt o (.branch code (displacementTo n (o + 6))) := h.2
  refine .cons (hbranch.fetch s) ?_ (.nil _)
  rw [hbranch.step s, Environment.execute]
  congr 2
  show _ = s.goto env _
  unfold State.goto
  congr 1
  show (if holds code s.flags = true then _ else _) = _
  split
  · exact base_add_displacementTo env h.1
  · rfl

/-- A branch goes to its target if its condition holds of the flags, and else behind itself. -/
theorem PieceAt.path_branch {code : ConditionCode} {n : Nat} (h : env.PieceAt o (.branch code (.offset n))) (s : State) :
    Path env 1 (s.goto env o) [] (s.goto env (if holds code s.flags then n else o + 6)) :=
  (h.trace_branch s).path

/-- The address of an offset is put into a register. -/
theorem PieceAt.trace_address {dest : Reg} {n : Nat} (h : env.PieceAt o (.address dest n)) (s : State) :
    Trace env [.address dest (displacementTo n (o + 7))] (s.goto env o)
      ((s.set dest (env.base + UInt64.ofNat n)).goto env (o + 7)) := by
  have haddress : env.InstructionAt o (.address dest (displacementTo n (o + 7))) := h.2
  have hbase : env.base + UInt64.ofNat (o + (Instruction.address dest (displacementTo n (o + 7))).size) +
      wordOfInt32 (displacementTo n (o + 7)) = env.base + UInt64.ofNat n := base_add_displacementTo env h.1
  refine .cons (haddress.fetch s) ?_ (.nil _)
  rw [haddress.step s, Environment.execute, hbase]
  rfl

/-- A call pushes the address behind it and leads to its target. -/
theorem PieceAt.path_call {n : Nat} {s t : State} (h : env.PieceAt o (.call (.offset n)))
    (hpush : env.pushWord (s.goto env o) (env.base + UInt64.ofNat (o + 5)) = .ok t) :
    Path env 1 (s.goto env o) [] (t.goto env n) := by
  have hbase : env.base + UInt64.ofNat (o + (Instruction.call (displacementTo n (o + 5))).size) +
      wordOfInt32 (displacementTo n (o + 5)) = env.base + UInt64.ofNat n := base_add_displacementTo env h.1
  have hcall : env.InstructionAt o (.call (displacementTo n (o + 5))) := h.2
  refine .single ?_
  rw [hcall.step s, Environment.execute, hbase]
  show (env.pushWord (s.goto env o) (env.base + UInt64.ofNat (o + 5)) >>= _) = _
  rw [hpush]
  rfl

end Environment

end RegisterCompiler.Machine
