import RegisterCompiler.Proofs.Decoding
import RegisterCompiler.Proofs.Layout.TwoPass

/-!
# Pieces read back

Code written for good decodes, from its first byte to its last, to exactly the instructions and texts it was written as
(`chunks_codeOf`). A text is stepped over because its stretch is the first one that has its offset: the stretches of data lie one
behind the other.
-/

namespace RegisterCompiler

open X64 (ByteRange Chunk Instruction Item)

/-- The offset that a piece refers to, if it is known. -/
def Piece.offset? (piece : Piece) : Option Nat :=
  match piece.target? with
  | some (.offset n) => some n
  | _ => none

/-- What a listing shows for a piece at an offset; an empty text is not shown. -/
def Piece.chunk? (offset : Nat) (piece : Piece) : Option Chunk :=
  match piece.item offset with
  | .instruction i => some (.instruction offset i piece.size piece.offset?)
  | .data bytes => if bytes.isEmpty then none else some (.data offset bytes)
  | .hole _ => none

/-- What a listing shows for pieces from an offset on. -/
def chunksOf (offset : Nat) (pieces : List Piece) : List Chunk := (located offset pieces).filterMap fun p => p.2.chunk? p.1

/-- A piece that holds an instruction which refers to no code outside a jump, branch, call or address, and which does something. -/
def Piece.Proper (piece : Piece) : Prop := ∀ i, piece = .plain i → i ≠ .nop ∧ i.displacement? = none

/-- A proper piece that lands is an instruction that refers where the piece does, or a text. -/
theorem Piece.item_of_lands {offset : Nat} {piece : Piece} (h : piece.Lands offset) (hproper : piece.Proper) :
    (∃ i, piece.item offset = .instruction i ∧ i.size = piece.size ∧
        i.displacement?.map (fun d => ((offset + i.size : Nat) : Int) + d.toInt) = piece.offset?.map Nat.cast) ∨
      ∃ bytes, piece = .text bytes := by
  cases piece with
  | plain i => exact Or.inl ⟨i, rfl, rfl, by rw [(hproper i rfl).2]; rfl⟩
  | text bytes => exact Or.inr ⟨bytes, rfl⟩
  | jump target =>
    cases target with
    | offset n => exact Or.inl ⟨_, rfl, rfl, congrArg some (toInt_displacementTo h)⟩
    | _ => exact h.elim
  | branch code target =>
    cases target with
    | offset n => exact Or.inl ⟨_, rfl, rfl, congrArg some (toInt_displacementTo h)⟩
    | _ => exact h.elim
  | call target =>
    cases target with
    | offset n => exact Or.inl ⟨_, rfl, rfl, congrArg some (toInt_displacementTo h)⟩
    | _ => exact h.elim
  | address dest n => exact Or.inl ⟨_, rfl, rfl, congrArg some (toInt_displacementTo h)⟩

/-! ## One chunk -/

/-- A stretch does not have an offset before its start, nor one from its end on. -/
theorem contains_eq_false {r : ByteRange} {offset : Nat} (h : r.stop ≤ offset ∨ offset < r.start) : r.contains offset = false := by
  unfold ByteRange.contains
  rcases h with h | h
  · simp [Nat.not_lt.2 h]
  · simp [Nat.not_le.2 h]

/-- No stretch is found at an offset that none of them has. -/
theorem find?_contains_eq_none {ranges : List ByteRange} {offset : Nat} (h : ∀ r ∈ ranges, r.contains offset = false) :
    ranges.find? (fun r => r.contains offset) = none := by
  rw [List.find?_eq_none]
  intro r hr
  rw [h r hr]
  exact Bool.false_ne_true

/-- An instruction outside every stretch of data is shown with the offset that it refers to. -/
theorem first_instruction {ranges : List ByteRange} {offset : Nat} {i : Instruction} {target : Option Nat} (rest : List UInt8)
    (hout : ∀ r ∈ ranges, r.contains offset = false)
    (ht : i.displacement?.map (fun d => ((offset + i.size : Nat) : Int) + d.toInt) = target.map Nat.cast) :
    Chunk.first ranges offset (i.encode ++ rest) = .ok (.instruction offset i i.size target) := by
  unfold Chunk.first
  simp only [find?_contains_eq_none hout, X64.decode_encode_append]
  cases hd : i.displacement? with
  | none =>
    rw [hd] at ht
    obtain rfl : target = none := by simpa using ht.symm
    rfl
  | some d =>
    rw [hd] at ht
    cases target with
    | none => cases ht
    | some n =>
      have hn : ((offset + i.size : Nat) : Int) + d.toInt = n := Option.some.inj ht
      simp only [hn]
      rw [if_neg (by omega)]
      rfl

/-- A text is shown as data up to the end of its stretch. -/
theorem first_text {before : List ByteRange} (behind : List ByteRange) {offset : Nat} {bytes : List UInt8} (rest : List UInt8)
    (hbytes : bytes ≠ []) (hbefore : ∀ r ∈ before, r.contains offset = false) :
    Chunk.first (before ++ ⟨offset, offset + bytes.length⟩ :: behind) offset (bytes ++ rest) = .ok (.data offset bytes) := by
  have hcontains : ByteRange.contains ⟨offset, offset + bytes.length⟩ offset = true := by
    have := List.length_pos_iff.2 hbytes
    simp [ByteRange.contains, this]
  have hfind : (before ++ ⟨offset, offset + bytes.length⟩ :: behind).find? (fun r => r.contains offset) =
      some ⟨offset, offset + bytes.length⟩ := by
    rw [List.find?_append, find?_contains_eq_none hbefore, Option.none_or, List.find?_cons, hcontains]
  unfold Chunk.first
  simp only [hfind]
  rw [Nat.add_sub_cancel_left, List.take_left]

/-! ## Many chunks -/

/-- Bytes of an earlier chunk are passed over. -/
theorem cut_skip (ranges : List ByteRange) (offset : Nat) (bytes rest : List UInt8) :
    Chunk.cut ranges offset bytes.length (bytes ++ rest) = Chunk.cut ranges (offset + bytes.length) 0 rest := by
  induction bytes generalizing offset with
  | nil => rfl
  | cons b bytes ih =>
    rw [List.length_cons, List.cons_append, Chunk.cut, ih, Nat.add_right_comm, Nat.add_assoc]

/-- A chunk is cut off where all of its bytes end. -/
theorem cut_chunk {ranges : List ByteRange} {offset : Nat} {bytes rest : List UInt8} {c : Chunk} (hbytes : bytes ≠ [])
    (hfirst : Chunk.first ranges offset (bytes ++ rest) = .ok c) (hsize : c.size = bytes.length) :
    Chunk.cut ranges offset 0 (bytes ++ rest) = (Chunk.cut ranges (offset + bytes.length) 0 rest).map (c :: ·) := by
  cases bytes with
  | nil => exact absurd rfl hbytes
  | cons b bytes =>
    rw [List.cons_append] at hfirst ⊢
    rw [Chunk.cut, hfirst]
    simp only [hsize, List.length_cons, Nat.add_sub_cancel]
    rw [cut_skip, Nat.add_right_comm, Nat.add_assoc]

/-- Stretches of data of items lie behind the offset of the first item. -/
theorem start_le_of_mem_dataRanges {offset : Nat} {items : List Item} {r : ByteRange} (h : r ∈ X64.dataRanges offset items) :
    offset ≤ r.start := by
  induction items generalizing offset with
  | nil => exact absurd h List.not_mem_nil
  | cons item rest ih =>
    cases item with
    | data bytes =>
      rcases List.mem_cons.1 h with rfl | h
      · exact Nat.le_refl _
      · have := ih h
        omega
    | instruction i =>
      have := ih h
      omega
    | hole kind =>
      have := ih h
      omega

/-- An instruction is cut off what follows it. -/
theorem cut_instruction {ranges : List ByteRange} {offset : Nat} {i : Instruction} {target : Option Nat} {rest : List UInt8}
    (hout : ∀ r ∈ ranges, r.contains offset = false)
    (ht : i.displacement?.map (fun d => ((offset + i.size : Nat) : Int) + d.toInt) = target.map Nat.cast) :
    Chunk.cut ranges offset 0 (i.encode ++ rest) =
      (Chunk.cut ranges (offset + i.size) 0 rest).map (.instruction offset i i.size target :: ·) := by
  have hpos : i.encode ≠ [] := List.length_pos_iff.1 i.size_pos
  rw [cut_chunk hpos (first_instruction rest hout ht) rfl, show i.encode.length = i.size from rfl]

/-- A text is cut off what follows it, if there is something of it. -/
theorem cut_text {before behind : List ByteRange} {offset : Nat} {bytes rest : List UInt8}
    (hbefore : ∀ r ∈ before, r.stop ≤ offset) :
    Chunk.cut (before ++ ⟨offset, offset + bytes.length⟩ :: behind) offset 0 (bytes ++ rest) =
      (Chunk.cut (before ++ ⟨offset, offset + bytes.length⟩ :: behind) (offset + bytes.length) 0 rest).map fun cs =>
        if bytes = [] then cs else .data offset bytes :: cs := by
  by_cases hempty : bytes = []
  · subst hempty
    simp only [List.nil_append, List.length_nil, Nat.add_zero, if_true]
    cases Chunk.cut (before ++ ⟨offset, offset⟩ :: behind) offset 0 rest <;> rfl
  · have hfirst := first_text behind rest hempty fun r hr => contains_eq_false (.inl (hbefore r hr))
    simp only [if_neg hempty, cut_chunk hempty hfirst rfl]

/-- Code that stands between stretches of data decodes to the pieces it was written as, whatever bytes follow it. -/
theorem cut_bytesOf {pieces : List Piece} {offset : Nat} (before behind : List ByteRange) (rest : List UInt8)
    (hland : AllLand offset pieces) (hproper : ∀ p ∈ pieces, p.Proper) (hbefore : ∀ r ∈ before, r.stop ≤ offset)
    (hbehind : ∀ r ∈ behind, offset + piecesSize pieces ≤ r.start) :
    Chunk.cut (before ++ (X64.dataRanges offset (itemsOf offset pieces) ++ behind)) offset 0 (bytesOf offset pieces ++ rest) =
      (Chunk.cut (before ++ (X64.dataRanges offset (itemsOf offset pieces) ++ behind)) (offset + piecesSize pieces) 0 rest).map
        (chunksOf offset pieces ++ ·) := by
  induction pieces generalizing offset before with
  | nil =>
    show Chunk.cut (before ++ behind) offset 0 rest = (Chunk.cut (before ++ behind) offset 0 rest).map fun cs => cs
    cases Chunk.cut (before ++ behind) offset 0 rest <;> rfl
  | cons p others ih =>
    obtain ⟨hp, hothers⟩ := (allLand_cons _ _ _).1 hland
    have hall := fun q hq => hproper q (List.mem_cons_of_mem p hq)
    rw [piecesSize_cons, ← Nat.add_assoc] at hbehind ⊢
    rw [bytesOf_cons, List.append_assoc]
    -- a piece is one instruction, in no stretch of data, or a text, which is a stretch of its own
    rcases Piece.item_of_lands hp (hproper p (.head _)) with ⟨i, hitem, hsize, htarget⟩ | ⟨bytes, rfl⟩
    · have hranges : X64.dataRanges offset (itemsOf offset (p :: others)) =
          X64.dataRanges (offset + p.size) (itemsOf (offset + p.size) others) := by
        rw [itemsOf_cons, ← Piece.size_item offset p, hitem]
        rfl
      have hout : ∀ r ∈ before ++ (X64.dataRanges (offset + p.size) (itemsOf (offset + p.size) others) ++ behind),
          r.contains offset = false := by
        intro r hr
        have hpos := i.size_pos
        rcases List.mem_append.1 hr with hr | hr
        · exact contains_eq_false (.inl (hbefore r hr))
        · rcases List.mem_append.1 hr with hr | hr
          · have := start_le_of_mem_dataRanges hr
            exact contains_eq_false (.inr (by omega))
          · have := hbehind r hr
            exact contains_eq_false (.inr (by omega))
      have hchunk : chunksOf offset (p :: others) =
          .instruction offset i i.size p.offset? :: chunksOf (offset + p.size) others := by
        simp [chunksOf, Piece.chunk?, hitem, hsize]
      have hnext := ih before hothers hall (fun r hr => (hbefore r hr).trans (Nat.le_add_right offset p.size)) hbehind
      rw [hranges, hitem, hchunk]
      rw [show (Item.instruction i).encode = i.encode from rfl, cut_instruction hout htarget, hsize, hnext]
      cases Chunk.cut _ (offset + p.size + piecesSize others) 0 rest <;> rfl
    · have hranges : X64.dataRanges offset (itemsOf offset (.text bytes :: others)) =
          ⟨offset, offset + bytes.length⟩ :: X64.dataRanges (offset + bytes.length) (itemsOf (offset + bytes.length) others) := rfl
      have hchunk : chunksOf offset (.text bytes :: others) =
          if bytes = [] then chunksOf (offset + bytes.length) others
          else .data offset bytes :: chunksOf (offset + bytes.length) others := by
        by_cases hempty : bytes = [] <;> simp [chunksOf, Piece.chunk?, Piece.item, Piece.size, hempty]
      have hstops : ∀ r ∈ before ++ [⟨offset, offset + bytes.length⟩], r.stop ≤ offset + bytes.length := by
        intro r hr
        rcases List.mem_append.1 hr with hr | hr
        · exact (hbefore r hr).trans (Nat.le_add_right _ _)
        · obtain rfl := List.mem_singleton.1 hr
          exact Nat.le_refl _
      have hnext := ih _ hothers hall hstops hbehind
      rw [List.append_assoc, List.singleton_append, show (Piece.text bytes).size = bytes.length from rfl] at hnext
      rw [hranges, hchunk, List.cons_append, show (Piece.text bytes).size = bytes.length from rfl,
        show ((Piece.text bytes).item offset).encode = bytes from rfl, cut_text hbefore, hnext]
      cases Chunk.cut _ (offset + bytes.length + piecesSize others) 0 rest with
      | error e => rfl
      | ok cs => by_cases hempty : bytes = [] <;> simp [hempty, Except.map]

/-- Code written for good decodes to the pieces it was written as. -/
theorem chunks_codeOf {pieces : List Piece} (hland : AllLand 0 pieces) (hproper : ∀ p ∈ pieces, p.Proper) :
    X64.chunks (codeOf pieces).data (codeOf pieces).bytes = .ok (chunksOf 0 pieces) := by
  have hcut := cut_bytesOf [] [] [] hland hproper nofun nofun
  rw [List.nil_append, List.append_nil, List.append_nil, Chunk.cut, Except.map, List.append_nil] at hcut
  exact hcut

end RegisterCompiler
