import RegisterCompiler.Proofs.Assembly.ReadBack
import RegisterCompiler.Proofs.Listing.Consumed
import RegisterCompiler.Proofs.Session.Extended

/-!
# Code that is cut short

Code that ends inside an instruction is not listed: what is left of the instruction is no instruction and nothing else either
(`decode_take_encode`), and what stands before it is decoded as in the whole code, so that the code is found too short
(`Bench.listing_take_of_run`).
-/

namespace RegisterCompiler

open X64 (ByteRange Chunk Instruction Item)

/-! ## The first pieces of code -/

/-- The bytes of two parts are those of each, the second one located behind the first. -/
theorem bytesOf_append (offset : Nat) (front back : List Piece) :
    bytesOf offset (front ++ back) = bytesOf offset front ++ bytesOf (offset + piecesSize front) back := by
  rw [bytesOf, itemsOf_append, List.flatMap_append, bytesOf, bytesOf]

/-- Of code that is cut short behind some pieces, these pieces are decoded first. -/
theorem chunks_take {front back : List Piece} (hland : AllLand 0 (front ++ back)) (hproper : ∀ p ∈ front ++ back, p.Proper)
    (k : Nat) :
    X64.chunks (codeOf (front ++ back)).data ((codeOf (front ++ back)).bytes.take (piecesSize front + k)) =
      (Chunk.cut (codeOf (front ++ back)).data (piecesSize front) 0 ((bytesOf (piecesSize front) back).take k)).map
        (chunksOf 0 front ++ ·) := by
  have hdata : (codeOf (front ++ back)).data = X64.dataRanges 0 (itemsOf 0 front) ++
      X64.dataRanges (0 + piecesSize front) (itemsOf (0 + piecesSize front) back) := by
    rw [codeOf, itemsOf_append, X64.dataRanges_append, itemsSize_itemsOf]
  have hbytes : (codeOf (front ++ back)).bytes.take (piecesSize front + k) =
      bytesOf 0 front ++ (bytesOf (0 + piecesSize front) back).take k := by
    rw [show (codeOf (front ++ back)).bytes = bytesOf 0 (front ++ back) from rfl, bytesOf_append, ← length_bytesOf 0 front,
      List.take_length_add_append]
  have hcut := cut_bytesOf [] (X64.dataRanges (0 + piecesSize front) (itemsOf (0 + piecesSize front) back))
    ((bytesOf (0 + piecesSize front) back).take k) ((allLand_append _ _ _).1 hland).1
    (fun p hp => hproper p (List.mem_append_left back hp)) nofun fun r hr => start_le_of_mem_dataRanges hr
  rw [X64.chunks, hdata, hbytes]
  simpa only [List.nil_append, Nat.zero_add] using hcut

/-- What is left of an instruction is found too short, where it is not data. -/
theorem cut_take_encode {ranges : List ByteRange} {offset k n : Nat} {i : Instruction}
    (hout : ∀ r ∈ ranges, r.contains offset = false) (hpos : 0 < k)
    (hdecode : X64.decode (i.encode.take k) = .error (.endOfCode n)) :
    Chunk.cut ranges offset 0 (i.encode.take k) = .error (.endOfCode (offset + n)) := by
  have hfirst : Chunk.first ranges offset (i.encode.take k) = .error (.endOfCode (offset + n)) := by
    unfold Chunk.first
    simp only [find?_contains_eq_none hout, hdecode]
    rfl
  have hne : i.encode.take k ≠ [] := by
    rw [← List.length_pos_iff, List.length_take]
    exact lt_min hpos i.size_pos
  obtain ⟨b, rest, hbytes⟩ := List.exists_cons_of_ne_nil hne
  rw [hbytes] at hfirst ⊢
  rw [Chunk.cut, hfirst]

/-- Where no piece is a text, there is no data. -/
theorem dataRanges_itemsOf_eq_nil {pieces : List Piece} (h : ∀ bytes, .text bytes ∉ pieces) (offset : Nat) :
    X64.dataRanges offset (itemsOf offset pieces) = [] := by
  induction pieces generalizing offset with
  | nil => rfl
  | cons p rest ih =>
    have hrest := ih (fun bytes hbytes => h bytes (.tail _ hbytes)) (offset + p.size)
    rw [itemsOf_cons]
    cases p with
    | text bytes => exact absurd (List.mem_cons_self) (h bytes)
    | plain i => exact hrest
    | address dest target => exact hrest
    | jump target => cases target <;> exact hrest
    | branch code target => cases target <;> exact hrest
    | call target => cases target <;> exact hrest

namespace X64

/-! ## Code without data -/

/-- Only data describes a text. -/
theorem Entry.Describes.eq_data {e : Entry} {p : Piece} {bytes : List UInt8} (h : e.Describes p) (hp : p = .text bytes) :
    e = .data bytes := by
  cases h with
  | data other => exact congrArg Entry.data (Piece.text.inj hp)
  | hole kind refers => cases kind <;> cases hp
  | filled filling target => cases filling <;> cases hp
  | line i => cases hp
  | address dest target => cases hp

/-- Only embedding records data. -/
theorem data_notMem_record {record : List Entry} {c : Call} (hc : ∀ bytes, c ≠ .embed bytes) (h : ∀ bytes, .data bytes ∉ record)
    (bytes : List UInt8) : .data bytes ∉ c.record record := by
  cases c with
  | emit emission => simp [Call.record, ← emission.lines_sequence, lineOf, h bytes]
  | address dest target =>
    rw [Call.record]
    split
    · simp [h bytes]
    · exact h bytes
  | storeSlot slot source => exact h bytes
  | loadSlot dest slot => exact h bytes
  | embed other => exact absurd rfl (hc other)
  | reserve kind => simp [Call.record, h bytes]
  | patch hole target filling =>
    intro hmem
    rcases List.mem_or_eq_of_mem_set hmem with hmem | heq
    · exact h bytes hmem
    · cases heq
  | jumpBack target => simp [Call.record, h bytes]

/-- Calls that embed nothing record no data. -/
theorem data_notMem_recordOf {calls : List Call} (h : ∀ bytes, .embed bytes ∉ calls) (bytes : List UInt8) :
    .data bytes ∉ recordOf calls := by
  have hall : ∀ record : List Entry, (∀ bytes, .data bytes ∉ record) → ∀ bytes, .data bytes ∉ calls.foldl Call.record record := by
    intro record hrecord
    induction calls generalizing record with
    | nil => exact hrecord
    | cons c rest ih =>
      refine ih (fun other hother => h other (.tail _ hother)) _ (data_notMem_record (fun other hc => ?_) hrecord)
      exact h other (hc ▸ List.mem_cons_self)
  exact hall [] (fun _ => List.not_mem_nil) bytes

/-! ## Finished code -/

namespace Bench

variable {b : Bench} {calls : List Call}

/-- Truncated code is always noticed. Whatever calls finished code was written by, if no data is among it, then the bytes of any
instruction of it without its last ones are no instruction, and the code that ends with them is refused: a byte is missing there.
The code that ends before the instruction is listed. The offset of an address must be one that code can have. -/
theorem listing_take_of_run {code : Code} {before behind : List Item} {i : Instruction} {k : Nat}
    (haddress : ∀ dest target, .address dest target ∈ calls → target.toNat < 2 ^ 63) (hdata : ∀ bytes, .embed bytes ∉ calls)
    (hrun : start.run calls = some b) (hfinish : b.assembler.finish = .ok code)
    (hitems : b.items = before ++ .instruction i :: behind) (hpos : 0 < k) (hk : k < i.size) :
    (∃ n ≤ k, decode (i.encode.take k) = .error (.endOfCode n) ∧ ∀ resolve,
      listing resolve [] (code.bytes.take (itemsSize before + k)) = .error (.endOfCode (itemsSize before + n))) ∧
    ∀ resolve, ∃ text, listing resolve [] (code.bytes.take (itemsSize before)) = .ok text := by
  obtain ⟨written, h⟩ := records_start.run kept_start haddress hrun
  obtain ⟨rfl, hland, hproper⟩ := h.finished hfinish
  have hranges : (codeOf (written.map Prod.snd)).data = [] := by
    refine dataRanges_itemsOf_eq_nil (fun bytes hbytes => ?_) 0
    obtain ⟨w, hw, hpiece⟩ := List.mem_map.1 hbytes
    refine data_notMem_recordOf hdata bytes ?_
    rw [← (h.describes w hw).eq_data hpiece, recordOf, h.record]
    exact List.mem_map_of_mem hw
  -- the instruction is written for a piece, and the items before it for the pieces before that one
  obtain ⟨front, w, back, rfl, rfl, hitem, -⟩ := exists_of_itemsOf_eq (h.items.symm.trans hitems)
  rw [itemsSize_itemsOf, Nat.zero_add] at hitem
  rw [List.map_append, List.map_cons] at hland hproper hranges ⊢
  have htake := chunks_take hland hproper
  rw [hranges] at htake
  have hbytes : ∀ m ≤ i.size, (bytesOf (piecesSize (front.map Prod.snd)) (w.2 :: back.map Prod.snd)).take m = i.encode.take m := by
    intro m hm
    rw [bytesOf_cons, ← hitem]
    exact List.take_append_of_le_length hm
  constructor
  · obtain ⟨n, hn, hdecode⟩ := decode_take_encode i hk
    refine ⟨n, hn, hdecode, fun resolve => ?_⟩
    have hcut := @cut_take_encode [] (piecesSize (front.map Prod.snd)) k n i nofun hpos hdecode
    rw [itemsSize_itemsOf, listing, htake k, hbytes k hk.le, hcut]
    rfl
  · intro resolve
    have hzero := htake 0
    rw [hbytes 0 (Nat.zero_le _), List.take_zero, Nat.add_zero] at hzero
    rw [itemsSize_itemsOf, listing, hzero]
    exact ⟨_, rfl⟩

/-- Calls that count a register down from a large number, and take the address of their loop. -/
def countdown : List Call := [
  .emit (.moveImmediate .rdi 4294967296),
  .reserve .branch,
  .emit (.aluImmediate .sub .rdi 1),
  .jumpBack 10,
  .address .r12 10,
  .emit .ret,
  .patch ⟨1, 10⟩ 25 (.branch .equal false)]

/-- What the calls write. -/
def countdownItems : List Item := [
  .instruction (.moveImmediate .rdi 4294967296),
  .instruction (.branch .equal 9),
  .instruction (.aluImmediate .sub .rdi 1),
  .instruction (.jump (-15)),
  .instruction (.address .r12 (-22)),
  .instruction .ret]

/-- A branch of which three bytes are left. -/
theorem listing_take_of_run_countdown : ∃ b code, start.run countdown = some b ∧ b.assembler.finish = .ok code ∧
    b.items = countdownItems ∧ ∃ n ≤ 3, listing unnamed [] (code.bytes.take 13) = .error (.endOfCode (10 + n)) := by
  have hany : ((start.run countdown).any fun b => decide (b.items = countdownItems) && b.assembler.finish.isOk) = true := by
    decide +kernel
  obtain ⟨b, hrun, hb⟩ := (Option.any_eq_true _ _).1 hany
  obtain ⟨hitems, hok⟩ := Bool.and_eq_true_iff.1 hb
  obtain ⟨code, hfinish⟩ : ∃ code, b.assembler.finish = .ok code := by
    cases h : b.assembler.finish with
    | error e =>
      rw [h] at hok
      cases hok
    | ok code => exact ⟨code, rfl⟩
  have haddress : ∀ dest target, Call.address dest target ∈ countdown → target.toNat < 2 ^ 63 := by
    intro dest target h
    simp only [countdown, List.mem_cons, Call.address.injEq, reduceCtorEq, false_or, or_false, List.not_mem_nil] at h
    obtain ⟨-, rfl⟩ := h
    decide
  have hdata : ∀ bytes, Call.embed bytes ∉ countdown := by simp [countdown]
  have hsplit : b.items = [countdownItems[0]] ++ .instruction (.branch .equal 9) :: countdownItems.drop 2 :=
    of_decide_eq_true hitems
  obtain ⟨⟨n, hn, -, hlisting⟩, -⟩ := listing_take_of_run haddress hdata hrun hfinish hsplit (k := 3) (by decide) (by decide)
  exact ⟨b, code, hrun, hfinish, of_decide_eq_true hitems, n, hn, hlisting unnamed⟩

end Bench

end X64

end RegisterCompiler
