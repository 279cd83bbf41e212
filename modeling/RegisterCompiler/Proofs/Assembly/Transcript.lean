import RegisterCompiler.Proofs.Assembly.Bench
import RegisterCompiler.Proofs.ControlFlow.Targets
import RegisterCompiler.Proofs.Word

/-!
# What a listing has to show

The calls of an assembler leave a record: one `Entry` for each line that a reader of the code has to see, with the names, numbers
and targets that were asked for, and with the number of bytes that the line stands for. The record is made from the calls alone,
without an assembler, an encoding or an instruction; that an emission writes just these lines is proved
(`Emission.lines_sequence`). A `transcript` puts the offsets and the labels to the record: the label of an offset is its rank among
the offsets that the record refers to.
-/

namespace RegisterCompiler.X64

/-- An offset in the text that refers to it. -/
structure Reference where
  before : String
  target : Nat
  behind : String

/-- What was asked to stand in the code: a line that refers to no code, data, or a line that refers to an offset. What a hole
refers to is not known before it is asked for. -/
inductive Entry where
  | line (size : Nat) (text : String)
  | data (bytes : List UInt8)
  | reference (size : Nat) (refers : Option Reference)

namespace Entry

/-- The number of bytes of an entry. -/
def size : Entry → Nat
  | line size _ => size
  | data bytes => bytes.length
  | reference size _ => size

/-- The offset that an entry refers to. -/
def target? : Entry → Option Nat
  | reference _ (some r) => some r.target
  | _ => none

/-- The text of an entry, given the names of offsets; empty data and an open hole are not shown. -/
def text? (name : Nat → String) : Entry → Option String
  | line _ text => some text
  | data bytes => if bytes = [] then none else some (".ascii \"" ++ escapeBytes bytes ++ "\"")
  | reference _ (some r) => some (r.before ++ name r.target ++ r.behind)
  | reference _ none => none

end Entry

/-- The number of bytes of a record. -/
def recordSize (record : List Entry) : Nat := (record.map Entry.size).sum

/-! ## What the calls ask for -/

/-- The operand of a slot: its distance below the stack pointer. -/
def Slot.text : Slot → String
  | spill => "[rsp - 8]"
  | savedRax => "[rsp - 8]"
  | savedRdx => "[rsp - 16]"
  | savedRbx => "[rsp - 24]"
  | result => "[rsp - 32]"
  | divisor => "[rsp - 40]"

/-- A line with two operands. -/
def twoOperands (mnemonic first second : String) : String := mnemonic ++ " " ++ first ++ ", " ++ second

/-- A move from one register to another. -/
def moveLine (dest source : Reg) : Entry := .line 3 (twoOperands "mov" dest.name source.name)

/-- A number put into a register: it is written in eight bytes, whatever its size. -/
def numberLine (dest : Reg) (imm : Int64) : Entry := .line 10 (twoOperands "mov" dest.name (toString imm.toInt))

/-- A register put into a slot. -/
def storeLine (slot : Slot) (source : Reg) : Entry := .line 5 (twoOperands "mov" slot.text source.name)

/-- A slot put into a register. -/
def loadLine (dest : Reg) (slot : Slot) : Entry := .line 5 (twoOperands "mov" dest.name slot.text)

/-- An instruction that needs a prefix for the registers from `r8` on and for no other. -/
def prefixedLine (mnemonic : String) (size : Nat) (r : Reg) : Entry :=
  .line (if 8 ≤ r.number.val then size + 1 else size) (mnemonic ++ " " ++ r.name)

/-- The lines of an instruction on an immediate that is too large for it: the immediate goes through another register, which is
kept in a slot meanwhile. -/
def spilledLines (dest : Reg) (imm : Int64) (use : Reg → Entry) : List Entry :=
  let borrowed : Reg := if dest = .rax then .rbx else .rax
  [storeLine .spill borrowed, numberLine borrowed imm, use borrowed, loadLine borrowed .spill]

/-- The lines of an instruction on an immediate of any size. One that fits one byte is written in one, and others in four. -/
def immediateLines (dest : Reg) (imm : Int64) (short : String) (use : Reg → Entry) : List Entry :=
  if -2 ^ 31 ≤ imm.toInt ∧ imm.toInt < 2 ^ 31 then
    [.line (if -2 ^ 7 ≤ imm.toInt ∧ imm.toInt < 2 ^ 7 then 4 else 7) short]
  else spilledLines dest imm use

/-- The lines of a division. -/
def divisionLines (dest : Reg) (divisor : Divisor) (part : DivisionPart) : List Entry :=
  let keep := match divisor with
    | .register source => [storeLine .divisor source]
    | .immediate _ => []
  let fetch := match divisor with
    | .register _ => loadLine .rbx .divisor
    | .immediate imm => numberLine .rbx imm
  let result := match part with
    | .quotient => Reg.rax
    | .remainder => Reg.rdx
  [storeLine .savedRax .rax, storeLine .savedRdx .rdx, storeLine .savedRbx .rbx, storeLine .result dest] ++ keep ++
    [loadLine .rax .result, fetch, .line 2 "cqo", .line 3 "idiv rbx", storeLine .result result, loadLine .rax .savedRax,
      loadLine .rdx .savedRdx, loadLine .rbx .savedRbx, loadLine dest .result]

/-- The lines that an emission asks for, each with its number of bytes and with the registers and numbers that were given. -/
def Emission.entries : Emission → List Entry
  | move dest source => [moveLine dest source]
  | moveImmediate dest imm => [numberLine dest imm]
  | alu op dest source => [.line 3 (twoOperands op.mnemonic dest.name source.name)]
  | aluImmediate op dest imm =>
    immediateLines dest imm (twoOperands op.mnemonic dest.name (toString imm.toInt)) fun borrowed =>
      .line 3 (twoOperands op.mnemonic dest.name borrowed.name)
  | multiply dest source => [.line 4 (twoOperands "imul" dest.name source.name)]
  | multiplyImmediate dest imm =>
    immediateLines dest imm (twoOperands "imul" dest.name dest.name ++ ", " ++ toString imm.toInt) fun borrowed =>
      .line 4 (twoOperands "imul" dest.name borrowed.name)
  | divideBy dest divisor part => divisionLines dest divisor part
  | extendSign => [.line 2 "cqo"]
  | divide divisor => [.line 3 ("idiv " ++ divisor.name)]
  | push r => [prefixedLine "push" 1 r]
  | pop r => [prefixedLine "pop" 1 r]
  | pushAll => Reg.saved.map (prefixedLine "push" 1)
  | popAll => Reg.saved.reverse.map (prefixedLine "pop" 1)
  | callRegister r => [prefixedLine "call" 2 r]
  | ret => [.line 1 "ret"]

/-- What a hole that is filled refers to. -/
def Filling.reference {kind : HoleKind} (filling : Filling kind) (target : Nat) : Reference :=
  let mnemonic := match filling with
    | jump => "jmp"
    | branch comparison inverted => (if inverted then comparison.complement else comparison).code.mnemonic
    | call => "call"
  ⟨mnemonic ++ " ", target, ""⟩

/-- What an address refers to. -/
def addressReference (dest : Reg) (target : Nat) : Reference := ⟨"lea " ++ dest.name ++ ", [rip -> ", target, "]"⟩

/-- The record behind one more call. An address that is out of reach is refused and not written; a hole knows the number of its
entry. -/
def Call.record (record : List Entry) : Call → List Entry
  | .emit emission => record ++ emission.entries
  | .address dest target =>
    if InReach target.toNat (recordSize record + 7) then
      record ++ [.reference 7 (some (addressReference dest target.toNat))]
    else record
  | .storeSlot _ _ => record
  | .loadSlot _ _ => record
  | .embed bytes => record ++ [.data bytes]
  | .reserve kind => record ++ [.reference kind.size none]
  | @patch kind hole target filling =>
    record.set hole.index (.reference kind.size (some (filling.reference target)))
  | .jumpBack target => record ++ [.reference HoleKind.jump.size (some (Filling.jump.reference target))]

/-- The record of calls. -/
def recordOf (calls : List Call) : List Entry := calls.foldl Call.record []

/-! ## The transcript of a record -/

/-- The label of an offset: the number of smaller ones among the targets. -/
def labelOf (targets : List Nat) (offset : Nat) : String := "L" ++ toString (Nat.count (· ∈ targets) offset)

/-- The lines of an entry at an offset: a label, if the offset is a target, and the text behind the offset. -/
def Entry.lines (targets : List Nat) (offset : Nat) (e : Entry) : List String :=
  match e.text? (labelOf targets) with
  | none => []
  | some text =>
    (if offset ∈ targets then [labelOf targets offset ++ ":"] else []) ++ [hexOffset offset ++ ": " ++ text]

/-- The lines of a record from an offset on. -/
def recordLines (targets : List Nat) (offset : Nat) : List Entry → List String
  | [] => []
  | e :: rest => e.lines targets offset ++ recordLines targets (offset + e.size) rest

/-- The offsets that a record refers to. -/
def recordTargets (record : List Entry) : List Nat := record.filterMap Entry.target?

/-- The lines that a listing has to show for a record. -/
def transcript (record : List Entry) : List String := recordLines (recordTargets record) 0 record

/-! ## What emissions write -/

/-- The line of an instruction that refers to no code. -/
def lineOf (i : Instruction) : Entry := .line i.size (i.text "")

/-- An operand on the stack shows the distance of its slot. -/
theorem stackText_displacement (s : Slot) : Instruction.stackText s.displacement = s.text := by cases s <;> decide +kernel

/-- The distance of a slot fits one byte. -/
theorem length_stackOperand (r : Reg) (s : Slot) : (stackOperand r s.displacement).length = 3 := by
  have hfits : fitsByte s.displacement = true := by cases s <;> decide +kernel
  rw [stackOperand, if_pos hfits]
  rfl

/-- A store to a slot writes the line that names the slot. -/
theorem lineOf_storeSlot (s : Slot) (source : Reg) : lineOf (storeSlot s source) = storeLine s source := by
  have hsize : (storeSlot s source).size = 5 := congrArg (· + 2) (length_stackOperand source s)
  rw [lineOf, hsize, storeSlot, Instruction.text, stackText_displacement]
  rfl

/-- So does a load from one. -/
theorem lineOf_loadSlot (dest : Reg) (s : Slot) : lineOf (loadSlot dest s) = loadLine dest s := by
  have hsize : (loadSlot dest s).size = 5 := congrArg (· + 2) (length_stackOperand dest s)
  rw [lineOf, hsize, loadSlot, Instruction.text, stackText_displacement]
  rfl

/-- An instruction that names one register has a prefix exactly from `r8` on. -/
theorem lineOf_prefixed (r : Reg) :
    lineOf (.push r) = prefixedLine "push" 1 r ∧ lineOf (.pop r) = prefixedLine "pop" 1 r ∧
      lineOf (.callRegister r) = prefixedLine "call" 2 r := by
  cases r <;> exact ⟨rfl, rfl, rfl⟩

/-- Of two encodings for an immediate, the short one is taken exactly if the immediate fits one byte. -/
theorem length_ite_fitsByte {imm : Int64} (h : -2 ^ 31 ≤ imm.toInt ∧ imm.toInt < 2 ^ 31) (short long : List UInt8) :
    (if fitsByte imm.toInt32 then short else long).length =
      if -2 ^ 7 ≤ imm.toInt ∧ imm.toInt < 2 ^ 7 then short.length else long.length := by
  simp only [apply_ite List.length, fitsByte_iff, toInt_toInt32 h]

/-- The short form of an operation on an immediate has one byte for it, and the long form has four. -/
theorem lineOf_aluImmediate (op : Alu) (dest : Reg) {imm : Int64} (h : -2 ^ 31 ≤ imm.toInt ∧ imm.toInt < 2 ^ 31) :
    lineOf (.aluImmediate op dest imm.toInt32) = .line (if -2 ^ 7 ≤ imm.toInt ∧ imm.toInt < 2 ^ 7 then 4 else 7)
      (twoOperands op.mnemonic dest.name (toString imm.toInt)) := by
  have hsize : (Instruction.aluImmediate op dest imm.toInt32).size = if -2 ^ 7 ≤ imm.toInt ∧ imm.toInt < 2 ^ 7 then 4 else 7 :=
    length_ite_fitsByte h _ _
  rw [lineOf, hsize, Instruction.text, toInt_toInt32 h]
  rfl

/-- So it is with a multiplication. -/
theorem lineOf_multiplyImmediate (dest source : Reg) {imm : Int64} (h : -2 ^ 31 ≤ imm.toInt ∧ imm.toInt < 2 ^ 31) :
    lineOf (.multiplyImmediate dest source imm.toInt32) = .line (if -2 ^ 7 ≤ imm.toInt ∧ imm.toInt < 2 ^ 7 then 4 else 7)
      (twoOperands "imul" dest.name source.name ++ ", " ++ toString imm.toInt) := by
  have hsize : (Instruction.multiplyImmediate dest source imm.toInt32).size =
      if -2 ^ 7 ≤ imm.toInt ∧ imm.toInt < 2 ^ 7 then 4 else 7 := length_ite_fitsByte h _ _
  rw [lineOf, hsize, Instruction.text, toInt_toInt32 h]
  rfl

/-- An instruction on a large immediate shows the number that was given. -/
theorem lines_withImmediate {dest : Reg} {imm : Int64} {use : Reg → Instruction} {line : Reg → Entry}
    (huse : ∀ r, lineOf (use r) = line r) : (withImmediate dest imm use).map lineOf = spilledLines dest imm line := by
  simp only [withImmediate, List.map_cons, List.map_nil, lineOf_storeSlot, lineOf_loadSlot, huse]
  rfl

/-- An emission writes one instruction for each line that it asks for, in their order, of its size and with its text. -/
theorem Emission.lines_sequence (emission : Emission) : emission.sequence.map lineOf = emission.entries := by
  cases emission with
  | aluImmediate op dest imm =>
    simp only [sequence, entries, X64.aluImmediate, immediateLines, fitsImmediate_iff]
    split
    · rename_i hfits
      rw [List.map_cons, lineOf_aluImmediate op dest hfits, List.map_nil]
    · exact lines_withImmediate fun r => rfl
  | multiplyImmediate dest imm =>
    simp only [sequence, entries, X64.multiplyImmediate, immediateLines, fitsImmediate_iff]
    split
    · rename_i hfits
      rw [List.map_cons, lineOf_multiplyImmediate dest dest hfits, List.map_nil]
    · exact lines_withImmediate fun r => rfl
  | divideBy dest divisor part =>
    cases divisor <;> cases part <;>
      simp only [sequence, entries, X64.divideBy, divisionLines, List.map_append, List.map_cons, List.map_nil, lineOf_storeSlot,
        lineOf_loadSlot] <;> rfl
  | push r => exact congrArg (fun e => [e]) (lineOf_prefixed r).1
  | pop r => exact congrArg (fun e => [e]) (lineOf_prefixed r).2.1
  | callRegister r => exact congrArg (fun e => [e]) (lineOf_prefixed r).2.2
  | pushAll => rfl
  | popAll => rfl
  | _ => rfl

/-- An emission refers to no code, and every instruction of it does something. -/
theorem Emission.properSequence (emission : Emission) : ProperSequence emission.sequence := by
  cases emission with
  | aluImmediate op dest imm => exact properSequence_aluImmediate op dest imm
  | multiplyImmediate dest imm => exact properSequence_multiplyImmediate dest imm
  | divideBy dest divisor part => exact properSequence_divideBy dest divisor part
  | pushAll => exact properSequence_pushAll
  | popAll => exact properSequence_popAll
  | _ => exact properSequence_singleton nofun rfl

end RegisterCompiler.X64
