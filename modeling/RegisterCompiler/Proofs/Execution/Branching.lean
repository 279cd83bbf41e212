import RegisterCompiler.Proofs.Assembly.Bench
import RegisterCompiler.Proofs.Execution.Operations
import RegisterCompiler.Proofs.Execution.Standard
import RegisterCompiler.Proofs.Session.Actions

/-!
# Conditions and the branches behind them

The bytes of a condition keep every register, and leave flags of which the relation they come with holds exactly when the condition
is true, in whatever order its operands stand and whatever borrowed register is put back behind the compare. So a branch that is
filled behind them with the relation inverted is taken exactly when the condition is false (`tested_condition`).
-/

namespace RegisterCompiler.Machine

open X64 (Assembler Hole HoleKind Item Sequence itemsSize sequenceBytes)

/-- Whether a condition is true of the operands in a state. -/
def conditionHolds (c : Condition) (s : State) : Bool :=
  c.comparison.holds (signed (valueWord s c.lhs.value)) (signed (valueWord s c.rhs.value))

/-- The processor has come to a state with every register as it was. Nothing is written but right below the stack pointer, so memory
from there on is as it was. -/
structure OnlyFlags (depth : Nat) (s t : State) : Prop where
  registers : ∀ r, t.get r = s.get r
  untouched : Untouched depth s t
  above : depth ≤ (s.get .rsp).toNat → ∀ a, s.get .rsp ≤ a → t.memory.read a = s.memory.read a

/-- What the code of a condition does, and a branch behind it. -/
structure Tested (c : Condition) (sequence : Sequence) (relation : Comparison) : Prop where
  /-- Where the bytes of the condition stand, the relation holds of the flags behind them exactly if the condition is true. -/
  compared : ∀ (env : Environment) (o : Nat) (s : State), env.Holds o (sequenceBytes sequence) → env.Room (compareDepth c) s →
    ∃ t, Carried env o sequence (compareDepth c) s t ∧ OnlyFlags (compareDepth c) s t ∧
      holds relation.code t.flags = conditionHolds c s
  /-- Where a branch is reserved behind them and filled for a target with the relation inverted, whatever is written behind it before
  and after, the processor comes to the target if the condition is false, and behind the branch if it is true. -/
  branched : ∀ (a written b : Assembler) (target : Nat),
    ((a.emitAll sequence).reserve .branch).1.items.toList <+: written.items.toList →
    written.patchBranch ((a.emitAll sequence).reserve .branch).2 target relation true = .ok b →
    ∀ (env : Environment) (s : State), env.Holds a.offset ((b.bytes.drop a.offset).take (sequenceSize sequence + 6)) →
      env.Room (compareDepth c) s → ∃ t, OnlyFlags (compareDepth c) s t ∧ Path env (sequence.length + 1) (s.goto env a.offset) []
        (t.goto env (if conditionHolds c s then a.offset + (sequenceSize sequence + 6) else target))

/-- What keeps every register and writes only right below the stack pointer keeps memory from there on. -/
theorem OnlyFlags.of_untouched {depth : Nat} {s t : State} (hregisters : ∀ r, t.get r = s.get r) (h : Untouched depth s t) :
    OnlyFlags depth s t := by
  refine ⟨hregisters, h, ?_⟩
  intro hdepth a ha
  have hagrees := h.agreesFrom hdepth a.toNat (UInt64.le_iff_toNat_le.1 ha) a.toNat_lt
  rwa [UInt64.ofNat_toNat] at hagrees

/-- A branch that is filled behind a sequence leads to its target, and stands with the sequence in the code. -/
theorem bytes_of_patchBranch {a written b : Assembler} {sequence : Sequence} {target : Nat} {relation : Comparison} {inverted : Bool}
    (hwritten : ((a.emitAll sequence).reserve .branch).1.items.toList <+: written.items.toList)
    (hpatch : written.patchBranch ((a.emitAll sequence).reserve .branch).2 target relation inverted = .ok b) :
    AllLand a.offset (plainPieces sequence ++
      [.branch (if inverted then relation.complement else relation).code (.offset target)]) ∧
    (b.bytes.drop a.offset).take (sequenceSize sequence + 6) = bytesOf a.offset (plainPieces sequence ++
      [.branch (if inverted then relation.complement else relation).code (.offset target)]) := by
  obtain ⟨before, hbefore⟩ : ∃ before, before = a.items.toList ++ sequence.map Item.instruction := ⟨_, rfl⟩
  obtain ⟨behind, hbehind⟩ := hwritten
  have hemitted : (a.emitAll sequence).items.toList = before := (items_emitAll a sequence).trans hbefore.symm
  have hitems : written.items.toList = before ++ .hole .branch :: behind := by
    rw [← hbehind, ← hemitted, Assembler.reserve, X64.items_add, List.append_assoc]
    rfl
  have hhole : ((a.emitAll sequence).reserve .branch).2 = ⟨before.length, itemsSize before⟩ := by
    rw [← hemitted, ← (a.emitAll sequence).offset_eq]
    rfl
  have hsize : itemsSize before = a.offset + sequenceSize sequence := by
    have hsequence := itemsSize_itemsOf 0 (plainPieces sequence)
    rw [itemsOf_plainPieces, piecesSize_plainPieces] at hsequence
    rw [hbefore, X64.itemsSize_append, ← a.offset_eq, hsequence]
  rw [hhole] at hpatch
  -- the branch was filled, so its target is neither refused nor out of reach
  rcases X64.Bench.patch_cases (.branch relation inverted) hitems target with
    ⟨-, herror⟩ | ⟨-, -, herror⟩ | ⟨-, hreach, b', hok, hfilled⟩
  · cases hpatch.symm.trans herror
  · cases hpatch.symm.trans herror
  · obtain rfl := Except.ok.inj (hpatch.symm.trans hok)
    rw [hsize] at hreach hfilled
    obtain ⟨pieces, hpieces⟩ : ∃ pieces, pieces = plainPieces sequence ++
      [.branch (if inverted then relation.complement else relation).code (.offset target)] := ⟨_, rfl⟩
    have hall : b.items.toList = a.items.toList ++ (itemsOf a.offset pieces ++ behind) := by
      rw [hfilled, hbefore, hpieces, itemsOf_append, itemsOf_plainPieces, piecesSize_plainPieces]
      simp only [List.append_assoc]
      rfl
    have hlength : (a.items.toList.flatMap Item.encode).length = a.offset := by
      rw [X64.length_flatMap_encode, ← a.offset_eq]
    have hlast : (bytesOf a.offset pieces).length = sequenceSize sequence + 6 := by
      rw [length_bytesOf, hpieces, piecesSize_append, piecesSize_plainPieces]
      rfl
    rw [← hpieces]
    constructor
    · rw [hpieces, allLand_append, piecesSize_plainPieces, allLand_cons]
      exact ⟨allLand_plainPieces _ _, hreach, allLand_nil _⟩
    · rw [Assembler.bytes, hall, List.flatMap_append, ← hlength, List.drop_left, List.flatMap_append, hlength, ← hlast]
      exact List.take_left

/-- The code of every condition but of two immediates tests it. -/
theorem tested_condition {c : Condition} (hc : c.bothImmediate = false) :
    ∃ sequence relation, c.compare = .ok (sequence, relation) ∧ Tested c sequence relation := by
  obtain ⟨-, hcompare⟩ := c.compare_cases.resolve_left fun h => Bool.false_ne_true (hc.symm.trans h.1)
  have hperforms {env : Environment} {s : State} (hroom : env.Room (compareDepth c) s) :
      ∃ t, Performs env c.compareCode s t ∧ OnlyFlags (compareDepth c) s t ∧
        holds c.flagComparison.code t.flags = conditionHolds c s := by
    obtain ⟨t, ht, hregisters, hflags⟩ := performs_compare (hroom.roomAt ((compareDepth_le c).trans (by decide))) hc
    exact ⟨t, ht, .of_untouched hregisters (ht.untouched (contained_compareCode c)), hflags⟩
  refine ⟨c.compareCode, c.flagComparison, hcompare, ?_, ?_⟩
  · intro env o s hcode hroom
    obtain ⟨t, ht, honly, hflags⟩ := hperforms hroom
    exact ⟨t, ht.carried hcode.codeAt (contained_compareCode c), honly, hflags⟩
  · intro a written b target hwritten hpatch env s hcode hroom
    obtain ⟨t, ht, honly, hflags⟩ := hperforms hroom
    obtain ⟨hland, hbytes⟩ := bytes_of_patchBranch hwritten hpatch
    rw [hbytes] at hcode
    obtain ⟨hsequence, hbranch⟩ := Environment.codeAt_append.1 (hcode.codeAt_pieces hland)
    rw [piecesSize_plainPieces] at hbranch
    have hlast := (Environment.codeAt_cons.1 hbranch).1.path_branch t
    rw [if_pos rfl, holds_complement_code, hflags] at hlast
    refine ⟨t, honly, ?_⟩
    have hpath := (ht.path hsequence).trans hlast
    cases h : conditionHolds c s with
    | true => simpa [h, Nat.add_assoc] using hpath
    | false => simpa [h] using hpath

/-- The condition `5 > rax`, which is compared the other way round. -/
def reversedCondition : Condition := ⟨⟨.immediate 5, .origin⟩, .greater, ⟨.register .rax, .origin⟩, .origin⟩

/-- The compare of `reversedCondition` and the branch behind it. -/
def reversedTest : Assembler × Hole .branch := (Assembler.empty.emitAll [.aluImmediate .cmp .rax 5]).reserve .branch

/-- A state at the standard stack pointer with a number in `rax`. -/
def raxState (rax : Int64) : State :=
  ⟨(Registers.zero.set .rsp standardStackPointer).set .rax rax.toUInt64, ⟨false, false, false, false, false⟩, Memory.zero, 0⟩

/-- With its branch filled for its own beginning, `5 > rax` is left behind where it is true, and tried again where it is false. -/
theorem tested_condition_reversed : ∃ (b : Assembler) (env : Environment),
    reversedTest.1.patchBranch reversedTest.2 0 .less true = .ok b ∧ env.Holds 0 b.bytes ∧
    (∃ t : State, Path env 2 ((raxState 3).goto env 0) [] (t.goto env 10)) ∧
    ∃ t : State, Path env 2 ((raxState 5).goto env 0) [] (t.goto env 0) := by
  obtain ⟨b, hb, hbytes⟩ : ∃ b, reversedTest.1.patchBranch reversedTest.2 0 .less true = .ok b ∧ b.bytes.length = 10 := by
    cases h : reversedTest.1.patchBranch reversedTest.2 0 .less true with
    | ok b =>
      have hlength : (reversedTest.1.patchBranch reversedTest.2 0 .less true).map (fun b => b.bytes.length) = .ok 10 := by
        decide +kernel
      rw [h] at hlength
      exact ⟨b, rfl, Except.ok.inj hlength⟩
    | error e =>
      have hok : (reversedTest.1.patchBranch reversedTest.2 0 .less true).isOk = true := by decide +kernel
      rw [h] at hok
      cases hok
  obtain ⟨sequence, relation, hcompare, htested⟩ := tested_condition (c := reversedCondition) rfl
  obtain ⟨rfl, rfl⟩ : [X64.Instruction.aluImmediate .cmp .rax 5] = sequence ∧ Comparison.less = relation :=
    Prod.mk.inj (Except.ok.inj hcompare)
  have hsize : b.bytes.length ≤ codeLimit := hbytes.trans_le (by decide)
  obtain ⟨env, henv⟩ : ∃ env, env = standardEnvironment b.bytes ⟨1, 2⟩ := ⟨_, rfl⟩
  have hcode : env.Holds 0 b.bytes :=
    henv ▸ holds_standardEnvironment hsize
  have hstretch : env.Holds 0 ((b.bytes.drop 0).take 10) := by
    rw [List.drop_zero, ← hbytes, List.take_length]
    exact hcode
  have hrun (rax : Int64) := htested.branched .empty reversedTest.1 b 0 (List.prefix_refl _) hb env (raxState rax) hstretch
    (henv ▸ room_standardEnvironment hsize rfl (by decide))
  refine ⟨b, env, hb, hcode, ?_, ?_⟩
  · obtain ⟨t, -, hpath⟩ := hrun 3
    exact ⟨t, hpath⟩
  · obtain ⟨t, -, hpath⟩ := hrun 5
    exact ⟨t, hpath⟩

end RegisterCompiler.Machine
