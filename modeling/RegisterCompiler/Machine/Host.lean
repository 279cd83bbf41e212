import RegisterCompiler.Compiler.Lowering
import RegisterCompiler.Machine.State

/-!
# The host

The two functions outside the code that it may call. Each prints one thing. A host is any pair of functions that keeps to the
calling convention: it leaves the callee-saved registers, the stack pointer and everything at or above it as they were, and
may leave anything else in any state.
-/

namespace RegisterCompiler

/-- Something printed. -/
inductive Event where
  | integer (value : Int64)
  | text (bytes : List UInt8)
  deriving DecidableEq, Repr

/-- What a printed thing looks like. -/
def Event.output : Event → List UInt8
  | integer value => utf8Bytes (toString value.toInt)
  | text bytes => bytes

/-- Everything printed, in order. -/
def outputOf (events : List Event) : List UInt8 := events.flatMap Event.output

/-- A text argument of the host: bytes, or nowhere. -/
inductive TextPointer where
  | bytes (bytes : List UInt8)
  | null (length : Nat)
  deriving DecidableEq, Repr

/-- Printing a text that lies nowhere prints nothing. -/
def TextPointer.event : TextPointer → Event
  | bytes b => .text b
  | null _ => .text []

namespace Machine

open X64 (Reg)

/-- The registers that a called function gives back unchanged. -/
def calleeSaved : List Reg := [.rbx, .rsp, .rbp, .r12, .r13, .r14, .r15]

/-- The registers that a called function may leave in any state. -/
def callerSaved : List Reg := [.rax, .rcx, .rdx, .rsi, .rdi, .r8, .r9, .r10, .r11]

/-- What a function keeps from the state before its call to the state after its return. -/
structure Kept (before after : State) : Prop where
  registers : ∀ r ∈ calleeSaved, after.get r = before.get r
  memory : ∀ a, before.get .rsp ≤ a → after.memory.read a = before.memory.read a

/-- The host of a program: where its functions lie, and what they leave behind. -/
structure Host where
  intrinsics : Intrinsics
  /-- The state after a function has returned, but for the instruction pointer. -/
  returned : State → State
  kept : ∀ s, Kept s (returned s)

/-- A state with some registers zero. -/
def clear (rs : List Reg) (s : State) : State := rs.foldl (fun s r => s.set r 0) s

/-- Clearing registers changes no other one. -/
theorem get_clear_of_notMem {r : Reg} {rs : List Reg} (h : r ∉ rs) (s : State) : (clear rs s).get r = s.get r := by
  induction rs generalizing s with
  | nil => rfl
  | cons q rs ih =>
    simp only [List.mem_cons, not_or] at h
    have := ih h.2 (s.set q 0)
    simp only [clear, List.foldl_cons] at this ⊢
    rw [this]
    simp only [State.get, State.set, Registers.get_set]
    rw [if_neg (Ne.symm h.1)]

/-- Clearing registers does not change memory. -/
theorem memory_clear (rs : List Reg) (s : State) : (clear rs s).memory = s.memory := by
  induction rs generalizing s with
  | nil => rfl
  | cons q rs ih => exact ih (s.set q 0)

/-- The host whose functions clear every register they may. -/
def clearingHost (intrinsics : Intrinsics) : Host where
  intrinsics := intrinsics
  returned := clear callerSaved
  kept s := by
    constructor
    · intro r hr
      exact get_clear_of_notMem (by revert hr; cases r <;> decide) s
    · intro a _
      rw [memory_clear]

end Machine

end RegisterCompiler
