import CppEtudes.Common.Machine

/-!
# Three interpreters

`switch_dispatch`, `token_threaded` and `direct_threaded`. An instruction
is an `int32_t` with the opcode in its highest byte and the operand of a
literal below it. Their arithmetic is the 32-bit one that wraps around,
the counters of their loops included, and `/` and `%` have no result
where the quotient has none.

The stack is the array the caller passes; an access outside of it has no
result. `switch_dispatch` fills it from its first cell up, by an index.
The others fill it from its last cell down, by a pointer to the next free
cell, which is its offset here.
-/

namespace CppEtudes

namespace Interpreters

/-- `int32_t`. -/
abbrev Word := BitVec 32

inductive Operator
  | add
  | sub
  | mul
  | div
  | mod
  deriving DecidableEq, Repr

/-- `enum opcode`. -/
inductive Opcode
  | literal
  | operator (op : Operator)
  | stop
  deriving DecidableEq, Repr

/-- `OP_LITERAL` to `OP_END`. -/
def Opcode.value : Opcode → Word
  | .literal => 0
  | .operator .add => 1
  | .operator .sub => 2
  | .operator .mul => 3
  | .operator .div => 4
  | .operator .mod => 5
  | .stop => 6

/-- The opcode of an instruction, `instr >> 24`, as a `case` of the
`switch` and as an index of the `dispatch_table`. -/
def opcode (instr : Word) : Option Opcode :=
  match (instr.sshiftRight 24).toInt with
  | 0 => some .literal
  | 1 => some (.operator .add)
  | 2 => some (.operator .sub)
  | 3 => some (.operator .mul)
  | 4 => some (.operator .div)
  | 5 => some (.operator .mod)
  | 6 => some .stop
  | _ => none

/-- `instr & ((1 << 24) - 1)`. -/
def operand (instr : Word) : Word := instr &&& ((1 <<< 24) - 1)

/-- The operators of C on `int32_t`. -/
def arith : Operator → Word → Word → Option Word
  | .add, x, y => some (x + y)
  | .sub, x, y => some (x - y)
  | .mul, x, y => some (x * y)
  | .div, x, y => if y = 0 ∨ x = BitVec.intMin 32 ∧ y = -1 then none else some (x.sdiv y)
  | .mod, x, y => if y = 0 ∨ x = BitVec.intMin 32 ∧ y = -1 then none else some (x.srem y)

/-- `xs[i]`. -/
def read {α : Type} (xs : List α) (i : ℤ) : Option α := if 0 ≤ i then xs[i.toNat]? else none

/-- `stack[i] = v`. -/
def write (stack : List Word) (i : ℤ) (v : Word) : Option (List Word) :=
  if 0 ≤ i ∧ i < stack.length then some (stack.set i.toNat v) else none

/-- `for (auto i = 0; i < n; ++i)` over the `n` instructions, for at most
`rounds` comparisons. Behind `2 ^ 31 - 1` the counter is negative, which is
a large number for the comparison with a `size_t`. -/
def forEach {σ : Type} (instructions : List Word) (step : Word → σ → Option σ) :
    ℕ → ℤ → σ → Option σ
  | 0, _, _ => none
  | rounds + 1, i, s =>
    if Machine.toSizeT i < instructions.length then
      (read instructions i).bind fun instr =>
        (step instr s).bind fun s => forEach instructions step rounds (Machine.wrap32 (i + 1)) s
    else some s

/-! ## `switch_dispatch` -/

/-- The body of the loop, on the stack and `sp`. -/
def switchStep (instr : Word) : List Word × ℕ → Option (List Word × ℕ)
  | (stack, sp) => do
    match ← opcode instr with
    | .literal =>
      let stack ← write stack sp (operand instr)
      return (stack, sp + 1)
    | .stop => none
    | .operator op =>
      -- `--sp` twice, the first operand being the upper one
      let x ← read stack ((sp : ℤ) - 1)
      let y ← read stack ((sp : ℤ) - 2)
      let result ← arith op x y
      let stack ← write stack ((sp : ℤ) - 2) result
      return (stack, sp - 1)

/-- **`switch_dispatch`.** -/
def switchDispatch (instructions stack : List Word) : Option Word := do
  let (stack, _) ← forEach instructions switchStep (instructions.length + 1) 0 (stack, 0)
  read stack 0

/-! ## The threaded interpreters -/

/-- `sp[0] = …; --sp`, from a literal. -/
def pushLiteral (v : Word) : List Word × ℤ → Option (List Word × ℤ)
  | (stack, sp) => (write stack sp v).map fun stack => (stack, sp - 1)

/-- `sp[2] = sp[1] … sp[2]; ++sp`. -/
def binary (op : Operator) : List Word × ℤ → Option (List Word × ℤ)
  | (stack, sp) => do
    let x ← read stack (sp + 1)
    let y ← read stack (sp + 2)
    let result ← arith op x y
    let stack ← write stack (sp + 2) result
    return (stack, sp + 1)

/-- From the label of `*ip` on. -/
def tokenThreadedFrom : List Word → List Word × ℤ → Option Word
  | [], _ => none
  | instr :: ip, st => do
    match ← opcode instr with
    | .literal => tokenThreadedFrom ip (← pushLiteral (operand instr) st)
    | .stop => read st.1 (st.2 + 1)
    | .operator op => tokenThreadedFrom ip (← binary op st)

/-- **`token_threaded`.** -/
def tokenThreaded (instructions stack : List Word) : Option Word :=
  tokenThreadedFrom instructions (stack, (instructions.length : ℤ) - 1)

/-- The first loop of `direct_threaded`, on `target_addresses` and
`operands`. -/
def decodeStep (instr : Word) : List Opcode × List Word → Option (List Opcode × List Word)
  | (targets, operands) =>
    (opcode instr).map fun op =>
      (targets ++ [op], if op = .literal then operands ++ [operand instr] else operands)

/-- From the label of `*ip` on, with `operands + k`. -/
def directThreadedFrom : List Opcode → List Word → List Word × ℤ → Option Word
  | [], _, _ => none
  | .literal :: ip, operands, st =>
    match operands with
    | [] => none
    | v :: operands => do directThreadedFrom ip operands (← pushLiteral v st)
  | .stop :: _, _, st => read st.1 (st.2 + 1)
  | .operator op :: ip, operands, st => do directThreadedFrom ip operands (← binary op st)

/-- **`direct_threaded`.** -/
def directThreaded (instructions stack : List Word) : Option Word := do
  let (targets, operands) ←
    forEach instructions decodeStep (instructions.length + 1) 0 ([], [])
  directThreadedFrom targets operands (stack, (instructions.length : ℤ) - 1)

/-! ## Programs -/

/-- An instruction of a postfix program. -/
inductive Instr
  | literal (v : Fin (2 ^ 24))
  | operator (op : Operator)
  deriving DecidableEq, Repr

/-- `make_instruction`. -/
def makeInstruction : Instr → Word
  | .literal v => 0 ||| Opcode.literal.value <<< 24 ||| BitVec.ofNat 32 v.val
  | .operator op => 0 ||| (Opcode.operator op).value <<< 24

/-- `make_instruction<OP_END>()`. -/
def makeEnd : Word := 0 ||| Opcode.stop.value <<< 24

end Interpreters

end CppEtudes
