import CppEtudes.Interpreters.Model.Interpreters
import Mathlib.Data.BitVec
import Mathlib.Tactic.Common

/-!
# The interpreters evaluate postfix programs

The reference evaluation keeps its stack as a list, the top first, and an
operator computes top op second. `switch_dispatch` has the same stack
reversed at the start of its array, the threaded interpreters have it as
it is at the end of theirs. As long as there is a free cell for each
instruction to come, no access leaves the array.

`switch_dispatch` and the decoding loop of `direct_threaded` count in an
`int`, and therefore see `2 ^ 31` instructions at most.
-/

namespace CppEtudes

namespace Interpreters

/-! ## The reference -/

/-- One instruction of a postfix program, on a stack with its top first. -/
def evalStep : Instr → List Word → Option (List Word)
  | .literal v, st => some (BitVec.ofNat 32 v.val :: st)
  | .operator op, x :: y :: st => (arith op x y).map fun r => r :: st
  | .operator _, _ => none

/-- **The reference evaluation.** There is no result if the stack
underflows, and none of a quotient that is not defined. -/
def eval (program : List Instr) (st : List Word) : Option (List Word) :=
  program.foldlM (fun st instr => evalStep instr st) st

/-- **A run** of a machine that can follow one instruction, with one free
cell fewer after it. -/
theorem eval_simulates {σ : Type} {step : Instr → σ → Option σ} {Sim : ℕ → List Word → σ → Prop}
    (hstep : ∀ {free instr st st' s}, Sim (free + 1) st s → evalStep instr st = some st' →
      ∃ s', step instr s = some s' ∧ Sim free st' s')
    {program : List Instr} {st st' : List Word} {s : σ} (hs : Sim program.length st s)
    (h : eval program st = some st') :
    ∃ s', program.foldlM (fun s instr => step instr s) s = some s' ∧ Sim 0 st' s' := by
  induction program generalizing st s with
  | nil =>
    obtain rfl := Option.some.inj h
    exact ⟨s, rfl, hs⟩
  | cons instr program ih =>
    rw [eval, List.foldlM_cons] at h
    obtain ⟨st₁, h₁, h₂⟩ := Option.bind_eq_some_iff.1 h
    obtain ⟨s₁, hs₁, hsim⟩ := hstep hs h₁
    obtain ⟨s', hrun, hs'⟩ := ih hsim h₂
    refine ⟨s', ?_, hs'⟩
    rw [List.foldlM_cons]
    exact Option.bind_eq_some_iff.2 ⟨s₁, hs₁, hrun⟩

/-! ## Encoding -/

section Encoding

variable (v : Fin (2 ^ 24))

theorem makeInstruction_literal : makeInstruction (.literal v) = BitVec.ofNat 32 v.val := by
  rw [makeInstruction]
  simp [Opcode.value]

theorem toNat_literal : (BitVec.ofNat 32 v.val).toNat = v.val := by
  rw [BitVec.toNat_ofNat]
  exact Nat.mod_eq_of_lt (v.isLt.trans (by decide))

theorem opcode_literal : opcode (makeInstruction (.literal v)) = some .literal := by
  have hv := v.isLt
  have hint : ((BitVec.ofNat 32 v.val).sshiftRight 24).toInt = 0 := by
    rw [BitVec.toInt_sshiftRight, BitVec.toInt_eq_toNat_of_lt (by rw [toNat_literal]; omega),
      toNat_literal, Int.shiftRight_eq_div_pow]
    omega
  rw [makeInstruction_literal, opcode, hint]
  rfl

theorem opcode_operator (op : Operator) :
    opcode (makeInstruction (.operator op)) = some (.operator op) := by
  rcases op with - | - | - | - | - <;> decide

theorem operand_literal :
    operand (makeInstruction (.literal v)) = BitVec.ofNat 32 v.val := by
  have hmask : ((1 <<< 24) - 1 : Word).toNat = 2 ^ 24 - 1 := by decide
  rw [makeInstruction_literal, operand]
  refine BitVec.eq_of_toNat_eq ?_
  rw [BitVec.toNat_and, hmask, toNat_literal, Nat.and_two_pow_sub_one_eq_mod]
  exact Nat.mod_eq_of_lt v.isLt

end Encoding

/-! ## Arrays -/

section Arrays

variable {l₂ : List Word} {a v : Word} {i : ℤ}

theorem read_append {l : List Word} (l₁ : List Word) (hl : l = l₁ ++ a :: l₂) (hi : i = l₁.length) :
    read l i = some a := by
  rw [read, if_pos (by omega), hi, Int.toNat_natCast, hl]
  simp

theorem write_append {l₁ : List Word} (hi : i = l₁.length) :
    write (l₁ ++ a :: l₂) i v = some (l₁ ++ v :: l₂) := by
  have hlen : i < (l₁ ++ a :: l₂).length := by
    rw [List.length_append, List.length_cons]
    omega
  rw [write, if_pos ⟨by omega, hlen⟩, hi, Int.toNat_natCast]
  simp

end Arrays

/-! ## The loops -/

section Loops

variable {σ : Type} {xs : List Word}

theorem forEach_natCast (step : Word → σ → Option σ) {rounds k : ℕ} (hk : k ≤ 2 ^ 31)
    (hle : k ≤ xs.length)
    (hxs : xs.length ≤ 2 ^ 64 - 2 ^ 31) (hrounds : xs.length - k < rounds) (s : σ) :
    forEach xs step rounds (Machine.wrap32 k) s =
      ((xs.take (2 ^ 31)).drop k).foldlM (fun s x => step x s) s := by
  induction rounds generalizing k s with
  | zero => omega
  | succ rounds ih =>
    rw [forEach]
    rcases Nat.lt_or_ge k (2 ^ 31) with hlt | hge
    · have hwrap : Machine.wrap32 k = k := Machine.wrap32_of_inInt ⟨by omega, by omega⟩
      rw [hwrap, Machine.toSizeT_natCast (by omega)]
      rcases Nat.lt_or_ge k xs.length with hin | hout
      · have hk' : k < (xs.take (2 ^ 31)).length := by
          rw [List.length_take]
          omega
        have hread : read xs k = some xs[k] := by
          rw [read, if_pos (Int.natCast_nonneg k), Int.toNat_natCast, List.getElem?_eq_getElem hin]
        rw [if_pos hin, hread, List.drop_eq_getElem_cons hk', List.getElem_take, List.foldlM_cons]
        rcases hstep : step xs[k] s with - | s'
        · simp [hstep]
        · simp only [Option.bind_some, hstep, Option.bind_eq_bind]
          exact ih (k := k + 1) (by omega) (by omega) (by omega) s'
      · rw [if_neg (Nat.not_lt.2 hout), List.drop_eq_nil_of_le]
        · rfl
        · rw [List.length_take]
          omega
    · -- the counter has wrapped
      obtain rfl : k = 2 ^ 31 := by omega
      rw [if_neg, List.drop_eq_nil_of_le]
      · rfl
      · rw [List.length_take]
        omega
      · have hbig : Machine.toSizeT (Machine.wrap32 ((2 ^ 31 : ℕ) : ℤ)) = 2 ^ 64 - 2 ^ 31 := by
          decide
        rw [hbig]
        omega

/-- **A loop sees the first `2 ^ 31` instructions.** -/
theorem forEach_eq (step : Word → σ → Option σ) (hxs : xs.length ≤ 2 ^ 64 - 2 ^ 31) (s : σ) :
    forEach xs step (xs.length + 1) 0 s = (xs.take (2 ^ 31)).foldlM (fun s x => step x s) s := by
  have h := forEach_natCast step (k := 0) (by omega) (Nat.zero_le _) hxs
    (Nat.lt_succ_of_le (Nat.sub_le ..)) s
  rwa [List.drop_zero] at h

end Loops

/-! ## Upward -/

/-- The stack at the start of the array, its top last, and a free cell
for each of the `free` instructions to come. -/
def Upward (free : ℕ) (st : List Word) (s : List Word × ℕ) : Prop :=
  ∃ rest, s.1 = st.reverse ++ rest ∧ s.2 = st.length ∧ free ≤ rest.length

theorem evalStep_operator {op : Operator} {st st' : List Word}
    (h : evalStep (.operator op) st = some st') :
    ∃ x y r st₀, st = x :: y :: st₀ ∧ arith op x y = some r ∧ st' = r :: st₀ := by
  rcases st with - | ⟨x, - | ⟨y, st₀⟩⟩
  · exact nomatch h
  · exact nomatch h
  · obtain ⟨r, hr, rfl⟩ := Option.map_eq_some_iff.1 h
    exact ⟨x, y, r, st₀, rfl, hr, rfl⟩

/-- **One instruction** of `switch_dispatch`. -/
theorem Upward.step {free : ℕ} {st st' : List Word} {s : List Word × ℕ} {instr : Instr}
    (hs : Upward (free + 1) st s) (h : evalStep instr st = some st') :
    ∃ s', switchStep (makeInstruction instr) s = some s' ∧ Upward free st' s' := by
  obtain ⟨stack, sp⟩ := s
  obtain ⟨rest, rfl, rfl, hfree⟩ := hs
  rcases instr with v | op
  · obtain rfl := Option.some.inj h
    obtain ⟨c, rest, rfl⟩ := List.exists_cons_of_length_pos (Nat.zero_lt_of_lt hfree)
    have hwrite : write (st.reverse ++ c :: rest) st.length (BitVec.ofNat 32 v.val) =
        some (st.reverse ++ BitVec.ofNat 32 v.val :: rest) :=
      write_append (by rw [List.length_reverse])
    refine ⟨(st.reverse ++ BitVec.ofNat 32 v.val :: rest, st.length + 1), ?_, rest, ?_, rfl, ?_⟩
    · simp only [switchStep, opcode_literal, operand_literal, Option.bind_eq_bind,
        Option.bind_some, hwrite]
      rfl
    · rw [List.reverse_cons, List.append_assoc]
      rfl
    · exact Nat.le_of_succ_le_succ hfree
  · obtain ⟨x, y, r, st₀, rfl, hr, rfl⟩ := evalStep_operator h
    have hsplit : (x :: y :: st₀).reverse ++ rest = st₀.reverse ++ y :: x :: rest := by simp
    have hx : read (st₀.reverse ++ y :: x :: rest) (((x :: y :: st₀).length : ℤ) - 1) =
        some x :=
      read_append (st₀.reverse ++ [y]) (List.append_cons ..) (by simp)
    have hy : read (st₀.reverse ++ y :: x :: rest) (((x :: y :: st₀).length : ℤ) - 2) =
        some y := read_append st₀.reverse rfl (by simp; omega)
    have hwrite : write (st₀.reverse ++ y :: x :: rest) (((x :: y :: st₀).length : ℤ) - 2) r =
        some (st₀.reverse ++ r :: x :: rest) := write_append (by simp; omega)
    refine ⟨(st₀.reverse ++ r :: x :: rest, st₀.length + 1), ?_, x :: rest, ?_, rfl, ?_⟩
    · simp only [switchStep, opcode_operator, hsplit, Option.bind_eq_bind, Option.bind_some, hx, hy,
        hr, hwrite]
      rfl
    · rw [List.reverse_cons, List.append_assoc]
      rfl
    · rw [List.length_cons]
      omega

theorem Upward.init {stack : List Word} {n : ℕ} (h : n ≤ stack.length) : Upward n [] (stack, 0) :=
  ⟨stack, rfl, rfl, h⟩

/-- `switch_dispatch` runs the first `2 ^ 31` instructions and returns
what is at the bottom of the stack. -/
theorem switchDispatch_eq {program : List Instr} {stack st : List Word} {v : Word}
    (hlen : program.length ≤ 2 ^ 64 - 2 ^ 31) (hstack : stack.length = program.length)
    (h : eval (program.take (2 ^ 31)) [] = some st) (hv : st.getLast? = some v) :
    switchDispatch (program.map makeInstruction) stack = some v := by
  have hfree : (program.take (2 ^ 31)).length ≤ stack.length := by
    rw [List.length_take]
    omega
  obtain ⟨⟨stack', sp⟩, hrun, rest, hs', -, -⟩ :=
    eval_simulates Upward.step (Upward.init hfree) h
  rw [switchDispatch, forEach_eq _ (by rw [List.length_map]; exact hlen), ← List.map_take,
    List.foldlM_map, hrun]
  obtain ⟨st₀, rfl⟩ := List.getLast?_eq_some_iff.1 hv
  refine read_append [] (l := _) (?_ : _ = [] ++ v :: (st₀.reverse ++ rest)) rfl
  rw [show stack' = _ from hs', List.reverse_append]
  rfl

/-! ## Downward -/

/-- The stack at the end of the array, its top first, and a free cell for
each of the `free` instructions to come. -/
def Downward (free : ℕ) (st : List Word) (s : List Word × ℤ) : Prop :=
  ∃ rest, s.1 = rest ++ st ∧ s.2 = (rest.length : ℤ) - 1 ∧ free ≤ rest.length

/-- What both threaded interpreters do for an instruction. -/
def threadedStep : Instr → List Word × ℤ → Option (List Word × ℤ)
  | .literal v => pushLiteral (BitVec.ofNat 32 v.val)
  | .operator op => binary op

/-- **One instruction** of the threaded interpreters. -/
theorem Downward.step {free : ℕ} {st st' : List Word} {s : List Word × ℤ} {instr : Instr}
    (hs : Downward (free + 1) st s) (h : evalStep instr st = some st') :
    ∃ s', threadedStep instr s = some s' ∧ Downward free st' s' := by
  obtain ⟨stack, sp⟩ := s
  obtain ⟨rest, rfl, rfl, hfree⟩ := hs
  rcases instr with v | op
  · obtain rfl := Option.some.inj h
    obtain ⟨rest, c, rfl⟩ := (List.eq_nil_or_concat rest).resolve_left fun hnil => by
      rw [hnil] at hfree
      exact absurd hfree (Nat.not_succ_le_zero _)
    rw [List.concat_eq_append] at hfree ⊢
    rw [List.length_append, List.length_singleton] at hfree
    have hwrite : write (rest ++ [c] ++ st) (((rest ++ [c]).length : ℤ) - 1) (BitVec.ofNat 32 v.val) =
        some (rest ++ BitVec.ofNat 32 v.val :: st) := by
      rw [List.append_assoc]
      exact write_append (by simp)
    refine ⟨(rest ++ BitVec.ofNat 32 v.val :: st, ((rest ++ [c]).length : ℤ) - 1 - 1), ?_, rest, rfl,
      by simp, by omega⟩
    simp only [threadedStep, pushLiteral, hwrite, Option.map_some]
  · obtain ⟨x, y, r, st₀, rfl, hr, rfl⟩ := evalStep_operator h
    have hx : read (rest ++ x :: y :: st₀) ((rest.length : ℤ) - 1 + 1) = some x :=
      read_append rest rfl (by omega)
    have hy : read (rest ++ x :: y :: st₀) ((rest.length : ℤ) - 1 + 2) = some y :=
      read_append (rest ++ [x]) (List.append_cons ..) (by simp; omega)
    have hwrite : write (rest ++ x :: y :: st₀) ((rest.length : ℤ) - 1 + 2) r =
        some (rest ++ [x] ++ r :: st₀) := by
      rw [List.append_cons]
      exact write_append (by simp; omega)
    refine ⟨(rest ++ [x] ++ r :: st₀, (rest.length : ℤ) - 1 + 1), ?_, rest ++ [x], rfl, by simp, ?_⟩
    · simp only [threadedStep, binary, Option.bind_eq_bind, Option.bind_some, hx, hy, hr, hwrite]
      rfl
    · rw [List.length_append]
      omega

theorem Downward.init {stack : List Word} {n : ℕ} (h : n ≤ stack.length) :
    Downward n [] (stack, (stack.length : ℤ) - 1) :=
  ⟨stack, (List.append_nil stack).symm, rfl, h⟩

/-- At the end, `sp[1]` is the value. -/
theorem Downward.read {s : List Word × ℤ} {v : Word} (hs : Downward 0 [v] s) :
    read s.1 (s.2 + 1) = some v := by
  obtain ⟨rest, h₁, h₂, -⟩ := hs
  exact read_append rest h₁ (by omega)

/-! ## Dispatch -/

theorem tokenThreadedFrom_cons (instr : Instr) (ip : List Word) (st : List Word × ℤ) :
    tokenThreadedFrom (makeInstruction instr :: ip) st =
      (threadedStep instr st).bind (tokenThreadedFrom ip) := by
  rcases instr with v | op
  · rw [tokenThreadedFrom, opcode_literal, operand_literal]
    rfl
  · rw [tokenThreadedFrom, opcode_operator]
    rfl

theorem tokenThreadedFrom_eq (program : List Instr) (st : List Word × ℤ) :
    tokenThreadedFrom (program.map makeInstruction ++ [makeEnd]) st =
      (program.foldlM (fun st instr => threadedStep instr st) st).bind fun st =>
        read st.1 (st.2 + 1) := by
  induction program generalizing st with
  | nil => rfl
  | cons instr program ih =>
    rw [List.map_cons, List.cons_append, tokenThreadedFrom_cons, List.foldlM_cons,
      Option.bind_eq_bind, Option.bind_assoc]
    exact Option.bind_congr fun st _ => ih st

/-- The opcode of an instruction. -/
def Instr.target : Instr → Opcode
  | .literal _ => .literal
  | .operator op => .operator op

/-- The operand of a literal. -/
def Instr.operand? : Instr → Option Word
  | .literal v => some (BitVec.ofNat 32 v.val)
  | .operator _ => none

theorem decodeStep_makeInstruction (instr : Instr) (targets : List Opcode) (operands : List Word) :
    decodeStep (makeInstruction instr) (targets, operands) =
      some (targets ++ [instr.target], operands ++ instr.operand?.toList) := by
  rcases instr with v | op
  · rw [decodeStep, opcode_literal, operand_literal]
    rfl
  · rw [decodeStep, opcode_operator]
    simp [Instr.target, Instr.operand?]

theorem decode_eq (program : List Instr) (targets : List Opcode) (operands : List Word) :
    (program.map makeInstruction ++ [makeEnd]).foldlM (fun s instr => decodeStep instr s)
        (targets, operands) =
      some (targets ++ program.map Instr.target ++ [.stop],
        operands ++ program.filterMap Instr.operand?) := by
  induction program generalizing targets operands with
  | nil => simp [decodeStep, show opcode makeEnd = some .stop by decide]
  | cons instr program ih =>
    rw [List.map_cons, List.cons_append, List.foldlM_cons, decodeStep_makeInstruction,
      Option.bind_eq_bind, Option.bind_some, ih, List.map_cons]
    rcases instr with v | op <;> simp [Instr.operand?, List.filterMap_cons]

theorem directThreadedFrom_eq (program : List Instr) (st : List Word × ℤ) :
    directThreadedFrom (program.map Instr.target ++ [.stop]) (program.filterMap Instr.operand?) st =
      (program.foldlM (fun st instr => threadedStep instr st) st).bind fun st =>
        read st.1 (st.2 + 1) := by
  induction program generalizing st with
  | nil => rfl
  | cons instr program ih =>
    have hcons : directThreadedFrom ((instr :: program).map Instr.target ++ [.stop])
        ((instr :: program).filterMap Instr.operand?) st =
          (threadedStep instr st).bind (directThreadedFrom (program.map Instr.target ++ [.stop])
            (program.filterMap Instr.operand?)) := by
      rcases instr with v | op <;> rfl
    rw [hcons, List.foldlM_cons, Option.bind_eq_bind, Option.bind_assoc]
    exact Option.bind_congr fun st _ => ih st

/-! ## The three interpreters -/

section Agreement

variable {program : List Instr} {v : Word}

/-- **The interpreters agree.** A program that leaves one value on the
stack gives this value in each of them, in a stack of as many cells as it
has instructions. -/
theorem interpreters_eval (h : eval program [] = some [v]) :
    (∀ stack : List Word, stack.length = program.length → program.length ≤ 2 ^ 31 →
      switchDispatch (program.map makeInstruction) stack = some v) ∧
    (∀ stack : List Word, stack.length = program.length + 1 →
      tokenThreaded (program.map makeInstruction ++ [makeEnd]) stack = some v) ∧
    ∀ stack : List Word, stack.length = program.length + 1 → program.length + 1 ≤ 2 ^ 31 →
      directThreaded (program.map makeInstruction ++ [makeEnd]) stack = some v := by
  have hinstructions : (program.map makeInstruction ++ [makeEnd]).length = program.length + 1 := by
    rw [List.length_append, List.length_map, List.length_singleton]
  -- both threaded interpreters follow the same steps
  have hthreaded : ∀ stack : List Word, stack.length = program.length + 1 →
      (program.foldlM (fun st instr => threadedStep instr st)
        (stack, ((program.map makeInstruction ++ [makeEnd]).length : ℤ) - 1)).bind
          (fun st => read st.1 (st.2 + 1)) = some v := by
    intro stack hstack
    have hinit : Downward program.length [] (stack, (stack.length : ℤ) - 1) :=
      Downward.init (by omega)
    obtain ⟨s, hrun, hs⟩ := eval_simulates Downward.step hinit h
    rw [hinstructions, ← hstack, hrun]
    exact hs.read
  refine ⟨fun stack hstack hlen => ?_, fun stack hstack => ?_, fun stack hstack hlen => ?_⟩
  · refine switchDispatch_eq (by omega) hstack ?_ List.getLast?_singleton
    rwa [List.take_of_length_le hlen]
  · rw [tokenThreaded, tokenThreadedFrom_eq]
    exact hthreaded stack hstack
  · rw [directThreaded, forEach_eq _ (by omega), List.take_of_length_le (by omega),
      decode_eq, List.nil_append, List.nil_append, Option.bind_eq_bind, Option.bind_some]
    exact (directThreadedFrom_eq ..).trans (hthreaded stack hstack)

end Agreement

/-- The witness: `10 - 3`. -/
theorem interpreters_eval_sub :
    eval [.literal 3, .literal 10, .operator .sub] [] = some [7] ∧
      switchDispatch ([.literal 3, .literal 10, .operator .sub].map makeInstruction) [0, 0, 0] =
        some 7 :=
  ⟨by decide, (interpreters_eval (by decide)).1 [0, 0, 0] rfl (by decide)⟩

/-! ## Beyond the counter -/

/-- A sum of `n + 1` ones. -/
def ones (n : ℕ) : List Instr :=
  .literal 1 :: (List.replicate n [.literal 1, .operator .add]).flatten

theorem ones_succ (n : ℕ) : ones (n + 1) = ones n ++ [.literal 1] ++ [.operator .add] := by
  simp [ones, List.replicate_succ']

theorem length_ones (n : ℕ) : (ones n).length = 2 * n + 1 := by
  induction n with
  | zero => rfl
  | succ n ih =>
    rw [ones_succ, List.length_append, List.length_append, ih]
    rfl

theorem eval_ones (n : ℕ) : eval (ones n) [] = some [BitVec.ofNat 32 (n + 1)] := by
  induction n with
  | zero => rfl
  | succ n ih =>
    rw [eval] at ih ⊢
    rw [ones_succ, List.foldlM_append, List.foldlM_append, ih]
    have hsum : (1 : Word) + BitVec.ofNat 32 (n + 1) = BitVec.ofNat 32 (n + 1 + 1) := by
      rw [Nat.add_comm (n + 1)]
      exact (BitVec.ofNat_add 1 (n + 1)).symm
    exact congrArg (fun r : Word => some [r]) hsum

/-- `switch_dispatch` leaves out the last addition. -/
theorem switchDispatch_ones {n : ℕ} (hn : 2 * n = 2 ^ 31) {stack : List Word}
    (hstack : stack.length = (ones n).length) :
    switchDispatch ((ones n).map makeInstruction) stack = some (BitVec.ofNat 32 n) := by
  obtain ⟨n, rfl⟩ : ∃ m, n = m + 1 := Nat.exists_eq_succ_of_ne_zero (by omega)
  have hlen := length_ones (n + 1)
  have htake : (ones (n + 1)).take (2 ^ 31) = ones n ++ [.literal 1] := by
    rw [ones_succ]
    refine List.take_left' ?_
    rw [List.length_append, length_ones, List.length_singleton]
    omega
  have heval := eval_ones n
  rw [eval] at heval
  have hprefix : eval ((ones (n + 1)).take (2 ^ 31)) [] = some [1, BitVec.ofNat 32 (n + 1)] := by
    rw [htake, eval, List.foldlM_append, heval]
    rfl
  exact switchDispatch_eq (by omega) hstack hprefix rfl

/-- A program of `2 ^ 31 + 1` instructions. -/
theorem switchDispatch_ones_ne :
    eval (ones (2 ^ 30)) [] = some [2 ^ 30 + 1] ∧
      ∀ stack : List Word, stack.length = (ones (2 ^ 30)).length →
        switchDispatch ((ones (2 ^ 30)).map makeInstruction) stack = some (2 ^ 30) := by
  refine ⟨(eval_ones (2 ^ 30)).trans (congrArg (fun r : Word => some [r]) (by decide)), ?_⟩
  intro stack hstack
  exact (switchDispatch_ones (by decide) hstack).trans
    (congrArg (fun r : Word => some r) (by decide))

end Interpreters

end CppEtudes
